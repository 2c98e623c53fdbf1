import NfpEstimator.Gen.Pattern

/-!
# Generators

A generator is a text like `counter(10,5):00%<S`: how its values are computed, from up to three numbers, and a pattern
for one of them at a time. `gen_next` draws a value at random, takes it out of the array, and writes it to the field.
-/

namespace NfpEstimator

namespace Generators

open Scanf Store

/-! ### Arguments -/

/-- The loop of `gen_parse_args` over the places for numbers, with the text up to the colon. -/
def parseNumbers (args : List ℕ) (s : List Char) : Except Stop (List ℕ) :=
  match args with
  | [] => .error (.errx "too many generator args")
  | a :: args =>
    let value := (sscanf [.number 10 32] s).values.headD a
    match s.findIdx? (· = ',') with
    | none => .ok (value :: args)
    | some comma => (parseNumbers args (s.drop (comma + 1))).map (value :: ·)

/-- What `gen_parse_args` returns: the name, the numbers, and the text behind the colon. -/
structure Args where
  name : List Char
  args : List ℕ
  rest : List Char

/-- `gen_parse_args` -/
def genParseArgs (s : List Char) (args : List ℕ) : Except Stop Args :=
  let malformed : Except Stop Args :=
    let buf := String.ofList s
    .error (.errx s!"malformed generator args '{buf}'")
  match s.findIdx? (· = ':'), s.findIdx? (· = '(') with
  | some colon, some bracket =>
    if colon < bracket ∨ s[colon - 1]? ≠ some ')' then malformed
    else
      let buf := bracket + 1
      if colon - 1 = buf then .ok ⟨s.take bracket, args, s.drop (colon + 1)⟩
      else
        (parseNumbers args ((s.drop buf).take (colon - buf))).map fun args =>
          ⟨s.take bracket, args, s.drop (colon + 1)⟩
  | _, _ => malformed

/-! ### Values -/

/-- `iter_counter` -/
def iterCounter (num seek skip : ℕ) : List ℕ :=
  (List.range num).map fun i => (seek + i * ((skip + 1) % 2 ^ 32)) % 2 ^ 32

/-- `struct rnd_state` -/
structure RndState where
  s1 : UInt32
  s2 : UInt32
  s3 : UInt32
  s4 : UInt32

/-- `TAUSWORTHE` -/
def tausworthe (s a b c d : UInt32) : UInt32 := ((s &&& c) <<< d) ^^^ (((s <<< a) ^^^ s) >>> b)

/-- The state after `prandom_u32_state`. -/
def RndState.next (s : RndState) : RndState where
  s1 := tausworthe s.s1 6 13 4294967294 18
  s2 := tausworthe s.s2 2 27 4294967288 2
  s3 := tausworthe s.s3 13 21 4294967280 7
  s4 := tausworthe s.s4 3 12 4294967168 13

/-- What `prandom_u32_state` returns in this state. -/
def RndState.value (s : RndState) : UInt32 := s.s1 ^^^ s.s2 ^^^ s.s3 ^^^ s.s4

/-- `__seed` -/
def seed (x m : UInt32) : UInt32 := if x < m then x + m else x

/-- `prandom_seed_full_state_fixed` -/
def seedFixed : RndState :=
  RndState.next^[10] ⟨seed 0x6e70707a 2, seed 0x263d8fce 8, seed 0x3e3bb1e6 16, seed 0xcf068f5e 128⟩

/-- The loop of `iter_prandom_u32` over the values. -/
def prandomValues (skip : ℕ) : ℕ → RndState → List ℕ
  | 0, _ => []
  | num + 1, s =>
    let s := RndState.next (RndState.next^[skip] s)
    s.value.toNat :: prandomValues skip num s

/-- `iter_prandom_u32` -/
def iterPrandomU32 (num seek skip : ℕ) : List ℕ := prandomValues skip num (RndState.next^[seek] seedFixed)

/-- `struct iter` -/
structure Iter where
  name : List Char
  iter : ℕ → ℕ → ℕ → List ℕ

/-- `iters` -/
def iters : List Iter :=
  [⟨['c', 'o', 'u', 'n', 't', 'e', 'r'], iterCounter⟩,
    ⟨['p', 'r', 'a', 'n', 'd', 'o', 'm', '_', 'u', '3', '2'], iterPrandomU32⟩]

/-! ### Generators -/

/-- `struct gen`; the array is as long as `num` says. -/
structure Gen where
  buf : ℕ → ℕ
  len : ℕ
  writer : Option GenWriter
  off : ℕ
  values : List ℕ

/-- A `struct gen` of zeros. -/
def Gen.zero : Gen := ⟨fun _ => 0, 0, none, 0, []⟩

/-- `gen_init`, with what is in the memory that is allocated. -/
def genInit (malloc : ℕ → ℕ) (s : List Char) : Except Stop Gen :=
  if s = [] then .ok .zero
  else do
    let a ← genParseArgs s [0, 0, 0]
    match iters.find? fun iter => iter.name == a.name with
    | none =>
      let name := String.ofList a.name
      throw (.errx s!"unknown generator type '{name}'")
    | some iter =>
      let len ← patternSize a.rest
      let p ← patternParse malloc 0 none 0 a.rest
      let values := iter.iter (a.args.getD 0 0) (a.args.getD 1 0) (a.args.getD 2 0)
      return ⟨after malloc p.stores, len, p.writer, p.off, values⟩

/-- The stores of a value. -/
def Gen.write (g : Gen) (value : ℕ) : List Store :=
  match g.writer with
  | none => []
  | some writer => shift g.off (writer value)

/-- The value at `index` is taken out of the array: the last one takes its place. -/
def takeOut (values : List ℕ) (index : ℕ) : List ℕ := (values.set index (values.getLastD 0)).dropLast

/-- `gen_next`, with the result of `lrand48`: what it stores, and the generator afterwards. -/
def genNext (lrand48 : ℕ) (g : Gen) : Option (List Store × Gen) :=
  if g.values = [] then none
  else
    let index := lrand48 % g.values.length
    let stores := g.write (g.values.getD index 0)
    some (stores, { g with buf := after g.buf stores, values := takeOut g.values index })

/-! ### Arguments as they are written -/

/-- A number in a text. -/
structure IsNumber (ds : List Char) : Prop where
  ne_nil : ds ≠ []
  digits : ∀ c ∈ ds, isDigit 10 c
  lt : ofDigits 10 ds < 2 ^ 32

/-- A name with numbers, and what is behind the colon. -/
def argsText (name : List Char) (args : List (List Char)) (rest : List Char) : List Char :=
  name ++ '(' :: (List.intercalate [','] args ++ ')' :: ':' :: rest)

section
variable {l r : List Char} {p : Char → Bool} {x : Char} {ds name rest : List Char} {texts : List (List Char)}
  {args : List ℕ}

theorem findIdx?_front (hl : ∀ c ∈ l, p c = false) (hx : p x) : (l ++ x :: r).findIdx? p = some l.length := by
  induction l with
  | nil => rw [List.nil_append, List.findIdx?_cons, if_pos hx, List.length_nil]
  | cons c l ih =>
    obtain ⟨hc, hl⟩ := List.forall_mem_cons.mp hl
    rw [List.cons_append, List.findIdx?_cons, hc, if_neg Bool.false_ne_true, ih hl]
    rfl

/-- What no number contains. -/
theorem IsNumber.ne (h : IsNumber ds) (hx : isDigit 10 x = false) : ∀ c ∈ ds, decide (c = x) = false := by
  intro c hc
  refine decide_eq_false ?_
  rintro rfl
  exact absurd (h.digits c hc) (by rw [hx]; nofun)

theorem IsNumber.scan (h : IsNumber ds) (hstops : Stops 10 r) :
    (sscanf [.number 10 32] (ds ++ r)).values = [ofDigits 10 ds] := by
  rw [sscanf, Scanf.scan, number_digits h.digits h.ne_nil hstops (by decide) (by decide) h.lt]
  rfl

theorem stops_cons (hx : isDigit 10 x = false ∧ x ≠ 'x' ∧ x ≠ 'X') : Stops 10 (x :: r) := by
  intro c hc
  obtain rfl := Option.some.inj hc
  exact hx

/-- Numbers with commas between them are read. -/
theorem parseNumbers_text (hne : texts ≠ []) (hnum : ∀ ds ∈ texts, IsNumber ds) (hlen : texts.length ≤ args.length) :
    parseNumbers args (List.intercalate [','] texts ++ [')']) =
      .ok (texts.map (ofDigits 10) ++ args.drop texts.length) := by
  induction texts generalizing args with
  | nil => exact absurd rfl hne
  | cons ds texts ih =>
    obtain ⟨hds, hnum⟩ := List.forall_mem_cons.mp hnum
    cases args with
    | nil => exact absurd hlen (Nat.not_succ_le_zero _)
    | cons a args =>
      cases texts with
      | nil =>
        have hcomma : (ds ++ [')']).findIdx? (· = ',') = none := by
          refine List.findIdx?_eq_none_iff.mpr fun c hc => ?_
          rcases List.mem_append.mp hc with hc | hc
          · exact hds.ne rfl c hc
          · rw [List.mem_singleton.mp hc]
            rfl
        rw [List.intercalate_singleton, parseNumbers, hds.scan (stops_cons (by decide)), hcomma]
        rfl
      | cons ds' texts =>
        have hcomma := findIdx?_front (r := List.intercalate [','] (ds' :: texts) ++ [')'])
          (hds.ne rfl) (show decide (',' = ',') from rfl)
        rw [List.intercalate_cons_cons, List.append_assoc, List.append_assoc, List.singleton_append, parseNumbers,
          hds.scan (stops_cons (by decide)), hcomma]
        have hdrop : (ds ++ ',' :: (List.intercalate [','] (ds' :: texts) ++ [')'])).drop (ds.length + 1) =
            List.intercalate [','] (ds' :: texts) ++ [')'] := by
          rw [← List.drop_drop, List.drop_left]
          rfl
        dsimp only
        rw [hdrop, ih (List.cons_ne_nil _ _) hnum (Nat.le_of_succ_le_succ hlen)]
        rfl

/-- A character that neither numbers nor commas are. -/
theorem intercalate_ne (hnum : ∀ ds ∈ texts, IsNumber ds) (hx : isDigit 10 x = false) (hcomma : ',' ≠ x) :
    ∀ c ∈ List.intercalate [','] texts, decide (c = x) = false := by
  induction texts with
  | nil => nofun
  | cons ds texts ih =>
    obtain ⟨hds, hnum⟩ := List.forall_mem_cons.mp hnum
    cases texts with
    | nil =>
      rw [List.intercalate_singleton]
      exact hds.ne hx
    | cons ds' texts =>
      rw [List.intercalate_cons_cons]
      intro c hc
      rcases List.mem_append.mp hc with hc | hc
      · rcases List.mem_append.mp hc with hc | hc
        · exact hds.ne hx c hc
        · rw [List.mem_singleton.mp hc]
          exact decide_eq_false hcomma
      · exact ih hnum c hc

theorem intercalate_ne_nil (hne : texts ≠ []) (hnum : ∀ ds ∈ texts, IsNumber ds) :
    List.intercalate [','] texts ≠ [] := by
  obtain ⟨ds, texts, rfl⟩ := List.exists_cons_of_ne_nil hne
  have hds := (hnum ds (by simp)).ne_nil
  cases texts with
  | nil => rwa [List.intercalate_singleton]
  | cons ds' texts =>
    rw [List.intercalate_cons_cons, List.append_assoc]
    exact List.append_ne_nil_of_left_ne_nil hds _

/-- **Arguments are read as they are written**; places that are left keep what they have. -/
theorem genParseArgs_text (hname : ∀ c ∈ name, c ≠ ':' ∧ c ≠ '(') (hnum : ∀ ds ∈ texts, IsNumber ds)
    (hlen : texts.length ≤ args.length) (rest : List Char) :
    genParseArgs (argsText name texts rest) args =
      .ok ⟨name, texts.map (ofDigits 10) ++ args.drop texts.length, rest⟩ := by
  generalize hinter : List.intercalate [','] texts = inter
  have hne := intercalate_ne (x := ':') hnum rfl (by decide)
  have hnil : texts ≠ [] → 0 < inter.length := by
    intro htexts
    rw [← hinter]
    exact List.length_pos_of_ne_nil (intercalate_ne_nil htexts hnum)
  rw [hinter] at hne
  have htext : argsText name texts rest = name ++ '(' :: (inter ++ ')' :: ':' :: rest) := by rw [argsText, hinter]
  have hbracket : (argsText name texts rest).findIdx? (· = '(') = some name.length := by
    rw [htext]
    exact findIdx?_front (fun c hc => decide_eq_false (hname c hc).2) rfl
  have hcolon : (argsText name texts rest).findIdx? (· = ':') = some (name.length + inter.length + 2) := by
    have hfront : ∀ c ∈ name ++ '(' :: (inter ++ [')']), decide (c = ':') = false := by
      intro c hc
      rcases List.mem_append.mp hc with hc | hc
      · exact decide_eq_false (hname c hc).1
      rcases List.mem_cons.mp hc with rfl | hc
      · rfl
      rcases List.mem_append.mp hc with hc | hc
      · exact hne c hc
      · rw [List.mem_singleton.mp hc]
        rfl
    have hidx := findIdx?_front (r := rest) hfront (show decide (':' = ':') from rfl)
    simp only [List.append_assoc, List.cons_append, List.nil_append, ← htext] at hidx
    rw [hidx, List.length_append, List.length_cons, List.length_append, List.length_singleton]
    rfl
  have hlast : (argsText name texts rest)[name.length + inter.length + 2 - 1]? = some ')' := by
    rw [htext, List.getElem?_append_right (by omega),
      show name.length + inter.length + 2 - 1 - name.length = inter.length + 1 by omega, List.getElem?_cons_succ,
      List.getElem?_append_right (Nat.le_refl _), Nat.sub_self]
    rfl
  have htake : (argsText name texts rest).take name.length = name := by rw [htext, List.take_left]
  have hdrop : (argsText name texts rest).drop (name.length + inter.length + 2 + 1) = rest := by
    have hfront : argsText name texts rest = name ++ '(' :: (inter ++ [')', ':']) ++ rest := by simp [htext]
    rw [hfront]
    exact List.drop_left' (by simp; omega)
  have hbody : ((argsText name texts rest).drop (name.length + 1)).take
      (name.length + inter.length + 2 - (name.length + 1)) = inter ++ [')'] := by
    have hfront : argsText name texts rest = name ++ ['('] ++ (inter ++ [')'] ++ ':' :: rest) := by simp [htext]
    rw [hfront, List.drop_left' (by simp)]
    exact List.take_left' (by simp; omega)
  rw [genParseArgs, hcolon, hbracket]
  dsimp only
  rw [if_neg (by rw [hlast]; simp; omega), htake, hdrop, hbody]
  split_ifs with hempty
  · obtain rfl : texts = [] := by
      by_contra htexts
      have := hnil htexts
      omega
    rfl
  · have htexts : texts ≠ [] := by
      rintro rfl
      rw [← hinter] at hempty
      exact hempty rfl
    rw [← hinter, parseNumbers_text htexts hnum hlen]
    rfl

end

section
variable {s : List Char} {n : ℕ} {g : Gen}

/-- Values are written only to the bytes of the buffer. -/
def Gen.Safe (g : Gen) : Prop := ∀ value, Within 0 g.len (g.write value)

/-- So it is after a value has been drawn. -/
theorem Gen.Safe.next (h : g.Safe) {lrand48 : ℕ} {stores : List Store} {g' : Gen}
    (hnext : genNext lrand48 g = some (stores, g')) : Within 0 g.len stores ∧ g'.Safe := by
  rw [genNext] at hnext
  split_ifs at hnext
  obtain ⟨rfl, rfl⟩ : _ = stores ∧ _ = g' := by simpa using hnext
  exact ⟨h _, h⟩

/-- The writer of a pattern and where it writes. -/
theorem patternParse_ok (items : List Item) (hone : (text items).count '%' ≤ 1) (malloc : ℕ → ℕ) :
    ∃ p, patternParse malloc 0 none 0 (text items) = .ok p ∧ Within 0 (bytes items).length p.stores ∧
      bytesAt (after malloc p.stores) 0 (bytes items).length = bytes items ∧
      match firstField 0 items with
      | none => p.writer = none
      | some (off, w) => p.writer = some w.writer ∧ p.off = off := by
  obtain ⟨stores, hwithin, hbytes, hparse⟩ := patternParse_text items malloc 0 none 0 hone
  rw [Nat.zero_add] at hwithin
  refine ⟨_, hparse, ?_⟩
  cases firstField 0 items with
  | none => exact ⟨hwithin, hbytes, rfl⟩
  | some f => exact ⟨hwithin, hbytes, rfl, rfl⟩

/-- **Sizing and parsing agree**: a pattern that is accepted and has one field at most is read to its end and not
beyond, its bytes are written, and later values stay inside of them. -/
theorem pattern_sizes_agree (h : patternSize s = .ok n) (hone : s.count '%' ≤ 1) (malloc : ℕ → ℕ) :
    ∃ p, patternParse malloc 0 none 0 s = .ok p ∧ Within 0 n p.stores ∧
      (∃ items, s = text items ∧ (bytes items).length = n ∧ bytesAt (after malloc p.stores) 0 n = bytes items) ∧
      (∀ writer ∈ p.writer, ∃ w ∈ writers, w.writer = writer ∧ p.off + w.size ≤ n) ∧
      ∀ values lrand48 stores g',
        genNext lrand48 ⟨after malloc p.stores, n, p.writer, p.off, values⟩ = some (stores, g') →
          Within 0 n stores := by
  obtain ⟨items, rfl, rfl⟩ := patternSize_ok h
  obtain ⟨p, hparse, hwithin, hbytes, hfield⟩ := patternParse_ok items hone malloc
  have hwriter : ∀ writer ∈ p.writer, ∃ w ∈ writers, w.writer = writer ∧ p.off + w.size ≤ (bytes items).length := by
    intro writer hwriter
    cases hfirst : firstField 0 items with
    | none =>
      rw [hfirst] at hfield
      rw [hfield] at hwriter
      exact absurd hwriter nofun
    | some f =>
      obtain ⟨off, w⟩ := f
      rw [hfirst] at hfield
      obtain ⟨hsome, hoff⟩ := hfield
      obtain ⟨hw, -, hle⟩ := firstField_le hfirst
      rw [hsome] at hwriter
      exact ⟨w, hw, Option.some.inj hwriter, by omega⟩
  refine ⟨p, hparse, hwithin, ⟨items, rfl, rfl, hbytes⟩, hwriter, fun values lrand48 stores g' hnext => ?_⟩
  refine (Gen.Safe.next (fun value => ?_) hnext).1
  rw [Gen.write]
  split
  · exact within_nil
  · next writer heq =>
    obtain ⟨w, hw, rfl, hle⟩ := hwriter writer heq
    exact (writer_within hw value).shift.mono (Nat.zero_le _) hle

/-- A byte and a field of two. -/
theorem pattern_sizes_agree_field :
    ∃ p, patternParse (fun _ => 7) 0 none 0 ['a', '0', '%', '>', 'S'] = .ok p ∧ Within 0 3 p.stores ∧
      bytesAt (after (fun _ => 7) p.stores) 0 3 = [160, 23, 23] ∧
      ∀ writer ∈ p.writer, ∃ w ∈ writers, w.writer = writer ∧ p.off + w.size ≤ 3 := by
  have hsize : patternSize ['a', '0', '%', '>', 'S'] = .ok 3 := rfl
  obtain ⟨p, hparse, hwithin, -, hwriter, -⟩ := pattern_sizes_agree hsize (by decide) fun _ => 7
  obtain rfl := Except.ok.inj hparse
  exact ⟨_, rfl, hwithin, rfl, hwriter⟩

end

/-! ### Drawing -/

/-- **What is drawn is taken out once.** -/
theorem takeOut_perm {values : List ℕ} {index : ℕ} (h : index < values.length) :
    (values.getD index 0 :: takeOut values index).Perm values := by
  rcases List.eq_nil_or_concat values with rfl | ⟨init, last, rfl⟩
  · exact absurd h (Nat.not_lt_zero _)
  rw [List.concat_eq_append] at h ⊢
  have hlast : (init ++ [last]).getLastD 0 = last := by simp
  rw [takeOut, hlast, List.getD_eq_getElem _ _ h]
  by_cases hlt : index < init.length
  · rw [List.set_append_left _ _ hlt, List.dropLast_concat, List.getElem_append_left hlt]
    calc init[index] :: init.set index last
      _ |>.Perm (init[index] :: last :: init.eraseIdx index) := (List.set_perm_cons_eraseIdx hlt last).cons _
      _ |>.Perm (last :: init[index] :: init.eraseIdx index) := .swap ..
      _ |>.Perm (last :: init) := (List.getElem_cons_eraseIdx_perm hlt).cons _
      _ |>.Perm (init ++ [last]) := (List.perm_append_singleton ..).symm
  · obtain rfl : index = init.length := by
      rw [List.length_append, List.length_singleton] at h
      omega
    rw [List.set_append_right _ _ (Nat.le_refl _), Nat.sub_self, List.getElem_concat_length rfl]
    have hset : [last].set 0 last = [last] := rfl
    rw [hset, List.dropLast_concat]
    exact (List.perm_append_singleton ..).symm

/-- The bytes of a value in its field. -/
def Writer.bytes (w : Writer) (value : ℕ) : List ℕ := bytesAt (after (fun _ => 0) (w.writer value)) 0 w.size

/-- The bytes of items with a value. -/
def render (value : ℕ) (items : List Item) : List ℕ :=
  items.flatMap fun item =>
    match item with
    | .byte a b _ _ => [digitVal a * 16 + digitVal b]
    | .field w _ => w.bytes value

section
variable {g : Gen} {items pre post : List Item} {w : Writer} {malloc : ℕ → ℕ} {value : ℕ}

theorem writer_bytes (hw : w ∈ writers) (m : ℕ → ℕ) (o value : ℕ) :
    bytesAt (after m (shift o (w.writer value))) o w.size = w.bytes value := by
  have hshift : bytesAt (after m (shift o (w.writer value))) (o + 0) w.size =
      bytesAt (after (fun i => m (o + i)) (w.writer value)) 0 w.size := bytesAt_after_shift
  rw [Nat.add_zero] at hshift
  rw [hshift, Writer.bytes]
  simp only [writers, List.mem_cons, List.not_mem_nil, or_false] at hw
  rcases hw with rfl | rfl | rfl | rfl | rfl | rfl <;>
    simp [bytesAt, after, writeBe32, writeLe32, writeBe16, writeLe16, write8, List.range_succ]

theorem bytes_append : bytes (pre ++ post) = bytes pre ++ bytes post := List.flatMap_append

theorem render_append : render value (pre ++ post) = render value pre ++ render value post := List.flatMap_append

/-- Nothing is written without a field. -/
theorem render_eq_bytes (h : (text items).count '%' = 0) : render value items = bytes items := by
  induction items with
  | nil => rfl
  | cons item items ih =>
    rw [count_text_cons] at h
    obtain ⟨hitem, hitems⟩ := Nat.add_eq_zero_iff.mp h
    cases item with
    | byte a b ha hb =>
      have hrest := ih hitems
      rw [render, List.flatMap_cons, bytes_cons, ← hrest]
      rfl
    | field w hw => exact absurd hitem Nat.one_ne_zero

/-- A pattern with one field at most has none, or one with none before and behind it. -/
theorem single_field (hone : (text items).count '%' ≤ 1) :
    (text items).count '%' = 0 ∨ ∃ pre w hw post, items = pre ++ .field w hw :: post ∧
      (text pre).count '%' = 0 ∧ (text post).count '%' = 0 := by
  induction items with
  | nil => exact Or.inl rfl
  | cons item items ih =>
    rw [count_text_cons] at hone ⊢
    cases item with
    | byte a b ha hb =>
      dsimp only at hone ⊢
      refine (ih (by omega)).imp (fun h => by rw [h]) fun ⟨pre, w, hw, post, heq, hpre, hpost⟩ => ?_
      refine ⟨.byte a b ha hb :: pre, w, hw, post, by rw [heq]; rfl, ?_, hpost⟩
      rw [count_text_cons, hpre]
    | field w hw =>
      refine Or.inr ⟨[], w, hw, items, rfl, rfl, ?_⟩
      dsimp only at hone
      omega

/-- The buffer of a generator has the bytes of a pattern, and in its field those of any value. -/
inductive Holds : Gen → List Item → Prop
  | plain {g : Gen} {items : List Item} (hcount : (text items).count '%' = 0) (hlen : g.len = (bytes items).length)
    (hwriter : g.writer = none) (hbuf : bytesAt g.buf 0 (bytes items).length = bytes items) : Holds g items
  | field {g : Gen} {pre post : List Item} {w : Writer} (hw : w ∈ writers) (hpre : (text pre).count '%' = 0)
    (hpost : (text post).count '%' = 0) (hlen : g.len = (bytes (pre ++ .field w hw :: post)).length)
    (hwriter : g.writer = some w.writer) (hoff : g.off = (bytes pre).length)
    (hfront : bytesAt g.buf 0 (bytes pre).length = bytes pre)
    (hback : bytesAt g.buf ((bytes pre).length + w.size) (bytes post).length = bytes post) :
    Holds g (pre ++ .field w hw :: post)

theorem bytes_single_length (hw : w ∈ writers) :
    (bytes (pre ++ .field w hw :: post)).length = (bytes pre).length + w.size + (bytes post).length := by
  rw [bytes_append, List.length_append, bytes_field_length, Nat.add_assoc]

/-- **A value is written as the pattern says.** -/
theorem Holds.write (h : Holds g items) (value : ℕ) (values : List ℕ) :
    bytesAt (after g.buf (g.write value)) 0 g.len = render value items ∧
      Holds { g with buf := after g.buf (g.write value), values := values } items := by
  cases h with
  | plain hcount hlen hwriter hbuf =>
    have hwrite : g.write value = [] := by rw [Gen.write, hwriter]
    rw [hwrite, render_eq_bytes hcount]
    exact ⟨hlen ▸ hbuf, .plain hcount hlen hwriter hbuf⟩
  | @field pre post w hw hpre hpost hlen hwriter hoff hfront hback =>
    have hwrite : g.write value = shift (bytes pre).length (w.writer value) := by rw [Gen.write, hwriter, hoff]
    have hwithin : Within (bytes pre).length ((bytes pre).length + w.size) (g.write value) :=
      hwrite ▸ (writer_within hw value).shift
    have hfront' := (hwithin.bytesAt_after (m := g.buf) (o := 0) (n := (bytes pre).length)
      (Or.inl (Nat.le_of_eq (Nat.zero_add _)))).trans hfront
    have hback' := (hwithin.bytesAt_after (m := g.buf) (n := (bytes post).length) (Or.inr (Nat.le_refl _))).trans hback
    refine ⟨?_, .field hw hpre hpost hlen hwriter hoff hfront' hback'⟩
    have hfield := writer_bytes hw g.buf (bytes pre).length value
    rw [hlen, bytes_single_length, bytesAt_add, bytesAt_add, hfront', Nat.zero_add, Nat.zero_add, hback', hwrite,
      hfield, render_append, render_eq_bytes hpre, List.append_assoc]
    have hrest : render value post = bytes post := render_eq_bytes hpost
    rw [← hrest]
    rfl

theorem Holds.len (h : Holds g items) : g.len = (bytes items).length := by
  cases h with
  | plain _ hlen => exact hlen
  | field _ _ _ hlen => exact hlen

theorem firstField_single (hw : w ∈ writers) (hpre : (text pre).count '%' = 0) (o : ℕ) :
    firstField o (pre ++ .field w hw :: post) = some (o + (bytes pre).length, w) := by
  induction pre generalizing o with
  | nil => rfl
  | cons item pre ih =>
    rw [count_text_cons] at hpre
    obtain ⟨hitem, hrest⟩ := Nat.add_eq_zero_iff.mp hpre
    cases item with
    | byte a b ha hb =>
      rw [List.cons_append, firstField, ih hrest, bytes_byte_length, Nat.add_assoc]
    | field w' hw' => exact absurd hitem Nat.one_ne_zero

end

/-! ### Well-formed generators -/

/-- What a well-formed text of a generator says: how values are computed, from up to three numbers, and a pattern with
one field at most. -/
structure Source where
  iter : Iter
  iter_mem : iter ∈ iters
  args : List (List Char)
  args_length : args.length ≤ 3
  args_number : ∀ ds ∈ args, IsNumber ds
  items : List Item
  single : (Generators.text items).count '%' ≤ 1

/-- How it is written. -/
def Source.text (s : Source) : List Char := argsText s.iter.name s.args (Generators.text s.items)

/-- The number at a place; 0 if it is left out. -/
def numberAt (args : List (List Char)) (i : ℕ) : ℕ := (args.map (ofDigits 10)).getD i 0

/-- Its values. -/
def Source.values (s : Source) : List ℕ := s.iter.iter (numberAt s.args 0) (numberAt s.args 1) (numberAt s.args 2)

theorem iters_find {iter : Iter} (h : iter ∈ iters) :
    iters.find? (fun i => i.name == iter.name) = some iter ∧ ∀ c ∈ iter.name, c ≠ ':' ∧ c ≠ '(' ∧ c ≠ '+' := by
  simp only [iters, List.mem_cons, List.not_mem_nil, or_false] at h
  rcases h with rfl | rfl <;> exact ⟨rfl, by simp⟩

theorem argsText_ne_nil {name rest : List Char} {args : List (List Char)} : argsText name args rest ≠ [] :=
  List.append_ne_nil_of_right_ne_nil _ (List.cons_ne_nil _ _)

/-- Places that are left are 0. -/
theorem numberAt_eq (args : List (List Char)) (n i : ℕ) :
    (args.map (ofDigits 10) ++ (List.replicate n 0).drop args.length).getD i 0 = numberAt args i := by
  rw [numberAt, List.getD_eq_getElem?_getD, List.getD_eq_getElem?_getD, List.drop_replicate]
  by_cases h : i < (args.map (ofDigits 10)).length
  · rw [List.getElem?_append_left h]
  · rw [List.getElem?_append_right (Nat.le_of_not_lt h), List.getElem?_eq_none (Nat.le_of_not_lt h),
      List.getElem?_replicate]
    split_ifs <;> rfl

/-- What is in the buffer after the pattern has been parsed. -/
theorem patternParse_holds (items : List Item) (hone : (text items).count '%' ≤ 1) (malloc : ℕ → ℕ)
    (values : List ℕ) :
    ∃ p, patternParse malloc 0 none 0 (text items) = .ok p ∧
      Holds ⟨after malloc p.stores, (bytes items).length, p.writer, p.off, values⟩ items := by
  obtain ⟨p, hparse, -, hbytes, hfield⟩ := patternParse_ok items hone malloc
  refine ⟨p, hparse, ?_⟩
  rcases single_field hone with hcount | ⟨pre, w, hw, post, rfl, hpre, hpost⟩
  · rw [firstField_eq_none hcount] at hfield
    exact .plain hcount rfl hfield hbytes
  · rw [firstField_single hw hpre, Nat.zero_add] at hfield
    obtain ⟨hwriter, hoff⟩ := hfield
    rw [bytes_single_length, bytesAt_add, bytesAt_add, bytes_append, Nat.zero_add, Nat.zero_add] at hbytes
    rw [bytes_cons, ← List.append_assoc] at hbytes
    have hlen : (bytesAt (after malloc p.stores) 0 (bytes pre).length ++
        bytesAt (after malloc p.stores) (bytes pre).length w.size).length =
          (bytes pre ++ (Item.field w hw).bytes).length := by
      rw [List.length_append, List.length_append, bytesAt_length, bytesAt_length, Item.bytes, List.length_replicate]
    obtain ⟨hleft, hback⟩ := List.append_inj hbytes hlen
    exact .field hw hpre hpost rfl hwriter hoff (List.append_inj hleft bytesAt_length).1 hback

/-- **A well-formed text is a generator of its values.** -/
theorem Source.genInit_text (s : Source) (malloc : ℕ → ℕ) :
    ∃ g, genInit malloc s.text = .ok g ∧ Holds g s.items ∧ g.values = s.values := by
  obtain ⟨hfind, hname⟩ := iters_find s.iter_mem
  have hargs := genParseArgs_text (fun c hc => ⟨(hname c hc).1, (hname c hc).2.1⟩) s.args_number
    (show s.args.length ≤ [0, 0, 0].length from s.args_length) (Generators.text s.items)
  obtain ⟨p, hparse, hholds⟩ := patternParse_holds s.items s.single malloc s.values
  refine ⟨_, ?_, hholds, rfl⟩
  rw [genInit, Source.text, if_neg argsText_ne_nil, hargs]
  simp only [bind, Except.bind]
  rw [hfind, patternSize_text]
  simp only [hparse]
  have hnumber (i : ℕ) := numberAt_eq s.args 3 i
  rw [Source.values, ← hnumber, ← hnumber, ← hnumber]
  rfl

end Generators

end NfpEstimator
