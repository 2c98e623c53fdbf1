import NfpEstimator.Statistics.ReadValue

/-!
# Reading the data

`read_data` reads lines through a buffer. A line of which only a part is in the buffer looks as if it went wrong at its
end: then the buffer is filled up, as far as `read` gives something, and the line is read again. So every function that
reads from the buffer must do the same if there is more behind, unless it went beyond what is there (`Read.Extends`).
The values do not depend on how much each `read` gives (`read_data_chunks`).
-/

namespace NfpEstimator

namespace Statistics

open Scanf

/-! ### A line -/

/-- The loops that skip characters. -/
def skipWhile (p : Char → Bool) : ℕ → List Char → Read Unit
  | c, [] => .ok () c []
  | c, a :: rest => if p a then skipWhile p (c + 1) rest else .ok () c (a :: rest)

/-- `find_key`, with so many words to skip. -/
def findKey : ℕ → ℕ → List Char → Read Unit
  | 0, c, rest => .ok () c rest
  | k + 1, c, rest =>
    (skipWhile (fun a => a ≠ '\x00' && a ≠ '\n' && a ≠ ' ') c rest).bind fun _ c rest =>
      if char rest ≠ ' ' then .retry (c + 1) else findKey k (c + 1) rest.tail

/-- `skip_line` -/
def skipLine (c : ℕ) (rest : List Char) : Read Unit :=
  (if char rest = ' ' then skipWhile (fun a => a ≠ '\x00' && a ≠ '\n') c rest else .ok () c rest).bind
    fun _ c rest => if char rest ≠ '\n' then .retry (c + 1) else .ok () (c + 1) rest.tail

/-- What is read of a line. -/
def readLine (key : ℕ) (shift : Int8) (rest : List Char) : Read UInt64 :=
  (findKey (key - 1) 0 rest).bind fun _ c rest =>
    (readValue shift c rest).bind fun value c rest =>
      (skipLine c rest).bind fun _ c rest => .ok value c rest

/-! ### The loop -/

/-- `sizeof(buf) - 1` -/
def bufferSize : ℕ := 4096

/-- The file: what has not been read of it, and how often `read` was called. -/
structure Fd where
  rest : List Char
  calls : ℕ

/-- `read` gives no more than it is asked for, and something if there is something; how much is up to `sizes`. -/
def read (sizes : ℕ → ℕ) (fd : Fd) (n : ℕ) : List Char × Fd :=
  let r := min (max 1 (sizes fd.calls)) n
  (fd.rest.take r, { rest := fd.rest.drop r, calls := fd.calls + 1 })

/-- `refill`, of a buffer that is filled with `buf` and has a line at `line`; the line is at 0 then. -/
def refill (sizes : ℕ → ℕ) (fd : Fd) (buf : List Char) (line : ℕ) : Bool × Fd × List Char :=
  let kept := buf.drop line
  let (got, fd) := read sizes fd (bufferSize - kept.length)
  (got ≠ [], fd, kept ++ got)

/-- How the program has ended, with what has been stored. -/
structure Ending (σ : Type) where
  stored : σ
  error : Option String

/-- `"invalid input: %.*s"` -/
def invalidInput (c : ℕ) (rest : List Char) : String :=
  "invalid input: " ++ String.ofList ((rest.take c).takeWhile (· ≠ '\x00'))

variable {σ : Type} (store : UInt64 → σ → Except String σ) (sizes : ℕ → ℕ) (key : ℕ) (shift : Int8)

/-- The buffer is filled up if the line went beyond it. -/
def fillUp (fd : Fd) (buf : List Char) (line c : ℕ) : Bool × Fd × List Char × ℕ :=
  if line + c ≥ buf.length then
    let (got, fd, buf) := refill sizes fd buf line
    (got, fd, buf, 0)
  else (true, fd, buf, line)

/-- The loop of `read_data`; `none` if it is not done after so many rounds. -/
def readLoop : ℕ → Fd → List Char → ℕ → ℕ → σ → Option (Ending σ)
  | 0, _, _, _, _, _ => none
  | fuel + 1, fd, buf, line, c, stored =>
    let (more, fd, buf, line) := fillUp sizes fd buf line c
    if !more && c ≠ 0 then some ⟨stored, "unexpected eof"⟩
    else if buf = [] then some ⟨stored, none⟩
    else
      match readLine key shift (buf.drop line) with
      | .ok value c _ =>
        match store value stored with
        | .ok stored => readLoop fuel fd buf (line + c) 0 stored
        | .error message => some ⟨stored, message⟩
      | .retry c =>
        if line + c < buf.length then some ⟨stored, invalidInput c (buf.drop line)⟩
        else readLoop fuel fd buf line c stored
      | .errx message => some ⟨stored, message⟩

/-- `read_data`, of a file with this text. -/
def readData (fuel : ℕ) (text : List Char) (stored : σ) : Option (Ending σ) :=
  readLoop store sizes key shift fuel { rest := text, calls := 0 } [] 0 0 stored

/-! ### More behind -/

/-- What a function does with a text that ends at the position `e`, and with one that has `w` behind it: the same,
unless it goes beyond the end, or reads to the end and is not `firm` there. -/
def Read.Extends {α : Type} (firm : Prop) (e : ℕ) (w : List Char) : Read α → Read α → Prop
  | .ok a c rest, x => c + rest.length = e ∧ (firm ∨ rest ≠ [] → x = .ok a c (rest ++ w))
  | .retry c, x => c < e → x = .retry c
  | .errx message, x => x = .errx message

section
variable {α β : Type} {firm : Prop} {e c : ℕ} {t w : List Char}

/-- What is not firm may go on where the end is beyond what is read next. -/
theorem Read.Extends.bind {x x' : Read α} {f : α → ℕ → List Char → Read β} (h : x.Extends False e w x')
    (hf : ∀ a c rest, c + rest.length = e → rest ≠ [] → (f a c rest).Extends firm e w (f a c (rest ++ w)))
    (hnone : ∀ a y, (f a e []).Extends firm e w y) : (x.bind f).Extends firm e w (x'.bind f) := by
  cases x with
  | ok a c rest =>
    obtain ⟨hlen, hmore⟩ := h
    cases rest with
    | nil =>
      obtain rfl : c = e := hlen
      exact hnone a _
    | cons b rest =>
      rw [hmore (.inr (List.cons_ne_nil _ _))]
      exact hf a c _ hlen (List.cons_ne_nil _ _)
  | retry c =>
    intro hlt
    rw [h hlt]
    rfl
  | errx message =>
    rw [show x' = .errx message from h]
    rfl

theorem Read.Extends.map {x x' : Read α} (g : α → β) (h : x.Extends firm e w x') :
    (x.bind fun a c rest => .ok (g a) c rest).Extends firm e w (x'.bind fun a c rest => .ok (g a) c rest) := by
  cases x with
  | ok a c rest => exact ⟨h.1, fun hmore => by rw [h.2 hmore]; rfl⟩
  | retry c =>
    intro hlt
    rw [h hlt]
    rfl
  | errx message =>
    rw [show x' = .errx message from h]
    rfl

/-- What goes beyond the end may do anything if there is more. -/
theorem Read.Extends.beyond {x : Read α} (hle : e ≤ c) : (Read.retry c).Extends firm e w x := fun hlt =>
  absurd hlt (Nat.not_lt.mpr hle)

theorem Read.Extends.same {x x' : Read α} (hok : ∀ a c rest, x ≠ .ok a c rest) (h : x' = x) :
    x.Extends firm e w x' := by
  cases x with
  | ok a c rest => exact absurd rfl (hok a c rest)
  | retry c => exact fun _ => h
  | errx message => exact h

theorem Read.Extends.ok {a : α} {rest : List Char} (hlen : c + rest.length = e) :
    (Read.ok a c rest).Extends firm e w (.ok a c (rest ++ w)) :=
  ⟨hlen, fun _ => rfl⟩

theorem Read.Extends.none {x : Read α} {a : α} (hlen : c = e) : (Read.ok a c []).Extends False e w x :=
  ⟨hlen, fun h => (h.resolve_left id).elim rfl⟩

theorem Read.bind_eq_ok {x : Read α} {f : α → ℕ → List Char → Read β} {b : β} {rest : List Char}
    (h : x.bind f = .ok b c rest) : ∃ a c' rest', x = .ok a c' rest' ∧ f a c' rest' = .ok b c rest := by
  cases x with
  | ok a c' rest' => exact ⟨a, c', rest', rfl, h⟩
  | retry c' => cases h
  | errx message => cases h

theorem char_append (ht : t ≠ []) (w : List Char) : char (t ++ w) = char t := by
  cases t with
  | nil => exact absurd rfl ht
  | cons a t => rfl

theorem tail_append (ht : t ≠ []) (w : List Char) : (t ++ w).tail = t.tail ++ w := by
  cases t with
  | nil => exact absurd rfl ht
  | cons a t => rfl

theorem length_tail_add (ht : t ≠ []) (hlen : c + t.length = e) : c + 1 + t.tail.length = e := by
  have hpos := List.length_pos_iff.mpr ht
  rw [List.length_tail]
  omega

theorem skipWhile_extends (p : Char → Bool) (hlen : c + t.length = e) :
    (skipWhile p c t).Extends False e w (skipWhile p c (t ++ w)) := by
  induction t generalizing c with
  | nil => exact .none hlen
  | cons a t ih =>
    rw [List.cons_append, skipWhile, skipWhile]
    split_ifs
    · exact ih (length_tail_add (List.cons_ne_nil a t) hlen)
    · exact .ok hlen

theorem findKey_extends (k : ℕ) (hlen : c + t.length = e) :
    (findKey k c t).Extends False e w (findKey k c (t ++ w)) := by
  induction k generalizing c t with
  | zero => exact .ok hlen
  | succ k ih =>
    refine (skipWhile_extends _ hlen).bind (fun _ c rest hlen hne => ?_) fun _ y => .beyond (Nat.le_succ e)
    rw [char_append hne, tail_append hne]
    split_ifs
    · exact .same (fun _ _ _ h => by cases h) rfl
    · exact ih (length_tail_add hne hlen)

theorem skipLine_extends (hlen : c + t.length = e) : (skipLine c t).Extends True e w (skipLine c (t ++ w)) := by
  cases t with
  | nil =>
    obtain rfl : c = e := hlen
    exact .beyond (Nat.le_succ c)
  | cons a t =>
    have hne : a :: t ≠ [] := List.cons_ne_nil a t
    rw [skipLine, skipLine, char_append hne]
    have hskip : (if char (a :: t) = ' ' then skipWhile (fun a => a ≠ '\x00' && a ≠ '\n') c (a :: t)
          else .ok () c (a :: t)).Extends False e w
        (if char (a :: t) = ' ' then skipWhile (fun a => a ≠ '\x00' && a ≠ '\n') c (a :: t ++ w)
          else .ok () c (a :: t ++ w)) := by
      split_ifs
      · exact skipWhile_extends _ hlen
      · exact .ok hlen
    refine hskip.bind (fun _ c rest hlen hne => ?_) fun _ y => .beyond (Nat.le_succ e)
    rw [char_append hne, tail_append hne]
    split_ifs
    · exact .same (fun _ _ _ h => by cases h) rfl
    · exact .ok (length_tail_add hne hlen)

theorem readDigits_extends (f : Bool) (value : UInt64) (shift : Int8) (hlen : c + t.length = e) :
    (readDigits f t value shift c).Extends False e w (readDigits f (t ++ w) value shift c) := by
  induction t generalizing value shift c with
  | nil => exact .none hlen
  | cons a t ih =>
    rw [List.cons_append, readDigits, readDigits]
    dsimp only
    split_ifs
    any_goals exact .same (fun _ _ _ h => by cases h) rfl
    any_goals exact ih _ _ (length_tail_add (List.cons_ne_nil a t) hlen)
    exact .ok hlen

theorem readValue_extends (shift : Int8) (hlen : c + t.length = e) :
    (readValue shift c t).Extends False e w (readValue shift c (t ++ w)) := by
  cases t with
  | nil =>
    obtain rfl : c = e := hlen
    exact .beyond (Nat.le_succ c)
  | cons a t =>
    have hne : a :: t ≠ [] := List.cons_ne_nil a t
    rw [readValue, readValue, char_append hne, tail_append hne]
    by_cases hdigit : (!isDigit 10 (char (a :: t))) = true
    · rw [if_pos hdigit, if_pos hdigit]
      exact .same (fun _ _ _ h => by cases h) rfl
    rw [if_neg hdigit, if_neg hdigit]
    by_cases hend : a = '0' ∧ t = []
    · -- what is behind the zero is not there
      obtain ⟨rfl, rfl⟩ := hend
      obtain rfl : c + 1 = e := hlen
      exact .beyond (Nat.le_succ (c + 1))
    have hzero : (char (a :: t) = '0' ∧ char (t ++ w) ≠ ' ' ∧ char (t ++ w) ≠ '\n' ∧ char (t ++ w) ≠ '.') ↔
        char (a :: t) = '0' ∧ char t ≠ ' ' ∧ char t ≠ '\n' ∧ char t ≠ '.' := by
      refine and_congr_right fun ha => ?_
      rw [char_append fun ht => hend ⟨ha, ht⟩]
    rw [List.tail_cons, if_congr hzero rfl rfl]
    split_ifs
    · exact .same (fun _ _ _ h => by cases h) rfl
    refine (readDigits_extends false 0 shift hlen).bind (fun x c rest hlen hne => ?_) fun _ y => .beyond (Nat.le_succ e)
    dsimp only
    rw [char_append hne, tail_append hne]
    by_cases hspace : char rest = ' ' ∨ char rest = '\n'
    · rw [if_pos hspace, if_pos hspace]
      exact .ok hlen
    rw [if_neg hspace, if_neg hspace]
    by_cases hpoint : char rest ≠ '.'
    · rw [if_pos hpoint, if_pos hpoint]
      exact .same (fun _ _ _ h => by cases h) rfl
    rw [if_neg hpoint, if_neg hpoint]
    have hlen' := length_tail_add hne hlen
    by_cases htail : rest.tail = []
    · rw [htail] at hlen' ⊢
      obtain rfl : c + 1 = e := hlen'
      exact .beyond (Nat.le_succ (c + 1))
    · rw [char_append htail]
      split_ifs
      · exact .same (fun _ _ _ h => by cases h) rfl
      · exact (readDigits_extends true x.1 x.2 hlen').map fun x => scale x.2 x.1

theorem readLine_extends (key : ℕ) (shift : Int8) (t w : List Char) :
    (readLine key shift t).Extends True t.length w (readLine key shift (t ++ w)) := by
  refine (findKey_extends (key - 1) (Nat.zero_add _)).bind (fun _ c rest hlen _ => ?_) fun _ y =>
    .beyond (Nat.le_succ _)
  refine (readValue_extends shift hlen).bind (fun value c rest hlen _ => ?_) fun _ y => .beyond (Nat.le_succ _)
  exact (skipLine_extends hlen).map fun _ => value

/-- A line is read up to its end. -/
theorem readLine_pos {key : ℕ} {shift : Int8} {value : UInt64} {rest : List Char}
    (h : readLine key shift t = .ok value c rest) : 0 < c := by
  obtain ⟨_, c₁, rest₁, -, h⟩ := Read.bind_eq_ok h
  obtain ⟨_, c₂, rest₂, -, h⟩ := Read.bind_eq_ok h
  obtain ⟨_, c₃, rest₃, hskip, h⟩ := Read.bind_eq_ok h
  obtain ⟨_, c₄, rest₄, -, hskip⟩ := Read.bind_eq_ok hskip
  split_ifs at hskip
  cases hskip
  cases h
  exact Nat.succ_pos c₄

end

/-! ### The whole text -/

/-- How a text is read, whatever `read` gives: line by line, each as far as the buffer can hold. -/
def readWhole (text : List Char) (stored : σ) : Ending σ :=
  if _hne : text = [] then ⟨stored, none⟩
  else
    match _hread : readLine key shift (text.take bufferSize) with
    | .ok value c _ =>
      match store value stored with
      | .ok stored => readWhole (text.drop c) stored
      | .error message => ⟨stored, message⟩
    | .retry c =>
      if c < (text.take bufferSize).length then ⟨stored, invalidInput c text⟩ else ⟨stored, "unexpected eof"⟩
    | .errx message => ⟨stored, message⟩
termination_by text.length
decreasing_by
  have hc := readLine_pos _hread
  have hpos := List.length_pos_iff.mpr _hne
  rw [List.length_drop]
  omega

section
variable {store key shift} {text : List Char} {stored : σ} {c : ℕ}

theorem readWhole_ok {value : UInt64} {rest : List Char} (hne : text ≠ [])
    (hread : readLine key shift (text.take bufferSize) = .ok value c rest) :
    readWhole store key shift text stored =
      match store value stored with
      | .ok stored => readWhole store key shift (text.drop c) stored
      | .error message => ⟨stored, message⟩ := by
  rw [readWhole, dif_neg hne]
  split <;> simp_all

theorem readWhole_retry (hne : text ≠ []) (hread : readLine key shift (text.take bufferSize) = .retry c) :
    readWhole store key shift text stored =
      if c < (text.take bufferSize).length then ⟨stored, invalidInput c text⟩ else ⟨stored, "unexpected eof"⟩ := by
  rw [readWhole, dif_neg hne]
  split <;> simp_all

theorem readWhole_errx {message : String} (hne : text ≠ [])
    (hread : readLine key shift (text.take bufferSize) = .errx message) :
    readWhole store key shift text stored = ⟨stored, message⟩ := by
  rw [readWhole, dif_neg hne]
  split <;> simp_all

end

/-- What the buffer is like when it has been filled up: there is the text as before, and more of it than before unless
the line was not beyond it; or nothing was there to be read, or no place for it. -/
structure Filled (fd : Fd) (buf : List Char) (line c : ℕ) (more : Bool) (fd' : Fd) (buf' : List Char) (line' : ℕ) :
    Prop where
  text : buf'.drop line' ++ fd'.rest = buf.drop line ++ fd.rest
  size : (buf'.drop line').length ≤ bufferSize
  empty : buf'.drop line' = [] → buf' = []
  progress : more = true → buf'.drop line' ≠ [] ∧ (fd'.rest.length < fd.rest.length ∨ fd' = fd ∧ line + c < buf.length)
  stuck : more = false →
    buf'.drop line' = buf.drop line ∧ (fd'.rest = [] ∨ bufferSize ≤ (buf'.drop line').length)

theorem read_eq (fd : Fd) (n : ℕ) :
    ∃ r ≤ n, (0 < n → 0 < r) ∧ (read sizes fd n).1 = fd.rest.take r ∧ (read sizes fd n).2.rest = fd.rest.drop r :=
  ⟨min (max 1 (sizes fd.calls)) n, Nat.min_le_right _ _, fun h => by omega, rfl, rfl⟩

theorem fillUp_filled (fd : Fd) {buf : List Char} {line : ℕ} (c : ℕ)
    (hsize : (buf.drop line).length ≤ bufferSize) :
    Filled fd buf line c (fillUp sizes fd buf line c).1 (fillUp sizes fd buf line c).2.1
      (fillUp sizes fd buf line c).2.2.1 (fillUp sizes fd buf line c).2.2.2 := by
  rw [fillUp]
  by_cases hagain : line + c ≥ buf.length
  · rw [if_pos hagain, refill]
    obtain ⟨r, hle, hpos, hgot, hrest⟩ := read_eq sizes fd (bufferSize - (buf.drop line).length)
    dsimp only
    rw [hgot]
    refine ⟨?_, ?_, fun h => h, fun hmore => ?_, fun hmore => ?_⟩
    · rw [List.drop_zero, hrest, List.append_assoc, List.take_append_drop]
    · rw [List.drop_zero, List.length_append, List.length_take]
      omega
    · have hne : fd.rest.take r ≠ [] := of_decide_eq_true hmore
      rw [ne_eq, List.take_eq_nil_iff, not_or] at hne
      have hlen := List.length_pos_iff.mpr hne.2
      refine ⟨?_, .inl ?_⟩
      · rw [List.drop_zero, ne_eq, List.append_eq_nil_iff, List.take_eq_nil_iff]
        tauto
      · rw [hrest, List.length_drop]
        have hr := hne.1
        omega
    · have hnil : fd.rest.take r = [] := not_not.mp (of_decide_eq_false hmore)
      rw [List.drop_zero, hnil, List.append_nil, hrest]
      refine ⟨rfl, ?_⟩
      rcases List.take_eq_nil_iff.mp hnil with hr | hr
      · exact .inr (by omega)
      · rw [hr, List.drop_nil]
        exact .inl rfl
  · rw [if_neg hagain]
    have hne : buf.drop line ≠ [] := by
      rw [ne_eq, List.drop_eq_nil_iff]
      omega
    exact ⟨rfl, hsize, fun h => absurd h hne, fun _ => ⟨hne, .inr ⟨rfl, by omega⟩⟩, nofun⟩

/-- The buffer holds the beginning of what a line can be read from, and all of it if it is stuck. -/
theorem take_buffer {t w : List Char} (ht : t.length ≤ bufferSize) :
    ∃ w', (t ++ w).take bufferSize = t ++ w' ∧ (w = [] ∨ bufferSize ≤ t.length → w' = []) := by
  refine ⟨w.take (bufferSize - t.length), ?_, fun h => ?_⟩
  · rw [List.take_append, List.take_of_length_le ht]
  · rcases h with rfl | h
    · exact List.take_nil
    · rw [Nat.sub_eq_zero_of_le h, List.take_zero]

theorem invalidInput_append {c : ℕ} {t : List Char} (hc : c ≤ t.length) (w : List Char) :
    invalidInput c (t ++ w) = invalidInput c t := by
  rw [invalidInput, invalidInput, List.take_append_of_le_length hc]

variable {store sizes key shift}

/-- However the text has been cut so far, the loop ends as it does for the whole text. -/
theorem readLoop_eq {fuel : ℕ} {fd : Fd} {buf : List Char} {line c : ℕ} {stored : σ}
    (hsize : (buf.drop line).length ≤ bufferSize)
    (hagain : c ≠ 0 → buf.length ≤ line + c ∧ buf.drop line ≠ [] ∧ readLine key shift (buf.drop line) = .retry c)
    (hfuel : 2 * (2 * fd.rest.length + (buf.drop line).length) + (if c = 0 then 1 else 0) < fuel) :
    readLoop store sizes key shift fuel fd buf line c stored =
      some (readWhole store key shift (buf.drop line ++ fd.rest) stored) := by
  induction fuel generalizing fd buf line c stored with
  | zero => exact absurd hfuel (Nat.not_lt_zero _)
  | succ fuel ih =>
    rw [readLoop]
    have hfilled := fillUp_filled sizes fd c hsize
    generalize fillUp sizes fd buf line c = filled at hfilled ⊢
    obtain ⟨more, fd', buf', line'⟩ := filled
    dsimp only at hfilled ⊢
    have hlen := congrArg List.length hfilled.text
    have hdrop : (buf'.drop line').length = buf'.length - line' := List.length_drop
    rw [List.length_append, List.length_append] at hlen
    rw [← hfilled.text]
    obtain ⟨w, hw, hstuck⟩ := take_buffer (w := fd'.rest) hfilled.size
    by_cases heof : (!more && decide (c ≠ 0)) = true
    · -- nothing could be added to the line
      obtain ⟨hmore, hc⟩ : more = false ∧ c ≠ 0 := by simpa using heof
      obtain ⟨hle, hne, hread⟩ := hagain hc
      obtain ⟨hsame, hfull⟩ := hfilled.stuck hmore
      rw [hstuck hfull, List.append_nil, hsame] at hw
      rw [if_pos heof, hsame, readWhole_retry (by simp [hne]) (hw ▸ hread), hw, if_neg]
      rw [List.length_drop]
      omega
    rw [if_neg heof]
    by_cases hempty : buf' = []
    · -- nor is there another line
      have hmore : more = false := by
        by_contra hmore
        exact (hfilled.progress (by simpa using hmore)).1 (by rw [hempty, List.drop_nil])
      have hrest : fd'.rest = [] := (hfilled.stuck hmore).2.resolve_right (by
        rw [hempty, List.drop_nil]
        decide)
      rw [if_pos hempty, hempty, hrest, List.drop_nil, List.append_nil, readWhole, dif_pos rfl]
    rw [if_neg hempty]
    have hne : buf'.drop line' ≠ [] := fun h => hempty (hfilled.empty h)
    have hne' : buf'.drop line' ++ fd'.rest ≠ [] := by simp [hne]
    have hpos := List.length_pos_iff.mpr hne
    -- what is measured gets less, unless the next round reads more
    have hless : 2 * (2 * fd'.rest.length + (buf'.drop line').length) < fuel := by
      cases hmore : more with
      | true =>
        rcases (hfilled.progress hmore).2 with hless | ⟨rfl, hlt⟩
        · omega
        · have hc : c = 0 := by
            by_contra hc
            have hle := (hagain hc).1
            omega
          rw [if_pos hc] at hfuel
          omega
      | false =>
        have hc : c = 0 := by
          by_contra hc
          exact heof (by simp [hmore, hc])
        have hsame := congrArg List.length (hfilled.stuck hmore).1
        rw [if_pos hc] at hfuel
        omega
    have hext := readLine_extends key shift (buf'.drop line') w
    rw [← hw] at hext
    cases hread : readLine key shift (buf'.drop line') with
    | ok value c' rest =>
      rw [hread] at hext
      obtain ⟨hlen', hsame⟩ := hext
      have hc' := readLine_pos hread
      rw [readWhole_ok hne' (hsame (.inl trivial))]
      dsimp only
      cases store value stored with
      | error message => rfl
      | ok stored' =>
        dsimp only
        rw [List.drop_append_of_le_length (by omega), List.drop_drop]
        have hleft : (buf'.drop (line' + c')).length = (buf'.drop line').length - c' := by
          rw [← List.drop_drop, List.length_drop]
        refine ih (by rw [hleft]; exact (Nat.sub_le _ _).trans hfilled.size) (fun h => absurd rfl h) ?_
        rw [hleft, if_pos rfl]
        omega
    | retry c' =>
      rw [hread] at hext
      dsimp only
      by_cases hlt : line' + c' < buf'.length
      · rw [if_pos hlt, readWhole_retry hne' (hext (by omega)), if_pos, invalidInput_append (by omega)]
        rw [hw, List.length_append]
        omega
      · rw [if_neg hlt]
        refine ih hfilled.size (fun _ => ⟨by omega, hne, hread⟩) ?_
        rw [if_neg (by omega)]
        exact hless
    | errx message =>
      rw [hread] at hext
      rw [readWhole_errx hne' hext]

/-- **The data do not depend on how the text is cut**: with any `store`, what is stored, and how it ends. -/
theorem read_data_chunks {σ : Type} (store : UInt64 → σ → Except String σ) (key : ℕ) (shift : Int8) (text : List Char)
    (stored : σ) :
    ∃ ending, ∀ sizes, ∀ fuel > 4 * text.length + 1,
      readData store sizes key shift fuel text stored = some ending :=
  ⟨readWhole store key shift text stored, fun sizes fuel hfuel =>
    readLoop_eq (Nat.zero_le _) (fun h => absurd rfl h) (by
      rw [if_pos rfl]
      simp only [List.drop_nil, List.length_nil]
      omega)⟩

end Statistics

end NfpEstimator
