import NfpEstimator.Gen.Generator

/-!
# Reads of maps from generators

A text describes reads of maps by generators, with `+` between them: `name(4,2):counter(10):00%<S...`, with the size of
the key and that of the value. `mapreads_gen_next` draws from one generator until it is empty, and then goes on to the
next one (`mapreads_gen_enumerates`).
-/

namespace NfpEstimator

namespace Generators

open Scanf Store

/-- `struct mapreads_gen`, with the text that is left. -/
structure MapreadsGen where
  buf : List Char
  name : List Char
  keyLen : ℕ
  valueLen : ℕ
  gen : Gen

/-- `struct mapread_gen` -/
structure MapreadGen where
  name : List Char
  key : List ℕ
  value : List ℕ

/-- The text up to the first `+`, and what is behind it. -/
def splitPlus (buf : List Char) : List Char × List Char :=
  match buf.findIdx? (· = '+') with
  | some plus => (buf.take plus, buf.drop (plus + 1))
  | none => (buf, [])

/-- One generator with its sizes, in memory that has any contents. -/
def sizedGenerator (malloc : ℕ → ℕ) (b : List Char) : Except Stop (Args × Gen) := do
  let a ← genParseArgs b [0, 0]
  let gen ← genInit malloc a.rest
  let keyLen := a.args.getD 0 0
  let valueLen := a.args.getD 1 0
  let len := gen.len
  if len ≠ keyLen + valueLen then
    throw (.errx s!"contradicting sizes in mapreads generator, {len} != {keyLen} + {valueLen}")
  return (a, gen)

section
variable (malloc : List Char → ℕ → ℕ)

/-- `next_gen_pattern` -/
def nextGenPattern (mg : MapreadsGen) : Except Stop MapreadsGen :=
  if mg.buf = [] then .ok mg
  else
    (sizedGenerator (malloc mg.buf) (splitPlus mg.buf).1).map fun (a, gen) =>
      ⟨(splitPlus mg.buf).2, a.name, a.args.getD 0 0, a.args.getD 1 0, gen⟩

/-- `mapreads_gen_init` -/
def mapreadsGenInit (buf : List Char) : Except Stop MapreadsGen := nextGenPattern malloc ⟨buf, [], 0, 0, .zero⟩

theorem splitPlus_lt {buf : List Char} (hbuf : buf ≠ []) : (splitPlus buf).2.length < buf.length := by
  have hpos := List.length_pos_of_ne_nil hbuf
  rw [splitPlus]
  split
  · rw [List.length_drop]
    omega
  · exact hpos

/-- The text gets shorter. -/
theorem nextGenPattern_lt (mg : MapreadsGen) {mg' : MapreadsGen} (hbuf : mg.buf ≠ [])
    (h : nextGenPattern malloc mg = .ok mg') : mg'.buf.length < mg.buf.length := by
  rw [nextGenPattern, if_neg hbuf] at h
  obtain ⟨r, -, rfl⟩ := map_ok h
  exact splitPlus_lt hbuf

/-- `mapreads_gen_next`, with what `lrand48` returns when it is called. -/
def mapreadsGenNext (lrand48 : ℕ) (mg : MapreadsGen) : Except Stop (Option MapreadGen × MapreadsGen) :=
  match genNext lrand48 mg.gen with
  | some (_, gen) =>
    .ok (some ⟨mg.name, bytesAt gen.buf 0 mg.keyLen, bytesAt gen.buf mg.keyLen mg.valueLen⟩, { mg with gen := gen })
  | none =>
    if _hbuf : mg.buf = [] then .ok (none, mg)
    else
      match _h : nextGenPattern malloc { mg with gen := .zero } with
      | .error e => .error e
      | .ok mg' => mapreadsGenNext lrand48 mg'
termination_by mg.buf.length
decreasing_by exact nextGenPattern_lt malloc { mg with gen := .zero } _hbuf _h

/-- Calls of `mapreads_gen_next`, one for each random number. -/
def mapreads (mg : MapreadsGen) : List ℕ → Except Stop (List (Option MapreadGen))
  | [] => .ok []
  | r :: rs => do
    let (m, mg) ← mapreadsGenNext malloc r mg
    let ms ← mapreads mg rs
    return m :: ms

end

/-! ### Well-formed texts -/

/-- The items, the values and the text of what is behind the sizes. -/
def sourceItems : Option Source → List Item
  | none => []
  | some s => s.items

@[inherit_doc sourceItems]
def sourceValues : Option Source → List ℕ
  | none => []
  | some s => s.values

@[inherit_doc sourceItems]
def sourceText : Option Source → List Char
  | none => []
  | some s => s.text

/-- A well-formed text of a generator with the sizes of keys and values. There may be no generator behind the colon. -/
structure SizedSource where
  name : List Char
  name_ne : ∀ c ∈ name, c ≠ ':' ∧ c ≠ '(' ∧ c ≠ '+'
  sizes : List (List Char)
  sizes_length : sizes.length ≤ 2
  sizes_number : ∀ ds ∈ sizes, IsNumber ds
  source : Option Source
  sizes_eq : (bytes (sourceItems source)).length = numberAt sizes 0 + numberAt sizes 1

/-- How it is written. -/
def SizedSource.text (s : SizedSource) : List Char := argsText s.name s.sizes (sourceText s.source)

/-- Its pattern. -/
def SizedSource.items (s : SizedSource) : List Item := sourceItems s.source

/-- Its values. -/
def SizedSource.values (s : SizedSource) : List ℕ := sourceValues s.source

/-- What is read for a value: its bytes are the key and then the value of the map. -/
def SizedSource.read (s : SizedSource) (value : ℕ) : MapreadGen :=
  ⟨s.name, (render value s.items).take (numberAt s.sizes 0), (render value s.items).drop (numberAt s.sizes 0)⟩

/-- A list of them is written with `+` in between. -/
def listText (ss : List SizedSource) : List Char := List.intercalate ['+'] (ss.map SizedSource.text)

section
variable {malloc : List Char → ℕ → ℕ} {s : SizedSource} {ss : List SizedSource} {mg : MapreadsGen} {values : List ℕ}

theorem text_ne_plus (items : List Item) : ∀ c ∈ text items, c ≠ '+' := by
  intro c hc
  obtain ⟨item, -, hc⟩ := List.mem_flatMap.mp hc
  cases item with
  | byte a b ha hb =>
    rcases List.mem_cons.mp hc with rfl | hc
    · exact (digit_char ha (by decide)).2.2
    · rw [List.mem_singleton.mp hc]
      exact (digit_char hb (by decide)).2.2
  | field w hw =>
    have hspec : ∀ w ∈ writers, ∀ c ∈ w.spec, c ≠ '+' := by
      simp [writers]
    rcases List.mem_cons.mp hc with rfl | hc
    · decide
    · exact hspec w hw c hc

theorem argsText_ne_plus {name rest : List Char} {args : List (List Char)} (hname : ∀ c ∈ name, c ≠ '+')
    (hargs : ∀ ds ∈ args, IsNumber ds) (hrest : ∀ c ∈ rest, c ≠ '+') : ∀ c ∈ argsText name args rest, c ≠ '+' := by
  intro c hc
  rcases List.mem_append.mp hc with hc | hc
  · exact hname c hc
  rcases List.mem_cons.mp hc with rfl | hc
  · decide
  rcases List.mem_append.mp hc with hc | hc
  · exact of_decide_eq_false (intercalate_ne hargs rfl (by decide) c hc)
  rcases List.mem_cons.mp hc with rfl | hc
  · decide
  rcases List.mem_cons.mp hc with rfl | hc
  · decide
  · exact hrest c hc

/-- No generator contains what is written between them. -/
theorem SizedSource.text_ne_plus (s : SizedSource) : ∀ c ∈ s.text, c ≠ '+' := by
  refine argsText_ne_plus (fun c hc => (s.name_ne c hc).2.2) s.sizes_number ?_
  cases s.source with
  | none => nofun
  | some t =>
    exact argsText_ne_plus (fun c hc => ((iters_find t.iter_mem).2 c hc).2.2) t.args_number
      (Generators.text_ne_plus t.items)

theorem splitPlus_cons (s : SizedSource) (ss : List SizedSource) :
    splitPlus (listText (s :: ss)) = (s.text, listText ss) := by
  have hplus : ∀ c ∈ s.text, decide (c = '+') = false := fun c hc => decide_eq_false (s.text_ne_plus c hc)
  cases ss with
  | nil =>
    have hlist : listText [s] = s.text := List.intercalate_singleton
    have hnone : s.text.findIdx? (· = '+') = none := List.findIdx?_eq_none_iff.mpr hplus
    rw [splitPlus, hlist, hnone]
    rfl
  | cons s' ss =>
    have hlist : listText (s :: s' :: ss) = s.text ++ '+' :: listText (s' :: ss) := by
      rw [listText, List.map_cons, List.map_cons, List.intercalate_cons_cons, List.append_assoc]
      rfl
    rw [splitPlus, hlist, findIdx?_front hplus rfl]
    dsimp only
    rw [List.take_left, ← List.drop_drop, List.drop_left]
    rfl

/-- What is left to read: the rest of the values of one generator, and the generators behind it. -/
structure Reads (mg : MapreadsGen) (s : SizedSource) (values : List ℕ) (ss : List SizedSource) : Prop where
  buf : mg.buf = listText ss
  name : mg.name = s.name
  keyLen : mg.keyLen = numberAt s.sizes 0
  valueLen : mg.valueLen = numberAt s.sizes 1
  holds : Holds mg.gen s.items
  values : mg.gen.values = values

theorem genInit_source (source : Option Source) (malloc : ℕ → ℕ) :
    ∃ g, genInit malloc (sourceText source) = .ok g ∧ Holds g (sourceItems source) ∧
      g.values = sourceValues source := by
  cases source with
  | none => exact ⟨.zero, rfl, .plain rfl rfl rfl rfl, rfl⟩
  | some s => exact s.genInit_text malloc

/-- Its sizes are those of its pattern. -/
theorem SizedSource.sized (s : SizedSource) (malloc : ℕ → ℕ) :
    ∃ a g, sizedGenerator malloc s.text = .ok (a, g) ∧ a.name = s.name ∧
      (∀ i, a.args.getD i 0 = numberAt s.sizes i) ∧ Holds g s.items ∧ g.values = s.values := by
  have hargs := genParseArgs_text (fun c hc => ⟨(s.name_ne c hc).1, (s.name_ne c hc).2.1⟩) s.sizes_number
    (show s.sizes.length ≤ [0, 0].length from s.sizes_length) (sourceText s.source)
  obtain ⟨g, hinit, hholds, hvalues⟩ := genInit_source s.source malloc
  have hnumber (i : ℕ) : (s.sizes.map (ofDigits 10) ++ [0, 0].drop s.sizes.length).getD i 0 = numberAt s.sizes i :=
    numberAt_eq s.sizes 2 i
  refine ⟨⟨s.name, _, sourceText s.source⟩, g, ?_, rfl, hnumber, hholds, hvalues⟩
  rw [sizedGenerator, SizedSource.text, hargs]
  simp only [bind, Except.bind, hinit]
  rw [if_neg]
  · rfl
  · rw [not_not, hnumber 0, hnumber 1, hholds.len, s.sizes_eq]

theorem SizedSource.sizes_bytes (s : SizedSource) :
    (bytes s.items).length = numberAt s.sizes 0 + numberAt s.sizes 1 := s.sizes_eq

theorem listText_ne_nil : listText (s :: ss) ≠ [] := by
  have htext : s.text ≠ [] := argsText_ne_nil
  cases ss with
  | nil =>
    rw [listText, List.map_singleton, List.intercalate_singleton]
    exact htext
  | cons s' ss =>
    rw [listText, List.map_cons, List.map_cons, List.intercalate_cons_cons, List.append_assoc]
    exact List.append_ne_nil_of_left_ne_nil htext _

variable (malloc) in
/-- The next generator. -/
theorem nextGenPattern_cons (hbuf : mg.buf = listText (s :: ss)) :
    ∃ mg', nextGenPattern malloc mg = .ok mg' ∧ Reads mg' s s.values ss := by
  obtain ⟨a, g, hsized, hname, hargs, hholds, hvalues⟩ := s.sized (malloc mg.buf)
  refine ⟨⟨listText ss, a.name, a.args.getD 0 0, a.args.getD 1 0, g⟩, ?_, rfl, hname, hargs 0, hargs 1, hholds, hvalues⟩
  rw [nextGenPattern, if_neg (by rw [hbuf]; exact listText_ne_nil)]
  have hsplit : splitPlus mg.buf = (s.text, listText ss) := by rw [hbuf, splitPlus_cons]
  rw [hsplit]
  dsimp only
  rw [hsized]
  rfl

variable (malloc) in
/-- A value is drawn. -/
theorem Reads.draw (h : Reads mg s values ss) (hne : values ≠ []) (r : ℕ) :
    ∃ value values' mg', mapreadsGenNext malloc r mg = .ok (some (s.read value), mg') ∧
      (value :: values').Perm values ∧ Reads mg' s values' ss := by
  obtain ⟨hbuf, hname, hkey, hvalue, hholds, rfl⟩ := h
  have hlt : r % mg.gen.values.length < mg.gen.values.length := Nat.mod_lt _ (List.length_pos_of_ne_nil hne)
  have hnext : genNext r mg.gen = _ := if_neg hne
  dsimp only at hnext
  generalize r % mg.gen.values.length = index at hlt hnext
  generalize hdrawn : mg.gen.values.getD index 0 = value at hnext
  obtain ⟨hrender, hholds'⟩ := hholds.write value (takeOut mg.gen.values index)
  generalize hgen : { mg.gen with
    buf := after mg.gen.buf (mg.gen.write value), values := takeOut mg.gen.values index } = gen at hnext hholds'
  have hbuf' : gen.buf = after mg.gen.buf (mg.gen.write value) := by rw [← hgen]
  have hvalues : gen.values = takeOut mg.gen.values index := by rw [← hgen]
  refine ⟨value, takeOut mg.gen.values index, { mg with gen := gen }, ?_, hdrawn ▸ takeOut_perm hlt,
    ⟨hbuf, hname, hkey, hvalue, hholds', hvalues⟩⟩
  rw [mapreadsGenNext, hnext]
  dsimp only
  rw [hholds.len, s.sizes_bytes, bytesAt_add, Nat.zero_add] at hrender
  rw [SizedSource.read, ← hrender, List.take_left' bytesAt_length, List.drop_left' bytesAt_length, hname, hkey, hvalue,
    hbuf']

theorem genNext_nil {g : Gen} (h : g.values = []) (r : ℕ) : genNext r g = none := if_pos h

variable (malloc) in
/-- An empty generator is left. -/
theorem Reads.leave {s' : SizedSource} (h : Reads mg s [] (s' :: ss)) :
    ∃ mg', (∀ r, mapreadsGenNext malloc r mg = mapreadsGenNext malloc r mg') ∧ Reads mg' s' s'.values ss := by
  have hbuf : ({ mg with gen := .zero } : MapreadsGen).buf = listText (s' :: ss) := h.buf
  obtain ⟨mg', hnext, hreads⟩ := nextGenPattern_cons malloc hbuf
  refine ⟨mg', fun r => ?_, hreads⟩
  rw [mapreadsGenNext, genNext_nil h.values]
  dsimp only
  rw [dif_neg (by rw [h.buf]; exact listText_ne_nil)]
  split
  · next heq => exact absurd (hnext.symm.trans heq) nofun
  · next heq => rw [Except.ok.inj (heq.symm.trans hnext)]

/-- Behind the last one nothing is read. -/
theorem mapreadsGenNext_end (hbuf : mg.buf = []) (hvalues : mg.gen.values = []) (r : ℕ) :
    mapreadsGenNext malloc r mg = .ok (none, mg) := by
  rw [mapreadsGenNext, genNext_nil hvalues]
  exact dif_pos hbuf

/-! ### Runs -/

/-- How many values there are. -/
def total (ss : List SizedSource) : ℕ := (ss.map fun s => s.values.length).sum

/-- What is read of each generator, for the values in the order in which they are drawn. -/
def reads (ss : List SizedSource) (drawn : List (List ℕ)) : List MapreadGen :=
  (List.zipWith (fun s values => values.map s.read) ss drawn).flatten

/-- What is drawn of each generator are its values. -/
def Drawn (ss : List SizedSource) (drawn : List (List ℕ)) : Prop :=
  List.Forall₂ (fun s values => values.Perm s.values) ss drawn

theorem mapreads_cons {r : ℕ} {rs : List ℕ} {m : Option MapreadGen} {mg' : MapreadsGen}
    (h : mapreadsGenNext malloc r mg = .ok (m, mg')) :
    mapreads malloc mg (r :: rs) = (mapreads malloc mg' rs).map (m :: ·) := by
  rw [mapreads, h]
  rfl

theorem mapreads_end (hbuf : mg.buf = []) (hvalues : mg.gen.values = []) (rs : List ℕ) :
    mapreads malloc mg rs = .ok (List.replicate rs.length none) := by
  induction rs with
  | nil => rfl
  | cons r rs ih =>
    rw [mapreads_cons (mapreadsGenNext_end hbuf hvalues r), ih]
    rfl

/-- The values of one generator come first, if it goes on behind them. -/
theorem Reads.run_values {n : ℕ}
    (hend : ∀ mg rs, Reads mg s [] ss → rs.length = total ss + n →
      ∃ drawn, Drawn ss drawn ∧
        mapreads malloc mg rs = .ok ((reads ss drawn).map some ++ List.replicate n none))
    (h : Reads mg s values ss) (rs : List ℕ) (hrs : rs.length = values.length + (total ss + n)) :
    ∃ (vs : List ℕ) (drawn : List (List ℕ)), vs.Perm values ∧ Drawn ss drawn ∧
      mapreads malloc mg rs = .ok ((vs.map s.read ++ reads ss drawn).map some ++ List.replicate n none) := by
  induction hk : values.length generalizing mg values rs with
  | zero =>
    obtain rfl := List.length_eq_zero_iff.mp hk
    obtain ⟨drawn, hdrawn, hrun⟩ := hend mg rs h (by omega)
    exact ⟨[], drawn, .nil, hdrawn, hrun⟩
  | succ k ih =>
    cases rs with
    | nil =>
      rw [List.length_nil] at hrs
      omega
    | cons r rs =>
      have hne : values ≠ [] := fun hnil => by
        rw [hnil, List.length_nil] at hk
        omega
      obtain ⟨value, values', mg', hnext, hperm, hreads⟩ := h.draw malloc hne r
      have hlen := hperm.length_eq
      rw [List.length_cons] at hlen hrs
      obtain ⟨vs, drawn, hvs, hdrawn, hrun⟩ := ih hreads rs (by omega) (by omega)
      refine ⟨value :: vs, drawn, (hvs.cons value).trans hperm, hdrawn, ?_⟩
      rw [mapreads_cons hnext, hrun]
      rfl

/-- And so on, generator by generator. -/
theorem Reads.run {n : ℕ} (h : Reads mg s values ss) (rs : List ℕ)
    (hrs : rs.length = values.length + (total ss + n)) :
    ∃ (vs : List ℕ) (drawn : List (List ℕ)), vs.Perm values ∧ Drawn ss drawn ∧
      mapreads malloc mg rs = .ok ((vs.map s.read ++ reads ss drawn).map some ++ List.replicate n none) := by
  induction ss generalizing mg s values rs with
  | nil =>
    refine h.run_values (fun mg rs hmg hlen => ⟨[], .nil, ?_⟩) rs hrs
    have hn : rs.length = n := hlen.trans (Nat.zero_add n)
    rw [mapreads_end hmg.buf hmg.values rs, hn]
    rfl
  | cons s' ss ih =>
    refine h.run_values (fun mg rs hmg hlen => ?_) rs hrs
    obtain ⟨mg', hnext, hreads⟩ := hmg.leave malloc
    have hrun : mapreads malloc mg rs = mapreads malloc mg' rs := by
      cases rs with
      | nil => rfl
      | cons r rs => rw [mapreads, mapreads, hnext]
    have htotal : total (s' :: ss) = s'.values.length + total ss := List.sum_cons
    obtain ⟨vs, drawn, hvs, hdrawn, hrun'⟩ := ih hreads rs (by omega)
    exact ⟨vs :: drawn, .cons hvs hdrawn, hrun.trans hrun'⟩

end

/-- **Every value of every generator is read once**, generator by generator, whatever the random numbers are, and then
nothing more. -/
theorem mapreads_gen_enumerates (malloc : List Char → ℕ → ℕ) (ss : List SizedSource) (lrand48 : ℕ → ℕ) (n : ℕ) :
    ∃ mg drawn, mapreadsGenInit malloc (listText ss) = .ok mg ∧ Drawn ss drawn ∧
      mapreads malloc mg ((List.range (total ss + n)).map lrand48) =
        .ok ((reads ss drawn).map some ++ List.replicate n none) := by
  have hlen : ((List.range (total ss + n)).map lrand48).length = total ss + n := by
    rw [List.length_map, List.length_range]
  cases ss with
  | nil =>
    refine ⟨⟨[], [], 0, 0, .zero⟩, [], rfl, .nil, ?_⟩
    rw [mapreads_end rfl rfl, hlen, show total [] + n = n from Nat.zero_add n]
    rfl
  | cons s ss =>
    obtain ⟨mg, hinit, hreads⟩ : ∃ mg, mapreadsGenInit malloc (listText (s :: ss)) = .ok mg ∧ Reads mg s s.values ss :=
      nextGenPattern_cons malloc rfl
    have htotal : total (s :: ss) = s.values.length + total ss := List.sum_cons
    obtain ⟨vs, drawn, hvs, hdrawn, hrun⟩ := hreads.run (n := n) _ (hlen.trans (by omega))
    exact ⟨mg, vs :: drawn, hinit, .cons hvs hdrawn, hrun⟩

/-- A text that is well-formed: two counted values of one byte, behind a key of one byte. -/
example : ∃ s : SizedSource, s.values = [5, 6] ∧ s.text =
    ['m', '(', '1', ',', '1', ')', ':', 'c', 'o', 'u', 'n', 't', 'e', 'r', '(', '2', ',', '5', ')', ':', '0', 'a', '%',
      '<', 'C'] :=
  ⟨⟨['m'], by simp, [['1'], ['1']], by decide, by simpa using ⟨by decide, List.all_eq_true.mp rfl, by decide⟩,
    some ⟨⟨['c', 'o', 'u', 'n', 't', 'e', 'r'], iterCounter⟩, by simp [iters], [['2'], ['5']], by decide,
      by simpa using ⟨⟨by decide, List.all_eq_true.mp rfl, by decide⟩, ⟨by decide, List.all_eq_true.mp rfl, by decide⟩⟩,
      [.byte '0' 'a' rfl rfl, .field ⟨['<', 'C'], 1, write8⟩ (by simp [writers])], by decide⟩, rfl⟩, rfl, rfl⟩

end Generators

end NfpEstimator
