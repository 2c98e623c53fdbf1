import NfpEstimator.Ereport.Insert
import NfpEstimator.Input.Map

/-!
# Expected maps as texts

`report_path` prints the bytes of a map in lines, a new one where the offset is a multiple of four or does not follow
the last; the script that prepares measurements puts all of them in one line. `ereport_map_parse` finds in either the
offset of each value, and where it is in the text (`mapLines_texts`).
-/

namespace NfpEstimator

namespace Ereport

open Input Scanf

/-- `struct ereport_map`, with the position in the text that `ptr` points to. -/
structure Cell where
  offset : ℕ
  ptr : ℕ
  deriving DecidableEq

/-! ### Parsing -/

/-- `"map[0x%"PRIx32"]=%n"` -/
def mapFormat : List Directive :=
  literals ['m', 'a', 'p', '[', '0', 'x'] ++ (.number 16 32 :: (literals [']', '='] ++ [.offset]))

/-- `"; [0x%"PRIx32"]=%n"` -/
def groupFormat : List Directive :=
  .literal ';' :: .space :: (literals ['[', '0', 'x'] ++ (.number 16 32 :: (literals [']', '='] ++ [.offset])))

section
variable (text : List Char) (zeros : ℕ)

/-- Where the line ends that `l` is in. -/
def lineEnd (l : ℕ) : ℕ := l + ((text.drop l).takeWhile (· ≠ '\n')).length

theorem cString_nil {zeros : ℕ} {s : List Char} (h : cString zeros [] = .ok s) : s = [] := by
  rw [cString] at h
  split at h
  · cases h
  · exact (Except.ok.inj h).symm

/-- The loop over the values of a line, from `l` on, which ends at `le`. -/
def mapCells (le l o : ℕ) : Except Fault (List Cell) :=
  match hs : cString zeros (text.drop l) with
  | .error e => .error e
  | .ok s =>
    let r := sscanf groupFormat s
    -- assigned also if the text ends behind the number
    let o := r.values.headD o
    let n := r.offset.getD 0
    if hr : r.values.length = 1 ∧ n ≠ 0 then mapCells le (l + n) o
    else if hl : le < l + 3 ∨ text[l]? ≠ some ' ' then .ok []
    else do
      let em ← mapCells le (l + 3) ((o + 1) % 2 ^ 32)
      return ⟨o, l + 1⟩ :: em
termination_by text.length - l
decreasing_by
  · have hlt : l < text.length := by
      by_contra hle
      rw [List.drop_eq_nil_of_le (by omega)] at hs
      obtain rfl := cString_nil hs
      exact absurd hr.1 (by decide)
    exact Nat.sub_lt_sub_left hlt (Nat.lt_add_of_pos_right (Nat.pos_of_ne_zero hr.2))
  · have hspace : text[l]? = some ' ' := by_contra fun hspace => hl (Or.inr hspace)
    have hlt := (List.getElem?_eq_some_iff.mp hspace).1
    omega

/-- What is done with a line. -/
def mapLine (le l : ℕ) : Except Fault (List Cell) := do
  let r := sscanf mapFormat (← cString zeros (text.drop l))
  match r.values, r.offset with
  | [o], some n => mapCells text zeros le (l + n) o
  | _, _ => return []

/-- The loop over the lines. -/
def mapLines (l : ℕ) : Except Fault (List Cell) :=
  match _hc : text[l]? with
  | none => if text.length + zeros ≤ l then .error .outside else .ok []
  | some c =>
    if c = '\x00' then .ok []
    else do
      let em ← mapLine text zeros (lineEnd text l) l
      let em' ← mapLines (lineEnd text l + 1)
      return em ++ em'
termination_by text.length - l
decreasing_by
  have hlt := (List.getElem?_eq_some_iff.mp _hc).1
  rw [lineEnd]
  omega

end

/-! ### Printing -/

/-- What is printed by one `<<`, or is part of a string in Ruby: characters, or the value of an entry. -/
inductive Piece where
  | chars (s : List Char)
  | value (e : Entry)

/-- The characters of a piece; a value has a blank in front of it. -/
def Piece.text : Piece → List Char
  | .chars s => s
  | .value e => ' ' :: pad 16 2 e.value

/-- The offset in front of values. -/
def front (o : ℕ) : List Char := ['[', '0', 'x'] ++ (pad 16 8 o ++ [']', '='])

/-- The loop over the entries in `report_path`. -/
def printEntries (last : ℕ) : List Entry → List Piece
  | [] => [.chars ['\n']]
  | e :: es =>
    (if e.offset % 4 = 0 ∨ (last + 1) % 2 ^ 32 ≠ e.offset then
      (if last ≠ 2 ^ 32 - 1 then [.chars ['\n']] else []) ++ [.chars ['m', 'a', 'p'], .chars (front e.offset)]
    else []) ++ .value e :: printEntries e.offset es

/-- How `report_path` prints a map. -/
def reportPath (es : List Entry) : List Piece := printEntries (2 ^ 32 - 1) es

/-- An entry is added to the groups of consecutive offsets. -/
def addEntry (m : List (ℕ × List ℕ)) (e : Entry) : List (ℕ × List ℕ) :=
  match m.getLast? with
  | some (o, vs) =>
    if o + vs.length = e.offset then m.dropLast ++ [(o, vs ++ [e.value])] else m ++ [(e.offset, [e.value])]
  | none => m ++ [(e.offset, [e.value])]

/-- The values of a group. -/
def printValues (o : ℕ) : List ℕ → List Piece
  | [] => []
  | v :: vs => .value ⟨o, v⟩ :: printValues (o + 1) vs

/-- A group of consecutive offsets. -/
def printGroup (g : ℕ × List ℕ) : List Piece := .chars (front g.1) :: printValues g.1 g.2

/-- `Ereport#map`, in a line. -/
def ereportMap (es : List Entry) : List Piece :=
  .chars ['m', 'a', 'p'] :: ([.chars [';', ' ']].intercalate ((es.foldl addEntry []).map printGroup) ++ [.chars ['\n']])

/-- How a map is printed. -/
inductive Form where
  | reportPath
  | ereportMap

/-- A map that is printed. -/
structure Printed where
  form : Form
  entries : List Entry
  increasing : Increasing entries
  lt : ∀ e ∈ entries, e.offset < 2 ^ 32 ∧ e.value < 256

/-- The pieces of a map. -/
def Printed.pieces (p : Printed) : List Piece :=
  match p.form with
  | .reportPath => Ereport.reportPath p.entries
  | .ereportMap => Ereport.ereportMap p.entries

/-- The pieces of several maps, one behind the other. -/
def pieces (ps : List Printed) : List Piece := ps.flatMap Printed.pieces

/-- What is printed. -/
def texts (ps : List Piece) : List Char := ps.flatMap Piece.text

/-- The entries whose values are printed, and where in the text. -/
def marks (l : ℕ) : List Piece → List (Entry × ℕ)
  | [] => []
  | .chars s :: ps => marks (l + s.length) ps
  | .value e :: ps => (e, l + 1) :: marks (l + 3) ps

/-- What is parsed of an entry. -/
def cellOf (m : Entry × ℕ) : Cell := ⟨m.1.offset, m.2⟩

/-- The texts that are parsed, line by line; in a line, with the offset of the next value. -/
inductive Reads : Option ℕ → List Piece → Prop where
  | nil : Reads none []
  | newline {ps : List Piece} (o : Option ℕ) : Reads none ps → Reads o (.chars ['\n'] :: ps)
  | bare {ps : List Piece} : Reads none ps → Reads none (.chars ['m', 'a', 'p'] :: .chars ['\n'] :: ps)
  | map {o : ℕ} {ps : List Piece} : o < 2 ^ 32 → Reads (some o) ps →
    Reads none (.chars ['m', 'a', 'p'] :: .chars (front o) :: ps)
  | group {o o' : ℕ} {ps : List Piece} : o' < 2 ^ 32 → Reads (some o') ps →
    Reads (some o) (.chars [';', ' '] :: .chars (front o') :: ps)
  | value {e : Entry} {ps : List Piece} : e.value < 256 → Reads (some ((e.offset + 1) % 2 ^ 32)) ps →
    Reads (some e.offset) (.value e :: ps)

section
variable {text rest s : List Char} {ps qs : List Piece} {zeros l le o : ℕ} {e : Entry} {es : List Entry}

theorem Reads.append {st : Option ℕ} (h : Reads st ps) (hq : Reads none qs) : Reads st (ps ++ qs) := by
  induction h with
  | nil => exact hq
  | newline o _ ih => exact .newline o ih
  | bare _ ih => exact .bare ih
  | map ho _ ih => exact .map ho ih
  | group ho _ ih => exact .group ho ih
  | value hv _ ih => exact .value hv ih

/-! ### Characters -/

theorem texts_chars : texts (.chars s :: ps) = s ++ texts ps := rfl

theorem texts_value : texts (.value e :: ps) = ' ' :: (pad 16 2 e.value ++ texts ps) := rfl

/-- Digits do not end a line or the text. -/
theorem digits_ne {w n : ℕ} : ∀ c ∈ pad 16 w n, c ≠ '\n' ∧ c ≠ '\x00' := by
  intro c hc
  have hdigit := isDigit_pad (by decide) (by decide) w n c hc
  constructor <;>
  · rintro rfl
    exact absurd hdigit (by decide)

theorem front_ne {o : ℕ} : ∀ c ∈ front o, c ≠ '\n' ∧ c ≠ '\x00' := by
  intro c hc
  rcases List.mem_append.mp hc with hc | hc
  · have hall : ∀ c ∈ ['[', '0', 'x'], c ≠ '\n' ∧ c ≠ '\x00' := by simp
    exact hall c hc
  rcases List.mem_append.mp hc with hc | hc
  · exact digits_ne c hc
  · have hall : ∀ c ∈ [']', '='], c ≠ '\n' ∧ c ≠ '\x00' := by simp
    exact hall c hc

/-- No piece ends the text. -/
theorem Reads.text_ne {st : Option ℕ} (h : Reads st ps) : '\x00' ∉ texts ps := by
  have hcons {p : List Char} {qs : List Char} (hp : '\x00' ∉ p) (hqs : '\x00' ∉ qs) : '\x00' ∉ p ++ qs :=
    fun h => (List.mem_append.mp h).elim hp hqs
  have hfront {o : ℕ} : '\x00' ∉ front o := fun h => (front_ne _ h).2 rfl
  induction h with
  | nil => nofun
  | newline _ _ ih => exact hcons (by decide) ih
  | bare _ ih => exact hcons (by decide) (hcons (by decide) ih)
  | map _ _ ih => exact hcons (by decide) (hcons hfront ih)
  | group _ _ ih => exact hcons (by decide) (hcons hfront ih)
  | value _ _ ih =>
    exact hcons (p := [' ']) (by decide) (hcons (fun h => (digits_ne _ h).2 rfl) ih)

/-! ### Formats -/

theorem front_length (ho : o < 2 ^ 32) : (front o).length = 13 := by
  have hpad : (pad 16 8 o).length = 8 := pad_length (by decide) (by decide) ho
  rw [front, List.length_append, List.length_append, hpad]
  rfl

/-- The offset in front of values is read. -/
theorem scan_front {k : ℕ} (ho : o < 2 ^ 32) (rest : List Char) :
    scan (literals ['[', '0', 'x'] ++ (.number 16 32 :: (literals [']', '='] ++ [.offset]))) k (front o ++ rest) =
      ⟨[o], some (k + 13)⟩ := by
  have hpad : (pad 16 8 o).length = 8 := pad_length (by decide) (by decide) ho
  have hstops : Stops 16 ([']', '='] ++ rest) := by
    intro c hc
    obtain rfl := Option.some.inj hc
    decide
  have hnumber : number 16 32 (pad 16 8 o ++ ([']', '='] ++ rest)) = some (o, [']', '='] ++ rest) :=
    number_pad (by decide) (by decide) (by decide) ho 8 hstops
  rw [front, List.append_assoc, List.append_assoc, scan_literals, scan_number hnumber, scan_literals,
    List.length_append, Nat.add_sub_cancel, hpad]
  rfl

theorem sscanf_map (ho : o < 2 ^ 32) (rest : List Char) :
    sscanf mapFormat (['m', 'a', 'p'] ++ (front o ++ rest)) = ⟨[o], some 16⟩ := by
  have hformat : mapFormat = literals ['m', 'a', 'p'] ++
      (literals ['[', '0', 'x'] ++ (.number 16 32 :: (literals [']', '='] ++ [.offset]))) := rfl
  rw [hformat, sscanf, scan_literals, scan_front ho]
  rfl

theorem sscanf_group (ho : o < 2 ^ 32) (rest : List Char) :
    sscanf groupFormat ([';', ' '] ++ (front o ++ rest)) = ⟨[o], some 15⟩ := by
  have hspace : (' ' :: (front o ++ rest)).dropWhile isSpace = front o ++ rest := rfl
  rw [sscanf, groupFormat, List.cons_append, scan, if_pos rfl, List.cons_append, List.nil_append, scan, hspace,
    List.length_cons, Nat.add_sub_cancel_left, scan_front ho]

/-- Anything else is no group. -/
theorem sscanf_group_ne {c : Char} (hc : c ≠ ';') : sscanf groupFormat (c :: s) = ⟨[], none⟩ := by
  rw [sscanf, groupFormat, scan, if_neg hc]

/-! ### Lines -/

theorem drop_add (h : text.drop l = s ++ rest) : text.drop (l + s.length) = rest := by
  rw [← List.drop_drop, h, List.drop_left]

theorem lineEnd_add (h : text.drop l = s ++ rest) (hs : ∀ c ∈ s, c ≠ '\n') :
    lineEnd text (l + s.length) = lineEnd text l := by
  have hall : ∀ c ∈ s, decide (c ≠ '\n') = true := fun c hc => decide_eq_true (hs c hc)
  rw [lineEnd, lineEnd, drop_add h, h, List.takeWhile_append_of_pos hall, List.length_append, Nat.add_assoc]

theorem lineEnd_newline (h : text.drop l = '\n' :: rest) : lineEnd text l = l := by
  rw [lineEnd, h]
  rfl

theorem getElem?_of_drop {c : Char} (h : text.drop l = c :: rest) : text[l]? = some c := by
  have hhead : (text.drop l)[0]? = text[l + 0]? := List.getElem?_drop
  rw [h] at hhead
  exact hhead.symm

theorem cString_drop (hzeros : 0 < zeros) (htext : '\x00' ∉ text) (l : ℕ) :
    cString zeros (text.drop l) = .ok (text.drop l) :=
  cString_text hzeros fun h => htext (List.mem_of_mem_drop h)

/-- Another group of values. -/
theorem mapCells_group (hzeros : 0 < zeros) (htext : '\x00' ∉ text) (ho : o < 2 ^ 32) {o' : ℕ}
    (h : text.drop l = [';', ' '] ++ (front o ++ rest)) :
    mapCells text zeros le l o' = mapCells text zeros le (l + 15) o := by
  rw [mapCells]
  split
  · next heq => rw [cString_drop hzeros htext] at heq; cases heq
  · next heq =>
    rw [cString_drop hzeros htext, h] at heq
    obtain rfl := Except.ok.inj heq
    rw [sscanf_group ho, dif_pos ⟨rfl, Nat.succ_ne_zero 14⟩]
    rfl

/-- A value. -/
theorem mapCells_value (hzeros : 0 < zeros) (htext : '\x00' ∉ text) (h : text.drop l = ' ' :: rest)
    (hle : l + 3 ≤ le) :
    mapCells text zeros le l o = do
      let em ← mapCells text zeros le (l + 3) ((o + 1) % 2 ^ 32)
      return ⟨o, l + 1⟩ :: em := by
  rw [mapCells]
  split
  · next heq => rw [cString_drop hzeros htext] at heq; cases heq
  · next heq =>
    rw [cString_drop hzeros htext, h] at heq
    obtain rfl := Except.ok.inj heq
    rw [sscanf_group_ne (by decide), dif_neg (by decide), dif_neg]
    · rfl
    · rw [getElem?_of_drop h]
      simp only [ne_eq, not_true_eq_false, or_false]
      omega

/-- The end of a line. -/
theorem mapCells_newline (hzeros : 0 < zeros) (htext : '\x00' ∉ text) (h : text.drop l = '\n' :: rest) :
    mapCells text zeros l l o = .ok [] := by
  rw [mapCells]
  split
  · next heq => rw [cString_drop hzeros htext] at heq; cases heq
  · next heq =>
    rw [cString_drop hzeros htext, h] at heq
    obtain rfl := Except.ok.inj heq
    rw [sscanf_group_ne (by decide), dif_neg (by decide), dif_pos (Or.inl (by omega))]

/-- What is parsed from `l` on, at the beginning of a line or in it. -/
def mapRest (text : List Char) (zeros l : ℕ) : Option ℕ → Except Fault (List Cell)
  | none => mapLines text zeros l
  | some o => do
    let em ← mapCells text zeros (lineEnd text l) l o
    let em' ← mapLines text zeros (lineEnd text l + 1)
    return em ++ em'

theorem mapLines_line {c : Char} (h : text.drop l = c :: rest) (hc : c ≠ '\x00') :
    mapLines text zeros l = do
      let em ← mapLine text zeros (lineEnd text l) l
      let em' ← mapLines text zeros (lineEnd text l + 1)
      return em ++ em' := by
  rw [mapLines]
  split
  · next heq => rw [getElem?_of_drop h] at heq; cases heq
  · next heq =>
    rw [getElem?_of_drop h] at heq
    obtain rfl := Option.some.inj heq
    rw [if_neg hc]

/-- A line without values. -/
theorem mapLines_skip {c : Char} (hzeros : 0 < zeros) (htext : '\x00' ∉ text) (h : text.drop l = c :: rest)
    (hc : c ≠ '\x00') (hskip : sscanf mapFormat (c :: rest) = ⟨[], none⟩) :
    mapLines text zeros l = mapLines text zeros (lineEnd text l + 1) := by
  have hline : mapLine text zeros (lineEnd text l) l = .ok [] := by
    rw [mapLine, cString_drop hzeros htext, h]
    simp only [bind, Except.bind]
    rw [hskip]
    rfl
  rw [mapLines_line h hc, hline]
  simp only [bind, Except.bind, List.nil_append]
  cases mapLines text zeros (lineEnd text l + 1) <;> rfl

theorem length_of_drop (h : text.drop l = s ++ rest) (hl : l ≤ text.length) : l + s.length ≤ text.length := by
  have hlength := congrArg List.length h
  rw [List.length_drop, List.length_append] at hlength
  omega

/-- An offset in a line, with what is in front of it. -/
theorem front_line (h : text.drop l = s ++ (front o ++ rest)) (ho : o < 2 ^ 32) (hs : ∀ c ∈ s, c ≠ '\n')
    (hl : l ≤ text.length) :
    lineEnd text (l + (s.length + 13)) = lineEnd text l ∧ l + (s.length + 13) ≤ text.length ∧
      text.drop (l + (s.length + 13)) = rest := by
  have hfront : text.drop l = (s ++ front o) ++ rest := by rw [h, List.append_assoc]
  have hlength : (s ++ front o).length = s.length + 13 := by rw [List.length_append, front_length ho]
  have hne : ∀ c ∈ s ++ front o, c ≠ '\n' := by
    intro c hc
    rcases List.mem_append.mp hc with hc | hc
    · exact hs c hc
    · exact (front_ne c hc).1
  rw [← hlength]
  exact ⟨lineEnd_add hfront hne, length_of_drop hfront hl, drop_add hfront⟩

/-- **What can be read is read**, with its places. -/
theorem Reads.parsed {st : Option ℕ} (h : Reads st ps) (hzeros : 0 < zeros) (htext : '\x00' ∉ text)
    (hl : l ≤ text.length) (hdrop : text.drop l = texts ps) :
    mapRest text zeros l st = .ok ((marks l ps).map cellOf) := by
  induction h generalizing l with
  | nil =>
    have hlength := List.drop_eq_nil_iff.mp hdrop
    rw [mapRest, mapLines]
    split
    · rw [if_neg (by omega)]
      rfl
    · next heq =>
      rw [List.getElem?_eq_none hlength] at heq
      cases heq
  | newline o _ ih =>
    have hnext := ih (l := l + 1) (length_of_drop (s := ['\n']) hdrop hl) (drop_add (s := ['\n']) hdrop)
    have hend := lineEnd_newline hdrop
    cases o with
    | none =>
      rw [mapRest, mapLines_skip hzeros htext hdrop (by decide) rfl, hend]
      exact hnext
    | some o =>
      rw [mapRest, hend, mapCells_newline hzeros htext hdrop]
      simp only [bind, Except.bind]
      rw [show mapLines text zeros (l + 1) = _ from hnext]
      rfl
  | @bare ps _ ih =>
    have hnewline : text.drop (l + 3) = '\n' :: texts ps := drop_add (s := ['m', 'a', 'p']) hdrop
    have hend : lineEnd text l = l + 3 := by
      rw [← lineEnd_add (s := ['m', 'a', 'p']) hdrop (by simp)]
      exact lineEnd_newline hnewline
    have hle := length_of_drop (s := ['m', 'a', 'p', '\n']) hdrop hl
    rw [mapRest, mapLines_skip hzeros htext hdrop (by decide) rfl, hend]
    exact ih (l := l + 3 + 1) hle (drop_add (s := ['\n']) hnewline)
  | @map o ps ho _ ih =>
    obtain ⟨hend, hle, hrest⟩ : lineEnd text (l + 16) = lineEnd text l ∧ l + 16 ≤ text.length ∧
        text.drop (l + 16) = texts ps := front_line (s := ['m', 'a', 'p']) hdrop ho (by simp) hl
    have hscan : sscanf mapFormat (texts (.chars ['m', 'a', 'p'] :: .chars (front o) :: ps)) = ⟨[o], some 16⟩ :=
      sscanf_map ho (texts ps)
    have hline : mapLine text zeros (lineEnd text l) l = mapCells text zeros (lineEnd text (l + 16)) (l + 16) o := by
      rw [mapLine, cString_drop hzeros htext, hdrop, hend]
      simp only [bind, Except.bind]
      rw [hscan]
    have hmarks : marks l (.chars ['m', 'a', 'p'] :: .chars (front o) :: ps) = marks (l + 16) ps := by
      rw [marks, marks, front_length ho, Nat.add_assoc]
      rfl
    have hbegin : text.drop l = 'm' :: (['a', 'p'] ++ (front o ++ texts ps)) := hdrop
    rw [mapRest, mapLines_line hbegin (by decide), hline, ← hend, hmarks]
    exact ih hle hrest
  | @group o o' ps ho _ ih =>
    obtain ⟨hend, hle, hrest⟩ : lineEnd text (l + 15) = lineEnd text l ∧ l + 15 ≤ text.length ∧
        text.drop (l + 15) = texts ps := front_line (s := [';', ' ']) hdrop ho (by simp) hl
    have hmarks : marks l (.chars [';', ' '] :: .chars (front o') :: ps) = marks (l + 15) ps := by
      rw [marks, marks, front_length ho, Nat.add_assoc]
      rfl
    rw [mapRest, mapCells_group hzeros htext ho hdrop, ← hend, hmarks]
    exact ih hle hrest
  | @value e ps hv _ ih =>
    have hpad : (pad 16 2 e.value).length = 2 := pad_length (by decide) (by decide) hv
    have hlength : (' ' :: pad 16 2 e.value).length = 3 := by rw [List.length_cons, hpad]
    have hne : ∀ c ∈ ' ' :: pad 16 2 e.value, c ≠ '\n' := by
      intro c hc
      rcases List.mem_cons.mp hc with rfl | hc
      · decide
      · exact (digits_ne c hc).1
    have hend := lineEnd_add (s := ' ' :: pad 16 2 e.value) hdrop hne
    have hle := length_of_drop (s := ' ' :: pad 16 2 e.value) hdrop hl
    have hrest := drop_add (s := ' ' :: pad 16 2 e.value) hdrop
    rw [hlength] at hend hle hrest
    have hlong : l + 3 ≤ lineEnd text l := by
      rw [← hend]
      exact Nat.le_add_right _ _
    have hnext := ih hle hrest
    rw [mapRest, hend] at hnext
    rw [mapRest, mapCells_value hzeros htext hdrop hlong, marks, List.map_cons]
    cases hcells : mapCells text zeros (lineEnd text l) (l + 3) ((e.offset + 1) % 2 ^ 32) with
    | error f => rw [hcells] at hnext; cases hnext
    | ok em =>
      rw [hcells] at hnext
      simp only [bind, Except.bind] at hnext ⊢
      cases hlines : mapLines text zeros (lineEnd text l + 1) with
      | error f => rw [hlines] at hnext; cases hnext
      | ok em' =>
        rw [hlines] at hnext
        have hem := Except.ok.inj hnext
        exact congrArg (fun em => Except.ok (_ :: em)) hem

/-! ### What is printed can be read -/

/-- The entries whose values are printed. -/
def valuesOf (ps : List Piece) : List Entry :=
  ps.filterMap fun
    | .chars _ => none
    | .value e => some e

theorem marks_entries (l : ℕ) (ps : List Piece) : (marks l ps).map Prod.fst = valuesOf ps := by
  induction ps generalizing l with
  | nil => rfl
  | cons p ps ih =>
    cases p with
    | chars s => exact ih (l + s.length)
    | value e => exact congrArg (e :: ·) (ih (l + 3))

theorem valuesOf_append : valuesOf (ps ++ qs) = valuesOf ps ++ valuesOf qs := List.filterMap_append

theorem valuesOf_printEntries (last : ℕ) (es : List Entry) : valuesOf (printEntries last es) = es := by
  induction es generalizing last with
  | nil => rfl
  | cons e es ih =>
    have hlast := ih e.offset
    rw [printEntries, valuesOf_append]
    split_ifs <;> exact congrArg (e :: ·) hlast

/-- In a line, behind the value of `last`. -/
theorem printEntries_reads {last : ℕ} (hs : Increasing es) (hlt : ∀ e ∈ es, e.offset < 2 ^ 32 ∧ e.value < 256)
    (hlast : ∀ e ∈ es, last < e.offset) : Reads (some ((last + 1) % 2 ^ 32)) (printEntries last es) := by
  induction es generalizing last with
  | nil => exact .newline _ .nil
  | cons e es ih =>
    obtain ⟨hoffset, hvalue⟩ := hlt e (by simp)
    obtain ⟨hmin, hs⟩ := List.pairwise_cons.mp hs
    have hrest := ih hs (fun x hx => hlt x (List.mem_cons_of_mem _ hx)) hmin
    have hle := hlast e (by simp)
    rw [printEntries, if_pos (c := last ≠ 2 ^ 32 - 1) (by omega)]
    split_ifs with hnew
    · exact .newline _ (.map hoffset (.value hvalue hrest))
    · rw [not_or, not_not] at hnew
      rw [hnew.2]
      exact .value hvalue hrest

theorem reportPath_reads (hs : Increasing es) (hlt : ∀ e ∈ es, e.offset < 2 ^ 32 ∧ e.value < 256) :
    Reads none (reportPath es) := by
  cases es with
  | nil => exact .newline _ .nil
  | cons e es =>
    obtain ⟨hoffset, hvalue⟩ := hlt e (by simp)
    obtain ⟨hmin, hs⟩ := List.pairwise_cons.mp hs
    have hrest := printEntries_reads hs (fun x hx => hlt x (List.mem_cons_of_mem _ hx)) hmin
    rw [reportPath, printEntries, if_pos (by omega), if_neg (by simp)]
    exact .map hoffset (.value hvalue hrest)

/-- The entries of groups. -/
def groupEntries (m : List (ℕ × List ℕ)) : List Entry := valuesOf (m.flatMap printGroup)

theorem groupEntries_append (m m' : List (ℕ × List ℕ)) :
    groupEntries (m ++ m') = groupEntries m ++ groupEntries m' := by
  rw [groupEntries, List.flatMap_append, valuesOf_append]
  rfl

theorem printValues_concat (o v : ℕ) (vs : List ℕ) :
    valuesOf (printValues o (vs ++ [v])) = valuesOf (printValues o vs) ++ [⟨o + vs.length, v⟩] := by
  induction vs generalizing o with
  | nil => rfl
  | cons x vs ih =>
    have hrest := ih (o + 1)
    rw [Nat.add_assoc, Nat.add_comm 1] at hrest
    exact congrArg (⟨o, x⟩ :: ·) hrest

theorem groupEntries_singleton (g : ℕ × List ℕ) : groupEntries [g] = valuesOf (printValues g.1 g.2) := by
  rw [groupEntries, List.flatMap_singleton]
  rfl

/-- Groups as they are made of entries. -/
structure Grouped (m : List (ℕ × List ℕ)) (es : List Entry) : Prop where
  entries : groupEntries m = es
  offset : ∀ g ∈ m, g.1 < 2 ^ 32
  length : ∀ g ∈ m, g.1 + g.2.length ≤ 2 ^ 32
  value : ∀ g ∈ m, ∀ v ∈ g.2, v < 256

theorem Grouped.addNew {m : List (ℕ × List ℕ)} (h : Grouped m es) (he : e.offset < 2 ^ 32 ∧ e.value < 256) :
    Grouped (m ++ [(e.offset, [e.value])]) (es ++ [e]) := by
  have hnew {P : ℕ × List ℕ → Prop} (hm : ∀ g ∈ m, P g) (hg : P (e.offset, [e.value])) :
      ∀ g ∈ m ++ [(e.offset, [e.value])], P g := by
    intro g hg'
    rcases List.mem_append.mp hg' with hg' | hg'
    · exact hm g hg'
    · rwa [List.mem_singleton.mp hg']
  refine ⟨?_, hnew h.offset he.1, hnew h.length he.1, hnew h.value ?_⟩
  · rw [groupEntries_append, h.entries]
    rfl
  · rintro v hv
    rw [List.mem_singleton.mp hv]
    exact he.2

theorem Grouped.addEntry {m : List (ℕ × List ℕ)} (h : Grouped m es) (he : e.offset < 2 ^ 32 ∧ e.value < 256) :
    Grouped (addEntry m e) (es ++ [e]) := by
  rw [Ereport.addEntry]
  rcases m.eq_nil_or_concat with rfl | ⟨m, g, rfl⟩
  · exact h.addNew he
  rw [List.concat_eq_append] at h ⊢
  rw [List.getLast?_append, List.dropLast_concat]
  obtain ⟨o, vs⟩ := g
  dsimp only [List.getLast?_singleton, Option.or]
  split_ifs with hnext
  · have hlast {P : ℕ × List ℕ → Prop} (hm : ∀ g ∈ m ++ [(o, vs)], P g) (hg : P (o, vs) → P (o, vs ++ [e.value])) :
        ∀ g ∈ m ++ [(o, vs ++ [e.value])], P g := by
      intro g hg'
      rcases List.mem_append.mp hg' with hg' | hg'
      · exact hm g (List.mem_append_left _ hg')
      · rw [List.mem_singleton.mp hg']
        exact hg (hm (o, vs) (by simp))
    refine ⟨?_, hlast h.offset id, hlast h.length fun _ => ?_, hlast h.value fun hvs => ?_⟩
    · rw [← h.entries, groupEntries_append, groupEntries_append, groupEntries_singleton, groupEntries_singleton,
        printValues_concat, List.append_assoc]
      dsimp only
      rw [hnext]
    · have hlt := he.1
      rw [List.length_append, List.length_singleton]
      dsimp only
      omega
    · intro v hv
      rcases List.mem_append.mp hv with hv | hv
      · exact hvs v hv
      · rw [List.mem_singleton.mp hv]
        exact he.2
  · exact h.addNew he

theorem grouped (hlt : ∀ e ∈ es, e.offset < 2 ^ 32 ∧ e.value < 256) : Grouped (es.foldl addEntry []) es := by
  induction es using List.reverseRecOn with
  | nil => exact ⟨rfl, nofun, nofun, nofun⟩
  | append_singleton es e ih =>
    rw [List.foldl_append]
    exact (ih fun x hx => hlt x (List.mem_append_left _ hx)).addEntry (hlt e (by simp))

theorem printValues_reads {vs : List ℕ} (hlen : o + vs.length ≤ 2 ^ 32) (hvs : ∀ v ∈ vs, v < 256)
    (h : ∀ o, Reads (some o) ps) : Reads (some (o % 2 ^ 32)) (printValues o vs ++ ps) := by
  induction vs generalizing o with
  | nil => exact h _
  | cons v vs ih =>
    rw [List.length_cons] at hlen
    have hrest := ih (o := o + 1) (by omega) fun v hv => hvs v (List.mem_cons_of_mem _ hv)
    rw [Nat.mod_eq_of_lt (by omega)]
    exact .value (e := ⟨o, v⟩) (hvs v (by simp)) hrest

/-- The groups behind the first. -/
def laterGroups (m : List (ℕ × List ℕ)) : List Piece := m.flatMap fun g => .chars [';', ' '] :: printGroup g

theorem ereportMap_cons {g : ℕ × List ℕ} {m : List (ℕ × List ℕ)} (h : es.foldl addEntry [] = g :: m) :
    ereportMap es = .chars ['m', 'a', 'p'] :: (printGroup g ++ (laterGroups m ++ [.chars ['\n']])) := by
  have hjoin (m : List (ℕ × List ℕ)) (g : ℕ × List ℕ) :
      [Piece.chars [';', ' ']].intercalate ((g :: m).map printGroup) = printGroup g ++ laterGroups m := by
    induction m generalizing g with
    | nil => simp [List.intercalate, laterGroups]
    | cons g' m ih =>
      have hrest := ih g'
      rw [List.map_cons] at hrest
      rw [List.map_cons, List.map_cons, List.intercalate, List.intersperse_cons_cons, List.flatten_cons,
        List.flatten_cons]
      exact congrArg (printGroup g ++ .chars [';', ' '] :: ·) hrest
  rw [ereportMap, h, hjoin, List.append_assoc]

theorem laterGroups_reads {m : List (ℕ × List ℕ)} (h : Grouped m es) (o : ℕ) :
    Reads (some o) (laterGroups m ++ [.chars ['\n']]) := by
  obtain ⟨-, hoffset, hlength, hvalue⟩ := h
  induction m generalizing o with
  | nil => exact .newline _ .nil
  | cons g m ih =>
    have hg : g ∈ g :: m := List.mem_cons_self
    have hrest (o : ℕ) := ih o (fun g hg => hoffset g (List.mem_cons_of_mem _ hg))
      (fun g hg => hlength g (List.mem_cons_of_mem _ hg)) fun g hg => hvalue g (List.mem_cons_of_mem _ hg)
    have hvalues := printValues_reads (hlength g hg) (hvalue g hg) hrest
    rw [Nat.mod_eq_of_lt (hoffset g hg)] at hvalues
    rw [laterGroups, List.flatMap_cons, List.append_assoc]
    exact .group (hoffset g hg) hvalues

theorem valuesOf_laterGroups (m : List (ℕ × List ℕ)) : valuesOf (laterGroups m) = groupEntries m := by
  induction m with
  | nil => rfl
  | cons g m ih =>
    rw [laterGroups, List.flatMap_cons, valuesOf_append, groupEntries, List.flatMap_cons, valuesOf_append]
    exact congrArg (valuesOf (printGroup g) ++ ·) ih

theorem ereportMap_reads (hlt : ∀ e ∈ es, e.offset < 2 ^ 32 ∧ e.value < 256) : Reads none (ereportMap es) := by
  have hgrouped := grouped hlt
  cases hm : es.foldl addEntry [] with
  | nil =>
    rw [ereportMap, hm]
    exact .bare .nil
  | cons g m =>
    rw [hm] at hgrouped
    have hg : g ∈ g :: m := List.mem_cons_self
    have hlater : Grouped m (groupEntries m) :=
      ⟨rfl, fun g hg => hgrouped.offset g (List.mem_cons_of_mem _ hg),
        fun g hg => hgrouped.length g (List.mem_cons_of_mem _ hg),
        fun g hg => hgrouped.value g (List.mem_cons_of_mem _ hg)⟩
    have hvalues := printValues_reads (hgrouped.length g hg) (hgrouped.value g hg) (laterGroups_reads hlater)
    rw [Nat.mod_eq_of_lt (hgrouped.offset g hg)] at hvalues
    rw [ereportMap_cons hm]
    exact .map (hgrouped.offset g hg) hvalues

theorem valuesOf_ereportMap (hlt : ∀ e ∈ es, e.offset < 2 ^ 32 ∧ e.value < 256) : valuesOf (ereportMap es) = es := by
  have hentries := (grouped hlt).entries
  cases hm : es.foldl addEntry [] with
  | nil =>
    rw [hm] at hentries
    rw [ereportMap, hm]
    exact hentries
  | cons g m =>
    rw [hm, ← List.singleton_append, groupEntries_append] at hentries
    rw [ereportMap_cons hm, ← List.singleton_append, valuesOf_append, valuesOf_append, valuesOf_append,
      valuesOf_laterGroups]
    refine Eq.trans ?_ hentries
    rw [groupEntries_singleton]
    exact congrArg (valuesOf (printValues g.1 g.2) ++ ·) (List.append_nil _)

theorem Printed.reads (p : Printed) : Reads none p.pieces := by
  obtain ⟨form, es, hs, hlt⟩ := p
  cases form with
  | reportPath => exact reportPath_reads hs hlt
  | ereportMap => exact ereportMap_reads hlt

theorem Printed.valuesOf (p : Printed) : Ereport.valuesOf p.pieces = p.entries := by
  obtain ⟨form, es, hs, hlt⟩ := p
  cases form with
  | reportPath => exact valuesOf_printEntries _ es
  | ereportMap => exact valuesOf_ereportMap hlt

/-- **Any number of maps can be read.** -/
theorem pieces_reads (ps : List Printed) : Reads none (pieces ps) := by
  induction ps with
  | nil => exact .nil
  | cons p ps ih => exact p.reads.append ih

theorem valuesOf_pieces (ps : List Printed) : valuesOf (pieces ps) = ps.flatMap Printed.entries := by
  induction ps with
  | nil => rfl
  | cons p ps ih =>
    rw [pieces, List.flatMap_cons, valuesOf_append, p.valuesOf, List.flatMap_cons]
    exact congrArg (p.entries ++ ·) ih

/-! ### Places -/

/-- Each place is where the value is. -/
theorem marks_value (hps : ∀ e ∈ valuesOf ps, e.value < 256) (h : text.drop l = texts ps) :
    ∀ m ∈ marks l ps, (text.drop m.2).take 2 = pad 16 2 m.1.value := by
  induction ps generalizing l with
  | nil => nofun
  | cons p ps ih =>
    cases p with
    | chars s => exact ih hps (drop_add h)
    | value e =>
      have hpad : (pad 16 2 e.value).length = 2 := pad_length (by decide) (by decide) (hps e List.mem_cons_self)
      have hdrop : text.drop (l + 1) = pad 16 2 e.value ++ texts ps := drop_add (s := [' ']) h
      have hnext : text.drop (l + 3) = texts ps := by
        have hadd := drop_add hdrop
        rwa [hpad] at hadd
      intro m hm
      rcases List.mem_cons.mp hm with rfl | hm
      · rw [hdrop]
        exact List.take_left' hpad
      · exact ih (fun x hx => hps x (List.mem_cons_of_mem _ hx)) hnext m hm

/-- The places are in the text, one behind the other. -/
theorem marks_increasing (hps : ∀ e ∈ valuesOf ps, e.value < 256) (l : ℕ) :
    (marks l ps).Pairwise (fun m m' => m.2 < m'.2) ∧ ∀ m ∈ marks l ps, l < m.2 ∧ m.2 < l + (texts ps).length := by
  induction ps generalizing l with
  | nil => exact ⟨.nil, nofun⟩
  | cons p ps ih =>
    cases p with
    | chars s =>
      obtain ⟨hsorted, hin⟩ := ih hps (l + s.length)
      refine ⟨hsorted, fun m hm => ?_⟩
      have hm := hin m hm
      rw [texts_chars, List.length_append]
      omega
    | value e =>
      have hpad : (pad 16 2 e.value).length = 2 := pad_length (by decide) (by decide) (hps e List.mem_cons_self)
      obtain ⟨hsorted, hin⟩ := ih (fun x hx => hps x (List.mem_cons_of_mem _ hx)) (l + 3)
      rw [texts_value, List.length_cons, List.length_append, hpad]
      refine ⟨List.pairwise_cons.mpr ⟨fun m hm => ?_, hsorted⟩, fun m hm => ?_⟩
      · have hm := (hin m hm).1
        dsimp only
        omega
      · rcases List.mem_cons.mp hm with rfl | hm
        · dsimp only
          omega
        · have hm := hin m hm
          omega

end

end Ereport

end NfpEstimator
