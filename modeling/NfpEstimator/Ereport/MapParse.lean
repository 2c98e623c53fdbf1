import NfpEstimator.Ereport.MapText
import NfpEstimator.Qsort

/-!
# Expected maps

`ereport_map_parse` sorts the values that it finds in a text and removes all but the last for each offset. What it
compares are differences, of 32-bit offsets and of pointers, that are converted to `int`: offsets that are 2^31 or more
apart come in the wrong order, and values that are as far apart in the text (`ereport_map_iff`).
-/

namespace NfpEstimator

namespace Ereport

open Input Scanf Qsort

/-- `compare_ereport_map` -/
def compareEreportMap (a b : Cell) : ℤ :=
  if a.offset ≠ b.offset then ((a.offset : ℤ) - b.offset).bmod 4294967296 else ((a.ptr : ℤ) - b.ptr).bmod 4294967296

section
variable (text : List Char)

/-- The value of a cell is read. It is the lowest byte of the pointer, which is the one of the position since the text
begins a page. -/
def readValue (c : Cell) : Cell :=
  match (sscanf [.space, .number 16 8] (((text.drop c.ptr).take 2).takeWhile (· ≠ '\x00'))).values with
  | [v] => ⟨c.offset, c.ptr / 256 * 256 + v⟩
  | _ => c

/-- The loop over the sorted cells, from `i` on, of which there are `n`: `o` cells have been removed. -/
def removeLoop : ℕ → ℕ → ℕ → (ℕ → Cell) → ℕ × (ℕ → Cell)
  | 0, _, o, em => (o, em)
  | n + 1, i, o, em =>
    let o := if i ≠ 0 ∧ (em i).offset = (em (i - o - 1)).offset then o + 1 else o
    let em := if o ≠ 0 then Function.update em (i - o) (em i) else em
    removeLoop n (i + 1) o (Function.update em (i - o) (readValue text (em (i - o))))

/-- An element of the array when it is returned. -/
def toEntry (c : Cell) : Entry := ⟨c.offset, c.ptr % 256⟩

/-- What is left of a sorted array of `num` cells. -/
def removeDuplicates (num : ℕ) (sorted : List Cell) : List Entry :=
  let (o, em) := removeLoop text num 0 0 fun i => sorted.getD i ⟨0, 0⟩
  (List.range (num - o)).map fun i => toEntry (em i)

end

/-- `ereport_map_parse`, of the standard input. There is no array if nothing is found. -/
def ereportMapParse (qsort : List Cell → List Cell) (kind : FileKind) (text : List Char) :
    Except Fault (List Entry) :=
  match inputMap kind text with
  | .error e => .error e
  | .ok none => .ok []
  | .ok (some zeros) => do
    let em ← mapLines text zeros 0
    if em = [] then return []
    return removeDuplicates text em.length (qsort em)

/-! ### Removing -/

section
variable {text : List Char} {a b c d : Cell} {l s₁ s₂ : List Cell} {i o : ℕ} {em : ℕ → Cell}

/-- Of cells one behind the other with the same offset, the last. -/
def lasts (a : Cell) : List Cell → List Cell
  | [] => [a]
  | b :: l => if a.offset = b.offset then lasts b l else a :: lasts b l

theorem readValue_offset (c : Cell) : (readValue text c).offset = c.offset := by
  rw [readValue]
  split <;> rfl

/-- A cell that is kept comes behind those that have been. -/
theorem removeLoop_new (n : ℕ) (h : i = 0 ∨ (em i).offset ≠ (em (i - o - 1)).offset) :
    removeLoop text (n + 1) i o em =
      removeLoop text n (i + 1) o (Function.update em (i - o) (readValue text (em i))) := by
  rw [removeLoop, if_neg (by omega)]
  split_ifs with hzero
  · rw [Function.update_self, Function.update_idem]
  · rw [not_not.mp hzero, Nat.sub_zero]

/-- A cell with the offset of the one before takes its place. -/
theorem removeLoop_again (n : ℕ) (hi : i ≠ 0) (h : (em i).offset = (em (i - o - 1)).offset) :
    removeLoop text (n + 1) i o em =
      removeLoop text n (i + 1) (o + 1) (Function.update em (i - o - 1) (readValue text (em i))) := by
  rw [removeLoop, if_pos ⟨hi, h⟩, if_pos (Nat.succ_ne_zero o), Nat.sub_add_eq, Function.update_self,
    Function.update_idem]

theorem range_map_update {k : ℕ} (hk : i ≤ k) (c : Cell) :
    (List.range i).map (Function.update em k c) = (List.range i).map em := by
  refine List.map_congr_left fun j hj => Function.update_of_ne ?_ _ _
  have hlt := List.mem_range.mp hj
  omega

/-- **In place**, the cells up to `i - o` are those that are kept. -/
theorem removeLoop_eq (ho : o < i) (hlast : em (i - o - 1) = readValue text a)
    (hl : ∀ j (hj : j < l.length), em (i + j) = l[j]) :
    (List.range (i + l.length - (removeLoop text l.length i o em).1)).map (removeLoop text l.length i o em).2 =
      (List.range (i - o - 1)).map em ++ (lasts a l).map (readValue text) := by
  induction l generalizing a i o em with
  | nil =>
    have hsucc : i - o = i - o - 1 + 1 := by omega
    rw [List.length_nil, removeLoop, Nat.add_zero, hsucc, List.range_succ, List.map_append, ← hsucc]
    exact congrArg (_ ++ [·]) hlast
  | cons b l ih =>
    have hb : em i = b := hl 0 (Nat.succ_pos _)
    have hnext {k : ℕ} (hk : k ≤ i) (c : Cell) :
        ∀ j (hj : j < l.length), Function.update em k c (i + 1 + j) = l[j] := by
      intro j hj
      have hj' := hl (j + 1) (Nat.succ_lt_succ hj)
      rw [Function.update_of_ne (by omega), Nat.add_assoc, Nat.add_comm 1, hj', List.getElem_cons_succ]
    have hoffset : (em (i - o - 1)).offset = a.offset := by rw [hlast, readValue_offset]
    rw [List.length_cons, lasts, ← Nat.add_assoc, Nat.add_right_comm]
    split_ifs with heq
    · have hplace : i + 1 - (o + 1) - 1 = i - o - 1 := by omega
      rw [removeLoop_again _ (by omega) (by rw [hb, hoffset, heq]), hb]
      rw [ih (by omega) (by rw [hplace, Function.update_self]) (hnext (by omega) _), hplace]
      rw [range_map_update (Nat.le_refl _)]
    · have hplace : i + 1 - o - 1 = i - o := by omega
      have hsucc : i - o = i - o - 1 + 1 := by omega
      rw [removeLoop_new _ (Or.inr (by rw [hb, hoffset]; exact Ne.symm heq)), hb]
      rw [ih (by omega) (by rw [hplace, Function.update_self]) (hnext (by omega) _), hplace]
      rw [range_map_update (Nat.le_refl _), hsucc, List.range_succ, List.map_append, List.append_assoc]
      exact congrArg (fun c => _ ++ c :: (lasts b l).map (readValue text)) hlast

theorem removeDuplicates_eq (a : Cell) (l : List Cell) :
    removeDuplicates text (a :: l).length (a :: l) = (lasts a l).map fun c => toEntry (readValue text c) := by
  have hstart : removeLoop text (l.length + 1) 0 0 (fun i => (a :: l).getD i ⟨0, 0⟩) =
      removeLoop text l.length 1 0 (Function.update (fun i => (a :: l).getD i ⟨0, 0⟩) 0 (readValue text a)) :=
    removeLoop_new _ (Or.inl rfl)
  have hl : ∀ j (hj : j < l.length),
      Function.update (fun i => (a :: l).getD i ⟨0, 0⟩) 0 (readValue text a) (1 + j) = l[j] := by
    intro j hj
    rw [Function.update_of_ne (by omega), Nat.add_comm 1, List.getD_cons_succ, List.getD_eq_getElem _ _ hj]
  have hfirst : Function.update (fun i => (a :: l).getD i ⟨0, 0⟩) 0 (readValue text a) (1 - 0 - 1) =
      readValue text a := Function.update_self ..
  have hloop := removeLoop_eq (i := 1) (o := 0) (by decide) hfirst hl
  have hmap := congrArg (List.map toEntry) hloop
  simp only [List.map_append, List.map_map] at hmap
  rw [removeDuplicates, List.length_cons, hstart, Nat.add_comm]
  exact hmap

/-! ### Sorted cells -/

theorem mem_of_lasts (h : c ∈ lasts a l) : c ∈ a :: l := by
  induction l generalizing a with
  | nil => exact h
  | cons b l ih =>
    rw [lasts] at h
    split_ifs at h
    · exact List.mem_cons_of_mem _ (ih h)
    · rcases List.mem_cons.mp h with rfl | h
      · exact List.mem_cons_self
      · exact List.mem_cons_of_mem _ (ih h)

/-- No offset is lost. -/
theorem exists_lasts (h : c ∈ a :: l) : ∃ d ∈ lasts a l, d.offset = c.offset := by
  induction l generalizing a c with
  | nil => exact ⟨c, h, rfl⟩
  | cons b l ih =>
    rw [lasts]
    split_ifs with heq
    · rcases List.mem_cons.mp h with h | h
      · rw [h, heq]
        exact ih List.mem_cons_self
      · exact ih h
    · rcases List.mem_cons.mp h with rfl | h
      · exact ⟨c, List.mem_cons_self, rfl⟩
      · obtain ⟨d, hd, hoffset⟩ := ih h
        exact ⟨d, List.mem_cons_of_mem _ hd, hoffset⟩

/-- The offsets that are kept increase if and only if those of all cells do not decrease. -/
theorem lasts_increasing :
    ((lasts a l).Pairwise fun c d => c.offset < d.offset) ↔ (a :: l).Pairwise fun c d => c.offset ≤ d.offset := by
  induction l generalizing a with
  | nil => simp [lasts]
  | cons b l ih =>
    rw [lasts]
    split_ifs with heq
    · rw [ih]
      refine ⟨fun h => List.pairwise_cons.mpr ⟨fun d hd => ?_, h⟩, fun h => (List.pairwise_cons.mp h).2⟩
      rw [heq]
      rcases List.mem_cons.mp hd with rfl | hd
      · exact Nat.le_refl _
      · exact (List.pairwise_cons.mp h).1 d hd
    · rw [List.pairwise_cons, List.pairwise_cons, ih]
      refine ⟨fun ⟨hmin, h⟩ => ⟨fun d hd => ?_, h⟩, fun ⟨hmin, h⟩ => ⟨fun d hd => ?_, h⟩⟩
      · obtain ⟨x, hx, hoffset⟩ := exists_lasts hd
        rw [← hoffset]
        exact Nat.le_of_lt (hmin x hx)
      · have hb := hmin b List.mem_cons_self
        have hd := mem_of_lasts hd
        have hle : b.offset ≤ d.offset := by
          rcases List.mem_cons.mp hd with rfl | hd
          · exact Nat.le_refl _
          · exact (List.pairwise_cons.mp h).1 d hd
        omega

/-- A cell that is kept is the greatest of its offset. -/
theorem lasts_greatest (hself : ∀ c ∈ a :: l, compareEreportMap c c ≤ 0)
    (hsorted : (a :: l).Pairwise fun c d => compareEreportMap c d ≤ 0 ∧ c.offset ≤ d.offset) (hc : c ∈ lasts a l)
    (hd : d ∈ a :: l) (hoffset : d.offset = c.offset) : compareEreportMap d c ≤ 0 := by
  induction l generalizing a with
  | nil =>
    rw [List.mem_singleton.mp hc, List.mem_singleton.mp hd]
    exact hself a List.mem_cons_self
  | cons b l ih =>
    obtain ⟨hmin, htail⟩ := List.pairwise_cons.mp hsorted
    have hself' : ∀ c ∈ b :: l, compareEreportMap c c ≤ 0 := fun c hc => hself c (List.mem_cons_of_mem _ hc)
    rw [lasts] at hc
    split_ifs at hc with heq
    · rcases List.mem_cons.mp hd with rfl | hd
      · exact (hmin c (mem_of_lasts hc)).1
      · exact ih hself' htail hc hd
    · rcases List.mem_cons.mp hc with rfl | hc'
      · rcases List.mem_cons.mp hd with rfl | hd'
        · exact hself d List.mem_cons_self
        · -- the next cell has a greater offset already
          have hb := (hmin b List.mem_cons_self).2
          have hle : b.offset ≤ d.offset := by
            rcases List.mem_cons.mp hd' with rfl | hd'
            · exact Nat.le_refl _
            · exact ((List.pairwise_cons.mp htail).1 d hd').2
          omega
      · rcases List.mem_cons.mp hd with rfl | hd
        · exact (hmin c (mem_of_lasts hc')).1
        · exact ih hself' htail hc' hd

/-- A cell is kept if no other of its offset is behind it. -/
theorem mem_lasts (h : a :: l = s₁ ++ c :: s₂) (hs : ∀ d ∈ s₂, d.offset ≠ c.offset) : c ∈ lasts a l := by
  induction s₁ generalizing a l with
  | nil =>
    obtain ⟨rfl, rfl⟩ := List.cons.inj h
    cases l with
    | nil => exact List.mem_cons_self
    | cons b l =>
      rw [lasts, if_neg (Ne.symm (hs b List.mem_cons_self))]
      exact List.mem_cons_self
  | cons x s₁ ih =>
    obtain ⟨-, hl⟩ := List.cons.inj h
    cases l with
    | nil => exact absurd hl.symm (by simp)
    | cons b l =>
      rw [lasts]
      split_ifs
      · exact ih hl
      · exact List.mem_cons_of_mem _ (ih hl)

theorem lasts_replicate (a : Cell) (n : ℕ) : lasts a (List.replicate n a) = [a] := by
  induction n with
  | zero => rfl
  | succ n ih => rw [List.replicate_succ, lasts, if_pos rfl, ih]

/-! ### Comparing -/

theorem compare_near (h : a.offset < b.offset) (hnear : b.offset < a.offset + 2 ^ 31) :
    compareEreportMap a b < 0 ∧ 0 < compareEreportMap b a := by
  rw [compareEreportMap, compareEreportMap, if_pos (by omega), if_pos (by omega)]
  rw [Int.bmod_eq_of_le (by omega) (by omega), Int.bmod_eq_of_le (by omega) (by omega)]
  omega

/-- Offsets that are far apart are taken the other way round. -/
theorem compare_far (h : a.offset + 2 ^ 31 ≤ b.offset) (hb : b.offset < 2 ^ 32) : compareEreportMap b a < 0 := by
  have hdiff : (b.offset : ℤ) - a.offset = (b.offset : ℤ) - a.offset - 4294967296 + (4294967296 : ℕ) := by omega
  rw [compareEreportMap, if_pos (by omega), hdiff, Int.add_bmod_right, Int.bmod_eq_of_le (by omega) (by omega)]
  omega

/-- In a text of less than 2^31 characters, the places of values are compared. -/
theorem compare_ptr (h : a.offset = b.offset) (ha : a.ptr < 2 ^ 31) (hb : b.ptr < 2 ^ 31) :
    compareEreportMap a b = a.ptr - b.ptr := by
  rw [compareEreportMap, if_neg (not_not.mpr h), Int.bmod_eq_of_le (by omega) (by omega)]

end

/-! ### Results -/

/-- The entry that comes last for an offset. -/
def lastPrinted (es : List Entry) (o : ℕ) : Option Entry := es.reverse.find? fun e => e.offset == o

/-- All offsets in order, with the values that were printed last. -/
structure MapCorrect (ps : List Printed) (em : List Entry) : Prop where
  increasing : Increasing em
  entries : ∀ e, e ∈ em ↔ lastPrinted (ps.flatMap Printed.entries) e.offset = some e

/-- Where the values are in the text. -/
def cells (ps : List Printed) : List Cell := (marks 0 (pieces ps)).map cellOf

/-- What the comparison function is right for. -/
structure Sortable (ps : List Printed) : Prop where
  near : ∀ e ∈ ps.flatMap Printed.entries, ∀ e' ∈ ps.flatMap Printed.entries, e.offset < e'.offset + 2 ^ 31
  consistent : ∀ o, Consistent compareEreportMap ((cells ps).filter fun c => c.offset == o)
  last : ∀ m ∈ marks 0 (pieces ps),
    (∀ m' ∈ marks 0 (pieces ps), m'.1.offset = m.1.offset → compareEreportMap (cellOf m') (cellOf m) ≤ 0) →
      lastPrinted (ps.flatMap Printed.entries) m.1.offset = some m.1

section
variable {ps : List Printed} {kind : FileKind} {qsort : List Cell → List Cell} {a : Cell} {l : List Cell}

theorem marks_fst (ps : List Printed) : (marks 0 (pieces ps)).map Prod.fst = ps.flatMap Printed.entries := by
  rw [marks_entries, valuesOf_pieces]

theorem mark_mem {m : Entry × ℕ} (hm : m ∈ marks 0 (pieces ps)) : m.1 ∈ ps.flatMap Printed.entries := by
  rw [← marks_fst]
  exact List.mem_map_of_mem hm

theorem entries_lt {e : Entry} (he : e ∈ ps.flatMap Printed.entries) : e.offset < 2 ^ 32 ∧ e.value < 256 := by
  obtain ⟨p, -, he⟩ := List.mem_flatMap.mp he
  exact p.lt e he

/-- A value is read where it was printed. -/
theorem readValue_mark {m : Entry × ℕ} (hm : m ∈ marks 0 (pieces ps)) :
    toEntry (readValue (texts (pieces ps)) (cellOf m)) = m.1 := by
  have hlt := (entries_lt (mark_mem hm)).2
  have hps : ∀ e ∈ valuesOf (pieces ps), e.value < 256 := fun e he => (entries_lt (valuesOf_pieces ps ▸ he)).2
  have htext : ((texts (pieces ps)).drop (cellOf m).ptr).take 2 = pad 16 2 m.1.value := marks_value hps rfl m hm
  have hdigits : ∀ c ∈ pad 16 2 m.1.value, isDigit 16 c := isDigit_pad (by decide) (by decide) 2 _
  have htake : (pad 16 2 m.1.value).takeWhile (· ≠ '\x00') = pad 16 2 m.1.value :=
    List.takeWhile_eq_self_iff.mpr fun c hc => decide_eq_true (digits_ne c hc).2
  have hscan : (sscanf [.space, .number 16 8] (pad 16 2 m.1.value)).values = [m.1.value] := by
    have hdrop : (pad 16 2 m.1.value).dropWhile isSpace = pad 16 2 m.1.value := by
      rw [List.dropWhile_eq_self_iff]
      intro hpos
      rw [(digit_char (hdigits _ (List.getElem_mem hpos)) (by decide)).1]
      nofun
    have hnumber : number 16 8 (pad 16 2 m.1.value ++ []) = some (m.1.value, []) :=
      number_pad (by decide) (by decide) (by decide) hlt 2 nofun
    rw [List.append_nil] at hnumber
    rw [sscanf, scan, hdrop, scan_number hnumber]
    rfl
  rw [readValue, htext, htake, hscan, toEntry]
  dsimp only [cellOf]
  rw [Nat.mul_comm, Nat.mul_add_mod, Nat.mod_eq_of_lt hlt]

theorem ereportMapParse_text (h : Mappable kind (texts (pieces ps))) :
    ereportMapParse qsort kind (texts (pieces ps)) =
      .ok (if cells ps = [] then []
        else removeDuplicates (texts (pieces ps)) (cells ps).length (qsort (cells ps))) := by
  obtain ⟨hmap, hzeros⟩ := h.inputMap
  have hreads := pieces_reads ps
  have hlines : mapLines (texts (pieces ps)) _ 0 = .ok (cells ps) :=
    hreads.parsed hzeros hreads.text_ne (Nat.zero_le _) rfl
  rw [ereportMapParse, hmap]
  simp only [bind, Except.bind]
  rw [hlines]
  dsimp only
  split_ifs <;> rfl

/-- Without a zero behind the text, nothing is returned. -/
theorem ereportMapParse_error (h : ¬Mappable kind (texts (pieces ps))) (hne : texts (pieces ps) ≠ []) :
    ∃ e, ereportMapParse qsort kind (texts (pieces ps)) = .error e := by
  have htext := (pieces_reads ps).text_ne
  generalize texts (pieces ps) = text at h hne htext ⊢
  rw [ereportMapParse]
  rcases not_mappable h hne with ⟨e, hmap⟩ | hmap
  · exact ⟨e, by rw [hmap]⟩
  · obtain ⟨c, s, rfl⟩ := List.exists_cons_of_ne_nil hne
    have hc : c ≠ '\x00' := fun hc => htext (hc ▸ List.mem_cons_self)
    have hline (le : ℕ) : mapLine (c :: s) 0 le 0 = .error .outside := by
      rw [mapLine, List.drop_zero, cString_zero htext]
      rfl
    refine ⟨.outside, ?_⟩
    rw [hmap]
    dsimp only
    have hbegin : (c :: s).drop 0 = c :: s := rfl
    rw [mapLines_line hbegin hc, hline]
    rfl

/-- What is returned if the cells are sorted into `a` and those of `l`. -/
theorem ereportMapParse_sorted (h : Mappable kind (texts (pieces ps))) (hsort : qsort (cells ps) = a :: l)
    (hlength : (cells ps).length = (a :: l).length) :
    ereportMapParse qsort kind (texts (pieces ps)) =
      .ok ((lasts a l).map fun c => toEntry (readValue (texts (pieces ps)) c)) := by
  have hne : cells ps ≠ [] := List.ne_nil_of_length_eq_add_one hlength
  rw [ereportMapParse_text h, if_neg hne, hsort, hlength, removeDuplicates_eq]

theorem toEntry_offset (text : List Char) (c : Cell) : (toEntry (readValue text c)).offset = c.offset :=
  readValue_offset c

/-- Every cell is that of an entry. -/
theorem exists_mark {c : Cell} (hc : c ∈ cells ps) : ∃ m ∈ marks 0 (pieces ps), cellOf m = c :=
  List.mem_map.mp hc

theorem cells_nil (h : cells ps = []) : ps.flatMap Printed.entries = [] := by
  rw [← marks_fst, List.map_eq_nil_iff.mp h]
  rfl

theorem lastPrinted_mem {es : List Entry} {o : ℕ} {e : Entry} (h : lastPrinted es o = some e) :
    e ∈ es ∧ e.offset = o := by
  have hfound : (e.offset == o) = true := List.find?_some (p := fun e : Entry => e.offset == o) h
  exact ⟨List.mem_reverse.mp (List.mem_of_find?_eq_some h), beq_iff_eq.mp hfound⟩

/-! ### What is right -/

/-- The comparison is consistent on all cells. -/
theorem Sortable.consistent_cells (h : Sortable ps) : Consistent compareEreportMap (cells ps) := by
  have hcompare {a b : Cell} (ha : a ∈ cells ps) (hb : b ∈ cells ps) (hlt : a.offset < b.offset) :
      compareEreportMap a b < 0 ∧ 0 < compareEreportMap b a := by
    obtain ⟨m, hm, rfl⟩ := exists_mark ha
    obtain ⟨m', hm', rfl⟩ := exists_mark hb
    exact compare_near hlt (h.near _ (mark_mem hm') _ (mark_mem hm))
  have hmem {a : Cell} {o : ℕ} (ha : a ∈ cells ps) (ho : a.offset = o) :
      a ∈ (cells ps).filter fun c => c.offset == o := List.mem_filter.mpr ⟨ha, beq_iff_eq.mpr ho⟩
  refine ⟨fun a ha b hb => ?_, fun a ha b hb c hc hab hbc => ?_⟩
  · rcases Nat.lt_trichotomy a.offset b.offset with hlt | heq | hlt
    · have hab := hcompare ha hb hlt
      omega
    · exact (h.consistent b.offset).anti a (hmem ha heq) b (hmem hb rfl)
    · have hba := hcompare hb ha hlt
      omega
  · have hle {a b : Cell} (ha : a ∈ cells ps) (hb : b ∈ cells ps) (hab : compareEreportMap a b ≤ 0) :
        a.offset ≤ b.offset := by
      by_contra hlt
      have hba := (hcompare hb ha (Nat.lt_of_not_le hlt)).2
      omega
    have hab' := hle ha hb hab
    have hbc' := hle hb hc hbc
    rcases Nat.lt_or_eq_of_le (Nat.le_trans hab' hbc') with hlt | heq
    · exact Int.le_of_lt (hcompare ha hc hlt).1
    · exact (h.consistent c.offset).trans a (hmem ha heq) b (hmem hb (by omega)) c (hmem hc rfl) hab hbc

theorem Sortable.correct (h : Sortable ps) (hs : Sorts compareEreportMap (cells ps) (a :: l)) :
    MapCorrect ps ((lasts a l).map fun c => toEntry (readValue (texts (pieces ps)) c)) := by
  have hcons := h.consistent_cells
  obtain ⟨hperm, hsorted⟩ := hs hcons
  have hself : ∀ c ∈ a :: l, compareEreportMap c c ≤ 0 := fun c hc =>
    Int.le_of_eq (hcons.self (hperm.mem_iff.mp hc))
  -- by near offsets, the comparison is that of the offsets
  have horder : (a :: l).Pairwise fun c d => compareEreportMap c d ≤ 0 ∧ c.offset ≤ d.offset := by
    refine hsorted.imp_of_mem fun {c d} hc hd hle => ⟨hle, ?_⟩
    obtain ⟨m, hm, rfl⟩ := exists_mark (hperm.mem_iff.mp hc)
    obtain ⟨m', hm', rfl⟩ := exists_mark (hperm.mem_iff.mp hd)
    by_contra hlt
    have hgt := (compare_near (Nat.lt_of_not_le hlt) (h.near _ (mark_mem hm) _ (mark_mem hm'))).2
    omega
  have hlast : ∀ c ∈ lasts a l, ∃ m ∈ marks 0 (pieces ps), cellOf m = c ∧
      lastPrinted (ps.flatMap Printed.entries) m.1.offset = some m.1 := by
    intro c hc
    obtain ⟨m, hm, rfl⟩ := exists_mark (hperm.mem_iff.mp (mem_of_lasts hc))
    refine ⟨m, hm, rfl, h.last m hm fun m' hm' hoffset => ?_⟩
    exact lasts_greatest hself horder hc (hperm.mem_iff.mpr (List.mem_map_of_mem hm')) hoffset
  refine ⟨?_, fun e => ⟨fun he => ?_, fun he => ?_⟩⟩
  · refine List.pairwise_map.mpr ((lasts_increasing.mpr (horder.imp And.right)).imp fun {c d} hlt => ?_)
    rw [toEntry_offset, toEntry_offset]
    exact hlt
  · obtain ⟨c, hc, rfl⟩ := List.mem_map.mp he
    obtain ⟨m, hm, rfl, hprinted⟩ := hlast c hc
    rw [readValue_mark hm]
    exact hprinted
  · obtain ⟨hmem, -⟩ := lastPrinted_mem he
    rw [← marks_fst] at hmem
    obtain ⟨m, hm, rfl⟩ := List.mem_map.mp hmem
    obtain ⟨c, hc, hoffset⟩ := exists_lasts (hperm.mem_iff.mpr (List.mem_map_of_mem hm))
    obtain ⟨m', hm', rfl, hprinted⟩ := hlast c hc
    have hoffset' : m'.1.offset = m.1.offset := hoffset
    rw [hoffset', he] at hprinted
    refine List.mem_map.mpr ⟨cellOf m', hc, ?_⟩
    rw [readValue_mark hm']
    exact (Option.some.inj hprinted).symm

/-- A map is returned as it was printed, whatever `qsort` does. -/
def Parsed (ps : List Printed) (kind : FileKind) : Prop :=
  ∀ qsort, IsQsort compareEreportMap qsort →
    ∃ em, ereportMapParse qsort kind (texts (pieces ps)) = .ok em ∧ MapCorrect ps em

theorem Parsed.mappable (h : Parsed ps kind) (hne : texts (pieces ps) ≠ []) : Mappable kind (texts (pieces ps)) := by
  obtain ⟨qsort, hqsort, -⟩ := exists_qsort (l := []) (s := []) fun _ => ⟨.refl _, .nil⟩
  obtain ⟨em, hem, -⟩ := h qsort hqsort
  by_contra hnot
  obtain ⟨e, he⟩ : ∃ e, ereportMapParse qsort kind (texts (pieces ps)) = .error e := ereportMapParse_error hnot hne
  rw [he] at hem
  cases hem

/-- Whatever the sort may leave gives the right map. -/
theorem Parsed.sorted (h : Parsed ps kind) (hmap : Mappable kind (texts (pieces ps)))
    (hlength : (cells ps).length = (a :: l).length) (hs : Sorts compareEreportMap (cells ps) (a :: l)) :
    MapCorrect ps ((lasts a l).map fun c => toEntry (readValue (texts (pieces ps)) c)) := by
  obtain ⟨qsort, hqsort, hsort⟩ := exists_qsort hs
  obtain ⟨em, hem, hcorrect⟩ := h qsort hqsort
  rw [ereportMapParse_sorted hmap hsort hlength] at hem
  rwa [Except.ok.inj hem]

/-- If nothing is promised, two results that contradict each other are possible. -/
theorem Parsed.consistent (h : Parsed ps kind) (hmap : Mappable kind (texts (pieces ps))) :
    Consistent compareEreportMap (cells ps) := by
  by_contra hnot
  have hne : cells ps ≠ [] := by
    intro hnil
    rw [hnil] at hnot
    exact hnot ⟨nofun, nofun⟩
  obtain ⟨n, hn⟩ := Nat.exists_eq_succ_of_ne_zero (mt List.length_eq_zero_iff.mp hne)
  have hcorrect (o : ℕ) := h.sorted hmap (a := ⟨o, 0⟩) (l := List.replicate n ⟨o, 0⟩)
    (by rw [hn, List.length_cons, List.length_replicate]) fun hc => absurd hc hnot
  have hzero := hcorrect 0
  have hone := hcorrect 1
  rw [lasts_replicate] at hzero hone
  have hmem := (hone.entries _).mpr ((hzero.entries _).mp List.mem_cons_self)
  have hoffset := congrArg Entry.offset (List.mem_singleton.mp hmem)
  rw [toEntry_offset, toEntry_offset] at hoffset
  exact absurd hoffset (by decide)

theorem Parsed.near (h : Parsed ps kind) (hmap : Mappable kind (texts (pieces ps)))
    {m m' : Entry × ℕ} (hm : m ∈ marks 0 (pieces ps)) (hm' : m' ∈ marks 0 (pieces ps)) :
    m.1.offset < m'.1.offset + 2 ^ 31 := by
  by_contra hfar
  have hcons := h.consistent hmap
  obtain ⟨s, hperm, hsorted⟩ := exists_sorted hcons
  have hcell : cellOf m ∈ cells ps := List.mem_map_of_mem hm
  have hcell' : cellOf m' ∈ cells ps := List.mem_map_of_mem hm'
  have hlt : compareEreportMap (cellOf m) (cellOf m') < 0 :=
    compare_far (Nat.le_of_not_lt hfar) (entries_lt (mark_mem hm)).1
  have hgt := (hcons.anti _ hcell _ hcell').mp hlt
  obtain ⟨a, l, rfl⟩ := List.exists_cons_of_ne_nil (List.ne_nil_of_mem (hperm.mem_iff.mpr hcell))
  have hcorrect := h.sorted hmap hperm.length_eq.symm fun _ => ⟨hperm, hsorted⟩
  have horder := lasts_increasing.mp ((List.pairwise_map.mp hcorrect.increasing).imp fun {c d} hlt => by
    rwa [toEntry_offset, toEntry_offset] at hlt)
  -- of the two, the one with the greater offset comes first
  let R (c d : Cell) : Prop :=
    (compareEreportMap c d ≤ 0 ∧ c.offset ≤ d.offset) ∨ compareEreportMap d c ≤ 0 ∧ d.offset ≤ c.offset
  have hsymm : Std.Symm R := ⟨fun _ _ h => h.symm⟩
  have hR : (a :: l).Pairwise R := (hsorted.and horder).imp Or.inl
  have hne : cellOf m ≠ cellOf m' := by
    intro heq
    rw [heq] at hlt hgt
    omega
  rcases hR.forall (hperm.mem_iff.mpr hcell) (hperm.mem_iff.mpr hcell') hne with hle | hle
  · have hoffset : m.1.offset ≤ m'.1.offset := hle.2
    omega
  · omega

theorem Parsed.last (h : Parsed ps kind) (hmap : Mappable kind (texts (pieces ps)))
    {m : Entry × ℕ} (hm : m ∈ marks 0 (pieces ps))
    (hgreatest : ∀ m' ∈ marks 0 (pieces ps), m'.1.offset = m.1.offset →
      compareEreportMap (cellOf m') (cellOf m) ≤ 0) :
    lastPrinted (ps.flatMap Printed.entries) m.1.offset = some m.1 := by
  have hcell : cellOf m ∈ cells ps := List.mem_map_of_mem hm
  obtain ⟨s₁, s₂, hperm, hsorted, hbehind⟩ := exists_sorted_last (h.consistent hmap) hcell
  obtain ⟨a, l, hs⟩ : ∃ a l, s₁ ++ cellOf m :: s₂ = a :: l := List.exists_cons_of_ne_nil (by simp)
  have hother : ∀ d ∈ s₂, d.offset ≠ (cellOf m).offset := by
    intro d hd hoffset
    have hgt := hbehind d hd
    have hmem := hperm.mem_iff.mp (List.mem_append_right _ (List.mem_cons_of_mem _ hd))
    obtain ⟨m', hm', rfl⟩ := exists_mark hmem
    have hle := hgreatest m' hm' hoffset
    omega
  have hkept := mem_lasts hs.symm hother
  rw [hs] at hperm hsorted
  have hcorrect := h.sorted hmap hperm.length_eq.symm fun _ => ⟨hperm, hsorted⟩
  have hentry := (hcorrect.entries _).mp (List.mem_map_of_mem hkept)
  rwa [readValue_mark hm] at hentry

/-- **Printed maps are parsed as they were printed** if and only if the text can be read, all offsets are closer to one
another than 2^31, and of the values of an offset the comparison finds the last. -/
theorem ereport_map_iff (ps : List Printed) (kind : FileKind) :
    Parsed ps kind ↔ (Mappable kind (texts (pieces ps)) ∨ texts (pieces ps) = [] ∧ kind = .pipe) ∧ Sortable ps := by
  have hnil (htext : texts (pieces ps) = []) : cells ps = [] := by
    refine List.eq_nil_iff_forall_not_mem.mpr fun c hc => ?_
    obtain ⟨m, hm, -⟩ := exists_mark hc
    have hps : ∀ e ∈ valuesOf (pieces ps), e.value < 256 := fun e he => (entries_lt (valuesOf_pieces ps ▸ he)).2
    have hin := (marks_increasing hps 0).2 m hm
    rw [htext, List.length_nil] at hin
    omega
  constructor
  · intro h
    by_cases htext : texts (pieces ps) = []
    · have hentries := cells_nil (hnil htext)
      have hmarks := List.map_eq_nil_iff.mp (hnil htext)
      refine ⟨Or.inr ⟨htext, ?_⟩, ?_, ?_, ?_⟩
      · obtain ⟨qsort, hqsort, -⟩ := exists_qsort (l := []) (s := []) fun _ => ⟨.refl _, .nil⟩
        obtain ⟨em, hem, -⟩ := h qsort hqsort
        rw [htext] at hem
        cases kind with
        | regular => cases hem
        | pipe => rfl
      · rw [hentries]
        nofun
      · rw [hnil htext]
        exact fun o => ⟨nofun, nofun⟩
      · rw [hmarks]
        nofun
    · have hmap := h.mappable htext
      refine ⟨Or.inl hmap, fun e he e' he' => ?_, fun o => ?_, fun m hm => h.last hmap hm⟩
      · rw [← marks_fst] at he he'
        obtain ⟨m, hm, rfl⟩ := List.mem_map.mp he
        obtain ⟨m', hm', rfl⟩ := List.mem_map.mp he'
        exact h.near hmap hm hm'
      · have hcons := h.consistent hmap
        exact ⟨fun a ha b hb => hcons.anti a (List.mem_filter.mp ha).1 b (List.mem_filter.mp hb).1,
          fun a ha b hb c hc => hcons.trans a (List.mem_filter.mp ha).1 b (List.mem_filter.mp hb).1 c
            (List.mem_filter.mp hc).1⟩
  · rintro ⟨htext, hsortable⟩ qsort hqsort
    have hempty (hcells : cells ps = []) : MapCorrect ps [] := by
      refine ⟨.nil, fun e => ⟨nofun, fun he => ?_⟩⟩
      rw [cells_nil hcells] at he
      cases he
    rcases htext with hmap | ⟨htext, rfl⟩
    · by_cases hcells : cells ps = []
      · exact ⟨[], (ereportMapParse_text hmap).trans (by rw [if_pos hcells]), hempty hcells⟩
      · have hperm := (hqsort _ hsortable.consistent_cells).1
        obtain ⟨a, l, hsort⟩ := List.exists_cons_of_ne_nil (fun h : qsort (cells ps) = [] => hcells (by
          rw [h] at hperm
          exact hperm.symm.eq_nil))
        have hs := hqsort (cells ps)
        rw [hsort] at hs hperm
        exact ⟨_, ereportMapParse_sorted hmap hsort hperm.length_eq.symm, hsortable.correct hs⟩
    · refine ⟨[], ?_, hempty (hnil htext)⟩
      rw [htext]
      rfl

/-- A text of less than 2^31 characters is sorted if its offsets are near. -/
theorem sortable_of_short (hshort : (texts (pieces ps)).length < 2 ^ 31)
    (hnear : ∀ e ∈ ps.flatMap Printed.entries, ∀ e' ∈ ps.flatMap Printed.entries, e.offset < e'.offset + 2 ^ 31) :
    Sortable ps := by
  have hps : ∀ e ∈ valuesOf (pieces ps), e.value < 256 := fun e he => (entries_lt (valuesOf_pieces ps ▸ he)).2
  obtain ⟨hsorted, hin⟩ := marks_increasing hps 0
  have hplace {c : Cell} (hc : c ∈ cells ps) : c.ptr < 2 ^ 31 := by
    obtain ⟨m, hm, rfl⟩ := exists_mark hc
    have hm : m.2 < 0 + (texts (pieces ps)).length := (hin m hm).2
    exact (show m.2 < 2 ^ 31 by omega)
  refine ⟨hnear, fun o => ⟨fun a ha b hb => ?_, fun a ha b hb c hc => ?_⟩, fun m hm hgreatest => ?_⟩
  · obtain ⟨ha, hao⟩ := List.mem_filter.mp ha
    obtain ⟨hb, hbo⟩ := List.mem_filter.mp hb
    have hoffset : a.offset = b.offset := (beq_iff_eq.mp hao).trans (beq_iff_eq.mp hbo).symm
    rw [compare_ptr hoffset (hplace ha) (hplace hb), compare_ptr hoffset.symm (hplace hb) (hplace ha)]
    omega
  · obtain ⟨ha, hao⟩ := List.mem_filter.mp ha
    obtain ⟨hb, hbo⟩ := List.mem_filter.mp hb
    obtain ⟨hc, hco⟩ := List.mem_filter.mp hc
    have hab : a.offset = b.offset := (beq_iff_eq.mp hao).trans (beq_iff_eq.mp hbo).symm
    have hbc : b.offset = c.offset := (beq_iff_eq.mp hbo).trans (beq_iff_eq.mp hco).symm
    rw [compare_ptr hab (hplace ha) (hplace hb), compare_ptr hbc (hplace hb) (hplace hc),
      compare_ptr (hab.trans hbc) (hplace ha) (hplace hc)]
    omega
  · obtain ⟨before, behind, hmarks⟩ := List.append_of_mem hm
    have hother : ∀ m' ∈ behind, m'.1.offset ≠ m.1.offset := by
      intro m' hm' hoffset
      have hmem : m' ∈ marks 0 (pieces ps) := by
        rw [hmarks]
        exact List.mem_append_right _ (List.mem_cons_of_mem _ hm')
      rw [hmarks] at hsorted
      have hlt := (List.pairwise_cons.mp (List.pairwise_append.mp hsorted).2.1).1 m' hm'
      have hle := hgreatest m' hmem hoffset
      rw [compare_ptr (a := cellOf m') (b := cellOf m) hoffset (hplace (List.mem_map_of_mem hmem))
        (hplace (List.mem_map_of_mem hm)), cellOf, cellOf] at hle
      dsimp only at hle
      omega
    have hnone : (behind.map Prod.fst).reverse.find? (fun e => e.offset == m.1.offset) = none := by
      refine List.find?_eq_none.mpr fun e he => ?_
      obtain ⟨m', hm', rfl⟩ := List.mem_map.mp (List.mem_reverse.mp he)
      rw [beq_iff_eq]
      exact hother m' hm'
    rw [← marks_fst, hmarks, List.map_append, List.map_cons, lastPrinted, List.reverse_append, List.reverse_cons,
      List.find?_append, List.find?_append, hnone, List.find?_singleton, if_pos (beq_self_eq_true _)]
    rfl

/-- Two offsets that are more than 2^31 apart come in the wrong order. -/
theorem ereport_map_order :
    ∃ p : Printed, p.form = .reportPath ∧ p.entries = [⟨0, 1⟩, ⟨0x90000000, 2⟩] ∧
      (∀ qsort, IsQsort compareEreportMap qsort →
        ereportMapParse qsort .regular (texts (pieces [p])) = .ok [⟨0x90000000, 2⟩, ⟨0, 1⟩]) ∧
      ¬Parsed [p] .regular := by
  let es : List Entry := [⟨0, 1⟩, ⟨0x90000000, 2⟩]
  let p : Printed := ⟨.reportPath, es, by simp [es, Increasing], by decide⟩
  have hpieces : pieces [p] = [.chars ['m', 'a', 'p'], .chars (front 0), .value ⟨0, 1⟩, .chars ['\n'],
      .chars ['m', 'a', 'p'], .chars (front 0x90000000), .value ⟨0x90000000, 2⟩, .chars ['\n']] := rfl
  have hfront : (front 0).length = 13 := front_length (by decide)
  have hfront' : (front 0x90000000).length = 13 := front_length (by decide)
  have hpad : (pad 16 2 1).length = 2 := pad_length (by decide) (by decide) (by decide)
  have hpad' : (pad 16 2 2).length = 2 := pad_length (by decide) (by decide) (by decide)
  have hmarks : marks 0 (pieces [p]) = [(⟨0, 1⟩, 17), (⟨0x90000000, 2⟩, 37)] := by
    rw [hpieces]
    simp only [marks, hfront, hfront', List.length_cons, List.length_nil]
  have hcells : cells [p] = [⟨0, 17⟩, ⟨0x90000000, 37⟩] := congrArg (List.map cellOf) hmarks
  have hmap : Mappable .regular (texts (pieces [p])) := by
    have hlength : (texts (pieces [p])).length = 40 := by
      rw [hpieces]
      simp only [texts, List.flatMap_cons, List.flatMap_nil, Piece.text, List.length_append, List.length_cons,
        List.length_nil, hfront, hfront', hpad, hpad']
    refine ⟨?_, by rw [hlength]; decide, fun h => by cases h⟩
    intro hnil
    rw [hnil] at hlength
    cases hlength
  have hconsistent : Consistent compareEreportMap [⟨0, 17⟩, ⟨0x90000000, 37⟩] := ⟨by decide, by decide⟩
  have hresult (qsort : List Cell → List Cell) (hqsort : IsQsort compareEreportMap qsort) :
      ereportMapParse qsort .regular (texts (pieces [p])) = .ok [⟨0x90000000, 2⟩, ⟨0, 1⟩] := by
    have hsorts := hqsort (cells [p])
    rw [hcells] at hsorts
    obtain ⟨hperm, hsorted⟩ := hsorts hconsistent
    have hsort : qsort (cells [p]) = [⟨0x90000000, 37⟩, ⟨0, 17⟩] := by
      rw [hcells]
      obtain ⟨x, y, hxy⟩ := List.length_eq_two.mp hperm.length_eq
      rw [hxy] at hperm hsorted ⊢
      have hle := (List.pairwise_cons.mp hsorted).1 y List.mem_cons_self
      have hx : x ∈ [⟨0, 17⟩, ⟨0x90000000, 37⟩] := hperm.mem_iff.mp List.mem_cons_self
      rcases List.mem_cons.mp hx with rfl | hx
      · obtain rfl := List.perm_singleton.mp ((List.perm_cons _).mp hperm) |> List.singleton_inj.mp
        exact absurd hle (by decide)
      · obtain rfl := List.mem_singleton.mp hx
        obtain rfl := List.perm_singleton.mp ((List.perm_cons _).mp (hperm.trans (.swap ..))) |> List.singleton_inj.mp
        rfl
    have hmark (m : Entry × ℕ) (hm : m ∈ [(⟨0, 1⟩, 17), (⟨0x90000000, 2⟩, 37)]) :
        toEntry (readValue (texts (pieces [p])) (cellOf m)) = m.1 := readValue_mark (by rwa [hmarks])
    have hzero := hmark (⟨0, 1⟩, 17) (by simp)
    have hfar := hmark (⟨0x90000000, 2⟩, 37) (by simp)
    rw [ereportMapParse_sorted hmap hsort (by rw [hcells]; rfl)]
    exact congrArg Except.ok (congrArg₂ (fun x y => [x, y]) hfar hzero)
  refine ⟨p, rfl, rfl, hresult, fun h => ?_⟩
  obtain ⟨qsort, hqsort, -⟩ := exists_qsort (l := []) (s := []) fun _ => ⟨.refl _, .nil⟩
  obtain ⟨em, hem, hcorrect⟩ := h qsort hqsort
  rw [hresult qsort hqsort] at hem
  obtain rfl := Except.ok.inj hem
  exact absurd ((List.pairwise_cons.mp hcorrect.increasing).1 _ List.mem_cons_self) (by decide)

end

end Ereport

end NfpEstimator
