import Mathlib

/-!
# Tables

A map as the list of its entries, in the order of the keys. Assigning to a key puts the entry
where it belongs, in place of the one that the key had before. What is in a `Map` stays in order.
-/

namespace Table

variable {α β : Type*} [LinearOrder α]

/-- The entries are in the order of their keys, and no key has two. -/
def Sorted (l : List (α × β)) : Prop := l.Pairwise fun x y => x.1 < y.1

/-- The entry of a key becomes the value. -/
def assign (k : α) (v : β) : List (α × β) → List (α × β)
  | [] => [(k, v)]
  | x :: l => if x.1 < k then x :: assign k v l else if k < x.1 then (k, v) :: x :: l else (k, v) :: l

variable {k : α} {v : β} {l : List (α × β)} {x : α × β}

@[simp] theorem sorted_nil : Sorted ([] : List (α × β)) := List.Pairwise.nil

@[simp] theorem sorted_cons : Sorted (x :: l) ↔ (∀ y ∈ l, x.1 < y.1) ∧ Sorted l :=
  List.pairwise_cons

theorem mem_or_mem_of_mem_assign (h : x ∈ assign k v l) : x = (k, v) ∨ x ∈ l := by
  induction l with
  | nil => exact Or.inl (List.mem_singleton.mp h)
  | cons y l ih =>
    rw [assign] at h
    split_ifs at h
    · rcases List.mem_cons.mp h with rfl | h
      · exact Or.inr List.mem_cons_self
      · exact (ih h).imp_right (List.mem_cons_of_mem y)
    · exact List.mem_cons.mp h
    · exact (List.mem_cons.mp h).imp_right (List.mem_cons_of_mem y)

theorem mem_assign_self : (k, v) ∈ assign k v l := by
  induction l with
  | nil => exact List.mem_singleton.mpr rfl
  | cons y l ih =>
    rw [assign]
    split_ifs
    · exact List.mem_cons_of_mem y ih
    · exact List.mem_cons_self
    · exact List.mem_cons_self

/-- The entries of the other keys stay. -/
theorem mem_assign_of_mem (h : x ∈ l) (hk : x.1 ≠ k) : x ∈ assign k v l := by
  induction l with
  | nil => cases h
  | cons y l ih =>
    rw [assign]
    rcases List.mem_cons.mp h with rfl | h
    · rcases lt_or_gt_of_ne hk with h | h
      · simp [h]
      · simp [h, h.not_gt]
    · split_ifs
      · exact List.mem_cons_of_mem y (ih h)
      · exact List.mem_cons_of_mem _ (List.mem_cons_of_mem y h)
      · exact List.mem_cons_of_mem _ h

theorem Sorted.assign (h : Sorted l) : Sorted (assign k v l) := by
  induction l with
  | nil => exact List.pairwise_singleton ..
  | cons y l ih =>
    obtain ⟨hy, hl⟩ := sorted_cons.mp h
    rw [Table.assign]
    split_ifs with h1 h2
    · refine sorted_cons.mpr ⟨fun z hz => ?_, ih hl⟩
      rcases mem_or_mem_of_mem_assign hz with rfl | hz
      · exact h1
      · exact hy z hz
    · refine sorted_cons.mpr ⟨fun z hz => ?_, h⟩
      rcases List.mem_cons.mp hz with rfl | hz
      · exact h2
      · exact h2.trans (hy z hz)
    · have hk : k = y.1 := le_antisymm (not_lt.mp h1) (not_lt.mp h2)
      exact sorted_cons.mpr ⟨fun z hz => hk ▸ hy z hz, hl⟩

/-- A key has one entry. -/
theorem Sorted.eq_of_mem (h : Sorted l) {w : β} (hv : (k, v) ∈ l) (hw : (k, w) ∈ l) : v = w := by
  induction l with
  | nil => exact nomatch hv
  | cons y l ih =>
    obtain ⟨hy, hl⟩ := sorted_cons.mp h
    rcases List.mem_cons.mp hv with rfl | hv <;> rcases List.mem_cons.mp hw with hw | hw
    · exact (Prod.mk.inj hw).2.symm
    · exact absurd (hy _ hw) (lt_irrefl _)
    · exact absurd (hw ▸ hy _ hv) (lt_irrefl _)
    · exact ih hl hv hw

/-! ### Ranges -/

/-- From the first entry whose key is not less than `lo` to the last one whose key is not greater than `hi`. -/
def range (lo hi : α) (l : List (α × β)) : List (α × β) :=
  (l.dropWhile fun x => decide (x.1 < lo)).takeWhile fun x => decide (x.1 ≤ hi)

theorem Sorted.mem_dropWhile (h : Sorted l) {lo : α} :
    x ∈ l.dropWhile (fun x => decide (x.1 < lo)) ↔ x ∈ l ∧ lo ≤ x.1 := by
  induction l with
  | nil => simp
  | cons y l ih =>
    obtain ⟨hy, hl⟩ := sorted_cons.mp h
    by_cases hlo : y.1 < lo
    · rw [List.dropWhile_cons_of_pos (by simpa using hlo), ih hl, List.mem_cons]
      refine and_congr_left fun hx => (or_iff_right ?_).symm
      rintro rfl
      exact hlo.not_ge hx
    · rw [List.dropWhile_cons_of_neg (by simpa using hlo)]
      refine (and_iff_left_of_imp fun hx => ?_).symm
      rcases List.mem_cons.mp hx with rfl | hx
      · exact not_lt.mp hlo
      · exact (not_lt.mp hlo).trans (hy x hx).le

theorem Sorted.mem_takeWhile (h : Sorted l) {hi : α} :
    x ∈ l.takeWhile (fun x => decide (x.1 ≤ hi)) ↔ x ∈ l ∧ x.1 ≤ hi := by
  induction l with
  | nil => simp
  | cons y l ih =>
    obtain ⟨hy, hl⟩ := sorted_cons.mp h
    by_cases hhi : y.1 ≤ hi
    · rw [List.takeWhile_cons_of_pos (by simpa using hhi), List.mem_cons, List.mem_cons, ih hl]
      constructor
      · rintro (rfl | ⟨hx, hx'⟩)
        · exact ⟨.inl rfl, hhi⟩
        · exact ⟨.inr hx, hx'⟩
      · rintro ⟨rfl | hx, hx'⟩
        · exact .inl rfl
        · exact .inr ⟨hx, hx'⟩
    · rw [List.takeWhile_cons_of_neg (by simpa using hhi)]
      refine (iff_of_false List.not_mem_nil ?_)
      rintro ⟨hx, hx'⟩
      rcases List.mem_cons.mp hx with rfl | hx
      · exact hhi hx'
      · exact hhi ((hy x hx).le.trans hx')

/-- **A range has the entries whose keys are in it.** -/
theorem Sorted.mem_range (h : Sorted l) {lo hi : α} : x ∈ range lo hi l ↔ x ∈ l ∧ lo ≤ x.1 ∧ x.1 ≤ hi := by
  have hdrop : Sorted (l.dropWhile fun x => decide (x.1 < lo)) := h.sublist (List.dropWhile_sublist _)
  rw [range, hdrop.mem_takeWhile, h.mem_dropWhile, and_assoc]

/-! ### Maps -/

theorem mem_of_lookup {α β : Type*} [DecidableEq α] {l : List (α × β)} {k : α} {v : β} (h : l.lookup k = some v) :
    (k, v) ∈ l := by
  obtain ⟨l₁, l₂, rfl, -⟩ := List.lookup_eq_some_iff.mp h
  exact List.mem_append_right _ List.mem_cons_self

theorem exists_lookup {α β : Type*} [DecidableEq α] {l : List (α × β)} {k : α} {v : β} (h : (k, v) ∈ l) :
    ∃ w, l.lookup k = some w :=
  Option.isSome_iff_exists.mp (List.lookup_isSome_iff.mpr ⟨_, h, beq_self_eq_true k⟩)

/-- A map, in the order of its keys. -/
structure Map (α β : Type*) [LinearOrder α] where
  entries : List (α × β)
  sorted : Sorted entries

namespace Map

/-- Nothing. -/
def empty : Map α β := ⟨[], sorted_nil⟩

/-- The entry of a key becomes the value. -/
def assign (m : Map α β) (k : α) (v : β) : Map α β := ⟨Table.assign k v m.entries, m.sorted.assign⟩

/-- Some entries, one after the other. -/
def assignAll (m : Map α β) (es : List (α × β)) : Map α β := es.foldl (fun m e => m.assign e.1 e.2) m

/-- The value of a key. -/
def find (m : Map α β) (k : α) : Option β := m.entries.lookup k

variable {m : Map α β} {k' : α} {w : β}

theorem find_eq_some_iff : m.find k = some v ↔ (k, v) ∈ m.entries := by
  refine ⟨mem_of_lookup, fun h => ?_⟩
  obtain ⟨w, hw⟩ := exists_lookup h
  rw [find, hw, m.sorted.eq_of_mem h (mem_of_lookup hw)]

@[simp] theorem find_empty : (empty : Map α β).find k = none := rfl

theorem find_assign : (m.assign k v).find k' = if k' = k then some v else m.find k' := by
  split_ifs with h
  · rw [h, find_eq_some_iff]
    exact mem_assign_self
  · refine Option.ext fun w => ?_
    rw [find_eq_some_iff, find_eq_some_iff]
    constructor
    · intro hw
      exact (mem_or_mem_of_mem_assign hw).resolve_left fun he => h (Prod.mk.inj he).1
    · exact fun hw => mem_assign_of_mem hw h

/-- **The last entry of a key is its value.** -/
theorem find_assignAll (es : List (α × β)) : (m.assignAll es).find k = (es.reverse.lookup k).or (m.find k) := by
  induction es generalizing m with
  | nil => rfl
  | cons e es ih =>
    have hlast : (m.assign e.1 e.2).find k = ([e].lookup k).or (m.find k) := by
      rw [find_assign, List.lookup_cons, List.lookup_nil]
      by_cases h : k = e.1
      · simp [h]
      · rw [if_neg h, beq_false_of_ne h]
        rfl
    rw [assignAll, List.foldl_cons, ← assignAll, ih, hlast, List.reverse_cons, List.lookup_append, Option.or_assoc]

end Map

end Table
