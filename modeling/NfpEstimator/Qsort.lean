import Mathlib

/-!
# Sorting with a comparison function

`qsort` sorts an array if the results of the comparison function on its elements are consistent with one another. If
they are not, nothing is promised. The order of elements that compare equal is not promised either: any of them may be
the last (`exists_sorted_last`).
-/

namespace NfpEstimator

namespace Qsort

variable {α : Type*} {cmp : α → α → ℤ} {l s : List α} {a b c : α}

/-- The results of a comparison function on the elements of a list are consistent with one another. -/
structure Consistent (cmp : α → α → ℤ) (l : List α) : Prop where
  anti : ∀ a ∈ l, ∀ b ∈ l, cmp a b < 0 ↔ 0 < cmp b a
  trans : ∀ a ∈ l, ∀ b ∈ l, ∀ c ∈ l, cmp a b ≤ 0 → cmp b c ≤ 0 → cmp a c ≤ 0

/-- `s` may be what is left of `l` when it has been sorted. -/
def Sorts (cmp : α → α → ℤ) (l s : List α) : Prop :=
  Consistent cmp l → s.Perm l ∧ s.Pairwise fun a b => cmp a b ≤ 0

/-- A function that does what `qsort` promises. -/
def IsQsort (cmp : α → α → ℤ) (qsort : List α → List α) : Prop := ∀ l, Sorts cmp l (qsort l)

theorem Consistent.self (h : Consistent cmp l) (ha : a ∈ l) : cmp a a = 0 := by
  have hanti := h.anti a ha a ha
  omega

theorem Consistent.total (h : Consistent cmp l) (ha : a ∈ l) (hb : b ∈ l) : cmp a b ≤ 0 ∨ cmp b a ≤ 0 := by
  have hanti := h.anti b hb a ha
  omega

theorem Consistent.le_of_not_le (h : Consistent cmp l) (ha : a ∈ l) (hb : b ∈ l) (hlt : ¬cmp a b ≤ 0) :
    cmp b a ≤ 0 := (h.total ha hb).resolve_left hlt

theorem exists_sorted (h : Consistent cmp l) : ∃ s : List α, s.Perm l ∧ s.Pairwise fun a b => cmp a b ≤ 0 := by
  let le (a b : { a // a ∈ l }) : Bool := decide (cmp a b ≤ 0)
  have htrans (a b c : { a // a ∈ l }) (hab : le a b) (hbc : le b c) : le a c :=
    decide_eq_true (h.trans a a.2 b b.2 c c.2 (of_decide_eq_true hab) (of_decide_eq_true hbc))
  have htotal (a b : { a // a ∈ l }) : (le a b || le b a) = true := by
    rw [Bool.or_eq_true, decide_eq_true_eq, decide_eq_true_eq]
    exact h.total a.2 b.2
  have hsorted := List.pairwise_mergeSort htrans htotal l.attach
  have hperm := (List.mergeSort_perm l.attach le).map Subtype.val
  rw [List.attach_map_subtype_val] at hperm
  refine ⟨_, hperm, List.pairwise_map.mpr (hsorted.imp fun hle => of_decide_eq_true hle)⟩

/-- Whichever of the elements that compare equal may come last. -/
theorem exists_sorted_last (h : Consistent cmp l) (hc : c ∈ l) :
    ∃ s₁ s₂ : List α, (s₁ ++ c :: s₂).Perm l ∧ ((s₁ ++ c :: s₂).Pairwise fun a b => cmp a b ≤ 0) ∧
      ∀ d ∈ s₂, 0 < cmp d c := by
  classical
  obtain ⟨s, hperm, hsorted⟩ := exists_sorted h
  let before := s.filter fun d => cmp d c ≤ 0
  let behind := s.filter fun d => !decide (cmp d c ≤ 0)
  have hcmem : c ∈ before := List.mem_filter.mpr ⟨hperm.mem_iff.mpr hc, decide_eq_true (Int.le_of_eq (h.self hc))⟩
  have hbehind : ∀ d ∈ behind, d ∈ l ∧ 0 < cmp d c := by
    intro d hd
    obtain ⟨hd, hlt⟩ := List.mem_filter.mp hd
    exact ⟨hperm.mem_iff.mp hd, by simpa using hlt⟩
  have hbefore : ∀ d ∈ before.erase c, d ∈ l ∧ cmp d c ≤ 0 := by
    intro d hd
    obtain ⟨hd, hle⟩ := List.mem_filter.mp (List.mem_of_mem_erase hd)
    exact ⟨hperm.mem_iff.mp hd, of_decide_eq_true hle⟩
  have hc_le : ∀ d ∈ behind, cmp c d ≤ 0 := fun d hd =>
    h.le_of_not_le (hbehind d hd).1 hc (by have := (hbehind d hd).2; omega)
  refine ⟨before.erase c, behind, ?_, ?_, fun d hd => (hbehind d hd).2⟩
  · have hmove : (before.erase c ++ c :: behind).Perm (before ++ behind) :=
      List.perm_middle.trans ((List.perm_cons_erase hcmem).symm.append_right behind)
    exact hmove.trans ((List.filter_append_perm _ s).trans hperm)
  · refine List.pairwise_append.mpr ⟨?_, List.pairwise_cons.mpr ⟨hc_le, hsorted.filter _⟩, ?_⟩
    · exact (hsorted.filter _).sublist List.erase_sublist
    · intro a ha b hb
      obtain ⟨hal, hac⟩ := hbefore a ha
      rcases List.mem_cons.mp hb with rfl | hb
      · exact hac
      · exact h.trans a hal c hc b (hbehind b hb).1 hac (hc_le b hb)

/-- **All that is allowed can happen.** -/
theorem exists_qsort (h : Sorts cmp l s) : ∃ qsort, IsQsort cmp qsort ∧ qsort l = s := by
  classical
  have hsorts (l : List α) : ∃ s, Sorts cmp l s := by
    by_cases hl : Consistent cmp l
    · obtain ⟨s, hs⟩ := exists_sorted hl
      exact ⟨s, fun _ => hs⟩
    · exact ⟨[], fun hl' => absurd hl' hl⟩
  choose sort hsort using hsorts
  refine ⟨Function.update sort l s, fun l' => ?_, Function.update_self ..⟩
  by_cases hl : l' = l
  · rw [hl, Function.update_self]
    exact h
  · rw [Function.update_of_ne hl]
    exact hsort l'

end Qsort

end NfpEstimator
