import Mathlib

/-!
# Arrays in memory

A program that works on an array in place has memory, which is read and written by position; what it does to a part of
the memory is a statement about lists. Here is how both go together: writes outside of a segment and in it, segments
one behind the other, two elements that change places, and how many elements of a kind there can be.
-/

namespace NfpEstimator

variable {α : Type*} {a b : ℕ → α} {i j o n k : ℕ} {v : α}

/-- The elements from `o` on, `n` of them. -/
def segment (a : ℕ → α) (o n : ℕ) : List α := (List.range n).map fun i => a (o + i)

@[simp] theorem length_segment (a : ℕ → α) (o n : ℕ) : (segment a o n).length = n := by
  rw [segment, List.length_map, List.length_range]

@[simp] theorem getElem_segment (h : i < (segment a o n).length) : (segment a o n)[i] = a (o + i) := by
  simp only [segment, List.getElem_map, List.getElem_range]

theorem segment_add (a : ℕ → α) (o n k : ℕ) : segment a o (n + k) = segment a o n ++ segment a (o + n) k := by
  rw [segment, List.range_add, List.map_append, List.map_map]
  simp only [segment, Function.comp_def, Nat.add_assoc]

theorem segment_succ (a : ℕ → α) (o n : ℕ) : segment a o (n + 1) = a o :: segment a (o + 1) n := by
  rw [Nat.add_comm, segment_add]
  rfl

theorem segment_congr (h : ∀ i, o ≤ i → i < o + n → a i = b i) : segment a o n = segment b o n := by
  refine List.map_congr_left fun i hi => h (o + i) (Nat.le_add_right o i) ?_
  exact Nat.add_lt_add_left (List.mem_range.mp hi) o

theorem mem_segment : v ∈ segment a o n ↔ ∃ i, o ≤ i ∧ i < o + n ∧ a i = v := by
  rw [segment, List.mem_map]
  constructor
  · rintro ⟨i, hi, rfl⟩
    exact ⟨o + i, Nat.le_add_right o i, Nat.add_lt_add_left (List.mem_range.mp hi) o, rfl⟩
  · rintro ⟨i, hle, hlt, rfl⟩
    exact ⟨i - o, List.mem_range.mpr (by omega), by rw [Nat.add_sub_cancel' hle]⟩

theorem segment_getD (l : List α) (v : α) : segment (fun i => l.getD i v) 0 l.length = l := by
  refine List.ext_getElem (length_segment _ _ _) fun i _ hi => ?_
  rw [getElem_segment, Nat.zero_add, List.getD_eq_getElem _ _ hi]

/-! ### Writing -/

theorem segment_update (v : α) : segment (Function.update a i v) 0 n = (segment a 0 n).set i v := by
  refine List.ext_getElem (by simp) fun j hj _ => ?_
  rw [List.getElem_set, getElem_segment, getElem_segment, Nat.zero_add]
  split
  · next h => rw [h, Function.update_self]
  · next h => exact Function.update_of_ne (Ne.symm h) v a

/-- Two elements change places. -/
theorem segment_swap (hi : i < n) (hj : j < n) :
    (segment (Function.update (Function.update a i (a j)) j (a i)) 0 n).Perm (segment a 0 n) := by
  have hi' : i < (segment a 0 n).length := by rwa [length_segment]
  have hj' : j < (segment a 0 n).length := by rwa [length_segment]
  have hperm := List.set_set_perm hi' hj'
  rw [getElem_segment, getElem_segment, Nat.zero_add, Nat.zero_add] at hperm
  rwa [segment_update, segment_update]

/-- A part of the array is permuted. -/
theorem segment_perm (hpart : (segment a o k).Perm (segment b o k)) (hle : o + k ≤ n)
    (hother : ∀ i, i < o ∨ o + k ≤ i → a i = b i) : (segment a 0 n).Perm (segment b 0 n) := by
  obtain ⟨r, rfl⟩ := Nat.exists_eq_add_of_le hle
  rw [segment_add, segment_add, segment_add, segment_add b, Nat.zero_add]
  have hfirst : segment a 0 o = segment b 0 o := segment_congr fun i _ hi => hother i (by omega)
  have hlast : segment a (0 + (o + k)) r = segment b (0 + (o + k)) r := segment_congr fun i hi _ => hother i (by omega)
  rw [hfirst, hlast]
  exact (hpart.append_left _).append_right _

/-! ### Counting -/

theorem countP_segment (p : α → Bool) : (segment a 0 n).countP p = ((Finset.range n).filter fun i => p (a i)).card := by
  induction n with
  | zero => rfl
  | succ n ih =>
    rw [segment_add, List.countP_append, ih, Finset.range_add_one, Finset.filter_insert]
    split
    · next h =>
      rw [Finset.card_insert_of_notMem (by simp), segment, List.countP_map]
      simp [h]
    · next h =>
      rw [segment, List.countP_map]
      simp [h]

/-- If all elements of a range are of a kind and one outside of it is too, there is more room for them. -/
theorem lt_countP_segment {p : α → Bool} (hrange : ∀ i, o ≤ i → i < k → p (a i)) (hk : k ≤ n) (hj : j < n)
    (hout : j < o ∨ k ≤ j) (hp : p (a j)) : k - o < (segment a 0 n).countP p := by
  have hsub : insert j (Finset.Ico o k) ⊆ (Finset.range n).filter fun i => p (a i) := by
    refine Finset.insert_subset (Finset.mem_filter.mpr ⟨Finset.mem_range.mpr hj, hp⟩) fun i hi => ?_
    obtain ⟨hlo, hhi⟩ := Finset.mem_Ico.mp hi
    exact Finset.mem_filter.mpr ⟨Finset.mem_range.mpr (by omega), hrange i hlo hhi⟩
  have hcard := Finset.card_le_card hsub
  rw [Finset.card_insert_of_notMem (by rw [Finset.mem_Ico]; omega), Nat.card_Ico] at hcard
  rw [countP_segment]
  exact hcard

end NfpEstimator
