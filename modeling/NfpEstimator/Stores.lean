import Mathlib

/-!
# Bytes stored one after another

A program that fills a buffer is a list of stores, each of one byte at one place. Its memory afterwards is `after`;
what is read at a place is the byte that was stored there last.
-/

namespace NfpEstimator

/-- A byte and the place where it is stored. -/
structure Store where
  place : ℕ
  byte : ℕ
  deriving DecidableEq

namespace Store

variable {m m' : ℕ → ℕ} {ss ss' : List Store} {s : Store} {j d lo hi : ℕ}

/-- The memory after the stores. -/
def after (m : ℕ → ℕ) (ss : List Store) : ℕ → ℕ :=
  ss.foldl (fun m s => Function.update m s.place s.byte) m

/-- All stores are at places from `lo` on and before `hi`. -/
def Within (lo hi : ℕ) (ss : List Store) : Prop := ∀ s ∈ ss, lo ≤ s.place ∧ s.place < hi

/-- The same stores at places that are higher by `d`. -/
def shift (d : ℕ) (ss : List Store) : List Store := ss.map fun s => ⟨d + s.place, s.byte⟩

/-- `n` bytes in a row. -/
def row (lo n : ℕ) (b : ℕ → ℕ) : List Store := (List.range n).map fun i => ⟨lo + i, b i⟩

/-- The `n` bytes that are in memory from `lo` on. -/
def bytesAt (m : ℕ → ℕ) (lo n : ℕ) : List ℕ := (List.range n).map fun i => m (lo + i)

/-! ### What is stored where -/

@[simp] theorem within_nil : Within lo hi [] := nofun

@[simp] theorem within_cons : Within lo hi (s :: ss) ↔ (lo ≤ s.place ∧ s.place < hi) ∧ Within lo hi ss := by
  simp [Within]

@[simp] theorem within_append : Within lo hi (ss ++ ss') ↔ Within lo hi ss ∧ Within lo hi ss' :=
  List.forall_mem_append

theorem within_row {n : ℕ} {b : ℕ → ℕ} (h : n = 0 ∨ lo ≤ d ∧ d + n ≤ hi) : Within lo hi (row d n b) := by
  intro s hs
  obtain ⟨i, hi, rfl⟩ := List.mem_map.mp hs
  have hi' := List.mem_range.mp hi
  constructor <;> dsimp only <;> omega

theorem Within.mono (h : Within lo hi ss) {lo' hi' : ℕ} (hlo : lo' ≤ lo) (hhi : hi ≤ hi') : Within lo' hi' ss :=
  fun s hs => ⟨Nat.le_trans hlo (h s hs).1, Nat.lt_of_lt_of_le (h s hs).2 hhi⟩

theorem Within.shift (h : Within lo hi ss) : Within (d + lo) (d + hi) (shift d ss) := by
  intro s hs
  obtain ⟨t, ht, rfl⟩ := List.mem_map.mp hs
  exact ⟨Nat.add_le_add_left (h t ht).1 d, Nat.add_lt_add_left (h t ht).2 d⟩

theorem shift_append : shift d (ss ++ ss') = shift d ss ++ shift d ss' := List.map_append

theorem shift_shift {e : ℕ} : shift d (shift e ss) = shift (d + e) ss := by
  simp only [shift, List.map_map, Function.comp_def, Nat.add_assoc]

theorem shift_flatMap {α : Type*} (l : List α) (f : α → List Store) :
    shift d (l.flatMap f) = l.flatMap fun a => shift d (f a) := List.map_flatMap

/-! ### Reading -/

theorem after_append : after m (ss ++ ss') = after (after m ss) ss' := List.foldl_append

theorem after_cons : after m (s :: ss) = after (Function.update m s.place s.byte) ss := rfl

/-- Where nothing is stored. -/
theorem after_of_forall_ne (h : ∀ s ∈ ss, s.place ≠ j) : after m ss j = m j := by
  induction ss generalizing m with
  | nil => rfl
  | cons s ss ih =>
    rw [after_cons, ih fun t ht => h t (List.mem_cons_of_mem _ ht),
      Function.update_of_ne (h s List.mem_cons_self).symm]

/-- The byte of a store that no later one overwrites. -/
theorem after_last (m : ℕ → ℕ) (ss : List Store) (s : Store) (h : ∀ t ∈ ss', t.place ≠ s.place) :
    after m (ss ++ s :: ss') s.place = s.byte := by
  rw [after_append, after_cons, after_of_forall_ne h, Function.update_self]

theorem after_shift : after m (shift d ss) (d + j) = after (fun i => m (d + i)) ss j := by
  induction ss generalizing m with
  | nil => rfl
  | cons s ss ih =>
    have hupd : (fun i => Function.update m (d + s.place) s.byte (d + i)) =
        Function.update (fun i => m (d + i)) s.place s.byte := by
      funext i
      by_cases h : i = s.place
      · simp [h]
      · rw [Function.update_of_ne h, Function.update_of_ne (by omega)]
    rw [shift, List.map_cons, after_cons, after_cons, ← hupd]
    exact ih

theorem after_row {n i : ℕ} {b : ℕ → ℕ} (hi : i < n) : after m (row lo n b) (lo + i) = b i := by
  induction n with
  | zero => exact absurd hi (Nat.not_lt_zero i)
  | succ n ih =>
    rw [row, List.range_succ, List.map_append, after_append]
    rcases Nat.lt_succ_iff_lt_or_eq.mp hi with hlt | rfl
    · exact (Function.update_of_ne (by dsimp only; omega) _ _).trans (ih hlt)
    · exact Function.update_self ..

/-! ### Bytes in memory -/

theorem bytesAt_length {n : ℕ} : (bytesAt m lo n).length = n := by rw [bytesAt, List.length_map, List.length_range]

theorem bytesAt_add {n k : ℕ} : bytesAt m lo (n + k) = bytesAt m lo n ++ bytesAt m (lo + n) k := by
  simp only [bytesAt, List.range_add, List.map_append, List.map_map, Function.comp_def, Nat.add_assoc]

/-- Bytes that no store is about. -/
theorem Within.bytesAt_after {n o : ℕ} (h : Within lo hi ss) (ho : o + n ≤ lo ∨ hi ≤ o) :
    bytesAt (after m ss) o n = bytesAt m o n := by
  refine List.map_congr_left fun i hi => after_of_forall_ne fun s hs => ?_
  have hn := List.mem_range.mp hi
  have hplace := h s hs
  omega

theorem bytesAt_after_shift {n : ℕ} :
    bytesAt (after m (shift d ss)) (d + lo) n = bytesAt (after (fun i => m (d + i)) ss) lo n :=
  List.map_congr_left fun _ _ => by rw [Nat.add_assoc, after_shift]

theorem bytesAt_row {n : ℕ} {b : ℕ → ℕ} : bytesAt (after m (row lo n b)) lo n = (List.range n).map b :=
  List.map_congr_left fun _ hi => after_row (List.mem_range.mp hi)

end Store

end NfpEstimator
