import NfpEstimator.Bits

/-!
# Bytes in a memory

A memory of `M` bytes whose addresses wrap around, and a row of bytes that is to be at the addresses from `o` on.
`patch` is the memory after some of them have been written; which ones depends only on their places in the row.
Bytes that are written or not make no difference exactly if they are there already (`patch_eq_iff`).

Four bytes are a word, the lowest bits first.
-/

namespace NfpEstimator

namespace Bytes

variable {M o i j v : ℕ} {W W' : ℕ → Bool} {b b' m : ℕ → ℕ}

/-! ### Rows of bytes -/

/-- The place that address `j` has in a row from `o` on. -/
def place (M o j : ℕ) : ℕ := (j + M - o % M) % M

/-- The memory `m` after those bytes of the row `b` have been written whose places are in `W`. -/
def patch (M o : ℕ) (W : ℕ → Bool) (b m : ℕ → ℕ) : ℕ → ℕ :=
  fun j => if j < M ∧ W (place M o j) then b (place M o j) else m j

theorem place_eq_iff (hj : j < M) (hi : i < M) : place M o j = i ↔ j = (o + i) % M := by
  have ho : o % M < M := Nat.mod_lt _ (by omega)
  rw [place, sub_mod_of_lt hj ho, ← Nat.mod_add_mod]
  generalize o % M = r at ho
  by_cases h : r + i < M
  · rw [Nat.mod_eq_of_lt h]
    split_ifs <;> omega
  · have hwrap : (r + i) % M = r + i - M := by
      rw [Nat.mod_eq_sub_mod (by omega), Nat.mod_eq_of_lt (by omega)]
    rw [hwrap]
    split_ifs <;> omega

theorem address_lt (hi : i < M) : (o + i) % M < M := Nat.mod_lt _ (by omega)

theorem place_address (hi : i < M) : place M o ((o + i) % M) = i :=
  (place_eq_iff (address_lt hi) hi).mpr rfl

theorem place_lt (hj : j < M) : place M o j < M := Nat.mod_lt _ (by omega)

theorem address_place (hj : j < M) : (o + place M o j) % M = j :=
  ((place_eq_iff hj (place_lt hj)).mp rfl).symm

@[simp] theorem patch_none : patch M o (fun _ => false) b m = m := by
  funext j
  simp [patch]

/-- A byte of the row. -/
theorem patch_address (hi : i < M) :
    patch M o W b m ((o + i) % M) = if W i then b i else m ((o + i) % M) := by
  rw [patch, place_address hi]
  exact if_congr (and_iff_right (address_lt hi)) rfl rfl

theorem patch_congr (h : ∀ i < M, W i = W' i) : patch M o W b m = patch M o W' b m := by
  funext j
  by_cases hj : j < M
  · simp [patch, hj, h _ (place_lt hj)]
  · simp [patch, hj]

/-- One more byte is written. -/
theorem update_patch (hi : i < M) :
    Function.update (patch M o W b m) ((o + i) % M) (b i) = patch M o (fun k => W k || k == i) b m := by
  funext j
  rw [Function.update_apply]
  split_ifs with h
  · rw [h, patch_address hi, beq_self_eq_true, Bool.or_true, if_pos rfl]
  · by_cases hj : j < M
    · have hne : (place M o j == i) = false := beq_eq_false_iff_ne.mpr fun hp => h ((place_eq_iff hj hi).mp hp)
      simp only [patch, hne, Bool.or_false]
    · simp only [patch, hj, false_and, if_false]

/-- One more byte may be written. -/
theorem ite_update_patch {c : Prop} [Decidable c] (hi : i < M) :
    (if c then Function.update (patch M o W b m) ((o + i) % M) (b i) else patch M o W b m) =
      patch M o (fun k => W k || (decide c && k == i)) b m := by
  split_ifs with h
  · simp only [update_patch hi, h, decide_true, Bool.true_and]
  · simp only [h, decide_false, Bool.false_and, Bool.or_false]

/-- **It makes no difference which bytes are written exactly if all for which it would are there already.** -/
theorem patch_eq_iff :
    patch M o W b m = patch M o W' b m ↔ ∀ i < M, W i ≠ W' i → m ((o + i) % M) = b i := by
  constructor
  · intro h i hi hne
    have hi' := congrFun h ((o + i) % M)
    rw [patch_address hi, patch_address hi] at hi'
    cases hW : W i <;> cases hW' : W' i <;> simp_all
  · intro h
    funext j
    by_cases hj : j < M
    · have hj' := h (place M o j) (place_lt hj)
      rw [address_place hj] at hj'
      cases hW : W (place M o j) <;> cases hW' : W' (place M o j) <;> simp_all [patch]
    · simp only [patch, hj, false_and, if_false]

/-- It makes no difference what is written exactly if it is the same. -/
theorem patch_row_iff : patch M o W b m = patch M o W b' m ↔ ∀ i < M, W i = true → b i = b' i := by
  constructor
  · intro h i hi hW
    have hi' := congrFun h ((o + i) % M)
    rwa [patch_address hi, patch_address hi, if_pos hW, if_pos hW] at hi'
  · intro h
    funext j
    by_cases hj : j < M ∧ W (place M o j)
    · rw [patch, patch, if_pos hj, if_pos hj, h _ (place_lt hj.1) hj.2]
    · rw [patch, patch, if_neg hj, if_neg hj]

/-! ### Words -/

/-- Byte `r` of a word. -/
def byte (v r : ℕ) : ℕ := slice (8 * r) 8 v

/-- The word of four bytes. -/
def word (b : ℕ → ℕ) : ℕ := glue 24 (b 3) (glue 16 (b 2) (glue 8 (b 1) (b 0)))

theorem word_lt (h : ∀ r < 4, b r < 2 ^ 8) : word b < 2 ^ 32 :=
  glue_lt (h 3 (by decide)) (glue_lt (h 2 (by decide)) (glue_lt (h 1 (by decide)) (h 0 (by decide))))

theorem word_congr (h : ∀ r < 4, b r = b' r) : word b = word b' := by
  rw [word, word, h 0 (by decide), h 1 (by decide), h 2 (by decide), h 3 (by decide)]

theorem word_byte (hv : v < 2 ^ 32) : word (byte v) = v := by
  simp only [word, byte, slice, glue]
  omega

/-- A word is as good as its four bytes. -/
theorem byte_inj {v' : ℕ} (hv : v < 2 ^ 32) (hv' : v' < 2 ^ 32) : (∀ r < 4, byte v r = byte v' r) ↔ v = v' := by
  refine ⟨fun h => ?_, fun h _ _ => h ▸ rfl⟩
  rw [← word_byte hv, word_congr h, word_byte hv']

end Bytes

end NfpEstimator
