import Mathlib

/-!
# Bits of numbers

A number below a power of two as a string of bits: parts of it, and two of them one behind the other.
-/

/-- The `n` bits of a number from bit `i` on. -/
def slice (i n v : ℕ) : ℕ := v / 2 ^ i % 2 ^ n

/-- The bits of `x`, and behind them the `n` bits of `y`. -/
def glue (n x y : ℕ) : ℕ := x * 2 ^ n + y

variable {i j m n k x y v : ℕ}

theorem slice_lt : slice i n v < 2 ^ n := Nat.mod_lt _ (Nat.two_pow_pos n)

theorem slice_zero_left : slice 0 n v = v % 2 ^ n := by rw [slice, Nat.pow_zero, Nat.div_one]

theorem slice_of_lt (h : v < 2 ^ n) : slice 0 n v = v := by rw [slice_zero_left, Nat.mod_eq_of_lt h]

theorem glue_lt (hx : x < 2 ^ m) (hy : y < 2 ^ n) : glue n x y < 2 ^ (m + n) := by
  have h : (x + 1) * 2 ^ n ≤ 2 ^ m * 2 ^ n := Nat.mul_le_mul_right _ hx
  rw [Nat.add_mul, Nat.one_mul] at h
  rw [glue, Nat.pow_add]
  omega

@[simp] theorem zero_glue : glue n 0 y = y := by rw [glue, Nat.zero_mul, Nat.zero_add]

theorem glue_div (hy : y < 2 ^ n) : glue n x y / 2 ^ n = x := by
  rw [glue, Nat.add_comm, Nat.add_mul_div_right _ _ (Nat.two_pow_pos n), Nat.div_eq_of_lt hy,
    Nat.zero_add]

theorem glue_mod (hy : y < 2 ^ n) : glue n x y % 2 ^ n = y := by
  rw [glue, Nat.add_comm, Nat.add_mul_mod_self_right, Nat.mod_eq_of_lt hy]

theorem glue_div_mod (n v : ℕ) : glue n (v / 2 ^ n) (v % 2 ^ n) = v := Nat.div_add_mod' v (2 ^ n)

theorem glue_assoc (z : ℕ) : glue n (glue m x y) z = glue (m + n) x (glue n y z) := by
  simp only [glue, Nat.pow_add]
  ring

/-- Two numbers that end in the same number of bits are compared from the front. -/
theorem glue_inj {x' y' : ℕ} (hy : y < 2 ^ n) (hy' : y' < 2 ^ n) (h : glue n x y = glue n x' y') :
    x = x' ∧ y = y' := by
  refine ⟨?_, ?_⟩
  · rw [← glue_div (x := x) hy, h, glue_div hy']
  · rw [← glue_mod (x := x) hy, h, glue_mod hy']

/-- The two parts of a number. -/
theorem glue_slice (hv : v < 2 ^ (k + i)) : glue i (slice i k v) (slice 0 i v) = v := by
  have h : v / 2 ^ i < 2 ^ k := by
    rw [Nat.div_lt_iff_lt_mul (Nat.two_pow_pos i), ← Nat.pow_add]
    exact hv
  rw [slice_zero_left, slice, Nat.mod_eq_of_lt h, glue_div_mod]

/-- A part of a part. -/
theorem slice_slice (h : j + k ≤ n) : slice j k (slice i n v) = slice (i + j) k v := by
  obtain ⟨d, rfl⟩ : ∃ d, n = j + d := ⟨n - j, by omega⟩
  rw [slice, slice, slice, Nat.pow_add, Nat.mod_mul_right_div_self,
    Nat.mod_mod_of_dvd _ (Nat.pow_dvd_pow 2 (by omega)), Nat.div_div_eq_div_mul, Nat.pow_add]

/-- Within the front of two numbers. -/
theorem slice_glue_left (hy : y < 2 ^ n) (h : n ≤ i) : slice i k (glue n x y) = slice (i - n) k x := by
  obtain ⟨d, rfl⟩ : ∃ d, i = n + d := ⟨i - n, by omega⟩
  rw [slice, slice, Nat.pow_add, ← Nat.div_div_eq_div_mul, glue_div hy, Nat.add_sub_cancel_left]

/-- Within the back of them. -/
theorem slice_glue_right (h : i + k ≤ n) : slice i k (glue n x y) = slice i k y := by
  obtain ⟨d, rfl⟩ : ∃ d, n = i + (k + d) := ⟨n - i - k, by omega⟩
  have hsplit : x * (2 ^ i * (2 ^ k * 2 ^ d)) + y = y + 2 ^ i * (2 ^ k * (2 ^ d * x)) := by ring
  rw [slice, slice, glue, Nat.pow_add, Nat.pow_add, hsplit,
    Nat.add_mul_div_left _ _ (Nat.two_pow_pos i), Nat.add_mul_mod_self_left]

/-- Across the seam. -/
theorem slice_glue_middle (hy : y < 2 ^ n) (hi : i ≤ n) (hk : n ≤ i + k) :
    slice i k (glue n x y) = glue (n - i) (slice 0 (i + k - n) x) (slice i (n - i) y) := by
  obtain ⟨d, rfl⟩ : ∃ d, n = i + d := ⟨n - i, by omega⟩
  obtain ⟨c, rfl⟩ : ∃ c, k = d + c := ⟨k - d, by omega⟩
  have hsplit : x * (2 ^ i * 2 ^ d) + y = y + 2 ^ i * (x * 2 ^ d) := by ring
  have hlow : y / 2 ^ i < 2 ^ d := by
    rw [Nat.div_lt_iff_lt_mul (Nat.two_pow_pos i), ← Nat.pow_add, Nat.add_comm]
    exact hy
  have hmid : glue (i + d) x y / 2 ^ i = glue d x (y / 2 ^ i) := by
    rw [glue, Nat.pow_add, hsplit, Nat.add_mul_div_left _ _ (Nat.two_pow_pos i), Nat.add_comm, glue]
  rw [slice, hmid, slice_zero_left, slice, Nat.add_sub_cancel_left, Nat.mod_eq_of_lt hlow,
    Nat.pow_add, Nat.mod_mul, glue_mod hlow, glue_div hlow, Nat.add_comm, Nat.mul_comm, glue,
    show i + (d + c) - (i + d) = c by omega]

/-- Two words behind two others: the last ones carry into the first. -/
theorem glue_add_mod {x' y' : ℕ} : (glue n x y + glue n x' y') % 2 ^ (k + n) =
    glue n ((x + x' + (y + y') / 2 ^ n) % 2 ^ k) ((y + y') % 2 ^ n) := by
  have hsum : glue n x y + glue n x' y' = glue n (x + x' + (y + y') / 2 ^ n) ((y + y') % 2 ^ n) := by
    have hdiv := Nat.div_add_mod' (y + y') (2 ^ n)
    simp only [glue, Nat.add_mul]
    omega
  have hdiv := Nat.div_add_mod' (x + x' + (y + y') / 2 ^ n) (2 ^ k)
  have hlt : glue n ((x + x' + (y + y') / 2 ^ n) % 2 ^ k) ((y + y') % 2 ^ n) < 2 ^ (k + n) :=
    glue_lt (Nat.mod_lt _ (Nat.two_pow_pos k)) (Nat.mod_lt _ (Nat.two_pow_pos n))
  rw [hsum, ← Nat.mod_eq_of_lt hlt]
  conv_lhs => rw [← hdiv]
  rw [glue, glue, Nat.add_mul, Nat.mul_assoc, ← Nat.pow_add, Nat.add_assoc, Nat.mul_add_mod']

/-- An addition to the front of a number. -/
theorem slice_glue_add : slice n k ((glue n x 0 + y) % 2 ^ (k + n)) = (x + slice n k y) % 2 ^ k := by
  rw [slice, Nat.add_comm k, Nat.pow_add, Nat.mod_mul_right_div_self, Nat.mod_mod, glue, Nat.add_zero,
    Nat.mul_comm, Nat.mul_add_div (Nat.two_pow_pos n), slice, Nat.add_mod_mod]

/-! ### Shifts -/

/-- A shift to the left drops bits in front and adds as many behind. -/
theorem shiftLeft_mod (h : m ≤ n) : (v <<< m) % 2 ^ n = glue m (slice 0 (n - m) v) 0 := by
  obtain ⟨d, rfl⟩ : ∃ d, n = m + d := ⟨n - m, by omega⟩
  rw [Nat.shiftLeft_eq, Nat.pow_add, Nat.mul_comm v, Nat.mul_mod_mul_left, slice_zero_left, glue,
    Nat.add_sub_cancel_left, Nat.add_zero, Nat.mul_comm]

/-- A shift to the right drops them behind. -/
theorem shiftRight_eq (hv : v < 2 ^ n) : v >>> m = slice m (n - m) v := by
  rw [Nat.shiftRight_eq_div_pow, slice]
  rcases Nat.le_total m n with h | h
  · refine (Nat.mod_eq_of_lt ?_).symm
    rw [Nat.div_lt_iff_lt_mul (Nat.two_pow_pos m), ← Nat.pow_add, Nat.sub_add_cancel h]
    exact hv
  · rw [Nat.div_eq_of_lt (hv.trans_le (Nat.pow_le_pow_right Nat.two_pos h)), Nat.zero_mod]

/-! ### Bit by bit -/

theorem testBit_glue (hy : y < 2 ^ n) (j : ℕ) :
    (glue n x y).testBit j = if j < n then y.testBit j else x.testBit (j - n) := by
  rw [glue, Nat.mul_comm, Nat.testBit_two_pow_mul_add x hy]

variable {x' y' : ℕ}

theorem glue_land (hy : y < 2 ^ n) (hy' : y' < 2 ^ n) :
    glue n x y &&& glue n x' y' = glue n (x &&& x') (y &&& y') := by
  refine Nat.eq_of_testBit_eq fun j => ?_
  rw [Nat.testBit_and, testBit_glue hy, testBit_glue hy', testBit_glue (Nat.and_lt_two_pow _ hy')]
  split <;> simp

theorem glue_lor (hy : y < 2 ^ n) (hy' : y' < 2 ^ n) :
    glue n x y ||| glue n x' y' = glue n (x ||| x') (y ||| y') := by
  refine Nat.eq_of_testBit_eq fun j => ?_
  rw [Nat.testBit_or, testBit_glue hy, testBit_glue hy', testBit_glue (Nat.or_lt_two_pow hy hy')]
  split <;> simp

/-- A mask of all bits from `i` up to `i + n`. -/
theorem land_mask : v &&& glue i (2 ^ n - 1) 0 = glue i (slice i n v) 0 := by
  have hz : 0 < 2 ^ i := Nat.two_pow_pos i
  conv_lhs => rw [← glue_div_mod i v, glue_land (Nat.mod_lt _ hz) hz]
  rw [Nat.and_two_pow_sub_one_eq_mod, Nat.and_zero, slice]

/-- All bits are changed. -/
theorem xor_ones (hv : v < 2 ^ n) : v ^^^ (2 ^ n - 1) = 2 ^ n - 1 - v := by
  have h : (BitVec.ofNat n v ^^^ BitVec.allOnes n).toNat = (~~~BitVec.ofNat n v).toNat := by
    rw [BitVec.xor_allOnes]
  rwa [BitVec.toNat_xor, BitVec.toNat_not, BitVec.toNat_allOnes, BitVec.toNat_ofNat,
    Nat.mod_eq_of_lt hv] at h

/-! ### Addresses -/

theorem add_mod_eq_self_iff {m : ℕ} : (x + y) % m = x % m ↔ m ∣ y := by
  have h := Nat.modEq_iff_dvd' (n := m) (Nat.le_add_right x y)
  rw [Nat.add_sub_cancel_left] at h
  rw [← h]
  exact eq_comm

/-- What is added to an address without its last bits, and a carry, in terms of the offset. -/
theorem div_add_eq {o b : ℕ} (hi : i ≤ n) :
    (b + o) / 2 ^ i + x =
      (b + (o + x * 2 ^ i) % 2 ^ n) / 2 ^ i + (o + x * 2 ^ i) / 2 ^ n * 2 ^ (n - i) := by
  have hpos : 0 < 2 ^ i := Nat.two_pow_pos i
  rw [← Nat.add_mul_div_right _ _ hpos, ← Nat.add_mul_div_right _ _ hpos, Nat.mul_assoc, ← Nat.pow_add,
    Nat.sub_add_cancel hi, Nat.add_assoc, Nat.add_assoc, Nat.mod_add_div']

theorem pow_dvd_mul_iff (hi : i ≤ n) : 2 ^ n ∣ k * 2 ^ (n - i) ↔ 2 ^ i ∣ k := by
  rw [← Nat.add_sub_cancel' hi, Nat.pow_add, Nat.add_sub_cancel_left,
    Nat.mul_dvd_mul_iff_right (Nat.two_pow_pos _)]

/-- What is added to an address without its last bits may be added to the offset instead, exactly if that does
not wrap around, or often enough. -/
theorem div_add_mod_iff {o b : ℕ} (hi : i ≤ n) :
    (b + (o + x * 2 ^ i) % 2 ^ n) / 2 ^ i % 2 ^ n = ((b + o) / 2 ^ i + x) % 2 ^ n ↔
      2 ^ i ∣ (o + x * 2 ^ i) / 2 ^ n := by
  rw [div_add_eq hi, eq_comm, add_mod_eq_self_iff, pow_dvd_mul_iff hi]

/-- If a carry is left out too. -/
theorem div_add_carry_mod_iff {o b c : ℕ} (hi : i < n) (hc : c ≤ 1) :
    (b + (o + x * 2 ^ i) % 2 ^ n) / 2 ^ i % 2 ^ n = ((b + o) / 2 ^ i + x + c) % 2 ^ n ↔
      c = 0 ∧ 2 ^ i ∣ (o + x * 2 ^ i) / 2 ^ n := by
  rw [div_add_eq hi.le, eq_comm, Nat.add_assoc, add_mod_eq_self_iff]
  rcases Nat.le_one_iff_eq_zero_or_eq_one.mp hc with rfl | rfl
  · rw [Nat.add_zero, pow_dvd_mul_iff hi.le]
    exact ⟨fun h => ⟨rfl, h⟩, And.right⟩
  · refine ⟨fun h => ?_, fun h => absurd h.1 Nat.one_ne_zero⟩
    -- all but the carry is even
    have htwo : 2 ∣ 2 ^ (n - i) := dvd_pow_self 2 (by omega)
    have heven : 2 ∣ (o + x * 2 ^ i) / 2 ^ n * 2 ^ (n - i) := htwo.mul_left _
    have hsum : 2 ∣ (o + x * 2 ^ i) / 2 ^ n * 2 ^ (n - i) + 1 := (dvd_pow_self 2 (by omega)).trans h
    omega

/-! ### Signs -/

/-- The first bit of a number. -/
theorem slice_first (h : v < 2 ^ (n + 1)) : slice n 1 v = if 2 ^ n ≤ v then 1 else 0 := by
  have hpow : 2 ^ (n + 1) = 2 ^ n * 2 := Nat.pow_succ ..
  have hdiv : v / 2 ^ n < 2 := Nat.div_lt_of_lt_mul (hpow ▸ h)
  rw [slice, Nat.pow_one, Nat.mod_eq_of_lt hdiv]
  split_ifs with hle
  · have := Nat.div_pos hle (Nat.two_pow_pos n)
    omega
  · exact Nat.div_eq_of_lt (Nat.lt_of_not_le hle)

theorem sub_mod_of_lt {m : ℕ} (hx : x < m) (hy : y < m) :
    (x + m - y) % m = if y ≤ x then x - y else x + m - y := by
  split_ifs with h
  · rw [Nat.sub_add_comm h, Nat.add_mod_right, Nat.mod_eq_of_lt (by omega)]
  · exact Nat.mod_eq_of_lt (by omega)

/-- A number as a signed one. -/
theorem toInt_ofNat_of_lt (h : v < 2 ^ (n + 1)) :
    (BitVec.ofNat (n + 1) v).toInt = if 2 ^ n ≤ v then (v : ℤ) - (2 ^ n * 2 : ℕ) else v := by
  have hpow : 2 ^ (n + 1) = 2 ^ n * 2 := Nat.pow_succ ..
  rw [BitVec.toInt_eq_toNat_cond, BitVec.toNat_ofNat, Nat.mod_eq_of_lt h, hpow]
  split_ifs <;> omega

/-- **Whether a difference is negative is whether it overflows, exactly if nothing less than nothing is
taken**: `d` is the difference of `x` and `y`, and it overflows if their signs differ and it has the sign of
`y`. -/
theorem sign_eq_overflow {d : ℕ} (hx : x < 2 ^ (n + 1)) (hy : y < 2 ^ (n + 1))
    (hd : d = (x + 2 ^ (n + 1) - y) % 2 ^ (n + 1)) :
    (slice n 1 d == (slice n 1 x ^^^ slice n 1 y) &&& (1 - (slice n 1 y ^^^ slice n 1 d))) =
      (BitVec.ofNat (n + 1) y).sle (BitVec.ofNat (n + 1) x) := by
  have hlt : d < 2 ^ (n + 1) := hd ▸ Nat.mod_lt _ (Nat.two_pow_pos _)
  rw [sub_mod_of_lt hx hy] at hd
  rw [slice_first hx, slice_first hy, slice_first hlt, BitVec.sle_eq_decide, toInt_ofNat_of_lt hx,
    toInt_ofNat_of_lt hy]
  rw [Nat.pow_succ] at hx hy hd hlt
  generalize 2 ^ n = P at hx hy hd hlt ⊢
  by_cases hsx : P ≤ x <;> by_cases hsy : P ≤ y <;> by_cases hsd : P ≤ d <;>
    simp only [hsx, hsy, hsd, if_true, if_false, Nat.xor_self, Nat.zero_xor, Nat.xor_zero, Nat.sub_zero,
      Nat.sub_self, Nat.and_zero, Nat.and_self, Nat.zero_and] <;>
    split_ifs at hd <;> (first | refine (decide_eq_true ?_).symm | refine (decide_eq_false ?_).symm) <;> omega

/-- The sum of two signed numbers and a carry. -/
def signedSum {w : ℕ} (x y : BitVec w) (c : ℕ) : ℤ := x.toInt + y.toInt + c

/-- It does not fit into their width. -/
def signedOverflow {w : ℕ} (x y : BitVec w) (c : ℕ) : Bool :=
  decide (signedSum x y c < -2 ^ (w - 1)) || decide (2 ^ (w - 1) ≤ signedSum x y c)

variable {c : ℕ}

theorem add_carry_mod (hx : x < 2 ^ (n + 1)) (hy : y < 2 ^ (n + 1)) (hc : c ≤ 1) :
    (x + y + c) % 2 ^ (n + 1) = if 2 ^ (n + 1) ≤ x + y + c then x + y + c - 2 ^ (n + 1) else x + y + c := by
  split_ifs with h
  · rw [Nat.mod_eq_sub_mod h, Nat.mod_eq_of_lt (by omega)]
  · exact Nat.mod_eq_of_lt (by omega)

theorem signedOverflow_eq (a b : BitVec (n + 1)) : signedOverflow a b c =
    (decide (signedSum a b c < -(2 ^ n : ℕ)) || decide ((2 ^ n : ℕ) ≤ signedSum a b c)) := by
  have hcast : (2 : ℤ) ^ n = (2 ^ n : ℕ) := by norm_cast
  rw [signedOverflow, Nat.add_sub_cancel, hcast]

/-- **The carry out of a sum differs from its sign exactly if the sum overflows, provided that the signs of what is
added are the same.** If they are not, it is the other way round. -/
theorem carry_xor_sign_iff (hx : x < 2 ^ (n + 1)) (hy : y < 2 ^ (n + 1)) (hc : c ≤ 1) :
    slice (n + 1) 1 (x + y + c) ^^^ slice n 1 ((x + y + c) % 2 ^ (n + 1)) =
        (if signedOverflow (BitVec.ofNat (n + 1) x) (BitVec.ofNat (n + 1) y) c then 1 else 0) ↔
      slice n 1 x = slice n 1 y := by
  have hpow : 2 ^ (n + 1 + 1) = 2 ^ (n + 1) * 2 := Nat.pow_succ ..
  have hlt : (x + y + c) % 2 ^ (n + 1) < 2 ^ (n + 1) := Nat.mod_lt _ (Nat.two_pow_pos _)
  rw [slice_first (n := n + 1) (by omega), slice_first hlt, slice_first hx, slice_first hy, add_carry_mod hx hy hc,
    signedOverflow_eq, signedSum, toInt_ofNat_of_lt hx, toInt_ofNat_of_lt hy]
  rw [Nat.pow_succ] at hx hy ⊢
  generalize 2 ^ n = P at hx hy ⊢
  by_cases hsx : P ≤ x <;> by_cases hsy : P ≤ y <;> by_cases hcarry : P * 2 ≤ x + y + c <;>
    simp only [hsx, hsy, hcarry, if_true, if_false, Bool.or_eq_true, decide_eq_true_eq] <;>
    split_ifs <;> simp <;> omega

/-- The sign of a sum and whether it overflows are the same exactly if the sum is not negative. -/
theorem sign_eq_signedOverflow (hx : x < 2 ^ (n + 1)) (hy : y < 2 ^ (n + 1)) (hc : c ≤ 1) :
    slice n 1 ((x + y + c) % 2 ^ (n + 1)) =
        (if signedOverflow (BitVec.ofNat (n + 1) x) (BitVec.ofNat (n + 1) y) c then 1 else 0) ↔
      0 ≤ signedSum (BitVec.ofNat (n + 1) x) (BitVec.ofNat (n + 1) y) c := by
  have hlt : (x + y + c) % 2 ^ (n + 1) < 2 ^ (n + 1) := Nat.mod_lt _ (Nat.two_pow_pos _)
  rw [slice_first hlt, add_carry_mod hx hy hc, signedOverflow_eq, signedSum, toInt_ofNat_of_lt hx,
    toInt_ofNat_of_lt hy]
  rw [Nat.pow_succ] at hx hy ⊢
  generalize 2 ^ n = P at hx hy ⊢
  by_cases hsx : P ≤ x <;> by_cases hsy : P ≤ y <;> by_cases hcarry : P * 2 ≤ x + y + c <;>
    simp only [hsx, hsy, hcarry, if_true, if_false, Bool.or_eq_true, decide_eq_true_eq] <;>
    split_ifs <;> simp <;> omega

/-- A sum of which nothing is left is nothing, or it is far below. -/
theorem signedSum_eq_zero (hx : x < 2 ^ (n + 1)) (hy : y < 2 ^ (n + 1)) (hc : c ≤ 1) :
    (x + y + c) % 2 ^ (n + 1) = 0 ↔ signedSum (BitVec.ofNat (n + 1) x) (BitVec.ofNat (n + 1) y) c = 0 ∨
      signedSum (BitVec.ofNat (n + 1) x) (BitVec.ofNat (n + 1) y) c = -(2 ^ (n + 1) : ℕ) := by
  rw [add_carry_mod hx hy hc, signedSum, toInt_ofNat_of_lt hx, toInt_ofNat_of_lt hy]
  rw [Nat.pow_succ] at hx hy ⊢
  have hpos : 0 < 2 ^ n := Nat.two_pow_pos n
  generalize 2 ^ n = P at hx hy hpos ⊢
  split_ifs <;> omega
