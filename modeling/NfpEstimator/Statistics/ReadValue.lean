import NfpEstimator.Scanf

/-!
# Reading a number

`read_value` reads a decimal number digit by digit into 64 bits, with a test whether the number got smaller, and then
multiplies or divides it by ten as often as an 8-bit shift says. The shift counts the digits behind the point. Each
division rounds to the nearest number, down where the digit is 5.

This is exact, or is known to fail, only sometimes: numbers can be too big without getting smaller, nothing is tested
when the number is multiplied, the shift can overflow, and rounding digit by digit is not rounding.
-/

namespace NfpEstimator

namespace Statistics

open Scanf

/-- What a function that reads from a text does: it has read something, at the position `c` of the line, it returns
`false`, or it ends the program. -/
inductive Read (α : Type) where
  | ok (value : α) (c : ℕ) (rest : List Char)
  | retry (c : ℕ)
  | errx (message : String)
  deriving DecidableEq

/-- Read on, with what has been read. -/
def Read.bind {α β : Type} (r : Read α) (f : α → ℕ → List Char → Read β) : Read β :=
  match r with
  | .ok a c rest => f a c rest
  | .retry c => .retry c
  | .errx message => .errx message

/-- The character at the position, 0 behind the text. -/
def char (rest : List Char) : Char := rest.headD '\x00'

/-- The loops over the digits; the one behind the point counts them in `shift`. -/
def readDigits (fraction : Bool) : List Char → UInt64 → Int8 → ℕ → Read (UInt64 × Int8)
  | [], value, shift, c => .ok (value, shift) c []
  | a :: rest, value, shift, c =>
    if isDigit 10 a then
      let shift := if fraction then shift + 1 else shift
      if value * 10 < value then .errx "value too big"
      else readDigits fraction rest (value * 10 + UInt64.ofNat (digitVal a)) shift (c + 1)
    else .ok (value, shift) c (a :: rest)

/-- `for (; shift < 0; shift++)` -/
def scaleUp : ℕ → UInt64 → UInt64
  | 0, value => value
  | n + 1, value => scaleUp n (value * 10)

/-- `for (; shift > 0; shift--)` -/
def scaleDown : ℕ → UInt64 → UInt64
  | 0, value => value
  | n + 1, value => scaleDown n ((if value % 10 > 5 then value + 10 else value) / 10)

/-- What is behind the label `done`. -/
def scale (shift : Int8) (value : UInt64) : UInt64 :=
  scaleDown shift.toInt.toNat (scaleUp (-shift.toInt).toNat value)

/-- `read_value`, from the position `c` on. -/
def readValue (shift : Int8) (c : ℕ) (rest : List Char) : Read UInt64 :=
  if !isDigit 10 (char rest) then .retry (c + 1)
  else if char rest = '0' ∧ char rest.tail ≠ ' ' ∧ char rest.tail ≠ '\n' ∧ char rest.tail ≠ '.' then .retry (c + 2)
  else
    (readDigits false rest 0 shift c).bind fun (value, shift) c rest =>
      if char rest = ' ' ∨ char rest = '\n' then .ok (scale shift value) c rest
      else if char rest ≠ '.' then .retry (c + 1)
      else if !isDigit 10 (char rest.tail) then .retry (c + 2)
      else
        (readDigits true rest.tail value shift (c + 1)).bind fun (value, shift) c rest =>
          .ok (scale shift value) c rest

/-! ### The number in the text -/

/-- The digits before the point. -/
def whole (text : List Char) : List Char := text.takeWhile (isDigit 10)

/-- What comes behind them. -/
def behind (text : List Char) : List Char := text.dropWhile (isDigit 10)

/-- The digits behind the point. -/
def fraction (text : List Char) : List Char :=
  if char (behind text) = '.' then (behind text).tail.takeWhile (isDigit 10) else []

/-- All digits. -/
def digits (text : List Char) : List Char := whole text ++ fraction text

/-- The decimal number that is written in the text. -/
def written (text : List Char) : ℚ := ofDigits 10 (digits text) / 10 ^ (fraction text).length

/-- The text begins with a number: no zero in front of another character, and digits behind a point. -/
def HasNumber (text : List Char) : Prop :=
  whole text ≠ [] ∧
    (char text = '0' → char text.tail = ' ' ∨ char text.tail = '\n' ∨ char text.tail = '.') ∧
    (char (behind text) = ' ' ∨ char (behind text) = '\n' ∨ char (behind text) = '.' ∧ fraction text ≠ [])

/-- The numbers that come up where the last digit is rounded off so often. -/
def roundings : ℕ → ℕ → List ℕ
  | 0, _ => []
  | n + 1, v =>
    let v := if v % 10 > 5 then v + 10 else v
    v :: roundings n (v / 10)

/-- The numbers that come up on the way, and the last one, if numbers have no end: those of the first digits, and what
comes of the number of all digits by the shift that the program goes by. -/
def results (shift : Int8) (text : List Char) : List ℕ :=
  let n := ofDigits 10 (digits text)
  let shift := shift + Int8.ofNat (fraction text).length
  (digits text).inits.map (ofDigits 10) ++ (List.range ((-shift.toInt).toNat + 1)).map (n * 10 ^ ·) ++
    roundings shift.toInt.toNat n

/-- The value is next to the number in the text divided by ten to the power of the shift, and no result on the way was
too big. -/
structure IsExact (shift : Int8) (text : List Char) (value : UInt64) : Prop where
  nearest : |(value.toNat : ℚ) - written text / 10 ^ shift.toInt| ≤ 1 / 2
  fits : ∀ n ∈ results shift text, n < 2 ^ 64

/-- What is read is exact, or nothing is read. -/
def ExactOrFails (shift : Int8) (text : List Char) : Read UInt64 → Prop
  | .ok value _ _ => IsExact shift text value
  | .retry _ => True
  | .errx _ => True

/-- A number of the first digits gets smaller when it is multiplied by ten, in 64 bits. -/
def GetsSmaller : ℕ → List Char → Prop
  | _, [] => False
  | n, d :: ds => n * 10 % 2 ^ 64 < n % 2 ^ 64 ∨ GetsSmaller (n * 10 + digitVal d) ds

/-- When the number of `n`, with `k` digits behind the point, is scaled exactly. -/
def ScalesExactly (n k : ℕ) (shift : Int8) : Prop :=
  let exact := shift.toInt + k
  let shift := (shift + Int8.ofNat k).toInt
  n < 2 ^ 64 ∧
    if shift < 0 then n * 10 ^ (-shift).toNat < 2 ^ 64 ∧ (shift = exact ∨ n = 0)
    else
      ¬(0 < shift ∧ 2 ^ 64 - 10 ≤ n ∧ 5 < n % 10) ∧
        if shift = exact then
          ¬(10 ^ shift.toNat < 2 * (n % 10 ^ shift.toNat) ∧
            9 * (n % 10 ^ shift.toNat) ≤ 5 * (10 ^ shift.toNat - 1))
        else 9 * n ≤ 5 * (10 ^ shift.toNat - 1)

/-! ### Scaling -/

section
variable {n k v : ℕ} {value : UInt64}

theorem scaleUp_toNat (k : ℕ) (value : UInt64) (h : value.toNat * 10 ^ k < 2 ^ 64) :
    (scaleUp k value).toNat = value.toNat * 10 ^ k := by
  induction k generalizing value with
  | zero => rw [scaleUp, Nat.pow_zero, Nat.mul_one]
  | succ k ih =>
    have hmul : value.toNat * 10 * 10 ^ k < 2 ^ 64 := by rwa [Nat.mul_assoc, ← Nat.pow_succ']
    have hle : value.toNat * 10 ≤ value.toNat * 10 * 10 ^ k := Nat.le_mul_of_pos_right _ (by positivity)
    have hten : (value * 10).toNat = value.toNat * 10 := by
      rw [UInt64.toNat_mul]
      exact Nat.mod_eq_of_lt (hle.trans_lt hmul)
    rw [scaleUp, ih _ (by rwa [hten]), hten, Nat.mul_assoc, ← Nat.pow_succ']

/-- Rounding digit by digit. -/
def roundDown : ℕ → ℕ → ℕ
  | 0, v => v
  | n + 1, v => roundDown n ((if v % 10 > 5 then v + 10 else v) / 10)

theorem scaleDown_toNat (k : ℕ) (value : UInt64) (h : ∀ v ∈ roundings k value.toNat, v < 2 ^ 64) :
    (scaleDown k value).toNat = roundDown k value.toNat := by
  induction k generalizing value with
  | zero => rfl
  | succ k ih =>
    have hnext : ((if value % 10 > 5 then value + 10 else value) / 10).toNat =
        (if value.toNat % 10 > 5 then value.toNat + 10 else value.toNat) / 10 := by
      have hfirst := h _ List.mem_cons_self
      have hif : value % 10 > 5 ↔ value.toNat % 10 > 5 := by
        rw [gt_iff_lt, UInt64.lt_iff_toNat_lt, UInt64.toNat_mod]
        rfl
      by_cases hup : value.toNat % 10 > 5
      · rw [if_pos hup] at hfirst
        rw [if_pos (hif.mpr hup), if_pos hup, UInt64.toNat_div, UInt64.toNat_add]
        exact congrArg (· / 10) (Nat.mod_eq_of_lt hfirst)
      · rw [if_neg (hif.not.mpr hup), if_neg hup, UInt64.toNat_div]
        rfl
    rw [scaleDown, ih _ (by rw [hnext]; exact fun v hv => h v (List.mem_cons_of_mem _ hv)), hnext]
    rfl

theorem ten_pow_eq (k : ℕ) : ∃ j, 10 ^ k = 9 * j + 1 := by
  induction k with
  | zero => exact ⟨0, rfl⟩
  | succ k ih =>
    obtain ⟨j, hj⟩ := ih
    exact ⟨10 * j + 1, by rw [Nat.pow_succ, hj]; omega⟩

/-- Rounding digit by digit rounds up from 6, 56, 556 and so on. -/
theorem roundDown_eq (k v : ℕ) :
    roundDown k v = v / 10 ^ k + if 9 * (v % 10 ^ k) ≤ 5 * (10 ^ k - 1) then 0 else 1 := by
  induction k generalizing v with
  | zero => simp [roundDown, Nat.mod_one]
  | succ k ih =>
    obtain ⟨j, hj⟩ := ten_pow_eq k
    have hpow : 10 ^ (k + 1) = 10 * 10 ^ k := Nat.pow_succ'
    have hmod : v / 10 % 10 ^ k < 10 ^ k := Nat.mod_lt _ (Nat.pow_pos (by decide))
    have hdiv := Nat.div_add_mod (v / 10) (10 ^ k)
    rw [roundDown, ih, hpow, ← Nat.div_div_eq_div_mul, Nat.mod_mul]
    by_cases hup : v % 10 > 5
    · have hten : (v + 10) / 10 = v / 10 + 1 := Nat.add_div_right v (by decide)
      rw [if_pos hup, hten]
      by_cases hcarry : v / 10 % 10 ^ k + 1 = 10 ^ k
      · -- the rest is as good as one more already
        obtain ⟨hq, hm⟩ : (v / 10 + 1) / 10 ^ k = v / 10 / 10 ^ k + 1 ∧ (v / 10 + 1) % 10 ^ k = 0 := by
          refine (Nat.div_mod_unique (by omega)).mpr ⟨?_, by omega⟩
          rw [Nat.mul_succ]
          omega
        rw [hq, hm, if_pos (by omega), if_neg (by omega)]
      · obtain ⟨hq, hm⟩ : (v / 10 + 1) / 10 ^ k = v / 10 / 10 ^ k ∧
            (v / 10 + 1) % 10 ^ k = v / 10 % 10 ^ k + 1 :=
          (Nat.div_mod_unique (by omega)).mpr ⟨by omega, by omega⟩
        rw [hq, hm]
        congr 1
        exact if_congr (by omega) rfl rfl
    · rw [if_neg hup]
      congr 1
      exact if_congr (by omega) rfl rfl

/-- Only the first rounding can be too much. -/
theorem roundings_fit (k : ℕ) (hv : v < 2 ^ 64) :
    (∀ n ∈ roundings k v, n < 2 ^ 64) ↔ ¬(0 < k ∧ 2 ^ 64 - 10 ≤ v ∧ 5 < v % 10) := by
  have hsmall : ∀ k v, v < 2 ^ 63 → ∀ n ∈ roundings k v, n < 2 ^ 64 := by
    intro k
    induction k with
    | zero => exact fun _ _ _ hn => nomatch hn
    | succ k ih =>
      intro v hv n hn
      have hle : (if v % 10 > 5 then v + 10 else v) ≤ v + 10 := by split_ifs <;> omega
      rcases List.mem_cons.mp hn with rfl | hn
      · omega
      · exact ih _ (by omega) n hn
  cases k with
  | zero => simp [roundings]
  | succ k =>
    rw [roundings, List.forall_mem_cons]
    by_cases hup : v % 10 > 5
    · rw [if_pos hup]
      have hrest : v + 10 < 2 ^ 64 → ∀ n ∈ roundings k ((v + 10) / 10), n < 2 ^ 64 := fun h =>
        hsmall k _ (by omega)
      constructor
      · rintro ⟨hfirst, -⟩
        omega
      · intro hno
        exact ⟨by omega, hrest (by omega)⟩
    · rw [if_neg hup]
      exact ⟨fun _ => by omega, fun _ => ⟨hv, hsmall k _ (by omega)⟩⟩

/-! ### Next to the number -/

/-- Rounding digit by digit is rounding, except between the half and what looks like one. -/
theorem roundDown_nearest (k v : ℕ) :
    |(roundDown k v : ℚ) - v / 10 ^ k| ≤ 1 / 2 ↔
      ¬(10 ^ k < 2 * (v % 10 ^ k) ∧ 9 * (v % 10 ^ k) ≤ 5 * (10 ^ k - 1)) := by
  have hpos : (0 : ℚ) < 10 ^ k := by positivity
  have hsplit : (v : ℚ) / 10 ^ k = (v / 10 ^ k : ℕ) + (v % 10 ^ k : ℕ) / 10 ^ k := by
    have hdiv : ((10 ^ k * (v / 10 ^ k) + v % 10 ^ k : ℕ) : ℚ) = v := by rw [Nat.div_add_mod]
    push_cast at hdiv
    field_simp
    linarith
  have hmod : v % 10 ^ k < 10 ^ k := Nat.mod_lt _ (Nat.pow_pos (by decide))
  rw [roundDown_eq, hsplit]
  generalize v / 10 ^ k = q at *
  generalize v % 10 ^ k = m at *
  split_ifs with hlow
  · have hdist : |((q + 0 : ℕ) : ℚ) - (q + m / 10 ^ k)| = m / 10 ^ k := by
      rw [Nat.add_zero, sub_add_cancel_left, abs_neg, abs_of_nonneg (by positivity)]
    rw [hdist, div_le_div_iff₀ hpos two_pos]
    have hcast : (m : ℚ) * 2 ≤ 1 * 10 ^ k ↔ m * 2 ≤ 10 ^ k := by
      rw [one_mul]
      exact_mod_cast Iff.rfl
    rw [hcast]
    omega
  · have hle : (m : ℚ) / 10 ^ k ≤ 1 := by
      rw [div_le_one hpos]
      exact_mod_cast hmod.le
    have hdist : |((q + 1 : ℕ) : ℚ) - (q + m / 10 ^ k)| = 1 - m / 10 ^ k := by
      rw [abs_of_nonneg (by push_cast; linarith)]
      push_cast
      ring
    rw [hdist]
    have hhalf : 10 ^ k ≤ 2 * m := by omega
    have hge : (1 : ℚ) / 2 ≤ m / 10 ^ k := by
      rw [div_le_div_iff₀ two_pos hpos]
      exact_mod_cast (by omega : 1 * 10 ^ k ≤ m * 2)
    exact ⟨fun _ h => hlow h.2, fun _ => by linarith⟩

/-- Nothing but zero is next to a number that is small enough. -/
theorem nearest_small {r : ℕ} {x : ℚ} (hx : 0 ≤ x) (hsmall : x < 1 / 2) : |(r : ℚ) - x| ≤ 1 / 2 ↔ r = 0 := by
  constructor
  · intro h
    by_contra hne
    have hone : (1 : ℚ) ≤ r := by exact_mod_cast Nat.one_le_iff_ne_zero.mpr hne
    have hle := (abs_le.mp h).2
    linarith
  · rintro rfl
    rw [Nat.cast_zero, zero_sub, abs_neg, abs_of_nonneg hx]
    exact hsmall.le

/-! ### The results on the way -/

/-- The shift that the program goes by is the right one, unless the right one is beyond 8 bits. -/
theorem shift_cases (shift : Int8) (k : ℕ) :
    (shift + Int8.ofNat k).toInt = shift.toInt + k ∨ 128 ≤ shift.toInt + (k : ℤ) := by
  have hle := shift.le_toInt
  rw [Int8.toInt_add, Int8.toInt_ofNat', show Int8.size = 2 ^ 8 from rfl, Int.add_bmod_bmod]
  by_cases hlt : shift.toInt + (k : ℤ) < 128
  · exact .inl (Int.bmod_eq_of_le (by omega) (by omega))
  · exact .inr (by omega)

theorem ofDigits_append_le (p q : List Char) : ofDigits 10 p ≤ ofDigits 10 (p ++ q) := by
  induction q using List.reverseRecOn with
  | nil => rw [List.append_nil]
  | append_singleton q c ih =>
    rw [← List.append_assoc, ofDigits_concat]
    omega

theorem results_fit (shift : Int8) (text : List Char) :
    (∀ v ∈ results shift text, v < 2 ^ 64) ↔
      let n := ofDigits 10 (digits text)
      let shift := (shift + Int8.ofNat (fraction text).length).toInt
      n < 2 ^ 64 ∧ n * 10 ^ (-shift).toNat < 2 ^ 64 ∧ ¬(0 < shift ∧ 2 ^ 64 - 10 ≤ n ∧ 5 < n % 10) := by
  simp only [results, List.forall_mem_append, List.forall_mem_map, List.mem_inits, List.mem_range]
  generalize (shift + Int8.ofNat (fraction text).length).toInt = e
  have hroundings {n : ℕ} (hn : n < 2 ^ 64) :
      (∀ v ∈ roundings e.toNat n, v < 2 ^ 64) ↔ ¬(0 < e ∧ 2 ^ 64 - 10 ≤ n ∧ 5 < n % 10) := by
    rw [roundings_fit _ hn, show 0 < e.toNat ↔ 0 < e by omega]
  constructor
  · rintro ⟨⟨hinits, hups⟩, hdowns⟩
    have hn := hinits _ (List.prefix_refl _)
    exact ⟨hn, hups _ (Nat.lt_succ_self _), (hroundings hn).mp hdowns⟩
  · rintro ⟨hn, hup, hdown⟩
    refine ⟨⟨fun p hp => ?_, fun i hi => ?_⟩, (hroundings hn).mpr hdown⟩
    · obtain ⟨q, hq⟩ := hp
      exact (hq ▸ ofDigits_append_le p q).trans_lt hn
    · refine Nat.lt_of_le_of_lt (Nat.mul_le_mul_left _ ?_) hup
      exact Nat.pow_le_pow_right (by decide) (Nat.lt_succ_iff.mp hi)

/-- The value, where no result is too big. -/
theorem scale_toNat {e : Int8} (hn : n < 2 ^ 64) (hup : n * 10 ^ (-e.toInt).toNat < 2 ^ 64)
    (hdown : ¬(0 < e.toInt ∧ 2 ^ 64 - 10 ≤ n ∧ 5 < n % 10)) :
    (scale e (UInt64.ofNat n)).toNat =
      if e.toInt < 0 then n * 10 ^ (-e.toInt).toNat else roundDown e.toInt.toNat n := by
  have hof : (UInt64.ofNat n).toNat = n := by
    rw [UInt64.toNat_ofNat']
    exact Nat.mod_eq_of_lt hn
  rw [scale]
  split_ifs with hneg
  · rw [show e.toInt.toNat = 0 by omega, scaleDown, scaleUp_toNat _ _ (by rwa [hof]), hof]
  · rw [show (-e.toInt).toNat = 0 by omega, scaleUp, scaleDown_toNat, hof]
    rw [hof, roundings_fit _ hn]
    omega

theorem written_div (shift : Int8) (text : List Char) :
    written text / 10 ^ shift.toInt =
      ofDigits 10 (digits text) / (10 : ℚ) ^ (shift.toInt + ((fraction text).length : ℤ)) := by
  rw [written, zpow_add₀ (by norm_num), zpow_natCast, div_div, mul_comm]

/-- A 64-bit number with so many digits behind the point is as good as zero. -/
theorem beyond_small {e : ℤ} (hn : n < 2 ^ 64) (he : 128 ≤ e) : 0 ≤ (n : ℚ) / 10 ^ e ∧ (n : ℚ) / 10 ^ e < 1 / 2 := by
  have hpos : (0 : ℚ) < 10 ^ e := zpow_pos (by norm_num) e
  refine ⟨div_nonneg (Nat.cast_nonneg n) hpos.le, ?_⟩
  have hpow : (10 : ℚ) ^ (128 : ℤ) ≤ 10 ^ e := zpow_le_zpow_right₀ (by norm_num) he
  have hcast : (n : ℚ) < 2 ^ 64 := by exact_mod_cast hn
  have hbig : (2 : ℚ) ^ 64 * 2 < 10 ^ (128 : ℤ) := by norm_num
  rw [div_lt_div_iff₀ hpos two_pos, one_mul]
  linarith

/-- Multiplied, the number is exact, or too big. -/
theorem up_nearest {e exact : ℤ} (hn : n < 2 ^ 64) (hcases : e = exact ∨ 128 ≤ exact) (hneg : e < 0) :
    |((n * 10 ^ (-e).toNat : ℕ) : ℚ) - n / 10 ^ exact| ≤ 1 / 2 ↔ e = exact ∨ n = 0 := by
  by_cases heq : e = exact
  · have hpow : (n : ℚ) / 10 ^ exact = (n * 10 ^ (-e).toNat : ℕ) := by
      rw [← heq, div_eq_mul_inv, ← zpow_neg, ← Int.toNat_of_nonneg (show 0 ≤ -e by omega), zpow_natCast]
      push_cast
      rfl
    rw [hpow, sub_self, abs_zero]
    exact ⟨fun _ => .inl heq, fun _ => by norm_num⟩
  · obtain ⟨hzero, hsmall⟩ := beyond_small hn (hcases.resolve_left heq)
    rw [nearest_small hzero hsmall, Nat.mul_eq_zero]
    exact ⟨fun h => .inr (h.resolve_right (by positivity)), fun h => .inl (h.resolve_left heq)⟩

/-- Divided, the number is rounded well, or there is nothing left of it. -/
theorem down_nearest {e exact : ℤ} (hn : n < 2 ^ 64) (hcases : e = exact ∨ 128 ≤ exact) (hneg : ¬e < 0) :
    |(roundDown e.toNat n : ℚ) - n / 10 ^ exact| ≤ 1 / 2 ↔
      if e = exact then
        ¬(10 ^ e.toNat < 2 * (n % 10 ^ e.toNat) ∧ 9 * (n % 10 ^ e.toNat) ≤ 5 * (10 ^ e.toNat - 1))
      else 9 * n ≤ 5 * (10 ^ e.toNat - 1) := by
  split_ifs with heq
  · rw [← roundDown_nearest, ← heq, ← Int.toNat_of_nonneg (not_lt.mp hneg), zpow_natCast, Int.toNat_natCast]
  · obtain ⟨hzero, hsmall⟩ := beyond_small hn (hcases.resolve_left heq)
    have hpos : 0 < 10 ^ e.toNat := Nat.pow_pos (by decide)
    rw [nearest_small hzero hsmall, roundDown_eq, Nat.add_eq_zero_iff, Nat.div_eq_zero_iff_lt hpos]
    constructor
    · rintro ⟨hlt, hround⟩
      rw [Nat.mod_eq_of_lt hlt] at hround
      split_ifs at hround with hle
      exact hle
    · intro hle
      have hlt : n < 10 ^ e.toNat := by omega
      rw [Nat.mod_eq_of_lt hlt, if_pos hle]
      exact ⟨hlt, rfl⟩

theorem isExact_iff (shift : Int8) (text : List Char) :
    IsExact shift text
        (scale (shift + Int8.ofNat (fraction text).length) (UInt64.ofNat (ofDigits 10 (digits text)))) ↔
      ScalesExactly (ofDigits 10 (digits text)) (fraction text).length shift := by
  have hsplit (value : UInt64) : IsExact shift text value ↔
      (∀ v ∈ results shift text, v < 2 ^ 64) ∧
        |(value.toNat : ℚ) - written text / 10 ^ shift.toInt| ≤ 1 / 2 :=
    ⟨fun h => ⟨h.fits, h.nearest⟩, fun h => ⟨h.2, h.1⟩⟩
  have hcases := shift_cases shift (fraction text).length
  rw [hsplit, results_fit, written_div, ScalesExactly]
  generalize ofDigits 10 (digits text) = n
  generalize (fraction text).length = k at *
  generalize hexact : shift.toInt + (k : ℤ) = exact at *
  generalize shift + Int8.ofNat k = e at *
  dsimp only
  by_cases hn : n < 2 ^ 64
  swap
  · exact ⟨fun h => absurd h.1.1 hn, fun h => absurd h.1 hn⟩
  by_cases hneg : e.toInt < 0
  · rw [if_pos hneg]
    by_cases hup : n * 10 ^ (-e.toInt).toNat < 2 ^ 64
    swap
    · exact ⟨fun h => absurd h.1.2.1 hup, fun h => absurd h.2.1 hup⟩
    have hdown : ¬(0 < e.toInt ∧ 2 ^ 64 - 10 ≤ n ∧ 5 < n % 10) := by omega
    rw [scale_toNat hn hup hdown, if_pos hneg, up_nearest hn hcases hneg]
    exact ⟨fun h => ⟨hn, hup, h.2⟩, fun h => ⟨⟨hn, hup, hdown⟩, h.2.2⟩⟩
  · rw [if_neg hneg]
    by_cases hdown : 0 < e.toInt ∧ 2 ^ 64 - 10 ≤ n ∧ 5 < n % 10
    · exact ⟨fun h => absurd hdown h.1.2.2, fun h => absurd hdown h.2.1⟩
    have hup : n * 10 ^ (-e.toInt).toNat < 2 ^ 64 := by
      rw [show (-e.toInt).toNat = 0 by omega, Nat.pow_zero, Nat.mul_one]
      exact hn
    rw [scale_toNat hn hup hdown, if_neg hneg, down_nearest hn hcases hneg]
    exact ⟨fun h => ⟨hn, hdown, h.2⟩, fun h => ⟨⟨hn, hup, hdown⟩, h.2.2⟩⟩

end

/-! ### The digits -/

section
variable {p ds : List Char} {text : List Char}

theorem getsSmaller_append (p ds ds' : List Char) :
    GetsSmaller (ofDigits 10 p) (ds ++ ds') ↔
      GetsSmaller (ofDigits 10 p) ds ∨ GetsSmaller (ofDigits 10 (p ++ ds)) ds' := by
  induction ds generalizing p with
  | nil => simp [GetsSmaller]
  | cons d ds ih =>
    rw [List.cons_append, GetsSmaller, GetsSmaller, ← ofDigits_concat, ih, or_assoc, List.append_assoc,
      List.singleton_append]

theorem times_ten_lt (n : ℕ) : UInt64.ofNat n * 10 < UInt64.ofNat n ↔ n * 10 % 2 ^ 64 < n % 2 ^ 64 := by
  rw [UInt64.lt_iff_toNat_lt, UInt64.toNat_mul, UInt64.toNat_ofNat', Nat.mul_mod n 10]
  rfl

theorem readDigits_errx (f : Bool) (shift : Int8) (c : ℕ)
    (h : GetsSmaller (ofDigits 10 p) (text.takeWhile (isDigit 10))) :
    readDigits f text (UInt64.ofNat (ofDigits 10 p)) shift c = .errx "value too big" := by
  induction text generalizing p shift c with
  | nil => exact h.elim
  | cons a text ih =>
    rw [readDigits]
    by_cases ha : isDigit 10 a
    · rw [List.takeWhile_cons_of_pos ha, GetsSmaller, ← times_ten_lt, ← ofDigits_concat] at h
      rw [if_pos ha]
      by_cases hsmaller : UInt64.ofNat (ofDigits 10 p) * 10 < UInt64.ofNat (ofDigits 10 p)
      · exact if_pos hsmaller
      · have hnext := ih (if f then shift + 1 else shift) (c + 1) (h.resolve_left hsmaller)
        rw [ofDigits_concat, UInt64.ofNat_add, UInt64.ofNat_mul] at hnext
        exact (if_neg hsmaller).trans hnext
    · rw [List.takeWhile_cons_of_neg ha] at h
      exact h.elim

theorem readDigits_ok (f : Bool) (shift : Int8) (c : ℕ)
    (h : ¬GetsSmaller (ofDigits 10 p) (text.takeWhile (isDigit 10))) :
    readDigits f text (UInt64.ofNat (ofDigits 10 p)) shift c =
      .ok (UInt64.ofNat (ofDigits 10 (p ++ text.takeWhile (isDigit 10))),
          if f then shift + Int8.ofNat (text.takeWhile (isDigit 10)).length else shift)
        (c + (text.takeWhile (isDigit 10)).length) (text.dropWhile (isDigit 10)) := by
  induction text generalizing p shift c with
  | nil => simp [readDigits]
  | cons a text ih =>
    rw [readDigits]
    by_cases ha : isDigit 10 a
    · rw [List.takeWhile_cons_of_pos ha, GetsSmaller, ← times_ten_lt, ← ofDigits_concat, not_or] at h
      have hnext := ih (if f then shift + 1 else shift) (c + 1) h.2
      rw [List.takeWhile_cons_of_pos ha, List.dropWhile_cons_of_pos ha, List.length_cons, if_pos ha]
      rw [List.append_assoc, List.singleton_append, ofDigits_concat, UInt64.ofNat_add, UInt64.ofNat_mul] at hnext
      refine (if_neg h.1).trans (hnext.trans ?_)
      rw [Nat.add_right_comm c]
      cases f
      · rfl
      · have hshift (k : ℕ) : shift + 1 + Int8.ofNat k = shift + Int8.ofNat (k + 1) := by
          rw [Int8.add_assoc, Nat.add_comm, Int8.ofNat_add]
          rfl
        exact congrArg (fun shift => Read.ok (_, shift) _ _) (hshift _)
    · rw [List.takeWhile_cons_of_neg ha, List.dropWhile_cons_of_neg ha, if_neg ha, List.append_nil]
      simp

/-- Nothing has been read. -/
def Read.Fails {α : Type} : Read α → Prop
  | .ok _ _ _ => False
  | .retry _ => True
  | .errx _ => True

theorem whole_ne_nil : whole text ≠ [] ↔ isDigit 10 (char text) := by
  cases text with
  | nil => exact iff_of_false (fun h => h rfl) (by decide)
  | cons a text =>
    by_cases ha : isDigit 10 a
    · rw [whole, List.takeWhile_cons_of_pos ha]
      exact iff_of_true (List.cons_ne_nil _ _) ha
    · rw [whole, List.takeWhile_cons_of_neg ha]
      exact iff_of_false (fun h => h rfl) ha

theorem fraction_of_ne (h : char (behind text) ≠ '.') : fraction text = [] := if_neg h

theorem fraction_of_eq (h : char (behind text) = '.') : fraction text = whole (behind text).tail := if_pos h

/-- What is read of a number that does not get smaller; otherwise, nothing. -/
theorem readValue_cases (shift : Int8) (c : ℕ) (text : List Char) :
    ((¬HasNumber text ∨ GetsSmaller 0 (digits text)) ∧ (readValue shift c text).Fails) ∨
      HasNumber text ∧ ¬GetsSmaller 0 (digits text) ∧ ∃ c' rest, readValue shift c text = .ok
        (scale (shift + Int8.ofNat (fraction text).length) (UInt64.ofNat (ofDigits 10 (digits text)))) c' rest := by
  have hsmaller : GetsSmaller 0 (digits text) ↔
      GetsSmaller 0 (whole text) ∨ GetsSmaller (ofDigits 10 (whole text)) (fraction text) :=
    getsSmaller_append [] (whole text) (fraction text)
  rw [readValue]
  by_cases hfirst : isDigit 10 (char text)
  swap
  · rw [if_pos (by simpa using hfirst)]
    exact .inl ⟨.inl fun h => hfirst (whole_ne_nil.mp h.1), trivial⟩
  rw [if_neg (by simpa using hfirst)]
  by_cases hzero : char text = '0' ∧ char text.tail ≠ ' ' ∧ char text.tail ≠ '\n' ∧ char text.tail ≠ '.'
  · rw [if_pos hzero]
    refine .inl ⟨.inl fun h => ?_, trivial⟩
    rcases h.2.1 hzero.1 with htail | htail | htail
    · exact hzero.2.1 htail
    · exact hzero.2.2.1 htail
    · exact hzero.2.2.2 htail
  rw [if_neg hzero]
  by_cases hs : GetsSmaller 0 (whole text)
  · have hread : readDigits false text 0 shift c = .errx "value too big" := readDigits_errx (p := []) false shift c hs
    rw [hread]
    exact .inl ⟨.inr (hsmaller.mpr (.inl hs)), trivial⟩
  have hread : readDigits false text 0 shift c =
      .ok (UInt64.ofNat (ofDigits 10 (whole text)), shift) (c + (whole text).length) (behind text) :=
    readDigits_ok (p := []) false shift c hs
  rw [hread, Read.bind]
  dsimp only
  have hwhole : whole text ≠ [] := whole_ne_nil.mpr hfirst
  have hzero' : char text = '0' → char text.tail = ' ' ∨ char text.tail = '\n' ∨ char text.tail = '.' := by
    intro h
    by_contra htail
    rw [not_or, not_or] at htail
    exact hzero ⟨h, htail⟩
  by_cases hend : char (behind text) = ' ' ∨ char (behind text) = '\n'
  · -- there is no point
    have hfraction : fraction text = [] := fraction_of_ne (by rcases hend with hend | hend <;> rw [hend] <;> decide)
    have hdigits : digits text = whole text := by rw [digits, hfraction, List.append_nil]
    rw [if_pos hend, hdigits, hfraction]
    refine .inr ⟨⟨hwhole, hzero', hend.imp_right .inl⟩, hs, c + (whole text).length, behind text, ?_⟩
    rw [List.length_nil, show Int8.ofNat 0 = 0 from rfl, Int8.add_zero]
  rw [if_neg hend]
  by_cases hpoint : char (behind text) = '.'
  swap
  · rw [if_pos hpoint]
    refine .inl ⟨.inl fun h => ?_, trivial⟩
    rcases h.2.2 with hb | hb | ⟨hb, -⟩
    · exact hend (.inl hb)
    · exact hend (.inr hb)
    · exact hpoint hb
  rw [if_neg (not_not.mpr hpoint)]
  have hfraction : fraction text = whole (behind text).tail := fraction_of_eq hpoint
  by_cases hnext : isDigit 10 (char (behind text).tail)
  swap
  · rw [if_pos (by simpa using hnext)]
    refine .inl ⟨.inl fun h => ?_, trivial⟩
    rcases h.2.2 with hb | hb | ⟨-, hb⟩
    · exact hend (.inl hb)
    · exact hend (.inr hb)
    · exact hnext (whole_ne_nil.mp (hfraction ▸ hb))
  rw [if_neg (by simpa using hnext)]
  rw [hfraction] at hsmaller
  by_cases hs' : GetsSmaller (ofDigits 10 (whole text)) (whole (behind text).tail)
  · rw [readDigits_errx true shift _ hs']
    exact .inl ⟨.inr (hsmaller.mpr (.inr hs')), trivial⟩
  · have hnumber : HasNumber text := ⟨hwhole, hzero', .inr (.inr ⟨hpoint, hfraction ▸ whole_ne_nil.mpr hnext⟩)⟩
    have hread' : readDigits true (behind text).tail (UInt64.ofNat (ofDigits 10 (whole text))) shift
          (c + (whole text).length + 1) =
        .ok (UInt64.ofNat (ofDigits 10 (digits text)), shift + Int8.ofNat (fraction text).length)
          (c + (whole text).length + 1 + (fraction text).length) (behind (behind text).tail) := by
      rw [digits, hfraction]
      exact readDigits_ok true shift _ hs'
    rw [hread']
    exact .inr ⟨hnumber, fun h => (hsmaller.mp h).elim hs hs', _, _, rfl⟩

/-- **When a number is read exactly**, or is known to be none that can be. -/
theorem read_value_iff (shift : Int8) (c : ℕ) (text : List Char) :
    ExactOrFails shift text (readValue shift c text) ↔
      ¬HasNumber text ∨ GetsSmaller 0 (digits text) ∨
        ScalesExactly (ofDigits 10 (digits text)) (fraction text).length shift := by
  rcases readValue_cases shift c text with ⟨h, hfails⟩ | ⟨hnumber, hno, c', rest, hread⟩
  · refine ⟨fun _ => or_assoc.mp (.inl h), fun _ => ?_⟩
    cases hread : readValue shift c text with
    | ok value c rest =>
      rw [hread] at hfails
      exact hfails.elim
    | retry c => trivial
    | errx message => trivial
  · rw [hread, or_iff_right (not_not.mpr hnumber), or_iff_right hno]
    exact isExact_iff shift text

/-- A number that does not fit into 64 bits and does not get smaller. -/
example : readValue 0 0 "30000000000000000000\n".toList = .ok 11553255926290448384 20 ['\n'] := by decide

/-- 0.51 is rounded to 0.5 and then to 0. -/
theorem read_value_half : ¬ExactOrFails 0 "0.51\n".toList (readValue 0 0 "0.51\n".toList) := by
  have hread : readValue 0 0 "0.51\n".toList = .ok 0 4 ['\n'] := by decide
  have hdigits : ofDigits 10 (digits "0.51\n".toList) = 51 := by decide
  have hlength : (fraction "0.51\n".toList).length = 2 := by decide
  rw [hread]
  rintro ⟨hnearest, -⟩
  rw [written, hdigits, hlength, show Int8.toInt 0 = 0 from rfl] at hnearest
  have hlow := (abs_le.mp hnearest).1
  norm_num at hlow

end

end Statistics

end NfpEstimator
