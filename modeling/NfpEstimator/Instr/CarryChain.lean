import NfpEstimator.Instr.Addition

/-!
# Carries of more than one word

`plus_carry` and `minus_carry` go on with an addition or a subtraction of the words below. Where the flag `C` is
the carry that `plus` or `minus` has left, they put the words together and compute 64 bits at once; where it is any
other bit, they add or subtract the bit.

The main result is when these two agree with `A + B + C` and with `A - B - (1 - C)` (`carry_chain_iff`). The one that
adds a bit loses the carry of `A + B`, and the one that subtracts a bit subtracts a carry as if it were a borrow.
-/

namespace NfpEstimator

variable {A B C a b : Bvexpr}

/-! ### Subtracting -/

theorem eval_subtractionCarry (a b : Bvexpr) (w : ℕ) (env : Env) :
    (Bvexpr.bvbinary .bvsubstractionCarry w a b).eval env = if b.eval env ≤ a.eval env then 1 else 0 := rfl

/-- Two words and a bit. -/
theorem subBit_computes (hA : Typed 32 A) (hB : Typed 32 B) (hC : Typed 1 C) (hnA : A.Numeric) (hnB : B.Numeric) :
    Computes 32 (fun env => (A.eval env + 2 ^ 32 - B.eval env) % 2 ^ 32) (bvsub 32 A B) ∧
      Computes 32 (fun env => (A.eval env + 2 ^ 32 - (B.eval env + C.eval env)) % 2 ^ 32)
        (bvsub 32 (bvsub 32 A B) (extend 31 1 C)) := by
  have heC := extend_computes (E := 31) hC
  have hAB := bvsub_computes hA hB hnA.isPointer
  refine ⟨hAB, (bvsub_computes hAB.typed heC.typed
    (Bvexpr.Numeric.isPointer (numeric_closed.bvsub hnA hnB))).congr fun env => ?_⟩
  have ha := hA.eval_lt env
  have hb := hB.eval_lt env
  have hc : C.eval env < 2 := hC.eval_lt env
  rw [hAB.eval, heC.eval]
  omega

/-- Four words, subtracted in 64 bits. -/
theorem subWords_computes (hA : Typed 32 A) (hB : Typed 32 B) (ha : Typed 32 a) (hb : Typed 32 b) (hna : a.Numeric) :
    let fA := concat 32 32 A a
    let fB := concat 32 32 B b
    let borrow := fun env => if b.eval env ≤ a.eval env then 0 else 1
    Computes 32 (fun env => (A.eval env + 2 ^ 32 - (B.eval env + borrow env)) % 2 ^ 32)
        (extract 63 32 64 (bvsub 64 fA fB)) ∧
      Computes 1 (fun env => if B.eval env + borrow env ≤ A.eval env then 1 else 0)
        (.bvbinary .bvsubstractionCarry 64 fA fB) := by
  intro fA fB borrow
  have hfA := concat_computes hA ha
  have hfB := concat_computes hB hb
  have hsub := bvsub_computes hfA.typed hfB.typed (concat_isPointer rfl (by decide) (.inr hna.isPointer))
  refine ⟨(extract_computes (S := 63) (E := 32) hsub.typed (by decide) (by decide)).congr fun env => ?_,
    ⟨⟨hfA.typed, hfB.typed⟩, rfl⟩, fun env => ?_⟩
  all_goals
    have h1 := hA.eval_lt env
    have h2 := hB.eval_lt env
    have h3 := ha.eval_lt env
    have h4 := hb.eval_lt env
  · rw [hsub.eval, hfA.eval, hfB.eval]
    simp only [slice, glue, borrow]
    split_ifs <;> omega
  · rw [eval_subtractionCarry, hfA.eval, hfB.eval]
    simp only [glue, borrow]
    refine if_congr ?_ rfl rfl
    split_ifs <;> omega

/-! ### What the flag is -/

/-- An addition with carry is right. -/
def AddsWithCarry (A B C : Bvexpr) (env : Env) : Prop :=
  let r := AluOp.calculatePlusCarry A B C
  r.dst.eval env = (A.eval env + B.eval env + C.eval env) % 2 ^ 32 ∧
    r.c.eval env = (A.eval env + B.eval env + C.eval env) / 2 ^ 32

/-- A subtraction with carry is right: what is subtracted is the borrow, and the flag is that there is none. -/
def SubtractsWithCarry (A B C : Bvexpr) (env : Env) : Prop :=
  let r := AluOp.calculateMinusCarry A B C
  r.dst.eval env = (A.eval env + 2 ^ 32 - (B.eval env + (1 - C.eval env))) % 2 ^ 32 ∧
    r.c.eval env = if B.eval env + (1 - C.eval env) ≤ A.eval env then 1 else 0

theorem addsWithCarry_iff (hA : Typed 32 A) (hB : Typed 32 B) (hC : Typed 1 C) (hsA : A.Summand) (hsB : B.Summand)
    (hsC : C.CarryOfNumbers .bvadditionCarry) (env : Env) :
    AddsWithCarry A B C env ↔
      (castBvbinary .bvadditionCarry 32 C).isSome = true ∨ A.eval env + B.eval env < 2 ^ 32 := by
  have h1 := hA.eval_lt env
  have h2 := hB.eval_lt env
  have h3 : C.eval env < 2 := hC.eval_lt env
  simp only [AddsWithCarry, AluOp.calculatePlusCarry]
  cases hc : castBvbinary .bvadditionCarry 32 C with
  | none =>
    -- the carry is that of `A + B` without its first bit, and of the bit
    have hAB := bvadd_computes hA hB hsA.extPointer hsB.extPointer
    have hbit := extend_computes (E := 31) hC
    have hsum := (addBit_computes hA hB hC hsA hsB).1.eval env
    simp only [AluOp.added, hsum, Option.isSome_none, Bool.false_eq_true, false_or, true_and]
    rw [Bvexpr.eval, BvOp.eval, hAB.eval, hbit.eval]
    split_ifs <;> omega
  | some r =>
    obtain ⟨a, b⟩ := r
    obtain rfl := castBvbinary_eq_some hc
    obtain ⟨hna, hnb⟩ := hsC a b rfl
    obtain ⟨⟨ha, hb⟩, -⟩ := hC
    obtain ⟨hdst, -, hcarry⟩ := addWords_computes hA hB ha hb hsA hsB hna hnb
    rw [castPtrBase_none hsA.extPointer, eval_additionCarry ha hb]
    rw [eval_additionCarry ha hb] at h3
    refine iff_of_true ⟨hdst.eval env, (hcarry.eval env).trans ?_⟩ (.inl rfl)
    split_ifs <;> omega

theorem subtractsWithCarry_iff (hA : Typed 32 A) (hB : Typed 32 B) (hC : Typed 1 C) (hnA : A.Numeric)
    (hnB : B.Numeric) (hsC : C.CarryOfNumbers .bvsubstractionCarry) (env : Env) :
    SubtractsWithCarry A B C env ↔ (castBvbinary .bvsubstractionCarry 32 C).isSome = true := by
  have h1 := hA.eval_lt env
  have h2 := hB.eval_lt env
  have h3 : C.eval env < 2 := hC.eval_lt env
  simp only [SubtractsWithCarry, AluOp.calculateMinusCarry]
  cases hc : castBvbinary .bvsubstractionCarry 32 C with
  | none =>
    -- a carry and a borrow are never the same
    have hdst := (subBit_computes hA hB hC hnA hnB).2.eval env
    simp only [AluOp.subtracted, hdst, Option.isSome_none, Bool.false_eq_true, iff_false]
    omega
  | some r =>
    obtain ⟨a, b⟩ := r
    obtain rfl := castBvbinary_eq_some hc
    obtain ⟨hna, -⟩ := hsC a b rfl
    obtain ⟨⟨ha, hb⟩, -⟩ := hC
    obtain ⟨hdst, hcarry⟩ := subWords_computes hA hB ha hb hna
    have hborrow : 1 - (if b.eval env ≤ a.eval env then 1 else 0) = if b.eval env ≤ a.eval env then 0 else 1 := by
      split_ifs <;> rfl
    rw [eval_subtractionCarry, hborrow]
    exact iff_of_true ⟨hdst.eval env, hcarry.eval env⟩ rfl

/-- **Additions and subtractions with carry**: an addition is right exactly if `C` is the carry that an addition has
left, or if `A` and `B` carry nothing on their own; a subtraction is right exactly if `C` is the carry that a
subtraction has left. -/
theorem carry_chain_iff (hA : Typed 32 A) (hB : Typed 32 B) (hC : Typed 1 C) (hnA : A.Numeric) (hnB : B.Numeric)
    (hadd : C.CarryOfNumbers .bvadditionCarry) (hsub : C.CarryOfNumbers .bvsubstractionCarry) (env : Env) :
    (AddsWithCarry A B C env ↔
      (castBvbinary .bvadditionCarry 32 C).isSome = true ∨ A.eval env + B.eval env < 2 ^ 32) ∧
    (SubtractsWithCarry A B C env ↔ (castBvbinary .bvsubstractionCarry 32 C).isSome = true) :=
  ⟨addsWithCarry_iff hA hB hC (.numeric hnA) (.numeric hnB) hadd env, subtractsWithCarry_iff hA hB hC hnA hnB hsub env⟩

/-- After low words that carry. -/
theorem carry_chain_iff_carried :
    AddsWithCarry (constant 32 5) (constant 32 3)
      (.bvbinary .bvadditionCarry 32 (constant 32 0xffffffff) (constant 32 1)) (.const 0) := by
  have hsC : (Bvexpr.bvbinary .bvadditionCarry 32 (constant 32 0xffffffff) (constant 32 1)).CarryOfNumbers
      .bvadditionCarry := by
    intro a b h
    obtain ⟨-, -, rfl, rfl⟩ := Bvexpr.bvbinary.inj h
    exact ⟨trivial, trivial⟩
  have h := @carry_chain_iff (constant 32 5) (constant 32 3)
    (.bvbinary .bvadditionCarry 32 (constant 32 0xffffffff) (constant 32 1)) (typed_constant 32 5) (typed_constant 32 3)
    ⟨⟨typed_constant 32 0xffffffff, typed_constant 32 1⟩, rfl⟩ trivial trivial hsC (fun _ _ h => nomatch h) (.const 0)
  exact h.1.mpr (.inl rfl)

/-- A flag that is a constant: the carry of `2 ^ 31 + 2 ^ 31` is lost, and `5 - 3` without a borrow is 1. -/
theorem carry_chain_wrong :
    ¬ AddsWithCarry (constant 32 0x80000000) (constant 32 0x80000000) (constant 1 0) (.const 0) ∧
      ¬ SubtractsWithCarry (constant 32 5) (constant 32 3) (constant 1 1) (.const 0) := by
  constructor
  · rw [addsWithCarry_iff (typed_constant 32 0x80000000) (typed_constant 32 0x80000000) (typed_constant 1 0)
      (.numeric trivial) (.numeric trivial) (fun _ _ h => nomatch h)]
    decide
  · rw [subtractsWithCarry_iff (typed_constant 32 5) (typed_constant 32 3) (typed_constant 1 1) trivial trivial
      (fun _ _ h => nomatch h)]
    decide

end NfpEstimator
