import NfpEstimator.Expr.Closed
import NfpEstimator.Instr.Compare
import NfpEstimator.Instr.PointerCarry

/-!
# The flag `V` of an addition

An addition overflows if what is carried into the sign is not what is carried out of it. What the four additions
compare with the carry out of the sign is the sign of the sum, and this is what is carried into it only if the two
signs that are added are the same.

The main result is when `V` says whether the sum of two signed numbers, and of the carry that `plus_carry` adds to
it, does not fit into 32 bits (`overflow_iff`).
-/

namespace NfpEstimator

variable {A B C a b c d e o x y : Bvexpr} {V E w : ℕ} {array : String}

/-! ### Zeros in front -/

theorem extPointer_extractWith_constant {k : ℕ → ℕ → Bvexpr → Bvexpr → Bvexpr} {S E B v : ℕ} :
    (extractWith k S E B (constant w v)).extPointer = false := by
  simp only [constant, extractWith]
  split_ifs <;> rfl

/-- What is taken out of a concatenation at bit 32 is not its right operand. -/
theorem extPointer_extractWith_concatenation {k : ℕ → ℕ → Bvexpr → Bvexpr → Bvexpr} {A' B' v : ℕ} (hA : 0 < A')
    (hB : 33 < A' + B') :
    (extractWith k (A' + B' - 1) 32 (A' + B') (.concatenation A' B' (constant A' v) b)).extPointer = false := by
  have hfull : ¬ (A' + B' - 1 + 1 = A' + B' ∧ 32 = 0) := by omega
  have hmiddle : ¬ extractConcatMiddle (A' + B' - 1) 32 (A' + B') B' = true := by
    simp only [extractConcatMiddle, Bool.and_eq_true, Bool.or_eq_true, decide_eq_true_eq, beq_iff_eq]
    omega
  have hright : ¬ extractConcatRight (A' + B' - 1) (A' + B') A' = true := by
    simp only [extractConcatRight, Bool.and_eq_true, Bool.or_eq_true, decide_eq_true_eq, beq_iff_eq]
    omega
  simp only [extractWith, hfull, hmiddle, hright, if_false, Bool.false_eq_true, show B' ≠ A' + B' - 1 + 1 by omega,
    not_true_eq_false, ne_eq]
  split_ifs
  · exact extPointer_extractWith_constant
  · exact extPointer_extractWith_constant
  · rfl

/-- A constant in front of an expression is not in front of an address, except in 64 bits. -/
theorem extPointer_concatConstant {va : ℕ} (hw : 0 < w) (hB : 0 < E) (h : E < 32 ∨ E = 32 ∧ w ≠ 32) :
    (concatConstant w va E b).extPointer = false := by
  fun_induction concatConstant w va E b with
  | case1 | case2 | case4 | case6 => rfl
  | case3 w va E X Y X' vx b hX ih =>
    obtain ⟨⟨rfl, -⟩, hm⟩ := hX
    simp only [concatMergeConstants, Bool.and_eq_true, Bool.or_eq_true, beq_iff_eq, decide_eq_true_eq] at hm
    exact ih (by omega) (by omega) (by omega)
  | case5 w va B S E B' e hE =>
    simp only [concatPullExtract, Bool.and_eq_true, beq_iff_eq, decide_eq_true_eq] at hE
    obtain ⟨-, rfl, -⟩ := hE
    rw [show 32 + w + B = w + (32 + B) by omega]
    rcases @concatConstant_shape w (32 + B) e va hw (by omega) (by omega) with ⟨v, hv⟩ | ⟨A', B', v, b', hv, hA', hAB⟩
    · rw [hv]
      exact extPointer_extractWith_constant
    · rw [hv, ← hAB]
      exact extPointer_extractWith_concatenation hA' (by omega)
  | case7 w va E b =>
    cases b with
    | pointer A' V array offset =>
      rw [concatPointer, if_neg (by omega)]
      rfl
    | _ => rfl

theorem extPointer_extend (hE : 0 < E) (hw : 0 < w) (h : w < 32 ∨ w = 32 ∧ E ≠ 32) :
    (extend E w e).extPointer = false := by
  unfold extend
  rw [constant, concat, if_pos rfl]
  exact extPointer_concatConstant hE hw h

theorem extend_64 (e : Bvexpr) : extend 1 64 e = .concatenation 1 64 (constant 1 0) e := by
  have hconcat : extend 1 64 e = concatConstant 1 (0 % 2 ^ 1) 64 e := by
    unfold extend
    rw [constant, concat, if_pos rfl]
  rw [hconcat]
  cases e with
  | bitvector => simp [concatConstant, constant]
  | concatenation X Y a b =>
    cases a <;> simp [concatConstant, concatMergeConstants, concatPointer, constant]
  | extraction S E B' e =>
    have hpull : ¬ ((S + 1 = B' ∧ B' = E + 64) ∧ concatPullExtract 1 64 E = true) := by
      simp only [concatPullExtract, Bool.and_eq_true, beq_iff_eq, decide_eq_true_eq]
      omega
    rw [concatConstant, if_neg hpull]
    rfl
  | _ => simp [concatConstant, concatPointer, constant]

/-! ### Summands -/

/-- What is added as a word: a number, or an address in an array whose offset is added as a word. -/
inductive Bvexpr.Summand : Bvexpr → Prop
  | numeric {e : Bvexpr} : e.Numeric → e.Summand
  | pointer {V : ℕ} {array : String} {o : Bvexpr} : V = 8 ∨ V = 32 → o.Summand → Summand (.pointer 32 V array o)

theorem Bvexpr.Summand.extPointer (h : e.Summand) : e.extPointer = false := by
  induction h with
  | numeric h => exact h.extPointer
  | pointer _ _ ih => exact ih

/-- What is to be added are summands, or numbers in front of 32 zeros. -/
def AddRule.Summands : AddRule → Prop
  | .done e => e.Summand
  | .pointer V _ x y => (V = 8 ∨ V = 32) ∧ x.Summand ∧ y.Summand
  | .pullExtract x y => x.Numeric ∧ y.Numeric
  | .pointerExt _ _ _ _ _ _ | .pointerBase _ _ _ _ _ => False

/-- A pointer in front of another summand. -/
theorem bvaddRule_pointer (hV : V = 8 ∨ V = 32) (ho : o.Summand) (hb : b.Summand) :
    (bvaddRule 32 (.pointer 32 V array o) b).Summands ∧ (bvaddRule 32 b (.pointer 32 V array o)).Summands := by
  have hnone : castConstant 32 (.pointer 32 V array o) = none := rfl
  have ha : (Bvexpr.pointer 32 V array o).Summand := .pointer hV ho
  have hrefl : ∀ W, castPtr 32 W (.pointer 32 V array o) = if V = W then some (array, o) else none := by
    intro W
    simp [castPtr]
  cases hb with
  | numeric hb =>
    have hptr : ∀ W, castPtr 32 W b = none := fun W => castPtr_none hb.isPointer
    by_cases h0 : castConstant 32 b = some 0
    · simp [bvaddRule, bvaddConstant, hnone, h0, AddRule.Summands, ha]
    · rcases hV with rfl | rfl <;>
        simp [bvaddRule, bvaddConstant, bvaddPointer, hnone, h0, hptr, hrefl, AddRule.Summands, ho,
          Bvexpr.Summand.numeric hb]
  | @pointer W array' o' hW ho' =>
    have hb : (Bvexpr.pointer 32 W array' o').Summand := .pointer hW ho'
    have hnone' : castConstant 32 (.pointer 32 W array' o') = none := rfl
    have hnode : ∀ a b, (Bvexpr.bvbinary .bvaddition 32 a b).Summand := fun _ _ => .numeric trivial
    rcases hV with rfl | rfl <;> rcases hW with rfl | rfl <;>
      simp [bvaddRule, bvaddConstant, bvaddPointer, bvaddPointerExt, bvaddPointerBase, bvaddPullExtract, castPtr,
        castPtrBase, hnone, hnone', AddRule.Summands, ho, ho', ha, hb, hnode]

theorem bvaddRule_summands (ha : a.Summand) (hb : b.Summand) : (bvaddRule 32 a b).Summands := by
  cases ha with
  | numeric ha =>
    cases hb with
    | numeric hb =>
      have hrule := numeric_closed.bvaddRule (B := 32) ha hb
      cases h : bvaddRule 32 a b with
      | done e =>
        rw [h] at hrule
        exact .numeric hrule
      | pullExtract x y =>
        rw [h] at hrule
        exact hrule
      | _ =>
        rw [h] at hrule
        exact hrule.1.elim
    | pointer hV ho => exact (bvaddRule_pointer hV ho (.numeric ha)).2
  | pointer hV ho => exact (bvaddRule_pointer hV ho hb).1

/-- A sum of summands is one. -/
theorem Bvexpr.Summand.bvadd (ha : a.Summand) (hb : b.Summand) : (bvadd 32 a b).Summand := by
  have hrule := bvaddRule_summands ha hb
  generalize hB : 32 = B at hrule ⊢
  fun_induction NfpEstimator.bvadd B a b with
  | case1 B a b e h =>
    rw [h] at hrule
    exact hrule
  | case2 B a b V array x y h ih =>
    subst hB
    rw [h] at hrule
    obtain ⟨hV, hx, hy⟩ := hrule
    exact .pointer hV (ih hx hy rfl (bvaddRule_summands hx hy))
  | case5 B a b x y h ih =>
    rw [h] at hrule
    exact .numeric (numeric_closed.extract (numeric_closed.bvadd hrule.1 hrule.2))
  | case3 B a b V array x y x' y' h | case4 B a b V array s x y h =>
    rw [h] at hrule
    exact hrule.elim

/-! ### Sums of 33 bits -/

/-- No pointer is added in front of 32 zeros. -/
def Bvexpr.Apart (e : Bvexpr) : Prop :=
  (e.isPointer = false ∧ e.extPointer = false) ∧ ∀ S E B e', e = .extraction S E B e' → e'.isPointer = false

theorem Bvexpr.Numeric.apart (h : e.Numeric) : e.Apart := by
  refine ⟨⟨h.isPointer, h.extPointer⟩, ?_⟩
  rintro S E B e' rfl
  exact Bvexpr.Numeric.isPointer h

theorem apart_concatenation (E w : ℕ) (a b : Bvexpr) : (Bvexpr.concatenation E w a b).Apart :=
  ⟨⟨rfl, rfl⟩, fun _ _ _ _ h => nomatch h⟩

theorem apart_extend (h : e.Summand) : (extend 1 32 e).Apart := by
  cases h with
  | numeric h => exact (numeric_closed.extend h).apart
  | pointer hV ho =>
    rw [extend_pointer]
    exact apart_concatenation ..

theorem bvadd_apart (hx : x.Apart) (hy : y.Apart) : (bvadd 33 x y).Apart := by
  have hpull : ∀ {a b}, a.isPointer = false → b.isPointer = false →
      (extract 64 32 65 (bvadd 65 a b)).Apart := by
    intro a b ha hb
    rw [bvadd_done (bvaddRule_65 ha hb)]
    refine ⟨⟨rfl, rfl⟩, fun S E B e h => ?_⟩
    obtain ⟨-, -, -, rfl⟩ := Bvexpr.extraction.inj h
    rfl
  have hleft : ∀ {a b : Bvexpr}, a.Apart → b.Apart → ∀ r ∈ bvaddPullExtract 33 a b,
      ∃ a b, r = .pullExtract a b ∧ a.isPointer = false ∧ b.isPointer = false := by
    intro a b ha hb r hr
    cases b with
    | extraction S E B e =>
      rw [Option.mem_def, bvaddPullExtract] at hr
      split_ifs at hr
      obtain rfl := Option.some.inj hr
      exact ⟨_, _, rfl, isPointer_endsConstant (endsConstant_concat _ _ _ rfl), hb.2 _ _ _ _ rfl⟩
    | _ => cases hr
  have hnone : ∀ {P : AddRule → Prop} {r : Option AddRule}, r = none → ∀ r' ∈ r, P r' := by
    rintro P _ rfl r' h
    cases h
  have hrule : (∃ e, bvaddRule 33 x y = .done e ∧ e.Apart) ∨
      ∃ a b, bvaddRule 33 x y = .pullExtract a b ∧ a.isPointer = false ∧ b.isPointer = false := by
    refine bvaddRule_cases (P := fun r => (∃ e, r = .done e ∧ e.Apart) ∨
      ∃ a b, r = .pullExtract a b ∧ a.isPointer = false ∧ b.isPointer = false) (fun r h => ?_) (fun V => hnone ?_)
      (fun V => hnone ?_) (hnone ?_) (fun r h => .inr (hleft hx hy r h)) (fun r h => .inr (hleft hy hx r h))
      (.inl ⟨_, rfl, ⟨⟨rfl, rfl⟩, fun _ _ _ _ h => by cases h⟩⟩)
    · rw [Option.mem_def] at h
      simp only [bvaddConstant] at h
      split_ifs at h
      split at h
      · obtain rfl := Option.some.inj h
        exact .inl ⟨_, rfl, ⟨rfl, rfl⟩, fun _ _ _ _ h => by cases h⟩
      · split_ifs at h <;> obtain rfl := Option.some.inj h
        · exact .inl ⟨_, rfl, hy⟩
        · exact .inl ⟨_, rfl, hx⟩
    · rw [bvaddPointer, castPtr_none hx.1.1, castPtr_none hy.1.1]
    · rw [bvaddPointerExt, castPtrExt_none hx.1.1, castPtrExt_none hy.1.1]
      rfl
    · rfl
  rcases hrule with ⟨e, h, he⟩ | ⟨a, b, h, ha, hb⟩
  · rw [bvadd_done h]
    exact he
  · rw [bvadd_pullExtract h]
    exact hpull ha hb

/-! ### Results of additions -/

/-- A result is that of an addition with the sum `f`. -/
def AssignResult.Adds (r : AssignResult) (f : Env → ℕ) : Prop :=
  ∃ extended, r.v = bvxor 1 (extract 32 32 33 extended) (extract 31 31 32 r.dst) ∧
    Computes 32 (fun env => f env % 2 ^ 32) r.dst ∧ Computes 33 f extended

theorem calculatePlus_adds (hA : Typed 32 A) (hB : Typed 32 B) (hpA : A.extPointer = false)
    (hpB : B.extPointer = false) : (AluOp.calculatePlus A B).Adds fun env => A.eval env + B.eval env := by
  have hextend : ∀ {e}, (extend 1 32 e).extPointer = false := extPointer_extend (by decide) (by decide) (by decide)
  have heA := extend_computes (E := 1) hA
  have heB := extend_computes (E := 1) hB
  refine ⟨_, rfl, bvadd_computes hA hB hpA hpB, ?_⟩
  refine (bvadd_computes heA.typed heB.typed hextend hextend).congr fun env => ?_
  have ha := hA.eval_lt env
  have hb := hB.eval_lt env
  rw [heA.eval, heB.eval, Nat.mod_eq_of_lt (by omega)]

/-- Two summands and a bit. -/
theorem addBit_computes (hA : Typed 32 A) (hB : Typed 32 B) (hC : Typed 1 C) (hsA : A.Summand) (hsB : B.Summand) :
    Computes 32 (fun env => (A.eval env + B.eval env + C.eval env) % 2 ^ 32) (AluOp.addBit A B C) ∧
      Computes 33 (fun env => A.eval env + B.eval env + C.eval env) (AluOp.addBitExtended A B C) := by
  have heA := extend_computes (E := 1) hA
  have heB := extend_computes (E := 1) hB
  have heC := extend_computes (E := 31) hC
  have heC' := extend_computes (E := 32) hC
  have hAB := bvadd_computes hA hB hsA.extPointer hsB.extPointer
  have heAB := bvadd_computes heA.typed heB.typed (apart_extend hsA).1.2 (apart_extend hsB).1.2
  have hbit : (extend 31 1 C).extPointer = false ∧ (extend 32 1 C).extPointer = false :=
    ⟨extPointer_extend (by decide) (by decide) (by decide), extPointer_extend (by decide) (by decide) (by decide)⟩
  constructor
  · refine (bvadd_computes hAB.typed heC.typed (hsA.bvadd hsB).extPointer hbit.1).congr fun env => ?_
    rw [hAB.eval, heC.eval, Nat.mod_add_mod]
  · refine (bvadd_computes heAB.typed heC'.typed (bvadd_apart (apart_extend hsA) (apart_extend hsB)).1.2
      hbit.2).congr fun env => ?_
    have ha := hA.eval_lt env
    have hb := hB.eval_lt env
    have hc := hC.eval_lt env
    rw [heAB.eval, heA.eval, heB.eval, heC'.eval]
    omega

/-- A number behind a summand. -/
theorem concat_summand (hA : A.Summand) (ha : a.Numeric) :
    (concat 32 32 A a).isPointer = false ∧ (concat 32 32 A a).extPointer = false := by
  cases hA with
  | numeric hA =>
    have h : (concat 32 32 A a).Numeric := numeric_closed.concat hA ha
    exact ⟨h.isPointer, h.extPointer⟩
  | pointer hV ho =>
    have h : ∀ p, concatPointer 32 32 p a = none := fun p => concatPointer_none (.inr ha.isPointer)
    constructor <;> simp [concat, h, Bvexpr.isPointer, Bvexpr.extPointer]

/-- Four words, added in 64 bits. -/
theorem addWords_computes (hA : Typed 32 A) (hB : Typed 32 B) (ha : Typed 32 a) (hb : Typed 32 b) (hsA : A.Summand)
    (hsB : B.Summand) (hna : a.Numeric) (hnb : b.Numeric) :
    let fA := concat 32 32 A a
    let fB := concat 32 32 B b
    Computes 32 (fun env => (A.eval env + B.eval env + (a.eval env + b.eval env) / 2 ^ 32) % 2 ^ 32)
        (extract 63 32 64 (bvadd 64 fA fB)) ∧
      Computes 33 (fun env => A.eval env + B.eval env + (a.eval env + b.eval env) / 2 ^ 32)
        (extract 64 32 65 (bvadd 65 (extend 1 64 fA) (extend 1 64 fB))) ∧
      Computes 1 (fun env => if 2 ^ 32 ≤ A.eval env + B.eval env + (a.eval env + b.eval env) / 2 ^ 32 then 1 else 0)
        (.bvbinary .bvadditionCarry 64 fA fB) := by
  intro fA fB
  have hfA := concat_computes hA ha
  have hfB := concat_computes hB hb
  have heA := extend_computes (E := 1) hfA.typed
  have heB := extend_computes (E := 1) hfB.typed
  have hsum := bvadd_computes hfA.typed hfB.typed (concat_summand hsA hna).2 (concat_summand hsB hnb).2
  have hextend : ∀ e, (extend 1 64 e).extPointer = false := fun e => by
    rw [extend_64]
    rfl
  have hesum := bvadd_computes heA.typed heB.typed (hextend _) (hextend _)
  refine ⟨(extract_computes (S := 63) (E := 32) hsum.typed (by decide) (by decide)).congr fun env => ?_,
    (extract_computes (S := 64) (E := 32) hesum.typed (by decide) (by decide)).congr fun env => ?_,
    ⟨⟨hfA.typed, hfB.typed⟩, rfl⟩, fun env => ?_⟩
  all_goals
    have h1 := hA.eval_lt env
    have h2 := hB.eval_lt env
    have h3 := ha.eval_lt env
    have h4 := hb.eval_lt env
  · rw [hsum.eval, hfA.eval, hfB.eval]
    simp only [slice, glue]
    omega
  · rw [hesum.eval, heA.eval, heB.eval, hfA.eval, hfB.eval]
    simp only [slice, glue]
    omega
  · rw [Bvexpr.eval, BvOp.eval, hfA.eval, hfB.eval]
    simp only [glue]
    exact if_congr (by omega) rfl rfl

/-- The operands of a carry are numbers. -/
def Bvexpr.CarryOfNumbers (op : BvOp) (C : Bvexpr) : Prop :=
  ∀ a b, C = .bvbinary op 32 a b → a.Numeric ∧ b.Numeric

theorem eval_additionCarry (ha : Typed 32 a) (hb : Typed 32 b) (env : Env) :
    (Bvexpr.bvbinary .bvadditionCarry 32 a b).eval env = (a.eval env + b.eval env) / 2 ^ 32 := by
  have h1 := ha.eval_lt env
  have h2 := hb.eval_lt env
  rw [Bvexpr.eval, BvOp.eval]
  split_ifs <;> omega

theorem calculatePlusCarry_adds (hA : Typed 32 A) (hB : Typed 32 B) (hC : Typed 1 C) (hsA : A.Summand)
    (hsB : B.Summand) (hsC : C.CarryOfNumbers .bvadditionCarry) :
    (AluOp.calculatePlusCarry A B C).Adds fun env => A.eval env + B.eval env + C.eval env := by
  unfold AluOp.calculatePlusCarry
  split
  · obtain ⟨h1, h2⟩ := addBit_computes hA hB hC hsA hsB
    exact ⟨_, rfl, h1, h2⟩
  · next a b hc =>
    obtain rfl := castBvbinary_eq_some hc
    obtain ⟨hna, hnb⟩ := hsC a b rfl
    obtain ⟨⟨ha, hb⟩, -⟩ := hC
    rw [castPtrBase_none hsA.extPointer]
    obtain ⟨h1, h2, -⟩ := addWords_computes hA hB ha hb hsA hsB hna hnb
    refine ⟨_, rfl, h1.congr fun env => ?_, h2.congr fun env => ?_⟩ <;> simp only [eval_additionCarry ha hb]

/-! ### The four additions -/

/-- The operators that add. -/
def AluOp.adds : AluOp → Bool
  | plus | plus16 | plus8 | plusCarry => true
  | _ => false

/-- What is added to the first operand, of the second one. -/
def AluOp.addend (B : Bvexpr) : AluOp → Bvexpr
  | plus16 | plus8 => bvand 32 B (constant 32 0xffff)
  | _ => B

/-- The carry that is added, where `C` is the flag. -/
def AluOp.carryIn (C : Bvexpr) (env : Env) : AluOp → ℕ
  | plusCarry => C.eval env
  | _ => 0

/-- The low half of a word. -/
theorem bvand_low (hB : Typed 32 B) :
    Computes 32 (fun env => B.eval env % 2 ^ 16) (bvand 32 B (constant 32 0xffff)) ∧
      (bvand 32 B (constant 32 0xffff)).extPointer = false := by
  have hmask : ∀ n, 0xffff &&& n = n % 2 ^ 16 := fun n => by
    rw [Nat.and_comm]
    exact Nat.and_two_pow_sub_one_eq_mod n 16
  cases h : castConstant 32 B with
  | some v =>
    obtain ⟨rfl, -⟩ := castConstant_typed h hB
    have hand : bvand 32 (.bitvector 32 v) (constant 32 0xffff) = constant 32 (v &&& 0xffff) := rfl
    rw [hand]
    refine ⟨(computes_constant (Nat.and_lt_two_pow v (by decide))).congr fun env => ?_, rfl⟩
    rw [Nat.and_comm, hmask, Bvexpr.eval, Nat.mod_eq_of_lt hB.1]
  | none =>
    have hand : bvand 32 B (constant 32 0xffff) = extend 16 16 (extract 15 0 32 B) := by
      unfold bvand
      rw [h]
      rfl
    have hextract := extract_computes (S := 15) (E := 0) hB (by decide) (by decide)
    rw [hand]
    refine ⟨(extend_computes hextract.typed).congr fun env => ?_, extPointer_extend (by decide) (by decide) (by decide)⟩
    rw [hextract.eval, slice_zero_left]

theorem calculate_adds {op : AluOp} {st : Exec} {k : Obj} (hop : op.adds = true) (hA : Typed 32 A) (hB : Typed 32 B)
    (hC : Typed 1 (st.flag k .C)) (hsA : A.Summand) (hsB : B.Summand)
    (hsC : (st.flag k .C).CarryOfNumbers .bvadditionCarry) :
    Typed 32 (op.addend B) ∧ (op.calculate A B st k).Adds fun env =>
      A.eval env + (op.addend B).eval env + op.carryIn (st.flag k .C) env := by
  obtain ⟨hlow, hplow⟩ := bvand_low hB
  cases op with
  | plus => exact ⟨hB, calculatePlus_adds hA hB hsA.extPointer hsB.extPointer⟩
  | plus16 => exact ⟨hlow.typed, calculatePlus_adds hA hlow.typed hsA.extPointer hplow⟩
  | plus8 => exact ⟨hlow.typed, calculatePlus_adds hA hlow.typed hsA.extPointer hplow⟩
  | plusCarry => exact ⟨hB, calculatePlusCarry_adds hA hB hC hsA hsB hsC⟩
  | _ => exact nomatch hop

/-! ### Overflow -/

/-- `V` is the carry out of the sum and its sign. -/
theorem AssignResult.Adds.v_computes {r : AssignResult} {f : Env → ℕ} (h : r.Adds f) :
    Computes 1 (fun env => slice 32 1 (f env) ^^^ slice 31 1 (f env % 2 ^ 32)) r.v := by
  obtain ⟨extended, hv, hsum, hextended⟩ := h
  have hout := extract_computes (S := 32) (E := 32) hextended.typed (Nat.le_refl 32) (by decide)
  have hsign := sign_computes hsum.typed
  rw [hv]
  refine (bvxor_computes hout.typed hsign.typed).congr fun env => ?_
  rw [hout.eval, hextended.eval, hsign.eval, hsum.eval]

theorem msb_word (ha : Typed 32 a) (env : Env) : (a.word 32 env).msb = decide (2 ^ 31 ≤ a.eval env) := by
  rw [BitVec.msb_eq_decide, Bvexpr.word, BitVec.toNat_ofNat, Nat.mod_eq_of_lt (ha.eval_lt env)]

theorem sign_eq_iff (ha : Typed 32 a) (hb : Typed 32 b) (env : Env) :
    slice 31 1 (a.eval env) = slice 31 1 (b.eval env) ↔ (a.word 32 env).msb = (b.word 32 env).msb := by
  rw [slice_first (ha.eval_lt env), slice_first (hb.eval_lt env), msb_word ha, msb_word hb, decide_eq_decide]
  by_cases h : 2 ^ 31 ≤ a.eval env <;> by_cases h' : 2 ^ 31 ≤ b.eval env <;>
    simp only [h, h', if_true, if_false] <;> decide

/-- When `V` is the overflow of the sum of two words and a bit. -/
theorem AssignResult.Adds.v_iff {r : AssignResult} {c : Env → ℕ} (hA : Typed 32 A) (hB : Typed 32 B)
    (h : r.Adds fun env => A.eval env + B.eval env + c env) {env : Env} (hc : c env ≤ 1) :
    r.v.eval env = (if signedOverflow (A.word 32 env) (B.word 32 env) (c env) then 1 else 0) ↔
      (A.word 32 env).msb = (B.word 32 env).msb := by
  rw [h.v_computes.eval, ← sign_eq_iff hA hB]
  exact carry_xor_sign_iff (hA.eval_lt env) (hB.eval_lt env) hc

theorem carryIn_le (op : AluOp) (hC : Typed 1 C) (env : Env) : op.carryIn C env ≤ 1 := by
  have hlt : C.eval env < 2 := hC.eval_lt env
  cases op <;> simp only [AluOp.carryIn] <;> omega

/-- What tests `V`. -/
theorem check_v [PastEnd] {st : Exec} {r : AssignResult} (hst : st.FlagsOf r) (hv : Typed 1 r.v) (f : Fresh) :
    Decides (fun env => r.v.eval env == 1) (BranchCond.check f st .bvs) ∧
      Decides (fun env => r.v.eval env == 0) (BranchCond.check f st .bvc) := by
  simp only [BranchCond.check, hst.v]
  exact ⟨eq_constant_decides hv (by decide), eq_constant_decides hv (by decide)⟩

/-- The flags `N` and `V` of an addition look the same only if they are. -/
theorem equal_added [PastEnd] {sum extended : Bvexpr} (hsum : Typed 32 sum) (hextended : Typed 33 extended) (env : Env)
    (h : (bvcomp 1 (extract 31 31 32 sum) (constant 1 1)).equal
      (bvxor 1 (extract 32 32 33 extended) (extract 31 31 32 sum)) = true) :
    (bvcomp 1 (extract 31 31 32 sum) (constant 1 1)).eval env =
      (bvxor 1 (extract 32 32 33 extended) (extract 31 31 32 sum)).eval env := by
  have hsign := sign_computes hsum
  have hout := extract_computes (S := 32) (E := 32) hextended (Nat.le_refl 32) (by decide)
  rcases bvcomp_bit hsign.typed with ⟨v, hv, hN⟩ | ⟨hnone, hN⟩
  · rw [hN, hv] at h ⊢
    rw [eq_of_bitvector_equal h]
  · -- `N` is a comparison, and `V` is an exclusive or, or the sign itself
    by_cases h0 : castConstant 1 (extract 32 32 33 extended) = some 0
    · rw [(bvcomp_bit_computes hsign.typed).eval, (bvxor_computes hout.typed hsign.typed).eval,
        (castConstant_typed h0 hout.typed).2, Nat.zero_xor]
    · rw [hN] at h
      simp [bvxor, hnone, h0, Bvexpr.equal] at h

/-- `N = V` of an addition. -/
theorem AssignResult.Adds.nv [PastEnd] {r : AssignResult} {f : Env → ℕ} (h : r.Adds f) :
    Decides (fun env => slice 31 1 (f env % 2 ^ 32) == r.v.eval env)
      (eq 1 (bvcomp 1 (extract 31 31 32 r.dst) (constant 1 1)) r.v) := by
  have hvt := h.v_computes.typed
  obtain ⟨extended, hv, hsum, hextended⟩ := h
  have hN := bvcomp_bit_computes (sign_computes hsum.typed).typed
  rw [hv] at hvt ⊢
  refine (eq_decides hN.typed hvt fun env => equal_added hsum.typed hextended.typed env).congr fun env => ?_
  rw [hN.eval, (sign_computes hsum.typed).eval, hsum.eval]

/-- `Z` of a number. -/
theorem zero_flag_computes (he : Typed 32 e) (hp : e.orsPointer = false) :
    Computes 1 (fun env => if e.eval env = 0 then 1 else 0) (bvcomp 32 e (constant 32 0)) :=
  (bvcomp_computes he (typed_constant 32 0) hp rfl).congr fun env => by rw [constant_eval, Nat.zero_mod]

theorem zero_flag_decides [PastEnd] (he : Typed 32 e) (hp : e.orsPointer = false) :
    Decides (fun env => e.eval env == 0) (eq 1 (bvcomp 32 e (constant 32 0)) (constant 1 1)) ∧
      Decides (fun env => e.eval env != 0) (eq 1 (bvcomp 32 e (constant 32 0)) (constant 1 0)) := by
  have hz := zero_flag_computes he hp
  refine ⟨(eq_constant_decides hz.typed (by decide)).congr fun env => ?_,
    (eq_constant_decides hz.typed (by decide)).congr fun env => ?_⟩ <;>
    · rw [hz.eval]
      by_cases h : e.eval env = 0 <;> simp [h]

theorem calculate_numeric {op : AluOp} {st : Exec} {k : Obj} (hop : op.adds = true) (hA : A.Numeric)
    (hB : B.Numeric) (hC : (st.flag k .C).Numeric) (hsC : (st.flag k .C).CarryOfNumbers .bvadditionCarry) :
    (op.calculate A B st k).dst.Numeric := by
  have hB' : (bvand 32 B (constant 32 0xffff)).Numeric := numeric_closed.bvand hB (numeric_closed.constant _ _)
  cases op with
  | plus => exact numeric_closed.bvadd hA hB
  | plus16 | plus8 => exact numeric_closed.bvadd hA hB'
  | plusCarry =>
    simp only [AluOp.calculate, AluOp.calculatePlusCarry]
    split
    · exact numeric_closed.bvadd (numeric_closed.bvadd hA hB) (numeric_closed.extend hC)
    · next a b hc =>
      obtain ⟨ha, hb⟩ := hsC a b (castBvbinary_eq_some hc)
      rw [castPtrBase_none hA.extPointer]
      exact numeric_closed.extract (numeric_closed.bvadd (numeric_closed.concat hA ha) (numeric_closed.concat hB hb))
  | _ => cases hop

/-- What tests the flags of an addition with the sum `A + B + c`, if `V` is right. -/
theorem AssignResult.Adds.tests [PastEnd] {st : Exec} {r : AssignResult} {c : Env → ℕ} {env : Env} (hA : Typed 32 A)
    (hB : Typed 32 B) (h : r.Adds fun env => A.eval env + B.eval env + c env) (hc : c env ≤ 1) (hst : st.FlagsOf r)
    (hv : r.v.eval env = if signedOverflow (A.word 32 env) (B.word 32 env) (c env) then 1 else 0) (f : Fresh) :
    let sum := signedSum (A.word 32 env) (B.word 32 env) (c env)
    let test := fun cond => (BranchCond.check f st cond).eval env
    (test .bge = decide (0 ≤ sum) ∧ test .blt = decide (sum < 0)) ∧
      (r.dst.orsPointer = false → test .bgt = decide (0 < sum) ∧ test .ble = decide (sum ≤ 0)) := by
  intro sum test
  have hsign : (slice 31 1 ((A.eval env + B.eval env + c env) % 2 ^ 32) == r.v.eval env) = decide (0 ≤ sum) := by
    rw [hv, beq_eq_decide]
    exact decide_eq_decide.mpr (sign_eq_signedOverflow (hA.eval_lt env) (hB.eval_lt env) hc)
  obtain ⟨hge, hlt⟩ := hst.sign h.nv f
  refine ⟨⟨(hge.eval env).trans hsign, (hlt.eval env).trans ?_⟩, fun hp => ?_⟩
  · rw [hsign, ← decide_not]
    exact decide_eq_decide.mpr Int.not_le
  · have hdst : Computes 32 (fun env => (A.eval env + B.eval env + c env) % 2 ^ 32) r.dst := h.choose_spec.2.1
    have hzero : r.dst.eval env = 0 ↔ sum = 0 ∨ sum = -(2 ^ 32 : ℕ) := by
      rw [hdst.eval]
      exact signedSum_eq_zero (hA.eval_lt env) (hB.eval_lt env) hc
    obtain ⟨heq, hne⟩ := zero_flag_decides hdst.typed hp
    obtain ⟨-, hgt, hle⟩ := hst.zero h.nv heq hne f
    refine ⟨(hgt.eval env).trans ?_, (hle.eval env).trans ?_⟩
    · rw [hsign, Bool.eq_iff_iff]
      simp only [bne_iff_ne, ne_eq, hzero, Bool.and_eq_true, decide_eq_true_eq]
      omega
    · rw [hsign, Bool.eq_iff_iff]
      simp only [beq_iff_eq, hzero, Bool.or_eq_true, Bool.not_eq_true', decide_eq_false_iff_not, decide_eq_true_eq]
      omega

/-- **After an addition `V` says whether the signed sum overflows, exactly if the signs of what is added are the
same**, and then the branches that look at it are right: `bvs` and `bvc`, and those that compare the sum with
nothing, where `bgt` and `ble` look at `Z` as well. -/
theorem overflow_iff [PastEnd] {st : Exec} {s : Step} {op : AluOp} (hsat : st.isUnsat = false)
    (hs : s.n.aluLike s.fresh st = some (op, A, B)) (hop : op.adds = true) (hA : Typed 32 A) (hB : Typed 32 B)
    (hC : Typed 1 (st.flag (s.fresh.obj 3) .C)) (hsA : A.Summand) (hsB : B.Summand)
    (hsC : (st.flag (s.fresh.obj 3) .C).CarryOfNumbers .bvadditionCarry) (f : Fresh) (env : Env) :
    let C := st.flag (s.fresh.obj 3) .C
    let a := A.word 32 env
    let b := (op.addend B).word 32 env
    let overflows := signedOverflow a b (op.carryIn C env)
    let sum := signedSum a b (op.carryIn C env)
    let test := fun cond => (BranchCond.check f (st.apply s) cond).eval env
    ((∀ o, ((st.apply s).flag o .V).eval env = if overflows then 1 else 0) ∧
      (test .bvs = overflows ∧ test .bvc = !overflows) ∧ (test .bge = decide (0 ≤ sum) ∧ test .blt = decide (sum < 0)) ∧
      (A.Numeric ∧ B.Numeric ∧ C.Numeric → test .bgt = decide (0 < sum) ∧ test .ble = decide (sum ≤ 0))) ↔
    a.msb = b.msb := by
  intro C a b overflows sum test
  obtain ⟨r, hr, hdst, hv, -⟩ := apply_aluLike_flags hsat hs
  obtain ⟨haddend, extended, hv', hsum, hextended⟩ := calculate_adds hop hA hB hC hsA hsB hsC
  have hadds : r.Adds fun env => A.eval env + (op.addend B).eval env + op.carryIn C env := by
    rw [← hdst] at hv' hsum
    exact ⟨extended, hv.trans hv', hsum, hextended⟩
  have hiff := hadds.v_iff hA haddend (carryIn_le op hC env)
  rw [← hiff]
  constructor
  · intro h
    rw [← hr.v (.fresh 0)]
    exact h.1 _
  · intro h
    have hbit : ∀ v : Bool, ((if v then 1 else 0) == 1) = v ∧ ((if v then 1 else 0) == 0) = !v := by decide
    obtain ⟨hbvs, hbvc⟩ := check_v hr hadds.v_computes.typed f
    obtain ⟨hnv, hz⟩ := hadds.tests hA haddend (carryIn_le op hC env) hr h f
    refine ⟨fun o => by rw [hr.v, h], ⟨(hbvs.eval env).trans ?_, (hbvc.eval env).trans ?_⟩, hnv, fun hn => hz ?_⟩
    · rw [h]
      exact (hbit overflows).1
    · rw [h]
      exact (hbit overflows).2
    · rw [hdst]
      exact (calculate_numeric hop hn.1 hn.2.1 hn.2.2 hsC).orsPointer

/-- The sum of 1 and 2 does not overflow, and `V` is 0. -/
theorem overflow_iff_small :
    let _ : PastEnd := ⟨fun _ => true⟩
    let st := initialState 0 1500 []
    let s : Step := ⟨.alu 0 .omitted (.constant 1) .plus (.constant 2) false, ⟨0, 0⟩, 0, false, .numbered 0⟩
    ∀ o, ((st.apply s).flag o .V).eval (.const 0) = 0 := by
  intro _ st s o
  have h := @overflow_iff (constant 32 1) (constant 32 2) _ st s .plus rfl rfl rfl (typed_constant 32 1)
    (typed_constant 32 2) ⟨trivial, rfl⟩ (.numeric trivial) (.numeric trivial) (fun _ _ h => nomatch h) (.numbered 0)
    (.const 0)
  exact (h.mpr (by decide)).1 o

/-- `-1 + 1` is 0, which fits, but `V` is 1. -/
theorem overflow_wrong :
    let _ : PastEnd := ⟨fun _ => true⟩
    let st := initialState 0 1500 []
    let s : Step :=
      ⟨.alu 0 .omitted (.constant 0xffffffff) .plus (.constant 1) false, ⟨0, 0⟩, 0, false, .numbered 0⟩
    (∀ o, ((st.apply s).flag o .V).eval (.const 0) = 1) ∧
      signedOverflow ((constant 32 0xffffffff).word 32 (.const 0)) ((constant 32 1).word 32 (.const 0)) 0 = false := by
  intro _ st s
  refine ⟨fun o => ?_, by decide⟩
  obtain ⟨r, hr, -, hv, -⟩ := @apply_aluLike_flags _ st s .plus (constant 32 0xffffffff) (constant 32 1) rfl rfl
  have hadds := calculatePlus_adds (typed_constant 32 0xffffffff) (typed_constant 32 1) rfl rfl
  rw [hr.v, hv]
  exact (hadds.v_computes.eval _).trans (by decide)

end NfpEstimator
