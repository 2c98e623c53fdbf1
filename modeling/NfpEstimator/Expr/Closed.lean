import NfpEstimator.Expr.Arithmetic

/-!
# What rewriting keeps

The functions that build bit-vectors take their operands apart and put the parts together in other ways, but
none of them makes a part of its own that is not a constant. A property of expressions that says as much of an
expression as of its parts is therefore kept by all of them (`Bvexpr.Closed`).

The expressions that are numbers rather than addresses (`Bvexpr.Numeric`) have such a property: those that no pointer
is a part of.
-/

namespace NfpEstimator

/-! ### Closed properties -/

/-- The operators that there are in the theory. -/
def BvOp.inTheory : BvOp → Bool
  | .bvadditionCarry | .bvsubstractionCarry => false
  | _ => true

/-- A property that what is built has if its parts have it. Pointers have it only if `P`. -/
structure Bvexpr.Closed (P : Prop) (Q : Bvexpr → Prop) : Prop where
  constant : ∀ B v, Q (.bitvector B v)
  pointer : ∀ A V array o, Q (.pointer A V array o) ↔ P ∧ Q o
  pointerExt : ∀ A V E array o x, Q (.pointerExt A V E array o x) ↔ P ∧ Q o ∧ Q x
  pointerBase : ∀ A V array s o, Q (.pointerBase A V array s o) ↔ P ∧ Q o
  extraction : ∀ S E B e, Q (.extraction S E B e) ↔ Q e
  bvnegation : ∀ B e, Q e → Q (.bvnegation B e)
  concatenation : ∀ A B a b, Q (.concatenation A B a b) ↔ Q a ∧ Q b
  bvbinary : ∀ op B a b, op.inTheory = true → Q a → Q b → Q (.bvbinary op B a b)
  bvoring : ∀ B a b, Q (.bvbinary .bvoring B a b) → Q a ∧ Q b

namespace Bvexpr.Closed

variable {P : Prop} {Q : Bvexpr → Prop} {B S E m s : ℕ} {a b e r : Bvexpr}

/-! ### Parts -/

theorem extractWith (h : Closed P Q) {c : ℕ → ℕ → Bvexpr → Bvexpr → Bvexpr}
    (hc : ∀ A B a b, Q a → Q b → Q (c A B a b)) (he : Q e) : Q (extractWith c S E B e) := by
  fun_induction NfpEstimator.extractWith c S E B e <;>
    simp_all [h.constant, h.pointer, h.pointerExt, h.extraction, h.concatenation, NfpEstimator.constant]

theorem concatPointer {A : ℕ} (h : Closed P Q) (ha : Q a) (hb : Q b) (hr : concatPointer A B a b = some r) :
    Q r := by
  cases b with
  | pointer A' V array offset =>
    simp only [NfpEstimator.concatPointer] at hr
    split_ifs at hr
    obtain rfl := Option.some.inj hr
    obtain ⟨hP, ho⟩ := (h.pointer ..).mp hb
    exact (h.pointerExt ..).mpr ⟨hP, ho, ha⟩
  | _ => cases hr

theorem concatPointer_getD {A : ℕ} (h : Closed P Q) (ha : Q a) (hb : Q b) (hr : Q r) :
    Q ((NfpEstimator.concatPointer A B a b).getD r) := by
  cases hs : NfpEstimator.concatPointer A B a b with
  | none => exact hr
  | some r' => exact h.concatPointer ha hb hs

theorem concatConstant {A va : ℕ} (h : Closed P Q) (hb : Q b) : Q (concatConstant A va B b) := by
  have hnode : ∀ {A B va b}, Q b → Q (.concatenation A B (NfpEstimator.constant A va) b) := fun hb =>
    (h.concatenation ..).mpr ⟨h.constant _ _, hb⟩
  fun_induction NfpEstimator.concatConstant A va B b with
  | case1 => exact h.constant _ _
  | case3 A va B X Y X' vx b _ ih => exact ih ((h.concatenation ..).mp hb).2
  | case5 A va B S E B' e _ ih =>
    exact h.extractWith (fun _ _ _ _ ha hb => (h.concatenation ..).mpr ⟨ha, hb⟩) (ih ((h.extraction ..).mp hb))
  | case7 A va B b => exact h.concatPointer_getD (h.constant _ _) hb (hnode hb)
  | _ => exact hnode hb

theorem concat {A : ℕ} (h : Closed P Q) (ha : Q a) (hb : Q b) : Q (concat A B a b) := by
  fun_induction NfpEstimator.concat A B a b with
  | case1 => exact h.concatConstant hb
  | case2 => exact (h.concatenation ..).mpr ⟨ha, hb⟩
  | case3 A B b X Y a₁ a₂ ih₂ ih₁ =>
    obtain ⟨ha₁, ha₂⟩ := (h.concatenation ..).mp ha
    refine h.concatPointer_getD ha hb ?_
    split_ifs
    · exact ih₁ ha₁ (ih₂ ha₂ hb)
    · exact (h.concatenation ..).mpr ⟨ha, hb⟩
  | case4 A B a b => exact h.concatPointer_getD ha hb ((h.concatenation ..).mpr ⟨ha, hb⟩)

theorem extract (h : Closed P Q) (he : Q e) : Q (extract S E B e) := h.extractWith (fun _ _ _ _ => h.concat) he

theorem extend (h : Closed P Q) (he : Q e) : Q (extend E B e) := h.concat (h.constant _ _) he

/-! ### Shifts -/

theorem bvshlConstant (h : Closed P Q) (ha : Q a) : Q (bvshlConstant B s a) := by
  unfold NfpEstimator.bvshlConstant
  split
  · split_ifs
    · exact h.concat ((h.concatenation ..).mp ha).2 (h.constant _ _)
    · exact h.concat (h.extract ha) (h.constant _ _)
  · exact h.concat (h.extract ha) (h.constant _ _)

theorem bvshl (h : Closed P Q) (ha : Q a) (hb : Q b) : Q (bvshl B a b) := by
  unfold NfpEstimator.bvshl
  split
  · exact h.constant _ _
  · next vb _ _ =>
    cases hr : bvshlPointerBase B vb a with
    | some r =>
      cases a with
      | pointerBase A V array shift offset =>
        have ho := (h.pointerBase ..).mp ha
        simp only [bvshlPointerBase] at hr
        split_ifs at hr <;> obtain rfl := Option.some.inj hr
        · exact (h.pointer ..).mpr ho
        · exact (h.pointerBase ..).mpr ho
      | _ => cases hr
    | none =>
      rw [Option.getD_none]
      split_ifs
      · exact h.bvshlConstant ha
      · exact h.bvbinary _ _ _ _ rfl ha hb
  · exact h.bvbinary _ _ _ _ rfl ha hb

theorem bvlshrConstant (h : Closed P Q) (ha : Q a) : Q (bvlshrConstant s B a) := by
  fun_induction NfpEstimator.bvlshrConstant s B a with
  | case1 => exact h.constant _ _
  | case2 | case6 | case8 => exact h.bvbinary _ _ _ _ rfl ha (h.constant _ _)
  | case3 => exact h.extend ((h.concatenation ..).mp ha).1
  | case4 B X Y a₁ a₂ _ _ _ ih =>
    obtain ⟨ha₁, ha₂⟩ := (h.concatenation ..).mp ha
    exact h.extend (h.concat ha₁ (h.extract (ih ha₂)))
  | case5 | case7 => exact h.extend (h.extract ha)

theorem bvlshr (h : Closed P Q) (ha : Q a) (hb : Q b) : Q (bvlshr B a b) := by
  unfold NfpEstimator.bvlshr
  split
  · exact h.bvlshrConstant ha
  · exact h.bvbinary _ _ _ _ rfl ha hb

/-! ### Bitwise operators -/

theorem bvnot (h : Closed P Q) (he : Q e) : Q (bvnot B e) := by
  unfold NfpEstimator.bvnot
  split
  · exact h.constant _ _
  · exact h.bvnegation _ _ he

theorem bvandExtracts {ranges : List (ℕ × ℕ)} (h : Closed P Q) (hb : Q b)
    (hr : bvandExtracts ranges B m b = some r) : Q r := by
  obtain ⟨range, -, hrange⟩ := List.exists_of_findSome?_eq_some hr
  unfold bvandExtract at hrange
  split_ifs at hrange <;> obtain rfl := Option.some.inj hrange
  · exact h.extend (h.extract hb)
  · exact h.concat (h.extract hb) (h.constant _ _)

theorem bvandExtracts_getD {ranges : List (ℕ × ℕ)} (h : Closed P Q) (hb : Q b) (hr : Q r) :
    Q ((NfpEstimator.bvandExtracts ranges B m b).getD r) := by
  cases hs : NfpEstimator.bvandExtracts ranges B m b with
  | none => exact hr
  | some r' => exact h.bvandExtracts hb hs

theorem bvandConstant (h : Closed P Q) (hb : Q b) : Q (bvandConstant B m b) := by
  have hnode : ∀ {B m b}, Q b → Q (.bvbinary .bvanding B (NfpEstimator.constant B m) b) := fun hb =>
    h.bvbinary _ _ _ _ rfl (h.constant _ _) hb
  fun_induction NfpEstimator.bvandConstant B m b with
  | case1 => exact h.constant _ _
  | case2 => exact hnode hb
  | case3 | case5 => exact hb
  | case4 B m X Y b₁ b₂ _ ih =>
    refine h.bvandExtracts_getD hb ?_
    split_ifs
    · exact h.extend (ih ((h.concatenation ..).mp hb).2)
    · exact hnode hb
  | case6 => exact h.bvandExtracts_getD hb (hnode hb)

theorem bvandConstantRight (h : Closed P Q) (ha : Q a) : Q (bvandConstantRight B m a) := by
  have hnode : Q (.bvbinary .bvanding B a (NfpEstimator.constant B m)) :=
    h.bvbinary _ _ _ _ rfl ha (h.constant _ _)
  unfold NfpEstimator.bvandConstantRight
  split_ifs
  · exact ha
  · refine h.bvandExtracts_getD ha ?_
    split
    · split_ifs
      · exact h.extend (h.bvandConstant ((h.concatenation ..).mp ha).2)
      · exact hnode
    · exact hnode

theorem bvand (h : Closed P Q) (ha : Q a) (hb : Q b) : Q (bvand B a b) := by
  unfold NfpEstimator.bvand
  split
  · exact h.bvandConstant hb
  · exact h.bvandConstantRight ha
  · exact h.bvbinary _ _ _ _ rfl ha hb

theorem bvor (h : Closed P Q) (ha : Q a) (hb : Q b) : Q (bvor B a b) := by
  fun_induction NfpEstimator.bvor B a b with
  | case1 => exact h.constant _ _
  | case2 => exact hb
  | case3 => exact ha
  | case4 _ _ _ _ _ _ _ _ _ _ _ _ ih₁ ih₂ =>
    rw [h.concatenation] at ha hb
    exact h.concat (ih₁ ha.1 hb.1) (ih₂ ha.2 hb.2)
  | case5 _ _ _ _ _ _ _ _ _ _ _ _ _ _ _ ih₁ ih₂ ih₃ =>
    rw [h.concatenation] at ha hb
    exact h.concat (ih₁ (h.extract ha.1) hb.1)
      (h.concat (ih₂ (h.extract ha.1) (h.extract hb.2)) (ih₃ ha.2 (h.extract hb.2)))
  | case6 _ _ _ _ _ _ _ _ _ _ _ _ _ _ _ ih₁ ih₂ ih₃ =>
    rw [h.concatenation] at ha hb
    exact h.concat (ih₁ ha.1 (h.extract hb.1))
      (h.concat (ih₂ (h.extract ha.2) (h.extract hb.1)) (ih₃ (h.extract ha.2) hb.2))
  | case7 | case8 => exact h.bvbinary _ _ _ _ rfl ha hb

theorem bvxor (h : Closed P Q) (ha : Q a) (hb : Q b) : Q (bvxor B a b) := by
  unfold NfpEstimator.bvxor
  split
  · exact h.constant _ _
  · split_ifs
    · exact hb
    · exact ha
    · exact h.bvbinary _ _ _ _ rfl ha hb

/-! ### Addition and subtraction -/

/-- What is to be added has the property. -/
def Rule (P : Prop) (Q : Bvexpr → Prop) : AddRule → Prop
  | .done e => Q e
  | .pointer _ _ x y | .pointerBase _ _ _ x y => P ∧ Q x ∧ Q y
  | .pullExtract x y => Q x ∧ Q y
  | .pointerExt _ _ x y x' y' => P ∧ (Q x ∧ Q y) ∧ Q x' ∧ Q y'

theorem bvaddPullExtract (h : Closed P Q) (ha : Q a) (hb : Q b) : ∀ r ∈ bvaddPullExtract B a b, Rule P Q r := by
  intro r hr
  cases b with
  | extraction S E B' e =>
    simp only [NfpEstimator.bvaddPullExtract, Option.mem_def] at hr
    split_ifs at hr
    obtain rfl := Option.some.inj hr
    exact ⟨h.concat ha (h.constant _ _), (h.extraction ..).mp hb⟩
  | _ => cases hr

theorem bvaddRule (h : Closed P Q) (ha : Q a) (hb : Q b) : Rule P Q (bvaddRule B a b) := by
  refine bvaddRule_cases (fun r hr => ?_) (fun V r hr => ?_) (fun V r hr => ?_) (fun r hr => ?_)
    (h.bvaddPullExtract ha hb) (h.bvaddPullExtract hb ha) (h.bvbinary _ _ _ _ rfl ha hb)
  · simp only [bvaddConstant, Option.mem_def] at hr
    split_ifs at hr
    split at hr
    · obtain rfl := Option.some.inj hr
      exact h.constant _ _
    · split_ifs at hr <;> obtain rfl := Option.some.inj hr
      · exact hb
      · exact ha
  · simp only [bvaddPointer, Option.mem_def] at hr
    split at hr
    · next array offset hp _ =>
      obtain rfl := Option.some.inj hr
      rw [castPtr_eq_some hp, h.pointer] at ha
      exact ⟨ha.1, ha.2, hb⟩
    · next array offset _ hp =>
      obtain rfl := Option.some.inj hr
      rw [castPtr_eq_some hp, h.pointer] at hb
      exact ⟨hb.1, ha, hb.2⟩
    · cases hr
  · simp only [bvaddPointerExt, Option.mem_def] at hr
    split_ifs at hr
    split at hr
    · next array offset ext hp _ =>
      obtain rfl := Option.some.inj hr
      rw [castPtrExt_eq_some hp, h.pointerExt] at ha
      exact ⟨ha.1, ⟨ha.2.1, h.extract hb⟩, ha.2.2, h.extract hb⟩
    · next array offset ext _ hp =>
      obtain rfl := Option.some.inj hr
      rw [castPtrExt_eq_some hp, h.pointerExt] at hb
      exact ⟨hb.1, ⟨h.extract ha, hb.2.1⟩, h.extract ha, hb.2.2⟩
    · cases hr
  · simp only [bvaddPointerBase, Option.mem_def] at hr
    split_ifs at hr
    split at hr
    · next array shift offset hp _ =>
      obtain rfl := Option.some.inj hr
      rw [castPtrBase_eq_some hp, h.pointerBase] at ha
      exact ⟨ha.1, ha.2, h.bvshl hb (h.constant _ _)⟩
    · next array shift offset _ hp =>
      obtain rfl := Option.some.inj hr
      rw [castPtrBase_eq_some hp, h.pointerBase] at hb
      exact ⟨hb.1, h.bvshl ha (h.constant _ _), hb.2⟩
    · cases hr

theorem bvadd (h : Closed P Q) (ha : Q a) (hb : Q b) : Q (bvadd B a b) := by
  have hrule := h.bvaddRule (B := B) ha hb
  fun_induction NfpEstimator.bvadd B a b with
  | case1 B a b e hr =>
    rw [hr] at hrule
    exact hrule
  | case2 B a b V array x y hr ih =>
    rw [hr] at hrule
    obtain ⟨hP, hx, hy⟩ := hrule
    exact (h.pointer ..).mpr ⟨hP, ih hx hy (h.bvaddRule hx hy)⟩
  | case3 B a b V array x y x' y' hr ih₁ ih₂ =>
    rw [hr] at hrule
    obtain ⟨hP, ⟨hx, hy⟩, hx', hy'⟩ := hrule
    exact (h.pointerExt ..).mpr ⟨hP, ih₁ hx hy (h.bvaddRule hx hy), ih₂ hx' hy' (h.bvaddRule hx' hy')⟩
  | case4 B a b V array s x y hr ih =>
    rw [hr] at hrule
    obtain ⟨hP, hx, hy⟩ := hrule
    exact (h.pointerBase ..).mpr ⟨hP, ih hx hy (h.bvaddRule hx hy)⟩
  | case5 B a b x y hr ih =>
    rw [hr] at hrule
    exact h.extract (ih hrule.1 hrule.2 (h.bvaddRule hrule.1 hrule.2))

theorem bvsub (h : Closed P Q) (ha : Q a) (hb : Q b) : Q (bvsub B a b) := by
  have hconstant : ∀ {a b r : Bvexpr}, Q a → Q r → Q ((bvsubConstant B a b).getD r) := by
    intro a b r ha hr
    unfold bvsubConstant
    split_ifs
    · exact hr
    · split
      · exact h.constant _ _
      · split_ifs
        · exact ha
        · exact hr
  fun_induction NfpEstimator.bvsub B a b with
  | case1 a b ih =>
    refine hconstant ha ?_
    cases a with
    | pointer A V array offset =>
      obtain ⟨hP, ho⟩ := (h.pointer ..).mp ha
      simp only at ih ⊢
      split_ifs
      · split
        · next array' offset' hp =>
          rw [castPtr_eq_some hp, h.pointer] at hb
          exact ih.1 offset' ho hb.2
        · exact (h.pointer ..).mpr ⟨hP, ih.2 ho hb⟩
      · exact h.bvbinary _ _ _ _ rfl ha hb
    | _ => exact h.bvbinary _ _ _ _ rfl ha hb

/-! ### Comparisons -/

theorem bvcompZero {left : Bool} (h : Closed P Q) (he : Q e) : Q (bvcompZero B left e) := by
  have hnode : ∀ {e : Bvexpr}, Q e → Q (bvcompZero.bvcompNode B left e) := by
    intro e he
    unfold NfpEstimator.bvcompZero.bvcompNode
    split_ifs
    · exact h.bvbinary _ _ _ _ rfl (h.constant _ _) he
    · exact h.bvbinary _ _ _ _ rfl he (h.constant _ _)
  fun_induction NfpEstimator.bvcompZero B left e with
  | case1 | case2 | case3 | case5 => exact h.constant _ _
  | case4 | case6 | case8 | case9 => exact hnode he
  | case7 a b iha ihb =>
    obtain ⟨ha, hb⟩ := h.bvoring _ _ _ he
    exact h.bvand (iha ha) (ihb hb)

theorem bvcomp (h : Closed P Q) (ha : Q a) (hb : Q b) : Q (bvcomp B a b) := by
  unfold NfpEstimator.bvcomp
  split
  · split_ifs <;> exact h.constant _ _
  · exact h.bvcompZero hb
  · exact h.bvcompZero ha
  · exact h.bvbinary _ _ _ _ rfl ha hb

end Bvexpr.Closed

/-! ### Numbers -/

/-- An expression that no pointer is a part of, where the operands of a concatenation and of a bitwise or are parts
and that of an extraction is one. -/
def Bvexpr.Numeric : Bvexpr → Prop
  | .pointer _ _ _ _ | .pointerExt _ _ _ _ _ _ | .pointerBase _ _ _ _ _ => False
  | .extraction _ _ _ e => e.Numeric
  | .concatenation _ _ a b => a.Numeric ∧ b.Numeric
  | .bvbinary .bvoring _ a b => a.Numeric ∧ b.Numeric
  | _ => True

/-- What is built of numbers is a number. -/
theorem numeric_closed : Bvexpr.Closed False Bvexpr.Numeric where
  constant _ _ := trivial
  pointer _ _ _ _ := by simp [Bvexpr.Numeric]
  pointerExt _ _ _ _ _ _ := by simp [Bvexpr.Numeric]
  pointerBase _ _ _ _ _ := by simp [Bvexpr.Numeric]
  extraction _ _ _ _ := Iff.rfl
  bvnegation _ _ _ := trivial
  concatenation _ _ _ _ := Iff.rfl
  bvbinary op _ _ _ _ ha hb := by
    cases op with
    | bvoring => exact ⟨ha, hb⟩
    | _ => exact trivial
  bvoring _ _ _ h := h

namespace Bvexpr.Numeric

variable {e : Bvexpr}

theorem pointers (h : e.Numeric) : e.pointers = 0 := by
  fun_induction Bvexpr.pointers e with
  | case1 | case2 | case3 => exact h.elim
  | case4 _ _ _ e ih => exact ih h
  | case5 _ _ a b iha ihb => rw [iha h.1, ihb h.2]
  | case6 => rfl

theorem isPointer (h : e.Numeric) : e.isPointer = false := by
  cases e with
  | pointer | pointerExt | pointerBase => exact h.elim
  | _ => rfl

theorem extPointer (h : e.Numeric) : e.extPointer = false := extPointer_of_pointers h.pointers

theorem orsPointer (h : e.Numeric) : e.orsPointer = false := by
  fun_induction Bvexpr.orsPointer e with
  | case1 | case2 | case3 => exact h.elim
  | case4 B a b iha ihb => rw [iha h.1, ihb h.2, Bool.or_false]
  | case5 => rfl

end Bvexpr.Numeric

end NfpEstimator
