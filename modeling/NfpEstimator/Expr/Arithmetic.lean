import NfpEstimator.Expr.Bitwise
import NfpEstimator.Expr.Equality

/-!
# Arithmetic and predicates

`expr::bvadd` and `expr::bvsub`, the comparisons, and the Boolean connectives, with the rewrite rules of
`expr::h` that they try. An addition to an extraction from a wider expression is done in the wider one, an
addition to a pointer is done on its offset, and whether an inclusive or is zero is asked of its operands.

`expr::bvadd` tries its rules in turn, and most of them add something else. Which rule it is and what it adds is
`bvaddRule`; every one of these additions has fewer pointers in it, or is wider by 32 bits, which
can be at most 65.

The main result is that all of them have the values that they were asked for
(`arithmetic_eval`) if no operand that they look into is a pointer.
-/

namespace NfpEstimator

/-! ### Pointers -/

/-- `expr::cast::ptr<A,V>`: the array and the offset. -/
def castPtr (A V : ℕ) : Bvexpr → Option (String × Bvexpr)
  | .pointer A' V' array offset => if A' = A ∧ V' = V then some (array, offset) else none
  | _ => none

/-- `expr::cast::ptr_ext<A,V,E>`: the array, the offset and the extension. -/
def castPtrExt (A V E : ℕ) : Bvexpr → Option (String × Bvexpr × Bvexpr)
  | .pointerExt A' V' E' array offset ext =>
    if A' = A ∧ V' = V ∧ E' = E then some (array, offset, ext) else none
  | _ => none

/-- `expr::cast::ptr_base<A,V>`: the array, the shift and the offset. -/
def castPtrBase (A V : ℕ) : Bvexpr → Option (String × ℕ × Bvexpr)
  | .pointerBase A' V' array shift offset =>
    if A' = A ∧ V' = V then some (array, shift, offset) else none
  | _ => none

/-- How many pointers there are in an expression that `extract`, `concat` and `bvadd` look into. -/
def Bvexpr.pointers : Bvexpr → ℕ
  | .pointer _ _ _ offset | .pointerBase _ _ _ _ offset => offset.pointers + 1
  | .pointerExt _ _ _ _ offset ext => offset.pointers + ext.pointers + 1
  | .extraction _ _ _ e => e.pointers
  | .concatenation _ _ a b => a.pointers + b.pointers
  | _ => 0

/-! ### Addition -/

/-- What `expr::bvadd` returns, in terms of other additions. -/
inductive AddRule where
  /-- The expression itself. -/
  | done (e : Bvexpr)
  /-- `h::BVAddPointer`: a pointer, and an addition for its offset. -/
  | pointer (V : ℕ) (array : String) (a b : Bvexpr)
  /-- `h::BVAddPointerExt`: an addition for the offset, and one for the extension. -/
  | pointerExt (V : ℕ) (array : String) (a b a' b' : Bvexpr)
  /-- `h::BVAddPointerBase`. -/
  | pointerBase (V : ℕ) (array : String) (shift : ℕ) (a b : Bvexpr)
  /-- `h::BVAddPullExtract`: what the front of is extracted. -/
  | pullExtract (a b : Bvexpr)

/-- `h::BVAddConstant`. -/
def bvaddConstant (B : ℕ) (a b : Bvexpr) : Option AddRule :=
  if 64 < B then none
  else match castConstant B a, castConstant B b with
  | some va, some vb => some (.done (constant B (va + vb)))
  | ca, cb => if ca = some 0 then some (.done b) else if cb = some 0 then some (.done a) else none

/-- `h::BVAddPointer`. -/
def bvaddPointer (B V : ℕ) (a b : Bvexpr) : Option AddRule :=
  match castPtr B V a, castPtr B V b with
  | some (array, offset), none => some (.pointer V array offset b)
  | none, some (array, offset) => some (.pointer V array a offset)
  | _, _ => none

/-- `h::BVAddPointerExt`, for an extension of 32 bits. -/
def bvaddPointerExt (B V : ℕ) (a b : Bvexpr) : Option AddRule :=
  if B ≤ 32 then none
  else match castPtrExt (B - 32) V 32 a, castPtrExt (B - 32) V 32 b with
  | some (array, offset, ext), none =>
    some (.pointerExt V array offset (extract (B - 32 - 1) 0 B b) ext (extract (B - 1) (B - 32) B b))
  | none, some (array, offset, ext) =>
    some (.pointerExt V array (extract (B - 32 - 1) 0 B a) offset (extract (B - 1) (B - 32) B a) ext)
  | _, _ => none

/-- `h::BVAddPointerBase`. -/
def bvaddPointerBase (B V : ℕ) (a b : Bvexpr) : Option AddRule :=
  if B ≠ 32 then none
  else match castPtrBase B V a, castPtrBase B V b with
  | some (array, shift, offset), none =>
    some (.pointerBase V array shift offset (bvshl B b (constant B shift)))
  | none, some (array, shift, offset) =>
    some (.pointerBase V array shift (bvshl B a (constant B shift)) offset)
  | _, _ => none

/-- `h::BVAddPullExtract`, for an extraction from an expression that is 32 bits wider. -/
def bvaddPullExtract (B : ℕ) (a : Bvexpr) : Bvexpr → Option AddRule
  | .extraction S E B' e =>
    if (S = B + 32 - 1 ∧ E = 32 ∧ B' = B + 32) ∧ B + 32 ≤ 65 then
      some (.pullExtract (concat B 32 a (constant 32 0)) e)
    else none
  | _ => none

/-- The first of the rules of `expr::bvadd`. -/
def bvaddRule (B : ℕ) (a b : Bvexpr) : AddRule :=
  (bvaddConstant B a b <|> bvaddPointer B 8 a b <|> bvaddPointer B 32 a b <|> bvaddPointerExt B 8 a b <|>
    bvaddPointerExt B 32 a b <|> bvaddPointerBase B 8 a b <|> bvaddPullExtract B a b <|>
    bvaddPullExtract B b a).getD (.done (.bvbinary .bvaddition B a b))

/-! ### Termination -/

theorem pointers_extractWith {c : ℕ → ℕ → Bvexpr → Bvexpr → Bvexpr}
    (hc : ∀ A B a b, (c A B a b).pointers ≤ a.pointers + b.pointers) (S E B : ℕ) (e : Bvexpr) :
    (extractWith c S E B e).pointers ≤ e.pointers := by
  fun_induction extractWith c S E B e with
  | case1 | case2 | case3 | case4 | case7 | case8 | case9 | case15 | case16 | case19 | case20 | case21 =>
    simp [Bvexpr.pointers, constant]
  | case5 | case6 => simp only [Bvexpr.pointers]; omega
  | case10 | case11 | case12 | case14 => simp only [Bvexpr.pointers]; omega
  | case13 S E B A' B' a b _ _ _ _ _ _ iha ihb =>
    have hconcat := hc (S - B' + 1) (B' - E) (extractWith c (S - B') 0 A' a) (extractWith c (B' - 1) E B' b)
    simp only [Bvexpr.pointers]
    omega
  | case17 | case18 => simp only [Bvexpr.pointers]; omega

theorem pointers_concatPointer {A B : ℕ} {a b r : Bvexpr} (h : concatPointer A B a b = some r) :
    r.pointers = a.pointers + b.pointers := by
  cases b with
  | pointer A' V array offset =>
    simp only [concatPointer] at h
    split_ifs at h
    obtain rfl := Option.some.inj h
    simp only [Bvexpr.pointers]
    omega
  | _ => cases h

theorem pointers_concatPointer_getD {A B : ℕ} {a b r : Bvexpr} (hr : r.pointers ≤ a.pointers + b.pointers) :
    ((concatPointer A B a b).getD r).pointers ≤ a.pointers + b.pointers := by
  cases h : concatPointer A B a b with
  | none => exact hr
  | some r' => exact (pointers_concatPointer h).le

theorem pointers_concatConstant (A va B : ℕ) (b : Bvexpr) :
    (concatConstant A va B b).pointers ≤ b.pointers := by
  fun_induction concatConstant A va B b with
  | case1 | case2 | case4 | case6 => simp [Bvexpr.pointers, constant]
  | case3 A va B X Y X' vx b _ ih =>
    simp only [Bvexpr.pointers]
    omega
  | case5 A va B S E B' e _ ih =>
    have hextract := pointers_extractWith (c := .concatenation) (fun _ _ _ _ => le_rfl)
      (E + A + B - 1) E (E + A + B) (concatConstant A va (E + B) e)
    exact hextract.trans ih
  | case7 A va B b =>
    refine (pointers_concatPointer_getD ?_).trans ?_ <;> simp [Bvexpr.pointers, constant]

theorem pointers_concat (A B : ℕ) (a b : Bvexpr) : (concat A B a b).pointers ≤ a.pointers + b.pointers := by
  fun_induction concat A B a b with
  | case1 B A va b => exact (pointers_concatConstant A va B b).trans (Nat.le_add_left _ _)
  | case2 => simp [Bvexpr.pointers]
  | case3 A B b X Y a₁ a₂ ih₂ ih₁ =>
    refine pointers_concatPointer_getD ?_
    split_ifs
    · simp only [Bvexpr.pointers]
      omega
    · exact le_rfl
  | case4 A B a b => exact pointers_concatPointer_getD le_rfl

theorem pointers_extract (S E B : ℕ) (e : Bvexpr) : (extract S E B e).pointers ≤ e.pointers :=
  pointers_extractWith pointers_concat S E B e

theorem pointers_bvshlConstant (B s : ℕ) (a : Bvexpr) : (bvshlConstant B s a).pointers ≤ a.pointers := by
  have hconcat : ∀ {X e}, e.pointers ≤ a.pointers → (concat X s e (constant s 0)).pointers ≤ a.pointers :=
    fun h => (pointers_concat _ _ _ _).trans h
  unfold bvshlConstant
  split
  · split_ifs
    · exact hconcat (Nat.le_add_left _ _)
    · exact hconcat (pointers_extract _ _ _ _)
  · exact hconcat (pointers_extract _ _ _ _)

theorem pointers_bvshlPointerBase {B s : ℕ} {a r : Bvexpr} (h : bvshlPointerBase B s a = some r) :
    r.pointers = a.pointers := by
  cases a with
  | pointerBase =>
    simp only [bvshlPointerBase] at h
    split_ifs at h <;> (obtain rfl := Option.some.inj h; rfl)
  | _ => exact nomatch h

theorem pointers_bvshl (B s : ℕ) (a : Bvexpr) : (bvshl B a (constant B s)).pointers ≤ a.pointers := by
  unfold bvshl
  split
  · exact Nat.zero_le _
  · next vb _ _ =>
    cases h : bvshlPointerBase B vb a with
    | some r => exact (pointers_bvshlPointerBase h).le
    | none =>
      rw [Option.getD_none]
      split_ifs
      · exact pointers_bvshlConstant B vb a
      · exact Nat.zero_le _
  · exact Nat.zero_le _

theorem castPtr_eq_some {A V : ℕ} {e o : Bvexpr} {array : String} (h : castPtr A V e = some (array, o)) :
    e = .pointer A V array o := by
  cases e with
  | pointer => simp_all [castPtr]
  | _ => exact nomatch h

theorem castPtrExt_eq_some {A V E : ℕ} {e o x : Bvexpr} {array : String}
    (h : castPtrExt A V E e = some (array, o, x)) : e = .pointerExt A V E array o x := by
  cases e with
  | pointerExt => simp_all [castPtrExt]
  | _ => exact nomatch h

theorem castPtrBase_eq_some {A V s : ℕ} {e o : Bvexpr} {array : String}
    (h : castPtrBase A V e = some (array, s, o)) : e = .pointerBase A V array s o := by
  cases e with
  | pointerBase => simp_all [castPtrBase]
  | _ => exact nomatch h

/-- Every addition that a rule does has fewer pointers, or is wider. -/
def AddRule.Smaller (B : ℕ) (a b : Bvexpr) : AddRule → Prop
  | .done e => e.pointers ≤ a.pointers + b.pointers
  | .pointer _ _ x y | .pointerBase _ _ _ x y => x.pointers + y.pointers < a.pointers + b.pointers
  | .pointerExt _ _ x y x' y' =>
    x.pointers + y.pointers < a.pointers + b.pointers ∧ x'.pointers + y'.pointers < a.pointers + b.pointers
  | .pullExtract x y => x.pointers + y.pointers ≤ a.pointers + b.pointers ∧ B + 32 ≤ 65

theorem AddRule.Smaller.symm {B : ℕ} {a b : Bvexpr} {r : AddRule} (h : r.Smaller B a b) :
    r.Smaller B b a := by
  cases r <;> simp only [AddRule.Smaller, Nat.add_comm b.pointers] at h ⊢ <;> exact h

theorem bvaddConstant_smaller {B : ℕ} {a b : Bvexpr} {r : AddRule} (h : bvaddConstant B a b = some r) :
    r.Smaller B a b := by
  unfold bvaddConstant at h
  split_ifs at h
  split at h
  · obtain rfl := Option.some.inj h
    exact Nat.zero_le _
  · split_ifs at h <;> obtain rfl := Option.some.inj h
    · exact Nat.le_add_left _ _
    · exact Nat.le_add_right _ _

theorem bvaddPointer_smaller {B V : ℕ} {a b : Bvexpr} {r : AddRule} (h : bvaddPointer B V a b = some r) :
    r.Smaller B a b := by
  unfold bvaddPointer at h
  split at h
  · next array offset ha _ =>
    obtain rfl := Option.some.inj h
    rw [castPtr_eq_some ha]
    simp only [AddRule.Smaller, Bvexpr.pointers]
    omega
  · next array offset _ hb =>
    obtain rfl := Option.some.inj h
    rw [castPtr_eq_some hb]
    simp only [AddRule.Smaller, Bvexpr.pointers]
    omega
  · exact nomatch h

theorem bvaddPointerExt_smaller {B V : ℕ} {a b : Bvexpr} {r : AddRule}
    (h : bvaddPointerExt B V a b = some r) : r.Smaller B a b := by
  unfold bvaddPointerExt at h
  split_ifs at h
  split at h
  · next array offset ext ha _ =>
    obtain rfl := Option.some.inj h
    rw [castPtrExt_eq_some ha]
    have hlow := pointers_extract (B - 32 - 1) 0 B b
    have hhigh := pointers_extract (B - 1) (B - 32) B b
    simp only [AddRule.Smaller, Bvexpr.pointers]
    omega
  · next array offset ext _ hb =>
    obtain rfl := Option.some.inj h
    rw [castPtrExt_eq_some hb]
    have hlow := pointers_extract (B - 32 - 1) 0 B a
    have hhigh := pointers_extract (B - 1) (B - 32) B a
    simp only [AddRule.Smaller, Bvexpr.pointers]
    omega
  · exact nomatch h

theorem bvaddPointerBase_smaller {B V : ℕ} {a b : Bvexpr} {r : AddRule}
    (h : bvaddPointerBase B V a b = some r) : r.Smaller B a b := by
  unfold bvaddPointerBase at h
  split_ifs at h
  split at h
  · next array shift offset ha _ =>
    obtain rfl := Option.some.inj h
    rw [castPtrBase_eq_some ha]
    have hshift := pointers_bvshl B shift b
    simp only [AddRule.Smaller, Bvexpr.pointers]
    omega
  · next array shift offset _ hb =>
    obtain rfl := Option.some.inj h
    rw [castPtrBase_eq_some hb]
    have hshift := pointers_bvshl B shift a
    simp only [AddRule.Smaller, Bvexpr.pointers]
    omega
  · exact nomatch h

theorem bvaddPullExtract_smaller {B : ℕ} {a b : Bvexpr} {r : AddRule}
    (h : bvaddPullExtract B a b = some r) : r.Smaller B a b := by
  cases b with
  | extraction S E B' e =>
    simp only [bvaddPullExtract] at h
    split_ifs at h with hB
    obtain rfl := Option.some.inj h
    have hconcat := pointers_concat B 32 a (constant 32 0)
    exact ⟨Nat.add_le_add_right hconcat _, hB.2⟩
  | _ => exact nomatch h

theorem forall_mem_orElse {α : Type*} {P : α → Prop} {x y : Option α} (hx : ∀ r ∈ x, P r)
    (hy : ∀ r ∈ y, P r) : ∀ r ∈ x <|> y, P r := by
  cases x with
  | none => simpa using hy
  | some r => simpa using hx

/-- What every rule has, the first of them has too. -/
theorem bvaddRule_cases {P : AddRule → Prop} {B : ℕ} {a b : Bvexpr}
    (hconstant : ∀ r ∈ bvaddConstant B a b, P r) (hpointer : ∀ V, ∀ r ∈ bvaddPointer B V a b, P r)
    (hext : ∀ V, ∀ r ∈ bvaddPointerExt B V a b, P r) (hbase : ∀ r ∈ bvaddPointerBase B 8 a b, P r)
    (hright : ∀ r ∈ bvaddPullExtract B a b, P r) (hleft : ∀ r ∈ bvaddPullExtract B b a, P r)
    (hnode : P (.done (.bvbinary .bvaddition B a b))) : P (bvaddRule B a b) := by
  have h := forall_mem_orElse hconstant (forall_mem_orElse (hpointer 8) (forall_mem_orElse (hpointer 32)
    (forall_mem_orElse (hext 8) (forall_mem_orElse (hext 32) (forall_mem_orElse hbase
      (forall_mem_orElse hright hleft))))))
  rcases Option.getD_eq_iff.mp (Eq.refl (bvaddRule B a b)) with hr | ⟨-, hr⟩
  · exact h _ hr
  · exact hr ▸ hnode

theorem bvaddRule_smaller (B : ℕ) (a b : Bvexpr) : (bvaddRule B a b).Smaller B a b := by
  refine bvaddRule_cases (fun r => bvaddConstant_smaller) (fun V r => bvaddPointer_smaller)
    (fun V r => bvaddPointerExt_smaller) (fun r => bvaddPointerBase_smaller)
    (fun r => bvaddPullExtract_smaller) (fun r h => ?_) (Nat.zero_le _)
  exact (bvaddPullExtract_smaller h).symm

/-- `expr::bvadd<B>`. -/
def bvadd (B : ℕ) (a b : Bvexpr) : Bvexpr :=
  match h : bvaddRule B a b with
  | .done e => e
  | .pointer V array x y => .pointer B V array (bvadd B x y)
  | .pointerExt V array x y x' y' => .pointerExt (B - 32) V 32 array (bvadd (B - 32) x y) (bvadd 32 x' y')
  | .pointerBase V array shift x y => .pointerBase B V array shift (bvadd B x y)
  | .pullExtract x y => extract (B + 32 - 1) 32 (B + 32) (bvadd (B + 32) x y)
  termination_by (a.pointers + b.pointers, 65 - B)
  decreasing_by
    all_goals
      have hsmaller := bvaddRule_smaller B a b
      rw [h] at hsmaller
    · exact .left _ _ hsmaller
    · exact .left _ _ hsmaller.1
    · exact .left _ _ hsmaller.2
    · exact .left _ _ hsmaller
    · obtain ⟨hle, hB⟩ := hsmaller
      exact Prod.Lex.right' _ hle (by omega)

theorem bvadd_done {B : ℕ} {a b e : Bvexpr} (h : bvaddRule B a b = .done e) : bvadd B a b = e := by
  unfold bvadd
  split <;> simp_all

theorem bvadd_pointerExt {B V : ℕ} {a b x y x' y' : Bvexpr} {array : String}
    (h : bvaddRule B a b = .pointerExt V array x y x' y') :
    bvadd B a b = .pointerExt (B - 32) V 32 array (bvadd (B - 32) x y) (bvadd 32 x' y') := by
  conv_lhs => unfold bvadd
  split <;> simp_all

theorem bvadd_pointerBase {B V s : ℕ} {a b x y : Bvexpr} {array : String}
    (h : bvaddRule B a b = .pointerBase V array s x y) :
    bvadd B a b = .pointerBase B V array s (bvadd B x y) := by
  conv_lhs => unfold bvadd
  split <;> simp_all

theorem bvadd_pullExtract {B : ℕ} {a b x y : Bvexpr} (h : bvaddRule B a b = .pullExtract x y) :
    bvadd B a b = extract (B + 32 - 1) 32 (B + 32) (bvadd (B + 32) x y) := by
  conv_lhs => unfold bvadd
  split <;> simp_all

/-- No pointer comes into a sum that was not in the operands. -/
theorem pointers_bvadd {B : ℕ} {a b : Bvexpr} (ha : a.pointers = 0) (hb : b.pointers = 0) :
    (bvadd B a b).pointers = 0 := by
  have hsmaller := bvaddRule_smaller B a b
  fun_induction bvadd B a b with
  | case1 B a b e h =>
    rw [h, AddRule.Smaller] at hsmaller
    omega
  | case2 B a b V array x y h | case4 B a b V array s x y h =>
    rw [h, AddRule.Smaller] at hsmaller
    omega
  | case3 B a b V array x y x' y' h =>
    rw [h, AddRule.Smaller] at hsmaller
    omega
  | case5 B a b x y h ih =>
    rw [h, AddRule.Smaller] at hsmaller
    have ih := ih (by omega) (by omega) (bvaddRule_smaller _ x y)
    have hextract := pointers_extract (B + 32 - 1) 32 (B + 32) (bvadd (B + 32) x y)
    omega

/-! ### Subtraction -/

/-- `h::BVSubConstant`; the difference of two constants has 64 bits. -/
def bvsubConstant (B : ℕ) (a b : Bvexpr) : Option Bvexpr :=
  if 64 < B then none
  else match castConstant B a, castConstant B b with
  | some va, some vb => some (constant B ((va + 2 ^ 64 - vb) % 2 ^ 64))
  | _, cb => if cb = some 0 then some a else none

/-- `expr::bvsub<B>`, with `h::BVSubPointer`. -/
def bvsub (B : ℕ) (a b : Bvexpr) : Bvexpr :=
  (bvsubConstant B a b).getD
    (match a with
    | .pointer A V array offset =>
      if A = B ∧ (V = 8 ∨ V = 32) then
        match castPtr B V b with
        | some (_, offset') => bvsub B offset offset'
        | none => .pointer B V array (bvsub B offset b)
      else .bvbinary .bvsubstraction B (.pointer A V array offset) b
    | a => .bvbinary .bvsubstraction B a b)

/-! ### Comparisons -/

/-- `expr::bvcomp<B>` of a constant 0 and an expression. -/
def bvcompZero (B : ℕ) (left : Bool) : Bvexpr → Bvexpr
  | .bitvector B' v => if B' = B ∧ v = 0 then constant 1 1 else constant 1 0
  | .pointer A V array offset =>
    if A = B ∧ V = 8 then constant 1 0 else bvcompNode (.pointer A V array offset)
  | .pointerBase A V array shift offset =>
    if A = B ∧ V = 8 then constant 1 0 else bvcompNode (.pointerBase A V array shift offset)
  | .bvbinary .bvoring B' a b =>
    if B' = B then bvand 1 (bvcompZero B left a) (bvcompZero B left b)
    else bvcompNode (.bvbinary .bvoring B' a b)
  | e => bvcompNode e
where
  /-- The constant is on the left or on the right. -/
  bvcompNode (e : Bvexpr) : Bvexpr :=
    if left then .bvbinary .bvcomparison B (constant B 0) e else .bvbinary .bvcomparison B e (constant B 0)

/-- `expr::bvcomp<B>`. -/
def bvcomp (B : ℕ) (a b : Bvexpr) : Bvexpr :=
  match castConstant B a, castConstant B b with
  | some va, some vb => if va = vb then constant 1 1 else constant 1 0
  | some 0, none => bvcompZero B true b
  | none, some 0 => bvcompZero B false a
  | _, _ => .bvbinary .bvcomparison B a b

/-- `expr::bvult<B>` against a constant `b`, with `h::BVULTConcatConstant<B,19>` and `<B,31>`. -/
def bvultConstant (B : ℕ) : Bvexpr → ℕ → Lexpr
  | .bitvector B' va, vb =>
    if B' = B then .boolean (decide (va < vb))
    else .comparison .bvult B (.bitvector B' va) (constant B vb)
  | .concatenation X Y (.bitvector X' ba) cb, vb =>
    if (X + Y = B ∧ X' = X) ∧ concatConstantRange B X then
      if ba < vb >>> Y then .boolean true
      else if vb >>> Y < ba then .boolean false
      else bvultConstant Y cb (vb % 2 ^ Y)
    else .comparison .bvult B (.concatenation X Y (.bitvector X' ba) cb) (constant B vb)
  | a, vb => .comparison .bvult B a (constant B vb)

/-- `expr::bvult<B>`. -/
def bvult (B : ℕ) (a b : Bvexpr) : Lexpr :=
  match castConstant B b with
  | some vb => bvultConstant B a vb
  | none => .comparison .bvult B a b

/-- `expr::bvugt<B>`. -/
def bvugt (B : ℕ) (a b : Bvexpr) : Lexpr :=
  match castConstant B a, castConstant B b with
  | some va, some vb => .boolean (decide (vb < va))
  | _, _ => .comparison .bvugt B a b

/-- `expr::eq<B>`. -/
def eq [PastEnd] (B : ℕ) (a b : Bvexpr) : Lexpr :=
  if a.equal b then .boolean true else .comparison .equality B a b

/-! ### Connectives -/

/-- `lexpr::t_lor`. -/
def Lexpr.tLor : Lexpr → Lexpr → Option Lexpr
  | .boolean value, o => some (if value then .boolean value else o)
  | _, _ => none

/-- `lexpr::t_land`. -/
def Lexpr.tLand : Lexpr → Lexpr → Option Lexpr
  | .boolean value, o => some (if value then o else .boolean value)
  | _, _ => none

/-- `expr::lor`. -/
def lor (a b : Lexpr) : Lexpr := (a.tLor b <|> b.tLor a).getD (.lbinary .loring a b)

/-- `expr::land`. -/
def land (a b : Lexpr) : Lexpr := (a.tLand b <|> b.tLand a).getD (.lbinary .landing a b)

/-- `expr::ite` of two Boolean expressions. -/
def Lexpr.ite (l a b : Lexpr) : Lexpr :=
  match l with
  | .boolean value => bif value then a else b
  | l => .ifthenelse l a b

/-- `expr::ite` of two bit-vectors. -/
def Bvexpr.ite (B : ℕ) (l : Lexpr) (a b : Bvexpr) : Bvexpr :=
  match l with
  | .boolean value => bif value then a else b
  | l => .ifthenelse B l a b

/-- `expr::ite` of two arrays. -/
def Bvarray.ite (A V : ℕ) (l : Lexpr) (a b : Bvarray) : Bvarray :=
  match l with
  | .boolean value => bif value then a else b
  | l => .ifthenelse A V l a b

/-! ### Addition is sound -/

/-- A pointer, or what the constructors would find a pointer in. -/
def Bvexpr.overPointer : Bvexpr → Bool
  | .pointer _ _ _ _ | .pointerExt _ _ _ _ _ _ | .pointerBase _ _ _ _ _ => true
  | .extraction _ _ _ e => e.overPointer
  | .bvbinary .bvoring _ a b => a.overPointer || b.overPointer
  | _ => false

/-- An extended pointer or the base of one, or what an addition finds one in. -/
def Bvexpr.extPointer : Bvexpr → Bool
  | .pointerExt _ _ _ _ _ _ | .pointerBase _ _ _ _ _ => true
  | .pointer _ _ _ offset => offset.extPointer
  | .extraction _ _ _ e => e.extPointer
  | _ => false

/-- A pointer, or an inclusive or of what may be one. -/
def Bvexpr.orsPointer : Bvexpr → Bool
  | .pointer _ _ _ _ | .pointerExt _ _ _ _ _ _ | .pointerBase _ _ _ _ _ => true
  | .bvbinary .bvoring _ a b => a.orsPointer || b.orsPointer
  | _ => false

/-- It ends in a constant. -/
def Bvexpr.endsConstant : Bvexpr → Bool
  | .bitvector _ _ => true
  | .concatenation _ _ _ b => b.endsConstant
  | _ => false

variable {B : ℕ} {a b e : Bvexpr} {env : Env}

theorem endsConstant_concatConstant (A va B : ℕ) (h : b.endsConstant = true) :
    (concatConstant A va B b).endsConstant = true := by
  fun_induction concatConstant A va B b with
  | case1 | case2 => rfl
  | case3 A va B X Y X' vx b _ ih => exact ih h
  | case4 => exact h
  | case5 | case6 => cases h
  | case7 A va B b =>
    cases b with
    | bitvector | concatenation => exact h
    | _ => cases h

theorem concatPointer_endsConstant {A : ℕ} (h : b.endsConstant = true) : concatPointer A B a b = none := by
  cases b with
  | bitvector | concatenation => rfl
  | _ => exact nomatch h

theorem endsConstant_concat (A B : ℕ) (a : Bvexpr) (h : b.endsConstant = true) :
    (concat A B a b).endsConstant = true := by
  fun_induction concat A B a b with
  | case1 B A va b => exact endsConstant_concatConstant A va B h
  | case2 => exact h
  | case3 A B b X Y a₁ a₂ ih₂ ih₁ =>
    rw [concatPointer_endsConstant h, Option.getD_none]
    split_ifs
    · exact ih₁ (ih₂ h)
    · exact h
  | case4 A B a b =>
    rw [concatPointer_endsConstant h]
    exact h

theorem isPointer_endsConstant (h : e.endsConstant = true) : e.isPointer = false := by
  cases e with
  | bitvector | concatenation => rfl
  | _ => exact nomatch h

theorem extPointer_endsConstant (h : e.endsConstant = true) : e.extPointer = false := by
  cases e with
  | bitvector | concatenation => rfl
  | _ => exact nomatch h

theorem isPointer_of_overPointer (h : e.overPointer = false) : e.isPointer = false := by
  cases e with
  | pointer | pointerExt | pointerBase => exact nomatch h
  | _ => rfl

theorem isPointer_of_orsPointer (h : e.orsPointer = false) : e.isPointer = false := by
  cases e with
  | pointer | pointerExt | pointerBase => exact nomatch h
  | _ => rfl

theorem orsPointer_of_overPointer (h : e.overPointer = false) : e.orsPointer = false := by
  fun_induction Bvexpr.orsPointer e with
  | case1 | case2 | case3 => exact nomatch h
  | case4 B a b iha ihb =>
    obtain ⟨ha, hb⟩ := Bool.or_eq_false_iff.mp h
    rw [iha ha, ihb hb]
    rfl
  | case5 => rfl

theorem castPtr_none {A V : ℕ} (h : e.isPointer = false) : castPtr A V e = none := by
  cases e with
  | pointer => exact nomatch h
  | _ => rfl

theorem castPtrExt_none {A V E : ℕ} (h : e.isPointer = false) : castPtrExt A V E e = none := by
  cases e with
  | pointerExt => exact nomatch h
  | _ => rfl

theorem extPointer_of_pointers (h : e.pointers = 0) : e.extPointer = false := by
  fun_induction Bvexpr.extPointer e with
  | case1 | case2 | case3 => simp [Bvexpr.pointers] at h
  | case4 _ _ _ e ih => exact ih h
  | case5 => rfl

theorem extPointer_of_overPointer (h : e.overPointer = false) : e.extPointer = false := by
  fun_induction Bvexpr.extPointer e with
  | case1 | case2 | case3 => exact nomatch h
  | case4 _ _ _ e ih => exact ih h
  | case5 => rfl

/-- What has to be added according to a rule makes up the sum of the operands. -/
def AddRule.Sound (B : ℕ) (a b : Bvexpr) : AddRule → Prop
  | .done e => Computes B (fun env => (a.eval env + b.eval env) % 2 ^ B) e
  | .pointer V array x y =>
    ((Typed B x ∧ Typed B y) ∧ x.extPointer = false ∧ y.extPointer = false) ∧
      ∀ env, (env.base array B V + (x.eval env + y.eval env) % 2 ^ B) % 2 ^ B = (a.eval env + b.eval env) % 2 ^ B
  | .pullExtract x y =>
    (0 < B ∧ (Typed (B + 32) x ∧ Typed (B + 32) y) ∧ x.extPointer = false ∧ y.extPointer = false) ∧
      ∀ env, slice 32 B ((x.eval env + y.eval env) % 2 ^ (B + 32)) = (a.eval env + b.eval env) % 2 ^ B
  | _ => False

theorem AddRule.Sound.symm {r : AddRule} (h : r.Sound B a b) : r.Sound B b a := by
  cases r with
  | done e => exact Computes.congr h fun env => by rw [Nat.add_comm]
  | pointer V array x y => exact ⟨h.1, fun env => by rw [h.2, Nat.add_comm]⟩
  | pullExtract x y => exact ⟨h.1, fun env => by rw [h.2, Nat.add_comm]⟩
  | _ => exact h

theorem bvaddConstant_sound (ha : Typed B a) (hb : Typed B b) :
    ∀ r ∈ bvaddConstant B a b, r.Sound B a b := by
  intro r h
  rw [Option.mem_def] at h
  unfold bvaddConstant at h
  split_ifs at h
  split at h
  · next va vb hva hvb =>
    obtain rfl := Option.some.inj h
    refine ⟨typed_constant _ _, fun env => ?_⟩
    rw [(castConstant_typed hva ha).2, (castConstant_typed hvb hb).2, constant_eval]
  · split_ifs at h with hca hcb
    · obtain rfl := Option.some.inj h
      refine hb.computes.congr fun env => ?_
      rw [(castConstant_typed hca ha).2, Nat.zero_add, Nat.mod_eq_of_lt (hb.eval_lt env)]
    · obtain rfl := Option.some.inj h
      refine ha.computes.congr fun env => ?_
      rw [(castConstant_typed hcb hb).2, Nat.add_zero, Nat.mod_eq_of_lt (ha.eval_lt env)]

theorem bvaddPointer_sound {V : ℕ} (ha : Typed B a) (hb : Typed B b) (hpa : a.extPointer = false)
    (hpb : b.extPointer = false) : ∀ r ∈ bvaddPointer B V a b, r.Sound B a b := by
  intro r h
  rw [Option.mem_def] at h
  unfold bvaddPointer at h
  split at h
  · next array offset hca _ =>
    obtain rfl := Option.some.inj h
    obtain rfl := castPtr_eq_some hca
    refine ⟨⟨⟨ha.1, hb⟩, hpa, hpb⟩, fun env => ?_⟩
    rw [Bvexpr.eval, Nat.add_mod_mod, Nat.mod_add_mod, Nat.add_assoc]
  · next array offset _ hcb =>
    obtain rfl := Option.some.inj h
    obtain rfl := castPtr_eq_some hcb
    refine ⟨⟨⟨ha, hb.1⟩, hpa, hpb⟩, fun env => ?_⟩
    rw [Bvexpr.eval, Nat.add_mod_mod, Nat.add_mod_mod, Nat.add_left_comm]
  · exact nomatch h

theorem bvaddPullExtract_sound (ha : Typed B a) (hb : Typed B b) (hpb : b.extPointer = false) :
    ∀ r ∈ bvaddPullExtract B a b, r.Sound B a b := by
  intro r h
  cases b with
  | extraction S E B' e =>
    rw [Option.mem_def, bvaddPullExtract] at h
    split_ifs at h with hB
    obtain rfl := Option.some.inj h
    obtain ⟨⟨rfl, rfl, rfl⟩, -⟩ := hB
    obtain ⟨he, hES, hS⟩ := typed_extraction.mp hb
    have hconcat := concat_computes ha (typed_constant 32 0)
    refine ⟨⟨by omega, ⟨hconcat.typed, he⟩, ?_, hpb⟩, fun env => ?_⟩
    · exact extPointer_endsConstant (endsConstant_concat _ _ _ rfl)
    · rw [hconcat.eval, constant_eval, Nat.zero_mod, slice_glue_add, Bvexpr.eval, hS, slice]
  | _ => cases h

theorem castPtrExt_none_of_extPointer {A V E : ℕ} (h : e.extPointer = false) : castPtrExt A V E e = none := by
  cases e with
  | pointerExt => exact nomatch h
  | _ => rfl

theorem castPtrBase_none {A V : ℕ} (h : e.extPointer = false) : castPtrBase A V e = none := by
  cases e with
  | pointerBase => exact nomatch h
  | _ => rfl

theorem bvaddRule_sound (ha : Typed B a) (hb : Typed B b) (hpa : a.extPointer = false)
    (hpb : b.extPointer = false) : (bvaddRule B a b).Sound B a b := by
  have hnone : ∀ {r : AddRule} {o : Option AddRule}, o = none → r ∈ o → r.Sound B a b := by
    rintro r _ rfl h
    exact nomatch h
  refine bvaddRule_cases (bvaddConstant_sound ha hb) (fun V => bvaddPointer_sound ha hb hpa hpb)
    (fun V r => hnone ?_) (fun r => hnone ?_) (bvaddPullExtract_sound ha hb hpb)
    (fun r h => (bvaddPullExtract_sound hb ha hpa r h).symm) ⟨⟨⟨ha, hb⟩, rfl⟩, fun env => rfl⟩
  · rw [bvaddPointerExt, castPtrExt_none_of_extPointer hpa, castPtrExt_none_of_extPointer hpb]
    exact ite_self none
  · rw [bvaddPointerBase, castPtrBase_none hpa, castPtrBase_none hpb]
    exact ite_self none

/-- **`bvadd` adds.** -/
theorem bvadd_computes (ha : Typed B a) (hb : Typed B b) (hpa : a.extPointer = false)
    (hpb : b.extPointer = false) :
    Computes B (fun env => (a.eval env + b.eval env) % 2 ^ B) (bvadd B a b) := by
  have hsound := bvaddRule_sound ha hb hpa hpb
  fun_induction bvadd B a b with
  | case1 B a b e h =>
    rw [h] at hsound
    exact hsound
  | case2 B a b V array x y h ih =>
    rw [h] at hsound
    obtain ⟨⟨⟨hx, hy⟩, hpx, hpy⟩, hsum⟩ := hsound
    have ih := ih hx hy hpx hpy (bvaddRule_sound hx hy hpx hpy)
    refine ⟨⟨ih.typed, rfl⟩, fun env => ?_⟩
    rw [Bvexpr.eval, ih.eval, hsum]
  | case3 B a b V array x y x' y' h | case4 B a b V array s x y h =>
    rw [h] at hsound
    exact hsound.elim
  | case5 B a b x y h ih =>
    rw [h] at hsound
    obtain ⟨⟨hB, ⟨hx, hy⟩, hpx, hpy⟩, hsum⟩ := hsound
    have ih := ih hx hy hpx hpy (bvaddRule_sound hx hy hpx hpy)
    have hextract := extract_front ih.typed (E := 32) (by omega)
    rw [Nat.add_sub_cancel] at hextract
    exact hextract.congr fun env => by rw [ih.eval, hsum]

/-! ### Subtraction is sound -/

theorem mod_sub_mod {va vb : ℕ} (hB : B ≤ 64) (hvb : vb < 2 ^ B) :
    (va + 2 ^ 64 - vb) % 2 ^ 64 % 2 ^ B = (va + 2 ^ B - vb) % 2 ^ B := by
  obtain ⟨k, hk⟩ : ∃ k, 64 = B + k := ⟨64 - B, by omega⟩
  obtain ⟨c, hc⟩ : ∃ c, 2 ^ k = c + 1 := ⟨2 ^ k - 1, (Nat.sub_add_cancel Nat.one_le_two_pow).symm⟩
  have hpow : 2 ^ 64 = 2 ^ B + 2 ^ B * c := by rw [hk, Nat.pow_add, hc, Nat.mul_add, Nat.mul_one, Nat.add_comm]
  rw [Nat.mod_mod_of_dvd _ (Nat.pow_dvd_pow 2 hB), hpow, ← Nat.add_assoc,
    Nat.sub_add_comm (by omega), Nat.add_mul_mod_self_left]

theorem bvsubConstant_computes {r : Bvexpr} (ha : Typed B a) (hb : Typed B b) (h : bvsubConstant B a b = some r) :
    Computes B (fun env => (a.eval env + 2 ^ B - b.eval env) % 2 ^ B) r := by
  unfold bvsubConstant at h
  split_ifs at h with hB
  split at h
  · next va vb hva hvb =>
    obtain rfl := Option.some.inj h
    obtain ⟨rfl, hvb⟩ := castConstant_typed hvb hb
    refine ⟨typed_constant _ _, fun env => ?_⟩
    rw [(castConstant_typed hva ha).2, hvb, constant_eval, mod_sub_mod (by omega) hb.1]
  · split_ifs at h with hcb
    obtain rfl := Option.some.inj h
    refine ha.computes.congr fun env => ?_
    rw [(castConstant_typed hcb hb).2, Nat.sub_zero, Nat.add_mod_right, Nat.mod_eq_of_lt (ha.eval_lt env)]

theorem bvsubstraction_computes (ha : Typed B a) (hb : Typed B b) :
    Computes B (fun env => (a.eval env + 2 ^ B - b.eval env) % 2 ^ B) (.bvbinary .bvsubstraction B a b) := by
  refine ⟨⟨⟨ha, hb⟩, rfl⟩, fun env => ?_⟩
  have hlt := hb.eval_lt env
  rw [Bvexpr.eval, BvOp.eval, Nat.mod_eq_of_lt hlt, Nat.add_sub_assoc hlt.le]

/-- **`bvsub` subtracts.** -/
theorem bvsub_computes (ha : Typed B a) (hb : Typed B b) (hpa : a.isPointer = false) :
    Computes B (fun env => (a.eval env + 2 ^ B - b.eval env) % 2 ^ B) (bvsub B a b) := by
  unfold bvsub
  cases h : bvsubConstant B a b with
  | some r => exact bvsubConstant_computes ha hb h
  | none =>
    cases a with
    | pointer => exact nomatch hpa
    | _ => exact bvsubstraction_computes ha hb

/-! ### Comparisons are sound -/

theorem andKept_one (a b : Bvexpr) : AndKept env 1 a b := by
  have hmask : ∀ {ranges m e}, MaskKept env ranges 1 m e := by
    intro ranges m e
    cases e with
    | concatenation X Y e₁ e₂ =>
      intro _ _ h
      simp only [bvandPullConcat, Bool.and_eq_true, Bool.or_eq_true, beq_iff_eq, decide_eq_true_eq] at h
      omega
    | _ => exact trivial
  unfold AndKept
  split
  · exact hmask
  · exact hmask
  · exact trivial

/-- Of single bits, `bvand` is always right. -/
theorem bvand_one_computes (ha : Typed 1 a) (hb : Typed 1 b) :
    Computes 1 (fun env => a.eval env &&& b.eval env) (bvand 1 a b) :=
  ⟨bvand_typed ha hb, fun _ => (bvand_spec ha hb).2.mpr (andKept_one a b)⟩

/-- What `bvcomp` takes for the address of a byte, which is never 0. -/
def Bvexpr.byteAddress (B : ℕ) : Bvexpr → Bool
  | .pointer A V _ _ | .pointerBase A V _ _ _ => A == B && V == 8
  | .bvbinary .bvoring B' a b => B' == B && (a.byteAddress B || b.byteAddress B)
  | _ => false

theorem byteAddress_of_orsPointer (h : e.orsPointer = false) : e.byteAddress B = false := by
  fun_induction Bvexpr.byteAddress B e with
  | case1 | case2 => exact nomatch h
  | case3 B' a b iha ihb =>
    obtain ⟨ha, hb⟩ := Bool.or_eq_false_iff.mp h
    rw [iha ha, ihb hb, Bool.or_self, Bool.and_false]
  | case4 => rfl

theorem or_byteAddress {x y : ℕ} {p q : Bool} :
    (if x = 0 ∧ p = false then 1 else 0) &&& (if y = 0 ∧ q = false then 1 else 0) =
      if x ||| y = 0 ∧ (p || q) = false then 1 else 0 := by
  simp only [Nat.or_eq_zero_iff, Bool.or_eq_false_iff]
  split_ifs <;> simp_all

/-- **`bvcomp` with 0 compares**, but for addresses of bytes. -/
theorem bvcompZero_computes {left : Bool} (he : Typed B e) :
    Computes 1 (fun env => if e.eval env = 0 ∧ e.byteAddress B = false then 1 else 0) (bvcompZero B left e) := by
  have hnode : ∀ {e}, Typed B e → e.byteAddress B = false →
      Computes 1 (fun env => if e.eval env = 0 ∧ e.byteAddress B = false then 1 else 0)
        (bvcompZero.bvcompNode B left e) := by
    intro e he hp
    simp only [hp, and_true]
    unfold bvcompZero.bvcompNode
    split_ifs
    · refine ⟨⟨⟨typed_constant B 0, he⟩, rfl⟩, fun env => ?_⟩
      rw [Bvexpr.eval, BvOp.eval, constant_eval, Nat.zero_mod]
      exact if_congr eq_comm rfl rfl
    · refine ⟨⟨⟨he, typed_constant B 0⟩, rfl⟩, fun env => ?_⟩
      rw [Bvexpr.eval, BvOp.eval, constant_eval, Nat.zero_mod]
  have hbyte : ∀ {A V : ℕ}, A = B ∧ V = 8 → (A == B && V == 8) = true := by simp
  have hnot : ∀ {A V : ℕ}, ¬(A = B ∧ V = 8) → (A == B && V == 8) = false := by simp
  fun_induction bvcompZero B left e with
  | case1 B' v h =>
    obtain ⟨rfl, rfl⟩ := h
    refine (computes_constant (by decide)).congr fun env => ?_
    rw [Bvexpr.eval, Nat.zero_mod, if_pos ⟨rfl, rfl⟩]
  | case2 B' v h =>
    have hv : v ≠ 0 := fun hv => h ⟨he.2, hv⟩
    refine (computes_constant (by decide)).congr fun env => ?_
    rw [Bvexpr.eval, Nat.mod_eq_of_lt he.1, if_neg fun h => hv h.1]
  | case3 A V array offset h | case5 A V array shift offset h =>
    refine (computes_constant (by decide)).congr fun env => ?_
    rw [Bvexpr.byteAddress, hbyte h, if_neg fun h => by cases h.2]
  | case4 A V array offset h | case6 A V array shift offset h => exact hnode he (hnot h)
  | case7 a b iha ihb =>
    have ha : Typed B a := he.1.1
    have hb : Typed B b := he.1.2
    have iha := iha ha
    have ihb := ihb hb
    refine (bvand_one_computes iha.typed ihb.typed).congr fun env => ?_
    rw [iha.eval, ihb.eval, or_byteAddress, Bvexpr.eval, BvOp.eval,
      Nat.mod_eq_of_lt (Nat.or_lt_two_pow (ha.eval_lt env) (hb.eval_lt env)), Bvexpr.byteAddress, beq_self_eq_true,
      Bool.true_and]
  | case8 B' a b hB => exact absurd he.2 hB
  | case9 => exact hnode he (by simp_all [Bvexpr.byteAddress])

/-- **`bvcomp` compares.** -/
theorem bvcomp_computes (ha : Typed B a) (hb : Typed B b) (hpa : a.orsPointer = false)
    (hpb : b.orsPointer = false) :
    Computes 1 (fun env => if a.eval env = b.eval env then 1 else 0) (bvcomp B a b) := by
  have hnode : Computes 1 (fun env => if a.eval env = b.eval env then 1 else 0)
      (.bvbinary .bvcomparison B a b) := ⟨⟨⟨ha, hb⟩, rfl⟩, fun env => rfl⟩
  unfold bvcomp
  split
  · next va vb hva hvb =>
    have hif : ∀ env, (if a.eval env = b.eval env then 1 else 0) = if va = vb then 1 else 0 := by
      intro env
      rw [(castConstant_typed hva ha).2, (castConstant_typed hvb hb).2]
    split_ifs with h
    · exact (computes_constant (by decide)).congr fun env => by rw [hif, if_pos h]
    · exact (computes_constant (by decide)).congr fun env => by rw [hif, if_neg h]
  · next hca _ =>
    refine (bvcompZero_computes hb).congr fun env => ?_
    rw [(castConstant_typed hca ha).2, byteAddress_of_orsPointer hpb]
    exact if_congr ((and_iff_left rfl).trans eq_comm) rfl rfl
  · next _ hcb =>
    refine (bvcompZero_computes ha).congr fun env => ?_
    rw [(castConstant_typed hcb hb).2, byteAddress_of_orsPointer hpa]
    exact if_congr (and_iff_left rfl) rfl rfl
  · exact hnode

/-- A Boolean expression with a value that depends on the environment. -/
structure Decides (f : Env → Bool) (l : Lexpr) : Prop where
  wf : l.WF
  eval : ∀ env, l.eval env = f env

variable {l l' : Lexpr} {f g : Env → Bool}

theorem Decides.congr (h : Decides f l) (hfg : ∀ env, f env = g env) : Decides g l :=
  ⟨h.wf, fun env => (h.eval env).trans (hfg env)⟩

theorem decides_boolean (v : Bool) : Decides (fun _ => v) (.boolean v) := ⟨trivial, fun _ => rfl⟩

theorem decides_comparison (c : Cmp) (ha : Typed B a) (hb : Typed B b) :
    Decides (fun env => c.eval (a.eval env) (b.eval env)) (.comparison c B a b) :=
  ⟨⟨ha, hb⟩, fun _ => rfl⟩

/-- Less than a constant, or not. -/
theorem bvultConstant_decides {vb : ℕ} (ha : Typed B a) (hvb : vb < 2 ^ B) :
    Decides (fun env => decide (a.eval env < vb)) (bvultConstant B a vb) := by
  have hnode : ∀ {B a vb}, Typed B a → vb < 2 ^ B →
      Decides (fun env => decide (a.eval env < vb)) (.comparison .bvult B a (constant B vb)) :=
    fun ha hvb => (decides_comparison .bvult ha (typed_constant _ _)).congr fun env => by
      rw [constant_eval, Nat.mod_eq_of_lt hvb]
      rfl
  fun_induction bvultConstant B a vb with
  | case1 B va vb =>
    refine (decides_boolean _).congr fun env => ?_
    rw [Bvexpr.eval, Nat.mod_eq_of_lt ha.1]
  | case2 => exact hnode ha hvb
  | case3 B X Y X' ba cb vb hrange hlt =>
    -- the high part of the constant is larger
    obtain ⟨⟨rfl, rfl⟩, -⟩ := hrange
    refine (decides_boolean _).congr fun env => (decide_eq_true ?_).symm
    have hiff := le_concatenation_iff env vb ha.1
    omega
  | case4 B X Y X' ba cb vb hrange hge hlt =>
    -- the high part of the constant is smaller
    obtain ⟨⟨rfl, rfl⟩, -⟩ := hrange
    refine (decides_boolean _).congr fun env => (decide_eq_false ?_).symm
    have hiff := le_concatenation_iff env vb ha.1
    omega
  | case5 B X Y X' ba cb vb hrange hge hle ih =>
    -- the high parts agree
    obtain ⟨⟨rfl, rfl⟩, -⟩ := hrange
    refine (ih (typed_concatenation.mp ha).1.2 (Nat.mod_lt _ (Nat.two_pow_pos Y))).congr fun env => ?_
    have hiff := le_concatenation_iff env vb ha.1
    exact decide_eq_decide.mpr (by omega)
  | case6 | case7 => exact hnode ha hvb

/-- **`bvult` compares.** -/
theorem bvult_decides (ha : Typed B a) (hb : Typed B b) :
    Decides (fun env => decide (a.eval env < b.eval env)) (bvult B a b) := by
  unfold bvult
  split
  · next vb h =>
    obtain ⟨rfl, hvb⟩ := castConstant_typed h hb
    refine (bvultConstant_decides ha hb.1).congr fun env => ?_
    rw [hvb]
  · exact decides_comparison .bvult ha hb

/-- **`bvuge` compares.** -/
theorem bvuge_decides (ha : Typed B a) (hb : Typed B b) :
    Decides (fun env => decide (b.eval env ≤ a.eval env)) (bvuge B a b) :=
  ⟨bvuge_wf ha hb, fun env => bvuge_eval env ha hb⟩

/-- **`bvule` compares.** -/
theorem bvule_decides (ha : Typed B a) (hb : Typed B b) :
    Decides (fun env => decide (a.eval env ≤ b.eval env)) (bvule B a b) := by
  refine ⟨?_, fun env => bvule_eval env ha.1 hb.1⟩
  unfold bvule
  split
  · exact trivial
  · exact ⟨ha, hb⟩

/-- **`bvugt` compares.** -/
theorem bvugt_decides (ha : Typed B a) (hb : Typed B b) :
    Decides (fun env => decide (b.eval env < a.eval env)) (bvugt B a b) := by
  unfold bvugt
  split
  · next va vb hva hvb =>
    refine (decides_boolean _).congr fun env => ?_
    rw [(castConstant_typed hva ha).2, (castConstant_typed hvb hb).2]
  · exact decides_comparison .bvugt ha hb

/-- **`eq` compares**, if the operands do not only look the same. -/
theorem eq_decides [PastEnd] (ha : Typed B a) (hb : Typed B b)
    (h : ∀ env, a.equal b = true → a.eval env = b.eval env) :
    Decides (fun env => a.eval env == b.eval env) (eq B a b) := by
  unfold eq
  split_ifs with heq
  · exact (decides_boolean true).congr fun env => (beq_iff_eq.mpr (h env heq)).symm
  · exact decides_comparison .equality ha hb

theorem isfalse_decides (h : Decides f l) : Decides (fun env => !f env) (isfalse l) :=
  ⟨isfalse_wf h.wf, fun env => by rw [isfalse_eval env h.wf, h.eval]⟩

/-! ### Connectives are sound -/

theorem lor_decides (h : Decides f l) (h' : Decides g l') :
    Decides (fun env => f env || g env) (lor l l') := by
  have hleft : ∀ {f g l l' r}, Decides f l → Decides g l' → l.tLor l' = some r →
      Decides (fun env => f env || g env) r := by
    intro f g l l' r h h' hr
    cases l with
    | boolean v =>
      obtain rfl := Option.some.inj hr
      have hv : ∀ env, f env = v := fun env => (h.eval env).symm
      cases v with
      | false => exact h'.congr fun env => by simp [hv]
      | true => exact h.congr fun env => by simp [hv]
    | _ => exact nomatch hr
  unfold lor
  cases hr : l.tLor l' with
  | some r => exact hleft h h' hr
  | none =>
    cases hr' : l'.tLor l with
    | some r => exact (hleft h' h hr').congr fun env => Bool.or_comm _ _
    | none => exact ⟨⟨h.wf, h'.wf⟩, fun env => by rw [← h.eval, ← h'.eval]; rfl⟩

theorem land_decides (h : Decides f l) (h' : Decides g l') :
    Decides (fun env => f env && g env) (land l l') := by
  have hleft : ∀ {f g l l' r}, Decides f l → Decides g l' → l.tLand l' = some r →
      Decides (fun env => f env && g env) r := by
    intro f g l l' r h h' hr
    cases l with
    | boolean v =>
      obtain rfl := Option.some.inj hr
      have hv : ∀ env, f env = v := fun env => (h.eval env).symm
      cases v with
      | false => exact h.congr fun env => by simp [hv]
      | true => exact h'.congr fun env => by simp [hv]
    | _ => exact nomatch hr
  unfold land
  cases hr : l.tLand l' with
  | some r => exact hleft h h' hr
  | none =>
    cases hr' : l'.tLand l with
    | some r => exact (hleft h' h hr').congr fun env => Bool.and_comm _ _
    | none => exact ⟨⟨h.wf, h'.wf⟩, fun env => by rw [← h.eval, ← h'.eval]; rfl⟩

theorem Lexpr.ite_eval (l a b : Lexpr) (env : Env) :
    (Lexpr.ite l a b).eval env = bif l.eval env then a.eval env else b.eval env := by
  cases l with
  | boolean v => cases v <;> rfl
  | _ => rfl

theorem Bvexpr.ite_eval (B : ℕ) (l : Lexpr) (a b : Bvexpr) (env : Env) :
    (Bvexpr.ite B l a b).eval env = bif l.eval env then a.eval env else b.eval env := by
  cases l with
  | boolean v => cases v <;> rfl
  | _ => rfl

theorem Bvarray.ite_eval (A V : ℕ) (l : Lexpr) (a b : Bvarray) (env : Env) :
    (Bvarray.ite A V l a b).eval env = bif l.eval env then a.eval env else b.eval env := by
  cases l with
  | boolean v => cases v <;> rfl
  | _ => rfl

/-- **The arithmetic and the predicates preserve meaning**, whatever they are rewritten to. The operands of
`eq` are such that the structural equality is right for them. -/
theorem arithmetic_eval [PastEnd] (env : Env) :
    (∀ B a b, Typed B a → Typed B b → a.overPointer = false → b.overPointer = false →
      (bvadd B a b).eval env = (a.eval env + b.eval env) % 2 ^ B ∧
      (bvsub B a b).eval env = (a.eval env + 2 ^ B - b.eval env) % 2 ^ B ∧
      (bvcomp B a b).eval env = if a.eval env = b.eval env then 1 else 0) ∧
    (∀ B a b, Typed B a → Typed B b →
      (bvult B a b).eval env = decide (a.eval env < b.eval env) ∧
      (bvule B a b).eval env = decide (a.eval env ≤ b.eval env) ∧
      (bvugt B a b).eval env = decide (a.eval env > b.eval env) ∧
      (bvuge B a b).eval env = decide (a.eval env ≥ b.eval env) ∧
      ((a.equal b = true → a.eval env = b.eval env) →
        (eq B a b).eval env = decide (a.eval env = b.eval env))) ∧
    (∀ l l' : Lexpr, l.WF → l'.WF →
      (isfalse l).eval env = !l.eval env ∧
      (land l l').eval env = (l.eval env && l'.eval env) ∧
      (lor l l').eval env = (l.eval env || l'.eval env)) ∧
    (∀ l a b, (Lexpr.ite l a b).eval env = bif l.eval env then a.eval env else b.eval env) ∧
    (∀ B l a b, (Bvexpr.ite B l a b).eval env = bif l.eval env then a.eval env else b.eval env) ∧
    ∀ A V l a b, (Bvarray.ite A V l a b).eval env = bif l.eval env then a.eval env else b.eval env := by
  refine ⟨fun B a b ha hb hpa hpb => ⟨?_, ?_, ?_⟩, fun B a b ha hb => ⟨?_, ?_, ?_, ?_, fun h => ?_⟩,
    fun l l' hl hl' => ⟨?_, ?_, ?_⟩, fun l a b => Lexpr.ite_eval l a b env,
    fun B l a b => Bvexpr.ite_eval B l a b env, fun A V l a b => Bvarray.ite_eval A V l a b env⟩
  · exact (bvadd_computes ha hb (extPointer_of_overPointer hpa) (extPointer_of_overPointer hpb)).eval env
  · exact (bvsub_computes ha hb (isPointer_of_overPointer hpa)).eval env
  · exact (bvcomp_computes ha hb (orsPointer_of_overPointer hpa) (orsPointer_of_overPointer hpb)).eval env
  · exact (bvult_decides ha hb).eval env
  · exact (bvule_decides ha hb).eval env
  · exact (bvugt_decides ha hb).eval env
  · exact (bvuge_decides ha hb).eval env
  · unfold eq
    split_ifs with heq
    · exact (decide_eq_true (h heq)).symm
    · rfl
  · exact isfalse_eval env hl
  · exact (land_decides ⟨hl, fun _ => rfl⟩ ⟨hl', fun _ => rfl⟩).eval env
  · exact (lor_decides ⟨hl, fun _ => rfl⟩ ⟨hl', fun _ => rfl⟩).eval env

/-- An addition to the high word of a difference that wraps around, in 64 bits. -/
theorem arithmetic_eval_pullExtract :
    (bvadd 32 (.bitvector 32 0xffffffff)
      (.extraction 63 32 64 (.bvbinary .bvsubstraction 64 (.bvvariable 64 "x") (.bvvariable 64 "y")))).eval
      (.const 1) = 0xffffffff := by
  let _ : PastEnd := ⟨fun _ => true⟩
  have h := (arithmetic_eval (.const 1)).1 32 (.bitvector 32 0xffffffff)
    (.extraction 63 32 64 (.bvbinary .bvsubstraction 64 (.bvvariable 64 "x") (.bvvariable 64 "y")))
    ⟨show 0xffffffff < 2 ^ 32 by decide, rfl⟩
    ⟨⟨⟨⟨⟨trivial, rfl⟩, trivial, rfl⟩, rfl⟩, by decide⟩, rfl⟩ rfl rfl
  exact h.1

end NfpEstimator
