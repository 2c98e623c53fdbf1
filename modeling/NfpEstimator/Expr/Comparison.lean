import NfpEstimator.Expr.Eval

/-!
# Building comparisons

The functions of `expr.hpp` that build a comparison or negate a Boolean
expression. They fold constants, and an unsigned comparison of a concatenation
with a constant is decided on the constant high part where that part differs.

Each is sound: the expression that it returns has the value of the comparison
that it was asked for.
-/

namespace NfpEstimator

/-! ### The constructors -/

/-- `expr::constant<B>`: a constant, cut to its width. -/
def constant (B value : ℕ) : Bvexpr := .bitvector B (value % 2 ^ B)

/-- `expr::cast::constant<B>`. -/
def castConstant (B : ℕ) : Bvexpr → Option ℕ
  | .bitvector B' value => if B' = B then some value else none
  | _ => none

/-- The template ranges of `BVUGEConcatConstant` and `BVULTConcatConstant`. -/
def concatConstantRange (B X : ℕ) : Bool := X < B && ((B == 64 && X == 31) || (B == 33 && X == 19))

/-- `expr::bvuge<B>` against a constant `b`, with `h::BVUGEConcatConstant<B,19>` and `<B,31>`. -/
def bvugeConstant (B : ℕ) : Bvexpr → ℕ → Lexpr
  | .bitvector B' va, vb =>
    if B' = B then .boolean (decide (vb ≤ va))
    else .comparison .bvuge B (.bitvector B' va) (constant B vb)
  | .concatenation X Y (.bitvector X' ba) cb, vb =>
    if (X + Y = B ∧ X' = X) ∧ concatConstantRange B X then
      if vb >>> Y < ba then .boolean true
      else if ba < vb >>> Y then .boolean false
      else bvugeConstant Y cb (vb % 2 ^ Y)
    else .comparison .bvuge B (.concatenation X Y (.bitvector X' ba) cb) (constant B vb)
  | a, vb => .comparison .bvuge B a (constant B vb)

/-- `expr::bvuge<B>`. -/
def bvuge (B : ℕ) (a b : Bvexpr) : Lexpr :=
  match castConstant B b with
  | some vb => bvugeConstant B a vb
  | none => .comparison .bvuge B a b

/-- `expr::bvule<B>`. -/
def bvule (B : ℕ) (a b : Bvexpr) : Lexpr :=
  match castConstant B a, castConstant B b with
  | some va, some vb => .boolean (decide (va ≤ vb))
  | _, _ => .comparison .bvule B a b

/-- `expr::isfalse`. -/
def isfalse : Lexpr → Lexpr
  | .boolean value => .boolean !value
  | .comparison .bvult B a b =>
    if B = 14 ∨ B = 32 ∨ B = 64 then bvuge B a b else .negation (.comparison .bvult B a b)
  | e => .negation e

/-! ### Soundness -/

theorem constant_wf (B value : ℕ) : (constant B value).WF :=
  Nat.mod_lt _ (Nat.two_pow_pos B)

@[simp] theorem constant_eval (env : Env) (B value : ℕ) :
    (constant B value).eval env = value % 2 ^ B := by
  simp [constant, Bvexpr.eval]

theorem castConstant_eq_some {B v : ℕ} {e : Bvexpr} (h : castConstant B e = some v) :
    e = .bitvector B v := by
  cases e <;> simp only [castConstant, reduceCtorEq] at h
  split at h
  · next hB => simp_all
  · simp at h

/-- The order of two concatenations with a common split is the lexicographic one. -/
theorem le_concat_iff {Y lo cb : ℕ} (hi ba : ℕ) (hlo : lo < 2 ^ Y) (hcb : cb < 2 ^ Y) :
    hi * 2 ^ Y + lo ≤ ba * 2 ^ Y + cb ↔ hi < ba ∨ hi = ba ∧ lo ≤ cb := by
  constructor
  · intro h
    rcases Nat.lt_trichotomy hi ba with hlt | heq | hgt
    · exact .inl hlt
    · subst heq
      exact .inr ⟨rfl, by omega⟩
    · have := Nat.mul_le_mul_right (2 ^ Y) hgt
      rw [Nat.succ_mul] at this
      omega
  · rintro (hlt | ⟨rfl, hle⟩)
    · have := Nat.mul_le_mul_right (2 ^ Y) hlt
      rw [Nat.succ_mul] at this
      omega
    · omega

/-- A constant against a concatenation whose high part is constant too. -/
theorem le_concatenation_iff (env : Env) {X Y ba : ℕ} {cb : Bvexpr} (vb : ℕ)
    (h : (Bvexpr.concatenation X Y (.bitvector X ba) cb).WF) :
    vb ≤ (Bvexpr.concatenation X Y (.bitvector X ba) cb).eval env ↔
      vb >>> Y < ba ∨ vb >>> Y = ba ∧ vb % 2 ^ Y ≤ cb.eval env := by
  obtain ⟨⟨hba, -⟩, hcb, hcbw⟩ := h
  have hcblt : cb.eval env < 2 ^ Y := hcbw ▸ cb.eval_lt env hcb
  have hsplit : vb >>> Y * 2 ^ Y + vb % 2 ^ Y = vb := by
    rw [Nat.shiftRight_eq_div_pow, Nat.div_add_mod']
  have hiff := le_concat_iff (vb >>> Y) ba (Nat.mod_lt vb (Nat.two_pow_pos Y)) hcblt
  rw [hsplit] at hiff
  simp only [Bvexpr.eval, Nat.mod_eq_of_lt hcblt, Nat.mod_eq_of_lt (show ba < 2 ^ X from hba)]
  exact hiff

theorem bvugeConstant_eval (env : Env) (B : ℕ) (a : Bvexpr) (vb : ℕ) (ha : a.WF)
    (hB : a.width = B) (hvb : vb < 2 ^ B) :
    (bvugeConstant B a vb).eval env = decide (vb ≤ a.eval env) := by
  have hnode : ∀ {B vb} (a : Bvexpr), vb < 2 ^ B →
      (Lexpr.comparison .bvuge B a (constant B vb)).eval env = decide (vb ≤ a.eval env) := by
    intro B vb a hvb
    rw [Lexpr.eval, constant_eval, Nat.mod_eq_of_lt hvb]
    rfl
  fun_induction bvugeConstant B a vb with
  | case1 B' va vb =>
    have hva : va < 2 ^ B' := ha
    simp only [Lexpr.eval, Bvexpr.eval, Nat.mod_eq_of_lt hva]
  | case2 B B' va vb hne => exact hnode _ hvb
  | case3 B X Y X' ba cb vb hrange hlt =>
    -- the high part of the constant is smaller
    obtain ⟨⟨rfl, rfl⟩, -⟩ := hrange
    exact (decide_eq_true ((le_concatenation_iff env vb ha).2 (.inl hlt))).symm
  | case4 B X Y X' ba cb vb hrange hge hlt =>
    -- the high part of the constant is larger
    obtain ⟨⟨rfl, rfl⟩, -⟩ := hrange
    refine (decide_eq_false fun h => ?_).symm
    have := (le_concatenation_iff env vb ha).1 h
    omega
  | case5 B X Y X' ba cb vb hrange hge hle ih =>
    -- the high parts agree
    obtain ⟨⟨rfl, rfl⟩, -⟩ := hrange
    rw [ih ha.2.1 ha.2.2 (Nat.mod_lt _ (Nat.two_pow_pos Y))]
    have hiff := le_concatenation_iff env vb ha
    exact decide_eq_decide.2 (by omega)
  | case6 B X Y X' ba cb vb hrange => exact hnode _ hvb
  | case7 B a vb => exact hnode _ hvb

theorem bvuge_eval (env : Env) {B : ℕ} {a b : Bvexpr} (ha : a.WF ∧ a.width = B)
    (hb : b.WF ∧ b.width = B) : (bvuge B a b).eval env = decide (b.eval env ≤ a.eval env) := by
  rw [bvuge]
  split
  · next vb h =>
    rw [castConstant_eq_some h] at hb ⊢
    have hvb : vb < 2 ^ B := hb.1
    rw [bvugeConstant_eval env B a vb ha.1 ha.2 hvb]
    simp only [Bvexpr.eval, Nat.mod_eq_of_lt hvb]
  · rfl

theorem bvule_eval (env : Env) {B : ℕ} {a b : Bvexpr} (ha : a.WF) (hb : b.WF) :
    (bvule B a b).eval env = decide (a.eval env ≤ b.eval env) := by
  rw [bvule]
  split
  · next va vb hca hcb =>
    rw [castConstant_eq_some hca] at ha ⊢
    rw [castConstant_eq_some hcb] at hb ⊢
    simp only [Bvexpr.WF] at ha hb
    simp only [Lexpr.eval, Bvexpr.eval, Nat.mod_eq_of_lt ha, Nat.mod_eq_of_lt hb]
  · rfl

/-- **`isfalse` negates.** -/
theorem isfalse_eval (env : Env) {e : Lexpr} (h : e.WF) : (isfalse e).eval env = !e.eval env := by
  cases e with
  | comparison c B a b =>
    cases c with
    | bvult =>
      rw [isfalse]
      split
      · rw [bvuge_eval env h.1 h.2]
        simp only [Lexpr.eval, Cmp.eval, ← decide_not, Nat.not_lt]
      · rfl
    | _ => rfl
  | _ => rfl

/-! ### Well-formedness -/

theorem bvugeConstant_wf (B : ℕ) (a : Bvexpr) (vb : ℕ) (ha : a.WF) (hB : a.width = B) :
    (bvugeConstant B a vb).WF := by
  fun_induction bvugeConstant B a vb with
  | case1 | case3 | case4 => exact trivial
  | case5 B X Y X' ba cb vb hrange hge hle ih => exact ih ha.2.1 ha.2.2
  | case2 B B' va vb | case6 B X Y X' ba cb vb | case7 B a vb =>
    exact ⟨⟨ha, hB⟩, constant_wf B vb, rfl⟩

theorem bvuge_wf {B : ℕ} {a b : Bvexpr} (ha : a.WF ∧ a.width = B) (hb : b.WF ∧ b.width = B) :
    (bvuge B a b).WF := by
  rw [bvuge]
  split
  · exact bvugeConstant_wf B a _ ha.1 ha.2
  · exact ⟨ha, hb⟩

theorem isfalse_wf {e : Lexpr} (h : e.WF) : (isfalse e).WF := by
  cases e with
  | comparison c B a b =>
    cases c with
    | bvult =>
      rw [isfalse]
      split
      · exact bvuge_wf h.1 h.2
      · exact h
    | _ => exact h
  | boolean value => exact trivial
  | _ => exact h

end NfpEstimator
