import NfpEstimator.Expr.Eval

/-!
# Structural equality

`operator==` of the expression nodes. Two nodes are equal if they are instances
of one class template (`typeid`) and their members are equal; an undefined
expression is equal to itself only.

Two classes compare less than they hold. A rotation inherits the comparison of
`expr::unary`, which knows the operand but not the amount. `concrete_storing`
compares its map with the three-argument `std::equal`, which stops at the end of
the left map: a longer right map is not noticed, and a longer left map makes the
algorithm read past the end of the right one. What such a read yields is outside
the language, so it is a parameter here (`PastEnd`).

`Bvexpr.eval_eq_of_equal` shows that these two are the only ways in which
`operator==` equates expressions of different value.
-/

namespace NfpEstimator

/-- What `std::equal` answers once the right map of `concrete_storing` is used
up, for the entries that the left map still has. -/
class PastEnd where
  /-- The answer. -/
  read : StoreMap → Bool

/-! ### Rotations -/

theorem rotateLeft_congr {B i i' : ℕ} (h : i % B = i' % B) (x : BitVec B) :
    x.rotateLeft i = x.rotateLeft i' := by
  rw [← BitVec.rotateLeft_mod_eq_rotateLeft, h, BitVec.rotateLeft_mod_eq_rotateLeft]

theorem rotateRight_congr {B i i' : ℕ} (h : i % B = i' % B) (x : BitVec B) :
    x.rotateRight i = x.rotateRight i' := by
  rw [← BitVec.rotateRight_mod_eq_rotateRight, h, BitVec.rotateRight_mod_eq_rotateRight]

theorem rotateLeft_one {B : ℕ} (hB : 0 < B) (i : ℕ) :
    ((BitVec.ofNat B 1).rotateLeft i).toNat = 2 ^ (i % B) := by
  have hi : i % B < B := Nat.mod_lt i hB
  have hone : 1 % 2 ^ B = 1 := Nat.mod_eq_of_lt (Nat.one_lt_two_pow (by omega))
  have hshift : 1 >>> (B - i % B) = 0 :=
    Nat.shiftRight_eq_zero 1 _ (Nat.one_lt_two_pow (by omega))
  rw [BitVec.toNat_rotateLeft, BitVec.toNat_ofNat, hone, hshift, Nat.or_zero, Nat.one_shiftLeft,
    Nat.mod_eq_of_lt (Nat.pow_lt_pow_right (by omega) hi)]

theorem rotateRight_one {B : ℕ} (hB : 0 < B) (i : ℕ) :
    ((BitVec.ofNat B 1).rotateRight i).toNat = 2 ^ ((B - i % B) % B) := by
  have hi : i % B < B := Nat.mod_lt i hB
  have hone : 1 % 2 ^ B = 1 := Nat.mod_eq_of_lt (Nat.one_lt_two_pow (by omega))
  rw [BitVec.toNat_rotateRight, BitVec.toNat_ofNat, hone, Nat.one_shiftLeft]
  rcases Nat.eq_zero_or_pos (i % B) with h | h
  · rw [h, Nat.sub_zero, Nat.mod_self, Nat.mod_self, Nat.shiftRight_zero, Nat.or_zero, Nat.pow_zero]
  · have hshift : 1 >>> (i % B) = 0 := Nat.shiftRight_eq_zero 1 _ (Nat.one_lt_two_pow (by omega))
    have hlt : B - i % B < B := by omega
    rw [hshift, Nat.zero_or, Nat.mod_eq_of_lt (Nat.pow_lt_pow_right (by omega) hlt),
      Nat.mod_eq_of_lt hlt]

section

variable [PastEnd]

mutual

/-- `operator==` of the Boolean nodes. -/
def Lexpr.equal : Lexpr → Lexpr → Bool
  | .boolean v, .boolean w => v == w
  | .negation e, .negation f => e.equal f
  | .lbinary op a b, .lbinary op' a' b' => op == op' && (a.equal a' && b.equal b')
  | .comparison c B a b, .comparison c' B' a' b' =>
    (c == c' && B == B') && (a.equal a' && b.equal b')
  | .ifthenelse l a b, .ifthenelse l' a' b' => l.equal l' && (a.equal a' && b.equal b')
  | _, _ => false
termination_by structural a => a

/-- `operator==` of the bit-vector nodes. -/
def Bvexpr.equal : Bvexpr → Bvexpr → Bool
  | .undefined B o, .undefined B' o' => B == B' && o == o'
  | .ifthenelse B l a b, .ifthenelse B' l' a' b' =>
    B == B' && (l.equal l' && (a.equal a' && b.equal b'))
  | .bitvector B v, .bitvector B' v' => B == B' && v == v'
  | .bvvariable B n, .bvvariable B' n' => B == B' && n == n'
  | .pointer A V n o, .pointer A' V' n' o' => (A == A' && V == V') && (n == n' && o.equal o')
  | .pointerExt A V E n o x, .pointerExt A' V' E' n' o' x' =>
    (A == A' && V == V' && E == E') && (n == n' && (o.equal o' && x.equal x'))
  | .pointerBase A V n s o, .pointerBase A' V' n' s' o' =>
    (A == A' && V == V') && (n == n' && (s == s' && o.equal o'))
  | .selection A V a o, .selection A' V' a' o' =>
    (A == A' && V == V') && (a.equal a' && o.equal o')
  | .extraction S E B e, .extraction S' E' B' e' => (S == S' && E == E' && B == B') && e.equal e'
  | .bvnegation B e, .bvnegation B' e' => B == B' && e.equal e'
  | .concatenation A B a b, .concatenation A' B' a' b' =>
    (A == A' && B == B') && (a.equal a' && b.equal b')
  | .bvbinary op B a b, .bvbinary op' B' a' b' =>
    (op == op' && B == B') && (a.equal a' && b.equal b')
  -- `expr::unary::operator==`: the amount is not compared
  | .bvrotationl B _ e, .bvrotationl B' _ e' => B == B' && e.equal e'
  | .bvrotationr B _ e, .bvrotationr B' _ e' => B == B' && e.equal e'
  | _, _ => false
termination_by structural a => a

/-- `operator==` of the array nodes. -/
def Bvarray.equal : Bvarray → Bvarray → Bool
  | .undefinedArray A V o, .undefinedArray A' V' o' => (A == A' && V == V') && o == o'
  | .bvavariable A V n, .bvavariable A' V' n' => (A == A' && V == V') && n == n'
  | .ifthenelse A V l a b, .ifthenelse A' V' l' a' b' =>
    (A == A' && V == V') && (l.equal l' && (a.equal a' && b.equal b'))
  | .storing A V a o v, .storing A' V' a' o' v' =>
    (A == A' && V == V') && (a.equal a' && (o.equal o' && v.equal v'))
  | .concreteStoring A V a m, .concreteStoring A' V' a' m' =>
    (A == A' && V == V') && (a.equal a' && m.equal m')
  | _, _ => false
termination_by structural a => a

/-- `std::equal(map.begin(), map.end(), s->map.begin(), …)`. -/
def StoreMap.equal : StoreMap → StoreMap → Bool
  | .nil, _ => true
  | .cons o v m, .cons o' v' m' => o == o' && (v.equal v' && m.equal m')
  | .cons o v m, .nil => PastEnd.read (.cons o v m)
termination_by structural m => m

end

/-! ### The comparisons that the operator leaves out -/

mutual

/-- Rotations that stand at the same place rotate by the same amount, modulo
their width, and store maps that stand at the same place have the same size. -/
def Lexpr.aligned : Lexpr → Lexpr → Bool
  | .negation e, .negation f => e.aligned f
  | .lbinary _ a b, .lbinary _ a' b' => a.aligned a' && b.aligned b'
  | .comparison _ _ a b, .comparison _ _ a' b' => a.aligned a' && b.aligned b'
  | .ifthenelse l a b, .ifthenelse l' a' b' => l.aligned l' && (a.aligned a' && b.aligned b')
  | _, _ => true
termination_by structural a => a

@[inherit_doc Lexpr.aligned]
def Bvexpr.aligned : Bvexpr → Bvexpr → Bool
  | .ifthenelse _ l a b, .ifthenelse _ l' a' b' => l.aligned l' && (a.aligned a' && b.aligned b')
  | .pointer _ _ _ o, .pointer _ _ _ o' => o.aligned o'
  | .pointerExt _ _ _ _ o x, .pointerExt _ _ _ _ o' x' => o.aligned o' && x.aligned x'
  | .pointerBase _ _ _ _ o, .pointerBase _ _ _ _ o' => o.aligned o'
  | .selection _ _ a o, .selection _ _ a' o' => a.aligned a' && o.aligned o'
  | .extraction _ _ _ e, .extraction _ _ _ e' => e.aligned e'
  | .bvnegation _ e, .bvnegation _ e' => e.aligned e'
  | .concatenation _ _ a b, .concatenation _ _ a' b' => a.aligned a' && b.aligned b'
  | .bvbinary _ _ a b, .bvbinary _ _ a' b' => a.aligned a' && b.aligned b'
  | .bvrotationl B i e, .bvrotationl _ i' e' => i % B == i' % B && e.aligned e'
  | .bvrotationr B i e, .bvrotationr _ i' e' => i % B == i' % B && e.aligned e'
  | _, _ => true
termination_by structural a => a

@[inherit_doc Lexpr.aligned]
def Bvarray.aligned : Bvarray → Bvarray → Bool
  | .ifthenelse _ _ l a b, .ifthenelse _ _ l' a' b' =>
    l.aligned l' && (a.aligned a' && b.aligned b')
  | .storing _ _ a o v, .storing _ _ a' o' v' =>
    a.aligned a' && (o.aligned o' && v.aligned v')
  | .concreteStoring _ _ a m, .concreteStoring _ _ a' m' => a.aligned a' && m.aligned m'
  | _, _ => true
termination_by structural a => a

@[inherit_doc Lexpr.aligned]
def StoreMap.aligned : StoreMap → StoreMap → Bool
  | .nil, .nil => true
  | .cons _ v m, .cons _ v' m' => v.aligned v' && m.aligned m'
  | _, _ => false
termination_by structural a => a

end

/-! ### Soundness -/

mutual

theorem Lexpr.eval_eq_of_equal (env : Env) : ∀ a b : Lexpr, a.aligned b = true →
    a.equal b = true → a.eval env = b.eval env
  | .boolean v, b, _, h => by
    cases b with
    | boolean w =>
      simp only [Lexpr.equal, beq_iff_eq] at h
      rw [h]
    | _ => simp [Lexpr.equal] at h
  | .negation e, b, hal, h => by
    cases b with
    | negation f =>
      simp only [Lexpr.equal, Lexpr.aligned] at h hal
      simp only [Lexpr.eval]
      rw [e.eval_eq_of_equal env f hal h]
    | _ => simp [Lexpr.equal] at h
  | .lbinary op a₁ b₁, b, hal, h => by
    cases b with
    | lbinary op' a₂ b₂ =>
      simp only [Lexpr.equal, Lexpr.aligned, Bool.and_eq_true, beq_iff_eq] at h hal
      obtain ⟨rfl, ha, hb⟩ := h
      simp only [Lexpr.eval]
      rw [a₁.eval_eq_of_equal env a₂ hal.1 ha, b₁.eval_eq_of_equal env b₂ hal.2 hb]
    | _ => simp [Lexpr.equal] at h
  | .comparison c B a₁ b₁, b, hal, h => by
    cases b with
    | comparison c' B' a₂ b₂ =>
      simp only [Lexpr.equal, Lexpr.aligned, Bool.and_eq_true, beq_iff_eq] at h hal
      obtain ⟨⟨rfl, rfl⟩, ha, hb⟩ := h
      simp only [Lexpr.eval]
      rw [a₁.eval_eq_of_equal env a₂ hal.1 ha, b₁.eval_eq_of_equal env b₂ hal.2 hb]
    | _ => simp [Lexpr.equal] at h
  | .ifthenelse l₁ a₁ b₁, b, hal, h => by
    cases b with
    | ifthenelse l₂ a₂ b₂ =>
      simp only [Lexpr.equal, Lexpr.aligned, Bool.and_eq_true] at h hal
      simp only [Lexpr.eval]
      rw [l₁.eval_eq_of_equal env l₂ hal.1 h.1, a₁.eval_eq_of_equal env a₂ hal.2.1 h.2.1,
        b₁.eval_eq_of_equal env b₂ hal.2.2 h.2.2]
    | _ => simp [Lexpr.equal] at h

theorem Bvexpr.eval_eq_of_equal (env : Env) : ∀ a b : Bvexpr, a.aligned b = true →
    a.equal b = true → a.eval env = b.eval env
  | .undefined B o, b, _, h => by
    cases b with
    | undefined B' o' =>
      simp only [Bvexpr.equal, Bool.and_eq_true, beq_iff_eq] at h
      rw [h.1, h.2]
    | _ => simp [Bvexpr.equal] at h
  | .ifthenelse B l₁ a₁ b₁, b, hal, h => by
    cases b with
    | ifthenelse B' l₂ a₂ b₂ =>
      simp only [Bvexpr.equal, Bvexpr.aligned, Bool.and_eq_true] at h hal
      obtain ⟨-, hl, ha, hb⟩ := h
      simp only [Bvexpr.eval]
      rw [l₁.eval_eq_of_equal env l₂ hal.1 hl, a₁.eval_eq_of_equal env a₂ hal.2.1 ha,
        b₁.eval_eq_of_equal env b₂ hal.2.2 hb]
    | _ => simp [Bvexpr.equal] at h
  | .bitvector B v, b, _, h => by
    cases b with
    | bitvector B' v' =>
      simp only [Bvexpr.equal, Bool.and_eq_true, beq_iff_eq] at h
      rw [h.1, h.2]
    | _ => simp [Bvexpr.equal] at h
  | .bvvariable B n, b, _, h => by
    cases b with
    | bvvariable B' n' =>
      simp only [Bvexpr.equal, Bool.and_eq_true, beq_iff_eq] at h
      rw [h.1, h.2]
    | _ => simp [Bvexpr.equal] at h
  | .pointer A V n o, b, hal, h => by
    cases b with
    | pointer A' V' n' o' =>
      simp only [Bvexpr.equal, Bvexpr.aligned, Bool.and_eq_true, beq_iff_eq] at h hal
      obtain ⟨⟨rfl, rfl⟩, rfl, ho⟩ := h
      simp only [Bvexpr.eval]
      rw [o.eval_eq_of_equal env o' hal ho]
    | _ => simp [Bvexpr.equal] at h
  | .pointerExt A V E n o x, b, hal, h => by
    cases b with
    | pointerExt A' V' E' n' o' x' =>
      simp only [Bvexpr.equal, Bvexpr.aligned, Bool.and_eq_true, beq_iff_eq] at h hal
      obtain ⟨⟨⟨rfl, rfl⟩, rfl⟩, rfl, ho, hx⟩ := h
      simp only [Bvexpr.eval]
      rw [o.eval_eq_of_equal env o' hal.1 ho, x.eval_eq_of_equal env x' hal.2 hx]
    | _ => simp [Bvexpr.equal] at h
  | .pointerBase A V n s o, b, hal, h => by
    cases b with
    | pointerBase A' V' n' s' o' =>
      simp only [Bvexpr.equal, Bvexpr.aligned, Bool.and_eq_true, beq_iff_eq] at h hal
      obtain ⟨⟨rfl, rfl⟩, rfl, rfl, ho⟩ := h
      simp only [Bvexpr.eval]
      rw [o.eval_eq_of_equal env o' hal ho]
    | _ => simp [Bvexpr.equal] at h
  | .selection A V a o, b, hal, h => by
    cases b with
    | selection A' V' a' o' =>
      simp only [Bvexpr.equal, Bvexpr.aligned, Bool.and_eq_true, beq_iff_eq] at h hal
      obtain ⟨⟨rfl, rfl⟩, ha, ho⟩ := h
      simp only [Bvexpr.eval]
      rw [a.eval_eq_of_equal env a' hal.1 ha, o.eval_eq_of_equal env o' hal.2 ho]
    | _ => simp [Bvexpr.equal] at h
  | .extraction S E B e, b, hal, h => by
    cases b with
    | extraction S' E' B' e' =>
      simp only [Bvexpr.equal, Bvexpr.aligned, Bool.and_eq_true, beq_iff_eq] at h hal
      obtain ⟨⟨⟨rfl, rfl⟩, -⟩, he⟩ := h
      simp only [Bvexpr.eval]
      rw [e.eval_eq_of_equal env e' hal he]
    | _ => simp [Bvexpr.equal] at h
  | .bvnegation B e, b, hal, h => by
    cases b with
    | bvnegation B' e' =>
      simp only [Bvexpr.equal, Bvexpr.aligned, Bool.and_eq_true, beq_iff_eq] at h hal
      obtain ⟨rfl, he⟩ := h
      simp only [Bvexpr.eval]
      rw [e.eval_eq_of_equal env e' hal he]
    | _ => simp [Bvexpr.equal] at h
  | .concatenation A B a₁ b₁, b, hal, h => by
    cases b with
    | concatenation A' B' a₂ b₂ =>
      simp only [Bvexpr.equal, Bvexpr.aligned, Bool.and_eq_true, beq_iff_eq] at h hal
      obtain ⟨⟨rfl, rfl⟩, ha, hb⟩ := h
      simp only [Bvexpr.eval]
      rw [a₁.eval_eq_of_equal env a₂ hal.1 ha, b₁.eval_eq_of_equal env b₂ hal.2 hb]
    | _ => simp [Bvexpr.equal] at h
  | .bvbinary op B a₁ b₁, b, hal, h => by
    cases b with
    | bvbinary op' B' a₂ b₂ =>
      simp only [Bvexpr.equal, Bvexpr.aligned, Bool.and_eq_true, beq_iff_eq] at h hal
      obtain ⟨⟨rfl, rfl⟩, ha, hb⟩ := h
      simp only [Bvexpr.eval]
      rw [a₁.eval_eq_of_equal env a₂ hal.1 ha, b₁.eval_eq_of_equal env b₂ hal.2 hb]
    | _ => simp [Bvexpr.equal] at h
  | .bvrotationl B i e, b, hal, h => by
    cases b with
    | bvrotationl B' i' e' =>
      simp only [Bvexpr.equal, Bvexpr.aligned, Bool.and_eq_true, beq_iff_eq] at h hal
      obtain ⟨rfl, he⟩ := h
      simp only [Bvexpr.eval]
      rw [e.eval_eq_of_equal env e' hal.2 he, rotateLeft_congr hal.1]
    | _ => simp [Bvexpr.equal] at h
  | .bvrotationr B i e, b, hal, h => by
    cases b with
    | bvrotationr B' i' e' =>
      simp only [Bvexpr.equal, Bvexpr.aligned, Bool.and_eq_true, beq_iff_eq] at h hal
      obtain ⟨rfl, he⟩ := h
      simp only [Bvexpr.eval]
      rw [e.eval_eq_of_equal env e' hal.2 he, rotateRight_congr hal.1]
    | _ => simp [Bvexpr.equal] at h

theorem Bvarray.eval_eq_of_equal (env : Env) : ∀ a b : Bvarray, a.aligned b = true →
    a.equal b = true → a.eval env = b.eval env
  | .undefinedArray A V o, b, _, h => by
    cases b with
    | undefinedArray A' V' o' =>
      simp only [Bvarray.equal, Bool.and_eq_true, beq_iff_eq] at h
      obtain ⟨⟨rfl, rfl⟩, rfl⟩ := h
      rfl
    | _ => simp [Bvarray.equal] at h
  | .bvavariable A V n, b, _, h => by
    cases b with
    | bvavariable A' V' n' =>
      simp only [Bvarray.equal, Bool.and_eq_true, beq_iff_eq] at h
      obtain ⟨⟨rfl, rfl⟩, rfl⟩ := h
      rfl
    | _ => simp [Bvarray.equal] at h
  | .ifthenelse A V l₁ a₁ b₁, b, hal, h => by
    cases b with
    | ifthenelse A' V' l₂ a₂ b₂ =>
      simp only [Bvarray.equal, Bvarray.aligned, Bool.and_eq_true] at h hal
      obtain ⟨-, hl, ha, hb⟩ := h
      simp only [Bvarray.eval]
      rw [l₁.eval_eq_of_equal env l₂ hal.1 hl, a₁.eval_eq_of_equal env a₂ hal.2.1 ha,
        b₁.eval_eq_of_equal env b₂ hal.2.2 hb]
    | _ => simp [Bvarray.equal] at h
  | .storing A V a o v, b, hal, h => by
    cases b with
    | storing A' V' a' o' v' =>
      simp only [Bvarray.equal, Bvarray.aligned, Bool.and_eq_true] at h hal
      obtain ⟨-, ha, ho, hv⟩ := h
      simp only [Bvarray.eval]
      rw [a.eval_eq_of_equal env a' hal.1 ha, o.eval_eq_of_equal env o' hal.2.1 ho,
        v.eval_eq_of_equal env v' hal.2.2 hv]
    | _ => simp [Bvarray.equal] at h
  | .concreteStoring A V a m, b, hal, h => by
    cases b with
    | concreteStoring A' V' a' m' =>
      simp only [Bvarray.equal, Bvarray.aligned, Bool.and_eq_true] at h hal
      simp only [Bvarray.eval]
      rw [a.eval_eq_of_equal env a' hal.1 h.2.1, m.eval_eq_of_equal env m' hal.2 h.2.2]
    | _ => simp [Bvarray.equal] at h

theorem StoreMap.eval_eq_of_equal (env : Env) : ∀ m m' : StoreMap, m.aligned m' = true →
    m.equal m' = true → m.eval env = m'.eval env
  | .nil, m', hal, _ => by
    cases m' with
    | nil => rfl
    | cons _ _ _ => simp [StoreMap.aligned] at hal
  | .cons o v m, m', hal, h => by
    cases m' with
    | cons o' v' m' =>
      simp only [StoreMap.equal, StoreMap.aligned, Bool.and_eq_true, beq_iff_eq] at h hal
      obtain ⟨rfl, hv, hm⟩ := h
      simp only [StoreMap.eval]
      rw [v.eval_eq_of_equal env v' hal.1 hv, m.eval_eq_of_equal env m' hal.2 hm]
    | nil => simp [StoreMap.aligned] at hal

end

/-! ### Where the operator is sound -/

/-- **`operator==` is sound on aligned expressions**, for every sort: equal
expressions have the same value in every environment. -/
theorem equal_sound :
    (∀ a b : Lexpr, a.aligned b = true → a.equal b = true → ∀ env, a.eval env = b.eval env) ∧
    (∀ a b : Bvexpr, a.aligned b = true → a.equal b = true → ∀ env, a.eval env = b.eval env) ∧
    (∀ a b : Bvarray, a.aligned b = true → a.equal b = true → ∀ env, a.eval env = b.eval env) :=
  ⟨fun a b hal h env => a.eval_eq_of_equal env b hal h,
    fun a b hal h env => a.eval_eq_of_equal env b hal h,
    fun a b hal h env => a.eval_eq_of_equal env b hal h⟩

end

/-- A rotation by 1 and one by 33 are the same on 32 bits. -/
theorem equal_sound_rotation :
    (Bvexpr.bvrotationl 32 1 (.bvvariable 32 "x")).eval (Env.const 5) =
      (Bvexpr.bvrotationl 32 33 (.bvvariable 32 "x")).eval (Env.const 5) :=
  letI : PastEnd := ⟨fun _ => true⟩
  equal_sound.2.1 _ _ (by decide) (by decide) (Env.const 5)

/-- The same word rotated by 1 and by 2: equal for `operator==`, but not in value. -/
theorem equal_bvrotationl_unsound :
    ∃ (a b : Bvexpr) (env : Env), a.WF ∧ b.WF ∧ a.width = b.width ∧
      (∀ [PastEnd], a.equal b = true) ∧ a.eval env ≠ b.eval env := by
  refine ⟨.bvrotationl 32 1 (.bvvariable 32 "x"), .bvrotationl 32 2 (.bvvariable 32 "x"),
    Env.const 1, ⟨trivial, rfl⟩, ⟨trivial, rfl⟩, rfl, ?_, by decide⟩
  intro _
  rfl

/-- No two amounts that differ modulo the width rotate a variable alike. -/
theorem bvrotationl_eval_eq_iff {B : ℕ} (hB : 0 < B) (n : String) (i i' : ℕ) :
    (∀ env, (Bvexpr.bvrotationl B i (.bvvariable B n)).eval env =
      (Bvexpr.bvrotationl B i' (.bvvariable B n)).eval env) ↔ i % B = i' % B := by
  constructor
  · intro h
    have h1 := h (Env.const 1)
    have hone : 1 % 2 ^ B = 1 := Nat.mod_eq_of_lt (Nat.one_lt_two_pow (by omega))
    simp only [Bvexpr.eval, Env.const, hone, rotateLeft_one hB] at h1
    exact Nat.pow_right_injective le_rfl h1
  · intro h env
    simp only [Bvexpr.eval]
    rw [rotateLeft_congr h]

/-- The same for rotations to the right. -/
theorem bvrotationr_eval_eq_iff {B : ℕ} (hB : 0 < B) (n : String) (i i' : ℕ) :
    (∀ env, (Bvexpr.bvrotationr B i (.bvvariable B n)).eval env =
      (Bvexpr.bvrotationr B i' (.bvvariable B n)).eval env) ↔ i % B = i' % B := by
  constructor
  · intro h
    have h1 := h (Env.const 1)
    have hone : 1 % 2 ^ B = 1 := Nat.mod_eq_of_lt (Nat.one_lt_two_pow (by omega))
    simp only [Bvexpr.eval, Env.const, hone, rotateRight_one hB] at h1
    have heq : (B - i % B) % B = (B - i' % B) % B := Nat.pow_right_injective le_rfl h1
    have hi := Nat.mod_lt i hB
    have hi' := Nat.mod_lt i' hB
    rcases Nat.eq_zero_or_pos (i % B) with h0 | h0 <;>
      rcases Nat.eq_zero_or_pos (i' % B) with h0' | h0'
    · rw [h0, h0']
    · rw [h0, Nat.sub_zero, Nat.mod_self, Nat.mod_eq_of_lt (by omega)] at heq
      omega
    · rw [h0', Nat.sub_zero, Nat.mod_self, Nat.mod_eq_of_lt (by omega)] at heq
      omega
    · have hlt : B - i % B < B := by omega
      have hlt' : B - i' % B < B := by omega
      rw [Nat.mod_eq_of_lt hlt, Nat.mod_eq_of_lt hlt'] at heq
      omega
  · intro h env
    simp only [Bvexpr.eval]
    rw [rotateRight_congr h]

end NfpEstimator
