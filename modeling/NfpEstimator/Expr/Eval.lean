import NfpEstimator.Expr.Syntax

/-!
# The value of an expression

An environment values every variable, every array and every undefined object.
A bit-vector expression of width `B` evaluates to a natural number below
`2 ^ B`, an array expression to a function from offsets to such numbers; the
operators are those of SMT-LIB that the nodes are written out as. Two operators
have no SMT-LIB counterpart: the carry bits of `bvadd_carry` and `bvsub_carry`,
which are the carry out of an addition and the absence of a borrow.

A pointer is the address of an element of a named array, which the environment
places in memory; a `pointer_base` is such an address without its lowest bits.
-/

namespace NfpEstimator

/-- One value for every variable, array and undefined object. -/
structure Env where
  /-- The value of a `bvvariable<B>`. -/
  bv : String → ℕ → ℕ
  /-- The contents of a `bvavariable<A,V>`. -/
  array : String → ℕ → ℕ → ℕ → ℕ
  /-- The address of the first element of a `bvavariable<A,V>`. -/
  base : String → ℕ → ℕ → ℕ
  /-- The value of an `undefined<B>`. -/
  undef : Obj → ℕ → ℕ
  /-- The contents of an `undefined_array<A,V>`. -/
  undefArray : Obj → ℕ → ℕ → ℕ → ℕ

/-- An environment that values everything with one number. -/
def Env.const (v : ℕ) : Env :=
  ⟨fun _ _ => v, fun _ _ _ _ => v, fun _ _ _ => v, fun _ _ => v, fun _ _ _ _ => v⟩

/-! ### The operators -/

/-- The comparisons, on the values of their operands. -/
def Cmp.eval : Cmp → ℕ → ℕ → Bool
  | .equality, a, b => a == b
  | .bvult, a, b => decide (a < b)
  | .bvule, a, b => decide (a ≤ b)
  | .bvugt, a, b => decide (b < a)
  | .bvuge, a, b => decide (b ≤ a)

/-- The connectives. -/
def LOp.eval : LOp → Bool → Bool → Bool
  | .loring, a, b => a || b
  | .landing, a, b => a && b

/-- The binary operators, on the values of operands of width `B`. -/
def BvOp.eval (B : ℕ) : BvOp → ℕ → ℕ → ℕ
  | .bvcomparison, a, b => if a = b then 1 else 0
  | .bvanding, a, b => (a &&& b) % 2 ^ B
  | .bvoring, a, b => (a ||| b) % 2 ^ B
  | .bvxoring, a, b => (a ^^^ b) % 2 ^ B
  | .bvshiftl, a, b => (a <<< b) % 2 ^ B
  | .bvlshiftr, a, b => (a >>> b) % 2 ^ B
  | .bvashiftr, a, b => ((BitVec.ofNat B a).sshiftRight b).toNat
  | .bvaddition, a, b => (a + b) % 2 ^ B
  | .bvsubstraction, a, b => (a + (2 ^ B - b % 2 ^ B)) % 2 ^ B
  | .bvadditionCarry, a, b => if 2 ^ B ≤ a + b then 1 else 0
  | .bvsubstractionCarry, a, b => if b ≤ a then 1 else 0
  | .bvmultiplication, a, b => (a * b) % 2 ^ B

/-! ### The expressions -/

mutual

/-- The truth value of a Boolean expression. -/
def Lexpr.eval (env : Env) : Lexpr → Bool
  | .boolean value => value
  | .negation e => !e.eval env
  | .lbinary op a b => op.eval (a.eval env) (b.eval env)
  | .comparison c _ a b => c.eval (a.eval env) (b.eval env)
  | .ifthenelse l a b => bif l.eval env then a.eval env else b.eval env

/-- The value of a bit-vector expression. -/
def Bvexpr.eval (env : Env) : Bvexpr → ℕ
  | .undefined B obj => env.undef obj B % 2 ^ B
  | .ifthenelse _ l a b => bif l.eval env then a.eval env else b.eval env
  | .bitvector B value => value % 2 ^ B
  | .bvvariable B declname => env.bv declname B % 2 ^ B
  | .pointer A V array offset => (env.base array A V + offset.eval env) % 2 ^ A
  | .pointerExt A V E array offset ext =>
    (ext.eval env % 2 ^ E) * 2 ^ A + (env.base array A V + offset.eval env) % 2 ^ A
  | .pointerBase A V array shift offset =>
    ((env.base array A V + offset.eval env) / 2 ^ shift) % 2 ^ A
  | .selection _ V array offset => array.eval env (offset.eval env) % 2 ^ V
  | .extraction S E _ e => (e.eval env / 2 ^ E) % 2 ^ (S - E + 1)
  | .bvnegation B e => 2 ^ B - 1 - e.eval env % 2 ^ B
  | .concatenation A B a b => (a.eval env % 2 ^ A) * 2 ^ B + b.eval env % 2 ^ B
  | .bvbinary op B a b => op.eval B (a.eval env) (b.eval env)
  | .bvrotationl B i e => ((BitVec.ofNat B (e.eval env)).rotateLeft i).toNat
  | .bvrotationr B i e => ((BitVec.ofNat B (e.eval env)).rotateRight i).toNat

/-- The contents of an array expression. -/
def Bvarray.eval (env : Env) : Bvarray → ℕ → ℕ
  | .undefinedArray A V obj => env.undefArray obj A V
  | .bvavariable A V declname => env.array declname A V
  | .ifthenelse _ _ l a b => bif l.eval env then a.eval env else b.eval env
  | .storing _ _ array offset value =>
    fun i => if i = offset.eval env then value.eval env else array.eval env i
  | .concreteStoring _ _ array map => fun i => (map.eval env i).getD (array.eval env i)

/-- The value that a store map holds at an offset. -/
def StoreMap.eval (env : Env) : StoreMap → ℕ → Option ℕ
  | .nil => fun _ => none
  | .cons offset value rest =>
    fun i => if i = offset then some (value.eval env) else rest.eval env i

end

/-! ### Values fit their width -/

theorem BvOp.eval_lt (B : ℕ) (op : BvOp) (a b : ℕ) : op.eval B a b < 2 ^ op.width B := by
  have hB : 0 < 2 ^ B := Nat.two_pow_pos B
  cases op <;> simp only [BvOp.eval, BvOp.width]
  case bvashiftr => exact BitVec.isLt _
  case bvcomparison | bvadditionCarry | bvsubstractionCarry => split <;> omega
  all_goals exact Nat.mod_lt _ hB

theorem concat_lt {A B x y : ℕ} (hx : x < 2 ^ A) (hy : y < 2 ^ B) :
    x * 2 ^ B + y < 2 ^ (A + B) := by
  have hle : (x + 1) * 2 ^ B ≤ 2 ^ A * 2 ^ B := Nat.mul_le_mul_right _ hx
  rw [Nat.add_mul, Nat.one_mul] at hle
  rw [Nat.pow_add]
  omega

/-- **An expression's value fits the width of its class.** -/
theorem Bvexpr.eval_lt (env : Env) : ∀ e : Bvexpr, e.WF → e.eval env < 2 ^ e.width
  | .undefined B _, _ | .bitvector B _, _ | .bvvariable B _, _ =>
    Nat.mod_lt _ (Nat.two_pow_pos B)
  | .ifthenelse B l a b, h => by
    have ha := eval_lt env a h.2.1.1
    have hb := eval_lt env b h.2.2.1
    rw [h.2.1.2] at ha
    rw [h.2.2.2] at hb
    simp only [Bvexpr.eval, Bvexpr.width]
    cases l.eval env
    · exact hb
    · exact ha
  | .pointer A _ _ _, _ | .pointerBase A _ _ _ _, _ => Nat.mod_lt _ (Nat.two_pow_pos A)
  | .pointerExt A V E _ _ _, _ => by
    rw [Bvexpr.width, Nat.add_comm]
    exact concat_lt (Nat.mod_lt _ (Nat.two_pow_pos E)) (Nat.mod_lt _ (Nat.two_pow_pos A))
  | .selection _ V _ _, _ => Nat.mod_lt _ (Nat.two_pow_pos V)
  | .extraction S E _ _, _ => Nat.mod_lt _ (Nat.two_pow_pos (S - E + 1))
  | .bvnegation B _, _ => by
    have hB : 0 < 2 ^ B := Nat.two_pow_pos B
    simp only [Bvexpr.eval, Bvexpr.width]
    omega
  | .concatenation A B _ _, _ =>
    concat_lt (Nat.mod_lt _ (Nat.two_pow_pos A)) (Nat.mod_lt _ (Nat.two_pow_pos B))
  | .bvbinary op B _ _, _ => BvOp.eval_lt B op _ _
  | .bvrotationl _ _ _, _ | .bvrotationr _ _ _, _ => BitVec.isLt _

end NfpEstimator
