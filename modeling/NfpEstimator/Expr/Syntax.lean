import Mathlib

/-!
# Symbolic expressions

The node classes of `expr.hpp`. The estimator keeps three families of
expressions: Boolean ones (`expr::lexpr`), bit-vectors (`expr::bvexpr<B>`) and
arrays of bit-vectors (`expr::bvarray<A,V>`). A class template carries its
widths as template parameters, so a node here carries them as fields; a
`dynamic_pointer_cast` to an instance of the template is a match on the node
together with a test of these fields.

Classes that share one base class and differ only in their name are one node
with a tag: the comparisons of `expr::binary<lexpr,bvptr<B>>` (`Cmp`), the
connectives of `expr::lbinary` (`LOp`) and the operators of `expr::bvbinary`
(`BvOp`).

## The values

`Bvexpr.eval` gives an expression its value in an environment: bit-vectors are
natural numbers below `2 ^ B`, arrays are functions. An undefined expression is
an object of its own: the environment values each object once.
-/

namespace NfpEstimator

/-- Which object an undefined expression is. -/
inductive Obj where
  /-- The function-local static that every call of `expr::undef<B>()` returns. -/
  | shared
  /-- An object made by `std::make_shared`, numbered. -/
  | fresh (n : ℕ)
  deriving DecidableEq, Repr

/-- The classes derived from `expr::binary<lexpr,bvptr<B>>`. -/
inductive Cmp where
  | equality | bvult | bvule | bvugt | bvuge
  deriving DecidableEq, Repr

/-- The classes derived from `expr::lbinary`. -/
inductive LOp where
  | loring | landing
  deriving DecidableEq, Repr

/-- The classes derived from `expr::bvbinary`, but for `expr::concatenation`. -/
inductive BvOp where
  | bvcomparison | bvanding | bvoring | bvxoring | bvshiftl | bvlshiftr | bvashiftr
  | bvaddition | bvsubstraction | bvadditionCarry | bvsubstractionCarry | bvmultiplication
  deriving DecidableEq, Repr

mutual

/-- `expr::lexpr`. -/
inductive Lexpr where
  | boolean (value : Bool)
  | negation (e : Lexpr)
  | lbinary (op : LOp) (a b : Lexpr)
  | comparison (c : Cmp) (B : ℕ) (a b : Bvexpr)
  | ifthenelse (l a b : Lexpr)

/-- `expr::bvexpr<B>`. -/
inductive Bvexpr where
  | undefined (B : ℕ) (obj : Obj)
  | ifthenelse (B : ℕ) (l : Lexpr) (a b : Bvexpr)
  | bitvector (B value : ℕ)
  | bvvariable (B : ℕ) (declname : String)
  | pointer (A V : ℕ) (array : String) (offset : Bvexpr)
  | pointerExt (A V E : ℕ) (array : String) (offset ext : Bvexpr)
  | pointerBase (A V : ℕ) (array : String) (shift : ℕ) (offset : Bvexpr)
  | selection (A V : ℕ) (array : Bvarray) (offset : Bvexpr)
  | extraction (S E B : ℕ) (e : Bvexpr)
  | bvnegation (B : ℕ) (e : Bvexpr)
  | concatenation (A B : ℕ) (a b : Bvexpr)
  | bvbinary (op : BvOp) (B : ℕ) (a b : Bvexpr)
  | bvrotationl (B i : ℕ) (e : Bvexpr)
  | bvrotationr (B i : ℕ) (e : Bvexpr)

/-- `expr::bvarray<A,V>`. -/
inductive Bvarray where
  | undefinedArray (A V : ℕ) (obj : Obj)
  | bvavariable (A V : ℕ) (declname : String)
  | ifthenelse (A V : ℕ) (l : Lexpr) (a b : Bvarray)
  | storing (A V : ℕ) (array : Bvarray) (offset value : Bvexpr)
  | concreteStoring (A V : ℕ) (array : Bvarray) (map : StoreMap)

/-- The `std::map<const bitvector<A>,bvptr<V>>` of `expr::concrete_storing`, in
the order in which it is iterated. -/
inductive StoreMap where
  | nil
  | cons (offset : ℕ) (value : Bvexpr) (rest : StoreMap)

end

/-! ### Widths -/

/-- The result width of a `bvbinary<B,B,R>`. -/
def BvOp.width (B : ℕ) : BvOp → ℕ
  | .bvcomparison | .bvadditionCarry | .bvsubstractionCarry => 1
  | _ => B

/-- The template parameter of the `bvexpr` a node derives from. -/
def Bvexpr.width : Bvexpr → ℕ
  | .undefined B _ | .ifthenelse B _ _ _ | .bitvector B _ | .bvvariable B _ => B
  | .pointer A _ _ _ | .pointerBase A _ _ _ _ => A
  | .pointerExt A _ E _ _ _ => A + E
  | .selection _ V _ _ => V
  | .extraction S E _ _ => S - E + 1
  | .bvnegation B _ | .bvrotationl B _ _ | .bvrotationr B _ _ => B
  | .concatenation A B _ _ => A + B
  | .bvbinary op B _ _ => op.width B

/-- The template parameters of the `bvarray` a node derives from. -/
def Bvarray.widths : Bvarray → ℕ × ℕ
  | .undefinedArray A V _ | .bvavariable A V _ | .ifthenelse A V _ _ _ | .storing A V _ _ _
  | .concreteStoring A V _ _ => (A, V)

/-- The number of entries of a store map. -/
def StoreMap.size : StoreMap → ℕ
  | .nil => 0
  | .cons _ _ m => m.size + 1

/-- Every key of the map is above `k`. -/
def StoreMap.Above (k : ℕ) : StoreMap → Prop
  | .nil => True
  | .cons o _ _ => k < o

mutual

/-- The operands have the widths that the class templates give them. -/
def Lexpr.WF : Lexpr → Prop
  | .boolean _ => True
  | .negation e => e.WF
  | .lbinary _ a b => a.WF ∧ b.WF
  | .comparison _ B a b => (a.WF ∧ a.width = B) ∧ b.WF ∧ b.width = B
  | .ifthenelse l a b => l.WF ∧ a.WF ∧ b.WF

@[inherit_doc Lexpr.WF]
def Bvexpr.WF : Bvexpr → Prop
  | .undefined _ _ | .bvvariable _ _ => True
  | .ifthenelse B l a b => l.WF ∧ (a.WF ∧ a.width = B) ∧ b.WF ∧ b.width = B
  | .bitvector B value => value < 2 ^ B
  | .pointer A _ _ o => o.WF ∧ o.width = A
  | .pointerExt A _ E _ o x => (o.WF ∧ o.width = A) ∧ x.WF ∧ x.width = E
  | .pointerBase A _ _ _ o => o.WF ∧ o.width = A
  | .selection A V a o => (a.WF ∧ a.widths = (A, V)) ∧ o.WF ∧ o.width = A
  | .extraction S E B e => (e.WF ∧ e.width = B) ∧ E ≤ S ∧ S < B
  | .bvnegation B e | .bvrotationl B _ e | .bvrotationr B _ e => e.WF ∧ e.width = B
  | .concatenation A B a b => (a.WF ∧ a.width = A) ∧ b.WF ∧ b.width = B
  | .bvbinary _ B a b => (a.WF ∧ a.width = B) ∧ b.WF ∧ b.width = B

@[inherit_doc Lexpr.WF]
def Bvarray.WF : Bvarray → Prop
  | .undefinedArray _ _ _ | .bvavariable _ _ _ => True
  | .ifthenelse A V l a b => l.WF ∧ (a.WF ∧ a.widths = (A, V)) ∧ b.WF ∧ b.widths = (A, V)
  | .storing A V a o v => (a.WF ∧ a.widths = (A, V)) ∧ (o.WF ∧ o.width = A) ∧ v.WF ∧ v.width = V
  | .concreteStoring A V a m => (a.WF ∧ a.widths = (A, V)) ∧ m.WF A V

/-- The keys are constants of width `A` in increasing order, the values have width `V`. -/
def StoreMap.WF (A V : ℕ) : StoreMap → Prop
  | .nil => True
  | .cons o v m => (o < 2 ^ A ∧ m.Above o) ∧ (v.WF ∧ v.width = V) ∧ m.WF A V

end

end NfpEstimator
