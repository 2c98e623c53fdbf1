import NfpEstimator.Instr.Operands

/-!
# Arithmetic and logic

The operators of the arithmetic logic unit (`instr::alu_op`). Each computes its result and the flags `V` and `C`;
whether it writes `PREV_A` and `PREV_ALU` is `AluOp.writesPrev`.

The carry of an addition or a subtraction is left as an operator of its own, `bvadd_carry` or `bvsub_carry`, and
what comes next is expected to recognise it: an addition with carry to the high words finds the low words in
it and adds all 64 bits.
-/

namespace NfpEstimator

/-! ### Results -/

/-- `instr::assign::result`. -/
structure AssignResult where
  dst : Bvexpr
  v : Bvexpr
  c : Bvexpr
  u : List Update

/-- The object that every call of `expr::undef<B>()` returns. -/
def undef (B : ℕ) : Bvexpr := .undefined B .shared

/-- `expr::cast::bvadd_carry<B>` and `expr::cast::bvsub_carry<B>`: the operands. -/
def castBvbinary (op : BvOp) (B : ℕ) : Bvexpr → Option (Bvexpr × Bvexpr)
  | .bvbinary op' B' a b => if op' = op ∧ B' = B then some (a, b) else none
  | _ => none

theorem castBvbinary_eq_some {op : BvOp} {B : ℕ} {e a b : Bvexpr} (h : castBvbinary op B e = some (a, b)) :
    e = .bvbinary op B a b := by
  cases e with
  | bvbinary op' B' a' b' => simp_all [castBvbinary]
  | _ => exact nomatch h

/-! ### The operators -/

/-- `instr::alu_op`. -/
inductive AluOp where
  | plus | plus16 | plus8 | plusCarry | minus | minusCarry | negMinus
  | B | invB | opAnd | invAnd | andInv | opOr | opXor
  deriving DecidableEq, Repr

namespace AluOp

/-- `instr::alu_op::writes_prev`. -/
def writesPrev : AluOp → Bool
  | plus | plus16 | plus8 | plusCarry | minus | minusCarry | negMinus => false
  | B | invB | opAnd | invAnd | andInv | opOr | opXor => true

/-- The result of an addition: it overflows if what is carried into the sign is not carried out of it. -/
def added (addition extended carry : Bvexpr) : AssignResult :=
  { dst := addition
    v := bvxor 1 (extract 32 32 33 extended) (extract 31 31 32 addition)
    c := carry
    u := [] }

/-- `instr::alu_op::plus::calculate`. -/
def calculatePlus (A B : Bvexpr) : AssignResult :=
  added (bvadd 32 A B) (bvadd 33 (extend 1 32 A) (extend 1 32 B)) (.bvbinary .bvadditionCarry 32 A B)

/-- `instr::alu_op::plus16::calculate`. -/
def calculatePlus16 (A B : Bvexpr) : AssignResult := calculatePlus A (bvand 32 B (constant 32 0xffff))

/-- `instr::alu_op::plus8::calculate`. -/
def calculatePlus8 (A B : Bvexpr) : AssignResult := calculatePlus A (bvand 32 B (constant 32 0xffff))

/-- The sum of two words and a bit, in 32 bits. -/
def addBit (A B bit : Bvexpr) : Bvexpr := bvadd 32 (bvadd 32 A B) (extend 31 1 bit)

/-- The sum of two words and a bit, in 33 bits. -/
def addBitExtended (A B bit : Bvexpr) : Bvexpr :=
  bvadd 33 (bvadd 33 (extend 1 32 A) (extend 1 32 B)) (extend 32 1 bit)

/-- `instr::alu_op::plus_carry::calculate`, where `C` is the flag. -/
def calculatePlusCarry (A B C : Bvexpr) : AssignResult :=
  match castBvbinary .bvadditionCarry 32 C with
  | none =>
    added (addBit A B C) (addBitExtended A B C)
      (.bvbinary .bvadditionCarry 32 (bvadd 32 A B) (extend 31 1 C))
  | some (a, b) =>
    match castPtrBase 32 8 A with
    | some _ =>
      let addC := extract 32 32 33 (bvadd 33 (extend 1 32 a) (extend 1 32 b))
      let extended := addBitExtended A B addC
      added (addBit A B addC) extended (extract 32 32 33 extended)
    | none =>
      let fA := concat 32 32 A a
      let fB := concat 32 32 B b
      added (extract 63 32 64 (bvadd 64 fA fB))
        (extract 64 32 65 (bvadd 65 (extend 1 64 fA) (extend 1 64 fB)))
        (.bvbinary .bvadditionCarry 64 fA fB)

/-- The result of a subtraction: it overflows if the signs of the operands differ, and the sign of the result is
that of the second. -/
def subtracted (A B substrac carry : Bvexpr) : AssignResult :=
  let s1 := extract 31 31 32 A
  let s2 := extract 31 31 32 B
  let carry30 := extract 31 31 32 substrac
  { dst := substrac
    v := bvand 1 (bvxor 1 s1 s2) (bvnot 1 (bvxor 1 s2 carry30))
    c := carry
    u := [] }

/-- `instr::alu_op::minus::calculate`. -/
def calculateMinus (A B : Bvexpr) : AssignResult :=
  subtracted A B (bvsub 32 A B) (.bvbinary .bvsubstractionCarry 32 A B)

/-- `instr::alu_op::minus_carry::calculate`, where `C` is the flag. -/
def calculateMinusCarry (A B C : Bvexpr) : AssignResult :=
  match castBvbinary .bvsubstractionCarry 32 C with
  | none =>
    subtracted A B (bvsub 32 (bvsub 32 A B) (extend 31 1 C))
      (.bvbinary .bvsubstractionCarry 32 (bvsub 32 A B) (extend 31 1 C))
  | some (a, b) =>
    let fA := concat 32 32 A a
    let fB := concat 32 32 B b
    subtracted A B (extract 63 32 64 (bvsub 64 fA fB)) (.bvbinary .bvsubstractionCarry 64 fA fB)

/-- A result without carry and overflow. -/
def logical (dst : Bvexpr) : AssignResult := ⟨dst, constant 1 0, constant 1 0, []⟩

/-- `instr::alu_op::calculate`. -/
def calculate (A B : Bvexpr) (st : Exec) (o : Obj) : AluOp → AssignResult
  | plus => calculatePlus A B
  | plus16 => calculatePlus16 A B
  | plus8 => calculatePlus8 A B
  | plusCarry => calculatePlusCarry A B (st.flag o .C)
  | minus => calculateMinus A B
  | minusCarry => calculateMinusCarry A B (st.flag o .C)
  | negMinus => calculateMinus B A
  | .B => logical B
  | invB => logical (bvnot 32 B)
  | opAnd => logical (bvand 32 A B)
  | invAnd => logical (bvand 32 (bvnot 32 A) B)
  | andInv => logical (bvand 32 A (bvnot 32 B))
  | opOr => logical (bvor 32 A B)
  | opXor => logical (bvxor 32 A B)

end AluOp

end NfpEstimator
