import NfpEstimator.Expr.Arithmetic
import NfpEstimator.Expr.Arrays
import NfpEstimator.Instr.Basic
import NfpEstimator.State.Exec

/-!
# Operands

What instructions read and write: general purpose registers, transfer registers, local memory through the
address registers `ActLMAddr`, and constants, with the shifts that an operand may go through
(`instr::src`, `instr::dst`, `instr::shift_cntl`).

What has never been written reads as an undefined expression. Every time this is a new object; which one it is
is an argument here (`o`), so that whatever is proved holds for any choice.
-/

namespace NfpEstimator

/-! ### Registers -/

/-- The bank of a general purpose register. -/
inductive Bank where
  | A | B
  deriving DecidableEq, Repr

/-- The letter of the bank. -/
def Bank.name : Bank → String
  | .A => "A"
  | .B => "B"

/-- `instr::gpr`. -/
structure Gpr where
  bank : Bank
  number : ℕ
  deriving DecidableEq, Repr

/-- `instr::gpr::location`. -/
def Gpr.location (g : Gpr) : String := "gpr" ++ g.bank.name ++ "_" ++ toString g.number

/-- `instr::gpr::flip`: the register of the other bank. -/
def Gpr.flip (g : Gpr) : Gpr :=
  match g.bank with
  | .A => ⟨.B, g.number⟩
  | .B => ⟨.A, g.number⟩

/-- `instr::xfer_in::location`. -/
def xferInLocation (number : ℕ) : String := "$xfer_in_" ++ toString number

/-- `instr::xfer_out::location`. -/
def xferOutLocation (number : ℕ) : String := "$xfer_out_" ++ toString number

/-- `instr::hreg`: the registers that are not operands. -/
inductive Hreg where
  | prevAlu | prevA | mulA | mulB | mulState
  /-- `instr::ActLMAddr`. -/
  | actLMAddr (addr : Fin 4)
  deriving DecidableEq, Repr

/-- `instr::hreg::location`. -/
def Hreg.location : Hreg → String
  | .prevAlu => "PREV_ALU"
  | .prevA => "PREV_A"
  | .mulA => "mulA"
  | .mulB => "mulB"
  | .mulState => "mul_state"
  | .actLMAddr 0 => "ActLMAddr0"
  | .actLMAddr 1 => "ActLMAddr1"
  | .actLMAddr 2 => "ActLMAddr2"
  | .actLMAddr 3 => "ActLMAddr3"

instance instNeZeroFour : NeZero 4 := ⟨by decide⟩

/-- All of them. -/
def Hreg.all : List Hreg :=
  [.prevAlu, .prevA, .mulA, .mulB, .mulState, .actLMAddr 0, .actLMAddr 1, .actLMAddr 2, .actLMAddr 3]

theorem Hreg.find_location (h : Hreg) : Hreg.all.find? (fun h' => h'.location = h.location) = some h := by
  match h with
  | .prevAlu | .prevA | .mulA | .mulB | .mulState | .actLMAddr 0 | .actLMAddr 1 | .actLMAddr 2 | .actLMAddr 3 =>
    simp [Hreg.all, Hreg.location]

theorem Hreg.location_injective : Function.Injective Hreg.location := by
  intro h h' he
  have hfind := h.find_location
  rw [he, h'.find_location] at hfind
  exact (Option.some.inj hfind).symm

theorem Hreg.location_head (h : Hreg) : h.location.toList.head? = some 'P' ∨
    h.location.toList.head? = some 'm' ∨ h.location.toList.head? = some 'A' := by
  match h with
  | .prevAlu | .prevA | .mulA | .mulB | .mulState | .actLMAddr 0 | .actLMAddr 1 | .actLMAddr 2 | .actLMAddr 3 =>
    simp [Hreg.location]

/-- None of them is an operand. -/
theorem Hreg.location_ne_gpr (h : Hreg) (g : Gpr) : h.location ≠ g.location := by
  intro he
  have hg : g.location.toList.head? = some 'g' := by simp [Gpr.location]
  rcases h.location_head with hh | hh | hh <;> simp [he, hg] at hh

theorem Hreg.location_ne_xferIn (h : Hreg) (n : ℕ) : h.location ≠ xferInLocation n := by
  intro he
  have hx : (xferInLocation n).toList.head? = some '$' := by simp [xferInLocation]
  rcases h.location_head with hh | hh | hh <;> simp [he, hx] at hh

theorem Hreg.location_ne_xferOut (h : Hreg) (n : ℕ) : h.location ≠ xferOutLocation n := by
  intro he
  have hx : (xferOutLocation n).toList.head? = some '$' := by simp [xferOutLocation]
  rcases h.location_head with hh | hh | hh <;> simp [he, hx] at hh

/-- `instr::flag`. -/
inductive Flag where
  | N | Z | V | C
  deriving DecidableEq, Repr

/-- `instr::flag::location`. -/
def Flag.location : Flag → String
  | .N => "N"
  | .Z => "Z"
  | .V => "V"
  | .C => "C"

/-! ### Reading the state -/

/-- `state::exec::operator[]` of a register. -/
def Exec.reg (st : Exec) (o : Obj) (location : String) : Bvexpr := (st.registers location).getD (.undefined 32 o)

/-- `state::exec::operator[]` of a flag. -/
def Exec.flag (st : Exec) (o : Obj) (f : Flag) : Bvexpr := (st.flags f.location).getD (.undefined 1 o)

/-- `state::exec::operator[]` of an array of bytes. -/
def Exec.array8 (st : Exec) (o : Obj) (array : String) : Bvarray :=
  (st.mem8 array).getD (.undefinedArray 32 8 o)

/-- `state::exec::operator[]` of an array of words. -/
def Exec.array32 (st : Exec) (o : Obj) (array : String) : Bvarray :=
  (st.mem32 array).getD (.undefinedArray 32 32 o)

/-! ### Sources and destinations -/

/-- `instr::src`. -/
inductive Src where
  | gpr (g : Gpr)
  | lmindexed (addr : Fin 4) (offset : ℕ)
  | xferIn (number : ℕ)
  | constant (value : ℕ)
  | omitted
  deriving DecidableEq, Repr

/-- `instr::dst`. -/
inductive Dst where
  | gpr (g : Gpr)
  | lmindexed (addr : Fin 4) (offset : ℕ)
  | xferOut (number : ℕ)
  | omitted
  deriving DecidableEq, Repr

/-- The array and the element that `instr::lmindexed` is about, if the address register points to the beginning
of a word that is known. -/
def Exec.lmElement (st : Exec) (o : Obj) (addr : Fin 4) (offset : ℕ) : Option (String × Bvexpr) :=
  match castPtr 32 32 (st.reg o (Hreg.actLMAddr addr).location) with
  | none => none
  | some (array, p) =>
    match castConstant 32 p with
    | none => none
    | some b => if b % 4 ≠ 0 then none else some (array, NfpEstimator.constant 32 (b / 4 + offset))

/-- `instr::src::read`. -/
def Src.read (st : Exec) (o : Obj) : Src → Bvexpr
  | .gpr g => st.reg o g.location
  | .lmindexed addr offset =>
    match st.lmElement o addr offset with
    | some (array, i) => select 32 32 (st.array32 o array) i
    | none => .undefined 32 o
  | .xferIn number => st.reg o (xferInLocation number)
  | .constant value => NfpEstimator.constant 32 value
  | .omitted => .undefined 32 o

/-- `instr::dst::write`. -/
def Dst.write (st : Exec) (o : Obj) (e : Bvexpr) : Dst → Update
  | .gpr g => .reg g.location e
  | .lmindexed addr offset =>
    match st.lmElement o addr offset with
    | some (array, i) => .mem32 array (store 32 32 (st.array32 o array) i e)
    | none => .invalidateMem
  | .xferOut number => .reg (xferOutLocation number) e
  | .omitted => .noop

/-- `dynamic_cast<const instr::src*>` of a destination. -/
def Dst.toSrc : Dst → Option Src
  | .gpr g => some (.gpr g)
  | .lmindexed addr offset => some (.lmindexed addr offset)
  | .xferOut _ => none
  | .omitted => some .omitted

/-- The class of a source. -/
def Src.operand : Src → Operand
  | .gpr _ => .gpr
  | .lmindexed _ _ => .lmindexed
  | .xferIn _ => .xferIn
  | .constant _ => .constant
  | .omitted => .omitted

/-- The class of a destination. -/
def Dst.operand : Dst → Operand
  | .gpr _ => .gpr
  | .lmindexed _ _ => .lmindexed
  | .xferOut _ => .xferOut
  | .omitted => .omitted

/-! ### Shifts -/

/-- `instr::shift_cntl::aright`. -/
inductive Aright where
  | rightim (amount : ℕ)
  | rightindirect
  deriving DecidableEq, Repr

/-- `instr::shift_cntl`. -/
inductive ShiftCntl where
  | leftim (amount : ℕ)
  | rotleftim (amount : ℕ)
  | rotrightim (amount : ℕ)
  | leftindirect
  | aright (sc : Aright)
  deriving DecidableEq, Repr

/-- The amount of an indirect shift, in the width of what is shifted. -/
def prevAmount (B : ℕ) (st : Exec) (o : Obj) : Bvexpr :=
  let amount := bvand 32 (st.reg o Hreg.prevA.location) (constant 32 0x1f)
  if B = 32 then amount else extend (B - 32) 32 amount

/-- `instr::shift_cntl::calculate`, for 32 and 64 bits. -/
def ShiftCntl.calculate (B : ℕ) (e : Bvexpr) (st : Exec) (o : Obj) : ShiftCntl → Bvexpr
  | .leftim amount => bvshl B e (constant B amount)
  | .rotleftim amount => .bvrotationl B amount e
  | .rotrightim amount => .bvrotationr B amount e
  | .leftindirect => bvshl B e (prevAmount B st o)
  | .aright (.rightim amount) => bvlshr B e (constant B amount)
  | .aright .rightindirect => bvlshr B e (prevAmount B st o)

/-- `instr::shift_cntl::aright::calculate`, for 33 bits. -/
def Aright.calculate33 (e : Bvexpr) (st : Exec) (o : Obj) : Aright → Bvexpr
  | .rightim amount => .bvbinary .bvashiftr 33 e (constant 33 amount)
  | .rightindirect => .bvbinary .bvashiftr 33 e (prevAmount 33 st o)

/-- A shift that may be left out. -/
def ShiftCntl.calculateOpt (B : ℕ) (e : Bvexpr) (st : Exec) (o : Obj) (sc : Option ShiftCntl) : Bvexpr :=
  match sc with
  | some sc => sc.calculate B e st o
  | none => e

end NfpEstimator
