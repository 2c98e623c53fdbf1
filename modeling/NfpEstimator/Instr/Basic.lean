import Mathlib

/-!
# Instructions

The instruction classes of `instr.hpp`, with what the control flow graph and the
cycle counts look at: the address, the operands, the target of a branch, and
for a memory access the shifts of its address operands and the signal it waits
for. What an instruction does to the symbolic state is not part of this module.
-/

namespace NfpEstimator

/-- The classes derived from `instr::src` and `instr::dst`. -/
inductive Operand where
  | gpr | lmindexed | xferIn | xferOut | constant | omitted
  deriving DecidableEq, Repr

/-- `instr::src::cycles` and `instr::dst::cycles`: no operand takes extra cycles. -/
def Operand.cycles : Operand → ℕ
  | .gpr | .lmindexed | .xferIn | .xferOut | .constant | .omitted => 0

@[simp] theorem Operand.cycles_eq (o : Operand) : o.cycles = 0 := by cases o <;> rfl

/-- The classes derived from `instr::proper_branch`. -/
inductive BranchCond where
  | bcc | bcs | beq | bge | bgt | ble | blt | bmi | bne | bpl | bvc | bvs
  deriving DecidableEq, Repr

/-- `instr`. -/
inductive Instr where
  | alu (id : ℕ) (dst srcA srcB : Operand)
  | aluShf (id : ℕ) (dst srcA srcB : Operand)
  | asr (id : ℕ) (dst src : Operand)
  | properBranch (id : ℕ) (cond : BranchCond) (target : ℕ)
  | br (id target : ℕ)
  | dblShf (id : ℕ) (dst srcA srcB : Operand)
  | immed (id : ℕ) (dst : Operand)
  | immedW1 (id : ℕ) (dst : Operand)
  | ldField (id : ℕ) (dst src : Operand)
  | ldFieldWClr (id : ℕ) (dst src : Operand)
  | localCsrWr (id : ℕ) (src : Operand)
  /-- `sc1` and `sc2` tell whether the operands are shifted, `ctxSwap` is the signal. -/
  | mem (id : ℕ) (src1 : Operand) (sc1 : Bool) (src2 : Operand) (sc2 : Bool) (ctxSwap : Option ℕ)
  | mulStep (id : ℕ) (srcA srcB : Operand)
  | mulStepLast (id : ℕ) (dst : Operand)
  | nop (id : ℕ)
  | fin
  deriving DecidableEq, Repr

/-- `instr::type`. -/
inductive InstrType where
  | FIN | BRANCH | JUMP | MEM | OTHER
  deriving DecidableEq, Repr

namespace Instr

/-- `instr::fin::ID`. -/
def finID : ℕ := 15000

/-- `instr::get_id`: the address. -/
def getId : Instr → ℕ
  | alu id _ _ _ | aluShf id _ _ _ | asr id _ _ | properBranch id _ _ | br id _
  | dblShf id _ _ _ | immed id _ | immedW1 id _ | ldField id _ _ | ldFieldWClr id _ _
  | localCsrWr id _ | mem id _ _ _ _ _ | mulStep id _ _ | mulStepLast id _ | nop id => id
  | fin => finID

/-- `instr::type`. -/
def type : Instr → InstrType
  | properBranch _ _ _ => .BRANCH
  | br _ _ => .JUMP
  | mem _ _ _ _ _ _ => .MEM
  | fin => .FIN
  | _ => .OTHER

/-- `instr::waits`. -/
def waits : Instr → Bool
  | mem _ _ _ _ _ ctxSwap => ctxSwap.isSome
  | _ => false

/-- `instr::writescc`. -/
def writescc : Instr → Bool
  | alu _ _ _ _ | aluShf _ _ _ _ | asr _ _ _ | dblShf _ _ _ _ | ldField _ _ _
  | ldFieldWClr _ _ _ | mulStepLast _ _ | fin => true
  | _ => false

/-- `instr::ordinary::COST`. -/
def ordinaryCost : ℕ := 1
/-- `instr::branch::COST_TRUE_EARLY`. -/
def branchCostTrueEarly : ℕ := 3
/-- `instr::branch::COST_TRUE`. -/
def branchCostTrue : ℕ := 4
/-- `instr::branch::COST_FALSE`. -/
def branchCostFalse : ℕ := 1
/-- `instr::mem::COST_NOSWAP_MIN`. -/
def memCostNoswapMin : ℕ := 1
/-- `instr::mem::COST_SWAP_MIN`. -/
def memCostSwapMin : ℕ := 3
/-- `instr::mem::COST_32BIT_MAX`. -/
def memCost32bitMax : ℕ := 16
/-- `instr::mem::COST_40BIT_MAX`. -/
def memCost40bitMax : ℕ := 25

/-- `instr::cycles`. A branch and the final instruction have no fixed number of
cycles; the source ends with an error when they are asked for it, and nobody does. -/
def cycles : Instr → ℕ
  | alu _ dst srcA srcB | aluShf _ dst srcA srcB | dblShf _ dst srcA srcB =>
    ordinaryCost + dst.cycles + max srcA.cycles srcB.cycles
  | asr _ dst src | ldField _ dst src | ldFieldWClr _ dst src =>
    ordinaryCost + dst.cycles + src.cycles
  | immed _ dst | immedW1 _ dst | mulStepLast _ dst => ordinaryCost + dst.cycles
  | localCsrWr _ src => ordinaryCost + src.cycles
  | mulStep _ srcA srcB => ordinaryCost + max srcA.cycles srcB.cycles
  | mem _ src1 _ src2 _ ctxSwap =>
    (if ctxSwap.isNone then memCostNoswapMin else memCostSwapMin) + max src1.cycles src2.cycles
  | br _ _ => branchCostTrue
  | nop _ => ordinaryCost
  | properBranch _ _ _ | fin => 0

/-- `instr::max_cycles`. -/
def maxCycles : Instr → ℕ
  | mem _ _ sc1 _ sc2 _ => if !sc1 && !sc2 then memCost32bitMax else memCost40bitMax
  | n => n.cycles

/-- Whatever has fixed cycles takes at least one. -/
theorem cycles_pos {n : Instr} (hb : n.type ≠ .BRANCH) (hf : n.type ≠ .FIN) : 0 < n.cycles := by
  cases n with
  | properBranch | fin => simp [type] at hb hf
  | mem id src1 sc1 src2 sc2 ctxSwap =>
    cases ctxSwap <;> simp [cycles, memCostNoswapMin, memCostSwapMin]
  | _ => simp [cycles, ordinaryCost, branchCostTrue]

end Instr

end NfpEstimator
