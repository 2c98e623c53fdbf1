import NfpEstimator.Instr.AluOp
import NfpEstimator.State.Perf

/-!
# What instructions do

The instructions with all of their operands (`Operation`), what they do to the symbolic state
(`Operation.perform`), what a branch tests (`BranchCond.check`) and how an instruction is applied to a state
along a path (`Exec.apply`). `Operation.instr` is what the control flow graph and the cycle counts know of an
operation.

Whatever an instruction makes anew to stand for an undefined value comes from `Fresh`, numbered by the place
in the instruction where it is made.
-/

namespace NfpEstimator

/-! ### Multiplication steps -/

/-- The steps of a multiplication that have operands: `instr::mul_step_tok`. -/
inductive MulTok where
  | start | s16x16Step1 | s16x16Step2 | s32x32Step1 | s32x32Step2 | s32x32Step3 | s32x32Step4
  deriving DecidableEq, Repr

/-- The steps that have a result: `instr::mul_step_tok::last`. -/
inductive MulLast where
  | s16x16Last | s32x32Last | s32x32Last2
  deriving DecidableEq, Repr

/-- Which of the objects `step_expr` a step returns. -/
def MulTok.obj : MulTok → Obj
  | .start => .fresh 0
  | .s16x16Step1 => .fresh 1
  | .s16x16Step2 => .fresh 2
  | .s32x32Step1 => .fresh 3
  | .s32x32Step2 => .fresh 4
  | .s32x32Step3 => .fresh 5
  | .s32x32Step4 => .fresh 6

@[inherit_doc MulTok.obj]
def MulLast.obj : MulLast → Obj
  | .s16x16Last => .fresh 7
  | .s32x32Last => .fresh 8
  | .s32x32Last2 => .fresh 9

/-- `instr::mul_step_tok::next`. -/
def MulTok.next (t : MulTok) : Bvexpr := .undefined 32 t.obj

@[inherit_doc MulTok.next]
def MulLast.next (t : MulLast) : Bvexpr := .undefined 32 t.obj

/-- `mul_step == tok.next()`, a comparison of objects. -/
def isObj (o : Obj) : Bvexpr → Bool
  | .undefined _ o' => o' == o
  | _ => false

/-- The check of a step that comes after the step `prev`, with the same operands. -/
def checkAfter [PastEnd] (prev : MulTok) (mulState mulA mulB A B : Bvexpr) : Bool :=
  isObj prev.obj mulState && (mulA.equal A && mulB.equal B)

/-- `instr::mul_step_tok::check`. -/
def MulTok.check [PastEnd] (mulState mulA mulB A B : Bvexpr) : MulTok → Bool
  | .start => true
  | .s16x16Step1 => checkAfter .start mulState mulA mulB A B
  | .s16x16Step2 => checkAfter .s16x16Step1 mulState mulA mulB A B
  | .s32x32Step1 => checkAfter .start mulState mulA mulB A B
  | .s32x32Step2 => checkAfter .s32x32Step1 mulState mulA mulB A B
  | .s32x32Step3 => checkAfter .s32x32Step2 mulState mulA mulB A B
  | .s32x32Step4 => checkAfter .s32x32Step3 mulState mulA mulB A B

@[inherit_doc MulTok.check]
def MulLast.check (mulState : Bvexpr) : MulLast → Bool
  | .s16x16Last => isObj MulTok.s16x16Step2.obj mulState
  | .s32x32Last => isObj MulTok.s32x32Step4.obj mulState
  | .s32x32Last2 => isObj MulLast.s32x32Last.obj mulState

/-- `instr::mul_step_tok::last::calculate`. -/
def MulLast.calculate (A B : Bvexpr) : MulLast → Bvexpr
  | .s16x16Last => .bvbinary .bvmultiplication 32 A B
  | .s32x32Last => .bvbinary .bvmultiplication 32 A B
  | .s32x32Last2 =>
    extract 63 32 64 (.bvbinary .bvmultiplication 64 (extend 32 32 A) (extend 32 32 B))

/-! ### Instructions -/

/-- `instr::mem_write_op`. -/
inductive MemWriteOp where
  | write8Swap | write32Swap | addImm
  deriving DecidableEq, Repr

/-- `instr`, with all operands. -/
inductive Operation where
  | alu (id : ℕ) (dst : Dst) (srcA : Src) (op : AluOp) (srcB : Src) (gprWrboth : Bool)
  | aluShf (id : ℕ) (dst : Dst) (srcA : Src) (op : AluOp) (srcB : Src) (sc : ShiftCntl) (gprWrboth : Bool)
  | asr (id : ℕ) (dst : Dst) (src : Src) (sc : Aright) (gprWrboth : Bool)
  | properBranch (id : ℕ) (cond : BranchCond) (target : ℕ)
  | br (id target : ℕ)
  | dblShf (id : ℕ) (dst : Dst) (srcA srcB : Src) (sc : ShiftCntl) (gprWrboth : Bool)
  | immed (id : ℕ) (dst : Dst) (im : ℕ) (sc : Option ShiftCntl) (gprWrboth : Bool)
  | immedW1 (id : ℕ) (dst : Dst) (im : ℕ) (gprWrboth : Bool)
  | ldField (id : ℕ) (dst : Dst) (mask : ℕ) (src : Src) (sc : Option ShiftCntl) (gprWrboth : Bool)
  | ldFieldWClr (id : ℕ) (dst : Dst) (mask : ℕ) (src : Src) (sc : Option ShiftCntl) (gprWrboth : Bool)
  | localCsrWr (id : ℕ) (localCsr : Fin 4) (src : Src)
  /-- The only `instr::mem_read_op` is `read32_swap`. -/
  | memRead (id : ℕ) (xfer : ℕ) (src1 : Src) (sc1 : Option ShiftCntl) (src2 : Src) (sc2 : Option ShiftCntl)
      (refCnt : ℕ) (indirectRef : Bool) (ctxSwap : Option ℕ)
  | memWrite (id : ℕ) (op : MemWriteOp) (xfer : ℕ) (src1 : Src) (sc1 : Option ShiftCntl) (src2 : Src)
      (sc2 : Option ShiftCntl) (refCnt : ℕ) (indirectRef : Bool) (ctxSwap : Option ℕ)
  | mulStep (id : ℕ) (srcA srcB : Src) (tok : MulTok)
  | mulStepLast (id : ℕ) (dst : Dst) (tok : MulLast) (gprWrboth : Bool)
  | nop (id : ℕ)
  | fin

/-- What the control flow and the cycle counts look at. -/
def Operation.instr : Operation → Instr
  | .alu id dst srcA _ srcB _ => .alu id dst.operand srcA.operand srcB.operand
  | .aluShf id dst srcA _ srcB _ _ => .aluShf id dst.operand srcA.operand srcB.operand
  | .asr id dst src _ _ => .asr id dst.operand src.operand
  | .properBranch id cond target => .properBranch id cond target
  | .br id target => .br id target
  | .dblShf id dst srcA srcB _ _ => .dblShf id dst.operand srcA.operand srcB.operand
  | .immed id dst _ _ _ => .immed id dst.operand
  | .immedW1 id dst _ _ => .immedW1 id dst.operand
  | .ldField id dst _ src _ _ => .ldField id dst.operand src.operand
  | .ldFieldWClr id dst _ src _ _ => .ldFieldWClr id dst.operand src.operand
  | .localCsrWr id _ src => .localCsrWr id src.operand
  | .memRead id _ src1 sc1 src2 sc2 _ _ ctxSwap =>
    .mem id src1.operand sc1.isSome src2.operand sc2.isSome ctxSwap
  | .memWrite id _ _ src1 sc1 src2 sc2 _ _ ctxSwap =>
    .mem id src1.operand sc1.isSome src2.operand sc2.isSome ctxSwap
  | .mulStep id srcA srcB _ => .mulStep id srcA.operand srcB.operand
  | .mulStepLast id dst _ _ => .mulStepLast id dst.operand
  | .nop id => .nop id
  | .fin => .fin

/-! ### Results -/

/-- The objects that an instruction makes, by the place where it makes them. None of them is one of the
`step_expr`. -/
structure Fresh where
  obj : ℕ → Obj
  ne_tok : ∀ k (t : MulTok), obj k ≠ t.obj
  ne_last : ∀ k (t : MulLast), obj k ≠ t.obj

/-- Objects that are numbered from `n` on, behind those of the steps. -/
def Fresh.numbered (n : ℕ) : Fresh where
  obj k := .fresh (n + k + 10)
  ne_tok k t := by cases t <;> simp [MulTok.obj]
  ne_last k t := by cases t <;> simp [MulLast.obj]

variable [PastEnd] (f : Fresh)

/-- `instr::alu_like::calculate`. -/
def calculateAlu (srcA : Src) (op : AluOp) (srcB : Src) (sc : Option ShiftCntl) (st : Exec) : AssignResult :=
  let A := srcA.read st (f.obj 0)
  let B := ShiftCntl.calculateOpt 32 (srcB.read st (f.obj 1)) st (f.obj 2) sc
  let r := op.calculate A B st (f.obj 3)
  if op.writesPrev then
    { r with u := r.u ++
        [.reg Hreg.prevA.location A, .reg Hreg.prevAlu.location r.dst,
          .defered 1 (.reg Hreg.prevA.location (undef 32)),
          .defered 1 (.reg Hreg.prevAlu.location (undef 32))] }
  else r

/-- The operator of an instruction derived from `instr::alu_like`, and its operands. -/
def Operation.aluLike (st : Exec) : Operation → Option (AluOp × Bvexpr × Bvexpr)
  | .alu _ _ srcA op srcB _ => some (op, srcA.read st (f.obj 0), srcB.read st (f.obj 1))
  | .aluShf _ _ srcA op srcB sc _ =>
    some (op, srcA.read st (f.obj 0), sc.calculate 32 (srcB.read st (f.obj 1)) st (f.obj 2))
  | _ => none

/-- Where it goes, and whether to both banks. -/
def Operation.aluDst : Operation → Option (Dst × Bool)
  | .alu _ dst _ _ _ wrboth | .aluShf _ dst _ _ _ _ wrboth => some (dst, wrboth)
  | _ => none

/-- `instr::asr::calculate`. -/
def calculateAsr (src : Src) (sc : Aright) (st : Exec) : AssignResult :=
  let prevAlu := st.reg (f.obj 2) Hreg.prevAlu.location
  let s := extract 31 31 32 prevAlu
  { dst := extract 31 0 33 (sc.calculate33 (concat 1 32 s (src.read st (f.obj 0))) st (f.obj 3))
    v := constant 1 0
    c := constant 1 0
    u := [.reg Hreg.prevAlu.location prevAlu, .defered 1 (.reg Hreg.prevAlu.location (undef 32))] }

/-- `instr::dbl_shf::calculate`. -/
def calculateDblShf (srcA srcB : Src) (sc : ShiftCntl) (st : Exec) : AssignResult :=
  { dst := extract 31 0 64
      (sc.calculate 64 (concat 32 32 (srcA.read st (f.obj 0)) (srcB.read st (f.obj 1))) st (f.obj 2))
    v := constant 1 0
    c := constant 1 0
    u := [] }

/-- A result that leaves the flags undefined. -/
def plainResult (dst : Bvexpr) (u : List Update) : AssignResult := ⟨dst, undef 1, undef 1, u⟩

/-- `instr::immed::calculate`. -/
def calculateImmed (im : ℕ) (sc : Option ShiftCntl) (st : Exec) : AssignResult :=
  let i := ShiftCntl.calculateOpt 64 (concat 32 32 (constant 32 im) (constant 32 im)) st (f.obj 2) sc
  let r := extract 63 32 64 i
  plainResult r [.reg Hreg.prevAlu.location r]

/-- What an instruction reads of its own destination. -/
def Dst.readOld (st : Exec) (o : Obj) (dst : Dst) : Bvexpr :=
  match dst.toSrc with
  | some src => src.read st o
  | none => .undefined 32 o

/-- `instr::immed_w1::calculate`. -/
def calculateImmedW1 (dst : Dst) (im : ℕ) (st : Exec) : AssignResult :=
  plainResult (concat 16 16 (constant 16 im) (extract 15 0 32 (dst.readOld st (f.obj 0)))) []

/-- The bits of a mask that is given as four decimal digits, one for each byte. -/
def fieldMask (mask : ℕ) : ℕ :=
  (if mask % 10 ≠ 0 then 0xff else 0) ||| (if mask / 10 % 10 ≠ 0 then 0xff00 else 0) |||
    (if mask / 100 % 10 ≠ 0 then 0xff0000 else 0) ||| (if mask / 1000 ≠ 0 then 0xff000000 else 0)

/-- `instr::ld_field::calculate`. -/
def calculateLdField (dst : Dst) (mask : ℕ) (src : Src) (sc : Option ShiftCntl) (st : Exec) : AssignResult :=
  let e := ShiftCntl.calculateOpt 32 (src.read st (f.obj 0)) st (f.obj 2) sc
  if mask = 1111 then plainResult e []
  else
    let p := dst.readOld st (f.obj 1)
    plainResult
      (bvor 32 (bvand 32 p (constant 32 (2 ^ 32 - 1 - fieldMask mask)))
        (bvand 32 e (constant 32 (fieldMask mask)))) []

/-- `instr::ld_field_w_clr::calculate`. -/
def calculateLdFieldWClr (mask : ℕ) (src : Src) (sc : Option ShiftCntl) (st : Exec) : AssignResult :=
  let e := ShiftCntl.calculateOpt 32 (src.read st (f.obj 0)) st (f.obj 2) sc
  if mask = 1111 then plainResult e [] else plainResult (bvand 32 e (constant 32 (fieldMask mask))) []

/-- `instr::mul_step_last::calculate`. -/
def calculateMulStepLast (tok : MulLast) (st : Exec) : AssignResult :=
  let mulState := st.reg (f.obj 0) Hreg.mulState.location
  let mulA := st.reg (f.obj 1) Hreg.mulA.location
  let mulB := st.reg (f.obj 2) Hreg.mulB.location
  if tok.check mulState then
    { dst := tok.calculate mulA mulB
      v := undef 1
      c := undef 1
      u := [.reg Hreg.mulState.location tok.next] }
  else
    { dst := .undefined 32 (f.obj 3)
      v := .undefined 1 (f.obj 4)
      c := .undefined 1 (f.obj 5)
      u := [.reg Hreg.mulState.location (.undefined 32 (f.obj 6)),
        .reg Hreg.mulA.location (.undefined 32 (f.obj 7)),
        .reg Hreg.mulB.location (.undefined 32 (f.obj 8))] }

/-- `instr::assign::perform`, of a result. -/
def assignUpdates (dst : Dst) (gprWrboth writescc : Bool) (r : AssignResult) (st : Exec) : List Update :=
  [dst.write st (f.obj 15) r.dst] ++
    (match gprWrboth, dst with
    | true, .gpr g => [.reg g.flip.location r.dst]
    | _, _ => []) ++
    (if writescc then
      [.flag Flag.N.location (bvcomp 1 (extract 31 31 32 r.dst) (constant 1 1)),
        .flag Flag.Z.location (bvcomp 32 r.dst (constant 32 0)),
        .flag Flag.V.location r.v, .flag Flag.C.location r.c]
    else []) ++ r.u

/-! ### Memory -/

/-- `REF_CNT_MAX`. -/
def refCntMax : ℕ := 32

/-- The transfer registers of a memory access, if the operation wants `max` of them: the first one is always
there. Their numbers are of the type `std::uint8_t`. -/
def xfers (xfer max : ℕ) : List ℕ := (List.range (Nat.max 1 max)).map fun i => (xfer + i) % 2 ^ 8

/-- The address of a memory access. -/
def memAddress (src1 : Src) (sc1 : Option ShiftCntl) (src2 : Src) (sc2 : Option ShiftCntl) (st : Exec) : Bvexpr :=
  bvadd 32 (ShiftCntl.calculateOpt 32 (src1.read st (f.obj 0)) st (f.obj 2) sc1)
    (ShiftCntl.calculateOpt 32 (src2.read st (f.obj 1)) st (f.obj 3) sc2)

/-- How many transfers an access with `indirect_ref` does. -/
def indirectCount (st : Exec) (o : Obj) : Bvexpr :=
  bvadd 32 (bvlshr 32 (st.reg o Hreg.prevAlu.location) (constant 32 8)) (constant 32 1)

/-- `instr::mem_read_op::read32_swap::read`. The index goes up only if memory is read. -/
def read32Swap (ptr : Bvexpr) (index : ℕ) (st : Exec) (o : Obj) : Bvexpr × ℕ :=
  let offset := fun k => castPtr 32 8 (bvadd 32 ptr (constant 32 (index * 4 + k)))
  match offset 0, offset 1, offset 2, offset 3 with
  | some (array, o0), some (_, o1), some (_, o2), some (_, o3) =>
    let a := st.array8 o array
    (concat 8 24 (select 32 8 a o3) (concat 8 16 (select 32 8 a o2)
      (concat 8 8 (select 32 8 a o1) (select 32 8 a o0))), index + 1)
  | _, _, _, _ => (.undefined 32 o, index)

/-- The loop of `instr::mem_read::perform`; `k` counts the transfer registers, for the objects that are made. -/
def readXfers (src : Bvexpr) (indirectRef : Bool) (st : Exec) : ℕ → ℕ → List ℕ → List Update
  | _, _, [] => []
  | k, i, x :: xs =>
    let read := read32Swap src i st (f.obj (16 + 3 * k))
    let r :=
      if indirectRef then
        Bvexpr.ite 32 (bvugt 32 (indirectCount st (f.obj (17 + 3 * k))) (constant 32 i)) read.1
          (st.reg (f.obj (18 + 3 * k)) (xferInLocation x))
      else read.1
    .reg (xferInLocation x) r :: readXfers src indirectRef st (k + 1) read.2 xs

/-- `instr::mem_read::perform`. -/
def performRead (xfer : ℕ) (src1 : Src) (sc1 : Option ShiftCntl) (src2 : Src) (sc2 : Option ShiftCntl)
    (refCnt : ℕ) (indirectRef : Bool) (st : Exec) : List Update :=
  readXfers f (memAddress f src1 sc1 src2 sc2 st) indirectRef st 0 0
    (xfers xfer (if indirectRef then refCntMax else refCnt))

/-- `instr::mem_write_op::xfers`, of a count of the type `std::uint32_t`. -/
def MemWriteOp.xfers (refCnt : ℕ) : MemWriteOp → ℕ
  | .write8Swap => (refCnt + 3) % 2 ^ 32 / 4
  | .write32Swap => refCnt
  | .addImm => 0

/-- The body that `write8_swap::write` and `write32_swap::write` share: four bytes, as far as there are as
many. -/
def writeBytes (array : Bvarray) (offset value : Bvexpr) (index : ℕ) (ref : Bvexpr) : Bvarray × ℕ :=
  let o := fun k => bvadd 32 offset (constant 32 (index + k))
  let b := fun k => extract (8 * k + 7) (8 * k) 32 value
  let enough := fun k => bvuge 32 ref (constant 32 (index + k))
  let array := store 32 8 array (o 0) (b 0)
  let array := Bvarray.ite 32 8 (enough 2) (store 32 8 array (o 1) (b 1)) array
  let array := Bvarray.ite 32 8 (enough 3) (store 32 8 array (o 2) (b 2)) array
  let array := Bvarray.ite 32 8 (enough 4) (store 32 8 array (o 3) (b 3)) array
  (array, index + 4)

/-- `instr::mem_write_op::add_imm::write`. -/
def addImm (array : Bvarray) (offset ref : Bvexpr) (o : Obj) : Bvarray :=
  let at_ := fun k => bvadd 32 offset (constant 32 k)
  match castPtr 32 8 (at_ 0), castPtr 32 8 (at_ 1), castPtr 32 8 (at_ 2), castPtr 32 8 (at_ 3) with
  | some (_, o0), some (_, o1), some (_, o2), some (_, o3) =>
    let res := bvadd 32 (concat 8 24 (select 32 8 array o3) (concat 8 16 (select 32 8 array o2)
      (concat 8 8 (select 32 8 array o1) (select 32 8 array o0)))) ref
    let b := fun k => extract (8 * k + 7) (8 * k) 32 res
    store 32 8 (store 32 8 (store 32 8 (store 32 8 array (at_ 0) (b 0)) (at_ 1) (b 1)) (at_ 2) (b 2))
      (at_ 3) (b 3)
  | _, _, _, _ => .undefinedArray 32 8 o

/-- `instr::mem_write_op::write`. -/
def MemWriteOp.write (array : Bvarray) (offset value : Bvexpr) (index : ℕ) (ref : Bvexpr) (o : Obj) :
    MemWriteOp → Bvarray × ℕ
  | .write8Swap => writeBytes array offset value index ref
  | .write32Swap => writeBytes array offset value index ref
  | .addImm => (NfpEstimator.addImm array offset ref o, index)

/-- The loop of `instr::mem_write::perform`. -/
def writeXfers (op : MemWriteOp) (offset ref : Bvexpr) (st : Exec) : ℕ → ℕ → Bvarray → List ℕ → Bvarray
  | _, _, array, [] => array
  | k, i, array, x :: xs =>
    let written := op.write array offset (st.reg (f.obj (16 + 2 * k)) (xferOutLocation x)) i ref
      (f.obj (17 + 2 * k))
    writeXfers op offset ref st (k + 1) written.2 written.1 xs

/-- `instr::mem_write::perform`. -/
def performWrite (op : MemWriteOp) (xfer : ℕ) (src1 : Src) (sc1 : Option ShiftCntl) (src2 : Src)
    (sc2 : Option ShiftCntl) (refCnt : ℕ) (indirectRef : Bool) (st : Exec) : List Update :=
  match castPtr 32 8 (memAddress f src1 sc1 src2 sc2 st) with
  | none => [.invalidateMem]
  | some (array, offset) =>
    let ref := if indirectRef then indirectCount st (f.obj 4) else constant 32 refCnt
    [.mem8 array (writeXfers f op offset ref st 0 0 (st.array8 (f.obj 5) array)
      (xfers xfer (op.xfers (if indirectRef then refCntMax else refCnt))))]

/-! ### Performing -/

/-- `instr::mul_step::perform`. -/
def performMulStep (srcA srcB : Src) (tok : MulTok) (st : Exec) : List Update :=
  let mulState := st.reg (f.obj 0) Hreg.mulState.location
  let mulA := st.reg (f.obj 1) Hreg.mulA.location
  let mulB := st.reg (f.obj 2) Hreg.mulB.location
  let A := srcA.read st (f.obj 3)
  let B := srcB.read st (f.obj 4)
  if tok.check mulState mulA mulB A B then
    [.reg Hreg.mulState.location tok.next, .reg Hreg.mulA.location A, .reg Hreg.mulB.location B]
  else
    [.reg Hreg.mulState.location (.undefined 32 (f.obj 6)),
      .reg Hreg.mulA.location (.undefined 32 (f.obj 7)),
      .reg Hreg.mulB.location (.undefined 32 (f.obj 8))]

/-- `instr::perform`. -/
def Operation.perform (st : Exec) : Operation → List Update
  | .alu _ dst srcA op srcB wrboth =>
    assignUpdates f dst wrboth true (calculateAlu f srcA op srcB none st) st
  | .aluShf _ dst srcA op srcB sc wrboth =>
    assignUpdates f dst wrboth true (calculateAlu f srcA op srcB (some sc) st) st
  | .asr _ dst src sc wrboth => assignUpdates f dst wrboth true (calculateAsr f src sc st) st
  | .dblShf _ dst srcA srcB sc wrboth =>
    assignUpdates f dst wrboth true (calculateDblShf f srcA srcB sc st) st
  | .immed _ dst im sc wrboth => assignUpdates f dst wrboth false (calculateImmed f im sc st) st
  | .immedW1 _ dst im wrboth => assignUpdates f dst wrboth false (calculateImmedW1 f dst im st) st
  | .ldField _ dst mask src sc wrboth =>
    assignUpdates f dst wrboth true (calculateLdField f dst mask src sc st) st
  | .ldFieldWClr _ dst mask src sc wrboth =>
    assignUpdates f dst wrboth true (calculateLdFieldWClr f mask src sc st) st
  | .mulStepLast _ dst tok wrboth => assignUpdates f dst wrboth true (calculateMulStepLast f tok st) st
  | .localCsrWr _ csr src => [.defered 3 (.reg (Hreg.actLMAddr csr).location (src.read st (f.obj 0)))]
  | .memRead _ xfer src1 sc1 src2 sc2 refCnt indirectRef _ =>
    performRead f xfer src1 sc1 src2 sc2 refCnt indirectRef st
  | .memWrite _ op xfer src1 sc1 src2 sc2 refCnt indirectRef _ =>
    performWrite f op xfer src1 sc1 src2 sc2 refCnt indirectRef st
  | .mulStep _ srcA srcB tok => performMulStep f srcA srcB tok st
  | .properBranch _ _ _ | .br _ _ | .nop _ | .fin => []

/-! ### Branching -/

/-- The operands of a carry that is left as an operator. -/
def expandCarry (B : ℕ) (C : Bvexpr) : Bvexpr :=
  match castBvbinary .bvadditionCarry B C with
  | some (a, b) => extract B B (B + 1) (bvadd (B + 1) (extend 1 B a) (extend 1 B b))
  | none => C

/-- `instr::bcc::check` and `instr::bcs::check`: a comparison of what was subtracted, or a test of the carry.
Two pointers into one array are compared by their offsets. -/
def checkCarry (cmp cmpExt : ℕ → Bvexpr → Bvexpr → Lexpr) (bit : ℕ) (st : Exec) : Lexpr :=
  let C := st.flag (f.obj 0) .C
  match castBvbinary .bvsubstractionCarry 32 C with
  | some (a, b) =>
    match castPtr 32 8 a, castPtr 32 8 b with
    | some (array, o), some (array', o') => if array = array' then cmp 32 o o' else cmp 32 a b
    | _, _ => cmp 32 a b
  | none =>
    match castBvbinary .bvsubstractionCarry 64 C with
    | some (a, b) =>
      match castPtrExt 32 8 32 a, castPtrExt 32 8 32 b with
      | some (array, o, x), some (array', o', x') =>
        if array = array' then lor (cmpExt 32 x x') (land (eq 32 x x') (cmp 32 o o')) else cmp 64 a b
      | _, _ => cmp 64 a b
    | none => eq 1 (expandCarry 64 (expandCarry 32 C)) (constant 1 bit)

/-- `instr::check` of a branch. -/
def BranchCond.check (st : Exec) : BranchCond → Lexpr
  | .bcc => checkCarry f bvult bvult 0 st
  | .bcs => checkCarry f bvuge bvugt 1 st
  | .beq => eq 1 (st.flag (f.obj 0) .Z) (constant 1 1)
  | .bge => eq 1 (st.flag (f.obj 0) .N) (st.flag (f.obj 1) .V)
  | .bgt =>
    land (eq 1 (st.flag (f.obj 0) .Z) (constant 1 0)) (eq 1 (st.flag (f.obj 1) .N) (st.flag (f.obj 2) .V))
  | .ble =>
    lor (eq 1 (st.flag (f.obj 0) .Z) (constant 1 1))
      (isfalse (eq 1 (st.flag (f.obj 1) .N) (st.flag (f.obj 2) .V)))
  | .blt => isfalse (eq 1 (st.flag (f.obj 0) .N) (st.flag (f.obj 1) .V))
  | .bmi => eq 1 (st.flag (f.obj 0) .N) (constant 1 1)
  | .bne => eq 1 (st.flag (f.obj 0) .Z) (constant 1 0)
  | .bpl => eq 1 (st.flag (f.obj 0) .N) (constant 1 0)
  | .bvc => eq 1 (st.flag (f.obj 0) .V) (constant 1 0)
  | .bvs => eq 1 (st.flag (f.obj 0) .V) (constant 1 1)

end NfpEstimator
