import NfpEstimator.State.Apply
import NfpEstimator.Cfg.Cycles

/-!
# DRAM cycles

Beside its cycles, a path is charged for the time that its memory accesses take in DRAM. `state::perf` keeps both sums,
and `state::exec` extends it by the symbolic state; applied to an instruction, it goes on to charge even if it is known
that the path is impossible (`DramExec.apply_perf`).

DRAM cycles are exact numbers here. For some accesses none are known, and the program ends.
-/

namespace NfpEstimator

/-- How the program ends before an operation is done. -/
inductive Stop where
  | errx (message : String)
  /-- Something that is not there is used. -/
  | undefined
  deriving DecidableEq

/-! ### Instructions -/

/-- `instr::mem_write_op::str`. -/
def MemWriteOp.str : MemWriteOp → String
  | .write8Swap => "write8_swap"
  | .write32Swap => "write32_swap"
  | .addImm => "add_imm"

/-- `instr::mem_write_op::dram_cycles`. -/
def MemWriteOp.dramCycles : MemWriteOp → Except Stop ℚ
  | .write8Swap => .error (.errx ("unknown DRAM cycles for " ++ MemWriteOp.write8Swap.str))
  | .write32Swap => .error (.errx ("unknown DRAM cycles for " ++ MemWriteOp.write32Swap.str))
  | .addImm => .ok 3.219818925010342

/-- `instr::mem_read_op::read32_swap::dram_cycles`. -/
def read32SwapDramCycles : Except Stop ℚ := .ok 4.052463035413383

/-- `instr::dram_cycles`. An access with a 32 bit address is not to DRAM. -/
def Operation.dramCycles : Operation → Except Stop ℚ
  | .memRead _ _ _ sc1 _ sc2 _ _ _ => if sc1.isNone ∧ sc2.isNone then .ok 0 else read32SwapDramCycles
  | .memWrite _ op _ _ sc1 _ sc2 _ _ _ => if sc1.isNone ∧ sc2.isNone then .ok 0 else op.dramCycles
  | _ => .ok 0

/-- `instr::name`. -/
def Operation.name : Operation → String
  | .alu .. => "alu"
  | .aluShf .. => "alu_shf"
  | .asr .. => "asr"
  | .properBranch _ cond _ => cond.name
  | .br .. => "br"
  | .dblShf .. => "dbl_shf"
  | .immed .. => "immed"
  | .immedW1 .. => "immed_w1"
  | .ldField .. => "ld_field"
  | .ldFieldWClr .. => "ld_field_w_clr"
  | .localCsrWr .. => "local_csr_wr"
  | .memRead .. | .memWrite .. => "mem"
  | .mulStep .. | .mulStepLast .. => "mul_step"
  | .nop _ => "nop"
  | .fin => "fin"

/-- `cfg::instr_data`, with all of the instruction. -/
structure OpData where
  n : Operation
  i : Info

/-! ### The two states -/

/-- `state::perf`. -/
structure PerfState where
  summaxcycles : ℕ
  sumdramcycles : ℚ
  deriving DecidableEq

/-- `state::exec`, with all of `state::perf`. -/
structure DramExec extends Exec where
  sumdramcycles : ℚ

/-- What an instruction adds to the DRAM cycles. -/
def addDram (sum : ℚ) (n : Operation) : Except Stop ℚ := do
  let c ← n.dramCycles
  pure (sum + c)

/-- `state::perf::apply`. -/
def PerfState.apply (p : PerfState) (x : OpData) (branchtrue : Bool) : Except Stop PerfState := do
  let dram ← addDram p.sumdramcycles x.n
  pure ⟨wrap32 (p.summaxcycles + perfCycles x.n.instr x.i branchtrue), dram⟩

/-- The part of `state::exec` that is `state::perf`. -/
def DramExec.perf (st : DramExec) : PerfState := ⟨st.summaxcycles, st.sumdramcycles⟩

/-- All instructions of a block but the last are applied. -/
def PerfState.enter (p : PerfState) (ds : List OpData) : Except Stop PerfState :=
  ds.dropLast.foldlM (fun p x => p.apply x false) p

section
variable [PastEnd]

/-- `state::exec::apply`. -/
def DramExec.apply (st : DramExec) (s : Step) : Except Stop DramExec := do
  let dram ← addDram st.sumdramcycles s.n
  pure { toExec := st.toExec.apply s, sumdramcycles := dram }

@[inherit_doc PerfState.enter]
def DramExec.enter (st : DramExec) (loopdepth : ℕ) (fresh : ℕ → Fresh) (ds : List OpData) : Except Stop DramExec :=
  ds.dropLast.zipIdx.foldlM (fun st x => st.apply ⟨x.1.n, x.1.i, loopdepth, false, fresh x.2⟩) st

end

/-! ### What is charged -/

/-- Loops that take the same steps but for what `φ` leaves out. -/
theorem foldlM_map_state {m : Type → Type} [Monad m] [LawfulMonad m] {α σ τ : Type} (φ : σ → τ) {f : σ → α → m σ}
    {f' : τ → α → m τ} (h : ∀ s x, φ <$> f s x = f' (φ s) x) (l : List α) (s : σ) :
    φ <$> l.foldlM f s = l.foldlM f' (φ s) := by
  induction l generalizing s with
  | nil => rw [List.foldlM_nil, List.foldlM_nil, map_pure]
  | cons x l ih => rw [List.foldlM_cons, List.foldlM_cons, map_bind, ← h, bind_map_left, funext ih]

@[simp] theorem storeAll_summaxcycles (us : List Update) (st : Exec) :
    (st.storeAll us).summaxcycles = st.summaxcycles := by
  induction us generalizing st with
  | nil => rfl
  | cons u us ih =>
    rw [Exec.storeAll_cons, ih]
    cases u <;> rfl

@[simp] theorem storeDue_summaxcycles (st : Exec) : st.storeDue.summaxcycles = st.summaxcycles :=
  storeAll_summaxcycles _ _

theorem checkSat_summaxcycles (st : Exec) (answer : Model ⊕ Core) :
    (st.checkSat answer).summaxcycles = st.summaxcycles := by
  unfold Exec.checkSat
  split
  · rfl
  split
  · rfl
  · cases answer <;> rfl

theorem assumeGe_summaxcycles (st : Exec) (id : String) (val : ℕ) :
    (st.assumeGe id val).summaxcycles = st.summaxcycles := by
  unfold Exec.assumeGe
  simp only
  split_ifs <;> rfl

theorem assumeLt_summaxcycles (st : Exec) (id : String) (val : ℕ) :
    (st.assumeLt id val).summaxcycles = st.summaxcycles := by
  unfold Exec.assumeLt
  simp only
  split_ifs <;> rfl

section
variable [PastEnd]

theorem assume_summaxcycles (st : Exec) (a : Assumption) : (st.assume a).summaxcycles = st.summaxcycles := by
  unfold Exec.assume
  split
  · split_ifs <;> rfl
  · split_ifs
    · rfl
    · split
      · rfl
      · split
        · exact assumeGe_summaxcycles st _ _
        · split
          · exact assumeLt_summaxcycles st _ _
          · rfl

@[simp] theorem assumeBranch_summaxcycles (st : Exec) (s : Step) :
    (st.assumeBranch s).summaxcycles = st.summaxcycles := by
  unfold Exec.assumeBranch
  split
  · exact assume_summaxcycles _ _
  · rfl

/-- An instruction is charged whether or not the path is known to be impossible. -/
theorem apply_summaxcycles (st : Exec) (s : Step) :
    (st.apply s).summaxcycles = wrap32 (st.summaxcycles + perfCycles s.n.instr s.i s.branchtrue) := by
  unfold Exec.apply
  simp only
  split_ifs
  · rfl
  · rw [storeAll_summaxcycles, storeDue_summaxcycles, assumeBranch_summaxcycles]
    rfl

/-- **The symbolic state is charged as `state::perf` is.** -/
theorem DramExec.apply_perf (st : DramExec) (s : Step) :
    DramExec.perf <$> st.apply s = st.perf.apply ⟨s.n, s.i⟩ s.branchtrue := by
  simp only [DramExec.apply, PerfState.apply, DramExec.perf, map_bind, map_pure, apply_summaxcycles]

theorem DramExec.enter_perf (st : DramExec) (loopdepth : ℕ) (fresh : ℕ → Fresh) (ds : List OpData) :
    DramExec.perf <$> st.enter loopdepth fresh ds = st.perf.enter ds := by
  have hzip : st.perf.enter ds = (ds.dropLast.zipIdx.map Prod.fst).foldlM (fun p x => p.apply x false) st.perf := by
    rw [List.zipIdx_map_fst, PerfState.enter]
  rw [hzip, List.foldlM_map]
  exact foldlM_map_state DramExec.perf (fun st x => st.apply_perf ⟨x.1.n, x.1.i, loopdepth, false, fresh x.2⟩) _ st

end

/-- The cycles of some instructions, none of which branches. -/
def addCycles (sum : ℕ) (ds : List OpData) : ℕ :=
  ds.foldl (fun c x => wrap32 (c + perfCycles x.n.instr x.i false)) sum

theorem addCycles_wrap32 (sum : ℕ) (ds : List OpData) :
    addCycles (wrap32 sum) ds = wrap32 (sum + (ds.map fun x => perfCycles x.n.instr x.i false).sum) := by
  unfold addCycles
  induction ds generalizing sum with
  | nil => rfl
  | cons x ds ih =>
    have hwrap : ∀ c, wrap32 (wrap32 sum + c) = wrap32 (sum + c) := fun c => Nat.mod_add_mod sum _ c
    rw [List.foldl_cons, hwrap, ih, List.map_cons, List.sum_cons, Nat.add_assoc]

/-- The two sums do not depend on each other. -/
theorem PerfState.enter_eq (p : PerfState) (ds : List OpData) :
    p.enter ds = PerfState.mk (addCycles p.summaxcycles ds.dropLast) <$>
      ds.dropLast.foldlM (fun c x => addDram c x.n) p.sumdramcycles := by
  rw [PerfState.enter, addCycles]
  induction ds.dropLast generalizing p with
  | nil => rfl
  | cons x ds ih =>
    rw [List.foldlM_cons, List.foldlM_cons, List.foldl_cons, map_bind, PerfState.apply, bind_assoc]
    simp only [pure_bind, ih]

end NfpEstimator
