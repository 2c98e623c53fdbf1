import NfpEstimator.Instr.Perform

/-!
# Applying instructions

`state::exec::apply`: an instruction is charged, a branch is assumed to go the way that it does on the path, what is
due of the updates under way is stored, and then what the instruction itself does.
-/

namespace NfpEstimator

/-! ### Storing -/

/-- The updates of an instruction are stored in order. -/
def Exec.storeAll (st : Exec) (us : List Update) : Exec := us.foldl (fun st u => u.store st) st

/-- The updates under way whose time has come are stored. -/
def Exec.storeDue (st : Exec) : Exec :=
  Exec.storeAll { st with defered := st.defered.filter fun d => st.sumcycles < d.1 }
    ((st.defered.filter fun d => d.1 ≤ st.sumcycles).map Prod.snd)

@[simp] theorem Exec.storeAll_nil (st : Exec) : st.storeAll [] = st := rfl

@[simp] theorem Exec.storeAll_cons (st : Exec) (u : Update) (us : List Update) :
    st.storeAll (u :: us) = (u.store st).storeAll us := rfl

@[simp] theorem Exec.storeAll_append (st : Exec) (us us' : List Update) :
    st.storeAll (us ++ us') = (st.storeAll us).storeAll us' := List.foldl_append

/-! ### Applying -/

/-- `instr::name` of a branch. -/
def BranchCond.name : BranchCond → String
  | .bcc => "bcc"
  | .bcs => "bcs"
  | .beq => "beq"
  | .bge => "bge"
  | .bgt => "bgt"
  | .ble => "ble"
  | .blt => "blt"
  | .bmi => "bmi"
  | .bne => "bne"
  | .bpl => "bpl"
  | .bvc => "bvc"
  | .bvs => "bvs"

/-- An instruction on a path, with what `state::exec::apply` is given and the objects that are made. -/
structure Step where
  n : Operation
  i : Info
  loopdepth : ℕ
  branchtrue : Bool
  fresh : Fresh

/-- The contents that `cfg::initial_state` starts with, where `headroom` is `cfg::PACKET_HEADROOM`: memory under
the four names, the packet size and the address of the packet in `ctx`, and the registers that hold addresses. -/
def initialContents (headroom : ℕ) : List Update :=
  let packet : Bvexpr := .pointer 32 8 "packet" (constant 32 0)
  let ctx : Bvexpr := .pointer 32 32 "ctx" (constant 32 0)
  let stack : Bvexpr := .pointer 32 32 "stack" (constant 32 0)
  let map : Bvexpr := .pointerBase 32 8 "map" 8 (constant 32 0)
  [.mem8 "packet" (.bvavariable 32 8 "packet"),
    .mem32 "stack" (.bvavariable 32 32 "stack"),
    .mem8 "map" (.bvavariable 32 8 "map"),
    .mem32 "ctx" (store 32 32
      (store 32 32 (.bvavariable 32 32 "ctx") (constant 32 0) (extend 18 14 (.bvvariable 14 "packetsize")))
      (constant 32 2) (bvadd 32 packet (constant 32 headroom))),
    .reg (Gpr.location ⟨.A, 22⟩) stack,
    .reg (Gpr.location ⟨.B, 23⟩) map,
    .reg (Hreg.actLMAddr 0).location stack,
    .reg (Hreg.actLMAddr 1).location ctx]

variable [PastEnd]

/-- What a branch is assumed to do. -/
def Exec.assumeBranch (st : Exec) (s : Step) : Exec :=
  match s.n with
  | .properBranch id cond _ =>
    let e := cond.check s.fresh st
    { st with sat := none, model := none }.assume
      ⟨if s.branchtrue then e else isfalse e,
        cond.name ++ (if s.branchtrue then "T" else "F") ++ toString id ++ "L" ++ toString s.loopdepth⟩
  | _ => st

/-- `state::exec::apply`. -/
def Exec.apply (st : Exec) (s : Step) : Exec :=
  let st := st.elapse s.n.instr s.i s.branchtrue
  if st.isUnsat then st
  else
    let st := st.assumeBranch s
    st.storeDue.storeAll (s.n.perform s.fresh st)

/-- A sequence of instructions. -/
def Exec.applyAll (st : Exec) (ss : List Step) : Exec := ss.foldl Exec.apply st

@[simp] theorem Exec.applyAll_nil (st : Exec) : st.applyAll [] = st := rfl

@[simp] theorem Exec.applyAll_cons (st : Exec) (s : Step) (ss : List Step) :
    st.applyAll (s :: ss) = (st.apply s).applyAll ss := rfl

/-- A branch is assumed as at the end of a block. -/
theorem assumeBranch_eq_applyLast {st : Exec} {s : Step} {id target : ℕ} {cond : BranchCond}
    (hn : s.n = .properBranch id cond target) (hsat : st.isUnsat = false)
    (hwf : ∀ e ∈ some (cond.check s.fresh st), e.WF) :
    st.assumeBranch s = st.applyLast ⟨cond.name, id, s.loopdepth, some (cond.check s.fresh st), hwf⟩ s.branchtrue := by
  simp only [Exec.assumeBranch, hn, Exec.applyLast, hsat, Bool.false_eq_true, if_false, assumptionName]

/-! ### What is read -/

/-- Registers, flags and memory are the same: what instructions read. -/
structure Exec.SameContents (st st' : Exec) : Prop where
  registers : st.registers = st'.registers
  flags : st.flags = st'.flags
  mem8 : st.mem8 = st'.mem8
  mem32 : st.mem32 = st'.mem32

omit [PastEnd] in
theorem readXfers_congr {st st' : Exec} (h : st.SameContents st') (f : Fresh) (src : Bvexpr) (indirectRef : Bool)
    (k i : ℕ) (xs : List ℕ) : readXfers f src indirectRef st k i xs = readXfers f src indirectRef st' k i xs := by
  induction xs generalizing k i with
  | nil => rfl
  | cons x xs ih =>
    simp only [readXfers, read32Swap, indirectCount, Exec.reg, Exec.array8, h.registers, h.mem8, ih]

omit [PastEnd] in
theorem writeXfers_congr {st st' : Exec} (h : st.SameContents st') (f : Fresh) (op : MemWriteOp)
    (offset ref : Bvexpr) (k i : ℕ) (array : Bvarray) (xs : List ℕ) :
    writeXfers f op offset ref st k i array xs = writeXfers f op offset ref st' k i array xs := by
  induction xs generalizing k i array with
  | nil => rfl
  | cons x xs ih => simp only [writeXfers, Exec.reg, h.registers, ih]

/-- What an instruction does depends on nothing else. -/
theorem perform_congr {st st' : Exec} (h : st.SameContents st') (f : Fresh) (n : Operation) :
    n.perform f st = n.perform f st' := by
  have hread := readXfers_congr h f
  have hwrite := writeXfers_congr h f
  obtain ⟨hr, hf, h8, h32⟩ := h
  cases st
  cases st'
  obtain rfl : _ = _ := hr
  obtain rfl : _ = _ := hf
  obtain rfl : _ = _ := h8
  obtain rfl : _ = _ := h32
  cases n with
  | memRead => exact hread _ _ _ _ _
  | memWrite =>
    simp only [Operation.perform, performWrite, hwrite]
    rfl
  | _ => rfl

/-- All is the same but for what is known of the satisfiability. -/
structure Exec.SameButSat (st st' : Exec) : Prop where
  contents : st.SameContents st'
  defered : st.defered = st'.defered
  sumcycles : st.sumcycles = st'.sumcycles
  lastcc : st.lastcc = st'.lastcc
  lastmem : st.lastmem = st'.lastmem

omit [PastEnd] in
theorem Exec.SameButSat.refl (st : Exec) : st.SameButSat st := ⟨⟨rfl, rfl, rfl, rfl⟩, rfl, rfl, rfl, rfl⟩

omit [PastEnd] in
theorem assumeGe_sameButSat (st : Exec) (id : String) (val : ℕ) : (st.assumeGe id val).SameButSat st := by
  unfold Exec.assumeGe
  simp only
  split_ifs <;> exact ⟨⟨rfl, rfl, rfl, rfl⟩, rfl, rfl, rfl, rfl⟩

omit [PastEnd] in
theorem assumeLt_sameButSat (st : Exec) (id : String) (val : ℕ) : (st.assumeLt id val).SameButSat st := by
  unfold Exec.assumeLt
  simp only
  split_ifs <;> exact ⟨⟨rfl, rfl, rfl, rfl⟩, rfl, rfl, rfl, rfl⟩

theorem assume_sameButSat (st : Exec) (a : Assumption) : (st.assume a).SameButSat st := by
  unfold Exec.assume
  split
  · split_ifs <;> exact ⟨⟨rfl, rfl, rfl, rfl⟩, rfl, rfl, rfl, rfl⟩
  · split_ifs
    · exact ⟨⟨rfl, rfl, rfl, rfl⟩, rfl, rfl, rfl, rfl⟩
    · split
      · exact ⟨⟨rfl, rfl, rfl, rfl⟩, rfl, rfl, rfl, rfl⟩
      · split
        · exact assumeGe_sameButSat st _ _
        · split
          · exact assumeLt_sameButSat st _ _
          · exact ⟨⟨rfl, rfl, rfl, rfl⟩, rfl, rfl, rfl, rfl⟩

/-- A branch changes nothing but what is assumed. -/
theorem assumeBranch_sameButSat (st : Exec) (s : Step) : (st.assumeBranch s).SameButSat st := by
  unfold Exec.assumeBranch
  split
  · obtain ⟨⟨hr, hf, h8, h32⟩, hd, hs, hc, hm⟩ := assume_sameButSat { st with sat := none, model := none } _
    exact ⟨⟨hr, hf, h8, h32⟩, hd, hs, hc, hm⟩
  · exact .refl st

omit [PastEnd] in
theorem elapse_sameContents (st : Exec) (n : Instr) (i : Info) (b : Bool) :
    (st.elapse n i b).SameContents st := ⟨rfl, rfl, rfl, rfl⟩

/-- An instruction that is not a branch. -/
theorem apply_eq {st : Exec} {s : Step} (hsat : st.isUnsat = false) (hs : s.n.instr.type ≠ .BRANCH) :
    st.apply s = (st.elapse s.n.instr s.i s.branchtrue).storeDue.storeAll (s.n.perform s.fresh st) := by
  have hassume : ∀ st : Exec, st.assumeBranch s = st := by
    intro st
    unfold Exec.assumeBranch
    split
    · next hn =>
      rw [hn] at hs
      exact absurd rfl hs
    · rfl
  have hsat : (st.elapse s.n.instr s.i s.branchtrue).isUnsat = false := hsat
  simp only [Exec.apply, hsat, Bool.false_eq_true, if_false, hassume]
  rw [perform_congr (elapse_sameContents st ..)]

/-! ### What stays the same -/

omit [PastEnd] in
/-- An update that is not of a flag leaves the flags alone. -/
theorem store_flags {u : Update} (st : Exec) (h : ∀ d e, u ≠ .flag d e) : (u.store st).flags = st.flags := by
  cases u with
  | flag d e => exact absurd rfl (h d e)
  | _ => rfl

omit [PastEnd] in
theorem storeAll_flags {us : List Update} (st : Exec) (h : ∀ u ∈ us, ∀ d e, u ≠ .flag d e) :
    (st.storeAll us).flags = st.flags := by
  induction us generalizing st with
  | nil => rfl
  | cons u us ih =>
    rw [Exec.storeAll_cons, ih _ fun v hv => h v (List.mem_cons_of_mem _ hv),
      store_flags _ (h u (List.mem_cons_self ..))]

omit [PastEnd] in
theorem store_sat (u : Update) (st : Exec) : (u.store st).sat = st.sat := by cases u <;> rfl

omit [PastEnd] in
theorem storeAll_sat (us : List Update) (st : Exec) : (st.storeAll us).sat = st.sat := by
  induction us generalizing st with
  | nil => rfl
  | cons u us ih => rw [Exec.storeAll_cons, ih, store_sat]

omit [PastEnd] in
theorem storeAll_assumptions (us : List Update) (st : Exec) : (st.storeAll us).assumptions = st.assumptions := by
  induction us generalizing st with
  | nil => rfl
  | cons u us ih =>
    rw [Exec.storeAll_cons, ih]
    cases u <;> rfl

/-- Only a branch adds to what is assumed. -/
theorem apply_assumptions {st : Exec} (hsat : st.isUnsat = false) (s : Step) :
    (st.apply s).assumptions = ((st.elapse s.n.instr s.i s.branchtrue).assumeBranch s).assumptions := by
  have hsat : (st.elapse s.n.instr s.i s.branchtrue).isUnsat = false := hsat
  simp only [Exec.apply, hsat, Bool.false_eq_true, if_false]
  rw [storeAll_assumptions, Exec.storeDue, storeAll_assumptions]

/-- Only a branch finds out that a path is impossible. -/
theorem apply_isUnsat {st : Exec} {s : Step} (hsat : st.isUnsat = false) (hs : s.n.instr.type ≠ .BRANCH) :
    (st.apply s).isUnsat = false := by
  rw [apply_eq hsat hs, Exec.isUnsat, storeAll_sat, Exec.storeDue, storeAll_sat]
  exact hsat

/-! ### Results -/

/-- The flags are those of a result. -/
structure Exec.FlagsOf (st : Exec) (r : AssignResult) : Prop where
  n : ∀ o, st.flag o .N = bvcomp 1 (extract 31 31 32 r.dst) (constant 1 1)
  z : ∀ o, st.flag o .Z = bvcomp 32 r.dst (constant 32 0)
  v : ∀ o, st.flag o .V = r.v
  c : ∀ o, st.flag o .C = r.c

omit [PastEnd] in
/-- What an instruction assigns is where the flags are from, if it writes them. -/
theorem assignUpdates_flagsOf {r : AssignResult} (hu : ∀ u ∈ r.u, ∀ d e, u ≠ .flag d e) (f : Fresh) (dst : Dst)
    (wrboth : Bool) (st st' : Exec) : (st'.storeAll (assignUpdates f dst wrboth true r st)).FlagsOf r := by
  unfold assignUpdates
  rw [Exec.storeAll_append, Exec.storeAll_append, if_pos rfl]
  generalize st'.storeAll _ = st₁
  constructor <;> intro o <;>
    simp [Exec.flag, storeAll_flags _ hu, Update.store, Function.update, Flag.location]

omit [PastEnd] in
theorem calculate_u (op : AluOp) (A B : Bvexpr) (st : Exec) (o : Obj) : (op.calculate A B st o).u = [] := by
  cases op with
  | plusCarry =>
    simp only [AluOp.calculate, AluOp.calculatePlusCarry]
    split
    · rfl
    · split <;> rfl
  | minusCarry =>
    simp only [AluOp.calculate, AluOp.calculateMinusCarry]
    split <;> rfl
  | _ => rfl

omit [PastEnd] in
theorem calculateAlu_u (f : Fresh) (srcA : Src) (op : AluOp) (srcB : Src) (sc : Option ShiftCntl) (st : Exec) :
    ∀ u ∈ (calculateAlu f srcA op srcB sc st).u, ∀ d e, u ≠ .flag d e := by
  intro u hu d e
  unfold calculateAlu at hu
  split_ifs at hu
  · simp only [calculate_u, List.nil_append, List.mem_cons, List.not_mem_nil, or_false] at hu
    rcases hu with rfl | rfl | rfl | rfl <;> exact fun h => nomatch h
  · rw [calculate_u] at hu
    exact nomatch hu

omit [PastEnd] in
theorem aluLike_type {n : Operation} {f : Fresh} {st : Exec} {r : AluOp × Bvexpr × Bvexpr}
    (h : n.aluLike f st = some r) : n.instr.type ≠ .BRANCH := by
  cases n with
  | alu | aluShf => simp [Operation.instr, Instr.type]
  | _ => cases h

/-- What an instruction derived from `instr::alu_like` leaves in the flags. -/
theorem apply_aluLike_flags {st : Exec} {s : Step} {op : AluOp} {A B : Bvexpr} (hsat : st.isUnsat = false)
    (hs : s.n.aluLike s.fresh st = some (op, A, B)) :
    ∃ r : AssignResult, (st.apply s).FlagsOf r ∧ r.dst = (op.calculate A B st (s.fresh.obj 3)).dst ∧
      r.v = (op.calculate A B st (s.fresh.obj 3)).v ∧ r.c = (op.calculate A B st (s.fresh.obj 3)).c := by
  obtain ⟨n, i, l, b, f⟩ := s
  cases n with
  | alu id dst srcA op' srcB wrboth =>
    obtain ⟨rfl, rfl, rfl⟩ : op' = op ∧ _ = A ∧ _ = B := by simpa [Operation.aluLike] using hs
    rw [apply_eq hsat (by simp [Operation.instr, Instr.type])]
    refine ⟨calculateAlu f srcA op' srcB none st, ?_, ?_⟩
    · exact assignUpdates_flagsOf (calculateAlu_u f srcA op' srcB none st) ..
    · unfold calculateAlu
      split_ifs <;> exact ⟨rfl, rfl, rfl⟩
  | aluShf id dst srcA op' srcB sc wrboth =>
    obtain ⟨rfl, rfl, rfl⟩ : op' = op ∧ _ = A ∧ _ = B := by simpa [Operation.aluLike] using hs
    rw [apply_eq hsat (by simp [Operation.instr, Instr.type])]
    refine ⟨calculateAlu f srcA op' srcB (some sc) st, ?_, ?_⟩
    · exact assignUpdates_flagsOf (calculateAlu_u f srcA op' srcB (some sc) st) ..
    · unfold calculateAlu
      split_ifs <;> exact ⟨rfl, rfl, rfl⟩
  | _ => cases hs

end NfpEstimator
