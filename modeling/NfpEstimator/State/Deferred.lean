import NfpEstimator.Due
import NfpEstimator.State.Registers

/-!
# When deferred updates are seen

`local_csr_wr` writes an address register three cycles after it ends, and what a logical ALU operation leaves in
`PREV_A` and `PREV_ALU` is undefined one cycle after it. An instruction reads the registers as they are when it
starts; the updates that are due when it ends are stored behind it.

The cycle count is an `unsigned int`, and so is the time of an update. All of this is about runs in which they do not
wrap around (`Exec.Executes`).
-/

namespace NfpEstimator

open Due

/-! ### Writes to a register -/

/-- What an update does to a register. -/
def Update.value (d : String) : Update → Option Bvexpr
  | .reg d' e => if d' = d then some e else none
  | _ => none

/-- What it will do to the register, and when. -/
def Update.later (d : String) (now : ℕ) : Update → Option (ℕ × Bvexpr)
  | .defered cycles u => (u.value d).map fun e => (wrap32 (now + cycles), e)
  | _ => none

/-- The writes of a register that are under way. -/
def Exec.pending (st : Exec) (d : String) : List (ℕ × Bvexpr) :=
  st.defered.filterMap fun p => (p.2.value d).map fun e => (p.1, e)

/-- What is under way at some times. -/
theorem filter_pending (now : ℕ → Bool) (updates : List (ℕ × Update)) (d : String) :
    (updates.filterMap fun p => (p.2.value d).map fun e => (p.1, e)).filter (fun w => now w.1) =
      (updates.filter fun p => now p.1).filterMap fun p => (p.2.value d).map fun e => (p.1, e) := by
  induction updates with
  | nil => rfl
  | cons p updates ih => cases hvalue : p.2.value d <;> by_cases hp : now p.1 <;> simp [hvalue, hp, ih]

theorem storeAll_value (us : List Update) (st : Exec) (d : String) :
    (st.storeAll us).registers d = (us.filterMap (Update.value d)).getLast?.or (st.registers d) := by
  induction us generalizing st with
  | nil => rfl
  | cons u us ih =>
    rw [Exec.storeAll_cons, ih]
    cases u with
    | reg d' e =>
      by_cases hd : d' = d
      · subst hd
        cases hlast : us.filterMap (Update.value d') <;>
          simp [Update.value, Update.store, hlast, List.getLast?_cons]
      · simp [Update.value, Update.store, hd, Function.update_of_ne (Ne.symm hd)]
    | _ => rfl

theorem storeAll_pending (us : List Update) (st : Exec) (d : String) :
    (st.storeAll us).pending d = st.pending d ++ us.filterMap (Update.later d st.sumcycles) := by
  induction us generalizing st with
  | nil => simp
  | cons u us ih =>
    rw [Exec.storeAll_cons, ih, store_sumcycles]
    cases u with
    | defered cycles u' =>
      cases hvalue : u'.value d <;> simp [Update.store, Exec.pending, Update.later, hvalue]
    | _ => rfl

theorem Update.Outside.value {u : Update} (h : u.Outside) (r : Hreg) : u.value r.location = none := by
  cases u with
  | reg d e =>
    have hne : d ≠ r.location := by
      rintro rfl
      exact h.1 r e rfl
    simp [Update.value, hne]
  | _ => rfl

theorem Update.Outside.later {u : Update} (h : u.Outside) (d : String) (now : ℕ) : u.later d now = none := by
  cases u with
  | defered cycles u' => exact absurd rfl (h.2 cycles u')
  | _ => rfl

theorem filterMap_outside {us : List Update} (h : ∀ u ∈ us, u.Outside) (r : Hreg) (now : ℕ) :
    us.filterMap (Update.value r.location) = [] ∧ us.filterMap (Update.later r.location now) = [] :=
  ⟨List.filterMap_eq_nil_iff.mpr fun u hu => (h u hu).value r,
    List.filterMap_eq_nil_iff.mpr fun u hu => (h u hu).later r.location now⟩

/-- What is due is stored, and the rest stays under way. -/
theorem storeDue_spec {st : Exec} (h : st.DefersHreg) (d : String) :
    st.storeDue.registers d = (arrived (st.pending d) st.sumcycles).or (st.registers d) ∧
      st.storeDue.pending d = underWay (st.pending d) st.sumcycles := by
  have hnone : ∀ u ∈ (st.defered.filter fun p => p.1 ≤ st.sumcycles).map Prod.snd, u.later d st.sumcycles = none := by
    intro u hu
    obtain ⟨p, hp, rfl⟩ := List.mem_map.mp hu
    obtain ⟨r, e, -, hp⟩ := h p (List.mem_filter.mp hp).1
    rw [hp]
    rfl
  constructor
  · have hdue := filter_pending (fun t => t ≤ st.sumcycles) st.defered d
    simp [Exec.storeDue, storeAll_value, arrived, Exec.pending, hdue, List.map_filterMap, Function.comp_def]
  · have hlater := filter_pending (fun t => st.sumcycles < t) st.defered d
    rw [Exec.storeDue, storeAll_pending, List.filterMap_eq_nil_iff.mpr hnone, List.append_nil]
    exact hlater.symm

variable [PastEnd]

/-! ### One instruction -/

theorem apply_sumcycles (st : Exec) (s : Step) :
    (st.apply s).sumcycles = wrap32 (st.sumcycles + st.cost s.n.instr s.branchtrue) := by
  unfold Exec.apply
  simp only
  split_ifs
  · rfl
  · rw [storeAll_sumcycles, Exec.storeDue, storeAll_sumcycles]
    exact (assumeBranch_sameButSat _ s).sumcycles

/-- What an instruction leaves in a register that is not an operand, and under way to it. -/
theorem apply_spec {st : Exec} (hsat : st.isUnsat = false) (hst : st.DefersHreg) (s : Step) (h : Hreg) :
    let now := (st.apply s).sumcycles
    (st.apply s).registers h.location =
        (((s.n.hregUpdates s.fresh st).filterMap (Update.value h.location)).getLast?.or
          ((arrived (st.pending h.location) now).or (st.registers h.location))) ∧
      (st.apply s).pending h.location = underWay (st.pending h.location) now ++
        (s.n.hregUpdates s.fresh st).filterMap (Update.later h.location now) := by
  intro now
  obtain ⟨st₁, us, hsame, hout, happly⟩ := apply_split hsat s
  have hdefers : st₁.DefersHreg := by
    rw [Exec.DefersHreg, hsame.defered]
    exact hst
  have hnow : now = st₁.sumcycles := (apply_sumcycles st s).trans hsame.sumcycles.symm
  have hpending : st₁.pending h.location = st.pending h.location := by
    rw [Exec.pending, hsame.defered]
    rfl
  have hregisters : st₁.registers h.location = st.registers h.location := by
    rw [hsame.contents.registers]
    rfl
  obtain ⟨hvalue, hlater⟩ := storeDue_spec hdefers h.location
  rw [hpending, hregisters, ← hnow] at hvalue
  rw [hpending, ← hnow] at hlater
  have hsum : st₁.storeDue.sumcycles = now := by
    rw [hnow, Exec.storeDue, storeAll_sumcycles]
  rw [happly]
  constructor
  · rw [storeAll_value, storeAll_value, (filterMap_outside hout h now).1, hvalue]
    rfl
  · rw [storeAll_pending, storeAll_pending, storeAll_sumcycles, hsum, (filterMap_outside hout h now).2, hlater,
      List.append_nil]

/-! ### What an instruction writes, and when -/

theorem hregUpdates_value {f : Fresh} {st : Exec} {n : Operation} {h : Hreg} (hn : n.writes h = false) :
    (n.hregUpdates f st).filterMap (Update.value h.location) = [] := by
  refine List.filterMap_eq_nil_iff.mpr fun u hu => ?_
  obtain ⟨r, e, ⟨rfl, hw⟩ | ⟨c, rfl, -⟩⟩ := hregUpdates_cases hu
  · have hne : r ≠ h := by
      rintro rfl
      exact Bool.false_ne_true (hn.symm.trans hw)
    simp [Update.value, Hreg.location_injective.ne hne]
  · rfl

theorem mem_later {f : Fresh} {st : Exec} {n : Operation} {h : Hreg} {now : ℕ} {w : ℕ × Bvexpr}
    (hw : w ∈ (n.hregUpdates f st).filterMap (Update.later h.location now)) :
    ∃ cycles, n.defers h = some cycles ∧ w.1 = wrap32 (now + cycles) ∧ (cycles = 1 → w.2 = undef 32) := by
  obtain ⟨u, hu, hlater⟩ := List.mem_filterMap.mp hw
  obtain ⟨r, e, ⟨rfl, -⟩ | ⟨c, rfl, hc, hundef⟩⟩ := hregUpdates_cases hu
  · exact nomatch hlater
  · by_cases hr : r = h
    · subst hr
      obtain rfl : _ = w := by simpa [Update.later, Update.value] using hlater
      exact ⟨c, hc, rfl, hundef⟩
    · simp [Update.later, Update.value, Hreg.location_injective.ne hr] at hlater

omit [PastEnd] in
theorem defers_le {n : Operation} {h : Hreg} {cycles : ℕ} (hn : n.defers h = some cycles) :
    0 < cycles ∧ cycles ≤ 3 := by
  cases n <;> simp [Operation.defers] at hn <;> omega

omit [PastEnd] in
theorem defers_prev {n : Operation} {h : Hreg} {cycles : ℕ} (hh : h = .prevA ∨ h = .prevAlu)
    (hn : n.defers h = some cycles) : cycles = 1 := by
  rcases hh with rfl | rfl <;> cases n <;> simp [Operation.defers] at hn <;> omega

/-- The value that an instruction writes to an address register. -/
def Operation.csrWrite (csr : Fin 4) (f : Fresh) (st : Exec) : Operation → Option Bvexpr
  | .localCsrWr _ csr' src => if csr' = csr then some (src.read st (f.obj 0)) else none
  | _ => none

theorem later_csr (f : Fresh) (st : Exec) (n : Operation) (csr : Fin 4) (now : ℕ) :
    (n.hregUpdates f st).filterMap (Update.later (Hreg.actLMAddr csr).location now) =
      ((n.csrWrite csr f st).map fun e => (wrap32 (now + 3), e)).toList := by
  cases n with
  | localCsrWr id csr' src =>
    by_cases hcsr : csr' = csr
    · simp [Operation.hregUpdates, Operation.csrWrite, Update.later, Update.value, hcsr]
    · have hne : Hreg.actLMAddr csr' ≠ .actLMAddr csr := fun he => hcsr (Hreg.actLMAddr.inj he)
      simp [Operation.hregUpdates, Operation.csrWrite, Update.later, Update.value, hcsr,
        Hreg.location_injective.ne hne]
  | _ =>
    refine List.eq_nil_iff_forall_not_mem.mpr fun w hw => ?_
    obtain ⟨c, hc, -⟩ := mem_later hw
    simp [Operation.defers] at hc

/-! ### Runs -/

/-- The instructions are all executed, and the cycle count does not wrap around. The final instruction is not among
them, as nothing comes behind it. -/
def Exec.Executes (st : Exec) : List Step → Prop
  | [] => True
  | s :: ss => (st.isUnsat = false ∧ s.n.instr.type ≠ .FIN ∧
      st.sumcycles + st.cost s.n.instr s.branchtrue + 3 < 2 ^ 32) ∧ (st.apply s).Executes ss

/-- What is under way is due in time. -/
structure Exec.Timely (st : Exec) : Prop where
  defers : st.DefersHreg
  ahead : ∀ (h : Hreg), ∀ w ∈ st.pending h.location, st.sumcycles < w.1 ∧ w.1 ≤ st.sumcycles + 3
  inOrder : ∀ csr, InOrder (st.pending (Hreg.actLMAddr csr).location)
  prev : ∀ (h : Hreg), h = .prevA ∨ h = .prevAlu → ∀ w ∈ st.pending h.location,
    w.1 = st.sumcycles + 1 ∧ w.2 = undef 32

omit [PastEnd] in
theorem timely_of_defered {st : Exec} (h : st.defered = []) : st.Timely := by
  have hpending : ∀ d, st.pending d = [] := fun d => by rw [Exec.pending, h, List.filterMap_nil]
  refine ⟨fun p hp => ?_, fun r w hw => ?_, fun csr => ?_, fun r _ w hw => ?_⟩
  · rw [h] at hp
    exact nomatch hp
  · rw [hpending] at hw
    exact nomatch hw
  · rw [hpending]
    exact .nil
  · rw [hpending] at hw
    exact nomatch hw

theorem executes_sumcycles {st : Exec} {s : Step} (h : st.sumcycles + st.cost s.n.instr s.branchtrue + 3 < 2 ^ 32) :
    (st.apply s).sumcycles = st.sumcycles + st.cost s.n.instr s.branchtrue := by
  rw [apply_sumcycles, wrap32_of_lt (by omega)]

/-- **Every instruction keeps that.** -/
theorem Exec.Timely.apply {st : Exec} {s : Step} (h : st.Timely) (hsat : st.isUnsat = false)
    (hsum : st.sumcycles + st.cost s.n.instr s.branchtrue + 3 < 2 ^ 32) : (st.apply s).Timely := by
  have hnow := executes_sumcycles hsum
  -- what is under way is either still under way, or deferred by the instruction
  have hmem : ∀ (r : Hreg), ∀ w ∈ (st.apply s).pending r.location,
      (w ∈ st.pending r.location ∧ (st.apply s).sumcycles < w.1) ∨
        ∃ cycles, s.n.defers r = some cycles ∧ w.1 = (st.apply s).sumcycles + cycles ∧
          (cycles = 1 → w.2 = undef 32) := by
    intro r w hw
    rw [(apply_spec hsat h.defers s r).2] at hw
    rcases List.mem_append.mp hw with hw | hw
    · exact .inl (mem_underWay.mp hw)
    · obtain ⟨c, hc, hdue, hundef⟩ := mem_later hw
      obtain ⟨-, hle⟩ := defers_le hc
      exact .inr ⟨c, hc, by rw [hdue, wrap32_of_lt (by omega)], hundef⟩
  refine ⟨h.defers.apply s, fun r w hw => ?_, fun csr => ?_, fun r hr w hw => ?_⟩
  · rcases hmem r w hw with ⟨hw, hlt⟩ | ⟨c, hc, hdue, -⟩
    · obtain ⟨-, hle⟩ := h.ahead r w hw
      omega
    · obtain ⟨hpos, hle⟩ := defers_le hc
      omega
  · rw [(apply_spec hsat h.defers s (.actLMAddr csr)).2, later_csr]
    refine ((h.inOrder csr).underWay _).append ?_ ?_
    · cases s.n.csrWrite csr s.fresh st <;> simp [InOrder]
    · intro w hw w' hw'
      obtain ⟨e, -, rfl⟩ : ∃ e, s.n.csrWrite csr s.fresh st = some e ∧ _ = w' := by simpa using hw'
      obtain ⟨-, hle⟩ := h.ahead _ w (mem_underWay.mp hw).1
      rw [wrap32_of_lt (by omega)]
      omega
  · rcases hmem r w hw with ⟨hw, hlt⟩ | ⟨c, hc, hdue, hundef⟩
    · obtain ⟨hdue, hundef⟩ := h.prev r hr w hw
      exact ⟨by omega, hundef⟩
    · obtain rfl := defers_prev hr hc
      exact ⟨hdue, hundef rfl⟩

/-! ### Address registers -/

/-- The writes of an address register in a sequence of instructions, each with the time at which the instruction
ended. -/
def Exec.csrWrites (csr : Fin 4) (st : Exec) : List Step → List (ℕ × Bvexpr)
  | [] => []
  | s :: ss => ((s.n.csrWrite csr s.fresh st).map fun e => ((st.apply s).sumcycles, e)).toList ++
      (st.apply s).csrWrites csr ss

/-- The time at which a write of an address register takes effect, for the time at which the instruction ended. -/
def dueAt (w : ℕ × Bvexpr) : ℕ × Bvexpr := (w.1 + 3, w.2)

/-- The register is what has arrived of some writes, and the others are under way. -/
structure Holding (csr : Fin 4) (st : Exec) (before : Option Bvexpr) (ws : List (ℕ × Bvexpr)) : Prop where
  inOrder : InOrder ws
  ahead : ∀ w ∈ ws, w.1 ≤ st.sumcycles + 3
  registers : st.registers (Hreg.actLMAddr csr).location = (arrived ws st.sumcycles).or before
  pending : st.pending (Hreg.actLMAddr csr).location = underWay ws st.sumcycles

omit [PastEnd] in
theorem Exec.Timely.holding {st : Exec} (h : st.Timely) (csr : Fin 4) :
    Holding csr st (st.registers (Hreg.actLMAddr csr).location) (st.pending (Hreg.actLMAddr csr).location) := by
  have hlt : ∀ w ∈ st.pending (Hreg.actLMAddr csr).location, st.sumcycles < w.1 := fun w hw => (h.ahead _ w hw).1
  refine ⟨h.inOrder csr, fun w hw => (h.ahead _ w hw).2, ?_, (underWay_eq_self hlt).symm⟩
  rw [arrived_eq_none_iff.mpr hlt, Option.none_or]

/-- An instruction adds what it writes. -/
theorem Holding.apply {csr : Fin 4} {st : Exec} {before : Option Bvexpr} {ws : List (ℕ × Bvexpr)} {s : Step}
    (h : Holding csr st before ws) (hst : st.Timely) (hsat : st.isUnsat = false)
    (hsum : st.sumcycles + st.cost s.n.instr s.branchtrue + 3 < 2 ^ 32) :
    Holding csr (st.apply s) before
      (ws ++ ((s.n.csrWrite csr s.fresh st).map fun e => ((st.apply s).sumcycles, e)).toList.map dueAt) := by
  have hnow := executes_sumcycles hsum
  have hle : st.sumcycles ≤ (st.apply s).sumcycles := by omega
  obtain ⟨hregisters, hpending⟩ := apply_spec hsat hst.defers s (.actLMAddr csr)
  have hwrites : s.n.writes (.actLMAddr csr) = false := by
    cases s.n <;> simp [Operation.writes]
  rw [hregUpdates_value hwrites, List.getLast?_nil, Option.none_or] at hregisters
  rw [later_csr, wrap32_of_lt (by omega)] at hpending
  have hnew : ((s.n.csrWrite csr s.fresh st).map fun e => ((st.apply s).sumcycles + 3, e)).toList =
      ((s.n.csrWrite csr s.fresh st).map fun e => ((st.apply s).sumcycles, e)).toList.map dueAt := by
    cases s.n.csrWrite csr s.fresh st <;> rfl
  rw [hnew] at hpending
  have hdue : ∀ w ∈ ((s.n.csrWrite csr s.fresh st).map fun e => ((st.apply s).sumcycles, e)).toList.map dueAt,
      w.1 = (st.apply s).sumcycles + 3 := by
    intro w hw
    rw [← hnew] at hw
    obtain ⟨e, -, rfl⟩ : ∃ e, s.n.csrWrite csr s.fresh st = some e ∧ _ = w := by simpa using hw
    rfl
  generalize ((s.n.csrWrite csr s.fresh st).map fun e => ((st.apply s).sumcycles, e)).toList.map dueAt = new
    at hpending hdue
  have hlater : ∀ w ∈ new, (st.apply s).sumcycles < w.1 := fun w hw => by
    rw [hdue w hw]
    omega
  refine ⟨h.inOrder.append ?_ fun w hw w' hw' => ?_, fun w hw => ?_, ?_, ?_⟩
  · exact List.pairwise_of_forall_mem_list fun w hw w' hw' => by rw [hdue w hw, hdue w' hw']
  · have hw := h.ahead w hw
    rw [hdue w' hw']
    omega
  · rcases List.mem_append.mp hw with hw | hw
    · have hw := h.ahead w hw
      omega
    · exact (hdue w hw).le
  · rw [arrived_append hlater, arrived_later h.inOrder hle, hregisters, h.pending, h.registers, Option.or_assoc]
  · rw [hpending, h.pending, underWay_later _ hle, underWay, underWay, List.filter_append]
    congr 1
    exact (underWay_eq_self hlater).symm

theorem Holding.applyAll {csr : Fin 4} {st : Exec} {before : Option Bvexpr} {ws : List (ℕ × Bvexpr)} {ss : List Step}
    (h : Holding csr st before ws) (hst : st.Timely) (hrun : st.Executes ss) :
    Holding csr (st.applyAll ss) before (ws ++ (st.csrWrites csr ss).map dueAt) := by
  induction ss generalizing st ws with
  | nil => simpa [Exec.csrWrites] using h
  | cons s ss ih =>
    obtain ⟨⟨hsat, -, hsum⟩, hrun⟩ := hrun
    have hnext := ih (h.apply hst hsat hsum) (hst.apply hsat hsum) hrun
    rwa [List.append_assoc, ← List.map_append] at hnext

/-! ### The operands before -/

theorem Exec.Timely.applyAll {st : Exec} {ss : List Step} (h : st.Timely) (hrun : st.Executes ss) :
    (st.applyAll ss).Timely := by
  induction ss generalizing st with
  | nil => exact h
  | cons s ss ih =>
    obtain ⟨⟨hsat, -, hsum⟩, hrun⟩ := hrun
    exact ih (h.apply hsat hsum) hrun

/-- The updates that come with the result of a logical operation. -/
theorem hregUpdates_logical {n : Operation} {f : Fresh} {st : Exec} {op : AluOp} {A B : Bvexpr}
    (hn : n.aluLike f st = some (op, A, B)) (hop : op.writesPrev = true) :
    n.hregUpdates f st =
      [.reg Hreg.prevA.location A, .reg Hreg.prevAlu.location (op.calculate A B st (f.obj 3)).dst,
        .defered 1 (.reg Hreg.prevA.location (undef 32)), .defered 1 (.reg Hreg.prevAlu.location (undef 32))] := by
  cases n with
  | alu id dst srcA op' srcB wrboth =>
    obtain ⟨rfl, rfl, rfl⟩ : op' = op ∧ _ = A ∧ _ = B := by simpa [Operation.aluLike] using hn
    simp [Operation.hregUpdates, calculateAlu, hop, calculate_u, ShiftCntl.calculateOpt]
  | aluShf id dst srcA op' srcB sc wrboth =>
    obtain ⟨rfl, rfl, rfl⟩ : op' = op ∧ _ = A ∧ _ = B := by simpa [Operation.aluLike] using hn
    simp [Operation.hregUpdates, calculateAlu, hop, calculate_u, ShiftCntl.calculateOpt]
  | _ => cases hn

/-- A logical operation is seen by what comes next, and undefined values are under way. -/
theorem apply_logical {st : Exec} {s : Step} {op : AluOp} {A B : Bvexpr} (hst : st.DefersHreg)
    (hsat : st.isUnsat = false) (hs : s.n.aluLike s.fresh st = some (op, A, B)) (hop : op.writesPrev = true) :
    (st.apply s).registers Hreg.prevA.location = some A ∧
      (st.apply s).registers Hreg.prevAlu.location = some (op.calculate A B st (s.fresh.obj 3)).dst ∧
      ∀ h : Hreg, h = .prevA ∨ h = .prevAlu → (st.apply s).pending h.location ≠ [] := by
  have hne : Hreg.prevA.location ≠ Hreg.prevAlu.location := Hreg.location_injective.ne (by decide)
  refine ⟨?_, ?_, fun h hh => ?_⟩
  · rw [(apply_spec hsat hst s .prevA).1, hregUpdates_logical hs hop]
    simp [List.filterMap_cons, Update.value, hne.symm]
  · rw [(apply_spec hsat hst s .prevAlu).1, hregUpdates_logical hs hop]
    simp [List.filterMap_cons, Update.value, hne]
  · rw [(apply_spec hsat hst s h).2, hregUpdates_logical hs hop]
    rcases hh with rfl | rfl <;> simp [Update.later, Update.value, hne, hne.symm]

/-- An instruction that takes time stores what is undefined behind a logical operation, unless it records something
else. -/
theorem apply_undefined {st : Exec} {s : Step} {h : Hreg} (hh : h = .prevA ∨ h = .prevAlu) (hst : st.Timely)
    (hsat : st.isUnsat = false) (hfin : s.n.instr.type ≠ .FIN)
    (hsum : st.sumcycles + st.cost s.n.instr s.branchtrue + 3 < 2 ^ 32) (hn : s.n.writes h = false)
    (hstale : st.registers h.location = some (undef 32) ∨ st.pending h.location ≠ []) :
    (st.apply s).registers h.location = some (undef 32) := by
  have hcost : 0 < st.cost s.n.instr s.branchtrue := perfCycles_pos hfin _ _
  have hnow := executes_sumcycles hsum
  rw [(apply_spec hsat hst.defers s h).1, hregUpdates_value hn, List.getLast?_nil, Option.none_or]
  cases harrived : arrived (st.pending h.location) (st.apply s).sumcycles with
  | some e =>
    obtain ⟨w, hw, -, rfl⟩ := mem_of_arrived harrived
    rw [(hst.prev h hh w hw).2, Option.some_or]
  | none =>
    rw [Option.none_or]
    refine hstale.resolve_right fun hpending => ?_
    obtain ⟨w, hw⟩ := List.exists_mem_of_ne_nil _ hpending
    have hlt := arrived_eq_none_iff.mp harrived w hw
    have hdue := (hst.prev h hh w hw).1
    omega

theorem applyAll_undefined {st : Exec} {ss : List Step} {h : Hreg} (hh : h = .prevA ∨ h = .prevAlu) (hst : st.Timely)
    (hrun : st.Executes ss) (hss : ss ≠ []) (hn : ∀ s ∈ ss, s.n.writes h = false)
    (hstale : st.registers h.location = some (undef 32) ∨ st.pending h.location ≠ []) :
    (st.applyAll ss).registers h.location = some (undef 32) := by
  induction ss generalizing st with
  | nil => exact absurd rfl hss
  | cons s ss ih =>
    obtain ⟨⟨hsat, hfin, hsum⟩, hrun⟩ := hrun
    have hundef := apply_undefined hh hst hsat hfin hsum (hn s (List.mem_cons_self ..)) hstale
    cases ss with
    | nil => exact hundef
    | cons t ss =>
      exact ih (hst.apply hsat hsum) hrun (List.cons_ne_nil _ _) (fun t ht => hn t (List.mem_cons_of_mem _ ht))
        (.inl hundef)

/-! ### The timing -/

theorem executes_append {st : Exec} {ss ss' : List Step} (h : st.Executes (ss ++ ss')) :
    st.Executes ss ∧ (st.applyAll ss).Executes ss' := by
  induction ss generalizing st with
  | nil => exact ⟨trivial, h⟩
  | cons s ss ih =>
    obtain ⟨hs, hrun⟩ := h
    exact ⟨⟨hs, (ih hrun).1⟩, (ih hrun).2⟩

/-- **Deferred updates are seen when they should be.** What comes behind a sequence of instructions sees the last
write of an address register whose instruction ended three cycles before. Behind a logical operation its first
operand and its result are seen; later they are undefined, unless they are recorded anew. -/
theorem deferred_timing {st : Exec} (hst : st.Timely) {ss : List Step} (hrun : st.Executes ss) :
    (∀ csr, (st.applyAll ss).registers (Hreg.actLMAddr csr).location =
      (arrived (st.pending (Hreg.actLMAddr csr).location ++
          (st.csrWrites csr ss).map fun w => (w.1 + 3, w.2)) (st.applyAll ss).sumcycles).or
        (st.registers (Hreg.actLMAddr csr).location)) ∧
    ∀ before s after op A B, ss = before ++ s :: after →
      s.n.aluLike s.fresh (st.applyAll before) = some (op, A, B) → op.writesPrev = true →
      let recorded := (st.applyAll before).apply s
      recorded.registers Hreg.prevA.location = some A ∧
      recorded.registers Hreg.prevAlu.location =
        some (op.calculate A B (st.applyAll before) (s.fresh.obj 3)).dst ∧
      ∀ h : Hreg, h = .prevA ∨ h = .prevAlu → after ≠ [] → (∀ t ∈ after, t.n.writes h = false) →
        (recorded.applyAll after).registers h.location = some (undef 32) := by
  refine ⟨fun csr => ((hst.holding csr).applyAll hst hrun).registers, ?_⟩
  rintro before s after op A B rfl hs hop recorded
  obtain ⟨hbefore, ⟨hsat, -, hsum⟩, hafter⟩ := executes_append hrun
  have hst' := hst.applyAll hbefore
  obtain ⟨hA, hresult, hpending⟩ := apply_logical hst'.defers hsat hs hop
  refine ⟨hA, hresult, fun h hh hne hn => ?_⟩
  exact applyAll_undefined hh (hst'.apply hsat hsum) hafter hne hn (.inr (hpending h hh))

/-- A write of the first address register. -/
def csrStep (value : ℕ) : Step := ⟨.localCsrWr 0 0 (.constant value), ⟨0, 0⟩, 0, false, .numbered 0⟩

/-- An instruction that does nothing. -/
def nopStep : Step := ⟨.nop 1, ⟨0, 0⟩, 0, false, .numbered 0⟩

/-- A logical operation of constants. -/
def logicalStep : Step := ⟨.alu 0 .omitted (.constant 5) .opAnd (.constant 4) false, ⟨0, 0⟩, 0, false, .numbered 0⟩

/-- The final instruction. -/
def finStep : Step := ⟨.fin, ⟨0, 0⟩, 0, false, .numbered 0⟩

omit [PastEnd] in
/-- If the cycle count wraps around, a write of an address register is seen one cycle after it. If time stands still,
the operand of a logical operation is seen after the next instruction. -/
theorem deferred_early :
    let _ : PastEnd := ⟨fun _ => true⟩
    let written := (initialState (2 ^ 32 - 4) 1500 []).apply (csrStep 5)
    let logical := (initialState 0 1500 []).apply logicalStep
    (written.apply nopStep).sumcycles = written.sumcycles + 1 ∧
      (written.apply nopStep).registers (Hreg.actLMAddr 0).location = some (constant 32 5) ∧
      (logical.apply finStep).registers Hreg.prevA.location = some (constant 32 5) := by
  intro _ written logical
  have hstart : ∀ firmware, (initialState firmware 1500 []).Timely := fun firmware => timely_of_defered rfl
  have hwritten : written.sumcycles = 2 ^ 32 - 3 :=
    (apply_sumcycles _ (csrStep 5)).trans (show wrap32 (2 ^ 32 - 4 + 1) = 2 ^ 32 - 3 by decide)
  have hnow : (written.apply nopStep).sumcycles = 2 ^ 32 - 2 := by
    rw [apply_sumcycles, hwritten]
    show wrap32 (2 ^ 32 - 3 + 1) = 2 ^ 32 - 2
    decide
  refine ⟨hnow.trans (by rw [hwritten]; rfl), ?_, ?_⟩
  · have hpending : written.pending (Hreg.actLMAddr 0).location = [(0, constant 32 5)] := by
      rw [(apply_spec rfl (hstart (2 ^ 32 - 4)).defers (csrStep 5) (.actLMAddr 0)).2, later_csr]
      show [(wrap32 (written.sumcycles + 3), constant 32 5)] = _
      rw [hwritten]
      rfl
    rw [(@apply_spec _ written rfl ((hstart _).defers.apply _) nopStep (.actLMAddr 0)).1, hpending]
    rfl
  · obtain ⟨hA, -, -⟩ := apply_logical (s := logicalStep) (hstart 0).defers rfl rfl rfl
    have hone : logical.sumcycles = 1 :=
      (apply_sumcycles _ logicalStep).trans (show wrap32 (0 + 1) = 1 by decide)
    have hnow : (logical.apply finStep).sumcycles = 1 := by
      rw [apply_sumcycles, hone]
      rfl
    have htimely : logical.Timely := (hstart 0).apply rfl (show 0 + 1 + 3 < 2 ^ 32 by decide)
    have hlater : ∀ w ∈ logical.pending Hreg.prevA.location, 1 < w.1 := fun w hw => hone ▸ (htimely.ahead .prevA w hw).1
    rw [(@apply_spec _ logical rfl htimely.defers finStep .prevA).1, hnow, arrived_eq_none_iff.mpr hlater, hA]
    rfl

/-- Instructions that take one cycle each. -/
theorem executes_ordinary {st : Exec} {ss : List Step} (hsat : st.isUnsat = false)
    (hss : ∀ s ∈ ss, s.n.instr.type = .OTHER ∧ s.n.instr.cycles = 1) (hsum : st.sumcycles + ss.length + 3 < 2 ^ 32) :
    st.Executes ss ∧ (st.applyAll ss).sumcycles = st.sumcycles + ss.length := by
  induction ss generalizing st with
  | nil => exact ⟨trivial, rfl⟩
  | cons s ss ih =>
    obtain ⟨htype, hcycles⟩ := hss s (List.mem_cons_self ..)
    have hcost : st.cost s.n.instr s.branchtrue = 1 := by simp [Exec.cost, perfCycles, htype, hcycles]
    rw [List.length_cons] at hsum
    have hlt : st.sumcycles + st.cost s.n.instr s.branchtrue + 3 < 2 ^ 32 := by omega
    have hnow := executes_sumcycles hlt
    obtain ⟨hrun, hend⟩ := @ih (st.apply s) (apply_isUnsat hsat (by simp [htype]))
      (fun t ht => hss t (List.mem_cons_of_mem _ ht)) (by omega)
    refine ⟨⟨⟨hsat, by simp [htype], hlt⟩, hrun⟩, ?_⟩
    rw [Exec.applyAll_cons, hend, List.length_cons]
    omega

omit [PastEnd] in
/-- A write, and three cycles later. -/
theorem deferred_timing_csr :
    let _ : PastEnd := ⟨fun _ => true⟩
    ((initialState 0 1500 []).applyAll [csrStep 5, nopStep, nopStep, nopStep]).registers
      (Hreg.actLMAddr 0).location = some (constant 32 5) := by
  intro _
  have hordinary : ∀ s ∈ [csrStep 5, nopStep, nopStep, nopStep], s.n.instr.type = .OTHER ∧ s.n.instr.cycles = 1 := by
    simp [csrStep, nopStep, Operation.instr, Instr.type, Instr.cycles, Instr.ordinaryCost]
  obtain ⟨hrun, hend⟩ := @executes_ordinary _ (initialState 0 1500 []) _ rfl hordinary (by decide)
  have hended : ((initialState 0 1500 []).apply (csrStep 5)).sumcycles = 1 :=
    (apply_sumcycles _ (csrStep 5)).trans (show wrap32 (0 + 1) = 1 by decide)
  have hwrites :
      (initialState 0 1500 []).csrWrites 0 [csrStep 5, nopStep, nopStep, nopStep] = [(1, constant 32 5)] := by
    rw [← hended]
    rfl
  rw [(deferred_timing (timely_of_defered rfl) hrun).1, hwrites, hend]
  rfl

end NfpEstimator
