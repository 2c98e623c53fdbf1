import NfpEstimator.State.Apply

/-!
# Which registers change

The registers that are not operands (`Hreg`) are changed by few instructions, and the updates that are under way
are of these registers only. `Operation.hregUpdates` is what an instruction does to them; everything else that
it does leaves them, and what is under way, as they are (`perform_split`).
-/

namespace NfpEstimator

/-! ### What an update leaves as it is -/

/-- An update takes effect at once, and is not of a register that is not an operand. -/
def Update.Outside (u : Update) : Prop :=
  (∀ (h : Hreg) e, u ≠ .reg h.location e) ∧ ∀ cycles u', u ≠ .defered cycles u'

theorem store_registers {u : Update} {d : String} (st : Exec) (h : ∀ e, u ≠ .reg d e) :
    (u.store st).registers d = st.registers d := by
  cases u with
  | reg d' e =>
    have hne : d ≠ d' := by
      rintro rfl
      exact h e rfl
    exact Function.update_of_ne hne _ _
  | _ => rfl

theorem storeAll_registers {us : List Update} {d : String} (st : Exec) (h : ∀ u ∈ us, ∀ e, u ≠ .reg d e) :
    (st.storeAll us).registers d = st.registers d := by
  induction us generalizing st with
  | nil => rfl
  | cons u us ih =>
    rw [Exec.storeAll_cons, ih _ fun v hv => h v (List.mem_cons_of_mem _ hv),
      store_registers _ (h u (List.mem_cons_self ..))]

theorem store_defered {u : Update} (st : Exec) (h : ∀ cycles u', u ≠ .defered cycles u') :
    (u.store st).defered = st.defered := by
  cases u with
  | defered cycles u' => exact absurd rfl (h cycles u')
  | _ => rfl

theorem storeAll_defered {us : List Update} (st : Exec) (h : ∀ u ∈ us, ∀ cycles u', u ≠ .defered cycles u') :
    (st.storeAll us).defered = st.defered := by
  induction us generalizing st with
  | nil => rfl
  | cons u us ih =>
    rw [Exec.storeAll_cons, ih _ fun v hv => h v (List.mem_cons_of_mem _ hv),
      store_defered _ (h u (List.mem_cons_self ..))]

theorem store_sumcycles (u : Update) (st : Exec) : (u.store st).sumcycles = st.sumcycles := by
  cases u <;> rfl

theorem storeAll_sumcycles (us : List Update) (st : Exec) : (st.storeAll us).sumcycles = st.sumcycles := by
  induction us generalizing st with
  | nil => rfl
  | cons u us ih => rw [Exec.storeAll_cons, ih, store_sumcycles]

/-! ### What an instruction changes -/

theorem write_outside (dst : Dst) (st : Exec) (o : Obj) (e : Bvexpr) : (dst.write st o e).Outside := by
  cases dst with
  | gpr g =>
    refine ⟨fun h e' he => ?_, fun _ _ he => (nomatch he)⟩
    exact h.location_ne_gpr g (Update.reg.inj he).1.symm
  | lmindexed addr offset =>
    simp only [Dst.write]
    split <;> exact ⟨fun _ _ he => (by cases he), fun _ _ he => (by cases he)⟩
  | xferOut number =>
    refine ⟨fun h e' he => ?_, fun _ _ he => (nomatch he)⟩
    exact h.location_ne_xferOut number (Update.reg.inj he).1.symm
  | omitted => exact ⟨fun _ _ he => (by cases he), fun _ _ he => (by cases he)⟩

theorem gpr_outside (g : Gpr) (e : Bvexpr) : (Update.reg g.location e).Outside :=
  ⟨fun h _ he => h.location_ne_gpr g (Update.reg.inj he).1.symm, fun _ _ he => (nomatch he)⟩

theorem xferIn_outside (n : ℕ) (e : Bvexpr) : (Update.reg (xferInLocation n) e).Outside :=
  ⟨fun h _ he => h.location_ne_xferIn n (Update.reg.inj he).1.symm, fun _ _ he => (nomatch he)⟩

theorem flag_outside (d : String) (e : Bvexpr) : (Update.flag d e).Outside :=
  ⟨fun _ _ he => (nomatch he), fun _ _ he => (nomatch he)⟩

/-- What is assigned, but for the updates that come with the result. -/
theorem assignUpdates_split (f : Fresh) (dst : Dst) (wrboth writescc : Bool) (r : AssignResult) (st : Exec) :
    ∃ us, assignUpdates f dst wrboth writescc r st = us ++ r.u ∧ ∀ u ∈ us, u.Outside := by
  refine ⟨_, rfl, fun u hu => ?_⟩
  simp only [List.mem_append, List.mem_singleton] at hu
  rcases hu with (rfl | hu) | hu
  · exact write_outside dst st _ _
  · split at hu
    · obtain rfl := List.mem_singleton.mp hu
      exact gpr_outside _ _
    · exact nomatch hu
  · split_ifs at hu
    · simp only [List.mem_cons, List.not_mem_nil, or_false] at hu
      rcases hu with rfl | rfl | rfl | rfl <;> exact flag_outside _ _
    · exact nomatch hu

theorem readXfers_outside (f : Fresh) (src : Bvexpr) (indirectRef : Bool) (st : Exec) (k i : ℕ) (xs : List ℕ) :
    ∀ u ∈ readXfers f src indirectRef st k i xs, u.Outside := by
  induction xs generalizing k i with
  | nil => exact fun u hu => nomatch hu
  | cons x xs ih =>
    intro u hu
    rcases List.mem_cons.mp hu with rfl | hu
    · exact xferIn_outside x _
    · exact ih _ _ u hu

variable [PastEnd]

/-- What an instruction does to the registers that are not operands, and what it leaves under way. -/
def Operation.hregUpdates (f : Fresh) (st : Exec) : Operation → List Update
  | .alu _ _ srcA op srcB _ => (calculateAlu f srcA op srcB none st).u
  | .aluShf _ _ srcA op srcB sc _ => (calculateAlu f srcA op srcB (some sc) st).u
  | .asr _ _ src sc _ => (calculateAsr f src sc st).u
  | .immed _ _ im sc _ => (calculateImmed f im sc st).u
  | .mulStepLast _ _ tok _ => (calculateMulStepLast f tok st).u
  | .localCsrWr _ csr src => [.defered 3 (.reg (Hreg.actLMAddr csr).location (src.read st (f.obj 0)))]
  | .mulStep _ srcA srcB tok => performMulStep f srcA srcB tok st
  | _ => []

/-- **An instruction does nothing else to them.** -/
theorem perform_split (f : Fresh) (st : Exec) (n : Operation) :
    ∃ us, n.perform f st = us ++ n.hregUpdates f st ∧ ∀ u ∈ us, u.Outside := by
  have hnone : ∃ us : List Update, ([] : List Update) = us ++ [] ∧ ∀ u ∈ us, u.Outside :=
    ⟨[], rfl, fun u hu => by cases hu⟩
  have hall : ∀ us : List Update, ∃ us', us = us' ++ us ∧ ∀ u ∈ us', u.Outside :=
    fun us => ⟨[], rfl, fun u hu => by cases hu⟩
  have hassign : ∀ {dst wrboth writescc} {r : AssignResult}, r.u = [] →
      ∃ us, assignUpdates f dst wrboth writescc r st = us ++ [] ∧ ∀ u ∈ us, u.Outside :=
    fun hr => hr ▸ assignUpdates_split f _ _ _ _ st
  cases n with
  | alu | aluShf | asr | immed | mulStepLast => exact assignUpdates_split f _ _ _ _ st
  | dblShf | immedW1 => exact hassign rfl
  | ldField id dst mask src sc wrboth =>
    refine hassign ?_
    unfold calculateLdField
    split_ifs <;> rfl
  | ldFieldWClr id dst mask src sc wrboth =>
    refine hassign ?_
    unfold calculateLdFieldWClr
    split_ifs <;> rfl
  | localCsrWr | mulStep => exact hall _
  | memRead => exact ⟨_, (List.append_nil _).symm, readXfers_outside f _ _ st _ _ _⟩
  | memWrite id op xfer src1 sc1 src2 sc2 refCnt indirectRef ctxSwap =>
    refine ⟨_, (List.append_nil _).symm, fun u hu => ?_⟩
    simp only [Operation.perform, performWrite] at hu
    split at hu <;>
      · obtain rfl := List.mem_singleton.mp hu
        exact ⟨fun _ _ he => (by cases he), fun _ _ he => (by cases he)⟩
  | properBranch | br | nop | fin => exact hnone

/-- The registers that an instruction changes at once. -/
def Operation.writes : Operation → Hreg → Bool
  | .alu _ _ _ op _ _, h | .aluShf _ _ _ op _ _ _, h => op.writesPrev && (h == .prevA || h == .prevAlu)
  | .asr _ _ _ _ _, h | .immed _ _ _ _ _, h => h == .prevAlu
  | .mulStep _ _ _ _, h | .mulStepLast _ _ _ _, h => h == .mulState || h == .mulA || h == .mulB
  | _, _ => false

/-- The registers that it changes later, and in how many cycles. -/
def Operation.defers : Operation → Hreg → Option ℕ
  | .alu _ _ _ op _ _, h | .aluShf _ _ _ op _ _ _, h =>
    if op.writesPrev && (h == .prevA || h == .prevAlu) then some 1 else none
  | .asr _ _ _ _ _, h => if h == .prevAlu then some 1 else none
  | .localCsrWr _ csr _, h => if h == .actLMAddr csr then some 3 else none
  | _, _ => none

theorem hregUpdates_cases {f : Fresh} {st : Exec} {n : Operation} {u : Update} (hu : u ∈ n.hregUpdates f st) :
    ∃ (h : Hreg) (e : Bvexpr), (u = .reg h.location e ∧ n.writes h = true) ∨
      ∃ cycles, u = .defered cycles (.reg h.location e) ∧ n.defers h = some cycles ∧
        (cycles = 1 → e = undef 32) := by
  have halu : ∀ {srcA op srcB sc}, u ∈ (calculateAlu f srcA op srcB sc st).u → op.writesPrev = true ∧
      ∃ (h : Hreg) (e : Bvexpr), (h = .prevA ∨ h = .prevAlu) ∧
        (u = .reg h.location e ∨ u = .defered 1 (.reg h.location e) ∧ e = undef 32) := by
    intro srcA op srcB sc hu
    unfold calculateAlu at hu
    split_ifs at hu with hprev
    · simp only [calculate_u, List.nil_append, List.mem_cons, List.not_mem_nil, or_false] at hu
      rcases hu with rfl | rfl | rfl | rfl
      · exact ⟨hprev, .prevA, _, .inl rfl, .inl rfl⟩
      · exact ⟨hprev, .prevAlu, _, .inr rfl, .inl rfl⟩
      · exact ⟨hprev, .prevA, _, .inl rfl, .inr ⟨rfl, rfl⟩⟩
      · exact ⟨hprev, .prevAlu, _, .inr rfl, .inr ⟨rfl, rfl⟩⟩
    · rw [calculate_u] at hu
      exact nomatch hu
  cases n with
  | alu | aluShf =>
    obtain ⟨hprev, h, e, hh, rfl | ⟨rfl, he⟩⟩ := halu hu
    · exact ⟨h, e, .inl ⟨rfl, by rcases hh with rfl | rfl <;> simp [Operation.writes, hprev]⟩⟩
    · exact ⟨h, e, .inr ⟨1, rfl, by rcases hh with rfl | rfl <;> simp [Operation.defers, hprev], fun _ => he⟩⟩
  | asr id dst src sc wrboth =>
    simp only [Operation.hregUpdates, calculateAsr, List.mem_cons, List.not_mem_nil, or_false] at hu
    rcases hu with rfl | rfl
    · exact ⟨.prevAlu, _, .inl ⟨rfl, rfl⟩⟩
    · exact ⟨.prevAlu, _, .inr ⟨1, rfl, rfl, fun _ => rfl⟩⟩
  | immed id dst im sc wrboth =>
    obtain rfl := List.mem_singleton.mp hu
    exact ⟨.prevAlu, _, .inl ⟨rfl, rfl⟩⟩
  | mulStepLast id dst tok wrboth =>
    simp only [Operation.hregUpdates, calculateMulStepLast] at hu
    split_ifs at hu
    · obtain rfl := List.mem_singleton.mp hu
      exact ⟨.mulState, _, .inl ⟨rfl, rfl⟩⟩
    · simp only [List.mem_cons, List.not_mem_nil, or_false] at hu
      rcases hu with rfl | rfl | rfl
      · exact ⟨.mulState, _, .inl ⟨rfl, rfl⟩⟩
      · exact ⟨.mulA, _, .inl ⟨rfl, rfl⟩⟩
      · exact ⟨.mulB, _, .inl ⟨rfl, rfl⟩⟩
  | localCsrWr id csr src =>
    obtain rfl := List.mem_singleton.mp hu
    exact ⟨.actLMAddr csr, _, .inr ⟨3, rfl, by simp [Operation.defers], fun h => (nomatch h)⟩⟩
  | mulStep id srcA srcB tok =>
    simp only [Operation.hregUpdates, performMulStep] at hu
    split_ifs at hu <;>
      · simp only [List.mem_cons, List.not_mem_nil, or_false] at hu
        rcases hu with rfl | rfl | rfl
        · exact ⟨.mulState, _, .inl ⟨rfl, rfl⟩⟩
        · exact ⟨.mulA, _, .inl ⟨rfl, rfl⟩⟩
        · exact ⟨.mulB, _, .inl ⟨rfl, rfl⟩⟩
  | _ => exact nomatch hu

/-! ### What is under way -/

/-- Updates of it are never deferred. -/
def Hreg.multiplies : Hreg → Bool
  | .mulA | .mulB | .mulState => true
  | _ => false

omit [PastEnd] in
theorem defers_multiplies {n : Operation} {h : Hreg} {cycles : ℕ} (hn : n.defers h = some cycles) :
    h.multiplies = false := by
  cases h with
  | mulA | mulB | mulState =>
    exfalso
    cases n <;> simp [Operation.defers] at hn
  | _ => rfl

/-- What is under way is of registers that are not operands, and not of those that multiply. -/
def Exec.DefersHreg (st : Exec) : Prop :=
  ∀ p ∈ st.defered, ∃ (h : Hreg) (e : Bvexpr), h.multiplies = false ∧ p.2 = .reg h.location e

omit [PastEnd] in
theorem Exec.DefersHreg.storeDue {st : Exec} (h : st.DefersHreg) : st.storeDue.DefersHreg := by
  have hdefered : st.storeDue.defered = st.defered.filter fun d => st.sumcycles < d.1 := by
    refine storeAll_defered _ fun u hu cycles u' he => ?_
    obtain ⟨p, hp, rfl⟩ := List.mem_map.mp hu
    obtain ⟨h, e, -, hp⟩ := h p (List.mem_filter.mp hp).1
    rw [hp] at he
    exact nomatch he
  intro p hp
  rw [hdefered] at hp
  exact h p (List.mem_filter.mp hp).1

omit [PastEnd] in
/-- Operands are not touched by what is under way. -/
theorem Exec.DefersHreg.storeDue_registers {st : Exec} {d : String} (h : st.DefersHreg)
    (hd : ∀ h : Hreg, h.multiplies = false → d ≠ h.location) : st.storeDue.registers d = st.registers d := by
  refine storeAll_registers _ fun u hu e he => ?_
  obtain ⟨p, hp, rfl⟩ := List.mem_map.mp hu
  obtain ⟨r, e', hr, hp⟩ := h p (List.mem_filter.mp hp).1
  exact hd r hr (Update.reg.inj (he.symm.trans hp)).1

omit [PastEnd] in
theorem storeAll_defersHreg {us : List Update} {st : Exec} (hst : st.DefersHreg)
    (hus : ∀ u ∈ us, u.Outside ∨ ∃ (h : Hreg) (e : Bvexpr), u = .reg h.location e ∨
      h.multiplies = false ∧ ∃ cycles, u = .defered cycles (.reg h.location e)) : (st.storeAll us).DefersHreg := by
  induction us generalizing st with
  | nil => exact hst
  | cons u us ih =>
    refine ih ?_ fun v hv => hus v (List.mem_cons_of_mem _ hv)
    have hcases := hus u (List.mem_cons_self ..)
    cases u with
    | defered cycles u' =>
      intro p hp
      rcases List.mem_append.mp hp with hp | hp
      · exact hst p hp
      · obtain rfl := List.mem_singleton.mp hp
        rcases hcases with hout | ⟨h, e, he | ⟨hh, c, he⟩⟩
        · exact absurd rfl (hout.2 cycles u')
        · exact nomatch he
        · exact ⟨h, e, hh, (Update.defered.inj he).2⟩
    | _ => exact hst

/-- **Updates under way are of registers that are not operands**, after every instruction. -/
theorem Exec.DefersHreg.apply {st : Exec} (h : st.DefersHreg) (s : Step) : (st.apply s).DefersHreg := by
  unfold Exec.apply
  simp only
  split_ifs
  · exact h
  · have hassume : ((st.elapse s.n.instr s.i s.branchtrue).assumeBranch s).DefersHreg := by
      rw [Exec.DefersHreg, (assumeBranch_sameButSat _ s).defered]
      exact h
    obtain ⟨us, hus, hout⟩ := perform_split s.fresh
      ((st.elapse s.n.instr s.i s.branchtrue).assumeBranch s) s.n
    refine storeAll_defersHreg hassume.storeDue fun u hu => ?_
    rw [hus] at hu
    rcases List.mem_append.mp hu with hu | hu
    · exact .inl (hout u hu)
    · obtain ⟨h, e, ⟨he, -⟩ | ⟨c, he, hc, -⟩⟩ := hregUpdates_cases hu
      · exact .inr ⟨h, e, .inl he⟩
      · exact .inr ⟨h, e, .inr ⟨defers_multiplies hc, c, he⟩⟩

theorem Exec.DefersHreg.applyAll {st : Exec} (h : st.DefersHreg) (ss : List Step) :
    (st.applyAll ss).DefersHreg := by
  induction ss generalizing st with
  | nil => exact h
  | cons s ss ih => exact ih (h.apply s)

omit [PastEnd] in
/-- Nothing is under way in a state that is made. -/
theorem initialState_defered (firmware mtu : ℕ) {input : List Update}
    (h : ∀ u ∈ input, ∀ cycles u', u ≠ .defered cycles u') : (initialState firmware mtu input).defered = [] := by
  have hstore : ∀ (us : List Update) (st : Exec), (∀ u ∈ us, ∀ cycles u', u ≠ .defered cycles u') →
      (us.foldl (fun st u => u.store st) st).defered = st.defered := by
    intro us
    induction us with
    | nil => exact fun st _ => rfl
    | cons u us ih =>
      intro st hus
      refine (ih _ fun v hv => hus v (List.mem_cons_of_mem _ hv)).trans ?_
      cases u with
      | defered cycles u' => exact absurd rfl (hus _ (List.mem_cons_self ..) cycles u')
      | _ => rfl
  exact hstore input _ h

omit [PastEnd] in
theorem initialState_defersHreg (firmware mtu : ℕ) {input : List Update}
    (h : ∀ u ∈ input, ∀ cycles u', u ≠ .defered cycles u') : (initialState firmware mtu input).DefersHreg := by
  intro p hp
  rw [initialState_defered _ _ h] at hp
  exact nomatch hp

theorem hregUpdates_congr {st st' : Exec} (h : st.SameContents st') (f : Fresh) (n : Operation) :
    n.hregUpdates f st = n.hregUpdates f st' := by
  obtain ⟨hr, hf, h8, h32⟩ := h
  cases st
  cases st'
  obtain rfl : _ = _ := hr
  obtain rfl : _ = _ := hf
  obtain rfl : _ = _ := h8
  obtain rfl : _ = _ := h32
  cases n <;> rfl

/-- What an instruction does to the registers that are not operands, it does last. -/
theorem apply_split {st : Exec} (hsat : st.isUnsat = false) (s : Step) :
    ∃ (st₁ : Exec) (us : List Update), st₁.SameButSat (st.elapse s.n.instr s.i s.branchtrue) ∧
      (∀ u ∈ us, u.Outside) ∧
      st.apply s = (st₁.storeDue.storeAll us).storeAll (s.n.hregUpdates s.fresh st) := by
  have hsat' : (st.elapse s.n.instr s.i s.branchtrue).isUnsat = false := hsat
  have hsame := assumeBranch_sameButSat (st.elapse s.n.instr s.i s.branchtrue) s
  obtain ⟨us, hus, hout⟩ := perform_split s.fresh ((st.elapse s.n.instr s.i s.branchtrue).assumeBranch s) s.n
  refine ⟨_, us, hsame, hout, ?_⟩
  have hcontents : ((st.elapse s.n.instr s.i s.branchtrue).assumeBranch s).SameContents st := by
    obtain ⟨hr, hf, h8, h32⟩ := hsame.contents
    exact ⟨hr, hf, h8, h32⟩
  simp only [Exec.apply, hsat', Bool.false_eq_true, if_false, hus, Exec.storeAll_append]
  rw [hregUpdates_congr hcontents]

theorem apply_multiplies {st : Exec} (hsat : st.isUnsat = false) (hst : st.DefersHreg) (s : Step) :
    ∃ st₁, st.apply s = Exec.storeAll st₁ (s.n.hregUpdates s.fresh st) ∧
      ∀ h : Hreg, h.multiplies = true → st₁.registers h.location = st.registers h.location := by
  obtain ⟨st₁, us, hsame, hout, happly⟩ := apply_split hsat s
  have hdefers : st₁.DefersHreg := by
    rw [Exec.DefersHreg, hsame.defered]
    exact hst
  refine ⟨_, happly, fun h hh => ?_⟩
  rw [storeAll_registers _ fun u hu e => (hout u hu).1 h e, hdefers.storeDue_registers, hsame.contents.registers]
  · rfl
  · intro h' hh' he
    rw [Hreg.location_injective he] at hh
    exact absurd (hh'.symm.trans hh) Bool.false_ne_true

/-! ### Results in registers -/

omit [PastEnd] in
theorem assignUpdates_gpr {r : AssignResult} {g : Gpr} (hu : ∀ u ∈ r.u, ∀ e, u ≠ .reg g.location e) (f : Fresh)
    (wrboth writescc : Bool) (st st' : Exec) :
    (st'.storeAll (assignUpdates f (.gpr g) wrboth writescc r st)).registers g.location = some r.dst := by
  have hflags : ∀ u ∈ (if writescc then
      [Update.flag Flag.N.location (bvcomp 1 (extract 31 31 32 r.dst) (constant 1 1)),
        .flag Flag.Z.location (bvcomp 32 r.dst (constant 32 0)),
        .flag Flag.V.location r.v, .flag Flag.C.location r.c]
    else []), ∀ e, u ≠ .reg g.location e := by
    intro u hu e
    split_ifs at hu
    · simp only [List.mem_cons, List.not_mem_nil, or_false] at hu
      rcases hu with rfl | rfl | rfl | rfl <;> exact fun he => nomatch he
    · exact nomatch hu
  unfold assignUpdates
  rw [Exec.storeAll_append, storeAll_registers _ hu, Exec.storeAll_append, storeAll_registers _ hflags]
  cases wrboth with
  | false => exact Function.update_self ..
  | true =>
    by_cases hflip : g.location = g.flip.location
    · simp [Update.store, Dst.write, hflip]
    · simp [Update.store, Dst.write, Function.update_of_ne hflip]

/-- The updates of an instruction derived from `instr::alu_like`. -/
theorem perform_aluLike {n : Operation} {f : Fresh} {st : Exec} {op : AluOp} {A B : Bvexpr} {dst : Dst}
    {wrboth : Bool} (hs : n.aluLike f st = some (op, A, B)) (hd : n.aluDst = some (dst, wrboth)) :
    ∃ r : AssignResult, n.perform f st = assignUpdates f dst wrboth true r st ∧ n.hregUpdates f st = r.u ∧
      r.dst = (op.calculate A B st (f.obj 3)).dst := by
  cases n with
  | alu id dst' srcA op' srcB wrboth' =>
    obtain ⟨rfl, rfl⟩ : dst' = dst ∧ wrboth' = wrboth := by simpa [Operation.aluDst] using hd
    obtain ⟨rfl, rfl, rfl⟩ : op' = op ∧ _ = A ∧ _ = B := by simpa [Operation.aluLike] using hs
    refine ⟨_, rfl, rfl, ?_⟩
    unfold calculateAlu
    split_ifs <;> rfl
  | aluShf id dst' srcA op' srcB sc wrboth' =>
    obtain ⟨rfl, rfl⟩ : dst' = dst ∧ wrboth' = wrboth := by simpa [Operation.aluDst] using hd
    obtain ⟨rfl, rfl, rfl⟩ : op' = op ∧ _ = A ∧ _ = B := by simpa [Operation.aluLike] using hs
    refine ⟨_, rfl, rfl, ?_⟩
    unfold calculateAlu
    split_ifs <;> rfl
  | _ => cases hs

theorem hregUpdates_ne_gpr {n : Operation} {f : Fresh} {st : Exec} (g : Gpr) :
    ∀ u ∈ n.hregUpdates f st, ∀ e, u ≠ .reg g.location e := by
  intro u hu e he
  obtain ⟨h, e', ⟨rfl, -⟩ | ⟨c, rfl, -⟩⟩ := hregUpdates_cases hu
  · exact h.location_ne_gpr g (Update.reg.inj he).1
  · exact nomatch he

/-- A register that an instruction does not assign is left alone. -/
theorem apply_gpr_of_ne {st : Exec} {s : Step} {g : Gpr} (hsat : st.isUnsat = false) (hst : st.DefersHreg)
    (hs : s.n.instr.type ≠ .BRANCH) (hn : ∀ u ∈ s.n.perform s.fresh st, ∀ e, u ≠ .reg g.location e) :
    (st.apply s).registers g.location = st.registers g.location := by
  have hst' : (st.elapse s.n.instr s.i s.branchtrue).DefersHreg := hst
  rw [apply_eq hsat hs, storeAll_registers _ hn, hst'.storeDue_registers fun h _ => (h.location_ne_gpr g).symm]
  rfl

/-- The result is in its register. -/
theorem apply_aluLike_gpr {st : Exec} {s : Step} {op : AluOp} {A B : Bvexpr} {g : Gpr} {wrboth : Bool}
    (hsat : st.isUnsat = false) (hs : s.n.aluLike s.fresh st = some (op, A, B))
    (hd : s.n.aluDst = some (.gpr g, wrboth)) (o : Obj) :
    (st.apply s).reg o g.location = (op.calculate A B st (s.fresh.obj 3)).dst := by
  obtain ⟨r, hperform, hu, hdst⟩ := perform_aluLike hs hd
  have hne : ∀ u ∈ r.u, ∀ e, u ≠ .reg g.location e := hu ▸ hregUpdates_ne_gpr g
  rw [apply_eq hsat (aluLike_type hs), hperform, Exec.reg, assignUpdates_gpr hne, ← hdst]
  rfl

/-- Another register is left alone. -/
theorem apply_aluLike_of_ne {st : Exec} {s : Step} {op : AluOp} {A B : Bvexpr} {g d : Gpr} {wrboth : Bool}
    (hsat : st.isUnsat = false) (hst : st.DefersHreg) (hs : s.n.aluLike s.fresh st = some (op, A, B))
    (hd : s.n.aluDst = some (.gpr g, wrboth)) (hg : d.location ≠ g.location)
    (hflip : wrboth = true → d.location ≠ g.flip.location) (o : Obj) :
    (st.apply s).reg o d.location = st.reg o d.location := by
  obtain ⟨r, hperform, hu, -⟩ := perform_aluLike hs hd
  have hkeep : ∀ u ∈ assignUpdates s.fresh (.gpr g) wrboth true r st, ∀ e, u ≠ .reg d.location e := by
    intro u hu' e he
    unfold assignUpdates at hu'
    rw [← hu] at hu'
    simp only [List.mem_append, if_true, List.mem_cons, List.not_mem_nil, or_false] at hu'
    rcases hu' with ((rfl | hu') | rfl | rfl | rfl | rfl) | hu'
    · exact hg (Update.reg.inj he).1.symm
    · cases wrboth with
      | false => exact nomatch hu'
      | true =>
        obtain rfl := List.mem_singleton.mp hu'
        exact hflip rfl (Update.reg.inj he).1.symm
    · exact nomatch he
    · exact nomatch he
    · exact nomatch he
    · exact nomatch he
    · exact hregUpdates_ne_gpr d u hu' e he
  rw [Exec.reg, apply_gpr_of_ne hsat hst (aluLike_type hs) (hperform ▸ hkeep)]
  rfl

end NfpEstimator
