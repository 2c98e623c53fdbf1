import NfpEstimator.State.Registers

/-!
# Multiplications

A multiplication takes several instructions. How far one has come is kept in the register `mul_state`, as one of
the objects `step_expr`, and what is multiplied in `mulA` and `mulB`. Here this is compared with what the
instructions are documented to do: the steps of a multiplication, in order, and then the instructions with a
result (`Documented`).

Every step compares its operands with those of the step before it, and not with those of the first one. This is
not the same, as equality of expressions is not transitive (`equal_to_start_undefined`).
-/

namespace NfpEstimator

/-! ### What is executed -/

/-- An instruction of a multiplication, with the operands that it reads. -/
inductive MulEvent where
  | step (tok : MulTok) (operands : Bvexpr × Bvexpr)
  | last (tok : MulLast)

/-- The instruction of a multiplication that an instruction is. -/
def Operation.mulEvent (f : Fresh) (st : Exec) : Operation → Option MulEvent
  | .mulStep _ srcA srcB tok => some (.step tok (srcA.read st (f.obj 3), srcB.read st (f.obj 4)))
  | .mulStepLast _ _ tok _ => some (.last tok)
  | _ => none

section

variable [PastEnd]

/-- Those of a sequence of instructions. Once a path is known to be impossible, nothing is executed. -/
def Exec.mulEvents (st : Exec) : List Step → List MulEvent
  | [] => []
  | s :: ss => (if st.isUnsat then [] else (s.n.mulEvent s.fresh st).toList) ++ (st.apply s).mulEvents ss

/-! ### What is documented -/

/-- Operands as they are compared by `mul_step`: those of the step before with those of the step. -/
def SameOperands (x y : Bvexpr × Bvexpr) : Prop := x.1.equal y.1 = true ∧ x.2.equal y.2 = true

/-- The last instructions of multiplications that were executed are the given steps, each with the operands of
the one before it. `operands` are those of the last one. -/
def Stepped (toks : List MulTok) (events : List MulEvent) (operands : Bvexpr × Bvexpr) : Prop :=
  ∃ (before : List MulEvent) (steps : List (MulTok × Bvexpr × Bvexpr)),
    events = before ++ steps.map (fun s => .step s.1 s.2) ∧ steps.map Prod.fst = toks ∧
      (steps.map Prod.snd).IsChain SameOperands ∧ (steps.map Prod.snd).getLast? = some operands

/-- The sequences that an instruction with a result comes after. -/
def Documented (events : List MulEvent) (operands : Bvexpr × Bvexpr) : MulLast → Prop
  | .s16x16Last => Stepped [.start, .s16x16Step1, .s16x16Step2] events operands
  | .s32x32Last =>
    Stepped [.start, .s32x32Step1, .s32x32Step2, .s32x32Step3, .s32x32Step4] events operands
  | .s32x32Last2 => ∃ before, events = before ++ [.last .s32x32Last] ∧
      Stepped [.start, .s32x32Step1, .s32x32Step2, .s32x32Step3, .s32x32Step4] before operands

/-! ### The steps as they are checked -/

/-- Where a multiplication is: after a step, or after an instruction with a result. -/
abbrev Stage := MulTok ⊕ MulLast

/-- The object that `mul_state` holds there. -/
def Stage.obj : Stage → Obj := Sum.elim MulTok.obj MulLast.obj

omit [PastEnd] in
theorem Stage.obj_injective : Function.Injective Stage.obj := by
  rintro (t | t) (t' | t') h <;> cases t <;> cases t' <;> simp_all [Stage.obj, MulTok.obj, MulLast.obj]

/-- The step that has to come before a step. -/
def MulTok.prev : MulTok → Option MulTok
  | .start => none
  | .s16x16Step1 | .s32x32Step1 => some .start
  | .s16x16Step2 => some .s16x16Step1
  | .s32x32Step2 => some .s32x32Step1
  | .s32x32Step3 => some .s32x32Step2
  | .s32x32Step4 => some .s32x32Step3

/-- Where an instruction with a result has to be. -/
def MulLast.prev : MulLast → Stage
  | .s16x16Last => .inl .s16x16Step2
  | .s32x32Last => .inl .s32x32Step4
  | .s32x32Last2 => .inr .s32x32Last

theorem MulTok.check_eq (mulState mulA mulB A B : Bvexpr) (t : MulTok) :
    t.check mulState mulA mulB A B = t.prev.elim true fun p => checkAfter p mulState mulA mulB A B := by
  cases t <;> rfl

omit [PastEnd] in
theorem MulLast.check_eq (mulState : Bvexpr) (t : MulLast) : t.check mulState = isObj t.prev.obj mulState := by
  cases t <;> rfl

/-- The steps up to one. -/
def MulTok.sequence : MulTok → List MulTok
  | .start => [.start]
  | .s16x16Step1 => [.start, .s16x16Step1]
  | .s16x16Step2 => [.start, .s16x16Step1, .s16x16Step2]
  | .s32x32Step1 => [.start, .s32x32Step1]
  | .s32x32Step2 => [.start, .s32x32Step1, .s32x32Step2]
  | .s32x32Step3 => [.start, .s32x32Step1, .s32x32Step2, .s32x32Step3]
  | .s32x32Step4 => [.start, .s32x32Step1, .s32x32Step2, .s32x32Step3, .s32x32Step4]

omit [PastEnd] in
theorem MulTok.sequence_eq (t : MulTok) : t.sequence = t.prev.elim [] MulTok.sequence ++ [t] := by
  cases t <;> rfl

omit [PastEnd] in
theorem MulTok.sequence_ne_nil (t : MulTok) : t.sequence ≠ [] := by
  rw [t.sequence_eq]
  simp

/-- What a step does to how far the multiplication is. -/
def advance (cur : Option (Stage × Bvexpr × Bvexpr)) : MulEvent → Option (Stage × Bvexpr × Bvexpr)
  | .step tok operands =>
    let fits := fun p => cur.any fun c =>
      c.1 = .inl p && (c.2.1.equal operands.1 && c.2.2.equal operands.2)
    if tok.prev.elim true fits then some (.inl tok, operands) else none
  | .last tok => cur.bind fun c => if c.1 = tok.prev then some (.inr tok, c.2) else none

/-- How far it is after some instructions. -/
def progress (events : List MulEvent) : Option (Stage × Bvexpr × Bvexpr) := events.foldl advance none

theorem progress_snoc (events : List MulEvent) (e : MulEvent) :
    progress (events ++ [e]) = advance (progress events) e := by
  rw [progress, List.foldl_append]
  rfl

/-! ### The steps are the documented ones -/

theorem stepped_snoc {toks : List MulTok} {t : MulTok} {events : List MulEvent} {e : MulEvent}
    {operands : Bvexpr × Bvexpr} : Stepped (toks ++ [t]) (events ++ [e]) operands ↔
      e = .step t operands ∧ (toks = [] ∨ ∃ o, Stepped toks events o ∧ SameOperands o operands) := by
  constructor
  · rintro ⟨before, steps, hevents, hsteps, hchain, hlast⟩
    obtain ⟨steps, rest, rfl, rfl, hrest⟩ := List.map_eq_append_iff.mp hsteps
    obtain ⟨⟨t', o⟩, rfl, rfl⟩ := List.map_eq_singleton_iff.mp hrest
    rw [List.map_append, ← List.append_assoc] at hevents
    obtain ⟨rfl, he⟩ := List.append_inj' hevents rfl
    obtain rfl : o = operands := by simpa using hlast
    refine ⟨List.singleton_inj.mp he, ?_⟩
    rcases List.eq_nil_or_concat steps with rfl | ⟨front, ⟨t'', o'⟩, rfl⟩
    · exact .inl rfl
    · rw [List.map_append, List.isChain_append] at hchain
      exact .inr ⟨o', ⟨before, _, rfl, rfl, hchain.1, by simp⟩, hchain.2.2 o' (by simp) o (by simp)⟩
  · rintro ⟨rfl, rfl | ⟨o, ⟨before, steps, rfl, rfl, hchain, hlast⟩, hsame⟩⟩
    · exact ⟨events, [(t, operands)], rfl, rfl, .singleton _, rfl⟩
    · refine ⟨before, steps ++ [(t, operands)], by simp, by simp, ?_, by simp⟩
      rw [List.map_append, List.isChain_append]
      refine ⟨hchain, .singleton _, fun x hx y hy => ?_⟩
      obtain rfl : o = x := Option.some.inj (hlast.symm.trans hx)
      obtain rfl : operands = y := Option.some.inj hy
      exact hsame

theorem stepped_sequence {t : MulTok} {events : List MulEvent} {e : MulEvent} {operands : Bvexpr × Bvexpr} :
    Stepped t.sequence (events ++ [e]) operands ↔ e = .step t operands ∧
      ∀ p ∈ t.prev, ∃ o, Stepped p.sequence events o ∧ SameOperands o operands := by
  rw [t.sequence_eq, stepped_snoc]
  cases t.prev with
  | none => simp
  | some p => simp [p.sequence_ne_nil]

theorem advance_step {cur : Option (Stage × Bvexpr × Bvexpr)} {tok t : MulTok} {operands o : Bvexpr × Bvexpr} :
    advance cur (.step tok operands) = some (.inl t, o) ↔ tok = t ∧ operands = o ∧
      ∀ p ∈ t.prev, ∃ o', cur = some (.inl p, o') ∧ SameOperands o' o := by
  have hany : ∀ p, (cur.any fun c => c.1 = .inl p && (c.2.1.equal operands.1 && c.2.2.equal operands.2)) = true ↔
      ∃ o', cur = some (.inl p, o') ∧ SameOperands o' operands := by
    intro p
    rcases cur with _ | ⟨stage, o'⟩
    · simp
    · simp only [Option.any_some, Bool.and_eq_true, decide_eq_true_eq, SameOperands, Option.some.injEq,
        Prod.mk.injEq]
      constructor
      · rintro ⟨rfl, ho⟩
        exact ⟨o', ⟨rfl, rfl⟩, ho⟩
      · rintro ⟨o'', ⟨rfl, rfl⟩, ho⟩
        exact ⟨rfl, ho⟩
  have hfits : (tok.prev.elim true fun p => cur.any fun c =>
      c.1 = .inl p && (c.2.1.equal operands.1 && c.2.2.equal operands.2)) = true ↔
      ∀ p ∈ tok.prev, ∃ o', cur = some (.inl p, o') ∧ SameOperands o' operands := by
    cases tok.prev with
    | none => simp
    | some p => simp [hany]
  rw [advance, Option.ite_none_right_eq_some, hfits]
  constructor
  · rintro ⟨h, he⟩
    cases he
    exact ⟨rfl, rfl, h⟩
  · rintro ⟨rfl, rfl, h⟩
    exact ⟨h, rfl⟩

theorem advance_last {cur : Option (Stage × Bvexpr × Bvexpr)} {e : MulEvent} {t : MulLast} {o : Bvexpr × Bvexpr} :
    advance cur e = some (.inr t, o) ↔ e = .last t ∧ cur = some (t.prev, o) := by
  cases e with
  | step tok operands => simp [advance]
  | last tok =>
    rcases cur with _ | ⟨stage, o'⟩
    · simp [advance]
    · simp only [advance, Option.bind_some, Option.ite_none_right_eq_some, Option.some.injEq, Prod.mk.injEq,
        Sum.inr.injEq, MulEvent.last.injEq]
      constructor
      · rintro ⟨rfl, rfl, rfl⟩
        exact ⟨rfl, rfl, rfl⟩
      · rintro ⟨rfl, rfl, rfl⟩
        exact ⟨rfl, rfl, rfl⟩

/-- **The steps are counted exactly as far as the sequence is the documented one.** -/
theorem progress_step {events : List MulEvent} {t : MulTok} {operands : Bvexpr × Bvexpr} :
    progress events = some (.inl t, operands) ↔ Stepped t.sequence events operands := by
  induction events using List.reverseRecOn generalizing t operands with
  | nil =>
    refine ⟨fun h => (nomatch h), ?_⟩
    rintro ⟨before, steps, hevents, hsteps, -⟩
    obtain ⟨-, hnil⟩ := List.append_eq_nil_iff.mp hevents.symm
    rw [List.map_eq_nil_iff.mp hnil] at hsteps
    exact absurd hsteps.symm t.sequence_ne_nil
  | append_singleton events e ih =>
    rw [progress_snoc, stepped_sequence]
    cases e with
    | step tok o => simp only [advance_step, ih, MulEvent.step.injEq, and_assoc]
    | last tok =>
      have hnone : advance (progress events) (.last tok) ≠ some (.inl t, operands) := by
        cases progress events with
        | none => simp [advance]
        | some c => simp [advance]
      simp [hnone]

/-! ### The registers -/

/-- The registers tell how far the multiplication is. -/
def AtStage (st : Exec) : Option (Stage × Bvexpr × Bvexpr) → Prop
  | none => ∀ (stage : Stage) (B : ℕ), st.registers Hreg.mulState.location ≠ some (.undefined B stage.obj)
  | some (stage, A, B) => st.registers Hreg.mulState.location = some (.undefined 32 stage.obj) ∧
      st.registers Hreg.mulA.location = some A ∧ st.registers Hreg.mulB.location = some B

omit [PastEnd] in
theorem Fresh.ne_stage (f : Fresh) (k : ℕ) (stage : Stage) : f.obj k ≠ stage.obj := by
  cases stage with
  | inl t => exact f.ne_tok k t
  | inr t => exact f.ne_last k t

omit [PastEnd] in
theorem AtStage.congr {st st' : Exec} {cur : Option (Stage × Bvexpr × Bvexpr)} (h : AtStage st cur)
    (hreg : ∀ r : Hreg, r.multiplies = true → st'.registers r.location = st.registers r.location) :
    AtStage st' cur := by
  rcases cur with _ | ⟨stage, A, B⟩
  · simp only [AtStage, hreg .mulState rfl]
    exact h
  · simp only [AtStage, hreg .mulState rfl, hreg .mulA rfl, hreg .mulB rfl]
    exact h

omit [PastEnd] in
theorem AtStage.isObj_reg {st : Exec} {cur : Option (Stage × Bvexpr × Bvexpr)} (h : AtStage st cur) (f : Fresh) (k : ℕ)
    (stage : Stage) :
    isObj stage.obj (st.reg (f.obj k) Hreg.mulState.location) = cur.any fun c => c.1 = stage := by
  rcases cur with _ | ⟨stage', A, B⟩
  · have hne : isObj stage.obj (st.reg (f.obj k) Hreg.mulState.location) = false := by
      rw [Exec.reg]
      cases hreg : st.registers Hreg.mulState.location with
      | none => simp [isObj, f.ne_stage k stage]
      | some e =>
        cases e with
        | undefined B o =>
          have hobj : o ≠ stage.obj := by
            rintro rfl
            exact h stage B hreg
          simp [isObj, hobj]
        | _ => rfl
    exact hne
  · have hobj : (stage'.obj == stage.obj) = decide (stage' = stage) := by
      by_cases he : stage' = stage
      · simp [he]
      · simp [he, Stage.obj_injective.ne he]
    simpa [Exec.reg, h.1, isObj] using hobj

/-- What a step checks is what `advance` checks. -/
theorem AtStage.check {st : Exec} {cur : Option (Stage × Bvexpr × Bvexpr)} (h : AtStage st cur) (f : Fresh)
    (t : MulTok) (A B : Bvexpr) :
    t.check (st.reg (f.obj 0) Hreg.mulState.location) (st.reg (f.obj 1) Hreg.mulA.location)
        (st.reg (f.obj 2) Hreg.mulB.location) A B =
      t.prev.elim true fun p => cur.any fun c => c.1 = .inl p && (c.2.1.equal A && c.2.2.equal B) := by
  rw [t.check_eq]
  congr 1
  funext p
  have hobj := h.isObj_reg f 0 (.inl p)
  rw [Stage.obj, Sum.elim_inl] at hobj
  rw [checkAfter, hobj]
  rcases cur with _ | ⟨stage, A', B'⟩
  · rfl
  · simp [Exec.reg, h.2.1, h.2.2]

omit [PastEnd] in
theorem AtStage.checkLast {st : Exec} {cur : Option (Stage × Bvexpr × Bvexpr)} (h : AtStage st cur) (f : Fresh)
    (t : MulLast) : t.check (st.reg (f.obj 0) Hreg.mulState.location) = cur.any fun c => c.1 = t.prev := by
  rw [t.check_eq, h.isObj_reg]

omit [PastEnd] in
theorem storeAll_mul (st : Exec) (x A B : Bvexpr) :
    let st' := st.storeAll [.reg Hreg.mulState.location x, .reg Hreg.mulA.location A, .reg Hreg.mulB.location B]
    st'.registers Hreg.mulState.location = some x ∧ st'.registers Hreg.mulA.location = some A ∧
      st'.registers Hreg.mulB.location = some B := by
  simp [Update.store, Function.update, Hreg.location]

omit [PastEnd] in
/-- An object that is made anew is no step. -/
theorem atStage_undefined {st : Exec} {f : Fresh} {k : ℕ}
    (h : st.registers Hreg.mulState.location = some (.undefined 32 (f.obj k))) : AtStage st none := by
  intro stage B he
  rw [h] at he
  exact f.ne_stage k stage (Bvexpr.undefined.inj (Option.some.inj he)).2

theorem AtStage.performMulStep {st : Exec} {cur : Option (Stage × Bvexpr × Bvexpr)} (h : AtStage st cur)
    (f : Fresh) (srcA srcB : Src) (tok : MulTok) (st₁ : Exec) :
    AtStage (st₁.storeAll (performMulStep f srcA srcB tok st))
      (advance cur (.step tok (srcA.read st (f.obj 3), srcB.read st (f.obj 4)))) := by
  simp only [NfpEstimator.performMulStep, h.check, advance]
  split_ifs
  · exact storeAll_mul st₁ ..
  · exact atStage_undefined (storeAll_mul st₁ ..).1

omit [PastEnd] in
theorem AtStage.calculateMulStepLast {st st₁ : Exec} {cur : Option (Stage × Bvexpr × Bvexpr)} (h : AtStage st cur)
    (f : Fresh) (tok : MulLast)
    (hreg : ∀ r : Hreg, r.multiplies = true → st₁.registers r.location = st.registers r.location) :
    AtStage (st₁.storeAll (calculateMulStepLast f tok st).u)
      (cur.bind fun c => if c.1 = tok.prev then some (.inr tok, c.2) else none) := by
  simp only [NfpEstimator.calculateMulStepLast, h.checkLast]
  rcases cur with _ | ⟨stage, A, B⟩
  · exact atStage_undefined (storeAll_mul st₁ ..).1
  · by_cases hstage : stage = tok.prev
    · have hA : st₁.registers Hreg.mulA.location = some A := (hreg .mulA rfl).trans h.2.1
      have hB : st₁.registers Hreg.mulB.location = some B := (hreg .mulB rfl).trans h.2.2
      have hstate : (st₁.storeAll [.reg Hreg.mulState.location tok.next]).registers =
          Function.update st₁.registers Hreg.mulState.location (some tok.next) := rfl
      simp only [Option.any_some, hstage, decide_true, Option.bind_some, if_true, AtStage, hstate]
      refine ⟨Function.update_self .., ?_, ?_⟩
      · rw [Function.update_of_ne (by decide), hA]
      · rw [Function.update_of_ne (by decide), hB]
    · simp only [Option.any_some, hstage, decide_false, Option.bind_some, Bool.false_eq_true, if_false]
      exact atStage_undefined (storeAll_mul st₁ ..).1

omit [PastEnd] in
/-- The registers of another instruction are not those of a multiplication. -/
theorem writes_multiplies {n : Operation} {f : Fresh} {st : Exec} {h : Hreg} (hn : n.mulEvent f st = none)
    (hh : h.multiplies = true) : n.writes h = false := by
  cases h with
  | mulA | mulB | mulState => cases n <;> simp_all [Operation.mulEvent, Operation.writes]
  | _ => cases hh

/-- **The registers keep telling how far the multiplication is**, whatever is executed. -/
theorem AtStage.apply {st : Exec} {cur : Option (Stage × Bvexpr × Bvexpr)} (h : AtStage st cur)
    (hsat : st.isUnsat = false) (hst : st.DefersHreg) (s : Step) :
    AtStage (st.apply s) ((s.n.mulEvent s.fresh st).elim cur (advance cur)) := by
  obtain ⟨st₁, happly, hreg⟩ := apply_multiplies hsat hst s
  rw [happly]
  cases hn : s.n.mulEvent s.fresh st with
  | none =>
    refine h.congr fun r hr => ?_
    rw [storeAll_registers _ ?_, hreg r hr]
    intro u hu e he
    obtain ⟨r', e', ⟨rfl, hw⟩ | ⟨c, rfl, -⟩⟩ := hregUpdates_cases hu
    · obtain rfl := Hreg.location_injective (Update.reg.inj he).1
      exact absurd ((writes_multiplies hn hr).symm.trans hw) Bool.false_ne_true
    · exact nomatch he
  | some e =>
    cases hop : s.n with
    | mulStep id srcA srcB tok =>
      obtain rfl : _ = e := by simpa [hop, Operation.mulEvent] using hn
      exact h.performMulStep s.fresh srcA srcB tok st₁
    | mulStepLast id dst tok wrboth =>
      obtain rfl : _ = e := by simpa [hop, Operation.mulEvent] using hn
      exact h.calculateMulStepLast s.fresh tok hreg
    | _ => simp [hop, Operation.mulEvent] at hn

/-- After a sequence of instructions they tell how far the multiplication is. -/
theorem AtStage.applyAll {st : Exec} {cur : Option (Stage × Bvexpr × Bvexpr)} (h : AtStage st cur)
    (hst : st.DefersHreg) (ss : List Step) : AtStage (st.applyAll ss) ((st.mulEvents ss).foldl advance cur) := by
  induction ss generalizing st cur with
  | nil => exact h
  | cons s ss ih =>
    rw [Exec.applyAll_cons, Exec.mulEvents, List.foldl_append]
    refine ih ?_ (hst.apply s)
    cases hsat : st.isUnsat with
    | true =>
      have hsat' : (st.elapse s.n.instr s.i s.branchtrue).isUnsat = true := hsat
      rw [Exec.apply, if_pos hsat', if_pos rfl]
      exact h.congr fun _ _ => rfl
    | false =>
      have happly := h.apply hsat hst s
      rw [if_neg Bool.false_ne_true]
      cases hn : s.n.mulEvent s.fresh st with
      | none => simpa [hn] using happly
      | some e => simpa [hn] using happly

/-! ### Results -/

omit [PastEnd] in
/-- A multiplication has a value. -/
theorem MulLast.calculate_ne_undefined (A B : Bvexpr) (tok : MulLast) (o : Obj) :
    tok.calculate A B ≠ .undefined 32 o := by
  cases tok <;> exact fun h => nomatch h

/-- What is documented of the result: the low word of the product, or the high one. -/
def MulLast.product (a b : ℕ) : MulLast → ℕ
  | .s16x16Last | .s32x32Last => a * b % 2 ^ 32
  | .s32x32Last2 => a * b / 2 ^ 32

omit [PastEnd] in
theorem MulLast.calculate_eval {A B : Bvexpr} (hA : Typed 32 A) (hB : Typed 32 B) (tok : MulLast) (env : Env) :
    (tok.calculate A B).eval env = tok.product (A.eval env) (B.eval env) := by
  cases tok with
  | s16x16Last | s32x32Last => rfl
  | s32x32Last2 =>
    have hextA := extend_computes (E := 32) hA
    have hextB := extend_computes (E := 32) hB
    have hprod : Typed 64 (.bvbinary .bvmultiplication 64 (extend 32 32 A) (extend 32 32 B)) :=
      ⟨⟨hextA.typed, hextB.typed⟩, rfl⟩
    have hlt : A.eval env * B.eval env < 2 ^ 64 :=
      (Nat.mul_lt_mul'' (hA.eval_lt env) (hB.eval_lt env)).trans_eq (Nat.pow_add 2 32 32).symm
    have hdiv : A.eval env * B.eval env / 2 ^ 32 < 2 ^ 32 := by omega
    calc (MulLast.s32x32Last2.calculate A B).eval env
        = slice 32 32 ((extend 32 32 A).eval env * (extend 32 32 B).eval env % 2 ^ 64) :=
          (extract_computes hprod (by decide) (by decide)).eval env
      _ = A.eval env * B.eval env / 2 ^ 32 % 2 ^ 32 := by
        rw [hextA.eval, hextB.eval, Nat.mod_eq_of_lt hlt]
        rfl
      _ = A.eval env * B.eval env / 2 ^ 32 := Nat.mod_eq_of_lt hdiv

theorem documented_iff (events : List MulEvent) (operands : Bvexpr × Bvexpr) (tok : MulLast) :
    Documented events operands tok ↔ progress events = some (tok.prev, operands) := by
  cases tok with
  | s16x16Last => exact (@progress_step _ events .s16x16Step2 operands).symm
  | s32x32Last => exact (@progress_step _ events .s32x32Step4 operands).symm
  | s32x32Last2 =>
    rcases List.eq_nil_or_concat' events with rfl | ⟨before, e, rfl⟩
    · simp [Documented, progress]
    · rw [MulLast.prev, progress_snoc, advance_last]
      simp only [Documented]
      constructor
      · rintro ⟨before', hevents, hstepped⟩
        obtain ⟨rfl, he⟩ := List.append_inj' hevents rfl
        exact ⟨List.singleton_inj.mp he, (@progress_step _ _ .s32x32Step4 operands).mpr hstepped⟩
      · rintro ⟨rfl, h⟩
        exact ⟨before, rfl, (@progress_step _ _ .s32x32Step4 operands).mp h⟩

omit [PastEnd] in
/-- What an instruction with a result yields. -/
theorem AtStage.result {st : Exec} {cur : Option (Stage × Bvexpr × Bvexpr)} (h : AtStage st cur) (f : Fresh)
    (tok : MulLast) :
    (NfpEstimator.calculateMulStepLast f tok st).dst = if cur.any fun c => c.1 = tok.prev then
      tok.calculate (st.reg (f.obj 1) Hreg.mulA.location) (st.reg (f.obj 2) Hreg.mulB.location)
    else .undefined 32 (f.obj 3) := by
  simp only [NfpEstimator.calculateMulStepLast, h.checkLast]
  split_ifs <;> rfl

/-- **A multiplication has a result exactly if the documented steps were executed since the last `start`**, each
with the operands of the step before. The result is the product of the operands of the last of them. -/
theorem multiplication_recognised {st : Exec} (hst : st.DefersHreg) (hstart : AtStage st none) (ss : List Step)
    (f : Fresh) (tok : MulLast) :
    let result := (calculateMulStepLast f tok (st.applyAll ss)).dst
    ((∀ o, result ≠ .undefined 32 o) ↔ ∃ operands, Documented (st.mulEvents ss) operands tok) ∧
      ∀ A B, Documented (st.mulEvents ss) (A, B) tok → Typed 32 A → Typed 32 B →
        ∀ env, result.eval env = tok.product (A.eval env) (B.eval env) := by
  intro result
  have hstage : AtStage (st.applyAll ss) (progress (st.mulEvents ss)) := hstart.applyAll hst ss
  have hresult := hstage.result f tok
  have hdocumented : ∀ operands, Documented (st.mulEvents ss) operands tok →
      result = tok.calculate operands.1 operands.2 := by
    intro operands h
    rw [documented_iff] at h
    rw [h] at hstage hresult
    simpa [result, Exec.reg, hstage.2.1, hstage.2.2] using hresult
  refine ⟨⟨fun h => ?_, fun h o => ?_⟩, fun A B h hA hB env => ?_⟩
  · by_contra hnone
    refine h (f.obj 3) (hresult.trans (if_neg fun hany => hnone ?_))
    rcases hcur : progress (st.mulEvents ss) with _ | ⟨stage, operands⟩
    · rw [hcur] at hany
      cases hany
    · rw [hcur, Option.any_some, decide_eq_true_eq] at hany
      exact ⟨operands, (documented_iff _ _ _).mpr (hcur.trans (by rw [← hany]))⟩
  · obtain ⟨operands, h⟩ := h
    rw [hdocumented operands h]
    exact tok.calculate_ne_undefined _ _ o
  · rw [hdocumented (A, B) h]
    exact tok.calculate_eval hA hB env

/-- A step with the contents of a register of the bank A as the first operand, and 7 as the second. -/
def multiplyStep (number : ℕ) (tok : MulTok) : Step :=
  ⟨.mulStep 0 (.gpr ⟨.A, number⟩) (.constant 7) tok, ⟨0, 0⟩, 0, false, .numbered 0⟩

theorem mulEvents_multiplyStep {st : Exec} {number : ℕ} {tok : MulTok} {e : Bvexpr} (hsat : st.isUnsat = false)
    (he : st.registers (Gpr.location ⟨.A, number⟩) = some e) (ss : List Step) :
    st.mulEvents (multiplyStep number tok :: ss) =
      .step tok (e, constant 32 7) :: (st.apply (multiplyStep number tok)).mulEvents ss := by
  simp [Exec.mulEvents, hsat, multiplyStep, Operation.mulEvent, Src.read, Exec.reg, he]

theorem multiplyStep_keeps {st : Exec} (hsat : st.isUnsat = false) (hst : st.DefersHreg) (number : ℕ) (tok : MulTok)
    (g : Gpr) : (st.apply (multiplyStep number tok)).isUnsat = false ∧
      (st.apply (multiplyStep number tok)).registers g.location = st.registers g.location := by
  have htype : (multiplyStep number tok).n.instr.type ≠ .BRANCH := by
    simp [multiplyStep, Operation.instr, Instr.type]
  exact ⟨apply_isUnsat hsat htype, apply_gpr_of_ne hsat hst htype fun u hu =>
    @hregUpdates_ne_gpr _ (multiplyStep number tok).n (.numbered 0) st g u hu⟩

/-- A state with operands in three registers. -/
def operandState (a b c : Bvexpr) : Exec :=
  initialState 0 1500
    [.reg (Gpr.location ⟨.A, 0⟩) a, .reg (Gpr.location ⟨.A, 1⟩) b, .reg (Gpr.location ⟨.A, 2⟩) c]

/-- The steps of a multiplication of 16 bits, with an operand from another register each. -/
def multiplySteps : List Step := [multiplyStep 0 .start, multiplyStep 1 .s16x16Step1, multiplyStep 2 .s16x16Step2]

omit [PastEnd] in
theorem operandState_spec (a b c : Bvexpr) :
    (operandState a b c).DefersHreg ∧ AtStage (operandState a b c) none ∧
      (operandState a b c).registers (Gpr.location ⟨.A, 0⟩) = some a ∧
      (operandState a b c).registers (Gpr.location ⟨.A, 1⟩) = some b ∧
      (operandState a b c).registers (Gpr.location ⟨.A, 2⟩) = some c := by
  have h01 : Nat.repr 0 ≠ Nat.repr 1 := by decide
  have h02 : Nat.repr 0 ≠ Nat.repr 2 := by decide
  have h12 : Nat.repr 1 ≠ Nat.repr 2 := by decide
  have hstate : (operandState a b c).registers Hreg.mulState.location = none := by
    simp [operandState, initialState, Exec.make, Update.store, Function.update, Hreg.location_ne_gpr]
  refine ⟨initialState_defersHreg _ _ (by simp), fun stage B => by simp [hstate], ?_, ?_, ?_⟩ <;>
    simp [operandState, initialState, Exec.make, Update.store, Function.update, Gpr.location, Bank.name, h01, h02, h12]

theorem mulEvents_multiplySteps (a b c : Bvexpr) :
    (operandState a b c).mulEvents multiplySteps = [.step .start (a, constant 32 7),
      .step .s16x16Step1 (b, constant 32 7), .step .s16x16Step2 (c, constant 32 7)] := by
  obtain ⟨hst, -, ha, hb, hc⟩ := operandState_spec a b c
  have hsat : (operandState a b c).isUnsat = false := rfl
  generalize operandState a b c = st at hst ha hb hc hsat
  have hsat₁ := (multiplyStep_keeps hsat hst 0 .start ⟨.A, 0⟩).1
  have hst₁ := hst.apply (multiplyStep 0 .start)
  rw [multiplySteps, mulEvents_multiplyStep hsat ha,
    mulEvents_multiplyStep hsat₁ ((multiplyStep_keeps hsat hst ..).2.trans hb),
    mulEvents_multiplyStep (multiplyStep_keeps hsat₁ hst₁ 1 .s16x16Step1 ⟨.A, 0⟩).1
      ((multiplyStep_keeps hsat₁ hst₁ ..).2.trans ((multiplyStep_keeps hsat hst ..).2.trans hc))]
  rfl

omit [PastEnd] in
/-- 6 times 7. -/
theorem multiplication_recognised_constants :
    let _ : PastEnd := ⟨fun _ => true⟩
    let six := constant 32 6
    (calculateMulStepLast (.numbered 0) .s16x16Last ((operandState six six six).applyAll multiplySteps)).dst.eval
      (.const 0) = 42 := by
  intro _ six
  obtain ⟨hst, hstage, -⟩ := operandState_spec six six six
  have hdocumented : Documented ((operandState six six six).mulEvents multiplySteps) (six, constant 32 7)
      .s16x16Last := by
    rw [mulEvents_multiplySteps]
    refine ⟨[], [(.start, six, constant 32 7), (.s16x16Step1, six, constant 32 7), (.s16x16Step2, six, constant 32 7)],
      rfl, rfl, ?_, rfl⟩
    simp [SameOperands, six, constant, Bvexpr.equal]
  exact ((multiplication_recognised hst hstage multiplySteps (.numbered 0) .s16x16Last).2 _ _ hdocumented
    (typed_constant _ _) (typed_constant _ _) (.const 0)).trans (by decide)

/-- What is read at an unknown place of an array with some known bytes. -/
def readUnknown (map : StoreMap) : Bvexpr :=
  extend 24 8 (.selection 32 8 (.concreteStoring 32 8 (.bvavariable 32 8 "packet") map) (.bvvariable 32 "offset"))

omit [PastEnd] in
/-- Both later operands are equal to the first one, as far as `operator==` tells, as the map of this is the
shortest. The last one is not equal to the second one, and there is no result. -/
theorem equal_to_start_undefined :
    let _ : PastEnd := ⟨fun _ => true⟩
    let a := readUnknown (.cons 0 (constant 8 1) .nil)
    let b := readUnknown (.cons 0 (constant 8 1) (.cons 1 (constant 8 2) .nil))
    let c := readUnknown (.cons 0 (constant 8 1) (.cons 1 (constant 8 3) .nil))
    let seven := constant 32 7
    let st := operandState a b c
    AtStage st none ∧ a.equal b = true ∧ a.equal c = true ∧ seven.equal seven = true ∧
      st.mulEvents multiplySteps =
        [.step .start (a, seven), .step .s16x16Step1 (b, seven), .step .s16x16Step2 (c, seven)] ∧
      ∃ o, (calculateMulStepLast (.numbered 0) .s16x16Last (st.applyAll multiplySteps)).dst = .undefined 32 o := by
  intro _ a b c seven st
  obtain ⟨hst, hstage, -⟩ := operandState_spec a b c
  have hevents := mulEvents_multiplySteps a b c
  have hab : a.equal b = true := by decide
  have hbc : b.equal c = false := by decide
  have hseven : seven.equal seven = true := by decide
  have hnone : (st.mulEvents multiplySteps).foldl advance none = none := by
    rw [hevents]
    simp [advance, MulTok.prev, hab, hbc, seven, hseven]
  refine ⟨hstage, hab, by decide, hseven, hevents, (Fresh.numbered 0).obj 3, ?_⟩
  rw [(hstage.applyAll hst multiplySteps).result, hnone]
  rfl

end

end NfpEstimator
