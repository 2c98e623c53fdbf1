import NfpEstimator.State.Strategy

/-!
# Incremental solving agrees with solving from scratch

After any calls of `incremental::check_sat`, what is asserted in the solver is what the stack
holds. When the last verdict is taken, the stack is the list that was asked for; or a lower part
of it that is unsatisfiable already; or the list is the lower part of a stack for which the solver
has returned a model. In each case starting from scratch gives the same verdict.

An entry stays on the stack when `operator==` does not tell it from the assumption in its place,
so all of this is about lists on which that operator is sound.
-/

namespace NfpEstimator

/-! ### What is asserted -/

/-- What a call does to what is asserted in the scopes, the innermost first. -/
def Call.assertIn : List (List Assumption) → Call → List (List Assumption)
  | _, .reset => [[]]
  | l, .push => [] :: l
  | l, .pop size => l.drop size
  | sc :: l, .assert a _ | sc :: l, .assertNamed a _ => (a.toAssumption :: sc) :: l
  | l, _ => l

/-- What is asserted in the scopes, after some calls. -/
def assertedIn (calls : List Call) : List (List Assumption) := calls.foldl Call.assertIn [[]]

/-- The conjunction that the solver is asked for. -/
def conjunction (calls : List Call) : List Assumption := (assertedIn calls).flatten

/-- The conjunction of assumptions has a model. -/
def Sat (as : List Assumption) : Prop := ∃ env, Holds env as

/-- The verdict depends on the satisfiability of what is asserted only. -/
def Solver.Decides (solver : Solver) : Prop :=
  ∀ calls, solver.checkSat calls = true ↔ Sat (conjunction calls)

/-- Two assumptions mean the same. -/
def Alike (a b : Assumption) : Prop := ∀ env, a.e.eval env = b.e.eval env

theorem holds_iff_of_alike {as bs : List Assumption} (h : List.Forall₂ Alike as bs) (env : Env) :
    Holds env as ↔ Holds env bs := by
  induction h with
  | nil => exact Iff.rfl
  | cons hab _ ih =>
    unfold Holds at ih ⊢
    simp only [List.forall_mem_cons, hab env, ih]

theorem assertedIn_append (cs cs' : List Call) :
    assertedIn (cs ++ cs') = cs'.foldl Call.assertIn (assertedIn cs) :=
  List.foldl_append

/-- Names are not asserted. -/
theorem foldl_calls (d : Defs) (l : List (List Assumption)) :
    d.calls.foldl Call.assertIn l = l := by
  have hnone : ∀ c ∈ d.calls, ∀ l, Call.assertIn l c = l := by
    intro c hc l
    rcases List.mem_append.mp hc with hc | hc
    · obtain ⟨v, -, rfl⟩ := List.mem_map.mp hc
      cases l <;> rfl
    · obtain ⟨e, -, rfl⟩ := List.mem_map.mp hc
      cases l <;> rfl
  generalize d.calls = cs at hnone
  induction cs with
  | nil => rfl
  | cons c cs ih =>
    rw [List.foldl_cons, hnone c List.mem_cons_self]
    exact ih fun c' hc' => hnone c' (List.mem_cons_of_mem c hc')

namespace Incremental

/-! ### The stack mirrors the solver -/

/-- The assumptions on the stack. -/
def held (s : Incremental) : List Assumption :=
  s.stack.map fun en => en.assumption.toAssumption

/-- What is asserted is what the stack holds. -/
def InStep (s : Incremental) : Prop :=
  assertedIn s.sent = s.held.reverse.map (fun a => [a]) ++ [[]]

/-- A model that is kept is one of all that the stack holds. -/
structure Tracks (s : Incremental) : Prop where
  inStep : s.InStep
  model : s.model.isSome = true → Sat s.held

theorem holds_reverse {as : List Assumption} {env : Env} : Holds env as.reverse ↔ Holds env as := by
  simp only [Holds, List.mem_reverse]

theorem sat_reverse {as : List Assumption} : Sat as.reverse ↔ Sat as :=
  exists_congr fun _ => holds_reverse

variable {s s' : Incremental}

theorem InStep.conjunction_eq (h : s.InStep) : conjunction s.sent = s.held.reverse := by
  rw [conjunction, h, List.flatten_append, ← List.flatMap_def, List.flatMap_singleton']
  simp

theorem InStep.call (h : s.InStep) {c : Call} (hc : ∀ l, Call.assertIn l c = l) :
    (s.call c).InStep := by
  show assertedIn (s.sent ++ [c]) = _
  rw [assertedIn_append, h, List.foldl_cons, List.foldl_nil, hc]
  rfl

theorem InStep.checked (h : s.InStep) : (s.call .checkSat).InStep :=
  h.call fun l => by cases l <;> rfl

theorem InStep.popTo (h : s.InStep) (si : ℕ) : (s.popTo si).InStep := by
  unfold Incremental.popTo
  split
  next hlt =>
    show assertedIn (s.sent ++ [.pop (s.stack.length - si)]) = _
    have hheld : ({ s with stack := s.stack.take si } : Incremental).held = s.held.take si :=
      List.map_take
    have hlen : s.held.length = s.stack.length := List.length_map _
    rw [assertedIn_append, h, List.foldl_cons, List.foldl_nil, Call.assertIn,
      List.drop_append_of_le_length (by simp [hlen]), ← List.map_drop, ← hlen, ← List.reverse_take]
    exact congrArg (fun l => l.reverse.map (fun a => [a]) ++ [[]]) hheld.symm
  · exact h

theorem InStep.push (h : s.InStep) (a : Printed) (d : Defs) : (s.push a d).InStep := by
  have hheld : (s.push a d).held = s.held ++ [a.toAssumption] := by
    simp [held, Incremental.push]
  unfold InStep
  rw [hheld]
  simp only [Incremental.push, List.append_assoc]
  rw [assertedIn_append, h, List.singleton_append, List.foldl_cons, List.foldl_append, foldl_calls]
  simp [Call.assertIn]

theorem held_push (s : Incremental) (a : Printed) (d : Defs) :
    (s.push a d).held = s.held ++ [a.toAssumption] := by
  simp [held, Incremental.push]

theorem held_popTo (s : Incremental) (si : ℕ) : (s.popTo si).held = s.held.take si := by
  rw [held, stack_popTo]
  exact List.map_take

/-! ### The loop -/

variable [PastEnd]

/-- What the loop makes of the stack. -/
def plannedHeld (s : Incremental) (si : ℕ) (as : List Printed) : List Assumption :=
  s.held.take si ++ (planned (s.stack.drop si) as).map Printed.toAssumption

/-- How the loop ends. -/
structure Looped (s : Incremental) (si : ℕ) (as : List Printed) (r : Incremental × ℕ × Bool) :
    Prop where
  inStep : r.1.InStep
  minimize : r.1.minimize = s.minimize
  atEnd : si = s.stack.length → r.2.1 = r.1.stack.length
  through : r.2.2 = true → r.1.held.take r.2.1 = s.plannedHeld si as
  /-- If entries are left, nothing has been sent. -/
  left : r.2.2 = true → r.2.1 ≠ r.1.stack.length → r.1 = s
  stopped : r.2.2 = false → r.1.held <+: s.plannedHeld si as ∧ ¬Sat r.1.held

theorem plannedHeld_of_differs {si : ℕ} {a : Printed}
    (hne : ∀ en, s.stack[si]? = some en → ¬Same a en) (d : Defs) (as : List Printed) :
    s.plannedHeld si (a :: as) = ((s.popTo si).push a d).held ++ as.map Printed.toAssumption := by
  rw [held_push, held_popTo, plannedHeld, planned_of_differs hne]
  simp

/-- Above the stack all of the list is pushed. -/
theorem plannedHeld_atEnd {si : ℕ} (h : si = s.stack.length) (as : List Printed) :
    s.plannedHeld si as = s.held ++ as.map Printed.toAssumption := by
  have hlen : s.held.length = s.stack.length := List.length_map _
  rw [plannedHeld, h, List.drop_length, planned_nil, ← hlen, List.take_length]

/-- **The loop.** -/
theorem InStep.loop {solver : Solver} (hsolver : solver.Decides) (h : s.InStep) (si : ℕ)
    (parent : Defs) (as : List Printed) : Looped s si as (s.loop solver si parent as) := by
  induction as generalizing s si parent with
  | nil =>
    refine ⟨h, rfl, id, fun _ => ?_, fun _ _ => rfl, fun h => by cases h⟩
    have hnil : planned (s.stack.drop si) [] = [] := by
      cases s.stack.drop si <;> rfl
    simp [plannedHeld, hnil, Incremental.loop]
  | cons a as ih =>
    by_cases hsame : ∃ en, s.stack[si]? = some en ∧ Same a en
    · obtain ⟨en, hget, hsame⟩ := hsame
      have hplan : s.plannedHeld si (a :: as) = s.plannedHeld (si + 1) as := by
        simp [plannedHeld, planned_of_same hget hsame, List.take_add_one, held, hget]
      obtain ⟨hin, hmin, -, hthrough, hleft, hstopped⟩ := ih h (si + 1) en.defs
      rw [loop_of_same hget hsame]
      refine ⟨hin, hmin, fun hend => ?_, hplan ▸ hthrough, hleft, hplan ▸ hstopped⟩
      rw [hend, List.getElem?_eq_none le_rfl] at hget
      cases hget
    · have hne : ∀ en, s.stack[si]? = some en → ¬Same a en := fun en hget hs => hsame ⟨en, hget, hs⟩
      have hpush := (h.popTo si).push a ((s.popTo si).scope a parent)
      have hplan := plannedHeld_of_differs hne ((s.popTo si).scope a parent) as
      rw [loop_of_differs hne]
      dsimp only
      generalize hs₁ : (s.popTo si).push a ((s.popTo si).scope a parent) = s₁ at hpush hplan ⊢
      have hlen : (s.popTo si).stack.length + 1 = s₁.stack.length := by
        simp [← hs₁, Incremental.push]
      have hmin₁ : s₁.minimize = s.minimize := by
        rw [← hs₁]
        exact minimize_popTo s si
      split
      next hsat =>
        obtain ⟨hin, hmin, hend, hthrough, -, hstopped⟩ :=
          ih hpush.checked ((s.popTo si).stack.length + 1) ((s.popTo si).scope a parent)
        have hplan' : (s₁.call .checkSat).plannedHeld ((s.popTo si).stack.length + 1) as = _ :=
          (plannedHeld_atEnd hlen as).trans hplan.symm
        rw [hplan'] at hthrough hstopped
        exact ⟨hin, hmin.trans hmin₁, fun _ => hend hlen, hthrough, fun _ hne => absurd (hend hlen) hne, hstopped⟩
      next hunsat =>
        refine ⟨hpush.checked, hmin₁, fun _ => hlen, fun h => (by cases h), fun h => (by cases h),
          fun _ => ?_⟩
        rw [hsolver, hpush.conjunction_eq, sat_reverse] at hunsat
        exact ⟨hplan ▸ List.prefix_append _ _, hunsat⟩

/-! ### A call -/

/-- How a call ends that asks for `as`, where the stack held `old` before. -/
structure Checked (old : List Assumption) (s : Incremental) (as : List Assumption) (r : Result) :
    Prop where
  tracks : s.Tracks
  known : s.held ⊆ old ++ as
  verdict : (r.isSat = true ∧ s.held = as ∧ Sat s.held) ∨
    (r.isSat = true ∧ as <+: s.held ∧ Sat s.held) ∨ (r.isSat = false ∧ s.held <+: as ∧ ¬Sat s.held)

omit [PastEnd] in
/-- **The last verdict is about all that the stack holds.** -/
theorem InStep.verdict {solver : Solver} (hsolver : solver.Decides) (h : s.InStep)
    (old : List Assumption) : Checked old (s.verdict solver).2 s.held (s.verdict solver).1 ∧
      (s.verdict solver).2.minimize = s.minimize := by
  unfold Incremental.verdict
  have hdec := hsolver s.sent
  rw [h.conjunction_eq, sat_reverse] at hdec
  dsimp only
  split
  next hsat =>
    have hmodel : ((s.call .checkSat).call .getModel).InStep :=
      h.checked.call fun l => by cases l <;> rfl
    have hsat := hdec.mp hsat
    exact ⟨⟨⟨hmodel, fun _ => hsat⟩, List.subset_append_right _ _, .inl ⟨rfl, rfl, hsat⟩⟩, rfl⟩
  next hunsat =>
    exact ⟨⟨⟨h.checked, fun h => nomatch h⟩, List.subset_append_right _ _,
      .inr (.inr ⟨rfl, List.prefix_refl _, fun h => hunsat (hdec.mpr h)⟩)⟩, rfl⟩

omit [PastEnd] in
theorem Tracks.start (h : s.Tracks) {q : Option Decl} (hs : s.start q = some s') :
    s'.InStep ∧ s'.minimize = q ∧ (s' = s ∨ s'.stack = []) := by
  unfold Incremental.start at hs
  split at hs
  next heq =>
    obtain rfl := Option.some.inj hs
    exact ⟨h.inStep, heq, .inl rfl⟩
  · obtain ⟨v, rfl, rfl⟩ := Option.map_eq_some_iff.mp hs
    refine ⟨?_, rfl, .inr rfl⟩
    show assertedIn (s.sent ++ [.reset] ++ _ ++ [.minimize v]) = _
    rw [assertedIn_append, assertedIn_append, assertedIn_append, foldl_calls]
    rfl

/-- What is asked for, as far as the stack knows it under the same packet size. -/
def asked (s : Incremental) (q : Query) : List Assumption :=
  (planned (if s.minimize = q.minimize then s.stack else []) q.all).map Printed.toAssumption

theorem plannedHeld_start {q : Query} (hs : s.start q.minimize = some s') :
    s'.plannedHeld 0 q.all = s.asked q := by
  unfold Incremental.start at hs
  unfold plannedHeld asked
  split at hs
  next heq =>
    obtain rfl := Option.some.inj hs
    rw [if_pos heq]
    rfl
  next hne =>
    obtain ⟨v, -, rfl⟩ := Option.map_eq_some_iff.mp hs
    rw [if_neg hne]
    rfl

/-- **A call.** -/
theorem Tracks.checkSat {solver : Solver} (hsolver : solver.Decides) (h : s.Tracks) {q : Query}
    {r : Result} (hs : s.checkSat solver q = some (r, s')) :
    Checked s.held s' (s.asked q) r ∧ s'.minimize = q.minimize := by
  unfold Incremental.checkSat at hs
  obtain ⟨s₁, hs₁, heq⟩ := Option.map_eq_some_iff.mp hs
  obtain ⟨h₁, hmin₁, hor⟩ := h.start hs₁
  have hloop := h₁.loop hsolver 0 s₁.startDefs q.all
  rw [← plannedHeld_start hs₁, ← hmin₁]
  generalize s₁.loop solver 0 s₁.startDefs q.all = x at heq hloop
  obtain ⟨s₂, si, sat⟩ := x
  obtain ⟨hin, hmin, hend, hthrough, hleft, hstopped⟩ := hloop
  dsimp only at heq hin hmin hend hthrough hleft hstopped
  split at heq
  next hsat =>
    subst hsat
    split at heq
    next model hmodel =>
      cases heq
      rw [Option.ite_none_right_eq_some] at hmodel
      obtain ⟨hlt, hmodel⟩ := hmodel
      obtain rfl := hleft rfl hlt.ne
      have hpre := hthrough rfl ▸ List.take_prefix si s'.held
      rcases hor with rfl | hnil
      · have hsat := h.model (Option.isSome_of_eq_some hmodel)
        exact ⟨⟨⟨hin, fun _ => hsat⟩, List.subset_append_left _ _, .inr (.inl ⟨rfl, hpre, hsat⟩)⟩, rfl⟩
      · rw [hnil] at hlt
        exact absurd hlt (Nat.not_lt_zero si)
    next hnone =>
      have hv := (hin.popTo si).verdict hsolver s.held
      rw [heq, held_popTo, hthrough rfl, minimize_popTo, hmin] at hv
      exact hv
  next hunsat =>
    cases heq
    obtain ⟨hpre, hns⟩ := hstopped (by simpa using hunsat)
    have hknown := List.Subset.trans hpre.subset (List.subset_append_right s.held _)
    exact ⟨⟨⟨hin, fun h => nomatch h⟩, hknown, .inr (.inr ⟨rfl, hpre, hns⟩)⟩, hmin⟩

/-! ### Runs -/

/-- The assumptions that the calls ask for. -/
def pool (qs : List Query) : List Assumption := qs.flatMap fun q => q.all.map Printed.toAssumption

/-- `operator==` tells assumptions of different meaning apart. -/
def Sound (as : List Assumption) : Prop :=
  ∀ a ∈ as, ∀ b ∈ as, a.equal b = true → a.e.aligned b.e = true

/-- What the list and the stack have in common means the same. -/
theorem alike_planned {as : List Assumption} (hsound : Sound as) {stack : List Entry}
    (hstack : ∀ en ∈ stack, en.assumption.toAssumption ∈ as) {ps : List Printed}
    (hps : ∀ a ∈ ps, a.toAssumption ∈ as) :
    List.Forall₂ Alike (ps.map Printed.toAssumption) ((planned stack ps).map Printed.toAssumption) := by
  induction stack generalizing ps with
  | nil =>
    rw [planned_nil]
    exact List.forall₂_same.mpr fun a _ env => rfl
  | cons en stack ih =>
    cases ps with
    | nil => exact .nil
    | cons a ps =>
      rw [planned]
      split
      next hsame =>
        refine .cons (fun env => ?_) (ih (fun en' h => hstack en' (List.mem_cons_of_mem en h))
          fun a' h => hps a' (List.mem_cons_of_mem a h))
        have hal := hsound _ (hps a List.mem_cons_self) _ (hstack en List.mem_cons_self) hsame
        exact Lexpr.eval_eq_of_equal env _ _ hal hsame
      · exact List.forall₂_same.mpr fun a _ env => rfl

theorem mem_asked {q : Query} {a : Assumption} (h : a ∈ s.asked q) :
    a ∈ s.held ∨ a ∈ q.all.map Printed.toAssumption := by
  have hplanned : ∀ (stack : List Entry) (ps : List Printed), ∀ p ∈ planned stack ps,
      (∃ en ∈ stack, en.assumption = p) ∨ p ∈ ps := by
    intro stack
    induction stack with
    | nil =>
      intro ps p hp
      exact .inr (planned_nil ps ▸ hp)
    | cons en stack ih =>
      intro ps p hp
      cases ps with
      | nil => cases hp
      | cons b ps =>
        rw [planned] at hp
        split at hp
        · rcases List.mem_cons.mp hp with rfl | hp
          · exact .inl ⟨en, List.mem_cons_self, rfl⟩
          · rcases ih ps p hp with ⟨en', hen', heq⟩ | hp
            · exact .inl ⟨en', List.mem_cons_of_mem en hen', heq⟩
            · exact .inr (List.mem_cons_of_mem b hp)
        · exact .inr hp
  obtain ⟨p, hp, rfl⟩ := List.mem_map.mp h
  rcases hplanned _ _ p hp with ⟨en, hen, rfl⟩ | hp
  · left
    split at hen
    · exact List.mem_map_of_mem hen
    · cases hen
  · exact .inr (List.mem_map_of_mem hp)

/-- The state after some calls about one packet size. -/
structure Reached (m : Option Decl) (qs : List Query) (s : Incremental) : Prop where
  tracks : s.Tracks
  held : s.held ⊆ pool qs
  minimize : s.minimize = none ∨ s.minimize = m

omit [PastEnd] in
theorem reached_initial (m : Option Decl) : Reached m [] initial :=
  ⟨⟨rfl, fun h => nomatch h⟩, List.nil_subset _, .inl rfl⟩

theorem exists_checkSat (solver : Solver) {q : Query} (h : s.minimize = none ∨ s.minimize = q.minimize) :
    ∃ r s', s.checkSat solver q = some (r, s') := by
  have hstart : ∃ s₁, s.start q.minimize = some s₁ := by
    unfold Incremental.start
    by_cases heq : s.minimize = q.minimize
    · exact ⟨s, if_pos heq⟩
    · rw [if_neg heq]
      cases hq : q.minimize with
      | none => exact absurd (h.resolve_right heq |>.trans hq.symm) heq
      | some v => exact ⟨_, rfl⟩
  obtain ⟨s₁, hs₁⟩ := hstart
  unfold Incremental.checkSat
  rw [hs₁]
  exact ⟨_, _, rfl⟩

theorem Reached.checkSat {solver : Solver} (hsolver : solver.Decides) {m : Option Decl}
    {qs : List Query} (h : Reached m qs s) {q : Query} (hq : q.minimize = m) {r : Result}
    (hs : s.checkSat solver q = some (r, s')) : Reached m (qs ++ [q]) s' := by
  obtain ⟨hchecked, hmin⟩ := h.tracks.checkSat hsolver hs
  have hpool : pool (qs ++ [q]) = pool qs ++ q.all.map Printed.toAssumption := by
    simp [pool]
  refine ⟨hchecked.tracks, fun a ha => ?_, .inr (hmin.trans hq)⟩
  rw [hpool, List.mem_append]
  rcases List.mem_append.mp (hchecked.known ha) with ha | ha
  · exact .inl (h.held ha)
  · exact (mem_asked ha).imp_left (fun ha => h.held ha)

/-- **Any calls about one packet size.** -/
theorem Reached.after {solver : Solver} (hsolver : solver.Decides) {m : Option Decl}
    {qs qs' : List Query} (h : Reached m qs s) (hqs : ∀ q ∈ qs', q.minimize = m) :
    ∃ s', s.after solver qs' = some s' ∧ Reached m (qs ++ qs') s' := by
  induction qs' generalizing s qs with
  | nil => exact ⟨s, rfl, (List.append_nil qs).symm ▸ h⟩
  | cons q qs' ih =>
    have hq : q.minimize = m := hqs q List.mem_cons_self
    obtain ⟨r, s₁, hs₁⟩ := exists_checkSat solver (hq ▸ h.minimize)
    obtain ⟨s', hs', h'⟩ := ih (h.checkSat hsolver hq hs₁) fun q' hq' =>
      hqs q' (List.mem_cons_of_mem q hq')
    refine ⟨s', ?_, by simpa using h'⟩
    rw [Incremental.after, List.foldlM_cons, hs₁]
    exact hs'

end Incremental

/-! ### Against solving from scratch -/

/-- What starting from scratch asserts. -/
theorem conjunction_scratch (sent : List Call) (q : Query) (b : Bool) :
    conjunction (sent ++ q.scratch b) =
      ((q.bounds ++ q.assumptions).map Printed.toAssumption).reverse := by
  have hassert : ∀ (l : List Printed) (sc : List Assumption),
      (l.map fun a => Call.assertNamed a q.table).foldl Call.assertIn [sc] =
        [(l.map Printed.toAssumption).reverse ++ sc] := by
    intro l
    induction l with
    | nil => exact fun sc => rfl
    | cons a l ih =>
      intro sc
      rw [List.map_cons, List.foldl_cons, Call.assertIn, ih]
      simp
  have hmin : (q.minimize.map Call.minimize).toList.foldl Call.assertIn [[]] = [[]] := by
    cases q.minimize <;> rfl
  have hstart : ∀ l, (if b then [Call.enableUnsatCores] else []).foldl Call.assertIn
      (Call.assertIn l .reset) = [[]] := by
    intro l
    cases b <;> rfl
  rw [conjunction, Query.scratch]
  simp only [assertedIn_append, List.foldl_append, List.foldl_cons, List.foldl_nil, hstart,
    foldl_calls, hmin, hassert]
  simp

/-- The conjunction of the last verdict of the incremental strategy, `F`, against the one from
scratch, `G`. -/
inductive Agrees (r : Result) (F G : List Assumption) : Prop where
  | equivalent : (∀ env, Holds env F ↔ Holds env G) → Agrees r F G
  /-- A lower part of the list is unsatisfiable already. -/
  | subset : r.isSat = false → ¬Sat F → (∀ a ∈ F, ∃ b ∈ G, Alike a b) → Agrees r F G
  /-- The solver has returned a model of more. -/
  | extension : r.isSat = true → Sat F → (∀ b ∈ G, ∃ a ∈ F, Alike a b) → Agrees r F G

theorem Alike.symm {a b : Assumption} (h : Alike a b) : Alike b a := fun env => (h env).symm

theorem exists_alike {as bs : List Assumption} (h : List.Forall₂ Alike as bs) {a : Assumption}
    (ha : a ∈ as) : ∃ b ∈ bs, Alike a b := by
  induction h with
  | nil => exact nomatch ha
  | cons hab _ ih =>
    rcases List.mem_cons.mp ha with rfl | ha
    · exact ⟨_, List.mem_cons_self, hab⟩
    · obtain ⟨b, hb, h⟩ := ih ha
      exact ⟨b, List.mem_cons_of_mem _ hb, h⟩

theorem isSat_unsatCoreCheckSat {solver : Solver} {q : Query} {sent : List Call} {b : Bool}
    {r : Result} (h : q.unsatCoreCheckSat solver sent b = some r) :
    r.isSat = solver.checkSat (sent ++ q.scratch b) := by
  unfold Query.unsatCoreCheckSat at h
  dsimp only at h
  split at h
  next hsat =>
    cases h
    exact hsat.symm
  next hunsat =>
    rw [Bool.not_eq_true] at hunsat
    rw [hunsat]
    split at h
    · cases h
      rfl
    · obtain ⟨a, -, rfl⟩ := Option.map_eq_some_iff.mp h
      rfl

/-- **Incremental solving agrees with solving from scratch.** After any calls about one packet
size, the next one takes its last verdict on a conjunction that is equivalent to the one from
scratch, or an unsatisfiable part of it, or an extension that the solver has returned a model
of; and both strategies have the same verdict. -/
theorem incremental_agrees [PastEnd] {solver : Solver} (hsolver : solver.Decides)
    {m : Option Decl} {qs : List Query} {q : Query} (hm : ∀ q' ∈ qs ++ [q], q'.minimize = m)
    (hsound : Incremental.Sound (Incremental.pool (qs ++ [q]))) :
    ∃ s r s', Incremental.initial.after solver qs = some s ∧ s.checkSat solver q = some (r, s') ∧
      ∀ (sent : List Call) (b : Bool),
        Agrees r (conjunction s'.sent) (conjunction (sent ++ q.scratch b)) ∧
        ∀ r', q.unsatCoreCheckSat solver sent b = some r' → r'.isSat = r.isSat := by
  have hq : q.minimize = m := hm q (by simp)
  obtain ⟨s, hs, h⟩ := (Incremental.reached_initial m).after hsolver fun q' hq' =>
    hm q' (List.mem_append_left [q] hq')
  obtain ⟨r, s', hs'⟩ := Incremental.exists_checkSat solver (hq ▸ h.minimize)
  refine ⟨s, r, s', hs, hs', fun sent b => ?_⟩
  obtain ⟨hchecked, -⟩ := h.tracks.checkSat hsolver hs'
  have halike : List.Forall₂ Alike (q.all.map Printed.toAssumption) (s.asked q) := by
    refine Incremental.alike_planned hsound (fun en hen => ?_) fun a ha => ?_
    · split at hen
      · have hheld := h.held (List.mem_map_of_mem hen)
        simp only [Incremental.pool, List.flatMap_append, List.mem_append]
        exact .inl hheld
      · exact nomatch hen
    · simp only [Incremental.pool, List.flatMap_append, List.mem_append]
      exact .inr (by simpa using List.mem_map_of_mem (f := Printed.toAssumption) ha)
  have hmem : ∀ a, a ∈ conjunction (sent ++ q.scratch b) ↔ a ∈ q.all.map Printed.toAssumption := by
    intro a
    rw [conjunction_scratch, List.mem_reverse, Query.all, List.map_append, List.map_append,
      List.mem_append, List.mem_append]
    exact or_comm
  have hG : ∀ env, Holds env (conjunction (sent ++ q.scratch b)) ↔ Holds env (s.asked q) := by
    intro env
    rw [← holds_iff_of_alike halike env]
    exact forall_congr' fun a => imp_congr_left (hmem a)
  rw [hchecked.tracks.inStep.conjunction_eq]
  have hverdict : ∀ r', q.unsatCoreCheckSat solver sent b = some r' →
      (r'.isSat = true ↔ Sat (s.asked q)) := by
    intro r' hr'
    rw [isSat_unsatCoreCheckSat hr', hsolver]
    exact exists_congr hG
  rcases hchecked.verdict with ⟨hr, heq, hsat⟩ | ⟨hr, hpre, hsat⟩ | ⟨hr, hpre, hunsat⟩
  · refine ⟨.equivalent fun env => ?_, fun r' hr' => ?_⟩
    · rw [Incremental.holds_reverse, hG, heq]
    · rw [hr, hverdict r' hr', ← heq]
      exact hsat
  · refine ⟨.extension hr (Incremental.sat_reverse.mpr hsat) fun a ha => ?_, fun r' hr' => ?_⟩
    · obtain ⟨a', ha', hal⟩ := exists_alike halike ((hmem a).mp ha)
      exact ⟨a', List.mem_reverse.mpr (hpre.subset ha'), hal.symm⟩
    · obtain ⟨env, henv⟩ := hsat
      rw [hr, hverdict r' hr']
      exact ⟨env, fun a ha => henv a (hpre.subset ha)⟩
  · refine ⟨.subset hr (fun h => hunsat (Incremental.sat_reverse.mp h)) fun a ha => ?_,
      fun r' hr' => ?_⟩
    · have hflip : List.Forall₂ Alike (s.asked q) (q.all.map Printed.toAssumption) :=
        halike.flip.imp fun _ _ h env => (h env).symm
      obtain ⟨a', ha', hal⟩ := exists_alike hflip (hpre.subset (List.mem_reverse.mp ha))
      exact ⟨a', (hmem a').mpr ha', hal⟩
    · rw [hr, Bool.eq_false_iff, Ne, hverdict r' hr']
      rintro ⟨env, henv⟩
      exact hunsat ⟨env, fun a ha => henv a (hpre.subset ha)⟩

/-! ### The kept model -/

namespace Incremental

variable [PastEnd] {solver : Solver} {s : Incremental} {q : Query}

/-- A list that the stack starts with is passed. -/
theorem loop_of_all_same {si : ℕ} {parent : Defs} {as : List Printed}
    (h : List.Forall₂ Same as ((s.stack.drop si).take as.length)) :
    s.loop solver si parent as = (s, si + as.length, true) := by
  induction as generalizing si parent with
  | nil => rfl
  | cons a as ih =>
    cases hdrop : s.stack.drop si with
    | nil =>
      rw [hdrop] at h
      exact nomatch h
    | cons en rest =>
      rw [hdrop, List.length_cons, List.take_succ_cons] at h
      obtain ⟨hsame, hrest⟩ := List.forall₂_cons.mp h
      have hget : s.stack[si]? = some en := by
        rw [← List.head?_drop, hdrop]
        rfl
      have hdrop' : s.stack.drop (si + 1) = rest := by
        rw [← List.tail_drop, hdrop]
        rfl
      rw [loop_of_same hget hsame, ih (hdrop'.symm ▸ hrest), List.length_cons]
      congr 2
      omega

/-- **The lower part of the stack is answered with the model that is kept.** -/
theorem checkSat_of_all_same (hmin : s.minimize = q.minimize) {model : Model}
    (hmodel : s.model = some model) (hlen : q.all.length < s.stack.length)
    (h : List.Forall₂ Same q.all (s.stack.take q.all.length)) :
    s.checkSat solver q = some (.inl model, s) := by
  unfold Incremental.checkSat Incremental.start
  rw [if_pos hmin, Option.map_some, loop_of_all_same h]
  simp [hlen, hmodel]

/-- **A satisfiable list is pushed after a reset.** -/
theorem exists_checkSat_of_sat (hsolver : solver.Decides) (h : s.Tracks) {v : Decl}
    (hq : q.minimize = some v) (hmin : s.minimize ≠ q.minimize)
    (hsat : Sat (q.all.map Printed.toAssumption)) :
    ∃ r s', s.checkSat solver q = some (r, s') ∧ s'.minimize = some v ∧
      s'.held = q.all.map Printed.toAssumption ∧ s'.InStep ∧ ∃ model, s'.model = some model := by
  have hstart : ∃ s₁, s.start q.minimize = some s₁ := by
    unfold Incremental.start
    rw [if_neg hmin, hq]
    exact ⟨_, rfl⟩
  obtain ⟨s₁, hs₁⟩ := hstart
  obtain ⟨h₁, hmin₁, hor⟩ := h.start hs₁
  have hnil : s₁.stack = [] := by
    rcases hor with rfl | hnil
    · exact absurd hmin₁ hmin
    · exact hnil
  have hplan : s₁.plannedHeld 0 q.all = q.all.map Printed.toAssumption := by
    rw [plannedHeld_atEnd (by rw [hnil]; rfl), held, hnil]
    rfl
  unfold Incremental.checkSat
  rw [hs₁, Option.map_some]
  have hloop := h₁.loop hsolver 0 s₁.startDefs q.all
  generalize s₁.loop solver 0 s₁.startDefs q.all = x at hloop ⊢
  obtain ⟨s₂, si, sat⟩ := x
  obtain ⟨hin, hmin₂, hend, hthrough, -, hstopped⟩ := hloop
  dsimp only at hin hmin₂ hend hthrough hstopped ⊢
  rw [hplan] at hthrough hstopped
  obtain rfl : si = s₂.stack.length := hend (by rw [hnil]; rfl)
  have hall : sat = true := by
    by_contra hne
    obtain ⟨hpre, hns⟩ := hstopped (Bool.eq_false_iff.mpr hne)
    obtain ⟨env, henv⟩ := hsat
    exact hns ⟨env, fun a ha => henv a (hpre.subset ha)⟩
  subst hall
  have hheld : s₂.held = q.all.map Printed.toAssumption := by
    have hlen : s₂.held.length = s₂.stack.length := List.length_map _
    rw [← hthrough rfl, ← hlen, List.take_length]
  have hyes : solver.checkSat s₂.sent = true := by
    rw [hsolver, hin.conjunction_eq, sat_reverse, hheld]
    exact hsat
  have hpop : s₂.popTo s₂.stack.length = s₂ := if_neg (lt_irrefl _)
  have hmodel : ((s₂.call .checkSat).call .getModel).InStep :=
    hin.checked.call fun l => by cases l <;> rfl
  rw [if_pos rfl, if_neg (lt_irrefl _), hpop, Incremental.verdict, if_pos hyes]
  exact ⟨_, _, rfl, hmin₂.trans (hmin₁.trans hq), hheld, hmodel, _, rfl⟩

end Incremental

section

/-- A solver that is always right. -/
noncomputable def Solver.ideal : Solver :=
  open Classical in
  ⟨fun calls => decide (Sat (conjunction calls)), fun _ _ => none, fun _ => []⟩

theorem Solver.ideal_decides : Solver.ideal.Decides := by
  intro calls
  simp [Solver.ideal]

/-- Sizes of 60 to 100 bytes, nothing else. -/
def upTo100 : Query := ⟨some packetsize, 60, 100, 10, 11, []⟩

/-- The size is 80. -/
def is80 : Printed where
  e := .comparison .equality 14 (.bvvariable 14 "packetsize") (constant 14 80)
  id := "is80"
  term := .binary 22 "Bool" "=" (.variable packetsize) (Query.constantTerm 80)

/-- The bounds of `upTo100` as assumptions, and one more. -/
def boundsAnd80 : Query :=
  ⟨some packetsize, 60, 1500, 12, 13,
    [Query.bound bvuge "bvuge" "atLeast60" 20 60 packetsize,
      Query.bound bvule "bvule" "atMost100" 21 100 packetsize, is80]⟩

/-- Both calls share the packet size, and the verdicts are those of an ideal solver. -/
theorem incremental_agrees_upTo100 :
    letI : PastEnd := ⟨fun _ => false⟩
    ∃ s r s', Incremental.initial.after Solver.ideal [boundsAnd80] = some s ∧
      s.checkSat Solver.ideal upTo100 = some (r, s') ∧
      Agrees r (conjunction s'.sent) (conjunction ([] ++ upTo100.scratch true)) := by
  let _ : PastEnd := ⟨fun _ => false⟩
  have hm : ∀ q ∈ [boundsAnd80] ++ [upTo100], q.minimize = some packetsize := by
    intro q hq
    rcases List.mem_pair.mp hq with rfl | rfl <;> rfl
  have hsound : Incremental.Sound (Incremental.pool ([boundsAnd80] ++ [upTo100])) := by
    unfold Incremental.Sound
    decide
  obtain ⟨s, r, s', hs, hs', h⟩ := incremental_agrees Solver.ideal_decides hm hsound
  exact ⟨s, r, s', hs, hs', (h [] true).1⟩

/-- **The kept model is one of more than was asked for.** When the second list is the lower part
of the stack, the verdict stands for a conjunction that is satisfiable and not equivalent to the
one from scratch. -/
theorem keptModel_not_equivalent :
    ∃ solver : Solver, solver.Decides ∧ ∀ [PastEnd], ∃ s r s',
      Incremental.initial.after solver [boundsAnd80] = some s ∧
      s.checkSat solver upTo100 = some (r, s') ∧ Sat (conjunction s'.sent) ∧
      ∃ env, Holds env (conjunction (upTo100.scratch true)) ∧ ¬Holds env (conjunction s'.sent) := by
  refine ⟨Solver.ideal, Solver.ideal_decides, ?_⟩
  intro _
  have hsat : Sat (boundsAnd80.all.map Printed.toAssumption) :=
    ⟨Env.const 80, by unfold Holds; decide⟩
  obtain ⟨r, s, hs, hmin, hheld, hin, model, hmodel⟩ :=
    Incremental.exists_checkSat_of_sat Solver.ideal_decides
      (Incremental.reached_initial (some packetsize)).tracks (q := boundsAnd80) rfl
      (by simp [Incremental.initial, boundsAnd80]) hsat
  have hlen : s.stack.length = 5 := by
    rw [← List.length_map fun en : Incremental.Entry => en.assumption.toAssumption]
    exact congrArg List.length hheld
  have hsame : List.Forall₂ Incremental.Same upTo100.all (s.stack.take upTo100.all.length) := by
    obtain ⟨en, l, hl, hen, hrest⟩ := List.map_eq_cons_iff.mp hheld
    obtain ⟨en', l', rfl, hen', -⟩ := List.map_eq_cons_iff.mp hrest
    rw [hl]
    refine .cons ?_ (.cons ?_ .nil)
    · unfold Incremental.Same
      rw [hen]
      rfl
    · unfold Incremental.Same
      rw [hen']
      rfl
  have hsecond : s.checkSat Solver.ideal upTo100 = some (.inl model, s) :=
    Incremental.checkSat_of_all_same hmin hmodel (by rw [hlen]; decide) hsame
  refine ⟨s, _, s, ?_, hsecond, ?_, Env.const 70, ?_, ?_⟩
  · rw [Incremental.after, List.foldlM_cons, hs]
    rfl
  · rw [hin.conjunction_eq, Incremental.sat_reverse, hheld]
    exact hsat
  · rw [← List.nil_append (upTo100.scratch true), conjunction_scratch]
    unfold Holds
    decide
  · rw [hin.conjunction_eq, Incremental.holds_reverse, hheld]
    unfold Holds
    decide

end

end NfpEstimator
