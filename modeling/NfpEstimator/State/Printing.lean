import NfpEstimator.State.Strategy

/-!
# The input of the solver is well formed

Every script that a strategy sends can be read: names are declared and defined before they are
used, and none is introduced twice while it is alive. What is asserted, with the bodies in place
of the names, is what the assumptions are.

Three things must hold of the assumptions. No pointer hangs on them: `expr::pointer` is written
with the names of a table that it is not counted in. Variables of one name are one object, as a
table compares objects. No variable has a name of the form that the tables give.
-/

namespace NfpEstimator

open Smt

/-! ### The names of the scopes -/

/-- The name that the table of a scope gives. -/
def scopeName (k n : ℕ) : String := (Defs.empty s!"s{k}").nameOf n

theorem toList_scopeName (k n : ℕ) :
    (scopeName k n).toList = 's' :: Nat.toDigits 10 k ++ 'f' :: Nat.toDigits 10 n := by
  simp [scopeName, Defs.nameOf, Defs.empty, toString, Nat.toList_repr]

theorem notMem_toDigits (n : ℕ) : 'f' ∉ Nat.toDigits 10 n := by
  intro h
  have hdigit := Nat.isDigit_of_mem_toDigits (by decide) (by decide) h
  exact absurd hdigit (by decide)

/-- The scopes do not share names. -/
theorem scopeName_inj {k n k' n' : ℕ} (h : scopeName k n = scopeName k' n') : k = k' ∧ n = n' := by
  have hlist := congrArg String.toList h
  rw [toList_scopeName, toList_scopeName, List.append_cons_inj_of_notMem
    (by simp [notMem_toDigits]) (by simp [notMem_toDigits]), List.cons.injEq] at hlist
  obtain ⟨⟨-, hk⟩, -, hn⟩ := hlist
  exact ⟨Defs.toDigits_injective hk, Defs.toDigits_injective hn⟩

/-! ### What is needed of the assumptions -/

/-- The variables of the packet size and of what is asserted. -/
def varsOf (m : Option Decl) (ts : List Term) : List Decl := m.toList ++ ts.flatMap Term.vars

/-- The expressions can be written with tables whose names start as `befores`. -/
structure Printable (befores : List String) (m : Option Decl) (ts : List Term) : Prop where
  pointerFree : ∀ t ∈ ts, t.pointerFree = true
  oneObject : ∀ v ∈ varsOf m ts, ∀ w ∈ varsOf m ts, v.declname = w.declname → v = w
  notGenerated : ∀ v ∈ varsOf m ts, ∀ b ∈ befores, ∀ n, v.declname ≠ (Defs.empty b).nameOf n

/-- The tables of the first `k` scopes. -/
def scopePrefixes (k : ℕ) : List String := (List.range k).map fun j => s!"s{j}"

theorem scopePrefixes_subset {j k : ℕ} (h : j ≤ k) : scopePrefixes j ⊆ scopePrefixes k :=
  List.map_subset _ (List.range_subset.mpr h)

theorem Printable.mono {bs bs' : List String} {m : Option Decl} {ts ts' : List Term}
    (h : Printable bs m ts) (hbs : bs' ⊆ bs) (hts : ts' ⊆ ts) : Printable bs' m ts' := by
  have hvars : ∀ v ∈ varsOf m ts', v ∈ varsOf m ts := by
    intro v hv
    simp only [varsOf, List.mem_append, List.mem_flatMap] at hv ⊢
    exact hv.imp_right fun ⟨t, ht, hv⟩ => ⟨t, hts ht, hv⟩
  exact ⟨fun t ht => h.pointerFree t (hts ht),
    fun v hv w hw => h.oneObject v (hvars v hv) w (hvars w hw),
    fun v hv b hb => h.notGenerated v (hvars v hv) b (hbs hb)⟩

/-- A term is inserted. -/
theorem mem_varsOf_cons {m : Option Decl} {t : Term} {ts : List Term} {v : Decl} :
    v ∈ varsOf m (t :: ts) ↔ v ∈ t.vars ∨ v ∈ varsOf m ts := by
  simp only [varsOf, List.flatMap_cons, List.mem_append]
  exact or_left_comm

/-! ### One scope on top of others -/

/-- What is alive after the texts of `ts`, of which the last got the table `d`. -/
structure Live (m : Option Decl) (d : Defs) (ts : List Term) (st : Scopes) : Prop where
  declared : ∀ v, d.hasDecl v → (env st).lookup v.declname = some none
  names : ∀ name ∈ (env st).map Prod.fst,
    (∃ v, d.hasDecl v ∧ name = v.declname) ∨ ∃ k < ts.length, ∃ n, name = scopeName k n
  vars : ∀ v, d.hasDecl v → v ∈ varsOf m ts
  asserted : asserted st = ts.map Term.str

/-- The table of an assumption that gets a scope of its own. -/
structure Scoped (k : ℕ) (parent : Defs) (t : Term) (d : Defs) : Prop where
  visits : Defs.Visits t.counted t.vars (Defs.scopedDefs s!"s{k}" parent) d
  hasDecl_iff : ∀ v, d.hasDecl v ↔ v ∈ d.declarations ∨ parent.hasDecl v
  vars : ∀ v ∈ d.declarations, v ∈ t.vars
  nameOf : d.nameOf = scopeName k

theorem scoped_defs (k : ℕ) (parent : Defs) {t : Term} (h : t.pointerFree = true) :
    Scoped k parent t (t.defs (Defs.scopedDefs s!"s{k}" parent)) := by
  have hv := t.visits_defs (Defs.valid_scopedDefs s!"s{k}" parent) h
  refine ⟨hv, fun v => ?_, fun v hd => ?_, funext fun n => ?_⟩
  · rw [Defs.hasDecl, hv.more.inherited]
    exact or_congr_right List.mem_append
  · simpa [Defs.scopedDefs, Defs.empty] using hv.declarations v hd
  · rw [Defs.nameOf, hv.more.before]
    rfl

variable {m : Option Decl} {d : Defs} {ts : List Term} {st : Scopes}

/-- **An assumption can be asserted in a scope of its own.** -/
theorem Live.push (h : Live m d ts st) {t : Term}
    (hp : Printable (scopePrefixes (ts.length + 1)) m (t :: ts)) {d' : Defs}
    (hd : Scoped ts.length d t d') :
    ∃ sc, run (.push :: (d'.declareCommands ++ d'.defineCommands ++
        [.assert (t.write d' true) none])) st = some (sc :: st) ∧
      Live m d' (t :: ts) (sc :: st) := by
  have hvars : ∀ v, d'.hasDecl v → v ∈ varsOf m (t :: ts) := by
    intro v hv
    rw [mem_varsOf_cons]
    exact ((hd.hasDecl_iff v).mp hv).imp (hd.vars v) (h.vars v)
  have hscope : ∀ v, d'.hasDecl v → ∀ k < ts.length + 1, ∀ n, v.declname ≠ scopeName k n :=
    fun v hv k hk n => hp.notGenerated v (hvars v hv) s!"s{k}"
      (List.mem_map_of_mem (List.mem_range.mpr hk)) n
  have hown : ∀ v ∈ d'.declarations, d'.hasDecl v := fun v hv => .inl hv
  have hparent : ∀ v, d.hasDecl v → d'.hasDecl v := fun v hv => (hd.hasDecl_iff v).mpr (.inr hv)
  have hinherited : ∀ v, v ∈ d'.inherited ↔ d.hasDecl v := by
    intro v
    rw [hd.visits.more.inherited]
    exact List.mem_append
  have hknown : ∀ v ∈ d'.inherited, (env (emptyScope :: st)).lookup v.declname = some none := by
    intro v hv
    exact h.declared v ((hinherited v).mp hv)
  have hnodup : (d'.declarations.map Decl.declname).Nodup := by
    refine (List.nodup_map_iff_inj_on hd.visits.valid.declarations_nodup).mpr ?_
    intro v hv w hw heq
    exact hp.oneObject v (hvars v (hown v hv)) w (hvars w (hown w hw)) heq
  have hnew : ∀ v ∈ d'.declarations, v.declname ∉ (env (emptyScope :: st)).map Prod.fst := by
    intro v hv hmem
    rcases h.names _ hmem with ⟨w, hw, heq⟩ | ⟨k, hk, n, heq⟩
    · have hvw := hp.oneObject v (hvars v (hown v hv)) w (hvars w (hparent w hw)) heq
      exact hd.visits.valid.new v hv ((hinherited v).mpr (hvw ▸ hw))
    · exact hscope v (hown v hv) k (by omega) n heq
  have hname : ∀ n, d'.nameOf n ∉ (env (emptyScope :: st)).map Prod.fst ∧
      ∀ v ∈ d'.declarations, v.declname ≠ d'.nameOf n := by
    intro n
    rw [hd.nameOf]
    refine ⟨fun hmem => ?_, fun v hv => hscope v (hown v hv) _ (by omega) n⟩
    rcases h.names _ hmem with ⟨w, hw, heq⟩ | ⟨k, hk, n', heq⟩
    · exact hscope w (hparent w hw) _ (by omega) n heq.symm
    · obtain ⟨rfl, -⟩ := scopeName_inj heq
      exact lt_irrefl _ hk
  obtain ⟨sc, hrun, hass, hread, hnames⟩ :=
    Defs.run_table hd.visits.valid emptyScope st hknown hnodup hnew hname
  obtain ⟨hclosed, hexpand⟩ := hread.stands (hp.pointerFree t List.mem_cons_self) hd.visits.vars
  refine ⟨{ sc with asserted := t.str :: sc.asserted }, ?_, ?_, ?_, hvars, ?_⟩
  · rw [run_cons, step, Option.bind_some, run_append, hrun, Option.bind_some, run_cons,
      step_assert hclosed, hexpand]
    rfl
  · intro v hv
    have hm := hread.means [v] (by simpa using hv)
    exact hm.declared v List.mem_cons_self
  · intro name hname
    rcases hnames name hname with hname | ⟨v, hv, rfl⟩ | ⟨n, rfl⟩
    · rcases h.names name hname with ⟨v, hv, rfl⟩ | ⟨k, hk, n, rfl⟩
      · exact .inl ⟨v, hparent v hv, rfl⟩
      · exact .inr ⟨k, hk.trans (Nat.lt_succ_self _), n, rfl⟩
    · exact .inl ⟨v, hown v hv, rfl⟩
    · exact .inr ⟨ts.length, Nat.lt_succ_self _, n, congrFun hd.nameOf n⟩
  · simp [hass, emptyScope, h.asserted]

/-! ### The scopes mirror the stack -/

/-- The text of an entry. -/
def Incremental.Entry.term (en : Incremental.Entry) : Term := en.assumption.term

/-- The table under the next scope. -/
def topDefs (start : Defs) : List Incremental.Entry → Defs
  | [] => start
  | en :: _ => en.defs

/-- One scope for each entry of the stack, the innermost first, and one at the bottom. -/
inductive Levels (m : Option Decl) (start : Defs) : List Incremental.Entry → Scopes → Prop where
  | base {sc : Scope} : Live m start [] [sc] → Levels m start [] [sc]
  | push {en : Incremental.Entry} {l : List Incremental.Entry} {st : Scopes} {sc : Scope} :
      Levels m start l st →
      Live m en.defs ((en :: l).map Incremental.Entry.term) (sc :: st) →
      Levels m start (en :: l) (sc :: st)

section

variable {start : Defs} {l : List Incremental.Entry}

theorem Levels.live (h : Levels m start l st) :
    Live m (topDefs start l) (l.map Incremental.Entry.term) st := by
  cases h with
  | base h => exact h
  | push _ h => exact h

theorem Levels.length (h : Levels m start l st) : st.length = l.length + 1 := by
  induction h with
  | base _ => rfl
  | push _ _ ih => simp [ih]

theorem Levels.drop (h : Levels m start l st) {n : ℕ} (hn : n ≤ l.length) :
    Levels m start (l.drop n) (st.drop n) := by
  induction h generalizing n with
  | base h =>
    obtain rfl : n = 0 := Nat.le_zero.mp hn
    exact .base h
  | push hl h ih =>
    cases n with
    | zero => exact .push hl h
    | succ n => exact ih (Nat.le_of_succ_le_succ hn)

end

/-- The packet size is declared, and nothing else. -/
theorem live_start (v : Decl) (before : String) :
    Live (some v) { Defs.empty before with declarations := [v] } [] [⟨[(v.declname, none)], []⟩] := by
  refine ⟨fun w hw => ?_, fun name hname => ?_, fun w hw => ?_, rfl⟩
  · obtain rfl : w = v := by simpa [Defs.hasDecl, Defs.empty] using hw
    exact List.lookup_cons_self
  · refine .inl ⟨v, .inl List.mem_cons_self, ?_⟩
    simpa [env] using hname
  · simpa [Defs.hasDecl, Defs.empty, varsOf] using hw

namespace Incremental

/-- Everything that has been sent can be read, and the scopes are those of the stack. -/
structure Mirrors (s : Incremental) (st : Scopes) : Prop where
  sent : run (script s.sent) [emptyScope] = some st
  levels : Levels s.minimize s.startDefs s.stack.reverse st

theorem script_append (cs cs' : List Call) : script (cs ++ cs') = script cs ++ script cs' :=
  List.flatMap_append

theorem script_calls (d : Defs) : script d.calls = d.declareCommands ++ d.defineCommands := by
  rw [script, Defs.calls, List.flatMap_append, List.flatMap_map, List.flatMap_map,
    Defs.declareCommands, Defs.defineCommands, List.map_eq_flatMap, List.map_eq_flatMap]
  rfl

variable {s s' : Incremental}

/-- More is sent. -/
theorem Mirrors.append (h : s.Mirrors st) {cs : List Call} {st' : Scopes}
    (hrun : run (script cs) st = some st') : run (script (s.sent ++ cs)) [emptyScope] = some st' := by
  rw [script_append, run_append, h.sent, Option.bind_some, hrun]

theorem Mirrors.call (h : s.Mirrors st) {c : Call} (hc : run c.commands st = some st) :
    (s.call c).Mirrors st :=
  ⟨h.append (by simpa [script] using hc), h.levels⟩

theorem Mirrors.checked (h : s.Mirrors st) : (s.call .checkSat).Mirrors st := h.call rfl

theorem Mirrors.popTo (h : s.Mirrors st) (si : ℕ) : ∃ st', (s.popTo si).Mirrors st' := by
  unfold Incremental.popTo
  split
  next hlt =>
    have hlen := h.levels.length
    rw [List.length_reverse] at hlen
    refine ⟨st.drop (s.stack.length - si), h.append ?_, ?_⟩
    · show run [.pop _] st = _
      rw [run_cons, step, if_pos (by omega)]
      rfl
    · show Levels _ _ (s.stack.take si).reverse _
      rw [List.reverse_take]
      exact h.levels.drop (by simp)
  · exact ⟨st, h⟩

/-- **A step of the loop that pushes.** -/
theorem Mirrors.push (h : s.Mirrors st) {a : Printed}
    (hp : Printable (scopePrefixes (s.stack.length + 1)) s.minimize
      (a.term :: (s.stack.map Entry.term).reverse)) :
    ∃ st', (s.push a (s.scope a (topDefs s.startDefs s.stack.reverse))).Mirrors st' := by
  have hlen : (s.stack.reverse.map Entry.term).length = s.stack.length := by simp
  rw [← List.map_reverse] at hp
  have hd : Scoped (s.stack.reverse.map Entry.term).length (topDefs s.startDefs s.stack.reverse)
      a.term (s.scope a (topDefs s.startDefs s.stack.reverse)) := by
    rw [hlen]
    exact scoped_defs _ _ (hp.pointerFree _ List.mem_cons_self)
  obtain ⟨sc, hrun, hlive⟩ := h.levels.live.push (hlen.symm ▸ hp) hd
  refine ⟨sc :: st, ?_, ?_⟩
  · simp only [Incremental.push, List.append_assoc]
    refine h.append ?_
    rw [script_append, script_append, script_calls]
    exact hrun
  · show Levels _ _ (s.stack ++ [_]).reverse _
    rw [List.reverse_append, List.reverse_singleton, List.singleton_append]
    exact .push h.levels hlive

/-- The table under the scope after the one that was pushed. -/
theorem topDefs_push (s : Incremental) (a : Printed) (d start : Defs) (c : Call) :
    topDefs start ((((s.push a d).call c).stack.take (s.stack.length + 1)).reverse) = d := by
  have hstack : ((s.push a d).call c).stack = s.stack ++ [Entry.mk a d] := rfl
  rw [hstack, List.take_of_length_le (by simp), List.reverse_append]
  rfl

variable [PastEnd]

/-- What the loop makes of the stack can be printed. -/
def LoopPrintable (s : Incremental) (si : ℕ) (as : List Printed) : Prop :=
  let ts := (s.stack.take si).map Entry.term ++ (planned (s.stack.drop si) as).map Printed.term
  Printable (scopePrefixes ts.length) s.minimize ts

/-- An entry that stays is followed by what is planned above it. -/
theorem LoopPrintable.keep {si : ℕ} {a : Printed} {as : List Printed} {en : Entry}
    (h : s.LoopPrintable si (a :: as)) (hget : s.stack[si]? = some en) (hsame : Same a en) :
    s.LoopPrintable (si + 1) as := by
  unfold LoopPrintable at h ⊢
  rw [planned_of_same hget hsame] at h
  simpa [List.take_add_one, hget, Entry.term] using h

/-- An assumption can be pushed, and those after it. -/
theorem LoopPrintable.push {si : ℕ} {a : Printed} {as : List Printed} {d : Defs}
    (h : s.LoopPrintable si (a :: as)) (hne : ∀ en, s.stack[si]? = some en → ¬Same a en) :
    Printable (scopePrefixes ((s.popTo si).stack.length + 1)) (s.popTo si).minimize
        (a.term :: ((s.popTo si).stack.map Entry.term).reverse) ∧
      (((s.popTo si).push a d).call .checkSat).LoopPrintable ((s.popTo si).stack.length + 1) as := by
  unfold LoopPrintable at h ⊢
  rw [planned_of_differs hne] at h
  have hstack : (((s.popTo si).push a d).call .checkSat).stack = s.stack.take si ++ [⟨a, d⟩] := by
    rw [← stack_popTo]
    rfl
  have hmin : (((s.popTo si).push a d).call .checkSat).minimize = s.minimize :=
    minimize_popTo s si
  have hlen : (s.popTo si).stack.length + 1 = (s.stack.take si ++ [Entry.mk a d]).length := by
    rw [stack_popTo, List.length_append, List.length_singleton]
  rw [hstack, hmin, minimize_popTo, hlen, List.take_length, List.drop_length, planned_nil,
    stack_popTo]
  constructor
  · refine h.mono (scopePrefixes_subset (by simp)) fun t ht => ?_
    simp only [List.mem_cons, List.mem_reverse, List.map_cons, List.mem_append] at ht ⊢
    exact ht.elim (fun h => .inr (.inl h)) .inl
  · simpa [Entry.term] using h

/-- **The loop keeps the scopes and the stack together.** -/
theorem Mirrors.loop (h : s.Mirrors st) (solver : Solver) {as : List Printed} {si : ℕ}
    (hp : s.LoopPrintable si as) :
    ∃ st', (s.loop solver si (topDefs s.startDefs (s.stack.take si).reverse) as).1.Mirrors st' := by
  induction as generalizing s st si with
  | nil => exact ⟨st, h⟩
  | cons a as ih =>
    by_cases hsame : ∃ en, s.stack[si]? = some en ∧ Same a en
    · obtain ⟨en, hget, hsame⟩ := hsame
      rw [loop_of_same hget hsame]
      have htop : topDefs s.startDefs (s.stack.take (si + 1)).reverse = en.defs := by
        simp [List.take_add_one, hget, topDefs]
      rw [← htop]
      exact ih h (hp.keep hget hsame)
    · have hne : ∀ en, s.stack[si]? = some en → ¬Same a en := fun en hget hs => hsame ⟨en, hget, hs⟩
      rw [loop_of_differs hne]
      obtain ⟨st₁, h₁⟩ := h.popTo si
      have hparent : topDefs s.startDefs (s.stack.take si).reverse =
          topDefs (s.popTo si).startDefs (s.popTo si).stack.reverse := by
        rw [startDefs_popTo, stack_popTo]
      rw [hparent]
      obtain ⟨hpush, hrest⟩ := hp.push hne
        (d := (s.popTo si).scope a (topDefs (s.popTo si).startDefs (s.popTo si).stack.reverse))
      obtain ⟨st₂, h₂⟩ := h₁.push hpush
      dsimp only
      split
      · have hloop := ih h₂.checked hrest
        rwa [topDefs_push] at hloop
      · exact ⟨st₂, h₂.checked⟩

omit [PastEnd] in
/-- **A reset leaves the packet size declared.** -/
theorem Mirrors.start (h : s.Mirrors st) {q : Option Decl} (hs : s.start q = some s') :
    ∃ st', s'.Mirrors st' := by
  unfold Incremental.start at hs
  split at hs
  · obtain rfl := Option.some.inj hs
    exact ⟨st, h⟩
  · obtain ⟨v, rfl, rfl⟩ := Option.map_eq_some_iff.mp hs
    have hdefs := Defs.variable_defs v "min"
    refine ⟨[⟨[(v.declname, none)], []⟩], ?_, .base ?_⟩
    · simp only [List.append_assoc]
      refine h.append ?_
      rw [script_append, script_append, script_calls, hdefs]
      simp [script, Call.commands, Defs.declareCommands, Defs.defineCommands, Defs.decls,
        Defs.defList, Defs.defFrom, Defs.empty, run_cons, step, introduce, emptyScope, env, Term.str,
        Closed]
    · rw [hdefs]
      exact live_start v "min"

omit [PastEnd] in
theorem Mirrors.verdict (h : s.Mirrors st) (solver : Solver) :
    (s.verdict solver).2.Mirrors st := by
  unfold Incremental.verdict
  dsimp only
  split
  · have hmodel : ((s.call .checkSat).call .getModel).Mirrors st := h.checked.call rfl
    exact ⟨hmodel.sent, hmodel.levels⟩
  · exact ⟨h.checked.sent, h.checked.levels⟩

/-- What is on the stack when all of the list has been pushed. -/
def plan (s : Incremental) (q : Query) : List Term :=
  (planned (if s.minimize = q.minimize then s.stack else []) q.all).map Printed.term

/-- The list can be printed on top of what stays on the stack. -/
def CanPrint (s : Incremental) (q : Query) : Prop :=
  Printable (scopePrefixes (s.plan q).length) q.minimize (s.plan q)

theorem CanPrint.loopPrintable {q : Query} (h : s.CanPrint q) (hs : s.start q.minimize = some s') :
    s'.LoopPrintable 0 q.all := by
  unfold Incremental.start at hs
  unfold CanPrint plan at h
  split at hs
  next heq =>
    obtain rfl := Option.some.inj hs
    rw [if_pos heq, ← heq] at h
    exact h
  next hne =>
    obtain ⟨v, hv, rfl⟩ := Option.map_eq_some_iff.mp hs
    rw [if_neg hne, hv] at h
    exact h

/-- **A call keeps the scopes and the stack together.** -/
theorem Mirrors.checkSat (h : s.Mirrors st) {solver : Solver} {q : Query} (hp : s.CanPrint q)
    {r : Result} (hs : s.checkSat solver q = some (r, s')) : ∃ st', s'.Mirrors st' := by
  unfold Incremental.checkSat at hs
  obtain ⟨s₁, hs₁, heq⟩ := Option.map_eq_some_iff.mp hs
  obtain ⟨st₁, h₁⟩ := h.start hs₁
  obtain ⟨st₂, h₂⟩ := h₁.loop solver (hp.loopPrintable hs₁)
  rw [List.take_zero, List.reverse_nil, topDefs] at h₂
  generalize s₁.loop solver 0 s₁.startDefs q.all = x at heq h₂
  obtain ⟨s₂, si, sat⟩ := x
  dsimp only at heq h₂
  split at heq
  · split at heq
    · cases heq
      exact ⟨st₂, h₂⟩
    · obtain ⟨st₃, h₃⟩ := h₂.popTo si
      have hv := h₃.verdict solver
      rw [heq] at hv
      exact ⟨st₃, hv⟩
  · cases heq
    exact ⟨st₂, h₂.sent, h₂.levels⟩

/-- Every list can be printed when its turn comes. -/
def CanPrintAll (solver : Solver) : Incremental → List Query → Prop
  | _, [] => True
  | s, q :: qs => s.CanPrint q ∧ ∀ r s', s.checkSat solver q = some (r, s') → s'.CanPrintAll solver qs

omit [PastEnd] in
theorem mirrors_initial : initial.Mirrors [emptyScope] :=
  ⟨rfl, .base ⟨by simp [Defs.hasDecl, initial, Defs.empty], by simp [env, emptyScope],
    by simp [Defs.hasDecl, initial, Defs.empty], rfl⟩⟩

/-- **A run keeps the scopes and the stack together.** -/
theorem Mirrors.after (h : s.Mirrors st) {solver : Solver} {qs : List Query}
    (hp : s.CanPrintAll solver qs) (hs : s.after solver qs = some s') : ∃ st', s'.Mirrors st' := by
  induction qs generalizing s st with
  | nil =>
    obtain rfl := Option.some.inj hs
    exact ⟨st, h⟩
  | cons q qs ih =>
    rw [Incremental.after, List.foldlM_cons] at hs
    obtain ⟨s₁, hs₁, hrest⟩ := Option.bind_eq_some_iff.mp hs
    obtain ⟨⟨r, s₂⟩, hcheck, rfl⟩ := Option.map_eq_some_iff.mp hs₁
    obtain ⟨st₁, h₁⟩ := h.checkSat hp.1 hcheck
    exact ih h₁ (hp.2 r s₂ hcheck) hrest

end Incremental

/-! ### From scratch -/

namespace Query

/-- What the table is made from. -/
def traversed (q : Query) : List Term :=
  (q.minimize.map Term.variable).toList ++ q.assumptions.map Printed.term

theorem table_eq (q : Query) :
    q.table = q.traversed.foldl (fun d t => t.defs d) (Defs.empty "") := by
  unfold table traversed
  rw [List.foldl_append, List.foldl_map]
  cases q.minimize <;> rfl

theorem mem_varsOf_iff {q : Query} {v : Decl} :
    v ∈ varsOf q.minimize (q.assumptions.map Printed.term) ↔ v ∈ q.traversed.flatMap Term.vars := by
  unfold varsOf traversed
  cases q.minimize <;> simp [Term.vars]

/-- Terms are traversed one after the other. -/
theorem visits_foldl {ts : List Term} {d : Defs} (hd : d.Valid)
    (h : ∀ t ∈ ts, t.pointerFree = true) :
    Defs.Visits (ts.flatMap Term.counted) (ts.flatMap Term.vars) d
      (ts.foldl (fun d t => t.defs d) d) := by
  induction ts generalizing d with
  | nil => exact .nil hd
  | cons t ts ih =>
    have ht := t.visits_defs hd (h t List.mem_cons_self)
    have hts := ih ht.valid fun t' ht' => h t' (List.mem_cons_of_mem t ht')
    simpa only [List.flatMap_cons, List.foldl_cons] using ht.append hts

variable {q : Query}

/-- The bounds are about the packet size only. -/
theorem vars_bounds {a : Printed} (ha : a ∈ q.bounds) :
    a.term.pointerFree = true ∧ ∀ v ∈ a.term.vars, q.minimize = some v := by
  unfold bounds at ha
  cases hm : q.minimize with
  | none => simp [hm] at ha
  | some m =>
    have hterm : a.term.vars = [m] ∧ a.term.pointerFree = true := by
      rw [hm] at ha
      rcases List.mem_pair.mp ha with rfl | rfl <;> exact ⟨rfl, rfl⟩
    refine ⟨hterm.2, fun v hv => ?_⟩
    rw [hterm.1, List.mem_singleton] at hv
    rw [hv]

/-- **Everything can be asserted with one table.** -/
theorem run_scratch (h : Printable [""] q.minimize (q.assumptions.map Printed.term)) (b : Bool)
    (st : Scopes) : ∃ st', run (script (q.scratch b)) st = some st' ∧
      asserted st' = ((q.bounds ++ q.assumptions).map fun a => a.term.str).reverse := by
  have hpf : ∀ t ∈ q.traversed, t.pointerFree = true := by
    intro t ht
    rcases List.mem_append.mp ht with ht | ht
    · cases hm : q.minimize with
      | none => simp [hm] at ht
      | some m =>
        obtain rfl : t = .variable m := by simpa [hm] using ht
        rfl
    · exact h.pointerFree t ht
  have hv : Defs.Visits (q.traversed.flatMap Term.counted) (q.traversed.flatMap Term.vars)
      (Defs.empty "") q.table := by
    rw [table_eq]
    exact visits_foldl (Defs.valid_empty "" []) hpf
  have hvars : ∀ v, q.table.hasDecl v ↔ v ∈ varsOf q.minimize (q.assumptions.map Printed.term) := by
    intro v
    rw [mem_varsOf_iff]
    refine ⟨fun hd => ?_, hv.vars v⟩
    rcases hd with hd | hd
    · exact (hv.declarations v hd).resolve_left List.not_mem_nil
    · rw [hv.more.inherited] at hd
      exact nomatch hd
  have hname : ∀ n, q.table.nameOf n = (Defs.empty "").nameOf n := by
    intro n
    rw [Defs.nameOf, hv.more.before]
    rfl
  have hown : ∀ v ∈ q.table.declarations, v ∈ varsOf q.minimize (q.assumptions.map Printed.term) :=
    fun v hd => (hvars v).mp (.inl hd)
  have hnodup : (q.table.declarations.map Decl.declname).Nodup := by
    refine (List.nodup_map_iff_inj_on hv.valid.declarations_nodup).mpr ?_
    intro v hd w hw heq
    exact h.oneObject v (hown v hd) w (hown w hw) heq
  obtain ⟨sc, hrun, hass, hread, -⟩ := Defs.run_table hv.valid emptyScope []
    (by simp [hv.more.inherited, Defs.empty]) hnodup (by simp [env, emptyScope]) fun n =>
      ⟨by simp [env, emptyScope], fun v hd =>
        hname n ▸ h.notGenerated v (hown v hd) "" List.mem_cons_self n⟩
  have hmin : run (script (q.minimize.map Call.minimize).toList) [sc] = some [sc] := by
    cases hm : q.minimize with
    | none => rfl
    | some m =>
      have hdecl : q.table.hasDecl m := (hvars m).mpr (by simp [varsOf, hm])
      have hsize : Stands _ ((Term.variable m).write q.table true) _ :=
        hread.stands rfl (by simpa [Term.vars] using hdecl)
      show run [.minimize ((Term.variable m).write q.table true)] [sc] = _
      rw [run_cons, step, if_pos hsize.1]
      rfl
  have hstands : ∀ a ∈ q.bounds ++ q.assumptions,
      Stands (env [sc]) (a.term.write q.table true) a.term.str := by
    intro a ha
    rcases List.mem_append.mp ha with ha | ha
    · obtain ⟨hfree, hsize⟩ := vars_bounds ha
      exact hread.stands hfree fun v hmem => (hvars v).mpr (by simp [varsOf, hsize v hmem])
    · have hmem : a.term ∈ q.assumptions.map Printed.term := List.mem_map_of_mem ha
      refine hread.stands (h.pointerFree _ hmem) fun v hvar => (hvars v).mpr ?_
      exact List.mem_append_right _ (List.mem_flatMap.mpr ⟨_, hmem, hvar⟩)
  have hassert := run_assert (fun a : Printed => a.term.write q.table true) (fun a => a.term.str)
    (fun a => some a.id) (q.bounds ++ q.assumptions) sc [] hstands
  have hstart : (run (script [.reset]) st).bind (run (script
      (if b then [.enableUnsatCores] else []))) = some [emptyScope] := by
    cases b <;> rfl
  refine ⟨_, Eq.trans ?_ hassert, by simp [hass, emptyScope, asserted]⟩
  rw [scratch, Incremental.script_append, Incremental.script_append, Incremental.script_append,
    Incremental.script_append, Incremental.script_calls, run_append, run_append, run_append,
    run_append, hstart, Option.bind_some, hrun, Option.bind_some, hmin, Option.bind_some, script,
    List.flatMap_map, List.map_eq_flatMap]
  rfl

end Query

/-! ### All scripts -/

theorem Levels.asserted {start : Defs} {l : List Incremental.Entry} (h : Levels m start l st) :
    asserted st = l.map fun en => en.term.str := by
  rw [h.live.asserted, List.map_map]
  rfl

/-- **Sharing preserves meaning.** Both strategies send scripts that can be read, and what they
assert is the expressions of the assumptions, when these can be printed. -/
theorem shared_as_meant [PastEnd] :
    (∀ q : Query, Printable [""] q.minimize (q.assumptions.map Printed.term) → ∀ (b : Bool) st,
      ∃ st', run (script (q.scratch b)) st = some st' ∧
        asserted st' = ((q.bounds ++ q.assumptions).map fun a => a.term.str).reverse) ∧
    ∀ (solver : Solver) (qs : List Query) (s : Incremental), Incremental.initial.CanPrintAll solver qs →
      Incremental.initial.after solver qs = some s →
        ∃ st', run (script s.sent) [emptyScope] = some st' ∧
          asserted st' = (s.stack.map fun en => en.assumption.term.str).reverse := by
  refine ⟨fun q hq b st => Query.run_scratch hq b st, fun solver qs s hp hs => ?_⟩
  obtain ⟨st', h⟩ := Incremental.mirrors_initial.after hp hs
  refine ⟨st', h.sent, ?_⟩
  rw [h.levels.asserted, List.map_reverse]
  rfl

/-- The names of variables differ from those of the tables already in the first character. -/
theorem Printable.of_heads {befores : List String} {ts : List Term}
    (hpf : ∀ t ∈ ts, t.pointerFree = true)
    (hone : ∀ v ∈ varsOf m ts, ∀ w ∈ varsOf m ts, v.declname = w.declname → v = w)
    (hheads : ∀ v ∈ varsOf m ts, ∀ b ∈ befores,
      v.declname.toList.head? ≠ (b ++ "f").toList.head?) : Printable befores m ts := by
  refine ⟨hpf, hone, fun v hv b hb n heq => hheads v hv b hb ?_⟩
  rw [heq]
  cases hlist : b.toList <;> simp [Defs.nameOf, Defs.empty, hlist]

section

/-- A variable of 32 bits. -/
def indexDecl : Decl := ⟨2, "index", "(_ BitVec 32)"⟩

/-- `index + 1`. -/
def offsetTerm : Term :=
  .binary 3 "(_ BitVec 32)" "bvadd" (.variable indexDecl) (.literal "(_ bv1 32)")

/-- `(index + 1 & index) = index + 1`, with one object for both sums. -/
def offsetTwice : Query where
  minimize := some packetsize
  minValue := 60
  maxValue := 1500
  lower := 10
  upper := 11
  assumptions :=
    let offset : Bvexpr := .bvbinary .bvaddition 32 (.bvvariable 32 "index") (.bitvector 32 1)
    [{ e := .comparison .equality 32 (.bvbinary .bvanding 32 offset (.bvvariable 32 "index")) offset
       id := "condition"
       term := .binary 6 "Bool" "="
        (.binary 5 "(_ BitVec 32)" "bvand" offsetTerm (.variable indexDecl)) offsetTerm }]

/-- The offset gets a name, and the script is read. -/
theorem shared_as_meant_offsetTwice :
    letI : PastEnd := ⟨fun _ => false⟩
    let solver : Solver := ⟨fun _ => true, fun _ _ => none, fun _ => []⟩
    (∃ st', run (script (offsetTwice.scratch true)) [emptyScope] = some st') ∧
      ∃ s st', Incremental.initial.after solver [offsetTwice] = some s ∧
        run (script s.sent) [emptyScope] = some st' ∧
        asserted st' = (s.stack.map fun en => en.assumption.term.str).reverse := by
  let _ : PastEnd := ⟨fun _ => false⟩
  have hscratch : Printable [""] offsetTwice.minimize (offsetTwice.assumptions.map Printed.term) :=
    .of_heads (by decide +kernel) (by decide +kernel) (by decide +kernel)
  have hplan : Incremental.initial.CanPrint offsetTwice :=
    .of_heads (by decide +kernel) (by decide +kernel) (by decide +kernel)
  obtain ⟨st', hrun, -⟩ := shared_as_meant.1 offsetTwice hscratch true [emptyScope]
  refine ⟨⟨st', hrun⟩, ?_⟩
  obtain ⟨st', h⟩ := shared_as_meant.2 ⟨fun _ => true, fun _ _ => none, fun _ => []⟩ [offsetTwice] _
    ⟨hplan, fun _ _ _ => trivial⟩ rfl
  exact ⟨_, st', rfl, h⟩

end

/-! ### The offset of a pointer -/

section

/-- The array that a pointer points into. -/
def bufferDecl : Decl := ⟨1, "buffer", "(Array (_ BitVec 32) (_ BitVec 32))"⟩

/-- `&buffer[index + 1] & index`. -/
def nextTerm : Term :=
  .binary 5 "(_ BitVec 32)" "bvand" (.pointer 4 "(_ BitVec 32)" bufferDecl offsetTerm)
    (.variable indexDecl)

/-- The pointer is met twice, then the offset twice. -/
def pointerTwice : Query where
  minimize := none
  minValue := 0
  maxValue := 0
  lower := 0
  upper := 0
  assumptions :=
    let offset : Bvexpr := .bvbinary .bvaddition 32 (.bvvariable 32 "index") (.bitvector 32 1)
    let next : Bvexpr :=
      .bvbinary .bvanding 32 (.pointer 32 32 "buffer" offset) (.bvvariable 32 "index")
    [{ e := .lbinary .landing
        (.comparison .equality 32 (.bvbinary .bvanding 32 next (.bvvariable 32 "index")) next)
        (.comparison .equality 32 (.selection 32 32 (.bvavariable 32 32 "buffer") offset) offset)
       id := "condition"
       term := .binary 10 "Bool" "and"
        (.binary 7 "Bool" "=" (.binary 6 "(_ BitVec 32)" "bvand" nextTerm (.variable indexDecl)) nextTerm)
        (.binary 9 "Bool" "=" (.selection 8 "(_ BitVec 32)" (.variable bufferDecl) offsetTerm)
          offsetTerm) }]

/-- **A body uses a name that is defined after it.** The offset of a pointer is written with the
name that it gets when it is met elsewhere; the first definition after the declarations cannot be
read. -/
theorem pointerTwice_unread :
    (run ((script (pointerTwice.scratch false)).take 3) [emptyScope]).isSome = true ∧
      run ((script (pointerTwice.scratch false)).take 4) [emptyScope] = none := by
  decide +kernel

end

end NfpEstimator
