import NfpEstimator.Expr.Sharing
import NfpEstimator.State.Exec

/-!
# Asking the solver

`state::exec::check_sat` has the packet size and what has been assumed checked by one of two
strategies. `unsat_core` starts from scratch: it resets the solver and asserts everything.
`incremental` keeps a stack of assumptions that mirrors the scopes of the solver: it leaves the
longest prefix that the new list has in common with the stack, pops the rest, and pushes one
scope for each of the remaining assumptions.

What is sent to the solver is kept as the list of calls of `sat_checker`. What the solver
answers is a parameter (`Solver`), which may depend on everything that has been sent.
-/

namespace NfpEstimator

open Smt

/-! ### Calls of the solver -/

/-- An assumption with the object that its expression is. -/
structure Printed extends Assumption where
  term : Term

/-- The methods of `sat_checker`. -/
inductive Call where
  | reset
  | push
  | pop (size : ℕ)
  | enableUnsatCores
  | declare (var : Decl)
  | minimize (e : Decl)
  | define (e : ℕ × Term) (d : Defs)
  | assert (a : Printed) (d : Defs)
  | assertNamed (a : Printed) (d : Defs)
  | checkSat
  | getModel
  | getUnsatCore

/-- What a method writes. -/
def Call.commands : Call → List Command
  | .reset => [.reset]
  | .push => [.push]
  | .pop size => [.pop size]
  | .enableUnsatCores => [.setOption ":produce-unsat-cores", .setOption ":smt.core.minimize"]
  | .declare var => [.declare var.declname var.type]
  | .minimize e => [.minimize (Term.variable e).str]
  | .define e d => [.define (d.nameOf e.1) e.2.type (e.2.write d false)]
  | .assert a d => [.assert (a.term.write d true) none]
  | .assertNamed a d => [.assert (a.term.write d true) (some a.id)]
  | .checkSat => [.checkSat]
  | .getModel => [.getModel]
  | .getUnsatCore => [.getUnsatCore]

/-- The input of the solver. -/
def script (calls : List Call) : List Command := calls.flatMap Call.commands

/-- What the solver answers, after the calls so far. -/
structure Solver where
  checkSat : List Call → Bool
  getModel : List Call → Model
  getUnsatCore : List Call → Core

/-- `state::sat_strategy::result`. -/
abbrev Result := Model ⊕ Core

/-- The member `sat`. -/
def Result.isSat (r : Result) : Bool := r.isLeft

/-- The calls that introduce the names of a table. -/
def Defs.calls (d : Defs) : List Call :=
  d.decls.map .declare ++ d.defList.map fun e => .define e d

/-! ### What is checked -/

/-- What the strategies read of a `state::exec`, with the addresses of the two objects that are
made for the bounds of the packet size. -/
structure Query where
  minimize : Option Decl
  minValue : ℕ
  maxValue : ℕ
  lower : ℕ
  upper : ℕ
  assumptions : List Printed

namespace Query

/-- `expr::constant<14>`. -/
def constantTerm (value : ℕ) : Term := .literal s!"(_ bv{value % 2 ^ 14} 14)"

/-- `expr::bvuge<14>(minimize, expr::constant<14>(min_value))`, or with `bvule`. -/
def bound (build : ℕ → Bvexpr → Bvexpr → Lexpr) (name id : String) (addr value : ℕ) (m : Decl) :
    Printed where
  e := build 14 (.bvvariable 14 m.declname) (constant 14 value)
  id := id
  term := .binary addr "Bool" name (.variable m) (constantTerm value)

/-- `min_value` and `max_value`. -/
def bounds (q : Query) : List Printed :=
  match q.minimize with
  | none => []
  | some m =>
    [bound bvuge "bvuge" "min_value" q.lower q.minValue m,
      bound bvule "bvule" "max_value" q.upper q.maxValue m]

/-- Everything that is asserted, in the order of `incremental::check_sat`. -/
def all (q : Query) : List Printed := q.assumptions ++ q.bounds

/-! ### From scratch -/

/-- The table of `unsat_core::check_sat`; the bounds are not traversed. -/
def table (q : Query) : Defs :=
  q.assumptions.foldl (fun d a => a.term.defs d)
    (q.minimize.elim (Defs.empty "") fun m => (Term.variable m).defs (Defs.empty ""))

/-- What `unsat_core::check_sat` sends before it asks. -/
def scratch (q : Query) (minimizeUnsatPrefix : Bool) : List Call :=
  [.reset] ++ (if minimizeUnsatPrefix then [.enableUnsatCores] else []) ++ q.table.calls ++
    (q.minimize.map Call.minimize).toList ++ (q.bounds ++ q.assumptions).map (.assertNamed · q.table)

/-- `unsat_core::check_sat`, after other calls. There is none when the last of no assumptions is
asked for. -/
def unsatCoreCheckSat (solver : Solver) (sent : List Call) (q : Query) (minimizeUnsatPrefix : Bool) :
    Option Result :=
  let sent := sent ++ q.scratch minimizeUnsatPrefix
  if solver.checkSat sent then some (.inl (solver.getModel (sent ++ [.checkSat])))
  else if minimizeUnsatPrefix then some (.inr (solver.getUnsatCore (sent ++ [.checkSat])))
  else q.assumptions.getLast?.map fun a => .inr [a.id]

end Query

/-- The packet size of `cfg::initial_state`. -/
def packetsize : Decl := ⟨0, "packetsize", "(_ BitVec 14)"⟩

/-! ### Incrementally -/

/-- `incremental::stack_t`. -/
structure Incremental.Entry where
  assumption : Printed
  defs : Defs

/-- `state::sat_strategy::incremental`, with what has been sent. -/
structure Incremental where
  minimize : Option Decl
  model : Option Model
  startDefs : Defs
  stack : List Incremental.Entry
  sent : List Call

namespace Incremental

/-- As it is constructed. -/
def initial : Incremental := ⟨none, none, Defs.empty "", [], []⟩

/-- The solver is reset for another packet size. A missing one is a null pointer. -/
def start (s : Incremental) (m : Option Decl) : Option Incremental :=
  if s.minimize = m then some s
  else m.map fun m =>
    let d := (Term.variable m).defs (Defs.empty "min")
    { s with minimize := some m, startDefs := d, stack := [],
             sent := s.sent ++ [.reset] ++ d.calls ++ [.minimize m] }

/-- `c.pop(stack.end() - si)`, if there is something to pop. -/
def popTo (s : Incremental) (si : ℕ) : Incremental :=
  if si < s.stack.length then
    { s with stack := s.stack.take si, sent := s.sent ++ [.pop (s.stack.length - si)] }
  else s

/-- The table of an assumption that is put on the stack. -/
def scope (s : Incremental) (a : Printed) (parent : Defs) : Defs :=
  a.term.defs (Defs.scopedDefs s!"s{s.stack.length}" parent)

/-- An assumption gets a scope of its own. -/
def push (s : Incremental) (a : Printed) (d : Defs) : Incremental :=
  { s with stack := s.stack ++ [⟨a, d⟩], sent := s.sent ++ [.push] ++ d.calls ++ [.assert a d] }

/-- A call that leaves the stack as it is. -/
def call (s : Incremental) (c : Call) : Incremental := { s with sent := s.sent ++ [c] }

/-- After the label `unsat`. -/
def unsat (s : Incremental) : Result × Incremental :=
  (.inr (s.stack.map fun en => en.assumption.id), { s with model := none })

/-- The last verdict. -/
def verdict (solver : Solver) (s : Incremental) : Result × Incremental :=
  let sat := solver.checkSat s.sent
  let s := s.call .checkSat
  if sat then
    let model := solver.getModel s.sent
    (.inl model, { s.call .getModel with model := some model })
  else s.unsat

variable [PastEnd]

/-- The loop over the assumptions. `si` is where the iterator of the stack stands; the last
component tells whether the loop has got to its end. -/
def loop (solver : Solver) : Incremental → (si : ℕ) → (parent : Defs) → List Printed →
    Incremental × ℕ × Bool
  | s, si, _, [] => (s, si, true)
  | s, si, parent, a :: as =>
    match s.stack[si]?.filter fun en => a.toAssumption.equal en.assumption.toAssumption with
    | some en => loop solver s (si + 1) en.defs as
    | none =>
      let s := s.popTo si
      let d := s.scope a parent
      let s := s.push a d
      let sat := solver.checkSat s.sent
      let s := s.call .checkSat
      if sat then loop solver s s.stack.length d as else (s, s.stack.length, false)

/-- `incremental::check_sat`. -/
def checkSat (solver : Solver) (s : Incremental) (q : Query) : Option (Result × Incremental) :=
  (s.start q.minimize).map fun s =>
    let (s, si, sat) := s.loop solver 0 s.startDefs q.all
    if sat then
      -- the whole stack has been checked before, and the list is the lower part of it
      match if si < s.stack.length then s.model else none with
      | some model => (.inl model, s)
      | none => (s.popTo si).verdict solver
    else s.unsat

/-- One call after another; the last result is kept. -/
def after (solver : Solver) (s : Incremental) (qs : List Query) : Option Incremental :=
  qs.foldlM (fun s q => (s.checkSat solver q).map Prod.snd) s

/-! ### What the loop plans -/

/-- `operator==` of an assumption and the one of an entry. -/
def Same (a : Printed) (en : Entry) : Prop :=
  a.toAssumption.equal en.assumption.toAssumption = true

instance (a : Printed) (en : Entry) : Decidable (Same a en) :=
  inferInstanceAs (Decidable (_ = true))

/-- What is on the stack when the loop has got to its end, above the entries that it has passed. -/
def planned : List Entry → List Printed → List Printed
  | en :: stack, a :: as => if Same a en then en.assumption :: planned stack as else a :: as
  | _, as => as

theorem planned_nil (as : List Printed) : planned [] as = as := by
  cases as <;> rfl

variable {s : Incremental} {si : ℕ} {a : Printed} {as : List Printed} {en : Entry}

theorem planned_of_same {stack : List Entry} (hget : stack[si]? = some en) (hsame : Same a en) :
    planned (stack.drop si) (a :: as) = en.assumption :: planned (stack.drop (si + 1)) as := by
  obtain ⟨hlt, rfl⟩ := List.getElem?_eq_some_iff.mp hget
  rw [List.drop_eq_getElem_cons hlt, planned, if_pos hsame]

theorem planned_of_differs {stack : List Entry} (h : ∀ en, stack[si]? = some en → ¬Same a en) :
    planned (stack.drop si) (a :: as) = a :: as := by
  cases hdrop : stack.drop si with
  | nil => rfl
  | cons en rest =>
    have hget : stack[si]? = some en := by
      rw [← List.head?_drop, hdrop]
      rfl
    rw [planned, if_neg (h en hget)]

/-- A step of the loop that passes an entry. -/
theorem loop_of_same {solver : Solver} {parent : Defs} (hget : s.stack[si]? = some en)
    (hsame : Same a en) :
    s.loop solver si parent (a :: as) = s.loop solver (si + 1) en.defs as := by
  have hfilter : s.stack[si]?.filter
      (fun en => a.toAssumption.equal en.assumption.toAssumption) = some en :=
    Option.filter_eq_some_iff.mpr ⟨hget, hsame⟩
  rw [loop, hfilter]

/-- A step of the loop that pushes. -/
theorem loop_of_differs {solver : Solver} {parent : Defs}
    (h : ∀ en, s.stack[si]? = some en → ¬Same a en) :
    s.loop solver si parent (a :: as) =
      let d := (s.popTo si).scope a parent
      let s' := (s.popTo si).push a d
      if solver.checkSat s'.sent then
        (s'.call .checkSat).loop solver ((s.popTo si).stack.length + 1) d as
      else (s'.call .checkSat, (s.popTo si).stack.length + 1, false) := by
  have hfilter : s.stack[si]?.filter
      (fun en => a.toAssumption.equal en.assumption.toAssumption) = none :=
    Option.filter_eq_none_iff.mpr fun en hen => h en hen
  rw [loop, hfilter]
  simp [call, push]

omit [PastEnd]

theorem stack_popTo (s : Incremental) (si : ℕ) : (s.popTo si).stack = s.stack.take si := by
  unfold popTo
  split
  · rfl
  · rw [List.take_of_length_le (by omega)]

theorem minimize_popTo (s : Incremental) (si : ℕ) : (s.popTo si).minimize = s.minimize := by
  unfold popTo
  split <;> rfl

theorem startDefs_popTo (s : Incremental) (si : ℕ) : (s.popTo si).startDefs = s.startDefs := by
  unfold popTo
  split <;> rfl

end Incremental

end NfpEstimator
