import NfpEstimator.Links
import NfpEstimator.State.Dram
import NfpEstimator.Cfg.Path

/-!
# Extending paths

Paths are extended in the order of what their extensions will cost, and `cfg::path::withstate` computes this in advance
from the instructions of the blocks, without a state. What a path really costs is kept in its state, which is a
`state::exec` as long as the path is possible and a `state::perf` from then on.

Path objects are shared. A path remembers its two extensions, for as long as somebody else holds them, and a possible
path that was found to be impossible remembers the object that takes its place. They are kept in a `Heap` here, and
what happens to it between two operations is known to the solver and to those who hold the objects (`Outside`).

The main result is that in every heap that can be reached the costs of an extension are those that were computed
(`extend_costs`), wherever the extension comes from.
-/

namespace NfpEstimator

/-- A graph without loops, all of its instructions, and the `min_packetsize` of each `succ_data`. -/
structure Program extends LoopFreeCfg where
  ops : ℕ → List Operation
  instr_ops : ∀ nd, (ops nd).map Operation.instr = toCfg.instrs nd
  minPacketsize : Entry → ℕ

namespace Program

theorem isSome_target {g : Cfg} {s : Entry} (hs : s ∈ g.entries) : (g.target s).isSome := by
  cases s with
  | none => rfl
  | some e =>
    simp only [Cfg.entries, List.mem_cons, reduceCtorEq, List.mem_map, Option.some.injEq, exists_eq_right, false_or,
      List.mem_flatMap, Cfg.mem_outEdges] at hs
    obtain ⟨nd, -, rfl, hsome⟩ := hs
    exact hsome

variable (g : Program)

/-- A `cfg::succ_data` that leads to a block: `cfg::start`, or the one of an edge. -/
def Entered : Type := {s : Entry // s ∈ g.entries}

/-- `cfg::start`. -/
def startData : g.Entered := ⟨none, List.mem_cons_self⟩

/-- `cfg::succ_data::nd`. -/
def nd (s : g.Entered) : ℕ := (g.target s.1).get (isSome_target s.2)

/-- `cfg::succ_data::instructions`. -/
def instructions (s : g.Entered) : List OpData :=
  List.zipWith (fun n x => ⟨n, x.i⟩) (g.ops (g.nd s)) (g.overestimateCycles s.1)

theorem target_nd (s : g.Entered) : g.target s.1 = some (g.nd s) := (Option.some_get _).symm

theorem nd_mem (s : g.Entered) : g.nd s ∈ g.nodes := target_mem g.loopFree s.2 (g.target_nd s)

/-- They are the instructions that `overestimate_cycles` leaves, with all of their operands. -/
theorem instructions_instr (s : g.Entered) :
    (g.instructions s).map (fun x => ⟨x.n.instr, x.i⟩) = g.overestimateCycles s.1 := by
  have hn : (g.overestimateCycles s.1).map (·.n) = (g.ops (g.nd s)).map Operation.instr :=
    (map_n_overestimateCycles (g.target_nd s)).trans (g.instr_ops _).symm
  rw [instructions]
  generalize g.overestimateCycles s.1 = ds at hn
  generalize g.ops (g.nd s) = ns at hn
  induction ds generalizing ns with
  | nil =>
    rw [List.zipWith_nil_right]
    rfl
  | cons d ds ih =>
    cases ns with
    | nil => exact nomatch hn
    | cons n ns =>
      obtain ⟨h, hrest⟩ := List.cons_eq_cons.mp hn
      rw [List.zipWith_cons_cons, List.map_cons, ih ns hrest, ← h]

theorem instructions_ne_nil (s : g.Entered) : g.instructions s ≠ [] := by
  intro hnil
  have hinstr := g.instructions_instr s
  rw [hnil] at hinstr
  obtain ⟨x, l, hx, -⟩ := overestimateCycles_ends g.loopFree s.2 (g.target_nd s)
  rw [← hinstr] at hx
  exact nomatch hx

/-- `this->s.instructions.back()`. -/
def back (s : g.Entered) : OpData := (g.instructions s).getLast (g.instructions_ne_nil s)

/-- `this->s.nd->succ(branchtrue)`, if there is such an edge. -/
def next (s : g.Entered) (branchtrue : Bool) : Option g.Entered :=
  if h : (g.succ (g.nd s) branchtrue).isSome then
    some ⟨some (g.nd s, branchtrue), List.mem_cons_of_mem _ (List.mem_map_of_mem (List.mem_flatMap.mpr
      ⟨g.nd s, g.nd_mem s, (g.mem_outEdges).mpr ⟨rfl, h⟩⟩))⟩
  else none

/-- `cfg::node::loopdepth`. -/
def loopdepth (s : g.Entered) : ℕ := (g.node (g.nd s)).loopdepth

/-- `state::exec::assumption_name`, of the last instruction of a block. -/
def assumptionName (s : g.Entered) (branchtrue : Bool) : String :=
  let n := (g.back s).n
  n.name ++ (if branchtrue then "T" else "F") ++ toString n.instr.getId ++ "L" ++ toString (g.loopdepth s)

theorem lastCycles_overestimateCycles (s : g.Entered) (b : Bool) :
    lastCycles (g.overestimateCycles s.1) b = perfCycles (g.back s).n.instr (g.back s).i b := by
  rw [lastCycles, ← g.instructions_instr s, List.getLast?_map, List.getLast?_eq_some_getLast (g.instructions_ne_nil s)]
  rfl

theorem blockCycles_overestimateCycles (s : g.Entered) :
    blockCycles (g.overestimateCycles s.1) =
      ((g.instructions s).dropLast.map fun x => perfCycles x.n.instr x.i false).sum := by
  rw [blockCycles, ← g.instructions_instr s, ← List.map_dropLast, List.map_map]
  rfl

theorem val_of_next {s t : g.Entered} {b : Bool} (h : g.next s b = some t) : t.1 = some (g.nd s, b) := by
  unfold next at h
  split at h
  · exact (Option.some.inj h) ▸ rfl
  · exact nomatch h

theorem isSome_next {s : g.Entered} {b : Bool} : (g.next s b).isSome ↔ (g.nd s, b) ∈ g.outEdges (g.nd s) := by
  rw [next, Cfg.mem_outEdges]
  split
  · next h => exact ⟨fun _ => ⟨rfl, h⟩, fun _ => rfl⟩
  · next h => exact ⟨fun h' => absurd h' Bool.false_ne_true, fun h' => absurd h'.2 h⟩

end Program

namespace Extension

variable {g : Program}

/-! ### Costs -/

/-- A `cfg::path::withstate`, of whose state only `state::perf` is looked at. -/
structure Charged (g : Program) where
  s : g.Entered
  state : PerfState

namespace Charged

/-- `cfg::path::withstate::max_cycles()`. -/
def maxCycles (w : Charged g) : ℕ := w.state.summaxcycles

/-- `cfg::path::withstate::dram_cycles()`. -/
def dramCycles (w : Charged g) : ℚ := w.state.sumdramcycles

/-- `cfg::path::withstate::max_cycles(branchtrue)`. -/
def maxCyclesBy (w : Charged g) (branchtrue : Bool) : Except Stop ℕ :=
  let c := w.state.summaxcycles
  let i := g.back w.s
  let c := wrap32 (c + perfCycles i.n.instr i.i branchtrue)
  match g.next w.s branchtrue with
  | none => .error .undefined
  | some s => .ok (addCycles c (g.instructions s).dropLast)

/-- `cfg::path::withstate::dram_cycles(branchtrue)`. -/
def dramCyclesBy (w : Charged g) (branchtrue : Bool) : Except Stop ℚ := do
  let c ← addDram w.state.sumdramcycles (g.back w.s).n
  match g.next w.s branchtrue with
  | none => .error .undefined
  | some s => (g.instructions s).dropLast.foldlM (fun c x => addDram c x.n) c

/-- What an extension is charged: the last instruction, and all of the next block but the last one. -/
def extend (w : Charged g) (branchtrue : Bool) : Except Stop (Charged g) := do
  let state ← w.state.apply (g.back w.s) branchtrue
  match g.next w.s branchtrue with
  | none => .error .undefined
  | some s => Charged.mk s <$> state.enter (g.instructions s)

/-- **What is computed in advance is what an extension is charged.** -/
theorem extend_eq (w : Charged g) {branchtrue : Bool} {s : g.Entered} (hs : g.next w.s branchtrue = some s) :
    ∃ max, w.maxCyclesBy branchtrue = .ok max ∧
      w.extend branchtrue = (fun dram => ⟨s, max, dram⟩) <$> w.dramCyclesBy branchtrue := by
  refine ⟨_, by rw [maxCyclesBy, hs], ?_⟩
  simp only [extend, dramCyclesBy, hs, PerfState.apply, bind_assoc, pure_bind, PerfState.enter_eq, map_bind,
    Functor.map_map]

/-- They are the cycles of `WithState.maxCyclesBy`, which the queues of paths compare. -/
theorem maxCyclesBy_eq (w : Charged g) {branchtrue : Bool} {s : g.Entered} (hs : g.next w.s branchtrue = some s) :
    w.maxCyclesBy branchtrue = .ok (NfpEstimator.WithState.maxCyclesBy g.toCfg g.overestimateCycles
      ⟨w.s.1, w.state.summaxcycles⟩ branchtrue) := by
  have hnext : NfpEstimator.WithState.next g.toCfg ⟨w.s.1, w.state.summaxcycles⟩ branchtrue = s.1 := by
    rw [NfpEstimator.WithState.next, g.target_nd, g.val_of_next hs]
    rfl
  rw [maxCyclesBy, hs, NfpEstimator.WithState.maxCyclesBy, hnext, g.lastCycles_overestimateCycles,
    g.blockCycles_overestimateCycles]
  exact congrArg Except.ok (addCycles_wrap32 _ _)

end Charged

/-! ### Path objects -/

/-- `cfg::path::withstate`, a template over the type of the state. -/
structure WithState (g : Program) (S : Type) where
  s : g.Entered
  minpacketsize : ℕ
  state : S
  /-- `succ_true` and `succ_false`, weak pointers. -/
  succ : Bool → Option ℕ

/-- `cfg::path::impossible`. -/
structure Impossible (g : Program) extends WithState g PerfState where
  count : ℕ

/-- `cfg::path::possible`. -/
structure Possible (g : Program) extends WithState g DramExec where
  /-- `pred`, the `pred` of that, and so on. -/
  pred : List ℕ
  asImpossible : Option ℕ
  branchtrue : Bool
  markedUnsat : Bool

/-- An object of the class `cfg::path` that is not `none`. -/
inductive PathObj (g : Program) where
  | impossible (x : Impossible g)
  | possible (x : Possible g)

/-- The constructor of `cfg::path::impossible`. -/
def Impossible.make (s : g.Entered) (minPacketsize : ℕ) (state : PerfState) (count : ℕ) :
    Except Stop (Impossible g) := do
  let state ← state.enter (g.instructions s)
  pure { s := s, minpacketsize := max (g.minPacketsize s.1) minPacketsize, state := state, succ := fun _ => none
         count := count }

/-- `cfg::path::impossible::extendi`. -/
def Impossible.extendi (x : Impossible g) (branchtrue : Bool) : Except Stop (Impossible g) := do
  let state ← x.state.apply (g.back x.s) branchtrue
  match g.next x.s branchtrue with
  | none => .error .undefined
  | some s => Impossible.make s x.minpacketsize state x.count

/-- `cfg::path::impossible::merge`, with an impossible path; the extensions that are remembered are copied. -/
def Impossible.merge (x y : Impossible g) : Impossible g := { x with count := (x.count + y.count) % 2 ^ 64 }

/-- `cfg::path::possible::min_packetsize`. -/
def Possible.minPacketsize (x : Possible g) : ℕ := max x.minpacketsize x.state.minValue

/-- `cfg::path::possible::is_unsat`. -/
def Possible.isUnsat (x : Possible g) : Bool := x.markedUnsat || x.state.isUnsat

/-- The constructor of `cfg::path::possible`. -/
def Possible.make [PastEnd] (pred : List ℕ) (s : g.Entered) (minPacketsize : ℕ) (state : DramExec) (branchtrue : Bool)
    (fresh : ℕ → Fresh) : Except Stop (Possible g) := do
  let state ← state.enter (g.loopdepth s) fresh (g.instructions s)
  pure { s := s, minpacketsize := max (g.minPacketsize s.1) minPacketsize, state := state, succ := fun _ => none
         pred := pred, asImpossible := none, branchtrue := branchtrue, markedUnsat := false }

/-- The constructor of `cfg::path::impossible` for a path that was possible. -/
def Possible.toImpossible (x : Possible g) : Impossible g where
  s := x.s
  minpacketsize := x.minPacketsize
  state := x.state.perf
  succ := fun _ => none
  count := 1

namespace PathObj

/-- `succ_true` or `succ_false`. -/
def succ (x : PathObj g) (branchtrue : Bool) : Option ℕ :=
  match x with
  | impossible x => x.succ branchtrue
  | possible x => x.succ branchtrue

/-- Another value of `succ_true` or `succ_false`. -/
def setSucc (x : PathObj g) (branchtrue : Bool) (p : Option ℕ) : PathObj g :=
  match x with
  | impossible x => impossible { x with succ := Function.update x.succ branchtrue p }
  | possible x => possible { x with succ := Function.update x.succ branchtrue p }

/-- What the costs of a path are computed from. -/
def charged : PathObj g → Charged g
  | impossible x => ⟨x.s, x.state⟩
  | possible x => ⟨x.s, x.state.perf⟩

/-- `dynamic_pointer_cast<path::possible>`. -/
def possible? : PathObj g → Option (Possible g)
  | impossible _ => none
  | possible x => some x

/-- `dynamic_pointer_cast<path::impossible>`. -/
def impossible? : PathObj g → Option (Impossible g)
  | impossible x => some x
  | possible _ => none

end PathObj

/-! ### The heap -/

/-- The flags that the program is called with, and what paths start with. -/
structure Settings where
  impossiblePrefixes : Bool
  checkEachBranch : Bool
  checkUnlikelyEdges : Bool
  impossiblePathMerging : Bool
  /-- `cfg::COST_FIRMWARE`. -/
  firmware : ℕ
  /-- `cfg::DRAM_COST_FIRMWARE`. -/
  dramFirmware : ℚ
  /-- `cfg::MTU`. -/
  mtu : ℕ
  /-- `cfg::PACKET_HEADROOM`. -/
  headroom : ℕ

/-- `cfg::initial_state`. -/
def Settings.initialState (c : Settings) : DramExec :=
  ⟨NfpEstimator.initialState c.firmware c.mtu (initialContents c.headroom), c.dramFirmware⟩

/-- What an operation meets: the objects that somebody holds, those that instructions make, and what the solver
answers. -/
structure Outside where
  held : ℕ → Bool
  fresh : ℕ → Fresh
  answer : Model ⊕ Core

/-- `std::weak_ptr::lock`. -/
def Outside.lock (o : Outside) (p : Option ℕ) : Option ℕ := p.filter o.held

/-- The path objects that were made, and `sat_check` of each edge. -/
structure Heap (g : Program) where
  objs : List (PathObj g)
  satCheck : Edge → Bool

namespace Heap

/-- `std::make_shared`. -/
def alloc (h : Heap g) (x : PathObj g) : Heap g × ℕ := ({ h with objs := h.objs ++ [x] }, h.objs.length)

/-- An object is changed. -/
def put (h : Heap g) (p : ℕ) (x : PathObj g) : Heap g := { h with objs := h.objs.set p x }

/-- A pointer to an object of the class `path::possible`. -/
def possible? (h : Heap g) (p : ℕ) : Option (Possible g) := h.objs[p]?.bind PathObj.possible?

/-- A pointer to an object of the class `path::impossible`. -/
def impossible? (h : Heap g) (p : ℕ) : Option (Impossible g) := h.objs[p]?.bind PathObj.impossible?

/-- Possible paths that are not marked. -/
def unmarked (h : Heap g) : ℕ := h.objs.countP fun x => x.possible?.any fun x => !x.markedUnsat

theorem possible?_eq_some {h : Heap g} {p : ℕ} {x : Possible g} :
    h.possible? p = some x ↔ h.objs[p]? = some (.possible x) := by
  rw [possible?, Option.bind_eq_some_iff]
  constructor
  · rintro ⟨y, hy, hx⟩
    cases y with
    | impossible y => exact nomatch hx
    | possible y => exact Option.some.inj hx ▸ hy
  · exact fun hx => ⟨_, hx, rfl⟩

theorem impossible?_eq_some {h : Heap g} {p : ℕ} {x : Impossible g} :
    h.impossible? p = some x ↔ h.objs[p]? = some (.impossible x) := by
  rw [impossible?, Option.bind_eq_some_iff]
  constructor
  · rintro ⟨y, hy, hx⟩
    cases y with
    | impossible y => exact Option.some.inj hx ▸ hy
    | possible y => exact nomatch hx
  · exact fun hx => ⟨_, hx, rfl⟩

/-! ### Marking -/

/-- `dynamic_pointer_cast<path::possible>(p->succ_true.lock())`, and of `succ_false`. -/
def lockPossible (o : Outside) (h : Heap g) (p : Option ℕ) : Option ℕ :=
  (o.lock p).filter fun q => (h.possible? q).isSome

/-- A path is marked, and forgets its extensions that are possible. -/
def mark (o : Outside) (h : Heap g) (p : ℕ) (x : Possible g) : Heap g :=
  h.put p (.possible { x with
    markedUnsat := true
    succ := fun b => if (h.lockPossible o (x.succ b)).isSome then none else x.succ b })

theorem countP_set_lt {α : Type*} {P : α → Bool} {l : List α} {p : ℕ} {x y : α} (hp : l[p]? = some x)
    (hx : P x = true) (hy : P y = false) : (l.set p y).countP P < l.countP P := by
  induction l generalizing p with
  | nil => exact nomatch hp
  | cons z l ih =>
    cases p with
    | zero =>
      obtain rfl : z = x := by simpa using hp
      rw [List.set_cons_zero, List.countP_cons_of_pos hx, List.countP_cons_of_neg (by simp [hy])]
      exact Nat.lt_succ_self _
    | succ p =>
      rw [List.set_cons_succ, List.countP_cons, List.countP_cons]
      exact Nat.add_lt_add_right (ih (by simpa using hp)) _

theorem unmarked_mark {o : Outside} {h : Heap g} {p : ℕ} {x : Possible g} (hx : h.possible? p = some x)
    (hm : x.markedUnsat = false) : (h.mark o p x).unmarked < h.unmarked :=
  countP_set_lt (possible?_eq_some.mp hx) (by simp [PathObj.possible?, hm]) (by simp [PathObj.possible?])

/-- `cfg::path::possible::mark_unsat`, with the paths on its stack. -/
def markUnsat (o : Outside) (h : Heap g) : List ℕ → Heap g
  | [] => h
  | p :: stack =>
    match _hx : h.possible? p with
    | none => h.markUnsat o stack
    | some x =>
      if x.markedUnsat then h.markUnsat o stack
      else
        let t := h.lockPossible o (x.succ true)
        let f := h.lockPossible o (x.succ false)
        (h.mark o p x).markUnsat o (f.toList ++ t.toList ++ stack)
termination_by stack => 2 * h.unmarked + stack.length
decreasing_by
  · exact Nat.add_lt_add_left (Nat.lt_succ_self _) _
  · exact Nat.add_lt_add_left (Nat.lt_succ_self _) _
  · next hm =>
    have hlt := unmarked_mark (o := o) _hx (Bool.eq_false_iff.mpr hm)
    have hlen : ∀ q : Option ℕ, q.toList.length ≤ 1 := fun q => by cases q <;> simp
    have hf := hlen (h.lockPossible o (x.succ false))
    have ht := hlen (h.lockPossible o (x.succ true))
    simp only [List.length_append, List.length_cons]
    omega

/-- `cfg::node::enable_sat_check`. -/
def enableSatCheck (c : Settings) (h : Heap g) (e : Edge) : Heap g :=
  if c.checkUnlikelyEdges ∧ (g.succ e.1 e.2).isSome then { h with satCheck := Function.update h.satCheck e true }
  else h

/-- `cfg::node::sat_check_enabled`. -/
def satCheckEnabled (c : Settings) (h : Heap g) (e : Edge) : Bool :=
  c.checkEachBranch || (g.succ e.1 e.2).isSome && h.satCheck e

/-- The loop of `cfg::path::possible::apply_unsat_core`. `n` is the path that it has come from. -/
def applyCore (c : Settings) (o : Outside) (h : Heap g) (core : Core) : List ℕ → Bool → Option ℕ → Heap g
  | [], _, _ => h
  | p :: pred, branchtrue, n =>
    match h.possible? p with
    | none => h
    | some x =>
      if g.assumptionName x.s branchtrue ∈ core then
        (h.enableSatCheck c (g.nd x.s, x.branchtrue)).markUnsat o n.toList
      else h.applyCore c o core pred x.branchtrue (some p)

/-- `cfg::path::possible::apply_unsat_core`, of the path that comes first. -/
def applyUnsatCore (c : Settings) (o : Outside) (h : Heap g) (state : DramExec) (path : List ℕ) (branchtrue : Bool) :
    Heap g :=
  if c.impossiblePrefixes then h.applyCore c o (state.unsatCore.getD []) path branchtrue none else h

/-- `cfg::path::possible::to_impossible`. -/
def toImpossible (o : Outside) (h : Heap g) (p : ℕ) : Except Stop (Heap g × ℕ) :=
  match h.possible? p with
  | none => .error .undefined
  | some x =>
    match x.asImpossible with
    | some q => .ok (h, q)
    | none =>
      let h := h.markUnsat o [p]
      match h.possible? p with
      | none => .error .undefined
      | some x =>
        let (h, q) := h.alloc (.impossible x.toImpossible)
        .ok (h.put p (.possible { x with asImpossible := some q }), q)

/-! ### Operations -/

/-- `cfg::path::withstate::extend`, of the object `x` at `p`. -/
def extendWith (o : Outside) (h : Heap g) (p : ℕ) (x : PathObj g) (branchtrue : Bool)
    (extendn : Except Stop (Heap g × ℕ)) : Except Stop (Heap g × ℕ) :=
  match o.lock (x.succ branchtrue) with
  | some q => .ok (h, q)
  | none => do
    let (h, q) ← extendn
    match h.objs[p]? with
    | none => .error .undefined
    | some x => pure (h.put p (x.setSucc branchtrue (some q)), q)

/-- `cfg::path::impossible::extend`. -/
def extendImpossible (o : Outside) (h : Heap g) (p : ℕ) (x : Impossible g) (branchtrue : Bool) :
    Except Stop (Heap g × ℕ) :=
  h.extendWith o p (.impossible x) branchtrue do
    let y ← x.extendi branchtrue
    pure (h.alloc (.impossible y))

variable [PastEnd]

/-- `cfg::path::possible::extendn`. -/
def extendn (c : Settings) (o : Outside) (h : Heap g) (p : ℕ) (x : Possible g) (branchtrue : Bool) :
    Except Stop (Heap g × ℕ) :=
  if x.markedUnsat then do
    let (h, q) ← h.toImpossible o p
    match h.impossible? q with
    | none => .error .undefined
    | some y => h.extendImpossible o q y branchtrue
  else do
    let i := g.back x.s
    let state ← x.state.apply ⟨i.n, i.i, g.loopdepth x.s, branchtrue, o.fresh 0⟩
    match g.next x.s branchtrue with
    | none => .error .undefined
    | some s =>
      if state.isUnsat then
        let y ← Impossible.make s x.minPacketsize state.perf 1
        pure (h.alloc (.impossible y))
      else
        let checked := h.satCheckEnabled c (g.nd x.s, branchtrue)
        let state := if checked then { state with toExec := state.toExec.checkSat o.answer } else state
        if checked ∧ state.isUnsat then
          let h := h.applyUnsatCore c o state (p :: x.pred) branchtrue
          let y ← Impossible.make s x.minPacketsize state.perf 1
          pure (h.alloc (.impossible y))
        else
          let y ← Possible.make (p :: x.pred) s x.minPacketsize state branchtrue fun k => o.fresh (k + 1)
          pure (h.alloc (.possible y))

/-- `cfg::path::extend`. -/
def extend (c : Settings) (o : Outside) (h : Heap g) (p : ℕ) (branchtrue : Bool) : Except Stop (Heap g × ℕ) :=
  match h.objs[p]? with
  | none => .error .undefined
  | some (.impossible x) => h.extendImpossible o p x branchtrue
  | some (.possible x) => h.extendWith o p (.possible x) branchtrue (h.extendn c o p x branchtrue)

omit [PastEnd] in
/-- `cfg::path::check`. -/
def check (c : Settings) (o : Outside) (h : Heap g) (p : ℕ) : Except Stop (Heap g × ℕ) :=
  match h.objs[p]? with
  | none => .error .undefined
  | some (.impossible _) => .ok (h, p)
  | some (.possible x) =>
    if x.isUnsat then h.toImpossible o p
    else if x.state.sat.isSome then .ok (h, p)
    else
      let state : DramExec := { x.state with toExec := x.state.toExec.checkSat o.answer }
      let h := h.put p (.possible { x with state := state })
      if state.isUnsat then
        match x.pred with
        | [] => .error .undefined
        | pred => (h.applyUnsatCore c o state pred x.branchtrue).toImpossible o p
      else .ok (h, p)

omit [PastEnd] in
/-- `cfg::path::impossible::merge`; the heap stays as it is where the result is a null pointer. -/
def merge (c : Settings) (h : Heap g) (p q : ℕ) : Heap g :=
  match h.impossible? p, h.impossible? q with
  | some x, some y => if c.impossiblePathMerging then (h.alloc (.impossible (x.merge y))).1 else h
  | _, _ => h

/-- What is done with paths. -/
inductive Op where
  | startPossible
  | startImpossible
  | extend (p : ℕ) (branchtrue : Bool)
  | extendi (p : ℕ) (branchtrue : Bool)
  | check (p : ℕ)
  | merge (p q : ℕ)
  /-- `cfg::node::reset`, of all nodes. -/
  | reset

/-- An operation, and the heap that it leaves. -/
def step (c : Settings) (o : Outside) (h : Heap g) : Op → Except Stop (Heap g)
  | .startPossible => Prod.fst <$> do
    let x ← Possible.make [] g.startData NfpEstimator.minPacketsize c.initialState true o.fresh
    pure (h.alloc (.possible x))
  | .startImpossible => Prod.fst <$> do
    let x ← Impossible.make g.startData NfpEstimator.minPacketsize c.initialState.perf 1
    pure (h.alloc (.impossible x))
  | .extend p branchtrue => Prod.fst <$> h.extend c o p branchtrue
  | .extendi p branchtrue =>
    match h.impossible? p with
    | none => .error .undefined
    | some x => Prod.fst <$> do
      let y ← x.extendi branchtrue
      pure (h.alloc (.impossible y))
  | .check p => Prod.fst <$> h.check c o p
  | .merge p q => .ok (h.merge c p q)
  | .reset => .ok { h with satCheck := fun _ => false }

/-- The heaps that operations lead to, one after the other. -/
inductive Reachable (c : Settings) : Heap g → Prop where
  | empty : Reachable c ⟨[], fun _ => false⟩
  | step {h h' : Heap g} (o : Outside) (op : Op) : Reachable c h → h.step c o op = .ok h' → Reachable c h'

/-! ### Costs in the heap -/

/-- `max_cycles()` of an object. -/
def maxCycles (h : Heap g) (p : ℕ) : Option ℕ := h.objs[p]?.map fun x => x.charged.maxCycles

/-- `dram_cycles()` of an object. -/
def dramCycles (h : Heap g) (p : ℕ) : Option ℚ := h.objs[p]?.map fun x => x.charged.dramCycles

end Heap

/-! ### Links -/

/-- What an object remembers. -/
inductive Link where
  | succ (branchtrue : Bool)
  | asImpossible

/-- The objects stand for what they are charged, and for whether they are impossible. -/
def pathKind (g : Program) : LinkKind (PathObj g) (Bool × Charged g) Link where
  view x := (x.impossible?.isSome, x.charged)
  link x l :=
    match l with
    | .succ b => x.succ b
    | .asImpossible => x.possible?.bind Possible.asImpossible

/-- An extension is charged as it should be, and an object that takes the place of another one is impossible and
charged the same. -/
def Leads (a : Bool × Charged g) (l : Link) (a' : Bool × Charged g) : Prop :=
  match l with
  | .succ b => a.2.extend b = .ok a'.2
  | .asImpossible => a' = (true, a.2)

/-- What an operation does to the heap: all objects stay, and so do the links. -/
structure Heap.Evolves (h h' : Heap g) : Prop where
  kept : (pathKind g).Kept h.objs h'.objs
  linked : (pathKind g).Linked Leads h'.objs

namespace Heap

/-- All links are good. -/
abbrev Sound (h : Heap g) : Prop := (pathKind g).Linked Leads h.objs

section
variable {c : Settings} {o : Outside} {h h' h'' : Heap g} {p q : ℕ} {b : Bool}

theorem Sound.refl (hl : h.Sound) : h.Evolves h := ⟨.refl h.objs, hl⟩

theorem Evolves.trans (h₁ : h.Evolves h') (h₂ : h'.Evolves h'') : h.Evolves h'' :=
  ⟨h₁.kept.trans h₂.kept, h₂.linked⟩

/-- What has become of a possible path. -/
theorem Evolves.possible (he : h.Evolves h') {x : Possible g} (hx : h.possible? p = some x) :
    ∃ x', h'.possible? p = some x' ∧ (PathObj.possible x').charged = (PathObj.possible x).charged := by
  obtain ⟨y, hy, hv⟩ := he.kept p _ (possible?_eq_some.mp hx)
  cases y with
  | impossible y => exact absurd (congrArg Prod.fst hv).symm Bool.false_ne_true
  | possible y => exact ⟨y, possible?_eq_some.mpr hy, congrArg Prod.snd hv⟩

/-- An object that stands for an impossible path is one. -/
theorem impossible?_of_view {y : PathObj g} {w : Charged g} (hy : h.objs[p]? = some y)
    (hv : (pathKind g).view y = (true, w)) :
    ∃ y', h.impossible? p = some y' ∧ (PathObj.impossible y').charged = w := by
  cases y with
  | impossible y => exact ⟨y, impossible?_eq_some.mpr hy, congrArg Prod.snd hv⟩
  | possible y => exact absurd (congrArg Prod.fst hv) Bool.false_ne_true

theorem evolves_alloc (hl : h.Sound) {x : PathObj g} (hx : (pathKind g).GoodLinks Leads h.objs x) :
    h.Evolves (h.alloc x).1 :=
  ⟨LinkKind.kept_append h.objs x, hl.append hx⟩

/-- A path that has just been made remembers nothing. -/
theorem evolves_alloc_new (hl : h.Sound) {x : PathObj g} (hx : ∀ l, (pathKind g).link x l = none) :
    h.Evolves (h.alloc x).1 := evolves_alloc hl (LinkKind.goodLinks_of_none hx)

theorem getElem?_alloc (h : Heap g) (x : PathObj g) : (h.alloc x).1.objs[(h.alloc x).2]? = some x := by
  show (h.objs ++ [x])[h.objs.length]? = some x
  rw [List.getElem?_append_right le_rfl, Nat.sub_self]
  rfl

theorem getElem?_alloc_of {x y : PathObj g} (hx : h.objs[p]? = some x) : (h.alloc y).1.objs[p]? = some x :=
  (List.getElem?_append_left (List.getElem?_eq_some_iff.mp hx).1).trans hx

theorem evolves_put (hl : h.Sound) {x y : PathObj g} (hx : h.objs[p]? = some x)
    (hv : (pathKind g).view y = (pathKind g).view x) (hg : (pathKind g).GoodLinks Leads h.objs y) :
    h.Evolves (h.put p y) :=
  ⟨LinkKind.kept_set hx hv, hl.set hx hv hg⟩

/-- A path is changed, and may have forgotten some links. -/
theorem evolves_put_of_subset (hl : h.Sound) {x y : PathObj g} (hx : h.objs[p]? = some x)
    (hv : (pathKind g).view y = (pathKind g).view x)
    (hsub : ∀ l, ∀ q ∈ (pathKind g).link y l, q ∈ (pathKind g).link x l) : h.Evolves (h.put p y) :=
  evolves_put hl hx hv ((hl p x hx).of_subset hv hsub)

/-! ### Operations keep links -/

theorem evolves_mark (hl : h.Sound) {x : Possible g} (hx : h.possible? p = some x) : h.Evolves (h.mark o p x) := by
  refine evolves_put_of_subset hl (possible?_eq_some.mp hx) rfl fun l q hq => ?_
  cases l with
  | succ b =>
    have hq : (if (h.lockPossible o (x.succ b)).isSome then none else x.succ b) = some q := hq
    split at hq
    · cases hq
    · exact hq
  | asImpossible => exact hq

theorem evolves_markUnsat (hl : h.Sound) (stack : List ℕ) : h.Evolves (h.markUnsat o stack) := by
  fun_induction markUnsat o h stack with
  | case1 => exact hl.refl
  | case2 h p stack _ ih => exact ih hl
  | case3 h p stack x _ _ ih => exact ih hl
  | case4 h p stack x hx _ t f ih =>
    have hmark := evolves_mark (o := o) hl hx
    exact hmark.trans (ih hmark.linked)

theorem evolves_enableSatCheck (hl : h.Sound) (e : Edge) : h.Evolves (h.enableSatCheck c e) := by
  unfold enableSatCheck
  split_ifs
  · exact ⟨.refl h.objs, hl⟩
  · exact hl.refl

theorem evolves_applyCore (hl : h.Sound) (core : Core) (path : List ℕ) (n : Option ℕ) :
    h.Evolves (h.applyCore c o core path b n) := by
  induction path generalizing b n with
  | nil => exact hl.refl
  | cons p pred ih =>
    rw [applyCore]
    split
    · exact hl.refl
    · next x _ =>
      split
      · have henable := evolves_enableSatCheck (c := c) hl (g.nd x.s, x.branchtrue)
        exact henable.trans (evolves_markUnsat henable.linked n.toList)
      · exact ih _

theorem evolves_applyUnsatCore (hl : h.Sound) (state : DramExec) (path : List ℕ) :
    h.Evolves (h.applyUnsatCore c o state path b) := by
  unfold applyUnsatCore
  split_ifs
  · exact evolves_applyCore hl _ path none
  · exact hl.refl

/-- `to_impossible` leads to an impossible path that is charged the same. -/
theorem toImpossible_spec (hl : h.Sound) {x : Possible g} (hx : h.possible? p = some x) :
    ∃ h' q y, h.toImpossible o p = .ok (h', q) ∧ h.Evolves h' ∧ h'.impossible? q = some y ∧
      (PathObj.impossible y).charged = (PathObj.possible x).charged := by
  rw [toImpossible, hx]
  dsimp only
  cases has : x.asImpossible with
  | some q =>
    obtain ⟨y, hy, hv⟩ := hl.link (possible?_eq_some.mp hx) (b := .asImpossible) has
    obtain ⟨y', hy', hc⟩ := impossible?_of_view hy hv
    exact ⟨h, q, y', rfl, hl.refl, hy', hc⟩
  | none =>
    have hmark := evolves_markUnsat (o := o) hl [p]
    obtain ⟨x', hx', hc⟩ := hmark.possible hx
    rw [hx']
    have halloc := evolves_alloc_new hmark.linked (x := .impossible x'.toImpossible) fun l => by cases l <;> rfl
    have hp := getElem?_alloc_of (y := .impossible x'.toImpossible) (possible?_eq_some.mp hx')
    have hq := getElem?_alloc (h.markUnsat o [p]) (.impossible x'.toImpossible)
    -- the link to the new object is good, the others are as they were
    have hput := evolves_put (y := .possible { x' with asImpossible := some _ }) halloc.linked hp rfl fun l r hr => by
      cases l with
      | succ b => exact halloc.linked p _ hp (.succ b) r hr
      | asImpossible =>
        obtain rfl := Option.some.inj hr
        exact ⟨_, hq, rfl⟩
    obtain ⟨y, hy, hv⟩ := hput.kept _ _ hq
    obtain ⟨y', hy', hc'⟩ := impossible?_of_view hy hv
    exact ⟨_, _, y', rfl, hmark.trans (halloc.trans hput), hy', hc'.trans hc⟩

/-! ### What extensions are charged -/

/-- An operation leads to a path that is charged as `a` says, or ends as `a` does. -/
def Charges (h : Heap g) (a : Except Stop (Charged g)) : Except Stop (Heap g × ℕ) → Prop
  | .error e => a = .error e
  | .ok (h', q) => h.Evolves h' ∧ ∃ y ∈ h'.objs[q]?, a = .ok y.charged

theorem Charges.error (h : Heap g) (e : Stop) : h.Charges (.error e) (.error e) := rfl

/-- The operations before do not matter. -/
theorem Charges.of_evolves {a : Except Stop (Charged g)} {r : Except Stop (Heap g × ℕ)} (he : h.Evolves h')
    (hr : h'.Charges a r) : h.Charges a r := by
  cases r with
  | error e => exact hr
  | ok r => exact ⟨he.trans hr.1, hr.2⟩

/-- First come steps that are charged alike. -/
theorem Charges.bind {α β : Type} {x : Except Stop α} {y : Except Stop β} {φ : α → β} (hxy : φ <$> x = y)
    {f : β → Except Stop (Charged g)} {k : α → Except Stop (Heap g × ℕ)}
    (hk : ∀ a, h.Charges (f (φ a)) (k a)) : h.Charges (y >>= f) (x >>= k) := by
  subst hxy
  cases x with
  | error e => exact .error h e
  | ok a => exact hk a

/-- A new impossible path. -/
theorem charges_impossible (hl : h.Sound) (s : g.Entered) (minPacketsize : ℕ) (state : PerfState) (count : ℕ) :
    h.Charges (Charged.mk s <$> state.enter (g.instructions s)) (do
      let y ← Impossible.make s minPacketsize state count
      pure (h.alloc (.impossible y))) := by
  rw [Impossible.make]
  cases state.enter (g.instructions s) with
  | error e => exact .error h e
  | ok state => exact ⟨evolves_alloc_new hl fun l => by cases l <;> rfl, _, getElem?_alloc h _, rfl⟩

theorem charges_extendi (hl : h.Sound) (x : Impossible g) (b : Bool) :
    h.Charges ((PathObj.impossible x).charged.extend b) (do
      let y ← x.extendi b
      pure (h.alloc (.impossible y))) := by
  rw [Charged.extend, Impossible.extendi, PathObj.charged, bind_assoc]
  refine Charges.bind (id_map _) fun state => ?_
  dsimp only [id_eq]
  cases g.next x.s b with
  | none => exact .error h _
  | some s => exact charges_impossible hl s x.minpacketsize state x.count

theorem view_setSucc (x : PathObj g) (b : Bool) (q : Option ℕ) :
    (pathKind g).view (x.setSucc b q) = (pathKind g).view x := by cases x <;> rfl

/-- An extension that is charged as it should be can be remembered. -/
theorem goodLinks_setSucc {x y : PathObj g} (hg : (pathKind g).GoodLinks Leads h.objs x) (hy : h.objs[q]? = some y)
    (hstep : x.charged.extend b = .ok y.charged) :
    (pathKind g).GoodLinks Leads h.objs (x.setSucc b (some q)) := by
  intro l r hr
  rw [view_setSucc]
  cases l with
  | asImpossible => exact hg .asImpossible r (by cases x <;> exact hr)
  | succ b' =>
    have hsucc : (x.setSucc b (some q)).succ b' = Function.update x.succ b (some q) b' := by cases x <;> rfl
    have hr : Function.update x.succ b (some q) b' = some r := hsucc.symm.trans hr
    by_cases hb : b' = b
    · rw [hb, Function.update_self] at hr
      obtain rfl := Option.some.inj hr
      exact ⟨y, hy, hb ▸ hstep⟩
    · rw [Function.update_of_ne hb] at hr
      exact hg (.succ b') r hr

/-- The extension that is remembered is charged like a new one. -/
theorem charges_extendWith (hl : h.Sound) {x : PathObj g} (hx : h.objs[p]? = some x)
    {r : Except Stop (Heap g × ℕ)} (hr : h.Charges (x.charged.extend b) r) :
    h.Charges (x.charged.extend b) (h.extendWith o p x b r) := by
  unfold extendWith
  split
  · next q hq =>
    have hq : x.succ b = some q := (Option.filter_eq_some_iff.mp hq).1
    exact ⟨hl.refl, hl.link hx (b := .succ b) hq⟩
  · cases r with
    | error e => exact hr
    | ok r =>
      obtain ⟨h', q⟩ := r
      obtain ⟨he, y, hy, hcharged⟩ := hr
      obtain ⟨x', hx', hv⟩ := he.kept p x hx
      have hsame : x'.charged = x.charged := congrArg Prod.snd hv
      have hstep : x'.charged.extend b = .ok y.charged := by rw [hsame, hcharged]
      have hput := evolves_put he.linked hx' (view_setSucc x' b (some q))
        (goodLinks_setSucc (he.linked p x' hx') hy hstep)
      obtain ⟨z, hz, hyz⟩ := hput.kept q y hy
      show h.Charges _ (match h'.objs[p]? with | none => _ | some x => _)
      rw [Option.mem_def.mp hx']
      exact ⟨he.trans hput, z, hz, hcharged.trans (congrArg (Except.ok ∘ Prod.snd) hyz.symm)⟩

theorem charges_extendImpossible (hl : h.Sound) {x : Impossible g} (hx : h.objs[p]? = some (.impossible x)) :
    h.Charges ((PathObj.impossible x).charged.extend b) (h.extendImpossible o p x b) :=
  charges_extendWith hl hx (charges_extendi hl x b)

variable [PastEnd]

/-- A new possible path. -/
theorem charges_possible (hl : h.Sound) (pred : List ℕ) (s : g.Entered) (minPacketsize : ℕ) (state : DramExec)
    (fresh : ℕ → Fresh) :
    h.Charges (Charged.mk s <$> state.perf.enter (g.instructions s)) (do
      let y ← Possible.make pred s minPacketsize state b fresh
      pure (h.alloc (.possible y))) := by
  rw [Possible.make, ← state.enter_perf (g.loopdepth s) fresh]
  cases state.enter (g.loopdepth s) fresh (g.instructions s) with
  | error e => exact .error h e
  | ok state => exact ⟨evolves_alloc_new hl fun l => by cases l <;> rfl, _, getElem?_alloc h _, rfl⟩

omit [PastEnd] in
theorem perf_ite_checkSat (checked : Bool) (st : DramExec) (answer : Model ⊕ Core) :
    (if checked then ({ st with toExec := st.toExec.checkSat answer } : DramExec) else st).perf = st.perf := by
  split_ifs
  · exact congrArg (PerfState.mk · st.sumdramcycles) (checkSat_summaxcycles st.toExec answer)
  · rfl

/-- **A possible path's extension is charged alike, whatever is found out about it.** -/
theorem charges_extendn (hl : h.Sound) {x : Possible g} (hx : h.possible? p = some x) :
    h.Charges ((PathObj.possible x).charged.extend b) (h.extendn c o p x b) := by
  unfold extendn
  split
  · -- it was found to be impossible before
    obtain ⟨h', q, y, hto, he, hy, hcharged⟩ := toImpossible_spec (o := o) hl hx
    rw [hto, ← hcharged]
    show h.Charges _ (match h'.impossible? q with | none => _ | some y => _)
    rw [hy]
    exact (charges_extendImpossible he.linked (impossible?_eq_some.mp hy)).of_evolves he
  · rw [Charged.extend, PathObj.charged]
    refine Charges.bind (x.state.apply_perf _) fun state => ?_
    dsimp only
    cases g.next x.s b with
    | none => exact .error h _
    | some s =>
      dsimp only
      split
      · exact charges_impossible hl s _ state.perf 1
      · have hperf := perf_ite_checkSat (h.satCheckEnabled c (g.nd x.s, b)) state o.answer
        generalize (if h.satCheckEnabled c (g.nd x.s, b) then _ else state) = state' at hperf ⊢
        rw [← hperf]
        split
        · have hcore := evolves_applyUnsatCore (c := c) (o := o) (b := b) hl state' (p :: x.pred)
          exact (charges_impossible hcore.linked s _ _ 1).of_evolves hcore
        · exact charges_possible hl _ s _ _ _

/-- **Extending a path, whichever, charges what was computed.** -/
theorem charges_extend (hl : h.Sound) {x : PathObj g} (hx : h.objs[p]? = some x) :
    h.Charges (x.charged.extend b) (h.extend c o p b) := by
  rw [extend, hx]
  cases x with
  | impossible x => exact charges_extendImpossible hl hx
  | possible x => exact charges_extendWith hl hx (charges_extendn hl (possible?_eq_some.mpr hx))

/-! ### Reachable heaps -/

omit [PastEnd] in
theorem Charges.evolves {a : Except Stop (Charged g)} {r : Except Stop (Heap g × ℕ)} (hr : h.Charges a r)
    (h' : Heap g) (heq : Prod.fst <$> r = .ok h') : h.Evolves h' := by
  cases r with
  | error e => exact nomatch heq
  | ok r =>
    obtain rfl := Except.ok.inj heq
    exact hr.1

omit [PastEnd] in
theorem toImpossible_evolves (hl : h.Sound) {x : Possible g} (hx : h.possible? p = some x)
    (heq : Prod.fst <$> h.toImpossible o p = .ok h') : h.Evolves h' := by
  obtain ⟨h₁, q, y, hto, he, -, -⟩ := toImpossible_spec (o := o) hl hx
  rw [hto] at heq
  obtain rfl := Except.ok.inj heq
  exact he

omit [PastEnd] in
theorem check_evolves (hl : h.Sound) (heq : Prod.fst <$> h.check c o p = .ok h') : h.Evolves h' := by
  unfold check at heq
  split at heq
  · exact nomatch heq
  · obtain rfl := Except.ok.inj heq
    exact hl.refl
  · next x hx =>
    split at heq
    · exact toImpossible_evolves hl (possible?_eq_some.mpr hx) heq
    split at heq
    · obtain rfl := Except.ok.inj heq
      exact hl.refl
    dsimp only at heq
    have hview : (pathKind g).view (.possible { x with
        state := { x.state with toExec := x.state.toExec.checkSat o.answer } }) = (pathKind g).view (.possible x) :=
      congrArg (fun perf => (false, Charged.mk x.s perf)) (perf_ite_checkSat true x.state o.answer)
    have hput := evolves_put_of_subset hl hx hview fun l q hq => by cases l <;> exact hq
    split at heq
    · split at heq
      · exact nomatch heq
      · have hcore := evolves_applyUnsatCore (c := c) (o := o) (b := x.branchtrue) hput.linked
          { x.state with toExec := x.state.toExec.checkSat o.answer } x.pred
        have he := hput.trans hcore
        obtain ⟨x', hx', -⟩ := he.possible (possible?_eq_some.mpr hx)
        exact he.trans (toImpossible_evolves hcore.linked hx' heq)
    · obtain rfl := Except.ok.inj heq
      exact hput

omit [PastEnd] in
/-- A merged path remembers the extensions of one of the two, which are charged as its own are. -/
theorem merge_evolves (hl : h.Sound) : h.Evolves (h.merge c p q) := by
  unfold merge
  split
  · next x y hx _ =>
    split_ifs
    · have hg := hl p _ (impossible?_eq_some.mp hx)
      exact evolves_alloc hl (hg.of_subset rfl fun l r hr => by cases l <;> exact hr)
    · exact hl.refl
  · exact hl.refl

theorem step_evolves (hl : h.Sound) (op : Op) (heq : h.step c o op = .ok h') : h.Evolves h' := by
  cases op with
  | startPossible => exact (charges_possible hl [] g.startData _ c.initialState o.fresh).evolves h' heq
  | startImpossible => exact (charges_impossible hl g.startData _ c.initialState.perf 1).evolves h' heq
  | extend p b =>
    cases hx : h.objs[p]? with
    | none =>
      rw [step, extend, hx] at heq
      exact nomatch heq
    | some x => exact (charges_extend hl hx).evolves h' heq
  | extendi p b =>
    rw [step] at heq
    split at heq
    · exact nomatch heq
    · next x _ => exact (charges_extendi hl x b).evolves h' heq
  | check p => exact check_evolves hl heq
  | merge p q =>
    obtain rfl := Except.ok.inj heq
    exact merge_evolves hl
  | reset =>
    obtain rfl := Except.ok.inj heq
    exact ⟨.refl h.objs, hl⟩

/-- **All links of a reachable heap are good.** -/
theorem Reachable.sound (hr : h.Reachable c) : h.Sound := by
  induction hr with
  | empty => exact LinkKind.linked_nil
  | step o op _ heq ih => exact (step_evolves ih op heq).linked

end

end Heap

/-- **Paths are extended at the cost that was computed.** For a path in a reachable heap and an edge out of its last
block, `max_cycles(branchtrue)` and `dram_cycles(branchtrue)` are what `max_cycles()` and `dram_cycles()` of the path
that `extend(branchtrue)` returns will be; it returns none only if the DRAM cycles are not known. -/
theorem extend_costs [PastEnd] {c : Settings} {h : Heap g} (hr : h.Reachable c) {p : ℕ} {x : PathObj g}
    (hx : h.objs[p]? = some x) {b : Bool} (hb : (g.nd x.charged.s, b) ∈ g.outEdges (g.nd x.charged.s)) (o : Outside) :
    ∃ max, x.charged.maxCyclesBy b = .ok max ∧
      (fun r => (r.1.maxCycles r.2, r.1.dramCycles r.2)) <$> h.extend c o p b =
        (fun dram => (some max, some dram)) <$> x.charged.dramCyclesBy b := by
  obtain ⟨s, hs⟩ := Option.isSome_iff_exists.mp (g.isSome_next.mpr hb)
  obtain ⟨max, hmax, hextend⟩ := x.charged.extend_eq hs
  refine ⟨max, hmax, ?_⟩
  have hcharges := Heap.charges_extend (c := c) (o := o) (b := b) hr.sound hx
  rw [hextend] at hcharges
  cases hresult : h.extend c o p b with
  | error e =>
    rw [hresult] at hcharges
    cases hdram : x.charged.dramCyclesBy b with
    | error e' =>
      rw [hdram] at hcharges
      exact congrArg Except.error (Except.error.inj hcharges).symm
    | ok dram =>
      rw [hdram] at hcharges
      exact nomatch hcharges
  | ok r =>
    rw [hresult] at hcharges
    obtain ⟨-, y, hy, hcharged⟩ := hcharges
    cases hdram : x.charged.dramCyclesBy b with
    | error e' =>
      rw [hdram] at hcharged
      exact nomatch hcharged
    | ok dram =>
      rw [hdram] at hcharged
      have hy : r.1.objs[r.2]? = some y := hy
      have hcharged : y.charged = ⟨s, max, dram⟩ := (Except.ok.inj hcharged).symm
      show Except.ok (_, _) = Except.ok (some max, some dram)
      rw [Heap.maxCycles, Heap.dramCycles, hy, Option.map_some, Option.map_some, hcharged]
      rfl

/-- A branch, and a read of DRAM behind it. -/
def branchRead : Program where
  node nd :=
    match nd with
    | 0 => ⟨[.properBranch 0 .beq 2], 0, some 1, some 2, []⟩
    | 1 => ⟨[.mem 2 .gpr true .constant false none, .nop 3], 0, none, some 2, [(0, true)]⟩
    | _ => ⟨[.fin], 0, none, none, [(0, false), (1, false)]⟩
  nodes := [0, 1, 2]
  start := 0
  fin := 2
  loopFree := by decide
  ops nd :=
    match nd with
    | 0 => [.properBranch 0 .beq 2]
    | 1 => [.memRead 2 0 (.gpr ⟨.A, 0⟩) (some (.leftim 8)) (.constant 0) none 1 false none, .nop 3]
    | _ => [.fin]
  instr_ops nd := by rcases nd with _ | _ | nd <;> rfl
  minPacketsize _ := 60

/-- The flags of a call without options, with the defaults for all else. -/
def defaultSettings : Settings where
  impossiblePrefixes := true
  checkEachBranch := false
  checkUnlikelyEdges := false
  impossiblePathMerging := true
  firmware := 224
  dramFirmware := 0
  mtu := 1500
  headroom := 2 ^ 31

/-- All objects are held, and the solver refutes everything. -/
def holdAll : Outside := ⟨fun _ => true, fun k => .numbered (100 * k), .inr []⟩

/-- The branch and the read are charged, not the instruction behind it. -/
theorem extend_costs_branchRead :
    let _ : PastEnd := ⟨fun _ => true⟩
    ∃ h : Heap branchRead, h.Reachable defaultSettings ∧
      (fun r => (r.1.maxCycles r.2, r.1.dramCycles r.2)) <$> h.extend defaultSettings holdAll 0 true =
        .ok (some 229, some 4.052463035413383) := by
  intro _
  obtain ⟨x, hx, hcharged⟩ : ∃ x : Possible branchRead,
      Possible.make [] branchRead.startData NfpEstimator.minPacketsize defaultSettings.initialState true
        holdAll.fresh = .ok x ∧ (PathObj.possible x).charged = ⟨branchRead.startData, 224, 0⟩ := ⟨_, rfl, rfl⟩
  have hr : Heap.Reachable defaultSettings (g := branchRead) ⟨[.possible x], fun _ => false⟩ :=
    .step holdAll .startPossible .empty (by rw [Heap.step, hx]; rfl)
  obtain ⟨max, hmax, hcosts⟩ := extend_costs hr (p := 0) rfl (b := true) (by rw [hcharged]; decide) holdAll
  rw [hcharged] at hmax hcosts
  obtain rfl : 229 = max := Except.ok.inj hmax
  refine ⟨_, hr, hcosts.trans ?_⟩
  have hdram : (⟨branchRead.startData, 224, 0⟩ : Charged branchRead).dramCyclesBy true =
      .ok (0 + 0 + 4.052463035413383) := rfl
  rw [hdram, zero_add, zero_add]
  rfl

end Extension

end NfpEstimator
