import NfpEstimator.Cfg.Cycles

/-!
# Paths

`cfg::path` and its classes. A path that is still possible remembers the paths it
extends; an impossible one is a mere count of paths that lead to the same block
and are known not to be taken, with the cycles of one of them. `none` stands
behind all other paths and tells that there are no more.

Whether a path turns out to be impossible when it is extended or checked is
decided by the solver, and comes in as an argument here.
-/

namespace NfpEstimator

/-! ### Cycle counts -/

/-- `cfg::path::withstate`: the `succ_data` by which the last block was entered, and
of the state its cycle count. -/
structure WithState where
  s : Entry
  summaxcycles : ℕ
  deriving DecidableEq

namespace WithState

variable (g : Cfg) (d : Instructions)

/-- The constructor of `cfg::path::withstate`. -/
def make (s : Entry) (summaxcycles : ℕ) : WithState := ⟨s, wrap32 (summaxcycles + blockCycles (d s))⟩

/-- `cfg::path::withstate::max_cycles()`. -/
def maxCycles (w : WithState) : ℕ := w.summaxcycles

/-- `this->s.nd->succ(branchtrue)`. -/
def next (w : WithState) (branchtrue : Bool) : Entry :=
  (g.target w.s).map fun nd => (nd, branchtrue)

/-- `cfg::path::withstate::max_cycles(branchtrue)`. -/
def maxCyclesBy (w : WithState) (branchtrue : Bool) : ℕ :=
  wrap32 (w.summaxcycles + lastCycles (d w.s) branchtrue + blockCycles (d (w.next g branchtrue)))

/-- `cfg::path::impossible::extendi`, and what `cfg::path::possible::extendn` does to
the cycle count. -/
def extend (w : WithState) (branchtrue : Bool) : WithState :=
  make d (w.next g branchtrue) (wrap32 (w.summaxcycles + lastCycles (d w.s) branchtrue))

/-- The path is extended along some edges. -/
def extendAlong (w : WithState) (es : List Edge) : WithState :=
  es.foldl (fun w e => w.extend g d e.2) w

end WithState

/-- The path to the start of the program. -/
def Cfg.startPath (g : Cfg) (firmware : ℕ) : WithState :=
  WithState.make g.overestimateCycles none firmware

/-- The path from the start of the program along some edges. -/
def Cfg.pathAlong (g : Cfg) (firmware : ℕ) (es : List Edge) : WithState :=
  (g.startPath firmware).extendAlong g g.overestimateCycles es

/-! ### Paths and walks -/

section

variable {g : Cfg} {d : Instructions}

theorem WithState.extend_maxCycles (w : WithState) (b : Bool) :
    (w.extend g d b).maxCycles = w.maxCyclesBy g d b := wrap32_add_left _ _

theorem pathAlong_append_singleton (firmware : ℕ) (es : List Edge) (e : Edge) :
    g.pathAlong firmware (es ++ [e]) =
      (g.pathAlong firmware es).extend g g.overestimateCycles e.2 := by
  rw [Cfg.pathAlong, WithState.extendAlong, List.foldl_append]
  rfl

/-- A walk is empty or ends with an edge. -/
theorem Cfg.Walk.last {src dst : ℕ} {es : List Edge} (h : g.Walk src es dst) :
    es = [] ∧ src = dst ∨
      ∃ es' e, es = es' ++ [e] ∧ g.Walk src es' e.1 ∧ g.succ e.1 e.2 = some dst := by
  rcases List.eq_nil_or_concat es with rfl | ⟨es', e, rfl⟩
  · exact .inl ⟨rfl, h⟩
  · rw [List.concat_eq_append] at h ⊢
    obtain ⟨mid, h₁, he, s, hs, hd⟩ := h.of_append
    exact .inr ⟨es', e, rfl, he ▸ h₁, (show s = dst from hd) ▸ hs⟩

/-- The block that a path along a walk has come to. -/
theorem target_pathAlong (firmware : ℕ) {es : List Edge} {nd : ℕ} (h : g.Walk g.start es nd) :
    g.target (g.pathAlong firmware es).s = some nd := by
  induction es using List.reverseRecOn generalizing nd with
  | nil => exact congrArg some (show g.start = nd from h)
  | append_singleton es e ih =>
    obtain ⟨mid, h₁, he, s, hs, hd⟩ := h.of_append
    rw [pathAlong_append_singleton]
    show g.target ((g.target _).map _) = _
    rw [ih h₁, ← he]
    exact hs.trans (congrArg some hd)

theorem pathAlong_mem_entries (hg : g.LoopFree) (firmware : ℕ) {es : List Edge} {nd : ℕ}
    (hw : g.Walk g.start es nd) : (g.pathAlong firmware es).s ∈ g.entries := by
  rcases hw.last with ⟨rfl, rfl⟩ | ⟨es', e, rfl, hw', hs⟩
  · exact List.mem_cons_self
  · rw [pathAlong_append_singleton]
    show (g.target _).map _ ∈ _
    rw [target_pathAlong firmware hw']
    refine List.mem_cons_of_mem _ (List.mem_map_of_mem (List.mem_flatMap.mpr ⟨e.1, ?_, ?_⟩))
    · exact hw'.mem hg hg.start_mem
    · exact (g.mem_outEdges).mpr ⟨rfl, Option.isSome_iff_exists.mpr ⟨nd, hs⟩⟩

/-- The `succ_data` by which a path along a walk has entered its last block. -/
theorem s_pathAlong (firmware : ℕ) {es : List Edge} {nd : ℕ} (h : g.Walk g.start es nd) :
    (g.pathAlong firmware es).s = (es.map some).getLastD none := by
  rcases h.last with ⟨rfl, -⟩ | ⟨es', e, rfl, hw', -⟩
  · rfl
  · rw [pathAlong_append_singleton, List.map_append, List.map_singleton, List.getLastD_concat]
    show (g.target _).map _ = _
    rw [target_pathAlong firmware hw']
    rfl

end

/-! ### Counts that do not wrap around -/

theorem Instructions.charge_append_singleton (d : Instructions) (s : Entry) (es : List Edge) (e : Edge) :
    d.charge s (es ++ [e]) =
      d.charge s es + lastCycles (d ((es.map some).getLastD s)) e.2 + blockCycles (d (some e)) := by
  induction es generalizing s with
  | nil => rfl
  | cons e' es ih =>
    rw [List.cons_append, charge, ih, charge, List.map_cons, List.getLastD_cons]
    omega

/-- What a path is charged, wrapped around. -/
theorem pathAlong_maxCycles {g : Cfg} (firmware : ℕ) {es : List Edge} {nd : ℕ} (hw : g.Walk g.start es nd) :
    (g.pathAlong firmware es).maxCycles = wrap32 (firmware + g.overestimateCycles.charge none es) := by
  induction es using List.reverseRecOn generalizing nd with
  | nil => rfl
  | append_singleton es e ih =>
    obtain ⟨mid, hw', rfl, -⟩ := hw.of_append
    rw [pathAlong_append_singleton, WithState.extend_maxCycles, WithState.maxCyclesBy, WithState.next,
      target_pathAlong firmware hw', s_pathAlong firmware hw', Instructions.charge_append_singleton,
      Nat.add_assoc]
    have ih : (g.pathAlong firmware es).summaxcycles = _ := ih hw'
    rw [ih, wrap32_add_left]
    simp only [Option.map_some, Nat.add_assoc]

/-- No count of a path wraps around. -/
def Cfg.Fits (g : Cfg) (firmware : ℕ) : Prop :=
  ∀ es nd, g.Walk g.start es nd → firmware + g.overestimateCycles.charge none es < 2 ^ 32

section

variable {g : Cfg} (hg : g.LoopFree) {firmware : ℕ}

/-- The count of an extended path is that of the path and what is added to it. -/
theorem Cfg.Fits.maxCyclesBy_eq (hfits : g.Fits firmware) {es : List Edge} {e : Edge} {t : ℕ}
    (hw : g.Walk g.start es e.1) (hs : g.succ e.1 e.2 = some t) :
    (g.pathAlong firmware es).maxCyclesBy g g.overestimateCycles e.2 =
      (g.pathAlong firmware es).maxCycles + lastCycles (g.overestimateCycles (g.pathAlong firmware es).s) e.2 +
        blockCycles (g.overestimateCycles (some e)) := by
  have hw' : g.Walk g.start (es ++ [e]) t := hw.append (walk_single hs)
  rw [← WithState.extend_maxCycles, ← pathAlong_append_singleton, pathAlong_maxCycles firmware hw',
    pathAlong_maxCycles firmware hw, wrap32_of_lt (hfits _ _ hw'), wrap32_of_lt (hfits _ _ hw),
    Instructions.charge_append_singleton, s_pathAlong firmware hw]
  omega

include hg

/-- Whatever the last instruction of a block before the end is, it takes time. -/
theorem Cfg.Fits.maxCyclesBy_pos (hfits : g.Fits firmware) {es : List Edge} {e : Edge} {t : ℕ}
    (hw : g.Walk g.start es e.1) (hs : g.succ e.1 e.2 = some t) :
    0 < (g.pathAlong firmware es).maxCyclesBy g g.overestimateCycles e.2 := by
  have ht := target_pathAlong firmware hw
  obtain ⟨-, l, -, hl⟩ := overestimateCycles_ends hg (pathAlong_mem_entries hg firmware hw) ht
  have hmem : l.n ∈ g.instrs e.1 := by
    rw [← map_n_overestimateCycles ht]
    exact List.mem_map_of_mem (List.mem_of_getLast? hl)
  have hfin : e.1 ≠ g.fin := by
    intro heq
    rw [heq, hg.succ_fin] at hs
    cases hs
  have hlast : 0 < lastCycles (g.overestimateCycles (g.pathAlong firmware es).s) e.2 := by
    rw [lastCycles, Option.mem_def.mp hl]
    exact perfCycles_pos (hg.type_ne_fin e.1 (hw.mem hg hg.start_mem) hfin l.n hmem) l.i e.2
  rw [hfits.maxCyclesBy_eq hw hs]
  omega

/-- Where each block takes at most `c` cycles, a path takes at most `c` for each of its blocks. -/
theorem charge_le {c : ℕ} (hc : ∀ s ∈ g.entries, ∀ b,
      blockCycles (g.overestimateCycles s) + lastCycles (g.overestimateCycles s) b ≤ c)
    {s : Entry} (hs : s ∈ g.entries) {nd dst : ℕ} (ht : g.target s = some nd) {es : List Edge}
    (hw : g.Walk nd es dst) : g.overestimateCycles.charge s es ≤ (es.length + 1) * c := by
  induction es generalizing s nd with
  | nil =>
    have := hc s hs false
    rw [Instructions.charge, List.length_nil, Nat.zero_add, Nat.one_mul]
    omega
  | cons e es ih =>
    obtain ⟨rfl, nd', hnd', hrest⟩ := hw
    have hout : e ∈ g.outOf s := by
      rw [Cfg.outOf, ht]
      exact (g.mem_outEdges).mpr ⟨rfl, Option.isSome_iff_exists.mpr ⟨nd', hnd'⟩⟩
    have hle := ih (mem_entries_of_outOf hg hs hout) hnd' hrest
    have := hc s hs e.2
    rw [Instructions.charge, List.length_cons, Nat.add_mul _ 1, Nat.one_mul]
    omega

/-- A path comes to no block twice. -/
theorem fits_of_le {c : ℕ} (hc : ∀ s ∈ g.entries, ∀ b,
      blockCycles (g.overestimateCycles s) + lastCycles (g.overestimateCycles s) b ≤ c)
    (hfits : firmware + g.nodes.length * c < 2 ^ 32) : g.Fits firmware := by
  intro es nd hw
  have hlen : es.length + 1 ≤ g.nodes.length := by
    have hle := hw.idxOf_le hg hg.start_mem
    have hlt := List.idxOf_lt_length_of_mem (hw.mem hg hg.start_mem)
    omega
  have hcharge := charge_le hg hc List.mem_cons_self rfl hw
  have hmul := Nat.mul_le_mul_right c hlen
  omega

end

/-! ### The classes of `cfg::path` -/

/-- `cfg::path::impossible`. -/
structure Impossible extends WithState where
  count : ℕ
  /-- The paths that it counts; the source does not keep them. -/
  members : List (List Edge)
  length_members : members.length = count
  count_pos : 0 < count
  deriving DecidableEq

namespace Impossible

/-- An impossible path with the count 1, as it comes from a possible one. -/
def single (w : WithState) (edges : List Edge) : Impossible where
  toWithState := w
  count := 1
  members := [edges]
  length_members := rfl
  count_pos := Nat.one_pos

/-- `cfg::path::impossible::extendi`. -/
def extendi (g : Cfg) (d : Instructions) (branchtrue : Bool) (p : Impossible) : Impossible where
  toWithState := p.toWithState.extend g d branchtrue
  count := p.count
  members := p.members.map (· ++ (p.next g branchtrue).toList)
  length_members := (List.length_map _).trans p.length_members
  count_pos := p.count_pos

/-- `cfg::path::impossible::merge`, with another impossible path. -/
def merge (p o : Impossible) : Impossible where
  toWithState := p.toWithState
  count := p.count + o.count
  members := p.members ++ o.members
  length_members := by rw [List.length_append, p.length_members, o.length_members]
  count_pos := Nat.add_pos_left p.count_pos _

theorem merge_assoc (p o r : Impossible) : (p.merge o).merge r = p.merge (o.merge r) := by
  simp only [merge, Nat.add_assoc, List.append_assoc]

end Impossible

/-- `cfg::path`. -/
inductive Path where
  | none
  | impossible (p : Impossible)
  /-- The edges are those of the paths that `pred` leads to. -/
  | possible (w : WithState) (edges : List Edge)
  deriving DecidableEq

/-- `std::numeric_limits<std::size_t>::max()`. -/
def sizeMax : ℕ := 2 ^ 64 - 1

namespace Path

/-- `size`: how many paths it stands for. -/
def size : Path → ℕ
  | none => sizeMax
  | impossible p => p.count
  | possible _ _ => 1

/-- `is_none`. -/
def isNone : Path → Bool
  | none => true
  | _ => false

/-- The block that the path has come to, and its cycle count. -/
def state : Path → Option WithState
  | none => Option.none
  | impossible p => some p.toWithState
  | possible w _ => some w

/-- `max_cycles()`. -/
def maxCycles : Path → ℕ
  | none => 0
  | impossible p => p.toWithState.maxCycles
  | possible w _ => w.maxCycles

/-- `max_cycles(branchtrue)`. -/
def maxCyclesBy (g : Cfg) (d : Instructions) : Path → Bool → ℕ
  | none, _ => 0
  | impossible p, branchtrue => p.toWithState.maxCyclesBy g d branchtrue
  | possible w _, branchtrue => w.maxCyclesBy g d branchtrue

/-- `is_unsat`; `sat` tells whether a possible path is not known to be impossible. -/
def isUnsat (sat : Bool) : Path → Bool
  | none => false
  | impossible _ => true
  | possible _ _ => !sat

/-- `extend`; `sat` tells whether the extension of a possible path is possible. -/
def extend (g : Cfg) (d : Instructions) (sat branchtrue : Bool) : Path → Path
  | none => none
  | impossible p => impossible (p.extendi g d branchtrue)
  | possible w edges =>
    let w' := w.extend g d branchtrue
    let edges' := edges ++ (w.next g branchtrue).toList
    if sat then possible w' edges' else impossible (.single w' edges')

/-- `check`; `sat` tells whether a possible path is found to be possible. -/
def check (sat : Bool) : Path → Path
  | none => none
  | impossible p => impossible p
  | possible w edges => if sat then possible w edges else impossible (.single w edges)

/-- `merge`; a null pointer is `none`. -/
def merge : Path → Path → Option Path
  | none, none => some none
  | impossible p, impossible o => some (impossible (p.merge o))
  | _, _ => Option.none

/-- The paths that a path object stands for. -/
def accounted : Path → List (List Edge)
  | none => []
  | impossible p => p.members
  | possible _ edges => [edges]

theorem size_pos (p : Path) : 0 < p.size := by
  cases p with
  | none => decide
  | impossible p => exact p.count_pos
  | possible w edges => exact Nat.one_pos

/-- Whatever is not `none` counts the paths that it stands for. -/
theorem length_accounted {p : Path} (h : p.isNone = false) : p.accounted.length = p.size := by
  cases p with
  | none => exact nomatch h
  | impossible p => exact p.length_members
  | possible w edges => rfl

variable (g : Cfg) (d : Instructions)

@[simp] theorem isNone_extend (sat b : Bool) (p : Path) :
    (p.extend g d sat b).isNone = p.isNone := by
  cases p with
  | none | impossible p => rfl
  | possible w edges => cases sat <;> rfl

@[simp] theorem state_extend (sat b : Bool) (p : Path) :
    (p.extend g d sat b).state = p.state.map fun w => w.extend g d b := by
  cases p with
  | none | impossible p => rfl
  | possible w edges => cases sat <;> rfl

theorem accounted_extend (sat b : Bool) {p : Path} {w : WithState} (hw : p.state = some w) :
    (p.extend g d sat b).accounted = p.accounted.map (· ++ (w.next g b).toList) := by
  cases p with
  | none => exact nomatch hw
  | impossible p =>
    obtain rfl := Option.some.inj hw
    rfl
  | possible w' edges =>
    obtain rfl := Option.some.inj hw
    cases sat <;> rfl

@[simp] theorem accounted_check (sat : Bool) (p : Path) : (p.check sat).accounted = p.accounted := by
  cases p with
  | none | impossible p => rfl
  | possible w edges => cases sat <;> rfl

@[simp] theorem state_check (sat : Bool) (p : Path) : (p.check sat).state = p.state := by
  cases p with
  | none | impossible p => rfl
  | possible w edges => cases sat <;> rfl

@[simp] theorem isNone_check (sat : Bool) (p : Path) : (p.check sat).isNone = p.isNone := by
  cases p with
  | none | impossible p => rfl
  | possible w edges => cases sat <;> rfl

variable {g d}

theorem isNone_iff {p : Path} : p.isNone = true ↔ p = none := by
  cases p <;> simp [isNone]

theorem isNone_iff_state {p : Path} : p.isNone = true ↔ p.state = Option.none := by
  cases p <;> simp [isNone, state]

theorem maxCycles_eq {p : Path} {w : WithState} (hw : p.state = some w) :
    p.maxCycles = w.maxCycles := by
  cases p with
  | none => exact nomatch hw
  | impossible _ | possible _ _ =>
    obtain rfl := Option.some.inj hw
    rfl

theorem maxCyclesBy_eq {p : Path} {w : WithState} (hw : p.state = some w) (b : Bool) :
    p.maxCyclesBy g d b = w.maxCyclesBy g d b := by
  cases p with
  | none => exact nomatch hw
  | impossible _ | possible _ _ =>
    obtain rfl := Option.some.inj hw
    rfl

/-- Only `none` merges with `none`, and only impossible paths with each other. -/
theorem merge_eq_some {p o m : Path} (h : p.merge o = some m) :
    p = none ∧ o = none ∧ m = none ∨
      ∃ i j, p = impossible i ∧ o = impossible j ∧ m = impossible (i.merge j) := by
  cases p <;> cases o <;> simp [merge] at h
  · exact .inl ⟨rfl, rfl, h.symm⟩
  · exact .inr ⟨_, _, rfl, rfl, h.symm⟩

end Path

end NfpEstimator
