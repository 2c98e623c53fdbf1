import NfpEstimator.Cfg.Pathq

/-!
# Enumerating paths by packet rate

`cfg::enumerate_by_packetrate` for a single metric. Every edge has a queue of paths
that have come to the node it leaves and are still to be extended along it, and a
second queue for paths that were found when the other edge out of this node was
served. `cfg::next_k` asks for the next `k` paths to the end of the program. It walks
back along the edges with the shortest queues until it comes to queues that are long
enough, and from there on fills the queues again, always taking the path with the
highest predicted cost of all edges into a node. Between two batches
`cfg::push_impossible` moves impossible paths at the front of the queues ahead.

The answers of the solver are a sequence that each extension and each check takes one
element of. `fuel` bounds the iterations of the loops that nothing else bounds.
-/

namespace NfpEstimator

/-! ### The queues -/

/-- What has a queue of its own as a `cfg::node::pred_data`: an edge, or the output
of `cfg::next_k`. -/
inductive Slot where
  | output
  | edge (e : Edge)
  deriving DecidableEq

namespace Slot

/-- `cfg::node::pred_data::nd`. -/
def nd (g : Cfg) : Slot → ℕ
  | output => g.fin
  | edge e => e.1

/-- `cfg::node::pred_data::branchtrue`. -/
def branchtrue : Slot → Bool
  | output => true
  | edge e => e.2

end Slot

/-- The state of the enumeration. -/
structure Queues where
  /-- `cfg::node::pred_data::q`. -/
  q : Slot → Pathq
  /-- `cfg::succ_data::q`. -/
  staging : Edge → Pathq
  /-- `cfg::node::pred_begin`, as the number of a predecessor. -/
  predBegin : ℕ → ℕ
  /-- What the solver is going to answer. -/
  answers : ℕ → Bool

namespace Queues

variable (g : Cfg)

/-- The queue of a slot is replaced. -/
def setQ (st : Queues) (sl : Slot) (q : Pathq) : Queues :=
  { st with q := Function.update st.q sl q }

/-- The queue that is left for an edge is replaced. -/
def setStaging (st : Queues) (e : Edge) (q : Pathq) : Queues :=
  { st with staging := Function.update st.staging e q }

/-- The next answer of the solver is used up. -/
def answered (st : Queues) : Queues := { st with answers := fun n => st.answers (n + 1) }

/-- `cfg::node::qtake`. -/
def qtake (st : Queues) (e : Edge) : Pathq × Queues :=
  if (g.succ e.1 e.2).isSome then (st.staging e, st.setStaging e .empty) else (.empty, st)

/-- `cfg::node::qpush`. -/
def qpush (st : Queues) (nd : ℕ) (branchtrue : Bool) (q : Pathq) : Queues :=
  if (g.succ nd branchtrue).isSome then
    st.setStaging (nd, branchtrue) ((st.staging (nd, branchtrue)).push q)
  else st

/-- The paths that the other edge has left for `e` are appended to the queue of `e`. -/
def absorb (st : Queues) (e : Edge) : Queues :=
  let (q, st) := st.qtake g e
  st.setQ (.edge e) ((st.q (.edge e)).pushMove q)

/-- The paths that have come to a node are left for the other edge, and appended to
the queue they were asked for. -/
def deliver (st : Queues) (sl : Slot) (q : Pathq) : Queues :=
  let st := st.qpush g (sl.nd g) (!sl.branchtrue) q
  st.setQ sl ((st.q sl).pushMove q)

/-- The queues before the first batch. -/
def init (firmware : ℕ) (answers : ℕ → Bool) : Queues :=
  let start := Pathq.ofList [.possible (g.startPath firmware) [], .none]
  let st : Queues :=
    { q := fun _ => .empty, staging := fun _ => .empty, predBegin := fun _ => 0, answers }
  (st.qpush g g.start true start).qpush g g.start false start

end Queues

/-! ### Choosing an edge -/

/-- `std::min_element`: the first element with the least value. -/
def minElement {α : Type*} (f : α → ℕ) : List α → Option α
  | [] => none
  | x :: xs => some (xs.foldl (fun m y => if f y < f m then y else m) x)

/-- `cfg::node::shortest_q`; without predecessors it refers to an empty queue. -/
def Queues.shortestQ (g : Cfg) (st : Queues) (nd : ℕ) : Option Edge :=
  minElement (fun e => (st.q (.edge e)).size) (g.pred nd)

/-- The size of the queue that `cfg::node::shortest_q` refers to. -/
def Queues.shortestSize (g : Cfg) (st : Queues) (nd : ℕ) : ℕ :=
  match st.shortestQ g nd with
  | none => 0
  | some e => (st.q (.edge e)).size

/-- `cfg::path::MAX_CYCLES`, of a path and a branch. -/
def MAX_CYCLES (g : Cfg) (d : Instructions) : Option Path → Bool → ℕ
  | none, _ => 0
  | some p, branchtrue => p.maxCyclesBy g d branchtrue

section

variable {γ : Type*} [LinearOrder γ] (g : Cfg) (d : Instructions) (S : Option Path → Bool → γ)

/-- What the metric says of the first path in the queue of an edge. -/
def Queues.frontCost (st : Queues) (e : Edge) : γ := S (st.q (.edge e)).front e.2

/-- `cfg::node::q_with_longest_path`. The search starts at `pred_begin`, and the next
one will start behind the edge that is found. -/
def Queues.qWithLongestPath (st : Queues) (nd : ℕ) : Option (Edge × Queues) :=
  let ps := g.pred nd
  let begin := st.predBegin nd
  match ps.drop begin ++ ps.take begin with
  | [] => none
  | l :: rest =>
    let m := rest.foldl (fun l i => if st.frontCost S l < st.frontCost S i then i else l) l
    let next := ps.idxOf m + 1
    some (m, { st with
      predBegin := Function.update st.predBegin nd (if next = ps.length then 0 else next) })

/-! ### The next paths -/

/-- The inner loop of `cfg::next_k`: paths are taken from the edges into `nd` until the
size `i` has come to `k`. -/
def fillLoop (nd k : ℕ) : ℕ → ℕ → Pathq → Queues → Option (Pathq × Queues)
  | 0, i, q, st => if i < k then none else some (q, st)
  | fuel + 1, i, q, st =>
    if i < k then do
      let (m, st) ← st.qWithLongestPath g S nd
      let (p, r) ← (st.q (.edge m)).take
      let px := p.extend g d (st.answers 0) m.2
      fillLoop nd k fuel (sizetAdd i p.size) (q.pushMove (.ofList [px]))
        ((st.setQ (.edge m) r).answered)
    else some (q, st)

/-- What `cfg::next_k` keeps on its stack: a queue, and the size that is asked of it. -/
structure Frame where
  slot : Slot
  k : ℕ

/-- The body of the second inner loop of `cfg::next_k`. -/
def fill (e : Frame) (st : Queues) : Option Queues := do
  let i := (st.q e.slot).size
  let (q, st) ← fillLoop g d S (e.slot.nd g) e.k (e.k - i) i .empty st
  some (st.deliver g e.slot q)

/-- The body of the first inner loop of `cfg::next_k`. -/
def descend (e : Frame) (st : Queues) : Option (Frame × Queues) :=
  match st.shortestQ g (e.slot.nd g) with
  | none => none
  | some pr =>
    let st := st.absorb g pr
    some (⟨.edge pr, e.k - (st.q e.slot).size⟩, st)

/-- The loops of `cfg::next_k`, from where the condition is tested. -/
def nextKLoop : ℕ → Frame → List Frame → Queues → Option Queues
  | 0, _, _, _ => none
  | fuel + 1, e, stack, st =>
    if sizetAdd (st.shortestSize g (e.slot.nd g)) (st.q e.slot).size < e.k then do
      let (e', st) ← descend g e st
      nextKLoop fuel e' (e :: stack) st
    else do
      let st ← fill g d S e st
      match stack with
      | [] => some st
      | e :: stack => nextKLoop fuel e stack st

/-- `cfg::next_k`. The queue `output` only exists while it runs. -/
def nextK (fuel k : ℕ) (st : Queues) : Option (Pathq × Queues) := do
  let e : Frame := ⟨.output, k⟩
  let (e', st) ← descend g e (st.setQ .output .empty)
  let st ← nextKLoop g d S fuel e' [e] st
  some (st.q .output, st.setQ .output .empty)

/-! ### Between two batches -/

/-- The inner loop of `cfg::push_impossible`. -/
def impossibleLoop (nd : ℕ) : ℕ → Pathq → Queues → Option (Pathq × Queues)
  | 0, _, _ => none
  | fuel + 1, q, st =>
    if st.shortestSize g nd = 0 then some (q, st)
    else do
      let (m, st) ← st.qWithLongestPath g S nd
      let (p, r) ← (st.q (.edge m)).take
      if !p.isUnsat (st.answers 0) then some (q, st.answered)
      else
        let px := p.extend g d (st.answers 1) m.2
        impossibleLoop nd fuel (q.pushMove (.ofList [px])) ((st.setQ (.edge m) r).answered.answered)

/-- The body of the loops of `cfg::push_impossible`. -/
def pushImpossibleTo (fuel : ℕ) (st : Queues) (pr : Edge) : Option Queues := do
  let (q, st) ← impossibleLoop g d S pr.1 fuel .empty (st.absorb g pr)
  some (st.deliver g (.edge pr) q)

/-- `cfg::push_impossible`. -/
def pushImpossible (fuel : ℕ) (st : Queues) : Option Queues :=
  g.nodes.foldlM (fun st nd => (g.pred nd).foldlM (pushImpossibleTo g d S fuel) st) st

/-! ### The enumeration -/

/-- Each path of a batch is checked. -/
def checkAll : List Path → Queues → List Path × Queues
  | [], st => ([], st)
  | p :: ps, st =>
    let (rs, st') := checkAll ps st.answered
    (p.check (st.answers 0) :: rs, st')

/-- `cfg::report_path` counts the possible paths. -/
def nextIndex (index : ℕ) : Path → ℕ
  | .possible _ _ => index + 1
  | _ => index

/-- The number of paths reported after a batch, and whether the enumeration is done. -/
def reportAll (count : ℕ) : ℕ → Bool → List Path → ℕ × Bool
  | index, done, [] => (index, done)
  | index, done, p :: ps =>
    let index := nextIndex index p
    reportAll count index (done || decide (count ≤ index) || p.isNone) ps

/-- The size of a batch. -/
abbrev Batch := {k : ℕ // 1 ≤ k ∧ k ≤ sizeMax}

/-- The loop of `cfg::enumerate_by_packetrate` over the batches `ks`: all that is reported. -/
def enumerateLoop (fuel count : ℕ) : List Batch → ℕ → Queues → Option (List Path)
  | [], _, _ => some []
  | k :: ks, index, st => do
    let (q, st) ← nextK g d S fuel k st
    let (rs, st) := checkAll q.paths st
    let (index, done) := reportAll count index false rs
    let st ← pushImpossible g d S fuel st
    if done then some rs
    else do
      let rs' ← enumerateLoop fuel count ks index st
      some (rs ++ rs')

end

/-- `cfg::enumerate_by_packetrate<MAX_CYCLES>`. -/
def Cfg.enumerateByPacketrate (g : Cfg) (firmware fuel count : ℕ) (ks : List Batch)
    (answers : ℕ → Bool) : Option (List Path) :=
  let d := g.overestimateCycles
  if count = 0 then some []
  else enumerateLoop g d (MAX_CYCLES g d) fuel count ks 0 (.init g firmware answers)

end NfpEstimator
