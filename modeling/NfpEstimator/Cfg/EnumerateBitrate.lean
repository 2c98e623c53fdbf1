import NfpEstimator.Cfg.Enumerate
import NfpEstimator.Cfg.Tpathq
import NfpEstimator.State.Exec

/-!
# Enumerating paths by bit rate

`cfg::enumerate_by_bitrate` for a single metric. It works like `cfg::enumerate_by_packetrate`,
with a queue for each packet size of an edge in place of the one queue. The next paths are
asked for each packet size by itself, as many as are missing from those that have been found
and that no path of this size to come exceeds.

What has come to the end of the program is collected in a `cfg::tpathq`, and reported from
there once it is decided.
-/

namespace NfpEstimator

/-! ### The queues -/

/-- The state of the enumeration. -/
structure Mqueues where
  /-- `cfg::node::pred_data::mq`. -/
  mq : Slot → Mpathq
  /-- `cfg::succ_data::mq`. -/
  staging : Edge → Mpathq
  /-- `cfg::node::pred_begin`, as the number of a predecessor. -/
  predBegin : ℕ → ℕ
  /-- What the solver is going to answer. -/
  answers : ℕ → Answer

namespace Mqueues

section

variable (g : Cfg) (sizes : Edge → Sizev)

/-- The queues of a slot are replaced. -/
def setMq (st : Mqueues) (sl : Slot) (mq : Mpathq) : Mqueues :=
  { st with mq := Function.update st.mq sl mq }

/-- The queues that are left for an edge are replaced. -/
def setStaging (st : Mqueues) (e : Edge) (mq : Mpathq) : Mqueues :=
  { st with staging := Function.update st.staging e mq }

/-- The next answer of the solver is used up. -/
def answered (st : Mqueues) : Mqueues := { st with answers := fun n => st.answers (n + 1) }

/-- `cfg::node::mqtake`. -/
def mqtake (st : Mqueues) (e : Edge) : Mpathq × Mqueues :=
  if (g.succ e.1 e.2).isSome then (st.staging e, st.setStaging e (.ofSizes (sizes e)))
  else (.ofSizes (.zero ℕ ℕ), st)

/-- `cfg::node::mqpush(bool, const pathq&)`. -/
def mqpush (st : Mqueues) (nd : ℕ) (branchtrue : Bool) (q : List SizedPath) : Mqueues :=
  if (g.succ nd branchtrue).isSome then
    st.setStaging (nd, branchtrue) ((st.staging (nd, branchtrue)).pushAll fun _ => q)
  else st

/-- `cfg::node::mqpush(bool, const pathq&, std::uint32_t)`. -/
def mqpushAt (st : Mqueues) (nd : ℕ) (branchtrue : Bool) (q : List SizedPath) (s : ℕ) : Mqueues :=
  if (g.succ nd branchtrue).isSome then
    st.setStaging (nd, branchtrue) ((st.staging (nd, branchtrue)).pushAt q s)
  else st

/-- The paths that the other edge has left for `e` are appended to the queues of `e`. -/
def absorb (st : Mqueues) (e : Edge) : Mqueues :=
  let (mq, st) := st.mqtake g sizes e
  st.setMq (.edge e) ((st.mq (.edge e)).pushAll mq.q)

/-- The paths that have come to a node are left for the other edge, and appended to
the queue they were asked for. -/
def deliver (st : Mqueues) (sl : Slot) (q : List SizedPath) (s : ℕ) : Mqueues :=
  let st := st.mqpushAt g (sl.nd g) (!sl.branchtrue) q s
  st.setMq sl ((st.mq sl).pushAt q s)

/-- The queues before the first batch. -/
def init (firmware : ℕ) (answers : ℕ → Answer) : Mqueues :=
  let start : List SizedPath :=
    [⟨.possible (g.startPath firmware) [], minPacketsize, false⟩, ⟨.none, minPacketsize, true⟩]
  let st : Mqueues :=
    { mq := fun
        | .output => .ofSizes (.zero ℕ ℕ)
        | .edge e => .ofSizes (sizes e)
      staging := fun e => .ofSizes (sizes e)
      predBegin := fun _ => 0
      answers }
  (st.mqpush g g.start true start).mqpush g g.start false start

end

/-! ### Choosing an edge -/

/-- `cfg::node::shortest_mq`: the first edge with too short a queue, and the sizes of the
shortest queues. -/
def shortestMq (g : Cfg) (st : Mqueues) (nd : ℕ) (v : Sizev) : Option Edge × Sizev :=
  let prs := fun s => minElement (fun e => (st.mq (.edge e)).size s) (g.pred nd)
  let prss := fun s => ((prs s).map fun e => (st.mq (.edge e)).size s).getD 0
  (v.entries.findSome? fun x => (prs x.1).filter fun _ => prss x.1 < x.2, Sparse.restrict prss v)

section

variable {γ : Type*} [LinearOrder γ] (g : Cfg) (d : Instructions) (minPacketsize : Edge → ℕ)
  (S : Option Path → Bool → γ) (sizes : Edge → Sizev)

/-- What the metric says of the first path of a size in the queue of an edge. -/
def frontCost (st : Mqueues) (s : ℕ) (e : Edge) : γ :=
  S (((st.mq (.edge e)).front s).map SizedPath.path) e.2

/-- There is a path of the size in the queue of the edge. -/
def hasFront (st : Mqueues) (s : ℕ) (e : Edge) : Bool := ((st.mq (.edge e)).front s).isSome

/-- `cfg::node::q_with_longest_path(std::uint32_t)`. The search starts at the first queue behind
`pred_begin` with a path of the size, and passes over the queues without one. -/
def qWithLongestPath (st : Mqueues) (nd s : ℕ) : Option (Edge × Mqueues) :=
  let ps := g.pred nd
  let begin := st.predBegin nd
  match (ps.drop begin ++ ps.take begin).find? (st.hasFront s) with
  | none => none
  | some l =>
    let m := (ps.drop (ps.idxOf l + 1) ++ ps.take begin).foldl
      (fun l i => if st.hasFront s i ∧ st.frontCost S s l < st.frontCost S s i then i else l) l
    let next := ps.idxOf m + 1
    some (m, { st with
      predBegin := Function.update st.predBegin nd (if next = ps.length then 0 else next) })

/-! ### The next paths -/

/-- The innermost loop of `cfg::next_k`: paths of a size are taken from the edges into `nd` until
`i` has come to `sk`. -/
def fillLoop (nd s sk : ℕ) : ℕ → ℕ → List SizedPath → Mqueues → Option (List SizedPath × Mqueues)
  | 0, i, q, st => if i < sk then none else some (q, st)
  | fuel + 1, i, q, st =>
    if i < sk then do
      let (m, st) ← st.qWithLongestPath g S nd s
      let (p, r) ← (st.mq (.edge m)).take s
      let px := p.extend g d minPacketsize (st.answers 0) m.2
      fillLoop nd s sk fuel (sizetAdd i p.size) (SizedPath.join q [px]) ((st.setMq (.edge m) r).answered)
    else some (q, st)

/-- What `cfg::next_k` keeps on its stack: a queue, and the sizes that are asked of it. -/
structure Frame where
  slot : Slot
  k : Sizev

/-- The loop of `cfg::next_k` over the sizes. -/
def fill (e : Frame) (st : Mqueues) : Option Mqueues :=
  e.k.entries.foldlM (fun st x => do
    let i := (st.mq e.slot).size x.1
    let (q, st) ← fillLoop g d minPacketsize S (e.slot.nd g) x.1 x.2 (x.2 - i) i [] st
    some (st.deliver g e.slot q x.1)) st

/-- The loops of `cfg::next_k`, from where the condition is tested. -/
def nextKLoop : ℕ → Frame → List Frame → Mqueues → Option Mqueues
  | 0, _, _, _ => none
  | fuel + 1, e, stack, st =>
    let (pr, prv) := st.shortestMq g (e.slot.nd g) (e.k.sub (st.mq e.slot).sizes)
    if (prv.add (st.mq e.slot).sizes).lt e.k then do
      let pr ← pr
      let st := st.absorb g sizes pr
      nextKLoop fuel ⟨.edge pr, (e.k.and (sizes pr)).sub (st.mq e.slot).sizes⟩ (e :: stack) st
    else do
      let st ← fill g d minPacketsize S e st
      match stack with
      | [] => some st
      | e :: stack => nextKLoop fuel e stack st

/-- `cfg::next_k(const mpathq::sizev&)`. The queues of `output` only exist while it runs. -/
def nextK (fuel : ℕ) (k : Sizev) (st : Mqueues) : Option (Mpathq × Mqueues) := do
  let st ← nextKLoop g d minPacketsize S sizes fuel ⟨.output, k⟩ [] (st.setMq .output (.ofSizes k))
  some (st.mq .output, st.setMq .output (.ofSizes (.zero ℕ ℕ)))

/-! ### Between two batches -/

/-- The inner loop of `cfg::push_mimpossible`. -/
def mimpossibleLoop (nd s : ℕ) : ℕ → List SizedPath → Mqueues → Option (List SizedPath × Mqueues)
  | 0, _, _ => none
  | fuel + 1, q, st =>
    if (st.shortestMq g nd (Sparse.single s 1)).2.get s = 0 then some (q, st)
    else do
      let (m, st) ← st.qWithLongestPath g S nd s
      let (p, r) ← (st.mq (.edge m)).take s
      if !p.path.isUnsat (st.answers 0).sat then some (q, st.answered)
      else
        let px := p.extend g d minPacketsize (st.answers 1) m.2
        mimpossibleLoop nd s fuel (SizedPath.join q [px]) ((st.setMq (.edge m) r).answered.answered)

/-- The body of the loops of `cfg::push_mimpossible` over the edges. -/
def pushMimpossibleTo (fuel : ℕ) (st : Mqueues) (pr : Edge) : Option Mqueues :=
  (sizes pr).entries.foldlM (fun st x => do
    let (q, st) ← mimpossibleLoop g d minPacketsize S pr.1 x.1 fuel [] st
    some (st.deliver g (.edge pr) q x.1)) (st.absorb g sizes pr)

/-- `cfg::push_mimpossible`. -/
def pushMimpossible (fuel : ℕ) (st : Mqueues) : Option Mqueues :=
  g.nodes.foldlM (fun st nd =>
    (g.pred nd).foldlM (pushMimpossibleTo g d minPacketsize S sizes fuel) st) st

end

end Mqueues

/-! ### The enumeration -/

/-- The loop of the lambda in `cfg::enumerate_by_bitrate`: what can be taken is checked and reported. -/
def takeLoop : ℕ → Tpathq → Mqueues → List SizedPath × Tpathq × Mqueues
  | 0, tq, st => ([], tq, st)
  | n + 1, tq, st =>
    match tq.takeLowestBitrate with
    | none => ([], tq, st)
    | some (l, tq) =>
      let (rs, tq, st') := takeLoop n tq st.answered
      (l.check (st.answers 0) :: rs, tq, st')

/-- The lambda in `cfg::enumerate_by_bitrate`. When nothing more can be taken, it reads the path at the front of
what is left, to report a better bound, before it tests whether there is one. What that does where nothing is left is
undefined; neither this nor the bound is modelled. -/
def takeAll (tq : Tpathq) (st : Mqueues) : List SizedPath × Tpathq × Mqueues :=
  takeLoop tq.q.length tq st

/-- The inner loop of `cfg::enumerate_by_bitrate`: undecided paths are checked. -/
def undecidedLoop : ℕ → Tpathq → Mqueues → Option (List SizedPath × Tpathq × Mqueues)
  | 0, tq, st => some ([], tq, st)
  | n + 1, tq, st =>
    match tq.takeUndecided with
    | none => some ([], tq, st)
    | some (p, tq) => do
      let tq ← tq.adjustSize p (p.check (st.answers 0))
      let (rs, tq, st) := takeAll tq st.answered
      let (rs', tq, st) ← undecidedLoop n tq st
      some (rs ++ rs', tq, st)

/-- A batch: the queues after `cfg::next_k`, and what is reported. -/
structure Bitbatch where
  queues : Mqueues
  reported : List SizedPath

section

variable {γ : Type*} [LinearOrder γ] (g : Cfg) (d : Instructions) (minPacketsize : Edge → ℕ)
  (S : Option Path → Bool → γ) (sizes : Edge → Sizev)

/-- A batch of `cfg::enumerate_by_bitrate`, up to where all checks have come back. Whether an
impossible path that looks like one in the table is the same object is said by `same`, for each size
and place in its queue. -/
def bitbatch (fuel k : ℕ) (same : ℕ → ℕ → Bool) (tq : Tpathq) (st : Mqueues) :
    Option (Bitbatch × Tpathq × Mqueues) := do
  let (mq, st) ← st.nextK g d minPacketsize S sizes fuel (tq.sizesTo k)
  let (rs, tq, st₁) := takeAll (tq.pushAll same mq) st
  let (rs', tq, st₂) ← undecidedLoop tq.undecided.length tq st₁
  some (⟨st, rs ++ rs'⟩, tq, st₂)

/-- The loop of `cfg::enumerate_by_bitrate` over the batches `ks`. -/
def bitrateLoop (fuel count : ℕ) (same : ℕ → ℕ → ℕ → Bool) :
    List Batch → ℕ → Tpathq → Mqueues → Option (List Bitbatch)
  | [], _, _, _ => some []
  | k :: ks, index, tq, st => do
    let (b, tq, st) ← bitbatch g d minPacketsize S sizes fuel k (same 0) tq st
    let (index, done) := reportAll count index false (b.reported.map SizedPath.path)
    let st ← st.pushMimpossible g d minPacketsize S sizes fuel
    if done then some [b]
    else do
      let bs ← bitrateLoop fuel count (fun n => same (n + 1)) ks index tq st
      some (b :: bs)

end

/-- `cfg::enumerate_by_bitrate<MAX_CYCLES>`. -/
def Cfg.enumerateByBitrate (g : Cfg) (firmware : ℕ) (minPacketsize : Edge → ℕ) (fuel count : ℕ)
    (ks : List Batch) (answers : ℕ → Answer) (same : ℕ → ℕ → ℕ → Bool) : Option (List Bitbatch) :=
  let d := g.overestimateCycles
  let sizes := g.edgeSizes minPacketsize
  if count = 0 then some []
  else bitrateLoop g d minPacketsize (MAX_CYCLES g d) sizes fuel count same ks 0
    (.ofSizes (g.propagateSizes minPacketsize)) (.init g sizes firmware answers)

end NfpEstimator
