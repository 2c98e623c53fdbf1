import NfpEstimator.Cfg.Mpathq
import NfpEstimator.Cfg.Bitrate

/-!
# Paths in the order of their bit rates

`cfg::tpathq` collects the paths that have come to the end of the program, in the order of
the ratio of cycles to packet size. A path is only put into it if it is not in it already,
whatever the packet size of the queue that it comes from, and this is looked up in a table
of the paths. Paths that the solver has not been asked for are also in a second queue. When
a path is found to need larger packets than it seemed to, it is moved to where it belongs.

What has come out of a queue for a size tells what ratio the paths to come have at
most, and only the paths that reach the largest of these limits are taken. With a path that is
taken its entry in the table is erased.
-/

namespace NfpEstimator

/-- `cfg::tratio<cfg::path::MAX_CYCLES>`: cycles, and a packet size. -/
abbrev Ratio := ℕ × ℕ

namespace Ratio

/-- `cfg::tratio::MIN`. -/
def MIN : Ratio := (0, 2 ^ 32 - 1)

/-- `cfg::tratio::MAX`. -/
def MAX : Ratio := (2 ^ 32 - 1, 0)

end Ratio

/-- `cfg::tratio` of a path. -/
def SizedPath.ratio (p : SizedPath) : Ratio := (p.path.maxCycles, p.minPacketsize)

/-- `cfg::tpathq`. -/
structure Tpathq where
  /-- The paths, and whether they are decided. -/
  q : List (Ratio × SizedPath × Bool)
  undecided : List (Ratio × SizedPath)
  pathes : List (Path × Ratio)
  /-- The keys of the map `sizes`. -/
  sizes : Sizev
  /-- The values of the map `sizes`. -/
  limits : ℕ → Ratio
  limit : Ratio

namespace Tpathq

/-- `std::multimap::emplace`: the new element comes behind those of the same ratio. -/
def emplace {α : Type*} (r : Ratio) (x : α) (l : List (Ratio × α)) : List (Ratio × α) :=
  l.takeWhile (fun y => !ratioLt y.1 r) ++ (r, x) :: l.dropWhile fun y => !ratioLt y.1 r

/-- The constructor of `cfg::tpathq`. -/
def ofSizes (sizes : Sizev) : Tpathq where
  q := []
  undecided := []
  pathes := []
  sizes := sizes
  limits := fun _ => .MAX
  limit := .MAX

/-- The path is in the table. Two impossible paths that look alike may still be different objects, as
`same` says. -/
def known (tq : Tpathq) (same : Bool) (p : SizedPath) : Bool :=
  tq.pathes.any (fun x => x.1 = p.path) && (same || !p.path.isUnsat true)

/-- `cfg::tpathq::push(const pptr&)`. -/
def push (tq : Tpathq) (same : Bool) (p : SizedPath) : Tpathq :=
  if tq.known same p then tq
  else { tq with
    pathes := (p.path, p.ratio) :: tq.pathes
    q := emplace p.ratio (p, p.decided) tq.q
    undecided := if p.decided then tq.undecided else emplace p.ratio p tq.undecided }

/-- The loop of `cfg::tpathq::push(const mpathq&)` over the paths of a size. -/
def pushSize (tq : Tpathq) (same : ℕ → Bool) (s : ℕ) : List SizedPath → Tpathq
  | [] => tq
  | p :: ps =>
    pushSize
      ({ tq with limits := Function.update tq.limits s (p.path.maxCycles, s) }.push (same 0) p)
      (fun n => same (n + 1)) s ps

/-- `cfg::tpathq::push(const mpathq&)`. -/
def pushAll (tq : Tpathq) (same : ℕ → ℕ → Bool) (mq : Mpathq) : Tpathq :=
  tq.sizes.entries.foldl (fun tq x =>
      let tq := tq.pushSize (same x.1) x.1 (mq.q x.1)
      { tq with limit := if ratioLt tq.limit (tq.limits x.1) then tq.limits x.1 else tq.limit })
    { tq with limit := .MIN }

/-- `cfg::tpathq::take_lowest_bitrate`; a null pointer is `none`. -/
def takeLowestBitrate (tq : Tpathq) : Option (SizedPath × Tpathq) :=
  match tq.q with
  | [] => none
  | (r, p, decided) :: q =>
    if ratioLt r tq.limit then none
    else if !decided then none
    else some (p, { tq with q := q, pathes := tq.pathes.eraseP fun x => x.1 = p.path })

/-- `cfg::tpathq::take_undecided`; a null pointer is `none`. -/
def takeUndecided (tq : Tpathq) : Option (SizedPath × Tpathq) :=
  match tq.undecided with
  | [] => none
  | (r, p) :: undecided =>
    if ratioLt r tq.limit then none else some (p, { tq with undecided := undecided })

/-- `cfg::tpathq::adjust_size`, for a path and what checking it has come to. -/
def adjustSize (tq : Tpathq) (p c : SizedPath) : Option Tpathq := do
  let (_, r) ← tq.pathes.find? fun x => x.1 = p.path
  let other := fun y : Ratio × SizedPath × Bool =>
    ratioLt y.1 r || ratioLt r y.1 || y.2.1.path != p.path || y.2.2
  match tq.q.dropWhile other with
  | [] => none
  | y :: rest =>
    if r.2 = c.minPacketsize then
      some { tq with q := tq.q.takeWhile other ++ (y.1, { p with decided := true }, true) :: rest }
    else
      some { tq with
        q := emplace c.ratio (c, true) (tq.q.takeWhile other ++ rest)
        pathes := tq.pathes.map fun x => if x.1 = p.path then (x.1, c.ratio) else x }

/-- The loop of `cfg::tpathq::sizes_to`. -/
def sizeTo (l : Ratio) : ℕ → List (Ratio × SizedPath × Bool) → ℕ
  | sk, [] => sk
  | sk, y :: q => if sk = 0 ∨ ratioLt y.1 l then sk else sizeTo l (sizetSub sk y.2.1.size) q

/-- `cfg::tpathq::sizes_to`. -/
def sizesTo (tq : Tpathq) (k : ℕ) : Sizev :=
  Sparse.restrict (fun s => sizeTo (tq.limits s) k tq.q) tq.sizes

end Tpathq

end NfpEstimator
