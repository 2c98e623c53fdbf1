import NfpEstimator.Cfg.Pathq
import NfpEstimator.Cfg.Sizes

/-!
# Queues of paths by packet size

For bit rates a path counts together with the smallest packets that take it. A part of them
is known from the edges, and the rest is found by the solver when it is asked for a packet.
`cfg::mpathq` has one queue for each packet size, with the paths that no smaller packets
have to be taken for than those of this size.

A queue is a list of paths here. The number of the paths that it stands for is what
`Pathq.count_eq` shows `cfg::pathq` to keep.
-/

namespace NfpEstimator

/-! ### Paths with packet sizes -/

/-- What the solver says of a path. -/
structure Answer where
  /-- Some packet takes the path. -/
  sat : Bool
  /-- The solver has been asked, or need not be. -/
  decided : Bool
  /-- The size of the packet that the solver has found. -/
  size : ℕ

/-- `cfg::path`, with what it knows of packets. -/
structure SizedPath where
  path : Path
  /-- `min_packetsize()`. -/
  minPacketsize : ℕ
  /-- `is_decided()`. -/
  decided : Bool

namespace SizedPath

variable (g : Cfg) (d : Instructions) (minPacketsize : Edge → ℕ)

/-- `size`. -/
def size (p : SizedPath) : ℕ := p.path.size

/-- The edge that a path takes next. -/
def next (p : SizedPath) (branchtrue : Bool) : Entry :=
  p.path.state.bind fun w => w.next g branchtrue

/-- `extend`. Packets have to be as large as for the path and for the edge, and for what the solver
has found if it has been asked. -/
def extend (answer : Answer) (branchtrue : Bool) (p : SizedPath) : SizedPath :=
  let least := max (((p.next g branchtrue).map minPacketsize).getD 0) p.minPacketsize
  match p.path.extend g d answer.sat branchtrue with
  | .none => p
  | .impossible i => ⟨.impossible i, least, true⟩
  | .possible w edges => ⟨.possible w edges, max least answer.size, answer.decided⟩

/-- `check`. -/
def check (answer : Answer) (p : SizedPath) : SizedPath :=
  match p.path.check answer.sat with
  | .possible w edges =>
    ⟨.possible w edges, if p.decided then p.minPacketsize else max p.minPacketsize answer.size, true⟩
  | q => ⟨q, p.minPacketsize, true⟩

/-- `merge`. -/
def merge (p o : SizedPath) : Option SizedPath :=
  (p.path.merge o.path).map fun m => { p with path := m }

/-- The edges of a path that is still possible. -/
def edges (p : SizedPath) : Option (List Edge) :=
  match p.path with
  | .possible _ edges => some edges
  | _ => none

variable {g d minPacketsize}

theorem edges_eq_some {p : SizedPath} {es : List Edge} :
    p.edges = some es ↔ ∃ w, p.path = .possible w es := by
  unfold edges
  split
  next w es' h => simp [h, eq_comm]
  next h =>
    refine iff_of_false nofun ?_
    rintro ⟨w, hw⟩
    exact h w es hw

/-- A path that is possible after it has been extended was possible before. -/
theorem possible_of_extend {answer : Answer} {b : Bool} {p : SizedPath} {w : WithState}
    {es : List Edge} (h : (p.extend g d minPacketsize answer b).path = .possible w es) :
    ∃ w' es', p.path = .possible w' es' ∧ w = w'.extend g d b ∧
      es = es' ++ (w'.next g b).toList := by
  cases hp : p.path with
  | none | impossible i =>
    exfalso
    simp [extend, hp, Path.extend] at h
  | possible w' es' =>
    unfold extend at h
    rw [hp] at h
    cases hsat : answer.sat with
    | false => simp [Path.extend, hsat] at h
    | true =>
      simp only [Path.extend, hsat, if_true, Path.possible.injEq] at h
      exact ⟨w', es', rfl, h.1.symm, h.2.symm⟩

/-- A path that is possible after it has been checked is the same as before. -/
theorem path_check {answer : Answer} {p : SizedPath} {w : WithState} {es : List Edge}
    (h : (p.check answer).path = .possible w es) : p.path = .possible w es := by
  cases hp : p.path with
  | none | impossible i =>
    exfalso
    simp [check, hp, Path.check] at h
  | possible w' es' =>
    unfold check at h
    rw [hp] at h
    cases hsat : answer.sat with
    | false => simp [Path.check, hsat] at h
    | true => simpa [Path.check, hsat] using h

/-! ### Joining -/

/-- `cfg::pathq::push`: two queues one behind the other, merged at the seam if possible. -/
def join (ps qs : List SizedPath) : List SizedPath :=
  match ps.getLast?, qs with
  | some back, front :: rest =>
    match front.merge back with
    | some m => ps.dropLast ++ m :: rest
    | none => ps ++ front :: rest
  | _, _ => ps ++ qs

/-- The possible paths of the joined queues are those of the two. -/
theorem mem_of_mem_join {ps qs : List SizedPath} {p : SizedPath} {w : WithState} {es : List Edge}
    (h : p ∈ join ps qs) (hp : p.path = .possible w es) : p ∈ ps ∨ p ∈ qs := by
  unfold join at h
  split at h
  · split at h
    next front rest _ m hm =>
      rw [List.mem_append, List.mem_cons] at h
      rcases h with h | rfl | h
      · exact .inl (List.mem_of_mem_dropLast h)
      · -- what has been merged is not possible
        obtain ⟨q, hq, rfl⟩ := Option.map_eq_some_iff.mp hm
        obtain rfl : q = .possible w es := hp
        rcases Path.merge_eq_some hq with ⟨-, -, h⟩ | ⟨i, j, -, -, h⟩ <;> exact nomatch h
      · exact .inr (List.mem_cons_of_mem _ h)
    · exact List.mem_append.mp h
  · exact List.mem_append.mp h

end SizedPath

/-! ### More on vectors of sizes -/

namespace Sizev

/-- `cfg::mpathq::sizev::operator+`. -/
def add (v w : Sizev) : Sizev := Sparse.combine sizetAdd v w

/-- `cfg::mpathq::sizev::operator-`. -/
def sub (v w : Sizev) : Sizev := Sparse.combine (fun a b => if b < a then sizetSub a b else 0) v w

/-- `cfg::mpathq::sizev::operator<`: some number is less than the other one. -/
def lt (v w : Sizev) : Bool := w.entries.any fun x => v.get x.1 < x.2

end Sizev

/-! ### The queues -/

/-- `cfg::mpathq`: there are queues for the sizes in `v` only. -/
structure Mpathq where
  v : Sizev
  q : ℕ → List SizedPath
  q_eq_nil : ∀ s, s ∉ v → q s = []

namespace Mpathq

/-- The constructor that takes the sizes. -/
def ofSizes (v : Sizev) : Mpathq := ⟨v, fun _ => [], fun _ _ => rfl⟩

/-- `cfg::mpathq::size`. -/
def size (mq : Mpathq) (s : ℕ) : ℕ :=
  if s ∈ mq.v then min sizeMax (total ((mq.q s).map SizedPath.path)) else sizeMax

/-- `cfg::mpathq::sizes`. -/
def sizes (mq : Mpathq) : Sizev := Sparse.restrict mq.size mq.v

/-- `cfg::mpathq::push(const pathq&, std::uint32_t)`. -/
def pushAt (mq : Mpathq) (ps : List SizedPath) (s : ℕ) : Mpathq where
  v := mq.v
  q := if s ∈ mq.v then Function.update mq.q s (SizedPath.join (mq.q s) ps) else mq.q
  q_eq_nil t ht := by
    split
    next hs =>
      rw [Function.update_of_ne (by rintro rfl; exact ht hs)]
      exact mq.q_eq_nil t ht
    · exact mq.q_eq_nil t ht

/-- The overloads of `cfg::mpathq::push` that push to all the queues. -/
def pushAll (mq : Mpathq) (q : ℕ → List SizedPath) : Mpathq where
  v := mq.v
  q s := if s ∈ mq.v then SizedPath.join (mq.q s) (q s) else []
  q_eq_nil _ hs := if_neg hs

/-- `cfg::mpathq::front`. -/
def front (mq : Mpathq) (s : ℕ) : Option SizedPath := (mq.q s).head?

/-- `cfg::mpathq::take`; a null pointer is `none`. -/
def take (mq : Mpathq) (s : ℕ) : Option (SizedPath × Mpathq) :=
  match h : mq.q s with
  | [] => none
  | p :: ps => some (p,
    { v := mq.v
      q := Function.update mq.q s ps
      q_eq_nil := by
        intro t ht
        have hne : t ≠ s := by
          rintro rfl
          rw [mq.q_eq_nil t ht] at h
          exact nomatch h
        rw [Function.update_of_ne hne]
        exact mq.q_eq_nil t ht })

variable {mq : Mpathq} {s t : ℕ} {p : SizedPath} {w : WithState} {es : List Edge}

theorem mem_of_mem_q (mq : Mpathq) (h : p ∈ mq.q s) : s ∈ mq.v := by
  by_contra hs
  rw [mq.q_eq_nil s hs] at h
  exact nomatch h

theorem mem_of_mem_pushAt {ps : List SizedPath} (h : p ∈ (mq.pushAt ps s).q t)
    (hp : p.path = .possible w es) : p ∈ mq.q t ∨ t = s ∧ p ∈ ps := by
  unfold pushAt at h
  dsimp only at h
  split at h
  · by_cases ht : t = s
    · subst ht
      rw [Function.update_self] at h
      exact (SizedPath.mem_of_mem_join h hp).imp_right fun h => ⟨rfl, h⟩
    · rw [Function.update_of_ne ht] at h
      exact .inl h
  · exact .inl h

theorem mem_of_mem_pushAll {q : ℕ → List SizedPath} (h : p ∈ (mq.pushAll q).q s)
    (hp : p.path = .possible w es) : p ∈ mq.q s ∨ p ∈ q s := by
  unfold pushAll at h
  dsimp only at h
  split at h
  · exact SizedPath.mem_of_mem_join h hp
  · exact nomatch h

theorem mem_of_take {r : Mpathq} (h : mq.take s = some (p, r)) :
    p ∈ mq.q s ∧ r.v = mq.v ∧ ∀ t, ∀ x ∈ r.q t, x ∈ mq.q t := by
  unfold take at h
  split at h
  · exact nomatch h
  next p' ps hq =>
    obtain ⟨rfl, rfl⟩ := Prod.mk.inj (Option.some.inj h)
    refine ⟨hq ▸ List.mem_cons_self, rfl, fun t x hx => ?_⟩
    by_cases ht : t = s
    · subst ht
      have hx : x ∈ Function.update mq.q t ps t := hx
      rw [Function.update_self] at hx
      rw [hq]
      exact List.mem_cons_of_mem _ hx
    · have hx : x ∈ Function.update mq.q s ps t := hx
      rwa [Function.update_of_ne ht] at hx

end Mpathq

end NfpEstimator
