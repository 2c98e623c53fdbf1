import NfpEstimator.Cfg.Pathq

/-!
# What a queue counts

The count of a `cfg::pathq` stops at the largest value of `std::size_t`. The count of a group
of impossible paths is a plain `std::size_t`, and merging two groups adds their counts modulo
`2 ^ 64`. Here both are as in the source, with what has been pushed into a queue and merged in it.

The main result is when all of it agrees (`counted_iff_seamFits`): as long as no two groups are merged that
count more paths than a `std::size_t` can hold.
-/

namespace NfpEstimator

variable {D : Type*}

/-- A path as far as a queue looks at it, with whatever else it holds. -/
inductive CountedPath (D : Type*)
  | possible (data : D)
  | impossible (data : D) (count : ℕ)
  deriving DecidableEq

namespace CountedPath

/-- `size`. -/
def size : CountedPath D → ℕ
  | possible _ => 1
  | impossible _ count => count

/-- It stands for paths that cannot be taken. -/
def isImpossible : CountedPath D → Bool
  | possible _ => false
  | impossible _ _ => true

/-- What can be pushed: a group stands for at least one path, and its count is a `std::size_t`. -/
def WF : CountedPath D → Prop
  | possible _ => True
  | impossible _ count => 0 < count ∧ count ≤ sizeMax

/-- `merge`, with the option `o_impossible_path_merging`. -/
def merge (merging : Bool) : CountedPath D → CountedPath D → Option (CountedPath D)
  | impossible data count, impossible _ count' =>
    if merging then some (impossible data ((count + count') % 2 ^ 64)) else none
  | _, _ => none

theorem WF.size {p : CountedPath D} (h : p.WF) : 0 < p.size ∧ p.size ≤ sizeMax := by
  cases p with
  | possible => exact ⟨Nat.one_pos, show 1 ≤ sizeMax by decide⟩
  | impossible => exact h

theorem merge_eq_some {merging : Bool} {p q m : CountedPath D} (h : p.merge merging q = some m) :
    p.isImpossible ∧ q.isImpossible ∧ m.isImpossible ∧ m.size = (p.size + q.size) % 2 ^ 64 := by
  cases p with
  | possible => exact nomatch h
  | impossible =>
    cases q with
    | possible => exact nomatch h
    | impossible =>
      rw [merge] at h
      split_ifs at h
      obtain rfl := Option.some.inj h
      exact ⟨rfl, rfl, rfl, rfl⟩

end CountedPath

/-- A path in a queue, and what has been merged in it; the source does not keep that. -/
structure QueuedPath (D : Type*) where
  path : CountedPath D
  members : List (CountedPath D)

namespace QueuedPath

/-- A path that nothing has been merged with. -/
def single (p : CountedPath D) : QueuedPath D := ⟨p, [p]⟩

/-- `merge`. -/
def merge (merging : Bool) (this o : QueuedPath D) : Option (QueuedPath D) :=
  (this.path.merge merging o.path).map fun m => ⟨m, o.members ++ this.members⟩

/-- How many paths some paths stand for. -/
def total (ps : List (CountedPath D)) : ℕ := (ps.map CountedPath.size).sum

/-- The path is what was pushed, or a group of what was, with the number of its paths. -/
structure Stands (e : QueuedPath D) : Prop where
  pos : 0 < e.path.size
  size : e.path.size = min sizeMax (total e.members)
  members : e.members = [e.path] ∨ e.path.isImpossible ∧ ∀ m ∈ e.members, m.isImpossible

@[simp] theorem total_append (ps qs : List (CountedPath D)) : total (ps ++ qs) = total ps + total qs := by
  rw [total, List.map_append, List.sum_append, total, total]

theorem stands_single {p : CountedPath D} (h : p.WF) : (single p).Stands where
  pos := h.size.1
  size := by
    rw [single, total, List.map_singleton, List.sum_singleton, min_eq_right h.size.2]
  members := Or.inl rfl

/-- The counts of two groups fit into one. -/
def Fits (this o : QueuedPath D) : Prop := this.path.size + o.path.size ≤ sizeMax

theorem Stands.isImpossible {e : QueuedPath D} (h : e.Stands) (hi : e.path.isImpossible) :
    ∀ m ∈ e.members, m.isImpossible := by
  rcases h.members with hm | ⟨-, hm⟩
  · exact fun m hmem => List.mem_singleton.mp (hm ▸ hmem) ▸ hi
  · exact hm

/-- A group that two groups are merged into has their paths if and only if their counts fit. -/
theorem Stands.merge {merging : Bool} {this o m : QueuedPath D} (ht : this.Stands) (ho : o.Stands)
    (h : this.merge merging o = some m) :
    m.members = o.members ++ this.members ∧
      (m.Stands ↔ this.Fits o) ∧ (this.Fits o → m.path.size = this.path.size + o.path.size) := by
  obtain ⟨p, hp, rfl⟩ := Option.map_eq_some_iff.mp h
  obtain ⟨h1, h2, h3, h4⟩ := CountedPath.merge_eq_some hp
  have hpos := ht.pos
  have hs := ht.size
  have hs' := ho.size
  have hmax : sizeMax = 2 ^ 64 - 1 := rfl
  refine ⟨rfl, ⟨fun hm => ?_, fun hf => ⟨?_, ?_, Or.inr ⟨h3, fun m hm => ?_⟩⟩⟩, fun hf => ?_⟩
  · have hsum := hm.size
    rw [total_append, h4] at hsum
    rw [Fits]
    omega
  · rw [Fits] at hf
    rw [h4]
    omega
  · rw [Fits] at hf
    rw [total_append, h4]
    omega
  · rcases List.mem_append.mp hm with hm | hm
    · exact ho.isImpossible h2 m hm
    · exact ht.isImpossible h1 m hm
  · rw [Fits] at hf
    rw [h4]
    omega

end QueuedPath

/-- `cfg::pathq`, as it counts. -/
structure CountedQueue (D : Type*) where
  paths : List (QueuedPath D)
  count : ℕ

namespace CountedQueue

/-- The loops that add up sizes. -/
def sumSizes (ps : List (QueuedPath D)) : ℕ := ps.foldl (fun count p => sizetAdd count p.path.size) 0

/-- The constructor that takes an initializer list. -/
def ofList (ps : List (QueuedPath D)) : CountedQueue D := ⟨ps, sumSizes ps⟩

/-- The constructor that takes a path. -/
def single (p : QueuedPath D) : CountedQueue D := ⟨[p], p.path.size⟩

/-- The paths of two queues, merged at the seam if possible. -/
def joinPaths (merging : Bool) (ps qs : List (QueuedPath D)) : List (QueuedPath D) :=
  match ps.getLast?, qs with
  | some back, front :: rest =>
    match front.merge merging back with
    | some m => ps.dropLast ++ m :: rest
    | none => ps ++ front :: rest
  | _, _ => ps ++ qs

/-- `push(const pathq&)`. -/
def push (merging : Bool) (this q : CountedQueue D) : CountedQueue D where
  paths := joinPaths merging this.paths q.paths
  count := sizetAdd this.count q.count

/-- `push(pathq&&)`. -/
def pushMove (merging : Bool) (this q : CountedQueue D) : CountedQueue D :=
  if this.count = 0 then q else this.push merging q

/-- `take`, with what it returns. -/
def take (q : CountedQueue D) : Option (QueuedPath D) × CountedQueue D :=
  match q.paths with
  | [] => (none, q)
  | p :: ps =>
    let count := sizetSub q.count p.path.size
    (some p, ⟨ps, if count = sizeMax then sumSizes ps else count⟩)

/-- How many paths some paths of a queue stand for. -/
def total (ps : List (QueuedPath D)) : ℕ := (ps.map fun p => p.path.size).sum

/-- Where two queues meet, two groups are merged only if their counts fit into one. -/
def SeamFits (merging : Bool) (this q : CountedQueue D) : Prop :=
  ∀ back ∈ this.paths.getLast?, ∀ front ∈ q.paths.head?,
    (front.merge merging back).isSome → front.Fits back

/-- The count is right, and it is 0 exactly if there is nothing in the queue. -/
structure Right (q : CountedQueue D) : Prop where
  count : q.count = min sizeMax (total q.paths)
  zero : q.count = 0 ↔ q.paths = []

variable {merging : Bool} {this q : CountedQueue D} {ps qs : List (QueuedPath D)} {p : QueuedPath D}

@[simp] theorem total_nil : total ([] : List (QueuedPath D)) = 0 := rfl

@[simp] theorem total_cons : total (p :: ps) = p.path.size + total ps := by
  rw [total, List.map_cons, List.sum_cons, total]

@[simp] theorem total_append : total (ps ++ qs) = total ps + total qs := by
  rw [total, List.map_append, List.sum_append, total, total]

/-- What a seam can look like. -/
theorem joinPaths_cases (merging : Bool) (ps qs : List (QueuedPath D)) :
    joinPaths merging ps qs = ps ++ qs ∨
      ∃ ps' back front rest m, ps = ps' ++ [back] ∧ qs = front :: rest ∧
        front.merge merging back = some m ∧ joinPaths merging ps qs = ps' ++ m :: rest := by
  rcases List.eq_nil_or_concat ps with rfl | ⟨ps', back, rfl⟩
  · exact Or.inl rfl
  rw [List.concat_eq_append]
  cases qs with
  | nil => exact Or.inl (by simp [joinPaths])
  | cons front rest =>
    cases hm : front.merge merging back with
    | none => exact Or.inl (by simp [joinPaths, hm])
    | some m => exact Or.inr ⟨ps', back, front, rest, m, rfl, rfl, hm, by simp [joinPaths, hm]⟩

theorem sumSizes_eq (ps : List (QueuedPath D)) : sumSizes ps = min sizeMax (total ps) := by
  have h : ∀ c, ps.foldl (fun count p => sizetAdd count p.path.size) (min sizeMax c) =
      min sizeMax (c + total ps) := by
    induction ps with
    | nil => exact fun c => rfl
    | cons p ps ih =>
      intro c
      rw [List.foldl_cons, sizetAdd_min_left, ih, total_cons, Nat.add_assoc]
  exact (h 0).trans (by rw [Nat.zero_add])

theorem eq_nil_of_total (h : ∀ e ∈ ps, e.Stands) (ht : total ps = 0) : ps = [] := by
  cases ps with
  | nil => rfl
  | cons p ps =>
    rw [total_cons] at ht
    exact absurd (h p List.mem_cons_self).pos (by omega)

/-- The count of a queue is right if it is the number of paths, and each path counts. -/
theorem Right.of_count (hc : q.count = min sizeMax (total q.paths))
    (h : ∀ e ∈ q.paths, e.Stands) : q.Right := by
  refine ⟨hc, fun h0 => ?_, fun hnil => ?_⟩
  · have : 0 < sizeMax := by decide
    exact eq_nil_of_total h (by omega)
  · rw [hc, hnil, total_nil, Nat.min_zero]

/-- Joining two queues keeps what has been pushed into both. -/
theorem flatMap_members_joinPaths :
    (joinPaths merging ps qs).flatMap QueuedPath.members =
      ps.flatMap QueuedPath.members ++ qs.flatMap QueuedPath.members := by
  rcases joinPaths_cases merging ps qs with hj | ⟨ps', back, front, rest, m, rfl, rfl, hm, hj⟩
  · rw [hj, List.flatMap_append]
  · obtain ⟨p, -, rfl⟩ := Option.map_eq_some_iff.mp hm
    simp [hj]

/-- Where the groups that are merged fit into one, all paths are counted. -/
theorem SeamFits.joinPaths (h : this.SeamFits merging q) (ht : ∀ e ∈ this.paths, e.Stands)
    (hq : ∀ e ∈ q.paths, e.Stands) :
    total (joinPaths merging this.paths q.paths) = total this.paths + total q.paths ∧
      ∀ e ∈ joinPaths merging this.paths q.paths, e.Stands := by
  obtain ⟨ps, c⟩ := this
  obtain ⟨qs, c'⟩ := q
  rcases joinPaths_cases merging ps qs with hj | ⟨ps', back, front, rest, m, rfl, rfl, hm, hj⟩
  · simp only [hj]
    exact ⟨total_append, fun e he => (List.mem_append.mp he).elim (ht e) (hq e)⟩
  · have hf : front.Fits back := h back (by simp) front rfl (by simp [hm])
    obtain ⟨-, hstands, hsize⟩ := (hq front List.mem_cons_self).merge (ht back (by simp)) hm
    simp only [hj]
    refine ⟨?_, fun e he => ?_⟩
    · simp only [total_append, total_cons, total_nil, hsize hf]
      omega
    · rcases List.mem_append.mp he with he | he
      · exact ht e (List.mem_append_left _ he)
      · rcases List.mem_cons.mp he with rfl | he
        · exact hstands.mpr hf
        · exact hq e (List.mem_cons_of_mem _ he)

/-- An empty queue takes over the other one; that is what pushing it comes to. -/
theorem pushMove_eq_push (ht : this.Right) (hq : q.Right) :
    this.pushMove merging q = this.push merging q := by
  rw [pushMove]
  split_ifs with h0
  · obtain ⟨ps, c⟩ := this
    obtain ⟨qs, c'⟩ := q
    obtain rfl : c = 0 := h0
    obtain rfl : ps = [] := ht.zero.mp rfl
    have hle : c' ≤ sizeMax := hq.count.trans_le (min_le_left _ _)
    rw [push, show sizetAdd 0 c' = c' by rw [sizetAdd_eq (Nat.zero_le _)]; omega]
    rfl
  · rfl

theorem Right.take (h : q.Right) (hs : ∀ e ∈ q.paths, e.Stands) : q.take.2.Right := by
  obtain ⟨ps, c⟩ := q
  cases ps with
  | nil => exact h
  | cons p ps =>
    have hp := (hs p List.mem_cons_self).pos
    have hc : c = min sizeMax (p.path.size + total ps) := total_cons ▸ h.count
    refine Right.of_count ?_ fun e he => hs e (List.mem_cons_of_mem _ he)
    show (if sizetSub c p.path.size = sizeMax then sumSizes ps else sizetSub c p.path.size) =
      min sizeMax (total ps)
    have hsub : sizetSub c p.path.size = sizeMax ∨ sizetSub c p.path.size = min sizeMax (total ps) := by
      rw [sizetSub]
      split_ifs <;> omega
    split_ifs with hmax
    · exact sumSizes_eq ps
    · exact hsub.resolve_left hmax

theorem Right.push (ht : this.Right) (hq : q.Right) (hf : this.SeamFits merging q)
    (hst : ∀ e ∈ this.paths, e.Stands) (hsq : ∀ e ∈ q.paths, e.Stands) :
    (this.push merging q).Right := by
  obtain ⟨h1, h2⟩ := hf.joinPaths hst hsq
  refine Right.of_count ?_ h2
  show sizetAdd this.count q.count = min sizeMax (total (joinPaths merging this.paths q.paths))
  rw [h1, ht.count, hq.count, sizetAdd_min]

end CountedQueue

/-- How a queue comes about. The queue that is pushed comes about in its own way; one that is
moved is not used again. -/
inductive QueueRun (D : Type*)
  | single (p : CountedPath D) (h : p.WF)
  | ofList (ps : List (CountedPath D)) (h : ∀ p ∈ ps, p.WF)
  | push (this q : QueueRun D)
  | pushMove (this q : QueueRun D)
  | take (this : QueueRun D)

namespace QueueRun

open CountedQueue (SeamFits joinPaths total)

section

variable (merging : Bool)

/-- The queue. -/
def queue : QueueRun D → CountedQueue D
  | single p _ => .single (.single p)
  | ofList ps _ => .ofList (ps.map .single)
  | push this q => this.queue.push merging q.queue
  | pushMove this q => this.queue.pushMove merging q.queue
  | take this => this.queue.take.2

/-- What has been taken from it. -/
def taken : QueueRun D → List (QueuedPath D)
  | single _ _ => []
  | ofList _ _ => []
  | push this _ => this.taken
  | pushMove this _ => this.taken
  | take this => this.taken ++ (this.queue merging).take.1.toList

/-- What has been pushed into it. -/
def pushed : QueueRun D → List (CountedPath D)
  | single p _ => [p]
  | ofList ps _ => ps
  | push this q => this.pushed ++ (q.queue merging).paths.flatMap QueuedPath.members
  | pushMove this q => this.pushed ++ (q.queue merging).paths.flatMap QueuedPath.members
  | take this => this.pushed

/-- It holds at the end, and wherever it came from. -/
def Always (P : QueueRun D → Prop) : QueueRun D → Prop
  | single p h => P (single p h)
  | ofList ps h => P (ofList ps h)
  | push this q => this.Always P ∧ q.Always P ∧ P (push this q)
  | pushMove this q => this.Always P ∧ q.Always P ∧ P (pushMove this q)
  | take this => this.Always P ∧ P (take this)

/-- Nothing is lost or miscounted: the count is right, what has been taken or is still in the queue
is what was pushed, in order, and the groups have the counts of what was merged in them. -/
structure Counted (r : QueueRun D) : Prop where
  right : (r.queue merging).Right
  kept : (r.taken merging ++ (r.queue merging).paths).flatMap QueuedPath.members = r.pushed merging
  stands : ∀ e ∈ r.taken merging ++ (r.queue merging).paths, e.Stands

/-- When a queue is pushed, the counts of two groups that are merged fit into one. -/
def Seam : QueueRun D → Prop
  | push this q => (this.queue merging).SeamFits merging (q.queue merging)
  | pushMove this q => (this.queue merging).SeamFits merging (q.queue merging)
  | _ => True

end

variable {merging : Bool} {r this q : QueueRun D}

theorem counted_ofList {ps : List (CountedPath D)} (h : ∀ p ∈ ps, p.WF) :
    (ofList ps h).Counted merging := by
  have hs : ∀ e ∈ ps.map QueuedPath.single, e.Stands := fun e he => by
    obtain ⟨p, hp, rfl⟩ := List.mem_map.mp he
    exact QueuedPath.stands_single (h p hp)
  refine ⟨.of_count (CountedQueue.sumSizes_eq _) hs, ?_, hs⟩
  show (ps.map QueuedPath.single).flatMap QueuedPath.members = ps
  rw [List.flatMap_map]
  exact List.flatMap_singleton' ps

theorem counted_single {p : CountedPath D} (h : p.WF) : (single p h).Counted merging := by
  have hs : ∀ e ∈ [QueuedPath.single p], e.Stands := fun e he =>
    List.mem_singleton.mp he ▸ QueuedPath.stands_single h
  refine ⟨.of_count ?_ hs, rfl, hs⟩
  show p.size = min sizeMax (CountedQueue.total [QueuedPath.single p])
  rw [CountedQueue.total_cons, CountedQueue.total_nil]
  exact (min_eq_right h.size.2).symm

theorem Counted.push (ht : this.Counted merging) (hq : q.Counted merging)
    (hf : (QueueRun.push this q).Seam merging) : (QueueRun.push this q).Counted merging := by
  have hst := fun e he => ht.stands e (List.mem_append_right _ he)
  have hsq := fun e he => hq.stands e (List.mem_append_right _ he)
  refine ⟨ht.right.push hq.right hf hst hsq, ?_, fun e he => ?_⟩
  · show (this.taken merging ++ joinPaths merging (this.queue merging).paths
      (q.queue merging).paths).flatMap QueuedPath.members = _
    rw [List.flatMap_append, CountedQueue.flatMap_members_joinPaths, ← List.append_assoc,
      ← List.flatMap_append, ht.kept, pushed]
  · rcases List.mem_append.mp he with he | he
    · exact ht.stands e (List.mem_append_left _ he)
    · exact (hf.joinPaths hst hsq).2 e he

theorem Counted.take (h : r.Counted merging) : (QueueRun.take r).Counted merging := by
  have hlist : (QueueRun.take r).taken merging ++ ((QueueRun.take r).queue merging).paths =
      r.taken merging ++ (r.queue merging).paths := by
    show r.taken merging ++ (r.queue merging).take.1.toList ++ (r.queue merging).take.2.paths = _
    cases hps : (r.queue merging).paths with
    | nil => simp [CountedQueue.take, hps]
    | cons p ps => simp [CountedQueue.take, hps]
  refine ⟨h.right.take fun e he => h.stands e (List.mem_append_right _ he), ?_, ?_⟩
  · rw [hlist, h.kept, pushed]
  · rw [hlist]
    exact h.stands

/-- Moving a queue into another one comes to the same as pushing it. -/
theorem counted_pushMove (ht : this.Counted merging) (hq : q.Counted merging) :
    (pushMove this q).Counted merging ↔ (push this q).Counted merging := by
  have h : (pushMove this q).queue merging = (push this q).queue merging :=
    CountedQueue.pushMove_eq_push ht.right hq.right
  constructor
  · exact fun hc => ⟨h ▸ hc.right, h ▸ hc.kept, h ▸ hc.stands⟩
  · exact fun hc => ⟨h ▸ hc.right, h ▸ hc.kept, h ▸ hc.stands⟩

/-- Pushing a queue counts right only if the two groups at the seam fit into one. -/
theorem Counted.seam (ht : this.Counted merging) (hq : q.Counted merging)
    (h : (QueueRun.push this q).Counted merging) : (QueueRun.push this q).Seam merging := by
  intro back hback front hfront hm
  obtain ⟨m, hm⟩ := Option.isSome_iff_exists.mp hm
  obtain ⟨ps', hps⟩ := List.getLast?_eq_some_iff.mp hback
  obtain ⟨rest, hqs⟩ := List.head?_eq_some_iff.mp hfront
  have hst := ht.stands back (List.mem_append_right _ (by simp [hps]))
  have hsq := hq.stands front (List.mem_append_right _ (by simp [hqs]))
  refine (hsq.merge hst hm).2.1.mp (h.stands m (List.mem_append_right _ ?_))
  show m ∈ joinPaths merging (this.queue merging).paths (q.queue merging).paths
  simp [joinPaths, hps, hqs, hm]

/-- **Counting paths.** Over every sequence of pushes and takes, the count of a queue is the number of
its paths up to the maximum, it is 0 exactly for an empty queue, and every path that was pushed is in the
queue, in a group of it that counts it, or has been taken, if and only if no two groups are merged
whose counts do not fit into one. -/
theorem counted_iff_seamFits (merging : Bool) (r : QueueRun D) :
    r.Always (Counted merging) ↔ r.Always (Seam merging) := by
  have hend : ∀ r : QueueRun D, r.Always (Counted merging) → r.Counted merging := fun r h => by
    cases r with
    | single => exact h
    | ofList => exact h
    | push => exact h.2.2
    | pushMove => exact h.2.2
    | take => exact h.2
  induction r with
  | single p h => exact ⟨fun _ => trivial, fun _ => counted_single h⟩
  | ofList ps h => exact ⟨fun _ => trivial, fun _ => counted_ofList h⟩
  | push this q iht ihq =>
    refine ⟨fun ⟨ht, hq, h⟩ => ?_, fun ⟨ht, hq, h⟩ => ?_⟩
    · exact ⟨iht.mp ht, ihq.mp hq, (hend _ ht).seam (hend _ hq) h⟩
    · have ht := iht.mpr ht
      have hq := ihq.mpr hq
      exact ⟨ht, hq, (hend _ ht).push (hend _ hq) h⟩
  | pushMove this q iht ihq =>
    refine ⟨fun ⟨ht, hq, h⟩ => ?_, fun ⟨ht, hq, h⟩ => ?_⟩
    · have h := (counted_pushMove (hend _ ht) (hend _ hq)).mp h
      exact ⟨iht.mp ht, ihq.mp hq, (hend _ ht).seam (hend _ hq) h⟩
    · have ht := iht.mpr ht
      have hq := ihq.mpr hq
      exact ⟨ht, hq, (counted_pushMove (hend _ ht) (hend _ hq)).mpr ((hend _ ht).push (hend _ hq) h)⟩
  | take this ih =>
    refine ⟨fun ⟨ht, _⟩ => ⟨ih.mp ht, trivial⟩, fun ⟨ht, _⟩ => ?_⟩
    have ht := ih.mpr ht
    exact ⟨ht, (hend _ ht).take⟩

/-- Two groups of `2 ^ 63` paths each are pushed: the group that they are merged into has no
paths, though the count of the queue stops at the maximum. -/
theorem merge_losesCount :
    ¬ (push (single (.impossible () (2 ^ 63)) ⟨by decide, by decide⟩)
        (single (.impossible () (2 ^ 63)) ⟨by decide, by decide⟩)).Counted true := fun h => by
  have h1 := h.right.count
  exact absurd h1 (by decide)

end QueueRun

end NfpEstimator
