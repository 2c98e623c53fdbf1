import NfpEstimator.Cfg.Path

/-!
# Queues of paths

`cfg::pathq` keeps paths in order, and the number of paths that they stand for. The
number stops at the largest value of `std::size_t`, which is also the size of the
path `none`. Where two queues are joined, the paths on both sides of the seam are
merged if they can be.

That the number is right is part of the type (`Pathq.count_eq`). What happens to the
paths is `join`: the queue that results from adding one path after another to a
queue is the same as if these paths had been collected in a queue of their own first
(`join_assoc`).
-/

namespace NfpEstimator

/-! ### Sizes that stop at a maximum -/

/-- `cfg::pathq::sizet::operator+`. -/
def sizetAdd (a b : ℕ) : ℕ := if sizeMax - a < b then sizeMax else a + b

/-- `cfg::pathq::sizet::operator-`. -/
def sizetSub (a b : ℕ) : ℕ := if a = sizeMax then sizeMax else if a < b then 0 else a - b

theorem sizetAdd_eq {a : ℕ} (ha : a ≤ sizeMax) (b : ℕ) : sizetAdd a b = min sizeMax (a + b) := by
  unfold sizetAdd
  split <;> omega

theorem sizetAdd_min (a b : ℕ) : sizetAdd (min sizeMax a) (min sizeMax b) = min sizeMax (a + b) := by
  rw [sizetAdd_eq (min_le_left _ _)]
  omega

theorem sizetAdd_min_left (a b : ℕ) : sizetAdd (min sizeMax a) b = min sizeMax (a + b) := by
  rw [sizetAdd_eq (min_le_left _ _)]
  omega

/-- How many paths a list of paths stands for. -/
def total (ps : List Path) : ℕ := (ps.map Path.size).sum

@[simp] theorem total_nil : total [] = 0 := rfl

@[simp] theorem total_cons (p : Path) (ps : List Path) : total (p :: ps) = p.size + total ps := by
  rw [total, List.map_cons, List.sum_cons, total]

@[simp] theorem total_append (ps qs : List Path) : total (ps ++ qs) = total ps + total qs := by
  rw [total, List.map_append, List.sum_append, total, total]

theorem total_pos {ps : List Path} (h : ps ≠ []) : 0 < total ps := by
  cases ps with
  | nil => exact absurd rfl h
  | cons p ps =>
    rw [total_cons]
    exact Nat.add_pos_left p.size_pos _

/-! ### Joining lists of paths -/

/-- Two lists of paths one behind the other, merged at the seam if possible. -/
def join (ps qs : List Path) : List Path :=
  match ps.getLast?, qs with
  | some back, front :: rest =>
    match front.merge back with
    | some m => ps.dropLast ++ m :: rest
    | none => ps ++ front :: rest
  | _, _ => ps ++ qs

@[simp] theorem join_nil (ps : List Path) : join ps [] = ps := by
  unfold join
  split
  next h => exact nomatch h
  · exact List.append_nil ps

@[simp] theorem nil_join (qs : List Path) : join [] qs = qs := rfl

theorem join_concat_cons (ps rest : List Path) (back front : Path) :
    join (ps ++ [back]) (front :: rest) =
      match front.merge back with
      | some m => ps ++ m :: rest
      | none => ps ++ back :: front :: rest := by
  unfold join
  rw [List.getLast?_concat]
  dsimp only
  rw [List.dropLast_concat]
  cases front.merge back with
  | none => exact List.append_assoc _ _ _
  | some m => rfl

/-- What a seam can look like. -/
theorem join_cases (ps qs : List Path) :
    join ps qs = ps ++ qs ∨
      ∃ ps' back front rest m, ps = ps' ++ [back] ∧ qs = front :: rest ∧
        front.merge back = some m ∧ join ps qs = ps' ++ m :: rest := by
  rcases List.eq_nil_or_concat ps with rfl | ⟨ps', back, rfl⟩
  · exact .inl rfl
  cases qs with
  | nil => exact .inl ((join_nil _).trans (List.append_nil _).symm)
  | cons front rest =>
    rw [List.concat_eq_append]
    cases hm : front.merge back with
    | none =>
      left
      rw [join_concat_cons, hm, List.append_assoc]
      rfl
    | some m =>
      refine .inr ⟨ps', back, front, rest, m, rfl, rfl, hm, ?_⟩
      rw [join_concat_cons, hm]

/-- A path that is added behind a queue and a list of paths merges into the list first. -/
theorem join_assoc (ps qs : List Path) (p : Path) :
    join (join ps qs) [p] = join ps (join qs [p]) := by
  rcases List.eq_nil_or_concat ps with rfl | ⟨ps', x, rfl⟩
  · rfl
  rw [List.concat_eq_append]
  match qs with
  | [] => rw [join_nil, nil_join]
  | [z] =>
    have hz : join [z] [p] = _ := join_concat_cons [] [] z p
    have hxz : join (ps' ++ [x, z]) [p] = _ :=
      (congrArg (join · [p]) (List.append_cons ps' x [z])).trans
        (join_concat_cons (ps' ++ [x]) [] z p)
    rw [hz, join_concat_cons]
    -- all three paths meet at the seam
    cases p <;> cases z <;> cases x <;>
      simp [Path.merge, join_concat_cons, Impossible.merge_assoc] at hxz ⊢ <;> exact hxz
  | q :: r :: rest =>
    obtain ⟨mid, z, hz⟩ := (List.eq_nil_or_concat (r :: rest)).resolve_left (List.cons_ne_nil _ _)
    rw [hz, List.concat_eq_append]
    have hright : ∃ tl, join (q :: (mid ++ [z])) [p] = q :: tl ∧
        ∀ as, join (as ++ mid ++ [z]) [p] = as ++ tl := by
      refine ⟨join (mid ++ [z]) [p], ?_, ?_⟩
      · rw [← List.cons_append, join_concat_cons, join_concat_cons]
        cases p.merge z <;> rfl
      · intro as
        rw [join_concat_cons, join_concat_cons]
        cases p.merge z <;> simp
    obtain ⟨tl, htl, has⟩ := hright
    rw [htl, join_concat_cons, join_concat_cons]
    cases q.merge x with
    | none =>
      have h := has (ps' ++ [x, q])
      simpa using h
    | some m =>
      have h := has (ps' ++ [m])
      simpa using h

/-! ### The queue -/

/-- `cfg::pathq`. -/
structure Pathq where
  paths : List Path
  count : ℕ
  count_eq : count = min sizeMax (total paths)

namespace Pathq

@[ext] theorem ext {q r : Pathq} (h : q.paths = r.paths) : q = r := by
  obtain ⟨ps, c, hc⟩ := q
  obtain ⟨qs, c', hc'⟩ := r
  obtain rfl : ps = qs := h
  obtain rfl : c = c' := hc.trans hc'.symm
  rfl

/-- The sum of the sizes of some paths, as the loops of `cfg::pathq` compute it. -/
def sumSizes (ps : List Path) : ℕ := ps.foldl (fun count p => sizetAdd count p.size) 0

theorem sumSizes_eq (ps : List Path) : sumSizes ps = min sizeMax (total ps) := by
  have h : ∀ c, ps.foldl (fun count p => sizetAdd count p.size) (min sizeMax c) =
      min sizeMax (c + total ps) := by
    induction ps with
    | nil => exact fun c => rfl
    | cons p ps ih =>
      intro c
      rw [List.foldl_cons, sizetAdd_min_left, ih, total_cons, Nat.add_assoc]
  exact (h 0).trans (by rw [Nat.zero_add])

/-- The constructor that takes an initializer list. -/
def ofList (ps : List Path) : Pathq := ⟨ps, sumSizes ps, sumSizes_eq ps⟩

/-- The queue that is empty. -/
def empty : Pathq := ofList []

/-- `cfg::pathq::size`. -/
def size (q : Pathq) : ℕ := q.count

/-- `cfg::pathq::front`. -/
def front (q : Pathq) : Option Path := q.paths.head?

/-- Merging keeps the number of paths, up to the maximum. -/
theorem min_total_join (ps qs : List Path) :
    min sizeMax (total (join ps qs)) = min sizeMax (total ps + total qs) := by
  rcases join_cases ps qs with hj | ⟨ps', back, front, rest, m, rfl, rfl, hm, hj⟩
  · rw [hj, total_append]
  rw [hj]
  simp only [total_append, total_cons, total_nil]
  rcases Path.merge_eq_some hm with ⟨rfl, rfl, rfl⟩ | ⟨i, j, rfl, rfl, rfl⟩
  · simp only [Path.size]
    omega
  · simp only [Path.size, Impossible.merge]
    omega

/-- `cfg::pathq::push(const pathq&)`. -/
def push (this q : Pathq) : Pathq where
  paths := join this.paths q.paths
  count := sizetAdd this.count q.count
  count_eq := by rw [this.count_eq, q.count_eq, sizetAdd_min, min_total_join]

/-- `cfg::pathq::push(pathq&&)`. -/
def pushMove (this q : Pathq) : Pathq := if this.count = 0 then q else this.push q

/-- `cfg::pathq::take`; on an empty queue it returns a null pointer. -/
def take (q : Pathq) : Option (Path × Pathq) :=
  match h : q.paths with
  | [] => none
  | p :: ps =>
    let count := sizetSub q.count p.size
    some (p,
      { paths := ps
        count := if count = sizeMax then sumSizes ps else count
        count_eq := by
          have hc := q.count_eq
          rw [h, total_cons] at hc
          have hpos := p.size_pos
          split
          · exact sumSizes_eq ps
          next hne =>
            have hsub : count = sizetSub q.count p.size := rfl
            unfold sizetSub at hsub
            split at hsub
            · exact absurd hsub hne
            · split at hsub <;> omega })

@[simp] theorem paths_empty : empty.paths = [] := rfl

@[simp] theorem paths_ofList (ps : List Path) : (ofList ps).paths = ps := rfl

theorem size_eq (q : Pathq) : q.size = min sizeMax (total q.paths) := q.count_eq

theorem size_pos_iff (q : Pathq) : 0 < q.size ↔ q.paths ≠ [] := by
  rw [size_eq]
  constructor
  · rintro h hnil
    rw [hnil] at h
    exact absurd h (by decide)
  · intro h
    have := total_pos h
    have : 0 < sizeMax := by decide
    omega

@[simp] theorem paths_push (this q : Pathq) : (this.push q).paths = join this.paths q.paths := rfl

@[simp] theorem paths_pushMove (this q : Pathq) :
    (this.pushMove q).paths = join this.paths q.paths := by
  unfold pushMove
  split
  next h0 =>
    have hnil : this.paths = [] := by
      by_contra hne
      exact absurd (this.size_pos_iff.mpr hne) (by rw [size, h0]; exact lt_irrefl 0)
    rw [hnil, nil_join]
  · rfl

theorem take_eq_some {q r : Pathq} {p : Path} (h : q.take = some (p, r)) :
    q.paths = p :: r.paths := by
  unfold take at h
  split at h
  · exact nomatch h
  next p' ps hq =>
    obtain ⟨rfl, rfl⟩ := h
    exact hq

end Pathq

end NfpEstimator
