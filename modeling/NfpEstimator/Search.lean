import Mathlib

/-!
# Searching a finite graph

A search with a queue for a node that a predicate holds of, in a graph that is given by
lists of successors. The node where the search starts only counts when it is come to
again.

The main result is that with as much fuel as there are nodes, and one more, the search
finds a node if and only if one can be reached in at least one step (`finds_iff`).

The second search keeps a stack and marks a node when it is taken from it. A node may be
pushed several times until then, but when it is taken again all its successors are marked.
So it ends within as many iterations as there are edges, and one more, and marks what can be
reached (`mem_marks`).
-/

namespace Search

variable {α : Type*} [DecidableEq α]

section

variable (succ : α → List α) (goal : α → Bool)

/-- The successors of a node in turn. There is no result when one of them is searched for;
those that are seen for the first time are appended to the queue. -/
def scan : List α → List α → List α → Option (List α × List α)
  | [], visited, queue => some (visited, queue)
  | s :: ss, visited, queue =>
    if goal s then none
    else if s ∈ visited then scan ss visited queue
    else scan ss (s :: visited) (queue ++ [s])

/-- Whether the search finds a node. -/
def finds : ℕ → List α → List α → Bool
  | 0, _, _ => false
  | _ + 1, _, [] => false
  | fuel + 1, visited, nd :: queue =>
    match scan goal (succ nd) visited queue with
    | none => true
    | some (visited, queue) => finds fuel visited queue

/-- The nodes that the search with a stack marks. -/
def marks : ℕ → List α → List α → Option (List α)
  | _, visited, [] => some visited
  | 0, _, _ :: _ => none
  | fuel + 1, visited, nd :: stack =>
    let visited := visited.insert nd
    marks fuel visited (((succ nd).filter fun s => s ∉ visited).reverse ++ stack)

/-- How many nodes can still be pushed by the nodes of `U`. -/
def pending (U visited : List α) : ℕ :=
  (U.map fun x => if x ∈ visited then 0 else (succ x).length).sum

/-- One node is a successor of another. -/
def Step (a b : α) : Prop := b ∈ succ a

end

variable {succ : α → List α} {goal : α → Bool}

theorem scan_eq_none {ss visited queue : List α} (h : scan goal ss visited queue = none) :
    ∃ s ∈ ss, goal s := by
  induction ss generalizing visited queue with
  | nil => exact nomatch h
  | cons s ss ih =>
    unfold scan at h
    split at h
    next hs => exact ⟨s, List.mem_cons_self, hs⟩
    · split at h
      · obtain ⟨s', hmem, hs'⟩ := ih h
        exact ⟨s', List.mem_cons_of_mem _ hmem, hs'⟩
      · obtain ⟨s', hmem, hs'⟩ := ih h
        exact ⟨s', List.mem_cons_of_mem _ hmem, hs'⟩

/-- What has been added to the visited nodes has been added to the queue. -/
structure Scanned (ss visited queue visited' queue' : List α) : Prop where
  nodup : visited'.Nodup
  seen : ∀ s ∈ ss, s ∈ visited'
  subset : ∀ s ∈ visited, s ∈ visited'
  queue_subset : ∀ s ∈ queue, s ∈ queue'
  new : ∀ s ∈ visited', s ∈ visited ∨ s ∈ queue' ∧ s ∈ ss
  new_queue : ∀ s ∈ queue', s ∈ queue ∨ s ∈ ss
  length : visited'.length + queue.length = visited.length + queue'.length

theorem scan_eq_some {ss visited queue visited' queue' : List α} (hnodup : visited.Nodup)
    (h : scan goal ss visited queue = some (visited', queue')) :
    Scanned ss visited queue visited' queue' ∧ ∀ s ∈ ss, goal s = false := by
  induction ss generalizing visited queue with
  | nil =>
    obtain ⟨rfl, rfl⟩ := Prod.mk.inj (Option.some.inj h)
    exact ⟨⟨hnodup, by simp, fun _ => id, fun _ => id, fun _ => .inl, fun _ => .inl, rfl⟩, by simp⟩
  | cons s ss ih =>
    unfold scan at h
    split at h
    · exact nomatch h
    next hgoal =>
    rw [Bool.not_eq_true] at hgoal
    split at h
    next hmem =>
      obtain ⟨hs, hno⟩ := ih hnodup h
      refine ⟨⟨hs.nodup, ?_, hs.subset, hs.queue_subset, ?_, ?_, hs.length⟩, ?_⟩
      · exact List.forall_mem_cons.mpr ⟨hs.subset s hmem, hs.seen⟩
      · exact fun x hx => (hs.new x hx).imp_right fun ⟨h₁, h₂⟩ => ⟨h₁, List.mem_cons_of_mem _ h₂⟩
      · exact fun x hx => (hs.new_queue x hx).imp_right (List.mem_cons_of_mem _)
      · exact List.forall_mem_cons.mpr ⟨hgoal, hno⟩
    next hmem =>
      obtain ⟨hs, hno⟩ := ih (List.nodup_cons.mpr ⟨hmem, hnodup⟩) h
      have hsv : s ∈ visited' := hs.subset s List.mem_cons_self
      have hsq : s ∈ queue' := hs.queue_subset s (by simp)
      refine ⟨⟨hs.nodup, ?_, ?_, ?_, ?_, ?_, ?_⟩, ?_⟩
      · exact List.forall_mem_cons.mpr ⟨hsv, hs.seen⟩
      · exact fun x hx => hs.subset x (List.mem_cons_of_mem _ hx)
      · exact fun x hx => hs.queue_subset x (List.mem_append_left _ hx)
      · intro x hx
        rcases hs.new x hx with hx | ⟨h₁, h₂⟩
        · rcases List.mem_cons.mp hx with rfl | hx
          · exact .inr ⟨hsq, List.mem_cons_self⟩
          · exact .inl hx
        · exact .inr ⟨h₁, List.mem_cons_of_mem _ h₂⟩
      · intro x hx
        rcases hs.new_queue x hx with hx | hx
        · rcases List.mem_append.mp hx with hx | hx
          · exact .inl hx
          · exact .inr (List.mem_singleton.mp hx ▸ List.mem_cons_self)
        · exact .inr (List.mem_cons_of_mem _ hx)
      · have := hs.length
        rw [List.length_append, List.length_singleton, List.length_cons] at this
        omega
      · exact List.forall_mem_cons.mpr ⟨hgoal, hno⟩

theorem finds_sound {fuel : ℕ} {visited queue : List α} (hnodup : visited.Nodup)
    (h : finds succ goal fuel visited queue = true) :
    ∃ x ∈ queue, ∃ y, Relation.TransGen (Step succ) x y ∧ goal y := by
  induction fuel generalizing visited queue with
  | zero => exact nomatch h
  | succ fuel ih =>
    cases queue with
    | nil => exact nomatch h
    | cons nd queue =>
      unfold finds at h
      split at h
      next hscan =>
        obtain ⟨s, hs, hgoal⟩ := scan_eq_none hscan
        exact ⟨nd, List.mem_cons_self, s, .single hs, hgoal⟩
      next visited' queue' hscan =>
        obtain ⟨hs, -⟩ := scan_eq_some hnodup hscan
        obtain ⟨x, hx, y, hxy, hy⟩ := ih hs.nodup h
        rcases hs.new_queue x hx with hx | hx
        · exact ⟨x, List.mem_cons_of_mem _ hx, y, hxy, hy⟩
        · exact ⟨nd, List.mem_cons_self, y, .head hx hxy, hy⟩

/-- The nodes of `E` that are not waiting have been searched. -/
def Searched (succ : α → List α) (goal : α → Bool) (visited queue : List α) (x : α) : Prop :=
  x ∈ queue ∨ ∀ s ∈ succ x, goal s = false ∧ s ∈ visited

omit [DecidableEq α] in
/-- When nothing waits any more, the visited nodes are all that can be reached. -/
theorem goal_eq_false {visited : List α} {start y : α} (hstart : Searched succ goal visited [] start)
    (hsearched : ∀ x ∈ visited, Searched succ goal visited [] x)
    (hy : Relation.TransGen (Step succ) start y) : goal y = false ∧ y ∈ visited := by
  induction hy with
  | single hs => exact hstart.resolve_left List.not_mem_nil _ hs
  | tail _ hs ih => exact (hsearched _ ih.2).resolve_left List.not_mem_nil _ hs

theorem finds_complete {U : List α} (hU : ∀ x ∈ U, ∀ y ∈ succ x, y ∈ U) {start : α} {fuel : ℕ}
    {visited queue : List α} (hnodup : visited.Nodup) (hvisited : ∀ x ∈ visited, x ∈ U)
    (hqueue : ∀ x ∈ queue, x ∈ U) (hfuel : U.length + queue.length ≤ fuel + visited.length)
    (hstart : Searched succ goal visited queue start)
    (hsearched : ∀ x ∈ visited, Searched succ goal visited queue x)
    (h : finds succ goal fuel visited queue = false) {y : α}
    (hy : Relation.TransGen (Step succ) start y) : goal y = false := by
  have hlen : visited.length ≤ U.length := (hnodup.subperm hvisited).length_le
  induction fuel generalizing visited queue with
  | zero =>
    obtain rfl := List.length_eq_zero_iff.mp (show queue.length = 0 by omega)
    exact (goal_eq_false hstart hsearched hy).1
  | succ fuel ih =>
    cases queue with
    | nil => exact (goal_eq_false hstart hsearched hy).1
    | cons nd queue =>
      unfold finds at h
      split at h
      · exact nomatch h
      next visited' queue' hscan =>
        obtain ⟨hs, hno⟩ := scan_eq_some hnodup hscan
        have hsucc : ∀ s ∈ succ nd, s ∈ U := hU nd (hqueue nd List.mem_cons_self)
        have hstep : ∀ x, Searched succ goal visited (nd :: queue) x →
            Searched succ goal visited' queue' x := by
          rintro x (hx | hx)
          · rcases List.mem_cons.mp hx with rfl | hx
            · exact .inr fun s hmem => ⟨hno s hmem, hs.seen s hmem⟩
            · exact .inl (hs.queue_subset x hx)
          · exact .inr fun s hmem => ⟨(hx s hmem).1, hs.subset s (hx s hmem).2⟩
        have hvisited' : ∀ x ∈ visited', x ∈ U := by
          intro x hx
          rcases hs.new x hx with hx | ⟨-, hx⟩
          · exact hvisited x hx
          · exact hsucc x hx
        have hqueue' : ∀ x ∈ queue', x ∈ U := by
          intro x hx
          rcases hs.new_queue x hx with hx | hx
          · exact hqueue x (List.mem_cons_of_mem _ hx)
          · exact hsucc x hx
        have hlen' := (hs.nodup.subperm hvisited').length_le
        have hlength := hs.length
        rw [List.length_cons] at hfuel
        refine ih hs.nodup hvisited' hqueue' (by omega) (hstep _ hstart) ?_ h hlen'
        intro x hx
        rcases hs.new x hx with hx | ⟨hx, -⟩
        · exact hstep x (hsearched x hx)
        · exact .inl hx

/-- **The search finds what can be reached.** -/
theorem finds_iff {U : List α} (hU : ∀ x ∈ U, ∀ y ∈ succ x, y ∈ U) {start : α} (hstart : start ∈ U) :
    finds succ goal (U.length + 1) [] [start] = true ↔
      ∃ y, Relation.TransGen (Step succ) start y ∧ goal y := by
  constructor
  · intro h
    obtain ⟨x, hx, y, hxy, hy⟩ := finds_sound List.nodup_nil h
    exact ⟨y, List.mem_singleton.mp hx ▸ hxy, hy⟩
  · rintro ⟨y, hxy, hy⟩
    by_contra h
    rw [Bool.not_eq_true] at h
    have hqueue : ∀ x ∈ [start], x ∈ U := fun x hx => List.mem_singleton.mp hx ▸ hstart
    have hno : goal y = false := finds_complete hU List.nodup_nil (by simp) hqueue
      (Nat.le_refl _) (.inl List.mem_cons_self) (by simp) h hxy
    rw [hno] at hy
    exact nomatch hy

/-! ### Marking -/

omit [DecidableEq α] in
/-- Elements that are counted no more than before, and one of them less by `k`. -/
theorem sum_map_add_le {U : List α} {f f' : α → ℕ} (hle : ∀ x ∈ U, f' x ≤ f x) {a : α} (ha : a ∈ U)
    {k : ℕ} (hk : f' a + k ≤ f a) : (U.map f').sum + k ≤ (U.map f).sum := by
  induction U with
  | nil => exact nomatch ha
  | cons x U ih =>
    have hx : f' x ≤ f x := hle x List.mem_cons_self
    have hU : ∀ y ∈ U, f' y ≤ f y := fun y hy => hle y (List.mem_cons_of_mem _ hy)
    rw [List.map_cons, List.map_cons, List.sum_cons, List.sum_cons]
    rcases List.mem_cons.mp ha with rfl | ha
    · have := List.sum_le_sum hU
      omega
    · have := ih hU ha
      omega

theorem pending_insert {U visited : List α} {nd : α} (hnd : nd ∈ U) (hnew : nd ∉ visited) :
    pending succ U (visited.insert nd) + (succ nd).length ≤ pending succ U visited := by
  refine sum_map_add_le (fun x _ => ?_) hnd ?_
  · by_cases hx : x ∈ visited
    · rw [if_pos (List.mem_insert_of_mem hx)]
      exact Nat.zero_le _
    · rw [if_neg hx]
      split <;> omega
  · rw [if_pos List.mem_insert_self, if_neg hnew, Nat.zero_add]

/-- The search on its way: what is marked, and what is on the stack. -/
structure Marking (succ : α → List α) (start : α) (visited stack : List α) : Prop where
  start_mem : start ∈ visited ∨ start ∈ stack
  reached : ∀ x, x ∈ visited ∨ x ∈ stack → Relation.ReflTransGen (Step succ) start x
  closed : ∀ x ∈ visited, ∀ s ∈ succ x, s ∈ visited ∨ s ∈ stack
  /-- Successors of a marked node that is still on the stack are marked, or above it. -/
  above : ∀ pre x post, stack = pre ++ x :: post → x ∈ visited → ∀ s ∈ succ x,
    s ∈ visited ∨ s ∈ pre

theorem Marking.take {start nd : α} {visited stack : List α}
    (h : Marking succ start visited (nd :: stack)) :
    Marking succ start (visited.insert nd)
      (((succ nd).filter fun s => s ∉ visited.insert nd).reverse ++ stack) := by
  set visited' := visited.insert nd with hvisited
  set pushed := ((succ nd).filter fun s => s ∉ visited').reverse with hpushed
  have hv : ∀ x, x ∈ visited' ↔ x = nd ∨ x ∈ visited := fun x => List.mem_insert_iff
  have hp : ∀ x, x ∈ pushed ↔ x ∈ succ nd ∧ x ∉ visited' := by
    intro x
    rw [hpushed, List.mem_reverse, List.mem_filter, decide_eq_true_eq]
  have hnd : ∀ s ∈ succ nd, s ∈ visited' ∨ s ∈ pushed := by
    intro s hs
    by_cases hs' : s ∈ visited'
    · exact .inl hs'
    · exact .inr ((hp s).mpr ⟨hs, hs'⟩)
  refine ⟨?_, ?_, ?_, ?_⟩
  · rcases h.start_mem with hs | hs
    · exact .inl ((hv _).mpr (.inr hs))
    · rcases List.mem_cons.mp hs with rfl | hs
      · exact .inl ((hv _).mpr (.inl rfl))
      · exact .inr (List.mem_append_right _ hs)
  · have hnd' := h.reached nd (.inr List.mem_cons_self)
    intro x hx
    rcases hx with hx | hx
    · rcases (hv x).mp hx with rfl | hx
      · exact hnd'
      · exact h.reached x (.inl hx)
    · rcases List.mem_append.mp hx with hx | hx
      · exact hnd'.tail ((hp x).mp hx).1
      · exact h.reached x (.inr (List.mem_cons_of_mem _ hx))
  · intro x hx s hs
    rcases (hv x).mp hx with rfl | hx
    · exact (hnd s hs).imp_right fun hs => List.mem_append_left _ hs
    · rcases h.closed x hx s hs with hs | hs
      · exact .inl ((hv s).mpr (.inr hs))
      · rcases List.mem_cons.mp hs with rfl | hs
        · exact .inl ((hv s).mpr (.inl rfl))
        · exact .inr (List.mem_append_right _ hs)
  · intro pre x post hstack hx s hs
    have hold : ∀ pre', pre = pushed ++ pre' → stack = pre' ++ x :: post → s ∈ visited' ∨ s ∈ pre := by
      rintro pre' rfl hrest
      rcases (hv x).mp hx with rfl | hx
      · exact (hnd s hs).imp_right fun hs => List.mem_append_left _ hs
      · rcases h.above (nd :: pre') x post (by rw [hrest, List.cons_append]) hx s hs with hs | hs
        · exact .inl ((hv s).mpr (.inr hs))
        · rcases List.mem_cons.mp hs with rfl | hs
          · exact .inl ((hv s).mpr (.inl rfl))
          · exact .inr (List.mem_append_right _ hs)
    rcases List.append_eq_append_iff.mp hstack with ⟨pre', hpre, hrest⟩ | ⟨post', hpre, hpost⟩
    · exact hold pre' hpre hrest
    · cases post' with
      | nil => exact hold [] (by simpa using hpre.symm) hpost.symm
      | cons y post' =>
        -- the nodes that have just been pushed are not marked
        obtain ⟨rfl, -⟩ := List.cons.inj hpost
        exact absurd hx ((hp x).mp (by simp [hpre])).2

theorem exists_marks {U : List α} {start : α}
    (hU : ∀ x, Relation.ReflTransGen (Step succ) start x → x ∈ U) {fuel : ℕ} {visited stack : List α}
    (h : Marking succ start visited stack) (hfuel : pending succ U visited + stack.length ≤ fuel) :
    ∃ visited', marks succ fuel visited stack = some visited' ∧ Marking succ start visited' [] := by
  induction fuel generalizing visited stack with
  | zero =>
    obtain rfl := List.length_eq_zero_iff.mp (show stack.length = 0 by omega)
    exact ⟨visited, by rw [marks], h⟩
  | succ fuel ih =>
    cases stack with
    | nil => exact ⟨visited, by rw [marks], h⟩
    | cons nd stack =>
      rw [marks]
      refine ih h.take ?_
      rw [List.length_append, List.length_reverse]
      rw [List.length_cons] at hfuel
      by_cases hnd : nd ∈ visited
      · have hnil : (succ nd).filter (fun s => s ∉ visited.insert nd) = [] := by
          refine List.filter_eq_nil_iff.mpr fun s hs => ?_
          have hs' := (h.above [] nd stack rfl hnd s hs).resolve_right List.not_mem_nil
          simp [List.mem_insert_of_mem hs']
        rw [hnil, List.insert_of_mem hnd, List.length_nil]
        omega
      · have hpend : pending succ U (visited.insert nd) + _ ≤ _ :=
          pending_insert (hU nd (h.reached nd (.inr List.mem_cons_self))) hnd
        have hlen := List.length_filter_le (fun s => decide (s ∉ visited.insert nd)) (succ nd)
        omega

/-- **The second search marks what can be reached.** -/
theorem mem_marks {U : List α} {start : α}
    (hU : ∀ x, Relation.ReflTransGen (Step succ) start x → x ∈ U) {fuel : ℕ}
    (hfuel : (U.map fun x => (succ x).length).sum < fuel) :
    ∃ visited, marks succ fuel [] [start] = some visited ∧
      ∀ x, x ∈ visited ↔ Relation.ReflTransGen (Step succ) start x := by
  have hinit : Marking succ start [] [start] := by
    refine ⟨.inr List.mem_cons_self, ?_, fun x hx => (nomatch hx), fun _ x _ _ hx => (nomatch hx)⟩
    rintro x (hx | hx)
    · exact nomatch hx
    · rw [List.mem_singleton.mp hx]
  have hpend : pending succ U [] + [start].length ≤ fuel := by
    simp only [pending, List.not_mem_nil, if_false]
    exact hfuel
  obtain ⟨visited, hmarks, h⟩ := exists_marks hU hinit hpend
  refine ⟨visited, hmarks, fun x => ⟨fun hx => h.reached x (.inl hx), fun hx => ?_⟩⟩
  induction hx with
  | refl => exact h.start_mem.resolve_right List.not_mem_nil
  | tail _ hs ih => exact (h.closed _ ih _ hs).resolve_right List.not_mem_nil

end Search
