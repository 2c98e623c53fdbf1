import NfpEstimator.Cfg.Unroll

/-!
# Topological sorting

`cfg::topo_sort` takes a node when all edges to it have been counted. The start is taken
first, without any count; so if it has edges to it, it is taken again when all of them
have been counted. The edges out of it then count twice.

Where no cycle leads through the start, the nodes on the way to the final node come out in
topological order, and a cycle among them is noticed, as it keeps the final node from being
taken. Otherwise a cycle is noticed only if a set of nodes blocks the way to the final node
in spite of the additional counts (`topoSort_correct_iff`).
-/

namespace NfpEstimator

/-! ### The algorithm -/

/-- `cfg::node::indegree`. -/
def Cfg.indegree (g : Cfg) (nd : ℕ) : ℕ := (g.pred nd).length

/-- The variables of `cfg::topo_sort`. -/
structure Sorting where
  /-- The nodes that have not been taken, in the order of their numbers. -/
  r : List ℕ
  nodes : List ℕ
  visited : ℕ → ℕ
  stack : List ℕ

namespace Sorting

/-- The variables before the loop. -/
def initial (g : Cfg) : Sorting where
  r := g.nodes.dedup.insertionSort (· ≤ ·)
  nodes := []
  visited := fun _ => 0
  stack := [g.start]

/-- An edge to `s` is counted. -/
def count (g : Cfg) (st : Sorting) (s : ℕ) : Sorting :=
  let visited := Function.update st.visited s (st.visited s + 1)
  { st with
    visited := visited
    stack := if visited s = g.indegree s then s :: st.stack else st.stack }

/-- The node `nd` is taken, and the edges out of it are counted. -/
def take (g : Cfg) (nd : ℕ) (stack : List ℕ) (st : Sorting) : Sorting :=
  ((g.succs nd).map Prod.fst).foldl (count g)
    { st with r := st.r.erase nd, nodes := st.nodes ++ [nd], stack := stack }

/-- The loop of `cfg::topo_sort`. -/
def loop (g : Cfg) : ℕ → Sorting → Option Sorting
  | 0, st => if st.stack = [] then some st else none
  | fuel + 1, st =>
    match st.stack with
    | [] => some st
    | nd :: stack => loop g fuel (take g nd stack st)

end Sorting

/-- `cfg::topo_sort`, with the error where it gives up. `fuel` bounds the iterations of the
loop. -/
def Cfg.topoSort (g : Cfg) (fuel : ℕ) : Option (Except String Cfg) :=
  (Sorting.loop g fuel (.initial g)).map fun st =>
    if g.fin ∈ st.r then .error "cfg not loop-free" else .ok { g with nodes := st.nodes ++ st.r }

/-- The links between the nodes are kept in both directions. -/
structure Cfg.Linked (g : Cfg) : Prop where
  nodup : g.nodes.Nodup
  start_mem : g.start ∈ g.nodes
  succ_mem : ∀ nd ∈ g.nodes, ∀ b, ∀ s ∈ g.succ nd b, s ∈ g.nodes
  succ_pred : ∀ nd ∈ g.nodes, ∀ b, ∀ s ∈ g.succ nd b, (nd, b) ∈ g.pred s
  pred_succ : ∀ s ∈ g.nodes, ∀ e ∈ g.pred s, e.1 ∈ g.nodes ∧ g.succ e.1 e.2 = some s
  pred_nodup : ∀ s ∈ g.nodes, (g.pred s).Nodup

instance (g : Cfg) : Decidable g.Linked :=
  decidable_of_iff
    (g.nodes.Nodup ∧ g.start ∈ g.nodes ∧ (∀ nd ∈ g.nodes, ∀ b, ∀ s ∈ g.succ nd b, s ∈ g.nodes) ∧
      (∀ nd ∈ g.nodes, ∀ b, ∀ s ∈ g.succ nd b, (nd, b) ∈ g.pred s) ∧
      (∀ s ∈ g.nodes, ∀ e ∈ g.pred s, e.1 ∈ g.nodes ∧ g.succ e.1 e.2 = some s) ∧
      ∀ s ∈ g.nodes, (g.pred s).Nodup)
    ⟨fun ⟨h1, h2, h3, h4, h5, h6⟩ => ⟨h1, h2, h3, h4, h5, h6⟩,
      fun ⟨h1, h2, h3, h4, h5, h6⟩ => ⟨h1, h2, h3, h4, h5, h6⟩⟩

/-! ### Counting edges -/

/-- How many edges to a node have been counted when these nodes have been taken. -/
def Cfg.counted (g : Cfg) (taken : List ℕ) (x : ℕ) : ℕ :=
  ((g.pred x).map fun e => taken.count e.1).sum

section

variable {g : Cfg} {st st' : Sorting} {x nd : ℕ}

/-- The edges from one node to another, seen from both sides. -/
theorem count_succs (hg : g.Linked) (hnd : nd ∈ g.nodes) (hx : x ∈ g.nodes) :
    ((g.succs nd).map Prod.fst).count x = (g.pred x).countP fun e => e.1 = nd := by
  have hmem : ∀ b, (nd, b) ∈ g.pred x ↔ g.succ nd b = some x :=
    fun b => ⟨fun h => (hg.pred_succ x hx _ h).2, fun h => hg.succ_pred nd hnd b x h⟩
  have hperm : ((g.pred x).filter fun e => e.1 = nd).Perm
      ([(nd, true), (nd, false)].filter fun e => e ∈ g.pred x) := by
    rw [List.perm_ext_iff_of_nodup ((hg.pred_nodup x hx).filter _) (List.Nodup.filter _ (by simp))]
    rintro ⟨m, b⟩
    cases b <;> simp [and_comm]
  rw [List.countP_eq_length_filter, hperm.length_eq]
  cases ht : g.succ nd true <;> cases hf : g.succ nd false <;>
    simp [Cfg.succs, ht, hf, hmem, List.count_cons, List.filter_cons] <;> split_ifs <;> simp

theorem counted_append (taken : List ℕ) (nd x : ℕ) :
    g.counted (taken ++ [nd]) x = g.counted taken x + (g.pred x).countP fun e => e.1 = nd := by
  have hcount : ∀ e : Edge, (taken ++ [nd]).count e.1 = taken.count e.1 + if e.1 = nd then 1 else 0 := by
    intro e
    rw [List.count_append, List.count_singleton]
    simp only [beq_iff_eq, @eq_comm _ nd]
  unfold Cfg.counted
  simp only [hcount]
  induction g.pred x with
  | nil => rfl
  | cons e l ih =>
    rw [List.map_cons, List.sum_cons, ih]
    simp only [List.map_cons, List.sum_cons, List.countP_cons, decide_eq_true_eq]
    omega

/-- Some elements may be counted once more than the others, and some less. -/
theorem sum_add_countP_le {α : Type*} {l : List α} {f : α → ℕ} {p q : α → Bool}
    (h : ∀ e ∈ l, f e + (if p e then 1 else 0) ≤ 1 + if q e then 1 else 0) :
    (l.map f).sum + l.countP p ≤ l.length + l.countP q := by
  induction l with
  | nil => simp
  | cons e l ih =>
    have h₁ := h e List.mem_cons_self
    have h₂ := ih fun e' he => h e' (List.mem_cons_of_mem _ he)
    simp only [List.map_cons, List.sum_cons, List.length_cons, List.countP_cons]
    omega

theorem le_sum_add_countP {α : Type*} {l : List α} {f : α → ℕ} {p q : α → Bool}
    (h : ∀ e ∈ l, 1 + (if q e then 1 else 0) ≤ f e + if p e then 1 else 0) :
    l.length + l.countP q ≤ (l.map f).sum + l.countP p := by
  induction l with
  | nil => simp
  | cons e l ih =>
    have h₁ := h e List.mem_cons_self
    have h₂ := ih fun e' he => h e' (List.mem_cons_of_mem _ he)
    simp only [List.map_cons, List.sum_cons, List.length_cons, List.countP_cons]
    omega

namespace Sorting

/-! ### The invariant -/

/-- Counting some edges: a node is pushed when the last edge to it is counted. -/
theorem foldl_count (l : List ℕ) (st : Sorting) :
    (l.foldl (count g) st).r = st.r ∧ (l.foldl (count g) st).nodes = st.nodes ∧
      ∀ x, (l.foldl (count g) st).visited x = st.visited x + l.count x ∧
        (l.foldl (count g) st).stack.count x = st.stack.count x +
          if st.visited x < g.indegree x ∧ g.indegree x ≤ st.visited x + l.count x then 1 else 0 := by
  induction l generalizing st with
  | nil =>
    refine ⟨rfl, rfl, fun x => ⟨rfl, ?_⟩⟩
    rw [if_neg (by simp), Nat.add_zero, List.foldl_nil]
  | cons s l ih =>
    obtain ⟨hr, hnodes, h⟩ := ih (count g st s)
    refine ⟨hr, hnodes, fun x => ?_⟩
    obtain ⟨hvis, hstack⟩ := h x
    rw [List.foldl_cons, hvis, hstack, List.count_cons]
    by_cases hx : x = s
    · subst hx
      simp only [count, Function.update_self, beq_self_eq_true, if_true]
      refine ⟨by omega, ?_⟩
      by_cases heq : st.visited x + 1 = g.indegree x
      · rw [if_pos heq, List.count_cons_self]
        split_ifs <;> omega
      · rw [if_neg heq]
        split_ifs <;> omega
    · have hcount : (count g st s).stack.count x = st.stack.count x := by
        simp only [count]
        split
        · rw [List.count_cons_of_ne (Ne.symm hx)]
        · rfl
      simp only [hcount, beq_eq_false_iff_ne.mpr (Ne.symm hx), Bool.false_eq_true, if_false, Nat.add_zero]
      simp only [count, Function.update_of_ne hx, and_self]

/-- How often a node is pushed: once when all edges to it have been counted, and the start
once more. -/
structure Counted (g : Cfg) (st : Sorting) : Prop where
  visited : ∀ x ∈ g.nodes, st.visited x = g.counted st.nodes x
  reached : ∀ x ∈ st.nodes ++ st.stack, x ∈ g.nodes ∧ ∃ es, g.Walk g.start es x
  count : ∀ x ∈ g.nodes, st.nodes.count x + st.stack.count x =
    (if x = g.start then 1 else 0) +
      if 0 < g.indegree x ∧ g.indegree x ≤ g.counted st.nodes x then 1 else 0
  mem_r : ∀ x, x ∈ st.r ↔ x ∈ g.nodes ∧ x ∉ st.nodes
  nodup_r : st.r.Nodup

theorem counted_initial (hg : g.Linked) : Counted g (initial g) := by
  have hzero : ∀ x, g.counted [] x = 0 := by simp [Cfg.counted]
  have hnodes : (initial g).nodes = [] := rfl
  refine ⟨fun x _ => (hzero x).symm, ?_, ?_, ?_, ?_⟩
  · intro x hx
    obtain rfl : x = g.start := List.mem_singleton.mp hx
    exact ⟨hg.start_mem, [], rfl⟩
  · intro x _
    rw [hnodes, hzero, if_neg (c := 0 < g.indegree x ∧ _) (by omega)]
    simp only [initial, List.count_nil, List.count_singleton, beq_iff_eq, @eq_comm _ x]
    omega
  · intro x
    simp [initial, (List.perm_insertionSort _ _).mem_iff]
  · exact (List.perm_insertionSort _ _).nodup_iff.mpr (List.nodup_dedup _)

/-- What taking a node does. -/
theorem take_spec (g : Cfg) (nd : ℕ) (stack : List ℕ) (st : Sorting) :
    (take g nd stack st).r = st.r.erase nd ∧ (take g nd stack st).nodes = st.nodes ++ [nd] ∧
      ∀ x, (take g nd stack st).visited x = st.visited x + ((g.succs nd).map Prod.fst).count x ∧
        (take g nd stack st).stack.count x = stack.count x +
          if st.visited x < g.indegree x ∧
            g.indegree x ≤ st.visited x + ((g.succs nd).map Prod.fst).count x then 1 else 0 :=
  foldl_count ((g.succs nd).map Prod.fst)
    { st with r := st.r.erase nd, nodes := st.nodes ++ [nd], stack := stack }

/-- A node on the stack has been there before, or it is a successor. -/
theorem mem_stack_take {stack : List ℕ} (hx : x ∈ (take g nd stack st).stack) :
    x ∈ stack ∨ x ∈ (g.succs nd).map Prod.fst := by
  by_contra hnot
  rw [not_or, ← List.count_eq_zero, ← List.count_eq_zero] at hnot
  have hcount := ((take_spec g nd stack st).2.2 x).2
  rw [hnot.1, hnot.2, if_neg (by omega), List.count_eq_zero] at hcount
  exact hcount hx

theorem Counted.take (h : Counted g st) (hg : g.Linked) {stack : List ℕ}
    (hst : st.stack = nd :: stack) : Counted g (take g nd stack st) := by
  obtain ⟨hr, hnodes, hspec⟩ := take_spec g nd stack st
  obtain ⟨hnd, es, hw⟩ := h.reached nd (by simp [hst])
  have hsum : ∀ x ∈ g.nodes, g.counted (st.nodes ++ [nd]) x =
      st.visited x + ((g.succs nd).map Prod.fst).count x := by
    intro x hx
    rw [counted_append, h.visited x hx, count_succs hg hnd hx]
  refine ⟨?_, ?_, ?_, ?_, ?_⟩
  · intro x hx
    rw [(hspec x).1, hnodes, hsum x hx]
  · intro x hx
    rw [hnodes, List.mem_append, List.mem_append, List.mem_singleton] at hx
    rcases hx with (hx | rfl) | hx
    · exact h.reached x (List.mem_append_left _ hx)
    · exact ⟨hnd, es, hw⟩
    rcases mem_stack_take hx with hx | hx
    · exact h.reached x (by simp [hst, hx])
    · obtain ⟨⟨s, b⟩, hs, rfl⟩ := List.mem_map.mp hx
      have hs := Cfg.mem_succs.mp hs
      exact ⟨hg.succ_mem nd hnd b _ hs, es ++ [(nd, b)], hw.append (Cfg.walk_single (e := (nd, b)) hs)⟩
  · intro x hx
    have hold := h.count x hx
    rw [hst, List.count_cons, ← h.visited x hx] at hold
    rw [(hspec x).2, hnodes, hsum x hx, List.count_append, List.count_singleton]
    split_ifs at hold ⊢ <;> omega
  · intro x
    rw [hr, hnodes, h.nodup_r.mem_erase_iff, h.mem_r, List.mem_append, List.mem_singleton]
    tauto
  · rw [hr]
    exact h.nodup_r.erase nd

/-- A node other than the start is on the stack, or has been taken, once at most. -/
theorem Counted.count_le (h : Counted g st) (hx : x ∈ g.nodes) (hne : x ≠ g.start) :
    st.nodes.count x + st.stack.count x ≤ 1 := by
  rw [h.count x hx, if_neg hne]
  split_ifs <;> omega

/-- As many nodes are taken as there are, and one more, at most. -/
theorem Counted.length_le (h : Counted g st) (hg : g.Linked) :
    (st.nodes ++ st.stack).length ≤ g.nodes.length + 1 := by
  refine (List.subperm_ext_iff.mpr fun x hx => ?_ :
    List.Subperm (st.nodes ++ st.stack) (g.start :: g.nodes)).length_le
  have hmem := (h.reached x hx).1
  rw [List.count_append, h.count x hmem, List.count_cons, List.count_eq_one_of_mem hg.nodup hmem]
  simp only [beq_iff_eq, @eq_comm _ g.start]
  split_ifs <;> omega

/-- What a step keeps, a run keeps. -/
theorem loop_induct {p : Sorting → Prop}
    (hstep : ∀ st nd stack, st.stack = nd :: stack → p st → p (Sorting.take g nd stack st)) {fuel : ℕ}
    (h : loop g fuel st = some st') (hp : p st) : p st' ∧ st'.stack = [] := by
  induction fuel generalizing st with
  | zero =>
    rw [loop] at h
    split at h
    next hnil =>
      obtain rfl := Option.some.inj h
      exact ⟨hp, hnil⟩
    · exact nomatch h
  | succ fuel ih =>
    rw [loop] at h
    split at h
    next hnil =>
      obtain rfl := Option.some.inj h
      exact ⟨hp, hnil⟩
    next nd stack hst => exact ih h (hstep st nd stack hst hp)

/-- **The loop ends.** -/
theorem exists_loop (hg : g.Linked) {fuel : ℕ} (h : Counted g st)
    (hfuel : g.nodes.length + 1 ≤ st.nodes.length + fuel) : ∃ st', loop g fuel st = some st' := by
  induction fuel generalizing st with
  | zero =>
    have hlen := h.length_le hg
    rw [List.length_append] at hlen
    have hnil : st.stack = [] := List.length_eq_zero_iff.mp (by omega)
    exact ⟨st, by rw [loop, if_pos hnil]⟩
  | succ fuel ih =>
    rw [loop]
    split
    · exact ⟨st, rfl⟩
    next nd stack hst =>
      refine ih (h.take hg hst) ?_
      rw [(take_spec g nd stack st).2.1, List.length_append, List.length_singleton]
      omega

/-- More iterations do not change the result. -/
theorem loop_mono {fuel fuel' : ℕ} (hle : fuel ≤ fuel') (h : loop g fuel st = some st') :
    loop g fuel' st = some st' := by
  induction fuel generalizing fuel' st with
  | zero =>
    rw [loop] at h
    split at h
    next hnil => cases fuel' <;> simpa [loop, hnil] using h
    · exact nomatch h
  | succ fuel ih =>
    obtain ⟨fuel', rfl⟩ : ∃ n, fuel' = n + 1 := ⟨fuel' - 1, by omega⟩
    rw [loop] at h ⊢
    split at h
    · exact h
    · exact ih (Nat.le_of_succ_le_succ hle) h

/-! ### No cycle through the start -/

/-- The nodes before a node that has been taken have been taken before it. -/
def Ordered (g : Cfg) (st : Sorting) : Prop :=
  ∀ x ∈ st.nodes, x ≠ g.start → ∀ e ∈ g.pred x,
    e.1 ∈ st.nodes ∧ st.nodes.idxOf e.1 < st.nodes.idxOf x

/-- A node is not pushed before the nodes before it have been taken, if none is taken twice. -/
theorem Counted.mem_of_pushed (h : Counted g st) (hg : g.Linked)
    (hone : ∀ y ∈ g.nodes, st.nodes.count y ≤ 1) (hx : x ∈ st.nodes ++ st.stack) (hne : x ≠ g.start) :
    ∀ e ∈ g.pred x, e.1 ∈ st.nodes := by
  intro e he
  by_contra hnot
  have hmem := (h.reached x hx).1
  have hcount := h.count x hmem
  have hpos := List.count_pos_iff.mpr hx
  rw [List.count_append, hcount, if_neg hne] at hpos
  have hle : g.indegree x ≤ g.counted st.nodes x := by
    split_ifs at hpos
    next hle => exact hle.2
    · omega
  have hsum := sum_add_countP_le (l := g.pred x) (f := fun e => st.nodes.count e.1)
    (p := fun e => e.1 ∉ st.nodes) (q := fun _ => false) (by
      intro e' he'
      have := hone e'.1 (hg.pred_succ x hmem e' he').1
      by_cases hin : e'.1 ∈ st.nodes
      · simpa [hin] using this
      · simp [hin, List.count_eq_zero.mpr hin])
  have hmiss : 0 < (g.pred x).countP fun e => e.1 ∉ st.nodes :=
    List.countP_pos_iff.mpr ⟨e, he, by simpa using hnot⟩
  simp only [List.countP_false, Function.const_apply] at hsum
  unfold Cfg.indegree Cfg.counted at hle
  omega

section

variable (hg : g.Linked) (hcycle : ∀ es, es ≠ [] → ¬g.Walk g.start es g.start)
include hg hcycle

theorem Counted.count_le_one (h : Counted g st) (hx : x ∈ g.nodes) :
    st.nodes.count x + st.stack.count x ≤ 1 := by
  by_cases hne : x = g.start
  · subst hne
    have hzero : g.counted st.nodes g.start = 0 := by
      refine List.sum_eq_zero fun n hn => ?_
      obtain ⟨e, he, rfl⟩ := List.mem_map.mp hn
      rw [List.count_eq_zero]
      intro hmem
      obtain ⟨-, es, hw⟩ := h.reached e.1 (List.mem_append_left _ hmem)
      exact hcycle (es ++ [e]) (by simp) (hw.append (Cfg.walk_single (hg.pred_succ _ hx e he).2))
    rw [h.count _ hx, hzero, if_pos rfl, if_neg (by omega)]
  · exact h.count_le hx hne

theorem Ordered.take (h : Counted g st) (ho : Ordered g st) {stack : List ℕ}
    (hst : st.stack = nd :: stack) : Ordered g (Sorting.take g nd stack st) := by
  have hnodes := (take_spec g nd stack st).2.1
  have hpush : nd ∈ st.nodes ++ st.stack := by simp [hst]
  have hone : ∀ y ∈ g.nodes, st.nodes.count y ≤ 1 := by
    intro y hy
    have := h.count_le_one hg hcycle hy
    omega
  have hnd : nd ∉ st.nodes := by
    have := h.count_le_one hg hcycle (h.reached nd hpush).1
    rw [hst, List.count_cons_self] at this
    rw [← List.count_eq_zero]
    omega
  unfold Ordered
  rw [hnodes]
  intro x hx hne e he
  have hmem : e.1 ∈ st.nodes ∧ (x ∈ st.nodes → st.nodes.idxOf e.1 < st.nodes.idxOf x) := by
    rcases List.mem_append.mp hx with hx | hx
    · exact ⟨(ho x hx hne e he).1, fun _ => (ho x hx hne e he).2⟩
    · obtain rfl := List.mem_singleton.mp hx
      exact ⟨h.mem_of_pushed hg hone hpush hne e he, fun hx => absurd hx hnd⟩
  refine ⟨List.mem_append_left _ hmem.1, ?_⟩
  rw [List.idxOf_append_of_mem hmem.1]
  by_cases hx' : x ∈ st.nodes
  · rw [List.idxOf_append_of_mem hx']
    exact hmem.2 hx'
  · rw [List.idxOf_append_of_notMem hx']
    exact (List.idxOf_lt_length_of_mem hmem.1).trans_le (Nat.le_add_right _ _)

end

end Sorting

end

/-! ### What the order is -/

section

variable (g : Cfg)

/-- The node lies on a walk from the start to the final node. -/
def Cfg.OnPath (nd : ℕ) : Prop :=
  (∃ es, g.Walk g.start es nd) ∧ ∃ es, g.Walk nd es g.fin

/-- Each node on the way to the final node is listed once, and all edges between them lead forward. -/
def Cfg.InOrder (g' : Cfg) : Prop :=
  (∀ nd, g.OnPath nd → g'.nodes.count nd = 1) ∧
    ∀ nd b s, g.OnPath nd → g.OnPath s → g.succ nd b = some s →
      g'.nodes.idxOf nd < g'.nodes.idxOf s

/-- Topological sorting ends: with an order that is right, or else with an error, as it has to
if a cycle lies on the way to the final node. -/
def Cfg.TopoSorts : Prop :=
  ∃ fuel r, g.topoSort fuel = some r ∧ (∀ g', r = .ok g' → g.InOrder g') ∧
    ((∃ nd es, g.OnPath nd ∧ es ≠ [] ∧ g.Walk nd es nd) → ∃ msg, r = .error msg)

/-- The nodes of `S` keep each other from being taken: each has an edge from `S`, if it has any
edges to it, and the start has one too; or each has more edges from `S` than from the start. -/
def Cfg.Blocks (S : Finset ℕ) : Prop :=
  (∀ x ∈ S, x ∈ g.nodes ∧ x ≠ g.start) ∧
    ((∃ e ∈ g.pred g.start, e.1 ∈ S) ∧ (∀ x ∈ S, g.pred x ≠ [] → ∃ e ∈ g.pred x, e.1 ∈ S) ∨
      ∀ x ∈ S, g.pred x ≠ [] →
        ((g.pred x).countP fun e => e.1 = g.start) < (g.pred x).countP fun e => e.1 ∈ S)

end

section

variable {g : Cfg} {st : Sorting}

theorem Cfg.Linked.walk_mem (hg : g.Linked) {src dst : ℕ} {es : List Edge} (hsrc : src ∈ g.nodes)
    (h : g.Walk src es dst) : dst ∈ g.nodes := by
  induction es generalizing src with
  | nil => exact (show src = dst from h) ▸ hsrc
  | cons e es ih =>
    obtain ⟨rfl, s, hs, hrest⟩ := h
    exact ih (hg.succ_mem _ hsrc e.2 s hs) hrest

theorem Cfg.Linked.pred_start_ne_nil (hg : g.Linked) {es : List Edge} (hne : es ≠ [])
    (h : g.Walk g.start es g.start) : g.pred g.start ≠ [] := by
  rw [← List.dropLast_append_getLast hne] at h
  obtain ⟨mid, hw, rfl, s, hs, rfl⟩ := h.of_append
  exact List.ne_nil_of_mem (hg.succ_pred _ (hg.walk_mem hg.start_mem hw) _ _ hs)

/-- The order is right if no cycle leads through the start and the final node has been taken. -/
theorem Sorting.Ordered.inOrder (hg : g.Linked)
    (hcycle : ∀ es, es ≠ [] → ¬g.Walk g.start es g.start) (h : Counted g st) (ho : Ordered g st)
    (hfin : g.fin ∈ st.nodes) : g.InOrder { g with nodes := st.nodes ++ st.r } := by
  have hne : ∀ {x s b}, (∃ es, g.Walk g.start es x) → g.succ x b = some s → s ≠ g.start := by
    rintro x s b ⟨es, hw⟩ hs rfl
    exact hcycle (es ++ [(x, b)]) (by simp) (hw.append (Cfg.walk_single (e := (x, b)) hs))
  have hreach : ∀ {es x}, (∃ es, g.Walk g.start es x) → x ∈ g.nodes → g.Walk x es g.fin →
      x ∈ st.nodes := by
    intro es
    induction es with
    | nil =>
      intro x _ _ hw
      exact (show x = g.fin from hw) ▸ hfin
    | cons e es ih =>
      rintro x ⟨es', hw'⟩ hx ⟨rfl, s, hs, hrest⟩
      have hs' := hg.succ_mem e.1 hx e.2 s hs
      have hmem := ih ⟨es' ++ [e], hw'.append (Cfg.walk_single hs)⟩ hs' hrest
      exact (ho s hmem (hne ⟨es', hw'⟩ hs) e (hg.succ_pred e.1 hx e.2 s hs)).1
  have hpath : ∀ {nd}, g.OnPath nd → nd ∈ g.nodes ∧ nd ∈ st.nodes := by
    rintro nd ⟨⟨es, hw⟩, es', hw'⟩
    have hmem := hg.walk_mem hg.start_mem hw
    exact ⟨hmem, hreach ⟨es, hw⟩ hmem hw'⟩
  refine ⟨fun nd hnd => ?_, fun nd b s hnd hs hsucc => ?_⟩
  · obtain ⟨hmem, htaken⟩ := hpath hnd
    have hone := h.count_le_one hg hcycle hmem
    have hpos := List.count_pos_iff.mpr htaken
    have hzero : st.r.count nd = 0 :=
      List.count_eq_zero.mpr fun hr => ((h.mem_r nd).mp hr).2 htaken
    rw [List.count_append, hzero]
    omega
  · obtain ⟨hmem, htaken⟩ := hpath hnd
    obtain ⟨-, htaken'⟩ := hpath hs
    have hlt := (ho s htaken' (hne hnd.1 hsucc) (nd, b) (hg.succ_pred nd hmem b s hsucc)).2
    show (st.nodes ++ st.r).idxOf nd < (st.nodes ++ st.r).idxOf s
    rwa [List.idxOf_append_of_mem htaken, List.idxOf_append_of_mem htaken']

/-- Edges that all lead forward make no cycle. -/
theorem Cfg.InOrder.not_cycle {g' : Cfg} (h : g.InOrder g') {nd : ℕ} {es : List Edge} (hne : es ≠ [])
    (hpath : g.OnPath nd) : ¬g.Walk nd es nd := by
  intro hcycle
  have hlt : ∀ {es src}, g.OnPath src → g.Walk src es nd →
      g'.nodes.idxOf src + es.length ≤ g'.nodes.idxOf nd := by
    intro es
    induction es with
    | nil => exact fun _ hw => (show _ = _ from hw) ▸ le_rfl
    | cons e es ih =>
      rintro src hsrc ⟨rfl, s, hs, hrest⟩
      obtain ⟨es₁, hw₁⟩ := hsrc.1
      obtain ⟨es₂, hw₂⟩ := hpath.2
      have hs' : g.OnPath s :=
        ⟨⟨es₁ ++ [e], hw₁.append (Cfg.walk_single hs)⟩, es ++ es₂, hrest.append hw₂⟩
      have := ih hs' hrest
      have := h.2 e.1 e.2 s hsrc hs' hs
      rw [List.length_cons]
      omega
  have := hlt hpath hcycle
  have := List.length_pos_iff.mpr hne
  omega

/-! ### Nodes that block each other -/

namespace Sorting

variable {x nd : ℕ} {S : Finset ℕ} {stack : List ℕ}

/-- The nodes of the set have not been pushed. -/
def Avoids (S : Finset ℕ) (st : Sorting) : Prop := ∀ x ∈ S, x ∉ st.nodes ++ st.stack

theorem Avoids.taken (h : Avoids S st) (hst : st.stack = nd :: stack) :
    ∀ x ∈ S, (st.nodes ++ [nd]).count x = 0 := by
  intro x hx
  rw [List.count_eq_zero]
  intro hmem
  refine h x hx ?_
  rw [hst]
  rcases List.mem_append.mp hmem with hmem | hmem
  · exact List.mem_append_left _ hmem
  · exact List.mem_append_right _ (List.mem_cons.mpr (.inl (List.mem_singleton.mp hmem)))

/-- A node is not pushed unless all edges to it have been counted. -/
theorem Counted.le_of_mem_stack (h : Counted g st) (hx : x ∈ st.stack) (hne : x ≠ g.start) :
    0 < g.indegree x ∧ g.indegree x ≤ g.counted st.nodes x := by
  have hcount := h.count x (h.reached x (List.mem_append_right _ hx)).1
  have hpos := List.count_pos_iff.mpr hx
  rw [if_neg hne] at hcount
  split_ifs at hcount
  next hle => exact hle
  · omega

/-- Not all edges to a node are counted, if there are more from `S` than there are that count twice. -/
theorem counted_lt {taken : List ℕ} {q : ℕ → Bool} (hzero : ∀ y ∈ S, taken.count y = 0)
    (hle : ∀ e ∈ g.pred x, taken.count e.1 ≤ 1 + if q e.1 then 1 else 0)
    (hlt : ((g.pred x).countP fun e => q e.1) < (g.pred x).countP fun e => e.1 ∈ S) :
    g.counted taken x < g.indegree x := by
  have hsum := sum_add_countP_le (l := g.pred x) (f := fun e => taken.count e.1)
    (p := fun e => e.1 ∈ S) (q := fun e => q e.1) (by
      intro e he
      by_cases hS : e.1 ∈ S
      · simp [hS, hzero e.1 hS]
      · simpa [hS] using hle e he)
  unfold Cfg.counted Cfg.indegree
  omega

/-- The set is avoided because its nodes have more edges from it than from the start. -/
theorem Avoids.take (hg : g.Linked) (h : Counted g st) (ha : Avoids S st)
    (hS : ∀ x ∈ S, x ∈ g.nodes ∧ x ≠ g.start)
    (hmore : ∀ x ∈ S, g.pred x ≠ [] →
      ((g.pred x).countP fun e => e.1 = g.start) < (g.pred x).countP fun e => e.1 ∈ S)
    (hst : st.stack = nd :: stack) : Avoids S (Sorting.take g nd stack st) := by
  have h' := h.take hg hst
  have hnodes := (take_spec g nd stack st).2.1
  have hzero := ha.taken hst
  intro x hx hmem
  rw [List.mem_append, hnodes] at hmem
  rcases hmem with hmem | hmem
  · exact absurd (hzero x hx) (List.count_pos_iff.mpr hmem).ne'
  obtain ⟨hpos, hle⟩ := h'.le_of_mem_stack hmem (hS x hx).2
  rw [hnodes] at hle
  refine absurd hle (not_le.mpr (counted_lt (q := fun y => y = g.start) hzero ?_
    (hmore x hx (List.length_pos_iff.mp hpos))))
  intro e he
  have hcount := h'.count e.1 (hg.pred_succ x (hS x hx).1 e he).1
  rw [hnodes] at hcount
  simp only [decide_eq_true_eq]
  split_ifs at hcount ⊢ <;> omega

/-- The set is avoided because the start, which has an edge from it, is taken only once. -/
theorem Avoids.take_once (hg : g.Linked) (h : Counted g st) (ha : Avoids S st)
    (hone : st.nodes.count g.start + st.stack.count g.start = 1)
    (hS : ∀ x ∈ S, x ∈ g.nodes ∧ x ≠ g.start) (hstart : ∃ e ∈ g.pred g.start, e.1 ∈ S)
    (hsome : ∀ x ∈ S, g.pred x ≠ [] → ∃ e ∈ g.pred x, e.1 ∈ S) (hst : st.stack = nd :: stack) :
    Avoids S (Sorting.take g nd stack st) ∧ (Sorting.take g nd stack st).nodes.count g.start +
      (Sorting.take g nd stack st).stack.count g.start = 1 := by
  have h' := h.take hg hst
  have hnodes := (take_spec g nd stack st).2.1
  have hzero := ha.taken hst
  have hlt : ∀ x ∈ g.nodes, (∃ e ∈ g.pred x, e.1 ∈ S) →
      g.counted (st.nodes ++ [nd]) x < g.indegree x := by
    rintro x hx ⟨e, he, heS⟩
    refine counted_lt (q := fun _ => false) hzero (fun e he => ?_) ?_
    · by_cases heq : e.1 = g.start
      · rw [hst, List.count_cons] at hone
        rw [heq, List.count_append, List.count_singleton]
        omega
      · have hle := h'.count_le (hg.pred_succ x hx e he).1 heq
        rw [hnodes] at hle
        omega
    · rw [List.countP_false, Function.const_apply]
      exact List.countP_pos_iff.mpr ⟨e, he, decide_eq_true heS⟩
  constructor
  · intro x hx hmem
    rw [List.mem_append, hnodes] at hmem
    rcases hmem with hmem | hmem
    · exact absurd (hzero x hx) (List.count_pos_iff.mpr hmem).ne'
    obtain ⟨hpos, hle⟩ := h'.le_of_mem_stack hmem (hS x hx).2
    rw [hnodes] at hle
    exact absurd hle (not_le.mpr (hlt x (hS x hx).1 (hsome x hx (List.length_pos_iff.mp hpos))))
  · have := hlt g.start hg.start_mem hstart
    rw [h'.count _ hg.start_mem, hnodes, if_pos rfl, if_neg (by omega)]

theorem avoids_initial (hS : ∀ x ∈ S, x ∈ g.nodes ∧ x ≠ g.start) : Avoids S (initial g) := by
  intro x hx hmem
  exact (hS x hx).2 (List.mem_singleton.mp hmem)

/-- **A set of nodes that block each other is never taken.** -/
theorem avoids_of_blocks (hg : g.Linked) (hb : g.Blocks S) {fuel : ℕ}
    (h : loop g fuel (initial g) = some st) : Avoids S st := by
  obtain ⟨hS, ⟨hstart, hsome⟩ | hmore⟩ := hb
  · refine (loop_induct (p := fun st => Counted g st ∧ Avoids S st ∧
      st.nodes.count g.start + st.stack.count g.start = 1) ?_ h ?_).1.2.1
    · rintro st nd stack hst ⟨hc, ha, hone⟩
      exact ⟨hc.take hg hst, ha.take_once hg hc hone hS hstart hsome hst⟩
    · exact ⟨counted_initial hg, avoids_initial hS, by simp [initial]⟩
  · refine (loop_induct (p := fun st => Counted g st ∧ Avoids S st) ?_ h ?_).1.2
    · rintro st nd stack hst ⟨hc, ha⟩
      exact ⟨hc.take hg hst, ha.take hg hc hS hmore hst⟩
    · exact ⟨counted_initial hg, avoids_initial hS⟩

/-- Nodes that have not been taken in the end block each other, if the start has edges to it. -/
theorem Counted.blocks (hg : g.Linked) (h : Counted g st) (hst : st.stack = [])
    (hstart : g.pred g.start ≠ []) (htaken : g.start ∈ st.nodes) :
    g.Blocks (g.nodes.toFinset.filter (· ∉ st.nodes)) := by
  have hmem : ∀ {y}, y ∈ g.nodes.toFinset.filter (· ∉ st.nodes) ↔ y ∈ g.nodes ∧ y ∉ st.nodes := by
    simp
  have hlt : ∀ x ∈ g.nodes, g.pred x ≠ [] →
      st.nodes.count x = (if x = g.start then 1 else 0) → g.counted st.nodes x < g.indegree x := by
    intro x hx hpred hcount
    have hall := h.count x hx
    have hpos : 0 < g.indegree x := List.length_pos_iff.mpr hpred
    rw [hst, List.count_nil, hcount] at hall
    by_contra hnot
    rw [if_pos (c := 0 < g.indegree x ∧ _) ⟨hpos, not_lt.mp hnot⟩] at hall
    omega
  refine ⟨fun x hx => ?_, ?_⟩
  · rw [hmem] at hx
    exact ⟨hx.1, fun heq => hx.2 (heq ▸ htaken)⟩
  have hS : ∀ x ∈ g.nodes.toFinset.filter (· ∉ st.nodes), g.pred x ≠ [] →
      x ∈ g.nodes ∧ g.counted st.nodes x < g.indegree x := by
    intro x hx hpred
    rw [hmem] at hx
    refine ⟨hx.1, hlt x hx.1 hpred ?_⟩
    rw [List.count_eq_zero.mpr hx.2, if_neg]
    rintro rfl
    exact hx.2 htaken
  by_cases hone : st.nodes.count g.start = 1
  · have hsome : ∀ x ∈ g.nodes, g.counted st.nodes x < g.indegree x →
        ∃ e ∈ g.pred x, e.1 ∈ g.nodes.toFinset.filter (· ∉ st.nodes) := by
      intro x hx hcount
      by_contra hnone
      have hsum := le_sum_add_countP (l := g.pred x) (f := fun e => st.nodes.count e.1)
        (p := fun _ => false) (q := fun _ => false) (by
          intro e he
          have hpos : 0 < st.nodes.count e.1 := by
            rw [List.count_pos_iff]
            by_contra hnot
            exact hnone ⟨e, he, hmem.mpr ⟨(hg.pred_succ x hx e he).1, hnot⟩⟩
          simpa using hpos)
      simp only [List.countP_false, Function.const_apply] at hsum
      unfold Cfg.counted Cfg.indegree at hcount
      omega
    refine .inl ⟨hsome _ hg.start_mem (hlt _ hg.start_mem hstart ?_), fun x hx hpred => ?_⟩
    · rw [hone, if_pos rfl]
    · exact hsome x (hS x hx hpred).1 (hS x hx hpred).2
  · refine .inr fun x hx hpred => ?_
    obtain ⟨hx', hcount⟩ := hS x hx hpred
    have hsum := le_sum_add_countP (l := g.pred x) (f := fun e => st.nodes.count e.1)
      (p := fun e => e.1 ∈ g.nodes.toFinset.filter (· ∉ st.nodes)) (q := fun e => e.1 = g.start) (by
        intro e he
        have he' := (hg.pred_succ x hx' e he).1
        have hpos := List.count_pos_iff.mpr htaken
        by_cases heq : e.1 = g.start
        · have htwo : 2 ≤ st.nodes.count e.1 := by
            rw [heq]
            omega
          simp only [heq, decide_true, if_true]
          rw [heq] at htwo
          omega
        · by_cases hin : e.1 ∈ st.nodes
          · simp [heq, hin]
          · simp [heq, hin, he', List.count_eq_zero.mpr hin])
    unfold Cfg.counted Cfg.indegree at hcount
    omega

end Sorting

/-- **When topological sorting does what it should**: if and only if, in case a cycle through
the start lies on the way to the final node, some nodes block the way to the final node. -/
theorem topoSort_correct_iff (hg : g.Linked) :
    g.TopoSorts ↔ ∀ es es', es ≠ [] → g.Walk g.start es g.start → g.Walk g.start es' g.fin →
      ∃ S, g.fin ∈ S ∧ g.Blocks S := by
  constructor
  · rintro ⟨fuel, r, hr, -, herror⟩ es es' hne hcycle hw
    obtain ⟨st, hloop, rfl⟩ := Option.map_eq_some_iff.mp hr
    obtain ⟨hcounted, hnil⟩ := Sorting.loop_induct (fun st nd stack hst h => h.take hg hst) hloop
      (Sorting.counted_initial hg)
    obtain ⟨msg, hmsg⟩ := herror ⟨g.start, es, ⟨⟨[], rfl⟩, es', hw⟩, hne, hcycle⟩
    have hfin : g.fin ∈ st.r := by
      by_contra hnot
      rw [if_neg hnot] at hmsg
      exact nomatch hmsg
    have htaken : g.start ∈ st.nodes := by
      have hcount := hcounted.count g.start hg.start_mem
      rw [hnil, List.count_nil, if_pos rfl] at hcount
      rw [← List.count_pos_iff]
      omega
    refine ⟨_, ?_, hcounted.blocks hg hnil (hg.pred_start_ne_nil hne hcycle) htaken⟩
    simpa using (hcounted.mem_r g.fin).mp hfin
  · intro hblocks
    obtain ⟨st, hloop⟩ := Sorting.exists_loop hg (Sorting.counted_initial hg)
      (Nat.le_add_left (g.nodes.length + 1) 0)
    obtain ⟨hcounted, hnil⟩ := Sorting.loop_induct (fun st nd stack hst h => h.take hg hst) hloop
      (Sorting.counted_initial hg)
    refine ⟨_, _, Option.map_eq_some_iff.mpr ⟨st, hloop, rfl⟩, ?_⟩
    by_cases hr : g.fin ∈ st.r
    · rw [if_pos hr]
      exact ⟨fun _ h => (nomatch h), fun _ => ⟨_, rfl⟩⟩
    rw [if_neg hr]
    have horder : g.InOrder { g with nodes := st.nodes ++ st.r } := by
      by_cases hpath : ∃ es, g.Walk g.start es g.fin
      · obtain ⟨es', hw⟩ := hpath
        have hmem := hg.walk_mem hg.start_mem hw
        have hfin : g.fin ∈ st.nodes := by
          by_contra hnot
          exact hr ((hcounted.mem_r _).mpr ⟨hmem, hnot⟩)
        have hcycle : ∀ es, es ≠ [] → ¬g.Walk g.start es g.start := by
          intro es hne hcycle
          obtain ⟨S, hS, hb⟩ := hblocks es es' hne hcycle hw
          exact Sorting.avoids_of_blocks hg hb hloop _ hS (List.mem_append_left _ hfin)
        obtain ⟨⟨-, hordered⟩, -⟩ := Sorting.loop_induct
          (p := fun st => Sorting.Counted g st ∧ Sorting.Ordered g st)
          (fun st nd stack hst h => ⟨h.1.take hg hst, h.2.take hg hcycle h.1 hst⟩) hloop
          ⟨Sorting.counted_initial hg, fun x hx => nomatch hx⟩
        exact hordered.inOrder hg hcycle hcounted hfin
      · -- nothing is on the way to the final node
        have hnone : ∀ nd, ¬g.OnPath nd :=
          fun nd ⟨⟨es, hw⟩, es', hw'⟩ => hpath ⟨es ++ es', hw.append hw'⟩
        exact ⟨fun nd h => absurd h (hnone nd), fun nd b s h => absurd h (hnone nd)⟩
    refine ⟨fun g' h => Except.ok.inj h ▸ horder, ?_⟩
    rintro ⟨nd, es, hpath, hne, hcycle⟩
    exact absurd hcycle (horder.not_cycle hne hpath)

end

/-- A program with a branch over one instruction. -/
def skip : Cfg where
  node nd :=
    match nd with
    | 0 => ⟨[.properBranch 0 .bne 2], 0, some 2, some 1, []⟩
    | 1 => ⟨[.nop 1], 0, none, some 2, [(0, false)]⟩
    | _ => ⟨[.fin], 0, none, none, [(0, true), (1, false)]⟩
  nodes := [2, 1, 0]
  start := 0
  fin := 2

theorem topoSort_skip :
    skip.TopoSorts ↔ ∀ es es', es ≠ [] → skip.Walk skip.start es skip.start →
      skip.Walk skip.start es' skip.fin → ∃ S, skip.fin ∈ S ∧ skip.Blocks S :=
  topoSort_correct_iff (by decide)

/-- A program that starts again until a condition holds. -/
def startLoop : Cfg where
  node nd :=
    match nd with
    | 0 => ⟨[.nop 0], 0, none, some 1, [(1, true)]⟩
    | 1 => ⟨[.properBranch 1 .bne 0], 0, some 0, some 2, [(0, false)]⟩
    | _ => ⟨[.fin], 0, none, none, [(1, false)]⟩
  nodes := [0, 1, 2]
  start := 0
  fin := 2

/-- The cycle through the start is not noticed, and the start is listed twice. -/
theorem topoSort_startLoop : ∃ g : Cfg, g.Linked ∧ ¬g.TopoSorts := by
  refine ⟨startLoop, by decide, ?_⟩
  rintro ⟨fuel, r, hr, -, herror⟩
  obtain ⟨msg, rfl⟩ := herror ⟨0, [(0, false), (1, true)], ⟨⟨[], rfl⟩, [(0, false), (1, false)],
    by decide⟩, by simp, by decide⟩
  obtain ⟨st, hloop, hst⟩ := Option.map_eq_some_iff.mp hr
  have hfin : startLoop.fin ∈ st.r := by
    by_contra hnot
    rw [if_neg hnot] at hst
    exact nomatch hst
  obtain ⟨st', hloop'⟩ := Option.isSome_iff_exists.mp
    (by decide : (Sorting.loop startLoop 4 (.initial startLoop)).isSome)
  have hsame := (Sorting.loop_mono (le_max_left fuel 4) hloop).symm.trans
    (Sorting.loop_mono (le_max_right fuel 4) hloop')
  obtain rfl := Option.some.inj hsame
  exact (by decide : ∀ st ∈ Sorting.loop startLoop 4 (.initial startLoop), startLoop.fin ∉ st.r) st
    hloop' hfin

end NfpEstimator
