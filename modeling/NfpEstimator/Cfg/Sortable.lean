import NfpEstimator.Cfg.TopoSort
import NfpEstimator.Cfg.Unreachable

/-!
# Graphs that can be sorted

The passes hand a graph on whose nodes are linked in both directions and are all reachable, with the
final instruction in a block of its own (`Cfg.Clean`). When no node lies on a cycle (`Cfg.Sortable`),
`cfg::topo_sort` makes a loop-free graph of it: it takes all nodes, in an order in which every edge
leads forward (`Cfg.Sortable.exists_topoSort`). A loop-free graph is one that can be sorted again.
-/

namespace NfpEstimator

namespace Cfg

variable {g : Cfg}

theorem nodup_map_snd_succs (g : Cfg) (nd : ℕ) : ((g.succs nd).map Prod.snd).Nodup := by
  unfold succs
  cases ht : g.succ nd true <;> cases hf : g.succ nd false <;> simp [ht, hf]

/-- What the passes keep, but for cycles. -/
structure Clean (g : Cfg) : Prop where
  linked : g.Linked
  reachable : ∀ nd ∈ g.nodes, g.Reachable nd
  fin_mem : g.fin ∈ g.nodes
  instrs_ne_nil : ∀ nd ∈ g.nodes, g.instrs nd ≠ []
  instrs_fin : g.instrs g.fin = [.fin]
  succ_fin : ∀ b, g.succ g.fin b = none
  type_ne_fin : ∀ nd ∈ g.nodes, nd ≠ g.fin → ∀ n ∈ g.instrs nd, n.type ≠ .FIN

/-- What `cfg::topo_sort` makes a loop-free graph of. -/
structure Sortable (g : Cfg) : Prop extends Clean g where
  acyclic : ∀ nd ∈ g.nodes, ∀ es, es ≠ [] → ¬g.Walk nd es nd

/-! ### Cycles -/

/-- From the start no cycle can be reached. -/
def NoCycle (g : Cfg) : Prop := ∀ nd, g.Reachable nd → ∀ es, es ≠ [] → ¬g.Walk nd es nd

theorem Sortable.noCycle (h : g.Sortable) : g.NoCycle := by
  rintro nd ⟨es, hw⟩
  exact h.acyclic nd (h.linked.walk_mem h.linked.start_mem hw)

section

variable {st : Sorting} {s : ℕ} (hl : g.Linked) (hno : g.NoCycle)

include hl

theorem Reachable.mem (h : g.Reachable s) : s ∈ g.nodes := by
  obtain ⟨es, hw⟩ := h
  exact hl.walk_mem hl.start_mem hw

theorem pred_ne_nil (h : g.Reachable s) (hne : s ≠ g.start) : g.pred s ≠ [] := by
  obtain ⟨es, hw⟩ := h
  obtain rfl | ⟨es, e, rfl⟩ := List.eq_nil_or_concat es
  · exact absurd (show g.start = s from hw).symm hne
  · rw [List.concat_eq_append] at hw
    obtain ⟨mid, hw, hmid, t, ht, hts⟩ := hw.of_append
    have hmem : e.1 ∈ g.nodes := hmid ▸ hl.walk_mem hl.start_mem hw
    exact List.ne_nil_of_mem (hl.succ_pred e.1 hmem e.2 s (ht.trans (congrArg some hts)))

/-- All that have an edge to the node have been taken, and so the node has. -/
theorem mem_taken (hc : Sorting.Counted g st) (hnil : st.stack = [])
    (hcycle : ∀ es, es ≠ [] → ¬g.Walk g.start es g.start) (hs : s ∈ g.nodes)
    (hpred : s ≠ g.start → g.pred s ≠ []) (hbefore : s ≠ g.start → ∀ e ∈ g.pred s, e.1 ∈ st.nodes) :
    s ∈ st.nodes := by
  have hcount := hc.count s hs
  rw [hnil, List.count_nil, Nat.add_zero] at hcount
  rw [← List.count_pos_iff, hcount]
  by_cases heq : s = g.start
  · rw [if_pos heq]
    omega
  · -- each edge to the node has been counted
    have hone : (g.pred s).map (fun e => st.nodes.count e.1) = (g.pred s).map fun _ => 1 := by
      refine List.map_congr_left fun e he => ?_
      have hle := hc.count_le_one hl hcycle (hl.pred_succ s hs e he).1
      have hpos := List.count_pos_iff.mpr (hbefore heq e he)
      omega
    have hcounted : g.counted st.nodes s = g.indegree s := by
      rw [Cfg.counted, hone, Cfg.indegree]
      simp
    have hpos : 0 < g.indegree s := List.length_pos_iff.mpr (hpred heq)
    rw [if_neg heq, if_pos ⟨hpos, hcounted.ge⟩]
    omega

include hno

omit hl in
theorem ne_start {nd : ℕ} {b : Bool} (h : g.Reachable nd) (hs : g.succ nd b = some s) : s ≠ g.start := by
  rintro rfl
  obtain ⟨es, hw⟩ := h
  exact hno _ (reachable_start g) (es ++ [(nd, b)]) (by simp) (hw.append (walk_single hs))

/-- What holds of a node when it holds of those before it that can be reached, holds of all that can be. -/
theorem NoCycle.induct {P : ℕ → Prop}
    (hstep : ∀ s, g.Reachable s → (∀ e ∈ g.pred s, g.Reachable e.1 → P e.1) → P s) :
    ∀ s, g.Reachable s → P s := by
  let before : {nd // nd ∈ g.nodes ∧ g.Reachable nd} → {nd // nd ∈ g.nodes ∧ g.Reachable nd} → Prop :=
    fun m s => ∃ es, es ≠ [] ∧ g.Walk m.1 es s.1
  have hfinite : Finite {nd // nd ∈ g.nodes ∧ g.Reachable nd} :=
    Finite.of_injective (fun nd => (⟨nd.1, nd.2.1⟩ : {nd // nd ∈ g.nodes})) fun nd nd' heq =>
      Subtype.ext (Subtype.mk.inj heq)
  have htrans : IsTrans _ before := ⟨fun m nd s ⟨es, hne, hw⟩ ⟨es', _, hw'⟩ =>
    ⟨es ++ es', List.append_ne_nil_of_left_ne_nil hne es', hw.append hw'⟩⟩
  have hirrefl : Std.Irrefl before := ⟨fun nd ⟨es, hne, hw⟩ => hno nd.1 nd.2.2 es hne hw⟩
  intro s hs
  refine (Finite.wellFounded_of_trans_of_irrefl before).induction (C := fun s => P s.1) ⟨s, hs.mem hl, hs⟩
    fun s ih => hstep s.1 s.2.2 fun e he hreach => ?_
  obtain ⟨hm, hsucc⟩ := hl.pred_succ s.1 s.2.1 e he
  exact ih ⟨e.1, hm, hreach⟩ ⟨[e], List.cons_ne_nil _ _, walk_single hsucc⟩

end

/-! ### The error -/

/-- An edge leads to the way to the end of the program from a node that cannot be reached. An edge to the
start does not count: `cfg::topo_sort` begins there without looking at what leads to it. -/
def Blocked (g : Cfg) : Prop :=
  ∃ m ∈ g.nodes, ¬g.Reachable m ∧ ∃ b s es, g.succ m b = some s ∧ s ≠ g.start ∧ g.Reachable s ∧ g.Walk s es g.fin

/-- **When `cfg::topo_sort` gives up** although no cycle can be reached: when the end of the program cannot be
reached, or when an edge that is never counted leads to the way there. -/
theorem topoSort_error_iff (hl : g.Linked) (hno : g.NoCycle) (hfin : g.fin ∈ g.nodes) {fuel : ℕ}
    (hfuel : g.nodes.length < fuel) :
    g.topoSort fuel = some (.error "cfg not loop-free") ↔ ¬g.Reachable g.fin ∨ g.Blocked := by
  have hcycle : ∀ es, es ≠ [] → ¬g.Walk g.start es g.start := hno _ (reachable_start g)
  have hroom : g.nodes.length + 1 ≤ (Sorting.initial g).nodes.length + fuel := by
    show g.nodes.length + 1 ≤ 0 + fuel
    omega
  obtain ⟨st, hloop⟩ := Sorting.exists_loop hl (Sorting.counted_initial hl) hroom
  obtain ⟨⟨hc, ho⟩, hnil⟩ := Sorting.loop_induct
    (p := fun st => Sorting.Counted g st ∧ Sorting.Ordered g st)
    (fun st nd stack hst hp => ⟨hp.1.take hl hst, hp.2.take hl hcycle hp.1 hst⟩) hloop
    ⟨Sorting.counted_initial hl, (fun x hx => absurd hx List.not_mem_nil : Sorting.Ordered g (.initial g))⟩
  have herror : g.topoSort fuel = some (.error "cfg not loop-free") ↔ g.fin ∉ st.nodes := by
    have hr : g.fin ∈ st.r ↔ g.fin ∉ st.nodes := (hc.mem_r g.fin).trans (and_iff_right hfin)
    rw [Cfg.topoSort, hloop, Option.map_some, ← hr]
    split
    next h => exact iff_of_true rfl h
    next h => exact iff_of_false (fun heq => by cases heq) h
  have hreached : ∀ s ∈ st.nodes, g.Reachable s := fun s hs => (hc.reached s (List.mem_append_left _ hs)).2
  rw [herror]
  constructor
  · intro hnot
    rw [or_iff_not_imp_left, not_not]
    intro hreach
    -- back from the end, over nodes that have not been taken
    have hback : ∀ s, g.Reachable s → s ∉ st.nodes → (∃ es, g.Walk s es g.fin) → g.Blocked := by
      refine NoCycle.induct hl hno fun s hs ih hns ⟨es, hw⟩ => ?_
      have hne : s ≠ g.start := fun heq => hns
        (mem_taken hl hc hnil hcycle (hs.mem hl) (fun h => absurd heq h) fun h => absurd heq h)
      obtain ⟨e, he, hne'⟩ : ∃ e ∈ g.pred s, e.1 ∉ st.nodes := by
        by_contra hall
        push Not at hall
        exact hns (mem_taken hl hc hnil hcycle (hs.mem hl) (fun h => pred_ne_nil hl hs h) fun _ => hall)
      obtain ⟨hm, hsucc⟩ := hl.pred_succ s (hs.mem hl) e he
      by_cases hreach' : g.Reachable e.1
      · exact ih e he hreach' hne' ⟨e :: es, rfl, s, hsucc, hw⟩
      · exact ⟨e.1, hm, hreach', e.2, s, es, hsucc, hne, hs, hw⟩
    exact hback g.fin hreach hnot ⟨[], rfl⟩
  · rintro (hnot | ⟨m, hm, hnreach, b, s, es, hs, hne, hreach, hw⟩) htaken
    · exact hnot (hreached _ htaken)
    · -- what is taken has all before it taken, back to the edge
      have hback : ∀ es s, g.Walk s es g.fin → g.Reachable s → s ∈ st.nodes := by
        intro es
        induction es with
        | nil => exact fun s hw _ => (show s = g.fin from hw) ▸ htaken
        | cons e es ih =>
          rintro s ⟨he, t, ht, hw⟩ hreach
          rw [he] at ht
          have ht' := ih t hw (hreach.step ht)
          exact (ho t ht' (ne_start hno hreach ht) (s, e.2) (hl.succ_pred s (hreach.mem hl) e.2 t ht)).1
      have hs' := hback es s hw hreach
      exact hnreach (hreached m (ho s hs' hne (m, b) (hl.succ_pred m hm b s hs)).1)

/-! ### Sorting -/

/-- The start is the only node without an edge to it. -/
theorem Sortable.pred_start (h : g.Sortable) : g.pred g.start = [] := by
  rw [List.eq_nil_iff_forall_not_mem]
  intro e he
  obtain ⟨hmem, hs⟩ := h.linked.pred_succ _ h.linked.start_mem e he
  exact ne_start h.noCycle (h.reachable e.1 hmem) hs rfl

/-- **Sorting.** All nodes are taken, and every edge leads forward then. -/
theorem Sortable.exists_topoSort (h : g.Sortable) {fuel : ℕ} (hfuel : g.nodes.length < fuel) :
    ∃ nds, g.topoSort fuel = some (.ok { g with nodes := nds }) ∧ nds.Perm g.nodes ∧
      LoopFree { g with nodes := nds } := by
  have hcycle : ∀ es, es ≠ [] → ¬g.Walk g.start es g.start := h.acyclic _ h.linked.start_mem
  have hroom : g.nodes.length + 1 ≤ (Sorting.initial g).nodes.length + fuel := by
    show g.nodes.length + 1 ≤ 0 + fuel
    omega
  obtain ⟨st, hloop⟩ := Sorting.exists_loop h.linked (Sorting.counted_initial h.linked) hroom
  obtain ⟨⟨hc, ho⟩, hnil⟩ := Sorting.loop_induct
    (p := fun st => Sorting.Counted g st ∧ Sorting.Ordered g st)
    (fun st nd stack hst hp => ⟨hp.1.take h.linked hst, hp.2.take h.linked hcycle hp.1 hst⟩) hloop
    ⟨Sorting.counted_initial h.linked, (fun x hx => absurd hx List.not_mem_nil : Sorting.Ordered g (.initial g))⟩
  have htaken : ∀ s ∈ g.nodes, s ∈ st.nodes := by
    have hall := NoCycle.induct h.linked h.noCycle (P := (· ∈ st.nodes)) fun s hs ih =>
      Cfg.mem_taken h.linked hc hnil hcycle (hs.mem h.linked) (fun hne => pred_ne_nil h.linked hs hne) fun _ e he =>
        ih e he (h.reachable e.1 (h.linked.pred_succ s (hs.mem h.linked) e he).1)
    exact fun s hs => hall s (h.reachable s hs)
  have hr : st.r = [] := by
    rw [List.eq_nil_iff_forall_not_mem]
    intro x hx
    obtain ⟨hmem, hno⟩ := (hc.mem_r x).mp hx
    exact hno (htaken x hmem)
  have hmem : ∀ x, x ∈ st.nodes ↔ x ∈ g.nodes := fun x =>
    ⟨fun hx => (hc.reached x (List.mem_append_left _ hx)).1, htaken x⟩
  have hnodup : st.nodes.Nodup := by
    rw [List.nodup_iff_count_le_one]
    intro x
    by_cases hx : x ∈ g.nodes
    · have := hc.count_le_one h.linked hcycle hx
      omega
    · rw [List.count_eq_zero.mpr (hx ∘ (hmem x).mp)]
      omega
  refine ⟨st.nodes, ?_, (List.perm_ext_iff_of_nodup hnodup h.linked.nodup).mpr hmem, ?_⟩
  · rw [Cfg.topoSort, hloop, Option.map_some, hr, if_neg List.not_mem_nil, List.append_nil]
  · have hback : ∀ nd ∈ g.nodes, ∀ b s, g.succ nd b = some s → s ≠ g.start := by
      rintro nd hnd b s hs rfl
      have := h.linked.succ_pred nd hnd b _ hs
      rw [h.pred_start] at this
      exact List.not_mem_nil this
    constructor
    · exact hnodup
    · exact (hmem _).mpr h.linked.start_mem
    · exact (hmem _).mpr h.fin_mem
    · exact fun nd hnd b s hs => (hmem s).mpr (h.linked.succ_mem nd ((hmem nd).mp hnd) b s hs)
    · exact fun nd hnd b s hs => h.linked.succ_pred nd ((hmem nd).mp hnd) b s hs
    · intro s hs e he
      obtain ⟨hm, hsucc⟩ := h.linked.pred_succ s ((hmem s).mp hs) e he
      exact ⟨(hmem _).mpr hm, hsucc⟩
    · exact fun s hs => h.linked.pred_nodup s ((hmem s).mp hs)
    · exact h.pred_start
    · exact fun s hs hne => (pred_ne_nil h.linked (h.reachable s ((hmem s).mp hs)) hne : g.pred s ≠ [])
    · intro nd hnd b s hs
      have hnd := (hmem nd).mp hnd
      have hs' := (hmem s).mpr (h.linked.succ_mem nd hnd b s hs)
      exact (ho s hs' (hback nd hnd b s hs) (nd, b) (h.linked.succ_pred nd hnd b s hs)).2
    · exact fun nd hnd => h.instrs_ne_nil nd ((hmem nd).mp hnd)
    · exact h.instrs_fin
    · exact h.succ_fin
    · exact fun nd hnd hne => h.type_ne_fin nd ((hmem nd).mp hnd) hne

theorem LoopFree.linked (hg : g.LoopFree) : g.Linked :=
  ⟨hg.nodup, hg.start_mem, hg.succ_mem, hg.succ_pred, hg.pred_succ, hg.pred_nodup⟩

/-- A loop-free graph, whatever the order of its nodes, can be sorted. -/
theorem LoopFree.sortable {nds : List ℕ} (hg : LoopFree { g with nodes := nds }) (h : nds.Perm g.nodes) :
    g.Sortable := by
  have hmem : ∀ x, x ∈ g.nodes → x ∈ nds := fun x => h.mem_iff.mpr
  have hmem' : ∀ x, x ∈ nds → x ∈ g.nodes := fun x => h.mem_iff.mp
  have hsucc : ∀ nd b, succ { g with nodes := nds } nd b = g.succ nd b := fun _ _ => rfl
  have hwalk : ∀ {src es dst}, Walk { g with nodes := nds } src es dst ↔ g.Walk src es dst := walk_congr hsucc
  have hreach : ∀ n, ∀ nd ∈ nds, nds.idxOf nd < n → g.Reachable nd := by
    intro n
    induction n with
    | zero => exact fun _ _ hlt => absurd hlt (Nat.not_lt_zero _)
    | succ n ih =>
      intro nd hnd hlt
      by_cases heq : nd = g.start
      · exact heq ▸ reachable_start g
      · obtain ⟨e, he⟩ := List.exists_mem_of_ne_nil _ (hg.pred_ne_nil nd hnd heq)
        obtain ⟨hm, hs⟩ := hg.pred_succ nd hnd e he
        have hforward : nds.idxOf e.1 < nds.idxOf nd := hg.forward e.1 hm e.2 nd hs
        exact (ih e.1 hm (by omega)).step hs
  refine ⟨⟨?_, ?_, hmem' _ hg.fin_mem, ?_, hg.instrs_fin, hg.succ_fin, ?_⟩, ?_⟩
  · have hl := hg.linked
    exact ⟨h.nodup_iff.mp hl.nodup, hmem' _ hl.start_mem,
      fun nd hnd b s hs => hmem' s (hl.succ_mem nd (hmem nd hnd) b s hs),
      fun nd hnd b s hs => hl.succ_pred nd (hmem nd hnd) b s hs,
      fun s hs e he => (hl.pred_succ s (hmem s hs) e he).imp_left (hmem' _),
      fun s hs => hl.pred_nodup s (hmem s hs)⟩
  · exact fun nd hnd => hreach _ nd (hmem nd hnd) (Nat.lt_succ_self _)
  · exact fun nd hnd => hg.instrs_ne_nil nd (hmem nd hnd)
  · exact fun nd hnd hne => hg.type_ne_fin nd (hmem nd hnd) hne
  · intro nd hnd es hne hw
    have hle := Walk.idxOf_le hg (hmem nd hnd) (hwalk.mpr hw)
    have := List.length_pos_iff.mpr hne
    omega

end Cfg

end NfpEstimator
