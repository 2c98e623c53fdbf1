import NfpEstimator.Cfg.Build

/-!
# Removing unreachable nodes

`cfg::remove_unreachable` marks what the start leads to, and goes through the vector of nodes
to take the others away: their edges are removed at both ends.

What is left is what can be reached, with the edges and the shape that it had
(`exists_removeUnreachable`).
-/

namespace NfpEstimator

namespace Cfg

variable (g : Cfg)

/-! ### Removing nodes -/

/-- The loop that goes through a vector and replaces an element that is not kept by the last
one. The result is what is left, and what has been removed. -/
def sweep (keep : ℕ → Bool) : ℕ → List ℕ → List ℕ × List ℕ
  | 0, nds => (nds, [])
  | _ + 1, [] => ([], [])
  | n + 1, nd :: nds =>
    if keep nd then
      let (kept, removed) := sweep keep n nds
      (nd :: kept, removed)
    else
      let (kept, removed) := sweep keep n (nds.getLast?.toList ++ nds.dropLast)
      (kept, nd :: removed)

/-- `cfg::node::unlink` of all edges. -/
def unlinkNode (nd : ℕ) : Cfg :=
  let g := (g.unlink nd true).unlink nd false
  let g := (g.pred nd).foldl (fun g e => g.setNode e.1 ((g.node e.1).setSucc e.2 none)) g
  g.setNode nd { g.node nd with predecessors := [] }

/-- `cfg::remove_unreachable`. `fuel` bounds the iterations of the search. -/
def removeUnreachable (fuel : ℕ) : Option Cfg :=
  (Search.marks (fun nd => (g.succs nd).map Prod.fst) fuel [] [g.start]).map fun visited =>
    let (kept, removed) := sweep (fun nd => nd ∈ visited) g.nodes.length g.nodes
    { removed.foldl unlinkNode g with nodes := kept }

end Cfg

/-! ### Reachable nodes -/

namespace Cfg

variable {g : Cfg}

/-- A walk leads from the start to the node. -/
def Reachable (g : Cfg) (nd : ℕ) : Prop := ∃ es, g.Walk g.start es nd

theorem Reachable.step {nd s : ℕ} {b : Bool} (h : g.Reachable nd) (hs : g.succ nd b = some s) :
    g.Reachable s := by
  obtain ⟨es, hw⟩ := h
  exact ⟨es ++ [(nd, b)], hw.append (walk_single hs)⟩

theorem reachable_start (g : Cfg) : g.Reachable g.start := ⟨[], rfl⟩

theorem reachable_iff {nd : ℕ} : g.Reachable nd ↔
    Relation.ReflTransGen (Search.Step fun nd => (g.succs nd).map Prod.fst) g.start nd := by
  constructor
  · rintro ⟨es, hw⟩
    have hwalk : ∀ src, g.Walk src es nd →
        Relation.ReflTransGen (Search.Step fun nd => (g.succs nd).map Prod.fst) src nd := by
      clear hw
      induction es with
      | nil => exact fun src hw => (show src = nd from hw) ▸ .refl
      | cons e es ih =>
        rintro src ⟨rfl, s, hs, hrest⟩
        exact .head (step_iff.mpr ⟨_, hs⟩) (ih s hrest)
    exact hwalk _ hw
  · intro h
    induction h with
    | refl => exact reachable_start g
    | tail _ h ih =>
      obtain ⟨b, hs⟩ := step_iff.mp h
      exact ih.step hs

end Cfg

theorem Shaped.mem_of_reachable {g : Cfg} {alive : ℕ → Prop} (h : Shaped g alive) {nd : ℕ}
    (hnd : g.Reachable nd) : alive nd := by
  obtain ⟨es, hw⟩ := hnd
  have hwalk : ∀ src, alive src → g.Walk src es nd → alive nd := by
    clear hw
    induction es with
    | nil => exact fun src hsrc hw => (show src = nd from hw) ▸ hsrc
    | cons e es ih =>
      rintro src hsrc ⟨rfl, s, hs, hrest⟩
      exact ih s (h.closed _ hsrc e.2 s hs) hrest
  exact hwalk _ h.start hw

/-! ### Removing nodes -/

namespace Cfg

variable {g : Cfg}

theorem perm_swap_last (nds : List ℕ) : (nds.getLast?.toList ++ nds.dropLast).Perm nds := by
  rcases List.eq_nil_or_concat nds with rfl | ⟨init, last, rfl⟩
  · rfl
  · have hperm : ([last] ++ init).Perm (init ++ [last]) := List.perm_append_comm
    simpa using hperm

/-- Nothing is lost on the way through the vector. -/
theorem sweep_perm (keep : ℕ → Bool) {n : ℕ} {nds : List ℕ} (h : nds.length ≤ n) :
    (sweep keep n nds).1.Perm (nds.filter keep) ∧
      (sweep keep n nds).2.Perm (nds.filter fun nd => !keep nd) := by
  induction n generalizing nds with
  | zero =>
    obtain rfl := List.length_eq_zero_iff.mp (show nds.length = 0 by omega)
    exact ⟨.refl _, .refl _⟩
  | succ n ih =>
    cases nds with
    | nil => exact ⟨.refl _, .refl _⟩
    | cons nd nds =>
      rw [List.length_cons] at h
      unfold sweep
      by_cases hk : keep nd = true
      · have hlen : nds.length ≤ n := by omega
        obtain ⟨h₁, h₂⟩ := ih hlen
        rw [if_pos hk, List.filter_cons_of_pos hk, List.filter_cons_of_neg (by simp [hk])]
        exact ⟨h₁.cons nd, h₂⟩
      · have hperm := perm_swap_last nds
        have hlen : (nds.getLast?.toList ++ nds.dropLast).length ≤ n := by
          rw [hperm.length_eq]
          omega
        obtain ⟨h₁, h₂⟩ := ih hlen
        rw [if_neg hk, List.filter_cons_of_neg hk, List.filter_cons_of_pos (by simp [hk])]
        exact ⟨h₁.trans (hperm.filter _), (h₂.trans (hperm.filter _)).cons nd⟩

theorem nodup_sweep (keep : ℕ → Bool) {nds : List ℕ} (h : nds.Nodup) :
    (sweep keep nds.length nds).1.Nodup :=
  (sweep_perm keep le_rfl).1.nodup_iff.mpr (h.filter _)

theorem mem_sweep (keep : ℕ → Bool) {nds : List ℕ} {nd : ℕ} :
    nd ∈ (sweep keep nds.length nds).1 ↔ nd ∈ nds ∧ keep nd = true :=
  (sweep_perm keep le_rfl).1.mem_iff.trans List.mem_filter

theorem mem_swept (keep : ℕ → Bool) {nds : List ℕ} {nd : ℕ} :
    nd ∈ (sweep keep nds.length nds).2 ↔ nd ∈ nds ∧ keep nd = false := by
  rw [(sweep_perm keep le_rfl).2.mem_iff, List.mem_filter, Bool.not_eq_true']

/-- Edges are removed at the end that they leave. -/
theorem foldl_setSucc_none (l : List Edge) (g : Cfg) :
    SameBlocks (fun _ => True) g
        (l.foldl (fun g e => g.setNode e.1 ((g.node e.1).setSucc e.2 none)) g) ∧
      (∀ m, (l.foldl (fun g e => g.setNode e.1 ((g.node e.1).setSucc e.2 none)) g).pred m = g.pred m) ∧
      ∀ m b, (l.foldl (fun g e => g.setNode e.1 ((g.node e.1).setSucc e.2 none)) g).succ m b =
        if (m, b) ∈ l then none else g.succ m b := by
  induction l generalizing g with
  | nil => exact ⟨.refl _ _, fun _ => rfl, fun _ _ => rfl⟩
  | cons e l ih =>
    obtain ⟨hsame, hpred, hsucc⟩ := ih (g.setNode e.1 ((g.node e.1).setSucc e.2 none))
    refine ⟨(sameBlocks_setSucc e.1 e.2 none).trans hsame, fun m => ?_, fun m b => ?_⟩
    · rw [List.foldl_cons, hpred, pred_setSucc]
    · rw [List.foldl_cons, hsucc, succ_setNode, succ_setSucc]
      by_cases hl : (m, b) ∈ l
      · rw [if_pos hl, if_pos (List.mem_cons_of_mem _ hl)]
      · rw [if_neg hl]
        by_cases he : (m, b) = e
        · subst he
          simp
        · have hcons : (m, b) ∉ e :: l := by simp [he, hl]
          rw [if_neg hcons]
          split
          next hm =>
            have hb : b ≠ e.2 := fun hb => he (Prod.ext hm hb)
            rw [if_neg hb, hm]
          · rfl

theorem pred_unlink_subset {nd m : ℕ} {b : Bool} : (g.unlink nd b).pred m ⊆ g.pred m := by
  rw [pred_unlink]
  split
  · exact fun e he => (List.mem_filter.mp he).1
  · exact List.Subset.refl _

/-- Whatever an edge is unlinked from, it does not lead there any more. -/
theorem pred_unlink_of {nd m : ℕ} {b : Bool} (h : (nd, b) ∈ g.pred m → g.succ nd b = some m) :
    (g.unlink nd b).pred m = (g.pred m).filter fun e => e ≠ (nd, b) := by
  rw [pred_unlink]
  split
  · rfl
  next hne =>
    refine (List.filter_eq_self.mpr fun e he => ?_).symm
    have : e ≠ (nd, b) := fun heq => hne (h (heq ▸ he))
    simp [this]

/-- The graph without the edges out of a node. -/
def unlinkOut (g : Cfg) (nd : ℕ) : Cfg := (g.unlink nd true).unlink nd false

theorem sameBlocks_unlinkNode (nd : ℕ) : SameBlocks (fun _ => True) g (g.unlinkNode nd) := by
  have h₁ := (sameBlocks_unlink (g := g) nd true).trans (sameBlocks_unlink nd false)
  exact (h₁.trans (foldl_setSucc_none ((g.unlinkOut nd).pred nd) (g.unlinkOut nd)).1).trans
    (sameBlocks_setNode_self rfl rfl)

theorem succ_unlinkNode (nd m : ℕ) (b : Bool) : (g.unlinkNode nd).succ m b =
    if m = nd ∨ (m, b) ∈ (g.unlinkOut nd).pred nd then none else g.succ m b := by
  have hout : (g.unlinkOut nd).succ m b = if m = nd then none else g.succ m b := by
    rw [unlinkOut, succ_unlink, succ_unlink]
    by_cases hm : m = nd
    · cases b <;> simp [hm]
    · simp [hm]
  unfold unlinkNode
  rw [succ_setPredecessors, (foldl_setSucc_none _ _).2.2, ← unlinkOut, hout]
  by_cases hm : m = nd
  · simp [hm]
  · simp [hm]

theorem pred_unlinkNode (nd m : ℕ) :
    (g.unlinkNode nd).pred m = if m = nd then [] else (g.unlinkOut nd).pred m := by
  unfold unlinkNode
  rw [pred_setPredecessors, (foldl_setSucc_none _ _).2.1, ← unlinkOut]

/-- The nodes of a list have been taken away. None of them is reachable, and the links between
the others are those of `g`. -/
structure Pruned (g : Cfg) (removed : List ℕ) (g' : Cfg) : Prop where
  same : SameBlocks (fun _ => True) g g'
  succ_keep : ∀ nd b s, g.Reachable s → g.succ nd b = some s → nd ∈ removed ∨ g'.succ nd b = some s
  succ_of : ∀ nd b s, g'.succ nd b = some s → g.succ nd b = some s
  pred_subset : ∀ s, g'.pred s ⊆ g.pred s
  pred_keep : ∀ s, g.Reachable s → g'.pred s = (g.pred s).filter fun e => e.1 ∉ removed

theorem Pruned.unlinkNode {g' : Cfg} (hg : Shaped g (· ∈ g.nodes)) {removed : List ℕ}
    (h : Pruned g removed g') {nd : ℕ} (hnd : nd ∈ g.nodes) (hunreach : ¬g.Reachable nd) :
    Pruned g (nd :: removed) (g'.unlinkNode nd) := by
  have hpred : ∀ s, (g'.unlinkOut nd).pred s ⊆ g'.pred s := fun s =>
    List.Subset.trans pred_unlink_subset pred_unlink_subset
  refine ⟨h.same.trans (sameBlocks_unlinkNode nd), ?_, ?_, ?_, ?_⟩
  · intro m b s hs hsucc
    by_cases hm : m = nd
    · exact .inl (by simp [hm])
    · rcases h.succ_keep m b s hs hsucc with hmem | hsucc'
      · exact .inl (List.mem_cons_of_mem _ hmem)
      · have hnot : (m, b) ∉ (g'.unlinkOut nd).pred nd := by
          intro hmem
          have := ((hg.mem_pred nd hnd _).mp (h.pred_subset nd (hpred nd hmem))).2
          rw [hsucc] at this
          exact hunreach (Option.some.inj this ▸ hs)
        refine .inr ?_
        rw [succ_unlinkNode, if_neg (by simp [hm, hnot]), hsucc']
  · intro m b s hsucc
    rw [succ_unlinkNode] at hsucc
    split at hsucc
    · cases hsucc
    · exact h.succ_of m b s hsucc
  · intro s
    rw [pred_unlinkNode]
    split
    · exact List.nil_subset _
    · exact List.Subset.trans (hpred s) (h.pred_subset s)
  · intro s hs
    have hne : s ≠ nd := fun heq => hunreach (heq ▸ hs)
    -- an edge that is still at its end is still where it starts
    have hlink : ∀ b, (nd, b) ∈ g'.pred s → g'.succ nd b = some s := by
      intro b hmem
      have hnot : nd ∉ removed := by
        have hmem' := h.pred_keep s hs ▸ hmem
        simpa using (List.mem_filter.mp hmem').2
      have hsucc := ((hg.mem_pred s (hg.mem_of_reachable hs) _).mp (h.pred_subset s hmem)).2
      exact (h.succ_keep nd b s hs hsucc).resolve_left hnot
    have hlink' : (nd, false) ∈ (g'.unlink nd true).pred s → (g'.unlink nd true).succ nd false = some s := by
      intro hmem
      rw [succ_unlink, if_neg (by simp)]
      exact hlink false (pred_unlink_subset hmem)
    rw [pred_unlinkNode, if_neg hne, unlinkOut, pred_unlink_of hlink', pred_unlink_of (hlink true),
      h.pred_keep s hs, List.filter_filter, List.filter_filter]
    refine List.filter_congr fun e _ => ?_
    obtain ⟨m, b⟩ := e
    by_cases hm : m = nd
    · cases b <;> simp [hm]
    · simp [hm]

theorem pruned_foldl (hg : Shaped g (· ∈ g.nodes)) {l removed : List ℕ}
    (hl : ∀ nd ∈ l, nd ∈ g.nodes ∧ ¬g.Reachable nd) {g' : Cfg} (h : Pruned g removed g') :
    ∃ removed', (∀ nd, nd ∈ removed' ↔ nd ∈ l ∨ nd ∈ removed) ∧
      Pruned g removed' (l.foldl Cfg.unlinkNode g') := by
  induction l generalizing removed g' with
  | nil => exact ⟨removed, by simp, h⟩
  | cons nd l ih =>
    obtain ⟨hnd, hunreach⟩ := hl nd List.mem_cons_self
    obtain ⟨removed', hmem, h'⟩ := ih (fun x hx => hl x (List.mem_cons_of_mem _ hx))
      (h.unlinkNode hg hnd hunreach)
    refine ⟨removed', fun x => ?_, h'⟩
    rw [hmem, List.mem_cons, List.mem_cons]
    tauto

/-- What is left is what can be reached, with the edges as they were. -/
structure Trimmed (g g' : Cfg) : Prop where
  start : g'.start = g.start
  fin : g'.fin = g.fin
  instrs : ∀ nd, g'.instrs nd = g.instrs nd
  loopdepth : ∀ nd, g'.loopdepth nd = g.loopdepth nd
  nodup : g'.nodes.Nodup
  mem_nodes : ∀ nd, nd ∈ g'.nodes ↔ g.Reachable nd
  succ : ∀ nd b, g.Reachable nd → g'.succ nd b = g.succ nd b
  succ_of : ∀ nd b s, g'.succ nd b = some s → g.succ nd b = some s
  pred : ∀ s, g.Reachable s → ∃ p : Edge → Bool, (∀ e ∈ g.pred s, p e = true ↔ g.Reachable e.1) ∧
    g'.pred s = (g.pred s).filter p

theorem Trimmed.walk_iff {g' : Cfg} (h : Trimmed g g') {src dst : ℕ} {es : List Edge}
    (hsrc : g.Reachable src) : g'.Walk src es dst ↔ g.Walk src es dst := by
  induction es generalizing src with
  | nil => exact Iff.rfl
  | cons e es ih =>
    constructor
    · rintro ⟨rfl, s, hs, hrest⟩
      rw [h.succ _ _ hsrc] at hs
      exact ⟨rfl, s, hs, (ih (hsrc.step hs)).mp hrest⟩
    · rintro ⟨rfl, s, hs, hrest⟩
      exact ⟨rfl, s, (h.succ _ _ hsrc).trans hs, (ih (hsrc.step hs)).mpr hrest⟩

theorem Trimmed.reachable_iff {g' : Cfg} (h : Trimmed g g') {nd : ℕ} :
    g'.Reachable nd ↔ g.Reachable nd := by
  unfold Reachable
  rw [h.start]
  exact exists_congr fun es => h.walk_iff (reachable_start g)

/-- The shape of the graph is kept. -/
theorem Trimmed.shaped {g' : Cfg} (h : Trimmed g g') (hg : Shaped g (· ∈ g.nodes)) :
    Shaped g' (· ∈ g'.nodes) := by
  have hmem : ∀ nd, nd ∈ g'.nodes → g.Reachable nd ∧ nd ∈ g.nodes := fun nd hnd =>
    ⟨(h.mem_nodes nd).mp hnd, hg.mem_of_reachable ((h.mem_nodes nd).mp hnd)⟩
  have hexit : ∀ nd, g'.exitType nd = g.exitType nd := fun nd => by rw [exitType, h.instrs]; rfl
  have hid : ∀ nd, g'.id nd = g.id nd := fun nd => by rw [Cfg.id, h.instrs]; rfl
  have hlast : ∀ nd, g'.lastId nd = g.lastId nd := fun nd => by rw [lastId, h.instrs]; rfl
  refine ⟨?_, ?_, ?_, ?_, ?_, ?_, ?_, ?_, ?_, ?_, ?_, ?_, ?_, ?_⟩
  · rw [h.mem_nodes, h.start]
    exact reachable_start g
  · intro nd hnd b s hs
    have hreach := (hmem nd hnd).1
    rw [h.succ _ _ hreach] at hs
    exact (h.mem_nodes s).mpr (hreach.step hs)
  · intro s hs e
    obtain ⟨p, hp, hpred⟩ := h.pred s (hmem s hs).1
    rw [hpred, List.mem_filter, h.mem_nodes]
    constructor
    · rintro ⟨he, hpe⟩
      have hreach := (hp e he).mp hpe
      refine ⟨hreach, ?_⟩
      rw [h.succ _ _ hreach]
      exact ((hg.mem_pred s (hmem s hs).2 e).mp he).2
    · rintro ⟨hreach, hs'⟩
      rw [h.succ _ _ hreach] at hs'
      have he := (hg.mem_pred s (hmem s hs).2 e).mpr ⟨hg.mem_of_reachable hreach, hs'⟩
      exact ⟨he, (hp e he).mpr hreach⟩
  · intro s hs
    obtain ⟨p, -, hpred⟩ := h.pred s (hmem s hs).1
    rw [hpred]
    exact (hg.pred_nodup s (hmem s hs).2).filter p
  · intro nd hnd
    rw [h.instrs]
    exact hg.ne_nil nd (hmem nd hnd).2
  · intro nd hnd
    rw [h.succ _ _ (hmem nd hnd).1, hexit]
    exact hg.succ_true nd (hmem nd hnd).2
  · intro nd hnd
    rw [h.succ _ _ (hmem nd hnd).1, hexit]
    exact hg.succ_false nd (hmem nd hnd).2
  · intro nd hnd
    rw [hid, hlast]
    exact hg.id_le nd (hmem nd hnd).2
  · intro nd hnd s hs
    rw [h.succ _ _ (hmem nd hnd).1] at hs
    rw [hid, hlast]
    exact hg.rising nd (hmem nd hnd).2 s hs
  · intro nd hnd nd' hnd' heq
    rw [hid, hid] at heq
    exact hg.id_inj nd (hmem nd hnd).2 nd' (hmem nd' hnd').2 heq
  · intro nd hnd
    rw [h.loopdepth]
    exact hg.loopdepth nd (hmem nd hnd).2
  · rw [hid, h.start]
    exact hg.id_start
  · intro hfin
    rw [h.instrs, h.fin]
    rw [h.fin] at hfin
    exact hg.instrs_fin (hmem _ hfin).2
  · intro b
    refine Option.eq_none_iff_forall_ne_some.mpr fun s hs => ?_
    have := h.succ_of _ b s hs
    rw [h.fin, hg.succ_fin] at this
    cases this

/-- **Removing unreachable nodes.** -/
theorem exists_removeUnreachable (hg : Shaped g (· ∈ g.nodes)) (hnodup : g.nodes.Nodup) {fuel : ℕ}
    (hfuel : 2 * g.nodes.length < fuel) :
    ∃ g', g.removeUnreachable fuel = some g' ∧ Trimmed g g' := by
  have hU : ∀ x, Relation.ReflTransGen (Search.Step fun nd => (g.succs nd).map Prod.fst) g.start x →
      x ∈ g.nodes := fun x hx => hg.mem_of_reachable (reachable_iff.mpr hx)
  have hedges : (g.nodes.map fun x => ((g.succs x).map Prod.fst).length).sum ≤ 2 * g.nodes.length := by
    have hle := List.sum_le_card_nsmul (g.nodes.map fun x => ((g.succs x).map Prod.fst).length) 2
      fun n hn => by
        obtain ⟨x, -, rfl⟩ := List.mem_map.mp hn
        rw [List.length_map]
        exact List.length_filterMap_le _ _
    rw [List.length_map, Nat.nsmul_eq_mul] at hle
    omega
  obtain ⟨visited, hmarks, hvisited⟩ := Search.mem_marks hU (lt_of_le_of_lt hedges hfuel)
  have hvis : ∀ nd, nd ∈ visited ↔ g.Reachable nd := fun nd => (hvisited nd).trans reachable_iff.symm
  set keep : ℕ → Bool := fun nd => nd ∈ visited with hkeep
  have hrem : ∀ nd ∈ (sweep keep g.nodes.length g.nodes).2, nd ∈ g.nodes ∧ ¬g.Reachable nd := by
    intro nd hnd
    obtain ⟨hmem, hno⟩ := (mem_swept keep).mp hnd
    refine ⟨hmem, fun h => ?_⟩
    rw [← hvis] at h
    simp [hkeep, h] at hno
  have hpruned : Pruned g [] g :=
    ⟨.refl _ _, fun _ _ _ _ h => .inr h, fun _ _ _ h => h, fun _ => List.Subset.refl _,
      fun _ _ => by simp⟩
  obtain ⟨removed, hremoved, hp⟩ := pruned_foldl hg hrem hpruned
  have hin : ∀ nd ∈ g.nodes, nd ∈ removed ↔ ¬g.Reachable nd := by
    intro nd hnd
    rw [hremoved, mem_swept, ← hvis]
    simp [hkeep, hnd]
  refine ⟨_, by rw [removeUnreachable, hmarks]; rfl, ?_⟩
  refine ⟨hp.same.start, hp.same.fin, fun nd => hp.same.instrs nd trivial,
    fun nd => hp.same.loopdepth nd trivial, nodup_sweep keep hnodup, fun nd => ?_, fun nd b hnd => ?_, hp.succ_of,
    fun s hs => ⟨fun e => e.1 ∉ removed, fun e he => ?_, hp.pred_keep s hs⟩⟩
  · refine (mem_sweep keep).trans ?_
    rw [hkeep, decide_eq_true_eq, hvis]
    exact ⟨fun h => h.2, fun h => ⟨hg.mem_of_reachable h, h⟩⟩
  · show Cfg.succ _ nd b = _
    cases hsucc : g.succ nd b with
    | none =>
      cases hsucc' : Cfg.succ ((sweep keep g.nodes.length g.nodes).2.foldl unlinkNode g) nd b with
      | none => exact hsucc'
      | some s => exact absurd (hp.succ_of nd b s hsucc') (by simp [hsucc])
    | some s =>
      refine (hp.succ_keep nd b s (hnd.step hsucc) hsucc).resolve_left fun hmem => ?_
      exact (hin nd (hg.mem_of_reachable hnd)).mp hmem hnd
  · have hmem := ((hg.mem_pred s (hg.mem_of_reachable hs) e).mp he).1
    rw [decide_eq_true_eq, hin e.1 hmem, not_not]

end Cfg

end NfpEstimator
