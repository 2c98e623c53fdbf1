import NfpEstimator.Cfg.Unreachable

/-!
# Merging chains

`cfg::merge_edges` joins a node with its only successor when that has no other predecessor:
the instructions of the one follow those of the other, and so do the edges.

The pass spares branches and jumps, but not the final node. So the graph that
`cfg::build_cfg` makes keeps the meaning of the listing if and only if the end of the program
is not left to a single instruction that falls through to it (`build_simplifies_iff`).
-/

namespace NfpEstimator

/-! ### The algorithm -/

namespace Cfg

variable (g : Cfg)

/-- `cfg::node::outdegree`. -/
def outdegree (nd : ℕ) : ℕ := (g.succs nd).length

/-- The instructions of `s` follow those of `nd`, and the edges out of `s` leave `nd`. -/
def takeOver (nd s : ℕ) : Cfg :=
  let x := g.node nd
  let y := g.node s
  let g := g.setNode nd { x with
    instrs := x.instrs ++ y.instrs
    successorTrue := y.successorTrue
    successorFalse := y.successorFalse }
  g.setNode s { y with instrs := [] }

/-- An edge that left `s` is now known as one of `nd`. -/
def renameEdge (nd s : ℕ) (b : Bool) : Cfg :=
  match g.succ nd b with
  | none => g
  | some t => g.setNode t { g.node t with
      predecessors := (g.pred t).map fun e => if e = (s, b) then (nd, b) else e }

/-- `cfg::node::merge_node`. -/
def mergeNode (nd s : ℕ) : Cfg :=
  ((g.takeOver nd s).renameEdge nd s true).renameEdge nd s false

end Cfg

/-- The variables of `cfg::merge_edges`. -/
structure Merging where
  g : Cfg
  deleted : ℕ → Bool

namespace Merging

/-- The node that is merged into this one. -/
def mergeable (st : Merging) (nd : ℕ) : Option ℕ :=
  if st.deleted nd ∨ st.g.exitType nd = .JUMP ∨ st.g.outdegree nd ≠ 1 then none
  else (st.g.succs nd).head?.bind fun s => if st.g.indegree s.1 = 1 then some s.1 else none

/-- `s` is merged into `nd`. -/
def merge (st : Merging) (nd s : ℕ) : Merging where
  g := st.g.mergeNode nd s
  deleted := Function.update st.deleted s true

/-- The first loop of `cfg::merge_edges`. -/
def loop : ℕ → List ℕ → Merging → Option Merging
  | _, [], st => some st
  | 0, _ :: _, _ => none
  | fuel + 1, nd :: nds, st =>
    match st.mergeable nd with
    | some s => loop fuel (nd :: nds) (st.merge nd s)
    | none => loop fuel nds st

end Merging

/-- `cfg::merge_edges`. `fuel` bounds the iterations of the first loop. -/
def Cfg.mergeEdges (g : Cfg) (fuel : ℕ) : Option Cfg :=
  (Merging.loop fuel g.nodes ⟨g, fun _ => false⟩).map fun st =>
    { st.g with nodes := (sweep (fun nd => !st.deleted nd) g.nodes.length g.nodes).1 }

/-- `cfg::build_cfg` without unrolling. -/
def Cfg.build (listing : List Instr) (fuel : ℕ) : Option (Except String Cfg) :=
  match instrGraph listing with
  | .error e => some (.error e)
  | .ok g => ((g.removeUnreachable fuel).bind fun g => g.mergeEdges fuel).map .ok

/-! ### What merging changes -/

namespace Cfg

variable {g : Cfg} {nd s : ℕ}

theorem node_takeOver_self (hne : s ≠ nd) : (g.takeOver nd s).node nd =
    ⟨g.instrs nd ++ g.instrs s, g.loopdepth nd, (g.node s).successorTrue, (g.node s).successorFalse,
      g.pred nd⟩ := by
  unfold takeOver
  rw [node_setNode_of_ne (Ne.symm hne), node_setNode_self]
  rfl

theorem node_takeOver_merged :
    (g.takeOver nd s).node s = { g.node s with instrs := [] } := by
  unfold takeOver
  rw [node_setNode_self]

theorem node_takeOver_of_ne {m : ℕ} (h₁ : m ≠ nd) (h₂ : m ≠ s) :
    (g.takeOver nd s).node m = g.node m := by
  unfold takeOver
  rw [node_setNode_of_ne h₂, node_setNode_of_ne h₁]

theorem succ_takeOver (hne : s ≠ nd) (m : ℕ) (b : Bool) :
    (g.takeOver nd s).succ m b = if m = nd then g.succ s b else g.succ m b := by
  unfold succ
  by_cases h₁ : m = nd
  · rw [if_pos h₁, h₁, node_takeOver_self hne]
  · rw [if_neg h₁]
    by_cases h₂ : m = s
    · rw [h₂, node_takeOver_merged]
    · rw [node_takeOver_of_ne h₁ h₂]

theorem pred_takeOver (hne : s ≠ nd) (m : ℕ) : (g.takeOver nd s).pred m = g.pred m := by
  unfold pred
  by_cases h₁ : m = nd
  · rw [h₁, node_takeOver_self hne]
    rfl
  · by_cases h₂ : m = s
    · rw [h₂, node_takeOver_merged]
    · rw [node_takeOver_of_ne h₁ h₂]

theorem sameBlocks_renameEdge (b : Bool) : SameBlocks (fun _ => True) g (g.renameEdge nd s b) := by
  unfold renameEdge
  split
  · exact .refl _ _
  · exact sameBlocks_setNode_self rfl rfl

theorem succ_renameEdge (b : Bool) (m : ℕ) (b' : Bool) :
    (g.renameEdge nd s b).succ m b' = g.succ m b' := by
  unfold renameEdge
  split
  · rfl
  · rw [succ_setPredecessors]

/-- The edge is renamed where it is, and it is where it leads to. -/
theorem pred_renameEdge {b : Bool} {t : ℕ} (h : (s, b) ∈ g.pred t → g.succ nd b = some t) :
    (g.renameEdge nd s b).pred t = (g.pred t).map fun e => if e = (s, b) then (nd, b) else e := by
  have hid : g.succ nd b ≠ some t →
      (g.pred t).map (fun e => if e = (s, b) then (nd, b) else e) = g.pred t := by
    intro hne
    have hmap : (g.pred t).map (fun e => if e = (s, b) then (nd, b) else e) =
        (g.pred t).map fun e => e := by
      refine List.map_congr_left fun e he => ?_
      have hes : e ≠ (s, b) := fun heq => hne (h (heq ▸ he))
      rw [if_neg hes]
    rw [hmap, List.map_id']
  unfold renameEdge
  split
  next hnone => exact (hid (by simp [hnone])).symm
  next t' ht' =>
    rw [pred_setPredecessors]
    split
    next htt => rw [htt]
    next htt => exact (hid (by simp [ht', Ne.symm htt])).symm

theorem sameBlocks_mergeNode : SameBlocks (fun _ => True) (g.takeOver nd s) (g.mergeNode nd s) :=
  (sameBlocks_renameEdge true).trans (sameBlocks_renameEdge false)

theorem instrs_mergeNode_self (hne : s ≠ nd) :
    (g.mergeNode nd s).instrs nd = g.instrs nd ++ g.instrs s := by
  rw [sameBlocks_mergeNode.instrs nd trivial, instrs, node_takeOver_self hne]

theorem instrs_mergeNode_of_ne {m : ℕ} (h₁ : m ≠ nd) (h₂ : m ≠ s) :
    (g.mergeNode nd s).instrs m = g.instrs m := by
  rw [sameBlocks_mergeNode.instrs m trivial, instrs, node_takeOver_of_ne h₁ h₂]
  rfl

theorem exitType_mergeNode_of_ne {m : ℕ} (h₁ : m ≠ nd) (h₂ : m ≠ s) :
    (g.mergeNode nd s).exitType m = g.exitType m := by
  rw [exitType, instrs_mergeNode_of_ne h₁ h₂]
  rfl

theorem lastId_mergeNode_of_ne {m : ℕ} (h₁ : m ≠ nd) (h₂ : m ≠ s) :
    (g.mergeNode nd s).lastId m = g.lastId m := by
  rw [lastId, instrs_mergeNode_of_ne h₁ h₂]
  rfl

theorem loopdepth_mergeNode (hne : s ≠ nd) (m : ℕ) :
    (g.mergeNode nd s).loopdepth m = g.loopdepth m := by
  rw [sameBlocks_mergeNode.loopdepth m trivial, loopdepth]
  by_cases h₁ : m = nd
  · rw [h₁, node_takeOver_self hne]
  · by_cases h₂ : m = s
    · rw [h₂, node_takeOver_merged]
      rfl
    · rw [node_takeOver_of_ne h₁ h₂]
      rfl

theorem succ_mergeNode (hne : s ≠ nd) (m : ℕ) (b : Bool) :
    (g.mergeNode nd s).succ m b = if m = nd then g.succ s b else g.succ m b := by
  rw [mergeNode, succ_renameEdge, succ_renameEdge, succ_takeOver hne]

/-- The name of an edge after `s` has been merged into `nd`. -/
def renamed (nd s : ℕ) (e : Edge) : Edge := if e.1 = s then (nd, e.2) else e

theorem renamed_snd (e : Edge) : (renamed nd s e).2 = e.2 := by
  unfold renamed
  split <;> rfl

theorem pred_mergeNode (hne : s ≠ nd) {t : ℕ} (h : ∀ b, (s, b) ∈ g.pred t → g.succ s b = some t) :
    (g.mergeNode nd s).pred t = (g.pred t).map (renamed nd s) := by
  have hpred := pred_takeOver (g := g) hne t
  have htrue : (s, true) ∈ (g.takeOver nd s).pred t → (g.takeOver nd s).succ nd true = some t := by
    rw [hpred, succ_takeOver hne, if_pos rfl]
    exact h true
  have hfalse : (s, false) ∈ ((g.takeOver nd s).renameEdge nd s true).pred t →
      ((g.takeOver nd s).renameEdge nd s true).succ nd false = some t := by
    rw [pred_renameEdge htrue, succ_renameEdge, hpred, succ_takeOver hne, if_pos rfl]
    intro hmem
    obtain ⟨e, he, heq⟩ := List.mem_map.mp hmem
    split at heq
    · exact absurd heq (by simp)
    · exact h false (heq ▸ he)
  rw [mergeNode, pred_renameEdge hfalse, pred_renameEdge htrue, hpred, List.map_map]
  refine List.map_congr_left fun e _ => ?_
  obtain ⟨m, b⟩ := e
  by_cases hm : m = s
  · subst hm
    cases b <;> simp [renamed, Ne.symm hne]
  · simp [renamed, hm]

end Cfg

/-! ### Merging a node -/

/-- `s` is the only successor of `nd`, and has no other predecessor. -/
structure Joins (g : Cfg) (alive : ℕ → Prop) (nd s : ℕ) : Prop where
  alive : alive nd
  succ_false : g.succ nd false = some s
  succ_true : g.succ nd true = none
  pred : g.pred s = [(nd, false)]

section

variable {g : Cfg} {alive : ℕ → Prop} {nd s : ℕ}

namespace Joins

variable (h : Joins g alive nd s) (hg : Shaped g alive)

include h hg

theorem alive_succ : alive s := hg.closed nd h.alive false s h.succ_false

theorem ne : s ≠ nd := by
  rintro rfl
  have h₁ := hg.rising s h.alive s h.succ_false
  have h₂ := hg.id_le s h.alive
  omega

theorem ne_start : g.start ≠ s := by
  rintro rfl
  have h₁ := hg.rising nd h.alive _ h.succ_false
  rw [hg.id_start] at h₁
  omega

theorem ne_fin : nd ≠ g.fin := by
  intro heq
  have hexit : g.exitType nd = .FIN := by
    rw [heq, Cfg.exitType, hg.instrs_fin (heq ▸ h.alive)]
    rfl
  exact ((hg.succ_false nd h.alive).mp (by simp [h.succ_false])).2 hexit

/-- The only edge to `s` comes from `nd`. -/
theorem eq_of_succ {m : ℕ} (hm : alive m) {b : Bool} (hs : g.succ m b = some s) :
    m = nd ∧ b = false := by
  have hmem := (hg.mem_pred s (h.alive_succ hg) (m, b)).mpr ⟨hm, hs⟩
  rw [h.pred, List.mem_singleton] at hmem
  exact Prod.mk.inj hmem

theorem succ_ne {b : Bool} {t : ℕ} (ht : g.succ s b = some t) : t ≠ s := fun heq =>
  h.ne hg (h.eq_of_succ hg (h.alive_succ hg) (heq ▸ ht)).1

omit hg in
theorem succ_of_nd {b : Bool} {t : ℕ} (ht : g.succ nd b = some t) : b = false ∧ t = s := by
  cases b with
  | true => exact absurd ht (by simp [h.succ_true])
  | false => exact ⟨rfl, Option.some.inj (ht.symm.trans h.succ_false)⟩

theorem exitType_ne : g.exitType nd ≠ .BRANCH ∧ g.exitType nd ≠ .JUMP := by
  have h₁ := hg.succ_true nd h.alive
  rw [h.succ_true] at h₁
  have h₂ := mt h₁.mpr (by simp)
  exact not_or.mp h₂

theorem succ (m : ℕ) (b : Bool) :
    (g.mergeNode nd s).succ m b = if m = nd then g.succ s b else g.succ m b :=
  Cfg.succ_mergeNode (h.ne hg) m b

theorem pred_merge {t : ℕ} (ht : alive t) :
    (g.mergeNode nd s).pred t = (g.pred t).map (Cfg.renamed nd s) :=
  Cfg.pred_mergeNode (h.ne hg) fun b hb => ((hg.mem_pred t ht (s, b)).mp hb).2

theorem instrs_self : (g.mergeNode nd s).instrs nd = g.instrs nd ++ g.instrs s :=
  Cfg.instrs_mergeNode_self (h.ne hg)

/-- The last instruction of an edge is the same under its new name. -/
theorem getLast?_renamed {t : ℕ} (ht : alive t) (hts : t ≠ s) {e : Edge} (he : e ∈ g.pred t) :
    ((g.mergeNode nd s).instrs (Cfg.renamed nd s e).1).getLast? = (g.instrs e.1).getLast? := by
  obtain ⟨m, b⟩ := e
  obtain ⟨hm, hsucc⟩ := (hg.mem_pred t ht (m, b)).mp he
  unfold Cfg.renamed
  split
  next heq =>
    obtain rfl : m = s := heq
    rw [h.instrs_self hg, List.getLast?_append_of_ne_nil _ (hg.ne_nil m hm)]
  next hne =>
    have hnd : m ≠ nd := by
      rintro rfl
      exact hts (h.succ_of_nd hsucc).2
    rw [Cfg.instrs_mergeNode_of_ne hnd hne]

theorem exitType_self : (g.mergeNode nd s).exitType nd = g.exitType s := by
  rw [Cfg.exitType, h.instrs_self hg,
    List.getLast?_append_of_ne_nil _ (hg.ne_nil s (h.alive_succ hg))]
  rfl

theorem lastId_self : (g.mergeNode nd s).lastId nd = g.lastId s := by
  rw [Cfg.lastId, h.instrs_self hg,
    List.getLast?_append_of_ne_nil _ (hg.ne_nil s (h.alive_succ hg))]
  rfl

theorem id {m : ℕ} (hm : m ≠ s) : (g.mergeNode nd s).id m = g.id m := by
  by_cases hnd : m = nd
  · rw [hnd, Cfg.id, h.instrs_self hg, List.head?_append_of_ne_nil _ (hg.ne_nil nd h.alive)]
    rfl
  · rw [Cfg.id, Cfg.instrs_mergeNode_of_ne hnd hm]
    rfl

/-- The node whose end a node has after the merge. -/
def tail (nd s m : ℕ) : ℕ := if m = nd then s else m

theorem alive_tail {m : ℕ} (hm : alive m) : alive (tail nd s m) := by
  unfold tail
  split
  · exact h.alive_succ hg
  · exact hm

theorem tail_ne (m : ℕ) : tail nd s m ≠ nd := by
  unfold tail
  split
  · exact h.ne hg
  next hne => exact hne

theorem succ_tail (m : ℕ) (b : Bool) : (g.mergeNode nd s).succ m b = g.succ (tail nd s m) b := by
  rw [h.succ hg, tail]
  split <;> rfl

theorem exitType_tail {m : ℕ} (hms : m ≠ s) : (g.mergeNode nd s).exitType m = g.exitType (tail nd s m) := by
  unfold tail
  split
  next heq => rw [heq, h.exitType_self hg]
  next hne => exact Cfg.exitType_mergeNode_of_ne hne hms

theorem lastId_tail {m : ℕ} (hms : m ≠ s) : (g.mergeNode nd s).lastId m = g.lastId (tail nd s m) := by
  unfold tail
  split
  next heq => rw [heq, h.lastId_self hg]
  next hne => exact Cfg.lastId_mergeNode_of_ne hne hms

theorem id_le_tail {m : ℕ} (hm : alive m) : g.id m ≤ g.lastId (tail nd s m) := by
  unfold tail
  split
  next heq =>
    have h₁ := hg.id_le nd h.alive
    have h₂ := hg.rising nd h.alive s h.succ_false
    have h₃ := hg.id_le s (h.alive_succ hg)
    rw [heq]
    omega
  · exact hg.id_le m hm

/-- What a node leads to after the merge. -/
theorem alive_of_succ {m t : ℕ} {b : Bool} (hm : alive m) (ht : (g.mergeNode nd s).succ m b = some t) :
    alive t ∧ t ≠ s := by
  rw [h.succ_tail hg] at ht
  have htail := h.alive_tail hg hm
  refine ⟨hg.closed _ htail b t ht, ?_⟩
  rintro rfl
  exact h.tail_ne hg m (h.eq_of_succ hg htail ht).1

theorem mem_pred_merge {t : ℕ} (ht : alive t) (hts : t ≠ s) (e : Edge) :
    e ∈ (g.mergeNode nd s).pred t ↔
      (alive e.1 ∧ e.1 ≠ s) ∧ (g.mergeNode nd s).succ e.1 e.2 = some t := by
  rw [h.pred_merge hg ht, List.mem_map, h.succ hg]
  constructor
  · rintro ⟨e', he', rfl⟩
    obtain ⟨halive, hsucc⟩ := (hg.mem_pred t ht e').mp he'
    unfold Cfg.renamed
    split
    next heq => exact ⟨⟨h.alive, (h.ne hg).symm⟩, by rw [if_pos rfl, ← heq, hsucc]⟩
    next hes =>
      have hnd : e'.1 ≠ nd := by
        intro heq
        rw [heq] at hsucc
        exact hts (h.succ_of_nd hsucc).2
      rw [if_neg hnd]
      exact ⟨⟨halive, hes⟩, hsucc⟩
  · rintro ⟨⟨halive, hes⟩, hsucc⟩
    obtain ⟨m, b⟩ := e
    by_cases hm : m = nd
    · subst hm
      rw [if_pos rfl] at hsucc
      refine ⟨(s, b), (hg.mem_pred t ht _).mpr ⟨h.alive_succ hg, hsucc⟩, ?_⟩
      simp [Cfg.renamed]
    · rw [if_neg hm] at hsucc
      refine ⟨(m, b), (hg.mem_pred t ht _).mpr ⟨halive, hsucc⟩, ?_⟩
      exact if_neg hes

theorem nodup_pred_merge {t : ℕ} (ht : alive t) (hts : t ≠ s) : ((g.mergeNode nd s).pred t).Nodup := by
  rw [h.pred_merge hg ht]
  refine List.Nodup.map_on ?_ (hg.pred_nodup t ht)
  have hnot : ∀ b, (nd, b) ∉ g.pred t := fun b hb =>
    hts (h.succ_of_nd ((hg.mem_pred t ht _).mp hb).2).2
  rintro ⟨m, b⟩ hm ⟨m', b'⟩ hm' heq
  unfold Cfg.renamed at heq
  split at heq <;> split at heq
  next h₁ h₂ => exact Prod.ext (h₁.trans h₂.symm) (Prod.mk.inj heq).2
  · exact absurd (heq ▸ hm') (hnot _)
  · exact absurd (heq ▸ hm) (hnot _)
  · exact heq

theorem ne_nil_merge {m : ℕ} (hm : alive m) (hms : m ≠ s) : (g.mergeNode nd s).instrs m ≠ [] := by
  by_cases hmn : m = nd
  · rw [hmn, h.instrs_self hg]
    exact List.append_ne_nil_of_left_ne_nil (hg.ne_nil nd h.alive) _
  · rw [Cfg.instrs_mergeNode_of_ne hmn hms]
    exact hg.ne_nil m hm

end Joins

/-- Merging keeps the shape of what is left. -/
theorem Shaped.merge (hg : Shaped g alive) (h : Joins g alive nd s) :
    Shaped (g.mergeNode nd s) fun m => alive m ∧ m ≠ s where
  start := by
    rw [Cfg.sameBlocks_mergeNode.start]
    exact ⟨hg.start, h.ne_start hg⟩
  closed m hm b t ht := h.alive_of_succ hg hm.1 ht
  mem_pred t ht e := h.mem_pred_merge hg ht.1 ht.2 e
  pred_nodup t ht := h.nodup_pred_merge hg ht.1 ht.2
  ne_nil m hm := h.ne_nil_merge hg hm.1 hm.2
  succ_true m hm := by
    rw [h.succ_tail hg, h.exitType_tail hg hm.2]
    exact hg.succ_true _ (h.alive_tail hg hm.1)
  succ_false m hm := by
    rw [h.succ_tail hg, h.exitType_tail hg hm.2]
    exact hg.succ_false _ (h.alive_tail hg hm.1)
  id_le m hm := by
    rw [h.id hg hm.2, h.lastId_tail hg hm.2]
    exact h.id_le_tail hg hm.1
  rising m hm t ht := by
    rw [h.lastId_tail hg hm.2, h.id hg (h.alive_of_succ hg hm.1 ht).2]
    rw [Option.mem_def, h.succ_tail hg] at ht
    exact hg.rising _ (h.alive_tail hg hm.1) t ht
  id_inj m hm m' hm' heq := by
    rw [h.id hg hm.2, h.id hg hm'.2] at heq
    exact hg.id_inj m hm.1 m' hm'.1 heq
  loopdepth m hm := by
    rw [Cfg.loopdepth_mergeNode (h.ne hg)]
    exact hg.loopdepth m hm.1
  id_start := by
    rw [Cfg.sameBlocks_mergeNode.start]
    exact (h.id hg (h.ne_start hg)).trans hg.id_start
  instrs_fin := by
    rw [Cfg.sameBlocks_mergeNode.fin]
    rintro ⟨hfin, hfs⟩
    exact (Cfg.instrs_mergeNode_of_ne (h.ne_fin hg).symm hfs).trans (hg.instrs_fin hfin)
  succ_fin b := by
    rw [Cfg.sameBlocks_mergeNode.fin, h.succ hg]
    exact (if_neg (h.ne_fin hg).symm).trans (hg.succ_fin b)

/-! ### What a path executes -/

/-- The instructions of the block that an edge leaves; the last one with the decision, if it is
a branch. -/
def Cfg.blockTrace (g : Cfg) (e : Edge) : List (Instr × Option Bool) :=
  (g.instrs e.1).dropLast.map (fun n => (n, none)) ++
    (g.instrs e.1).getLast?.toList.map fun n =>
      (n, if n.type = .BRANCH then some e.2 else none)

/-- The instructions along a walk, with the branch decisions. -/
def Cfg.trace (g : Cfg) (es : List Edge) : List (Instr × Option Bool) := es.flatMap g.blockTrace

/-- A block that ends without a decision. -/
theorem blockTrace_of_ne_branch {e : Edge} (hne : g.instrs e.1 ≠ []) (h : g.exitType e.1 ≠ .BRANCH) :
    g.blockTrace e = (g.instrs e.1).map fun n => (n, none) := by
  obtain ⟨init, last, heq⟩ := (List.eq_nil_or_concat (g.instrs e.1)).resolve_left hne
  rw [Cfg.exitType, heq] at h
  rw [Cfg.blockTrace, heq]
  have hlast : last.type ≠ .BRANCH := by simpa using h
  simp [hlast]

theorem Joins.blockTrace_self (h : Joins g alive nd s) (hg : Shaped g alive) (b : Bool) :
    (g.mergeNode nd s).blockTrace (nd, b) = g.blockTrace (nd, false) ++ g.blockTrace (s, b) := by
  have hs := hg.ne_nil s (h.alive_succ hg)
  rw [blockTrace_of_ne_branch (g := g) (e := (nd, false)) (hg.ne_nil nd h.alive) (h.exitType_ne hg).1]
  simp only [Cfg.blockTrace, h.instrs_self hg]
  rw [List.dropLast_append_of_ne_nil hs, List.getLast?_append_of_ne_nil _ hs, List.map_append,
    List.append_assoc]

theorem blockTrace_mergeNode_of_ne {m : ℕ} (b : Bool) (h₁ : m ≠ nd) (h₂ : m ≠ s) :
    (g.mergeNode nd s).blockTrace (m, b) = g.blockTrace (m, b) := by
  simp only [Cfg.blockTrace, Cfg.instrs_mergeNode_of_ne h₁ h₂]

/-- A walk is still there after a merge, unless it ends at the node that is gone. -/
theorem Joins.exists_walk (h : Joins g alive nd s) (hg : Shaped g alive) {dst : ℕ} (hdst : dst ≠ s)
    {n : ℕ} {src : ℕ} {es : List Edge} (hn : es.length ≤ n) (hsrc : alive src) (hsrcs : src ≠ s)
    (hw : g.Walk src es dst) : ∃ es', (g.mergeNode nd s).Walk src es' dst ∧
      (g.mergeNode nd s).trace es' = g.trace es := by
  induction n generalizing src es with
  | zero =>
    obtain rfl := List.length_eq_zero_iff.mp (show es.length = 0 by omega)
    exact ⟨[], hw, rfl⟩
  | succ n ih =>
    cases es with
    | nil => exact ⟨[], hw, rfl⟩
    | cons e es =>
      obtain ⟨m, b⟩ := e
      obtain ⟨rfl, t, ht, hrest⟩ := hw
      rw [List.length_cons] at hn
      by_cases hmn : m = nd
      · subst hmn
        obtain ⟨rfl, rfl⟩ := h.succ_of_nd ht
        -- the walk goes on through the node that is merged
        cases es with
        | nil => exact absurd (show t = dst from hrest).symm hdst
        | cons e' es =>
          obtain ⟨m', b'⟩ := e'
          obtain ⟨rfl, t', ht', hrest'⟩ := hrest
          rw [List.length_cons] at hn
          have halive : alive t' := hg.closed m' (h.alive_succ hg) b' t' ht'
          obtain ⟨es', hw', htr⟩ := ih (by omega) halive (h.succ_ne hg ht') hrest'
          refine ⟨(m, b') :: es', ⟨rfl, t', ?_, hw'⟩, ?_⟩
          · rw [h.succ hg, if_pos rfl]
            exact ht'
          · simp only [Cfg.trace, List.flatMap_cons] at htr ⊢
            rw [htr, h.blockTrace_self hg, List.append_assoc]
      · have hts : t ≠ s := by
          rintro rfl
          exact hmn (h.eq_of_succ hg hsrc ht).1
        obtain ⟨es', hw', htr⟩ := ih (by omega) (hg.closed m hsrc b t ht) hts hrest
        refine ⟨(m, b) :: es', ⟨rfl, t, ?_, hw'⟩, ?_⟩
        · rw [h.succ hg, if_neg hmn]
          exact ht
        · simp only [Cfg.trace, List.flatMap_cons] at htr ⊢
          rw [htr, blockTrace_mergeNode_of_ne b hmn hsrcs]

/-- A walk after a merge was there before. -/
theorem Joins.exists_walk_before (h : Joins g alive nd s) (hg : Shaped g alive) {dst src : ℕ}
    {es : List Edge} (hsrc : alive src) (hsrcs : src ≠ s) (hw : (g.mergeNode nd s).Walk src es dst) :
    ∃ es', g.Walk src es' dst ∧ g.trace es' = (g.mergeNode nd s).trace es := by
  induction es generalizing src with
  | nil => exact ⟨[], hw, rfl⟩
  | cons e es ih =>
    obtain ⟨m, b⟩ := e
    obtain ⟨rfl, t, ht, hrest⟩ := hw
    obtain ⟨halive, hts⟩ := (hg.merge h).closed m ⟨hsrc, hsrcs⟩ b t ht
    obtain ⟨es', hw', htr⟩ := ih halive hts hrest
    rw [h.succ hg] at ht
    simp only [Cfg.trace, List.flatMap_cons] at htr ⊢
    split at ht
    next hmn =>
      obtain rfl : m = nd := hmn
      refine ⟨(m, false) :: (s, b) :: es', ⟨rfl, s, h.succ_false, rfl, t, ht, hw'⟩, ?_⟩
      rw [List.flatMap_cons, List.flatMap_cons, htr, h.blockTrace_self hg, List.append_assoc]
    next hmn =>
      refine ⟨(m, b) :: es', ⟨rfl, t, ht, hw'⟩, ?_⟩
      rw [List.flatMap_cons, htr, blockTrace_mergeNode_of_ne b hmn hsrcs]

end

/-! ### The loop -/

/-- The edges to the final node, with the instructions that they leave. -/
def Cfg.exits (g : Cfg) : List (Option Instr × Bool) :=
  (g.pred g.fin).map fun e => ((g.instrs e.1).getLast?, e.2)

/-- What can be executed from the start to the end of the program. -/
def Cfg.Runs (g : Cfg) (tr : List (Instr × Option Bool)) : Prop :=
  ∃ es, g.IsPath es ∧ g.trace es = tr

/-- A single edge leads to the final node, from a block that neither branches nor jumps. -/
def Cfg.FallsThrough (g : Cfg) : Prop :=
  ∃ n : Instr, n.type ≠ .BRANCH ∧ n.type ≠ .JUMP ∧ g.exits = [(some n, false)]

namespace Merging

variable {g : Cfg} {st : Merging} {nd s : ℕ}

/-- The nodes that have not been merged into another. -/
def Alive (g : Cfg) (st : Merging) (nd : ℕ) : Prop := nd ∈ g.nodes ∧ st.deleted nd = false

/-- Merging chains in `g`, on the way. -/
structure Valid (g : Cfg) (st : Merging) : Prop where
  start : st.g.start = g.start
  fin : st.g.fin = g.fin
  shaped : Shaped st.g (Alive g st)
  reachable : ∀ nd, Alive g st nd → st.g.Reachable nd
  fallsThrough : st.deleted g.fin = true → g.fin ∈ g.nodes ∧ g.FallsThrough
  exits : Alive g st g.fin → st.g.exits = g.exits
  runs : st.deleted g.fin = false → ∀ tr, st.g.Runs tr ↔ g.Runs tr

theorem mergeable_eq_some (hg : Shaped st.g (Alive g st)) (hnd : nd ∈ g.nodes)
    (h : st.mergeable nd = some s) : Joins st.g (Alive g st) nd s := by
  unfold mergeable at h
  split at h
  · cases h
  next hno =>
    simp only [not_or, Bool.not_eq_true, not_not] at hno
    obtain ⟨hdel, hjump, hout⟩ := hno
    have halive : Alive g st nd := ⟨hnd, hdel⟩
    obtain ⟨⟨t, b⟩, hsuccs⟩ := List.length_eq_one_iff.mp hout
    rw [hsuccs, List.head?_cons, Option.bind_some] at h
    split at h
    case isFalse => cases h
    next hin =>
      obtain rfl := Option.some.inj h
      have hmem : ∀ b', st.g.succ nd b' = some t → b' = b := by
        intro b' hs
        have := Cfg.mem_succs.mpr hs
        rw [hsuccs, List.mem_singleton] at this
        exact (Prod.mk.inj this).2
      have hsome : ∀ b', (st.g.succ nd b').isSome → b' = b ∧ st.g.succ nd b' = some t := by
        intro b' hs
        obtain ⟨t', ht'⟩ := Option.isSome_iff_exists.mp hs
        have := Cfg.mem_succs.mpr ht'
        rw [hsuccs, List.mem_singleton] at this
        obtain ⟨rfl, rfl⟩ := Prod.mk.inj this
        exact ⟨rfl, ht'⟩
      have hbranch : st.g.exitType nd ≠ .BRANCH := by
        intro hty
        have h₁ := hsome true ((hg.succ_true nd halive).mpr (.inl hty))
        have h₂ := hsome false ((hg.succ_false nd halive).mpr (by simp [hty]))
        exact absurd (h₁.1.trans h₂.1.symm) (by simp)
      have htrue : st.g.succ nd true = none := by
        have := mt (hg.succ_true nd halive).mp (by simp [hbranch, hjump])
        simpa using this
      have hfalse : st.g.succ nd false = some t := by
        have hs : st.g.succ nd b = some t := Cfg.mem_succs.mp (by rw [hsuccs]; exact List.mem_cons_self)
        cases b with
        | true => exact absurd hs (by simp [htrue])
        | false => exact hs
      refine ⟨halive, hfalse, htrue, ?_⟩
      obtain ⟨e, he⟩ := List.length_eq_one_iff.mp hin
      have hpred := (hg.mem_pred t (hg.closed nd halive false t hfalse) (nd, false)).mpr
        ⟨halive, hfalse⟩
      rw [he, List.mem_singleton] at hpred
      rw [he, hpred]

/-- The final node is merged if it can be. -/
theorem mergeable_of_joins (hnd : st.deleted nd = false) (hjump : st.g.exitType nd ≠ .JUMP)
    (h : Joins st.g (Alive g st) nd s) : st.mergeable nd = some s := by
  have hsuccs : st.g.succs nd = [(s, false)] := by
    simp [Cfg.succs, h.succ_false, h.succ_true]
  have hin : st.g.indegree s = 1 := by
    rw [Cfg.indegree, h.pred]
    rfl
  simp [mergeable, hnd, hjump, Cfg.outdegree, hsuccs, hin]

theorem alive_merge {m : ℕ} : Alive g (st.merge nd s) m ↔ Alive g st m ∧ m ≠ s := by
  unfold Alive merge
  by_cases hm : m = s
  · simp [hm]
  · simp [hm, Function.update_of_ne]

theorem deleted_merge_self : (st.merge nd s).deleted s = true := Function.update_self _ _ _

theorem deleted_merge_of_ne {m : ℕ} (hm : m ≠ s) : (st.merge nd s).deleted m = st.deleted m :=
  Function.update_of_ne hm _ _

theorem Valid.merge (h : Valid g st) (hj : Joins st.g (Alive g st) nd s) : Valid g (st.merge nd s) := by
  have hg := h.shaped
  have hshaped : Shaped (st.merge nd s).g (Alive g (st.merge nd s)) := by
    have halive : Alive g (st.merge nd s) = fun m => Alive g st m ∧ m ≠ s :=
      funext fun m => propext alive_merge
    rw [halive]
    exact hg.merge hj
  have hblocks : Cfg.SameBlocks (fun _ => True) (st.g.takeOver nd s) (st.g.mergeNode nd s) :=
    Cfg.sameBlocks_mergeNode
  have hdel : (st.merge nd s).deleted g.fin = true → st.deleted g.fin = true ∨ g.fin = s := by
    intro hd
    by_cases hfs : g.fin = s
    · exact .inr hfs
    · exact .inl ((deleted_merge_of_ne hfs).symm.trans hd)
  have hkeep : (st.merge nd s).deleted g.fin = false → st.deleted g.fin = false ∧ g.fin ≠ s := by
    intro hd
    have hfs : g.fin ≠ s := by
      intro hfs
      rw [hfs, deleted_merge_self] at hd
      exact nomatch hd
    exact ⟨(deleted_merge_of_ne hfs).symm.trans hd, hfs⟩
  refine ⟨hblocks.start.trans h.start, hblocks.fin.trans h.fin, hshaped, ?_, ?_, ?_, ?_⟩
  · intro m hm
    obtain ⟨hm, hms⟩ := alive_merge.mp hm
    obtain ⟨es, hw⟩ := h.reachable m hm
    obtain ⟨es', hw', -⟩ := hj.exists_walk hg hms le_rfl hg.start (hj.ne_start hg) hw
    exact ⟨es', hblocks.start ▸ hw'⟩
  · intro hd
    rcases hdel hd with hd | hfs
    · exact h.fallsThrough hd
    · have hfin : Alive g st g.fin := hfs ▸ hj.alive_succ hg
      obtain ⟨hb, hjmp⟩ := hj.exitType_ne hg
      obtain ⟨n, hn⟩ : ∃ n, (st.g.instrs nd).getLast? = some n :=
        ⟨_, List.getLast?_eq_some_getLast (hg.ne_nil nd hj.alive)⟩
      have hty : st.g.exitType nd = n.type := by
        rw [Cfg.exitType, hn]
        rfl
      refine ⟨hfin.1, n, hty ▸ hb, hty ▸ hjmp, ?_⟩
      rw [← h.exits hfin, Cfg.exits, h.fin, hfs, hj.pred, List.map_singleton, hn]
  · intro hfin
    obtain ⟨hfin, hfs⟩ := alive_merge.mp hfin
    rw [← h.exits hfin]
    unfold Cfg.exits
    show ((st.g.mergeNode nd s).pred (st.g.mergeNode nd s).fin).map _ = _
    rw [hblocks.fin.trans h.fin, h.fin, hj.pred_merge hg hfin, List.map_map]
    refine List.map_congr_left fun e he => ?_
    exact Prod.ext (hj.getLast?_renamed hg hfin hfs he) (Cfg.renamed_snd e)
  · intro hd tr
    obtain ⟨hd, hfs⟩ := hkeep hd
    rw [← h.runs hd tr]
    have hfin : st.g.fin ≠ s := h.fin.symm ▸ hfs
    constructor
    · rintro ⟨es, hw, htr⟩
      obtain ⟨es', hw', htr'⟩ := hj.exists_walk_before hg hg.start (hj.ne_start hg)
        (show (st.g.mergeNode nd s).Walk st.g.start es st.g.fin from
          hblocks.start ▸ hblocks.fin ▸ hw)
      exact ⟨es', hw', htr'.trans htr⟩
    · rintro ⟨es, hw, htr⟩
      obtain ⟨es', hw', htr'⟩ := hj.exists_walk hg hfin le_rfl hg.start (hj.ne_start hg) hw
      refine ⟨es', ?_, htr'.trans htr⟩
      show (st.g.mergeNode nd s).Walk (st.g.mergeNode nd s).start es' (st.g.mergeNode nd s).fin
      rw [hblocks.start, hblocks.fin]
      exact hw'

/-- Whoever could not be merged with its successor cannot be later. -/
theorem Valid.mergeable_merge (h : Valid g st) (hj : Joins st.g (Alive g st) nd s) {x : ℕ}
    (hx : x ∈ g.nodes) (hxn : x ≠ nd) (hnone : st.mergeable x = none) :
    (st.merge nd s).mergeable x = none := by
  by_cases hxs : x = s
  · simp [mergeable, hxs, deleted_merge_self]
  by_cases hdel : st.deleted x = true
  · simp [mergeable, deleted_merge_of_ne hxs, hdel]
  have halive : Alive g st x := ⟨hx, by simpa using hdel⟩
  have hsucc : ∀ b, (st.g.mergeNode nd s).succ x b = st.g.succ x b := fun b => by
    rw [hj.succ h.shaped, if_neg hxn]
  have hsuccs : (st.g.mergeNode nd s).succs x = st.g.succs x := Cfg.succs_congr hsucc
  have hin : ∀ t ∈ st.g.succs x, (st.g.mergeNode nd s).indegree t.1 = st.g.indegree t.1 := by
    rintro ⟨t, b⟩ ht
    have ht' := h.shaped.closed x halive b t (Cfg.mem_succs.mp ht)
    rw [Cfg.indegree, hj.pred_merge h.shaped ht', List.length_map]
    rfl
  refine Eq.trans ?_ hnone
  unfold mergeable
  rw [deleted_merge_of_ne hxs, show (st.merge nd s).g = st.g.mergeNode nd s from rfl,
    Cfg.exitType_mergeNode_of_ne hxn hxs, Cfg.outdegree, hsuccs]
  congr 1
  cases hl : st.g.succs x with
  | nil => rfl
  | cons t l =>
    rw [List.head?_cons, Option.bind_some, Option.bind_some, hin t (by rw [hl]; exact List.mem_cons_self)]

/-- How many nodes have not been merged into another. -/
def left (g : Cfg) (st : Merging) : ℕ := (g.nodes.map fun x => if st.deleted x then 0 else 1).sum

theorem left_merge (hs : Alive g st s) : left g (st.merge nd s) + 1 ≤ left g st := by
  refine Search.sum_map_add_le (fun x _ => ?_) hs.1 ?_
  · by_cases hx : x = s
    · simp [hx, deleted_merge_self]
    · rw [deleted_merge_of_ne hx]
  · simp [hs.2, deleted_merge_self]

/-- The loop ends, when no node can be merged any more. -/
theorem exists_loop {fuel : ℕ} {nds : List ℕ} (h : Valid g st) (hmem : ∀ x ∈ nds, x ∈ g.nodes)
    (hdone : ∀ x ∈ g.nodes, x ∈ nds ∨ st.mergeable x = none) (hfuel : nds.length + left g st ≤ fuel) :
    ∃ st', loop fuel nds st = some st' ∧ Valid g st' ∧ ∀ x ∈ g.nodes, st'.mergeable x = none := by
  induction fuel generalizing nds st with
  | zero =>
    obtain rfl := List.length_eq_zero_iff.mp (show nds.length = 0 by omega)
    exact ⟨st, by rw [loop], h, fun x hx => (hdone x hx).resolve_left List.not_mem_nil⟩
  | succ fuel ih =>
    cases nds with
    | nil => exact ⟨st, by rw [loop], h, fun x hx => (hdone x hx).resolve_left List.not_mem_nil⟩
    | cons nd nds =>
      rw [List.length_cons] at hfuel
      rw [loop]
      cases hm : st.mergeable nd with
      | some s =>
        have hj := mergeable_eq_some h.shaped (hmem nd List.mem_cons_self) hm
        have hleft : left g (st.merge nd s) + 1 ≤ left g st := left_merge (hj.alive_succ h.shaped)
        refine ih (h.merge hj) hmem (fun x hx => ?_) (by rw [List.length_cons]; omega)
        by_cases hxn : x = nd
        · exact .inl (hxn ▸ List.mem_cons_self)
        · exact (hdone x hx).imp_right (h.mergeable_merge hj hx hxn)
      | none =>
        refine ih h (fun x hx => hmem x (List.mem_cons_of_mem _ hx)) (fun x hx => ?_) (by omega)
        rcases hdone x hx with hx' | hx'
        · rcases List.mem_cons.mp hx' with rfl | hx'
          · exact .inr hm
          · exact .inl hx'
        · exact .inr hx'

theorem valid_initial (hg : Shaped g (· ∈ g.nodes)) (hreach : ∀ nd ∈ g.nodes, g.Reachable nd) :
    Valid g ⟨g, fun _ => false⟩ := by
  have halive : Alive g ⟨g, fun _ => false⟩ = (· ∈ g.nodes) :=
    funext fun nd => propext ⟨fun h => h.1, fun h => ⟨h, rfl⟩⟩
  exact ⟨rfl, rfl, halive ▸ hg, fun nd hnd => hreach nd hnd.1, fun h => (nomatch h),
    fun _ => rfl, fun _ _ => Iff.rfl⟩

/-- At the end the final node has not been merged if it is a node, and more than a single
edge that falls through leads to it. -/
theorem Valid.not_fallsThrough (h : Valid g st) (hend : ∀ x ∈ g.nodes, st.mergeable x = none)
    (hfin : Alive g st g.fin) : ¬g.FallsThrough := by
  rintro ⟨n, hb, hj, hexits⟩
  have hg := h.shaped
  rw [← h.exits hfin] at hexits
  obtain ⟨e, hpred, he⟩ : ∃ e, st.g.pred g.fin = [e] ∧
      ((st.g.instrs e.1).getLast?, e.2) = (some n, false) := by
    rw [Cfg.exits, h.fin] at hexits
    obtain ⟨e, hpred⟩ := List.length_eq_one_iff.mp
      ((List.length_map _).symm.trans (congrArg List.length hexits))
    rw [hpred] at hexits
    exact ⟨e, hpred, (List.cons.inj hexits).1⟩
  obtain ⟨m, b⟩ := e
  obtain ⟨hlast, rfl⟩ := Prod.mk.inj he
  obtain ⟨halive, hsucc⟩ := (hg.mem_pred _ hfin (m, false)).mp (by rw [hpred]; exact List.mem_cons_self)
  have hexit : st.g.exitType m = n.type := by
    rw [Cfg.exitType, hlast]
    rfl
  have htrue : st.g.succ m true = none := by
    have := mt (hg.succ_true m halive).mp (by simp [hexit, hb, hj])
    simpa using this
  have hm := mergeable_of_joins halive.2 (hexit ▸ hj) ⟨halive, hsucc, htrue, hpred⟩
  rw [hend m halive.1] at hm
  cases hm

end Merging

/-! ### The whole of building -/

/-- **What building keeps**: links are kept in both directions, all nodes are reachable, the
final node is one of them if it can be reached, and the same can be executed. -/
structure Cfg.Simplifies (g g' : Cfg) : Prop where
  start : g'.start = g.start
  fin : g'.fin = g.fin
  linked : g'.Linked
  reachable : ∀ nd ∈ g'.nodes, g'.Reachable nd
  fin_mem : g.Reachable g.fin → g'.fin ∈ g'.nodes
  runs : ∀ tr, g'.Runs tr ↔ g.Runs tr

/-- A single edge leads to the end of the program from what can be reached, and it leaves an
instruction that is neither a branch nor a jump. -/
def Cfg.LeftOnce (g : Cfg) : Prop :=
  ∃ nd, g.Reachable nd ∧ g.exitType nd ≠ .BRANCH ∧ g.exitType nd ≠ .JUMP ∧
    g.succ nd false = some g.fin ∧
    ∀ nd' b, g.Reachable nd' → g.succ nd' b = some g.fin → nd' = nd

section

variable {g g' : Cfg} (hg : Shaped g (· ∈ g.nodes)) (ht : Cfg.Trimmed g g')

include ht

theorem Cfg.Trimmed.runs_iff (tr : List (Instr × Option Bool)) : g'.Runs tr ↔ g.Runs tr := by
  have hblock : g'.blockTrace = g.blockTrace := funext fun e => by
    simp only [Cfg.blockTrace, ht.instrs]
  have htrace : ∀ es, g'.trace es = g.trace es := fun es => by rw [Cfg.trace, hblock]; rfl
  refine exists_congr fun es => and_congr ?_ (by rw [htrace])
  unfold Cfg.IsPath
  rw [ht.start, ht.fin]
  exact ht.walk_iff (Cfg.reachable_start g)

include hg

/-- The edges to the final node after unreachable nodes have been removed. -/
theorem Cfg.Trimmed.leftOnce_iff : g.LeftOnce ↔ g'.fin ∈ g'.nodes ∧ g'.FallsThrough := by
  have hg' := ht.shaped hg
  have hmem : g'.fin ∈ g'.nodes → ∀ e, e ∈ g'.pred g'.fin ↔
      g.Reachable e.1 ∧ g.succ e.1 e.2 = some g.fin := by
    intro hfin e
    rw [hg'.mem_pred _ hfin, ht.mem_nodes, ht.fin]
    exact and_congr_right fun he => by rw [ht.succ _ _ he]
  constructor
  · rintro ⟨nd, hreach, hb, hj, hsucc, honly⟩
    have hfin : g'.fin ∈ g'.nodes := by
      rw [ht.mem_nodes, ht.fin]
      exact hreach.step hsucc
    obtain ⟨n, hn⟩ : ∃ n, (g.instrs nd).getLast? = some n :=
      ⟨_, List.getLast?_eq_some_getLast (hg.ne_nil nd (hg.mem_of_reachable hreach))⟩
    have hty : g.exitType nd = n.type := by
      rw [Cfg.exitType, hn]
      rfl
    have hall : ∀ e ∈ g'.pred g'.fin, e = (nd, false) := by
      rintro ⟨m, b⟩ he
      obtain ⟨hm, hs⟩ := (hmem hfin _).mp he
      obtain rfl := honly m b hm hs
      cases b with
      | false => rfl
      | true =>
        have := (hg.succ_true m (hg.mem_of_reachable hm)).mp (by simp [hs])
        exact absurd this (by simp [hb, hj])
    have hpred : g'.pred g'.fin = [(nd, false)] := by
      have hperm : (g'.pred g'.fin).Perm [(nd, false)] := by
        rw [List.perm_ext_iff_of_nodup (hg'.pred_nodup _ hfin) (List.nodup_singleton _)]
        intro e
        rw [List.mem_singleton]
        exact ⟨hall e, fun he => (hmem hfin e).mpr (he ▸ ⟨hreach, hsucc⟩)⟩
      exact List.perm_singleton.mp hperm
    refine ⟨hfin, n, hty ▸ hb, hty ▸ hj, ?_⟩
    rw [Cfg.exits, hpred, List.map_singleton, ht.instrs, hn]
  · rintro ⟨hfin, n, hb, hj, hexits⟩
    obtain ⟨e, hpred⟩ : ∃ e, g'.pred g'.fin = [e] :=
      List.length_eq_one_iff.mp ((List.length_map _).symm.trans (congrArg List.length hexits))
    rw [Cfg.exits, hpred] at hexits
    obtain ⟨m, b⟩ := e
    obtain ⟨hlast, rfl⟩ := Prod.mk.inj (List.cons.inj hexits).1
    rw [ht.instrs] at hlast
    have hty : g.exitType m = n.type := by
      rw [Cfg.exitType, hlast]
      rfl
    obtain ⟨hreach, hsucc⟩ := (hmem hfin (m, false)).mp (by rw [hpred]; exact List.mem_cons_self)
    refine ⟨m, hreach, hty ▸ hb, hty ▸ hj, hsucc, fun m' b' hm' hs' => ?_⟩
    have he := (hmem hfin (m', b')).mpr ⟨hm', hs'⟩
    rw [hpred, List.mem_singleton] at he
    exact (Prod.mk.inj he).1

end

/-- **Merging chains.** -/
theorem exists_mergeEdges {g : Cfg} (hg : Shaped g (· ∈ g.nodes))
    (hreach : ∀ nd ∈ g.nodes, g.Reachable nd) {fuel : ℕ} (hfuel : 2 * g.nodes.length < fuel) :
    ∃ st, Merging.Valid g st ∧ (∀ x ∈ g.nodes, st.mergeable x = none) ∧
      g.mergeEdges fuel = some
        { st.g with nodes := (Cfg.sweep (fun nd => !st.deleted nd) g.nodes.length g.nodes).1 } := by
  have hleft : Merging.left g ⟨g, fun _ => false⟩ = g.nodes.length := by
    simp [Merging.left]
  have hfuel' : g.nodes.length + Merging.left g ⟨g, fun _ => false⟩ ≤ fuel := by omega
  obtain ⟨st, hloop, hvalid, hend⟩ := Merging.exists_loop
    (Merging.valid_initial hg hreach) (fun x hx => hx) (fun x hx => .inl hx) hfuel'
  refine ⟨st, hvalid, hend, ?_⟩
  rw [Cfg.mergeEdges, hloop]
  rfl

/-- What is left after the second pass. -/
def Merging.rest (g : Cfg) (st : Merging) : Cfg :=
  { st.g with nodes := (Cfg.sweep (fun nd => !st.deleted nd) g.nodes.length g.nodes).1 }

section

variable {g : Cfg} {st : Merging} (h : Merging.Valid g st)

theorem Merging.mem_rest {nd : ℕ} : nd ∈ (Merging.rest g st).nodes ↔ Merging.Alive g st nd := by
  refine (Cfg.mem_sweep _).trans ?_
  rw [Bool.not_eq_true']
  rfl

include h

/-- What is left can be unrolled. -/
theorem Merging.Valid.built : (Merging.rest g st).Built where
  start_mem := Merging.mem_rest.mpr h.shaped.start
  succ_mem nd hnd b s hs := Merging.mem_rest.mpr (h.shaped.closed nd (Merging.mem_rest.mp hnd) b s hs)
  id_inj nd hnd nd' hnd' heq :=
    h.shaped.id_inj nd (Merging.mem_rest.mp hnd) nd' (Merging.mem_rest.mp hnd') heq
  loopdepth nd hnd := h.shaped.loopdepth nd (Merging.mem_rest.mp hnd)
  succ_fin := h.shaped.succ_fin

/-- Links are kept in both directions. -/
theorem Merging.Valid.linked (hnodup : g.nodes.Nodup) : (Merging.rest g st).Linked where
  nodup := Cfg.nodup_sweep _ hnodup
  start_mem := h.built.start_mem
  succ_mem := h.built.succ_mem
  succ_pred nd hnd b s hs := by
    have halive := Merging.mem_rest.mp hnd
    exact (h.shaped.mem_pred s (h.shaped.closed nd halive b s hs) (nd, b)).mpr ⟨halive, hs⟩
  pred_succ s hs e he := by
    obtain ⟨halive, hsucc⟩ := (h.shaped.mem_pred s (Merging.mem_rest.mp hs) e).mp he
    exact ⟨Merging.mem_rest.mpr halive, hsucc⟩
  pred_nodup s hs := h.shaped.pred_nodup s (Merging.mem_rest.mp hs)

theorem Merging.Valid.reachable_rest {nd : ℕ} (hnd : nd ∈ (Merging.rest g st).nodes) :
    (Merging.rest g st).Reachable nd := by
  obtain ⟨es, hw⟩ := h.reachable nd (Merging.mem_rest.mp hnd)
  refine ⟨es, ?_⟩
  have hsucc : ∀ nd b, (Merging.rest g st).succ nd b = st.g.succ nd b := fun _ _ => rfl
  exact (Cfg.walk_congr hsucc).mpr hw

theorem Merging.Valid.runs_rest (hfin : st.deleted g.fin = false) (tr : List (Instr × Option Bool)) :
    (Merging.rest g st).Runs tr ↔ g.Runs tr := by
  rw [← h.runs hfin tr]
  have hpath : ∀ es, (Merging.rest g st).IsPath es ↔ st.g.IsPath es := fun es =>
    Cfg.isPath_withNodes _ es
  exact exists_congr fun es => and_congr_left fun _ => hpath es

end

/-- **When building keeps the meaning of a listing.** For every listing, the passes end with a
graph that can be unrolled, and it keeps what it should if and only if the end of the program is
not left to a single instruction that falls through to it. -/
theorem build_simplifies_iff (l : Listing) :
    ∃ g₀, Cfg.instrGraph l.instrs = .ok g₀ ∧ ∀ fuel, 2 * (l.instrs.length + 1) < fuel →
      ∃ g, Cfg.build l.instrs fuel = some (.ok g) ∧ g.Built ∧ (g₀.Simplifies g ↔ ¬g₀.LeftOnce) := by
  obtain ⟨g₀, hg₀, hshaped₀, hnodes₀⟩ := Cfg.exists_instrGraph l
  refine ⟨g₀, hg₀, fun fuel hfuel => ?_⟩
  have hnodup₀ : g₀.nodes.Nodup := hnodes₀ ▸ List.nodup_range
  have hlen₀ : g₀.nodes.length = l.instrs.length + 1 := by rw [hnodes₀, List.length_range]
  obtain ⟨g₁, hg₁, ht⟩ := Cfg.exists_removeUnreachable hshaped₀ hnodup₀ (hlen₀ ▸ hfuel)
  have hshaped₁ := ht.shaped hshaped₀
  have hreach₁ : ∀ nd ∈ g₁.nodes, g₁.Reachable nd := fun nd hnd =>
    ht.reachable_iff.mpr ((ht.mem_nodes nd).mp hnd)
  have hlen₁ : g₁.nodes.length ≤ g₀.nodes.length :=
    (ht.nodup.subperm fun nd hnd =>
      hshaped₀.mem_of_reachable ((ht.mem_nodes nd).mp hnd)).length_le
  have hfuel₁ : 2 * g₁.nodes.length < fuel := by omega
  obtain ⟨st, hvalid, hend, hmerge⟩ := exists_mergeEdges hshaped₁ hreach₁ hfuel₁
  refine ⟨Merging.rest g₁ st, ?_, hvalid.built, ?_⟩
  · simp only [Cfg.build, hg₀, hg₁, Option.bind_some, hmerge]
    rfl
  · rw [ht.leftOnce_iff hshaped₀]
    by_cases hdel : st.deleted g₁.fin = true
    · -- the final node is gone, although it can be reached
      have hfalls := hvalid.fallsThrough hdel
      refine iff_of_false (fun hs => ?_) (not_not.mpr hfalls)
      have hreach : g₀.Reachable g₀.fin := by
        rw [← ht.fin]
        exact (ht.mem_nodes _).mp hfalls.1
      have halive := Merging.mem_rest.mp (hs.fin_mem hreach)
      rw [show (Merging.rest g₁ st).fin = g₁.fin from hvalid.fin] at halive
      exact absurd (hdel.symm.trans halive.2) (by simp)
    · rw [Bool.not_eq_true] at hdel
      have hruns := hvalid.runs_rest hdel
      refine iff_of_true ?_ ?_
      · refine ⟨hvalid.start.trans ht.start, hvalid.fin.trans ht.fin, hvalid.linked ht.nodup,
          fun nd => hvalid.reachable_rest, fun hfin => ?_, fun tr => (hruns tr).trans (ht.runs_iff tr)⟩
        rw [← ht.fin, ← ht.mem_nodes] at hfin
        exact Merging.mem_rest.mpr (hvalid.fin.symm ▸ ⟨hfin, hdel⟩)
      · rintro ⟨hfin, hfalls⟩
        exact hvalid.not_fallsThrough hend ⟨hfin, hdel⟩ hfalls

/-- A program of one instruction. -/
def onlyNop : Listing := ⟨[.nop 0], by decide, by decide, by decide⟩

/-- The final node is merged into the only instruction, and no path is left. -/
theorem build_onlyNop : ∃ g₀ g, Cfg.instrGraph onlyNop.instrs = .ok g₀ ∧
    Cfg.build onlyNop.instrs 5 = some (.ok g) ∧ g₀.IsPath [(0, false)] ∧ g.nodes = [0] ∧
    g.fin = 1 ∧ (∀ tr, ¬g.Runs tr) ∧ ¬g₀.Simplifies g := by
  refine ⟨_, _, rfl, rfl, by decide, by decide, by decide, ?_, ?_⟩
  · rintro tr ⟨es, hw, -⟩
    cases es with
    | nil => exact absurd hw (by decide)
    | cons e es =>
      obtain ⟨m, b⟩ := e
      obtain ⟨rfl, s, hs, -⟩ := hw
      cases b <;> exact nomatch hs
  · intro h
    exact absurd (h.fin_mem ⟨[(0, false)], by decide⟩) (by decide)

end NfpEstimator
