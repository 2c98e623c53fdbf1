import NfpEstimator.Cfg.Merge
import NfpEstimator.Cfg.Sizes
import NfpEstimator.Cfg.Sortable

/-!
# Static analysis of the graph

`cfg::static_analysis` sorts the nodes topologically and goes through them with an abstract state
for each node, which is merged from the states of the edges that lead there. An edge whose state
is unsatisfiable is unlinked, and so is a node that no edge leads to any more. On the way back
the nodes are unlinked from which nothing leads to the final one, and `cfg::remove_unreachable` takes
away what is left over.

Whatever the states say, the paths through the program that are left are those without an
unsatisfiable edge, and every edge that is left lies on one of them (`static_analysis_paths`).
-/

namespace NfpEstimator

/-! ### The passes -/

/-- What `cfg::static_analysis` uses of `state::exec`. -/
structure Domain (σ : Type*) where
  /-- `cfg::initial_state`. -/
  initial : σ
  /-- `state::exec::exec`. -/
  empty : σ
  /-- `state::exec::apply` of an instruction, with the loop depth of its node. -/
  apply : ℕ → Instr → σ → σ
  /-- `state::exec::apply` of the last instruction of a node, with the branch that is taken. -/
  branch : ℕ → Instr → Bool → σ → σ
  partialMinimize : σ → σ
  isUnsat : σ → Bool
  minimumValue : σ → ℕ
  staticMerge : σ → σ → σ

/-- The variables of `cfg::static_analysis`. -/
structure Analysis (σ : Type*) where
  g : Cfg
  map : ℕ → Option σ
  /-- `cfg::succ_data::min_packetsize`. -/
  minPacketsize : Edge → ℕ
  /-- The edges that were found to be unsatisfiable. -/
  cut : List Edge

namespace Analysis

variable {σ : Type*} (D : Domain σ)

/-- The state of an edge, and what its callback does with it. -/
def visitEdge (minimize : Bool) (nd : ℕ) (state : σ) (st : Analysis σ) (s : ℕ × Bool) : Analysis σ :=
  let sstate := D.branch (st.g.loopdepth nd) ((st.g.instrs nd).getLastD .fin) s.2 state
  let sstate := if minimize then D.partialMinimize sstate else sstate
  if D.isUnsat sstate then { st with g := st.g.unlink nd s.2, cut := (nd, s.2) :: st.cut }
  else { st with
    minPacketsize := Function.update st.minPacketsize (nd, s.2) (D.minimumValue sstate)
    map := Function.update st.map s.1 (some ((st.map s.1).elim sstate fun m => D.staticMerge m sstate)) }

/-- The state behind the instructions of a node except the last one. -/
def stateOf (st : Analysis σ) (nd : ℕ) : σ :=
  (st.g.instrs nd).dropLast.foldl (fun a i => D.apply (st.g.loopdepth nd) i a)
    ((st.map nd).getD D.empty)

/-- A node is visited. The task of its second edge asks for `outdegree` before the callback of the
first one or, if it is `late`, behind it. -/
def visit (satCheck : Bool) (late : ℕ → Bool) (st : Analysis σ) (nd : ℕ) : Analysis σ :=
  if st.g.indegree nd = 0 ∧ nd ≠ st.g.start then { st with g := st.g.unlinkNode nd }
  else
    let state := st.stateOf D nd
    let st := { st with map := Function.update st.map nd (some state) }
    (st.g.succs nd).foldl (fun st' s =>
      visitEdge D (satCheck && decide (1 < (if late nd then st'.g else st.g).outdegree nd))
        nd state st' s) st

/-- The variables before the loop, with `cfg::MIN_PACKETSIZE` at each edge. -/
def init (minSize : ℕ) (g : Cfg) : Analysis σ where
  g := g
  map := Function.update (fun _ => none) g.start (some D.initial)
  minPacketsize := fun _ => minSize
  cut := []

/-- The loop forward over the nodes. -/
def forward (minSize : ℕ) (satCheck : Bool) (late : ℕ → Bool) (g : Cfg) : Analysis σ :=
  g.nodes.foldl (visit D satCheck late) (init D minSize g)

end Analysis

namespace Cfg

/-- A node that leads nowhere is unlinked. -/
def dropDeadEnd (g : Cfg) (nd : ℕ) : Cfg :=
  if g.outdegree nd = 0 ∧ nd ≠ g.fin then g.unlinkNode nd else g

/-- The loop back over the nodes. -/
def backward (g : Cfg) : Cfg := g.nodes.reverse.foldl dropDeadEnd g

/-- `cfg::static_analysis`. `fuel` bounds the loops of the topological sorting and of the search. -/
def staticAnalysis {σ : Type*} (g : Cfg) (D : Domain σ) (minSize : ℕ) (satCheck : Bool)
    (late : ℕ → Bool) (fuel : ℕ) : Option (Except String (Analysis σ)) :=
  (g.topoSort fuel).bind fun
    | .error e => some (.error e)
    | .ok g =>
      let st := Analysis.forward D minSize satCheck late g
      (st.g.backward.removeUnreachable fuel).map fun g => .ok { st with g := g }

/-! ### Links that are taken away -/

variable {g : Cfg} {nd m s : ℕ} {b : Bool} {e : Edge}

theorem Linked.mem_pred (h : g.Linked) (hs : s ∈ g.nodes) :
    e ∈ g.pred s ↔ e.1 ∈ g.nodes ∧ g.succ e.1 e.2 = some s :=
  ⟨fun he => h.pred_succ s hs e he, fun he => h.succ_pred e.1 he.1 e.2 s he.2⟩

/-- Edges are taken away at both ends. -/
theorem Linked.restrict {g' : Cfg} (h : g.Linked) (hsame : SameBlocks (fun _ => True) g g')
    (p : Edge → Bool) (hsucc : ∀ m ∈ g.nodes, ∀ b, g'.succ m b = if p (m, b) then g.succ m b else none)
    (hpred : ∀ s ∈ g.nodes, g'.pred s = (g.pred s).filter p) : g'.Linked := by
  have hsome : ∀ m ∈ g.nodes, ∀ b s, g'.succ m b = some s → g.succ m b = some s ∧ p (m, b) = true := by
    intro m hm b s hs
    rw [hsucc m hm] at hs
    split_ifs at hs with hp
    exact ⟨hs, hp⟩
  refine ⟨hsame.nodes ▸ h.nodup, ?_, ?_, ?_, ?_, ?_⟩
  · rw [hsame.nodes, hsame.start]
    exact h.start_mem
  all_goals rw [hsame.nodes]
  · exact fun m hm b s hs => h.succ_mem m hm b s (hsome m hm b s hs).1
  · intro m hm b s hs
    obtain ⟨hs, hp⟩ := hsome m hm b s hs
    rw [hpred s (h.succ_mem m hm b s hs)]
    exact List.mem_filter.mpr ⟨h.succ_pred m hm b s hs, hp⟩
  · intro s hs e he
    rw [hpred s hs, List.mem_filter] at he
    obtain ⟨hm, hse⟩ := h.pred_succ s hs e he.1
    exact ⟨hm, by rw [hsucc e.1 hm, if_pos he.2, hse]⟩
  · intro s hs
    rw [hpred s hs]
    exact (h.pred_nodup s hs).filter p

theorem Linked.unlink (h : g.Linked) (nd : ℕ) (b : Bool) : (g.unlink nd b).Linked := by
  refine h.restrict (sameBlocks_unlink nd b) (fun e => e ≠ (nd, b)) (fun m _ b' => ?_) fun s hs => ?_
  · rw [succ_unlink]
    by_cases he : m = nd ∧ b' = b
    · simp [he]
    · have hne : (m, b') ≠ (nd, b) := fun heq => he (Prod.mk.inj heq)
      simp [he, hne]
  · exact pred_unlink_of fun he => (h.mem_pred hs).mp he |>.2

theorem Linked.pred_unlinkOut (h : g.Linked) (hs : s ∈ g.nodes) :
    (g.unlinkOut nd).pred s = (g.pred s).filter fun e => e.1 ≠ nd := by
  have hlink : ∀ b, (nd, b) ∈ g.pred s → g.succ nd b = some s := fun b he => ((h.mem_pred hs).mp he).2
  have hlink' : (nd, false) ∈ (g.unlink nd true).pred s → (g.unlink nd true).succ nd false = some s := by
    intro he
    rw [succ_unlink, if_neg (by simp)]
    exact hlink false (pred_unlink_subset he)
  rw [unlinkOut, pred_unlink_of hlink', pred_unlink_of (hlink true), List.filter_filter]
  refine List.filter_congr fun e _ => ?_
  obtain ⟨m, b⟩ := e
  cases b <;> simp

theorem Linked.succ_unlinkNode (h : g.Linked) (hnd : nd ∈ g.nodes) (hm : m ∈ g.nodes) :
    (g.unlinkNode nd).succ m b = if m = nd ∨ g.succ m b = some nd then none else g.succ m b := by
  have hiff : (m = nd ∨ (m, b) ∈ (g.unlinkOut nd).pred nd) ↔ (m = nd ∨ g.succ m b = some nd) := by
    rw [h.pred_unlinkOut hnd, List.mem_filter, h.mem_pred hnd]
    by_cases heq : m = nd
    · simp [heq]
    · simp [heq, hm]
  rw [Cfg.succ_unlinkNode]
  simp only [hiff]

theorem Linked.unlinkNode (h : g.Linked) (hnd : nd ∈ g.nodes) : (g.unlinkNode nd).Linked := by
  refine h.restrict (sameBlocks_unlinkNode nd) (fun e => decide (e.1 ≠ nd ∧ g.succ e.1 e.2 ≠ some nd))
    (fun m hm b => ?_) fun s hs => ?_
  · rw [h.succ_unlinkNode hnd hm]
    by_cases heq : m = nd
    · simp [heq]
    · by_cases hs : g.succ m b = some nd <;> simp [heq, hs]
  · rw [pred_unlinkNode, h.pred_unlinkOut hs]
    split_ifs with heq
    · rw [heq]
      refine (List.filter_eq_nil_iff.mpr fun e he => ?_).symm
      simp [((h.mem_pred hnd).mp he).2]
    · refine List.filter_congr fun e he => ?_
      have hne : ¬g.succ e.1 e.2 = some nd := by
        rw [((h.mem_pred hs).mp he).2]
        simpa using heq
      simp [hne]

/-- Unlinking a node without links changes nothing. -/
theorem unlinkNode_eq_self (hsucc : ∀ b, g.succ nd b = none) (hpred : g.pred nd = []) :
    g.unlinkNode nd = g := by
  have hout : ∀ b, g.unlink nd b = g := fun b => by rw [Cfg.unlink, hsucc]
  have hnode : ({ g.node nd with predecessors := [] } : Block) = g.node nd := by
    rw [← hpred]
    rfl
  rw [Cfg.unlinkNode]
  simp only [hout, hpred, List.foldl_nil, hnode]
  rw [setNode, Function.update_eq_self]

theorem outdegree_eq_zero_iff : g.outdegree nd = 0 ↔ ∀ b, g.succ nd b = none := by
  rw [outdegree, List.length_eq_zero_iff, List.eq_nil_iff_forall_not_mem]
  constructor
  · exact fun h b => Option.eq_none_iff_forall_ne_some.mpr fun s hs => h (s, b) (mem_succs.mpr hs)
  · rintro h ⟨s, b⟩ hs
    exact Option.some_ne_none _ ((mem_succs.mp hs).symm.trans (h b))

/-- Whether a node has edges to it depends on these edges only. -/
theorem Linked.pred_eq_nil_iff {g' : Cfg} (h : g.Linked) (h' : g'.Linked) (hnodes : g'.nodes = g.nodes)
    (hs : s ∈ g.nodes) (hsucc : ∀ m b, g'.succ m b = some s ↔ g.succ m b = some s) :
    g'.pred s = [] ↔ g.pred s = [] := by
  have hs' : s ∈ g'.nodes := hnodes ▸ hs
  simp only [List.eq_nil_iff_forall_not_mem, h.mem_pred hs, h'.mem_pred hs', hnodes, hsucc]

/-- In the order of the nodes no edge leads back. -/
theorem LoopFree.pairwise (hg : g.LoopFree) : g.nodes.Pairwise fun s nd => ∀ b, g.succ nd b ≠ some s := by
  refine (List.pairwise_iff_forall_sublist.mpr fun {s nd} hsub b hs => ?_)
  have hlt := List.pairwise_iff_forall_sublist.mp (pairwise_idxOf hg.nodup) hsub
  have hnd : nd ∈ g.nodes := hsub.subset (by simp)
  have := hg.forward nd hnd b s hs
  omega

end Cfg

/-! ### Forward -/

namespace Analysis

variable {σ : Type*} {D : Domain σ} {st st' st'' : Analysis σ} {nd : ℕ}

/-- While a node is visited, some of its edges are taken away. -/
structure Visits (nd : ℕ) (st st' : Analysis σ) : Prop where
  same : Cfg.SameBlocks (fun _ => True) st.g st'.g
  linked : st'.g.Linked
  cut : st.cut ⊆ st'.cut
  cut_of : ∀ e ∈ st'.cut, e ∈ st.cut ∨ e.1 = nd
  succ : ∀ m b s, st'.g.succ m b = some s ↔ st.g.succ m b = some s ∧ (m, b) ∉ st'.cut

theorem Visits.trans (h : Visits nd st st') (h' : Visits nd st' st'') : Visits nd st st'' where
  same := h.same.trans h'.same
  linked := h'.linked
  cut := fun _ he => h'.cut (h.cut he)
  cut_of e he := (h'.cut_of e he).elim (h.cut_of e) .inr
  succ m b s := by
    rw [h'.succ, h.succ, and_assoc]
    exact and_congr_right fun _ => ⟨And.right, fun hno => ⟨fun he => hno (h'.cut he), hno⟩⟩

/-- What is changed besides the graph does not matter. -/
theorem visits_of_eq (hl : st.g.Linked) (hgone : ∀ e ∈ st.cut, st.g.succ e.1 e.2 = none)
    (hg : st'.g = st.g) (hcut : st'.cut = st.cut) : Visits nd st st' where
  same := hg ▸ .refl _ _
  linked := hg ▸ hl
  cut := hcut ▸ List.Subset.refl _
  cut_of e he := .inl (hcut ▸ he)
  succ m b s := by
    rw [hg, hcut]
    exact ⟨fun hs => ⟨hs, fun he => Option.some_ne_none _ (hs.symm.trans (hgone (m, b) he))⟩, And.left⟩

theorem Visits.gone (h : Visits nd st st') (e : Edge) (he : e ∈ st'.cut) : st'.g.succ e.1 e.2 = none :=
  Option.eq_none_iff_forall_ne_some.mpr fun s hs => ((h.succ e.1 e.2 s).mp hs).2 he

theorem visits_visitEdge (minimize : Bool) (state : σ) (s : ℕ × Bool) (hl : st.g.Linked)
    (hgone : ∀ e ∈ st.cut, st.g.succ e.1 e.2 = none) :
    Visits nd st (visitEdge D minimize nd state st s) := by
  unfold visitEdge
  dsimp only
  generalize (if minimize = true then _ else _) = sstate
  split
  · refine ⟨Cfg.sameBlocks_unlink nd s.2, hl.unlink nd s.2, List.subset_cons_self _ _, fun e he => ?_, fun m b t => ?_⟩
    · exact (List.mem_cons.mp he).elim (fun heq => .inr (congrArg Prod.fst heq)) .inl
    · rw [Cfg.succ_unlink, List.mem_cons, Prod.mk.injEq]
      by_cases heq : m = nd ∧ b = s.2
      · simp [heq]
      · simp only [heq, false_or]
        exact ⟨fun hs => ⟨hs, fun he => Option.some_ne_none _ (hs.symm.trans (hgone (m, b) he))⟩, And.left⟩
  · exact visits_of_eq hl hgone rfl rfl

theorem visits_foldl {f : Analysis σ → ℕ × Bool → Analysis σ} (l : List (ℕ × Bool))
    (hf : ∀ (st : Analysis σ) s, st.g.Linked → (∀ e ∈ st.cut, st.g.succ e.1 e.2 = none) → Visits nd st (f st s))
    (hl : st.g.Linked) (hgone : ∀ e ∈ st.cut, st.g.succ e.1 e.2 = none) : Visits nd st (l.foldl f st) := by
  induction l generalizing st with
  | nil => exact visits_of_eq hl hgone rfl rfl
  | cons s l ih =>
    have hs := hf st s hl hgone
    exact hs.trans (ih hs.linked hs.gone)

/-- A node that no edge leads to is unlinked; else some of its edges are taken away. -/
theorem visit_cases (satCheck : Bool) (late : ℕ → Bool) (hl : st.g.Linked)
    (hgone : ∀ e ∈ st.cut, st.g.succ e.1 e.2 = none) :
    (st.g.pred nd = [] ∧ nd ≠ st.g.start ∧
      visit D satCheck late st nd = { st with g := st.g.unlinkNode nd }) ∨
    ((nd = st.g.start ∨ st.g.pred nd ≠ []) ∧ Visits nd st (visit D satCheck late st nd)) := by
  unfold visit
  split
  next h => exact .inl ⟨List.length_eq_zero_iff.mp h.1, h.2, rfl⟩
  next h =>
    refine .inr ⟨?_, ?_⟩
    · by_contra hnot
      rw [not_or, not_not] at hnot
      exact h ⟨List.length_eq_zero_iff.mpr hnot.2, hnot.1⟩
    · have hstart : Visits nd st
          { st with map := Function.update st.map nd (some (st.stateOf D nd)) } :=
        visits_of_eq hl hgone rfl rfl
      refine hstart.trans (visits_foldl _ (fun st s hl hgone => ?_) hstart.linked hstart.gone)
      exact visits_visitEdge _ _ s hl hgone

/-- What the loop has done to the graph when it has visited some nodes: their unsatisfiable edges
are gone, and so are all edges of those that no edge leads to any more. -/
structure Forward (g : Cfg) (done : List ℕ) (st : Analysis σ) : Prop where
  same : Cfg.SameBlocks (fun _ => True) g st.g
  linked : st.g.Linked
  cut : ∀ e ∈ st.cut, e.1 ∈ done
  succ : ∀ nd b s, st.g.succ nd b = some s ↔
    g.succ nd b = some s ∧ (nd, b) ∉ st.cut ∧ (nd ∈ done → nd = g.start ∨ st.g.pred nd ≠ [])

variable {g : Cfg} {done todo : List ℕ}

theorem Forward.gone (h : Forward g done st) (e : Edge) (he : e ∈ st.cut) : st.g.succ e.1 e.2 = none :=
  Option.eq_none_iff_forall_ne_some.mpr fun s hs => ((h.succ e.1 e.2 s).mp hs).2.1 he

/-- Nothing leads back to the nodes that have been visited. -/
theorem not_succ_of_done (hg : g.LoopFree) (hnodes : g.nodes = done ++ nd :: todo) {x : ℕ}
    (hx : x ∈ done ++ [nd]) (b : Bool) : g.succ nd b ≠ some x := by
  intro hs
  rcases List.mem_append.mp hx with hx | hx
  · have hpair := hg.pairwise
    rw [hnodes, List.pairwise_append] at hpair
    exact hpair.2.2 x hx nd List.mem_cons_self b hs
  · rw [List.mem_singleton.mp hx] at hs
    have hnd : nd ∈ g.nodes := hnodes ▸ List.mem_append_right _ List.mem_cons_self
    exact absurd (hg.forward nd hnd b nd hs) (lt_irrefl _)

/-- A step that changes edges out of `nd` only. -/
theorem Forward.next (h : Forward g done st) (hg : g.LoopFree) (hnodes : g.nodes = done ++ nd :: todo)
    (hsame : Cfg.SameBlocks (fun _ => True) st.g st'.g) (hlinked : st'.g.Linked)
    (hcut : ∀ e, e.1 ≠ nd → (e ∈ st'.cut ↔ e ∈ st.cut))
    (hother : ∀ m b, m ≠ nd → st'.g.succ m b = st.g.succ m b)
    (hself : ∀ b s, st'.g.succ nd b = some s ↔
      st.g.succ nd b = some s ∧ (nd, b) ∉ st'.cut ∧ (nd = g.start ∨ st.g.pred nd ≠ [])) :
    Forward g (done ++ [nd]) st' := by
  have hmem : ∀ x ∈ done ++ [nd], x ∈ g.nodes := fun x hx => by
    rw [hnodes]
    rw [List.mem_append, List.mem_singleton] at hx
    rw [List.mem_append, List.mem_cons]
    tauto
  -- the edges to what has been visited stay as they are
  have hpred : ∀ x ∈ done ++ [nd], st'.g.pred x = [] ↔ st.g.pred x = [] := by
    intro x hx
    refine h.linked.pred_eq_nil_iff hlinked hsame.nodes (h.same.nodes ▸ hmem x hx) fun m b => ?_
    by_cases hm : m = nd
    · subst hm
      have hno := not_succ_of_done hg hnodes hx b
      exact iff_of_false (fun hs => hno ((h.succ _ b x).mp ((hself b x).mp hs).1).1)
        fun hs => hno ((h.succ _ b x).mp hs).1
    · rw [hother m b hm]
  refine ⟨h.same.trans hsame, hlinked, fun e he => ?_, fun m b s => ?_⟩
  · by_cases hm : e.1 = nd
    · simp [hm]
    · exact List.mem_append_left _ (h.cut e ((hcut e hm).mp he))
  · by_cases hm : m = nd
    · subst hm
      have hlast : m ∈ done ++ [m] := by simp
      have hnot : m ∉ done := by
        have hnodup := hg.nodup
        rw [hnodes, List.nodup_append] at hnodup
        exact fun hd => hnodup.2.2 m hd m List.mem_cons_self rfl
      rw [hself, h.succ, Ne, Ne, hpred m hlast]
      have hno : (m, b) ∉ st.cut := fun he => hnot (h.cut _ he)
      simp only [hno, not_false_eq_true, hnot, false_implies, and_true, hlast, true_implies]
    · rw [hother m b hm, h.succ, hcut (m, b) hm]
      have hiff : m ∈ done ++ [nd] ↔ m ∈ done := by simp [hm]
      simp only [hiff, ne_eq]
      refine and_congr_right fun _ => and_congr_right fun _ => forall_congr' fun hd => ?_
      rw [hpred m (List.mem_append_left _ hd)]

theorem Forward.visit (h : Forward g done st) (hg : g.LoopFree) (hnodes : g.nodes = done ++ nd :: todo)
    (satCheck : Bool) (late : ℕ → Bool) : Forward g (done ++ [nd]) (visit D satCheck late st nd) := by
  have hnd : nd ∈ st.g.nodes := by
    rw [h.same.nodes, hnodes]
    exact List.mem_append_right _ List.mem_cons_self
  have hcases := @visit_cases _ D _ nd satCheck late h.linked h.gone
  obtain ⟨hpred, hstart, heq⟩ | ⟨hin, hv⟩ := hcases
  · have hsucc : ∀ m b, (st.g.unlinkNode nd).succ m b = if m = nd then none else st.g.succ m b := by
      intro m b
      have hout : (st.g.unlinkOut nd).pred nd = [] := by
        rw [h.linked.pred_unlinkOut hnd, hpred]
        rfl
      rw [Cfg.succ_unlinkNode, hout]
      simp
    rw [heq]
    refine h.next hg hnodes (Cfg.sameBlocks_unlinkNode nd) (h.linked.unlinkNode hnd) (fun _ _ => Iff.rfl)
      (fun m b hm => ?_) fun b s => ?_
    · exact (hsucc m b).trans (if_neg hm)
    · have hnone : (st.g.unlinkNode nd).succ nd b = none := (hsucc nd b).trans (if_pos rfl)
      rw [h.same.start] at hstart
      exact iff_of_false (fun hs => Option.some_ne_none _ (hs.symm.trans hnone))
        fun hs => hs.2.2.elim hstart fun hne => hne hpred
  · rw [h.same.start] at hin
    refine h.next hg hnodes hv.same hv.linked (fun e hm => ⟨fun he => ?_, fun he => hv.cut he⟩)
      (fun m b hm => Option.ext fun s => ?_) fun b s => ?_
    · exact (hv.cut_of e he).resolve_right hm
    · rw [hv.succ]
      refine ⟨And.left, fun hs => ⟨hs, fun he => ?_⟩⟩
      have he := (hv.cut_of _ he).resolve_right hm
      exact Option.some_ne_none _ (hs.symm.trans (h.gone _ he))
    · rw [hv.succ]
      simp only [hin, and_true]

theorem forward_spec (hg : g.LoopFree) (minSize : ℕ) (satCheck : Bool) (late : ℕ → Bool) :
    Forward g g.nodes (forward D minSize satCheck late g) := by
  have hinit : Forward g [] (init D minSize g) :=
    ⟨.refl _ _, hg.linked, fun e he => absurd he List.not_mem_nil, fun nd b s => by simp [init]⟩
  exact foldl_induct hinit fun done nd todo hnodes st h => h.visit hg hnodes satCheck late

/-- The walks that are left are those without an unsatisfiable edge. -/
theorem Forward.walk_iff (h : Forward g done st) (hg : g.LoopFree) {src dst : ℕ} {es : List Edge}
    (hsrc : src ∈ g.nodes) (hin : src = g.start ∨ st.g.pred src ≠ []) :
    st.g.Walk src es dst ↔ g.Walk src es dst ∧ ∀ e ∈ es, e ∉ st.cut := by
  induction es generalizing src with
  | nil => exact ⟨fun hw => ⟨hw, fun e he => absurd he List.not_mem_nil⟩, And.left⟩
  | cons e es ih =>
    have hnext : ∀ s, st.g.succ e.1 e.2 = some s → e.1 ∈ g.nodes → s = g.start ∨ st.g.pred s ≠ [] := by
      intro s hs hm
      exact .inr (List.ne_nil_of_mem (h.linked.succ_pred e.1 (h.same.nodes ▸ hm) e.2 s hs))
    constructor
    · rintro ⟨rfl, s, hs, hrest⟩
      obtain ⟨hs', hno, -⟩ := (h.succ e.1 e.2 s).mp hs
      obtain ⟨hrest, hall⟩ := (ih (hg.succ_mem _ hsrc e.2 s hs') (hnext s hs hsrc)).mp hrest
      exact ⟨⟨rfl, s, hs', hrest⟩, List.forall_mem_cons.mpr ⟨hno, hall⟩⟩
    · rintro ⟨⟨rfl, s, hs, hrest⟩, hall⟩
      obtain ⟨hno, hall⟩ := List.forall_mem_cons.mp hall
      have hs' := (h.succ e.1 e.2 s).mpr ⟨hs, hno, fun _ => hin⟩
      exact ⟨rfl, s, hs', (ih (hg.succ_mem _ hsrc e.2 s hs) (hnext s hs' hsrc)).mpr ⟨hrest, hall⟩⟩

/-- What an edge leaves can be reached. -/
theorem Forward.reachable (h : Forward g g.nodes st) (hg : g.LoopFree) (n : ℕ) :
    ∀ nd ∈ g.nodes, g.nodes.idxOf nd < n → nd = g.start ∨ st.g.pred nd ≠ [] → st.g.Reachable nd := by
  induction n with
  | zero => exact fun _ _ hlt => absurd hlt (Nat.not_lt_zero _)
  | succ n ih =>
    rintro nd hnd hlt (heq | hne)
    · exact heq ▸ h.same.start ▸ Cfg.reachable_start st.g
    · obtain ⟨e, he⟩ := List.exists_mem_of_ne_nil _ hne
      obtain ⟨hm, hs⟩ := h.linked.pred_succ nd (h.same.nodes ▸ hnd) e he
      rw [h.same.nodes] at hm
      obtain ⟨hs', -, hin⟩ := (h.succ e.1 e.2 nd).mp hs
      have hforward := hg.forward e.1 hm e.2 nd hs'
      exact (ih e.1 hm (by omega) (hin hm)).step hs

end Analysis

/-! ### Back -/

namespace Cfg

variable {f g g' : Cfg} {done todo : List ℕ} {nd : ℕ}

/-- The same blocks with fewer links. -/
structure Thinned (g f : Cfg) : Prop where
  same : SameBlocks (fun _ => True) g f
  linked : f.Linked
  succ_of : ∀ nd b s, f.succ nd b = some s → g.succ nd b = some s

theorem Thinned.refl (hg : g.Linked) : Thinned g g := ⟨.refl _ _, hg, fun _ _ _ hs => hs⟩

theorem Thinned.trans (h : Thinned g f) (h' : Thinned f g') : Thinned g g' :=
  ⟨h.same.trans h'.same, h'.linked, fun nd b s hs => h.succ_of nd b s (h'.succ_of nd b s hs)⟩

theorem Thinned.walk (h : Thinned g f) {src dst : ℕ} {es : List Edge} (hw : f.Walk src es dst) :
    g.Walk src es dst := by
  induction es generalizing src with
  | nil => exact hw
  | cons e es ih =>
    obtain ⟨rfl, s, hs, hrest⟩ := hw
    exact ⟨rfl, s, h.succ_of _ _ _ hs, ih hrest⟩

theorem thinned_unlinkNode (hg : g.Linked) (hnd : nd ∈ g.nodes) : Thinned g (g.unlinkNode nd) := by
  refine ⟨sameBlocks_unlinkNode nd, hg.unlinkNode hnd, fun m b s hs => ?_⟩
  rw [Cfg.succ_unlinkNode] at hs
  split_ifs at hs
  exact hs

/-- What the loop has done to the graph when it has seen some nodes: an edge to one of them is left
if it is the final node or an edge leaves it. -/
structure Backward (f : Cfg) (done : List ℕ) (g' : Cfg) : Prop extends Thinned f g' where
  succ : ∀ m ∈ f.nodes, ∀ b s, g'.succ m b = some s ↔
    f.succ m b = some s ∧ (s ∈ done → s = f.fin ∨ g'.outdegree s ≠ 0)

theorem Backward.dropDeadEnd (h : Backward f done g') (hg : g.LoopFree) (ht : Thinned g f)
    (hnodes : f.nodes.reverse = done ++ nd :: todo) : Backward f (done ++ [nd]) (g'.dropDeadEnd nd) := by
  have hmem : ∀ x ∈ done ++ nd :: todo, x ∈ f.nodes := fun x hx => List.mem_reverse.mp (hnodes ▸ hx)
  have hnd : nd ∈ g'.nodes := h.same.nodes ▸ hmem nd (by simp)
  -- nothing that has been seen leads to the node
  have hno : ∀ x ∈ done ++ [nd], ∀ b, g'.succ x b ≠ some nd := by
    intro x hx b hs
    have hx' : x ∈ f.nodes := hmem x (by simp at hx ⊢; tauto)
    have hs := ht.succ_of x b nd ((h.succ x hx' b nd).mp hs).1
    rcases List.mem_append.mp hx with hx | hx
    · have hpair : f.nodes.reverse.Pairwise fun nd s => ∀ b, g.succ nd b ≠ some s :=
        List.pairwise_reverse.mpr (ht.same.nodes ▸ hg.pairwise)
      rw [hnodes, List.pairwise_append] at hpair
      exact hpair.2.2 x hx nd List.mem_cons_self b hs
    · rw [List.mem_singleton.mp hx] at hs
      exact absurd (hg.forward nd (ht.same.nodes ▸ hmem nd (by simp)) b nd hs) (lt_irrefl _)
  have hnot : nd ∉ done := by
    have hnodup := List.nodup_reverse.mpr (ht.same.nodes.symm ▸ hg.nodup : f.nodes.Nodup)
    rw [hnodes, List.nodup_append] at hnodup
    exact fun hd => hnodup.2.2 nd hd nd List.mem_cons_self rfl
  have hiff : ∀ s, s ≠ nd → (s ∈ done ++ [nd] ↔ s ∈ done) := fun s hs => by simp [hs]
  unfold Cfg.dropDeadEnd
  split
  next hdead =>
    obtain ⟨hout, hfin⟩ := hdead
    rw [h.same.fin] at hfin
    have hnone := outdegree_eq_zero_iff.mp hout
    have hsucc : ∀ m ∈ f.nodes, ∀ b, (g'.unlinkNode nd).succ m b =
        if g'.succ m b = some nd then none else g'.succ m b := by
      intro m hm b
      rw [h.linked.succ_unlinkNode hnd (h.same.nodes ▸ hm)]
      by_cases hmn : m = nd
      · subst hmn
        simp [hnone b]
      · simp [hmn]
    have houtdegree : ∀ s ∈ done ++ [nd], (g'.unlinkNode nd).outdegree s = g'.outdegree s := by
      intro s hs
      rw [outdegree, outdegree, succs_congr fun b => ?_]
      rw [hsucc s (hmem s (by simp at hs ⊢; tauto)) b, if_neg (hno s hs b)]
    refine ⟨h.toThinned.trans (thinned_unlinkNode h.linked hnd), fun m hm b s => ?_⟩
    by_cases hs : s = nd
    · subst hs
      refine iff_of_false (fun hs => ?_) fun hs => ?_
      · rw [hsucc m hm b] at hs
        split_ifs at hs with heq
        exact heq hs
      · have := hs.2 (by simp)
        rw [houtdegree s (by simp)] at this
        exact this.elim hfin fun hne => hne hout
    · rw [hiff s hs, hsucc m hm b]
      have hcond : (if g'.succ m b = some nd then none else g'.succ m b) = some s ↔ g'.succ m b = some s := by
        split_ifs with heq
        · simp [heq, Ne.symm hs]
        · rfl
      rw [hcond, h.succ m hm b s]
      refine and_congr_right fun _ => forall_congr' fun hd => ?_
      rw [houtdegree s (List.mem_append_left _ hd)]
  next hlive =>
    refine ⟨h.toThinned, fun m hm b s => ?_⟩
    by_cases hs : s = nd
    · subst hs
      rw [not_and_or, not_not, h.same.fin] at hlive
      rw [h.succ m hm b s]
      exact and_congr_right fun _ => ⟨fun _ _ => hlive.symm, fun _ hd => absurd hd hnot⟩
    · rw [hiff s hs, h.succ m hm b s]

theorem backward_spec (hg : g.LoopFree) (ht : Thinned g f) : Backward f f.nodes.reverse f.backward := by
  have hinit : Backward f [] f := ⟨.refl ht.linked, fun m _ b s => by simp⟩
  exact foldl_induct hinit fun done nd todo hnodes g' h => h.dropDeadEnd hg ht hnodes

section

variable (h : Backward f f.nodes.reverse g')
include h

/-- The walks to the final node are left. -/
theorem Backward.walk_iff (ht : f.Linked) {src : ℕ} {es : List Edge} (hsrc : src ∈ f.nodes) :
    g'.Walk src es f.fin ↔ f.Walk src es f.fin := by
  induction es generalizing src with
  | nil => exact Iff.rfl
  | cons e es ih =>
    constructor
    · exact h.walk
    · rintro ⟨rfl, s, hs, hrest⟩
      have hrest := (ih (ht.succ_mem _ hsrc e.2 s hs)).mpr hrest
      refine ⟨rfl, s, (h.succ e.1 hsrc e.2 s).mpr ⟨hs, fun _ => ?_⟩, hrest⟩
      cases es with
      | nil => exact .inl (show s = f.fin from hrest)
      | cons e' es =>
        obtain ⟨rfl, t, ht, -⟩ := hrest
        refine .inr fun hout => Option.some_ne_none t ?_
        rw [← ht, outdegree_eq_zero_iff.mp hout]

/-- What an edge leads to leads to the final node. -/
theorem Backward.exists_walk (hg : g.LoopFree) (ht : Thinned g f) (n : ℕ) : ∀ s ∈ g.nodes,
    g.nodes.length ≤ g.nodes.idxOf s + n → s = g.fin ∨ g'.outdegree s ≠ 0 → ∃ es, g'.Walk s es g.fin := by
  induction n with
  | zero =>
    intro s hs hle
    have := List.idxOf_lt_length_of_mem hs
    omega
  | succ n ih =>
    rintro s hs hle (rfl | hout)
    · exact ⟨[], rfl⟩
    · rw [Ne, outdegree_eq_zero_iff, not_forall] at hout
      obtain ⟨b, hb⟩ := hout
      obtain ⟨t, ht'⟩ := Option.ne_none_iff_exists'.mp hb
      have hs' : s ∈ f.nodes := ht.same.nodes ▸ hs
      obtain ⟨hf, hor⟩ := (h.succ s hs' b t).mp ht'
      have hst := ht.succ_of s b t hf
      have htmem := hg.succ_mem s hs b t hst
      have hforward := hg.forward s hs b t hst
      have hor := hor (List.mem_reverse.mpr (ht.same.nodes.symm ▸ htmem))
      rw [ht.same.fin] at hor
      obtain ⟨es, hw⟩ := ih t htmem (by omega) hor
      exact ⟨(s, b) :: es, rfl, t, ht', hw⟩

end

/-! ### What is left -/

/-- Where only what can be reached has edges, nothing but nodes is removed. -/
theorem exists_removeUnreachable_nodes (hg : g.Linked)
    (hreach : ∀ m ∈ g.nodes, ∀ b s, g.succ m b = some s → g.Reachable m) {fuel : ℕ}
    (hfuel : 2 * g.nodes.length < fuel) : ∃ nds, g.removeUnreachable fuel = some { g with nodes := nds } ∧
      nds.Nodup ∧ ∀ nd, nd ∈ nds ↔ g.Reachable nd := by
  have hmem : ∀ nd, g.Reachable nd → nd ∈ g.nodes := fun nd h => by
    obtain ⟨es, hw⟩ := h
    exact hg.walk_mem hg.start_mem hw
  have hedges : (g.nodes.map fun x => ((g.succs x).map Prod.fst).length).sum ≤ 2 * g.nodes.length := by
    have hle := List.sum_le_card_nsmul (g.nodes.map fun x => ((g.succs x).map Prod.fst).length) 2
      fun n hn => by
        obtain ⟨x, -, rfl⟩ := List.mem_map.mp hn
        rw [List.length_map]
        exact List.length_filterMap_le _ _
    rw [List.length_map, Nat.nsmul_eq_mul] at hle
    omega
  obtain ⟨visited, hmarks, hvisited⟩ := Search.mem_marks (fun x hx => hmem x (reachable_iff.mpr hx))
    (lt_of_le_of_lt hedges hfuel)
  have hvis : ∀ nd, nd ∈ visited ↔ g.Reachable nd := fun nd => (hvisited nd).trans reachable_iff.symm
  have hsame : ∀ l : List ℕ, (∀ nd ∈ l, nd ∈ g.nodes ∧ ¬g.Reachable nd) → l.foldl Cfg.unlinkNode g = g := by
    intro l
    induction l with
    | nil => exact fun _ => rfl
    | cons nd l ih =>
      intro hl
      obtain ⟨⟨hnd, hno⟩, hl⟩ := List.forall_mem_cons.mp hl
      rw [List.foldl_cons, unlinkNode_eq_self, ih hl]
      · exact fun b => Option.eq_none_iff_forall_ne_some.mpr fun s hs => hno (hreach nd hnd b s hs)
      · rw [List.eq_nil_iff_forall_not_mem]
        intro e he
        obtain ⟨hm, hs⟩ := hg.pred_succ nd hnd e he
        exact hno ((hreach e.1 hm e.2 nd hs).step hs)
  refine ⟨(sweep (fun nd => nd ∈ visited) g.nodes.length g.nodes).1, ?_, nodup_sweep _ hg.nodup, fun nd => ?_⟩
  · have hrem := hsame (sweep (fun nd => nd ∈ visited) g.nodes.length g.nodes).2 fun nd hnd => by
      obtain ⟨hnd, hno⟩ := (mem_swept _).mp hnd
      exact ⟨hnd, fun h => of_decide_eq_false hno ((hvis nd).mpr h)⟩
    rw [removeUnreachable, hmarks, Option.map_some]
    dsimp only
    rw [hrem]
  · rw [mem_sweep, decide_eq_true_eq, hvis]
    exact ⟨And.right, fun h => ⟨hmem nd h, h⟩⟩

/-- A part of the graph in which everything can be reached and which has the final node can be sorted. -/
theorem Thinned.sortable (h : Thinned g g') (hg : g.Sortable) {nds : List ℕ} (hnodup : nds.Nodup)
    (hnds : ∀ nd, nd ∈ nds ↔ g'.Reachable nd)
    (hreach : ∀ m ∈ g'.nodes, ∀ b s, g'.succ m b = some s → g'.Reachable m) (hfin : g'.Reachable g'.fin) :
    Sortable { g' with nodes := nds } := by
  have hsucc : ∀ nd b, succ { g' with nodes := nds } nd b = g'.succ nd b := fun _ _ => rfl
  have hwalk : ∀ {src es dst}, Walk { g' with nodes := nds } src es dst ↔ g'.Walk src es dst := walk_congr hsucc
  have hmem : ∀ nd ∈ nds, nd ∈ g'.nodes := fun nd hnd => by
    obtain ⟨es, hw⟩ := (hnds nd).mp hnd
    exact h.linked.walk_mem h.linked.start_mem hw
  have hmem' : ∀ nd ∈ nds, nd ∈ g.nodes := fun nd hnd => h.same.nodes ▸ hmem nd hnd
  have hinstrs : ∀ nd, g'.instrs nd = g.instrs nd := fun nd => h.same.instrs nd trivial
  refine ⟨⟨⟨hnodup, (hnds _).mpr (reachable_start g'), ?_, ?_, ?_, ?_⟩, ?_, (hnds _).mpr hfin, ?_, ?_, ?_, ?_⟩, ?_⟩
  · exact fun nd hnd b s hs => (hnds s).mpr (((hnds nd).mp hnd).step hs)
  · exact fun nd hnd b s hs => h.linked.succ_pred nd (hmem nd hnd) b s hs
  · intro s hs e he
    obtain ⟨hm, hsucc⟩ := h.linked.pred_succ s (hmem s hs) e he
    exact ⟨(hnds e.1).mpr (hreach e.1 hm e.2 s hsucc), hsucc⟩
  · exact fun s hs => h.linked.pred_nodup s (hmem s hs)
  · intro nd hnd
    obtain ⟨es, hw⟩ := (hnds nd).mp hnd
    exact ⟨es, hwalk.mpr hw⟩
  · intro nd hnd
    show g'.instrs nd ≠ []
    rw [hinstrs]
    exact hg.instrs_ne_nil nd (hmem' nd hnd)
  · show g'.instrs g'.fin = [.fin]
    rw [hinstrs, h.same.fin]
    exact hg.instrs_fin
  · intro b
    refine Option.eq_none_iff_forall_ne_some.mpr fun s hs => ?_
    have hs := h.succ_of _ b s hs
    rw [h.same.fin, hg.succ_fin] at hs
    exact Option.some_ne_none s hs.symm
  · intro nd hnd hne n hn
    have hn : n ∈ g'.instrs nd := hn
    rw [hinstrs] at hn
    exact hg.type_ne_fin nd (hmem' nd hnd) (fun heq => hne (heq.trans h.same.fin.symm)) n hn
  · exact fun nd hnd es hne hw => hg.acyclic nd (hmem' nd hnd) es hne (h.walk (hwalk.mp hw))

end Cfg

/-- What is left of the graph, and what the loop has found out. -/
theorem exists_staticAnalysis {σ : Type*} {g : Cfg} (hg : g.Sortable) (D : Domain σ) (minSize : ℕ)
    (satCheck : Bool) (late : ℕ → Bool) {fuel : ℕ} (hfuel : 2 * g.nodes.length < fuel) :
    ∃ nds st g', Cfg.LoopFree { g with nodes := nds } ∧
      Analysis.forward D minSize satCheck late { g with nodes := nds } = st ∧
      g.staticAnalysis D minSize satCheck late fuel = some (.ok { st with g := g' }) ∧
      (∀ nd, g'.instrs nd = g.instrs nd ∧ g'.loopdepth nd = g.loopdepth nd) ∧
      (∀ es, g'.IsPath es ↔ g.IsPath es ∧ ∀ e ∈ es, e ∉ st.cut) ∧
      (∀ nd ∈ g'.nodes, ∀ b s, g'.succ nd b = some s → ∃ es, g'.IsPath es ∧ (nd, b) ∈ es) ∧
      ((∃ es, g'.IsPath es) → g'.Sortable) := by
  obtain ⟨nds, htopo, hperm, hfree⟩ := hg.exists_topoSort (by omega : g.nodes.length < fuel)
  set g₁ : Cfg := { g with nodes := nds } with hg₁
  have hf := Analysis.forward_spec (D := D) hfree minSize satCheck late
  set st := Analysis.forward D minSize satCheck late g₁
  have ht : Cfg.Thinned g₁ st.g := ⟨hf.same, hf.linked, fun nd b s hs => ((hf.succ nd b s).mp hs).1⟩
  have hb := Cfg.backward_spec hfree ht
  set g₂ := st.g.backward
  have ht₂ : Cfg.Thinned g₁ g₂ := ht.trans hb.toThinned
  -- what is left of the paths
  have hpath : ∀ es, g₂.IsPath es ↔ g.IsPath es ∧ ∀ e ∈ es, e ∉ st.cut := by
    intro es
    have hmem : g₁.start ∈ st.g.nodes := ht.same.nodes ▸ hfree.start_mem
    have hstart : g₂.Walk g₁.start es g₁.fin ↔ st.g.Walk g₁.start es g₁.fin :=
      ht.same.fin ▸ hb.walk_iff ht.linked hmem
    rw [Cfg.IsPath, ht₂.same.start, ht₂.same.fin, hstart, hf.walk_iff hfree hfree.start_mem (.inl rfl)]
    exact and_congr_left fun _ => Cfg.isPath_withNodes nds es
  -- every edge lies on a path
  have honpath : ∀ m ∈ g₂.nodes, ∀ b s, g₂.succ m b = some s → ∃ es, g₂.IsPath es ∧ (m, b) ∈ es := by
    intro m hm b s hs
    rw [ht₂.same.nodes] at hm
    obtain ⟨hfs, hor⟩ := (hb.succ m (ht.same.nodes ▸ hm) b s).mp hs
    obtain ⟨hsucc, -, hin⟩ := (hf.succ m b s).mp hfs
    have hsmem := hfree.succ_mem m hm b s hsucc
    have hor := hor (List.mem_reverse.mpr (ht.same.nodes.symm ▸ hsmem))
    rw [ht.same.fin] at hor
    obtain ⟨es, hw⟩ := hf.reachable hfree _ m hm (Nat.lt_succ_self _) (hin hm)
    obtain ⟨es', hw'⟩ := hb.exists_walk hfree ht _ s hsmem (Nat.le_add_left _ _) hor
    have hall : st.g.Walk st.g.start (es ++ (m, b) :: es') g₁.fin :=
      hw.append ⟨rfl, s, hfs, hb.walk hw'⟩
    refine ⟨es ++ (m, b) :: es', ?_, by simp⟩
    rw [← ht.same.fin, ← hb.walk_iff ht.linked ht.linked.start_mem, ← hb.same.start] at hall
    rw [Cfg.IsPath, hb.same.fin]
    exact hall
  have hreach : ∀ m ∈ g₂.nodes, ∀ b s, g₂.succ m b = some s → g₂.Reachable m := by
    intro m hm b s hs
    obtain ⟨es, hw, he⟩ := honpath m hm b s hs
    obtain ⟨es₁, es₂, rfl⟩ := List.append_of_mem he
    obtain ⟨mid, hw, rfl, -⟩ := hw.of_append
    exact ⟨es₁, hw⟩
  have hlen : g₂.nodes.length = g.nodes.length := by rw [ht₂.same.nodes, hperm.length_eq]
  obtain ⟨nds', hremove, hnodup, hnds⟩ := Cfg.exists_removeUnreachable_nodes ht₂.linked hreach (hlen ▸ hfuel)
  have hpath' : ∀ es, Cfg.IsPath { g₂ with nodes := nds' } es ↔ g₂.IsPath es := Cfg.isPath_withNodes nds'
  refine ⟨nds, st, { g₂ with nodes := nds' }, hfree, rfl, ?_, fun nd => ?_, fun es => ?_, fun nd hnd b s hs => ?_,
    fun hex => ?_⟩
  · rw [Cfg.staticAnalysis, htopo, Option.bind_some]
    dsimp only
    rw [hremove]
    rfl
  · exact ⟨ht₂.same.instrs nd trivial, ht₂.same.loopdepth nd trivial⟩
  · exact (hpath' es).trans (hpath es)
  · obtain ⟨es₁, hw⟩ := (hnds nd).mp hnd
    obtain ⟨es, hes, he⟩ := honpath nd (ht₂.linked.walk_mem ht₂.linked.start_mem hw) b s hs
    exact ⟨es, (hpath' es).mpr hes, he⟩
  · obtain ⟨es, hes⟩ := hex
    exact ht₂.sortable (Cfg.LoopFree.sortable (g := g₁) hfree (.refl nds)) hnodup hnds hreach ⟨es, (hpath' es).mp hes⟩

/-- **Static analysis.** It ends, and it takes away the paths through the program with an edge whose
state was found to be unsatisfiable, and no others. Every edge that is left lies on such a path, and if
there is one, the graph can be sorted again. -/
theorem static_analysis_paths {σ : Type*} {g : Cfg} (hg : g.Sortable) (D : Domain σ) (minSize : ℕ)
    (satCheck : Bool) (late : ℕ → Bool) {fuel : ℕ} (hfuel : 2 * g.nodes.length < fuel) :
    ∃ st, g.staticAnalysis D minSize satCheck late fuel = some (.ok st) ∧
      (∀ nd, st.g.instrs nd = g.instrs nd ∧ st.g.loopdepth nd = g.loopdepth nd) ∧
      (∀ es, st.g.IsPath es ↔ g.IsPath es ∧ ∀ e ∈ es, e ∉ st.cut) ∧
      (∀ nd ∈ st.g.nodes, ∀ b s, st.g.succ nd b = some s → ∃ es, st.g.IsPath es ∧ (nd, b) ∈ es) ∧
      ((∃ es, st.g.IsPath es) → st.g.Sortable) := by
  obtain ⟨nds, st, g', -, -, hst, hspec⟩ := exists_staticAnalysis hg D minSize satCheck late hfuel
  exact ⟨{ st with g := g' }, hst, hspec⟩

/-- No branch is taken, as far as the states know. -/
def neverTaken : Domain Bool where
  initial := true
  empty := true
  apply _ _ a := a
  branch _ i b a := a && !(b && i.type == .BRANCH)
  partialMinimize := id
  isUnsat a := !a
  minimumValue _ := 60
  staticMerge a a' := a || a'

/-- The way around the access is taken away, and the other one is left. -/
theorem static_analysis_paths_skipMem : ∃ st,
    skipMem.staticAnalysis neverTaken 60 false (fun _ => false) 11 = some (.ok st) ∧
      st.g.IsPath [(0, false), (1, false), (2, false), (3, false)] ∧
      ¬st.g.IsPath [(0, true), (2, false), (3, false)] := by
  have hfuel : 2 * skipMem.nodes.length < 11 := by decide
  obtain ⟨st, hst, -, hpath, -⟩ := static_analysis_paths
    (Cfg.LoopFree.sortable (g := skipMem) skipMem_loopFree (.refl _)) neverTaken 60 false (fun _ => false) hfuel
  have hcut : ((skipMem.staticAnalysis neverTaken 60 false (fun _ => false) 11).bind Except.toOption).map
      Analysis.cut = some [(0, true)] := by decide
  rw [hst] at hcut
  have hcut : st.cut = [(0, true)] := Option.some.inj hcut
  refine ⟨st, hst, (hpath _).mpr ⟨by decide, by rw [hcut]; decide⟩, fun h => ?_⟩
  exact ((hpath _).mp h).2 (0, true) (by decide) (by rw [hcut]; decide)

end NfpEstimator
