import NfpEstimator.Instr.Basic

/-!
# The control flow graph

`cfg` and `cfg::node`: blocks of instructions with up to two successors, one for
each way the last instruction can branch, and with the list of edges that lead
to them. A node is known by a number, which stands for the pointer to it; an
edge is known by the node that it leaves and the branch that it is taken on.

`Cfg.LoopFree` collects what holds of a graph once it has been built, unrolled
and sorted topologically.
-/

namespace NfpEstimator

/-- An edge, as `cfg::node::pred_data` names it: the node it leaves, and the branch. -/
abbrev Edge := ℕ × Bool

instance instLawfulBEqEdge : LawfulBEq Edge := inferInstance

/-- `cfg::node`. -/
structure Block where
  instrs : List Instr
  loopdepth : ℕ
  successorTrue : Option ℕ
  successorFalse : Option ℕ
  predecessors : List Edge

/-- `cfg`. -/
structure Cfg where
  /-- What the node of a number is. -/
  node : ℕ → Block
  /-- The nodes of the graph. -/
  nodes : List ℕ
  start : ℕ
  fin : ℕ

namespace Cfg

variable (g : Cfg)

/-- `cfg::node::instrs`. -/
def instrs (nd : ℕ) : List Instr := (g.node nd).instrs

/-- `cfg::node::succ(branchtrue)`. -/
def succ (nd : ℕ) (branchtrue : Bool) : Option ℕ :=
  if branchtrue then (g.node nd).successorTrue else (g.node nd).successorFalse

/-- `cfg::node::pred`. -/
def pred (nd : ℕ) : List Edge := (g.node nd).predecessors

/-- `cfg::node::succ`: the edges out of a node, the one of the taken branch first. -/
def outEdges (nd : ℕ) : List Edge :=
  ([true, false].filter fun b => (g.succ nd b).isSome).map fun b => (nd, b)

/-- The graph is loop-free, and its nodes are listed in topological order. The
links are kept in both directions, `start` is the only node that no edge leads
to, and the final instruction is a block of its own. -/
structure LoopFree : Prop where
  nodup : g.nodes.Nodup
  start_mem : g.start ∈ g.nodes
  fin_mem : g.fin ∈ g.nodes
  succ_mem : ∀ nd ∈ g.nodes, ∀ b, ∀ s ∈ g.succ nd b, s ∈ g.nodes
  succ_pred : ∀ nd ∈ g.nodes, ∀ b, ∀ s ∈ g.succ nd b, (nd, b) ∈ g.pred s
  pred_succ : ∀ s ∈ g.nodes, ∀ e ∈ g.pred s, e.1 ∈ g.nodes ∧ g.succ e.1 e.2 = some s
  pred_nodup : ∀ s ∈ g.nodes, (g.pred s).Nodup
  pred_start : g.pred g.start = []
  pred_ne_nil : ∀ s ∈ g.nodes, s ≠ g.start → g.pred s ≠ []
  forward : ∀ nd ∈ g.nodes, ∀ b, ∀ s ∈ g.succ nd b, g.nodes.idxOf nd < g.nodes.idxOf s
  instrs_ne_nil : ∀ nd ∈ g.nodes, g.instrs nd ≠ []
  instrs_fin : g.instrs g.fin = [.fin]
  succ_fin : ∀ b, g.succ g.fin b = none
  type_ne_fin : ∀ nd ∈ g.nodes, nd ≠ g.fin → ∀ n ∈ g.instrs nd, n.type ≠ .FIN

instance : Decidable g.LoopFree :=
  decidable_of_iff
    (g.nodes.Nodup ∧ g.start ∈ g.nodes ∧ g.fin ∈ g.nodes ∧
      (∀ nd ∈ g.nodes, ∀ b, ∀ s ∈ g.succ nd b, s ∈ g.nodes) ∧
      (∀ nd ∈ g.nodes, ∀ b, ∀ s ∈ g.succ nd b, (nd, b) ∈ g.pred s) ∧
      (∀ s ∈ g.nodes, ∀ e ∈ g.pred s, e.1 ∈ g.nodes ∧ g.succ e.1 e.2 = some s) ∧
      (∀ s ∈ g.nodes, (g.pred s).Nodup) ∧ g.pred g.start = [] ∧
      (∀ s ∈ g.nodes, s ≠ g.start → g.pred s ≠ []) ∧
      (∀ nd ∈ g.nodes, ∀ b, ∀ s ∈ g.succ nd b, g.nodes.idxOf nd < g.nodes.idxOf s) ∧
      (∀ nd ∈ g.nodes, g.instrs nd ≠ []) ∧ g.instrs g.fin = [.fin] ∧
      (∀ b, g.succ g.fin b = none) ∧
      ∀ nd ∈ g.nodes, nd ≠ g.fin → ∀ n ∈ g.instrs nd, n.type ≠ .FIN)
    ⟨fun ⟨h1, h2, h3, h4, h5, h6, h7, h8, h9, h10, h11, h12, h13, h14⟩ =>
        ⟨h1, h2, h3, h4, h5, h6, h7, h8, h9, h10, h11, h12, h13, h14⟩,
      fun ⟨h1, h2, h3, h4, h5, h6, h7, h8, h9, h10, h11, h12, h13, h14⟩ =>
        ⟨h1, h2, h3, h4, h5, h6, h7, h8, h9, h10, h11, h12, h13, h14⟩⟩

@[simp] theorem mem_outEdges {nd : ℕ} {e : Edge} :
    e ∈ g.outEdges nd ↔ e.1 = nd ∧ (g.succ nd e.2).isSome := by
  obtain ⟨m, b⟩ := e
  simp only [outEdges, List.mem_map, List.mem_filter, List.mem_cons, List.not_mem_nil, or_false,
    Prod.mk.injEq]
  constructor
  · rintro ⟨b', ⟨-, hs⟩, rfl, rfl⟩
    exact ⟨rfl, hs⟩
  · rintro ⟨rfl, hs⟩
    exact ⟨b, ⟨by cases b <;> simp, hs⟩, rfl, rfl⟩

/-! ### Walks -/

/-- The edges form a walk from one node to another. -/
def Walk : ℕ → List Edge → ℕ → Prop
  | src, [], dst => src = dst
  | src, e :: es, dst => e.1 = src ∧ ∃ s, g.succ e.1 e.2 = some s ∧ Walk s es dst

/-- The edges form a path through the whole program. -/
def IsPath (es : List Edge) : Prop := g.Walk g.start es g.fin

variable {g}

theorem Walk.append {src mid dst : ℕ} {es es' : List Edge} (h : g.Walk src es mid)
    (h' : g.Walk mid es' dst) : g.Walk src (es ++ es') dst := by
  induction es generalizing src with
  | nil => exact (show src = mid from h) ▸ h'
  | cons e es ih =>
    obtain ⟨he, s, hs, hrest⟩ := h
    exact ⟨he, s, hs, ih hrest⟩

theorem Walk.of_append {src dst : ℕ} {es es' : List Edge} (h : g.Walk src (es ++ es') dst) :
    ∃ mid, g.Walk src es mid ∧ g.Walk mid es' dst := by
  induction es generalizing src with
  | nil => exact ⟨src, rfl, h⟩
  | cons e es ih =>
    obtain ⟨he, s, hs, hrest⟩ := h
    obtain ⟨mid, h₁, h₂⟩ := ih hrest
    exact ⟨mid, ⟨he, s, hs, h₁⟩, h₂⟩

theorem walk_single {e : Edge} {s : ℕ} (h : g.succ e.1 e.2 = some s) : g.Walk e.1 [e] s :=
  ⟨rfl, s, h, rfl⟩

/-- Walks depend on the successors only. -/
theorem walk_congr {g' : Cfg} (h : ∀ nd b, g'.succ nd b = g.succ nd b) {src dst : ℕ}
    {es : List Edge} : g'.Walk src es dst ↔ g.Walk src es dst := by
  induction es generalizing src with
  | nil => exact Iff.rfl
  | cons e es ih => simp only [Walk, h, ih]

theorem isPath_withNodes (nds : List ℕ) (es : List Edge) :
    IsPath { g with nodes := nds } es ↔ g.IsPath es := by
  have hsucc : ∀ nd b, succ { g with nodes := nds } nd b = g.succ nd b := fun _ _ => rfl
  exact walk_congr hsucc

theorem Walk.mem (hg : g.LoopFree) {src dst : ℕ} {es : List Edge} (hsrc : src ∈ g.nodes)
    (h : g.Walk src es dst) : dst ∈ g.nodes := by
  induction es generalizing src with
  | nil => exact (show src = dst from h) ▸ hsrc
  | cons e es ih =>
    obtain ⟨rfl, s, hs, hrest⟩ := h
    exact ih (hg.succ_mem _ hsrc e.2 s hs) hrest

/-- A walk leads forward in the order of the nodes. -/
theorem Walk.idxOf_le (hg : g.LoopFree) {src dst : ℕ} {es : List Edge} (hsrc : src ∈ g.nodes)
    (h : g.Walk src es dst) : g.nodes.idxOf src + es.length ≤ g.nodes.idxOf dst := by
  induction es generalizing src with
  | nil => exact (show src = dst from h) ▸ le_rfl
  | cons e es ih =>
    obtain ⟨rfl, s, hs, hrest⟩ := h
    have := ih (hg.succ_mem _ hsrc e.2 s hs) hrest
    have := hg.forward _ hsrc e.2 s hs
    rw [List.length_cons]
    omega

end Cfg

instance decidableWalk (g : Cfg) : ∀ src es dst, Decidable (g.Walk src es dst)
  | src, [], dst => inferInstanceAs (Decidable (src = dst))
  | src, e :: es, dst =>
    match h : g.succ e.1 e.2 with
    | none => isFalse fun ⟨_, _, hs, _⟩ => nomatch h.symm.trans hs
    | some s =>
      have := decidableWalk g s es dst
      decidable_of_iff (e.1 = src ∧ g.Walk s es dst)
        ⟨fun ⟨he, hw⟩ => ⟨he, s, h, hw⟩,
          fun ⟨he, _, hs, hw⟩ => ⟨he, Option.some.inj (h.symm.trans hs) ▸ hw⟩⟩

instance (g : Cfg) (es : List Edge) : Decidable (g.IsPath es) :=
  inferInstanceAs (Decidable (g.Walk g.start es g.fin))

/-- A graph that is loop-free. -/
structure LoopFreeCfg extends Cfg where
  loopFree : toCfg.LoopFree

end NfpEstimator
