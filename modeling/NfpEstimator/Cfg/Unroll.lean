import NfpEstimator.Cfg.Graph
import NfpEstimator.Search

/-!
# Unrolling loops

`cfg::unroll` follows the edges from the start in depth-first order and rewrites them on
the way. A node that lies on a cycle is visited in copies, one for each depth: the depth
at which an edge enters a block is the number of visits to the block that are on the
stack, or that of the copy which the edge leaves, if it is larger. When it comes to the
limit, the edge is removed.

A node is known by a number, and a copy gets a number that has not been used yet.
-/

namespace NfpEstimator

/-! ### Changing the graph -/

/-- `cfg::node::successor_true` or `cfg::node::successor_false` is set. -/
def Block.setSucc (x : Block) (branchtrue : Bool) (s : Option ℕ) : Block :=
  if branchtrue then { x with successorTrue := s } else { x with successorFalse := s }

namespace Cfg

variable (g : Cfg)

/-- `cfg::node::id`. -/
def id (nd : ℕ) : ℕ := (g.instrs nd).head?.elim 0 Instr.getId

/-- `cfg::node::loopdepth`. -/
def loopdepth (nd : ℕ) : ℕ := (g.node nd).loopdepth

/-- `cfg::node::succ`: the successors of a node, the one of the taken branch first. -/
def succs (nd : ℕ) : List (ℕ × Bool) :=
  [true, false].filterMap fun b => (g.succ nd b).map fun s => (s, b)

/-- The node becomes this block. -/
def setNode (nd : ℕ) (x : Block) : Cfg := { g with node := Function.update g.node nd x }

/-- `cfg::node::link`. -/
def link (nd s : ℕ) (branchtrue : Bool) : Cfg :=
  let g := g.setNode nd ((g.node nd).setSucc branchtrue (some s))
  g.setNode s { g.node s with predecessors := (g.node s).predecessors ++ [(nd, branchtrue)] }

/-- `cfg::node::unlink`, of an edge that exists. -/
def unlink (nd : ℕ) (branchtrue : Bool) : Cfg :=
  match g.succ nd branchtrue with
  | none => g
  | some s =>
    let g := g.setNode nd ((g.node nd).setSucc branchtrue none)
    g.setNode s { g.node s with
      predecessors := (g.node s).predecessors.filter fun e => e ≠ (nd, branchtrue) }

/-- `cfg::node::clone`; `c` is the number of the copy. -/
def clone (nd c depth : ℕ) : Cfg :=
  let g' := (g.succs nd).foldl (fun g' s => g'.link c s.1 s.2)
    (g.setNode c ⟨g.instrs nd, 0, none, none, []⟩)
  g'.setNode c { g'.node c with loopdepth := depth }

/-- `cfg::is_in_loop`. -/
def isInLoop (start : ℕ) : Bool :=
  Search.finds (fun nd => (g.succs nd).map Prod.fst) (fun s => decide (s = start))
    (g.nodes.length + 1) [] [start]

/-- `cfg::loopfree_nodes`. -/
def loopfreeNodes : List ℕ := g.nodes.filter fun nd => !g.isInLoop nd

end Cfg

/-! ### The algorithm -/

/-- `std::map::operator[]` with a key that the map does not have yet. -/
def insertKey (k : ℕ × ℕ) (u : ℕ) : List ((ℕ × ℕ) × ℕ) → List ((ℕ × ℕ) × ℕ)
  | [] => [(k, u)]
  | x :: l =>
    if k.1 < x.1.1 ∨ k.1 = x.1.1 ∧ k.2 < x.1.2 then (k, u) :: x :: l else x :: insertKey k u l

/-- The variables of `cfg::unroll`. -/
structure Unrolling where
  g : Cfg
  /-- The number of the next copy. -/
  fresh : ℕ
  finished : ℕ → Bool
  visited : ℕ → ℕ
  unrolled : List ((ℕ × ℕ) × ℕ)

namespace Unrolling

/-- The variables before the loop. -/
def initial (g : Cfg) : Unrolling where
  g := g
  fresh := g.nodes.foldr max 0 + 1
  finished := fun _ => false
  visited := fun _ => 0
  unrolled := []

/-- A copy of a node is made, and remembered for its block and the depth. -/
def make (st : Unrolling) (s depth : ℕ) : Unrolling :=
  { st with
    g := st.g.clone s st.fresh depth
    fresh := st.fresh + 1
    unrolled := insertKey (st.g.id s, depth) st.fresh st.unrolled }

/-- The copy of a block for a depth; it is made when it is asked for the first time. -/
def copy (st : Unrolling) (s depth : ℕ) : ℕ × Unrolling :=
  match st.unrolled.lookup (st.g.id s, depth) with
  | some u => (u, st)
  | none => (st.fresh, st.make s depth)

/-- The edge of `nd` leads to another node. -/
def relink (st : Unrolling) (nd u : ℕ) (branchtrue : Bool) : Unrolling :=
  { st with g := (st.g.unlink nd branchtrue).link nd u branchtrue }

/-- The successor `s` of `nd` is pushed, unless it is finished. -/
def enter (st : Unrolling) (nd i : ℕ) (stack : List (ℕ × ℕ)) (s : ℕ) :
    List (ℕ × ℕ) × Unrolling :=
  if st.finished s then ((nd, i + 1) :: stack, st)
  else
    ((s, 0) :: (nd, i + 1) :: stack,
      { st with visited := Function.update st.visited (st.g.id s) (st.visited (st.g.id s) + 1) })

/-- All successors of `nd` have been seen. The count of the start is never raised; it is
lowered with the last element of the stack, and not read after that. -/
def leave (st : Unrolling) (nd : ℕ) : Unrolling :=
  { st with
    finished := Function.update st.finished nd true
    visited := Function.update st.visited (st.g.id nd) (st.visited (st.g.id nd) - 1) }

/-- The body of the loop of `cfg::unroll`, with `(nd, i)` on top of the stack. -/
def step (L : ℕ → ℕ) (nounroll : List ℕ) (nd i : ℕ) (stack : List (ℕ × ℕ)) (st : Unrolling) :
    List (ℕ × ℕ) × Unrolling :=
  match (st.g.succs nd)[i]? with
  | none => (stack, st.leave nd)
  | some (s, branchtrue) =>
    let depth := max (st.visited (st.g.id s)) (st.g.loopdepth nd)
    let l := L (st.g.id s)
    if l ≠ 0 ∧ s ∉ nounroll then
      if l ≤ depth then ((nd, i) :: stack, { st with g := st.g.unlink nd branchtrue })
      else if st.g.loopdepth s < depth then
        let (u, st) := st.copy s depth
        (st.relink nd u branchtrue).enter nd i stack u
      else st.enter nd i stack s
    else st.enter nd i stack s

/-- The loop of `cfg::unroll`. -/
def loop (L : ℕ → ℕ) (nounroll : List ℕ) : ℕ → List (ℕ × ℕ) → Unrolling → Option Unrolling
  | _, [], st => some st
  | 0, _ :: _, _ => none
  | fuel + 1, (nd, i) :: stack, st =>
    let (stack, st) := step L nounroll nd i stack st
    loop L nounroll fuel stack st

end Unrolling

/-- The limit for a block: its own one, or else the one for all blocks. -/
def unrollLimit (limit : ℕ) (limits : ℕ → Option ℕ) (id : ℕ) : ℕ := (limits id).getD limit

/-- `cfg::unroll`. `fuel` bounds the iterations of the loop. -/
def Cfg.unroll (g : Cfg) (limit : ℕ) (limits : ℕ → Option ℕ) (fuel : ℕ) : Option Cfg := do
  let st ← Unrolling.loop (unrollLimit limit limits) g.loopfreeNodes fuel [(g.start, 0)]
    (.initial g)
  some { st.g with nodes := st.g.nodes ++ st.unrolled.map Prod.snd }

/-! ### What the operations change -/

namespace Cfg

variable {g : Cfg}

theorem succ_setNode (nd : ℕ) (x : Block) (m : ℕ) (b : Bool) :
    (g.setNode nd x).succ m b =
      if m = nd then (if b then x.successorTrue else x.successorFalse) else g.succ m b := by
  unfold setNode succ
  by_cases h : m = nd
  · rw [if_pos h, h]
    simp only [Function.update_self]
  · rw [if_neg h]
    simp only [Function.update_of_ne h]

theorem succ_setSucc (nd : ℕ) (b b' : Bool) (s : Option ℕ) :
    (if b' then ((g.node nd).setSucc b s).successorTrue
      else ((g.node nd).setSucc b s).successorFalse) = if b' = b then s else g.succ nd b' := by
  unfold Block.setSucc succ
  cases b <;> cases b' <;> rfl

/-- Changing the predecessors of a node changes nothing else. -/
theorem succ_setPredecessors (nd : ℕ) (ps : List Edge) (m : ℕ) (b : Bool) :
    (g.setNode nd { g.node nd with predecessors := ps }).succ m b = g.succ m b := by
  rw [succ_setNode]
  split
  next h => exact h ▸ rfl
  · rfl

theorem succ_link (nd s : ℕ) (b : Bool) (m : ℕ) (b' : Bool) :
    (g.link nd s b).succ m b' = if m = nd ∧ b' = b then some s else g.succ m b' := by
  unfold link
  rw [succ_setPredecessors, succ_setNode, succ_setSucc]
  by_cases hm : m = nd
  · simp only [hm, true_and, if_true]
  · simp only [hm, false_and, if_false]

theorem succ_unlink (nd : ℕ) (b : Bool) (m : ℕ) (b' : Bool) :
    (g.unlink nd b).succ m b' = if m = nd ∧ b' = b then none else g.succ m b' := by
  unfold unlink
  split
  next h =>
    split
    next heq => rw [heq.1, heq.2, h]
    · rfl
  · rw [succ_setPredecessors, succ_setNode, succ_setSucc]
    by_cases hm : m = nd
    · simp only [hm, true_and, if_true]
    · simp only [hm, false_and, if_false]

/-- The nodes of two graphs are the same, up to the links between them. -/
structure SameBlocks (p : ℕ → Prop) (g g' : Cfg) : Prop where
  nodes : g'.nodes = g.nodes
  start : g'.start = g.start
  fin : g'.fin = g.fin
  instrs : ∀ m, p m → g'.instrs m = g.instrs m
  loopdepth : ∀ m, p m → g'.loopdepth m = g.loopdepth m

theorem SameBlocks.refl (p : ℕ → Prop) (g : Cfg) : SameBlocks p g g :=
  ⟨rfl, rfl, rfl, fun _ _ => rfl, fun _ _ => rfl⟩

theorem SameBlocks.trans {p : ℕ → Prop} {g g' g'' : Cfg} (h : SameBlocks p g g')
    (h' : SameBlocks p g' g'') : SameBlocks p g g'' where
  nodes := h'.nodes.trans h.nodes
  start := h'.start.trans h.start
  fin := h'.fin.trans h.fin
  instrs m hm := (h'.instrs m hm).trans (h.instrs m hm)
  loopdepth m hm := (h'.loopdepth m hm).trans (h.loopdepth m hm)

theorem SameBlocks.id {p : ℕ → Prop} {g g' : Cfg} (h : SameBlocks p g g') {m : ℕ} (hm : p m) :
    g'.id m = g.id m := by
  rw [Cfg.id, h.instrs m hm]
  rfl

theorem SameBlocks.mono {p q : ℕ → Prop} {g g' : Cfg} (h : SameBlocks p g g')
    (hpq : ∀ m, q m → p m) : SameBlocks q g g' :=
  ⟨h.nodes, h.start, h.fin, fun m hm => h.instrs m (hpq m hm), fun m hm => h.loopdepth m (hpq m hm)⟩

theorem node_setNode_of_ne {nd m : ℕ} (h : m ≠ nd) (x : Block) : (g.setNode nd x).node m = g.node m := by
  unfold setNode
  exact Function.update_of_ne h _ _

theorem node_setNode_self (nd : ℕ) (x : Block) : (g.setNode nd x).node nd = x := by
  unfold setNode
  exact Function.update_self _ _ _

theorem sameBlocks_setNode (nd : ℕ) (x : Block) : SameBlocks (· ≠ nd) g (g.setNode nd x) where
  nodes := rfl
  start := rfl
  fin := rfl
  instrs m hm := by rw [Cfg.instrs, node_setNode_of_ne hm]; rfl
  loopdepth m hm := by rw [Cfg.loopdepth, node_setNode_of_ne hm]; rfl

/-- A node is replaced by one with the same instructions and depth. -/
theorem sameBlocks_setNode_self {nd : ℕ} {x : Block} (h₁ : x.instrs = g.instrs nd)
    (h₂ : x.loopdepth = g.loopdepth nd) : SameBlocks (fun _ => True) g (g.setNode nd x) := by
  refine ⟨rfl, rfl, rfl, fun m _ => ?_, fun m _ => ?_⟩ <;> by_cases hm : m = nd
  · rw [hm, Cfg.instrs, node_setNode_self, h₁]
  · exact (sameBlocks_setNode nd x).instrs m hm
  · rw [hm, Cfg.loopdepth, node_setNode_self, h₂]
  · exact (sameBlocks_setNode nd x).loopdepth m hm

theorem sameBlocks_setSucc (nd : ℕ) (b : Bool) (s : Option ℕ) :
    SameBlocks (fun _ => True) g (g.setNode nd ((g.node nd).setSucc b s)) :=
  sameBlocks_setNode_self (by cases b <;> rfl) (by cases b <;> rfl)

theorem sameBlocks_link (nd s : ℕ) (b : Bool) : SameBlocks (fun _ => True) g (g.link nd s b) :=
  (sameBlocks_setSucc nd b (some s)).trans (sameBlocks_setNode_self rfl rfl)

theorem sameBlocks_unlink (nd : ℕ) (b : Bool) : SameBlocks (fun _ => True) g (g.unlink nd b) := by
  unfold unlink
  split
  · exact .refl _ _
  · exact (sameBlocks_setSucc nd b none).trans (sameBlocks_setNode_self rfl rfl)

/-- Linking a node again and again changes no blocks. -/
theorem sameBlocks_links (c : ℕ) (l : List (ℕ × Bool)) :
    SameBlocks (fun _ => True) g (l.foldl (fun g' s => g'.link c s.1 s.2) g) := by
  induction l generalizing g with
  | nil => exact .refl _ _
  | cons s l ih => exact (sameBlocks_link c s.1 s.2).trans ih

theorem sameBlocks_clone (nd c depth : ℕ) : SameBlocks (· ≠ c) g (g.clone nd c depth) := by
  unfold clone
  have h₁ := sameBlocks_setNode (g := g) c ⟨g.instrs nd, 0, none, none, []⟩
  have h₂ := sameBlocks_links (g := g.setNode c ⟨g.instrs nd, 0, none, none, []⟩) c (g.succs nd)
  exact (h₁.trans (h₂.mono fun _ _ => trivial)).trans (sameBlocks_setNode c _)

/-- A copy has the instructions of the block that is copied. -/
theorem instrs_clone (nd c depth : ℕ) : (g.clone nd c depth).instrs c = g.instrs nd := by
  unfold clone
  rw [Cfg.instrs, node_setNode_self]
  have h := (sameBlocks_links c (g.succs nd) (g := g.setNode c ⟨g.instrs nd, 0, none, none, []⟩)).instrs
    c trivial
  refine h.trans ?_
  rw [Cfg.instrs, node_setNode_self]

theorem loopdepth_clone (nd c depth : ℕ) : (g.clone nd c depth).loopdepth c = depth := by
  unfold clone
  rw [Cfg.loopdepth, node_setNode_self]

theorem succ_setLoopdepth (nd depth m : ℕ) (b : Bool) :
    (g.setNode nd { g.node nd with loopdepth := depth }).succ m b = g.succ m b := by
  rw [succ_setNode]
  split
  next h => exact h ▸ rfl
  · rfl

/-- A copy has the successors that the block has when it is copied. -/
theorem succ_clone (nd c depth m : ℕ) (b : Bool) :
    (g.clone nd c depth).succ m b = if m = c then g.succ nd b else g.succ m b := by
  unfold clone
  rw [succ_setLoopdepth]
  by_cases hm : m = c
  · rw [if_pos hm, succs]
    cases ht : g.succ nd true <;> cases hf : g.succ nd false <;>
      cases b <;> simp [succ_link, succ_setNode, hm, ht, hf]
  · have hl : ∀ (l : List (ℕ × Bool)) (g' : Cfg),
        (l.foldl (fun g' s => g'.link c s.1 s.2) g').succ m b = g'.succ m b := by
      intro l
      induction l with
      | nil => exact fun _ => rfl
      | cons s l ih =>
        intro g'
        rw [List.foldl_cons, ih, succ_link, if_neg fun h => hm h.1]
    rw [if_neg hm, hl, succ_setNode, if_neg hm]

end Cfg

theorem lookup_cons_eq (x : (ℕ × ℕ) × ℕ) (l : List ((ℕ × ℕ) × ℕ)) (k : ℕ × ℕ) :
    (x :: l).lookup k = if k = x.1 then some x.2 else l.lookup k := by
  rw [List.lookup_cons]
  by_cases hk : k = x.1
  · rw [if_pos hk, beq_iff_eq.mpr hk]
  · rw [if_neg hk, beq_eq_false_iff_ne.mpr hk]

theorem lookup_insertKey {k : ℕ × ℕ} {u : ℕ} {l : List ((ℕ × ℕ) × ℕ)} (h : l.lookup k = none)
    (k' : ℕ × ℕ) : (insertKey k u l).lookup k' = if k' = k then some u else l.lookup k' := by
  induction l with
  | nil => exact lookup_cons_eq (k, u) [] k'
  | cons x l ih =>
    rw [lookup_cons_eq] at h
    have hx : k ≠ x.1 := by
      intro hx
      rw [if_pos hx] at h
      exact nomatch h
    rw [if_neg hx] at h
    rw [insertKey]
    split
    · exact lookup_cons_eq (k, u) (x :: l) k'
    · rw [lookup_cons_eq, lookup_cons_eq, ih h]
      by_cases hk : k' = k
      · rw [if_pos hk, if_pos hk, if_neg fun heq => hx (hk.symm.trans heq)]
      · rw [if_neg hk, if_neg hk]

/-- More iterations do not change the result. -/
theorem Unrolling.loop_mono {L : ℕ → ℕ} {nounroll : List ℕ} {fuel fuel' : ℕ} (hle : fuel ≤ fuel')
    {stack : List (ℕ × ℕ)} {st st' : Unrolling} (h : loop L nounroll fuel stack st = some st') :
    loop L nounroll fuel' stack st = some st' := by
  induction fuel generalizing fuel' stack st with
  | zero =>
    cases stack with
    | nil => cases fuel' <;> exact h
    | cons x stack => exact nomatch h
  | succ fuel ih =>
    obtain ⟨fuel', rfl⟩ : ∃ n, fuel' = n + 1 := ⟨fuel' - 1, by omega⟩
    cases stack with
    | nil => exact h
    | cons x stack =>
      unfold loop at h ⊢
      exact ih (Nat.le_of_succ_le_succ hle) h

/-- There is only one unrolled graph. -/
theorem unroll_unique {g g₁ g₂ : Cfg} {limit fuel₁ fuel₂ : ℕ} {limits : ℕ → Option ℕ}
    (h₁ : g.unroll limit limits fuel₁ = some g₁) (h₂ : g.unroll limit limits fuel₂ = some g₂) :
    g₁ = g₂ := by
  obtain ⟨st₁, hl₁, rfl⟩ := Option.bind_eq_some_iff.mp h₁ |>.imp fun _ h => h.imp_right Option.some.inj
  obtain ⟨st₂, hl₂, rfl⟩ := Option.bind_eq_some_iff.mp h₂ |>.imp fun _ h => h.imp_right Option.some.inj
  have hmax₁ := Unrolling.loop_mono (le_max_left fuel₁ fuel₂) hl₁
  have hmax₂ := Unrolling.loop_mono (le_max_right fuel₁ fuel₂) hl₂
  rw [Option.some.inj (hmax₁.symm.trans hmax₂)]

namespace Cfg

variable {g : Cfg}

/-! ### Loops -/

/-- The graph as it is built: blocks are told apart by their first address, none of them is a
copy, and nothing follows the end of the program. -/
structure Built (g : Cfg) : Prop where
  start_mem : g.start ∈ g.nodes
  succ_mem : ∀ nd ∈ g.nodes, ∀ b, ∀ s ∈ g.succ nd b, s ∈ g.nodes
  id_inj : ∀ nd ∈ g.nodes, ∀ nd' ∈ g.nodes, g.id nd = g.id nd' → nd = nd'
  loopdepth : ∀ nd ∈ g.nodes, g.loopdepth nd = 0
  succ_fin : ∀ b, g.succ g.fin b = none

instance : Decidable g.Built :=
  decidable_of_iff
    (g.start ∈ g.nodes ∧ (∀ nd ∈ g.nodes, ∀ b, ∀ s ∈ g.succ nd b, s ∈ g.nodes) ∧
      (∀ nd ∈ g.nodes, ∀ nd' ∈ g.nodes, g.id nd = g.id nd' → nd = nd') ∧
      (∀ nd ∈ g.nodes, g.loopdepth nd = 0) ∧ ∀ b, g.succ g.fin b = none)
    ⟨fun ⟨h1, h2, h3, h4, h5⟩ => ⟨h1, h2, h3, h4, h5⟩,
      fun ⟨h1, h2, h3, h4, h5⟩ => ⟨h1, h2, h3, h4, h5⟩⟩

theorem mem_succs {nd s : ℕ} {b : Bool} : (s, b) ∈ g.succs nd ↔ g.succ nd b = some s := by
  simp only [succs, List.mem_filterMap, Option.map_eq_some_iff, Prod.mk.injEq]
  constructor
  · rintro ⟨b', -, s', hs, rfl, rfl⟩
    exact hs
  · intro h
    exact ⟨b, by cases b <;> simp, s, h, rfl, rfl⟩

theorem succs_congr {g' : Cfg} {nd : ℕ} (h : ∀ b, g'.succ nd b = g.succ nd b) :
    g'.succs nd = g.succs nd := by
  unfold succs
  simp only [h]

/-- A successor is removed: those before it stay where they are. -/
theorem succs_of_unlink {g' : Cfg} {nd m i : ℕ} {b : Bool} (hi : (g.succs nd)[i]? = some (m, b))
    (h : ∀ b', g'.succ nd b' = if b' = b then none else g.succ nd b') :
    (g'.succs nd).take i = (g.succs nd).take i ∧
      (g'.succs nd).length + 1 = (g.succs nd).length := by
  have ht := h true
  have hf := h false
  unfold succs at hi ⊢
  rcases i with - | - | i <;> cases b <;> cases hgt : g.succ nd true <;>
    cases hgf : g.succ nd false <;> simp_all

/-- A successor is replaced: all stay where they are. -/
theorem succs_of_relink {g' : Cfg} {nd m i u : ℕ} {b : Bool} (hi : (g.succs nd)[i]? = some (m, b))
    (h : ∀ b', g'.succ nd b' = if b' = b then some u else g.succ nd b') :
    (g'.succs nd)[i]? = some (u, b) ∧ (g'.succs nd).take i = (g.succs nd).take i ∧
      (g'.succs nd).length = (g.succs nd).length := by
  have ht := h true
  have hf := h false
  unfold succs at hi ⊢
  rcases i with - | - | i <;> cases b <;> cases hgt : g.succ nd true <;>
    cases hgf : g.succ nd false <;> simp_all

theorem step_iff {a b : ℕ} :
    Search.Step (fun nd => (g.succs nd).map Prod.fst) a b ↔ ∃ br, g.succ a br = some b := by
  unfold Search.Step
  rw [List.mem_map]
  constructor
  · rintro ⟨⟨s, br⟩, hmem, rfl⟩
    exact ⟨br, mem_succs.mp hmem⟩
  · rintro ⟨br, hs⟩
    exact ⟨(b, br), mem_succs.mpr hs, rfl⟩

/-- **A node is in a loop if a walk leads back to it.** -/
theorem isInLoop_iff (hg : g.Built) {nd : ℕ} (hnd : nd ∈ g.nodes) :
    g.isInLoop nd = true ↔ ∃ es, es ≠ [] ∧ g.Walk nd es nd := by
  have hU : ∀ x ∈ g.nodes, ∀ y ∈ (g.succs x).map Prod.fst, y ∈ g.nodes := by
    intro x hx y hy
    obtain ⟨br, hs⟩ := step_iff.mp hy
    exact hg.succ_mem x hx br y hs
  have hwalk : ∀ {a b : ℕ}, Relation.TransGen (Search.Step fun nd => (g.succs nd).map Prod.fst) a b ↔
      ∃ es, es ≠ [] ∧ g.Walk a es b := by
    intro a b
    constructor
    · intro h
      induction h with
      | single h =>
        obtain ⟨br, hs⟩ := step_iff.mp h
        exact ⟨[(a, br)], List.cons_ne_nil _ _, walk_single hs⟩
      | tail _ h ih =>
        obtain ⟨es, -, hw⟩ := ih
        obtain ⟨br, hs⟩ := step_iff.mp h
        exact ⟨es ++ [(_, br)], by simp, hw.append (walk_single hs)⟩
    · rintro ⟨es, hne, hw⟩
      induction es generalizing a with
      | nil => exact absurd rfl hne
      | cons e es ih =>
        obtain ⟨rfl, s, hs, hrest⟩ := hw
        cases es with
        | nil => exact (show s = b from hrest) ▸ .single (step_iff.mpr ⟨_, hs⟩)
        | cons e' es => exact .head (step_iff.mpr ⟨_, hs⟩) (ih (List.cons_ne_nil _ _) hrest)
  rw [isInLoop, Search.finds_iff hU hnd]
  constructor
  · rintro ⟨y, hy, heq⟩
    obtain rfl := decide_eq_true_iff.mp heq
    exact hwalk.mp hy
  · intro h
    exact ⟨nd, hwalk.mpr h, decide_eq_true rfl⟩

end Cfg

end NfpEstimator
