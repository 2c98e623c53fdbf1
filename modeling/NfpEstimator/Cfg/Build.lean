import NfpEstimator.Cfg.TopoSort

/-!
# Building the graph

`cfg::build_cfg` makes a node for each instruction of the listing and one for the end of the
program, and links them. An address that is not in the listing stands for the end.

For a listing with one instruction at an address, and one at address 0, this gives a graph
of instructions (`exists_instrGraph`), where each edge is kept at both ends and whoever does
not branch goes on to a higher address (`Shaped`).
-/

namespace NfpEstimator

/-! ### The instruction graph -/

/-- `instr::branch::br_target`. -/
def Instr.brTarget : Instr → ℕ
  | properBranch _ _ target | br _ target => target
  | _ => 0

namespace Cfg

variable (g : Cfg)

/-- `cfg::node::exit_type`. -/
def exitType (nd : ℕ) : InstrType := (g.instrs nd).getLast?.elim .OTHER Instr.type

/-- The address of the last instruction. -/
def lastId (nd : ℕ) : ℕ := (g.instrs nd).getLast?.elim 0 Instr.getId

/-- `cfg::node::next_id`. -/
def nextId (nd : ℕ) : ℕ := g.lastId nd + 1

/-- `cfg::node::br_id`. -/
def brId (nd : ℕ) : ℕ := (g.instrs nd).getLast?.elim 0 Instr.brTarget

/-- The node that an instruction of the listing becomes. -/
def single (n : Instr) : Block := ⟨[n], 0, none, none, []⟩

/-- The nodes of a listing and the final one, without edges. -/
def blank (listing : List Instr) (start : ℕ) : Cfg where
  node nd := single (listing.getD nd .fin)
  nodes := List.range (listing.length + 1)
  start := start
  fin := listing.length

/-- `cfg::init_nodes`. The start is set afterwards. -/
def initNodes (listing : List Instr) : Except String Cfg :=
  match listing.find? fun n => Instr.finID ≤ n.getId with
  | some n => throw s!"instr at addr {n.getId} >= {Instr.finID}"
  | none => return blank listing 0

/-- The map from addresses to nodes in `cfg::build_cfg`. -/
def addresses : Except String (ℕ → Option ℕ) :=
  g.nodes.foldlM (fun map nd =>
    if (map (g.id nd)).isSome then throw s!"multiple instructions at {g.id nd}"
    else return Function.update map (g.id nd) (some nd)) fun _ => none

/-- The node that `cfg::link_nodes` finds for an address. -/
def dstNd (map : ℕ → Option ℕ) (dst : ℕ) : ℕ := (map dst).getD g.fin

/-- `cfg::link_nodes`. -/
def linkNodes (map : ℕ → Option ℕ) (src dst : ℕ) (branchtrue : Bool) : Cfg :=
  g.link src (g.dstNd map dst) branchtrue

/-- `cfg::create_edges`. -/
def createEdges (map : ℕ → Option ℕ) (nd : ℕ) : Except String Cfg :=
  match g.exitType nd with
  | .FIN => if nd ≠ g.fin then throw "unexpected final node" else return g
  | .BRANCH =>
    let g' := g.linkNodes map nd (g.nextId nd) false
    return g'.linkNodes map nd (g.brId nd) true
  | .JUMP => return g.linkNodes map nd (g.brId nd) true
  | _ => return g.linkNodes map nd (g.nextId nd) false

/-- `cfg::build_cfg` up to `cfg::create_edges`. -/
def instrGraph (listing : List Instr) : Except String Cfg := do
  let g ← initNodes listing
  let map ← g.addresses
  match map 0 with
  | none => throw "missing instruction at address 0"
  | some start => g.nodes.foldlM (fun g nd => g.createEdges map nd) { g with start := start }

end Cfg

/-! ### Links -/

namespace Cfg

variable {g : Cfg}

theorem pred_setNode (nd : ℕ) (x : Block) (m : ℕ) :
    (g.setNode nd x).pred m = if m = nd then x.predecessors else g.pred m := by
  unfold pred
  by_cases h : m = nd
  · rw [if_pos h, h, node_setNode_self]
  · rw [if_neg h, node_setNode_of_ne h]

theorem pred_setSucc (nd : ℕ) (b : Bool) (s : Option ℕ) (m : ℕ) :
    (g.setNode nd ((g.node nd).setSucc b s)).pred m = g.pred m := by
  rw [pred_setNode]
  split
  next h => rw [h]; cases b <;> rfl
  · rfl

theorem pred_setPredecessors (nd : ℕ) (ps : List Edge) (m : ℕ) :
    (g.setNode nd { g.node nd with predecessors := ps }).pred m = if m = nd then ps else g.pred m :=
  pred_setNode nd _ m

theorem pred_link (nd s : ℕ) (b : Bool) (m : ℕ) :
    (g.link nd s b).pred m = if m = s then g.pred s ++ [(nd, b)] else g.pred m := by
  unfold link
  rw [pred_setPredecessors, pred_setSucc]
  congr 2
  exact pred_setSucc nd b (some s) s

theorem pred_unlink (nd : ℕ) (b : Bool) (m : ℕ) :
    (g.unlink nd b).pred m =
      if g.succ nd b = some m then (g.pred m).filter (fun e => e ≠ (nd, b)) else g.pred m := by
  unfold unlink
  split
  next h => simp [h]
  next s h =>
    rw [pred_setPredecessors, pred_setSucc]
    simp only [h, Option.some.injEq]
    by_cases hm : m = s
    · rw [if_pos hm, if_pos hm.symm, hm]
      exact congrArg (List.filter _) (pred_setSucc nd b none s)
    · rw [if_neg hm, if_neg (Ne.symm hm)]

/-- Every edge is kept at both ends, once. -/
structure Mirrored (g : Cfg) : Prop where
  mem_pred : ∀ s e, e ∈ g.pred s ↔ g.succ e.1 e.2 = some s
  nodup : ∀ s, (g.pred s).Nodup

theorem Mirrored.link (h : Mirrored g) {nd : ℕ} {b : Bool} (hnone : g.succ nd b = none) (s : ℕ) :
    Mirrored (g.link nd s b) := by
  have hnew : ∀ m, (nd, b) ∉ g.pred m := by
    intro m hmem
    have := (h.mem_pred m (nd, b)).mp hmem
    rw [hnone] at this
    cases this
  constructor
  · intro m e
    rw [pred_link, succ_link]
    by_cases he : e = (nd, b)
    · subst he
      simp only [and_self, if_true, Option.some.injEq]
      split
      next hm => simp [hm]
      next hm => exact iff_of_false (hnew m) (Ne.symm hm)
    · have hne : ¬(e.1 = nd ∧ e.2 = b) := fun h => he (Prod.ext h.1 h.2)
      rw [if_neg hne, ← h.mem_pred m]
      split
      next hm => simp [hm, he]
      · rfl
  · intro m
    rw [pred_link]
    split
    · exact List.Nodup.append (h.nodup s) (List.nodup_singleton _) (by simp [hnew])
    · exact h.nodup m

end Cfg

/-! ### The shape of the graph -/

/-- A listing with one instruction at an address, and one at address 0. -/
structure Listing where
  instrs : List Instr
  below : ∀ n ∈ instrs, n.getId < Instr.finID
  nodup : (instrs.map Instr.getId).Nodup
  zero_mem : 0 ∈ instrs.map Instr.getId

/-- What all passes keep of the nodes that have not been taken away. -/
structure Shaped (g : Cfg) (alive : ℕ → Prop) : Prop where
  start : alive g.start
  closed : ∀ nd, alive nd → ∀ b, ∀ s ∈ g.succ nd b, alive s
  mem_pred : ∀ s, alive s → ∀ e, e ∈ g.pred s ↔ alive e.1 ∧ g.succ e.1 e.2 = some s
  pred_nodup : ∀ s, alive s → (g.pred s).Nodup
  ne_nil : ∀ nd, alive nd → g.instrs nd ≠ []
  succ_true : ∀ nd, alive nd →
    ((g.succ nd true).isSome ↔ g.exitType nd = .BRANCH ∨ g.exitType nd = .JUMP)
  succ_false : ∀ nd, alive nd →
    ((g.succ nd false).isSome ↔ g.exitType nd ≠ .JUMP ∧ g.exitType nd ≠ .FIN)
  id_le : ∀ nd, alive nd → g.id nd ≤ g.lastId nd
  /-- Whoever does not branch goes on to a higher address. -/
  rising : ∀ nd, alive nd → ∀ s ∈ g.succ nd false, g.lastId nd < g.id s
  id_inj : ∀ nd, alive nd → ∀ nd', alive nd' → g.id nd = g.id nd' → nd = nd'
  loopdepth : ∀ nd, alive nd → g.loopdepth nd = 0
  id_start : g.id g.start = 0
  instrs_fin : alive g.fin → g.instrs g.fin = [.fin]
  succ_fin : ∀ b, g.succ g.fin b = none

/-! ### The instruction graph of a listing -/

namespace Cfg

variable {g : Cfg}

/-- The map has all nodes of the list, if their addresses are new. -/
theorem foldlM_addresses (l : List ℕ) (map : ℕ → Option ℕ) (hnodup : (l.map g.id).Nodup)
    (hnew : ∀ nd ∈ l, map (g.id nd) = none) :
    ∃ map', l.foldlM (fun map nd =>
        if (map (g.id nd)).isSome then throw s!"multiple instructions at {g.id nd}"
        else return Function.update map (g.id nd) (some nd)) map = (.ok map' : Except String _) ∧
      (∀ nd ∈ l, map' (g.id nd) = some nd) ∧ ∀ a, a ∉ l.map g.id → map' a = map a := by
  induction l generalizing map with
  | nil => exact ⟨map, rfl, fun _ h => (nomatch h), fun _ _ => rfl⟩
  | cons nd l ih =>
    rw [List.map_cons, List.nodup_cons] at hnodup
    have hnew' : ∀ x ∈ l, Function.update map (g.id nd) (some nd) (g.id x) = none := by
      intro x hx
      have hne : g.id x ≠ g.id nd := fun h => hnodup.1 (h ▸ List.mem_map_of_mem hx)
      rw [Function.update_of_ne hne]
      exact hnew x (List.mem_cons_of_mem _ hx)
    obtain ⟨map', hfold, hmem, hother⟩ := ih _ hnodup.2 hnew'
    refine ⟨map', ?_, ?_, ?_⟩
    · rw [List.foldlM_cons, hnew nd List.mem_cons_self]
      exact hfold
    · refine List.forall_mem_cons.mpr ⟨?_, hmem⟩
      rw [hother _ hnodup.1, Function.update_self]
    · intro a ha
      rw [List.map_cons, List.mem_cons, not_or] at ha
      rw [hother a ha.2, Function.update_of_ne ha.1]

/-- Where the edges out of an instruction lead to. -/
def linkTarget (g : Cfg) (map : ℕ → Option ℕ) (nd : ℕ) (branchtrue : Bool) : Option ℕ :=
  match g.exitType nd, branchtrue with
  | .FIN, _ | .JUMP, false | .MEM, true | .OTHER, true => none
  | .BRANCH, true | .JUMP, true => some (g.dstNd map (g.brId nd))
  | .BRANCH, false | .MEM, false | .OTHER, false => some (g.dstNd map (g.nextId nd))

theorem exists_dstNd {map : ℕ → Option ℕ} {nd s : ℕ} {b : Bool} (h : g.linkTarget map nd b = some s) :
    ∃ a, s = g.dstNd map a := by
  unfold linkTarget at h
  split at h
  case h_1 | h_2 | h_3 | h_4 => cases h
  all_goals exact ⟨_, (Option.some.inj h).symm⟩

theorem linkTarget_true (map : ℕ → Option ℕ) (nd : ℕ) :
    (g.linkTarget map nd true).isSome ↔ g.exitType nd = .BRANCH ∨ g.exitType nd = .JUMP := by
  unfold linkTarget
  cases g.exitType nd <;> simp

theorem linkTarget_false (map : ℕ → Option ℕ) (nd : ℕ) :
    g.linkTarget map nd false = if g.exitType nd ≠ .JUMP ∧ g.exitType nd ≠ .FIN then
      some (g.dstNd map (g.nextId nd)) else none := by
  unfold linkTarget
  cases g.exitType nd <;> simp

theorem createEdges_spec {map : ℕ → Option ℕ} {nd : ℕ} (hm : Mirrored g)
    (hnone : ∀ b, g.succ nd b = none) (hfin : g.exitType nd = .FIN → nd = g.fin) :
    ∃ g', g.createEdges map nd = .ok g' ∧ SameBlocks (fun _ => True) g g' ∧ Mirrored g' ∧
      ∀ m b, g'.succ m b = if m = nd then g.linkTarget map nd b else g.succ m b := by
  have hsucc : ∀ m b, m = nd → g.succ m b = none := fun m b h => h ▸ hnone b
  unfold createEdges linkTarget
  cases hty : g.exitType nd with
  | FIN =>
    refine ⟨g, by simp [hfin hty, pure, Except.pure], .refl _ _, hm, fun m b => ?_⟩
    split
    next h => exact hsucc m b h
    · rfl
  | BRANCH =>
    refine ⟨_, rfl, (sameBlocks_link _ _ _).trans (sameBlocks_link _ _ _),
      (hm.link (hnone false) _).link ?_ _, ?_⟩
    · rw [succ_link, if_neg (by simp), hnone]
    · intro m b
      unfold linkNodes
      rw [succ_link, succ_link]
      by_cases h : m = nd
      · rw [if_pos h]
        cases b <;> simp [h]
        all_goals rfl
      · simp [h]
  | JUMP =>
    refine ⟨_, rfl, sameBlocks_link _ _ _, hm.link (hnone true) _, fun m b => ?_⟩
    unfold linkNodes
    rw [succ_link]
    by_cases h : m = nd
    · cases b <;> simp [h, hnone]
    · simp [h]
  | MEM =>
    refine ⟨_, rfl, sameBlocks_link _ _ _, hm.link (hnone false) _, fun m b => ?_⟩
    unfold linkNodes
    rw [succ_link]
    by_cases h : m = nd
    · cases b <;> simp [h, hnone]
    · simp [h]
  | OTHER =>
    refine ⟨_, rfl, sameBlocks_link _ _ _, hm.link (hnone false) _, fun m b => ?_⟩
    unfold linkNodes
    rw [succ_link]
    by_cases h : m = nd
    · cases b <;> simp [h, hnone]
    · simp [h]

/-- After the edges of some nodes have been made, in a graph that still has the others as they
were. -/
theorem foldlM_createEdges {map : ℕ → Option ℕ} (l : List ℕ) (hl : l.Nodup) {g' : Cfg}
    (hsame : SameBlocks (fun _ => True) g g') (hm : Mirrored g')
    (hnone : ∀ nd ∈ l, ∀ b, g'.succ nd b = none)
    (hfin : ∀ nd ∈ l, g.exitType nd = .FIN → nd = g.fin) :
    ∃ g'', l.foldlM (fun g nd => g.createEdges map nd) g' = .ok g'' ∧
      SameBlocks (fun _ => True) g g'' ∧ Mirrored g'' ∧
      ∀ m b, g''.succ m b = if m ∈ l then g.linkTarget map m b else g'.succ m b := by
  induction l generalizing g' with
  | nil => exact ⟨g', rfl, hsame, hm, fun _ _ => rfl⟩
  | cons nd l ih =>
    rw [List.nodup_cons] at hl
    have hinstrs : ∀ m, g'.instrs m = g.instrs m := fun m => hsame.instrs m trivial
    have hexit : ∀ m, g'.exitType m = g.exitType m := fun m => by rw [exitType, hinstrs]; rfl
    have htarget : ∀ b, g'.linkTarget map nd b = g.linkTarget map nd b := by
      intro b
      simp only [linkTarget, hexit, dstNd, brId, nextId, lastId, hinstrs, hsame.fin]
    obtain ⟨g₁, hg₁, hsame₁, hm₁, hsucc₁⟩ := createEdges_spec hm
      (hnone nd List.mem_cons_self) fun h => by
        rw [hsame.fin]
        exact hfin nd List.mem_cons_self (hexit nd ▸ h)
    have hnone₁ : ∀ x ∈ l, ∀ b, g₁.succ x b = none := by
      intro x hx b
      have hne : x ≠ nd := fun h => hl.1 (h ▸ hx)
      rw [hsucc₁, if_neg hne]
      exact hnone x (List.mem_cons_of_mem _ hx) b
    obtain ⟨g₂, hg₂, hsame₂, hm₂, hsucc₂⟩ := ih hl.2 (hsame.trans hsame₁) hm₁ hnone₁
      fun x hx => hfin x (List.mem_cons_of_mem _ hx)
    refine ⟨g₂, ?_, hsame₂, hm₂, fun m b => ?_⟩
    · rw [List.foldlM_cons, hg₁]
      exact hg₂
    · rw [hsucc₂, hsucc₁]
      by_cases hmem : m ∈ l
      · rw [if_pos hmem, if_pos (List.mem_cons_of_mem _ hmem)]
      · by_cases hmn : m = nd
        · rw [if_neg hmem, if_pos hmn, if_pos (by simp [hmn]), hmn, htarget]
        · rw [if_neg hmem, if_neg hmn, if_neg (by simp [hmn, hmem])]

section

variable (l : Listing) (start : ℕ)

theorem instrs_blank (nd : ℕ) : (blank l.instrs start).instrs nd = [l.instrs.getD nd .fin] := rfl

theorem id_blank (nd : ℕ) : (blank l.instrs start).id nd = (l.instrs.getD nd .fin).getId := rfl

theorem lastId_blank (nd : ℕ) : (blank l.instrs start).lastId nd = (blank l.instrs start).id nd := rfl

theorem mem_blank {nd : ℕ} : nd ∈ (blank l.instrs start).nodes ↔ nd ≤ l.instrs.length := by
  simp [blank]

theorem id_blank_fin : (blank l.instrs start).id l.instrs.length = Instr.finID := by
  simp [id_blank, Instr.getId]

theorem id_blank_lt {nd : ℕ} (h : nd < l.instrs.length) :
    (blank l.instrs start).id nd < Instr.finID := by
  rw [id_blank, List.getD_eq_getElem _ _ h]
  exact l.below _ (List.getElem_mem h)

theorem ids_blank : (blank l.instrs start).nodes.map (blank l.instrs start).id =
    l.instrs.map Instr.getId ++ [Instr.finID] := by
  have hmap : (List.range l.instrs.length).map (blank l.instrs start).id =
      l.instrs.map Instr.getId := by
    refine List.ext_getElem (by simp) fun i hi _ => ?_
    have hi' : i < l.instrs.length := by simpa using hi
    rw [List.getElem_map, List.getElem_map, List.getElem_range, id_blank, List.getD_eq_getElem _ _ hi']
  rw [show (blank l.instrs start).nodes = List.range (l.instrs.length + 1) from rfl,
    List.range_succ, List.map_append, hmap, List.map_singleton, id_blank_fin]

theorem nodup_ids_blank :
    ((blank l.instrs start).nodes.map (blank l.instrs start).id).Nodup := by
  rw [ids_blank]
  refine List.Nodup.append l.nodup (List.nodup_singleton _) ?_
  rintro a ha hfin
  obtain ⟨n, hn, rfl⟩ := List.mem_map.mp ha
  exact absurd (List.mem_singleton.mp hfin) (l.below n hn).ne

theorem id_blank_inj {nd nd' : ℕ} (h : nd ≤ l.instrs.length) (h' : nd' ≤ l.instrs.length)
    (hid : (blank l.instrs start).id nd = (blank l.instrs start).id nd') : nd = nd' :=
  List.inj_on_of_nodup_map (nodup_ids_blank l start) ((mem_blank l start).mpr h)
    ((mem_blank l start).mpr h') hid

theorem exitType_fin : (blank l.instrs start).exitType l.instrs.length = .FIN := by
  rw [exitType, instrs_blank]
  simp [Instr.type]

theorem exitType_blank_fin {nd : ℕ} (hnd : nd ≤ l.instrs.length)
    (h : (blank l.instrs start).exitType nd = .FIN) : nd = l.instrs.length := by
  have hty : (l.instrs.getD nd .fin).type = .FIN := h
  refine id_blank_inj l start hnd le_rfl ?_
  rw [id_blank, id_blank_fin]
  cases hn : l.instrs.getD nd .fin <;> rw [hn] at hty
  case fin => rfl
  all_goals exact nomatch hty

/-- What the map finds: the node of an address, or the end of the program. -/
structure Finds (map : ℕ → Option ℕ) : Prop where
  mem : ∀ nd ∈ (blank l.instrs start).nodes, map ((blank l.instrs start).id nd) = some nd
  none : ∀ a, a ∉ (blank l.instrs start).nodes.map (blank l.instrs start).id → map a = none

variable {l start} {map : ℕ → Option ℕ}

theorem Finds.dstNd (h : Finds l start map) (a : ℕ) :
    (blank l.instrs start).dstNd map a ≤ l.instrs.length ∧
      ((blank l.instrs start).id ((blank l.instrs start).dstNd map a) = a ∨
        (blank l.instrs start).dstNd map a = l.instrs.length) := by
  unfold Cfg.dstNd
  by_cases ha : a ∈ (blank l.instrs start).nodes.map (blank l.instrs start).id
  · obtain ⟨nd, hnd, rfl⟩ := List.mem_map.mp ha
    rw [h.mem nd hnd]
    exact ⟨(mem_blank l start).mp hnd, .inl rfl⟩
  · rw [h.none a ha]
    exact ⟨le_rfl, .inr rfl⟩

/-- The edges of a listing make a graph of the shape that the passes rely on. -/
theorem shaped_of_targets (hstart : start ≤ l.instrs.length)
    (hid : (blank l.instrs start).id start = 0) (hmap : Finds l start map) {g : Cfg}
    (hsame : SameBlocks (fun _ => True) (blank l.instrs start) g) (hm : Mirrored g)
    (hsucc : ∀ m b, g.succ m b =
      if m ∈ (blank l.instrs start).nodes then (blank l.instrs start).linkTarget map m b else none) :
    Shaped g (· ∈ g.nodes) := by
  have hnodes : ∀ nd, nd ∈ g.nodes ↔ nd ≤ l.instrs.length := fun nd => by
    rw [hsame.nodes, mem_blank]
  have hinstrs : ∀ nd, g.instrs nd = [l.instrs.getD nd .fin] := fun nd => hsame.instrs nd trivial
  have hids : ∀ nd, g.id nd = (blank l.instrs start).id nd := fun nd => hsame.id trivial
  have hlast : ∀ nd, g.lastId nd = (blank l.instrs start).id nd := fun nd => by
    rw [lastId, hinstrs]
    rfl
  have hexit : ∀ nd, g.exitType nd = (blank l.instrs start).exitType nd := fun nd => by
    rw [exitType, hinstrs]
    rfl
  have hmem : ∀ m b s, g.succ m b = some s →
      m ∈ g.nodes ∧ (blank l.instrs start).linkTarget map m b = some s := by
    intro m b s h
    rw [hsucc] at h
    split at h
    next hmem => exact ⟨hsame.nodes ▸ hmem, h⟩
    · cases h
  have htarget : ∀ m ∈ g.nodes, ∀ b, g.succ m b = (blank l.instrs start).linkTarget map m b := by
    intro m hm b
    rw [hsucc, if_pos (hsame.nodes ▸ hm)]
  refine ⟨?_, ?_, ?_, ?_, ?_, ?_, ?_, ?_, ?_, ?_, ?_, ?_, ?_, ?_⟩
  · rw [hnodes, hsame.start]
    exact hstart
  · intro nd _ b s hs
    obtain ⟨a, rfl⟩ := exists_dstNd (hmem nd b s hs).2
    rw [hnodes]
    exact (hmap.dstNd a).1
  · intro s _ e
    rw [hm.mem_pred s e]
    exact ⟨fun h => ⟨(hmem e.1 e.2 s h).1, h⟩, fun h => h.2⟩
  · exact fun s _ => hm.nodup s
  · intro nd _
    rw [hinstrs]
    exact List.cons_ne_nil _ _
  · intro nd hnd
    rw [htarget nd hnd, hexit, linkTarget_true]
  · intro nd hnd
    rw [htarget nd hnd, hexit, linkTarget_false]
    split
    next h => exact iff_of_true rfl h
    next h => exact iff_of_false (by simp) h
  · intro nd _
    rw [hids, hlast]
  · intro nd hnd s hs
    rw [htarget nd hnd, linkTarget_false] at hs
    rw [hlast, hids]
    split at hs
    next hty =>
      obtain rfl := Option.some.inj hs
      rcases (hmap.dstNd ((blank l.instrs start).nextId nd)).2 with heq | heq
      · rw [heq, nextId, lastId_blank]
        omega
      · rw [heq, id_blank_fin]
        have hne : nd ≠ l.instrs.length := by
          rintro rfl
          exact hty.2 (exitType_fin l start)
        exact id_blank_lt l start (lt_of_le_of_ne ((hnodes nd).mp hnd) hne)
    · cases hs
  · intro nd hnd nd' hnd' h
    rw [hids, hids] at h
    exact id_blank_inj l start ((hnodes nd).mp hnd) ((hnodes nd').mp hnd') h
  · exact fun nd _ => hsame.loopdepth nd trivial
  · rw [hids, hsame.start]
    exact hid
  · intro _
    rw [hinstrs, hsame.fin]
    simp [blank]
  · intro b
    rw [hsucc, hsame.fin]
    split
    · simp only [linkTarget, show (blank l.instrs start).fin = l.instrs.length from rfl,
        exitType_fin]
    · rfl

end

/-- **Every listing has an instruction graph**, of the shape that the passes rely on. -/
theorem exists_instrGraph (l : Listing) : ∃ g, instrGraph l.instrs = .ok g ∧
    Shaped g (· ∈ g.nodes) ∧ g.nodes = List.range (l.instrs.length + 1) := by
  have hinit : initNodes l.instrs = .ok (blank l.instrs 0) := by
    have hfind : l.instrs.find? (fun n => Instr.finID ≤ n.getId) = none :=
      List.find?_eq_none.mpr fun n hn => by simpa using l.below n hn
    rw [initNodes, hfind]
    rfl
  obtain ⟨map, haddr, hmem, hother⟩ := foldlM_addresses (blank l.instrs 0).nodes (fun _ => none)
    (nodup_ids_blank l 0) fun _ _ => rfl
  obtain ⟨n, hn, hzero⟩ := List.mem_map.mp l.zero_mem
  obtain ⟨start, hstart, rfl⟩ := List.getElem_of_mem hn
  have hid : (blank l.instrs start).id start = 0 := by
    rw [id_blank, List.getD_eq_getElem _ _ hstart, hzero]
  have hmap0 : map 0 = some start := by
    rw [← hid]
    exact hmem start ((mem_blank l 0).mpr hstart.le)
  obtain ⟨g, hfold, hsame, hm, hsucc⟩ := foldlM_createEdges (g := blank l.instrs start)
    (blank l.instrs start).nodes List.nodup_range (.refl _ _)
    ⟨fun s e => iff_of_false (by simp [pred, blank, single]) (by simp [succ, blank, single]),
      fun s => List.nodup_nil⟩
    (fun nd _ b => by cases b <;> rfl)
    fun nd hnd h => exitType_blank_fin l start ((mem_blank l start).mp hnd) h
  refine ⟨g, ?_, shaped_of_targets hstart.le hid ⟨hmem, hother⟩ hsame hm ?_, hsame.nodes⟩
  · have haddr' : (blank l.instrs 0).addresses = .ok map := haddr
    unfold instrGraph
    rw [hinit]
    simp only [bind, Except.bind, haddr', hmap0]
    exact hfold
  · intro m b
    rw [hsucc]
    split
    · rfl
    · cases b <;> rfl

end Cfg

end NfpEstimator
