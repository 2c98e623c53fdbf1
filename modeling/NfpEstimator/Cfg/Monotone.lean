import NfpEstimator.Cfg.Accounting
import NfpEstimator.Cfg.Underestimate

/-!
# The order of the reported paths

`cfg::next_k` takes paths from the edges into a node in the order of their predicted
costs, which include the last instruction of the block they leave. For the result to be
sorted the queue of each edge has to be sorted by these costs, but it is filled in the
order of the costs without that instruction.

If the paths into a block are in the same order behind every edge, whatever is reported
later has no more cycles than what has been reported before (`enumerate_sorted`). In
general this is not so (`enumerate_not_sorted`).
-/

namespace NfpEstimator

/-! ### States of queues -/

/-- The cycle count of a path, by its state. -/
theorem maxCycles_of_state {p q : Path} (h : p.state = q.state) : p.maxCycles = q.maxCycles := by
  cases hq : q.state with
  | none =>
    rw [Path.isNone_iff.mp (Path.isNone_iff_state.mpr hq),
      Path.isNone_iff.mp (Path.isNone_iff_state.mpr (h.trans hq))]
  | some w => rw [Path.maxCycles_eq hq, Path.maxCycles_eq (h.trans hq)]

theorem maxCyclesBy_of_state {g : Cfg} {d : Instructions} {p q : Path} (h : p.state = q.state)
    (b : Bool) : p.maxCyclesBy g d b = q.maxCyclesBy g d b := by
  cases hq : q.state with
  | none =>
    rw [Path.isNone_iff.mp (Path.isNone_iff_state.mpr hq),
      Path.isNone_iff.mp (Path.isNone_iff_state.mpr (h.trans hq))]
  | some w => rw [Path.maxCyclesBy_eq hq, Path.maxCyclesBy_eq (h.trans hq)]

/-- Extending a path makes its cycle count the predicted one. -/
theorem maxCycles_extend (g : Cfg) (d : Instructions) (sat b : Bool) (p : Path) :
    (p.extend g d sat b).maxCycles = p.maxCyclesBy g d b := by
  have hs := Path.state_extend g d sat b p
  cases hp : p.state with
  | none =>
    rw [Path.isNone_iff.mp (Path.isNone_iff_state.mpr hp)]
    rfl
  | some w =>
    rw [hp, Option.map_some] at hs
    rw [Path.maxCycles_eq hs, Path.maxCyclesBy_eq hp, WithState.extend_maxCycles]

/-- The states of `ps` are among those of `qs`, in the same order. -/
def StatesOf (ps qs : List Path) : Prop := (ps.map Path.state).Sublist (qs.map Path.state)

theorem StatesOf.refl (ps : List Path) : StatesOf ps ps := List.Sublist.refl _

theorem StatesOf.exists {ps qs : List Path} (h : StatesOf ps qs) {p : Path} (hp : p ∈ ps) :
    ∃ q ∈ qs, q.state = p.state := by
  obtain ⟨q, hq, hs⟩ := List.mem_map.mp (h.subset (List.mem_map_of_mem hp))
  exact ⟨q, hq, hs⟩

/-- At a seam only the state of the first of two merged paths is left. -/
theorem statesOf_join (ps qs : List Path) : StatesOf (join ps qs) (ps ++ qs) := by
  rcases join_cases ps qs with hj | ⟨ps', back, front, rest, m, rfl, rfl, hm, hj⟩
  · rw [hj]
    exact .refl _
  · have hs : m.state = front.state := by
      rcases Path.merge_eq_some hm with ⟨rfl, rfl, rfl⟩ | ⟨i, j, rfl, rfl, rfl⟩ <;> rfl
    unfold StatesOf
    rw [hj, List.append_assoc, List.map_append, List.map_append, List.map_cons, hs]
    exact (List.sublist_cons_self _ _).append_left _

/-- The paths are listed by decreasing cycle count. -/
def Decreasing (ps : List Path) : Prop := ps.Pairwise fun p q => q.maxCycles ≤ p.maxCycles

theorem Decreasing.of_states {ps qs : List Path} (h : Decreasing qs) (hs : StatesOf ps qs) :
    Decreasing ps := by
  have hcost : ∀ p : Path, (p.state.elim 0 WithState.maxCycles) = p.maxCycles := by
    intro p
    cases p <;> rfl
  have hiff : ∀ l : List Path, Decreasing l ↔ (l.map Path.state).Pairwise fun s t =>
      t.elim 0 WithState.maxCycles ≤ s.elim 0 WithState.maxCycles := by
    intro l
    simp only [Decreasing, List.pairwise_map, hcost]
  rw [hiff] at h ⊢
  exact h.sublist hs

theorem Decreasing.append_singleton {ps : List Path} (h : Decreasing ps) {p : Path}
    (hp : ∀ q ∈ ps, p.maxCycles ≤ q.maxCycles) : Decreasing (ps ++ [p]) := by
  refine List.pairwise_append.mpr ⟨h, List.pairwise_singleton _ _, ?_⟩
  intro q hq r hr
  rw [List.mem_singleton.mp hr]
  exact hp q hq

/-! ### What waits at an edge -/

/-- The paths that are to be extended along an edge, in this order. -/
abbrev Contents.waiting (c : Contents) (e : Edge) : List Path := c.q (.edge e) ++ c.staging e

theorem waiting_absorb (c : Contents) (e e' : Edge) :
    StatesOf ((c.absorb e).waiting e') (c.waiting e') := by
  obtain ⟨hself, hother, -⟩ := c.absorb_effect e
  by_cases he : e' = e
  · subst he
    rw [Contents.waiting, hself.1, hself.2, List.append_nil]
    exact statesOf_join _ _
  · rw [Contents.waiting, (hother e' he).1, (hother e' he).2]
    exact .refl _

section

variable {g : Cfg} {d : Instructions} {γ : Type*} [LinearOrder γ] {S : Option Path → Bool → γ}
  {c : Contents} {sl : Slot} {m : Edge} {p : Path} {ps : List Path}

theorem Contents.Takes.waiting_behind (hg : g.LoopFree) (h : c.Takes g S sl m p ps) (sat : Bool)
    {e : Edge} (he : g.IsEdge e) (hnd : e.1 = sl.nd g) :
    StatesOf ((c.produce g d sl m p ps sat).waiting e)
      (c.waiting e ++ [p.extend g d sat m.2]) := by
  unfold Contents.waiting
  rcases h.behind hg d sat he hnd with ⟨hsle, hq, hs⟩ | ⟨hq, hs⟩ <;> rw [hq, hs]
  · rw [h.own e hsle, List.append_nil, List.append_nil]
    exact statesOf_join _ _
  · rw [List.append_assoc, StatesOf, List.map_append, List.map_append]
    exact (statesOf_join _ _).append_left _

theorem Contents.Takes.waiting_other (hg : g.LoopFree) (h : c.Takes g S sl m p ps) (sat : Bool)
    {e : Edge} (hnd : e.1 ≠ sl.nd g) :
    ((c.produce g d sl m p ps sat).waiting e).Sublist (c.waiting e) := by
  unfold Contents.waiting
  by_cases hem : e = m
  · subst hem
    obtain ⟨hq, hs⟩ := h.taken hg d sat
    rw [hq, hs, h.front]
    exact (List.sublist_cons_self _ _).append_right _
  · obtain ⟨hq, hs⟩ := c.produce_other d p ps sat hnd hem
    rw [hq, hs]

end

/-! ### The invariant -/

/-- The invariant behind the order: `B nd` bounds the cycles of everything that has yet to
come to `nd`, and what has come there has at least as many. -/
structure Sorted (g : Cfg) (firmware : ℕ) (B : ℕ → WithTop ℕ) (N : ℕ → Prop) (R : List Path)
    (c : Contents) : Prop where
  above : ∀ e, g.IsEdge e → ∀ p ∈ c.waiting e, B e.1 ≤ p.maxCycles
  decreasing : ∀ e, g.IsEdge e → Decreasing (c.waiting e)
  above_output : ∀ p ∈ R ++ c.q .output, B g.fin ≤ p.maxCycles
  decreasing_output : Decreasing (R ++ c.q .output)
  /-- What waits at an edge is within the bound behind it. -/
  below : ∀ e, g.IsEdge e → ∀ t, g.succ e.1 e.2 = some t → ∀ p ∈ c.waiting e,
    (p.maxCyclesBy g g.overestimateCycles e.2 : WithTop ℕ) ≤ B t
  /-- So is what has yet to come to the edge. -/
  below_later : ∀ e, g.IsEdge e → ∀ t, g.succ e.1 e.2 = some t → ¬N e.1 → ∀ es,
    g.Walk g.start es e.1 → ((g.pathAlong firmware es).maxCycles : WithTop ℕ) ≤ B e.1 →
    ((g.pathAlong firmware es).maxCyclesBy g g.overestimateCycles e.2 : WithTop ℕ) ≤ B t

section

variable {g : Cfg} {firmware : ℕ} {B : ℕ → WithTop ℕ} {N : ℕ → Prop} {R : List Path} {c : Contents}

theorem Sorted.absorb (ho : Sorted g firmware B N R c) (e : Edge) :
    Sorted g firmware B N R (c.absorb e) := by
  obtain ⟨-, -, hout⟩ := c.absorb_effect e
  refine ⟨?_, ?_, hout ▸ ho.above_output, hout ▸ ho.decreasing_output, ?_, ho.below_later⟩
  · intro e' he' p hp
    obtain ⟨q, hq, hs⟩ := (waiting_absorb c e e').exists hp
    rw [← maxCycles_of_state hs]
    exact ho.above e' he' q hq
  · exact fun e' he' => (ho.decreasing e' he').of_states (waiting_absorb c e e')
  · intro e' he' t ht p hp
    obtain ⟨q, hq, hs⟩ := (waiting_absorb c e e').exists hp
    rw [← maxCyclesBy_of_state hs]
    exact ho.below e' he' t ht q hq

theorem Sorted.emit (ho : Sorted g firmware B N R c) :
    Sorted g firmware B N (R ++ c.q .output) (c.setQ .output []) := by
  have hw : ∀ e, (c.setQ .output []).waiting e = c.waiting e := by
    intro e
    rw [Contents.waiting, c.setQ_q_of_ne (by simp), c.setQ_staging]
  have hout : R ++ c.q .output ++ (c.setQ .output []).q .output = R ++ c.q .output := by
    rw [c.setQ_q_self, List.append_nil]
  refine ⟨?_, ?_, ?_, ?_, ?_, ho.below_later⟩
  · exact fun e he => (hw e).symm ▸ ho.above e he
  · exact fun e he => (hw e).symm ▸ ho.decreasing e he
  · rw [hout]
    exact ho.above_output
  · rw [hout]
    exact ho.decreasing_output
  · exact fun e he => (hw e).symm ▸ ho.below e he

/-- Of two paths into a block the one with more cycles has more behind the block. -/
theorem maxCyclesBy_le_of_keepsOrder (hk : g.KeepsOrder firmware) {e : Edge} (he : g.IsEdge e)
    {p q : Path} (hp : At g firmware e.1 p) (hq : At g firmware e.1 q) (hreal : q.isNone = false)
    (hle : p.maxCycles ≤ q.maxCycles) :
    p.maxCyclesBy g g.overestimateCycles e.2 ≤ q.maxCyclesBy g g.overestimateCycles e.2 := by
  cases hps : p.state with
  | none =>
    rw [Path.isNone_iff.mp (Path.isNone_iff_state.mpr hps)]
    exact Nat.zero_le _
  | some w =>
    cases hqs : q.state with
    | none =>
      rw [Path.isNone_iff_state.mpr hqs] at hreal
      exact nomatch hreal
    | some w' =>
      obtain ⟨es, hw, rfl⟩ := hp w hps
      obtain ⟨es', hw', rfl⟩ := hq w' hqs
      rw [Path.maxCycles_eq hps, Path.maxCycles_eq hqs] at hle
      rw [Path.maxCyclesBy_eq hps, Path.maxCyclesBy_eq hqs]
      exact hk e he.2 es es' hw hw' hle

/-- Behind `none` nothing waits at an edge. -/
theorem Queued.waiting_of_none (h : Queued g firmware N c) {e : Edge} (he : g.IsEdge e)
    {xs : List Path} (hw : c.waiting e = .none :: xs) : xs = [] := by
  have hmem : Path.none ∈ c.waiting e := hw ▸ List.mem_cons_self
  have hN : N e.1 := by
    by_contra hN
    exact h.no_none e he hN hmem
  rcases h.ends e he hN with ⟨l, hl, hnot⟩ | hnil
  · have hl : .none :: xs = l ++ [Path.none] := hw.symm.trans hl
    cases l with
    | nil => exact (List.cons.inj hl).2
    | cons y l =>
      obtain ⟨rfl, -⟩ := List.cons.inj hl
      exact absurd List.mem_cons_self hnot
  · exact absurd (hw.symm.trans hnil) (List.cons_ne_nil _ _)

section

variable {sl : Slot} {m : Edge} {p : Path} {ps : List Path} (hg : g.LoopFree)
  (h : Queued g firmware N c) (ho : Sorted g firmware B N R c)
  (hk : g.KeepsOrder firmware)
  (ht : c.Takes g (MAX_CYCLES g g.overestimateCycles) sl m p ps) (sat : Bool)

/-- What comes to the node now. -/
def costOf (g : Cfg) (p : Path) (m : Edge) : ℕ := p.maxCyclesBy g g.overestimateCycles m.2

include hg h ho hk ht in
/-- The path that is taken costs no less than what waits at the edges into the node. -/
theorem waiting_le_costOf {e : Edge} (hmem : e ∈ g.pred (sl.nd g)) {q : Path}
    (hq : q ∈ c.waiting e) : q.maxCyclesBy g g.overestimateCycles e.2 ≤ costOf g p m := by
  have he := isEdge_of_pred hg (ht.mem_nodes hg) hmem
  obtain ⟨x, xs, hx⟩ := List.exists_cons_of_ne_nil (ht.nonempty e hmem)
  have hw : c.waiting e = x :: (xs ++ c.staging e) := by rw [Contents.waiting, hx, List.cons_append]
  have hfront : x.maxCyclesBy g g.overestimateCycles e.2 ≤ costOf g p m := by
    have hle := ht.longest e hmem
    rw [hx] at hle
    exact hle
  rcases List.mem_cons.mp (hw ▸ hq) with rfl | hq'
  · exact hfront
  have hreal : x.isNone = false := by
    by_contra hnone
    rw [Bool.not_eq_false] at hnone
    obtain rfl := Path.isNone_iff.mp hnone
    rw [h.waiting_of_none he hw] at hq'
    exact List.not_mem_nil hq'
  have hle : q.maxCycles ≤ x.maxCycles := by
    have hdec := ho.decreasing e he
    rw [hw, Decreasing, List.pairwise_cons] at hdec
    exact hdec.1 q hq'
  refine le_trans ?_ hfront
  exact maxCyclesBy_le_of_keepsOrder hk he (h.at_edge e he q hq)
    (h.at_edge e he x (by rw [hx]; simp)) hreal hle

include hg h ho hk ht in
/-- What has yet to come to an edge into the node costs no more than the path that is taken. -/
theorem later_le_costOf {e : Edge} (hmem : e ∈ g.pred (sl.nd g)) (hN : ¬N e.1) {es : List Edge}
    (hw : g.Walk g.start es e.1)
    (hle : ((g.pathAlong firmware es).maxCycles : WithTop ℕ) ≤ B e.1) :
    (g.pathAlong firmware es).maxCyclesBy g g.overestimateCycles e.2 ≤ costOf g p m := by
  have he := isEdge_of_pred hg (ht.mem_nodes hg) hmem
  obtain ⟨x, xs, hx⟩ := List.exists_cons_of_ne_nil (ht.nonempty e hmem)
  have hxw : x ∈ c.waiting e := by rw [Contents.waiting, hx]; simp
  cases hs : x.state with
  | none =>
    obtain rfl := Path.isNone_iff.mp (Path.isNone_iff_state.mpr hs)
    exact absurd hxw (h.no_none e he hN)
  | some w =>
    obtain ⟨es', hw', rfl⟩ := h.at_edge e he x hxw w hs
    have hxle : (g.pathAlong firmware es).maxCycles ≤ (g.pathAlong firmware es').maxCycles := by
      have := hle.trans (ho.above e he x hxw)
      rw [Path.maxCycles_eq hs] at this
      exact_mod_cast this
    refine (hk e he.2 es es' hw hw' hxle).trans ?_
    rw [← Path.maxCyclesBy_eq hs]
    exact waiting_le_costOf hg h ho hk ht hmem hxw

include hg ho ht in
/-- What comes to the node now is within the bound of the node. -/
theorem costOf_le : (costOf g p m : WithTop ℕ) ≤ B (sl.nd g) :=
  ho.below m (ht.isEdge hg) _ (ht.succ_eq hg) p (by rw [Contents.waiting, ht.front]; simp)

/-- What has yet to come to the nodes after `p` has been taken from `m`. -/
def bounded (g : Cfg) (B : ℕ → WithTop ℕ) (nd : ℕ) (p : Path) (m : Edge) : ℕ → WithTop ℕ :=
  Function.update B nd (costOf g p m)

theorem bounded_self (nd : ℕ) : bounded g B nd p m nd = costOf g p m := Function.update_self _ _ _

theorem bounded_of_ne {nd nd' : ℕ} (hne : nd' ≠ nd) : bounded g B nd p m nd' = B nd' :=
  Function.update_of_ne hne _ _

include hg ho ht in
theorem bounded_le (nd : ℕ) : bounded g B (sl.nd g) p m nd ≤ B nd := by
  by_cases hnd : nd = sl.nd g
  · rw [hnd, bounded_self]
    exact costOf_le hg ho ht
  · rw [bounded_of_ne hnd]

include ht in
/-- Whatever waits at an edge behind the node waited there before, or comes there now. -/
theorem waiting_produce (hg : g.LoopFree) {e : Edge} (he : g.IsEdge e) {x : Path}
    (hx : x ∈ (c.produce g g.overestimateCycles sl m p ps sat).waiting e) :
    (∃ x' ∈ c.waiting e, x'.state = x.state) ∨
      e.1 = sl.nd g ∧ (p.extend g g.overestimateCycles sat m.2).state = x.state := by
  by_cases hnd : e.1 = sl.nd g
  · obtain ⟨x', hx', hs⟩ := (ht.waiting_behind hg sat he hnd).exists hx
    rcases List.mem_append.mp hx' with hx' | hx'
    · exact .inl ⟨x', hx', hs⟩
    · exact .inr ⟨hnd, List.mem_singleton.mp hx' ▸ hs⟩
  · exact .inl ⟨x, (ht.waiting_other hg sat hnd).subset hx, rfl⟩

include hg ho ht in
theorem Sorted.above_produce {e : Edge} (he : g.IsEdge e) {x : Path}
    (hx : x ∈ (c.produce g g.overestimateCycles sl m p ps sat).waiting e) :
    bounded g B (sl.nd g) p m e.1 ≤ x.maxCycles := by
  rcases waiting_produce ht sat hg he hx with ⟨x', hx', hs⟩ | ⟨hnd, hs⟩
  · rw [← maxCycles_of_state hs]
    exact (bounded_le hg ho ht e.1).trans (ho.above e he x' hx')
  · rw [← maxCycles_of_state hs, maxCycles_extend, hnd, bounded_self]
    exact le_rfl

include hg ho ht in
theorem Sorted.decreasing_produce {e : Edge} (he : g.IsEdge e) :
    Decreasing ((c.produce g g.overestimateCycles sl m p ps sat).waiting e) := by
  by_cases hnd : e.1 = sl.nd g
  · refine Decreasing.of_states ?_ (ht.waiting_behind hg sat he hnd)
    refine (ho.decreasing e he).append_singleton fun q hq => ?_
    rw [maxCycles_extend]
    have hle := (costOf_le hg ho ht).trans (hnd ▸ ho.above e he q hq)
    exact_mod_cast hle
  · exact List.Pairwise.sublist (ht.waiting_other hg sat hnd) (ho.decreasing e he)

include hg ho ht in
/-- What is put out now has no more cycles than what has been put out before. -/
theorem Sorted.output_produce :
    (∀ q ∈ R ++ (c.produce g g.overestimateCycles sl m p ps sat).q .output,
      bounded g B (sl.nd g) p m g.fin ≤ q.maxCycles) ∧
    Decreasing (R ++ (c.produce g g.overestimateCycles sl m p ps sat).q .output) := by
  have habove : ∀ q ∈ R ++ c.q .output, bounded g B (sl.nd g) p m g.fin ≤ q.maxCycles :=
    fun q hq => (bounded_le hg ho ht g.fin).trans (ho.above_output q hq)
  rw [Contents.produce_output]
  split
  next hsl =>
    subst hsl
    have hbound : bounded g B (Slot.nd g .output) p m g.fin = costOf g p m := bounded_self _
    have hstates : StatesOf (R ++ join (c.q .output) [p.extend g g.overestimateCycles sat m.2])
        (R ++ c.q .output ++ [p.extend g g.overestimateCycles sat m.2]) := by
      rw [List.append_assoc, StatesOf, List.map_append, List.map_append]
      exact (statesOf_join _ _).append_left _
    constructor
    · intro q hq
      obtain ⟨q', hq', hs⟩ := hstates.exists hq
      rw [← maxCycles_of_state hs]
      rcases List.mem_append.mp hq' with hq' | hq'
      · exact habove q' hq'
      · rw [List.mem_singleton.mp hq', maxCycles_extend, hbound]
        exact le_rfl
    · refine Decreasing.of_states (ho.decreasing_output.append_singleton fun q hq => ?_) hstates
      rw [maxCycles_extend]
      have hle := hbound ▸ habove q hq
      exact_mod_cast hle
  · exact ⟨habove, ho.decreasing_output⟩

/-- An edge into the node is not one behind it. -/
theorem ne_of_succ (hg : g.LoopFree) {e : Edge} (he : g.IsEdge e) {t : ℕ}
    (hs : g.succ e.1 e.2 = some t) : e.1 ≠ t := by
  intro heq
  have hlt := hg.forward _ he.1 e.2 t hs
  rw [← heq] at hlt
  exact lt_irrefl _ hlt

include hg h ho hk ht in
theorem Sorted.below_produce {e : Edge} (he : g.IsEdge e) {t : ℕ}
    (hs : g.succ e.1 e.2 = some t) {x : Path}
    (hx : x ∈ (c.produce g g.overestimateCycles sl m p ps sat).waiting e) :
    (x.maxCyclesBy g g.overestimateCycles e.2 : WithTop ℕ) ≤ bounded g B (sl.nd g) p m t := by
  rcases waiting_produce ht sat hg he hx with ⟨x', hx', hstate⟩ | ⟨hnd, hstate⟩
  · rw [← maxCyclesBy_of_state hstate]
    by_cases ht' : t = sl.nd g
    · subst ht'
      have hle := waiting_le_costOf hg h ho hk ht (hg.succ_pred e.1 he.1 e.2 _ hs) hx'
      rw [bounded_self]
      exact_mod_cast hle
    · rw [bounded_of_ne ht']
      exact ho.below e he t hs x' hx'
  · -- what comes to the node was announced to the edges behind it
    rw [bounded_of_ne fun heq => ne_of_succ hg he hs (hnd.trans heq.symm)]
    have hcost : x.maxCycles = costOf g p m := by
      rw [← maxCycles_of_state hstate, maxCycles_extend]
      rfl
    have hat : At g firmware e.1 x := by
      intro w hw
      rw [← hstate] at hw
      exact hnd ▸ (h.at_taken hg ht).extend sat (ht.succ_eq hg) w hw
    cases hxs : x.state with
    | none =>
      rw [Path.isNone_iff.mp (Path.isNone_iff_state.mpr hxs)]
      exact (bot_le : (⊥ : WithTop ℕ) ≤ _)
    | some w =>
      obtain ⟨es, hw, rfl⟩ := hat w hxs
      rw [Path.maxCyclesBy_eq hxs]
      refine ho.below_later e he t hs (hnd ▸ h.not_reached hg ht) es hw ?_
      rw [← Path.maxCycles_eq hxs, hcost, hnd]
      exact costOf_le hg ho ht

include hg h ho hk ht in
theorem Sorted.below_later_produce {e : Edge} (he : g.IsEdge e) {t : ℕ}
    (hs : g.succ e.1 e.2 = some t) (hN : ¬reached N p (sl.nd g) e.1) {es : List Edge}
    (hw : g.Walk g.start es e.1)
    (hle : ((g.pathAlong firmware es).maxCycles : WithTop ℕ) ≤ bounded g B (sl.nd g) p m e.1) :
    ((g.pathAlong firmware es).maxCyclesBy g g.overestimateCycles e.2 : WithTop ℕ) ≤
      bounded g B (sl.nd g) p m t := by
  have hN : ¬N e.1 := fun hN' => hN (.inl hN')
  have hle := hle.trans (bounded_le hg ho ht e.1)
  by_cases ht' : t = sl.nd g
  · subst ht'
    have := later_le_costOf hg h ho hk ht (hg.succ_pred e.1 he.1 e.2 _ hs) hN hw hle
    rw [bounded_self]
    exact_mod_cast this
  · rw [bounded_of_ne ht']
    exact ho.below_later e he t hs hN es hw hle

include hg h ho hk ht in
/-- **Taking a path keeps the order.** -/
theorem Sorted.produce :
    Sorted g firmware (bounded g B (sl.nd g) p m) (reached N p (sl.nd g)) R
      (c.produce g g.overestimateCycles sl m p ps sat) where
  above _ he _ hx := ho.above_produce hg ht sat he hx
  decreasing _ he := ho.decreasing_produce hg ht sat he
  above_output := (ho.output_produce hg ht sat).1
  decreasing_output := (ho.output_produce hg ht sat).2
  below _ he _ hs _ hx := Sorted.below_produce hg h ho hk ht sat he hs hx
  below_later _ he _ hs hN _ hw hle := Sorted.below_later_produce hg h ho hk ht he hs hN hw hle

end

/-! ### The whole enumeration -/

/-- Before the first batch only the start is bounded: nothing more comes there. -/
theorem sorted_init (hg : g.LoopFree) (firmware : ℕ)
    (answers : ℕ → Bool) :
    Sorted g firmware (Function.update (fun _ => ⊤) g.start ⊥) (· = g.start) []
      (Queues.init g firmware answers).contents := by
  obtain ⟨hq, hst⟩ := contents_init g firmware answers
  have hwait : ∀ e, g.IsEdge e → (Queues.init g firmware answers).contents.waiting e =
      if e.1 = g.start then [.possible (g.startPath firmware) [], .none] else [] := by
    intro e he
    rw [Contents.waiting, hq, hst e he, List.nil_append]
  have htop : ∀ e, g.IsEdge e → ∀ t, g.succ e.1 e.2 = some t →
      Function.update (fun _ => (⊤ : WithTop ℕ)) g.start ⊥ t = ⊤ := by
    intro e he t hs
    refine Function.update_of_ne ?_ _ _
    rintro rfl
    have hmem := hg.succ_pred e.1 he.1 e.2 _ hs
    rw [hg.pred_start] at hmem
    exact List.not_mem_nil hmem
  refine ⟨?_, ?_, ?_, ?_, ?_, ?_⟩
  · intro e he p hp
    rw [hwait e he] at hp
    by_cases hs : e.1 = g.start
    · rw [hs, Function.update_self]
      exact bot_le
    · rw [if_neg hs] at hp
      exact absurd hp List.not_mem_nil
  · intro e he
    rw [hwait e he]
    split
    · exact List.pairwise_pair.mpr (Nat.zero_le _)
    · exact List.Pairwise.nil
  · intro p hp
    rw [hq] at hp
    exact absurd hp List.not_mem_nil
  · rw [hq]
    exact List.Pairwise.nil
  · intro e he t hs p _
    rw [htop e he t hs]
    exact le_top
  · intro e he t hs _ es _ _
    rw [htop e he t hs]
    exact le_top

/-- Checking a path does not change its cycle count. -/
theorem Checked.decreasing {ps rs : List Path} (h : Checked ps rs) (hd : Decreasing ps) :
    Decreasing rs := by
  refine hd.of_states ?_
  have hs : rs.map Path.state = ps.map Path.state := by
    induction h with
    | nil => rfl
    | cons hp _ ih =>
      obtain ⟨sat, rfl⟩ := hp
      rw [List.map_cons, List.map_cons, Path.state_check, ih (List.pairwise_cons.mp hd).2]
  rw [StatesOf, hs]

end

/-- **Paths are reported by decreasing cycle count**, if the paths into a block are in the same
order behind every branch. -/
theorem enumerate_sorted (g : LoopFreeCfg) {firmware fuel count : ℕ} {ks : List Batch}
    {answers : ℕ → Bool} {rs : List Path} (hk : g.KeepsOrder firmware)
    (h : g.enumerateByPacketrate firmware fuel count ks answers = some rs) :
    Decreasing rs := by
  have hg := g.loopFree
  rcases reports_or_fin_ne_start h with rfl | ⟨-, h⟩
  · exact List.Pairwise.nil
  have hstep : ∀ R c c', (∃ N B, Queued g.toCfg firmware N c ∧ Sorted g.toCfg firmware B N R c) →
      Contents.Step g.toCfg g.overestimateCycles (MAX_CYCLES g.toCfg g.overestimateCycles) c c' →
      ∃ N B, Queued g.toCfg firmware N c' ∧ Sorted g.toCfg firmware B N R c' := by
    rintro R c c' ⟨N, B, hqueued, hsort⟩ hstep
    cases hstep with
    | absorb e he => exact ⟨N, B, hqueued.absorb e, hsort.absorb e⟩
    | produce sl m p ps sat ht =>
      exact ⟨_, _, hqueued.produce hg ht sat, Sorted.produce hg hqueued hsort hk ht sat⟩
  have hemit : ∀ R c, (∃ N B, Queued g.toCfg firmware N c ∧ Sorted g.toCfg firmware B N R c) →
      ∃ N B, Queued g.toCfg firmware N (c.setQ .output []) ∧
        Sorted g.toCfg firmware B N (R ++ c.q .output) (c.setQ .output []) := by
    rintro R c ⟨N, B, hqueued, hsort⟩
    exact ⟨N, B, hqueued.emit, hsort.emit⟩
  obtain ⟨ps, c, ⟨N, B, -, hsort⟩, hout, hchecked⟩ := enumerateLoop_induction hg hstep hemit
    ⟨_, _, queued_init _ firmware answers, sorted_init hg firmware answers⟩
    ((contents_init _ _ _).1 .output) h
  have hdec := hsort.decreasing_output
  rw [hout, List.append_nil] at hdec
  exact hchecked.decreasing hdec

/-- Batches of one path. -/
abbrev oneByOne (n : ℕ) : List Batch := List.replicate n ⟨1, by decide⟩

theorem waitOnce_enumerate :
    waitOnce.enumerateByPacketrate 10 20 20 (oneByOne 4) (fun _ => true) =
      some [.possible ⟨some (2, false), 30⟩ [(0, true), (2, false)],
        .possible ⟨some (2, false), 28⟩ [(0, false), (1, false), (2, false)], .none] := by
  decide +kernel

theorem enumerate_sorted_waitOnce :
    Decreasing [.possible ⟨some (2, false), 30⟩ [(0, true), (2, false)],
      .possible ⟨some (2, false), 28⟩ [(0, false), (1, false), (2, false)], .none] :=
  enumerate_sorted ⟨waitOnce, waitOnce_loopFree⟩ waitOnce_keepsOrder waitOnce_enumerate

theorem slowOrBusy_enumerate :
    slowOrBusy.enumerateByPacketrate 10 20 20 (oneByOne 4) (fun _ => true) =
      some [.possible ⟨some (3, false), 28⟩ [(0, false), (1, false), (3, false)],
        .possible ⟨some (3, false), 31⟩ [(0, true), (2, false), (3, false)], .none] := by
  decide +kernel

/-- The path that is slower up to the join is reported first, the other one has more cycles. -/
theorem enumerate_not_sorted :
    ∃ (g : LoopFreeCfg) (ks : List Batch) (rs : List Path),
      g.enumerateByPacketrate 10 20 20 ks (fun _ => true) = some rs ∧ ¬Decreasing rs := by
  refine ⟨⟨slowOrBusy, slowOrBusy_loopFree⟩, oneByOne 4, _, slowOrBusy_enumerate, ?_⟩
  intro h
  exact absurd ((List.pairwise_cons.mp h).1 _ List.mem_cons_self) (by decide)

end NfpEstimator
