import NfpEstimator.Cfg.Transfer

/-!
# Every path is reported once

The invariant of the enumeration is a balance for each edge: the paths that have come
to the node that it leaves are those that have been extended along it, those in its
queue and those left for it (`Accounts.edge`). The path `none` follows behind all
others. It comes to a node only when it is at the front of all edges into the node, and
then nothing is missing behind the node (`Accounts.closed`). This is so because no other path
is predicted to have as few cycles as `none`, as long as the 32 bits of the sums do not wrap
around to 0 (`Cfg.NeverZero`).

The main result is that when `none` is reported, every path through the program has
been reported exactly once, as a possible path or as one of those that an impossible
path counts (`enumerate_accounts`).
-/

namespace NfpEstimator

/-! ### What a list of paths stands for -/

/-- The paths that a list of path objects stands for. -/
def accounts (ps : List Path) : Multiset (List Edge) := (ps.flatMap Path.accounted : List (List Edge))

@[simp] theorem accounts_nil : accounts [] = 0 := rfl

theorem accounts_cons (p : Path) (ps : List Path) :
    accounts (p :: ps) = (p.accounted : Multiset (List Edge)) + accounts ps := by
  rw [accounts, List.flatMap_cons, ← Multiset.coe_add, accounts]

theorem accounts_append (ps qs : List Path) : accounts (ps ++ qs) = accounts ps + accounts qs := by
  rw [accounts, List.flatMap_append, ← Multiset.coe_add, accounts, accounts]

theorem accounts_singleton (p : Path) : accounts [p] = (p.accounted : Multiset (List Edge)) := by
  rw [accounts_cons, accounts_nil, add_zero]

@[simp] theorem accounts_join (ps qs : List Path) :
    accounts (join ps qs) = accounts ps + accounts qs := by
  rcases join_cases ps qs with hj | ⟨ps', back, front, rest, m, rfl, rfl, hm, hj⟩
  · rw [hj, accounts_append]
  simp only [hj, accounts_append, accounts_cons, accounts_nil, add_zero]
  rcases Path.merge_eq_some hm with ⟨rfl, rfl, rfl⟩ | ⟨i, j, rfl, rfl, rfl⟩
  · simp only [Path.accounted, Multiset.coe_nil, zero_add, add_zero]
  · simp only [Path.accounted, Impossible.merge, ← Multiset.coe_add]
    abel

/-- Joining makes no new states. -/
theorem exists_of_mem_join {ps qs : List Path} {p : Path} (h : p ∈ join ps qs) :
    ∃ p' ∈ ps ++ qs, p'.state = p.state := by
  rcases join_cases ps qs with hj | ⟨ps', back, front, rest, m, rfl, rfl, hm, hj⟩
  · exact ⟨p, hj ▸ h, rfl⟩
  rw [hj] at h
  rcases List.mem_append.mp h with h | h
  · exact ⟨p, by simp [h], rfl⟩
  rcases List.mem_cons.mp h with rfl | h
  · refine ⟨front, by simp, ?_⟩
    rcases Path.merge_eq_some hm with ⟨rfl, rfl, rfl⟩ | ⟨i, j, rfl, rfl, rfl⟩ <;> rfl
  · exact ⟨p, by simp [h], rfl⟩

theorem none_mem_join {ps qs : List Path} (h : Path.none ∈ join ps qs) : Path.none ∈ ps ++ qs := by
  obtain ⟨p, hp, hs⟩ := exists_of_mem_join h
  rwa [Path.isNone_iff.mp (Path.isNone_iff_state.mpr (hs.trans rfl))] at hp

theorem join_none {ps : List Path} (h : Path.none ∉ ps) : join ps [Path.none] = ps ++ [Path.none] := by
  rcases join_cases ps [Path.none] with hj | ⟨ps', back, front, rest, m, rfl, hq, hm, hj⟩
  · exact hj
  · obtain ⟨rfl, -⟩ := List.cons.inj hq
    rcases Path.merge_eq_some hm with ⟨-, rfl, -⟩ | ⟨i, j, h', -⟩
    · exact absurd (List.mem_append_right _ List.mem_cons_self) h
    · exact nomatch h'

/-- `none` is the last path of the list, and nowhere else. -/
def EndsWithNone (ps : List Path) : Prop := ∃ ps', ps = ps' ++ [Path.none] ∧ Path.none ∉ ps'

theorem EndsWithNone.join {ps qs : List Path} (h : EndsWithNone (ps ++ qs)) :
    EndsWithNone (join ps qs) := by
  rcases join_cases ps qs with hj | ⟨ps', back, front, rest, m, rfl, rfl, hm, hj⟩
  · rwa [hj]
  rw [hj]
  obtain ⟨l, hl, hnone⟩ := h
  -- the first of the merged paths is not the last one, so none of them is `none`
  rcases List.eq_nil_or_concat rest with rfl | ⟨rest', z, rfl⟩
  · have hl : (ps' ++ [back]) ++ [front] = l ++ [Path.none] := hl
    obtain ⟨rfl, hz⟩ := List.append_inj' hl rfl
    obtain rfl := List.cons.inj hz |>.1
    rcases Path.merge_eq_some hm with ⟨-, rfl, -⟩ | ⟨i, j, h, -⟩
    · exact absurd (List.mem_append_right _ List.mem_cons_self) hnone
    · exact nomatch h
  · rw [List.concat_eq_append] at hl ⊢
    have hl : (ps' ++ [back] ++ front :: rest') ++ [z] = l ++ [Path.none] := by
      rw [← hl]
      simp
    obtain ⟨rfl, hz⟩ := List.append_inj' hl rfl
    obtain rfl := List.cons.inj hz |>.1
    refine ⟨ps' ++ m :: rest', by simp, ?_⟩
    rcases Path.merge_eq_some hm with ⟨rfl, -, -⟩ | ⟨i, j, rfl, rfl, rfl⟩
    · exact absurd (by simp) hnone
    · simpa using hnone

/-! ### The balance -/

/-- The path object has come to the node along edges of the graph. -/
def At (g : Cfg) (firmware nd : ℕ) (p : Path) : Prop :=
  ∀ w ∈ p.state, ∃ es, g.Walk g.start es nd ∧ w = g.pathAlong firmware es

/-- The paths that have come to a node when `T e` have been extended along `e`. -/
def produced (g : Cfg) (T : Edge → Multiset (List Edge)) (nd : ℕ) : Multiset (List Edge) :=
  if nd = g.start then {[]} else ((g.pred nd).map fun e => (T e).map (· ++ [e])).sum

/-- What holds of the queues whatever the costs are: paths wait where they have come to, `none`
has come to the nodes `N` and is the last path to do so, and an edge into such a node has nothing
left. -/
structure Queued (g : Cfg) (firmware : ℕ) (N : ℕ → Prop) (c : Contents) : Prop where
  at_edge : ∀ e, g.IsEdge e → ∀ p ∈ c.q (.edge e) ++ c.staging e, At g firmware e.1 p
  start : N g.start
  ends : ∀ e, g.IsEdge e → N e.1 → EndsWithNone (c.q (.edge e) ++ c.staging e) ∨
    c.q (.edge e) ++ c.staging e = []
  no_none : ∀ e, g.IsEdge e → ¬N e.1 → Path.none ∉ c.q (.edge e) ++ c.staging e
  drained : ∀ t ∈ g.nodes, N t → t ≠ g.start →
    ∃ e ∈ g.pred t, N e.1 ∧ c.q (.edge e) = [] ∧ c.staging e = []

/-- The invariant of the enumeration: `T e` are the paths that have been extended along
`e`, and `R` has been handed out. -/
structure Accounts (g : Cfg) (firmware : ℕ) (T : Edge → Multiset (List Edge)) (N : ℕ → Prop)
    (R : List Path) (c : Contents) : Prop extends Queued g firmware N c where
  edge : ∀ e, g.IsEdge e →
    produced g T e.1 = T e + accounts (c.q (.edge e)) + accounts (c.staging e)
  output : produced g T g.fin = accounts R + accounts (c.q .output)
  closed : ∀ t ∈ g.nodes, N t → ∀ e ∈ g.pred t, N e.1 ∧ T e = produced g T e.1
  output_none : Path.none ∈ R ++ c.q .output → N g.fin

section

variable {g : Cfg} {firmware : ℕ} {T : Edge → Multiset (List Edge)} {N : ℕ → Prop} {R : List Path}
  {c : Contents}

theorem produced_start : produced g T g.start = {[]} := if_pos rfl

theorem append_singleton_injective (e : Edge) :
    Function.Injective fun es : List Edge => es ++ [e] :=
  fun _ _ h => List.append_cancel_right h

theorem count_sum_extended {l : List Edge} (hl : l.Nodup) (es : List Edge) (e : Edge) :
    ((l.map fun e' => (T e').map (· ++ [e'])).sum).count (es ++ [e]) =
      if e ∈ l then (T e).count es else 0 := by
  induction l with
  | nil => rfl
  | cons e' l ih =>
    obtain ⟨hnot, hl⟩ := List.nodup_cons.mp hl
    rw [List.map_cons, List.sum_cons, Multiset.count_add, ih hl]
    by_cases he : e = e'
    · subst he
      rw [if_neg hnot, if_pos List.mem_cons_self, Nat.add_zero]
      exact Multiset.count_map_eq_count' _ _ (append_singleton_injective e) es
    · have hzero : ((T e').map (· ++ [e'])).count (es ++ [e]) = 0 := by
        rw [Multiset.count_eq_zero]
        intro hmem
        obtain ⟨es', -, h⟩ := Multiset.mem_map.mp hmem
        exact he (List.cons.inj (List.append_inj' h rfl).2).1.symm
      rw [hzero, Nat.zero_add]
      simp [he]

theorem count_produced_append (hg : g.LoopFree) {nd : ℕ} (hnd : nd ∈ g.nodes) (es : List Edge)
    (e : Edge) :
    (produced g T nd).count (es ++ [e]) = if e ∈ g.pred nd then (T e).count es else 0 := by
  unfold produced
  split
  next h =>
    subst h
    rw [hg.pred_start, if_neg List.not_mem_nil, Multiset.count_eq_zero, Multiset.mem_singleton]
    exact List.append_ne_nil_of_right_ne_nil _ (List.cons_ne_nil _ _)
  · exact count_sum_extended (hg.pred_nodup nd hnd) es e

theorem count_produced_nil (nd : ℕ) :
    (produced g T nd).count [] = if nd = g.start then 1 else 0 := by
  unfold produced
  split
  · rfl
  · rw [Multiset.count_eq_zero]
    induction g.pred nd with
    | nil => exact Multiset.notMem_zero _
    | cons e l ih =>
      rw [List.map_cons, List.sum_cons, Multiset.mem_add]
      rintro (h | h)
      · obtain ⟨es', -, h⟩ := Multiset.mem_map.mp h
        exact absurd h (List.append_ne_nil_of_right_ne_nil _ (List.cons_ne_nil _ _))
      · exact ih h

/-- Only paths that have come to a node have been extended from there. -/
theorem Accounts.extended_le (h : Accounts g firmware T N R c) {e : Edge} (he : g.IsEdge e) :
    T e ≤ produced g T e.1 := by
  rw [h.edge e he, add_assoc]
  exact Multiset.le_add_right _ _

/-- No path comes to a node twice. -/
theorem Accounts.count_le_one (hg : g.LoopFree) (h : Accounts g firmware T N R c) {nd : ℕ}
    (hnd : nd ∈ g.nodes) (es : List Edge) : (produced g T nd).count es ≤ 1 := by
  induction es using List.reverseRecOn generalizing nd with
  | nil =>
    rw [count_produced_nil]
    split <;> omega
  | append_singleton es e ih =>
    rw [count_produced_append hg hnd]
    split
    next hmem =>
      have he := isEdge_of_pred hg hnd hmem
      exact (Multiset.count_le_of_le es (h.extended_le he)).trans (ih he.1)
    · exact Nat.zero_le _

/-- Only walks from the start come to a node. -/
theorem Accounts.walk_of_mem (hg : g.LoopFree) (h : Accounts g firmware T N R c) {nd : ℕ}
    (hnd : nd ∈ g.nodes) {es : List Edge} (hes : es ∈ produced g T nd) :
    g.Walk g.start es nd := by
  induction es using List.reverseRecOn generalizing nd with
  | nil =>
    rw [← Multiset.count_pos, count_produced_nil] at hes
    by_cases hs : nd = g.start
    · exact hs.symm
    · rw [if_neg hs] at hes
      exact absurd hes (lt_irrefl 0)
  | append_singleton es e ih =>
    rw [← Multiset.count_pos, count_produced_append hg hnd] at hes
    by_cases hmem : e ∈ g.pred nd
    · rw [if_pos hmem, Multiset.count_pos] at hes
      have he := isEdge_of_pred hg hnd hmem
      have hw := ih he.1 (Multiset.mem_of_le (h.extended_le he) hes)
      exact hw.append (Cfg.walk_single (hg.pred_succ nd hnd e hmem).2)
    · rw [if_neg hmem] at hes
      exact absurd hes (lt_irrefl 0)

/-- Every walk to a node has come there before `none` does. -/
theorem Accounts.mem_of_walk (hg : g.LoopFree) (h : Accounts g firmware T N R c) {nd : ℕ}
    (hnd : nd ∈ g.nodes) (hN : N nd) {es : List Edge} (hw : g.Walk g.start es nd) :
    es ∈ produced g T nd := by
  induction es using List.reverseRecOn generalizing nd with
  | nil =>
    obtain rfl : g.start = nd := hw
    rw [← Multiset.count_pos, count_produced_nil, if_pos rfl]
    exact Nat.one_pos
  | append_singleton es e ih =>
    obtain ⟨mid, hw', rfl, s, hs, rfl⟩ := hw.of_append
    have hmid := hw'.mem hg hg.start_mem
    have hmem := hg.succ_pred e.1 hmid e.2 s hs
    obtain ⟨hN', hT⟩ := h.closed s hnd hN e hmem
    have hes := ih hmid hN' hw'
    rw [← Multiset.count_pos, count_produced_append hg hnd, if_pos hmem, hT, Multiset.count_pos]
    exact hes

theorem produced_update (hg : g.LoopFree) {nd : ℕ} (hnd : nd ∈ g.nodes) (m : Edge)
    (X : Multiset (List Edge)) :
    produced g (Function.update T m (T m + X)) nd =
      produced g T nd + if m ∈ g.pred nd then X.map (· ++ [m]) else 0 := by
  ext es
  rw [Multiset.count_add]
  rcases List.eq_nil_or_concat es with rfl | ⟨es, e, rfl⟩
  · rw [count_produced_nil, count_produced_nil]
    have hzero : (if m ∈ g.pred nd then X.map (· ++ [m]) else 0).count [] = 0 := by
      rw [Multiset.count_eq_zero]
      split
      · intro hmem
        obtain ⟨es', -, h⟩ := Multiset.mem_map.mp hmem
        exact absurd h (List.append_ne_nil_of_right_ne_nil _ (List.cons_ne_nil _ _))
      · exact Multiset.notMem_zero _
    rw [hzero, Nat.add_zero]
  · rw [List.concat_eq_append, count_produced_append hg hnd, count_produced_append hg hnd]
    by_cases hem : e = m
    · subst hem
      rw [Function.update_self]
      split
      · rw [Multiset.count_add, Multiset.count_map_eq_count' _ _ (append_singleton_injective e)]
      · rfl
    · rw [Function.update_of_ne hem]
      have hzero : (if m ∈ g.pred nd then X.map (· ++ [m]) else 0).count (es ++ [e]) = 0 := by
        rw [Multiset.count_eq_zero]
        split
        · intro hmem
          obtain ⟨es', -, h⟩ := Multiset.mem_map.mp hmem
          exact hem (List.cons.inj (List.append_inj' h rfl).2).1.symm
        · exact Multiset.notMem_zero _
      rw [hzero, Nat.add_zero]

/-! ### Steps -/

theorem Queued.absorb (h : Queued g firmware N c) (e : Edge) : Queued g firmware N (c.absorb e) := by
  obtain ⟨hself, hother, -⟩ := c.absorb_effect e
  refine ⟨?_, h.start, ?_, ?_, ?_⟩
  · intro e' he' p hp
    by_cases hee : e' = e
    · subst hee
      rw [hself.1, hself.2, List.append_nil] at hp
      obtain ⟨p', hp', hs⟩ := exists_of_mem_join hp
      intro w hw
      exact h.at_edge e' he' p' hp' w (hs ▸ hw)
    · rw [(hother e' hee).1, (hother e' hee).2] at hp
      exact h.at_edge e' he' p hp
  · intro e' he' hN
    by_cases hee : e' = e
    · subst hee
      rw [hself.1, hself.2, List.append_nil]
      rcases h.ends e' he' hN with hends | hnil
      · exact .inl hends.join
      · obtain ⟨h₁, h₂⟩ := List.append_eq_nil_iff.mp hnil
        rw [h₁, h₂]
        exact .inr rfl
    · rw [(hother e' hee).1, (hother e' hee).2]
      exact h.ends e' he' hN
  · intro e' he' hN
    by_cases hee : e' = e
    · subst hee
      rw [hself.1, hself.2, List.append_nil]
      exact fun hmem => h.no_none e' he' hN (none_mem_join hmem)
    · rw [(hother e' hee).1, (hother e' hee).2]
      exact h.no_none e' he' hN
  · intro t ht hN hs
    obtain ⟨e', he', hNe, h₁, h₂⟩ := h.drained t ht hN hs
    refine ⟨e', he', hNe, ?_⟩
    by_cases hee : e' = e
    · subst hee
      rw [hself.1, hself.2, h₁, h₂]
      exact ⟨rfl, rfl⟩
    · rw [(hother e' hee).1, (hother e' hee).2]
      exact ⟨h₁, h₂⟩

theorem Accounts.absorb (h : Accounts g firmware T N R c) (e : Edge) :
    Accounts g firmware T N R (c.absorb e) := by
  obtain ⟨hself, hother, hout⟩ := c.absorb_effect e
  refine ⟨h.toQueued.absorb e, ?_, hout ▸ h.output, h.closed, hout ▸ h.output_none⟩
  intro e' he'
  by_cases hee : e' = e
  · subst hee
    rw [hself.1, hself.2, accounts_join, accounts_nil, add_zero, ← add_assoc]
    exact h.edge e' he'
  · rw [(hother e' hee).1, (hother e' hee).2]
    exact h.edge e' he'

/-- Extending a path object extends the paths that it stands for. -/
theorem accounts_extend (sat : Bool) {m : Edge} {p : Path} (hp : At g firmware m.1 p) :
    accounts [p.extend g g.overestimateCycles sat m.2] = (accounts [p]).map (· ++ [m]) := by
  rw [accounts_singleton, accounts_singleton, Multiset.map_coe]
  cases hs : p.state with
  | none =>
    obtain rfl := Path.isNone_iff.mp (Path.isNone_iff_state.mpr hs)
    rfl
  | some w =>
    obtain ⟨es, hw, rfl⟩ := hp w hs
    rw [Path.accounted_extend g _ sat m.2 hs, WithState.next, target_pathAlong firmware hw]
    rfl

/-- An extended path object has come to the node behind the edge. -/
theorem At.extend {nd : ℕ} (sat : Bool) {m : Edge} {p : Path} (hp : At g firmware m.1 p)
    (hs : g.succ m.1 m.2 = some nd) :
    At g firmware nd (p.extend g g.overestimateCycles sat m.2) := by
  intro w' hw'
  rw [Path.state_extend] at hw'
  obtain ⟨w, hw, rfl⟩ := Option.map_eq_some_iff.mp hw'
  obtain ⟨es, hwalk, rfl⟩ := hp w hw
  exact ⟨es ++ [m], hwalk.append (Cfg.walk_single hs), (pathAlong_append_singleton _ _ _).symm⟩

/-- The metric puts `none` behind all other paths. -/
def NoneLast {γ : Type*} [LinearOrder γ] (g : Cfg) (firmware : ℕ) (S : Option Path → Bool → γ) :
    Prop :=
  ∀ e, g.IsEdge e → ∀ p, At g firmware e.1 p → p.isNone = false → ∀ b,
    S (some .none) b < S (some p) e.2

/-- What has been extended along the edges after `p` has been taken from `m`. -/
def extended (T : Edge → Multiset (List Edge)) (m : Edge) (p : Path) :
    Edge → Multiset (List Edge) :=
  Function.update T m (T m + accounts [p])

/-- The nodes that `none` has come to after `p` has come to `nd`. -/
def reached (N : ℕ → Prop) (p : Path) (nd : ℕ) : ℕ → Prop :=
  fun nd' => N nd' ∨ p.isNone = true ∧ nd' = nd

section

variable {γ : Type*} [LinearOrder γ] {S : Option Path → Bool → γ} {sl : Slot} {m : Edge} {p : Path}
  {ps : List Path} (hg : g.LoopFree) (h : Queued g firmware N c)
  (ht : c.Takes g S sl m p ps) (sat : Bool)
include hg h ht

theorem Queued.at_taken : At g firmware m.1 p :=
  h.at_edge m (ht.isEdge hg) p (by rw [ht.front]; simp)

/-- Nothing comes to a node after `none`. -/
theorem Queued.not_reached : ¬N (sl.nd g) := by
  intro hN
  have hs : sl.nd g ≠ g.start := by
    intro hs
    have hmem := ht.pred
    rw [hs, hg.pred_start] at hmem
    exact List.not_mem_nil hmem
  obtain ⟨e, he, -, hnil, -⟩ := h.drained _ (ht.mem_nodes hg) hN hs
  exact ht.nonempty e he hnil

theorem Queued.at_edge_produce {e : Edge} (he : g.IsEdge e) {x : Path}
    (hx : x ∈ (c.produce g g.overestimateCycles sl m p ps sat).q (.edge e) ++
      (c.produce g g.overestimateCycles sl m p ps sat).staging e) : At g firmware e.1 x := by
  by_cases hnd : e.1 = sl.nd g
  · have hx' : ∃ x' ∈ c.q (.edge e) ++ c.staging e ++ [p.extend g g.overestimateCycles sat m.2],
        x'.state = x.state := by
      rcases ht.behind hg g.overestimateCycles sat he hnd with ⟨-, hq, hs⟩ | ⟨hq, hs⟩ <;>
        rw [hq, hs] at hx <;> rcases List.mem_append.mp hx with hx | hx
      · obtain ⟨x', hx', hstate⟩ := exists_of_mem_join hx
        exact ⟨x', by simp at hx' ⊢; tauto, hstate⟩
      · exact ⟨x, by simp [hx], rfl⟩
      · exact ⟨x, by simp [hx], rfl⟩
      · obtain ⟨x', hx', hstate⟩ := exists_of_mem_join hx
        exact ⟨x', by simp at hx' ⊢; tauto, hstate⟩
    obtain ⟨x', hx', hstate⟩ := hx'
    intro w hw
    rw [← hstate] at hw
    rcases List.mem_append.mp hx' with hx' | hx'
    · exact h.at_edge e he x' hx' w hw
    · rw [List.mem_singleton.mp hx'] at hw
      exact hnd ▸ (h.at_taken hg ht).extend sat (ht.succ_eq hg) w hw
  · by_cases hem : e = m
    · subst hem
      obtain ⟨hq, hs⟩ := ht.taken hg g.overestimateCycles sat
      rw [hq, hs] at hx
      refine h.at_edge e he x ?_
      rw [ht.front]
      exact List.mem_cons_of_mem _ hx
    · obtain ⟨hq, hs⟩ := c.produce_other g.overestimateCycles p ps sat hnd hem
      rw [hq, hs] at hx
      exact h.at_edge e he x hx

omit hg h ht in
theorem isNone_of_extend (hx : p.extend g g.overestimateCycles sat m.2 = .none) :
    p.isNone = true := by
  rw [← Path.isNone_extend g g.overestimateCycles sat m.2 p, hx]
  rfl

theorem Queued.ends_produce {e : Edge} (he : g.IsEdge e) (hN : reached N p (sl.nd g) e.1) :
    let c' := c.produce g g.overestimateCycles sl m p ps sat
    EndsWithNone (c'.q (.edge e) ++ c'.staging e) ∨ c'.q (.edge e) ++ c'.staging e = [] := by
  dsimp only
  by_cases hnd : e.1 = sl.nd g
  · have hNt := h.not_reached hg ht
    have hnone : p.isNone = true := hN.elim (fun hN => absurd (hnd ▸ hN) hNt) fun hN => hN.1
    obtain rfl := Path.isNone_iff.mp hnone
    have hnot := h.no_none e he (hnd ▸ hNt)
    left
    rcases ht.behind hg g.overestimateCycles sat he hnd with ⟨hsle, hq, hs⟩ | ⟨hq, hs⟩ <;> rw [hq, hs]
    · rw [ht.own e hsle, List.append_nil]
      exact ⟨_, join_none fun hmem => hnot (List.mem_append_left _ hmem), fun hmem =>
        hnot (List.mem_append_left _ hmem)⟩
    · refine ⟨c.q (.edge e) ++ c.staging e, ?_, hnot⟩
      rw [List.append_assoc]
      exact congrArg _ (join_none fun hmem => hnot (List.mem_append_right _ hmem))
  · have hN : N e.1 := hN.elim id fun hN => absurd hN.2 hnd
    by_cases hem : e = m
    · subst hem
      obtain ⟨hq, hs⟩ := ht.taken hg g.overestimateCycles sat
      rw [hq, hs]
      have hends := h.ends e he hN
      rw [ht.front] at hends
      rcases hends with ⟨l, hl, hnot⟩ | hnil
      · cases l with
        | nil => exact .inr (List.cons.inj hl).2
        | cons y l =>
          exact .inl ⟨l, (List.cons.inj hl).2, fun hmem => hnot (List.mem_cons_of_mem _ hmem)⟩
      · exact nomatch hnil
    · obtain ⟨hq, hs⟩ := c.produce_other g.overestimateCycles p ps sat hnd hem
      rw [hq, hs]
      exact h.ends e he hN

theorem Queued.no_none_produce {e : Edge} (he : g.IsEdge e)
    (hN : ¬reached N p (sl.nd g) e.1) :
    let c' := c.produce g g.overestimateCycles sl m p ps sat
    Path.none ∉ c'.q (.edge e) ++ c'.staging e := by
  dsimp only
  rw [reached, not_or, not_and] at hN
  have hnot := h.no_none e he hN.1
  by_cases hnd : e.1 = sl.nd g
  · have hreal : p.extend g g.overestimateCycles sat m.2 ≠ .none :=
      fun hx => hN.2 (isNone_of_extend sat hx) hnd
    have hx : Path.none ∉ c.q (.edge e) ++ c.staging e ++
        [p.extend g g.overestimateCycles sat m.2] := by
      intro hmem
      rcases List.mem_append.mp hmem with hmem | hmem
      · exact hnot hmem
      · exact hreal (List.mem_singleton.mp hmem).symm
    intro hmem
    apply hx
    rcases ht.behind hg g.overestimateCycles sat he hnd with ⟨-, hq, hs⟩ | ⟨hq, hs⟩ <;>
      rw [hq, hs] at hmem <;> rcases List.mem_append.mp hmem with hmem | hmem
    · have := none_mem_join hmem
      simp at this ⊢
      tauto
    · simp [hmem]
    · simp [hmem]
    · have := none_mem_join hmem
      simp at this ⊢
      tauto
  · by_cases hem : e = m
    · subst hem
      obtain ⟨hq, hs⟩ := ht.taken hg g.overestimateCycles sat
      rw [hq, hs]
      rw [ht.front] at hnot
      exact fun hmem => hnot (List.mem_cons_of_mem _ hmem)
    · obtain ⟨hq, hs⟩ := c.produce_other g.overestimateCycles p ps sat hnd hem
      rw [hq, hs]
      exact hnot

theorem Queued.drained_produce {t : ℕ} (hmem : t ∈ g.nodes) (hN : reached N p (sl.nd g) t) (hs : t ≠ g.start) :
    let c' := c.produce g g.overestimateCycles sl m p ps sat
    ∃ e ∈ g.pred t, reached N p (sl.nd g) e.1 ∧ c'.q (.edge e) = [] ∧ c'.staging e = [] := by
  rcases hN with hN | ⟨hnone, rfl⟩
  · obtain ⟨e, he, hNe, h₁, h₂⟩ := h.drained t hmem hN hs
    have hem : e ≠ m := by
      rintro rfl
      have hfront := ht.front
      rw [h₁] at hfront
      exact nomatch hfront
    have hnd : e.1 ≠ sl.nd g := fun heq => h.not_reached hg ht (heq ▸ hNe)
    obtain ⟨hq, hs⟩ := c.produce_other g.overestimateCycles p ps sat hnd hem
    exact ⟨e, he, .inl hNe, hq.trans h₁, hs.trans h₂⟩
  · -- `none` was the last path of the edge that it has been taken from
    obtain rfl := Path.isNone_iff.mp hnone
    have he := ht.isEdge hg
    have hNm : N m.1 := by
      by_contra hN
      exact h.no_none m he hN (by rw [ht.front]; simp)
    obtain ⟨hq, hs⟩ := ht.taken hg g.overestimateCycles sat
    refine ⟨m, ht.pred, .inl hNm, ?_⟩
    have hends := h.ends m he hNm
    rw [ht.front, List.cons_append] at hends
    rcases hends with ⟨l, hl, hnot⟩ | hnil
    · cases l with
      | nil => rwa [hq, hs, ← List.append_eq_nil_iff, ← List.cons_inj_right Path.none]
      | cons y l =>
        obtain ⟨rfl, -⟩ := List.cons.inj hl
        exact absurd List.mem_cons_self hnot
    · exact nomatch hnil

/-- Taking a path keeps what holds whatever the costs are. -/
theorem Queued.produce :
    Queued g firmware (reached N p (sl.nd g)) (c.produce g g.overestimateCycles sl m p ps sat) where
  at_edge _ he _ hx := h.at_edge_produce hg ht sat he hx
  start := .inl h.start
  ends _ he hN := h.ends_produce hg ht sat he hN
  no_none _ he hN := h.no_none_produce hg ht sat he hN
  drained _ hmem hN hs := h.drained_produce hg ht sat hmem hN hs

/-- Where `none` is taken, it is all that the edges into the node have left. -/
theorem Queued.all_none (hS : NoneLast g firmware S) (hp : p.isNone = true) :
    ∀ e ∈ g.pred (sl.nd g), N e.1 ∧ c.q (.edge e) = [.none] ∧ c.staging e = [] := by
  intro e hmem
  obtain rfl := Path.isNone_iff.mp hp
  have he := isEdge_of_pred hg (ht.mem_nodes hg) hmem
  obtain ⟨x, xs, hq⟩ := List.exists_cons_of_ne_nil (ht.nonempty e hmem)
  have hx : x = .none := by
    rw [← Path.isNone_iff]
    by_contra hreal
    rw [Bool.not_eq_true] at hreal
    have hat := h.at_edge e he x (by rw [hq]; simp)
    have hle := ht.longest e hmem
    rw [hq] at hle
    exact absurd hle (not_le.mpr (hS e he x hat hreal m.2))
  subst hx
  have hN : N e.1 := by
    by_contra hN
    exact h.no_none e he hN (by rw [hq]; simp)
  refine ⟨hN, ?_⟩
  rcases h.ends e he hN with ⟨l, hl, hnot⟩ | hnil
  · cases l with
    | nil =>
      obtain ⟨h₁, h₂⟩ | ⟨h₁, h₂⟩ := List.append_eq_singleton_iff.mp hl
      · exact absurd h₁ (ht.nonempty e hmem)
      · exact ⟨h₁, h₂⟩
    | cons y l =>
      rw [hq] at hl
      obtain ⟨rfl, -⟩ := List.cons.inj hl
      exact absurd List.mem_cons_self hnot
  · rw [hq] at hnil
    exact nomatch hnil

end

/-! ### The balance after a step -/

section

variable {γ : Type*} [LinearOrder γ] {S : Option Path → Bool → γ} {sl : Slot} {m : Edge} {p : Path}
  {ps : List Path} (hg : g.LoopFree) (h : Accounts g firmware T N R c)
  (ht : c.Takes g S sl m p ps) (sat : Bool)
include hg h ht

omit h in
/-- The edge that a path is taken from leads to one node only. -/
theorem nd_eq_of_pred {nd : ℕ} (hnd : nd ∈ g.nodes) (hmem : m ∈ g.pred nd) : nd = sl.nd g :=
  Option.some.inj ((hg.pred_succ nd hnd m hmem).2.symm.trans (ht.succ_eq hg))

omit h in
theorem produced_same {nd : ℕ} (hnd : nd ∈ g.nodes) (hne : nd ≠ sl.nd g) :
    produced g (extended T m p) nd = produced g T nd := by
  rw [extended, produced_update hg hnd, if_neg, add_zero]
  exact fun hmem => hne (nd_eq_of_pred hg ht hnd hmem)

theorem produced_grown :
    produced g (extended T m p) (sl.nd g) =
      produced g T (sl.nd g) + accounts [p.extend g g.overestimateCycles sat m.2] := by
  rw [extended, produced_update hg (ht.mem_nodes hg), if_pos ht.pred,
    accounts_extend sat (h.at_taken hg ht)]

theorem Accounts.edge_produce {e : Edge} (he : g.IsEdge e) :
    let c' := c.produce g g.overestimateCycles sl m p ps sat
    produced g (extended T m p) e.1 =
      extended T m p e + accounts (c'.q (.edge e)) + accounts (c'.staging e) := by
  dsimp only
  by_cases hnd : e.1 = sl.nd g
  · have hem : e ≠ m := fun heq => ht.ne_nd hg (heq ▸ hnd)
    rw [hnd, produced_grown hg h ht sat, extended, Function.update_of_ne hem, ← hnd, h.edge e he]
    rcases ht.behind hg g.overestimateCycles sat he hnd with ⟨-, hq, hs⟩ | ⟨hq, hs⟩ <;>
      rw [hq, hs, accounts_join] <;> abel
  · rw [produced_same hg ht he.1 hnd, h.edge e he, extended]
    by_cases hem : e = m
    · subst hem
      obtain ⟨hq, hs⟩ := ht.taken hg g.overestimateCycles sat
      rw [Function.update_self, hq, hs, ht.front, accounts_cons, accounts_singleton]
      abel
    · obtain ⟨hq, hs⟩ := c.produce_other g.overestimateCycles p ps sat hnd hem
      rw [Function.update_of_ne hem, hq, hs]

theorem Accounts.output_produce :
    produced g (extended T m p) g.fin =
      accounts R + accounts ((c.produce g g.overestimateCycles sl m p ps sat).q .output) := by
  rw [Contents.produce_output]
  cases sl with
  | output =>
    rw [if_pos rfl, accounts_join, ← add_assoc, ← h.output]
    exact produced_grown hg h ht sat
  | edge e =>
    have hfin : g.fin ≠ Slot.nd g (.edge e) := by
      intro heq
      have hsome : (g.succ e.1 e.2).isSome := ht.slot.2
      rw [show e.1 = g.fin from heq.symm, hg.succ_fin] at hsome
      exact nomatch hsome
    rw [if_neg (by simp), produced_same hg ht hg.fin_mem hfin]
    exact h.output

theorem Accounts.closed_produce (hS : NoneLast g firmware S) {t : ℕ} (hmem : t ∈ g.nodes)
    (hN : reached N p (sl.nd g) t) {e : Edge} (he : e ∈ g.pred t) :
    reached N p (sl.nd g) e.1 ∧ extended T m p e = produced g (extended T m p) e.1 := by
  have hedge := isEdge_of_pred hg hmem he
  have hNt := h.not_reached hg ht
  rcases hN with hN | ⟨hnone, rfl⟩
  · obtain ⟨hNe, hT⟩ := h.closed t hmem hN e he
    have hem : e ≠ m := by
      rintro rfl
      exact hNt (nd_eq_of_pred hg ht hmem he ▸ hN)
    rw [produced_same hg ht hedge.1 fun heq => hNt (heq ▸ hNe), extended, Function.update_of_ne hem]
    exact ⟨.inl hNe, hT⟩
  · obtain ⟨hNe, hq, hs⟩ := h.all_none hg ht hS hnone e he
    have hT : extended T m p = T := by
      rw [extended, accounts_singleton, Path.isNone_iff.mp hnone]
      exact (congrArg _ (add_zero (T m))).trans (Function.update_eq_self m T)
    have hbalance := h.edge e hedge
    rw [hq, hs, accounts_singleton] at hbalance
    rw [hT, hbalance]
    exact ⟨.inl hNe, (add_zero _).symm.trans (add_zero _).symm⟩

omit hg ht in
theorem Accounts.output_none_produce
    (hmem : Path.none ∈ R ++ (c.produce g g.overestimateCycles sl m p ps sat).q .output) :
    reached N p (sl.nd g) g.fin := by
  rw [Contents.produce_output] at hmem
  cases sl with
  | output =>
    rw [if_pos rfl] at hmem
    rcases List.mem_append.mp hmem with hmem | hmem
    · exact .inl (h.output_none (List.mem_append_left _ hmem))
    rcases List.mem_append.mp (none_mem_join hmem) with hmem | hmem
    · exact .inl (h.output_none (List.mem_append_right _ hmem))
    · exact .inr ⟨isNone_of_extend sat (List.mem_singleton.mp hmem).symm, rfl⟩
  | edge e =>
    rw [if_neg (by simp)] at hmem
    exact .inl (h.output_none hmem)

/-- **Taking a path keeps the balance.** -/
theorem Accounts.produce (hS : NoneLast g firmware S) :
    Accounts g firmware (extended T m p) (reached N p (sl.nd g)) R
      (c.produce g g.overestimateCycles sl m p ps sat) where
  toQueued := h.toQueued.produce hg ht sat
  edge _ he := h.edge_produce hg ht sat he
  output := h.output_produce hg ht sat
  closed _ hmem hN _ he := h.closed_produce hg ht hS hmem hN he
  output_none hmem := h.output_none_produce sat hmem

end

/-! ### The whole enumeration -/

/-- The output is handed out. -/
theorem Queued.emit (h : Queued g firmware N c) : Queued g firmware N (c.setQ .output []) := by
  have hedge : ∀ e, (c.setQ .output []).q (.edge e) = c.q (.edge e) :=
    fun e => c.setQ_q_of_ne (by simp) []
  refine ⟨?_, h.start, ?_, ?_, ?_⟩
  · intro e he
    rw [hedge]
    exact h.at_edge e he
  · intro e he
    rw [hedge]
    exact h.ends e he
  · intro e he
    rw [hedge]
    exact h.no_none e he
  · intro t ht hN hs
    obtain ⟨e, he, hNe, h₁, h₂⟩ := h.drained t ht hN hs
    exact ⟨e, he, hNe, (hedge e).trans h₁, h₂⟩

theorem Accounts.emit (h : Accounts g firmware T N R c) :
    Accounts g firmware T N (R ++ c.q .output) (c.setQ .output []) := by
  have hout : (c.setQ .output []).q .output = [] := c.setQ_q_self .output []
  refine ⟨h.toQueued.emit, ?_, ?_, h.closed, ?_⟩
  · intro e he
    rw [c.setQ_q_of_ne (by simp) []]
    exact h.edge e he
  · rw [hout, accounts_append, accounts_nil, add_zero]
    exact h.output
  · rw [hout, List.append_nil]
    exact h.output_none

/-- What is in the queues before the first batch. -/
theorem contents_init (g : Cfg) (firmware : ℕ) (answers : ℕ → Bool) :
    (∀ sl, (Queues.init g firmware answers).contents.q sl = []) ∧
      ∀ e, g.IsEdge e → (Queues.init g firmware answers).contents.staging e =
        if e.1 = g.start then [.possible (g.startPath firmware) [], .none] else [] := by
  constructor
  · intro sl
    simp [Queues.contents, Queues.init]
  · rintro ⟨nd, b⟩ ⟨-, hsome⟩
    show ((Queues.init g firmware answers).staging (nd, b)).paths = _
    rw [Queues.init]
    simp only [Queues.staging_qpush, Pathq.paths_empty, Pathq.paths_ofList, nil_join, Prod.mk.injEq]
    by_cases hs : nd = g.start
    · subst hs
      rw [if_pos rfl]
      cases b <;> simp [hsome]
    · simp [hs]

theorem queued_init (g : Cfg) (firmware : ℕ) (answers : ℕ → Bool) :
    Queued g firmware (· = g.start) (Queues.init g firmware answers).contents := by
  obtain ⟨hq, hs⟩ := contents_init g firmware answers
  refine ⟨?_, rfl, ?_, ?_, ?_⟩
  · intro e he p hp
    rw [hq, hs e he, List.nil_append] at hp
    by_cases hst : e.1 = g.start
    · rw [if_pos hst] at hp
      intro w hw
      rcases List.mem_cons.mp hp with rfl | hp
      · exact ⟨[], hst.symm, (Option.some.inj hw).symm⟩
      · rw [List.mem_singleton.mp hp] at hw
        exact nomatch hw
    · rw [if_neg hst] at hp
      exact absurd hp List.not_mem_nil
  · intro e he hst
    left
    rw [hq, hs e he, if_pos hst]
    exact ⟨[.possible (g.startPath firmware) []], rfl, by simp⟩
  · intro e he hst
    rw [hq, hs e he, if_neg hst]
    exact List.not_mem_nil
  · intro t _ hst hne
    exact absurd hst hne

theorem accounts_init (hg : g.LoopFree) (hfin : g.fin ≠ g.start) (firmware : ℕ)
    (answers : ℕ → Bool) :
    Accounts g firmware (fun _ => 0) (· = g.start) [] (Queues.init g firmware answers).contents := by
  obtain ⟨hq, hs⟩ := contents_init g firmware answers
  have hzero : ∀ nd, nd ≠ g.start → produced g (fun _ => 0) nd = 0 := by
    intro nd hnd
    rw [produced, if_neg hnd]
    exact List.sum_eq_zero fun x hx => by
      obtain ⟨e, -, rfl⟩ := List.mem_map.mp hx
      rfl
  refine ⟨queued_init _ firmware answers, ?_, ?_, ?_, ?_⟩
  · intro e he
    rw [hq, hs e he]
    by_cases hst : e.1 = g.start
    · rw [if_pos hst, hst, produced_start]
      rfl
    · rw [if_neg hst, hzero _ hst]
      rfl
  · rw [hq, hzero _ hfin]
    rfl
  · rintro t - rfl e he
    rw [hg.pred_start] at he
    exact absurd he List.not_mem_nil
  · intro hmem
    rw [hq] at hmem
    exact absurd hmem List.not_mem_nil

/-- No path is predicted to have 0 cycles, as `none` is. Every instruction before the end of the
program takes time, but a sum of 32 bits may wrap around. -/
def Cfg.NeverZero (g : Cfg) (firmware : ℕ) : Prop :=
  ∀ e : Edge, (g.succ e.1 e.2).isSome → ∀ es, g.Walk g.start es e.1 →
    (g.pathAlong firmware es).maxCyclesBy g g.overestimateCycles e.2 ≠ 0

theorem Cfg.Fits.neverZero (hg : g.LoopFree) (hfits : g.Fits firmware) : g.NeverZero firmware := by
  intro e he es hw
  obtain ⟨t, hs⟩ := Option.isSome_iff_exists.mp he
  exact (hfits.maxCyclesBy_pos hg hw hs).ne'

/-- The number of cycles puts `none` behind all other paths, if it is never 0. -/
theorem noneLast_MAX_CYCLES (hz : g.NeverZero firmware) :
    NoneLast g firmware (MAX_CYCLES g g.overestimateCycles) := by
  intro e he p hp hreal b
  cases hs : p.state with
  | none =>
    rw [Path.isNone_iff_state.mpr hs] at hreal
    exact nomatch hreal
  | some w =>
    obtain ⟨es, hw, rfl⟩ := hp w hs
    show 0 < p.maxCyclesBy g g.overestimateCycles e.2
    rw [Path.maxCyclesBy_eq hs]
    exact Nat.pos_of_ne_zero (hz e he.2 es hw)

end

/-- Nothing is reported, or the program does not end where it starts and the loop is run. -/
theorem reports_or_fin_ne_start {g : LoopFreeCfg} {firmware fuel count : ℕ} {ks : List Batch}
    {answers : ℕ → Bool} {rs : List Path}
    (h : g.enumerateByPacketrate firmware fuel count ks answers = some rs) :
    rs = [] ∨ g.fin ≠ g.start ∧
      enumerateLoop g.toCfg g.overestimateCycles (MAX_CYCLES g.toCfg g.overestimateCycles) fuel
        count ks 0 (.init g.toCfg firmware answers) = some rs := by
  unfold Cfg.enumerateByPacketrate at h
  split at h
  · exact .inl (Option.some.inj h).symm
  cases ks with
  | nil => exact .inl (Option.some.inj h).symm
  | cons k ks =>
    refine .inr ⟨?_, h⟩
    intro heq
    obtain ⟨⟨q, st⟩, hk, -⟩ := Option.bind_eq_some_iff.mp h
    obtain ⟨x, hd, -⟩ := Option.bind_eq_some_iff.mp hk
    have hpred : g.pred g.fin = [] := heq ▸ g.loopFree.pred_start
    simp [descend, Queues.shortestQ, Slot.nd, hpred, minElement] at hd

/-- **When `none` has been reported, every path through the program has been reported once**,
as a possible path or as one of those that an impossible path counts, and nothing else has, if no
path is predicted to have 0 cycles. -/
theorem enumerate_accounts (g : LoopFreeCfg) {firmware fuel count : ℕ} {ks : List Batch}
    {answers : ℕ → Bool} {rs : List Path} (hz : g.NeverZero firmware)
    (h : g.enumerateByPacketrate firmware fuel count ks answers = some rs) (hnone : .none ∈ rs) :
    (rs.flatMap Path.accounted).Nodup ∧ (∀ es, es ∈ rs.flatMap Path.accounted ↔ g.IsPath es) ∧
      ∀ p ∈ rs, p.isNone = false → p.accounted.length = p.size := by
  have hg := g.loopFree
  rcases reports_or_fin_ne_start h with rfl | ⟨hfin, h⟩
  · exact absurd hnone List.not_mem_nil
  have hstep : ∀ R c c', (∃ T N, Accounts g.toCfg firmware T N R c) →
      Contents.Step g.toCfg g.overestimateCycles (MAX_CYCLES g.toCfg g.overestimateCycles) c c' →
      ∃ T N, Accounts g.toCfg firmware T N R c' := by
    rintro R c c' ⟨T, N, hacc⟩ hstep
    cases hstep with
    | absorb e he => exact ⟨T, N, hacc.absorb e⟩
    | produce sl m p ps sat ht =>
      exact ⟨_, _, hacc.produce hg ht sat (noneLast_MAX_CYCLES hz)⟩
  have hemit : ∀ R c, (∃ T N, Accounts g.toCfg firmware T N R c) →
      ∃ T N, Accounts g.toCfg firmware T N (R ++ c.q .output) (c.setQ .output []) := by
    rintro R c ⟨T, N, hacc⟩
    exact ⟨T, N, hacc.emit⟩
  obtain ⟨ps, c, ⟨T, N, hacc⟩, hout, hchecked⟩ := enumerateLoop_induction hg hstep hemit
    ⟨_, _, accounts_init hg hfin firmware answers⟩ ((contents_init _ _ _).1 .output) h
  rw [List.nil_append] at hacc
  have hN : N g.fin := hacc.output_none (List.mem_append_left _ (hchecked.none_mem hnone))
  have hall : produced g.toCfg T g.fin = (rs.flatMap Path.accounted : List (List Edge)) := by
    rw [hacc.output, hout, accounts_nil, add_zero, hchecked.flatMap_accounted]
    rfl
  refine ⟨?_, ?_, fun p _ hp => Path.length_accounted hp⟩
  · rw [← Multiset.coe_nodup, ← hall, Multiset.nodup_iff_count_le_one]
    exact hacc.count_le_one hg hg.fin_mem
  · intro es
    rw [← Multiset.mem_coe, ← hall]
    exact ⟨hacc.walk_of_mem hg hg.fin_mem, hacc.mem_of_walk hg hg.fin_mem hN⟩

theorem skipMem_fits : skipMem.Fits 10 := fits_of_le (c := 100) skipMem_loopFree (by decide) (by decide)

/-- Batches of two paths, all of which the solver finds possible. -/
theorem skipMem_enumerate :
    skipMem.enumerateByPacketrate 10 20 20 [⟨2, by decide⟩, ⟨2, by decide⟩] (fun _ => true) =
      some [.possible ⟨some (3, false), 31⟩ [(0, true), (2, false), (3, false)],
        .possible ⟨some (3, false), 29⟩ [(0, false), (1, false), (2, false), (3, false)], .none] := by
  decide +kernel

theorem enumerate_accounts_skipMem :
    let rs : List Path :=
      [.possible ⟨some (3, false), 31⟩ [(0, true), (2, false), (3, false)],
        .possible ⟨some (3, false), 29⟩ [(0, false), (1, false), (2, false), (3, false)], .none]
    (rs.flatMap Path.accounted).Nodup ∧ (∀ es, es ∈ rs.flatMap Path.accounted ↔ skipMem.IsPath es) ∧
      ∀ p ∈ rs, p.isNone = false → p.accounted.length = p.size :=
  enumerate_accounts ⟨skipMem, skipMem_loopFree⟩ (skipMem_fits.neverZero skipMem_loopFree) skipMem_enumerate
    (by simp)

theorem skipMem_enumerate_wrapped :
    skipMem.enumerateByPacketrate 4294967293 20 20 [⟨1, by decide⟩, ⟨1, by decide⟩] (fun _ => true) =
      some [.possible ⟨some (3, false), 18⟩ [(0, true), (2, false), (3, false)], .none] := by
  decide +kernel

/-- Where the firmware takes nearly 2 ^ 32 cycles already, the path through the access has come to 0
cycles before the join. There it is no longer than `none`, which is taken first, and the path is never
reported. -/
theorem enumerate_misses :
    ∃ (g : LoopFreeCfg) (firmware : ℕ) (ks : List Batch) (rs : List Path) (es : List Edge),
      firmware < 2 ^ 32 ∧ g.enumerateByPacketrate firmware 20 20 ks (fun _ => true) = some rs ∧
        .none ∈ rs ∧ g.IsPath es ∧ es ∉ rs.flatMap Path.accounted :=
  ⟨⟨skipMem, skipMem_loopFree⟩, 4294967293, _, _, [(0, false), (1, false), (2, false), (3, false)],
    by decide, skipMem_enumerate_wrapped, by simp, by decide, by decide⟩

end NfpEstimator
