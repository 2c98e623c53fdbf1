import NfpEstimator.Cfg.Enumerate

/-!
# How paths move between queues

What the enumeration does to the contents of the queues is a sequence of steps of two
kinds: the paths that are left for an edge are appended to its queue, and a path with
the highest cost is taken from the edges into a node, extended, and put into a queue
behind the node (`Contents.Step`). Counts, positions and the collecting of paths in
local queues do not matter for this.

The main result is that the loops of `cfg::next_k` and `cfg::push_impossible` are such
sequences (`nextK_steps`, `pushImpossible_steps`), and that what the steps keep
therefore holds of everything that the enumeration reports
(`enumerateLoop_induction`). In particular no path is ever taken while the queue of
another edge into the node is empty.
-/

namespace NfpEstimator

/-! ### Contents and steps -/

/-- The paths in the queues. -/
structure Contents where
  q : Slot → List Path
  staging : Edge → List Path

/-- The paths in the queues of a state. -/
def Queues.contents (st : Queues) : Contents where
  q sl := (st.q sl).paths
  staging e := (st.staging e).paths

/-- The edge exists. -/
def Cfg.IsEdge (g : Cfg) (e : Edge) : Prop := e.1 ∈ g.nodes ∧ (g.succ e.1 e.2).isSome

/-- The slot is the output, or belongs to an edge that exists. -/
def Cfg.IsSlot (g : Cfg) : Slot → Prop
  | .output => True
  | .edge e => g.IsEdge e

namespace Contents

/-- These paths are in the queue of the slot. -/
def setQ (c : Contents) (sl : Slot) (ps : List Path) : Contents :=
  { c with q := Function.update c.q sl ps }

/-- The paths left for `e` are appended to its queue. -/
def absorb (c : Contents) (e : Edge) : Contents where
  q := Function.update c.q (.edge e) (join (c.q (.edge e)) (c.staging e))
  staging := Function.update c.staging e []

/-- Paths that have come to a node are appended to the queue of `sl`, and left for the
other edge out of the node. -/
def deliver (g : Cfg) (c : Contents) (sl : Slot) (ps : List Path) : Contents where
  q := Function.update c.q sl (join (c.q sl) ps)
  staging :=
    if (g.succ (sl.nd g) !sl.branchtrue).isSome then
      Function.update c.staging (sl.nd g, !sl.branchtrue)
        (join (c.staging (sl.nd g, !sl.branchtrue)) ps)
    else c.staging

/-- The path `p` can be taken from the edge `m` and put into the queue of `sl`: no edge into
the node has an empty queue, `p` has the highest cost, and nothing is left for `sl` itself. -/
structure Takes {γ : Type*} [LinearOrder γ] (g : Cfg) (S : Option Path → Bool → γ) (c : Contents)
    (sl : Slot) (m : Edge) (p : Path) (ps : List Path) : Prop where
  slot : g.IsSlot sl
  own : ∀ e, sl = .edge e → c.staging e = []
  nonempty : ∀ e ∈ g.pred (sl.nd g), c.q (.edge e) ≠ []
  pred : m ∈ g.pred (sl.nd g)
  front : c.q (.edge m) = p :: ps
  longest : ∀ e ∈ g.pred (sl.nd g), S (c.q (.edge e)).head? e.2 ≤ S (some p) m.2

/-- The path that is taken is extended and delivered. -/
def produce (g : Cfg) (d : Instructions) (c : Contents) (sl : Slot) (m : Edge) (p : Path)
    (ps : List Path) (sat : Bool) : Contents :=
  (c.setQ (.edge m) ps).deliver g sl [p.extend g d sat m.2]

/-- A step of the enumeration. -/
inductive Step {γ : Type*} [LinearOrder γ] (g : Cfg) (d : Instructions)
    (S : Option Path → Bool → γ) : Contents → Contents → Prop
  | absorb (c : Contents) (e : Edge) (he : g.IsEdge e) : Step g d S c (c.absorb e)
  | produce (c : Contents) (sl : Slot) (m : Edge) (p : Path) (ps : List Path) (sat : Bool)
      (h : c.Takes g S sl m p ps) : Step g d S c (c.produce g d sl m p ps sat)

/-- A sequence of steps. -/
abbrev Steps {γ : Type*} [LinearOrder γ] (g : Cfg) (d : Instructions)
    (S : Option Path → Bool → γ) : Contents → Contents → Prop :=
  Relation.ReflTransGen (Step g d S)

variable {g : Cfg} (c : Contents)

@[simp] theorem setQ_q_self (sl : Slot) (ps : List Path) : (c.setQ sl ps).q sl = ps := by
  simp [setQ]

theorem setQ_q_of_ne {sl sl' : Slot} (h : sl' ≠ sl) (ps : List Path) :
    (c.setQ sl ps).q sl' = c.q sl' := by
  simp [setQ, h]

@[simp] theorem setQ_staging (sl : Slot) (ps : List Path) : (c.setQ sl ps).staging = c.staging := rfl

@[simp] theorem deliver_nil (sl : Slot) : c.deliver g sl [] = c := by
  unfold deliver
  simp only [join_nil, Function.update_eq_self, ite_self]

/-- Delivering a list path by path comes to the same as collecting it first. -/
theorem deliver_concat (sl : Slot) (ps : List Path) (p : Path) :
    (c.deliver g sl ps).deliver g sl [p] = c.deliver g sl (join ps [p]) := by
  unfold deliver
  dsimp only
  split
  · simp only [Function.update_self, Function.update_idem, join_assoc]
  · simp only [Function.update_self, Function.update_idem, join_assoc]

theorem setQ_deliver {sl sl' : Slot} (h : sl' ≠ sl) (ps qs : List Path) :
    (c.deliver g sl ps).setQ sl' qs = (c.setQ sl' qs).deliver g sl ps := by
  unfold deliver setQ
  simp only [Function.update_of_ne h.symm, Function.update_comm h]

theorem deliver_q_of_ne {sl sl' : Slot} (h : sl' ≠ sl) (ps : List Path) :
    (c.deliver g sl ps).q sl' = c.q sl' :=
  Function.update_of_ne h _ _

theorem deliver_staging_of_ne {sl : Slot} {e : Edge} (h : e ≠ (sl.nd g, !sl.branchtrue))
    (ps : List Path) : (c.deliver g sl ps).staging e = c.staging e := by
  unfold deliver
  dsimp only
  split
  · exact Function.update_of_ne h _ _
  · rfl

/-- What appending the paths left for an edge changes. -/
theorem absorb_effect (e : Edge) :
    ((c.absorb e).q (.edge e) = join (c.q (.edge e)) (c.staging e) ∧ (c.absorb e).staging e = []) ∧
      (∀ e', e' ≠ e → (c.absorb e).q (.edge e') = c.q (.edge e') ∧
        (c.absorb e).staging e' = c.staging e') ∧
      (c.absorb e).q .output = c.q .output := by
  refine ⟨⟨Function.update_self _ _ _, Function.update_self _ _ _⟩, ?_, ?_⟩
  · intro e' he'
    exact ⟨Function.update_of_ne (fun h => he' (Slot.edge.inj h)) _ _,
      Function.update_of_ne he' _ _⟩
  · have hne : Slot.output ≠ .edge e := by simp
    exact Function.update_of_ne hne (join (c.q (.edge e)) (c.staging e)) c.q

/-- All other edges are unchanged. -/
theorem produce_other {sl : Slot} {m e : Edge} (d : Instructions) (p : Path) (ps : List Path)
    (sat : Bool) (hnd : e.1 ≠ sl.nd g) (hem : e ≠ m) :
    (c.produce g d sl m p ps sat).q (.edge e) = c.q (.edge e) ∧
      (c.produce g d sl m p ps sat).staging e = c.staging e := by
  constructor
  · rw [produce, deliver_q_of_ne]
    · exact c.setQ_q_of_ne (fun heq => hem (Slot.edge.inj heq)) ps
    · rintro rfl
      exact hnd rfl
  · exact deliver_staging_of_ne _ (fun heq => hnd (congrArg Prod.fst heq)) _

theorem produce_output (d : Instructions) (sl : Slot) (m : Edge) (p : Path) (ps : List Path)
    (sat : Bool) :
    (c.produce g d sl m p ps sat).q .output =
      if sl = .output then join (c.q .output) [p.extend g d sat m.2] else c.q .output := by
  have hq : (c.setQ (.edge m) ps).q .output = c.q .output := c.setQ_q_of_ne (by simp) ps
  split
  next heq =>
    subst heq
    rw [← hq]
    exact Function.update_self Slot.output (join _ [_]) (c.setQ (.edge m) ps).q
  next hne => rw [produce, deliver_q_of_ne _ (Ne.symm hne), hq]

end Contents

namespace Queues

variable {g : Cfg} (st : Queues)

@[simp] theorem contents_setQ (sl : Slot) (q : Pathq) :
    (st.setQ sl q).contents = st.contents.setQ sl q.paths := by
  unfold contents setQ Contents.setQ
  congr 1
  funext sl'
  by_cases h : sl' = sl
  · subst h
    simp only [Function.update_self]
  · simp only [Function.update_of_ne h]

theorem output_setQ (e : Edge) (q : Pathq) : (st.setQ (.edge e) q).q .output = st.q .output := by
  have hne : Slot.output ≠ .edge e := by simp
  exact Function.update_of_ne hne q st.q

@[simp] theorem q_qpush (nd : ℕ) (b : Bool) (q : Pathq) : (st.qpush g nd b q).q = st.q := by
  unfold qpush
  split <;> rfl

theorem staging_qpush (nd : ℕ) (b : Bool) (q : Pathq) (e : Edge) :
    ((st.qpush g nd b q).staging e).paths =
      if e = (nd, b) ∧ (g.succ nd b).isSome then join (st.staging e).paths q.paths
      else (st.staging e).paths := by
  unfold qpush setStaging
  by_cases hs : (g.succ nd b).isSome
  · rw [if_pos hs]
    by_cases he : e = (nd, b)
    · subst he
      rw [if_pos ⟨rfl, hs⟩]
      simp only [Function.update_self, Pathq.paths_push]
    · rw [if_neg fun h => he h.1]
      simp only [Function.update_of_ne he]
  · rw [if_neg hs, if_neg fun h => hs h.2]

@[simp] theorem contents_answered : st.answered.contents = st.contents := rfl

theorem contents_absorb {e : Edge} (he : g.IsEdge e) :
    (st.absorb g e).contents = st.contents.absorb e := by
  have hpaths : (st.absorb g e).contents =
      ((st.setStaging e .empty).setQ (.edge e) ((st.q (.edge e)).pushMove (st.staging e))).contents := by
    unfold absorb qtake
    rw [if_pos he.2]
    rfl
  rw [hpaths, contents_setQ, Pathq.paths_pushMove]
  unfold Contents.absorb Contents.setQ contents setStaging
  congr 1
  funext e'
  by_cases h : e' = e
  · subst h
    simp only [Function.update_self, Pathq.paths_empty]
  · simp only [Function.update_of_ne h]

theorem contents_deliver (sl : Slot) (q : Pathq) :
    (st.deliver g sl q).contents = st.contents.deliver g sl q.paths := by
  unfold deliver
  dsimp only
  rw [contents_setQ, Pathq.paths_pushMove]
  unfold qpush Contents.deliver Contents.setQ contents setStaging
  by_cases hs : (g.succ (sl.nd g) !sl.branchtrue).isSome
  · rw [if_pos hs, if_pos hs]
    congr 1
    funext e'
    by_cases h : e' = (sl.nd g, !sl.branchtrue)
    · subst h
      simp only [Function.update_self, Pathq.paths_push]
    · simp only [Function.update_of_ne h]
  · rw [if_neg hs, if_neg hs]

end Queues

/-! ### Choosing an edge -/

theorem foldl_least {α γ : Type*} [LinearOrder γ] (f : α → γ) (a : α) (l : List α) :
    l.foldl (fun m y => if f y < f m then y else m) a ∈ a :: l ∧
      ∀ y ∈ a :: l, f (l.foldl (fun m y => if f y < f m then y else m) a) ≤ f y := by
  induction l generalizing a with
  | nil =>
    refine ⟨List.mem_cons_self, ?_⟩
    intro y hy
    exact (List.mem_singleton.mp hy) ▸ le_rfl
  | cons b l ih =>
    obtain ⟨hmem, hmin⟩ := ih (if f b < f a then b else a)
    rw [List.foldl_cons]
    generalize l.foldl (fun m y => if f y < f m then y else m) (if f b < f a then b else a) = r at *
    have hr := hmin _ List.mem_cons_self
    by_cases hlt : f b < f a
    · rw [if_pos hlt] at hmem hr
      refine ⟨List.mem_cons_of_mem _ hmem, ?_⟩
      intro y hy
      rcases List.mem_cons.mp hy with rfl | hy
      · exact hr.trans hlt.le
      rcases List.mem_cons.mp hy with rfl | hy
      · exact hr
      · exact hmin y (List.mem_cons_of_mem _ hy)
    · rw [if_neg hlt] at hmem hr
      constructor
      · rcases List.mem_cons.mp hmem with rfl | hl
        · exact List.mem_cons_self
        · exact List.mem_cons_of_mem _ (List.mem_cons_of_mem _ hl)
      intro y hy
      rcases List.mem_cons.mp hy with rfl | hy
      · exact hr
      rcases List.mem_cons.mp hy with rfl | hy
      · exact hr.trans (not_lt.mp hlt)
      · exact hmin y (List.mem_cons_of_mem _ hy)

theorem minElement_spec {α : Type*} {f : α → ℕ} {l : List α} {x : α} (h : minElement f l = some x) :
    x ∈ l ∧ ∀ y ∈ l, f x ≤ f y := by
  cases l with
  | nil => exact nomatch h
  | cons a l =>
    obtain rfl := Option.some.inj h
    exact foldl_least f a l

section

variable {γ : Type*} [LinearOrder γ] {g : Cfg} {d : Instructions} {S : Option Path → Bool → γ}

theorem Queues.shortestQ_mem {st : Queues} {nd : ℕ} {e : Edge} (h : st.shortestQ g nd = some e) :
    e ∈ g.pred nd :=
  (minElement_spec h).1

theorem Queues.shortestSize_le (st : Queues) {nd : ℕ} {e : Edge} (he : e ∈ g.pred nd) :
    st.shortestSize g nd ≤ (st.q (.edge e)).size := by
  unfold Queues.shortestSize
  split
  · exact Nat.zero_le _
  next m hm => exact (minElement_spec hm).2 e he

/-- The edge that is chosen has the front with the highest cost. -/
theorem Queues.qWithLongestPath_spec {st st' : Queues} {nd : ℕ} {m : Edge}
    (h : st.qWithLongestPath g S nd = some (m, st')) :
    m ∈ g.pred nd ∧ (∀ e ∈ g.pred nd, st.frontCost S e ≤ st.frontCost S m) ∧
      ∃ i, st' = { st with predBegin := Function.update st.predBegin nd i } := by
  unfold Queues.qWithLongestPath at h
  dsimp only at h
  split at h
  · exact nomatch h
  next l rest hrot =>
    obtain ⟨rfl, rfl⟩ := Option.some.inj h |> Prod.mk.inj
    obtain ⟨hmem, hmax⟩ := foldl_least (fun e => OrderDual.toDual (st.frontCost S e)) l rest
    have hiff : ∀ e, e ∈ l :: rest ↔ e ∈ g.pred nd := by
      intro e
      rw [← hrot, List.mem_append, or_comm, ← List.mem_append, List.take_append_drop]
    exact ⟨(hiff _).mp hmem, fun e he => hmax e ((hiff e).mpr he), _, rfl⟩

/-! ### The loops -/

variable (hg : g.LoopFree)
include hg

theorem isEdge_of_pred {nd : ℕ} (hnd : nd ∈ g.nodes) {m : Edge} (hm : m ∈ g.pred nd) :
    g.IsEdge m := by
  obtain ⟨hmem, hsucc⟩ := hg.pred_succ nd hnd m hm
  exact ⟨hmem, Option.isSome_iff_exists.mpr ⟨nd, hsucc⟩⟩

theorem slot_nd_mem {sl : Slot} (hsl : g.IsSlot sl) : sl.nd g ∈ g.nodes := by
  cases sl with
  | output => exact hg.fin_mem
  | edge e => exact hsl.1

theorem idxOf_lt_of_pred {nd : ℕ} (hnd : nd ∈ g.nodes) {m : Edge} (hm : m ∈ g.pred nd) :
    g.nodes.idxOf m.1 < g.nodes.idxOf nd := by
  obtain ⟨hmem, hsucc⟩ := hg.pred_succ nd hnd m hm
  exact hg.forward _ hmem m.2 nd hsucc

/-- The queue of an edge into a node is not one behind the node. -/
theorem slot_ne_of_pred {sl : Slot} (hsl : g.IsSlot sl) {m : Edge} (hm : m ∈ g.pred (sl.nd g)) :
    Slot.edge m ≠ sl := by
  rintro rfl
  exact absurd (idxOf_lt_of_pred hg hsl.1 hm) (lt_irrefl _)

omit hg in
/-- An edge is not the other edge out of its node. -/
theorem edge_ne_sibling (e : Edge) : e ≠ ((Slot.edge e).nd g, !(Slot.edge e).branchtrue) :=
  fun h => absurd (congrArg Prod.snd h) (by simp [Slot.branchtrue])

namespace Contents.Takes

variable {c : Contents} {sl : Slot} {m : Edge} {p : Path} {ps : List Path}
  (h : c.Takes g S sl m p ps)
include h

theorem mem_nodes : sl.nd g ∈ g.nodes := slot_nd_mem hg h.slot

theorem isEdge : g.IsEdge m := isEdge_of_pred hg (h.mem_nodes hg) h.pred

theorem succ_eq : g.succ m.1 m.2 = some (sl.nd g) := (hg.pred_succ _ (h.mem_nodes hg) m h.pred).2

theorem ne_nd : m.1 ≠ sl.nd g := by
  intro heq
  have hlt := idxOf_lt_of_pred hg (h.mem_nodes hg) h.pred
  rw [heq] at hlt
  exact lt_irrefl _ hlt

/-- A path that is delivered behind a node comes to every edge out of the node: to the queue it
was asked for, or to what is left for the other edge. -/
theorem behind (d : Instructions) (sat : Bool) {e : Edge} (he : g.IsEdge e)
    (hnd : e.1 = sl.nd g) :
    sl = .edge e ∧
        (c.produce g d sl m p ps sat).q (.edge e) =
          join (c.q (.edge e)) [p.extend g d sat m.2] ∧
        (c.produce g d sl m p ps sat).staging e = c.staging e ∨
      (c.produce g d sl m p ps sat).q (.edge e) = c.q (.edge e) ∧
        (c.produce g d sl m p ps sat).staging e =
          join (c.staging e) [p.extend g d sat m.2] := by
  have hem : Slot.edge e ≠ .edge m := fun heq => h.ne_nd hg (Slot.edge.inj heq ▸ hnd)
  have hq : (c.setQ (.edge m) ps).q (.edge e) = c.q (.edge e) := c.setQ_q_of_ne hem ps
  by_cases hesl : sl = .edge e
  · subst hesl
    refine .inl ⟨rfl, ?_, Contents.deliver_staging_of_ne _ (edge_ne_sibling e) _⟩
    rw [← hq]
    exact Function.update_self _ _ _
  · right
    have hsib : e = (sl.nd g, !sl.branchtrue) := by
      cases sl with
      | output =>
        have hsome := he.2
        rw [hnd, show Slot.nd g .output = g.fin from rfl, hg.succ_fin] at hsome
        exact nomatch hsome
      | edge e' =>
        refine Prod.ext hnd ?_
        have hne : e.2 ≠ e'.2 := fun heq => hesl (congrArg Slot.edge (Prod.ext hnd heq).symm)
        show e.2 = !e'.2
        revert hne
        cases e.2 <;> cases e'.2 <;> decide
    constructor
    · rw [produce, Contents.deliver_q_of_ne _ (Ne.symm hesl), hq]
    · have hsome := he.2
      rw [hsib] at hsome ⊢
      show (if _ then _ else _ : Edge → List Path) _ = _
      rw [if_pos hsome]
      exact Function.update_self _ _ _

/-- The path is no longer in the queue that it was taken from. -/
theorem taken (d : Instructions) (sat : Bool) :
    (c.produce g d sl m p ps sat).q (.edge m) = ps ∧
      (c.produce g d sl m p ps sat).staging m = c.staging m := by
  constructor
  · rw [produce, Contents.deliver_q_of_ne _ (slot_ne_of_pred hg h.slot h.pred)]
    exact c.setQ_q_self _ ps
  · exact Contents.deliver_staging_of_ne _ (fun heq => h.ne_nd hg (congrArg Prod.fst heq)) _

end Contents.Takes

/-- What one round of `fillLoop` or `impossibleLoop` does, seen with the collected paths
delivered. -/
theorem step_of_take {c : Contents} {sl : Slot} {m : Edge} {p : Path} {ps : List Path}
    (h : c.Takes g S sl m p ps) (q : List Path) (sat : Bool) :
    Contents.Step g d S (c.deliver g sl q)
      ((c.setQ (.edge m) ps).deliver g sl (join q [p.extend g d sat m.2])) := by
  have hq : ∀ e ∈ g.pred (sl.nd g), (c.deliver g sl q).q (.edge e) = c.q (.edge e) :=
    fun e he => c.deliver_q_of_ne (slot_ne_of_pred hg h.slot he) q
  have htakes : (c.deliver g sl q).Takes g S sl m p ps := by
    refine ⟨h.slot, ?_, ?_, h.pred, (hq m h.pred).trans h.front, ?_⟩
    · rintro e rfl
      rw [Contents.deliver_staging_of_ne _ (edge_ne_sibling e)]
      exact h.own e rfl
    · intro e he
      rw [hq e he]
      exact h.nonempty e he
    · intro e he
      rw [hq e he]
      exact h.longest e he
  have hstep := Contents.Step.produce (d := d) _ sl m p ps sat htakes
  rw [Contents.produce, c.setQ_deliver (slot_ne_of_pred hg h.slot h.pred),
    Contents.deliver_concat] at hstep
  exact hstep

omit hg in
/-- The edge that is chosen, and the path that is taken from it. -/
theorem takes_of_qWithLongestPath {sl : Slot} (hsl : g.IsSlot sl) {st st₁ : Queues} {m : Edge}
    {p : Path} {r : Pathq} (hown : ∀ e, sl = .edge e → (st.staging e).paths = [])
    (hne : ∀ e ∈ g.pred (sl.nd g), (st.q (.edge e)).paths ≠ [])
    (hm : st.qWithLongestPath g S (sl.nd g) = some (m, st₁))
    (hp : (st.q (.edge m)).take = some (p, r)) :
    st.contents.Takes g S sl m p r.paths := by
  obtain ⟨hmem, hmax, -⟩ := Queues.qWithLongestPath_spec hm
  have hpaths := Pathq.take_eq_some hp
  refine ⟨hsl, hown, hne, hmem, hpaths, ?_⟩
  intro e he
  have hle := hmax e he
  unfold Queues.frontCost Pathq.front at hle
  rw [hpaths] at hle
  exact hle

/-- The inner loop of `cfg::next_k`: every edge into the node has a path as long as the
size is not reached. -/
theorem fillLoop_steps {sl : Slot} (hsl : g.IsSlot sl) {k : ℕ} (hk : k ≤ sizeMax) {fuel i : ℕ}
    {q q' : Pathq} {st st' : Queues} (hown : ∀ e, sl = .edge e → (st.staging e).paths = [])
    (hsize : ∀ e ∈ g.pred (sl.nd g), k ≤ total (st.q (.edge e)).paths + i)
    (h : fillLoop g d S (sl.nd g) k fuel i q st = some (q', st')) :
    Contents.Steps g d S (st.contents.deliver g sl q.paths)
        (st'.contents.deliver g sl q'.paths) ∧ st'.staging = st.staging := by
  induction fuel generalizing i q st with
  | zero =>
    unfold fillLoop at h
    split at h
    · exact nomatch h
    · obtain ⟨rfl, rfl⟩ := Prod.mk.inj (Option.some.inj h)
      exact ⟨.refl, rfl⟩
  | succ fuel ih =>
    unfold fillLoop at h
    by_cases hik : i < k
    · rw [if_pos hik] at h
      obtain ⟨⟨m, st₁⟩, hm, h⟩ := Option.bind_eq_some_iff.mp h
      obtain ⟨⟨p, r⟩, hp, h⟩ := Option.bind_eq_some_iff.mp h
      obtain ⟨-, -, j, rfl⟩ := Queues.qWithLongestPath_spec hm
      have hne : ∀ e ∈ g.pred (sl.nd g), (st.q (.edge e)).paths ≠ [] := by
        intro e he hnil
        have := hsize e he
        rw [hnil, total_nil] at this
        omega
      have htakes := takes_of_qWithLongestPath hsl hown hne hm hp
      have hrest := ih ?_ ?_ h
      · refine ⟨.head ?_ hrest.1, hrest.2⟩
        rw [Pathq.paths_pushMove, Queues.contents_answered, Queues.contents_setQ]
        exact step_of_take hg htakes q.paths (st.answers 0)
      · exact hown
      · intro e he
        rw [sizetAdd_eq (hik.le.trans hk)]
        have := hsize e he
        show k ≤ total (Function.update st.q _ r (.edge e)).paths + _
        by_cases hem : e = m
        · subst hem
          rw [Function.update_self]
          rw [Pathq.take_eq_some hp, total_cons] at this
          omega
        · rw [Function.update_of_ne (fun h => hem (Slot.edge.inj h))]
          omega
    · rw [if_neg hik] at h
      obtain ⟨rfl, rfl⟩ := Prod.mk.inj (Option.some.inj h)
      exact ⟨.refl, rfl⟩

/-- Filling a queue, after the test that its size and that of the shortest queue before it
suffice together. -/
theorem fill_steps {e : Frame} (hsl : g.IsSlot e.slot) (hk : e.k ≤ sizeMax) {st st' : Queues}
    (hown : ∀ e', e.slot = .edge e' → (st.staging e').paths = [])
    (htest : e.k ≤ sizetAdd (st.shortestSize g (e.slot.nd g)) (st.q e.slot).size)
    (h : fill g d S e st = some st') :
    Contents.Steps g d S st.contents st'.contents ∧
      ∀ e', e' ≠ (e.slot.nd g, !e.slot.branchtrue) →
        (st'.staging e').paths = (st.staging e').paths := by
  obtain ⟨⟨q, st₁⟩, hloop, h⟩ := Option.bind_eq_some_iff.mp h
  obtain rfl := Option.some.inj h
  have hsize : ∀ m ∈ g.pred (e.slot.nd g),
      e.k ≤ total (st.q (.edge m)).paths + (st.q e.slot).size := by
    intro m hm
    have hle := st.shortestSize_le hm
    have hm' := (st.q (.edge m)).size_eq
    have hs := (st.q e.slot).size_eq
    rw [sizetAdd_eq (by omega)] at htest
    omega
  obtain ⟨hrun, hstaging⟩ := fillLoop_steps hg hsl hk hown hsize hloop
  rw [Pathq.paths_empty, Contents.deliver_nil, ← Queues.contents_deliver] at hrun
  refine ⟨hrun, ?_⟩
  intro e' he'
  have hc := Contents.deliver_staging_of_ne st₁.contents he' q.paths
  rw [← Queues.contents_deliver] at hc
  exact hc.trans (congrArg (fun s => (s e').paths) hstaging)

/-- The frames of `cfg::next_k`: nothing is left for their edges, and every frame belongs to
a node before those of the frames below it. -/
structure Stacked (g : Cfg) (st : Queues) (fs : List Frame) : Prop where
  slot : ∀ f ∈ fs, g.IsSlot f.slot
  size : ∀ f ∈ fs, f.k ≤ sizeMax
  staging : ∀ f ∈ fs, ∀ e, f.slot = .edge e → (st.staging e).paths = []
  order : fs.Pairwise fun f f' => g.nodes.idxOf (f.slot.nd g) < g.nodes.idxOf (f'.slot.nd g)

theorem descend_steps {e e' : Frame} {stack : List Frame} {st st' : Queues}
    (hst : Stacked g st (e :: stack)) (h : descend g e st = some (e', st')) :
    Contents.Steps g d S st.contents st'.contents ∧ Stacked g st' (e' :: e :: stack) := by
  unfold descend at h
  split at h
  · exact nomatch h
  next pr hpr =>
    obtain ⟨rfl, rfl⟩ := Prod.mk.inj (Option.some.inj h)
    have hsl := hst.slot e List.mem_cons_self
    have hnd := slot_nd_mem hg hsl
    have hpred := Queues.shortestQ_mem hpr
    have hedge := isEdge_of_pred hg hnd hpred
    have hc := st.contents_absorb hedge
    refine ⟨hc ▸ .single (.absorb _ pr hedge), ?_⟩
    have hkeep : ∀ e', ((st.absorb g pr).staging e').paths = [] ∨
        ((st.absorb g pr).staging e').paths = (st.staging e').paths := by
      intro e'
      show (st.absorb g pr).contents.staging e' = [] ∨ (st.absorb g pr).contents.staging e' = _
      rw [hc]
      by_cases he : e' = pr
      · exact .inl (he ▸ Function.update_self _ _ _)
      · exact .inr (Function.update_of_ne he _ _)
    have hlt := idxOf_lt_of_pred hg hnd hpred
    have horder := List.pairwise_cons.mp hst.order
    refine ⟨?_, ?_, ?_, ?_⟩
    · exact List.forall_mem_cons.mpr ⟨hedge, hst.slot⟩
    · refine List.forall_mem_cons.mpr ⟨?_, hst.size⟩
      have := hst.size e List.mem_cons_self
      exact (Nat.sub_le _ _).trans this
    · refine List.forall_mem_cons.mpr ⟨?_, ?_⟩
      · rintro _ ⟨⟩
        show (st.absorb g pr).contents.staging pr = []
        rw [hc]
        exact Function.update_self _ _ _
      · intro f hf e' he'
        exact (hkeep e').elim id fun heq => heq.trans (hst.staging f hf e' he')
    · refine List.pairwise_cons.mpr ⟨?_, hst.order⟩
      refine List.forall_mem_cons.mpr ⟨hlt, fun f hf => hlt.trans (horder.1 f hf)⟩

theorem nextKLoop_steps {fuel : ℕ} {e : Frame} {stack : List Frame} {st st' : Queues}
    (hst : Stacked g st (e :: stack)) (h : nextKLoop g d S fuel e stack st = some st') :
    Contents.Steps g d S st.contents st'.contents := by
  induction fuel generalizing e stack st with
  | zero => exact nomatch h
  | succ fuel ih =>
    unfold nextKLoop at h
    split at h
    · obtain ⟨⟨e', st₁⟩, hd, h⟩ := Option.bind_eq_some_iff.mp h
      obtain ⟨hrun, hst'⟩ := descend_steps (d := d) (S := S) hg hst hd
      exact hrun.trans (ih hst' h)
    next htest =>
      obtain ⟨st₁, hf, h⟩ := Option.bind_eq_some_iff.mp h
      obtain ⟨hrun, hstaging⟩ := fill_steps hg (hst.slot e List.mem_cons_self)
        (hst.size e List.mem_cons_self) (hst.staging e List.mem_cons_self) (not_lt.mp htest) hf
      cases stack with
      | nil => exact Option.some.inj h ▸ hrun
      | cons f stack =>
        refine hrun.trans (ih ?_ h)
        have horder := List.pairwise_cons.mp hst.order
        refine ⟨fun f' hf' => hst.slot f' (List.mem_cons_of_mem _ hf'),
          fun f' hf' => hst.size f' (List.mem_cons_of_mem _ hf'), ?_, horder.2⟩
        intro f' hf' e' he'
        rw [hstaging]
        · exact hst.staging f' (List.mem_cons_of_mem _ hf') e' he'
        · rintro rfl
          have := horder.1 f' hf'
          rw [he'] at this
          exact absurd this (lt_irrefl _)

/-- **`cfg::next_k` is a sequence of steps** that starts and ends without an output queue. -/
theorem nextK_steps {fuel k : ℕ} (hk : k ≤ sizeMax) {q : Pathq} {st st' : Queues}
    (h : nextK g d S fuel k st = some (q, st')) :
    ∃ c, Contents.Steps g d S (st.contents.setQ .output []) c ∧ q.paths = c.q .output ∧
      st'.contents = c.setQ .output [] := by
  obtain ⟨⟨e', st₁⟩, hd, h⟩ := Option.bind_eq_some_iff.mp h
  obtain ⟨st₂, hloop, h⟩ := Option.bind_eq_some_iff.mp h
  obtain ⟨rfl, rfl⟩ := Prod.mk.inj (Option.some.inj h)
  have hst : Stacked g (st.setQ .output .empty) [⟨.output, k⟩] := by
    refine ⟨?_, ?_, ?_, List.pairwise_singleton _ _⟩
    · rintro f hf
      exact (List.mem_singleton.mp hf) ▸ trivial
    · rintro f hf
      exact (List.mem_singleton.mp hf) ▸ hk
    · rintro f hf e he
      rw [List.mem_singleton.mp hf] at he
      exact nomatch he
  obtain ⟨hrun, hst'⟩ := descend_steps (d := d) (S := S) hg hst hd
  have hrun' := hrun.trans (nextKLoop_steps hg hst' hloop)
  rw [Queues.contents_setQ, Pathq.paths_empty] at hrun'
  refine ⟨_, hrun', rfl, ?_⟩
  rw [Queues.contents_setQ, Pathq.paths_empty]

theorem impossibleLoop_steps {sl : Slot} (hsl : g.IsSlot sl) {fuel : ℕ} {q q' : Pathq}
    {st st' : Queues} (hown : ∀ e, sl = .edge e → (st.staging e).paths = [])
    (h : impossibleLoop g d S (sl.nd g) fuel q st = some (q', st')) :
    Contents.Steps g d S (st.contents.deliver g sl q.paths)
        (st'.contents.deliver g sl q'.paths) ∧ st'.q .output = st.q .output := by
  induction fuel generalizing q st with
  | zero => exact nomatch h
  | succ fuel ih =>
    unfold impossibleLoop at h
    by_cases hsize : st.shortestSize g (sl.nd g) = 0
    · rw [if_pos hsize] at h
      obtain ⟨rfl, rfl⟩ := Prod.mk.inj (Option.some.inj h)
      exact ⟨.refl, rfl⟩
    rw [if_neg hsize] at h
    obtain ⟨⟨m, st₁⟩, hm, h⟩ := Option.bind_eq_some_iff.mp h
    obtain ⟨⟨p, r⟩, hp, h⟩ := Option.bind_eq_some_iff.mp h
    obtain ⟨-, -, j, rfl⟩ := Queues.qWithLongestPath_spec hm
    dsimp only at h
    split at h
    · obtain ⟨rfl, rfl⟩ := Prod.mk.inj (Option.some.inj h)
      exact ⟨.refl, rfl⟩
    have hne : ∀ e ∈ g.pred (sl.nd g), (st.q (.edge e)).paths ≠ [] := by
      intro e he
      have hle := st.shortestSize_le he
      exact (st.q (.edge e)).size_pos_iff.mp (by omega)
    have htakes := takes_of_qWithLongestPath hsl hown hne hm hp
    have hrest := ih ?_ h
    · refine ⟨.head ?_ hrest.1, hrest.2.trans (st.output_setQ m r)⟩
      rw [Pathq.paths_pushMove, Queues.contents_answered, Queues.contents_answered,
        Queues.contents_setQ]
      exact step_of_take hg htakes q.paths (st.answers 1)
    · exact hown

theorem pushImpossibleTo_steps {fuel : ℕ} {pr : Edge} (he : g.IsEdge pr) {st st' : Queues}
    (h : pushImpossibleTo g d S fuel st pr = some st') :
    Contents.Steps g d S st.contents st'.contents ∧ st'.q .output = st.q .output := by
  obtain ⟨⟨q, st₁⟩, hloop, h⟩ := Option.bind_eq_some_iff.mp h
  obtain rfl := Option.some.inj h
  have hc := st.contents_absorb he
  have hown : ∀ e, Slot.edge pr = .edge e → ((st.absorb g pr).staging e).paths = [] := by
    rintro _ ⟨⟩
    show (st.absorb g pr).contents.staging pr = []
    rw [hc]
    exact Function.update_self _ _ _
  have hsl : g.IsSlot (.edge pr) := he
  obtain ⟨hrun, hout⟩ := impossibleLoop_steps hg hsl hown hloop
  rw [Pathq.paths_empty, Contents.deliver_nil, ← Queues.contents_deliver, hc] at hrun
  refine ⟨.head (.absorb _ pr he) hrun, ?_⟩
  have hdel : (st₁.deliver g (.edge pr) q).q .output = st₁.q .output := by
    unfold Queues.deliver Queues.qpush
    split <;> exact Queues.output_setQ _ _ _
  have habs : (st.absorb g pr).q .output = st.q .output := by
    unfold Queues.absorb Queues.qtake
    rw [if_pos he.2]
    exact Queues.output_setQ _ _ _
  exact hdel.trans (hout.trans habs)

omit hg in
/-- What holds of every round of a loop over a list holds of the loop. -/
theorem foldlM_steps {α : Type} {f : Queues → α → Option Queues} {l : List α}
    (hf : ∀ a ∈ l, ∀ st st', f st a = some st' →
      Contents.Steps g d S st.contents st'.contents ∧ st'.q .output = st.q .output)
    {st st' : Queues} (h : l.foldlM f st = some st') :
    Contents.Steps g d S st.contents st'.contents ∧ st'.q .output = st.q .output := by
  induction l generalizing st with
  | nil => exact Option.some.inj h ▸ ⟨.refl, rfl⟩
  | cons a l ih =>
    rw [List.foldlM_cons] at h
    obtain ⟨st₁, h₁, h₂⟩ := Option.bind_eq_some_iff.mp h
    obtain ⟨hr₁, ho₁⟩ := hf a List.mem_cons_self st st₁ h₁
    obtain ⟨hr₂, ho₂⟩ := ih (fun b hb => hf b (List.mem_cons_of_mem _ hb)) h₂
    exact ⟨hr₁.trans hr₂, ho₂.trans ho₁⟩

/-- **`cfg::push_impossible` is a sequence of steps.** -/
theorem pushImpossible_steps {fuel : ℕ} {st st' : Queues}
    (h : pushImpossible g d S fuel st = some st') :
    Contents.Steps g d S st.contents st'.contents ∧ st'.q .output = st.q .output := by
  refine foldlM_steps (fun nd hnd st st' h => ?_) h
  refine foldlM_steps (fun e he st st' h => ?_) h
  exact pushImpossibleTo_steps hg (isEdge_of_pred hg hnd he) h

/-! ### The whole enumeration -/

/-- The paths `rs` are the paths `ps` after they have been checked. -/
abbrev Checked (ps rs : List Path) : Prop := List.Forall₂ (fun p r => ∃ sat, r = p.check sat) ps rs

omit hg in
/-- Checking neither loses a path nor makes one. -/
theorem Checked.flatMap_accounted {ps rs : List Path} (h : Checked ps rs) :
    rs.flatMap Path.accounted = ps.flatMap Path.accounted := by
  induction h with
  | nil => rfl
  | cons hp _ ih =>
    obtain ⟨sat, rfl⟩ := hp
    rw [List.flatMap_cons, List.flatMap_cons, Path.accounted_check, ih]

omit hg in
theorem Checked.none_mem {ps rs : List Path} (h : Checked ps rs) (hnone : Path.none ∈ rs) :
    Path.none ∈ ps := by
  induction h with
  | nil => exact hnone
  | @cons p _ _ _ hp _ ih =>
    obtain ⟨sat, rfl⟩ := hp
    rcases List.mem_cons.mp hnone with hcheck | hnone
    · have hp : p.isNone = true := by
        rw [← Path.isNone_check sat, ← hcheck]
        rfl
      rw [Path.isNone_iff.mp hp]
      exact List.mem_cons_self
    · exact List.mem_cons_of_mem _ (ih hnone)

omit hg in
theorem checkAll_spec (ps : List Path) (st : Queues) :
    Checked ps (checkAll ps st).1 ∧ (checkAll ps st).2.q = st.q ∧
      (checkAll ps st).2.contents = st.contents := by
  induction ps generalizing st with
  | nil => exact ⟨.nil, rfl, rfl⟩
  | cons p ps ih =>
    obtain ⟨h₁, h₂, h₃⟩ := ih st.answered
    exact ⟨.cons ⟨_, rfl⟩ h₁, h₂, h₃⟩

/-- What every step keeps, and what is kept when the output is handed out, holds of all
that is reported. -/
theorem enumerateLoop_induction {I : List Path → Contents → Prop}
    (hstep : ∀ R c c', I R c → Contents.Step g d S c c' → I R c')
    (hemit : ∀ R c, I R c → I (R ++ c.q .output) (c.setQ .output []))
    {fuel count : ℕ} {ks : List Batch} {index : ℕ} {st : Queues} {rs R : List Path}
    (hI : I R st.contents) (hout : (st.q .output).paths = [])
    (h : enumerateLoop g d S fuel count ks index st = some rs) :
    ∃ ps c, I (R ++ ps) c ∧ c.q .output = [] ∧ Checked ps rs := by
  have hsteps : ∀ {R c c'}, I R c → Contents.Steps g d S c c' → I R c' := by
    intro R c c' hI hs
    induction hs with
    | refl => exact hI
    | tail _ h ih => exact hstep _ _ _ ih h
  induction ks generalizing index st rs R with
  | nil =>
    obtain rfl := Option.some.inj h
    exact ⟨[], st.contents, (List.append_nil R).symm ▸ hI, hout, .nil⟩
  | cons k ks ih =>
    obtain ⟨⟨q, st₁⟩, hk, h⟩ := Option.bind_eq_some_iff.mp h
    obtain ⟨hchecked, hq₂, hc₂⟩ := checkAll_spec q.paths st₁
    obtain ⟨st₃, hi, h⟩ := Option.bind_eq_some_iff.mp h
    obtain ⟨hrun, hout₃⟩ := pushImpossible_steps hg hi
    obtain ⟨c, hrunk, hq, hc₁⟩ := nextK_steps hg k.2.2 hk
    have hI₀ : I R (st.contents.setQ .output []) := by
      have := hemit R st.contents hI
      rwa [show st.contents.q .output = [] from hout, List.append_nil] at this
    have hI₁ : I (R ++ q.paths) st₃.contents := by
      have := hemit R c (hsteps hI₀ hrunk)
      rw [← hq, ← hc₁, ← hc₂] at this
      exact hsteps this hrun
    have hout' : (st₃.q .output).paths = [] := by
      rw [hout₃, hq₂]
      show st₁.contents.q .output = []
      rw [hc₁]
      exact c.setQ_q_self .output []
    split at h
    · exact Option.some.inj h ▸ ⟨q.paths, _, hI₁, hout', hchecked⟩
    · obtain ⟨rs', hrs', h⟩ := Option.bind_eq_some_iff.mp h
      obtain rfl := Option.some.inj h
      obtain ⟨ps, c', hIc, hoc, hchecked'⟩ := ih hI₁ hout' hrs'
      exact ⟨q.paths ++ ps, c', (List.append_assoc R _ _).symm ▸ hIc, hoc,
        List.rel_append hchecked hchecked'⟩

end

end NfpEstimator
