import NfpEstimator.Cfg.Path
import NfpEstimator.Sparse

/-!
# Packet sizes on edges

`cfg::propagate_sizes` goes through the edges twice, with the smallest packet size of each
edge given. It finds the sizes for which paths may have to be queued at an edge: the
largest of the given sizes along any walk that ends with the edge, and that along any walk
that starts with it and that a walk from the start leads to without exceeding it
(`mem_sizes_iff`).

If no given size is smaller than all of those on the edges before, then each size that an
edge has is also had by an edge before it, so that the search in
`cfg::node::q_with_longest_path` for a queue comes to an end (`propagateSizes_covers`).
-/

namespace NfpEstimator

/-! ### Vectors of sizes -/

/-- `cfg::mpathq::sizev`: numbers of paths by packet size. -/
abbrev Sizev := Sparse ℕ ℕ

namespace Sizev

/-- `cfg::mpathq::sizev::operator|`; the numbers are combined bit by bit. -/
def or (v w : Sizev) : Sizev := Sparse.combine (· ||| ·) v w

/-- `cfg::mpathq::sizev::operator&`. -/
def and (v w : Sizev) : Sizev := Sparse.combine (· &&& ·) v w

/-- `cfg::mpathq::sizev::operator&` with a packet size. -/
def cut (v : Sizev) (m : ℕ) : Sizev := Sparse.cut m v

/-- A packet size with the largest number, as a vector. -/
def single (m : ℕ) : Sizev := Sparse.single m sizeMax

/-- All numbers are the largest one. -/
def Full (v : Sizev) : Prop := ∀ s ∈ v, v.get s = sizeMax

variable {v w : Sizev} {s m : ℕ}

theorem get_or (v w : Sizev) (s : ℕ) : (v.or w).get s = v.get s ||| w.get s :=
  Sparse.get_combine (Nat.or_self 0) v w s

theorem get_and (v w : Sizev) (s : ℕ) : (v.and w).get s = v.get s &&& w.get s :=
  Sparse.get_combine (Nat.and_self 0) v w s

theorem mem_or : s ∈ v.or w ↔ s ∈ v ∨ s ∈ w := by
  rw [Sparse.mem_iff, get_or, Sparse.mem_iff, Sparse.mem_iff, ne_eq, Nat.or_eq_zero_iff, not_and_or]

theorem mem_single : s ∈ single m ↔ s = m := by
  rw [single, Sparse.mem_iff, Sparse.get_single, @eq_comm _ s]
  split
  next h => simp [h, sizeMax]
  next h => simp [h]

theorem mem_cut : s ∈ v.cut m ↔ m ≤ s ∧ s ∈ v := by
  rw [cut, Sparse.mem_iff, Sparse.get_cut]
  split
  next h => simp [not_le.mpr h]
  next h => simp [not_lt.mp h, Sparse.mem_iff]

theorem Full.mem_and (hv : v.Full) (hw : w.Full) : s ∈ v.and w ↔ s ∈ v ∧ s ∈ w := by
  rw [Sparse.mem_iff, get_and, Sparse.mem_iff, Sparse.mem_iff]
  by_cases hs : v.get s = 0
  · simp [hs]
  by_cases hs' : w.get s = 0
  · simp [hs']
  rw [hv s hs, hw s hs', Nat.and_self]
  simp [sizeMax]

theorem Full.or (hv : v.Full) (hw : w.Full) : (v.or w).Full := by
  intro s hs
  rw [get_or]
  rw [Sparse.mem_iff, get_or] at hs
  by_cases hv' : v.get s = 0
  · rw [hv', Nat.zero_or] at hs ⊢
    exact hw s hs
  by_cases hw' : w.get s = 0
  · rw [hw', Nat.or_zero]
    exact hv s hv'
  · rw [hv s hv', hw s hw', Nat.or_self]

theorem Full.and (hv : v.Full) (hw : w.Full) : (v.and w).Full := by
  intro s hs
  obtain ⟨hs₁, hs₂⟩ := (hv.mem_and hw).mp hs
  rw [get_and, hv s hs₁, hw s hs₂, Nat.and_self]

theorem full_single (m : ℕ) : (single m).Full := by
  intro s hs
  rw [mem_single.mp hs, single, Sparse.get_single, if_pos rfl]

theorem Full.cut (hv : v.Full) (m : ℕ) : (v.cut m).Full := by
  intro s hs
  obtain ⟨hle, hs⟩ := mem_cut.mp hs
  rw [Sizev.cut, Sparse.get_cut, if_neg (not_lt.mpr hle), hv s hs]

theorem not_mem_zero (s : ℕ) : s ∉ Sparse.zero ℕ ℕ := fun h => h rfl

theorem full_zero : Full (Sparse.zero ℕ ℕ) := fun s hs => absurd hs (not_mem_zero s)

/-- The vectors of some edges are joined to a vector. -/
theorem mem_foldl_or {es : List Edge} {sizes : Edge → Sizev} {v : Sizev} {s : ℕ} :
    s ∈ es.foldl (fun v e => v.or (sizes e)) v ↔ s ∈ v ∨ ∃ e ∈ es, s ∈ sizes e := by
  induction es generalizing v with
  | nil => simp
  | cons e es ih => rw [List.foldl_cons, ih, mem_or, or_assoc, List.exists_mem_cons_iff]

theorem full_foldl_or {es : List Edge} {sizes : Edge → Sizev} {v : Sizev} (hv : v.Full)
    (h : ∀ e ∈ es, (sizes e).Full) : (es.foldl (fun v e => v.or (sizes e)) v).Full := by
  induction es generalizing v with
  | nil => exact hv
  | cons e es ih =>
    exact ih (hv.or (h e List.mem_cons_self)) fun e' he => h e' (List.mem_cons_of_mem _ he)

end Sizev

/-! ### The algorithm -/

section

variable (g : Cfg) (minPacketsize : Edge → ℕ)

/-- An edge in the first loop of `cfg::propagate_sizes`. -/
def backEdge (sizes : Edge → Sizev) (ps : Edge) : Edge → Sizev :=
  let sizes := Function.update sizes ps
    (((sizes ps).cut (minPacketsize ps)).or (.single (minPacketsize ps)))
  (g.pred ps.1).foldl (fun sizes pps => Function.update sizes pps ((sizes pps).or (sizes ps))) sizes

/-- The first loop of `cfg::propagate_sizes`. -/
def backSizes : Edge → Sizev :=
  (g.nodes.reverse.flatMap g.pred).foldl (backEdge g minPacketsize) fun _ => .zero ℕ ℕ

/-- The variables of the second loop of `cfg::propagate_sizes`. -/
structure Propagation where
  sizes : Edge → Sizev
  possible : Edge → Sizev
  produced : Edge → Sizev

/-- An edge in the second loop of `cfg::propagate_sizes`. -/
def Propagation.step (st : Propagation) (ps : Edge) : Propagation :=
  let pos := (g.pred ps.1).foldl (fun pos pps => pos.or (st.possible pps)) (st.possible ps)
  let pro := (g.pred ps.1).foldl (fun pro pps => pro.or (st.produced pps)) (st.produced ps)
  let pos := pos.cut (minPacketsize ps)
  let pro := (pro.cut (minPacketsize ps)).or (.single (minPacketsize ps))
  { sizes := Function.update st.sizes ps (((st.sizes ps).and pos).or pro)
    possible := Function.update st.possible ps pos
    produced := Function.update st.produced ps pro }

/-- The variables before the second loop of `cfg::propagate_sizes`. -/
def Propagation.initial : Propagation where
  sizes := backSizes g minPacketsize
  possible := fun e =>
    if e ∈ g.outEdges g.start then backSizes g minPacketsize e else .zero ℕ ℕ
  produced := fun _ => .zero ℕ ℕ

/-- The sizes of all edges after `cfg::propagate_sizes`. -/
def Cfg.edgeSizes : Edge → Sizev :=
  ((g.nodes.flatMap g.pred).foldl (Propagation.step g minPacketsize)
    (.initial g minPacketsize)).sizes

/-- `cfg::propagate_sizes`: the sizes of the edges to the final node. -/
def Cfg.propagateSizes : Sizev :=
  (g.pred g.fin).foldl (fun sizes pr => sizes.or (g.edgeSizes minPacketsize pr)) (.zero ℕ ℕ)

end

/-! ### What the loops find -/

/-- The edge is one of the graph, and leads to the node. -/
def Cfg.LeadsTo (g : Cfg) (e : Edge) (t : ℕ) : Prop := e.1 ∈ g.nodes ∧ g.succ e.1 e.2 = some t

section

variable (g : Cfg) (minPacketsize : Edge → ℕ)

/-- The largest of the given sizes along some walk that starts with the edge. -/
inductive BackSize : Edge → ℕ → Prop
  | here {e : Edge} {t : ℕ} (he : g.LeadsTo e t) : BackSize e (minPacketsize e)
  | next {e e' : Edge} {s : ℕ} (he : g.LeadsTo e e'.1) (h : BackSize e' s) (hle : minPacketsize e ≤ s) :
    BackSize e s

/-- The largest of the given sizes along some walk that ends with the edge. -/
inductive ProducedSize : Edge → ℕ → Prop
  | here {e : Edge} {t : ℕ} (he : g.LeadsTo e t) : ProducedSize e (minPacketsize e)
  | next {e e' : Edge} {t s : ℕ} (h : ProducedSize e' s) (he' : g.LeadsTo e' e.1) (he : g.LeadsTo e t)
    (hle : minPacketsize e ≤ s) : ProducedSize e s

/-- A size that an edge out of the start has after the first loop, and that a walk from there to the
edge does not exceed. -/
inductive PossibleSize : Edge → ℕ → Prop
  | start {e : Edge} {s : ℕ} (he : e.1 = g.start) (h : BackSize g minPacketsize e s) : PossibleSize e s
  | next {e e' : Edge} {t s : ℕ} (h : PossibleSize e' s) (he' : g.LeadsTo e' e.1) (he : g.LeadsTo e t)
    (hle : minPacketsize e ≤ s) : PossibleSize e s

end

section

variable {g : Cfg} {minPacketsize : Edge → ℕ} {e e' : Edge} {t t' s : ℕ}

theorem Cfg.LoopFree.mem_pred_iff (hg : g.LoopFree) (ht : t ∈ g.nodes) :
    e ∈ g.pred t ↔ g.LeadsTo e t :=
  ⟨fun h => hg.pred_succ t ht e h, fun h => hg.succ_pred e.1 h.1 e.2 t h.2⟩

theorem Cfg.LeadsTo.mem (h : g.LeadsTo e t) (hg : g.LoopFree) : t ∈ g.nodes :=
  hg.succ_mem e.1 h.1 e.2 t h.2

theorem Cfg.LeadsTo.inj (h : g.LeadsTo e t) (h' : g.LeadsTo e t') : t = t' :=
  Option.some.inj (h.2.symm.trans h'.2)

theorem Cfg.LeadsTo.forward (h : g.LeadsTo e t) (hg : g.LoopFree) :
    g.nodes.idxOf e.1 < g.nodes.idxOf t := hg.forward e.1 h.1 e.2 t h.2

theorem BackSize.leadsTo (h : BackSize g minPacketsize e s) : ∃ t, g.LeadsTo e t := by
  cases h with
  | here he => exact ⟨_, he⟩
  | next he _ _ => exact ⟨_, he⟩

/-- One edge comes before another if the nodes that they lead to are in this order. -/
def Precedes (g : Cfg) (r : ℕ → ℕ → Prop) (e e' : Edge) : Prop :=
  e ≠ e' ∧ ∀ t t', g.LeadsTo e t → g.LeadsTo e' t' → t = t' ∨ r t t'

theorem pairwise_precedes (hg : g.LoopFree) {r : ℕ → ℕ → Prop} (hirrefl : ∀ t, ¬r t t) {l : List ℕ}
    (hl : ∀ t ∈ l, t ∈ g.nodes) (hr : l.Pairwise r) : (l.flatMap g.pred).Pairwise (Precedes g r) := by
  rw [List.pairwise_flatMap]
  constructor
  · intro t ht
    refine (hg.pred_nodup t (hl t ht)).imp_of_mem fun he he' hne => ⟨hne, fun t₁ t₂ h₁ h₂ => ?_⟩
    rw [h₁.inj ((hg.mem_pred_iff (hl t ht)).mp he), h₂.inj ((hg.mem_pred_iff (hl t ht)).mp he')]
    exact .inl rfl
  · refine hr.imp_of_mem fun ha hb hab e he e' he' => ?_
    have he := (hg.mem_pred_iff (hl _ ha)).mp he
    have he' := (hg.mem_pred_iff (hl _ hb)).mp he'
    refine ⟨?_, fun t₁ t₂ h₁ h₂ => .inr ?_⟩
    · rintro rfl
      rw [he.inj he'] at hab
      exact hirrefl _ hab
    · rwa [h₁.inj he, h₂.inj he']

theorem mem_flatMap_pred (hg : g.LoopFree) {l : List ℕ} (hl : ∀ t, t ∈ l ↔ t ∈ g.nodes) :
    e ∈ l.flatMap g.pred ↔ ∃ t, g.LeadsTo e t := by
  rw [List.mem_flatMap]
  constructor
  · rintro ⟨t, ht, he⟩
    exact ⟨t, (hg.mem_pred_iff ((hl t).mp ht)).mp he⟩
  · rintro ⟨t, he⟩
    exact ⟨t, (hl t).mpr (he.mem hg), (hg.mem_pred_iff (he.mem hg)).mpr he⟩

/-- What is kept by each step of a loop over a list, in view of the elements before it. -/
theorem foldl_induct {α σ : Type*} {f : σ → α → σ} {init : σ} {inv : List α → σ → Prop}
    (h : inv [] init) {l : List α}
    (hstep : ∀ done x todo, l = done ++ x :: todo → ∀ st, inv done st → inv (done ++ [x]) (f st x)) :
    inv l (l.foldl f init) := by
  induction l using List.reverseRecOn with
  | nil => exact h
  | append_singleton l x ih =>
    rw [List.foldl_append]
    refine hstep l x [] rfl _ (ih fun done y todo hl => hstep done y (todo ++ [x]) ?_)
    rw [hl, List.append_assoc, List.cons_append]

theorem pairwise_idxOf {l : List ℕ} (h : l.Nodup) : l.Pairwise fun a b => l.idxOf a < l.idxOf b := by
  rw [List.pairwise_iff_getElem]
  intro i j hi hj hij
  rwa [h.idxOf_getElem, h.idxOf_getElem]

/-! ### The first loop -/

/-- The sizes of an edge are joined to those of others. -/
theorem mem_push {es : List Edge} {sizes : Edge → Sizev} {ps : Edge} (hps : ps ∉ es) (e : Edge)
    (s : ℕ) :
    s ∈ es.foldl (fun sizes pps => Function.update sizes pps ((sizes pps).or (sizes ps))) sizes e ↔
      s ∈ sizes e ∨ e ∈ es ∧ s ∈ sizes ps := by
  induction es generalizing sizes with
  | nil => simp
  | cons pps es ih =>
    rw [List.mem_cons, not_or] at hps
    rw [List.foldl_cons, ih hps.2, Function.update_of_ne hps.1, List.mem_cons]
    by_cases he : e = pps
    · subst he
      rw [Function.update_self, Sizev.mem_or]
      tauto
    · rw [Function.update_of_ne he]
      tauto

theorem full_push {es : List Edge} {sizes : Edge → Sizev} {ps : Edge} (h : ∀ e, (sizes e).Full)
    (e : Edge) : Sizev.Full
      (es.foldl (fun sizes pps => Function.update sizes pps ((sizes pps).or (sizes ps))) sizes e) := by
  induction es generalizing sizes with
  | nil => exact h e
  | cons pps es ih =>
    refine ih fun e' => ?_
    dsimp only
    by_cases he : e' = pps
    · subst he
      rw [Function.update_self]
      exact (h e').or (h ps)
    · rw [Function.update_of_ne he]
      exact h e'

/-- After the edges `done`, each of them has the sizes that walks starting with it come to, and the
edges before them have been told. -/
def BackInv (g : Cfg) (minPacketsize : Edge → ℕ) (done : List Edge) (sizes : Edge → Sizev) : Prop :=
  (∀ e, (sizes e).Full) ∧ ∀ e t, g.LeadsTo e t → ∀ s, s ∈ sizes e ↔
    if e ∈ done then BackSize g minPacketsize e s
    else ∃ e' ∈ done, e'.1 = t ∧ BackSize g minPacketsize e' s

theorem BackInv.step (hg : g.LoopFree) {done : List Edge} {sizes : Edge → Sizev} {ps : Edge}
    (h : BackInv g minPacketsize done sizes) {tp : ℕ} (hps : g.LeadsTo ps tp) (hnew : ps ∉ done)
    (hnext : ∀ e t, g.LeadsTo e t → e.1 = tp → e ∈ done)
    (hprev : ∀ e, g.LeadsTo e ps.1 → e ∉ done) :
    BackInv g minPacketsize (done ++ [ps]) (backEdge g minPacketsize sizes ps) := by
  obtain ⟨hfull, hmem⟩ := h
  have hself : ps ∉ g.pred ps.1 := by
    intro hpred
    exact lt_irrefl _ (((hg.mem_pred_iff hps.1).mp hpred).forward hg)
  -- the sizes of the edge itself
  have hback : ∀ s, s ∈ ((sizes ps).cut (minPacketsize ps)).or (.single (minPacketsize ps)) ↔
      BackSize g minPacketsize ps s := by
    intro s
    rw [Sizev.mem_or, Sizev.mem_cut, Sizev.mem_single, hmem ps tp hps, if_neg hnew]
    constructor
    · rintro (⟨hle, e', -, rfl, hb⟩ | rfl)
      · exact .next hps hb hle
      · exact .here hps
    · intro h
      cases h with
      | here he => exact .inr rfl
      | @next _ e' _ he hb hle =>
        obtain ⟨t, ht⟩ := hb.leadsTo
        exact .inl ⟨hle, e', hnext e' t ht (he.inj hps), he.inj hps, hb⟩
  unfold backEdge
  refine ⟨full_push fun e => ?_, fun e t he s => ?_⟩
  · by_cases heq : e = ps
    · subst heq
      rw [Function.update_self]
      exact ((hfull e).cut _).or (Sizev.full_single _)
    · rw [Function.update_of_ne heq]
      exact hfull e
  rw [mem_push hself, Function.update_self, hback]
  by_cases heq : e = ps
  · subst heq
    rw [Function.update_self, hback, if_pos (by simp)]
    tauto
  rw [Function.update_of_ne heq, hmem e t he, hg.mem_pred_iff hps.1]
  by_cases hdone : e ∈ done
  · have hnot : ¬g.LeadsTo e ps.1 := fun h => hprev e h hdone
    rw [if_pos hdone, if_pos (List.mem_append_left _ hdone)]
    tauto
  · rw [if_neg hdone, if_neg (by simp [hdone, heq])]
    constructor
    · rintro (⟨e', he', h₁, h₂⟩ | ⟨hedge, hb⟩)
      · exact ⟨e', List.mem_append_left _ he', h₁, h₂⟩
      · exact ⟨ps, by simp, hedge.inj he, hb⟩
    · rintro ⟨e', he', h₁, h₂⟩
      rcases List.mem_append.mp he' with he' | he'
      · exact .inl ⟨e', he', h₁, h₂⟩
      · obtain rfl := List.mem_singleton.mp he'
        exact .inr ⟨h₁ ▸ he, h₂⟩

/-- **After the first loop** an edge has the sizes that walks starting with it come to. -/
theorem backInv_backSizes (hg : g.LoopFree) :
    BackInv g minPacketsize (g.nodes.reverse.flatMap g.pred) (backSizes g minPacketsize) := by
  have hmem : ∀ {e}, e ∈ g.nodes.reverse.flatMap g.pred ↔ ∃ t, g.LeadsTo e t :=
    mem_flatMap_pred hg fun _ => List.mem_reverse
  refine foldl_induct ?_ ?_
  · refine ⟨fun _ => Sizev.full_zero, fun e t _ s => ?_⟩
    simp [Sizev.not_mem_zero]
  intro done ps todo hall sizes h
  obtain ⟨tp, hps⟩ := (hmem (e := ps)).mp (by rw [hall]; simp)
  have hpair := pairwise_precedes hg (fun t => lt_irrefl (g.nodes.idxOf t))
    (fun t => List.mem_reverse.mp) (List.pairwise_reverse.mpr (pairwise_idxOf hg.nodup))
  rw [hall, List.pairwise_append] at hpair
  obtain ⟨-, htodo, hdone⟩ := hpair
  refine h.step hg hps (fun hin => (hdone ps hin ps (by simp)).1 rfl) ?_ ?_
  · rintro e t he rfl
    have hin := hmem.mpr ⟨t, he⟩
    rw [hall, List.mem_append] at hin
    refine hin.resolve_right fun hin => ?_
    rcases List.mem_cons.mp hin with rfl | hin
    · exact lt_irrefl _ (hps.forward hg)
    · have hlt := he.forward hg
      rcases ((List.pairwise_cons.mp htodo).1 e hin).2 _ _ hps he with heq | hlt'
      · exact lt_irrefl _ (heq ▸ hlt)
      · exact lt_irrefl _ (hlt.trans hlt')
  · intro e he hin
    have hlt := hps.forward hg
    rcases (hdone e hin ps (by simp)).2 _ _ he hps with heq | hlt'
    · exact lt_irrefl _ (heq ▸ hlt)
    · exact lt_irrefl _ (hlt.trans hlt')

theorem mem_backSizes (hg : g.LoopFree) (he : g.LeadsTo e t) :
    s ∈ backSizes g minPacketsize e ↔ BackSize g minPacketsize e s := by
  have hback : BackInv g minPacketsize _ _ := backInv_backSizes hg
  have h := hback.2 e t he s
  rwa [if_pos ((mem_flatMap_pred hg fun _ => List.mem_reverse).mpr ⟨t, he⟩)] at h

/-! ### The second loop -/

/-- After the edges `done`. -/
structure ForwardInv (g : Cfg) (minPacketsize : Edge → ℕ) (done : List Edge) (st : Propagation) :
    Prop where
  full : ∀ e, (st.sizes e).Full ∧ (st.possible e).Full ∧ (st.produced e).Full
  sizes : ∀ e t, g.LeadsTo e t → ∀ s, s ∈ st.sizes e ↔
    if e ∈ done then BackSize g minPacketsize e s ∧ PossibleSize g minPacketsize e s ∨
      ProducedSize g minPacketsize e s
    else BackSize g minPacketsize e s
  possible : ∀ e t, g.LeadsTo e t → ∀ s, s ∈ st.possible e ↔
    if e ∈ done then PossibleSize g minPacketsize e s
    else e.1 = g.start ∧ BackSize g minPacketsize e s
  produced : ∀ e t, g.LeadsTo e t → ∀ s, s ∈ st.produced e ↔
    e ∈ done ∧ ProducedSize g minPacketsize e s

theorem BackSize.le (h : BackSize g minPacketsize e s) : minPacketsize e ≤ s := by
  cases h with
  | here => exact le_rfl
  | next _ _ hle => exact hle

theorem ForwardInv.step (hg : g.LoopFree) {done : List Edge} {st : Propagation} {ps : Edge}
    (h : ForwardInv g minPacketsize done st) {tp : ℕ} (hps : g.LeadsTo ps tp) (hnew : ps ∉ done)
    (hprev : ∀ e, g.LeadsTo e ps.1 → e ∈ done) :
    ForwardInv g minPacketsize (done ++ [ps]) (st.step g minPacketsize ps) := by
  have hpred : ∀ {e}, e ∈ g.pred ps.1 ↔ g.LeadsTo e ps.1 := hg.mem_pred_iff hps.1
  have hpossible : ∀ s, s ∈ Sizev.cut ((g.pred ps.1).foldl (fun pos pps => pos.or (st.possible pps))
      (st.possible ps)) (minPacketsize ps) ↔ PossibleSize g minPacketsize ps s := by
    intro s
    rw [Sizev.mem_cut, Sizev.mem_foldl_or, h.possible ps tp hps, if_neg hnew]
    constructor
    · rintro ⟨hle, ⟨hstart, hb⟩ | ⟨e, he, hp⟩⟩
      · exact .start hstart hb
      · have he := hpred.mp he
        rw [h.possible e _ he, if_pos (hprev e he)] at hp
        exact .next hp he hps hle
    · intro hp
      cases hp with
      | start hstart hb => exact ⟨hb.le, .inl ⟨hstart, hb⟩⟩
      | @next _ e _ _ hp he _ hle =>
        refine ⟨hle, .inr ⟨e, hpred.mpr he, ?_⟩⟩
        rwa [h.possible e _ he, if_pos (hprev e he)]
  have hproduced : ∀ s, s ∈ Sizev.or (Sizev.cut ((g.pred ps.1).foldl
      (fun pro pps => pro.or (st.produced pps)) (st.produced ps)) (minPacketsize ps))
      (.single (minPacketsize ps)) ↔ ProducedSize g minPacketsize ps s := by
    intro s
    rw [Sizev.mem_or, Sizev.mem_cut, Sizev.mem_foldl_or, h.produced ps tp hps, Sizev.mem_single]
    constructor
    · rintro (⟨hle, ⟨hin, -⟩ | ⟨e, he, hp⟩⟩ | rfl)
      · exact absurd hin hnew
      · have he := hpred.mp he
        exact .next ((h.produced e _ he s).mp hp).2 he hps hle
      · exact .here hps
    · intro hp
      cases hp with
      | here => exact .inr rfl
      | @next _ e _ _ hp he _ hle =>
        exact .inl ⟨hle, .inr ⟨e, hpred.mpr he, (h.produced e _ he s).mpr ⟨hprev e he, hp⟩⟩⟩
  have hfull := Sizev.full_foldl_or (h.full ps).2.1 fun e (_ : e ∈ g.pred ps.1) => (h.full e).2.1
  have hfull' := Sizev.full_foldl_or (h.full ps).2.2 fun e (_ : e ∈ g.pred ps.1) => (h.full e).2.2
  have hcut := hfull.cut (minPacketsize ps)
  have hcut' := (hfull'.cut (minPacketsize ps)).or (Sizev.full_single (minPacketsize ps))
  unfold Propagation.step
  refine ⟨fun e => ?_, fun e t he s => ?_, fun e t he s => ?_, fun e t he s => ?_⟩
  · by_cases heq : e = ps
    · subst heq
      simp only [Function.update_self]
      exact ⟨((h.full e).1.and hcut).or hcut', hcut, hcut'⟩
    · simp only [Function.update_of_ne heq]
      exact h.full e
  · by_cases heq : e = ps
    · subst heq
      simp only [Function.update_self]
      rw [Sizev.mem_or, (h.full e).1.mem_and hcut, hproduced, hpossible, h.sizes e t he, if_neg hnew,
        if_pos (by simp)]
    · simp only [Function.update_of_ne heq, h.sizes e t he, List.mem_append, List.mem_singleton, heq,
        or_false]
  · by_cases heq : e = ps
    · subst heq
      simp only [Function.update_self]
      rw [hpossible, if_pos (by simp)]
    · simp only [Function.update_of_ne heq, h.possible e t he, List.mem_append, List.mem_singleton,
        heq, or_false]
  · by_cases heq : e = ps
    · subst heq
      simp only [Function.update_self]
      rw [hproduced]
      simp
    · simp only [Function.update_of_ne heq, h.produced e t he, List.mem_append, List.mem_singleton,
        heq, or_false]

/-- **Which sizes an edge has in the end.** -/
theorem mem_edgeSizes (hg : g.LoopFree) (he : g.LeadsTo e t) : s ∈ g.edgeSizes minPacketsize e ↔
    BackSize g minPacketsize e s ∧ PossibleSize g minPacketsize e s ∨ ProducedSize g minPacketsize e s := by
  have hmem : ∀ {e}, e ∈ g.nodes.flatMap g.pred ↔ ∃ t, g.LeadsTo e t :=
    mem_flatMap_pred hg fun _ => Iff.rfl
  have hinv : ForwardInv g minPacketsize (g.nodes.flatMap g.pred)
      ((g.nodes.flatMap g.pred).foldl (Propagation.step g minPacketsize)
        (.initial g minPacketsize)) := by
    refine foldl_induct ?_ ?_
    · have hback : BackInv g minPacketsize _ _ := backInv_backSizes hg
      refine ⟨fun e => ⟨hback.1 e, ?_, Sizev.full_zero⟩, fun e t he s => ?_, fun e t he s => ?_,
        fun e t he s => ?_⟩
      · unfold Propagation.initial
        dsimp only
        split
        · exact hback.1 e
        · exact Sizev.full_zero
      · rw [if_neg List.not_mem_nil]
        exact mem_backSizes hg he
      · rw [if_neg List.not_mem_nil]
        unfold Propagation.initial
        dsimp only
        have hout : e ∈ g.outEdges g.start ↔ e.1 = g.start := by
          rw [Cfg.mem_outEdges]
          constructor
          · exact And.left
          · exact fun heq => ⟨heq, heq ▸ Option.isSome_iff_exists.mpr ⟨t, he.2⟩⟩
        split
        next hin => rw [mem_backSizes hg he, and_iff_right (hout.mp hin)]
        next hin => exact iff_of_false (Sizev.not_mem_zero s) fun h => hin (hout.mpr h.1)
      · simp [Propagation.initial, Sizev.not_mem_zero]
    · intro done ps todo hall st h
      obtain ⟨tp, hps⟩ := (hmem (e := ps)).mp (by rw [hall]; simp)
      have hpair := pairwise_precedes hg (fun t => lt_irrefl (g.nodes.idxOf t)) (fun t => id)
        (pairwise_idxOf hg.nodup)
      rw [hall, List.pairwise_append] at hpair
      obtain ⟨-, htodo, hdone⟩ := hpair
      refine h.step hg hps (fun hin => (hdone ps hin ps (by simp)).1 rfl) fun e he => ?_
      have hin := hmem.mpr ⟨_, he⟩
      rw [hall, List.mem_append] at hin
      refine hin.resolve_right fun hin => ?_
      have hlt := hps.forward hg
      rcases List.mem_cons.mp hin with rfl | hin
      · exact lt_irrefl _ (he.inj hps ▸ hlt)
      · rcases ((List.pairwise_cons.mp htodo).1 e hin).2 _ _ hps he with heq | hlt'
        · exact lt_irrefl _ (heq ▸ hlt)
        · exact lt_irrefl _ (hlt.trans hlt')
  have h := hinv.sizes e t he s
  rwa [if_pos (hmem.mpr ⟨t, he⟩)] at h

/-! ### Sizes along paths -/

/-- The largest of the given sizes along some edges. -/
def largest (minPacketsize : Edge → ℕ) (es : List Edge) : ℕ := (es.map minPacketsize).foldr max 0

@[simp] theorem largest_nil : largest minPacketsize [] = 0 := rfl

@[simp] theorem largest_cons (e : Edge) (es : List Edge) :
    largest minPacketsize (e :: es) = max (minPacketsize e) (largest minPacketsize es) := rfl

theorem largest_append (es es' : List Edge) : largest minPacketsize (es ++ es') =
    max (largest minPacketsize es) (largest minPacketsize es') := by
  induction es with
  | nil => simp
  | cons e es ih => rw [List.cons_append, largest_cons, ih, largest_cons, max_assoc]

theorem le_largest {es : List Edge} (h : e ∈ es) : minPacketsize e ≤ largest minPacketsize es := by
  induction es with
  | nil => exact nomatch h
  | cons e' es ih =>
    rw [largest_cons]
    rcases List.mem_cons.mp h with rfl | h
    · exact le_max_left _ _
    · exact (ih h).trans (le_max_right _ _)

theorem back_of_walk (hg : g.LoopFree) {es : List Edge} {dst : ℕ} (hmem : e.1 ∈ g.nodes)
    (hw : g.Walk e.1 (e :: es) dst) : BackSize g minPacketsize e (largest minPacketsize (e :: es)) := by
  induction es generalizing e with
  | nil =>
    obtain ⟨-, t, ht, -⟩ := hw
    rw [largest_cons, largest_nil, max_eq_left (Nat.zero_le _)]
    exact .here ⟨hmem, ht⟩
  | cons e' es ih =>
    obtain ⟨-, t, ht, rfl, hw⟩ := hw
    have he : g.LeadsTo e e'.1 := ⟨hmem, ht⟩
    have hb := ih (he.mem hg) ⟨rfl, hw⟩
    rw [largest_cons]
    rcases le_total (minPacketsize e) (largest minPacketsize (e' :: es)) with hle | hle
    · rw [max_eq_right hle]
      exact .next he hb hle
    · rw [max_eq_left hle]
      exact .here he

theorem produced_of_walk (hg : g.LoopFree) {es : List Edge} {src : ℕ} (hsrc : src ∈ g.nodes)
    (hw : g.Walk src (es ++ [e]) t) :
    ProducedSize g minPacketsize e (largest minPacketsize (es ++ [e])) := by
  induction es using List.reverseRecOn generalizing e t with
  | nil =>
    obtain ⟨rfl, s, hs, -⟩ := hw
    rw [List.nil_append, largest_cons, largest_nil, max_eq_left (Nat.zero_le _)]
    exact .here ⟨hsrc, hs⟩
  | append_singleton es e' ih =>
    obtain ⟨mid, hw, rfl, s, hs, -⟩ := hw.of_append
    have he' : g.LeadsTo e' e.1 := by
      obtain ⟨mid', hw', rfl, s', hs', hs''⟩ := hw.of_append
      exact ⟨hw'.mem hg hsrc, hs'.trans (congrArg some hs'')⟩
    have he : g.LeadsTo e s := ⟨he'.mem hg, hs⟩
    have hp := ih hw
    rw [largest_append, largest_cons, largest_nil, max_eq_left (Nat.zero_le (minPacketsize e))]
    rcases le_total (minPacketsize e) (largest minPacketsize (es ++ [e'])) with hle | hle
    · rw [max_eq_left hle]
      exact .next hp he' he hle
    · rw [max_eq_right hle]
      exact .here he

theorem possible_of_walk (hg : g.LoopFree) {es : List Edge} (hw : g.Walk g.start (es ++ [e]) t)
    (hle : largest minPacketsize es ≤ s) (hb : BackSize g minPacketsize e s) :
    PossibleSize g minPacketsize e s := by
  induction es using List.reverseRecOn generalizing e t with
  | nil => exact .start hw.1 hb
  | append_singleton es e' ih =>
    obtain ⟨mid, hw, rfl, s', hs', -⟩ := hw.of_append
    have he' : g.LeadsTo e' e.1 := by
      obtain ⟨mid', hw', rfl, s'', hs'', heq⟩ := hw.of_append
      exact ⟨hw'.mem hg hg.start_mem, hs''.trans (congrArg some heq)⟩
    have hle' : minPacketsize e' ≤ s := (le_largest (by simp)).trans hle
    rw [largest_append] at hle
    exact .next (ih hw ((le_max_left _ _).trans hle) (.next he' hb hle')) he' ⟨he'.mem hg, hs'⟩ hb.le

theorem PossibleSize.le (h : PossibleSize g minPacketsize e s) : minPacketsize e ≤ s := by
  cases h with
  | start _ hb => exact hb.le
  | next _ _ _ hle => exact hle

theorem ProducedSize.le (h : ProducedSize g minPacketsize e s) : minPacketsize e ≤ s := by
  cases h with
  | here _ => exact le_rfl
  | next _ _ _ hle => exact hle

/-- The largest of the given sizes on a path is a size of all its edges. -/
theorem largest_mem_edgeSizes (hg : g.LoopFree) {es : List Edge} (hpath : g.IsPath es) (he : e ∈ es) :
    largest minPacketsize es ∈ g.edgeSizes minPacketsize e := by
  obtain ⟨es₁, es₂, rfl⟩ := List.append_of_mem he
  obtain ⟨mid, hw₁, rfl, t, ht, hw₂⟩ := hpath.of_append
  have hmem := hw₁.mem hg hg.start_mem
  have hw : g.Walk g.start (es₁ ++ [e]) t := hw₁.append (Cfg.walk_single ht)
  have hsplit : largest minPacketsize (es₁ ++ e :: es₂) =
      max (largest minPacketsize es₁) (largest minPacketsize (e :: es₂)) := largest_append _ _
  rw [mem_edgeSizes hg ⟨hmem, ht⟩]
  rcases le_total (largest minPacketsize es₁) (largest minPacketsize (e :: es₂)) with hle | hle
  · rw [hsplit, max_eq_right hle]
    have hb : BackSize g minPacketsize e _ := back_of_walk hg hmem ⟨rfl, t, ht, hw₂⟩
    exact .inl ⟨hb, possible_of_walk hg hw hle hb⟩
  · have hlast : largest minPacketsize (es₁ ++ [e]) = largest minPacketsize es₁ := by
      rw [largest_append, largest_cons, largest_nil, max_eq_left (Nat.zero_le (minPacketsize e))]
      exact max_eq_left ((le_max_left _ _).trans hle)
    rw [hsplit, max_eq_left hle, ← hlast]
    exact .inr (produced_of_walk hg hg.start_mem hw)

/-! ### Sizes of the edges before -/

/-- No given size is smaller than all of those on the edges before. -/
def Rising (g : Cfg) (minPacketsize : Edge → ℕ) : Prop :=
  ∀ e t, g.LeadsTo e t → e.1 ≠ g.start → ∃ e' ∈ g.pred e.1, minPacketsize e' ≤ minPacketsize e

theorem Rising.possible (hg : g.LoopFree) (hr : Rising g minPacketsize)
    (hb : BackSize g minPacketsize e s) : PossibleSize g minPacketsize e s := by
  induction hn : g.nodes.idxOf e.1 using Nat.strong_induction_on generalizing e with
  | _ n ih =>
  subst hn
  by_cases hstart : e.1 = g.start
  · exact .start hstart hb
  obtain ⟨t, he⟩ := hb.leadsTo
  obtain ⟨e', he', hle⟩ := hr e t he hstart
  have he' := (hg.mem_pred_iff he.1).mp he'
  have hb' := BackSize.next he' hb (hle.trans hb.le)
  exact .next (ih _ (he'.forward hg) hb' rfl) he' he hb.le

/-- A size of an edge is a size of an edge before it, or the one that is given for it. -/
theorem exists_pred_or_eq (hg : g.LoopFree) (he : g.LeadsTo e t) (hstart : e.1 ≠ g.start)
    (hs : s ∈ g.edgeSizes minPacketsize e) :
    (∃ e' ∈ g.pred e.1, s ∈ g.edgeSizes minPacketsize e') ∨ s = minPacketsize e := by
  have hfound : ∀ {e'}, g.LeadsTo e' e.1 → (BackSize g minPacketsize e' s ∧
      PossibleSize g minPacketsize e' s ∨ ProducedSize g minPacketsize e' s) →
      (∃ e' ∈ g.pred e.1, s ∈ g.edgeSizes minPacketsize e') ∨ s = minPacketsize e :=
    fun he' h => .inl ⟨_, (hg.mem_pred_iff he.1).mpr he', (mem_edgeSizes hg he').mpr h⟩
  rcases (mem_edgeSizes hg he).mp hs with ⟨hb, hp⟩ | hp
  · cases hp with
    | start h _ => exact absurd h hstart
    | next hp he' _ _ => exact hfound he' (.inl ⟨.next he' hb hp.le, hp⟩)
  · cases hp with
    | here _ => exact .inr rfl
    | next hp he' _ _ => exact hfound he' (.inr hp)

theorem Rising.exists_pred (hg : g.LoopFree) (hr : Rising g minPacketsize) (he : g.LeadsTo e t)
    (hstart : e.1 ≠ g.start) (hs : s ∈ g.edgeSizes minPacketsize e) :
    ∃ e' ∈ g.pred e.1, s ∈ g.edgeSizes minPacketsize e' := by
  rcases exists_pred_or_eq hg he hstart hs with hs | rfl
  · exact hs
  obtain ⟨e', hpred, hle⟩ := hr e t he hstart
  have he' := (hg.mem_pred_iff he.1).mp hpred
  have hb := BackSize.next he' (.here he) hle
  exact ⟨e', hpred, (mem_edgeSizes hg he').mpr (.inl ⟨hb, hr.possible hg hb⟩)⟩

end

/-- The first loop of `cfg::node::q_with_longest_path(s)`: from the edge `l` on, and from the first
one after the last one, an edge is searched that has a path in its queue. -/
def searchQueue (hasFront : Edge → Bool) (predecessors : List Edge) : ℕ → ℕ → Option ℕ
  | 0, _ => none
  | fuel + 1, l =>
    if predecessors[l]?.any hasFront then some l
    else searchQueue hasFront predecessors fuel (if l + 1 = predecessors.length then 0 else l + 1)

/-- The search comes to an end if there is something to be found. -/
theorem exists_searchQueue {hasFront : Edge → Bool} {predecessors : List Edge} {l : ℕ}
    (hl : l < predecessors.length) (h : ∃ e ∈ predecessors, hasFront e) :
    ∃ fuel r, searchQueue hasFront predecessors fuel l = some r ∧
      predecessors[r]?.any hasFront := by
  obtain ⟨e, he, hfront⟩ := h
  obtain ⟨k, hk, rfl⟩ := List.getElem_of_mem he
  -- how many more edges there are before the one that is known
  induction hn : if l ≤ k then k - l else predecessors.length - l + k using Nat.strong_induction_on
    generalizing l with
  | _ n ih =>
  by_cases hfound : predecessors[l]?.any hasFront = true
  · exact ⟨1, l, by rw [searchQueue, if_pos hfound], hfound⟩
  have hne : l ≠ k := by
    rintro rfl
    rw [List.getElem?_eq_getElem hl] at hfound
    exact hfound hfront
  have hnext : (if l + 1 = predecessors.length then 0 else l + 1) < predecessors.length := by
    split <;> omega
  obtain ⟨fuel, r, hr⟩ := ih _ (by subst hn; split_ifs <;> omega) hnext rfl
  refine ⟨fuel + 1, r, ?_⟩
  rwa [searchQueue, if_neg hfound]

/-- **What the sizes of the edges cover**: on each path the largest of the given sizes, and where they
rise, no sizes but those of the edges before, among which a queue is found. -/
theorem propagateSizes_covers (g : LoopFreeCfg) (minPacketsize : Edge → ℕ)
    (hr : Rising g.toCfg minPacketsize) :
    (∀ es, g.IsPath es → ∀ e ∈ es, largest minPacketsize es ∈ g.edgeSizes minPacketsize e) ∧
      ∀ e t s, g.LeadsTo e t → e.1 ≠ g.start → s ∈ g.edgeSizes minPacketsize e →
        (∃ e' ∈ g.pred e.1, s ∈ g.edgeSizes minPacketsize e') ∧
          ∀ hasFront : Edge → Bool,
            (∀ e' ∈ g.pred e.1, s ∈ g.edgeSizes minPacketsize e' → hasFront e') →
            ∀ l < (g.pred e.1).length, ∃ fuel r,
              searchQueue hasFront (g.pred e.1) fuel l = some r ∧ (g.pred e.1)[r]?.any hasFront := by
  refine ⟨fun es hpath e he => largest_mem_edgeSizes g.loopFree hpath he, ?_⟩
  intro e t s he hstart hs
  obtain ⟨e', he', hs'⟩ := hr.exists_pred g.loopFree he hstart hs
  exact ⟨⟨e', he', hs'⟩, fun hasFront hall l hl => exists_searchQueue hl ⟨e', he', hall e' he' hs'⟩⟩

/-- Two branches, one behind the other, with a block that needs larger packets behind the first one. -/
def twoChecks : LoopFreeCfg where
  node nd :=
    match nd with
    | 0 => ⟨[.properBranch 0 .bne 2], 0, some 2, some 1, []⟩
    | 1 => ⟨[.nop 1], 0, none, some 2, [(0, false)]⟩
    | 2 => ⟨[.properBranch 2 .bne 4], 0, some 4, some 3, [(0, true), (1, false)]⟩
    | 3 => ⟨[.nop 3], 0, none, some 4, [(2, false)]⟩
    | _ => ⟨[.fin], 0, none, none, [(2, true), (3, false)]⟩
  nodes := [0, 1, 2, 3, 4]
  start := 0
  fin := 4
  loopFree := by decide

/-- The sizes that the blocks need. -/
def twoChecksSize (e : Edge) : ℕ := if e = (0, false) ∨ e.1 = 1 then 100 else 60

theorem twoChecks_rising : Rising twoChecks.toCfg twoChecksSize := by
  have hall : ∀ nd ∈ twoChecks.nodes, nd ≠ twoChecks.start → ∀ b, ∃ e' ∈ twoChecks.pred nd,
      twoChecksSize e' ≤ twoChecksSize (nd, b) := by decide
  rintro ⟨nd, b⟩ t ⟨hmem, -⟩ hstart
  exact hall nd hmem hstart b

theorem propagateSizes_covers_twoChecks :
    (∀ es, twoChecks.IsPath es → ∀ e ∈ es,
        largest twoChecksSize es ∈ twoChecks.edgeSizes twoChecksSize e) ∧
      ∀ e t s, twoChecks.LeadsTo e t → e.1 ≠ twoChecks.start →
        s ∈ twoChecks.edgeSizes twoChecksSize e →
        (∃ e' ∈ twoChecks.pred e.1, s ∈ twoChecks.edgeSizes twoChecksSize e') ∧
          ∀ hasFront : Edge → Bool,
            (∀ e' ∈ twoChecks.pred e.1, s ∈ twoChecks.edgeSizes twoChecksSize e' → hasFront e') →
            ∀ l < (twoChecks.pred e.1).length, ∃ fuel r,
              searchQueue hasFront (twoChecks.pred e.1) fuel l = some r ∧
                (twoChecks.pred e.1)[r]?.any hasFront :=
  propagateSizes_covers twoChecks twoChecksSize twoChecks_rising

end NfpEstimator
