import NfpEstimator.Cfg.StaticStates

/-!
# What static analysis never takes away

The states of `cfg::static_analysis` stand for the states that the program can be in. If each
operation on them keeps to what the instructions do (`Domain.Sound`), no execution of the program
takes an edge that is taken away, and the packet of an execution is at least as large as the
`min_packetsize` of each edge that it takes (`static_analysis_sound`).
-/

namespace NfpEstimator

variable {σ τ : Type*} {C : Semantics τ} {D : Domain σ} {γ : σ → τ → Prop}

/-- An execution has come to a node along some edges, in a state. -/
inductive Cfg.Arrives (g : Cfg) (C : Semantics τ) : ℕ → List Edge → τ → Prop
  | start {t : τ} (h : C.initial t) : g.Arrives C g.start [] t
  | step {nd s : ℕ} {es : List Edge} {b : Bool} {t t' : τ} (h : g.Arrives C nd es t)
      (hl : C.Leaves g nd b t t') (hs : g.succ nd b = some s) : g.Arrives C s (es ++ [(nd, b)]) t'

namespace Cfg.Arrives

variable {g : Cfg} {nd : ℕ} {es : List Edge} {t : τ}

theorem walk (h : g.Arrives C nd es t) : g.Walk g.start es nd := by
  induction h with
  | start => exact rfl
  | @step nd s es b t t' h hl hs ih => exact ih.append (Cfg.walk_single (e := (nd, b)) hs)

/-- The nodes that have been left come before the one where the execution is. -/
theorem idxOf_lt (hg : g.LoopFree) (h : g.Arrives C nd es t) : ∀ e ∈ es, g.nodes.idxOf e.1 < g.nodes.idxOf nd := by
  intro e he
  obtain ⟨es₁, es₂, rfl⟩ := List.append_of_mem he
  obtain ⟨mid, hw, rfl, s, hs, hrest⟩ := h.walk.of_append
  have hmid := hw.mem hg hg.start_mem
  have hle := Cfg.Walk.idxOf_le hg (hg.succ_mem _ hmid e.2 s hs) hrest
  have := hg.forward _ hmid e.2 s hs
  omega

end Cfg.Arrives

/-! ### A node -/

namespace Analysis

variable {st st' st'' : Analysis σ} {g : Cfg} {nd : ℕ} {done todo : List ℕ} {bs bs' : List Bool}

/-- What the tasks for some edges of a node leave of what was known. -/
structure Refines (γ : σ → τ → Prop) (nd : ℕ) (bs : List Bool) (st st' : Analysis σ) : Prop where
  same : Cfg.SameBlocks (fun _ => True) st.g st'.g
  cut : ∀ e ∈ st'.cut, e ∈ st.cut ∨ e.1 = nd ∧ e.2 ∈ bs
  minPacketsize : ∀ e, ¬(e.1 = nd ∧ e.2 ∈ bs) → st'.minPacketsize e = st.minPacketsize e
  map : ∀ x a t, st.map x = some a → γ a t → ∃ a', st'.map x = some a' ∧ γ a' t

theorem Refines.refl (nd : ℕ) (st : Analysis σ) : Refines γ nd [] st st :=
  ⟨.refl _ _, fun _ he => .inl he, fun _ _ => rfl, fun _ a _ ha ht => ⟨a, ha, ht⟩⟩

theorem Refines.trans (h : Refines γ nd bs st st') (h' : Refines γ nd bs' st' st'') :
    Refines γ nd (bs ++ bs') st st'' where
  same := h.same.trans h'.same
  cut e he := by
    rw [List.mem_append]
    rcases h'.cut e he with he | ⟨hnd, hb⟩
    · exact (h.cut e he).imp_right fun hb => ⟨hb.1, .inl hb.2⟩
    · exact .inr ⟨hnd, .inr hb⟩
  minPacketsize e he := by
    rw [List.mem_append] at he
    rw [h'.minPacketsize e fun hb => he ⟨hb.1, .inr hb.2⟩, h.minPacketsize e fun hb => he ⟨hb.1, .inl hb.2⟩]
  map x a t ha ht := by
    obtain ⟨a', ha', ht'⟩ := h.map x a t ha ht
    exact h'.map x a' t ha' ht'

/-- An edge of a node has been handled: whoever takes it is accounted for. -/
def Handles (C : Semantics τ) (γ : σ → τ → Prop) (nd : ℕ) (state : σ) (st : Analysis σ) (s : ℕ × Bool) : Prop :=
  ∀ u t, γ state u → C.branch (st.g.loopdepth nd) ((st.g.instrs nd).getLastD .fin) s.2 u t →
    (nd, s.2) ∉ st.cut ∧ st.minPacketsize (nd, s.2) ≤ C.packetSize t ∧ ∃ a, st.map s.1 = some a ∧ γ a t

theorem Handles.of_refines {state : σ} {s : ℕ × Bool} (h : Handles C γ nd state st s)
    (hr : Refines γ nd bs st st') (hs : s.2 ∉ bs) : Handles C γ nd state st' s := by
  intro u t hu hb
  have hinstrs : st'.g.instrs nd = st.g.instrs nd := hr.same.instrs nd trivial
  have hdepth : st'.g.loopdepth nd = st.g.loopdepth nd := hr.same.loopdepth nd trivial
  rw [hinstrs, hdepth] at hb
  obtain ⟨hcut, hmin, a, ha, ht⟩ := h u t hu hb
  refine ⟨fun he => ?_, ?_, hr.map _ a t ha ht⟩
  · exact (hr.cut _ he).elim hcut fun hb => hs hb.2
  · rwa [hr.minPacketsize (nd, s.2) fun hb => hs hb.2]

theorem visitEdge_spec (hD : D.Sound C γ) (minimize : Bool) (state : σ) (s : ℕ × Bool)
    (hno : (nd, s.2) ∉ st.cut) : Refines γ nd [s.2] st (visitEdge D minimize nd state st s) ∧
      Handles C γ nd state (visitEdge D minimize nd state st s) s := by
  have hstate : ∀ u t, γ state u →
      C.branch (st.g.loopdepth nd) ((st.g.instrs nd).getLastD .fin) s.2 u t →
      γ (if minimize = true then D.partialMinimize (D.branch (st.g.loopdepth nd)
        ((st.g.instrs nd).getLastD .fin) s.2 state) else
        D.branch (st.g.loopdepth nd) ((st.g.instrs nd).getLastD .fin) s.2 state) t := by
    intro u t hu hb
    have ht := hD.branch _ _ _ _ _ _ hu hb
    split
    · exact hD.partialMinimize _ _ ht
    · exact ht
  unfold visitEdge
  dsimp only
  generalize hsst : (if minimize = true then _ else _) = sstate at hstate ⊢
  split
  next hunsat =>
    have hsame := Cfg.sameBlocks_unlink (g := st.g) nd s.2
    refine ⟨⟨hsame, fun e he => ?_, fun _ _ => rfl, fun _ a _ ha ht => ⟨a, ha, ht⟩⟩, fun u t hu hb => ?_⟩
    · exact (List.mem_cons.mp he).elim (fun heq => .inr (by simp [heq])) .inl
    · -- nobody takes it
      have hinstrs : (st.g.unlink nd s.2).instrs nd = st.g.instrs nd := hsame.instrs nd trivial
      have hdepth : (st.g.unlink nd s.2).loopdepth nd = st.g.loopdepth nd := hsame.loopdepth nd trivial
      rw [hinstrs, hdepth] at hb
      exact absurd (hstate u t hu hb) (hD.isUnsat _ _ hunsat)
  · refine ⟨⟨.refl _ _, fun _ he => .inl he, fun e he => ?_, fun x a t ha ht => ?_⟩, fun u t hu hb => ?_⟩
    · refine Function.update_of_ne (fun heq => he ?_) _ _
      simp [heq]
    · by_cases hx : x = s.1
      · subst hx
        refine ⟨_, Function.update_self _ _ _, ?_⟩
        rw [ha]
        exact hD.staticMerge _ _ _ (.inl ht)
      · exact ⟨a, (Function.update_of_ne hx _ _).trans ha, ht⟩
    · have ht := hstate u t hu hb
      refine ⟨hno, ?_, _, Function.update_self _ _ _, ?_⟩
      · show Function.update st.minPacketsize (nd, s.2) (D.minimumValue sstate) (nd, s.2) ≤ _
        rw [Function.update_self]
        exact hD.minimumValue _ _ ht
      · cases hm : st.map s.1 with
        | none => exact ht
        | some m => exact hD.staticMerge _ _ _ (.inr ht)

/-- All edges of a node. -/
theorem foldl_visitEdge (hD : D.Sound C γ) {f : Analysis σ → ℕ × Bool → Analysis σ} (st : Analysis σ) (state : σ)
    (hf : ∀ st s, ∃ minimize, f st s = visitEdge D minimize nd state st s) (l : List (ℕ × Bool))
    (hl : (l.map Prod.snd).Nodup) (hno : ∀ s ∈ l, (nd, s.2) ∉ st.cut) :
    Refines γ nd (l.map Prod.snd) st (l.foldl f st) ∧ ∀ s ∈ l, Handles C γ nd state (l.foldl f st) s := by
  induction l generalizing st with
  | nil => exact ⟨.refl nd st, fun s hs => absurd hs List.not_mem_nil⟩
  | cons s l ih =>
    rw [List.map_cons, List.nodup_cons] at hl
    obtain ⟨hno', hno⟩ := List.forall_mem_cons.mp hno
    obtain ⟨minimize, heq⟩ := hf st s
    obtain ⟨hr, hh⟩ := visitEdge_spec hD minimize state s hno'
    rw [← heq] at hr hh
    have hno'' : ∀ s' ∈ l, (nd, s'.2) ∉ (f st s).cut := fun s' hs' he => by
      rcases hr.cut _ he with he | ⟨-, hb⟩
      · exact hno s' hs' he
      · have hb : s'.2 = s.2 := List.mem_singleton.mp hb
        exact hl.1 (hb ▸ List.mem_map_of_mem hs')
    obtain ⟨hrest, hall⟩ := ih (f st s) hl.2 hno''
    exact ⟨hr.trans hrest, List.forall_mem_cons.mpr ⟨hh.of_refines hrest hl.1, hall⟩⟩

theorem stateOf_sound (hD : D.Sound C γ) {t u : τ} (ht : γ ((st.map nd).getD D.empty) t)
    (hu : C.Execs (st.g.loopdepth nd) (st.g.instrs nd).dropLast t u) : γ (st.stateOf D nd) u := by
  unfold stateOf
  revert hu ht
  generalize (st.map nd).getD D.empty = a
  induction (st.g.instrs nd).dropLast generalizing a t with
  | nil => exact fun ht hu => (show t = u from hu) ▸ ht
  | cons i is ih =>
    rintro ht ⟨v, hv, hrest⟩
    exact ih _ (hD.apply _ _ _ _ _ ht hv) hrest

/-! ### The loop -/

/-- The executions that have left only nodes that were visited are accounted for. -/
structure Covers (D : Domain σ) (C : Semantics τ) (γ : σ → τ → Prop) (g : Cfg) (done : List ℕ)
    (st : Analysis σ) : Prop where
  edges : ∀ nd es t, g.Arrives C nd es t → (∀ e ∈ es, e.1 ∈ done) →
    ∀ e ∈ es, e ∉ st.cut ∧ st.minPacketsize e ≤ C.packetSize t
  map : ∀ nd es t, g.Arrives C nd es t → (∀ e ∈ es, e.1 ∈ done) → nd ∉ done →
    ∃ a, st.map nd = some a ∧ γ a t

/-- What the visit of a node leaves of what was known, and what it does for the edges of the node. -/
structure Visited (C : Semantics τ) (γ : σ → τ → Prop) (g : Cfg) (done : List ℕ) (nd : ℕ) (st st' : Analysis σ) :
    Prop where
  cut : ∀ e, e.1 ≠ nd → e ∈ st'.cut → e ∈ st.cut
  minPacketsize : ∀ e, e.1 ≠ nd → st'.minPacketsize e = st.minPacketsize e
  map : ∀ x a t, x ≠ nd → st.map x = some a → γ a t → ∃ a', st'.map x = some a' ∧ γ a' t
  leaves : ∀ es t t' b s, g.Arrives C nd es t → (∀ e ∈ es, e.1 ∈ done) → C.Leaves g nd b t t' →
    g.succ nd b = some s → (nd, b) ∉ st'.cut ∧ st'.minPacketsize (nd, b) ≤ C.packetSize t' ∧
      ∃ a, st'.map s = some a ∧ γ a t'

/-- Nobody comes to a node that no edge leads to any more. -/
theorem Covers.not_arrives (h : Covers D C γ g done st) (hf : Forward g done st) (hg : g.LoopFree)
    (hin : st.g.indegree nd = 0) (hne : nd ≠ g.start) {es : List Edge} {t : τ} (ha : g.Arrives C nd es t)
    (hes : ∀ e ∈ es, e.1 ∈ done) : False := by
  have hw := (hf.walk_iff hg hg.start_mem (.inl rfl)).mpr ⟨ha.walk, fun e he => (h.edges nd es t ha hes e he).1⟩
  obtain rfl | ⟨es, e, rfl⟩ := List.eq_nil_or_concat es
  · exact hne (show g.start = nd from hw).symm
  · rw [List.concat_eq_append] at hw
    obtain ⟨mid, hw, hmid, x, hx, hxs⟩ := hw.of_append
    have hmem : e.1 ∈ st.g.nodes := hmid ▸ hf.linked.walk_mem (hf.same.start ▸ hf.linked.start_mem) hw
    have hpred := hf.linked.succ_pred e.1 hmem e.2 nd (hx.trans (congrArg some hxs))
    rw [List.length_eq_zero_iff.mp hin] at hpred
    exact List.not_mem_nil hpred

theorem Covers.visited (h : Covers D C γ g done st) (hf : Forward g done st) (hg : g.LoopFree) (hnot : nd ∉ done)
    (hD : D.Sound C γ) (satCheck : Bool) (late : ℕ → Bool) :
    Visited C γ g done nd st (visit D satCheck late st nd) := by
  have hinstrs : st.g.instrs nd = g.instrs nd := hf.same.instrs nd trivial
  have hdepth : st.g.loopdepth nd = g.loopdepth nd := hf.same.loopdepth nd trivial
  unfold Analysis.visit
  split
  next hunlinked =>
    obtain ⟨hin, hne⟩ := hunlinked
    rw [hf.same.start] at hne
    exact ⟨fun _ _ he => he, fun _ _ => rfl, fun _ a _ _ ha ht => ⟨a, ha, ht⟩, fun es t t' b s ha hes _ _ =>
      (h.not_arrives hf hg hin hne ha hes).elim⟩
  · obtain ⟨hr, hh⟩ := foldl_visitEdge hD
      { st with map := Function.update st.map nd (some (st.stateOf D nd)) } (st.stateOf D nd)
      (f := fun st' s => visitEdge D (satCheck && decide (1 < (if late nd = true then st'.g else st.g).outdegree nd))
        nd (st.stateOf D nd) st' s) (fun _ _ => ⟨_, rfl⟩) (st.g.succs nd) (Cfg.nodup_map_snd_succs _ _)
      fun s _ he => hnot (hf.cut _ he)
    refine ⟨fun e hne he => ?_, fun e hne => ?_, fun x a t hne ha ht => ?_, fun es t t' b s ha hes hl hs => ?_⟩
    · exact (hr.cut e he).resolve_right fun hb => hne hb.1
    · exact hr.minPacketsize e fun hb => hne hb.1
    · exact hr.map x a t ((Function.update_of_ne hne _ _).trans ha) ht
    · obtain ⟨u, hu, hb⟩ := hl
      obtain ⟨a, hma, hta⟩ := h.map nd es t ha hes hnot
      have hst : γ (st.stateOf D nd) u := by
        refine stateOf_sound hD (t := t) (by rw [hma]; exact hta) ?_
        rw [hinstrs, hdepth]
        exact hu
      have hs' : st.g.succ nd b = some s :=
        (hf.succ nd b s).mpr ⟨hs, fun he => hnot (hf.cut _ he), fun hd => absurd hd hnot⟩
      refine hh (s, b) (Cfg.mem_succs.mpr hs') u t' hst ?_
      rw [hr.same.instrs nd trivial, hr.same.loopdepth nd trivial]
      show C.branch (st.g.loopdepth nd) ((st.g.instrs nd).getLastD .fin) b u t'
      rw [hinstrs, hdepth]
      exact hb

/-- Whoever has come to a node that was visited has left none but those before. -/
theorem left_before (hg : g.LoopFree) (hnodes : g.nodes = done ++ nd :: todo) {m : ℕ} {es : List Edge} {t : τ}
    (ha : g.Arrives C m es t) (hm : m ∈ done ++ [nd]) (hes : ∀ e ∈ es, e.1 ∈ done ++ [nd]) :
    ∀ e ∈ es, e.1 ∈ done := by
  have hpair := pairwise_idxOf hg.nodup
  rw [hnodes, List.pairwise_append] at hpair
  have hlast : ∀ x ∈ done, g.nodes.idxOf x < g.nodes.idxOf nd := fun x hx => by
    rw [hnodes]
    exact hpair.2.2 x hx nd List.mem_cons_self
  intro e he
  have hlt := ha.idxOf_lt hg e he
  refine (List.mem_append.mp (hes e he)).resolve_right fun heq => ?_
  rw [List.mem_singleton.mp heq] at hlt
  rcases List.mem_append.mp hm with hm | hm
  · exact lt_asymm hlt (hlast m hm)
  · exact lt_irrefl _ (List.mem_singleton.mp hm ▸ hlt)

/-- The edges that an execution has taken are there, with sizes that fit. -/
theorem Covers.visit_edges (h : Covers D C γ g done st) (hv : Visited C γ g done nd st st') (hg : g.LoopFree)
    (hnodes : g.nodes = done ++ nd :: todo) (hnot : nd ∉ done) {x : ℕ} {es : List Edge} {t : τ}
    (ha : g.Arrives C x es t) (hes : ∀ e ∈ es, e.1 ∈ done ++ [nd]) :
    ∀ e ∈ es, e ∉ st'.cut ∧ st'.minPacketsize e ≤ C.packetSize t := by
  intro e he
  cases ha with
  | start => exact absurd he List.not_mem_nil
  | @step m _ es b t' _ ha hl hs =>
    have hm : m ∈ done ++ [nd] := hes (m, b) (by simp)
    have hbef := left_before hg hnodes ha hm fun e he => hes e (List.mem_append_left _ he)
    rcases List.mem_append.mp he with he | he
    · have hne : e.1 ≠ nd := fun heq => hnot (heq ▸ hbef e he)
      obtain ⟨hno, hle⟩ := h.edges m es t' ha hbef e he
      rw [hv.minPacketsize e hne, hl.packetSize]
      exact ⟨fun he => hno (hv.cut e hne he), hle⟩
    · obtain rfl := List.mem_singleton.mp he
      by_cases heq : m = nd
      · subst heq
        obtain ⟨hno, hle, -⟩ := hv.leaves es t' t b x ha hbef hl hs
        exact ⟨hno, hle⟩
      · have hmd : m ∈ done := (List.mem_append.mp hm).resolve_right (by simpa using heq)
        obtain ⟨hno, hle⟩ := h.edges x (es ++ [(m, b)]) t (.step ha hl hs)
          (List.forall_mem_append.mpr ⟨hbef, by simpa using hmd⟩) (m, b) (List.mem_append_right _ he)
        rw [hv.minPacketsize (m, b) heq]
        exact ⟨fun he => hno (hv.cut (m, b) heq he), hle⟩

/-- The state of a node that is still to be visited stands for the executions that have come there. -/
theorem Covers.visit_map (h : Covers D C γ g done st) (hv : Visited C γ g done nd st st') (hg : g.LoopFree)
    (hnodes : g.nodes = done ++ nd :: todo) {x : ℕ} {es : List Edge} {t : τ}
    (ha : g.Arrives C x es t) (hes : ∀ e ∈ es, e.1 ∈ done ++ [nd]) (hx : x ∉ done ++ [nd]) :
    ∃ a, st'.map x = some a ∧ γ a t := by
  have hxne : x ≠ nd := fun heq => hx (by simp [heq])
  have hxd : x ∉ done := fun hd => hx (List.mem_append_left _ hd)
  cases ha with
  | start hi =>
    obtain ⟨a, hma, hta⟩ := h.map _ [] t (.start hi) (by simp) hxd
    exact hv.map _ a t hxne hma hta
  | @step m _ es b t' _ ha hl hs =>
    have hm : m ∈ done ++ [nd] := hes (m, b) (by simp)
    have hbef := left_before hg hnodes ha hm fun e he => hes e (List.mem_append_left _ he)
    by_cases heq : m = nd
    · subst heq
      exact (hv.leaves es t' t b x ha hbef hl hs).2.2
    · have hmd : m ∈ done := (List.mem_append.mp hm).resolve_right (by simpa using heq)
      obtain ⟨a, hma, hta⟩ := h.map x (es ++ [(m, b)]) t (.step ha hl hs)
        (List.forall_mem_append.mpr ⟨hbef, by simpa using hmd⟩) hxd
      exact hv.map x a t hxne hma hta

theorem Covers.visit (h : Covers D C γ g done st) (hf : Forward g done st) (hg : g.LoopFree)
    (hnodes : g.nodes = done ++ nd :: todo) (hD : D.Sound C γ) (satCheck : Bool) (late : ℕ → Bool) :
    Covers D C γ g (done ++ [nd]) (visit D satCheck late st nd) := by
  have hnot : nd ∉ done := by
    have hnodup := hg.nodup
    rw [hnodes, List.nodup_append] at hnodup
    exact fun hd => hnodup.2.2 nd hd nd List.mem_cons_self rfl
  have hv := h.visited hf hg hnot hD satCheck late
  exact ⟨fun _ _ _ ha hes => h.visit_edges hv hg hnodes hnot ha hes,
    fun _ _ _ ha hes => h.visit_map hv hg hnodes ha hes⟩

end Analysis

end NfpEstimator
