import NfpEstimator.Cfg.Copies
import NfpEstimator.Cfg.Sortable

/-!
# The links of the unrolled graph

Each iteration of `cfg::unroll` takes an edge away, leads it elsewhere or makes a copy of a node with
all the edges out of it. All the while an edge is known at both of its ends (`Unrolling.Held`), so the
unrolled graph is linked in both directions (`Unrolling.Held.linked`).
-/

namespace NfpEstimator

/-! ### Links of some nodes -/

namespace Cfg

variable {g : Cfg} {alive : ℕ → Prop} {nd s c : ℕ} {b : Bool}

/-- The links between some nodes are kept in both directions. -/
structure MirroredOn (alive : ℕ → Prop) (g : Cfg) : Prop where
  mem_pred : ∀ s, alive s → ∀ e, e ∈ g.pred s ↔ alive e.1 ∧ g.succ e.1 e.2 = some s
  nodup : ∀ s, alive s → (g.pred s).Nodup

theorem MirroredOn.unlink (h : MirroredOn alive g) (nd : ℕ) (b : Bool) : MirroredOn alive (g.unlink nd b) := by
  have hpred : ∀ s, alive s → (g.unlink nd b).pred s = (g.pred s).filter fun e => e ≠ (nd, b) := fun s hs =>
    pred_unlink_of fun he => ((h.mem_pred s hs _).mp he).2
  refine ⟨fun s hs e => ?_, fun s hs => ?_⟩
  · rw [hpred s hs, List.mem_filter, h.mem_pred s hs, succ_unlink]
    by_cases he : e = (nd, b)
    · simp [he]
    · have hne : ¬(e.1 = nd ∧ e.2 = b) := fun heq => he (Prod.ext heq.1 heq.2)
      simp [he, hne]
  · rw [hpred s hs]
    exact (h.nodup s hs).filter _

theorem MirroredOn.link (h : MirroredOn alive g) (hnd : alive nd) (hnone : g.succ nd b = none) (s : ℕ) :
    MirroredOn alive (g.link nd s b) := by
  have hnew : ∀ m, alive m → (nd, b) ∉ g.pred m := fun m hm he =>
    Option.some_ne_none m (((h.mem_pred m hm _).mp he).2.symm.trans hnone)
  refine ⟨fun m hm e => ?_, fun m hm => ?_⟩
  · rw [pred_link, succ_link]
    by_cases he : e = (nd, b)
    · subst he
      simp only [and_self, if_true, Option.some.injEq]
      split
      next hms => simp [hms, hnd]
      next hms => exact iff_of_false (hnew m hm) fun heq => hms heq.2.symm
    · have hne : ¬(e.1 = nd ∧ e.2 = b) := fun heq => he (Prod.ext heq.1 heq.2)
      rw [if_neg hne, ← h.mem_pred m hm]
      split
      next hms => simp [hms, he]
      · rfl
  · rw [pred_link]
    split
    next hms =>
      subst hms
      refine List.Nodup.append (h.nodup m hm) (List.nodup_singleton _) fun e he heq => ?_
      exact hnew m hm (List.mem_singleton.mp heq ▸ he)
    · exact h.nodup m hm

theorem MirroredOn.links (l : List (ℕ × Bool)) (hl : (l.map Prod.snd).Nodup) (hc : alive c)
    (h : MirroredOn alive g) (hnone : ∀ x ∈ l, g.succ c x.2 = none) :
    MirroredOn alive (l.foldl (fun g s => g.link c s.1 s.2) g) := by
  induction l generalizing g with
  | nil => exact h
  | cons x l ih =>
    rw [List.map_cons, List.nodup_cons] at hl
    obtain ⟨hx, hnone⟩ := List.forall_mem_cons.mp hnone
    refine ih hl.2 (h.link hc hx x.1) fun y hy => ?_
    have hne : y.2 ≠ x.2 := fun heq => hl.1 (heq ▸ List.mem_map_of_mem hy)
    rw [succ_link, if_neg fun heq => hne heq.2]
    exact hnone y hy

/-- A copy of a node, of a number that is new. -/
theorem MirroredOn.clone (h : MirroredOn alive g) (hclosed : ∀ m, alive m → ∀ b s, g.succ m b = some s → alive s)
    (hnew : ¬alive c) (nd depth : ℕ) : MirroredOn (fun m => alive m ∨ m = c) (g.clone nd c depth) := by
  set g₁ := g.setNode c ⟨g.instrs nd, 0, none, none, []⟩ with hg₁
  have hsucc : ∀ m b, g₁.succ m b = if m = c then none else g.succ m b := by
    intro m b
    rw [hg₁, succ_setNode]
    split <;> simp
  have hpred : ∀ m, g₁.pred m = if m = c then [] else g.pred m := fun m => pred_setNode c _ m
  have h₁ : MirroredOn (fun m => alive m ∨ m = c) g₁ := by
    refine ⟨fun s hs e => ?_, fun s hs => ?_⟩
    · rw [hpred, hsucc]
      by_cases hsc : s = c
      · rw [if_pos hsc]
        refine iff_of_false List.not_mem_nil fun ⟨he, heq⟩ => ?_
        split_ifs at heq with hec
        exact hnew (hsc ▸ hclosed e.1 (he.resolve_right hec) e.2 s heq)
      · rw [if_neg hsc, h.mem_pred s (hs.resolve_right hsc)]
        by_cases hec : e.1 = c
        · rw [if_pos hec, hec]
          exact iff_of_false (fun hx => hnew hx.1) fun hx => Option.some_ne_none s hx.2.symm
        · simp [hec]
    · rw [hpred]
      split
      · exact List.nodup_nil
      next hsc => exact h.nodup s (hs.resolve_right hsc)
  have h₂ := h₁.links (g.succs nd) (nodup_map_snd_succs g nd) (.inr rfl) fun x _ => by rw [hsucc, if_pos rfl]
  have hpred₂ : ∀ m, (g.clone nd c depth).pred m =
      ((g.succs nd).foldl (fun g s => g.link c s.1 s.2) g₁).pred m := by
    intro m
    rw [Cfg.clone, pred_setNode]
    split
    next hm =>
      rw [hm]
      rfl
    · rfl
  have hsucc₂ : ∀ m b, (g.clone nd c depth).succ m b =
      ((g.succs nd).foldl (fun g s => g.link c s.1 s.2) g₁).succ m b := fun m b =>
    succ_setLoopdepth c depth m b
  exact ⟨fun s hs e => by rw [hpred₂, hsucc₂]; exact h₂.mem_pred s hs e,
    fun s hs => by rw [hpred₂]; exact h₂.nodup s hs⟩

end Cfg

/-! ### Copies -/

theorem perm_insertKey (k : ℕ × ℕ) (u : ℕ) (l : List ((ℕ × ℕ) × ℕ)) : (insertKey k u l).Perm ((k, u) :: l) := by
  induction l with
  | nil => exact .refl _
  | cons x l ih =>
    unfold insertKey
    split
    · exact .refl _
    · exact (ih.cons x).trans (.swap _ _ _)

namespace Unrolling

variable {g g' : Cfg} {L : ℕ → ℕ} {st st' : Unrolling} {p : ℕ × ℕ} {n node i : ℕ} {b : Bool} {s d m u depth : ℕ}
  {v : Visit} {stack : List (ℕ × ℕ)}

/-- The node is a copy of some block. -/
def Alive (g : Cfg) (st : Unrolling) (n : ℕ) : Prop := ∃ p, CopyOf g st p n

theorem Copies.alive_succ (h : Copies g st) (hn : Alive g st n) (hm : st.g.succ n b = some m) : Alive g st m := by
  obtain ⟨p, hp⟩ := hn
  cases hs : g.succ p.1 b with
  | none => exact absurd (hm.symm.trans (h.succ_none p n hp b hs)) (Option.some_ne_none m)
  | some s =>
    obtain ⟨d, hc, -⟩ := h.succ_some p n hp b s hs m hm
    exact ⟨_, hc⟩

/-- What else holds of the copies: the links between them are kept in both directions, and each is remembered
for a block. -/
structure Tidy (g : Cfg) (st : Unrolling) : Prop where
  nodes : st.g.nodes = g.nodes
  instrs : ∀ p n, CopyOf g st p n → st.g.instrs n = g.instrs p.1
  mirrored : Cfg.MirroredOn (Alive g st) st.g
  keys : (st.unrolled.map Prod.fst).Nodup
  blocks : ∀ x ∈ st.unrolled, x.1.2 ≠ 0 ∧ ∃ s ∈ g.nodes, x.1.1 = g.id s

theorem Tidy.setGraph (h : Tidy g st) (hsame : Cfg.SameBlocks (fun _ => True) st.g g')
    (hm : Cfg.MirroredOn (Alive g st) g') : Tidy g { st with g := g' } :=
  ⟨hsame.nodes.trans h.nodes, fun p n hp => (hsame.instrs n trivial).trans (h.instrs p n hp), hm, h.keys, h.blocks⟩

theorem Tidy.unlink (h : Tidy g st) (node : ℕ) (b : Bool) : Tidy g { st with g := st.g.unlink node b } :=
  h.setGraph (Cfg.sameBlocks_unlink node b) (h.mirrored.unlink node b)

theorem Tidy.relink (h : Tidy g st) (hn : Alive g st node) (u : ℕ) (b : Bool) : Tidy g (st.relink node u b) := by
  refine h.setGraph ((Cfg.sameBlocks_unlink node b).trans (Cfg.sameBlocks_link node u b)) ?_
  refine (h.mirrored.unlink node b).link hn ?_ u
  rw [Cfg.succ_unlink, if_pos ⟨rfl, rfl⟩]

/-- Only a copy that is made is remembered in addition. -/
theorem mem_unrolled_copy (hc : Copies g st) (hm : CopyOf g st (s, d) m) (hcopy : st.copy m depth = (u, st'))
    {x : (ℕ × ℕ) × ℕ} (hx : x ∈ st'.unrolled) : x ∈ st.unrolled ∨ x.1 = (g.id s, depth) := by
  unfold Unrolling.copy at hcopy
  rw [hc.id_eq hm] at hcopy
  split at hcopy
  · obtain ⟨-, rfl⟩ := Prod.mk.inj hcopy
    exact .inl hx
  · obtain ⟨-, rfl⟩ := Prod.mk.inj hcopy
    rcases List.mem_cons.mp ((perm_insertKey (st.g.id m, depth) st.fresh st.unrolled).mem_iff.mp hx) with rfl | hx
    · exact .inr (by rw [hc.id_eq hm])
    · exact .inl hx

/-- A copy is found or made. -/
theorem Tidy.copy (h : Tidy g st) (hc : Copies g st) (hg : g.Built) (hm : CopyOf g st (s, d) m)
    (hdepth : depth ≠ 0) (hcopy : st.copy m depth = (u, st')) : Tidy g st' := by
  have hmem := fun x => mem_unrolled_copy hc hm hcopy (x := x)
  unfold Unrolling.copy at hcopy
  rw [hc.id_eq hm] at hcopy
  split at hcopy
  · obtain ⟨-, rfl⟩ := Prod.mk.inj hcopy
    exact h
  next hlook =>
    obtain ⟨-, rfl⟩ := Prod.mk.inj hcopy
    have hcases := copyOf_make_iff hc hg hm hlook hdepth
    have hfresh : ∀ p n, CopyOf g st p n → n ≠ st.fresh := fun p n hp => (hc.lt_fresh p n hp).ne
    have hsame := Cfg.sameBlocks_clone (g := st.g) m st.fresh depth
    have halive : Alive g (st.make m depth) = fun n => Alive g st n ∨ n = st.fresh := by
      funext n
      refine propext ⟨fun ⟨p, hp⟩ => ?_, fun hn => ?_⟩
      · exact ((hcases p n).mp hp).elim (fun hp => .inr hp.2) fun hp => .inl ⟨p, hp⟩
      · rcases hn with ⟨p, hp⟩ | rfl
        · exact ⟨p, (hcases p n).mpr (.inr hp)⟩
        · exact ⟨_, (hcases (s, depth) st.fresh).mpr (.inl ⟨rfl, rfl⟩)⟩
    have hperm := perm_insertKey (st.g.id m, depth) st.fresh st.unrolled
    refine ⟨hsame.nodes.trans h.nodes, fun p n hp => ?_, ?_, ?_, fun x hx => ?_⟩
    · rcases (hcases p n).mp hp with ⟨rfl, rfl⟩ | hp
      · exact (Cfg.instrs_clone m st.fresh depth).trans (h.instrs (s, d) m hm)
      · exact (hsame.instrs n (hfresh p n hp)).trans (h.instrs p n hp)
    · rw [halive]
      exact h.mirrored.clone (fun n hn b s hs => hc.alive_succ hn hs) (fun ⟨p, hp⟩ => hfresh p _ hp rfl) m depth
    · refine ((hperm.map Prod.fst).nodup_iff).mpr (List.nodup_cons.mpr ⟨fun hmem => ?_, h.keys⟩)
      obtain ⟨x, hx, hxk⟩ := List.mem_map.mp hmem
      rw [hc.id_eq hm] at hxk
      have hne := List.lookup_eq_none_iff.mp hlook x hx
      simp [hxk] at hne
    · rcases hmem x hx with hx | hx
      · exact h.blocks x hx
      · rw [hx]
        exact ⟨hdepth, s, hm.1, rfl⟩

/-! ### The loop -/

/-- What holds while `cfg::unroll` is in its loop. -/
structure Held (g : Cfg) (stack : List (ℕ × ℕ)) (st : Unrolling) : Prop where
  copies : Copies g st
  tidy : Tidy g st
  alive : ∀ x ∈ stack, Alive g st x.1

theorem Held.enter (h : Held g ((node, i) :: stack) st) {u : ℕ} (hu : Alive g st u) :
    Held g (st.enter node i stack u).1 (st.enter node i stack u).2 := by
  obtain ⟨hnode, hstack⟩ := List.forall_mem_cons.mp h.alive
  unfold Unrolling.enter
  split
  · exact ⟨h.copies, h.tidy, List.forall_mem_cons.mpr ⟨hnode, hstack⟩⟩
  · exact ⟨h.copies.withVisited _, ⟨h.tidy.nodes, h.tidy.instrs, h.tidy.mirrored, h.tidy.keys, h.tidy.blocks⟩,
      List.forall_mem_cons.mpr ⟨hu, List.forall_mem_cons.mpr ⟨hnode, hstack⟩⟩⟩

theorem Held.step (h : Held g ((node, i) :: stack) st) (hg : g.Built)
    (hL : ∀ nd, g.isInLoop nd = true → L (g.id nd) ≠ 0) :
    Held g (Unrolling.step L g.loopfreeNodes node i stack st).1
      (Unrolling.step L g.loopfreeNodes node i stack st).2 := by
  obtain ⟨p, hn⟩ := h.alive _ List.mem_cons_self
  rcases h.copies.step_cases hL hn i stack with ⟨-, heq⟩ | ⟨m, b, s, d, hi, hs, hm, hz, hcase⟩
  · rw [heq]
    exact ⟨h.copies.leave hn, ⟨h.tidy.nodes, h.tidy.instrs, h.tidy.mirrored, h.tidy.keys, h.tidy.blocks⟩,
      fun x hx => h.alive x (List.mem_cons_of_mem _ hx)⟩
  generalize Unrolling.step L g.loopfreeNodes node i stack st = y at hcase
  cases hcase with
  | unlink hloop hle =>
    exact ⟨h.copies.setLink hg hn (setLink_unlink st node b) hs fun _ hx => absurd hx (by simp),
      h.tidy.unlink node b, h.alive⟩
  | relink hloop hlim hd u st₁ hcopy =>
    have hne := Nat.ne_zero_of_lt hd
    obtain ⟨hcopies₁, hu, hcopied, -⟩ := h.copies.copy hg hm hne hcopy
    have htidy₁ := h.tidy.copy h.copies hg hm hne hcopy
    have hn₁ := hcopied.copyOf _ _ hn
    have hsome : ∀ m ∈ some u, SomeCopyOf g st₁ s m := by
      intro m hmu
      obtain rfl := Option.some.inj hmu
      exact ⟨_, hu, fun hno => absurd (hloop.symm.trans hno) (by simp)⟩
    refine Held.enter ⟨hcopies₁.setLink hg hn₁ (setLink_relink st₁ node u b) hs hsome,
      htidy₁.relink ⟨_, hn₁⟩ u b, fun x hx => ?_⟩ ⟨_, hu⟩
    obtain ⟨q, hq⟩ := h.alive x hx
    exact ⟨q, hcopied.copyOf q _ hq⟩
  | keep => exact h.enter ⟨_, hm⟩

theorem Held.loop (hg : g.Built) (hL : ∀ nd, g.isInLoop nd = true → L (g.id nd) ≠ 0) {fuel : ℕ}
    (h : Held g stack st) (hl : Unrolling.loop L g.loopfreeNodes fuel stack st = some st') : Held g [] st' := by
  induction fuel generalizing stack st with
  | zero =>
    cases stack with
    | nil =>
      obtain rfl := Option.some.inj hl
      exact h
    | cons x stack => exact absurd hl.symm (Option.some_ne_none _)
  | succ fuel ih =>
    cases stack with
    | nil =>
      obtain rfl := Option.some.inj hl
      exact h
    | cons x stack => exact ih (h.step hg hL) hl

theorem held_initial (hg : g.Built) (hclean : g.Clean) : Held g [(g.start, 0)] (initial g) := by
  have halive : Alive g (initial g) = (· ∈ g.nodes) := by
    funext n
    refine propext ⟨fun ⟨p, hp⟩ => ?_, fun hn => ⟨_, copyOf_zero hn⟩⟩
    rw [(copyOf_initial hp).2]
    exact hp.1
  refine ⟨copies_initial hg, ⟨rfl, fun p n hp => ?_, ?_, List.nodup_nil, fun x hx => absurd hx List.not_mem_nil⟩,
    fun x hx => ?_⟩
  · rw [(copyOf_initial hp).2]
    rfl
  · rw [halive]
    refine ⟨fun s hs e => ⟨hclean.linked.pred_succ s hs e, fun he => ?_⟩, hclean.linked.pred_nodup⟩
    exact hclean.linked.succ_pred e.1 he.1 e.2 s he.2
  · rw [List.mem_singleton.mp hx, halive]
    exact hg.start_mem

/-! ### The unrolled graph -/

theorem mem_of_lookup {l : List ((ℕ × ℕ) × ℕ)} {k : ℕ × ℕ} (h : l.lookup k = some n) : (k, n) ∈ l := by
  obtain ⟨l₁, l₂, rfl, -⟩ := List.lookup_eq_some_iff.mp h
  exact List.mem_append_right _ List.mem_cons_self

theorem lookup_of_mem {l : List ((ℕ × ℕ) × ℕ)} (h : (l.map Prod.fst).Nodup) {x : (ℕ × ℕ) × ℕ} (hx : x ∈ l) :
    l.lookup x.1 = some x.2 := by
  obtain ⟨w, hw⟩ := Option.isSome_iff_exists.mp (List.lookup_isSome_iff.mpr ⟨x, hx, beq_self_eq_true x.1⟩)
  have heq : (x.1, w) = x := List.inj_on_of_nodup_map h (mem_of_lookup hw) hx rfl
  exact hw.trans (congrArg some (congrArg Prod.snd heq))

/-- `cfg::unroll`'s graph, with the copies among its nodes. -/
def result (st : Unrolling) : Cfg := { st.g with nodes := st.g.nodes ++ st.unrolled.map Prod.snd }

theorem Tidy.copyOf (h : Tidy g st) {x : (ℕ × ℕ) × ℕ} (hx : x ∈ st.unrolled) :
    ∃ p, CopyOf g st p x.2 ∧ p.2 ≠ 0 ∧ x.1 = (g.id p.1, p.2) := by
  obtain ⟨hne, s, hs, hid⟩ := h.blocks x hx
  have hkey : x.1 = (g.id s, x.1.2) := Prod.ext hid rfl
  refine ⟨(s, x.1.2), ⟨hs, ?_⟩, hne, hkey⟩
  rw [if_neg (show (s, x.1.2).2 ≠ 0 from hne)]
  show st.unrolled.lookup (g.id s, x.1.2) = some x.2
  rw [← hkey]
  exact lookup_of_mem h.keys hx

theorem Tidy.mem_result (h : Tidy g st) : n ∈ (result st).nodes ↔ Alive g st n := by
  show n ∈ st.g.nodes ++ st.unrolled.map Prod.snd ↔ _
  rw [List.mem_append, h.nodes, List.mem_map]
  constructor
  · rintro (hn | ⟨x, hx, rfl⟩)
    · exact ⟨_, copyOf_zero hn⟩
    · obtain ⟨p, hp, -⟩ := h.copyOf hx
      exact ⟨p, hp⟩
  · rintro ⟨p, hp, hn⟩
    split at hn
    · exact .inl (hn ▸ hp)
    · exact .inr ⟨_, mem_of_lookup hn, rfl⟩

theorem walk_result {src dst : ℕ} {es : List Edge} : (result st).Walk src es dst ↔ st.g.Walk src es dst := by
  have hsucc : ∀ nd b, (result st).succ nd b = st.g.succ nd b := fun _ _ => rfl
  exact Cfg.walk_congr hsucc

/-- **The links of the unrolled graph are kept in both directions.** -/
theorem Held.linked (h : Held g stack st) (hg : g.Built) (hclean : g.Clean) : (result st).Linked := by
  have hmem : ∀ {n}, n ∈ (result st).nodes ↔ Alive g st n := h.tidy.mem_result
  refine ⟨?_, ?_, ?_, ?_, ?_, ?_⟩
  · show (st.g.nodes ++ st.unrolled.map Prod.snd).Nodup
    rw [h.tidy.nodes]
    refine List.Nodup.append hclean.linked.nodup ?_ fun n hn hn' => ?_
    · refine List.Nodup.map_on (fun x hx y hy heq => ?_) (List.Nodup.of_map _ h.tidy.keys)
      obtain ⟨p, hp, -, hkey⟩ := h.tidy.copyOf hx
      obtain ⟨q, hq, -, hkey'⟩ := h.tidy.copyOf hy
      rw [heq] at hp
      obtain rfl := h.copies.key_eq hg hp hq
      exact Prod.ext (hkey.trans hkey'.symm) heq
    · obtain ⟨x, hx, rfl⟩ := List.mem_map.mp hn'
      obtain ⟨p, hp, hne, -⟩ := h.tidy.copyOf hx
      exact h.copies.notMem p _ hp hne hn
  · refine hmem.mpr ⟨(g.start, 0), ?_⟩
    show CopyOf g st (g.start, 0) st.g.start
    rw [h.copies.start]
    exact copyOf_zero hg.start_mem
  · exact fun n hn b m hm => hmem.mpr (h.copies.alive_succ (hmem.mp hn) hm)
  · exact fun n hn b m hm =>
      (h.tidy.mirrored.mem_pred m (h.copies.alive_succ (hmem.mp hn) hm) (n, b)).mpr ⟨hmem.mp hn, hm⟩
  · exact fun n hn e he => ((h.tidy.mirrored.mem_pred n (hmem.mp hn) e).mp he).imp_left hmem.mpr
  · exact fun n hn => h.tidy.mirrored.nodup n (hmem.mp hn)

theorem Held.fin_mem (h : Held g stack st) (hclean : g.Clean) : (result st).fin ∈ (result st).nodes := by
  refine h.tidy.mem_result.mpr ⟨(g.fin, 0), ?_⟩
  show CopyOf g st (g.fin, 0) st.g.fin
  rw [h.copies.fin]
  exact copyOf_zero hclean.fin_mem

end Unrolling

end NfpEstimator
