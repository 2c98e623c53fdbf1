import NfpEstimator.Cfg.Acyclic
import NfpEstimator.Cfg.Headed
import NfpEstimator.Cfg.Merge
import NfpEstimator.Cfg.UnrollLinks

/-!
# From a listing to a loop-free graph

`cfg::build_cfg` makes a graph of a listing and unrolls it, and `cfg::topo_sort` gives up if the result is
not loop-free. From the start no cycle can be reached then. But a block that has been replaced by its copies
may be left behind with its edges, so that programs are refused that are loop-free
(`build_refused_iff`). This is not so for loops with a header, of which all copies can be reached, and
where the paths that are kept are those within the limit (`build_unroll_headed`).
-/

namespace NfpEstimator

namespace Unrolling

variable {g : Cfg} {L : ℕ → ℕ} {st st' : Unrolling} {p : ℕ × ℕ} {n node i : ℕ} {b : Bool} {s d m u : ℕ}
  {v : Visit} {stack : List (ℕ × ℕ)}

/-! ### Walks of the copies -/

/-- The stack is a walk that reaches no limit, and its nodes are the copies that it comes to. -/
inductive Stacked (g : Cfg) (L : ℕ → ℕ) (st : Unrolling) : List (ℕ × ℕ) → Visit → Prop
  | bottom (i : ℕ) : Stacked g L st [(g.start, i)] (Visit.begin g)
  | push {stack : List (ℕ × ℕ)} {v : Visit} {b : Bool} {s node : ℕ} (i : ℕ) (h : Stacked g L st stack v)
      (hs : g.succ v.nd b = some s) (ha : v.Allows g L s) (hn : CopyOf g st (v.enter g s).key node) :
      Stacked g L st ((node, i) :: stack) (v.enter g s)

theorem Stacked.reaches (h : Stacked g L st stack v) : Visit.Reaches g L v := by
  induction h with
  | bottom => exact .begin
  | push i h hs ha hn ih => exact ih.enter hs ha

theorem Stacked.copyOf (hg : g.Built) (h : Stacked g L st ((node, i) :: stack) v) : CopyOf g st v.key node := by
  cases h with
  | bottom => exact copyOf_zero hg.start_mem
  | push i h hs ha hn => exact hn

theorem Stacked.mono (h : Stacked g L st stack v) (hcopy : ∀ p n, CopyOf g st p n → CopyOf g st' p n) :
    Stacked g L st' stack v := by
  induction h with
  | bottom i => exact .bottom i
  | push i h hs ha hn ih => exact .push i ih hs ha (hcopy _ _ hn)

theorem Stacked.next (h : Stacked g L st ((node, i) :: stack) v) (j : ℕ) : Stacked g L st ((node, j) :: stack) v := by
  cases h with
  | bottom => exact .bottom j
  | push i h hs ha hn => exact .push j h hs ha hn

/-- What holds besides while visits to a copy agree: the stack is a walk, and no link leads deeper than any
visit to the copy needs. -/
structure Followed (g : Cfg) (L : ℕ → ℕ) (stack : List (ℕ × ℕ)) (st : Unrolling) : Prop extends Held g stack st where
  links : ∀ p n, CopyOf g st p n → ∀ b s, g.succ p.1 b = some s → LinkOk g L st p s (st.g.succ n b)
  came : ∀ x ∈ st.unrolled, ∃ v, Visit.Reaches g L v ∧ x.1 = (g.id v.nd, v.depth)
  stacked : stack = [] ∨ ∃ v, Stacked g L st stack v ∧ ∀ nd ∈ g.nodes, st.visited (g.id nd) = v.count nd

/-- As long as nothing is known of the nodes that have been finished. -/
theorem valid_of_links (h : Copies g st)
    (hl : ∀ p n, CopyOf g st p n → ∀ b s, g.succ p.1 b = some s → LinkOk g L st p s (st.g.succ n b)) :
    Valid g L { st with finished := fun _ => false } :=
  ⟨⟨h.start, h.fin, h.id, h.loopdepth, h.lt_fresh, h.notMem, fun _ hn => absurd hn Bool.false_ne_true,
    h.succ_none, h.succ_some⟩, hl, fun _ _ _ hf => absurd hf Bool.false_ne_true⟩

/-- The successor of the node on top of the stack is entered. -/
theorem stacked_enter (hg : g.Built) (hc : Copies g st) (hst : Stacked g L st ((node, i) :: stack) v)
    (hvis : ∀ nd ∈ g.nodes, st.visited (g.id nd) = v.count nd) (hs : g.succ v.nd b = some s)
    (ha : v.Allows g L s) (hu : CopyOf g st (s, v.nextDepth g s) u) :
    ∃ w, Stacked g L (st.enter node i stack u).2 (st.enter node i stack u).1 w ∧
      ∀ nd ∈ g.nodes, (st.enter node i stack u).2.visited (g.id nd) = w.count nd := by
  unfold Unrolling.enter
  split
  · exact ⟨v, hst.next (i + 1), hvis⟩
  · refine ⟨v.enter g s, .push 0 ((hst.next (i + 1)).mono fun _ _ hp => hp) hs ha hu, fun nd hnd => ?_⟩
    show Function.update st.visited (st.g.id u) _ (g.id nd) = _
    rw [hc.id_eq hu]
    by_cases heq : nd = s
    · rw [heq, Function.update_self, Visit.count_enter_self, hvis s hu.1]
    · rw [Function.update_of_ne fun heq' => heq (hg.id_inj _ hnd _ hu.1 heq'), Visit.count_enter_of_ne v heq,
        hvis nd hnd]

/-- The node on top of the stack is left. -/
theorem stacked_leave (hg : g.Built) (hc : Copies g st) (hst : Stacked g L st ((node, i) :: stack) v)
    (hvis : ∀ nd ∈ g.nodes, st.visited (g.id nd) = v.count nd) :
    stack = [] ∨ ∃ w, Stacked g L (st.leave node) stack w ∧
      ∀ nd ∈ g.nodes, (st.leave node).visited (g.id nd) = w.count nd := by
  cases hst with
  | bottom => exact .inl rfl
  | @push stack v b s node i hst hs ha hn =>
    refine .inr ⟨v, hst.mono fun _ _ hp => hp, fun nd hnd => ?_⟩
    have hmem : s ∈ g.nodes := hn.1
    show Function.update st.visited (st.g.id node) _ (g.id nd) = _
    rw [hc.id _ node hn]
    show Function.update st.visited (g.id s) (st.visited (g.id s) - 1) (g.id nd) = _
    by_cases heq : nd = s
    · rw [heq, Function.update_self, hvis s hmem, Visit.count_enter_self, Nat.add_sub_cancel]
    · rw [Function.update_of_ne fun heq' => heq (hg.id_inj _ hnd _ hmem heq'), hvis nd hnd,
        Visit.count_enter_of_ne v heq]

@[simp] theorem g_enter (st : Unrolling) (node i : ℕ) (stack : List (ℕ × ℕ)) (u : ℕ) :
    (st.enter node i stack u).2.g = st.g := by
  unfold Unrolling.enter
  split <;> rfl

@[simp] theorem unrolled_enter (st : Unrolling) (node i : ℕ) (stack : List (ℕ × ℕ)) (u : ℕ) :
    (st.enter node i stack u).2.unrolled = st.unrolled := by
  unfold Unrolling.enter
  split <;> rfl

theorem copyOf_enter (st : Unrolling) (node i : ℕ) (stack : List (ℕ × ℕ)) (u : ℕ) :
    CopyOf g (st.enter node i stack u).2 p n ↔ CopyOf g st p n := by
  unfold CopyOf
  rw [unrolled_enter]

theorem Followed.step (h : Followed g L ((node, i) :: stack) st) (hg : g.Built) (hagree : g.CopiesAgree L)
    (hL : ∀ nd, g.isInLoop nd = true → L (g.id nd) ≠ 0) :
    Followed g L (Unrolling.step L g.loopfreeNodes node i stack st).1
      (Unrolling.step L g.loopfreeNodes node i stack st).2 := by
  have hheld := h.toHeld.step (L := L) hg hL
  obtain ⟨v, hst, hvis⟩ := h.stacked.resolve_left (List.cons_ne_nil _ _)
  have hn := hst.copyOf hg
  have hvalid := valid_of_links h.copies h.links
  rcases h.copies.step_cases hL hn i stack with ⟨-, heq⟩ | ⟨m, b, s, d, hi, hs, hm, hz, hcase⟩
  · rw [heq] at hheld ⊢
    exact ⟨hheld, h.links, h.came, stacked_leave hg h.copies hst hvis⟩
  have hs : g.succ v.nd b = some s := hs
  have hdepth : depthOf g st v.key s = v.nextDepth g s := by
    unfold depthOf Visit.nextDepth
    rw [hvis s hm.1]
    rfl
  -- entering does not change the copies
  have henter : ∀ (st₁ : Unrolling) {u}, Copies g st₁ →
      Held g (st₁.enter node i stack u).1 (st₁.enter node i stack u).2 →
      (∀ p n, CopyOf g st₁ p n → ∀ b s, g.succ p.1 b = some s → LinkOk g L st₁ p s (st₁.g.succ n b)) →
      (∀ x ∈ st₁.unrolled, ∃ v, Visit.Reaches g L v ∧ x.1 = (g.id v.nd, v.depth)) →
      Stacked g L st₁ ((node, i) :: stack) v → (∀ nd ∈ g.nodes, st₁.visited (g.id nd) = v.count nd) →
      v.Allows g L s → CopyOf g st₁ (s, v.nextDepth g s) u →
      Followed g L (st₁.enter node i stack u).1 (st₁.enter node i stack u).2 := by
    intro st₁ u hc hheld hlinks hcame hst hvis ha hu
    refine ⟨hheld, fun p n hp b s hs w hw hnd hd => ?_, ?_, .inr (stacked_enter hg hc hst hvis hs ha hu)⟩
    · obtain ⟨hnone, hsome⟩ := hlinks p n ((copyOf_enter ..).mp hp) b s hs w hw hnd hd
      rw [g_enter]
      exact ⟨hnone, fun m d hm hmc => hsome m d hm ((copyOf_enter ..).mp hmc)⟩
    · rw [unrolled_enter]
      exact hcame
  generalize Unrolling.step L g.loopfreeNodes node i stack st = y at hcase hheld
  cases hcase with
  | unlink hloop hle =>
    have ha : ¬v.Allows g L s := fun ha => absurd (ha hloop) (not_lt.mpr (hdepth ▸ hle))
    have hset := setLink_unlink { st with finished := fun _ => false } node b
    obtain ⟨hvalid', -⟩ := hvalid.setLink hg hn rfl hset hs (fun _ hx => absurd hx (by simp))
      (linkOk_none hg hagree hst.reaches hs ha)
    exact ⟨hheld, hvalid'.links, h.came, .inr ⟨v, hst.mono fun _ _ hp => hp, hvis⟩⟩
  | relink hloop hlim hd u st₁ hcopy =>
    rw [hdepth] at hlim hd hcopy
    have ha : v.Allows g L s := fun _ => hlim
    obtain ⟨hcopies₁, hu, hcopied, -⟩ := h.copies.copy hg hm (Nat.ne_zero_of_lt hd) hcopy
    -- the same without the nodes that have been finished
    have hcopy' : Unrolling.copy { st with finished := fun _ => false } m (v.nextDepth g s) =
        (u, { st₁ with finished := fun _ => false }) := by
      unfold Unrolling.copy at hcopy ⊢
      dsimp only
      split at hcopy
      all_goals
        obtain ⟨rfl, rfl⟩ := Prod.mk.inj hcopy
        rfl
    obtain ⟨hvalid₁, -, -⟩ := hvalid.copy hg hm hd hcopy'
    have hn₁ := hcopied.copyOf _ _ hn
    have hsome : ∀ m ∈ some u, SomeCopyOf g st₁ s m := by
      intro m hmu
      obtain rfl := Option.some.inj hmu
      exact ⟨_, hu, fun hno => absurd (hloop.symm.trans hno) (by simp)⟩
    obtain ⟨hvalid₂, -⟩ := hvalid₁.setLink hg hn₁ rfl
      (setLink_relink { st₁ with finished := fun _ => false } node u b) hs hsome
      (linkOk_some hg hagree hst.reaches hs hvalid₁ ha hu)
    refine henter (st₁.relink node u b) (hcopies₁.setLink hg hn₁ (setLink_relink st₁ node u b) hs hsome)
      hheld hvalid₂.links (fun x hx => ?_) (hst.mono hcopied.copyOf) (fun nd hnd => ?_) ha hu
    · rcases mem_unrolled_copy h.copies hm hcopy hx with hx | hx
      · exact h.came x hx
      · exact ⟨v.enter g s, hst.reaches.enter hs ha, hx⟩
    · show st₁.visited (g.id nd) = _
      rw [hcopied.visited, hvis nd hnd]
  | keep hle hlim =>
    rw [hdepth] at hle hlim
    have hsm : st.g.succ node b = some m := Cfg.mem_succs.mp (List.mem_of_getElem? hi)
    have hlink := h.links _ _ hn b s hs v hst.reaches rfl le_rfl
    obtain rfl : d = v.nextDepth g s := le_antisymm (hlink.2 m d hsm hm) hle
    exact henter st h.copies hheld h.links h.came hst hvis hlim hm

theorem Followed.loop (hg : g.Built) (hagree : g.CopiesAgree L)
    (hL : ∀ nd, g.isInLoop nd = true → L (g.id nd) ≠ 0) {fuel : ℕ} (h : Followed g L stack st)
    (hl : Unrolling.loop L g.loopfreeNodes fuel stack st = some st') : Followed g L [] st' := by
  induction fuel generalizing stack st with
  | zero =>
    cases stack with
    | nil =>
      obtain rfl := Option.some.inj hl
      exact h
    | cons x stack => exact absurd hl.symm (Option.some_ne_none _)
  | succ fuel ih =>
    cases stack with
    | nil =>
      obtain rfl := Option.some.inj hl
      exact h
    | cons x stack => exact ih (h.step hg hagree hL) hl

theorem followed_initial (hg : g.Built) (hclean : g.Clean) : Followed g L [(g.start, 0)] (initial g) :=
  ⟨held_initial hg hclean, (valid_initial hg L).links, fun _ hx => absurd hx List.not_mem_nil,
    .inr ⟨_, .bottom 0, fun _ _ => rfl⟩⟩

/-- Each block is entered at depth 0, by a shortest walk. -/
theorem exists_reaches_zero (hL : ∀ nd, g.isInLoop nd = true → L (g.id nd) ≠ 0) (k : ℕ) :
    ∀ nd es, g.Walk g.start es nd → es.length = k → (∀ es', g.Walk g.start es' nd → k ≤ es'.length) →
      ∃ v, Visit.Reaches g L v ∧ v.key = (nd, 0) ∧
        ∀ s, v.count s ≠ 0 → ∃ es, g.Walk g.start es s ∧ es.length ≤ k := by
  induction k with
  | zero =>
    intro nd es hw hk _
    obtain rfl := List.length_eq_zero_iff.mp hk
    refine ⟨Visit.begin g, .begin, ?_, fun s hs => absurd rfl hs⟩
    rw [← (show g.start = nd from hw)]
    rfl
  | succ k ih =>
    intro nd es hw hk hmin
    obtain rfl | ⟨es, e, rfl⟩ := List.eq_nil_or_concat es
    · exact absurd hk (Nat.succ_ne_zero k).symm
    rw [List.concat_eq_append] at hw hk
    rw [List.length_append, List.length_singleton] at hk
    obtain ⟨mid, hw, hmid, t, ht, rfl⟩ := hw.of_append
    subst hmid
    obtain ⟨v, hv, hkey, hcount⟩ := ih e.1 es hw (by omega) fun es' hw' => by
      have := hmin (es' ++ [e]) (hw'.append (Cfg.walk_single ht))
      rw [List.length_append, List.length_singleton] at this
      omega
    obtain ⟨hnd, hdepth⟩ := Prod.mk.inj hkey
    -- the block has not been entered before, since no shorter walk leads there
    have hzero : v.count t = 0 := by
      by_contra hne
      obtain ⟨es', hw', hle⟩ := hcount t hne
      have := hmin es' hw'
      omega
    have hnext : v.nextDepth g t = 0 := by
      unfold Visit.nextDepth
      rw [hzero, hdepth]
      simp
    have ha : v.Allows g L t := fun hloop => by
      rw [hnext]
      exact Nat.pos_of_ne_zero (hL t hloop)
    refine ⟨v.enter g t, hv.enter (hnd ▸ ht) ha, Prod.ext rfl hnext, fun s hs => ?_⟩
    by_cases hst : s = t
    · refine ⟨es ++ [e], hst ▸ hw.append (Cfg.walk_single ht), ?_⟩
      rw [List.length_append, List.length_singleton]
      omega
    · rw [Visit.count_enter_of_ne v hst] at hs
      obtain ⟨es', hw', hle⟩ := hcount s hs
      exact ⟨es', hw', by omega⟩

theorem Followed.exists_reaches (h : Followed g L stack st) (hg : g.Built) (hclean : g.Clean)
    (hL : ∀ nd, g.isInLoop nd = true → L (g.id nd) ≠ 0) (hn : CopyOf g st p n) :
    ∃ v, Visit.Reaches g L v ∧ v.key = p := by
  obtain ⟨hp, hn⟩ := hn
  split at hn
  next hzero =>
    obtain ⟨es, hw⟩ := hclean.reachable p.1 hp
    have hex : ∃ k es, g.Walk g.start es p.1 ∧ es.length = k := ⟨_, es, hw, rfl⟩
    classical
    obtain ⟨es', hw', hk⟩ := Nat.find_spec hex
    obtain ⟨v, hv, hkey, -⟩ := exists_reaches_zero hL _ p.1 es' hw' hk fun es'' hw'' =>
      Nat.find_le ⟨es'', hw'', rfl⟩
    exact ⟨v, hv, hkey.trans (Prod.ext rfl hzero.symm)⟩
  next hne =>
    obtain ⟨v, hv, hkey⟩ := h.came _ (mem_of_lookup hn)
    have hkey : (g.id p.1, p.2) = (g.id v.nd, v.depth) := hkey
    obtain ⟨hid, hdepth⟩ := Prod.mk.inj hkey
    exact ⟨v, hv, Prod.ext (hg.id_inj _ (hv.mem hg) _ hp hid.symm) hdepth.symm⟩

/-- The end of the program lies on no cycle, so there is one of it. -/
theorem eq_fin (hg : g.Built) (hv : Visit.Reaches g L v) (hclean : g.Clean) (heq : v.nd = g.fin)
    (hn : CopyOf g st v.key n) : n = g.fin := by
  have hnloop : g.isInLoop v.nd = false := by
    rw [← Bool.not_eq_true, Cfg.isInLoop_iff hg (hv.mem hg)]
    rintro ⟨es, hes, hw⟩
    cases es with
    | nil => exact hes rfl
    | cons e es =>
      obtain ⟨he, s, hs, -⟩ := hw
      rw [he, heq, hclean.succ_fin] at hs
      exact Option.some_ne_none s hs.symm
  have hkey : v.key = (g.fin, 0) := Prod.ext heq (hv.depth_eq_zero hnloop)
  exact hn.unique (hkey ▸ copyOf_zero hclean.fin_mem)

section

variable (hvalid : Valid g L st) (hall : ∀ v, Visit.Reaches g L v → ∃ n, CopyOf g st v.key n ∧ st.finished n = true)
include hvalid hall

/-- The links of a copy lead on to where the walks go that come to it. -/
theorem settled_of_reaches (hv : Visit.Reaches g L v) (hn : CopyOf g st v.key n) (hs : g.succ v.nd b = some s) :
    Settled g L st n v b s := by
  obtain ⟨n', hn', hf⟩ := hall v hv
  obtain rfl := hn.unique hn'
  exact hvalid.settled _ n hn hf v hv rfl b s hs

theorem exists_link (hv : Visit.Reaches g L v) (hn : CopyOf g st v.key n) (hm : st.g.succ n b = some m) :
    ∃ w, Visit.Reaches g L w ∧ CopyOf g st w.key m ∧ Visit.Link g L v.key w.key := by
  cases hs : g.succ v.nd b with
  | none => exact absurd (hm.symm.trans (hvalid.succ_none _ n hn b hs)) (Option.some_ne_none m)
  | some s =>
    obtain ⟨hlink, hnone⟩ := settled_of_reaches hvalid hall hv hn hs
    by_cases ha : v.Allows g L s
    · obtain ⟨m', hm', hc, -⟩ := hlink ha
      obtain rfl := Option.some.inj (hm.symm.trans hm')
      exact ⟨v.enter g s, hv.enter hs ha, hc, v, hv, rfl, b, s, hs, ha, rfl⟩
    · exact absurd (hm.symm.trans (hnone ha)) (Option.some_ne_none m)

theorem exists_links {es : List Edge} (hv : Visit.Reaches g L v) (hn : CopyOf g st v.key n) (hw : st.g.Walk n es m) :
    ∃ w, Visit.Reaches g L w ∧ CopyOf g st w.key m ∧
      Relation.ReflTransGen (Visit.Link g L) v.key w.key ∧
      (es ≠ [] → Relation.TransGen (Visit.Link g L) v.key w.key) := by
  induction es generalizing v n with
  | nil =>
    obtain rfl : n = m := hw
    exact ⟨v, hv, hn, .refl, fun hne => absurd rfl hne⟩
  | cons e es ih =>
    obtain ⟨he, s, hs, hw⟩ := hw
    rw [he] at hs
    obtain ⟨w, hw', hws, hlink⟩ := exists_link hvalid hall hv hn hs
    obtain ⟨x, hx, hxm, hlinks, -⟩ := ih hw' hws hw
    exact ⟨x, hx, hxm, .head hlink hlinks, fun _ => .head' hlink hlinks⟩

/-- Each copy that a walk comes to can be reached. -/
theorem reachable_of_reaches (hg : g.Built) (hv : Visit.Reaches g L v) :
    ∃ n, CopyOf g st v.key n ∧ st.g.Reachable n := by
  induction hv with
  | begin => exact ⟨g.start, copyOf_zero hg.start_mem, hvalid.start ▸ Cfg.reachable_start st.g⟩
  | enter hv hs ha ih =>
    obtain ⟨n, hn, hreach⟩ := ih
    obtain ⟨m, hm, hc, -⟩ := (settled_of_reaches hvalid hall hv hn hs).1 ha
    exact ⟨m, hc, hreach.step hm⟩

/-- A walk of the copies goes along the blocks that they stand for, and the last visit tells how often each has
been entered. -/
theorem exists_walk_back {es' : List Edge} (hv : Visit.Reaches g L v) (hn : CopyOf g st v.key n)
    (hw : st.g.Walk n es' m) : ∃ es w, g.Walk v.nd es w.nd ∧ g.blocks es = st.g.blocks es' ∧ Visit.Reaches g L w ∧
      CopyOf g st w.key m ∧ ∀ nd, v.count nd + (es.map Prod.fst).count nd + (if nd = w.nd then 1 else 0) =
        w.count nd + if nd = v.nd then 1 else 0 := by
  induction es' generalizing v n with
  | nil =>
    obtain rfl : n = m := hw
    exact ⟨[], v, rfl, rfl, hv, hn, fun nd => rfl⟩
  | cons e es' ih =>
    obtain ⟨he, m', hm', hw⟩ := hw
    rw [he] at hm'
    cases hs : g.succ v.nd e.2 with
    | none => exact absurd (hm'.symm.trans (hvalid.succ_none _ n hn e.2 hs)) (Option.some_ne_none m')
    | some s =>
      obtain ⟨hlink, hnone⟩ := settled_of_reaches hvalid hall hv hn hs
      by_cases ha : v.Allows g L s
      · obtain ⟨m'', hm'', hc, -⟩ := hlink ha
        obtain rfl := Option.some.inj (hm'.symm.trans hm'')
        obtain ⟨es, w, hw', hblocks, hreach, hwm, hcount⟩ := ih (hv.enter hs ha) hc hw
        refine ⟨(v.nd, e.2) :: es, w, ⟨rfl, s, hs, hw'⟩, ?_, hreach, hwm, fun nd => ?_⟩
        · have hid : st.g.id n = g.id v.nd := hvalid.id _ n hn
          unfold Cfg.blocks at hblocks ⊢
          rw [List.map_cons, List.map_cons, hblocks, he, hid]
        · have hcount := hcount nd
          rw [List.map_cons, List.count_cons]
          simp only [beq_iff_eq, @eq_comm _ v.nd]
          rw [Visit.nd_enter] at hcount
          by_cases hns : nd = s
          · rw [hns, Visit.count_enter_self, if_pos rfl] at hcount
            rw [hns]
            omega
          · rw [Visit.count_enter_of_ne v hns, if_neg hns] at hcount
            omega
      · exact absurd (hm'.symm.trans (hnone ha)) (Option.some_ne_none m')

/-- **Where visits to a copy agree**, the unrolled graph can be sorted: all copies can be reached then. -/
theorem Followed.sortable (h : Followed g L stack st) (hg : g.Built) (hclean : g.Clean) (hagree : g.CopiesAgree L)
    (hL : ∀ nd, g.isInLoop nd = true → L (g.id nd) ≠ 0) : (result st).Sortable := by
  have hmem : ∀ {n}, n ∈ (result st).nodes ↔ Alive g st n := h.tidy.mem_result
  have hreach : ∀ {p n}, CopyOf g st p n → ∃ v, Visit.Reaches g L v ∧ v.key = p := fun hn =>
    h.exists_reaches hg hclean hL hn
  have hfin : CopyOf g st (g.fin, 0) g.fin := copyOf_zero hclean.fin_mem
  have hfineq : (result st).fin = g.fin := hvalid.fin
  refine ⟨⟨h.linked hg hclean, ?_, h.fin_mem hclean, ?_, ?_, ?_, ?_⟩, ?_⟩
  · intro n hn
    obtain ⟨p, hp⟩ := hmem.mp hn
    obtain ⟨v, hv, rfl⟩ := hreach hp
    obtain ⟨n', hn', es, hw⟩ := reachable_of_reaches hvalid hall hg hv
    obtain rfl := hp.unique hn'
    exact ⟨es, walk_result.mpr hw⟩
  · intro n hn
    obtain ⟨p, hp⟩ := hmem.mp hn
    exact (h.tidy.instrs p n hp).symm ▸ hclean.instrs_ne_nil p.1 hp.1
  · exact (congrArg st.g.instrs hfineq).trans ((h.tidy.instrs _ _ hfin).trans hclean.instrs_fin)
  · exact fun b => (congrArg (st.g.succ · b) hfineq).trans (hvalid.succ_none _ _ hfin b (hclean.succ_fin b))
  · intro n hn hne i hi
    obtain ⟨p, hp⟩ := hmem.mp hn
    refine hclean.type_ne_fin p.1 hp.1 (fun heq => hne ?_) i (h.tidy.instrs p n hp ▸ hi)
    obtain ⟨v, hv, rfl⟩ := hreach hp
    exact (eq_fin hg hv hclean heq hp).trans hfineq.symm
  · intro n hn es hes hw
    obtain ⟨p, hp⟩ := hmem.mp hn
    obtain ⟨v, hv, rfl⟩ := hreach hp
    obtain ⟨w, -, hwn, -, hlinks⟩ := exists_links hvalid hall hv hp (walk_result.mp hw)
    have hback := hlinks hes
    rw [hvalid.key_eq hg hwn hp] at hback
    exact Visit.link_irrefl hg hagree v.key hback

end

end Unrolling

/-- **Unrolling keeps the links** in both directions, and afterwards no cycle can be reached. The nodes could
be sorted topologically then; whether `cfg::topo_sort` does so depends on the nodes that cannot be reached. -/
theorem exists_unroll {g : Cfg} (hg : g.Built) (hclean : g.Clean) {limit : ℕ} {limits : ℕ → Option ℕ}
    (hL : ∀ nd, g.isInLoop nd = true → unrollLimit limit limits (g.id nd) ≠ 0) :
    ∃ fuel g', g.unroll limit limits fuel = some g' ∧ g'.Linked ∧ g'.NoCycle ∧ g'.fin ∈ g'.nodes := by
  have hstart : Unrolling.CopyOf g (.initial g) (g.start, 0) g.start := Unrolling.copyOf_zero hg.start_mem
  have htop : Unrolling.OnTop g (unrollLimit limit limits) (fun _ => 0) (g.start, 0) (.initial g) g.start :=
    ⟨⟨hg.start_mem, fun _ h => absurd h (lt_irrefl 0), fun _ => Nat.zero_le _⟩,
      ⟨_, Unrolling.ended_initial hg hL⟩, hstart, fun _ _ => rfl⟩
  obtain ⟨st, ⟨k, hruns⟩, hover⟩ := Unrolling.OnTop.run hg hL _ rfl _ htop rfl Unrolling.handled_zero rfl []
  obtain ⟨rank, hended⟩ := hover.ended
  have hloop : Unrolling.loop (unrollLimit limit limits) g.loopfreeNodes (0 + k) [(g.start, 0)] (.initial g) =
      some st := hruns 0
  have hheld : Unrolling.Held g [] st := (Unrolling.held_initial hg hclean).loop hg hL hloop
  have hno : (Unrolling.result st).NoCycle := by
    rintro nd ⟨es, hw⟩ es' hne hcycle
    have hw := Unrolling.walk_result.mp hw
    have hfinished : st.finished (Unrolling.result st).start = true := by
      rw [show (Unrolling.result st).start = g.start from hended.start]
      exact hover.finished
    have hlen := (hended.rank_lt (hended.rank_lt hfinished hw).1 (Unrolling.walk_result.mp hcycle)).2
    have := List.length_pos_iff.mpr hne
    omega
  refine ⟨0 + k, Unrolling.result st, ?_, hheld.linked hg hclean, hno, hheld.fin_mem hclean⟩
  rw [Cfg.unroll, hloop]
  rfl

/-- **Loops with a header**: the unrolled graph can be sorted, and its paths are those of the program on which
no block on a cycle occurs more often than the limit. -/
theorem exists_unroll_headed {g : Cfg} (hg : g.Built) (hclean : g.Clean) {header rank : ℕ → ℕ}
    (hh : g.Headed header rank) {k : ℕ} (hk : k ≠ 0) :
    ∃ fuel g', g.unroll k (fun _ => none) fuel = some g' ∧ g'.Sortable ∧ ∀ bs,
      (∃ es', g'.IsPath es' ∧ g'.blocks es' = bs) ↔
        ∃ es, g.IsPath es ∧ g.Bounded (fun _ => k) es ∧ g.blocks es = bs := by
  have hL : ∀ nd, g.isInLoop nd = true → (fun _ => k) (g.id nd) ≠ 0 := fun _ _ => hk
  have hagree := hh.copiesAgree hg fun _ => k
  obtain ⟨fuel, st, hloop, hvalid, hall⟩ := Unrolling.exists_settled hg hagree hL
  have h : Unrolling.Followed g (fun _ => k) [] st :=
    (Unrolling.followed_initial hg hclean).loop hg hagree hL hloop
  have hstart : Unrolling.CopyOf g st (Visit.begin g).key g.start := Unrolling.copyOf_zero hg.start_mem
  have hnotstart : ∀ nd, g.isInLoop nd = true → nd ≠ g.start := by
    rintro _ hnd rfl
    exact absurd (hh.start.symm.trans hnd) (by simp)
  refine ⟨fuel, Unrolling.result st, ?_, h.sortable hvalid hall hg hclean hagree hL, fun bs => ⟨?_, ?_⟩⟩
  · rw [Cfg.unroll]
    show (Unrolling.loop (fun _ => k) g.loopfreeNodes fuel [(g.start, 0)] (.initial g)).bind _ = _
    rw [hloop]
    rfl
  · rintro ⟨es', hpath, rfl⟩
    have hw : st.g.Walk g.start es' g.fin := by
      have := Unrolling.walk_result.mp hpath
      rwa [show (Unrolling.result st).start = g.start from hvalid.start,
        show (Unrolling.result st).fin = g.fin from hvalid.fin] at this
    obtain ⟨es, w, hw', hblocks, hreach, hwfin, hcount⟩ :=
      Unrolling.exists_walk_back hvalid hall .begin hstart hw
    have hkey : w.key = (g.fin, 0) := hvalid.key_eq hg hwfin (Unrolling.copyOf_zero hclean.fin_mem)
    have hnd : w.nd = g.fin := congrArg Prod.fst hkey
    have hpath' : g.Walk g.start es g.fin := hnd ▸ hw'
    refine ⟨es, hpath', fun nd hloop => ?_, hblocks⟩
    -- the count at the end bounds the number of visits
    have hle : w.count nd ≤ max 1 k := hreach.count_le_bound hg nd
    have hsum := hcount nd
    rw [show (Visit.begin g).nd = g.start from rfl, if_neg (hnotstart nd hloop)] at hsum
    have hbegin : (Visit.begin g).count nd = 0 := rfl
    show _ ≤ k
    omega
  · rintro ⟨es, hpath, hbound, rfl⟩
    have hfits : (Visit.begin g).Fits g (fun _ => k) es := hh.fits hg hk .begin hpath fun nd hloop => by
      have hbegin : (Visit.begin g).count nd = 0 := rfl
      have hle : (es.map Prod.fst).count nd ≤ k := hbound nd hloop
      omega
    obtain ⟨es', w, n', hw, hblocks, hreach, hfin, hn'⟩ := exists_walk_of_fits hvalid hall .begin hstart hpath hfits
    refine ⟨es', ?_, hblocks⟩
    show (Unrolling.result st).Walk (Unrolling.result st).start es' (Unrolling.result st).fin
    rw [Unrolling.walk_result, show (Unrolling.result st).start = g.start from hvalid.start,
      show (Unrolling.result st).fin = g.fin from hvalid.fin, ← Unrolling.eq_fin hg hreach hclean hfin hn']
    exact hw

/-! ### From the listing -/

theorem sameBlocks_createEdges {g g' : Cfg} {map : ℕ → Option ℕ} {nd : ℕ} (h : g.createEdges map nd = .ok g') :
    Cfg.SameBlocks (fun _ => True) g g' := by
  unfold Cfg.createEdges at h
  split at h
  · split at h
    · cases h
    · obtain rfl := Except.ok.inj h
      exact .refl _ _
  · obtain rfl := Except.ok.inj h
    exact (Cfg.sameBlocks_link _ _ _).trans (Cfg.sameBlocks_link _ _ _)
  · obtain rfl := Except.ok.inj h
    exact Cfg.sameBlocks_link _ _ _
  · obtain rfl := Except.ok.inj h
    exact Cfg.sameBlocks_link _ _ _

theorem sameBlocks_foldlM {map : ℕ → Option ℕ} (nds : List ℕ) {g g' : Cfg}
    (h : nds.foldlM (fun g nd => g.createEdges map nd) g = .ok g') : Cfg.SameBlocks (fun _ => True) g g' := by
  induction nds generalizing g with
  | nil =>
    obtain rfl := Except.ok.inj h
    exact .refl _ _
  | cons nd nds ih =>
    rw [List.foldlM_cons] at h
    cases hg : g.createEdges map nd with
    | error e =>
      rw [hg] at h
      cases h
    | ok g₁ =>
      rw [hg] at h
      exact (sameBlocks_createEdges hg).trans (ih h)

/-- Only the final node of the instruction graph has the final instruction. -/
theorem type_instrGraph (l : Listing) {g : Cfg} (h : Cfg.instrGraph l.instrs = .ok g) :
    ∀ nd ∈ g.nodes, nd ≠ g.fin → ∀ n ∈ g.instrs nd, n.type ≠ .FIN := by
  obtain ⟨start, hsame⟩ : ∃ start, Cfg.SameBlocks (fun _ => True) (Cfg.blank l.instrs start) g := by
    unfold Cfg.instrGraph at h
    have hinit : Cfg.initNodes l.instrs = .ok (Cfg.blank l.instrs 0) := by
      have hfind : l.instrs.find? (fun n => Instr.finID ≤ n.getId) = none :=
        List.find?_eq_none.mpr fun n hn => by simpa using l.below n hn
      rw [Cfg.initNodes, hfind]
      rfl
    rw [hinit] at h
    simp only [bind, Except.bind] at h
    split at h
    · cases h
    · split at h
      · cases h
      next start _ => exact ⟨start, sameBlocks_foldlM _ h⟩
  intro nd hnd hne n hn hty
  rw [hsame.instrs nd trivial, Cfg.instrs_blank, List.mem_singleton] at hn
  rw [hsame.nodes, Cfg.mem_blank] at hnd
  refine hne ?_
  rw [hsame.fin]
  exact Cfg.exitType_blank_fin l start hnd (show (l.instrs.getD nd .fin).type = .FIN from hn ▸ hty)

namespace Merging

variable {g : Cfg} {st st' : Merging}

/-- As long as the final node has not been merged, the final instruction is in no other. -/
def Ends (g : Cfg) (st : Merging) : Prop :=
  st.deleted g.fin = false → ∀ nd, Alive g st nd → nd ≠ g.fin → ∀ n ∈ st.g.instrs nd, n.type ≠ .FIN

theorem Ends.merge (h : Ends g st) (hv : Valid g st) {nd s : ℕ} (hj : Joins st.g (Alive g st) nd s) :
    Ends g (st.merge nd s) := by
  intro hdel m hm hne n hn
  obtain ⟨hm, hms⟩ := alive_merge.mp hm
  have hfs : g.fin ≠ s := by
    intro hfs
    rw [hfs, deleted_merge_self] at hdel
    exact absurd hdel (by simp)
  have hold := h ((deleted_merge_of_ne hfs).symm.trans hdel)
  have hn : n ∈ (st.g.mergeNode nd s).instrs m := hn
  by_cases hmn : m = nd
  · rw [hmn, hj.instrs_self hv.shaped, List.mem_append] at hn
    rcases hn with hn | hn
    · exact hold nd hj.alive (hmn ▸ hne) n hn
    · exact hold s (hj.alive_succ hv.shaped) (Ne.symm hfs) n hn
  · rw [Cfg.instrs_mergeNode_of_ne hmn hms] at hn
    exact hold m hm hne n hn

theorem Ends.loop {fuel : ℕ} {nds : List ℕ} (h : Ends g st) (hv : Valid g st) (hnds : ∀ nd ∈ nds, nd ∈ g.nodes)
    (hl : Merging.loop fuel nds st = some st') : Ends g st' := by
  induction fuel generalizing nds st with
  | zero =>
    cases nds with
    | nil =>
      obtain rfl := Option.some.inj hl
      exact h
    | cons nd nds => exact absurd hl.symm (Option.some_ne_none _)
  | succ fuel ih =>
    cases nds with
    | nil =>
      obtain rfl := Option.some.inj hl
      exact h
    | cons nd nds =>
      obtain ⟨hnd, hrest⟩ := List.forall_mem_cons.mp hnds
      rw [Merging.loop] at hl
      cases hm : st.mergeable nd with
      | some s =>
        rw [hm] at hl
        have hj := mergeable_eq_some hv.shaped hnd hm
        exact ih (h.merge hv hj) (hv.merge hj) hnds hl
      | none =>
        rw [hm] at hl
        exact ih h hv hrest hl

end Merging

/-- What `cfg::build_cfg` makes of a listing before it unrolls. -/
theorem exists_build (l : Listing) :
    ∃ g₀, Cfg.instrGraph l.instrs = .ok g₀ ∧ ∀ fuel, 2 * (l.instrs.length + 1) < fuel →
      ∃ g, Cfg.build l.instrs fuel = some (.ok g) ∧ g.Built ∧
        (g₀.Reachable g₀.fin → ¬g₀.LeftOnce → g.Clean) := by
  obtain ⟨g₀, hg₀, hshaped₀, hnodes₀⟩ := Cfg.exists_instrGraph l
  refine ⟨g₀, hg₀, fun fuel hfuel => ?_⟩
  have hnodup₀ : g₀.nodes.Nodup := hnodes₀ ▸ List.nodup_range
  have hlen₀ : g₀.nodes.length = l.instrs.length + 1 := by rw [hnodes₀, List.length_range]
  obtain ⟨g₁, hg₁, ht⟩ := Cfg.exists_removeUnreachable hshaped₀ hnodup₀ (hlen₀ ▸ hfuel)
  have hshaped₁ := ht.shaped hshaped₀
  have hreach₁ : ∀ nd ∈ g₁.nodes, g₁.Reachable nd := fun nd hnd =>
    ht.reachable_iff.mpr ((ht.mem_nodes nd).mp hnd)
  have hlen₁ : g₁.nodes.length ≤ g₀.nodes.length :=
    (ht.nodup.subperm fun nd hnd => hshaped₀.mem_of_reachable ((ht.mem_nodes nd).mp hnd)).length_le
  have hinitial := Merging.valid_initial hshaped₁ hreach₁
  have hleft : Merging.left g₁ ⟨g₁, fun _ => false⟩ = g₁.nodes.length := by simp [Merging.left]
  have hroom : g₁.nodes.length + Merging.left g₁ ⟨g₁, fun _ => false⟩ ≤ fuel := by omega
  obtain ⟨st, hloop, hvalid, -⟩ := Merging.exists_loop hinitial (fun x hx => hx) (fun x hx => .inl hx) hroom
  have hends : Merging.Ends g₁ st := by
    refine Merging.Ends.loop (fun _ nd hnd hne n hn => ?_) hinitial (fun x hx => hx) hloop
    have hn : n ∈ g₁.instrs nd := hn
    rw [ht.instrs] at hn
    exact type_instrGraph l hg₀ nd (hshaped₀.mem_of_reachable ((ht.mem_nodes nd).mp hnd.1)) (ht.fin ▸ hne) n hn
  refine ⟨Merging.rest g₁ st, ?_, hvalid.built, fun hreach hleft => ?_⟩
  · simp only [Cfg.build, hg₀, hg₁, Option.bind_some, Cfg.mergeEdges, hloop]
    rfl
  have hfin₁ : g₁.fin ∈ g₁.nodes := by rw [ht.mem_nodes, ht.fin]; exact hreach
  have hdel : st.deleted g₁.fin = false := by
    rw [← Bool.not_eq_true]
    exact fun hdel => hleft ((ht.leftOnce_iff hshaped₀).mpr (hvalid.fallsThrough hdel))
  have hfin : (Merging.rest g₁ st).fin = g₁.fin := hvalid.fin
  have halive : Merging.Alive g₁ st (Merging.rest g₁ st).fin := hfin ▸ ⟨hfin₁, hdel⟩
  exact {
    linked := hvalid.linked ht.nodup
    reachable := fun nd => hvalid.reachable_rest
    fin_mem := Merging.mem_rest.mpr halive
    instrs_ne_nil := fun nd hnd => hvalid.shaped.ne_nil nd (Merging.mem_rest.mp hnd)
    instrs_fin := hvalid.shaped.instrs_fin halive
    succ_fin := hvalid.shaped.succ_fin
    type_ne_fin := fun nd hnd hne => hends hdel nd (Merging.mem_rest.mp hnd) (hfin ▸ hne) }

section

variable (l : Listing) {g₀ g : Cfg} {fuel : ℕ} (hfuel : 2 * (l.instrs.length + 1) < fuel)
  (hg₀ : Cfg.instrGraph l.instrs = .ok g₀) (hreach : g₀.Reachable g₀.fin) (honce : ¬g₀.LeftOnce)
  (hg : Cfg.build l.instrs fuel = some (.ok g))

include hfuel hg₀ hreach honce hg

theorem built_and_clean : g.Built ∧ g.Clean := by
  obtain ⟨g₀', hg₀', hbuild⟩ := exists_build l
  obtain rfl := Except.ok.inj (hg₀.symm.trans hg₀')
  obtain ⟨g', hg', hbuilt, hclean⟩ := hbuild fuel hfuel
  obtain rfl := Except.ok.inj (Option.some.inj (hg.symm.trans hg'))
  exact ⟨hbuilt, hclean hreach honce⟩

/-- **When a listing is refused.** If the end of the program can be reached, and is not left to a single
instruction, unrolling ends with a graph whose links are kept in both directions, and from whose start no cycle
can be reached. The analysis that follows gives up all the same, with the error that the graph is not loop-free, if
and only if the end cannot be reached any more, or a node that cannot be reached has an edge to the way there, other
than to the start. -/
theorem build_refused_iff {limit : ℕ} {limits : ℕ → Option ℕ}
    (hL : ∀ nd, g.isInLoop nd = true → unrollLimit limit limits (g.id nd) ≠ 0) :
    ∃ fuel' g', g.unroll limit limits fuel' = some g' ∧ g'.Linked ∧ g'.NoCycle ∧
      ∀ fuel'', g'.nodes.length < fuel'' →
        (g'.topoSort fuel'' = some (.error "cfg not loop-free") ↔ ¬g'.Reachable g'.fin ∨ g'.Blocked) := by
  obtain ⟨hbuilt, hclean⟩ := built_and_clean l hfuel hg₀ hreach honce hg
  obtain ⟨fuel', g', hunroll, hlinked, hno, hfin⟩ := exists_unroll hbuilt hclean hL
  exact ⟨fuel', g', hunroll, hlinked, hno, fun fuel'' h => Cfg.topoSort_error_iff hlinked hno hfin h⟩

/-- **Loops with a header are unrolled as they should be.** The paths of the graph are those of the program on
which no block on a cycle occurs more often than the limit, and `cfg::topo_sort` makes a loop-free graph of it. -/
theorem build_unroll_headed {header rank : ℕ → ℕ} (hh : g.Headed header rank) {k : ℕ} (hk : k ≠ 0) :
    ∃ fuel' g', g.unroll k (fun _ => none) fuel' = some g' ∧
      (∀ fuel'', g'.nodes.length < fuel'' → ∃ nds, g'.topoSort fuel'' = some (.ok { g' with nodes := nds }) ∧
        nds.Perm g'.nodes ∧ Cfg.LoopFree { g' with nodes := nds }) ∧
      ∀ bs, (∃ es', g'.IsPath es' ∧ g'.blocks es' = bs) ↔
        ∃ es, g.IsPath es ∧ g.Bounded (fun _ => k) es ∧ g.blocks es = bs := by
  obtain ⟨hbuilt, hclean⟩ := built_and_clean l hfuel hg₀ hreach honce hg
  obtain ⟨fuel', g', hunroll, hsortable, hpaths⟩ := exists_unroll_headed hbuilt hclean hh hk
  exact ⟨fuel', g', hunroll, fun fuel'' h => hsortable.exists_topoSort h, hpaths⟩

end

/-- It is enough to look at the nodes. -/
theorem not_leftOnce (l : Listing) {g₀ : Cfg} (hg₀ : Cfg.instrGraph l.instrs = .ok g₀)
    (h : ∀ nd ∈ g₀.nodes, g₀.exitType nd = .BRANCH ∨ g₀.exitType nd = .JUMP ∨ g₀.succ nd false ≠ some g₀.fin) :
    ¬g₀.LeftOnce := by
  rintro ⟨nd, hreach, hb, hj, hs, -⟩
  obtain ⟨g, hg, hshaped, -⟩ := Cfg.exists_instrGraph l
  obtain rfl := Except.ok.inj (hg₀.symm.trans hg)
  rcases h nd (hshaped.mem_of_reachable hreach) with h | h | h
  · exact hb h
  · exact hj h
  · exact h hs

/-- A program that starts again until one of two conditions holds. -/
def backToStart : Listing := ⟨[.properBranch 0 .bne 2, .properBranch 1 .bne 0], by decide, by decide, by decide⟩

/-- The block behind the start is unrolled away from it, but keeps its edge to the end. -/
theorem build_refused_backToStart : ∃ g fuel g', Cfg.build backToStart.instrs 7 = some (.ok g) ∧
    g.unroll 2 (fun _ => none) fuel = some g' ∧ g'.NoCycle ∧
    g'.topoSort 6 = some (.error "cfg not loop-free") ∧ (¬g'.Reachable g'.fin ∨ g'.Blocked) := by
  have hrun : ∀ x ∈ Cfg.build backToStart.instrs 7, ∀ g ∈ x.toOption, ∃ g' ∈ g.unroll 2 (fun _ => none) 30,
      g'.nodes.length < 6 ∧ ∃ r ∈ g'.topoSort 6, r.toOption.isNone = true := by decide +kernel
  obtain ⟨g, hg⟩ : ∃ g, Cfg.build backToStart.instrs 7 = some (.ok g) := ⟨_, rfl⟩
  have hlimit : ∀ nd, g.isInLoop nd = true → unrollLimit 2 (fun _ => none) (g.id nd) ≠ 0 := fun _ _ =>
    Nat.succ_ne_zero 1
  obtain ⟨g', hunroll', hlen, r, hr, herror⟩ := hrun _ hg g rfl
  obtain ⟨fuel, g'', hunroll, -, hno, hiff⟩ := build_refused_iff backToStart
    (by decide : 2 * (backToStart.instrs.length + 1) < 7) rfl ⟨[(0, true)], by decide⟩
    (not_leftOnce backToStart rfl (by decide)) hg hlimit
  obtain rfl := unroll_unique hunroll' hunroll
  have hrefused : g'.topoSort 6 = some (.error "cfg not loop-free") := by
    obtain ⟨st, -, rfl⟩ := Option.map_eq_some_iff.mp hr
    refine hr.trans (congrArg some ?_)
    split at herror
    next h => rw [if_pos h]
    · cases herror
  exact ⟨g, fuel, g', hg, hunroll, hno, hrefused, (hiff 6 hlen).mp hrefused⟩

/-- A loop that waits for a condition. -/
def waitLoop : Listing := ⟨[.nop 0, .properBranch 1 .bne 1], by decide, by decide, by decide⟩

theorem build_unroll_headed_waitLoop : ∃ g, Cfg.build waitLoop.instrs 7 = some (.ok g) ∧
    ∃ fuel' g', g.unroll 2 (fun _ => none) fuel' = some g' ∧
      (∀ fuel'', g'.nodes.length < fuel'' → ∃ nds, g'.topoSort fuel'' = some (.ok { g' with nodes := nds }) ∧
        nds.Perm g'.nodes ∧ Cfg.LoopFree { g' with nodes := nds }) ∧
      ∀ bs, (∃ es', g'.IsPath es' ∧ g'.blocks es' = bs) ↔
        ∃ es, g.IsPath es ∧ g.Bounded (fun _ => 2) es ∧ g.blocks es = bs :=
  ⟨_, rfl, build_unroll_headed waitLoop (by decide : 2 * (waitLoop.instrs.length + 1) < 7) rfl
    ⟨[(0, false), (1, false)], by decide⟩ (not_leftOnce waitLoop rfl (by decide)) rfl
    (by decide : Cfg.Headed _ (fun _ => 1) fun _ => 0) two_ne_zero⟩

end NfpEstimator
