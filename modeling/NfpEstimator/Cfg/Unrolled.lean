import NfpEstimator.Cfg.Copies
import NfpEstimator.Cfg.Depth

/-!
# What unrolling keeps

While `cfg::unroll` is at a node, its stack is a walk from the start that reaches no limit,
and the node is the copy for the depth of this visit. Provided that visits to the same
copy agree on how they go on, each link is set once and for all to the copy that every walk
comes to next, or removed where every walk comes to the limit.

So the paths of the unrolled program are exactly those on which no depth comes to a limit.
The paths on which no block occurs more often than its limit are kept if and only if none
of their depths comes to a limit either (`unroll_keeps_iff`). This is not always so: in a
loop that directly follows another one, the visits start at the depth of the other loop
(`unroll_drops`).
-/

namespace NfpEstimator

namespace Unrolling

/-! ### The invariant -/

/-- Where a link of a copy may lead that has not been followed yet: no deeper than any visit
to the copy, or to a copy for a larger depth, needs. -/
def LinkOk (g : Cfg) (L : ℕ → ℕ) (st : Unrolling) (p : ℕ × ℕ) (s : ℕ) (x : Option ℕ) : Prop :=
  ∀ v, Visit.Reaches g L v → v.nd = p.1 → p.2 ≤ v.depth →
    (x = none → ¬v.Allows g L s) ∧ ∀ m d, x = some m → CopyOf g st (s, d) m → d ≤ v.nextDepth g s

/-- The link leads to where a visit has to go on, and all is done there. -/
def Settled (g : Cfg) (L : ℕ → ℕ) (st : Unrolling) (n : ℕ) (v : Visit) (b : Bool) (s : ℕ) : Prop :=
  (v.Allows g L s →
    ∃ m, st.g.succ n b = some m ∧ CopyOf g st (s, v.nextDepth g s) m ∧ st.finished m = true) ∧
    (¬v.Allows g L s → st.g.succ n b = none)

/-- The invariant of `cfg::unroll`. -/
structure Valid (g : Cfg) (L : ℕ → ℕ) (st : Unrolling) : Prop extends Copies g st where
  links : ∀ p n, CopyOf g st p n → ∀ b s, g.succ p.1 b = some s →
    LinkOk g L st p s (st.g.succ n b)
  settled : ∀ p n, CopyOf g st p n → st.finished n = true → ∀ v, Visit.Reaches g L v → v.key = p →
    ∀ b s, g.succ v.nd b = some s → Settled g L st n v b s

/-- What may have happened in between: copies are made, nodes are finished, and the links of
unfinished copies that can be reached from `root` are set. -/
structure Grows (g : Cfg) (L : ℕ → ℕ) (root : ℕ × ℕ) (st st' : Unrolling) : Prop where
  copyOf : ∀ p n, CopyOf g st p n → CopyOf g st' p n
  finished : ∀ n, st.finished n = true → st'.finished n = true
  succ : ∀ p n, CopyOf g st p n → ¬Relation.ReflTransGen (Visit.Link g L) root p →
    ∀ b, st'.g.succ n b = st.g.succ n b
  unfinished : ∀ p n, CopyOf g st p n → ¬Relation.ReflTransGen (Visit.Link g L) root p →
    st'.finished n = st.finished n

section

variable {g : Cfg} {L : ℕ → ℕ} {st st' st'' : Unrolling} {p : ℕ × ℕ} {n : ℕ}

theorem Grows.refl (root : ℕ × ℕ) (st : Unrolling) : Grows g L root st st :=
  ⟨fun _ _ h => h, fun _ h => h, fun _ _ _ _ _ => rfl, fun _ _ _ _ => rfl⟩

theorem Grows.trans {root : ℕ × ℕ} (h : Grows g L root st st') (h' : Grows g L root st' st'') :
    Grows g L root st st'' where
  copyOf p n hp := h'.copyOf p n (h.copyOf p n hp)
  finished n hn := h'.finished n (h.finished n hn)
  succ p n hp hnot b := (h'.succ p n (h.copyOf p n hp) hnot b).trans (h.succ p n hp hnot b)
  unfinished p n hp hnot :=
    (h'.unfinished p n (h.copyOf p n hp) hnot).trans (h.unfinished p n hp hnot)

/-- What happens below a copy happens below the copies that lead to it. -/
theorem Grows.of_link {root root' : ℕ × ℕ} (hl : Visit.Link g L root root')
    (h : Grows g L root' st st') : Grows g L root st st' where
  copyOf := h.copyOf
  finished := h.finished
  succ p n hp hnot := h.succ p n hp fun hr => hnot (.head hl hr)
  unfinished p n hp hnot := h.unfinished p n hp fun hr => hnot (.head hl hr)

theorem Settled.mono {v : Visit} {b : Bool} {s : ℕ} (h : Settled g L st n v b s)
    (hsucc : st'.g.succ n b = st.g.succ n b)
    (hcopy : ∀ p n, CopyOf g st p n → CopyOf g st' p n)
    (hfin : ∀ n, st.finished n = true → st'.finished n = true) : Settled g L st' n v b s := by
  constructor
  · intro ha
    obtain ⟨m, hm, hc, hf⟩ := h.1 ha
    exact ⟨m, hsucc.trans hm, hcopy _ _ hc, hfin m hf⟩
  · exact fun ha => hsucc.trans (h.2 ha)

/-- Visits to the same copy go on in the same way. -/
theorem Settled.of_key (hagree : g.CopiesAgree L) {v w : Visit} (hv : Visit.Reaches g L v)
    (hw : Visit.Reaches g L w) (hkey : v.key = w.key) {b : Bool} {s : ℕ}
    (hs : g.succ v.nd b = some s) (h : Settled g L st n v b s) : Settled g L st n w b s := by
  have hiff := Visit.allows_iff hagree hv hw hkey hs
  constructor
  · intro ha
    obtain ⟨m, hm, hc, hf⟩ := h.1 (hiff.mpr ha)
    rw [Visit.nextDepth_eq hagree hv hw hkey hs (hiff.mpr ha)] at hc
    exact ⟨m, hm, hc, hf⟩
  · exact fun ha => h.2 fun ha' => ha (hiff.mp ha')

/-! ### What a step keeps -/

/-- Setting a link of an unfinished copy. -/
theorem Valid.setLink (hvalid : Valid g L st) (hg : g.Built) {v : Visit} {node : ℕ}
    (hn : CopyOf g st v.key node) (hfin : st.finished node = false) {b : Bool} {s : ℕ}
    {x : Option ℕ} {g' : Cfg} (hset : SetLink st node b x g') (hs : g.succ v.nd b = some s)
    (hx : ∀ m ∈ x, SomeCopyOf g st s m) (hlink : LinkOk g L st v.key s x) :
    Valid g L { st with g := g' } ∧ Grows g L v.key st { st with g := g' } := by
  have hne : ∀ {p n}, CopyOf g st p n → p ≠ v.key → n ≠ node := by
    rintro p n hp hne rfl
    exact hne (hvalid.key_eq hg hp hn)
  refine ⟨⟨hvalid.toCopies.setLink hg hn hset hs hx, ?_, ?_⟩,
    ⟨fun _ _ h => h, fun _ h => h, ?_, fun _ _ _ _ => rfl⟩⟩
  · intro p n hp b' s' hs'
    show LinkOk g L st p s' (g'.succ n b')
    rw [hset.succ]
    split
    next heq =>
      obtain ⟨rfl, rfl⟩ := heq
      obtain rfl := hvalid.key_eq hg hp hn
      obtain rfl := Option.some.inj (hs.symm.trans hs')
      exact hlink
    · exact hvalid.links p n hp b' s' hs'
  · intro p n hp hf w hw hkey b' s' hs'
    refine (hvalid.settled p n hp hf w hw hkey b' s' hs').mono ?_ (fun _ _ h => h) fun _ h => h
    refine hset.succ_of_ne (hne hp ?_) b'
    rintro rfl
    rw [CopyOf.unique hp hn, hfin] at hf
    exact nomatch hf
  · intro p n hp hnot b'
    refine hset.succ_of_ne (hne hp ?_) b'
    rintro rfl
    exact hnot .refl

section

variable (hg : g.Built) (hagree : g.CopiesAgree L) {v : Visit} (hv : Visit.Reaches g L v) {b : Bool}
  {s : ℕ} (hs : g.succ v.nd b = some s)
include hg hagree hv hs

/-- Where a visit comes to the limit, all visits to the copy do, and all deeper ones. -/
theorem linkOk_none (ha : ¬v.Allows g L s) : LinkOk g L st v.key s none := by
  refine fun w hw hnd hle => ⟨fun _ ha' => ?_, fun m d hm => by cases hm⟩
  rcases Nat.eq_or_lt_of_le hle with heq | hlt
  · have hkey : v.key = w.key := Prod.ext hnd.symm heq
    exact ha ((Visit.allows_iff hagree hv hw hkey hs).mpr ha')
  · have hmono := hv.nextDepth_mono hg hw hnd.symm hlt hs
    exact ha fun hloop => hmono.trans_lt (ha' hloop)

/-- The copy that a visit goes on to is no deeper than that of any deeper visit. -/
theorem linkOk_some (hvalid : Valid g L st) (ha : v.Allows g L s) {u : ℕ}
    (hu : CopyOf g st (s, v.nextDepth g s) u) : LinkOk g L st v.key s (some u) := by
  refine fun w hw hnd hle => ⟨fun h => (nomatch h), fun m d hm hc => ?_⟩
  obtain rfl := Option.some.inj hm
  obtain rfl : d = v.nextDepth g s := congrArg Prod.snd (hvalid.key_eq hg hc hu)
  rcases Nat.eq_or_lt_of_le hle with heq | hlt
  · have hkey : v.key = w.key := Prod.ext hnd.symm heq
    exact (Visit.nextDepth_eq hagree hv hw hkey hs ha).le
  · exact hv.nextDepth_mono hg hw hnd.symm hlt hs

end

/-- The links of a copy for a smaller depth will do for a new copy. -/
theorem Valid.copy (hvalid : Valid g L st) (hg : g.Built) {s d m depth u : ℕ}
    (hm : CopyOf g st (s, d) m) (hlt : d < depth) (hcopy : st.copy m depth = (u, st')) :
    Valid g L st' ∧ CopyOf g st' (s, depth) u ∧ Copied g st st' := by
  obtain ⟨hcopies, hu, hkeep, hnew⟩ :=
    hvalid.toCopies.copy hg hm (Nat.ne_zero_of_lt hlt) hcopy
  have hlink : ∀ {p q : ℕ × ℕ} {n b s'}, CopyOf g st p n → g.succ p.1 b = some s' →
      q.1 = p.1 → p.2 ≤ q.2 → LinkOk g L st' q s' (st.g.succ n b) := by
    intro p q n b s' hp hs' hnd hle w hw hwnd hwle
    have hok := hvalid.links p n hp b s' hs' w hw (hwnd.trans hnd) (hle.trans hwle)
    refine ⟨hok.1, fun m' d' hm' hc => ?_⟩
    obtain ⟨d'', hc', -⟩ := hvalid.succ_some p n hp b s' hs' m' hm'
    have hd : d' = d'' := congrArg Prod.snd (hcopies.key_eq hg hc (hkeep.copyOf _ _ hc'))
    exact hok.2 m' d' hm' (hd ▸ hc')
  refine ⟨⟨hcopies, ?_, ?_⟩, hu, hkeep⟩
  · intro p n hp b s' hs'
    rcases hnew p n hp with hp | ⟨rfl, -, hsucc⟩
    · rw [hkeep.succ n (hvalid.lt_fresh p n hp)]
      exact hlink hp hs' rfl le_rfl
    · rw [hsucc]
      exact hlink hm hs' rfl hlt.le
  · intro p n hp hf w hw hkey b s' hs'
    rw [hkeep.finished] at hf
    rcases hnew p n hp with hp | ⟨rfl, hnf, -⟩
    · refine (hvalid.settled p n hp hf w hw hkey b s' hs').mono (hkeep.succ n (hvalid.lt_fresh p n hp) b)
        hkeep.copyOf ?_
      intro n hn
      rwa [hkeep.finished]
    · rw [hnf] at hf
      exact nomatch hf

/-- A node all of whose links are settled is finished. -/
theorem Valid.leave (hvalid : Valid g L st) (hg : g.Built) (hagree : g.CopiesAgree L) {v : Visit}
    (hv : Visit.Reaches g L v) {node : ℕ} (hn : CopyOf g st v.key node)
    (hsettled : ∀ b s, g.succ v.nd b = some s → Settled g L st node v b s) :
    Valid g L (st.leave node) ∧ Grows g L v.key st (st.leave node) := by
  have hfin : ∀ n, st.finished n = true → (st.leave node).finished n = true := by
    intro n hn
    rw [finished_leave]
    split
    · rfl
    · exact hn
  refine ⟨⟨hvalid.toCopies.leave hn, hvalid.links, ?_⟩,
    ⟨fun _ _ h => h, hfin, fun _ _ _ _ _ => rfl, ?_⟩⟩
  · intro p n hp h w hw hkey b s hs
    have hs' : Settled g L st n w b s := by
      rw [finished_leave] at h
      split at h
      next heq =>
        subst heq
        obtain rfl := hvalid.key_eq hg hp hn
        have hnd : w.nd = v.nd := congrArg Prod.fst hkey
        rw [hnd] at hs
        exact (hsettled b s hs).of_key hagree hv hw hkey.symm hs
      · exact hvalid.settled p n hp h w hw hkey b s hs
    exact hs'.mono rfl (fun _ _ h => h) hfin
  · intro p n hp hnot
    rw [finished_leave, if_neg]
    rintro rfl
    exact hnot (hvalid.key_eq hg hp hn ▸ .refl)

theorem Valid.withVisited (hvalid : Valid g L st) (x : ℕ → ℕ) :
    Valid g L { st with visited := x } :=
  ⟨hvalid.toCopies.withVisited x, hvalid.links, hvalid.settled⟩

theorem Copied.grows (h : Copied g st st') (hvalid : Valid g L st) (root : ℕ × ℕ) :
    Grows g L root st st' where
  copyOf := h.copyOf
  finished _ hn := h.finished ▸ hn
  succ p n hp _ b := h.succ n (hvalid.lt_fresh p n hp) b
  unfinished _ _ _ _ := congrFun h.finished _

/-! ### A node and all below it -/

/-- The node on top of the stack, which the walk `v` has come to; its first `i` links are
settled. -/
structure Top (g : Cfg) (L : ℕ → ℕ) (v : Visit) (st : Unrolling) (node i : ℕ) : Prop where
  reaches : Visit.Reaches g L v
  valid : Valid g L st
  copyOf : CopyOf g st v.key node
  unfinished : st.finished node = false
  visited : ∀ nd ∈ g.nodes, st.visited (g.id nd) = v.count nd
  settled : ∀ x ∈ (st.g.succs node).take i, ∀ s, g.succ v.nd x.2 = some s →
    Settled g L st node v x.2 s

/-- The node has been finished. -/
structure Done (g : Cfg) (L : ℕ → ℕ) (v : Visit) (node : ℕ) (st st' : Unrolling) : Prop where
  valid : Valid g L st'
  finished : st'.finished node = true
  grows : Grows g L v.key st st'
  visited : st'.visited = Function.update st.visited (g.id v.nd) (st.visited (g.id v.nd) - 1)

section

variable {v : Visit} {node i m b s d : ℕ} {b : Bool}

theorem Top.depthOf_eq (h : Top g L v st node i) (hs : s ∈ g.nodes) :
    depthOf g st v.key s = v.nextDepth g s := by
  unfold depthOf Visit.nextDepth
  rw [h.visited s hs]
  rfl

/-- When all links are settled, the node is left. -/
theorem Top.leave (h : Top g L v st node i) (hg : g.Built) (hagree : g.CopiesAgree L)
    (hi : (st.g.succs node)[i]? = none) : Done g L v node st (st.leave node) := by
  have hsettled : ∀ b s, g.succ v.nd b = some s → Settled g L st node v b s := by
    intro b s hs
    cases hx : st.g.succ node b with
    | none =>
      have hok := h.valid.links _ node h.copyOf b s hs v h.reaches rfl le_rfl
      exact ⟨fun ha => absurd ha (hok.1 hx), fun _ => hx⟩
    | some m =>
      refine h.settled (m, b) ?_ s hs
      rw [List.take_of_length_le (List.getElem?_eq_none_iff.mp hi)]
      exact Cfg.mem_succs.mpr hx
  obtain ⟨hvalid, hgrows⟩ := h.valid.leave hg hagree h.reaches h.copyOf hsettled
  refine ⟨hvalid, by rw [finished_leave, if_pos rfl], hgrows, ?_⟩
  have hid : st.g.id node = g.id v.nd := h.valid.id _ _ h.copyOf
  rw [← hid]
  rfl

/-- Links that have been settled stay so as long as they are where they are. -/
theorem Top.settled_of_take (h : Top g L v st node i)
    (htake : (st'.g.succs node).take i = (st.g.succs node).take i) (hgrows : Grows g L p st st') :
    ∀ x ∈ (st'.g.succs node).take i, ∀ s, g.succ v.nd x.2 = some s →
      Settled g L st' node v x.2 s := by
  intro x hx s hs
  have hx' := Cfg.mem_succs.mp (List.mem_of_mem_take hx)
  rw [htake] at hx
  have hx'' := Cfg.mem_succs.mp (List.mem_of_mem_take hx)
  exact (h.settled x hx s hs).mono (hx'.trans hx''.symm) hgrows.copyOf hgrows.finished

/-- A link is set while the node is on top of the stack. -/
theorem Top.setLink (h : Top g L v st node i) (hg : g.Built) {x : Option ℕ} {g' : Cfg}
    (hset : SetLink st node b x g') (hs : g.succ v.nd b = some s)
    (hx : ∀ m ∈ x, SomeCopyOf g st s m) (hlink : LinkOk g L st v.key s x)
    (htake : (g'.succs node).take i = (st.g.succs node).take i) :
    Top g L v { st with g := g' } node i ∧ Grows g L v.key st { st with g := g' } := by
  obtain ⟨hvalid, hgrows⟩ := h.valid.setLink hg h.copyOf h.unfinished hset hs hx hlink
  exact ⟨⟨h.reaches, hvalid, h.copyOf, h.unfinished, h.visited,
    h.settled_of_take htake hgrows⟩, hgrows⟩

/-- The next link is settled after the successor has been entered, where this comes back. -/
theorem Top.enter (h : Top g L v st node i) (hg : g.Built) (hagree : g.CopiesAgree L) {u : ℕ}
    (hi : (st.g.succs node)[i]? = some (u, b)) (hs : g.succ v.nd b = some s)
    (ha : v.Allows g L s) (hu : CopyOf g st (s, v.nextDepth g s) u)
    (hchild : ∀ st₁ stack, Top g L (v.enter g s) st₁ u 0 → ∃ st₂,
      Runs L g.loopfreeNodes ((u, 0) :: stack, st₁) (stack, st₂) ∧ Done g L (v.enter g s) u st₁ st₂)
    (stack : List (ℕ × ℕ)) :
    ∃ st', Runs L g.loopfreeNodes (st.enter node i stack u) ((node, i + 1) :: stack, st') ∧
      Top g L v st' node (i + 1) ∧ Grows g L v.key st st' ∧ st'.visited = st.visited ∧
      st'.g.succs node = st.g.succs node := by
  have hsu : st.g.succ node b = some u := Cfg.mem_succs.mp (List.mem_of_getElem? hi)
  -- what has to hold of the state afterwards for the next link to be settled
  have hnext : ∀ st', Valid g L st' → Grows g L v.key st st' → st'.visited = st.visited →
      st'.finished node = false → (∀ b', st'.g.succ node b' = st.g.succ node b') →
      st'.finished u = true →
      Top g L v st' node (i + 1) ∧ Grows g L v.key st st' ∧ st'.visited = st.visited ∧
        st'.g.succs node = st.g.succs node := by
    intro st' hvalid hgrows hvis hunf hsame hfin
    have hsuccs : st'.g.succs node = st.g.succs node := Cfg.succs_congr hsame
    refine ⟨⟨h.reaches, hvalid, hgrows.copyOf _ _ h.copyOf, hunf, ?_, ?_⟩, hgrows, hvis, hsuccs⟩
    · rw [hvis]
      exact h.visited
    · intro x hx s' hs'
      rw [hsuccs, List.take_add_one, hi] at hx
      rcases List.mem_append.mp hx with hx | hx
      · exact h.settled_of_take (by rw [hsuccs]) hgrows x (hsuccs ▸ hx) s' hs'
      · obtain rfl : x = (u, b) := List.mem_singleton.mp hx
        obtain rfl := Option.some.inj (hs.symm.trans hs')
        exact ⟨fun _ => ⟨u, (hsame b).trans hsu, hgrows.copyOf _ _ hu, hfin⟩,
          fun hna => absurd ha hna⟩
  have hid : st.g.id u = g.id s := h.valid.id _ _ hu
  unfold Unrolling.enter
  split
  next hfin =>
    exact ⟨st, .refl _ _ _, hnext st h.valid (.refl _ _) rfl h.unfinished (fun _ => rfl) hfin⟩
  next hunf =>
    rw [Bool.not_eq_true] at hunf
    have hmem : s ∈ g.nodes := hu.1
    have htop : Top g L (v.enter g s)
        { st with visited := Function.update st.visited (st.g.id u) (st.visited (st.g.id u) + 1) }
        u 0 := by
      refine ⟨h.reaches.enter hs ha, h.valid.withVisited _, hu, hunf, ?_, by simp⟩
      intro nd hnd
      show Function.update st.visited (st.g.id u) _ (g.id nd) = _
      rw [hid]
      by_cases heq : nd = s
      · rw [heq, Function.update_self, Visit.count_enter_self, h.visited s hmem]
      · rw [Function.update_of_ne fun heq' => heq (hg.id_inj _ hnd _ hmem heq'),
          Visit.count_enter_of_ne v heq, h.visited nd hnd]
    obtain ⟨st₂, hruns, hdone⟩ := hchild _ ((node, i + 1) :: stack) htop
    have hlink : Visit.Link g L v.key (v.enter g s).key := ⟨v, h.reaches, rfl, b, s, hs, ha, rfl⟩
    -- the walk does not come back to this copy
    have hnot : ¬Relation.ReflTransGen (Visit.Link g L) (v.enter g s).key v.key := by
      intro hback
      exact Visit.link_irrefl hg hagree v.key (Relation.TransGen.head' hlink hback)
    have hgrows : Grows g L v.key st st₂ := by
      refine Grows.of_link hlink ?_
      exact ⟨hdone.grows.copyOf, hdone.grows.finished, hdone.grows.succ, hdone.grows.unfinished⟩
    refine ⟨st₂, hruns, hnext st₂ hdone.valid hgrows ?_ ?_ ?_ hdone.finished⟩
    · rw [hdone.visited]
      rw [hid]
      exact visited_push_pop st.visited (g.id s)
    · exact (hdone.grows.unfinished _ _ h.copyOf hnot).trans h.unfinished
    · exact hdone.grows.succ _ _ h.copyOf hnot

theorem Done.of_grows (h : Done g L v node st' st'') (hgrows : Grows g L v.key st st')
    (hvis : st'.visited = st.visited) : Done g L v node st st'' :=
  ⟨h.valid, h.finished, hgrows.trans h.grows, by rw [h.visited, hvis]⟩

/-- A copy is made while the node is on top of the stack. -/
theorem Top.copied (h : Top g L v st node i) (hvalid : Valid g L st') (hcopied : Copied g st st') :
    Top g L v st' node i ∧ st'.g.succs node = st.g.succs node := by
  have hsuccs : st'.g.succs node = st.g.succs node :=
    Cfg.succs_congr (hcopied.succ _ (h.valid.lt_fresh _ _ h.copyOf))
  refine ⟨⟨h.reaches, hvalid, hcopied.copyOf _ _ h.copyOf, ?_, ?_, ?_⟩, hsuccs⟩
  · rw [hcopied.finished]
    exact h.unfinished
  · rw [hcopied.visited]
    exact h.visited
  · exact h.settled_of_take (by rw [hsuccs]) (hcopied.grows h.valid v.key)

/-- **The node on top of the stack is finished after some iterations**, and all links of it and
of the copies below are settled. The induction is on how many more blocks the walk can
enter, and within one node on the number of links that are left. -/
theorem Top.run (hg : g.Built) (hagree : g.CopiesAgree L)
    (hL : ∀ nd, g.isInLoop nd = true → L (g.id nd) ≠ 0) (r : ℕ) :
    ∀ {v : Visit}, Visit.room g L v.count = r → ∀ k {st : Unrolling} {node i : ℕ}, Top g L v st node i →
      (st.g.succs node).length - i = k → ∀ stack, ∃ st',
        Runs L g.loopfreeNodes ((node, i) :: stack, st) (stack, st') ∧ Done g L v node st st' := by
  induction r using Nat.strong_induction_on with
  | _ r ihr =>
  intro v hr k
  induction k using Nat.strong_induction_on with
  | _ k ihk =>
  intro st node i htop hk stack
  have hstep := Runs.step L g.loopfreeNodes node i stack st
  rcases htop.valid.step_cases hL htop.copyOf i stack with
    ⟨hi, heq⟩ | ⟨m, b, s, d, hi, hs, hm, hz, hcase⟩
  · rw [heq] at hstep
    exact ⟨_, hstep, htop.leave hg hagree hi⟩
  have hlt : i < (st.g.succs node).length := (List.getElem?_eq_some_iff.mp hi).1
  have hs : g.succ v.nd b = some s := hs
  have hdepth := htop.depthOf_eq hm.1
  -- once the link leads where it has to, the successor is entered and the next link follows
  have henter : ∀ {st₁ u}, Top g L v st₁ node i → Grows g L v.key st st₁ →
      st₁.visited = st.visited → (st₁.g.succs node)[i]? = some (u, b) →
      (st₁.g.succs node).length = (st.g.succs node).length → v.Allows g L s →
      CopyOf g st₁ (s, v.nextDepth g s) u →
      Runs L g.loopfreeNodes ((node, i) :: stack, st) (st₁.enter node i stack u) →
      ∃ st', Runs L g.loopfreeNodes ((node, i) :: stack, st) (stack, st') ∧
        Done g L v node st st' := by
    intro st₁ u htop₁ hgrows hvis hi₁ hlen ha hu hruns
    have hroom := htop.reaches.room_enter_lt hg hs ha
    obtain ⟨st₂, hruns₂, htop₂, hgrows₂, hvis₂, hsuccs⟩ := htop₁.enter hg hagree hi₁ hs ha hu
      (fun st' stack' h => ihr _ (hr ▸ hroom) rfl _ h rfl stack') stack
    obtain ⟨st₃, hruns₃, hdone⟩ := ihk _ (by rw [hsuccs, hlen]; omega) htop₂ rfl stack
    refine ⟨st₃, (hruns.trans hruns₂).trans hruns₃, ?_⟩
    exact hdone.of_grows (hgrows.trans hgrows₂) (hvis₂.trans hvis)
  generalize Unrolling.step L g.loopfreeNodes node i stack st = y at hstep hcase
  cases hcase with
  | unlink hloop hle =>
    have ha : ¬v.Allows g L s := fun ha => absurd (ha hloop) (not_lt.mpr (hdepth ▸ hle))
    have hset := setLink_unlink st node b
    obtain ⟨htake, hlen⟩ := Cfg.succs_of_unlink hi hset.succ_node
    obtain ⟨htop₁, hgrows⟩ := htop.setLink hg hset hs (fun _ h => nomatch h)
      (linkOk_none hg hagree htop.reaches hs ha) htake
    have hless : ((st.g.unlink node b).succs node).length - i < k := by omega
    obtain ⟨st', hruns, hdone⟩ := ihk _ hless htop₁ rfl stack
    exact ⟨st', hstep.trans hruns, hdone.of_grows hgrows rfl⟩
  | relink hloop hlim hd u st₁ hcopy =>
    rw [hdepth] at hlim hd hcopy
    have ha : v.Allows g L s := fun _ => hlim
    obtain ⟨hvalid₁, hu, hcopied⟩ := htop.valid.copy hg hm hd hcopy
    obtain ⟨htop₁, hsuccs₁⟩ := htop.copied hvalid₁ hcopied
    rw [← hsuccs₁] at hi
    have hset := setLink_relink st₁ node u b
    obtain ⟨hi₂, htake, hlen⟩ := Cfg.succs_of_relink hi hset.succ_node
    have hsome : ∀ m ∈ some u, SomeCopyOf g st₁ s m := by
      rintro _ ⟨⟩
      refine ⟨_, hu, fun h => ?_⟩
      rw [hloop] at h
      exact nomatch h
    obtain ⟨htop₂, hgrows⟩ := htop₁.setLink hg hset hs hsome
      (linkOk_some hg hagree htop.reaches hs hvalid₁ ha hu) htake
    refine henter htop₂ ((hcopied.grows htop.valid _).trans hgrows) hcopied.visited hi₂ ?_ ha hu hstep
    exact hlen.trans (congrArg List.length hsuccs₁)
  | keep hle hlim =>
    rw [hdepth] at hle hlim
    have ha : v.Allows g L s := hlim
    have hsm : st.g.succ node b = some m := Cfg.mem_succs.mp (List.mem_of_getElem? hi)
    have hlink := htop.valid.links _ _ htop.copyOf b s hs v htop.reaches rfl le_rfl
    obtain rfl : d = v.nextDepth g s := le_antisymm (hlink.2 m d hsm hm) hle
    exact henter htop (.refl _ _) rfl hi rfl ha hm hstep

end

/-! ### The unrolled graph -/

theorem valid_initial (hg : g.Built) (L : ℕ → ℕ) : Valid g L (initial g) := by
  refine ⟨copies_initial hg, ?_, fun p n _ hf => (nomatch hf)⟩
  intro p n hp b s hs w hw hnd hle
  rw [(copyOf_initial hp).2]
  show (g.succ p.1 b = none → _) ∧ ∀ m d, g.succ p.1 b = some m → _
  refine ⟨fun hnone => (nomatch hs.symm.trans hnone), fun m d hm hc => ?_⟩
  rw [show d = 0 from (copyOf_initial hc).1]
  exact Nat.zero_le _

/-- The loop ends, and then all links that walks from the start follow are settled. -/
theorem exists_settled (hg : g.Built) (hagree : g.CopiesAgree L)
    (hL : ∀ nd, g.isInLoop nd = true → L (g.id nd) ≠ 0) :
    ∃ fuel st, loop L g.loopfreeNodes fuel [(g.start, 0)] (initial g) = some st ∧ Valid g L st ∧
      ∀ v, Visit.Reaches g L v → ∃ n, CopyOf g st v.key n ∧ st.finished n = true := by
  have hstart : CopyOf g (initial g) (Visit.begin g).key g.start := copyOf_zero hg.start_mem
  have htop : Top g L (Visit.begin g) (initial g) g.start 0 :=
    ⟨.begin, valid_initial hg L, hstart, rfl, fun _ _ => rfl, by simp⟩
  obtain ⟨st, ⟨k, hruns⟩, hdone⟩ := Top.run hg hagree hL _ rfl _ htop rfl []
  refine ⟨0 + k, st, hruns 0, hdone.valid, fun v hv => ?_⟩
  induction hv with
  | begin => exact ⟨g.start, hdone.grows.copyOf _ _ hstart, hdone.finished⟩
  | @enter v b s hv hs ha ih =>
    obtain ⟨n, hn, hf⟩ := ih
    obtain ⟨m, -, hm, hfm⟩ := (hdone.valid.settled _ n hn hf v hv rfl b s hs).1 ha
    exact ⟨m, hm, hfm⟩

end

end Unrolling

/-- The blocks and branch decisions along some edges, by the first address of a block. -/
def Cfg.blocks (g : Cfg) (es : List Edge) : List (ℕ × Bool) := es.map fun e => (g.id e.1, e.2)

section

variable {g : Cfg} {L : ℕ → ℕ} {st : Unrolling}
  (hvalid : Unrolling.Valid g L st)
  (hall : ∀ v, Visit.Reaches g L v → ∃ n, Unrolling.CopyOf g st v.key n ∧ st.finished n = true)
include hvalid hall

/-- A walk that reaches no limit is there in the unrolled graph. -/
theorem exists_walk_of_fits {es : List Edge} {v : Visit} {n dst : ℕ} (hv : Visit.Reaches g L v)
    (hn : Unrolling.CopyOf g st v.key n) (hw : g.Walk v.nd es dst) (hfits : v.Fits g L es) :
    ∃ es' w n', st.g.Walk n es' n' ∧ st.g.blocks es' = g.blocks es ∧ Visit.Reaches g L w ∧
      w.nd = dst ∧ Unrolling.CopyOf g st w.key n' := by
  induction es generalizing v n with
  | nil => exact ⟨[], v, n, rfl, rfl, hv, hw, hn⟩
  | cons e es ih =>
    obtain ⟨he, s, hs, hrest⟩ := hw
    obtain ⟨ha, hfits⟩ := hfits s hs
    rw [he] at hs
    obtain ⟨n₀, hn₀, hf⟩ := hall v hv
    obtain rfl := Unrolling.CopyOf.unique hn hn₀
    obtain ⟨m, hm, hc, -⟩ := (hvalid.settled _ n hn hf v hv rfl e.2 s hs).1 ha
    obtain ⟨es', w, n', hw', hblocks, hrest⟩ := ih (hv.enter hs ha) hc hrest hfits
    refine ⟨(n, e.2) :: es', w, n', ⟨rfl, m, hm, hw'⟩, ?_, hrest⟩
    have hid : st.g.id n = g.id v.nd := hvalid.id _ n hn
    unfold Cfg.blocks at hblocks ⊢
    rw [List.map_cons, List.map_cons, hblocks, hid, he]

/-- No other walk is. -/
theorem fits_of_walk {es es' : List Edge} {v : Visit} {n dst n' : ℕ} (hv : Visit.Reaches g L v)
    (hn : Unrolling.CopyOf g st v.key n) (hw : g.Walk v.nd es dst) (hw' : st.g.Walk n es' n')
    (hblocks : st.g.blocks es' = g.blocks es) : v.Fits g L es := by
  induction es generalizing v n es' with
  | nil => trivial
  | cons e es ih =>
    obtain ⟨he, s, hs, hrest⟩ := hw
    cases es' with
    | nil => exact nomatch hblocks
    | cons e' es' =>
      obtain ⟨rfl, m, hm, hrest'⟩ := hw'
      obtain ⟨hhead, hblocks⟩ := List.cons.inj hblocks
      have hbranch : e'.2 = e.2 := (Prod.mk.inj hhead).2
      rw [hbranch] at hm
      intro s' hs'
      obtain rfl := Option.some.inj (hs.symm.trans hs')
      rw [he] at hs
      obtain ⟨n₀, hn₀, hf⟩ := hall v hv
      obtain rfl := Unrolling.CopyOf.unique hn hn₀
      have hsettled := hvalid.settled _ _ hn hf v hv rfl e.2 s hs
      have ha : v.Allows g L s := by
        by_contra ha
        exact nomatch hm.symm.trans (hsettled.2 ha)
      obtain ⟨m', hm', hc, -⟩ := hsettled.1 ha
      obtain rfl := Option.some.inj (hm.symm.trans hm')
      exact ⟨ha, ih (hv.enter hs ha) hc hrest hrest' hblocks⟩

end

/-- No block on a cycle occurs on the path more often than its limit. -/
def Cfg.Bounded (g : Cfg) (L : ℕ → ℕ) (es : List Edge) : Prop :=
  ∀ nd, g.isInLoop nd = true → (es.map Prod.fst).count nd ≤ L (g.id nd)

/-- The program can be unrolled, and all paths within the limits are kept. -/
def Cfg.UnrollKeeps (g : Cfg) (limit : ℕ) (limits : ℕ → Option ℕ) : Prop :=
  ∃ fuel g', g.unroll limit limits fuel = some g' ∧ ∀ es, g.IsPath es →
    g.Bounded (unrollLimit limit limits) es →
    ∃ es', g'.IsPath es' ∧ g'.blocks es' = g.blocks es

/-- A block outside of all cycles is entered at depth 0. -/
theorem Visit.Reaches.depth_eq_zero {g : Cfg} {L : ℕ → ℕ} {v : Visit} (h : Visit.Reaches g L v)
    (hloop : g.isInLoop v.nd = false) : v.depth = 0 := by
  cases h with
  | begin => rfl
  | @enter v _ _ => exact v.nextDepth_of_not_loop hloop

/-- **Which paths within the limits are kept**, when visits to a copy agree: all of them, if and
only if on each of them every block is entered at a depth below its limit. -/
theorem unroll_keeps_iff {g : Cfg} (hg : g.Built) {limit : ℕ} {limits : ℕ → Option ℕ}
    (hL : ∀ nd, g.isInLoop nd = true → unrollLimit limit limits (g.id nd) ≠ 0)
    (hagree : g.CopiesAgree (unrollLimit limit limits)) :
    g.UnrollKeeps limit limits ↔ ∀ es, g.IsPath es → g.Bounded (unrollLimit limit limits) es →
      (Visit.begin g).Fits g (unrollLimit limit limits) es := by
  obtain ⟨fuel, st, hloop, hvalid, hall⟩ := Unrolling.exists_settled hg hagree hL
  have hunroll : g.unroll limit limits fuel =
      some { st.g with nodes := st.g.nodes ++ st.unrolled.map Prod.snd } := by
    rw [Cfg.unroll, hloop]
    rfl
  have hstart : Unrolling.CopyOf g st (Visit.begin g).key g.start :=
    Unrolling.copyOf_zero hg.start_mem
  constructor
  · rintro ⟨fuel', g', hg', hkeeps⟩ es hpath hbound
    obtain rfl := unroll_unique hunroll hg'
    obtain ⟨es', hpath', hblocks⟩ := hkeeps es hpath hbound
    have hw : st.g.Walk g.start es' st.g.fin :=
      hvalid.start ▸ (Cfg.isPath_withNodes _ es').mp hpath'
    exact fits_of_walk hvalid hall .begin hstart hpath hw hblocks
  · intro hfits
    refine ⟨fuel, _, hunroll, fun es hpath hbound => ?_⟩
    obtain ⟨es', w, n', hw, hblocks, hreach, hfin, hn'⟩ := exists_walk_of_fits hvalid hall .begin
      hstart hpath (hfits es hpath hbound)
    have hfinloop : g.isInLoop g.fin = false := by
      rw [← Bool.not_eq_true, Cfg.isInLoop_iff hg (hfin ▸ hreach.mem hg)]
      rintro ⟨es, hne, hw⟩
      cases es with
      | nil => exact hne rfl
      | cons e es =>
        obtain ⟨he, s, hs, -⟩ := hw
        rw [he, hg.succ_fin] at hs
        cases hs
    have hdepth : w.depth = 0 := hreach.depth_eq_zero (hfin ▸ hfinloop)
    have hn : n' = w.nd := by
      have h := hn'.2
      rwa [show w.key.2 = 0 from hdepth, if_pos rfl] at h
    refine ⟨es', ?_, hblocks⟩
    refine (Cfg.isPath_withNodes _ es').mpr ?_
    show st.g.Walk st.g.start es' st.g.fin
    rw [hvalid.start, hvalid.fin, ← hfin, ← hn]
    exact hw

/-- A program with a loop of one block. -/
def oneLoop : Cfg where
  node nd :=
    match nd with
    | 0 => ⟨[.nop 0], 0, none, some 1, []⟩
    | 1 => ⟨[.properBranch 1 .bne 1], 0, some 1, some 2, [(0, false), (1, true)]⟩
    | _ => ⟨[.fin], 0, none, none, [(1, false)]⟩
  nodes := [0, 1, 2]
  start := 0
  fin := 2

theorem oneLoop_built : oneLoop.Built := by decide

/-- Each visit to the block is deeper by one than the visit before. -/
theorem oneLoop_copiesAgree (L : ℕ → ℕ) : oneLoop.CopiesAgree L := by
  have hloop : oneLoop.isInLoop 1 = true := by decide
  have hcount : ∀ v, Visit.Reaches oneLoop L v →
      v.nd = 0 ∧ v.count 1 = 0 ∧ v.depth = 0 ∨ v.nd = 1 ∧ v.count 1 = v.depth + 1 ∨ v.nd = 2 := by
    intro v hv
    induction hv with
    | begin => exact .inl ⟨rfl, rfl, rfl⟩
    | @enter v b s hv hs _ ih =>
      by_cases h1 : s = 1
      · subst h1
        refine .inr (.inl ⟨rfl, ?_⟩)
        rw [Visit.count_enter_self, Visit.depth_enter, v.nextDepth_of_loop hloop]
        rcases ih with ⟨-, hc, hd⟩ | ⟨-, hc⟩ | hnd
        · omega
        · omega
        · rw [hnd] at hs
          cases b <;> exact nomatch hs
      · refine .inr (.inr ?_)
        rcases ih with ⟨hnd, -⟩ | ⟨hnd, -⟩ | hnd <;> rw [hnd] at hs <;> cases b
        · exact absurd (Option.some.inj hs).symm h1
        · exact nomatch hs
        · exact (Option.some.inj hs).symm
        · exact absurd (Option.some.inj hs).symm h1
        · exact nomatch hs
        · exact nomatch hs
  intro v v' hv hv' hkey b s hs hs'
  have hnd : v.nd = v'.nd := congrArg Prod.fst hkey
  have hdepth : v.depth = v'.depth := congrArg Prod.snd hkey
  have h1 : s = 1 := by
    by_contra h1
    rcases hcount v hv with ⟨hnd, -⟩ | ⟨hnd, -⟩ | hnd <;> rw [hnd] at hs <;> cases b
    · exact h1 (Option.some.inj hs).symm
    · exact nomatch hs
    · obtain rfl := Option.some.inj hs
      exact absurd hs' (by decide)
    · exact h1 (Option.some.inj hs).symm
    · exact nomatch hs
    · exact nomatch hs
  subst h1
  have hsame : v.count 1 = v'.count 1 := by
    rcases hcount v hv with ⟨h, hc⟩ | ⟨h, hc⟩ | h <;>
      rcases hcount v' hv' with ⟨h', hc'⟩ | ⟨h', hc'⟩ | h' <;> rw [h, h'] at hnd
    any_goals omega
    rw [h] at hs
    cases b <;> exact nomatch hs
  rw [v.nextDepth_of_loop hloop, v'.nextDepth_of_loop hloop, hsame, hdepth]

theorem oneLoop_limit :
    ∀ nd, oneLoop.isInLoop nd = true → unrollLimit 2 (fun _ => none) (oneLoop.id nd) ≠ 0 :=
  fun _ _ => Nat.succ_ne_zero 1

theorem unroll_keeps_oneLoop :
    oneLoop.UnrollKeeps 2 (fun _ => none) ↔
      ∀ es, oneLoop.IsPath es → oneLoop.Bounded (unrollLimit 2 fun _ => none) es →
        (Visit.begin oneLoop).Fits oneLoop (unrollLimit 2 fun _ => none) es :=
  unroll_keeps_iff oneLoop_built oneLoop_limit (oneLoop_copiesAgree _)

/-- Two loops of one block each, one directly behind the other. -/
def twoLoops : Cfg where
  node nd :=
    match nd with
    | 0 => ⟨[.nop 0], 0, none, some 1, []⟩
    | 1 => ⟨[.properBranch 1 .bne 1], 0, some 1, some 2, [(0, false), (1, true)]⟩
    | 2 => ⟨[.properBranch 2 .bne 2], 0, some 2, some 3, [(1, false), (2, true)]⟩
    | _ => ⟨[.fin], 0, none, none, [(2, false)]⟩
  nodes := [0, 1, 2, 3]
  start := 0
  fin := 3

/-- Where the branch decisions lead to. -/
def Cfg.follow (g : Cfg) : ℕ → List Bool → Option ℕ
  | nd, [] => some nd
  | nd, b :: bs => (g.succ nd b).bind fun s => g.follow s bs

theorem Cfg.Walk.follow_eq {g : Cfg} {src dst : ℕ} {es : List Edge} (h : g.Walk src es dst) :
    g.follow src (es.map Prod.snd) = some dst := by
  induction es generalizing src with
  | nil => exact congrArg some h
  | cons e es ih =>
    obtain ⟨rfl, s, hs, hrest⟩ := h
    rw [List.map_cons, Cfg.follow, hs]
    exact ih hrest

theorem Cfg.map_snd_blocks (g : Cfg) (es : List Edge) :
    (g.blocks es).map Prod.snd = es.map Prod.snd := by
  rw [Cfg.blocks, List.map_map]
  rfl

/-- The second loop starts at the depth of the first one: with a limit of 2, the path that goes
through each loop twice is lost. -/
theorem unroll_drops :
    ∃ (g : Cfg) (limit : ℕ), g.Built ∧ limit ≠ 0 ∧ ¬g.UnrollKeeps limit fun _ => none := by
  refine ⟨twoLoops, 2, by decide, by decide, ?_⟩
  rintro ⟨fuel, g', hg', hkeeps⟩
  have hpath : twoLoops.IsPath [(0, false), (1, true), (1, false), (2, true), (2, false)] := by
    decide
  have hbound : twoLoops.Bounded (unrollLimit 2 fun _ => none)
      [(0, false), (1, true), (1, false), (2, true), (2, false)] := by
    intro nd hnd
    show List.count nd [0, 1, 1, 2, 2] ≤ 2
    simp only [List.count_cons, List.count_nil, beq_iff_eq]
    split_ifs <;> omega
  obtain ⟨es', hpath', hblocks⟩ := hkeeps _ hpath hbound
  have hfollow := hpath'.follow_eq
  rw [← g'.map_snd_blocks, hblocks, twoLoops.map_snd_blocks] at hfollow
  have hlost : ∀ g ∈ twoLoops.unroll 2 (fun _ => none) 30,
      g.follow g.start [false, true, false, true, false] = none := by decide +kernel
  obtain ⟨g'', hg''⟩ := Option.isSome_iff_exists.mp
    (by decide +kernel : (twoLoops.unroll 2 (fun _ => none) 30).isSome)
  obtain rfl := unroll_unique hg' hg''
  cases (hlost _ hg'').symm.trans hfollow

end NfpEstimator
