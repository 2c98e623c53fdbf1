import NfpEstimator.Cfg.Unroll

/-!
# Copies of blocks

What holds of the graph all the time while `cfg::unroll` rewrites it: each node is a copy
of one block for one depth, and its edges lead to copies of the successors of the block
(`Copies`). Blocks that lie on no cycle have no copies but themselves.

`Copies.step_cases` tells what the body of the loop does, in terms of blocks and depths.
-/

namespace NfpEstimator

namespace Unrolling

/-- The node stands for a block at a depth. -/
def CopyOf (g : Cfg) (st : Unrolling) (p : ℕ × ℕ) (n : ℕ) : Prop :=
  p.1 ∈ g.nodes ∧ if p.2 = 0 then n = p.1 else st.unrolled.lookup (g.id p.1, p.2) = some n

/-- The node stands for a block at some depth, which is 0 if the block lies on no cycle. -/
def SomeCopyOf (g : Cfg) (st : Unrolling) (s m : ℕ) : Prop :=
  ∃ d, CopyOf g st (s, d) m ∧ (g.isInLoop s = false → d = 0)

/-- The nodes are copies of blocks, and so are their successors. -/
structure Copies (g : Cfg) (st : Unrolling) : Prop where
  start : st.g.start = g.start
  fin : st.g.fin = g.fin
  id : ∀ p n, CopyOf g st p n → st.g.id n = g.id p.1
  loopdepth : ∀ p n, CopyOf g st p n → st.g.loopdepth n = p.2
  lt_fresh : ∀ p n, CopyOf g st p n → n < st.fresh
  notMem : ∀ p n, CopyOf g st p n → p.2 ≠ 0 → n ∉ g.nodes
  finished_lt : ∀ n, st.finished n = true → n < st.fresh
  succ_none : ∀ p n, CopyOf g st p n → ∀ b, g.succ p.1 b = none → st.g.succ n b = none
  succ_some : ∀ p n, CopyOf g st p n → ∀ b s, g.succ p.1 b = some s → ∀ m,
    st.g.succ n b = some m → SomeCopyOf g st s m

section

variable {g : Cfg} {st st' : Unrolling} {p : ℕ × ℕ} {n : ℕ}

theorem CopyOf.unique {m : ℕ} (h : CopyOf g st p n) (h' : CopyOf g st p m) : n = m := by
  obtain ⟨-, h⟩ := h
  obtain ⟨-, h'⟩ := h'
  by_cases hp : p.2 = 0
  · rw [if_pos hp] at h h'
    exact h.trans h'.symm
  · rw [if_neg hp] at h h'
    exact Option.some.inj (h.symm.trans h')

theorem copyOf_zero {s : ℕ} (hs : s ∈ g.nodes) : CopyOf g st (s, 0) s := ⟨hs, by simp⟩

/-- A node stands for one block at one depth. -/
theorem Copies.key_eq (h : Copies g st) (hg : g.Built) {p' : ℕ × ℕ} (hp : CopyOf g st p n)
    (hp' : CopyOf g st p' n) : p = p' := by
  have hid := (h.id p n hp).symm.trans (h.id p' n hp')
  exact Prod.ext (hg.id_inj _ hp.1 _ hp'.1 hid) ((h.loopdepth p n hp).symm.trans (h.loopdepth p' n hp'))

theorem Copies.id_eq (h : Copies g st) {s d m : ℕ} (hm : CopyOf g st (s, d) m) :
    st.g.id m = g.id s := h.id _ m hm

/-! ### What a step keeps -/

/-- Nothing but a link has changed. -/
structure SetLink (st : Unrolling) (node : ℕ) (b : Bool) (x : Option ℕ) (g' : Cfg) : Prop where
  same : Cfg.SameBlocks (fun _ => True) st.g g'
  succ : ∀ m b', g'.succ m b' = if m = node ∧ b' = b then x else st.g.succ m b'

theorem setLink_unlink (st : Unrolling) (node : ℕ) (b : Bool) :
    SetLink st node b none (st.g.unlink node b) :=
  ⟨Cfg.sameBlocks_unlink node b, Cfg.succ_unlink node b⟩

theorem setLink_relink (st : Unrolling) (node u : ℕ) (b : Bool) :
    SetLink st node b (some u) ((st.g.unlink node b).link node u b) := by
  refine ⟨(Cfg.sameBlocks_unlink node b).trans (Cfg.sameBlocks_link node u b), fun m b' => ?_⟩
  rw [Cfg.succ_link, Cfg.succ_unlink]
  split <;> rfl

theorem SetLink.succ_of_ne {node : ℕ} {b : Bool} {x : Option ℕ} {g' : Cfg}
    (h : SetLink st node b x g') (hne : n ≠ node) (b' : Bool) : g'.succ n b' = st.g.succ n b' := by
  rw [h.succ, if_neg fun heq => hne heq.1]

theorem SetLink.succ_node {node : ℕ} {b : Bool} {x : Option ℕ} {g' : Cfg}
    (h : SetLink st node b x g') (b' : Bool) :
    g'.succ node b' = if b' = b then x else st.g.succ node b' := by
  rw [h.succ]
  simp only [true_and]

theorem Copies.setLink (h : Copies g st) (hg : g.Built) {node : ℕ} (hn : CopyOf g st p node)
    {b : Bool} {s : ℕ} {x : Option ℕ} {g' : Cfg} (hset : SetLink st node b x g')
    (hs : g.succ p.1 b = some s) (hx : ∀ m ∈ x, SomeCopyOf g st s m) :
    Copies g { st with g := g' } := by
  refine ⟨hset.same.start.trans h.start, hset.same.fin.trans h.fin, ?_, ?_, h.lt_fresh, h.notMem,
    h.finished_lt, ?_, ?_⟩
  · exact fun p n hp => (hset.same.id trivial).trans (h.id p n hp)
  · exact fun p n hp => (hset.same.loopdepth n trivial).trans (h.loopdepth p n hp)
  · intro p' n hp b' hnone
    show g'.succ n b' = none
    rw [hset.succ, if_neg, h.succ_none p' n hp b' hnone]
    rintro ⟨rfl, rfl⟩
    rw [h.key_eq hg hp hn] at hnone
    exact nomatch hs.symm.trans hnone
  · intro p' n hp b' s' hs' m hm
    have hm : g'.succ n b' = some m := hm
    rw [hset.succ] at hm
    split at hm
    next heq =>
      obtain ⟨rfl, rfl⟩ := heq
      obtain rfl := h.key_eq hg hp hn
      obtain rfl := Option.some.inj (hs.symm.trans hs')
      exact hx m hm
    · exact h.succ_some p' n hp b' s' hs' m hm

section

variable (h : Copies g st) (hg : g.Built) {s d m depth : ℕ} (hm : CopyOf g st (s, d) m)
  (hlook : st.unrolled.lookup (g.id s, depth) = none) (hdepth : depth ≠ 0)
include h hg hm hlook hdepth

/-- A copy is the new one, or it was there before. -/
theorem copyOf_make_iff (p : ℕ × ℕ) (n : ℕ) :
    CopyOf g (st.make m depth) p n ↔ p = (s, depth) ∧ n = st.fresh ∨ CopyOf g st p n := by
  unfold CopyOf make
  dsimp only
  by_cases hp : p.2 = 0
  · rw [if_pos hp, if_pos hp]
    constructor
    · exact .inr
    · rintro (⟨rfl, -⟩ | h)
      · exact absurd hp hdepth
      · exact h
  · rw [if_neg hp, if_neg hp, h.id_eq hm, lookup_insertKey hlook]
    constructor
    · rintro ⟨hmem, h⟩
      split at h
      next heq =>
        obtain ⟨h₁, h₂⟩ := Prod.mk.inj heq
        exact .inl ⟨Prod.ext (hg.id_inj _ hmem _ hm.1 h₁) h₂, (Option.some.inj h).symm⟩
      · exact .inr ⟨hmem, h⟩
    · rintro (⟨rfl, rfl⟩ | ⟨hmem, h⟩)
      · exact ⟨hm.1, if_pos rfl⟩
      · refine ⟨hmem, ?_⟩
        rw [if_neg]
        · exact h
        · intro heq
          rw [heq, hlook] at h
          cases h

theorem Copies.make : Copies g (st.make m depth) := by
  have hcases := copyOf_make_iff h hg hm hlook hdepth
  have hsame := Cfg.sameBlocks_clone (g := st.g) m st.fresh depth
  have hsucc := Cfg.succ_clone (g := st.g) m st.fresh depth
  have hnew : ∀ p n, CopyOf g st p n → n ≠ st.fresh := fun p n hp => (h.lt_fresh p n hp).ne
  have hsome : ∀ {s' m'}, SomeCopyOf g st s' m' → SomeCopyOf g (st.make m depth) s' m' :=
    fun ⟨d', hc, hz⟩ => ⟨d', (hcases _ _).mpr (.inr hc), hz⟩
  refine ⟨hsame.start.trans h.start, hsame.fin.trans h.fin, ?_, ?_, ?_, ?_, ?_, ?_, ?_⟩
  · intro p n hp
    rcases (hcases p n).mp hp with ⟨rfl, rfl⟩ | hp
    · have hinstrs : (st.make m depth).g.instrs st.fresh = st.g.instrs m := Cfg.instrs_clone _ _ _
      have hid := h.id_eq hm
      rw [Cfg.id, hinstrs]
      exact hid
    · exact (hsame.id (hnew p n hp)).trans (h.id p n hp)
  · intro p n hp
    rcases (hcases p n).mp hp with ⟨rfl, rfl⟩ | hp
    · exact Cfg.loopdepth_clone _ _ _
    · exact (hsame.loopdepth n (hnew p n hp)).trans (h.loopdepth p n hp)
  · intro p n hp
    show n < st.fresh + 1
    rcases (hcases p n).mp hp with ⟨rfl, rfl⟩ | hp
    · exact Nat.lt_succ_self _
    · exact Nat.lt_succ_of_lt (h.lt_fresh p n hp)
  · intro p n hp hne hn
    rcases (hcases p n).mp hp with ⟨rfl, rfl⟩ | hp
    · exact lt_irrefl _ (h.lt_fresh _ _ (copyOf_zero hn))
    · exact h.notMem p n hp hne hn
  · exact fun n hn => Nat.lt_succ_of_lt (h.finished_lt n hn)
  · intro p n hp b hnone
    show (st.g.clone m st.fresh depth).succ n b = none
    rw [hsucc]
    rcases (hcases p n).mp hp with ⟨rfl, rfl⟩ | hp
    · rw [if_pos rfl]
      exact h.succ_none _ m hm b hnone
    · rw [if_neg (hnew p n hp)]
      exact h.succ_none p n hp b hnone
  · intro p n hp b s' hs' m' hm'
    have hm' : (st.g.clone m st.fresh depth).succ n b = some m' := hm'
    rw [hsucc] at hm'
    rcases (hcases p n).mp hp with ⟨rfl, rfl⟩ | hp
    · rw [if_pos rfl] at hm'
      exact hsome (h.succ_some _ m hm b s' hs' m' hm')
    · rw [if_neg (hnew p n hp)] at hm'
      exact hsome (h.succ_some p n hp b s' hs' m' hm')

end

/-- What asking for a copy leaves as it is. -/
structure Copied (g : Cfg) (st st' : Unrolling) : Prop where
  visited : st'.visited = st.visited
  finished : st'.finished = st.finished
  copyOf : ∀ p n, CopyOf g st p n → CopyOf g st' p n
  succ : ∀ n, n < st.fresh → ∀ b, st'.g.succ n b = st.g.succ n b
  fresh : st.fresh ≤ st'.fresh

/-- A copy is found or made, with the links of a copy that is there already. -/
theorem Copies.copy (h : Copies g st) (hg : g.Built) {s d m depth : ℕ} (hm : CopyOf g st (s, d) m)
    (hdepth : depth ≠ 0) {u : ℕ} (hcopy : st.copy m depth = (u, st')) :
    Copies g st' ∧ CopyOf g st' (s, depth) u ∧ Copied g st st' ∧
      ∀ p n, CopyOf g st' p n → CopyOf g st p n ∨ p = (s, depth) ∧
        st.finished n = false ∧ ∀ b, st'.g.succ n b = st.g.succ m b := by
  unfold Unrolling.copy at hcopy
  rw [h.id_eq hm] at hcopy
  split at hcopy
  next hlook =>
    obtain ⟨rfl, rfl⟩ := Prod.mk.inj hcopy
    refine ⟨h, ⟨hm.1, ?_⟩, ⟨rfl, rfl, fun _ _ hp => hp, fun _ _ _ => rfl, le_rfl⟩, fun _ _ hp => .inl hp⟩
    rw [if_neg hdepth]
    exact hlook
  next hlook =>
    obtain ⟨rfl, rfl⟩ := Prod.mk.inj hcopy
    have hcases := copyOf_make_iff h hg hm hlook hdepth
    have hsucc := Cfg.succ_clone (g := st.g) m st.fresh depth
    refine ⟨h.make hg hm hlook hdepth, (hcases _ _).mpr (.inl ⟨rfl, rfl⟩),
      ⟨rfl, rfl, ?_, ?_, Nat.le_succ _⟩, ?_⟩
    · exact fun p n hp => (hcases p n).mpr (.inr hp)
    · exact fun n hn b => (hsucc n b).trans (if_neg hn.ne)
    · intro p n hp
      rcases (hcases p n).mp hp with ⟨rfl, rfl⟩ | hp
      · refine .inr ⟨rfl, ?_, fun b => (hsucc _ b).trans (if_pos rfl)⟩
        by_contra hf
        rw [Bool.not_eq_false] at hf
        exact lt_irrefl _ (h.finished_lt _ hf)
      · exact .inl hp

theorem Copies.withVisited (h : Copies g st) (x : ℕ → ℕ) : Copies g { st with visited := x } :=
  ⟨h.start, h.fin, h.id, h.loopdepth, h.lt_fresh, h.notMem, h.finished_lt, h.succ_none, h.succ_some⟩

theorem lt_fresh_initial {nd : ℕ} (hnd : nd ∈ g.nodes) : nd < (initial g).fresh := by
  show nd < g.nodes.foldr max 0 + 1
  revert hnd
  induction g.nodes with
  | nil => exact fun hnd => absurd hnd List.not_mem_nil
  | cons x l ih =>
    intro hnd
    rw [List.foldr_cons]
    rcases List.mem_cons.mp hnd with rfl | hnd
    · exact Nat.lt_succ_of_le (le_max_left _ _)
    · exact (ih hnd).trans_le (Nat.succ_le_succ (le_max_right _ _))

theorem copyOf_initial (h : CopyOf g (initial g) p n) : p.2 = 0 ∧ n = p.1 := by
  by_cases hp : p.2 = 0
  · rw [CopyOf, if_pos hp] at h
    exact ⟨hp, h.2⟩
  · rw [CopyOf, if_neg hp] at h
    exact nomatch h.2

/-- Before the loop each node stands for itself. -/
theorem copies_initial (hg : g.Built) : Copies g (initial g) := by
  refine ⟨rfl, rfl, ?_, ?_, ?_, ?_, fun n hn => (nomatch hn), ?_, ?_⟩
  · intro p n hp
    rw [(copyOf_initial hp).2]
    rfl
  · intro p n hp
    rw [(copyOf_initial hp).2, (copyOf_initial hp).1]
    exact hg.loopdepth _ hp.1
  · intro p n hp
    rw [(copyOf_initial hp).2]
    exact lt_fresh_initial hp.1
  · intro p n hp hne
    exact absurd (copyOf_initial hp).1 hne
  · intro p n hp b hnone
    rw [(copyOf_initial hp).2]
    exact hnone
  · intro p n hp b s hs m hm
    rw [(copyOf_initial hp).2] at hm
    obtain rfl := Option.some.inj (hs.symm.trans hm)
    exact ⟨0, copyOf_zero (hg.succ_mem _ hp.1 b s hs), fun _ => rfl⟩

/-- After a node has been pushed and left, the counts are as before. -/
theorem visited_push_pop (visited : ℕ → ℕ) (k : ℕ) :
    Function.update (Function.update visited k (visited k + 1)) k
      (Function.update visited k (visited k + 1) k - 1) = visited := by
  rw [Function.update_self, Nat.add_sub_cancel, Function.update_idem, Function.update_eq_self]

theorem finished_leave (st : Unrolling) (node n : ℕ) :
    (st.leave node).finished n = if n = node then true else st.finished n := by
  exact Function.update_apply st.finished node true n

theorem Copies.leave (h : Copies g st) {node : ℕ} (hn : CopyOf g st p node) :
    Copies g (st.leave node) := by
  refine ⟨h.start, h.fin, h.id, h.loopdepth, h.lt_fresh, h.notMem, ?_, h.succ_none, h.succ_some⟩
  intro n hf
  show n < st.fresh
  rw [finished_leave] at hf
  split at hf
  next heq =>
    rw [heq]
    exact h.lt_fresh _ _ hn
  · exact h.finished_lt n hf

/-! ### The body of the loop -/

/-- The depth at which a block is entered from a copy. -/
def depthOf (g : Cfg) (st : Unrolling) (p : ℕ × ℕ) (s : ℕ) : ℕ :=
  if g.isInLoop s then max (st.visited (g.id s)) p.2 else 0

/-- What the body of the loop does at a node with a successor. -/
inductive StepCase (g : Cfg) (L : ℕ → ℕ) (st : Unrolling) (p : ℕ × ℕ) (node i : ℕ)
    (stack : List (ℕ × ℕ)) (m : ℕ) (b : Bool) (s d : ℕ) :
    List (ℕ × ℕ) × Unrolling → Prop
  /-- The limit is reached. -/
  | unlink (hloop : g.isInLoop s = true) (hle : L (g.id s) ≤ depthOf g st p s) :
    StepCase g L st p node i stack m b s d
      ((node, i) :: stack, { st with g := st.g.unlink node b })
  /-- The block is entered at a larger depth. -/
  | relink (hloop : g.isInLoop s = true) (hlt : depthOf g st p s < L (g.id s))
      (hd : d < depthOf g st p s) (u : ℕ) (st' : Unrolling)
      (hcopy : st.copy m (depthOf g st p s) = (u, st')) :
    StepCase g L st p node i stack m b s d ((st'.relink node u b).enter node i stack u)
  /-- The block is entered where the link leads. -/
  | keep (hle : depthOf g st p s ≤ d) (hlt : g.isInLoop s = true → depthOf g st p s < L (g.id s)) :
    StepCase g L st p node i stack m b s d (st.enter node i stack m)

/-- **What the body of the loop does**: it leaves a node that has no further successor; else the
successor is a copy of a block, and `StepCase` applies. -/
theorem Copies.step_cases (h : Copies g st) {L : ℕ → ℕ}
    (hL : ∀ nd, g.isInLoop nd = true → L (g.id nd) ≠ 0) {node : ℕ} (hn : CopyOf g st p node) (i : ℕ)
    (stack : List (ℕ × ℕ)) :
    (st.g.succs node)[i]? = none ∧ step L g.loopfreeNodes node i stack st = (stack, st.leave node) ∨
      ∃ m b s d, (st.g.succs node)[i]? = some (m, b) ∧ g.succ p.1 b = some s ∧
        CopyOf g st (s, d) m ∧ (g.isInLoop s = false → d = 0) ∧
        StepCase g L st p node i stack m b s d (step L g.loopfreeNodes node i stack st) := by
  cases hi : (st.g.succs node)[i]? with
  | none =>
    refine .inl ⟨rfl, ?_⟩
    rw [step, hi]
  | some x =>
    obtain ⟨m, b⟩ := x
    have hm : st.g.succ node b = some m := Cfg.mem_succs.mp (List.mem_of_getElem? hi)
    obtain ⟨s, hs⟩ : ∃ s, g.succ p.1 b = some s := by
      rw [← Option.isSome_iff_exists, Option.isSome_iff_ne_none]
      intro hnone
      exact nomatch hm.symm.trans (h.succ_none p node hn b hnone)
    obtain ⟨d, hcopy, hz⟩ := h.succ_some p node hn b s hs m hm
    refine .inr ⟨m, b, s, d, rfl, hs, hcopy, hz, ?_⟩
    have hid := h.id_eq hcopy
    have hmem : m ∉ g.loopfreeNodes ↔ g.isInLoop s = true := by
      rw [Cfg.loopfreeNodes, List.mem_filter, not_and, Bool.not_eq_true', Bool.not_eq_false]
      constructor
      · intro hnot
        by_contra hloop
        rw [Bool.not_eq_true] at hloop
        obtain rfl := hz hloop
        obtain rfl : m = s := CopyOf.unique hcopy (copyOf_zero hcopy.1)
        rw [hnot hcopy.1] at hloop
        exact nomatch hloop
      · intro hloop hmn
        by_cases hd : d = 0
        · subst hd
          obtain rfl : m = s := CopyOf.unique hcopy (copyOf_zero hcopy.1)
          exact hloop
        · exact absurd hmn (h.notMem _ m hcopy hd)
    unfold step
    rw [hi]
    dsimp only
    rw [hid, h.loopdepth p node hn, h.loopdepth _ m hcopy]
    by_cases hloop : g.isInLoop s = true
    · have hdepth : depthOf g st p s = max (st.visited (g.id s)) p.2 := if_pos hloop
      rw [if_pos ⟨hL s hloop, hmem.mpr hloop⟩, ← hdepth]
      split
      next hle => exact .unlink hloop hle
      next hlt =>
        rw [not_le] at hlt
        split
        next hd => exact .relink hloop hlt hd _ _ rfl
        next hd => exact .keep (not_lt.mp hd) fun _ => hlt
    · have hdepth : depthOf g st p s = 0 := if_neg hloop
      rw [if_neg fun hc => hloop (hmem.mp hc.2)]
      exact .keep (hdepth ▸ Nat.zero_le d) fun h => absurd h hloop

/-- Some iterations of the loop. -/
def Runs (L : ℕ → ℕ) (nounroll : List ℕ) (x y : List (ℕ × ℕ) × Unrolling) : Prop :=
  ∃ k, ∀ fuel, loop L nounroll (fuel + k) x.1 x.2 = loop L nounroll fuel y.1 y.2

theorem Runs.refl (L : ℕ → ℕ) (nounroll : List ℕ) (x : List (ℕ × ℕ) × Unrolling) :
    Runs L nounroll x x := ⟨0, fun _ => rfl⟩

theorem Runs.trans {L : ℕ → ℕ} {nounroll : List ℕ} {x y z : List (ℕ × ℕ) × Unrolling}
    (hxy : Runs L nounroll x y) (hyz : Runs L nounroll y z) : Runs L nounroll x z := by
  obtain ⟨k, hk⟩ := hxy
  obtain ⟨k', hk'⟩ := hyz
  refine ⟨k' + k, fun fuel => ?_⟩
  rw [← Nat.add_assoc, hk, hk']

theorem Runs.step (L : ℕ → ℕ) (nounroll : List ℕ) (nd i : ℕ) (stack : List (ℕ × ℕ))
    (st : Unrolling) : Runs L nounroll ((nd, i) :: stack, st) (step L nounroll nd i stack st) :=
  ⟨1, fun _ => rfl⟩

end

end Unrolling

end NfpEstimator
