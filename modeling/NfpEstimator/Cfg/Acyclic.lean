import NfpEstimator.Cfg.Copies
import NfpEstimator.Cfg.Depth

/-!
# Unrolling ends without loops

`cfg::unroll` may come back to a node that is still on its stack. It then goes through the
node again, with higher counts, until the limits break the cycle. The outer visit finds
all links as they have to be, since they were set for counts at least as high as its own.

So each time a node is finished, everything behind it is finished too, and nodes can be
ranked by the order in which they were finished first (`Ended`). The number of nodes on the
stack is bounded by the limits, so the loop ends for every program (`unroll_acyclic`).
-/

namespace NfpEstimator

namespace Unrolling

/-! ### The invariant -/

/-- The links of a copy lead to copies that are deep enough for a visit with these counts. -/
def Deep (g : Cfg) (st : Unrolling) (count : ℕ → ℕ) (p : ℕ × ℕ) (n : ℕ) (b : Bool) : Prop :=
  ∀ s, g.succ p.1 b = some s → g.isInLoop s = true → ∀ m, st.g.succ n b = some m →
    ∃ d, CopyOf g st (s, d) m ∧ max (count s) p.2 ≤ d

/-- The nodes behind a finished node are finished and have lower ranks. -/
structure Ended (g : Cfg) (L : ℕ → ℕ) (rank : ℕ → ℕ) (st : Unrolling) : Prop extends Copies g st where
  lt_limit : ∀ s d m, CopyOf g st (s, d) m → g.isInLoop s = true → d < L (g.id s)
  closed : ∀ n, st.finished n = true → ∀ b m, st.g.succ n b = some m →
    st.finished m = true ∧ rank m < rank n

/-- What may have happened in between: nodes are finished, with links that are deep enough, and
only links of these nodes are set. For the nodes in `top` nothing is said. -/
structure Progress (g : Cfg) (count : ℕ → ℕ) (top : Set ℕ) (st st' : Unrolling) : Prop where
  copyOf : ∀ p n, CopyOf g st p n → CopyOf g st' p n
  finished : ∀ n, st.finished n = true → st'.finished n = true
  succ : ∀ n, n < st.fresh → n ∉ top → st.finished n = true ∨ st'.finished n = false →
    ∀ b, st'.g.succ n b = st.g.succ n b
  deep : ∀ p n, CopyOf g st p n → n ∉ top → st.finished n = false → st'.finished n = true →
    ∀ b, Deep g st' count p n b
  fresh : st.fresh ≤ st'.fresh

/-- The counts of a walk that has come to a block. -/
structure Trail (g : Cfg) (L : ℕ → ℕ) (nd : ℕ) (count : ℕ → ℕ) : Prop where
  mem : nd ∈ g.nodes
  walk : ∀ s, 0 < count s → ∃ es, g.Walk s es nd
  le : ∀ s, count s ≤ Visit.bound g L s

section

variable {g : Cfg} {L rank : ℕ → ℕ} {count count' : ℕ → ℕ} {st st' st'' : Unrolling} {p : ℕ × ℕ}
  {n : ℕ}

theorem Deep.mono {b : Bool} (h : Deep g st count p n b) (hle : ∀ s, count' s ≤ count s)
    (hcopy : ∀ p n, CopyOf g st p n → CopyOf g st' p n) (hsucc : st'.g.succ n b = st.g.succ n b) :
    Deep g st' count' p n b := by
  intro s hs hloop m hm
  obtain ⟨d, hc, hd⟩ := h s hs hloop m (hsucc ▸ hm)
  exact ⟨d, hcopy _ _ hc, (max_le_max_right _ (hle s)).trans hd⟩

theorem Progress.refl (count : ℕ → ℕ) (top : Set ℕ) (st : Unrolling) :
    Progress g count top st st :=
  ⟨fun _ _ h => h, fun _ h => h, fun _ _ _ _ _ => rfl,
    fun _ _ _ _ h h' => (nomatch h.symm.trans h'), le_rfl⟩

theorem Progress.mono {top top' : Set ℕ} (h : Progress g count top st st')
    (hle : ∀ s, count' s ≤ count s) (htop : ∀ n ∈ top, n ∈ top') :
    Progress g count' top' st st' where
  copyOf := h.copyOf
  finished := h.finished
  succ n hn hnot := h.succ n hn fun hmem => hnot (htop n hmem)
  deep p n hp hnot hf hf' b :=
    (h.deep p n hp (fun hmem => hnot (htop n hmem)) hf hf' b).mono hle (fun _ _ h => h) rfl
  fresh := h.fresh

theorem Progress.trans {top : Set ℕ} (hst : Copies g st) (h : Progress g count top st st')
    (h' : Progress g count top st' st'') : Progress g count top st st'' where
  copyOf p n hp := h'.copyOf p n (h.copyOf p n hp)
  finished n hn := h'.finished n (h.finished n hn)
  succ n hn hnot hor b := by
    have hf : st''.finished n = false → st'.finished n = false := by
      intro hf
      by_contra hf'
      rw [Bool.not_eq_false] at hf'
      rw [h'.finished n hf'] at hf
      exact nomatch hf
    have h₂ := h'.succ n (hn.trans_le h.fresh) hnot (hor.imp_left (h.finished n)) b
    exact h₂.trans (h.succ n hn hnot (hor.imp_right hf) b)
  deep p n hp hnot hf hf' b := by
    cases hmid : st'.finished n with
    | true =>
      refine (h.deep p n hp hnot hf hmid b).mono (fun _ => le_rfl) h'.copyOf ?_
      exact h'.succ n ((hst.lt_fresh p n hp).trans_le h.fresh) hnot (.inl hmid) b
    | false => exact h'.deep p n (h.copyOf p n hp) hnot hmid hf' b
  fresh := h.fresh.trans h'.fresh

/-- A walk goes on to a successor. -/
theorem Trail.enter (h : Trail g L p.1 count) (hg : g.Built) {b : Bool} {s : ℕ}
    (hs : g.succ p.1 b = some s) (hlt : g.isInLoop s = true → count s < L (g.id s)) :
    Trail g L s (Function.update count s (count s + 1)) ∧ count s + 1 ≤ Visit.bound g L s := by
  have hmem := hg.succ_mem _ h.mem b s hs
  have hbound : count s + 1 ≤ Visit.bound g L s := by
    unfold Visit.bound
    cases hloop : g.isInLoop s with
    | true => exact (Nat.succ_le_of_lt (hlt hloop)).trans (le_max_right _ _)
    | false =>
      have hzero : count s = 0 := by
        by_contra hpos
        obtain ⟨es, hw⟩ := h.walk s (Nat.pos_of_ne_zero hpos)
        have hcycle := Visit.isInLoop_of_walk hg hmem (by simp)
          (hw.append (Cfg.walk_single (e := (_, b)) hs))
        rw [hloop] at hcycle
        exact nomatch hcycle
      rw [hzero]
      exact le_max_left _ _
  refine ⟨⟨hmem, fun t ht => ?_, fun t => ?_⟩, hbound⟩
  · by_cases heq : t = s
    · exact ⟨[], heq⟩
    · rw [Function.update_of_ne heq] at ht
      obtain ⟨es, hw⟩ := h.walk t ht
      exact ⟨es ++ [(p.1, b)], hw.append (Cfg.walk_single (e := (_, b)) hs)⟩
  · by_cases heq : t = s
    · rw [heq, Function.update_self]
      exact hbound
    · rw [Function.update_of_ne heq]
      exact h.le t

/-! ### What a step keeps -/

/-- Setting a link of an unfinished copy. -/
theorem Ended.setLink (h : Ended g L rank st) (hg : g.Built) {node : ℕ} (hn : CopyOf g st p node)
    (hfin : st.finished node = false) {b : Bool} {s : ℕ} {x : Option ℕ} {g' : Cfg}
    (hset : SetLink st node b x g') (hs : g.succ p.1 b = some s)
    (hx : ∀ m ∈ x, SomeCopyOf g st s m) :
    Ended g L rank { st with g := g' } ∧ Progress g count {node} st { st with g := g' } := by
  refine ⟨⟨h.toCopies.setLink hg hn hset hs hx, h.lt_limit, ?_⟩,
    ⟨fun _ _ h => h, fun _ h => h, fun n _ hnot _ => hset.succ_of_ne hnot,
      fun _ _ _ _ h h' => (nomatch h.symm.trans h'), le_rfl⟩⟩
  intro n hf b' m hm
  have hne : n ≠ node := by
    rintro rfl
    exact nomatch hfin.symm.trans hf
  exact h.closed n hf b' m ((hset.succ_of_ne hne b').symm.trans hm)

theorem Ended.copy (h : Ended g L rank st) (hg : g.Built) {s d m depth u : ℕ}
    (hm : CopyOf g st (s, d) m) (hlt : d < depth) (hlim : depth < L (g.id s))
    (hcopy : st.copy m depth = (u, st')) :
    Ended g L rank st' ∧ CopyOf g st' (s, depth) u ∧ Copied g st st' := by
  obtain ⟨hcopies, hu, hkeep, hnew⟩ := h.toCopies.copy hg hm (Nat.ne_zero_of_lt hlt) hcopy
  refine ⟨⟨hcopies, ?_, ?_⟩, hu, hkeep⟩
  · intro s' d' m' hm' hloop
    rcases hnew _ _ hm' with hm' | ⟨heq, -⟩
    · exact h.lt_limit s' d' m' hm' hloop
    · obtain ⟨rfl, rfl⟩ := Prod.mk.inj heq
      exact hlim
  · intro n hf b m' hm'
    rw [hkeep.finished] at hf ⊢
    rw [hkeep.succ n (h.finished_lt n hf)] at hm'
    exact h.closed n hf b m' hm'

theorem Copied.progress (h : Copied g st st') (top : Set ℕ) : Progress g count top st st' where
  copyOf := h.copyOf
  finished _ hn := h.finished ▸ hn
  succ n hn _ _ := h.succ n hn
  deep _ _ _ _ hf hf' := by
    rw [h.finished] at hf'
    exact nomatch hf.symm.trans hf'
  fresh := h.fresh

theorem Ended.withVisited (h : Ended g L rank st) (x : ℕ → ℕ) :
    Ended g L rank { st with visited := x } :=
  ⟨h.toCopies.withVisited x, h.lt_limit, h.closed⟩

/-- Leaving a node that is finished already changes nothing. -/
theorem Ended.leave_of_finished (h : Ended g L rank st) {node : ℕ} (hf : st.finished node = true) :
    Ended g L rank (st.leave node) ∧ Progress g count ∅ st (st.leave node) := by
  have hfin : (st.leave node).finished = st.finished := by
    funext n
    rw [finished_leave]
    split
    next heq => rw [heq, hf]
    · rfl
  refine ⟨⟨⟨h.start, h.fin, h.id, h.loopdepth, h.lt_fresh, h.notMem, ?_, h.succ_none, h.succ_some⟩,
    h.lt_limit, ?_⟩, ⟨fun _ _ h => h, ?_, fun _ _ _ _ _ => rfl, ?_, le_rfl⟩⟩
  · rw [hfin]
    exact h.finished_lt
  · rw [hfin]
    exact h.closed
  · rw [hfin]
    exact fun _ h => h
  · rw [hfin]
    exact fun _ _ _ _ h h' => nomatch h.symm.trans h'

/-- A node is finished; it ranks above all nodes behind it. -/
theorem Ended.leave (h : Ended g L rank st) {node : ℕ} (hn : CopyOf g st p node)
    (hf : st.finished node = false) (hsucc : ∀ b m, st.g.succ node b = some m → st.finished m = true) :
    ∃ rank', Ended g L rank' (st.leave node) := by
  have hne : ∀ n, st.finished n = true → n ≠ node := by
    rintro n hfn rfl
    exact nomatch hf.symm.trans hfn
  let above := max ((st.g.succ node true).elim 0 rank) ((st.g.succ node false).elim 0 rank) + 1
  have habove : ∀ b m, st.g.succ node b = some m → rank m < above := by
    intro b m hm
    show rank m < max _ _ + 1
    cases b <;> rw [hm]
    · exact Nat.lt_succ_of_le (le_max_right _ _)
    · exact Nat.lt_succ_of_le (le_max_left _ _)
  refine ⟨Function.update rank node above, h.toCopies.leave hn, h.lt_limit, ?_⟩
  intro n hfn b m hm
  have hm : st.g.succ n b = some m := hm
  rw [finished_leave] at hfn
  rw [finished_leave]
  split at hfn
  next heq =>
    subst heq
    have hfm := hsucc b m hm
    rw [if_neg (hne m hfm), Function.update_self, Function.update_of_ne (hne m hfm)]
    exact ⟨hfm, habove b m hm⟩
  · obtain ⟨hfm, hlt⟩ := h.closed n hfn b m hm
    rw [if_neg (hne m hfm), Function.update_of_ne (hne n hfn), Function.update_of_ne (hne m hfm)]
    exact ⟨hfm, hlt⟩

/-! ### A node and all below it -/

/-- The node on top of the stack, with the counts of the walk to it. -/
structure OnTop (g : Cfg) (L : ℕ → ℕ) (count : ℕ → ℕ) (p : ℕ × ℕ) (st : Unrolling) (node : ℕ) :
    Prop where
  trail : Trail g L p.1 count
  ended : ∃ rank, Ended g L rank st
  copyOf : CopyOf g st p node
  visited : ∀ nd ∈ g.nodes, st.visited (g.id nd) = count nd

/-- The node has been finished. -/
structure Over (g : Cfg) (L : ℕ → ℕ) (count : ℕ → ℕ) (p : ℕ × ℕ) (node : ℕ) (st st' : Unrolling) :
    Prop where
  ended : ∃ rank, Ended g L rank st'
  finished : st'.finished node = true
  progress : Progress g count ∅ st st'
  visited : st'.visited = Function.update st.visited (g.id p.1) (st.visited (g.id p.1) - 1)

variable {node i m s d : ℕ} {b : Bool}

theorem OnTop.depthOf_eq (h : OnTop g L count p st node) (hs : s ∈ g.nodes)
    (hloop : g.isInLoop s = true) : depthOf g st p s = max (count s) p.2 := by
  rw [depthOf, if_pos hloop, h.visited s hs]

theorem OnTop.visited_leave (h : OnTop g L count p st node) :
    (st.leave node).visited = Function.update st.visited (g.id p.1) (st.visited (g.id p.1) - 1) := by
  obtain ⟨rank, hended⟩ := h.ended
  rw [← hended.id p node h.copyOf]
  rfl

/-- A node that has been finished in the meantime is left without changing it. -/
theorem OnTop.run_of_finished (h : OnTop g L count p st node) (hg : g.Built)
    (hL : ∀ nd, g.isInLoop nd = true → L (g.id nd) ≠ 0) (hf : st.finished node = true)
    (hdeep : ∀ b, Deep g st count p node b) (k : ℕ) (i : ℕ)
    (hk : (st.g.succs node).length - i = k) (stack : List (ℕ × ℕ)) :
    Runs L g.loopfreeNodes ((node, i) :: stack, st) (stack, st.leave node) := by
  obtain ⟨rank, hended⟩ := h.ended
  induction k generalizing i with
  | zero =>
    rcases hended.step_cases hL h.copyOf i stack with ⟨-, heq⟩ | ⟨m, b, s, d, hi, -⟩
    · exact heq ▸ Runs.step L g.loopfreeNodes node i stack st
    · have := (List.getElem?_eq_some_iff.mp hi).1
      omega
  | succ k ih =>
    have hstep := Runs.step L g.loopfreeNodes node i stack st
    rcases hended.step_cases hL h.copyOf i stack with ⟨-, heq⟩ | ⟨m, b, s, d, hi, hs, hm, -, hcase⟩
    · exact heq ▸ hstep
    have hsm : st.g.succ node b = some m := Cfg.mem_succs.mp (List.mem_of_getElem? hi)
    obtain ⟨hfm, -⟩ := hended.closed node hf b m hsm
    -- the link is deep enough already
    have hle : g.isInLoop s = true → depthOf g st p s ≤ d := by
      intro hloop
      obtain ⟨d', hc, hd'⟩ := hdeep b s hs hloop m hsm
      rw [h.depthOf_eq hm.1 hloop]
      exact hd'.trans_eq (congrArg Prod.snd (hended.key_eq hg hc hm))
    generalize Unrolling.step L g.loopfreeNodes node i stack st = y at hstep hcase
    cases hcase with
    | unlink hloop hlim =>
      exact absurd (hlim.trans (hle hloop)) (not_le.mpr (hended.lt_limit s d m hm hloop))
    | relink hloop _ hd => exact absurd (hle hloop) (not_le.mpr hd)
    | keep _ _ =>
      rw [Unrolling.enter, if_pos hfm] at hstep
      exact hstep.trans (ih (i + 1) (by omega))

/-- The first `i` links of the node are done. -/
def Handled (g : Cfg) (count : ℕ → ℕ) (p : ℕ × ℕ) (st : Unrolling) (node i : ℕ) : Prop :=
  ∀ x ∈ (st.g.succs node).take i, st.finished x.1 = true ∧ Deep g st count p node x.2

theorem handled_zero : Handled g count p st node 0 := fun x hx => by simp at hx

/-- Links that have been done stay so as long as they are where they are. -/
theorem Handled.of_take {top : Set ℕ} (h : Handled g count p st node i)
    (htake : (st'.g.succs node).take i = (st.g.succs node).take i)
    (hprog : Progress g count top st st') : Handled g count p st' node i := by
  intro x hx
  have hx' := Cfg.mem_succs.mp (List.mem_of_mem_take hx)
  rw [htake] at hx
  have hx'' := Cfg.mem_succs.mp (List.mem_of_mem_take hx)
  obtain ⟨hf, hdeep⟩ := h x hx
  exact ⟨hprog.finished _ hf, hdeep.mono (fun _ => le_rfl) hprog.copyOf (hx'.trans hx''.symm)⟩

/-- When all links are done, the node is finished. -/
theorem OnTop.leave (h : OnTop g L count p st node) (hg : g.Built) (hf : st.finished node = false)
    (hhandled : Handled g count p st node i) (hi : (st.g.succs node)[i]? = none) :
    Over g L count p node st (st.leave node) := by
  obtain ⟨rank, hended⟩ := h.ended
  have hall : ∀ b m, st.g.succ node b = some m →
      st.finished m = true ∧ Deep g st count p node b := by
    intro b m hm
    refine hhandled (m, b) ?_
    rw [List.take_of_length_le (List.getElem?_eq_none_iff.mp hi)]
    exact Cfg.mem_succs.mpr hm
  refine ⟨hended.leave h.copyOf hf fun b m hm => (hall b m hm).1, ?_, ⟨fun _ _ h => h, ?_,
    fun _ _ _ _ _ => rfl, ?_, le_rfl⟩, h.visited_leave⟩
  · rw [finished_leave, if_pos rfl]
  · intro n hn
    rw [finished_leave]
    split
    · rfl
    · exact hn
  · intro p' n hp _ hfn hfn' b s' hs' hloop m hm
    rw [finished_leave] at hfn'
    split at hfn'
    next heq =>
      subst heq
      obtain rfl := hended.key_eq hg hp h.copyOf
      exact (hall b m hm).2 s' hs' hloop m hm
    · exact nomatch hfn.symm.trans hfn'

/-- Some steps while the node is on top of the stack, and then what finishes it. -/
theorem Over.of_progress (h : Over g L count p node st' st'') (hst : OnTop g L count p st node)
    (hg : g.Built) (hf : st.finished node = false) (hprog : Progress g count {node} st st')
    (hvis : st'.visited = st.visited)
    (hdeep : st'.finished node = true → ∀ b, Deep g st' count p node b) :
    Over g L count p node st st'' := by
  obtain ⟨rank, hended⟩ := hst.ended
  have htrans : Progress g count {node} st st'' :=
    hprog.trans hended.toCopies (h.progress.mono (fun _ => le_rfl) fun _ hn => absurd hn (by simp))
  refine ⟨h.ended, h.finished, ⟨htrans.copyOf, htrans.finished, ?_, ?_, htrans.fresh⟩, ?_⟩
  · intro n hn _ hor
    by_cases hne : n = node
    · subst hne
      rcases hor with hor | hor
      · exact nomatch hf.symm.trans hor
      · exact nomatch h.finished.symm.trans hor
    · exact htrans.succ n hn hne hor
  · intro p' n hp _ hfn hfn' b
    by_cases hne : n = node
    · subst hne
      obtain rfl := hended.key_eq hg hp hst.copyOf
      cases hmid : st'.finished n with
      | true =>
        refine (hdeep hmid b).mono (fun _ => le_rfl) h.progress.copyOf ?_
        exact h.progress.succ n ((hended.lt_fresh _ n hp).trans_le hprog.fresh) (by simp)
          (.inl hmid) b
      | false => exact h.progress.deep _ n (hprog.copyOf _ n hp) (by simp) hmid h.finished b
    · exact htrans.deep p' n hp hne hfn hfn' b
  · rw [h.visited, hvis]

/-- The next link is done after the successor has been entered, where this comes back; or the
node has been finished below. -/
theorem OnTop.enter (h : OnTop g L count p st node) (hg : g.Built) (hf : st.finished node = false)
    (hhandled : Handled g count p st node i) {u : ℕ} (hi : (st.g.succs node)[i]? = some (u, b))
    (hs : g.succ p.1 b = some s) (hu : CopyOf g st (s, d) u)
    (hlt : g.isInLoop s = true → max (count s) p.2 ≤ d)
    (hlim : g.isInLoop s = true → count s < L (g.id s))
    (hchild : ∀ st₁ stack, OnTop g L (Function.update count s (count s + 1)) (s, d) st₁ u →
      st₁.finished u = false → ∃ st₂,
        Runs L g.loopfreeNodes ((u, 0) :: stack, st₁) (stack, st₂) ∧
          Over g L (Function.update count s (count s + 1)) (s, d) u st₁ st₂)
    (stack : List (ℕ × ℕ)) :
    ∃ st', Runs L g.loopfreeNodes (st.enter node i stack u) ((node, i + 1) :: stack, st') ∧
      OnTop g L count p st' node ∧ Progress g count {node} st st' ∧ st'.visited = st.visited ∧
      (st'.finished node = false ∧ st'.g.succs node = st.g.succs node ∧
          Handled g count p st' node (i + 1) ∨
        st'.finished node = true ∧ ∀ b, Deep g st' count p node b) := by
  obtain ⟨rank, hended⟩ := h.ended
  have hsu : st.g.succ node b = some u := Cfg.mem_succs.mp (List.mem_of_getElem? hi)
  have hdeep : Deep g st count p node b := by
    intro s' hs' hloop m hm
    obtain rfl := Option.some.inj (hs.symm.trans hs')
    obtain rfl := Option.some.inj (hsu.symm.trans hm)
    exact ⟨d, hu, hlt hloop⟩
  have hnext : ∀ st', Progress g count ∅ st st' → st'.finished u = true →
      (∀ b', st'.g.succ node b' = st.g.succ node b') → Handled g count p st' node (i + 1) := by
    intro st' hprog hfu hsame x hx
    have hsuccs : st'.g.succs node = st.g.succs node := Cfg.succs_congr hsame
    rw [hsuccs, List.take_add_one, hi] at hx
    rcases List.mem_append.mp hx with hx | hx
    · exact hhandled.of_take (by rw [hsuccs]) hprog x (hsuccs ▸ hx)
    · obtain rfl : x = (u, b) := List.mem_singleton.mp hx
      exact ⟨hfu, hdeep.mono (fun _ => le_rfl) hprog.copyOf (hsame b)⟩
  have hid : st.g.id u = g.id s := hended.id _ _ hu
  unfold Unrolling.enter
  split
  next hfu =>
    exact ⟨st, .refl _ _ _, h, .refl _ _ _, rfl,
      .inl ⟨hf, rfl, hnext st (.refl _ _ _) hfu fun _ => rfl⟩⟩
  next hfu =>
    rw [Bool.not_eq_true] at hfu
    obtain ⟨htrail, -⟩ := h.trail.enter hg hs hlim
    have htop : OnTop g L (Function.update count s (count s + 1)) (s, d)
        { st with visited := Function.update st.visited (st.g.id u) (st.visited (st.g.id u) + 1) }
        u := by
      refine ⟨htrail, ⟨rank, hended.withVisited _⟩, hu, fun nd hnd => ?_⟩
      show Function.update st.visited (st.g.id u) _ (g.id nd) = _
      rw [hid]
      by_cases heq : nd = s
      · rw [heq, Function.update_self, Function.update_self, h.visited s hu.1]
      · rw [Function.update_of_ne fun heq' => heq (hg.id_inj _ hnd _ hu.1 heq'),
          Function.update_of_ne heq, h.visited nd hnd]
    obtain ⟨st₂, hruns, hover⟩ := hchild _ ((node, i + 1) :: stack) htop hfu
    have hcount : ∀ t, count t ≤ Function.update count s (count s + 1) t := by
      intro t
      rw [Function.update_apply]
      split
      next heq => exact heq ▸ Nat.le_succ _
      · exact le_rfl
    have hprog : Progress g count ∅ st st₂ := by
      have h' := hover.progress.mono hcount fun _ h => h
      exact ⟨h'.copyOf, h'.finished, h'.succ, h'.deep, h'.fresh⟩
    have hvis : st₂.visited = st.visited := by
      rw [hover.visited]
      rw [hid]
      exact visited_push_pop st.visited (g.id s)
    refine ⟨st₂, hruns, ⟨h.trail, hover.ended, hprog.copyOf _ _ h.copyOf, ?_⟩,
      hprog.mono (fun _ => le_rfl) fun _ hn => absurd hn (by simp), hvis, ?_⟩
    · rw [hvis]
      exact h.visited
    cases hmid : st₂.finished node with
    | true => exact .inr ⟨rfl, hprog.deep p node h.copyOf (by simp) hf hmid⟩
    | false =>
      have hsame := hprog.succ node (hended.lt_fresh p node h.copyOf) (by simp) (.inr hmid)
      exact .inl ⟨rfl, Cfg.succs_congr hsame, hnext st₂ hprog hover.finished hsame⟩

/-- **The node on top of the stack is finished after some iterations.** The induction is on how
many more blocks the walk can enter, and within one node on the number of links that are left. -/
theorem OnTop.run (hg : g.Built) (hL : ∀ nd, g.isInLoop nd = true → L (g.id nd) ≠ 0) (r : ℕ) :
    ∀ {count : ℕ → ℕ}, Visit.room g L count = r → ∀ k {p : ℕ × ℕ} {st : Unrolling} {node i : ℕ},
      OnTop g L count p st node → st.finished node = false → Handled g count p st node i →
      (st.g.succs node).length - i = k → ∀ stack, ∃ st',
        Runs L g.loopfreeNodes ((node, i) :: stack, st) (stack, st') ∧
          Over g L count p node st st' := by
  induction r using Nat.strong_induction_on with
  | _ r ihr =>
  intro count hr k
  induction k using Nat.strong_induction_on with
  | _ k ihk =>
  intro p st node i htop hf hhandled hk stack
  obtain ⟨rank, hended⟩ := htop.ended
  have hstep := Runs.step L g.loopfreeNodes node i stack st
  rcases hended.step_cases hL htop.copyOf i stack with
    ⟨hi, heq⟩ | ⟨m, b, s, d, hi, hs, hm, hz, hcase⟩
  · rw [heq] at hstep
    exact ⟨_, hstep, htop.leave hg hf hhandled hi⟩
  have hlt : i < (st.g.succs node).length := (List.getElem?_eq_some_iff.mp hi).1
  have hdepth : g.isInLoop s = true → depthOf g st p s = max (count s) p.2 :=
    htop.depthOf_eq hm.1
  -- the successor is entered; then the next link follows, unless the node has been finished below
  have henter : ∀ {st₁ u d'}, OnTop g L count p st₁ node → st₁.finished node = false →
      Handled g count p st₁ node i → Progress g count {node} st st₁ → st₁.visited = st.visited →
      (st₁.g.succs node)[i]? = some (u, b) →
      (st₁.g.succs node).length = (st.g.succs node).length → CopyOf g st₁ (s, d') u →
      (g.isInLoop s = true → max (count s) p.2 ≤ d') →
      (g.isInLoop s = true → count s < L (g.id s)) →
      Runs L g.loopfreeNodes ((node, i) :: stack, st) (st₁.enter node i stack u) →
      ∃ st', Runs L g.loopfreeNodes ((node, i) :: stack, st) (stack, st') ∧
        Over g L count p node st st' := by
    intro st₁ u d' htop₁ hf₁ hhandled₁ hprog hvis hi₁ hlen hu hle hlim hruns
    have hroom := Visit.room_lt hu.1 (htop.trail.enter hg hs hlim).2
    obtain ⟨st₂, hruns₂, htop₂, hprog₂, hvis₂, hor⟩ := htop₁.enter hg hf₁ hhandled₁ hi₁ hs hu hle
      hlim (fun st' stack' h hf' => ihr _ (hr ▸ hroom) rfl _ h hf' handled_zero rfl stack')
      stack
    have hprog' := hprog.trans hended.toCopies hprog₂
    rcases hor with ⟨hf₂, hsuccs, hhandled₂⟩ | ⟨hf₂, hdeep⟩
    · obtain ⟨st₃, hruns₃, hover⟩ :=
        ihk _ (by rw [hsuccs, hlen]; omega) htop₂ hf₂ hhandled₂ rfl stack
      refine ⟨st₃, (hruns.trans hruns₂).trans hruns₃, ?_⟩
      exact hover.of_progress htop hg hf hprog' (hvis₂.trans hvis) fun h => nomatch hf₂.symm.trans h
    · obtain ⟨rank₂, hended₂⟩ := htop₂.ended
      obtain ⟨hended₃, hprog₃⟩ := hended₂.leave_of_finished hf₂
      have hover : Over g L count p node st₂ (st₂.leave node) :=
        ⟨⟨rank₂, hended₃⟩, by rw [finished_leave, if_pos rfl], hprog₃, htop₂.visited_leave⟩
      have hruns₃ := htop₂.run_of_finished hg hL hf₂ hdeep _ (i + 1) rfl stack
      refine ⟨_, (hruns.trans hruns₂).trans hruns₃, ?_⟩
      exact hover.of_progress htop hg hf hprog' (hvis₂.trans hvis) fun _ => hdeep
  generalize Unrolling.step L g.loopfreeNodes node i stack st = y at hstep hcase
  cases hcase with
  | unlink hloop hle =>
    have hset := setLink_unlink st node b
    obtain ⟨htake, hlen⟩ := Cfg.succs_of_unlink hi hset.succ_node
    obtain ⟨hended₁, hprog⟩ :=
      hended.setLink hg htop.copyOf hf hset hs fun _ h => nomatch h
    have hless : ((st.g.unlink node b).succs node).length - i < k := by omega
    obtain ⟨st', hruns, hover⟩ := ihk _ hless
      ⟨htop.trail, ⟨rank, hended₁⟩, htop.copyOf, htop.visited⟩ hf (hhandled.of_take htake hprog) rfl stack
    refine ⟨st', hstep.trans hruns, hover.of_progress htop hg hf hprog rfl ?_⟩
    exact fun h => nomatch hf.symm.trans h
  | relink hloop hlim hd u st₁ hcopy =>
    rw [hdepth hloop] at hlim hd hcopy
    obtain ⟨hended₁, hu, hcopied⟩ := hended.copy hg hm hd hlim hcopy
    have hnode := hcopied.copyOf _ _ htop.copyOf
    have hf₁ : st₁.finished node = false := by
      rw [hcopied.finished]
      exact hf
    have hsuccs₁ : st₁.g.succs node = st.g.succs node :=
      Cfg.succs_congr (hcopied.succ node (hended.lt_fresh p node htop.copyOf))
    rw [← hsuccs₁] at hi
    have hset := setLink_relink st₁ node u b
    obtain ⟨hi₂, htake, hlen⟩ := Cfg.succs_of_relink hi hset.succ_node
    have hsome : ∀ m ∈ some u, SomeCopyOf g st₁ s m := by
      rintro _ ⟨⟩
      refine ⟨_, hu, fun h => ?_⟩
      rw [hloop] at h
      exact nomatch h
    obtain ⟨hended₂, hprog₂⟩ := hended₁.setLink hg hnode hf₁ hset hs hsome
    have hprog := (hcopied.progress {node}).trans hended.toCopies hprog₂
    refine henter ⟨htop.trail, ⟨rank, hended₂⟩, hnode, ?_⟩ hf₁ (hhandled.of_take ?_ hprog) hprog
      hcopied.visited hi₂ (hlen.trans (congrArg List.length hsuccs₁)) hu (fun _ => le_rfl)
      (fun _ => (le_max_left _ _).trans_lt hlim) hstep
    · show ∀ nd ∈ g.nodes, st₁.visited (g.id nd) = count nd
      rw [hcopied.visited]
      exact htop.visited
    · exact htake.trans (congrArg _ hsuccs₁)
  | keep hle hlim =>
    refine henter htop hf hhandled (.refl _ _ _) rfl hi rfl hm (fun hloop => ?_) (fun hloop => ?_) hstep
    · exact hdepth hloop ▸ hle
    · exact (le_max_left _ _).trans_lt (hdepth hloop ▸ hlim hloop)

theorem ended_initial (hg : g.Built) (hL : ∀ nd, g.isInLoop nd = true → L (g.id nd) ≠ 0) :
    Ended g L (fun _ => 0) (initial g) := by
  refine ⟨copies_initial hg, fun s d m hm hloop => ?_, fun n hf => nomatch hf⟩
  rw [show d = 0 from (copyOf_initial hm).1]
  exact Nat.pos_of_ne_zero (hL s hloop)

/-- A walk from a finished node leads down. -/
theorem Ended.rank_lt (h : Ended g L rank st) {es : List Edge} {src dst : ℕ}
    (hsrc : st.finished src = true) (hw : st.g.Walk src es dst) :
    st.finished dst = true ∧ rank dst + es.length ≤ rank src := by
  induction es generalizing src with
  | nil =>
    obtain rfl : src = dst := hw
    exact ⟨hsrc, le_rfl⟩
  | cons e es ih =>
    obtain ⟨rfl, s, hs, hrest⟩ := hw
    obtain ⟨hfs, hlt⟩ := h.closed _ hsrc e.2 s hs
    obtain ⟨hfd, hle⟩ := ih hfs hrest
    refine ⟨hfd, ?_⟩
    rw [List.length_cons]
    omega

end

end Unrolling

/-- **Unrolling ends, and from the start no cycle can be reached afterwards.** -/
theorem unroll_acyclic {g : Cfg} (hg : g.Built) {limit : ℕ} {limits : ℕ → Option ℕ}
    (hL : ∀ nd, g.isInLoop nd = true → unrollLimit limit limits (g.id nd) ≠ 0) :
    ∃ fuel g', g.unroll limit limits fuel = some g' ∧
      ∀ n es es', g'.Walk g'.start es n → es' ≠ [] → ¬g'.Walk n es' n := by
  have hstart : Unrolling.CopyOf g (.initial g) (g.start, 0) g.start :=
    Unrolling.copyOf_zero hg.start_mem
  have htop : Unrolling.OnTop g (unrollLimit limit limits) (fun _ => 0) (g.start, 0) (.initial g)
      g.start :=
    ⟨⟨hg.start_mem, fun _ h => absurd h (lt_irrefl 0), fun _ => Nat.zero_le _⟩,
      ⟨_, Unrolling.ended_initial hg hL⟩, hstart, fun _ _ => rfl⟩
  obtain ⟨st, ⟨k, hruns⟩, hover⟩ := Unrolling.OnTop.run hg hL _ rfl _ htop rfl
    Unrolling.handled_zero rfl []
  obtain ⟨rank, hended⟩ := hover.ended
  refine ⟨0 + k, { st.g with nodes := st.g.nodes ++ st.unrolled.map Prod.snd }, ?_, ?_⟩
  · rw [Cfg.unroll, hruns 0]
    rfl
  · intro n es es' hw hne hcycle
    have hsucc : ∀ nd b, Cfg.succ { st.g with nodes := st.g.nodes ++ st.unrolled.map Prod.snd } nd b =
        st.g.succ nd b := fun _ _ => rfl
    have hw : st.g.Walk st.g.start es n := (Cfg.walk_congr hsucc).mp hw
    have hcycle : st.g.Walk n es' n := (Cfg.walk_congr hsucc).mp hcycle
    rw [hended.start] at hw
    have hlen := (hended.rank_lt (hended.rank_lt hover.finished hw).1 hcycle).2
    have hpos := List.length_pos_iff.mpr hne
    omega

/-- A program with two loops that share a block. -/
def nestedLoops : Cfg where
  node nd :=
    match nd with
    | 0 => ⟨[.nop 0], 0, none, some 1, []⟩
    | 1 => ⟨[.nop 1], 0, none, some 2, [(0, false), (2, true)]⟩
    | 2 => ⟨[.properBranch 2 .bne 1], 0, some 1, some 3, [(1, false), (3, true)]⟩
    | 3 => ⟨[.properBranch 3 .bne 2], 0, some 2, some 4, [(2, false)]⟩
    | _ => ⟨[.fin], 0, none, none, [(3, false)]⟩
  nodes := [0, 1, 2, 3, 4]
  start := 0
  fin := 4

theorem unroll_acyclic_nestedLoops :
    ∃ fuel g', nestedLoops.unroll 3 (fun _ => none) fuel = some g' ∧
      ∀ n es es', g'.Walk g'.start es n → es' ≠ [] → ¬g'.Walk n es' n :=
  unroll_acyclic (by decide) fun _ _ => Nat.succ_ne_zero 2

end NfpEstimator
