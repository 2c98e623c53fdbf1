import NfpEstimator.Cfg.Unrolled

/-!
# Loops with a header

The loops that a compiler makes of a bounded loop are entered at one block, from outside of all loops,
and come back to it in every round (`Cfg.Headed`). There the depth of a visit is the number of rounds
before it: a copy stands for one round, whatever way it takes (`Cfg.Headed.copiesAgree`), and no limit is
reached on a path that has no more rounds than the limit allows (`Cfg.Headed.fits`).
-/

namespace NfpEstimator

/-- Each loop is entered at its header, from outside of all loops, and within a round the ranks rise. -/
structure Cfg.Headed (g : Cfg) (header rank : ℕ → ℕ) : Prop where
  start : g.isInLoop g.start = false
  inLoop : ∀ nd ∈ g.nodes, g.isInLoop nd = true → g.isInLoop (header nd) = true
  enter : ∀ nd ∈ g.nodes, ∀ b s, g.succ nd b = some s → g.isInLoop s = true → s = header s →
    g.isInLoop nd = true → header nd = s
  within : ∀ nd ∈ g.nodes, ∀ b s, g.succ nd b = some s → g.isInLoop s = true → s ≠ header s →
    g.isInLoop nd = true ∧ header nd = header s ∧ rank nd < rank s

instance (g : Cfg) (header rank : ℕ → ℕ) : Decidable (g.Headed header rank) :=
  decidable_of_iff
    (g.isInLoop g.start = false ∧
      (∀ nd ∈ g.nodes, g.isInLoop nd = true → g.isInLoop (header nd) = true) ∧
      (∀ nd ∈ g.nodes, ∀ b, ∀ s ∈ g.succ nd b, g.isInLoop s = true → s = header s →
        g.isInLoop nd = true → header nd = s) ∧
      ∀ nd ∈ g.nodes, ∀ b, ∀ s ∈ g.succ nd b, g.isInLoop s = true → s ≠ header s →
        g.isInLoop nd = true ∧ header nd = header s ∧ rank nd < rank s)
    ⟨fun h => ⟨h.1, h.2.1, h.2.2.1, h.2.2.2⟩, fun h => ⟨h.start, h.inLoop, h.enter, h.within⟩⟩

namespace Visit

variable {g : Cfg} {L header rank : ℕ → ℕ} {v : Visit} {s : ℕ} {b : Bool}

/-- What the counts say of the round that a visit is in. -/
structure InRound (g : Cfg) (header rank : ℕ → ℕ) (v : Visit) : Prop where
  count_le : ∀ s, g.isInLoop s = true → v.count s ≤ v.count (header s)
  rounds : g.isInLoop v.nd = true → v.count (header v.nd) = v.depth + 1
  later : g.isInLoop v.nd = true → ∀ s, g.isInLoop s = true → s ≠ header s → header s = header v.nd →
    rank v.nd < rank s → v.count s ≤ v.depth

/-- What comes from outside of all loops has not been in the loop before. -/
theorem Reaches.count_eq_zero_of_outside (hg : g.Built) (h : Reaches g L v) (hs : g.succ v.nd b = some s)
    (hout : g.isInLoop v.nd = false) : v.count s = 0 := by
  by_contra hpos
  obtain ⟨es, hw⟩ := h.walk (Nat.pos_of_ne_zero hpos)
  have hcycle := isInLoop_of_walk hg (h.mem hg) (List.cons_ne_nil (v.nd, b) es) ⟨rfl, s, hs, hw⟩
  exact absurd (hout.symm.trans hcycle) (by simp)

theorem Reaches.inRound (hg : g.Built) (hh : g.Headed header rank) (h : Reaches g L v) :
    InRound g header rank v := by
  induction h with
  | begin =>
    refine ⟨fun _ _ => le_rfl, fun hloop => ?_, fun hloop => ?_⟩
    all_goals exact absurd (hloop.symm.trans hh.start) (by simp)
  | @enter v b s hv hs _ ih =>
    have hmem := hv.mem hg
    cases hloop : g.isInLoop s with
    | false =>
      have hno : g.isInLoop (v.enter g s).nd = true → False := fun h => absurd (hloop.symm.trans h) (by simp)
      refine ⟨fun t ht => ?_, fun h => (hno h).elim, fun h => (hno h).elim⟩
      have hts : t ≠ s := fun heq => absurd (hloop.symm.trans (heq ▸ ht)) (by simp)
      rw [count_enter_of_ne v hts]
      exact (ih.count_le t ht).trans (count_le_enter v s _)
    | true =>
      have hdepth : (v.enter g s).depth = max (v.count s) v.depth := nextDepth_of_loop v hloop
      by_cases hhead : s = header s
      · -- a new round begins
        have hother : ∀ t, g.isInLoop t = true → t ≠ s → (v.enter g s).count t ≤ (v.enter g s).count (header t) :=
          fun t ht hts => by
            rw [count_enter_of_ne v hts]
            exact (ih.count_le t ht).trans (count_le_enter v s _)
        have hle : ∀ t, g.isInLoop t = true → (v.enter g s).count t ≤ (v.enter g s).count (header t) := by
          intro t ht
          by_cases hts : t = s
          · rw [hts, ← hhead]
          · exact hother t ht hts
        have hnext : v.count s = (v.enter g s).depth := by
          rw [hdepth]
          cases hin : g.isInLoop v.nd with
          | true =>
            have hround := ih.rounds hin
            rw [hh.enter v.nd hmem b s hs hloop hhead hin] at hround
            omega
          | false =>
            rw [hv.count_eq_zero_of_outside hg hs hin, hv.depth_eq_zero hin]
            rfl
        refine ⟨hle, fun _ => ?_, fun _ t ht hth heq _ => ?_⟩
        · rw [nd_enter, ← hhead, count_enter_self, hnext]
        · have heq : header t = s := heq.trans hhead.symm
          have hts : t ≠ s := fun h => hth (h.trans heq.symm)
          have hle := ih.count_le t ht
          rw [heq] at hle
          rw [count_enter_of_ne v hts]
          omega
      · -- the round goes on
        obtain ⟨hin, heq, hrank⟩ := hh.within v.nd hmem b s hs hloop hhead
        have hround := ih.rounds hin
        have hlater := ih.later hin s hloop hhead heq.symm hrank
        have hnext : (v.enter g s).depth = v.depth := by
          rw [hdepth]
          exact max_eq_right hlater
        have hheader : (v.enter g s).count (header s) = v.depth + 1 := by
          rw [count_enter_of_ne v (Ne.symm hhead), ← heq, hround]
        refine ⟨fun t ht => ?_, fun _ => ?_, fun _ t ht hth heq' hlt => ?_⟩
        · by_cases hts : t = s
          · rw [hts, count_enter_self, hheader]
            omega
          · rw [count_enter_of_ne v hts]
            exact (ih.count_le t ht).trans (count_le_enter v s _)
        · rw [nd_enter, hheader, hnext]
        · have hlt : rank s < rank t := hlt
          have hts : t ≠ s := fun h => absurd (h ▸ hlt) (lt_irrefl _)
          rw [count_enter_of_ne v hts, hnext]
          exact ih.later hin t ht hth (heq'.trans heq.symm) (hrank.trans hlt)

/-- At which depth a block of a loop is entered next. -/
theorem Reaches.nextDepth_headed (hg : g.Built) (hh : g.Headed header rank) (h : Reaches g L v)
    (hs : g.succ v.nd b = some s) (hloop : g.isInLoop s = true) :
    v.nextDepth g s = if s = header s ∧ g.isInLoop v.nd = true then v.depth + 1 else v.depth := by
  have hround := h.inRound hg hh
  rw [nextDepth_of_loop v hloop]
  by_cases hhead : s = header s
  · cases hin : g.isInLoop v.nd with
    | true =>
      have hcount := hround.rounds hin
      rw [hh.enter v.nd (h.mem hg) b s hs hloop hhead hin] at hcount
      rw [if_pos ⟨hhead, rfl⟩]
      omega
    | false =>
      rw [h.count_eq_zero_of_outside hg hs hin, if_neg (by simp)]
      exact Nat.zero_max _
  · obtain ⟨hin, heq, hrank⟩ := hh.within v.nd (h.mem hg) b s hs hloop hhead
    rw [if_neg fun h => hhead h.1]
    exact max_eq_right (hround.later hin s hloop hhead heq.symm hrank)

end Visit

namespace Cfg

variable {g : Cfg} {header rank : ℕ → ℕ} {k : ℕ} {v : Visit}

/-- A copy stands for one round. -/
theorem Headed.copiesAgree (hh : g.Headed header rank) (hg : g.Built) (L : ℕ → ℕ) : g.CopiesAgree L := by
  intro v v' h h' hkey b s hs hloop
  have hnd : v.nd = v'.nd := congrArg Prod.fst hkey
  have hdepth : v.depth = v'.depth := congrArg Prod.snd hkey
  rw [h.nextDepth_headed hg hh hs hloop, h'.nextDepth_headed hg hh (hnd ▸ hs) hloop, hnd, hdepth]

/-- No limit is reached on a path that has no more rounds than the limit. -/
theorem Headed.fits (hh : g.Headed header rank) (hg : g.Built) (hk : k ≠ 0) {es : List Edge}
    (h : Visit.Reaches g (fun _ => k) v) (hw : g.Walk v.nd es g.fin)
    (hcount : ∀ nd, g.isInLoop nd = true →
      v.count nd + (es.map Prod.fst).count nd ≤ k + if nd = v.nd then 1 else 0) :
    v.Fits g (fun _ => k) es := by
  induction es generalizing v with
  | nil => trivial
  | cons e es ih =>
    obtain ⟨he, s, hs, hrest⟩ := hw
    intro s' hs'
    obtain rfl := Option.some.inj (hs.symm.trans hs')
    rw [he] at hs
    have hrest' : ∀ nd, g.isInLoop nd = true → v.count nd + (es.map Prod.fst).count nd ≤ k := by
      intro nd hnd
      have := hcount nd hnd
      rw [List.map_cons, List.count_cons, he] at this
      simp only [beq_iff_eq, @eq_comm _ v.nd] at this
      omega
    have ha : v.Allows g (fun _ => k) s := by
      intro hloop
      -- the block is left again, so its visit is among those that are counted
      have hself : v.count s + 1 ≤ k := by
        have hle := hrest' s hloop
        cases es with
        | nil =>
          obtain rfl : s = g.fin := hrest
          obtain ⟨es, hne, hw⟩ := (isInLoop_iff hg (hg.succ_mem _ (h.mem hg) _ _ hs)).mp hloop
          cases es with
          | nil => exact absurd rfl hne
          | cons e' es =>
            obtain ⟨he', t, ht, -⟩ := hw
            rw [he', hg.succ_fin] at ht
            exact absurd ht.symm (Option.some_ne_none t)
        | cons e' es =>
          rw [List.map_cons, hrest.1, List.count_cons_self] at hle
          omega
      have hround := h.inRound hg hh
      show v.nextDepth g s < k
      rw [h.nextDepth_headed hg hh hs hloop]
      split
      next hcond =>
        have hrounds := hround.rounds hcond.2
        rw [hh.enter v.nd (h.mem hg) _ s hs hloop hcond.1 hcond.2] at hrounds
        omega
      next hcond =>
        cases hin : g.isInLoop v.nd with
        | false =>
          rw [h.depth_eq_zero hin]
          exact Nat.pos_of_ne_zero hk
        | true =>
          have hrounds := hround.rounds hin
          have hle := hrest' _ (hh.inLoop v.nd (h.mem hg) hin)
          omega
    refine ⟨ha, ih (h.enter hs ha) hrest fun nd hnd => ?_⟩
    have hle := hrest' nd hnd
    by_cases hns : nd = s
    · rw [hns, Visit.count_enter_self, Visit.nd_enter, if_pos rfl]
      have hle := hrest' s (hns ▸ hnd)
      omega
    · rw [Visit.count_enter_of_ne v hns]
      exact hle.trans (Nat.le_add_right _ _)

end Cfg

end NfpEstimator
