import NfpEstimator.Cfg.Unroll

/-!
# The depths of visits

At which depth a walk enters a block on a cycle: it is the number of earlier visits to
the block, or the depth of the block before it, if that is larger. This is the depth of
the copy that `cfg::unroll` intends for the visit. In other words, it is the largest
number of earlier visits that any block since the last one outside of all cycles had
when it was entered.

A copy stands for all visits to a block at one depth. `Cfg.CopiesAgree` says that from
each of them the walk goes on to the same copies.
-/

namespace NfpEstimator

/-- Where a walk has come to: the block, the depth of this visit, and how often each block
has been entered. -/
structure Visit where
  nd : ℕ
  depth : ℕ
  count : ℕ → ℕ

namespace Visit

variable (g : Cfg) (L : ℕ → ℕ)

/-- The visit to the start of the program, which is not counted. -/
def begin : Visit := ⟨g.start, 0, fun _ => 0⟩

/-- The depth at which the block `s` is entered next. -/
def nextDepth (v : Visit) (s : ℕ) : ℕ := if g.isInLoop s then max (v.count s) v.depth else 0

/-- The block `s` is entered. -/
def enter (v : Visit) (s : ℕ) : Visit :=
  ⟨s, v.nextDepth g s, Function.update v.count s (v.count s + 1)⟩

/-- The limit of the block `s` is not reached when it is entered next. -/
def Allows (v : Visit) (s : ℕ) : Prop := g.isInLoop s → v.nextDepth g s < L (g.id s)

/-- No limit is reached along some edges. -/
def Fits : Visit → List Edge → Prop
  | _, [] => True
  | v, e :: es => ∀ s, g.succ e.1 e.2 = some s → v.Allows g L s ∧ Fits (v.enter g s) es

/-- The walks from the start that reach no limit. -/
inductive Reaches : Visit → Prop
  | begin : Reaches (begin g)
  | enter {v : Visit} {b : Bool} {s : ℕ} (hv : Reaches v) (hs : g.succ v.nd b = some s)
      (ha : v.Allows g L s) : Reaches (v.enter g s)

/-- The copy of a block that a visit comes to. -/
def key (v : Visit) : ℕ × ℕ := (v.nd, v.depth)

/-- Some walk leads from one copy to the other in one step. -/
def Link (p q : ℕ × ℕ) : Prop :=
  ∃ v, Reaches g L v ∧ v.key = p ∧
    ∃ b s, g.succ v.nd b = some s ∧ v.Allows g L s ∧ (v.enter g s).key = q

end Visit

/-- Visits to a block at the same depth go on at the same depths, as far as the limits allow. -/
def Cfg.CopiesAgree (g : Cfg) (L : ℕ → ℕ) : Prop :=
  ∀ v v', Visit.Reaches g L v → Visit.Reaches g L v' → v.key = v'.key →
    ∀ b s, g.succ v.nd b = some s → g.isInLoop s →
      min (v.nextDepth g s) (L (g.id s)) = min (v'.nextDepth g s) (L (g.id s))

namespace Visit

variable {g : Cfg} {L : ℕ → ℕ} {v v' : Visit} {s : ℕ}

@[simp] theorem nd_enter (v : Visit) (s : ℕ) : (v.enter g s).nd = s := rfl

@[simp] theorem depth_enter (v : Visit) (s : ℕ) : (v.enter g s).depth = v.nextDepth g s := rfl

theorem count_enter_self (v : Visit) (s : ℕ) : (v.enter g s).count s = v.count s + 1 := by
  simp [enter]

theorem count_enter_of_ne (v : Visit) {s t : ℕ} (h : t ≠ s) :
    (v.enter g s).count t = v.count t := by
  simp [enter, h]

theorem count_le_enter (v : Visit) (s t : ℕ) : v.count t ≤ (v.enter g s).count t := by
  by_cases h : t = s
  · rw [h, count_enter_self]
    exact Nat.le_succ _
  · rw [count_enter_of_ne v h]

theorem nextDepth_of_loop (v : Visit) (h : g.isInLoop s = true) :
    v.nextDepth g s = max (v.count s) v.depth := if_pos h

theorem nextDepth_of_not_loop (v : Visit) (h : g.isInLoop s = false) : v.nextDepth g s = 0 := by
  simp [nextDepth, h]

/-! ### Counts -/

/-- A walk that is not empty and leads back to where it starts. -/
theorem isInLoop_of_walk (hg : g.Built) {a : ℕ} (ha : a ∈ g.nodes) {es : List Edge} (hne : es ≠ [])
    (h : g.Walk a es a) : g.isInLoop a = true :=
  (Cfg.isInLoop_iff hg ha).mpr ⟨es, hne, h⟩

theorem Reaches.mem (hg : g.Built) (h : Reaches g L v) : v.nd ∈ g.nodes := by
  induction h with
  | begin => exact hg.start_mem
  | enter _ hs _ ih => exact hg.succ_mem _ ih _ _ hs

/-- From a block that has been entered a walk leads to where the visit is. -/
theorem Reaches.walk (h : Reaches g L v) (hs : 0 < v.count s) : ∃ es, g.Walk s es v.nd := by
  induction h with
  | begin => exact absurd hs (lt_irrefl 0)
  | @enter v b t _ ht _ ih =>
    by_cases heq : s = t
    · exact ⟨[], heq⟩
    · rw [count_enter_of_ne v heq] at hs
      obtain ⟨es, hw⟩ := ih hs
      exact ⟨es ++ [(v.nd, b)], hw.append (Cfg.walk_single ht)⟩

/-- A block outside of all cycles has not been entered before. -/
theorem Reaches.count_eq_zero (hg : g.Built) (h : Reaches g L v) {b : Bool}
    (hs : g.succ v.nd b = some s) (hloop : g.isInLoop s = false) : v.count s = 0 := by
  by_contra hpos
  obtain ⟨es, hw⟩ := h.walk (Nat.pos_of_ne_zero hpos)
  have hmem := hg.succ_mem _ (h.mem hg) b s hs
  have hcycle := isInLoop_of_walk hg hmem (by simp) (hw.append (Cfg.walk_single (e := (_, b)) hs))
  rw [hloop] at hcycle
  exact nomatch hcycle

/-- **A visit is at least as deep as the earlier visits to any block that can still be entered.** -/
theorem Reaches.count_le (hg : g.Built) (h : Reaches g L v) {es : List Edge}
    (hw : g.Walk v.nd es s) : v.count s ≤ v.depth + 1 := by
  induction h generalizing es s with
  | begin => exact Nat.zero_le _
  | @enter v b t hv ht _ ih =>
    have hstep : g.Walk v.nd [(v.nd, b)] t := Cfg.walk_single ht
    by_cases heq : s = t
    · subst heq
      rw [count_enter_self, depth_enter]
      cases hloop : g.isInLoop s with
      | true =>
        rw [nextDepth_of_loop v hloop]
        exact Nat.succ_le_succ (le_max_left _ _)
      | false =>
        rw [hv.count_eq_zero hg ht hloop]
        exact Nat.succ_le_succ (Nat.zero_le _)
    · rw [count_enter_of_ne v heq, depth_enter]
      rcases Nat.eq_zero_or_pos (v.count s) with hzero | hpos
      · rw [hzero]
        exact Nat.zero_le _
      · -- the new block lies on a cycle with `s`, so the depth does not go back
        obtain ⟨es', hw'⟩ := hv.walk hpos
        have hcycle : g.Walk t (es ++ es' ++ [(v.nd, b)]) t := (hw.append hw').append hstep
        have hloop := isInLoop_of_walk hg (hg.succ_mem _ (hv.mem hg) b t ht) (by simp) hcycle
        rw [nextDepth_of_loop v hloop]
        have := ih (hstep.append hw)
        have := le_max_right (v.count t) v.depth
        omega

/-- The depth does not go back within a loop, and it grows by one at most. -/
theorem Reaches.nextDepth_mem (hg : g.Built) (h : Reaches g L v) {b : Bool}
    (hs : g.succ v.nd b = some s) (hloop : g.isInLoop s = true) :
    v.depth ≤ v.nextDepth g s ∧ v.nextDepth g s ≤ v.depth + 1 := by
  rw [nextDepth_of_loop v hloop]
  have := h.count_le hg (Cfg.walk_single (e := (v.nd, b)) hs)
  omega

/-- Deeper visits go on at larger depths. -/
theorem Reaches.nextDepth_mono (hg : g.Built) (h : Reaches g L v) (h' : Reaches g L v')
    (hnd : v.nd = v'.nd) (hlt : v.depth < v'.depth) {b : Bool} (hs : g.succ v.nd b = some s) :
    v.nextDepth g s ≤ v'.nextDepth g s := by
  cases hloop : g.isInLoop s with
  | true =>
    have h₁ := (h.nextDepth_mem hg hs hloop).2
    have h₂ := (h'.nextDepth_mem hg (hnd ▸ hs) hloop).1
    omega
  | false => rw [nextDepth_of_not_loop v hloop, nextDepth_of_not_loop v' hloop]

/-- How often a block is entered at most. -/
def bound (g : Cfg) (L : ℕ → ℕ) (s : ℕ) : ℕ := max 1 (L (g.id s))

theorem Reaches.count_le_bound (hg : g.Built) (h : Reaches g L v) (s : ℕ) :
    v.count s ≤ bound g L s := by
  unfold bound
  induction h with
  | begin => exact Nat.zero_le _
  | @enter v b t hv ht ha ih =>
    by_cases heq : s = t
    · subst heq
      rw [count_enter_self]
      cases hloop : g.isInLoop s with
      | true =>
        have hlt := ha hloop
        rw [nextDepth_of_loop v hloop] at hlt
        omega
      | false =>
        rw [hv.count_eq_zero hg ht hloop]
        exact le_max_left _ _
    · rw [count_enter_of_ne v heq]
      exact ih

/-- How many more blocks a walk can enter that has entered each block so often. -/
def room (g : Cfg) (L : ℕ → ℕ) (count : ℕ → ℕ) : ℕ :=
  (g.nodes.map fun s => bound g L s - count s).sum

theorem room_lt {count : ℕ → ℕ} (hs : s ∈ g.nodes) (hle : count s + 1 ≤ bound g L s) :
    room g L (Function.update count s (count s + 1)) < room g L count := by
  refine List.sum_lt_sum _ _ (fun t _ => Nat.sub_le_sub_left ?_ _) ⟨s, hs, ?_⟩
  · rw [Function.update_apply]
    split
    next heq => exact heq ▸ Nat.le_succ _
    · exact le_rfl
  · rw [Function.update_self]
    omega

theorem Reaches.room_enter_lt (hg : g.Built) (h : Reaches g L v) {b : Bool}
    (hs : g.succ v.nd b = some s) (ha : v.Allows g L s) :
    room g L (v.enter g s).count < room g L v.count := by
  have hle := (h.enter hs ha).count_le_bound hg s
  rw [count_enter_self] at hle
  exact room_lt (hg.succ_mem _ (h.mem hg) b s hs) hle

/-! ### Copies -/

section

variable (hagree : g.CopiesAgree L) (h : Reaches g L v) (h' : Reaches g L v')
  (hkey : v.key = v'.key)
include hagree h h' hkey

theorem allows_iff {b : Bool} (hs : g.succ v.nd b = some s) :
    v.Allows g L s ↔ v'.Allows g L s := by
  have hmin := hagree v v' h h' hkey b s hs
  unfold Allows
  constructor
  · intro ha hloop
    have := ha hloop
    have := hmin hloop
    omega
  · intro ha hloop
    have := ha hloop
    have := hmin hloop
    omega

theorem nextDepth_eq {b : Bool} (hs : g.succ v.nd b = some s) (ha : v.Allows g L s) :
    v.nextDepth g s = v'.nextDepth g s := by
  cases hloop : g.isInLoop s with
  | true =>
    have ha' := (allows_iff hagree h h' hkey hs).mp ha hloop
    have ha := ha hloop
    have hmin := hagree v v' h h' hkey b s hs hloop
    rwa [min_eq_left ha.le, min_eq_left ha'.le] at hmin
  | false => rw [nextDepth_of_not_loop v hloop, nextDepth_of_not_loop v' hloop]

end

/-- What one visit to a copy can do, all can. -/
theorem Link.lift (hagree : g.CopiesAgree L) {p q : ℕ × ℕ} (hl : Link g L p q)
    (h : Reaches g L v) (hkey : v.key = p) :
    Reaches g L (v.enter g q.1) ∧ (v.enter g q.1).key = q := by
  obtain ⟨v', h', hkey', b, s, hs, ha, rfl⟩ := hl
  have hkeys : v'.key = v.key := hkey'.trans hkey.symm
  have hnd : v'.nd = v.nd := congrArg Prod.fst hkeys
  refine ⟨h.enter (hnd ▸ hs) ((allows_iff hagree h' h hkeys hs).mp ha), ?_⟩
  exact Prod.ext rfl (nextDepth_eq hagree h' h hkeys hs ha).symm

theorem exists_of_transGen (hagree : g.CopiesAgree L) {p q : ℕ × ℕ}
    (hl : Relation.TransGen (Link g L) p q) (h : Reaches g L v) (hkey : v.key = p) :
    ∃ v', Reaches g L v' ∧ v'.key = q ∧ (∀ t, v.count t ≤ v'.count t) ∧
      v.count q.1 < v'.count q.1 := by
  induction hl with
  | single hl =>
    obtain ⟨h₁, h₂⟩ := hl.lift hagree h hkey
    refine ⟨_, h₁, h₂, count_le_enter v _, ?_⟩
    rw [count_enter_self]
    exact Nat.lt_succ_self _
  | tail _ hl ih =>
    obtain ⟨v', h', hkey', hle, -⟩ := ih
    obtain ⟨h₁, h₂⟩ := hl.lift hagree h' hkey'
    refine ⟨_, h₁, h₂, fun t => (hle t).trans (count_le_enter v' _ t), ?_⟩
    rw [count_enter_self]
    exact Nat.lt_succ_of_le (hle _)

/-- **No walk comes to a copy twice**, since the depth of a visit bounds the number of earlier
visits to the block. -/
theorem link_irrefl (hg : g.Built) (hagree : g.CopiesAgree L) (p : ℕ × ℕ) :
    ¬Relation.TransGen (Link g L) p p := by
  intro hl
  have hall : ∀ n, ∃ v, Reaches g L v ∧ v.key = p ∧ n ≤ v.count p.1 := by
    intro n
    induction n with
    | zero =>
      obtain ⟨q, ⟨v, h, hkey, -⟩, -⟩ := Relation.TransGen.head'_iff.mp hl
      exact ⟨v, h, hkey, Nat.zero_le _⟩
    | succ n ih =>
      obtain ⟨v, h, hkey, hle⟩ := ih
      obtain ⟨v', h', hkey', -, hlt⟩ := exists_of_transGen hagree hl h hkey
      exact ⟨v', h', hkey', by omega⟩
  obtain ⟨v, h, rfl, hle⟩ := hall (p.2 + 2)
  have := h.count_le hg (show g.Walk v.nd [] v.key.1 from rfl)
  have : v.key.2 = v.depth := rfl
  omega

end Visit

end NfpEstimator
