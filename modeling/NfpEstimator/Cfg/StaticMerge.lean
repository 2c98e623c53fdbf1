import NfpEstimator.Cfg.UnsatCore
import NfpEstimator.State.Apply

/-!
# What static analysis does with states

Static analysis joins the states in which a block can be entered (`Exec.staticMerge`): what both agree on is kept,
contents that differ become undefined. Before an edge is given up or kept, the solver may be asked about the conditions
that do not depend on anything undefined (`Exec.partialMinimize`).

A state stands for an environment if the packet size is in its interval and its conditions hold (`Exec.StandsFor`). The
upper end is left out, as `assume` reads it. All operations keep to this as far as their conditions do, and the solver.
-/

namespace NfpEstimator

section
variable [PastEnd]

/-! ### Merging -/

/-- `expr::bvexpr::static_merge`, `expr::concatenation::static_merge`. -/
def Bvexpr.staticMerge : Bvexpr → Bvexpr → Bvexpr
  | .concatenation A B a b, o =>
    if (Bvexpr.concatenation A B a b).equal o then .concatenation A B a b
    else match o with
      | .concatenation A' B' a' b' =>
        if A' = A ∧ B' = B then concat A B (a.staticMerge a') (b.staticMerge b') else .undefined (A + B) .shared
      | _ => .undefined (A + B) .shared
  | e, o => if e.equal o then e else .undefined e.width .shared

/-- The loop of `expr::concrete_storing::static_merge`. A value that one of the maps does not have is undefined. -/
def StoreMap.staticMerge (V : ℕ) : StoreMap → StoreMap → StoreMap
  | .nil, .nil => .nil
  | .nil, .cons o' _ m' => .cons o' (.undefined V .shared) (staticMerge V .nil m')
  | .cons o _ m, .nil => .cons o (.undefined V .shared) (staticMerge V m .nil)
  | .cons o v m, .cons o' v' m' =>
    if o < o' then .cons o (.undefined V .shared) (staticMerge V m (.cons o' v' m'))
    else if o' < o then .cons o' (.undefined V .shared) (staticMerge V (.cons o v m) m')
    else .cons o (v.staticMerge v') (staticMerge V m m')
termination_by m m' => m.size + m'.size
decreasing_by all_goals simp only [StoreMap.size]; omega

/-- `expr::bvarray::static_merge`, `expr::concrete_storing::static_merge`. -/
def Bvarray.staticMerge : Bvarray → Bvarray → Bvarray
  | .concreteStoring A V a m, o =>
    if (Bvarray.concreteStoring A V a m).equal o then .concreteStoring A V a m
    else match o with
      | .concreteStoring _ _ a' m' => .concreteStoring A V (a.staticMerge a') (m.staticMerge V m')
      | _ => .undefinedArray A V .shared
  | a, o => if a.equal o then a else .undefinedArray a.widths.1 a.widths.2 .shared

/-- `state::update::to_undef`. Only registers are ever written with a delay. The one of `invalidate_mem` would throw, as
that derives from `enable_shared_from_this` in private. -/
def Update.toUndef (obj : Obj) : Update → Update
  | .noop => .noop
  | .reg d _ => .reg d (.undefined 32 obj)
  | .flag d _ => .flag d (.undefined 1 obj)
  | .mem8 _ _ | .mem32 _ _ | .invalidateMem => .invalidateMem
  | .defered _ u => u.toUndef obj

/-- The contents that both have. -/
def mergeContents {α : Type} (merge : α → α → α) (c c' : String → Option α) : String → Option α := fun r =>
  (c r).bind fun e => (c' r).map (merge e)

/-- `state::exec::exec()`. -/
def Exec.empty : Exec where
  summaxcycles := 0
  sumcycles := 0
  lastmem := 0
  lastcc := 0
  registers := fun _ => none
  flags := fun _ => none
  mem8 := fun _ => none
  mem32 := fun _ => none
  defered := []
  minimize := none
  minValue := 0
  maxValue := 2 ^ 32 - 1
  assumptions := []
  sat := none
  model := none
  unsatCore := none

/-- `state::exec::static_merge`, where `obj` are the objects that are made for the updates under way. -/
def Exec.staticMerge (obj : ℕ → Obj) (st o : Exec) : Exec :=
  let n : Exec :=
    { Exec.empty with
      summaxcycles := max st.summaxcycles o.summaxcycles
      sumcycles := max st.sumcycles o.sumcycles
      lastmem := max st.lastmem o.lastmem
      lastcc := max st.lastcc o.lastcc
      assumptions := st.assumptions.flatMap fun a => (o.assumptions.filter a.equal).map fun _ => a
      registers := mergeContents Bvexpr.staticMerge st.registers o.registers
      flags := mergeContents Bvexpr.staticMerge st.flags o.flags
      mem8 := mergeContents Bvarray.staticMerge st.mem8 o.mem8
      mem32 := mergeContents Bvarray.staticMerge st.mem32 o.mem32 }
  let n := n.storeAll ((st.defered ++ o.defered).zipIdx.map fun d => d.1.2.toUndef (obj d.2))
  { n with
    sat := if st.isUnsat && o.isUnsat then some false else n.sat
    minimize := if st.minimize = o.minimize then st.minimize else n.minimize
    minValue := min st.minValue o.minValue
    maxValue := max st.maxValue o.maxValue }

end

/-! ### Asking the solver -/

/-- What `expr::defs` collects. -/
inductive Leaf where
  | undef
  | decl (declname : String)
  deriving DecidableEq

mutual

/-- The undefined objects and the declarations that `expr::defs` comes to. It does not look into pointers. -/
def Lexpr.leaves : Lexpr → List Leaf
  | .boolean _ => []
  | .negation e => e.leaves
  | .lbinary _ a b => a.leaves ++ b.leaves
  | .comparison _ _ a b => a.leaves ++ b.leaves
  | .ifthenelse l a b => l.leaves ++ (a.leaves ++ b.leaves)

@[inherit_doc Lexpr.leaves]
def Bvexpr.leaves : Bvexpr → List Leaf
  | .undefined _ _ => [.undef]
  | .ifthenelse _ l a b => l.leaves ++ (a.leaves ++ b.leaves)
  | .bvvariable _ declname => [.decl declname]
  | .bitvector _ _ | .pointer _ _ _ _ | .pointerExt _ _ _ _ _ _ | .pointerBase _ _ _ _ _ => []
  | .selection _ _ a o => a.leaves ++ o.leaves
  | .extraction _ _ _ e | .bvnegation _ e | .bvrotationl _ _ e | .bvrotationr _ _ e => e.leaves
  | .concatenation _ _ a b | .bvbinary _ _ a b => a.leaves ++ b.leaves

@[inherit_doc Lexpr.leaves]
def Bvarray.leaves : Bvarray → List Leaf
  | .undefinedArray _ _ _ => [.undef]
  | .bvavariable _ _ declname => [.decl declname]
  | .ifthenelse _ _ l a b => l.leaves ++ (a.leaves ++ b.leaves)
  | .storing _ _ a o v => a.leaves ++ (o.leaves ++ v.leaves)
  | .concreteStoring _ _ a m => a.leaves ++ m.leaves

@[inherit_doc Lexpr.leaves]
def StoreMap.leaves : StoreMap → List Leaf
  | .nil => []
  | .cons _ v m => v.leaves ++ m.leaves

end

/-- The conditions that do not depend on anything undefined. -/
def Exec.definite (st : Exec) : List Assumption := st.assumptions.filter fun a => Leaf.undef ∉ a.e.leaves

/-- One of them is about the packet size. -/
def Exec.minimizes (st : Exec) : Bool :=
  st.definite.any fun a => st.minimize.any fun m => Leaf.decl m ∈ a.e.leaves

/-- `state::exec::partial_minimize`, where `solve` is what the solver answers to what is asserted. -/
def Exec.partialMinimize (solve : List Assumption → Model ⊕ Core) (st : Exec) : Exec :=
  if st.sat.isSome then st
  else if st.minimizes then st.checkSat (solve (st.bounds ++ st.definite))
  else st

/-! ### What a state says -/

/-- How far a state can be read: the conditions are in `S`, and the upper end of the interval is not cut to the 14 bits
of the packet size. -/
structure Exec.Within (S : Lexpr → Prop) (st : Exec) : Prop where
  minimize : ∀ m ∈ st.minimize, m = "packetsize"
  maxValue : st.maxValue < 2 ^ 14 ∨ st.maxValue = 2 ^ 32 - 1
  assumptions : ∀ a ∈ st.assumptions, S a.e

/-- An environment is one of those that a state stands for. -/
structure Exec.StandsFor (st : Exec) (env : Env) : Prop where
  minValue : st.minValue ≤ env.packetsize
  maxValue : env.packetsize < st.maxValue
  sat : st.isUnsat = false
  assumptions : Holds env st.assumptions

/-- What the solver answers is right, and its models are minimal. -/
structure Minimizes (solve : List Assumption → Model ⊕ Core) : Prop where
  model : ∀ as m, solve as = .inl m → ∀ v ∈ m "packetsize", ∀ env, Holds env as → v ≤ env.packetsize
  core : ∀ as core, solve as = .inr core → ∀ env, ¬Holds env as

section
variable [PastEnd] {S : Lexpr → Prop} {st o : Exec} {env : Env} {a : Assumption}

/-! ### A condition -/

theorem Exec.Within.assume (h : st.Within S) (hS : S a.e) (hwf : a.e.WF) : (st.assume a).Within S := by
  rcases assume_cases st a h.minimize with heq | ⟨-, heq⟩ | heq | ⟨val, -, heq⟩ | ⟨val, he, heq⟩ <;> rw [heq]
  · exact h
  · exact ⟨h.minimize, h.maxValue, h.assumptions⟩
  · exact ⟨h.minimize, h.maxValue, List.forall_mem_append.mpr ⟨h.assumptions, List.forall_mem_singleton.mpr hS⟩⟩
  · obtain ⟨hm, has, -, hmax, -⟩ := st.assumeGe_spec a.id val
    exact ⟨hm ▸ h.minimize, hmax ▸ h.maxValue, has ▸ h.assumptions⟩
  · obtain ⟨hm, has, -, hmax, -⟩ := st.assumeLt_spec a.id val
    rw [he] at hwf
    have hval : val < 2 ^ 14 := hwf.2.1
    exact ⟨hm ▸ h.minimize, .inl (hmax ▸ (Nat.min_le_right _ _).trans_lt hval), has ▸ h.assumptions⟩

/-- What holds can be assumed. -/
theorem Exec.StandsFor.assume (h : st.StandsFor env) (hst : st.Within S) (hwf : a.e.WF)
    (ha : a.e.eval env = true) : (st.assume a).StandsFor env := by
  rcases assume_cases st a hst.minimize with heq | ⟨he, heq⟩ | heq | ⟨val, he, heq⟩ | ⟨val, he, heq⟩ <;> rw [heq]
  · exact h
  · rw [he] at ha
    exact absurd ha (by simp [Lexpr.eval])
  · refine ⟨h.minValue, h.maxValue, h.sat, ?_⟩
    rw [Exec.pushAssumption, holds_append]
    exact ⟨h.assumptions, fun b hb => List.mem_singleton.1 hb ▸ ha⟩
  · rw [he] at hwf ha
    rw [eval_sizeComparison hwf, Cmp.eval, decide_eq_true_iff] at ha
    obtain ⟨-, has, hmin, hmax, hsat⟩ := st.assumeGe_spec a.id val
    have hle : max st.minValue val ≤ env.packetsize := Nat.max_le.2 ⟨h.minValue, ha⟩
    refine ⟨hmin ▸ hle, hmax ▸ h.maxValue, ?_, has ▸ h.assumptions⟩
    rw [← Bool.not_eq_true, hsat, h.sat]
    exact not_or.mpr ⟨Bool.false_ne_true, (hle.trans_lt h.maxValue).not_ge⟩
  · rw [he] at hwf ha
    rw [eval_sizeComparison hwf, Cmp.eval, decide_eq_true_iff] at ha
    obtain ⟨-, has, hmin, hmax, hsat⟩ := st.assumeLt_spec a.id val
    have hlt : env.packetsize < min st.maxValue val := Nat.lt_min.2 ⟨h.maxValue, ha⟩
    refine ⟨hmin ▸ h.minValue, hmax ▸ hlt, ?_, has ▸ h.assumptions⟩
    rw [← Bool.not_eq_true, hsat, h.sat]
    exact not_or.mpr ⟨Bool.false_ne_true, (h.minValue.trans_lt hlt).not_ge⟩

/-! ### A branch -/

theorem Exec.Within.applyLast (h : st.Within S) {n : LastInstr} (hS : ∀ e ∈ n.check, S e ∧ S (isfalse e)) (b : Bool) :
    (st.applyLast n b).Within S := by
  unfold Exec.applyLast
  split
  · exact h
  · split
    · exact h
    · next e he =>
      have h' : Exec.Within S { st with sat := none, model := none } := ⟨h.minimize, h.maxValue, h.assumptions⟩
      cases b
      · exact h'.assume (hS e he).2 (isfalse_wf (n.wf e he))
      · exact h'.assume (hS e he).1 (n.wf e he)

/-- A branch goes the way that it is assumed to go. -/
theorem Exec.StandsFor.applyLast (h : st.StandsFor env) (hst : st.Within S) {n : LastInstr} {b : Bool}
    (hb : ∀ e ∈ n.check, e.eval env = b) : (st.applyLast n b).StandsFor env := by
  unfold Exec.applyLast
  split
  · exact h
  · split
    · exact h
    · next e he =>
      have hwf : e.WF := n.wf e he
      have hst' : Exec.Within S { st with sat := none, model := none } := ⟨hst.minimize, hst.maxValue, hst.assumptions⟩
      have h' : Exec.StandsFor { st with sat := none, model := none } env :=
        ⟨h.minValue, h.maxValue, rfl, h.assumptions⟩
      cases b
      · exact h'.assume hst' (isfalse_wf hwf) (by simp [isfalse_eval env hwf, hb e he])
      · exact h'.assume hst' hwf (hb e he)

/-! ### The solver -/

omit [PastEnd] in
theorem Exec.Within.partialMinimize (h : st.Within S) (solve : List Assumption → Model ⊕ Core) :
    (st.partialMinimize solve).Within S := by
  unfold Exec.partialMinimize Exec.checkSat
  split_ifs
  · exact h
  · exact ⟨h.minimize, h.maxValue, h.assumptions⟩
  · split <;> exact ⟨h.minimize, h.maxValue, h.assumptions⟩
  · exact h

omit [PastEnd] in
/-- What the solver is asked holds. -/
theorem Exec.StandsFor.holds (h : st.StandsFor env) (hst : st.Within S) : Holds env (st.bounds ++ st.definite) := by
  refine holds_append.mpr ⟨?_, fun a ha => h.assumptions a (List.mem_of_mem_filter ha)⟩
  cases hm : st.minimize with
  | none =>
    rw [Exec.bounds, hm]
    exact fun _ ha => absurd ha List.not_mem_nil
  | some m =>
    obtain rfl := hst.minimize m hm
    have hlt := env.packetsize_lt
    have hmin := h.minValue
    have hmax := h.maxValue
    rw [holds_bounds hm]
    rcases hst.maxValue with hsmall | hall <;> omega

omit [PastEnd] in
/-- Asking the solver loses nothing. -/
theorem Exec.StandsFor.partialMinimize (h : st.StandsFor env) (hst : st.Within S)
    {solve : List Assumption → Model ⊕ Core} (hsolve : Minimizes solve) : (st.partialMinimize solve).StandsFor env := by
  have hholds := h.holds hst
  unfold Exec.partialMinimize Exec.checkSat
  split_ifs
  · exact h
  · exact ⟨h.minValue, h.maxValue, rfl, h.assumptions⟩
  · split
    next m hm =>
      refine ⟨Nat.max_le.2 ⟨h.minValue, ?_⟩, h.maxValue, rfl, h.assumptions⟩
      cases hmin : st.minimize with
      | none => exact h.minValue
      | some n =>
        obtain rfl := hst.minimize n hmin
        rw [Option.bind_some]
        cases hv : m "packetsize" with
        | none => exact h.minValue
        | some v => exact hsolve.model _ m hm v hv env hholds
    next core hcore => exact absurd hholds (hsolve.core _ core hcore env)
  · exact h

/-! ### Merging -/

section
variable {obj : ℕ → Obj}

theorem staticMerge_minimize :
    (st.staticMerge obj o).minimize = if st.minimize = o.minimize then st.minimize else none := by
  unfold Exec.staticMerge
  dsimp only
  rw [Exec.storeAll, (foldl_store_sizes _ _).1]
  rfl

theorem staticMerge_assumptions : (st.staticMerge obj o).assumptions =
    st.assumptions.flatMap fun a => (o.assumptions.filter a.equal).map fun _ => a :=
  (foldl_store_sizes _ _).2.1

theorem mem_staticMerge (ha : a ∈ (st.staticMerge obj o).assumptions) :
    a ∈ st.assumptions ∧ ∃ b ∈ o.assumptions, a.e.equal b.e = true := by
  rw [staticMerge_assumptions] at ha
  obtain ⟨a', ha', hmem⟩ := List.mem_flatMap.mp ha
  obtain ⟨b, hb, rfl⟩ := List.mem_map.mp hmem
  obtain ⟨hb, heq⟩ := List.mem_filter.mp hb
  exact ⟨ha', b, hb, heq⟩

theorem Exec.Within.staticMerge (h : st.Within S) (ho : o.Within S) : (st.staticMerge obj o).Within S where
  minimize m hm := by
    rw [staticMerge_minimize] at hm
    split_ifs at hm
    · exact h.minimize m hm
    · exact absurd hm (Option.not_mem_none m)
  maxValue := by
    show max st.maxValue o.maxValue < 2 ^ 14 ∨ max st.maxValue o.maxValue = 2 ^ 32 - 1
    have hst := h.maxValue
    have hother := ho.maxValue
    omega
  assumptions a ha := h.assumptions a (mem_staticMerge ha).1

end

end

end NfpEstimator
