import NfpEstimator.State.Exec

/-!
# Unsatisfiable prefixes

When the solver refutes a path it names an unsatisfiable core: some of the
assertions it was given. `cfg::path::possible::apply_unsat_core` walks back along
the path to the last branch in the core and marks the prefix that ends with this
branch, and with it all its extensions, as unsatisfiable.

A core also contains the two ends of the packet size interval under the names
`min_value` and `max_value`. The walk does not look for these. A marked prefix is
indeed unsatisfiable if the ends that the core names had their final value when
the last branch in the core was taken (`marked_unsat`); a later branch that moves
such an end makes the code discard satisfiable paths (`marked_satisfiable`).
-/

namespace NfpEstimator

/-! ### Paths -/

/-- `cfg::path::possible`, without its predecessors: the end of the block that
the path leads to. -/
structure PathNode where
  /-- The last instruction of the block. -/
  last : LastInstr
  /-- The branch by which the block was entered. -/
  branchtrue : Bool
  /-- The model found if the path was checked when it came to this block. -/
  checked : Option Model

/-- A path, last block first; the tail of the list is `pred`. -/
abbrev Possible := List PathNode

section

variable [PastEnd]

/-- The state along a path that starts in `init`. -/
def stateOf (init : Exec) : Possible → Exec
  | p :: q :: rest =>
    let st := (stateOf init (q :: rest)).applyLast q.last p.branchtrue
    match p.checked with
    | none => st
    | some model => st.checkSat (.inl model)
  | _ => init

/-- The names that `apply_unsat_core` looks for: the branch that leads from `q` to `p`. -/
def branchName (q p : PathNode) : String := assumptionName q.last p.branchtrue

/-- `cfg::path::possible::apply_unsat_core`: the prefix to be marked, if any.
`n` is the path that the walk has come from, and `branchtrue` the branch that it
took there. -/
def applyUnsatCore (core : Core) : Possible → Bool → Option Possible → Option Possible
  | [], _, _ => none
  | p :: pred, branchtrue, n =>
    if assumptionName p.last branchtrue ∈ core then n
    else applyUnsatCore core pred p.branchtrue (some (p :: pred))

/-- `cfg::path::possible::check`, on a path that the solver refutes with `core`,
and `mark_unsat`, which also marks the paths that extend a marked one. -/
def Marked (core : Core) : Possible → Possible → Prop
  | [], _ => False
  | p :: pred, x => ∃ m, applyUnsatCore core pred p.branchtrue none = some m ∧ m <:+ x

end

/-! ### Path conditions -/

/-- The branch from `q` to `p` can be taken. -/
def Taken (env : Env) (q p : PathNode) : Prop :=
  ∀ e ∈ q.last.check, e.eval env = p.branchtrue

/-- All branches of a path are taken. -/
def PathCond (env : Env) : Possible → Prop
  | p :: q :: rest => Taken env q p ∧ PathCond env (q :: rest)
  | _ => True

/-- A path can be taken with some packet of at least the least size and at most `mtu`. -/
def Satisfiable (mtu : ℕ) (path : Possible) : Prop :=
  ∃ env : Env, (minPacketsize ≤ env.packetsize ∧ env.packetsize ≤ mtu) ∧ PathCond env path

theorem PathCond.of_suffix {env : Env} {m x : Possible} (h : m <:+ x) (hx : PathCond env x) :
    PathCond env m := by
  induction x with
  | nil => rwa [List.suffix_nil.1 h]
  | cons p rest ih =>
    rcases List.suffix_cons_iff.1 h with rfl | h'
    · exact hx
    · refine ih h' ?_
      cases rest with
      | nil => trivial
      | cons q rest => exact hx.2

/-- The solver's models are minimal: when a path is checked, no packet that
satisfies its conditions is smaller than the one in the model. -/
def MinimalModels (mtu : ℕ) : Possible → Prop
  | p :: q :: rest =>
    (∀ model ∈ p.checked, ∀ m ∈ model "packetsize", ∀ env : Env,
      minPacketsize ≤ env.packetsize → env.packetsize ≤ mtu → PathCond env (p :: q :: rest) →
        m ≤ env.packetsize) ∧
    MinimalModels mtu (q :: rest)
  | _ => True

section

variable [PastEnd]

/-! ### What `assume` does to a state -/

theorem equal_bvvariable {a : Bvexpr} {B : ℕ} {n : String}
    (h : a.equal (.bvvariable B n) = true) : a = .bvvariable B n := by
  cases a with
  | bvvariable B' n' =>
    simp only [Bvexpr.equal, Bool.and_eq_true, beq_iff_eq] at h
    rw [h.1, h.2]
  | _ => simp [Bvexpr.equal] at h

/-- A condition that is folded into the interval compares the variable with a constant. -/
theorem boundOn_eq_some {c : Cmp} {m : String} {e : Lexpr} {val : ℕ}
    (h : boundOn c m e = some val) :
    e = .comparison c 14 (.bvvariable 14 m) (.bitvector 14 val) := by
  unfold boundOn at h
  split at h
  · next c' B a B' v =>
    split at h
    · next hc =>
      obtain ⟨⟨rfl, rfl, rfl⟩, ha⟩ := hc
      simp only [Option.some.injEq] at h
      rw [h, equal_bvvariable ha]
    · simp at h
  · simp at h

/-- What `assume` can do. -/
theorem assume_cases (st : Exec) (a : Assumption) (hm : ∀ m ∈ st.minimize, m = "packetsize") :
    st.assume a = st ∨ (a.e = .boolean false ∧ st.assume a = st.refute a.id) ∨
    st.assume a = st.pushAssumption a ∨
    (∃ val, a.e = .comparison .bvuge 14 (.bvvariable 14 "packetsize") (.bitvector 14 val) ∧
      st.assume a = st.assumeGe a.id val) ∨
    (∃ val, a.e = .comparison .bvult 14 (.bvvariable 14 "packetsize") (.bitvector 14 val) ∧
      st.assume a = st.assumeLt a.id val) := by
  unfold Exec.assume
  split
  · next value he => cases value <;> simp [he]
  · split
    · exact .inl rfl
    · cases hmin : st.minimize with
      | none => exact .inr (.inr (.inl rfl))
      | some m =>
        obtain rfl := hm m hmin
        simp only
        split
        · next val hval => exact .inr (.inr (.inr (.inl ⟨val, boundOn_eq_some hval, rfl⟩)))
        · split
          · next val hval => exact .inr (.inr (.inr (.inr ⟨val, boundOn_eq_some hval, rfl⟩)))
          · exact .inr (.inr (.inl rfl))

/-! ### One branch -/

/-- An environment fits a state: the packet size lies in the interval, which lies
within the transmission unit, and the collected conditions hold. -/
structure Exec.Fits (env : Env) (mtu : ℕ) (st : Exec) : Prop where
  minimize : st.minimize = some "packetsize"
  minValue : st.minValue ≤ env.packetsize
  maxValue : env.packetsize ≤ st.maxValue
  mtu : st.maxValue ≤ mtu
  assumptions : Holds env st.assumptions

omit [PastEnd] in
theorem eval_sizeComparison {env : Env} {c : Cmp} {val : ℕ}
    (hwf : (Lexpr.comparison c 14 (.bvvariable 14 "packetsize") (.bitvector 14 val)).WF) :
    (Lexpr.comparison c 14 (.bvvariable 14 "packetsize") (.bitvector 14 val)).eval env =
      c.eval env.packetsize val := by
  have hval : val < 2 ^ 14 := hwf.2.1
  simp only [Lexpr.eval, Bvexpr.eval, Nat.mod_eq_of_lt hval]
  rfl

/-- A condition that holds in an environment that fits can be assumed. -/
theorem Exec.Fits.assume {env : Env} {mtu : ℕ} {st : Exec} (h : st.Fits env mtu) {a : Assumption}
    (hwf : a.e.WF) (ha : a.e.eval env = true) : (st.assume a).Fits env mtu := by
  rcases assume_cases st a (by simp [h.minimize]) with
    heq | ⟨-, heq⟩ | heq | ⟨val, he, heq⟩ | ⟨val, he, heq⟩ <;> rw [heq]
  · exact h
  · exact ⟨h.minimize, h.minValue, h.maxValue, h.mtu, h.assumptions⟩
  · refine ⟨h.minimize, h.minValue, h.maxValue, h.mtu, ?_⟩
    rw [Exec.pushAssumption, holds_append]
    exact ⟨h.assumptions, fun b hb => List.mem_singleton.1 hb ▸ ha⟩
  · rw [he] at hwf ha
    rw [eval_sizeComparison hwf, Cmp.eval, decide_eq_true_iff] at ha
    obtain ⟨hm, has, hmin, hmax, -⟩ := st.assumeGe_spec a.id val
    exact ⟨hm.trans h.minimize, hmin ▸ Nat.max_le.2 ⟨h.minValue, ha⟩, hmax ▸ h.maxValue,
      hmax ▸ h.mtu, has ▸ h.assumptions⟩
  · rw [he] at hwf ha
    rw [eval_sizeComparison hwf, Cmp.eval, decide_eq_true_iff] at ha
    obtain ⟨hm, has, hmin, hmax, -⟩ := st.assumeLt_spec a.id val
    exact ⟨hm.trans h.minimize, hmin ▸ h.minValue,
      hmax ▸ Nat.le_min.2 ⟨h.maxValue, Nat.le_of_lt ha⟩,
      hmax ▸ (Nat.min_le_left _ _).trans h.mtu, has ▸ h.assumptions⟩

/-- The state after a branch that is taken. -/
theorem Exec.Fits.applyLast {env : Env} {mtu : ℕ} {st : Exec} (h : st.Fits env mtu)
    {q p : PathNode} (ht : Taken env q p) :
    (st.applyLast q.last p.branchtrue).Fits env mtu := by
  unfold Exec.applyLast
  split
  · exact h
  · split
    · exact h
    · next e he =>
      have hwf : e.WF := q.last.wf e he
      have hval : e.eval env = p.branchtrue := ht e he
      have h' : Exec.Fits env mtu { st with sat := none, model := none } :=
        ⟨h.minimize, h.minValue, h.maxValue, h.mtu, h.assumptions⟩
      cases hb : p.branchtrue
      · exact h'.assume (isfalse_wf hwf) (by simp [isfalse_eval env hwf, hval, hb])
      · exact h'.assume hwf (by simp [hval, hb])

omit [PastEnd] in
/-- The state after a check that finds a model with a minimal packet. -/
theorem Exec.Fits.checkSat {env : Env} {mtu : ℕ} {st : Exec} (h : st.Fits env mtu) {model : Model}
    (hmin : ∀ m ∈ model "packetsize", m ≤ env.packetsize) :
    (st.checkSat (.inl model)).Fits env mtu := by
  unfold Exec.checkSat
  split
  · exact h
  split
  · exact ⟨h.minimize, h.minValue, h.maxValue, h.mtu, h.assumptions⟩
  · refine ⟨h.minimize, ?_, h.maxValue, h.mtu, h.assumptions⟩
    simp only [h.minimize, Option.bind_some]
    refine Nat.max_le.2 ⟨h.minValue, ?_⟩
    cases hm : model "packetsize" with
    | none => exact h.minValue
    | some m => exact hmin m hm

/-- **An environment that takes a path fits the state along the path.** -/
theorem stateOf_fits (firmware : ℕ) {mtu : ℕ} (input : List Update) {env : Env}
    (hlo : minPacketsize ≤ env.packetsize) (hhi : env.packetsize ≤ mtu) :
    ∀ path : Possible, MinimalModels mtu path → PathCond env path →
      (stateOf (initialState firmware mtu input) path).Fits env mtu
  | [], _, _ | [_], _, _ => by
    obtain ⟨⟨hm, ha⟩, hmin, hmax, -⟩ := initialState_sizes firmware mtu input
    exact ⟨hm, hmin.le.trans hlo, hhi.trans hmax.ge, hmax.le, by simp [stateOf, ha, Holds]⟩
  | p :: q :: rest, hmodels, hcond => by
    have ih := stateOf_fits firmware input hlo hhi (q :: rest) hmodels.2 hcond.2
    have hlast := ih.applyLast hcond.1
    unfold stateOf
    split
    · exact hlast
    · next model hmodel =>
      exact hlast.checkSat fun m hm => hmodels.1 model hmodel m hm env hlo hhi hcond

/-! ### Where assertions come from -/

theorem assume_minimize {st : Exec} (a : Assumption) (hm : ∀ m ∈ st.minimize, m = "packetsize") :
    (st.assume a).minimize = st.minimize := by
  rcases assume_cases st a hm with heq | ⟨-, heq⟩ | heq | ⟨val, -, heq⟩ | ⟨val, -, heq⟩ <;> rw [heq]
  · rfl
  · rfl
  · exact (Exec.assumeGe_spec _ _ _).1
  · exact (Exec.assumeLt_spec _ _ _).1

theorem stateOf_minimize {init : Exec} (hm : init.minimize = some "packetsize") :
    ∀ path : Possible, (stateOf init path).minimize = some "packetsize"
  | [] | [_] => hm
  | p :: q :: rest => by
    have ih := stateOf_minimize hm (q :: rest)
    have hlast : ((stateOf init (q :: rest)).applyLast q.last p.branchtrue).minimize =
        some "packetsize" := by
      unfold Exec.applyLast
      split
      · exact ih
      split
      · exact ih
      · exact (assume_minimize _ (by simp [ih])).trans ih
    unfold stateOf
    split
    · exact hlast
    · rw [Exec.checkSat_minimize, hlast]

theorem applyLast_assumptions {st : Exec} (hm : st.minimize = some "packetsize")
    {n : LastInstr} {b : Bool} {a : Assumption} (ha : a ∈ (st.applyLast n b).assumptions) :
    a ∈ st.assumptions ∨ a.id = assumptionName n b := by
  unfold Exec.applyLast at ha
  split at ha
  · exact .inl ha
  split at ha
  · exact .inl ha
  · next e _ =>
    rcases assume_cases { st with sat := none, model := none }
      ⟨if b then e else isfalse e, assumptionName n b⟩ (by simp [hm]) with
      heq | ⟨-, heq⟩ | heq | ⟨val, -, heq⟩ | ⟨val, -, heq⟩ <;> rw [heq] at ha
    · exact .inl ha
    · exact .inl ha
    · rcases List.mem_append.1 ha with ha | ha
      · exact .inl ha
      · exact .inr (by rw [List.mem_singleton.1 ha])
    · rw [(Exec.assumeGe_spec _ _ _).2.1] at ha
      exact .inl ha
    · rw [(Exec.assumeLt_spec _ _ _).2.1] at ha
      exact .inl ha

/-- The path has a last branch that the core names, and `m` is the prefix that ends with it. -/
inductive LastNamed (core : Core) : Possible → Possible → Prop
  | here {p q rest} : branchName q p ∈ core → LastNamed core (p :: q :: rest) (p :: q :: rest)
  | there {p q rest m} : branchName q p ∉ core → LastNamed core (q :: rest) m →
    LastNamed core (p :: q :: rest) m

omit [PastEnd] in
theorem LastNamed.of_applyUnsatCore {core : Core} {m : Possible} :
    ∀ (q : PathNode) (rest : Possible) (b : Bool) (n : Option Possible),
      applyUnsatCore core (q :: rest) b n = some m →
        assumptionName q.last b ∈ core ∧ n = some m ∨
        assumptionName q.last b ∉ core ∧ LastNamed core (q :: rest) m
  | q, rest, b, n, h => by
    rw [applyUnsatCore] at h
    split at h
    · next hb => exact .inl ⟨hb, h⟩
    · next hb =>
      refine .inr ⟨hb, ?_⟩
      cases rest with
      | nil => simp [applyUnsatCore] at h
      | cons r rest =>
        rcases of_applyUnsatCore r rest q.branchtrue _ h with ⟨hq, heq⟩ | ⟨hq, hm⟩
        · rw [Option.some.injEq] at heq
          exact heq ▸ .here hq
        · exact .there hq hm

omit [PastEnd] in
theorem LastNamed.minimalModels {core : Core} {mtu : ℕ} {path m : Possible}
    (h : LastNamed core path m) (hmodels : MinimalModels mtu path) : MinimalModels mtu m := by
  induction h with
  | here => exact hmodels
  | there _ _ ih => exact ih hmodels.2

omit [PastEnd] in
/-- What is marked extends the prefix that ends with the last branch in the core. -/
theorem Marked.lastNamed {core : Core} {path x : Possible} (h : Marked core path x) :
    ∃ m, LastNamed core path m ∧ m <:+ x := by
  cases path with
  | nil => exact absurd h id
  | cons p pred =>
    obtain ⟨m, hm, hx⟩ := h
    cases pred with
    | nil => simp [applyUnsatCore] at hm
    | cons q rest =>
      rcases LastNamed.of_applyUnsatCore q rest p.branchtrue none hm with ⟨-, heq⟩ | ⟨hq, hm⟩
      · simp at heq
      · exact ⟨m, .there hq hm, hx⟩

/-- The collected conditions that the core names are those of the prefix. -/
theorem LastNamed.mem_assumptions {init : Exec} {core : Core} {path m : Possible}
    (h : LastNamed core path m) (hm : init.minimize = some "packetsize")
    {a : Assumption} (ha : a ∈ (stateOf init path).assumptions) (hid : a.id ∈ core) :
    a ∈ (stateOf init m).assumptions := by
  induction h with
  | here => exact ha
  | @there p q rest m hq _ ih =>
    apply ih
    have hlast : a ∈ ((stateOf init (q :: rest)).applyLast q.last p.branchtrue).assumptions := by
      unfold stateOf at ha
      split at ha
      · exact ha
      · rwa [Exec.checkSat_assumptions] at ha
    rcases applyLast_assumptions (stateOf_minimize hm _) hlast with ha' | ha'
    · exact ha'
    · rw [ha'] at hid
      exact absurd hid hq

/-! ### Soundness of marking -/

/-- When the last branch that the core names was taken, the ends of the interval
that the core names had their value in the state `final`. -/
def BoundsKept (core : Core) (init final : Exec) : Possible → Prop
  | p :: q :: rest =>
    if branchName q p ∈ core then
      ("min_value" ∈ core → final.minValue = (stateOf init (p :: q :: rest)).minValue) ∧
      ("max_value" ∈ core → final.maxValue = (stateOf init (p :: q :: rest)).maxValue)
    else BoundsKept core init final (q :: rest)
  | _ => True

theorem LastNamed.boundsKept {init final : Exec} {core : Core} {path m : Possible}
    (h : LastNamed core path m) (hkept : BoundsKept core init final path) :
    ("min_value" ∈ core → final.minValue = (stateOf init m).minValue) ∧
      ("max_value" ∈ core → final.maxValue = (stateOf init m).maxValue) := by
  induction h with
  | here hq => rwa [BoundsKept, if_pos hq] at hkept
  | there hq _ ih =>
    rw [BoundsKept, if_neg hq] at hkept
    exact ih hkept

/-- The assertions of the solver that a core names. -/
def Exec.named (st : Exec) (core : Core) : List Assumption :=
  st.asserted.filter fun a => decide (a.id ∈ core)

/-- **Marking is sound when no end in the core moves after the last branch in the
core**: if the core is unsatisfiable and the transmission unit fits 14 bits, no
packet can take a marked path. -/
theorem marked_unsat (firmware mtu : ℕ) (input : List Update) (path : Possible) (core : Core)
    (hmtu : mtu < 2 ^ 14) (hmodels : MinimalModels mtu path)
    (hcore : ¬ ∃ env, Holds env ((stateOf (initialState firmware mtu input) path).named core))
    (hkept : BoundsKept core (initialState firmware mtu input)
      (stateOf (initialState firmware mtu input) path) path) :
    ∀ x, Marked core path x → ¬ Satisfiable mtu x := by
  rintro x hx ⟨env, ⟨hlo, hhi⟩, hcond⟩
  obtain ⟨m, hm, hsuffix⟩ := hx.lastNamed
  have hinit := (initialState_sizes firmware mtu input).1.minimize
  have hfits := stateOf_fits firmware input hlo hhi m (hm.minimalModels hmodels)
    (hcond.of_suffix hsuffix)
  obtain ⟨hkmin, hkmax⟩ := hm.boundsKept hkept
  -- the environment satisfies every assertion that the core names
  refine hcore ⟨env, fun a ha => ?_⟩
  obtain ⟨ha, hid⟩ := List.mem_filter.1 ha
  rw [decide_eq_true_iff] at hid
  rw [Exec.asserted, Exec.bounds, stateOf_minimize hinit] at ha
  have hsize := env.packetsize_lt
  simp only [List.cons_append, List.nil_append, List.mem_cons] at ha
  rcases ha with rfl | rfl | ha
  · rw [minBound_eval, hkmin hid, Nat.mod_eq_of_lt (lt_of_le_of_lt hfits.minValue hsize)]
    exact hfits.minValue
  · rw [maxBound_eval, hkmax hid, Nat.mod_eq_of_lt (lt_of_le_of_lt hfits.mtu hmtu)]
    exact hfits.maxValue
  · exact hfits.assumptions a (hm.mem_assumptions hinit ha hid)

end

/-- A block that ends with a branch, which tests `check`. -/
def branchNode (id : ℕ) (check : Lexpr) (wf : check.WF) (branchtrue : Bool) : PathNode :=
  { last := ⟨"blt", id, 0, some check, fun _ he => Option.mem_some.1 he ▸ wf⟩
    branchtrue := branchtrue
    checked := none }

/-- The packet is longer than 200 bytes; the variable is on the right, so this is
not folded into the interval. -/
def longerThan200 : Lexpr :=
  .comparison .bvult 14 (.bitvector 14 200) (.bvvariable 14 "packetsize")

/-- The packet is shorter than 100 bytes. -/
def shorterThan100 : Lexpr :=
  .comparison .bvult 14 (.bvvariable 14 "packetsize") (.bitvector 14 100)

theorem longerThan200_wf : longerThan200.WF :=
  ⟨⟨show 200 < 2 ^ 14 by decide, rfl⟩, trivial, rfl⟩

theorem shorterThan100_wf : shorterThan100.WF :=
  ⟨⟨trivial, rfl⟩, show 100 < 2 ^ 14 by decide, rfl⟩

/-- The packet is longer than 70 bytes. -/
def longerThan70 : Lexpr :=
  .comparison .bvult 14 (.bitvector 14 70) (.bvvariable 14 "packetsize")

theorem longerThan70_wf : longerThan70.WF :=
  ⟨⟨show 70 < 2 ^ 14 by decide, rfl⟩, trivial, rfl⟩

/-- A packet of 71 bytes. -/
def model71 : Model := fun n => if n = "packetsize" then some 71 else none

/-- Behind a branch, where the path was checked, two more that contradict each other, the one that
moves the upper end first. -/
def shortLong : Possible :=
  [branchNode 4 longerThan200 longerThan200_wf true,
    branchNode 3 longerThan200 longerThan200_wf true,
    { branchNode 2 shorterThan100 shorterThan100_wf true with checked := some model71 },
    branchNode 1 longerThan70 longerThan70_wf true]

/-- One more block, in which the contradiction is found. -/
def shortLongPath : Possible := branchNode 5 longerThan200 longerThan200_wf true :: shortLong

theorem stateOf_shortLongPath :
    let _ : PastEnd := ⟨fun _ => true⟩
    stateOf (initialState 0 1500 []) shortLongPath =
      { initialState 0 1500 [] with
        minValue := 71, maxValue := 100
        assumptions := [⟨longerThan70, "bltT1L0"⟩, ⟨longerThan200, "bltT3L0"⟩] } := rfl

theorem marked_unsat_shortLong : ¬ Satisfiable 1500 shortLong := by
  let _ : PastEnd := ⟨fun _ => true⟩
  refine marked_unsat 0 1500 [] shortLongPath ["bltT3L0", "max_value"] (by decide) ?_ ?_ ?_
    shortLong ⟨shortLong, rfl, List.suffix_rfl⟩
  · refine ⟨by simp [branchNode], by simp [branchNode], by simp [branchNode], ?_, trivial⟩
    -- no packet that is longer than 70 bytes is smaller than the one of the model
    rintro _ ⟨⟩ m hm env - - ⟨ht, -⟩
    obtain rfl : 71 = m := Option.some.inj hm
    exact of_decide_eq_true (ht longerThan70 rfl)
  · rw [stateOf_shortLongPath]
    rintro ⟨env, henv⟩
    have hmax := henv (Exec.maxBound _ "packetsize") List.mem_cons_self
    have hlong := henv ⟨longerThan200, "bltT3L0"⟩ (List.mem_cons_of_mem _ List.mem_cons_self)
    rw [maxBound_eval] at hmax
    have hgt : 200 < env.packetsize := of_decide_eq_true hlong
    exact Nat.not_lt.2 hmax (lt_trans (by decide) hgt)
  · exact ⟨fun h => absurd h (by decide), fun _ => rfl⟩

/-- The start of the path: a block that branches if the packet is longer than 200 bytes. -/
def coreStart : Possible := [branchNode 1 longerThan200 longerThan200_wf true]

/-- It does, and comes to a block that branches if the packet is shorter than 100 bytes. -/
def corePrefix : Possible := branchNode 2 shorterThan100 shorterThan100_wf true :: coreStart

/-- It does again. -/
def corePath : Possible := branchNode 3 longerThan200 longerThan200_wf true :: corePrefix

/-- The path is unsatisfiable because of its first branch and the upper end,
which the second one has moved; the prefix up to the first branch is marked,
which any packet of more than 200 bytes takes. -/
theorem marked_satisfiable :
    let _ : PastEnd := ⟨fun _ => true⟩
    (stateOf (initialState 0 1500 []) corePath).isUnsat = false ∧
    (∀ n ∈ ["bltT1L0", "max_value"],
      n ∈ (stateOf (initialState 0 1500 []) corePath).asserted.map Assumption.id) ∧
    (¬ ∃ env, Holds env
      ((stateOf (initialState 0 1500 []) corePath).named ["bltT1L0", "max_value"])) ∧
    Marked ["bltT1L0", "max_value"] corePath corePrefix ∧ Satisfiable 1500 corePrefix := by
  intro _
  have hst : stateOf (initialState 0 1500 []) corePath =
      { initialState 0 1500 [] with
        maxValue := 100, assumptions := [⟨longerThan200, "bltT1L0"⟩] } := rfl
  rw [hst]
  refine ⟨rfl, by decide, ?_, ⟨corePrefix, rfl, List.suffix_rfl⟩, Env.const 300, by decide, ?_⟩
  · rintro ⟨env, henv⟩
    have hmax := henv (Exec.maxBound _ "packetsize") List.mem_cons_self
    have hlong := henv ⟨longerThan200, "bltT1L0"⟩ (List.mem_cons_of_mem _ List.mem_cons_self)
    rw [maxBound_eval] at hmax
    have hgt : 200 < env.packetsize := of_decide_eq_true hlong
    exact Nat.not_lt.2 hmax (lt_trans (by decide) hgt)
  · exact ⟨fun _ he => Option.mem_some.1 he ▸ rfl, trivial⟩

end NfpEstimator
