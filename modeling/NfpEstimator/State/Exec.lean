import NfpEstimator.Expr.Comparison
import NfpEstimator.Expr.Equality

/-!
# The symbolic state

`state::exec`, the state that is carried along a path of the control flow graph:
cycle counts, the symbolic contents of registers, flags and memory, stores that
are still under way, and what has been assumed so far. The cycle counts are of the
type `unsigned int`. They wrap around here as they do there (`wrap32`).

Assumptions on the packet size are not kept as expressions. As long as a
condition compares the packet size with a constant, `Exec.assume` folds it into
the interval `minValue … maxValue`; all other conditions are collected. What the
solver is given in the end is the two ends of the interval, under the names
`min_value` and `max_value`, and the collected conditions under the names of the
branches they come from (`Exec.asserted`).
-/

namespace NfpEstimator

/-! ### Machine integers -/

/-- What a variable of the type `unsigned int` holds. -/
def wrap32 (n : ℕ) : ℕ := n % 2 ^ 32

theorem wrap32_of_lt {n : ℕ} (h : n < 2 ^ 32) : wrap32 n = n := Nat.mod_eq_of_lt h

theorem wrap32_le (n : ℕ) : wrap32 n ≤ n := Nat.mod_le n _

/-- A sum that wraps around each time something is added is the whole sum, wrapped around once. -/
@[simp] theorem wrap32_add_left (m n : ℕ) : wrap32 (wrap32 m + n) = wrap32 (m + n) := Nat.mod_add_mod m _ n

/-! ### Assumptions -/

/-- `sat_checker::assumption`: a condition and the name it is asserted under. -/
structure Assumption where
  e : Lexpr
  id : String

/-- `operator==`: the names are not compared. -/
def Assumption.equal [PastEnd] (a b : Assumption) : Bool := a.e.equal b.e

/-- `sat_checker::model`: the values of the variables. -/
abbrev Model := String → Option ℕ

/-- `sat_checker::unsat_core`. -/
abbrev Core := List String

/-! ### The state -/

/-- `state::update`. -/
inductive Update where
  | noop
  | reg (d : String) (e : Bvexpr)
  | flag (d : String) (e : Bvexpr)
  | mem8 (d : String) (e : Bvarray)
  | mem32 (d : String) (e : Bvarray)
  | invalidateMem
  | defered (cycles : ℕ) (u : Update)

/-- `state::exec`. -/
structure Exec where
  summaxcycles : ℕ
  sumcycles : ℕ
  lastmem : ℕ
  lastcc : ℕ
  registers : String → Option Bvexpr
  flags : String → Option Bvexpr
  mem8 : String → Option Bvarray
  mem32 : String → Option Bvarray
  /-- Updates under way, each with the cycle at which it takes effect. -/
  defered : List (ℕ × Update)
  /-- The 14 bit variable of the packet size. -/
  minimize : Option String
  minValue : ℕ
  maxValue : ℕ
  assumptions : List Assumption
  sat : Option Bool
  model : Option Model
  unsatCore : Option Core

/-- `state::update::store`. -/
def Update.store : Update → Exec → Exec
  | .noop, st => st
  | .reg d e, st => { st with registers := Function.update st.registers d (some e) }
  | .flag d e, st => { st with flags := Function.update st.flags d (some e) }
  | .mem8 d e, st => { st with mem8 := Function.update st.mem8 d (some e) }
  | .mem32 d e, st => { st with mem32 := Function.update st.mem32 d (some e) }
  | .invalidateMem, st => { st with mem8 := fun _ => none, mem32 := fun _ => none }
  | .defered cycles u, st => { st with defered := st.defered ++ [(wrap32 (st.sumcycles + cycles), u)] }

/-- The constructor of `state::exec`. -/
def Exec.make (cycles : ℕ) (input : List Update) (minimize : String) (minValue maxValue : ℕ) :
    Exec :=
  input.foldl (fun st u => u.store st)
    { summaxcycles := cycles, sumcycles := cycles, lastmem := cycles, lastcc := cycles
      registers := fun _ => none, flags := fun _ => none
      mem8 := fun _ => none, mem32 := fun _ => none, defered := []
      minimize := some minimize, minValue := minValue, maxValue := maxValue
      assumptions := [], sat := none, model := none, unsatCore := none }

/-- `cfg::MIN_PACKETSIZE`. -/
def minPacketsize : ℕ := 60

/-- `cfg::initial_state`. The register and memory contents that it starts with
are `input`; `firmware` is `cfg::COST_FIRMWARE`, `mtu` is `cfg::MTU`. -/
def initialState (firmware mtu : ℕ) (input : List Update) : Exec :=
  Exec.make firmware input "packetsize" minPacketsize mtu

/-! ### Assuming -/

/-- `state::exec::is_unsat`. -/
def Exec.isUnsat (st : Exec) : Bool := st.sat == some false

/-- The state keeps the packet size as an interval and has collected nothing. -/
structure Exec.OnlySizes (st : Exec) : Prop where
  minimize : st.minimize = some "packetsize"
  assumptions : st.assumptions = []

theorem Update.store_sizes (u : Update) (st : Exec) :
    (u.store st).minimize = st.minimize ∧ (u.store st).assumptions = st.assumptions ∧
      (u.store st).minValue = st.minValue ∧ (u.store st).maxValue = st.maxValue ∧
      (u.store st).sat = st.sat := by
  cases u <;> exact ⟨rfl, rfl, rfl, rfl, rfl⟩

theorem foldl_store_sizes (us : List Update) (st : Exec) :
    let st' := us.foldl (fun st u => u.store st) st
    st'.minimize = st.minimize ∧ st'.assumptions = st.assumptions ∧
      st'.minValue = st.minValue ∧ st'.maxValue = st.maxValue ∧ st'.sat = st.sat := by
  induction us generalizing st with
  | nil => exact ⟨rfl, rfl, rfl, rfl, rfl⟩
  | cons u us ih =>
    obtain ⟨h1, h2, h3, h4, h5⟩ := u.store_sizes st
    obtain ⟨i1, i2, i3, i4, i5⟩ := ih (u.store st)
    exact ⟨i1.trans h1, i2.trans h2, i3.trans h3, i4.trans h4, i5.trans h5⟩

theorem initialState_sizes (firmware mtu : ℕ) (input : List Update) :
    let st := initialState firmware mtu input
    st.OnlySizes ∧ st.minValue = minPacketsize ∧ st.maxValue = mtu ∧ st.isUnsat = false := by
  obtain ⟨h1, h2, h3, h4, h5⟩ := foldl_store_sizes input _
  exact ⟨⟨h1, h2⟩, h3, h4, by rw [Exec.isUnsat, initialState, Exec.make, h5]; rfl⟩

/-- The state is found to be unsatisfiable because of the condition named `id`. -/
def Exec.refute (st : Exec) (id : String) : Exec :=
  { st with sat := some false, model := some fun _ => none, unsatCore := some [id] }

/-- The constant that a condition compares the variable `m` with, if the
condition is a comparison `c` of these two. -/
def boundOn [PastEnd] (c : Cmp) (m : String) : Lexpr → Option ℕ
  | .comparison c' B a (.bitvector B' val) =>
    if (c' = c ∧ B = 14 ∧ B' = 14) ∧ a.equal (.bvvariable 14 m) then some val else none
  | _ => none

/-- Raise the lower bound of the packet size. -/
def Exec.assumeGe (st : Exec) (id : String) (val : ℕ) : Exec :=
  let st := if st.minValue < val then { st with minValue := val } else st
  if st.maxValue ≤ st.minValue then st.refute id else st

/-- Lower the upper bound of the packet size. -/
def Exec.assumeLt (st : Exec) (id : String) (val : ℕ) : Exec :=
  let st := if val ≤ st.maxValue then { st with maxValue := val } else st
  if st.maxValue ≤ st.minValue then st.refute id else st

/-- What `assumeGe` does: the lower end moves up, and the state is refuted if the ends meet. -/
theorem Exec.assumeGe_spec (st : Exec) (id : String) (val : ℕ) :
    (st.assumeGe id val).minimize = st.minimize ∧
      (st.assumeGe id val).assumptions = st.assumptions ∧
      (st.assumeGe id val).minValue = max st.minValue val ∧
      (st.assumeGe id val).maxValue = st.maxValue ∧
      ((st.assumeGe id val).isUnsat = true ↔
        st.isUnsat = true ∨ st.maxValue ≤ max st.minValue val) := by
  have hmax : (if st.minValue < val then { st with minValue := val } else st) =
      { st with minValue := max st.minValue val } := by
    split
    · next hlt => rw [Nat.max_eq_right (Nat.le_of_lt hlt)]
    · next hge => rw [Nat.max_eq_left (Nat.le_of_not_lt hge)]
  simp only [Exec.assumeGe, hmax]
  split
  · next hle => exact ⟨rfl, rfl, rfl, rfl, by simp [Exec.refute, Exec.isUnsat, hle]⟩
  · next hgt => exact ⟨rfl, rfl, rfl, rfl, by simp only [Exec.isUnsat, hgt, or_false]⟩

/-- What `assumeLt` does: the upper end moves down, and the state is refuted if the ends meet. -/
theorem Exec.assumeLt_spec (st : Exec) (id : String) (val : ℕ) :
    (st.assumeLt id val).minimize = st.minimize ∧
      (st.assumeLt id val).assumptions = st.assumptions ∧
      (st.assumeLt id val).minValue = st.minValue ∧
      (st.assumeLt id val).maxValue = min st.maxValue val ∧
      ((st.assumeLt id val).isUnsat = true ↔
        st.isUnsat = true ∨ min st.maxValue val ≤ st.minValue) := by
  have hmin : (if val ≤ st.maxValue then { st with maxValue := val } else st) =
      { st with maxValue := min st.maxValue val } := by
    split
    · next hle => rw [Nat.min_eq_right hle]
    · next hlt => rw [Nat.min_eq_left (Nat.le_of_not_le hlt)]
  simp only [Exec.assumeLt, hmin]
  split
  · next hle => exact ⟨rfl, rfl, rfl, rfl, by simp [Exec.refute, Exec.isUnsat, hle]⟩
  · next hgt => exact ⟨rfl, rfl, rfl, rfl, by simp only [Exec.isUnsat, hgt, or_false]⟩

/-- Collect a condition. -/
def Exec.pushAssumption (st : Exec) (a : Assumption) : Exec :=
  { st with assumptions := st.assumptions ++ [a] }

/-- `state::exec::assume`. -/
def Exec.assume [PastEnd] (st : Exec) (a : Assumption) : Exec :=
  match a.e with
  | .boolean value => if value then st else st.refute a.id
  | _ =>
    if st.assumptions.any a.equal then st
    else match st.minimize with
      | none => st.pushAssumption a
      | some m =>
        match boundOn .bvuge m a.e with
        | some val => st.assumeGe a.id val
        | none =>
          match boundOn .bvult m a.e with
          | some val => st.assumeLt a.id val
          | none => st.pushAssumption a

/-! ### Applying a branch -/

/-- The last instruction of a block, with what a branch of it is named and
tests. `check` is `n.check(state)` at the end of the block, and absent if the
instruction is not a branch. -/
structure LastInstr where
  name : String
  id : ℕ
  loopdepth : ℕ
  check : Option Lexpr
  wf : ∀ e ∈ check, e.WF

/-- `state::exec::assumption_name`. -/
def assumptionName (n : LastInstr) (branchtrue : Bool) : String :=
  n.name ++ (if branchtrue then "T" else "F") ++ toString n.id ++ "L" ++ toString n.loopdepth

/-- What `state::exec::apply` does about the satisfiability of a state. -/
def Exec.applyLast [PastEnd] (st : Exec) (n : LastInstr) (branchtrue : Bool) : Exec :=
  if st.isUnsat then st
  else match n.check with
    | none => st
    | some e =>
      { st with sat := none, model := none }.assume
        ⟨if branchtrue then e else isfalse e, assumptionName n branchtrue⟩

/-- `state::exec::check_sat`, where `answer` is what the solver answers. A model
raises the lower end of the interval to the packet size that it picks. -/
def Exec.checkSat (st : Exec) (answer : Model ⊕ Core) : Exec :=
  if st.sat.isSome then st
  else if st.assumptions.isEmpty then
    { st with sat := some true, model := some fun _ => none, unsatCore := none }
  else match answer with
    | .inl model =>
      { st with
        sat := some true, model := some model, unsatCore := none
        minValue := max st.minValue ((st.minimize.bind model).getD st.minValue) }
    | .inr core => { st with sat := some false, model := none, unsatCore := some core }

theorem Exec.checkSat_assumptions (st : Exec) (answer : Model ⊕ Core) :
    (st.checkSat answer).assumptions = st.assumptions := by
  unfold Exec.checkSat
  split
  · rfl
  split
  · rfl
  · cases answer <;> rfl

theorem Exec.checkSat_minimize (st : Exec) (answer : Model ⊕ Core) :
    (st.checkSat answer).minimize = st.minimize := by
  unfold Exec.checkSat
  split
  · rfl
  split
  · rfl
  · cases answer <;> rfl

/-! ### What the solver is given -/

/-- The lower end of the interval of the variable `m`, as `check_sat` asserts it. -/
def Exec.minBound (st : Exec) (m : String) : Assumption :=
  ⟨bvuge 14 (.bvvariable 14 m) (constant 14 st.minValue), "min_value"⟩

/-- The upper end. -/
def Exec.maxBound (st : Exec) (m : String) : Assumption :=
  ⟨bvule 14 (.bvvariable 14 m) (constant 14 st.maxValue), "max_value"⟩

/-- What `check_sat` asserts about the interval. -/
def Exec.bounds (st : Exec) : List Assumption :=
  match st.minimize with
  | none => []
  | some m => [st.minBound m, st.maxBound m]

/-- The named assertions of `sat_strategy::check_sat`. -/
def Exec.asserted (st : Exec) : List Assumption := st.bounds ++ st.assumptions

/-- The assumptions hold in an environment. -/
def Holds (env : Env) (as : List Assumption) : Prop := ∀ a ∈ as, a.e.eval env = true

@[simp] theorem holds_append {env : Env} {as bs : List Assumption} :
    Holds env (as ++ bs) ↔ Holds env as ∧ Holds env bs := by
  simp only [Holds, List.mem_append, or_imp, forall_and]

/-- The packet size. -/
def Env.packetsize (env : Env) : ℕ := env.bv "packetsize" 14 % 2 ^ 14

theorem Env.packetsize_lt (env : Env) : env.packetsize < 2 ^ 14 :=
  Nat.mod_lt _ (Nat.two_pow_pos 14)

theorem minBound_eval (st : Exec) (env : Env) :
    (st.minBound "packetsize").e.eval env = true ↔ st.minValue % 2 ^ 14 ≤ env.packetsize := by
  have hvar : (Bvexpr.bvvariable 14 "packetsize").WF := trivial
  rw [Exec.minBound, bvuge_eval env (B := 14) ⟨hvar, rfl⟩ ⟨constant_wf 14 st.minValue, rfl⟩,
    decide_eq_true_iff, constant_eval]
  rfl

theorem maxBound_eval (st : Exec) (env : Env) :
    (st.maxBound "packetsize").e.eval env = true ↔ env.packetsize ≤ st.maxValue % 2 ^ 14 := by
  have hvar : (Bvexpr.bvvariable 14 "packetsize").WF := trivial
  rw [Exec.maxBound, bvule_eval env hvar (constant_wf 14 st.maxValue), decide_eq_true_iff,
    constant_eval]
  rfl

/-- The interval that the solver is given, in the packet size. -/
theorem holds_bounds {st : Exec} (h : st.minimize = some "packetsize") (env : Env) :
    Holds env st.bounds ↔
      st.minValue % 2 ^ 14 ≤ env.packetsize ∧ env.packetsize ≤ st.maxValue % 2 ^ 14 := by
  simp only [Holds, Exec.bounds, h, List.forall_mem_cons, List.not_mem_nil, false_implies,
    implies_true, and_true, minBound_eval, maxBound_eval]

end NfpEstimator
