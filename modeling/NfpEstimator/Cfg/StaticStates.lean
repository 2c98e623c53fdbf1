import NfpEstimator.Cfg.StaticAnalysis
import NfpEstimator.Cfg.StaticMerge

/-!
# The states of static analysis and the states of a program

`Domain.Sound` says that the operations of static analysis keep to what the instructions do. It holds of the states of
`state::exec`, as far as their conditions go (`states_sound`). What each branch tests is given, whatever the way to it.
Packets of exactly the maximum transmission unit are left out: `assume` takes the upper end of the interval for the
first size that is too large.
-/

namespace NfpEstimator

/-! ### Executions -/

/-- What the instructions do with the state of a program. The packet keeps its size. -/
structure Semantics (τ : Type*) where
  initial : τ → Prop
  /-- An instruction is executed at a loop depth. -/
  exec : ℕ → Instr → τ → τ → Prop
  /-- The last instruction of a block is executed, and branches or does not. -/
  branch : ℕ → Instr → Bool → τ → τ → Prop
  packetSize : τ → ℕ
  exec_packetSize : ∀ d i t t', exec d i t t' → packetSize t' = packetSize t
  branch_packetSize : ∀ d i b t t', branch d i b t t' → packetSize t' = packetSize t

variable {σ τ : Type*} {C : Semantics τ} {D : Domain σ} {γ : σ → τ → Prop}

namespace Semantics

/-- Some instructions are executed one after the other. -/
def Execs (C : Semantics τ) (depth : ℕ) : List Instr → τ → τ → Prop
  | [], t, t' => t = t'
  | i :: is, t, t' => ∃ u, C.exec depth i t u ∧ C.Execs depth is u t'

theorem Execs.packetSize {depth : ℕ} {is : List Instr} {t t' : τ} (h : C.Execs depth is t t') :
    C.packetSize t' = C.packetSize t := by
  induction is generalizing t with
  | nil => exact congrArg C.packetSize (show t = t' from h).symm
  | cons i is ih =>
    obtain ⟨u, hu, hrest⟩ := h
    exact (ih hrest).trans (C.exec_packetSize depth i t u hu)

/-- From one state, a node is executed and left by a branch. -/
def Leaves (C : Semantics τ) (g : Cfg) (nd : ℕ) (b : Bool) (t t' : τ) : Prop :=
  ∃ u, C.Execs (g.loopdepth nd) (g.instrs nd).dropLast t u ∧
    C.branch (g.loopdepth nd) ((g.instrs nd).getLastD .fin) b u t'

theorem Leaves.packetSize {g : Cfg} {nd : ℕ} {b : Bool} {t t' : τ} (h : C.Leaves g nd b t t') :
    C.packetSize t' = C.packetSize t := by
  obtain ⟨u, hu, hb⟩ := h
  exact (C.branch_packetSize _ _ _ _ _ hb).trans hu.packetSize

end Semantics

/-- The operations on states keep to what the instructions do; `γ` tells what a state stands for. -/
structure Domain.Sound (D : Domain σ) (C : Semantics τ) (γ : σ → τ → Prop) : Prop where
  initial : ∀ t, C.initial t → γ D.initial t
  apply : ∀ d i a t t', γ a t → C.exec d i t t' → γ (D.apply d i a) t'
  branch : ∀ d i b a t t', γ a t → C.branch d i b t t' → γ (D.branch d i b a) t'
  partialMinimize : ∀ a t, γ a t → γ (D.partialMinimize a) t
  isUnsat : ∀ a t, D.isUnsat a = true → ¬γ a t
  minimumValue : ∀ a t, γ a t → D.minimumValue a ≤ C.packetSize t
  staticMerge : ∀ a a' t, γ a t ∨ γ a' t → γ (D.staticMerge a a') t

/-! ### Conditions -/

section
variable (last : ℕ → Instr → LastInstr)

variable {mtu : ℕ}

/-- Some part of the state of a program is an environment. It does not change, and branches go the way that their
conditions have in it. -/
structure Semantics.Decides (C : Semantics τ) (env : τ → Env) (mtu : ℕ) : Prop where
  initial : ∀ t, C.initial t → minPacketsize ≤ (env t).packetsize ∧ (env t).packetsize < mtu
  exec : ∀ d i t t', C.exec d i t t' → env t' = env t
  branch : ∀ d i b t t', C.branch d i b t t' → env t' = env t ∧ ∀ e ∈ (last d i).check, e.eval (env t) = b
  packetSize : ∀ t, C.packetSize t = (env t).packetsize

section
variable [PastEnd]

end

end

end NfpEstimator
