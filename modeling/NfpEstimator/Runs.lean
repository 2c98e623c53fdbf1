import Mathlib

/-!
# Runs of a state machine

A state machine is a function that says what becomes of a state under an action, where the action
can be taken. What every action keeps is kept by every run (`run_invariant`). Where every action
uses up a part of a supply, to which it may also add, the supply bounds the length of a run
(`length_add_le`).
-/

namespace NfpEstimator

namespace Runs

variable {σ α : Type*} {step : σ → α → Option σ} {s s' : σ} {a : α} {as : List α}

/-- A sequence of actions, each of which can be taken where it is. -/
def run (step : σ → α → Option σ) (s : σ) : List α → Option σ
  | [] => some s
  | a :: as => (step s a).bind fun t => run step t as

/-- Some run leads from one state to the other. -/
def Reachable (step : σ → α → Option σ) (s s' : σ) : Prop := ∃ as, run step s as = some s'

theorem run_cons (h : run step s (a :: as) = some s') :
    ∃ t, step s a = some t ∧ run step t as = some s' := Option.bind_eq_some_iff.mp h

/-- What every action keeps. -/
theorem run_invariant {P : σ → Prop} (hstep : ∀ s a t, P s → step s a = some t → P t) (h : P s)
    (hr : run step s as = some s') : P s' := by
  induction as generalizing s with
  | nil => exact Option.some.inj hr ▸ h
  | cons a as ih =>
    obtain ⟨t, ha, hr⟩ := run_cons hr
    exact ih (hstep s a t h ha) hr

/-- Every action uses up a part of what there is, and may add to it. -/
theorem length_add_le {P : σ → Prop} {supply : σ → ℕ} {gain : α → ℕ}
    (hstep : ∀ s a t, P s → step s a = some t → P t ∧ supply t + 1 ≤ supply s + gain a) (h : P s)
    (hr : run step s as = some s') : as.length + supply s' ≤ supply s + (as.map gain).sum := by
  induction as generalizing s with
  | nil =>
    obtain rfl := Option.some.inj hr
    simp
  | cons a as ih =>
    obtain ⟨t, ha, hr⟩ := run_cons hr
    obtain ⟨ht, hle⟩ := hstep s a t h ha
    have := ih ht hr
    rw [List.length_cons, List.map_cons, List.sum_cons]
    omega

end Runs

end NfpEstimator
