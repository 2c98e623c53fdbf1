import Mathlib

/-!
# Values that take effect later

Writes to one place, each with the time at which it takes effect. What the place holds at some time is the value
of the last write that is due (`arrived`); the others are under way. Instead of all of the writes it is enough to
keep the value and what is under way, if writes that come later are not due earlier (`arrived_later`).
-/

namespace NfpEstimator

namespace Due

variable {α : Type*}

/-- The value of the last write that is due. -/
def arrived (ws : List (ℕ × α)) (now : ℕ) : Option α :=
  ((ws.filter fun w => w.1 ≤ now).map Prod.snd).getLast?

/-- The writes that are not due. -/
def underWay (ws : List (ℕ × α)) (now : ℕ) : List (ℕ × α) := ws.filter fun w => now < w.1

/-- Writes that come later are not due earlier. -/
def InOrder (ws : List (ℕ × α)) : Prop := ws.Pairwise fun w w' => w.1 ≤ w'.1

theorem mem_underWay {ws : List (ℕ × α)} {now : ℕ} {w : ℕ × α} :
    w ∈ underWay ws now ↔ w ∈ ws ∧ now < w.1 := by
  simp [underWay]

theorem InOrder.underWay {ws : List (ℕ × α)} (h : InOrder ws) (now : ℕ) : InOrder (underWay ws now) :=
  h.filter _

theorem InOrder.append {ws ws' : List (ℕ × α)} (h : InOrder ws) (h' : InOrder ws')
    (hlt : ∀ w ∈ ws, ∀ w' ∈ ws', w.1 ≤ w'.1) : InOrder (ws ++ ws') :=
  List.pairwise_append.mpr ⟨h, h', hlt⟩

theorem underWay_later (ws : List (ℕ × α)) {now now' : ℕ} (hle : now ≤ now') :
    underWay (underWay ws now) now' = underWay ws now' := by
  rw [underWay, underWay, List.filter_filter]
  refine List.filter_congr fun w _ => ?_
  have hlt : now' < w.1 → now < w.1 := fun h => by omega
  simpa using hlt

theorem underWay_eq_self {ws : List (ℕ × α)} {now : ℕ} (h : ∀ w ∈ ws, now < w.1) : underWay ws now = ws :=
  List.filter_eq_self.mpr fun w hw => decide_eq_true (h w hw)

/-- What is not due yet does not matter. -/
theorem arrived_append {ws ws' : List (ℕ × α)} {now : ℕ} (h : ∀ w ∈ ws', now < w.1) :
    arrived (ws ++ ws') now = arrived ws now := by
  have hnone : (ws'.filter fun w => w.1 ≤ now) = [] :=
    List.filter_eq_nil_iff.mpr fun w hw => by simpa using h w hw
  rw [arrived, List.filter_append, hnone, List.append_nil, arrived]

theorem arrived_eq_none_iff {ws : List (ℕ × α)} {now : ℕ} : arrived ws now = none ↔ ∀ w ∈ ws, now < w.1 := by
  simp [arrived]

theorem mem_of_arrived {ws : List (ℕ × α)} {now : ℕ} {e : α} (h : arrived ws now = some e) :
    ∃ w ∈ ws, w.1 ≤ now ∧ w.2 = e := by
  obtain ⟨w, hw, he⟩ := List.mem_map.mp (List.mem_of_getLast? h)
  obtain ⟨hws, hdue⟩ := List.mem_filter.mp hw
  exact ⟨w, hws, of_decide_eq_true hdue, he⟩

/-- What is due later is what was under way and is due then, behind what was due. -/
theorem filter_later {ws : List (ℕ × α)} (h : InOrder ws) {now now' : ℕ} (hle : now ≤ now') :
    (ws.filter fun w => w.1 ≤ now') =
      (ws.filter fun w => w.1 ≤ now) ++ (underWay ws now).filter fun w => w.1 ≤ now' := by
  induction ws with
  | nil => rfl
  | cons w ws ih =>
    obtain ⟨hw, hws⟩ := List.pairwise_cons.mp h
    by_cases hdue : w.1 ≤ now
    · have hlt : ¬now < w.1 := by omega
      have hdue' : w.1 ≤ now' := by omega
      simp only [underWay] at ih
      simp [underWay, hdue, hdue', hlt, ih hws]
    · have hall : ∀ w' ∈ w :: ws, now < w'.1 := by
        intro w' hw'
        rcases List.mem_cons.mp hw' with rfl | hw'
        · omega
        · have hle := hw w' hw'
          omega
      have hnone : ((w :: ws).filter fun w => w.1 ≤ now) = [] :=
        List.filter_eq_nil_iff.mpr fun w' hw' => by simpa using hall w' hw'
      rw [hnone, underWay_eq_self hall, List.nil_append]

/-- **It is enough to know what was due, and what was under way.** -/
theorem arrived_later {ws : List (ℕ × α)} (h : InOrder ws) {now now' : ℕ} (hle : now ≤ now') :
    arrived ws now' = (arrived (underWay ws now) now').or (arrived ws now) := by
  rw [arrived, filter_later h hle, List.map_append, List.getLast?_append]
  rfl

end Due

end NfpEstimator
