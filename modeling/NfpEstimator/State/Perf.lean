import NfpEstimator.Instr.Basic
import NfpEstimator.State.Exec

/-!
# Cycle counts

What an instruction costs depends on how long ago memory was last accessed and
the condition codes were last written. `state::perf::info` keeps these two
distances. A path is charged twice: `max_cycles` uses distances that hold for
every way to come to an instruction by the same edge, `cycles` uses the
distances along the path itself.

`Dominates` relates the two: it says what has to hold between them for the first
count to stay above the second, and `Dominates.apply` that every instruction
keeps it, as long as the first count does not wrap around.
-/

namespace NfpEstimator

/-- `state::perf::info`. -/
structure Info where
  sincecc : ℕ
  sincemem : ℕ
  deriving DecidableEq, Repr

namespace Info

/-- The default constructor of `state::perf::info`. -/
def default : Info := ⟨0, 0⟩

/-- `state::perf::info::max`. -/
def max : Info := ⟨2 ^ 32 - 1, 2 ^ 32 - 1⟩

/-- `state::perf::info::merge`. -/
def merge (i j : Info) : Info := ⟨min i.sincecc j.sincecc, min i.sincemem j.sincemem⟩

/-- Distances are compared one by one. -/
instance : LE Info := ⟨fun i j => i.sincecc ≤ j.sincecc ∧ i.sincemem ≤ j.sincemem⟩

theorem le_refl (i : Info) : i ≤ i := ⟨le_rfl, le_rfl⟩

theorem le_trans {i j k : Info} (h : i ≤ j) (h' : j ≤ k) : i ≤ k :=
  ⟨Nat.le_trans h.1 h'.1, Nat.le_trans h.2 h'.2⟩

theorem merge_le_left (i j : Info) : i.merge j ≤ i := ⟨min_le_left _ _, min_le_left _ _⟩

theorem merge_le_right (i j : Info) : i.merge j ≤ j := ⟨min_le_right _ _, min_le_right _ _⟩

end Info

/-- `state::perf::cycles`. -/
def perfCycles (n : Instr) (i : Info) (branchtrue : Bool) : ℕ :=
  match n.type with
  | .BRANCH =>
    if branchtrue then
      if i.sincecc > 0 then Instr.branchCostTrueEarly else Instr.branchCostTrue
    else Instr.branchCostFalse
  | .MEM =>
    if !n.waits then n.cycles
    else if i.sincemem ≥ n.maxCycles - n.cycles then n.cycles
    else n.maxCycles - i.sincemem
  | .FIN => 0
  | _ => n.cycles

/-- `state::perf::info::apply`, with the default argument `branchtrue = false`. -/
def Info.apply (i : Info) (n : Instr) : Info :=
  { sincecc := if n.writescc then 0 else wrap32 (i.sincecc + perfCycles n i false)
    sincemem := if n.type = .MEM then 0 else wrap32 (i.sincemem + perfCycles n i false) }

/-- The distances along the path, as `state::exec::apply` takes them. -/
def Exec.info (st : Exec) : Info :=
  ⟨wrap32 (st.sumcycles + 2 ^ 32 - st.lastcc), wrap32 (st.sumcycles + 2 ^ 32 - st.lastmem)⟩

/-- What an instruction is charged along the path. -/
def Exec.cost (st : Exec) (n : Instr) (branchtrue : Bool) : ℕ := perfCycles n st.info branchtrue

/-- What `state::exec::apply` does to the cycle counts. -/
def Exec.elapse (st : Exec) (n : Instr) (i : Info) (branchtrue : Bool) : Exec :=
  let sumcycles := wrap32 (st.sumcycles + st.cost n branchtrue)
  { st with
    summaxcycles := wrap32 (st.summaxcycles + perfCycles n i branchtrue)
    sumcycles := sumcycles
    lastmem := if n.type = .MEM then sumcycles else st.lastmem
    lastcc := if n.writescc then sumcycles else st.lastcc }

/-- What lies back along the path is that far back, if the count has not wrapped around since. -/
theorem Exec.info_eq {st : Exec} (hcc : st.lastcc ≤ st.sumcycles) (hmem : st.lastmem ≤ st.sumcycles)
    (h : st.sumcycles < 2 ^ 32) : st.info = ⟨st.sumcycles - st.lastcc, st.sumcycles - st.lastmem⟩ := by
  have hwrap : ∀ {k}, k ≤ st.sumcycles → wrap32 (st.sumcycles + 2 ^ 32 - k) = st.sumcycles - k := by
    intro k hk
    rw [wrap32, Nat.sub_add_comm hk, Nat.add_mod_right, Nat.mod_eq_of_lt (by omega)]
  rw [Exec.info, hwrap hcc, hwrap hmem]

/-! ### Costs -/

theorem perfCycles_pos {n : Instr} (hf : n.type ≠ .FIN) (i : Info) (b : Bool) :
    0 < perfCycles n i b := by
  unfold perfCycles
  split
  · split
    · split <;> decide
    · decide
  · next hm =>
    have hpos := n.cycles_pos (by simp [hm]) hf
    split
    · exact hpos
    split <;> omega
  · next hfin => exact absurd hfin hf
  · next hb hm hfin => exact n.cycles_pos (fun h => hb h) hf

/-- Taking a branch costs no less than not taking it. -/
theorem perfCycles_false_le (n : Instr) (i : Info) (b : Bool) :
    perfCycles n i false ≤ perfCycles n i b := by
  cases b with
  | false => exact le_rfl
  | true =>
    unfold perfCycles
    split
    · simp only [Bool.false_eq_true, if_false, if_true]
      split <;> decide
    all_goals exact le_rfl

/-! ### Domination -/

/-- The count that uses the distances `i` is above the count along the path, and
stays above it: memory is not less recent for the first count than for the
second, relative to their sums, and condition codes that have just been written
along the path have just been written for the first count. -/
structure Dominates (st : Exec) (i : Info) : Prop where
  lastmem : st.lastmem ≤ st.sumcycles
  lastcc : st.lastcc ≤ st.sumcycles
  cycles : st.sumcycles ≤ st.summaxcycles
  mem : st.lastmem + i.sincemem ≤ st.summaxcycles
  cc : st.lastcc = st.sumcycles → i.sincecc = 0

/-- Smaller distances dominate too. -/
theorem Dominates.mono {st : Exec} {i j : Info} (h : Dominates st i) (hle : j ≤ i) :
    Dominates st j where
  lastmem := h.lastmem
  lastcc := h.lastcc
  cycles := h.cycles
  mem := Nat.le_trans (Nat.add_le_add_left hle.2 _) h.mem
  cc h0 := Nat.le_zero.mp (h.cc h0 ▸ hle.1)

/-- The count that dominates charges an instruction no less, up to its lead. -/
theorem Dominates.cost_le {st : Exec} {i : Info} (h : Dominates st i) (hfits : st.summaxcycles < 2 ^ 32)
    (n : Instr) (b : Bool) : st.sumcycles + st.cost n b ≤ st.summaxcycles + perfCycles n i b := by
  have hcyc := h.cycles
  have hmem := h.mem
  have hlast := h.lastmem
  rw [Exec.cost, Exec.info_eq h.lastcc h.lastmem (by omega)]
  unfold perfCycles
  split
  · split
    · by_cases h0 : st.lastcc = st.sumcycles
      · rw [h.cc h0, h0, Nat.sub_self]
        exact Nat.add_le_add_right hcyc _
      · have hcc := h.lastcc
        rw [if_pos (show st.sumcycles - st.lastcc > 0 by omega)]
        split
        · exact Nat.add_le_add_right hcyc _
        · exact Nat.add_le_add hcyc (by decide)
    · exact Nat.add_le_add_right hcyc _
  · split
    · exact Nat.add_le_add_right hcyc _
    · dsimp only
      split <;> split <;> omega
  · exact hcyc
  · exact Nat.add_le_add_right hcyc _

/-- **Every instruction keeps the domination**, as long as the count that dominates does not wrap around. -/
theorem Dominates.apply {st : Exec} {i : Info} (h : Dominates st i) (n : Instr) (b : Bool)
    (hfits : st.summaxcycles + perfCycles n i b < 2 ^ 32) : Dominates (st.elapse n i b) (i.apply n) := by
  have hle := h.cost_le (by omega) n b
  have hfalse := perfCycles_false_le n i b
  have hlm := h.lastmem
  have hlc := h.lastcc
  have hm := h.mem
  have hmax : wrap32 (st.summaxcycles + perfCycles n i b) = _ := wrap32_of_lt hfits
  have hsum : wrap32 (st.sumcycles + st.cost n b) = _ := wrap32_of_lt (Nat.lt_of_le_of_lt hle hfits)
  refine ⟨?_, ?_, ?_, ?_, ?_⟩
  · simp only [Exec.elapse, hsum]
    split <;> omega
  · simp only [Exec.elapse, hsum]
    split <;> omega
  · simp only [Exec.elapse, hsum, hmax]
    exact hle
  · have hsince := wrap32_le (i.sincemem + perfCycles n i false)
    simp only [Exec.elapse, hsum, hmax, Info.apply]
    split <;> omega
  · simp only [Exec.elapse, hsum, Info.apply]
    split
    · exact fun _ => rfl
    · next hw =>
      -- an instruction that does not write the condition codes takes time
      have hfin : n.type ≠ .FIN := by
        cases n <;> simp [Instr.type, Instr.writescc] at hw ⊢
      have hpos : 0 < st.cost n b := perfCycles_pos hfin st.info b
      omega

end NfpEstimator
