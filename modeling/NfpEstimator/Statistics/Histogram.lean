import NfpEstimator.Histogram

/-!
# The histogram of the samples

`statistics_print` goes through the sorted samples once. It keeps a threshold, the bound of the bin that is being
counted, and how many samples are in it; a sample above the threshold has the bin printed, an empty bin at either side
of the gap up to its own, and is the first one counted there. For people, there is a scale above, and dots stand for the
samples outside the first and the last percentile.

The bound of a sample is the sample rounded up to a multiple of the bin size. But the first threshold is the first
sample rounded down, and twice the bin size above a threshold may be more than 32 bits.
-/

namespace NfpEstimator

namespace Statistics

/-- Of `statistics_params`. -/
structure Params where
  human : Bool
  cdf : Bool
  binSize : UInt32

/-- What is printed on a line: `print_scale`, `print_dots`, `print_bar`. -/
inductive Line
  | scale
  | dots
  | bar (point : UInt32) (count : ℕ)
  deriving DecidableEq

/-- `p01`, for sorted samples. -/
def p01 (data : List UInt32) : UInt32 :=
  let num := data.length
  let a := if num < 100 then data.getD 0 0 else data.getD (num / 100 + num % 2 - 1) 0
  let b := data.getD (num / 100) 0
  ((a.toUInt64 + b.toUInt64) / 2).toUInt32

/-- `p99`, for sorted samples. -/
def p99 (data : List UInt32) : UInt32 :=
  let num := data.length
  let a := data.getD (num * 99 / 100 + num % 2 - 1) 0
  let b := data.getD (num * 99 / 100) 0
  ((a.toUInt64 + b.toUInt64) / 2).toUInt32

/-- The variables of the loop. -/
structure Progress where
  threshold : UInt32
  count : ℕ
  lines : List Line

variable (p : Params) (data : List UInt32)

/-- A bin is printed; for people, only if it is between the percentiles. -/
def shown (threshold : UInt32) : Bool :=
  !p.human || (threshold + p.binSize > p01 data && threshold ≤ p99 data)

/-- The threshold of the bin that a value belongs to. -/
def nextThreshold (v : UInt32) : UInt32 := ((v - 1) / p.binSize + 1) * p.binSize

/-- `data[i] > threshold` -/
def passThreshold (h : Progress) (v : UInt32) : Progress :=
  let next := nextThreshold p v
  let printed := if shown p data h.threshold then [Line.bar h.threshold h.count] else []
  let count := if p.cdf then h.count else 0
  let after :=
    if !p.human && next > h.threshold + p.binSize then [Line.bar (h.threshold + p.binSize) count] else []
  let before :=
    if !p.human && next > h.threshold + 2 * p.binSize then [Line.bar (next - p.binSize) count] else []
  { threshold := next, count := count, lines := h.lines ++ printed ++ after ++ before }

/-- The body of the loop. -/
def countSample (h : Progress) (v : UInt32) : Progress :=
  let h := if v > h.threshold then passThreshold p data h v else h
  { h with count := h.count + 1 }

/-- What is printed in front of the first bin. -/
def header : List Line :=
  (if p.human then [.scale] else []) ++
    if p.human && data.getD 0 0 + p.binSize ≤ p01 data then [.dots] else []

/-- The histogram that `statistics_print` prints. -/
def histogram : List Line :=
  if p.binSize = 0 then []
  else
    match data with
    | [] => []
    | v :: vs =>
      let start : Progress := { threshold := v / p.binSize * p.binSize, count := 1, lines := header p data }
      let h := vs.foldl (countSample p data) start
      h.lines ++ (if shown p data h.threshold then [.bar h.threshold h.count] else []) ++
        if p.human && data.getLastD 0 > p99 data then [.dots] else []

/-! ### Bounds -/

/-- The plain mode: not for people, not cumulative. -/
def plain (binSize : UInt32) : Params := { human := false, cdf := false, binSize := binSize }

@[simp] theorem plain_human (binSize : UInt32) : (plain binSize).human = false := rfl

@[simp] theorem plain_cdf (binSize : UInt32) : (plain binSize).cdf = false := rfl

@[simp] theorem plain_binSize (binSize : UInt32) : (plain binSize).binSize = binSize := rfl

/-- The sample, rounded up to a multiple of the bin size. -/
def bound (binSize v : UInt32) : ℕ := (v.toNat + binSize.toNat - 1) / binSize.toNat * binSize.toNat

section
variable {binSize v w : UInt32} {s t : ℕ}

theorem dvd_bound (binSize v : UInt32) : binSize.toNat ∣ bound binSize v := Nat.dvd_mul_left _ _

theorem le_bound (hpos : 0 < binSize.toNat) : v.toNat ≤ bound binSize v := by
  have hdiv := Nat.div_add_mod (v.toNat + binSize.toNat - 1) binSize.toNat
  have hmod := Nat.mod_lt (v.toNat + binSize.toNat - 1) hpos
  rw [bound, Nat.mul_comm]
  omega

theorem bound_lt (hpos : 0 < binSize.toNat) : bound binSize v < v.toNat + binSize.toNat := by
  have hle := Nat.div_mul_le_self (v.toNat + binSize.toNat - 1) binSize.toNat
  rw [bound]
  omega

theorem bound_le (hpos : 0 < binSize.toNat) (hdvd : binSize.toNat ∣ t) (hle : v.toNat ≤ t) : bound binSize v ≤ t := by
  obtain ⟨k, rfl⟩ := hdvd
  rw [bound, Nat.mul_comm]
  refine Nat.mul_le_mul_left _ (Nat.lt_succ_iff.mp ((Nat.div_lt_iff_lt_mul hpos).mpr ?_))
  rw [Nat.succ_mul, Nat.mul_comm k]
  omega

/-- Of two multiples, one is next to the other or there is another one in between. -/
theorem next_or_far (hs : binSize.toNat ∣ s) (ht : binSize.toNat ∣ t) (hlt : s < t) :
    t = s + binSize.toNat ∨ s + 2 * binSize.toNat ≤ t := by
  obtain ⟨j, rfl⟩ := hs
  obtain ⟨k, rfl⟩ := ht
  have hjk : j < k := lt_of_mul_lt_mul_left' hlt
  rcases Nat.eq_or_lt_of_le hjk with rfl | hlt'
  · exact .inl (Nat.mul_succ _ _)
  · refine .inr ?_
    have hle := Nat.mul_le_mul_left binSize.toNat hlt'
    rw [Nat.mul_succ, Nat.mul_succ] at hle
    omega

theorem nextThreshold_eq (hpos : 0 < binSize.toNat) (hv : 0 < v.toNat) (hfits : v.toNat + binSize.toNat < 2 ^ 32) :
    (nextThreshold (plain binSize) v).toNat = bound binSize v := by
  have hone : (v - 1).toNat = v.toNat - 1 := UInt32.toNat_sub_of_le _ _ (UInt32.le_iff_toNat_le.mpr hv)
  have hbound : bound binSize v = ((v.toNat - 1) / binSize.toNat + 1) * binSize.toNat := by
    rw [bound, ← Nat.add_div_right _ hpos, show v.toNat - 1 + binSize.toNat = v.toNat + binSize.toNat - 1 by omega]
  have hlt := bound_lt (v := v) hpos
  have hdiv : (v.toNat - 1) / binSize.toNat ≤ v.toNat - 1 := Nat.div_le_self _ _
  have hinner : ((v.toNat - 1) / binSize.toNat + 1) % 2 ^ 32 = (v.toNat - 1) / binSize.toNat + 1 :=
    Nat.mod_eq_of_lt (by omega)
  rw [nextThreshold, UInt32.toNat_mul, UInt32.toNat_add, UInt32.toNat_div, hone]
  change ((v.toNat - 1) / binSize.toNat + 1) % 2 ^ 32 * binSize.toNat % 2 ^ 32 = _
  rw [hinner, ← hbound, Nat.mod_eq_of_lt (by omega)]

end

/-! ### What is printed -/

/-- A bin, if it is one. -/
def Line.bin? : Line → Option (ℕ × ℕ)
  | .bar point count => some (point.toNat, count)
  | _ => none

/-- The bins among the lines. -/
def bins (lines : List Line) : List (ℕ × ℕ) := lines.filterMap Line.bin?

@[simp] theorem bins_append (l l' : List Line) : bins (l ++ l') = bins l ++ bins l' := List.filterMap_append

@[simp] theorem bins_bar (point : UInt32) (count : ℕ) : bins [.bar point count] = [(point.toNat, count)] := rfl

@[simp] theorem bins_if (c : Prop) [Decidable c] (l : List Line) :
    bins (if c then l else []) = if c then bins l else [] := apply_ite bins c l []

section
variable {binSize v : UInt32} {data done : List UInt32} {h : Progress}

theorem countSample_le (hle : v ≤ h.threshold) :
    countSample (plain binSize) data h v = { h with count := h.count + 1 } := by
  rw [countSample, if_neg (UInt32.not_lt.mpr hle)]

/-- The lines that are printed when the threshold is passed, in numbers. -/
theorem countSample_lt (data : List UInt32) (hpos : 0 < binSize.toNat) (hlt : h.threshold < v)
    (hfits : v.toNat + binSize.toNat < 2 ^ 32) (hdvd : binSize.toNat ∣ h.threshold.toNat) :
    let s := h.threshold.toNat
    let t := bound binSize v
    let h' := countSample (plain binSize) data h v
    h'.threshold.toNat = t ∧ h'.count = 1 ∧
      bins h'.lines = bins h.lines ++ [(s, h.count)] ++
        (if s + binSize.toNat < t then [(s + binSize.toNat, 0)] else []) ++
        if s + 2 * binSize.toNat < t ∨ 2 ^ 32 ≤ s + 2 * binSize.toNat then [(t - binSize.toNat, 0)] else [] := by
  intro s t h'
  have hlt' : s < v.toNat := UInt32.lt_iff_toNat_lt.mp hlt
  have hle : v.toNat ≤ t := le_bound hpos
  have ht : t < v.toNat + binSize.toNat := bound_lt hpos
  have hnext : (nextThreshold (plain binSize) v).toNat = t := nextThreshold_eq hpos (by omega) hfits
  have hst : s + binSize.toNat ≤ t := by
    rcases next_or_far hdvd (dvd_bound binSize v) (by omega) with hnear | hfar
    · exact hnear.ge
    · omega
  have hpass : h' = { passThreshold (plain binSize) data h v with
      count := (passThreshold (plain binSize) data h v).count + 1 } := by
    change countSample _ _ _ _ = _
    rw [countSample, if_pos hlt]
  have hafter : (h.threshold + binSize).toNat = s + binSize.toNat := by
    rw [UInt32.toNat_add, Nat.mod_eq_of_lt (by omega)]
  have hbefore : (nextThreshold (plain binSize) v - binSize).toNat = t - binSize.toNat := by
    rw [UInt32.toNat_sub_of_le _ _ (UInt32.le_iff_toNat_le.mpr (by omega)), hnext]
  have hnear : nextThreshold (plain binSize) v > h.threshold + binSize ↔ s + binSize.toNat < t := by
    rw [gt_iff_lt, UInt32.lt_iff_toNat_lt, hafter, hnext]
  have hfar : nextThreshold (plain binSize) v > h.threshold + 2 * binSize ↔
      s + 2 * binSize.toNat < t ∨ 2 ^ 32 ≤ s + 2 * binSize.toNat := by
    -- what is too much for 32 bits is less than the bin size then
    have htwo : (h.threshold + 2 * binSize).toNat = (s + 2 * binSize.toNat % 2 ^ 32) % 2 ^ 32 := by
      rw [UInt32.toNat_add, UInt32.toNat_mul]
      rfl
    rw [gt_iff_lt, UInt32.lt_iff_toNat_lt, htwo, hnext]
    omega
  rw [hpass]
  refine ⟨hnext, rfl, ?_⟩
  simp only [passThreshold, shown, plain_human, plain_cdf, plain_binSize, Bool.not_false, Bool.true_or, Bool.true_and,
    Bool.false_eq_true, decide_eq_true_eq, if_true, if_false, bins_append, bins_bar, bins_if, hnear, hfar, hafter,
    hbefore]
  rfl

/-- The bins that are printed stay. -/
theorem bins_countSample {r : ℕ × ℕ} (p : Params) (v : UInt32) (hr : r ∈ bins h.lines) :
    r ∈ bins (countSample p data h v).lines := by
  rw [countSample]
  split_ifs with hlt
  · simp only [passThreshold, bins_append, List.mem_append]
    exact .inl (.inl (.inl hr))
  · exact hr

theorem mem_bins_countSample (hlt : h.threshold < v) :
    (h.threshold.toNat, h.count) ∈ bins (countSample (plain binSize) data h v).lines := by
  rw [countSample, if_pos hlt]
  simp only [passThreshold, bins_append, List.mem_append]
  exact .inl (.inl (.inr (List.mem_singleton_self _)))

theorem bins_foldl {r : ℕ × ℕ} (p : Params) (vs : List UInt32) (hr : r ∈ bins h.lines) :
    r ∈ bins (vs.foldl (countSample p data) h).lines := by
  induction vs generalizing h with
  | nil => exact hr
  | cons v vs ih => exact ih (bins_countSample p v hr)

/-! ### The run -/

/-- Two samples have bounds one behind the other, and behind these is the end of what 32 bits hold. -/
def Overflows (binSize : UInt32) (samples : List UInt32) : Prop :=
  ∃ v ∈ samples, ∃ w ∈ samples,
    bound binSize w = bound binSize v + binSize.toNat ∧ 2 ^ 32 ≤ bound binSize w + binSize.toNat

theorem Overflows.of_bounds {samples samples' : List UInt32} (hov : Overflows binSize samples)
    (hbounds : ∀ v ∈ samples, ∃ w ∈ samples', bound binSize w = bound binSize v) : Overflows binSize samples' := by
  obtain ⟨v, hv, w, hw, hnext, hend⟩ := hov
  obtain ⟨v', hv', hveq⟩ := hbounds v hv
  obtain ⟨w', hw', hweq⟩ := hbounds w hw
  exact ⟨v', hv', w', hw', by rw [hweq, hveq, hnext], by rwa [hweq]⟩

/-- What holds of the samples so far: what has been counted is their histogram, or some bin has been printed again
without its samples. -/
structure Follows (binSize : UInt32) (done : List UInt32) (h : Progress) : Prop where
  above : ∀ v ∈ done, v ≤ h.threshold
  reached : ∃ v ∈ done, bound binSize v = h.threshold.toNat
  good : ¬Overflows binSize done →
    IsHistogram (bound binSize) done (bins h.lines ++ [(h.threshold.toNat, h.count)])
  bad : Overflows binSize done → ∃ v ∈ done, (bound binSize v, 0) ∈ bins h.lines

theorem Follows.dvd (hf : Follows binSize done h) : binSize.toNat ∣ h.threshold.toNat := by
  obtain ⟨v, -, heq⟩ := hf.reached
  exact heq ▸ dvd_bound binSize v

theorem Follows.bound_le (hf : Follows binSize done h) (hpos : 0 < binSize.toNat) (hv : v ∈ done) :
    bound binSize v ≤ h.threshold.toNat :=
  Statistics.bound_le hpos hf.dvd (UInt32.le_iff_toNat_le.mp (hf.above v hv))

/-- One more sample of the bin. -/
theorem Follows.stay (hf : Follows binSize done h) (hpos : 0 < binSize.toNat) (hsorted : ∀ w ∈ done, w ≤ v)
    (hle : v ≤ h.threshold) : Follows binSize (done ++ [v]) { h with count := h.count + 1 } := by
  obtain ⟨u, hu, hreached⟩ := hf.reached
  have hv : bound binSize v = h.threshold.toNat := by
    refine Nat.le_antisymm (Statistics.bound_le hpos hf.dvd (UInt32.le_iff_toNat_le.mp hle)) ?_
    rw [← hreached]
    refine Statistics.bound_le hpos (dvd_bound binSize v) ?_
    exact (UInt32.le_iff_toNat_le.mp (hsorted u hu)).trans (le_bound hpos)
  have hmem : ∀ w ∈ done ++ [v], ∃ w' ∈ done, bound binSize w' = bound binSize w := by
    intro w hw
    rcases List.mem_append.mp hw with hw | hw
    · exact ⟨w, hw, rfl⟩
    · rw [List.mem_singleton.mp hw, hv]
      exact ⟨u, hu, hreached⟩
  refine ⟨fun w hw => ?_, ⟨u, List.mem_append_left _ hu, hreached⟩, fun hov => ?_, fun hov => ?_⟩
  · rcases List.mem_append.mp hw with hw | hw
    · exact hf.above w hw
    · rwa [List.mem_singleton.mp hw]
  · refine (hf.good fun hov' => hov ?_).again hv
    exact hov'.of_bounds fun w hw => ⟨w, List.mem_append_left _ hw, rfl⟩
  · obtain ⟨w, hw, hrow⟩ := hf.bad (hov.of_bounds hmem)
    exact ⟨w, List.mem_append_left _ hw, hrow⟩

/-- The first sample above the threshold. -/
theorem Follows.pass (hf : Follows binSize done h) (hpos : 0 < binSize.toNat) (hlt : h.threshold < v)
    (hfits : v.toNat + binSize.toNat < 2 ^ 32) :
    Follows binSize (done ++ [v]) (countSample (plain binSize) data h v) := by
  obtain ⟨hthreshold, hcount, hlines⟩ := countSample_lt data hpos hlt hfits hf.dvd
  obtain ⟨u, hu, hreached⟩ := hf.reached
  have hlt' : h.threshold.toNat < v.toNat := UInt32.lt_iff_toNat_lt.mp hlt
  have hle : v.toNat ≤ bound binSize v := le_bound hpos
  have hbound : bound binSize v < v.toNat + binSize.toNat := bound_lt hpos
  have hcases := next_or_far hf.dvd (dvd_bound binSize v) (by omega)
  refine ⟨fun w hw => ?_, ⟨v, by simp, hthreshold.symm⟩, fun hov => ?_, fun hov => ?_⟩
  · rw [UInt32.le_iff_toNat_le, hthreshold]
    rcases List.mem_append.mp hw with hw | hw
    · have hw' := UInt32.le_iff_toNat_le.mp (hf.above w hw)
      omega
    · rwa [List.mem_singleton.mp hw]
  · have hhist := hf.good fun hov' => hov (hov'.of_bounds fun w hw => ⟨w, List.mem_append_left _ hw, rfl⟩)
    have hlast := hhist.le_last
    rw [hlines, hthreshold, hcount]
    rcases hcases with hnear | hfar
    · -- the next bin
      have hno : ¬2 ^ 32 ≤ h.threshold.toNat + 2 * binSize.toNat := fun hend =>
        hov ⟨u, by simp [hu], v, by simp, by rw [hreached, hnear], by omega⟩
      rw [if_neg (by omega), if_neg (by omega), List.append_nil, List.append_nil]
      exact hhist.next fun r hr => (hlast r hr).trans_lt (by omega)
    · have hgap := hhist.gap (t := h.threshold.toNat + binSize.toNat) fun r hr => (hlast r hr).trans_lt (by omega)
      rw [if_pos (by omega)]
      rcases Nat.eq_or_lt_of_le hfar with heq | hfar
      · -- one empty bin in between
        rw [if_neg (by omega), List.append_nil]
        exact hgap.next fun r hr => (hgap.le_last r hr).trans_lt (by omega)
      · rw [if_pos (.inl hfar)]
        have hgap' := hgap.gap (t := bound binSize v - binSize.toNat) fun r hr =>
          (hgap.le_last r hr).trans_lt (by omega)
        exact hgap'.next fun r hr => (hgap'.le_last r hr).trans_lt (by omega)
  · by_cases hov' : Overflows binSize done
    · obtain ⟨w, hw, hrow⟩ := hf.bad hov'
      exact ⟨w, List.mem_append_left _ hw, bins_countSample _ v hrow⟩
    · -- the bin of the threshold is printed again
      have hnear : bound binSize v = h.threshold.toNat + binSize.toNat ∧
          2 ^ 32 ≤ h.threshold.toNat + 2 * binSize.toNat := by
        obtain ⟨w, hw, w', hw', hnext, hend⟩ := hov
        rcases List.mem_append.mp hw with hw | hw <;> rcases List.mem_append.mp hw' with hw' | hw'
        · exact absurd ⟨w, hw, w', hw', hnext, hend⟩ hov'
        · rw [List.mem_singleton.mp hw'] at hnext hend
          have hwle := hf.bound_le hpos hw
          omega
        · have hwle := hf.bound_le hpos hw'
          rw [List.mem_singleton.mp hw] at hnext
          omega
        · rw [List.mem_singleton.mp hw, List.mem_singleton.mp hw'] at hnext
          omega
      refine ⟨u, List.mem_append_left _ hu, ?_⟩
      rw [hlines, hreached]
      refine List.mem_append_right _ ?_
      rw [if_pos (Or.inr hnear.2), hnear.1, Nat.add_sub_cancel]
      exact List.mem_singleton_self _

theorem Follows.step (hf : Follows binSize done h) (hpos : 0 < binSize.toNat) (hsorted : ∀ w ∈ done, w ≤ v)
    (hfits : v.toNat + binSize.toNat < 2 ^ 32) :
    Follows binSize (done ++ [v]) (countSample (plain binSize) data h v) := by
  by_cases hle : v ≤ h.threshold
  · rw [countSample_le hle]
    exact hf.stay hpos hsorted hle
  · exact hf.pass hpos (UInt32.not_le.mp hle) hfits

theorem Follows.run {vs : List UInt32} (hf : Follows binSize done h) (hpos : 0 < binSize.toNat)
    (hsorted : (done ++ vs).Pairwise (· ≤ ·)) (hfits : ∀ v ∈ vs, v.toNat + binSize.toNat < 2 ^ 32) :
    Follows binSize (done ++ vs) (vs.foldl (countSample (plain binSize) data) h) := by
  induction vs generalizing done h with
  | nil => rwa [List.append_nil]
  | cons v vs ih =>
    have hv : ∀ w ∈ done, w ≤ v := fun w hw => (List.pairwise_append.mp hsorted).2.2 w hw v List.mem_cons_self
    have hnext : Follows binSize (done ++ [v]) (countSample (plain binSize) data h v) :=
      hf.step hpos hv (hfits v List.mem_cons_self)
    rw [List.append_cons] at hsorted ⊢
    exact ih hnext hsorted fun w hw => hfits w (List.mem_cons_of_mem v hw)

/-- The first sample is its own bound. -/
theorem Follows.start (hpos : 0 < binSize.toNat) (hdvd : binSize.toNat ∣ v.toNat) :
    Follows binSize [v] { threshold := v / binSize * binSize, count := 1, lines := [] } := by
  have hself : v / binSize * binSize = v := by
    rw [← UInt32.toNat_inj, UInt32.toNat_mul, UInt32.toNat_div, Nat.div_mul_cancel hdvd, Nat.mod_eq_of_lt v.toNat_lt]
  have hbound : bound binSize v = v.toNat := Nat.le_antisymm (Statistics.bound_le hpos hdvd le_rfl) (le_bound hpos)
  rw [hself]
  refine ⟨fun w hw => ?_, ⟨v, List.mem_singleton_self v, hbound⟩, fun _ => ?_, fun hov => ?_⟩
  · rw [List.mem_singleton.mp hw]
    exact UInt32.le_refl v
  · rw [bins, List.filterMap_nil, List.nil_append, ← hbound]
    exact .singleton (bound binSize) v
  · obtain ⟨w, hw, w', hw', hnext, -⟩ := hov
    rw [List.mem_singleton.mp hw, List.mem_singleton.mp hw'] at hnext
    omega

end

/-- Sorted samples, none of which is too big for its bin. -/
structure Samples (binSize : UInt32) where
  data : List UInt32
  nonempty : data ≠ []
  sorted : data.Pairwise (· ≤ ·)
  fits : ∀ v ∈ data, v.toNat + binSize.toNat ≤ 2 ^ 32 - 1
  positive : 1 ≤ binSize.toNat

section
variable {binSize : UInt32}

theorem bins_histogram (hpos : 0 < binSize.toNat) (v : UInt32) (vs : List UInt32) :
    let start : Progress := { threshold := v / binSize * binSize, count := 1, lines := [] }
    let h := vs.foldl (countSample (plain binSize) (v :: vs)) start
    bins (histogram (plain binSize) (v :: vs)) = bins h.lines ++ [(h.threshold.toNat, h.count)] := by
  have hne : (plain binSize).binSize ≠ 0 := by
    rintro rfl
    exact absurd hpos (Nat.lt_irrefl 0)
  rw [histogram, if_neg hne]
  simp [shown, header]

/-- A first sample that is not its own bound is counted below itself. -/
theorem first_row (hpos : 0 < binSize.toNat) {v : UInt32} {vs : List UInt32} (hsorted : (v :: vs).Pairwise (· ≤ ·))
    (hdvd : ¬binSize.toNat ∣ v.toNat) :
    ∃ s < v.toNat, (s, 1) ∈ bins (histogram (plain binSize) (v :: vs)) := by
  have hstart : (v / binSize * binSize).toNat = v.toNat / binSize.toNat * binSize.toNat := by
    have hle := Nat.div_mul_le_self v.toNat binSize.toNat
    have hlt := v.toNat_lt
    rw [UInt32.toNat_mul, UInt32.toNat_div, Nat.mod_eq_of_lt (by omega)]
  have hlt : (v / binSize * binSize).toNat < v.toNat := by
    rw [hstart]
    refine Nat.lt_of_le_of_ne (Nat.div_mul_le_self _ _) fun heq => hdvd ?_
    exact ⟨v.toNat / binSize.toNat, by rw [Nat.mul_comm, heq]⟩
  refine ⟨_, hlt, ?_⟩
  rw [bins_histogram hpos]
  cases vs with
  | nil => exact List.mem_append_right _ (List.mem_singleton_self _)
  | cons w ws =>
    have hvw : v ≤ w := (List.pairwise_cons.mp hsorted).1 w List.mem_cons_self
    have hw : v / binSize * binSize < w :=
      UInt32.lt_iff_toNat_lt.mpr (hlt.trans_le (UInt32.le_iff_toNat_le.mp hvw))
    let start : Progress := { threshold := v / binSize * binSize, count := 1, lines := [] }
    have hrow : (start.threshold.toNat, 1) ∈ bins (countSample (plain binSize) (v :: w :: ws) start w).lines :=
      mem_bins_countSample hw
    exact List.mem_append_left _ (bins_foldl _ ws hrow)

/-- **When the histogram is one**: every sample is counted in the one bin whose bound it is rounded up to, the bounds
increase and the counts add up, if and only if the first sample is a multiple of the bin size, and no two samples have
bounds one behind the other at the end of what 32 bits hold. -/
theorem histogram_iff (s : Samples binSize) :
    (IsHistogram (bound binSize) s.data (bins (histogram (plain binSize) s.data)) ∧
        ((bins (histogram (plain binSize) s.data)).map Prod.snd).sum = s.data.length) ↔
      binSize.toNat ∣ (s.data.head s.nonempty).toNat ∧ ¬Overflows binSize s.data := by
  obtain ⟨data, hne, hsorted, hfits, hpos⟩ := s
  obtain ⟨v, vs, rfl⟩ := List.exists_cons_of_ne_nil hne
  have hfits' : ∀ w ∈ vs, w.toNat + binSize.toNat < 2 ^ 32 := fun w hw =>
    Nat.lt_of_le_of_lt (hfits w (List.mem_cons_of_mem v hw)) (by decide)
  change (IsHistogram _ (v :: vs) (bins (histogram _ (v :: vs))) ∧ _) ↔ binSize.toNat ∣ v.toNat ∧ _
  constructor
  · rintro ⟨hhist, -⟩
    by_cases hdvd : binSize.toNat ∣ v.toNat
    · refine ⟨hdvd, fun hov => ?_⟩
      obtain ⟨w, hw, hrow⟩ := ((Follows.start hpos hdvd).run hpos hsorted hfits').bad hov
      refine hhist.key_ne ?_ hw rfl
      rw [bins_histogram hpos]
      exact List.mem_append_left _ hrow
    · obtain ⟨s, hlt, hrow⟩ := first_row hpos hsorted hdvd
      obtain ⟨w, hw, heq⟩ := List.countP_pos_iff.mp (Nat.lt_of_lt_of_eq Nat.one_pos (hhist.counts _ hrow))
      -- the bound of a sample is not below all of them
      have hvw : v.toNat ≤ w.toNat := by
        rcases List.mem_cons.mp hw with rfl | hw
        · exact le_rfl
        · exact UInt32.le_iff_toNat_le.mp ((List.pairwise_cons.mp hsorted).1 w hw)
      have hle : w.toNat ≤ bound binSize w := le_bound hpos
      have hs : bound binSize w = s := by simpa using heq
      omega
  · rintro ⟨hdvd, hov⟩
    have hhist : IsHistogram (bound binSize) (v :: vs) (bins (histogram (plain binSize) (v :: vs))) := by
      rw [bins_histogram hpos]
      exact ((Follows.start hpos hdvd).run hpos hsorted hfits').good hov
    exact ⟨hhist, hhist.total⟩

/-- The empty bin before `0x80000000` is at `0` again. -/
example : histogram (plain 0x80000000) [0, 1] = [.bar 0 1, .bar 0 0, .bar 0x80000000 1] := by decide

/-- A single sample 5 is counted in the bin 0. -/
theorem histogram_five :
    ¬(IsHistogram (bound 10) [5] (bins (histogram (plain 10) [5])) ∧
        ((bins (histogram (plain 10) [5])).map Prod.snd).sum = [(5 : UInt32)].length) := by
  rintro ⟨h, -⟩
  have hmem : bound 10 5 ∈ (bins (histogram (plain 10) [5])).map Prod.fst := h.covered 5 (List.mem_singleton_self 5)
  revert hmem
  decide

end

end Statistics

end NfpEstimator
