import Mathlib

/-!
# Histograms

What it is for rows of bounds and counts to be the histogram of some samples, each of which has its bound. A histogram
is built up sample by sample: the next sample has the last bound, or a new one behind, and bounds that no sample has may
stand in between.
-/

namespace NfpEstimator

variable {α β : Type*} [LinearOrder β]

/-- Every sample is counted in the one row that has its bound. -/
structure IsHistogram (key : α → β) (samples : List α) (rows : List (β × ℕ)) : Prop where
  increasing : (rows.map Prod.fst).Pairwise (· < ·)
  counts : ∀ r ∈ rows, r.2 = samples.countP fun v => decide (key v = r.1)
  covered : ∀ v ∈ samples, key v ∈ rows.map Prod.fst

namespace IsHistogram

variable {key : α → β} {samples : List α} {rows : List (β × ℕ)} {t : β} {v : α} {n : ℕ}

theorem nodup (h : IsHistogram key samples rows) : (rows.map Prod.fst).Nodup := h.increasing.imp ne_of_lt

/-- The counts add up to the number of samples. -/
theorem total (h : IsHistogram key samples rows) : (rows.map Prod.snd).sum = samples.length := by
  have hcounts : rows.map Prod.snd = (rows.map Prod.fst).map fun k => (samples.map key).count k := by
    rw [List.map_map]
    refine List.map_congr_left fun r hr => (h.counts r hr).trans ?_
    rw [Function.comp_apply, List.count, List.countP_map]
    exact List.countP_congr fun v _ => by simp
  have hmem : ∀ k ∈ (samples.map key : Multiset β), k ∈ (rows.map Prod.fst).toFinset := by
    intro k hk
    obtain ⟨v, hv, rfl⟩ := List.mem_map.mp (Multiset.mem_coe.mp hk)
    exact List.mem_toFinset.mpr (h.covered v hv)
  have hsum := Multiset.sum_count_eq_card hmem
  rw [List.sum_toFinset _ h.nodup, Multiset.coe_card, List.length_map] at hsum
  simpa only [hcounts, Multiset.coe_count] using hsum

/-- No row is for nothing but a bound that no sample has. -/
theorem key_ne (h : IsHistogram key samples rows) (hrow : (t, 0) ∈ rows) (hv : v ∈ samples) : key v ≠ t := by
  have hnone := List.countP_eq_zero.mp (h.counts _ hrow).symm v hv
  simpa using hnone

/-- The last row has the greatest bound. -/
theorem le_last (h : IsHistogram key samples (rows ++ [(t, n)])) : ∀ r ∈ rows ++ [(t, n)], r.1 ≤ t := by
  have hinc := h.increasing
  rw [List.map_append, List.pairwise_append] at hinc
  intro r hr
  rcases List.mem_append.mp hr with hr | hr
  · exact (hinc.2.2 _ (List.mem_map_of_mem hr) t (List.mem_singleton_self t)).le
  · rw [List.mem_singleton.mp hr]

/-- A bound that no sample has. -/
theorem gap (h : IsHistogram key samples rows) (hlt : ∀ r ∈ rows, r.1 < t) :
    IsHistogram key samples (rows ++ [(t, 0)]) := by
  have hbelow : ∀ k ∈ rows.map Prod.fst, k < t := by
    intro k hk
    obtain ⟨r, hr, rfl⟩ := List.mem_map.mp hk
    exact hlt r hr
  refine ⟨?_, fun r hr => ?_, fun v hv => ?_⟩
  · rw [List.map_append, List.pairwise_append]
    refine ⟨h.increasing, List.pairwise_singleton _ _, fun k hk k' hk' => ?_⟩
    rw [List.mem_singleton.mp hk']
    exact hbelow k hk
  · rcases List.mem_append.mp hr with hr | hr
    · exact h.counts r hr
    · obtain rfl := List.mem_singleton.mp hr
      refine (List.countP_eq_zero.mpr fun v hv => ?_).symm
      have hne : key v ≠ t := ne_of_lt (hbelow _ (h.covered v hv))
      simpa using hne
  · rw [List.map_append]
    exact List.mem_append_left _ (h.covered v hv)

/-- One more sample has the last bound. -/
theorem again (h : IsHistogram key samples (rows ++ [(t, n)])) (hv : key v = t) :
    IsHistogram key (samples ++ [v]) (rows ++ [(t, n + 1)]) := by
  have hkeys (n : ℕ) : (rows ++ [(t, n)]).map Prod.fst = rows.map Prod.fst ++ [t] := by
    rw [List.map_append]
    rfl
  have hinc := h.increasing
  rw [hkeys] at hinc
  refine ⟨by rwa [hkeys], fun r hr => ?_, fun w hw => ?_⟩
  · rw [List.countP_append]
    rcases List.mem_append.mp hr with hr | hr
    · have hlt : r.1 < t :=
        (List.pairwise_append.mp hinc).2.2 _ (List.mem_map_of_mem hr) t (List.mem_singleton_self t)
      rw [← h.counts r (List.mem_append_left _ hr), List.countP_singleton, hv, if_neg (by simpa using ne_of_gt hlt),
        Nat.add_zero]
    · obtain rfl := List.mem_singleton.mp hr
      have hn := h.counts (t, n) (List.mem_append_right _ (List.mem_singleton_self _))
      rw [List.countP_singleton, if_pos (by simpa using hv), ← hn]
  · rw [hkeys]
    rcases List.mem_append.mp hw with hw | hw
    · simpa only [hkeys] using h.covered w hw
    · rw [List.mem_singleton.mp hw, hv]
      exact List.mem_append_right _ (List.mem_singleton_self t)

/-- The first sample that has its bound. -/
theorem next (h : IsHistogram key samples rows) (hlt : ∀ r ∈ rows, r.1 < key v) :
    IsHistogram key (samples ++ [v]) (rows ++ [(key v, 1)]) :=
  (h.gap hlt).again rfl

theorem singleton (key : α → β) (v : α) : IsHistogram key [v] [(key v, 1)] := by
  have hnil : IsHistogram key ([] : List α) [] := ⟨.nil, nofun, nofun⟩
  exact hnil.next nofun

end IsHistogram

end NfpEstimator
