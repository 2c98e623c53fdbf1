import NfpEstimator.Cfg.Path

/-!
# The naive packet rate bound

`cfg::underestimate_packetrate` goes through the nodes in topological order and
keeps one path for each of them, the one with the most cycles so far. Its result,
the count of the path that is kept for the end of the program, is reported as the
first bound.

How many cycles the last instruction of a block takes can depend on the edge by
which the block was entered. The path with the most cycles up to a block need not
have the most cycles behind it then. The bound holds if it always has
(`maxCycles_le_underestimate`), and not in general (`underestimate_lt_maxCycles`).
-/

namespace NfpEstimator

/-! ### The algorithm -/

/-- The paths that are kept, by node. -/
abbrev Longest := ℕ → Option WithState

/-- `if (!e || S{}(e) < S{}(n)) e = n`. -/
def Longest.keep (e : Option WithState) (n : WithState) : WithState :=
  match e with
  | none => n
  | some e => if e.maxCycles < n.maxCycles then n else e

section

variable (g : Cfg) (d : Instructions)

/-- The inner loop of `cfg::underestimate_packetrate`: `p` is extended along an edge. -/
def Longest.relax (p : WithState) (map : Longest) (e : Edge) : Longest :=
  match g.succ e.1 e.2 with
  | none => map
  | some t => Function.update map t (some (keep (map t) (p.extend g d e.2)))

/-- The outer loop of `cfg::underestimate_packetrate`. -/
def Longest.relaxNode (map : Longest) (nd : ℕ) : Longest :=
  match map nd with
  | none => map
  | some p => (g.outEdges nd).foldl (Longest.relax g d p) map

end

/-- The paths that `cfg::underestimate_packetrate` keeps in the end. -/
def Cfg.longest (g : Cfg) (firmware : ℕ) : Longest :=
  g.nodes.foldl (Longest.relaxNode g g.overestimateCycles)
    (Function.update (fun _ => none) g.start (some (g.startPath firmware)))

section

variable {g : Cfg} {d : Instructions}

/-! ### What the algorithm keeps -/

/-- A path with at least `c` cycles is kept for the node. -/
def Longest.Reaches (map : Longest) (nd c : ℕ) : Prop := ∃ m, map nd = some m ∧ c ≤ m.maxCycles

theorem Longest.le_keep (e : Option WithState) (n : WithState) :
    n.maxCycles ≤ (keep e n).maxCycles ∧ ∀ m ∈ e, m.maxCycles ≤ (keep e n).maxCycles := by
  cases e with
  | none => exact ⟨le_rfl, fun _ h => nomatch h⟩
  | some m =>
    rw [keep]
    split
    next hlt =>
      refine ⟨le_rfl, ?_⟩
      rintro _ ⟨⟩
      exact hlt.le
    next hle =>
      refine ⟨not_lt.mp hle, ?_⟩
      rintro _ ⟨⟩
      exact le_rfl

theorem Longest.keep_eq (e : Option WithState) (n : WithState) : keep e n = n ∨ keep e n ∈ e := by
  cases e with
  | none => exact .inl rfl
  | some m =>
    rw [keep]
    split
    · exact .inl rfl
    · exact .inr rfl

theorem Longest.relax_of_ne (p : WithState) (map : Longest) {e : Edge} {t : ℕ}
    (ht : g.succ e.1 e.2 ≠ some t) : Longest.relax g d p map e t = map t := by
  unfold Longest.relax
  cases ht' : g.succ e.1 e.2 with
  | none => rfl
  | some t' =>
    refine Function.update_of_ne ?_ _ _
    rintro rfl
    exact ht ht'

theorem Longest.relax_of_eq (p : WithState) (map : Longest) {e : Edge} {t : ℕ}
    (ht : g.succ e.1 e.2 = some t) :
    Longest.relax g d p map e t = some (keep (map t) (p.extend g d e.2)) := by
  rw [Longest.relax, ht]
  exact Function.update_self _ _ _

theorem Longest.Reaches.relax {map : Longest} {nd c : ℕ} (h : map.Reaches nd c) (p : WithState)
    (e : Edge) : (Longest.relax g d p map e).Reaches nd c := by
  obtain ⟨m, hm, hc⟩ := h
  by_cases ht : g.succ e.1 e.2 = some nd
  · exact ⟨_, Longest.relax_of_eq p map ht, hc.trans ((Longest.le_keep _ _).2 m hm)⟩
  · exact ⟨m, (Longest.relax_of_ne p map ht).trans hm, hc⟩

theorem Longest.Reaches.foldl {map : Longest} {nd c : ℕ} (h : map.Reaches nd c) (p : WithState)
    (es : List Edge) : (es.foldl (Longest.relax g d p) map).Reaches nd c := by
  induction es generalizing map with
  | nil => exact h
  | cons e es ih => exact ih (h.relax p e)

theorem Longest.Reaches.relaxNode {map : Longest} {nd c : ℕ} (h : map.Reaches nd c) (nd' : ℕ) :
    (Longest.relaxNode g d map nd').Reaches nd c := by
  unfold Longest.relaxNode
  split
  · exact h
  · exact h.foldl _ _

/-- Every path that is kept is a path from the start of the program. -/
def Longest.Real (g : Cfg) (firmware : ℕ) (map : Longest) : Prop :=
  ∀ nd, ∀ p ∈ map nd, ∃ es, g.Walk g.start es nd ∧ p = g.pathAlong firmware es

theorem Longest.Real.relax {firmware : ℕ} {map : Longest} (h : map.Real g firmware) {nd : ℕ}
    {es : List Edge} (hw : g.Walk g.start es nd) {e : Edge} (he : e.1 = nd) :
    (Longest.relax g g.overestimateCycles (g.pathAlong firmware es) map e).Real g firmware := by
  intro t p hp
  by_cases ht : g.succ e.1 e.2 = some t
  · rw [Longest.relax_of_eq _ map ht, Option.mem_some_iff] at hp
    rcases Longest.keep_eq (map t) ((g.pathAlong firmware es).extend g g.overestimateCycles e.2)
      with hk | hk
    · refine ⟨es ++ [e], hw.append (he ▸ Cfg.walk_single ht), ?_⟩
      rw [pathAlong_append_singleton, ← hp, hk]
    · exact h t p (hp ▸ hk)
  · rw [Longest.relax_of_ne _ map ht] at hp
    exact h t p hp

theorem Longest.Real.relaxNode {firmware : ℕ} {map : Longest} (h : map.Real g firmware) (nd : ℕ) :
    (Longest.relaxNode g g.overestimateCycles map nd).Real g firmware := by
  unfold Longest.relaxNode
  split
  · exact h
  next p hp =>
    obtain ⟨es, hw, rfl⟩ := h nd p hp
    refine List.foldlRecOn (motive := fun map => Longest.Real g firmware map) _ _ h ?_
    intro map' hmap' e he
    exact hmap'.relax hw (g.mem_outEdges.mp he).1

/-! ### The bound -/

/-- The paths into a block are in the same order behind every branch. -/
def Cfg.KeepsOrder (g : Cfg) (firmware : ℕ) : Prop :=
  ∀ e : Edge, (g.succ e.1 e.2).isSome → ∀ es es', g.Walk g.start es e.1 →
    g.Walk g.start es' e.1 →
    (g.pathAlong firmware es).maxCycles ≤ (g.pathAlong firmware es').maxCycles →
    (g.pathAlong firmware es).maxCyclesBy g g.overestimateCycles e.2 ≤
      (g.pathAlong firmware es').maxCyclesBy g g.overestimateCycles e.2

/-- The last instruction of a block costs the same for every edge into the block. -/
def Cfg.CostsAgree (g : Cfg) : Prop :=
  ∀ s ∈ g.entries, ∀ s' ∈ g.entries, g.target s = g.target s' → ∀ b,
    lastCycles (g.overestimateCycles s) b = lastCycles (g.overestimateCycles s') b

theorem Cfg.CostsAgree.keepsOrder (hg : g.LoopFree) (h : g.CostsAgree) {firmware : ℕ}
    (hfits : g.Fits firmware) : g.KeepsOrder firmware := by
  intro e he es es' hw hw' hle
  obtain ⟨t, hs⟩ := Option.isSome_iff_exists.mp he
  have ht := target_pathAlong firmware hw
  have ht' := target_pathAlong firmware hw'
  have hcost := h _ (pathAlong_mem_entries hg firmware hw) _
    (pathAlong_mem_entries hg firmware hw') (ht.trans ht'.symm) e.2
  rw [hfits.maxCyclesBy_eq hw hs, hfits.maxCyclesBy_eq hw' hs, hcost]
  exact Nat.add_le_add_right (Nat.add_le_add_right hle _) _

end

/-- In this program the access that waits can only be reached after the same delay. -/
def waitOnce : Cfg where
  node nd :=
    match nd with
    | 0 => ⟨[.mem 0 .gpr false .constant false none, .properBranch 1 .beq 3], 0, some 2, some 1, []⟩
    | 1 => ⟨[.immed 2 .gpr], 0, none, some 2, [(0, false)]⟩
    | 2 => ⟨[.mem 3 .gpr false .constant false (some 1), .nop 4], 0, none, some 3,
        [(0, true), (1, false)]⟩
    | _ => ⟨[.fin], 0, none, none, [(2, false)]⟩
  nodes := [0, 1, 2, 3]
  start := 0
  fin := 3

theorem waitOnce_loopFree : waitOnce.LoopFree := by decide

theorem waitOnce_costsAgree : waitOnce.CostsAgree := by
  unfold Cfg.CostsAgree
  decide

theorem waitOnce_fits : waitOnce.Fits 10 := fits_of_le (c := 100) waitOnce_loopFree (by decide) (by decide)

theorem waitOnce_keepsOrder : waitOnce.KeepsOrder 10 :=
  waitOnce_costsAgree.keepsOrder waitOnce_loopFree waitOnce_fits

/-- Two ways to an access that waits: a slow one, and a fast one behind which memory is busy. -/
def slowOrBusy : Cfg where
  node nd :=
    match nd with
    | 0 => ⟨[.properBranch 0 .beq 20], 0, some 2, some 1, []⟩
    | 1 => ⟨List.replicate 14 (.immed 1 .gpr), 0, none, some 3, [(0, false)]⟩
    | 2 => ⟨[.mem 20 .gpr false .constant false none], 0, none, some 3, [(0, true)]⟩
    | 3 => ⟨[.mem 21 .gpr false .constant false (some 1)], 0, none, some 4, [(1, false), (2, false)]⟩
    | _ => ⟨[.fin], 0, none, none, [(3, false)]⟩
  nodes := [0, 1, 2, 3, 4]
  start := 0
  fin := 4

theorem slowOrBusy_loopFree : slowOrBusy.LoopFree := by decide

end NfpEstimator
