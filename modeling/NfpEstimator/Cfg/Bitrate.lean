import NfpEstimator.Cfg.Underestimate
import NfpEstimator.Cfg.Sizes

/-!
# The naive bit rate bound

`cfg::underestimate_bitrate` goes through the nodes in topological order like
`cfg::underestimate_packetrate`, but keeps one path for each node and packet size. At the
start there is a path for each size of an edge to the final node, and a path is extended
along each edge for all sizes of the edge.

Nothing makes sure that there is a path to be extended. The sizes of an edge out of the
start include the size of the edge itself, also where none of the paths through it ends with
this size (`underestimateBitrate_misses`). The bound can be computed if and only if each
largest size along a walk from the start is also that of a walk to the final node, and each
edge behind a node has a size that can be brought there (`underestimateBitrate_complete_iff`).
-/

namespace NfpEstimator

/-! ### The algorithm -/

/-- The paths that are kept, by node and packet size. -/
abbrev BitrateMap := ℕ × ℕ → Option WithState

section

variable (g : Cfg) (d : Instructions) (minPacketsize : Edge → ℕ)

/-- The path for the node before an edge and a size is extended along the edge. There has to be one. -/
def BitrateMap.extend (map : BitrateMap) (x : Edge × ℕ) : Option BitrateMap := do
  let p ← map (x.1.1, x.2)
  match g.succ x.1.1 x.1.2 with
  | none => some map
  | some t => some (Function.update map (t, x.2) (some (Longest.keep (map (t, x.2)) (p.extend g d x.1.2))))

/-- The edges in the order in which `cfg::underestimate_bitrate` goes through them, with their sizes. -/
def bitrateSteps : List (Edge × ℕ) :=
  g.nodes.flatMap fun nd => (g.outEdges nd).flatMap fun e =>
    (g.edgeSizes minPacketsize e).entries.map fun x => (e, x.1)

end

section

variable (g : Cfg) (firmware : ℕ) (minPacketsize : Edge → ℕ)

/-- The paths to the start before the loop. -/
def BitrateMap.initial : BitrateMap :=
  (g.propagateSizes minPacketsize).entries.foldl
    (fun map x => Function.update map (g.start, x.1) (some (g.startPath firmware))) fun _ => none

/-- The paths that `cfg::underestimate_bitrate` keeps in the end. There are none if an entry that is
to be extended has not been set. -/
def Cfg.bitrateMap : Option BitrateMap :=
  (bitrateSteps g minPacketsize).foldlM (BitrateMap.extend g g.overestimateCycles)
    (.initial g firmware minPacketsize)

/-- `cfg::path::MAX_CYCLES` for a path and a packet size. -/
def cycleratio (p : Option WithState) (size : ℕ) : ℕ × ℕ :=
  match p with
  | none => (0, 2 ^ 32 - 1)
  | some p => (p.maxCycles, size)

/-- `cfg::path::cycleratio::operator<`. -/
def ratioLt (x y : ℕ × ℕ) : Bool := x.1 * y.2 < y.1 * x.2

/-- `cfg::underestimate_bitrate<MAX_CYCLES>`. -/
def Cfg.underestimateBitrate : Option (Option WithState × ℕ) := do
  let map ← g.bitrateMap firmware minPacketsize
  some ((g.propagateSizes minPacketsize).entries.foldl
    (fun m x =>
      if m.1.isNone ∨ ratioLt (cycleratio m.1 m.2) (cycleratio (map (g.fin, x.1)) x.1)
      then (map (g.fin, x.1), x.1) else m)
    (none, 0))

/-- All entries that are extended, and all those that are compared in the end, have been set. -/
def Cfg.BitrateComplete : Prop :=
  ∃ map, g.bitrateMap firmware minPacketsize = some map ∧
    ∀ s ∈ g.propagateSizes minPacketsize, (map (g.fin, s)).isSome

end

/-! ### Which entries are set -/

/-- A loop that may fail comes to its end if and only if none of its steps fails. -/
theorem foldlM_isSome_iff {α σ : Type*} {f : σ → α → Option σ} {init : σ} {inv : List α → σ → Prop}
    {p : α → Prop} (h : inv [] init) {l : List α}
    (hstep : ∀ done x todo, l = done ++ x :: todo → ∀ st, inv done st →
      (∀ st', f st x = some st' → inv (done ++ [x]) st') ∧ ((f st x).isSome ↔ p x)) :
    (∀ st, l.foldlM f init = some st → inv l st) ∧ ((l.foldlM f init).isSome ↔ ∀ x ∈ l, p x) := by
  induction l using List.reverseRecOn with
  | nil => exact ⟨fun st hst => Option.some.inj hst ▸ h, iff_of_true rfl fun _ h => nomatch h⟩
  | append_singleton l x ih =>
    obtain ⟨ihinv, ihall⟩ := ih fun done y todo hl => hstep done y (todo ++ [x]) (by simp [hl])
    have hlast := hstep l x [] rfl
    have happend : (l ++ [x]).foldlM f init = (l.foldlM f init).bind fun st => f st x := by
      simp
    rw [happend]
    constructor
    · intro st hst
      obtain ⟨st₁, hst₁, hst₂⟩ := Option.bind_eq_some_iff.mp hst
      exact (hlast st₁ (ihinv st₁ hst₁)).1 st hst₂
    · rw [List.forall_mem_append, ← ihall, List.forall_mem_singleton]
      cases hl : l.foldlM f init with
      | none => simp
      | some st => simpa using (hlast st (ihinv st hl)).2

section

variable {g : Cfg} {firmware : ℕ} {minPacketsize : Edge → ℕ}

/-- There is a path for the node before the edge and the size. -/
def Supplied (g : Cfg) (minPacketsize : Edge → ℕ) (x : Edge × ℕ) : Prop :=
  x.1.1 = g.start ∧ x.2 ∈ g.propagateSizes minPacketsize ∨
    ∃ e ∈ g.pred x.1.1, x.2 ∈ g.edgeSizes minPacketsize e

/-- Which entries have been set after some steps. -/
def BitrateInv (g : Cfg) (minPacketsize : Edge → ℕ) (done : List (Edge × ℕ)) (map : BitrateMap) :
    Prop :=
  ∀ nd s, (map (nd, s)).isSome ↔ nd = g.start ∧ s ∈ g.propagateSizes minPacketsize ∨
    ∃ e, (e, s) ∈ done ∧ g.succ e.1 e.2 = some nd

theorem bitrateInv_initial : BitrateInv g minPacketsize [] (.initial g firmware minPacketsize) := by
  intro nd s
  have hfold : ∀ (l : List (ℕ × ℕ)) (map : BitrateMap),
      (l.foldl (fun map x => Function.update map (g.start, x.1) (some (g.startPath firmware))) map
        (nd, s)).isSome ↔ (map (nd, s)).isSome ∨ nd = g.start ∧ ∃ x ∈ l, x.1 = s := by
    intro l
    induction l with
    | nil => simp
    | cons x l ih =>
      intro map
      rw [List.foldl_cons, ih, List.exists_mem_cons_iff]
      by_cases heq : (nd, s) = (g.start, x.1)
      · obtain ⟨rfl, rfl⟩ := Prod.mk.inj heq
        simp
      · rw [Function.update_of_ne heq]
        have hne : nd = g.start → x.1 ≠ s := fun h h' => heq (by rw [h, h'])
        tauto
  rw [BitrateMap.initial, hfold, Sparse.mem_iff_exists]
  simp

theorem BitrateInv.step {done : List (Edge × ℕ)} {map : BitrateMap}
    (h : BitrateInv g minPacketsize done map) {x : Edge × ℕ} {t : ℕ}
    (ht : g.succ x.1.1 x.1.2 = some t) (d : Instructions) :
    (∀ map', map.extend g d x = some map' → BitrateInv g minPacketsize (done ++ [x]) map') ∧
      ((map.extend g d x).isSome ↔ (map (x.1.1, x.2)).isSome) := by
  unfold BitrateMap.extend
  rw [ht]
  cases hp : map (x.1.1, x.2) with
  | none => exact ⟨fun _ h => (nomatch h), Iff.rfl⟩
  | some p =>
    refine ⟨?_, Iff.rfl⟩
    rintro _ ⟨⟩ nd s
    by_cases heq : (nd, s) = (t, x.2)
    · obtain ⟨rfl, rfl⟩ := Prod.mk.inj heq
      rw [Function.update_self]
      exact iff_of_true rfl (.inr ⟨x.1, by simp, ht⟩)
    · rw [Function.update_of_ne heq, h nd s]
      refine or_congr_right (exists_congr fun e => and_congr_left fun he => ?_)
      rw [List.mem_append, List.mem_singleton]
      refine ⟨.inl, fun hmem => hmem.resolve_right ?_⟩
      rintro rfl
      exact heq (by rw [Option.some.inj (he.symm.trans ht)])

theorem mem_bitrateSteps {x : Edge × ℕ} : x ∈ bitrateSteps g minPacketsize ↔
    (∃ t, g.LeadsTo x.1 t) ∧ x.2 ∈ g.edgeSizes minPacketsize x.1 := by
  obtain ⟨e, s⟩ := x
  simp only [bitrateSteps, List.mem_flatMap, List.mem_map, Cfg.mem_outEdges, Prod.mk.injEq,
    Cfg.LeadsTo, exists_and_left, Sparse.mem_iff_exists, ← Option.isSome_iff_exists]
  constructor
  · rintro ⟨nd, hnd, e, ⟨rfl, he⟩, x, hx, rfl, rfl⟩
    exact ⟨⟨hnd, he⟩, x.2, hx⟩
  · rintro ⟨⟨hnd, he⟩, n, hn⟩
    exact ⟨e.1, hnd, e, ⟨rfl, he⟩, (s, n), hn, rfl, rfl⟩

/-- The edges into a node come before those out of it. -/
theorem mem_done_of_leadsTo (hg : g.LoopFree) {done todo : List (Edge × ℕ)} {x : Edge × ℕ}
    (hall : bitrateSteps g minPacketsize = done ++ x :: todo) {e : Edge} (he : g.LeadsTo e x.1.1)
    (hs : x.2 ∈ g.edgeSizes minPacketsize e) : (e, x.2) ∈ done := by
  have hpair : (bitrateSteps g minPacketsize).Pairwise fun x y =>
      g.nodes.idxOf x.1.1 ≤ g.nodes.idxOf y.1.1 := by
    rw [bitrateSteps, List.pairwise_flatMap]
    have hsrc : ∀ {nd x}, x ∈ ((g.outEdges nd).flatMap fun e =>
        (g.edgeSizes minPacketsize e).entries.map fun x => (e, x.1)) → x.1.1 = nd := by
      intro nd x hx
      simp only [List.mem_flatMap, List.mem_map, Cfg.mem_outEdges] at hx
      obtain ⟨e, ⟨rfl, -⟩, y, -, rfl⟩ := hx
      rfl
    constructor
    · intro nd _
      refine List.pairwise_of_forall_mem_list fun x hx y hy => ?_
      rw [hsrc hx, hsrc hy]
    · refine (pairwise_idxOf hg.nodup).imp fun hlt x hx y hy => ?_
      rw [hsrc hx, hsrc hy]
      exact hlt.le
  have hin : (e, x.2) ∈ bitrateSteps g minPacketsize := mem_bitrateSteps.mpr ⟨⟨_, he⟩, hs⟩
  rw [hall, List.mem_append] at hin
  refine hin.resolve_right fun hin => ?_
  have hlt := he.forward hg
  rw [hall, List.pairwise_append] at hpair
  rcases List.mem_cons.mp hin with heq | hin
  · rw [← heq] at hlt
    exact lt_irrefl _ hlt
  · exact absurd ((List.pairwise_cons.mp hpair.2.1).1 _ hin) (not_le.mpr hlt)

/-- **All entries that are needed are set if and only if each step finds one.** -/
theorem bitrateComplete_iff (hg : g.LoopFree) : g.BitrateComplete firmware minPacketsize ↔
    ∀ x ∈ bitrateSteps g minPacketsize, Supplied g minPacketsize x := by
  obtain ⟨hinv, hiff⟩ := foldlM_isSome_iff (f := BitrateMap.extend g g.overestimateCycles)
    (l := bitrateSteps g minPacketsize) (p := Supplied g minPacketsize)
    (bitrateInv_initial (g := g)) (by
      intro done x todo hall map h
      have hx : x ∈ bitrateSteps g minPacketsize := by
        rw [hall]
        simp
      obtain ⟨⟨t, hmem, ht⟩, -⟩ := mem_bitrateSteps.mp hx
      obtain ⟨hstep, hsome⟩ := h.step ht g.overestimateCycles
      refine ⟨hstep, hsome.trans ((h x.1.1 x.2).trans (or_congr_right ?_))⟩
      constructor
      · rintro ⟨e, he, hs⟩
        have hin : (e, x.2) ∈ bitrateSteps g minPacketsize := by
          rw [hall]
          exact List.mem_append_left _ he
        obtain ⟨⟨t', he'⟩, hsize⟩ := mem_bitrateSteps.mp hin
        exact ⟨e, (hg.mem_pred_iff hmem).mpr ⟨he'.1, hs⟩, hsize⟩
      · rintro ⟨e, he, hs⟩
        have he := (hg.mem_pred_iff hmem).mp he
        exact ⟨e, mem_done_of_leadsTo hg hall he hs, he.2⟩)
  rw [← hiff]
  constructor
  · rintro ⟨map, hmap, -⟩
    exact Option.isSome_iff_exists.mpr ⟨map, hmap⟩
  · intro hsome
    obtain ⟨map, hmap⟩ := Option.isSome_iff_exists.mp hsome
    refine ⟨map, hmap, fun s hs => ?_⟩
    rw [hinv map hmap g.fin s]
    rw [Cfg.propagateSizes, Sizev.mem_foldl_or] at hs
    obtain ⟨e, he, hs⟩ := hs.resolve_left (Sizev.not_mem_zero s)
    have he := (hg.mem_pred_iff hg.fin_mem).mp he
    exact .inr ⟨e, mem_bitrateSteps.mpr ⟨⟨_, he⟩, hs⟩, he.2⟩

/-! ### Sizes along walks -/

variable {e : Edge} {t s : ℕ}

theorem BackSize.exists_walk (h : BackSize g minPacketsize e s) :
    ∃ es dst, g.Walk e.1 (e :: es) dst ∧ largest minPacketsize (e :: es) = s := by
  induction h with
  | @here e t he => exact ⟨[], t, ⟨rfl, t, he.2, rfl⟩, max_eq_left (Nat.zero_le _)⟩
  | @next e e' s he _ hle ih =>
    obtain ⟨es, dst, hw, rfl⟩ := ih
    exact ⟨e' :: es, dst, ⟨rfl, e'.1, he.2, hw⟩, max_eq_right hle⟩

theorem ProducedSize.exists_walk (h : ProducedSize g minPacketsize e s) (he : g.LeadsTo e t) :
    ∃ src es, src ∈ g.nodes ∧ g.Walk src (es ++ [e]) t ∧ largest minPacketsize (es ++ [e]) = s := by
  induction h generalizing t with
  | @here e _ _ =>
    exact ⟨e.1, [], he.1, ⟨rfl, t, he.2, rfl⟩, max_eq_left (Nat.zero_le _)⟩
  | @next e e' _ s _ he' _ hle ih =>
    obtain ⟨src, es, hsrc, hw, rfl⟩ := ih he'
    refine ⟨src, es ++ [e'], hsrc, hw.append (Cfg.walk_single he.2), ?_⟩
    rw [largest_append _ [e], largest_cons, largest_nil, max_eq_left (Nat.zero_le (minPacketsize e))]
    exact max_eq_left hle

theorem PossibleSize.exists_walk (h : PossibleSize g minPacketsize e s) (he : g.LeadsTo e t) :
    ∃ es, g.Walk g.start (es ++ [e]) t ∧ largest minPacketsize (es ++ [e]) ≤ s := by
  induction h generalizing t with
  | @start e s hstart hb =>
    refine ⟨[], ⟨hstart, t, he.2, rfl⟩, ?_⟩
    rw [List.nil_append, largest_cons, largest_nil, max_eq_left (Nat.zero_le _)]
    exact hb.le
  | @next e e' _ s _ he' _ hle ih =>
    obtain ⟨es, hw, hle'⟩ := ih he'
    refine ⟨es ++ [e'], hw.append (Cfg.walk_single he.2), ?_⟩
    rw [largest_append _ [e], largest_cons, largest_nil, max_eq_left (Nat.zero_le (minPacketsize e))]
    exact max_le hle' hle

/-- The sizes of an edge out of the start. -/
theorem mem_edgeSizes_start (hg : g.LoopFree) (he : g.LeadsTo e t) (hstart : e.1 = g.start) :
    s ∈ g.edgeSizes minPacketsize e ↔ BackSize g minPacketsize e s := by
  rw [mem_edgeSizes hg he]
  constructor
  · rintro (⟨hb, -⟩ | hp)
    · exact hb
    · cases hp with
      | here h => exact .here h
      | next _ he' _ _ =>
        have hpred := (hg.mem_pred_iff he.1).mpr he'
        rw [hstart, hg.pred_start] at hpred
        exact nomatch hpred
  · exact fun hb => .inl ⟨hb, .start hstart hb⟩

/-- The sizes of an edge to the final node. -/
theorem mem_edgeSizes_fin (hg : g.LoopFree) (he : g.LeadsTo e g.fin) :
    s ∈ g.edgeSizes minPacketsize e ↔ ProducedSize g minPacketsize e s := by
  rw [mem_edgeSizes hg he]
  constructor
  · rintro (⟨hb, -⟩ | hp)
    · cases hb with
      | here h => exact .here h
      | next he' hb _ =>
        obtain ⟨t, -, ht⟩ := hb.leadsTo
        rw [he'.inj he, hg.succ_fin] at ht
        cases ht
    · exact hp
  · exact .inr

end

/-- Each largest size along a walk from the start is that of some walk to the final node, and each
size of an edge behind a node can be brought to the node: by a walk from the start that does
not exceed it, or by a walk of which it is the largest size. -/
structure Cfg.SizesMeet (g : Cfg) (minPacketsize : Edge → ℕ) : Prop where
  reaches_fin : ∀ es dst, es ≠ [] → g.Walk g.start es dst → ∃ src es', src ∈ g.nodes ∧ es' ≠ [] ∧
    g.Walk src es' g.fin ∧ largest minPacketsize es' = largest minPacketsize es
  supplied : ∀ e t, g.LeadsTo e t → e.1 ≠ g.start →
    (∃ es, g.Walk g.start es e.1 ∧ largest minPacketsize es ≤ minPacketsize e) ∨
      ∃ src es, src ∈ g.nodes ∧ es ≠ [] ∧ g.Walk src es e.1 ∧
        largest minPacketsize es = minPacketsize e

section

variable {g : Cfg} {minPacketsize : Edge → ℕ} {e : Edge} {t : ℕ}

/-- A walk that is not empty ends with an edge to where it leads. -/
theorem exists_last_edge (hg : g.LoopFree) {src dst : ℕ} {es : List Edge} (hsrc : src ∈ g.nodes)
    (hne : es ≠ []) (hw : g.Walk src es dst) : ∃ es' e, es = es' ++ [e] ∧ g.LeadsTo e dst := by
  rcases hw.last with ⟨rfl, -⟩ | ⟨es', e, rfl, hw', ht⟩
  · exact absurd rfl hne
  · exact ⟨es', e, rfl, hw'.mem hg hsrc, ht⟩

theorem mem_propagateSizes (hg : g.LoopFree) {s : ℕ} : s ∈ g.propagateSizes minPacketsize ↔
    ∃ src es, src ∈ g.nodes ∧ es ≠ [] ∧ g.Walk src es g.fin ∧ largest minPacketsize es = s := by
  rw [Cfg.propagateSizes, Sizev.mem_foldl_or, or_iff_right (Sizev.not_mem_zero s)]
  constructor
  · rintro ⟨e, he, hs⟩
    have he := (hg.mem_pred_iff hg.fin_mem).mp he
    obtain ⟨src, es, hsrc, hw, hs⟩ := ((mem_edgeSizes_fin hg he).mp hs).exists_walk he
    exact ⟨src, es ++ [e], hsrc, by simp, hw, hs⟩
  · rintro ⟨src, es, hsrc, hne, hw, rfl⟩
    obtain ⟨es, e, rfl, he⟩ := exists_last_edge hg hsrc hne hw
    exact ⟨e, (hg.mem_pred_iff hg.fin_mem).mpr he,
      (mem_edgeSizes_fin hg he).mpr (produced_of_walk hg hsrc hw)⟩

/-- **When no entry is missing**: if and only if the sizes meet. -/
theorem underestimateBitrate_complete_iff (g : LoopFreeCfg) (firmware : ℕ)
    (minPacketsize : Edge → ℕ) :
    g.BitrateComplete firmware minPacketsize ↔ g.SizesMeet minPacketsize := by
  have hg := g.loopFree
  rw [bitrateComplete_iff hg]
  constructor
  · intro hall
    refine ⟨fun es dst hne hw => ?_, fun e t he hstart => ?_⟩
    · cases es with
      | nil => exact absurd rfl hne
      | cons e es =>
        obtain ⟨hstart, t, ht, hrest⟩ := hw
        have he : g.LeadsTo e t := ⟨hstart ▸ hg.start_mem, ht⟩
        have hback : BackSize g.toCfg minPacketsize e (largest minPacketsize (e :: es)) :=
          back_of_walk hg he.1 ⟨rfl, t, ht, hrest⟩
        have hs := (mem_edgeSizes_start hg he hstart).mpr hback
        rcases hall (e, _) (mem_bitrateSteps.mpr ⟨⟨t, he⟩, hs⟩) with ⟨-, hs⟩ | ⟨e', he', -⟩
        · exact (mem_propagateSizes hg).mp hs
        · rw [hstart, hg.pred_start] at he'
          exact nomatch he'
    · have hs : minPacketsize e ∈ g.edgeSizes minPacketsize e :=
        (mem_edgeSizes hg he).mpr (.inr (.here he))
      rcases hall (e, _) (mem_bitrateSteps.mpr ⟨⟨t, he⟩, hs⟩) with ⟨h, -⟩ | ⟨e', he', hs'⟩
      · exact absurd h hstart
      have he' := (hg.mem_pred_iff he.1).mp he'
      rcases (mem_edgeSizes hg he').mp hs' with ⟨-, hp⟩ | hp
      · obtain ⟨es, hw, hle⟩ := hp.exists_walk he'
        exact .inl ⟨_, hw, hle⟩
      · obtain ⟨src, es, hsrc, hw, heq⟩ := hp.exists_walk he'
        exact .inr ⟨src, _, hsrc, by simp, hw, heq⟩
  · rintro ⟨hfin, hsupplied⟩ ⟨e, s⟩ hx
    obtain ⟨⟨t, he⟩, hs⟩ := mem_bitrateSteps.mp hx
    have he : g.LeadsTo e t := he
    have hs : s ∈ g.edgeSizes minPacketsize e := hs
    by_cases hstart : e.1 = g.start
    · obtain ⟨es, dst, hw, rfl⟩ := ((mem_edgeSizes_start hg he hstart).mp hs).exists_walk
      rw [hstart] at hw
      exact .inl ⟨hstart, (mem_propagateSizes hg).mpr (hfin _ dst (List.cons_ne_nil _ _) hw)⟩
    rcases exists_pred_or_eq hg he hstart hs with hpred | rfl
    · exact .inr hpred
    have hfound : ∀ {e'}, g.LeadsTo e' e.1 → (BackSize g.toCfg minPacketsize e' (minPacketsize e) ∧
        PossibleSize g.toCfg minPacketsize e' (minPacketsize e) ∨
        ProducedSize g.toCfg minPacketsize e' (minPacketsize e)) →
        Supplied g.toCfg minPacketsize (e, minPacketsize e) :=
      fun he' h => .inr ⟨_, (hg.mem_pred_iff he.1).mpr he', (mem_edgeSizes hg he').mpr h⟩
    rcases hsupplied e t he hstart with ⟨es, hw, hle⟩ | ⟨src, es, hsrc, hne, hw, heq⟩
    · have hne : es ≠ [] := by
        rintro rfl
        exact hstart hw.symm
      obtain ⟨es, e', rfl, he'⟩ := exists_last_edge hg hg.start_mem hne hw
      have hb : BackSize g.toCfg minPacketsize e' (minPacketsize e) :=
        .next he' (.here he) ((le_largest (by simp)).trans hle)
      rw [largest_append] at hle
      exact hfound he' (.inl ⟨hb, possible_of_walk hg hw ((le_max_left _ _).trans hle) hb⟩)
    · obtain ⟨es, e', rfl, he'⟩ := exists_last_edge hg hsrc hne hw
      exact hfound he' (.inr (heq ▸ produced_of_walk hg hsrc hw))

end

/-- A program that needs larger packets from its second block on. -/
def oneCheck : LoopFreeCfg where
  node nd :=
    match nd with
    | 0 => ⟨[.nop 0], 0, none, some 1, []⟩
    | 1 => ⟨[.nop 1], 0, none, some 2, [(0, false)]⟩
    | _ => ⟨[.fin], 0, none, none, [(1, false)]⟩
  nodes := [0, 1, 2]
  start := 0
  fin := 2
  loopFree := by decide

/-- The edge out of the start has the size 60, with which no path ends. -/
theorem underestimateBitrate_misses : ∃ (g : LoopFreeCfg) (minPacketsize : Edge → ℕ),
    ¬g.BitrateComplete 0 minPacketsize := by
  refine ⟨oneCheck, fun e => if e.1 = 0 then 60 else 100, ?_⟩
  rw [bitrateComplete_iff oneCheck.loopFree]
  intro hall
  have hs : 60 ∈ oneCheck.edgeSizes (fun e => if e.1 = 0 then 60 else 100) (0, false) :=
    (mem_edgeSizes oneCheck.loopFree ⟨by decide, rfl⟩).mpr (.inr (.here (t := 1) ⟨by decide, rfl⟩))
  rcases hall ((0, false), 60) (mem_bitrateSteps.mpr ⟨⟨1, by decide, rfl⟩, hs⟩) with ⟨-, h⟩ | ⟨e, h, -⟩
  · rw [Cfg.propagateSizes, Sizev.mem_foldl_or] at h
    obtain ⟨e, he, h⟩ := h.resolve_left (Sizev.not_mem_zero _)
    obtain rfl : e = (1, false) := List.mem_singleton.mp he
    have hle := ((mem_edgeSizes_fin oneCheck.loopFree ⟨by decide, rfl⟩).mp h).le
    exact absurd hle (by decide)
  · exact nomatch h

end NfpEstimator
