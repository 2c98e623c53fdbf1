import NfpEstimator.Cfg.EnumerateBitrate
import NfpEstimator.Cfg.Transfer

/-!
# Which paths are reported twice by bit rate

When a path is taken out of `cfg::tpathq`, its entry in the table is erased. Where one of its
prefixes still waits in a queue for larger packets, the path comes to the end of the
program once more, is not found in the table, and is reported a second time
(`bitrate_reportsTwice`).

As long as this is not so for any path when it is reported, all reported paths are different
(`bitrate_reportsOnce`). All that is needed of the queues is that a possible path only comes
from one that was possible, along the edge in front of it and under the same packet size.

When the queues have no path left, `cfg::enumerate_by_bitrate` asks for the weight of the one that it has not got before
it notices. What is read there is undefined; here the loop just ends.
-/

namespace NfpEstimator

/-! ### What holds of the possible paths in the queues -/

namespace Mqueues

/-- The possible paths in the queues have the property `P`, and there are queues for the sizes in
`dom` only. -/
structure Within (dom : Slot → Sizev) (P : Slot → ℕ → WithState → List Edge → Prop) (st : Mqueues) :
    Prop where
  mq_sizes : ∀ sl, ∀ s ∈ (st.mq sl).v, s ∈ dom sl
  staging_sizes : ∀ e, ∀ s ∈ (st.staging e).v, s ∈ dom (.edge e)
  mq : ∀ sl s p w es, p ∈ (st.mq sl).q s → p.path = .possible w es → P sl s w es
  staging : ∀ e s p w es, p ∈ (st.staging e).q s → p.path = .possible w es → P (.edge e) s w es

/-- The property `P` goes over to paths that are extended. -/
def Closed (g : Cfg) (d : Instructions) (dom : Slot → Sizev)
    (P : Slot → ℕ → WithState → List Edge → Prop) : Prop :=
  ∀ sl m s w es, sl.nd g ∈ g.nodes → m ∈ g.pred (sl.nd g) → s ∈ dom sl → P (.edge m) s w es →
    P sl s (w.extend g d m.2) (es ++ (w.next g m.2).toList)

/-- The possible paths in a list have the property in whatever queue of the node they are put. -/
def Fit (g : Cfg) (dom : Slot → Sizev) (P : Slot → ℕ → WithState → List Edge → Prop) (nd s : ℕ)
    (q : List SizedPath) : Prop :=
  ∀ p ∈ q, ∀ w es, p.path = .possible w es → ∀ sl, sl.nd g = nd → s ∈ dom sl → P sl s w es

variable {γ : Type*} [LinearOrder γ] {g : Cfg} {d : Instructions} {minPacketsize : Edge → ℕ}
  {S : Option Path → Bool → γ} {sizes : Edge → Sizev} {dom : Slot → Sizev}
  {P : Slot → ℕ → WithState → List Edge → Prop} {st st' : Mqueues}

theorem Within.congr (h : Within dom P st) (hmq : st'.mq = st.mq) (hstaging : st'.staging = st.staging) :
    Within dom P st' := by
  obtain ⟨h₁, h₂, h₃, h₄⟩ := h
  rw [← hmq] at h₁ h₃
  rw [← hstaging] at h₂ h₄
  exact ⟨h₁, h₂, h₃, h₄⟩

theorem Within.answered (h : Within dom P st) : Within dom P st.answered := h.congr rfl rfl

theorem mq_setMq (sl sl' : Slot) (mq : Mpathq) :
    (st.setMq sl mq).mq sl' = if sl' = sl then mq else st.mq sl' := Function.update_apply ..

theorem staging_setStaging (e e' : Edge) (mq : Mpathq) :
    (st.setStaging e mq).staging e' = if e' = e then mq else st.staging e' := Function.update_apply ..

theorem Within.setMq (h : Within dom P st) {sl : Slot} {mq : Mpathq} (hv : ∀ s ∈ mq.v, s ∈ dom sl)
    (hq : ∀ s p w es, p ∈ mq.q s → p.path = .possible w es → P sl s w es) :
    Within dom P (st.setMq sl mq) where
  mq_sizes sl' s hs := by
    rw [mq_setMq] at hs
    split at hs
    next heq => exact heq ▸ hv s hs
    · exact h.mq_sizes sl' s hs
  staging_sizes := h.staging_sizes
  mq sl' s p w es hp hw := by
    rw [mq_setMq] at hp
    split at hp
    next heq => exact heq ▸ hq s p w es hp hw
    · exact h.mq sl' s p w es hp hw
  staging := h.staging

theorem Within.setStaging (h : Within dom P st) {e : Edge} {mq : Mpathq}
    (hv : ∀ s ∈ mq.v, s ∈ dom (.edge e))
    (hq : ∀ s p w es, p ∈ mq.q s → p.path = .possible w es → P (.edge e) s w es) :
    Within dom P (st.setStaging e mq) where
  mq_sizes := h.mq_sizes
  staging_sizes e' s hs := by
    rw [staging_setStaging] at hs
    split at hs
    next heq => exact heq ▸ hv s hs
    · exact h.staging_sizes e' s hs
  mq := h.mq
  staging e' s p w es hp hw := by
    rw [staging_setStaging] at hp
    split at hp
    next heq => exact heq ▸ hq s p w es hp hw
    · exact h.staging e' s p w es hp hw

theorem Within.absorb (h : Within dom P st) (hdom : ∀ e, dom (.edge e) = sizes e) (e : Edge) :
    Within dom P (st.absorb g sizes e) := by
  have happend : ∀ {st₁ : Mqueues}, Within dom P st₁ → ∀ q : ℕ → List SizedPath,
      (∀ s p w es, p ∈ q s → p.path = .possible w es → P (.edge e) s w es) →
      Within dom P (st₁.setMq (.edge e) ((st₁.mq (.edge e)).pushAll q)) := by
    intro st₁ h₁ q hq
    refine h₁.setMq ?_ fun s p w es hp hw => ?_
    · exact h₁.mq_sizes (.edge e)
    · rcases Mpathq.mem_of_mem_pushAll hp hw with hp | hp
      · exact h₁.mq _ s p w es hp hw
      · exact hq s p w es hp hw
  unfold Mqueues.absorb mqtake
  split
  next mq st₁ heq =>
    split at heq
    · obtain ⟨rfl, rfl⟩ := Prod.mk.inj heq
      apply happend
      · refine h.setStaging (fun s hs => ?_) fun s p w es hp => nomatch hp
        rw [hdom]
        exact hs
      · exact h.staging e
    · obtain ⟨rfl, rfl⟩ := Prod.mk.inj heq
      exact happend h _ fun s p w es hp => nomatch hp

theorem Within.deliver (h : Within dom P st) {sl : Slot} {s : ℕ} {q : List SizedPath}
    (hq : Fit g dom P (sl.nd g) s q) : Within dom P (st.deliver g sl q s) := by
  have hpush : ∀ (sl' : Slot) (mq : Mpathq), sl'.nd g = sl.nd g → (∀ s ∈ mq.v, s ∈ dom sl') →
      (∀ s p w es, p ∈ mq.q s → p.path = .possible w es → P sl' s w es) →
      ∀ t p w es, p ∈ (mq.pushAt q s).q t → p.path = .possible w es → P sl' t w es := by
    intro sl' mq hnd hv hmq t p w es hp hw
    have ht : t ∈ mq.v := (mq.pushAt q s).mem_of_mem_q hp
    rcases Mpathq.mem_of_mem_pushAt hp hw with hp' | ⟨rfl, hp'⟩
    · exact hmq t p w es hp' hw
    · exact hq p hp' w es hw sl' hnd (hv t ht)
  unfold Mqueues.deliver mqpushAt
  split
  · have h₁ : Within dom P (st.setStaging (sl.nd g, !sl.branchtrue)
        ((st.staging (sl.nd g, !sl.branchtrue)).pushAt q s)) := by
      apply h.setStaging
      · exact h.staging_sizes _
      · exact hpush (.edge _) _ rfl (h.staging_sizes _) (h.staging _)
    apply h₁.setMq
    · exact h.mq_sizes sl
    · exact hpush sl _ rfl (h.mq_sizes sl) (h.mq sl)
  · apply h.setMq
    · exact h.mq_sizes sl
    · exact hpush sl _ rfl (h.mq_sizes sl) (h.mq sl)

/-! ### The loops -/

theorem qWithLongestPath_spec {nd s : ℕ} {m : Edge}
    (h : st.qWithLongestPath g S nd s = some (m, st')) :
    m ∈ g.pred nd ∧ st'.mq = st.mq ∧ st'.staging = st.staging := by
  unfold qWithLongestPath at h
  dsimp only at h
  split at h
  · exact nomatch h
  next l hl =>
    obtain ⟨rfl, rfl⟩ := Prod.mk.inj (Option.some.inj h)
    refine ⟨?_, rfl, rfl⟩
    have hl : l ∈ g.pred nd := by
      rcases List.mem_append.mp (List.mem_of_find?_eq_some hl) with h | h
      · exact List.mem_of_mem_drop h
      · exact List.mem_of_mem_take h
    have hfold : ∀ (ps : List Edge) (l : Edge), l ∈ g.pred nd → (∀ i ∈ ps, i ∈ g.pred nd) →
        ps.foldl (fun l i => if st.hasFront s i ∧ st.frontCost S s l < st.frontCost S s i then i
          else l) l ∈ g.pred nd := by
      intro ps
      induction ps with
      | nil => exact fun l hl _ => hl
      | cons i ps ih =>
        intro l hl hps
        rw [List.foldl_cons]
        refine ih _ ?_ fun j hj => hps j (List.mem_cons_of_mem _ hj)
        split
        · exact hps i List.mem_cons_self
        · exact hl
    refine hfold _ l hl fun i hi => ?_
    rcases List.mem_append.mp hi with h | h
    · exact List.mem_of_mem_drop h
    · exact List.mem_of_mem_take h

theorem shortestMq_mem {nd : ℕ} {v : Sizev} {pr : Edge} (h : (st.shortestMq g nd v).1 = some pr) :
    pr ∈ g.pred nd := by
  obtain ⟨x, -, hx⟩ := List.exists_of_findSome?_eq_some h
  exact (minElement_spec (Option.filter_eq_some_iff.mp hx).1).1

/-- A path that is taken from an edge and extended. -/
theorem Within.take (h : Within dom P st) (hP : Closed g d dom P) {nd s : ℕ} (hnd : nd ∈ g.nodes)
    {m : Edge} (hm : m ∈ g.pred nd) {p : SizedPath} {r : Mpathq}
    (hp : (st.mq (.edge m)).take s = some (p, r)) (answer : Answer) {q : List SizedPath}
    (hq : Fit g dom P nd s q) :
    Within dom P (st.setMq (.edge m) r) ∧
      Fit g dom P nd s (SizedPath.join q [p.extend g d minPacketsize answer m.2]) := by
  obtain ⟨hmem, hv, hsub⟩ := Mpathq.mem_of_take hp
  constructor
  · refine h.setMq (hv ▸ h.mq_sizes _) fun t x w es hx hw => ?_
    exact h.mq _ t x w es (hsub t x hx) hw
  · intro x hx w es hw sl hsl hs
    rcases SizedPath.mem_of_mem_join hx hw with hx | hx
    · exact hq x hx w es hw sl hsl hs
    · obtain rfl := List.mem_singleton.mp hx
      obtain ⟨w', es', hp', rfl, rfl⟩ := SizedPath.possible_of_extend hw
      subst hsl
      exact hP sl m s w' es' hnd hm hs (h.mq _ s p w' es' hmem hp')

theorem Within.fillLoop (hP : Closed g d dom P) {nd s sk : ℕ} (hnd : nd ∈ g.nodes) {fuel i : ℕ}
    {q q' : List SizedPath} (h : Within dom P st) (hq : Fit g dom P nd s q)
    (hrun : fillLoop g d minPacketsize S nd s sk fuel i q st = some (q', st')) :
    Within dom P st' ∧ Fit g dom P nd s q' := by
  induction fuel generalizing i q st with
  | zero =>
    unfold Mqueues.fillLoop at hrun
    split at hrun
    · exact nomatch hrun
    · obtain ⟨rfl, rfl⟩ := Prod.mk.inj (Option.some.inj hrun)
      exact ⟨h, hq⟩
  | succ fuel ih =>
    unfold Mqueues.fillLoop at hrun
    split at hrun
    · obtain ⟨⟨m, st₁⟩, hm, hrun⟩ := Option.bind_eq_some_iff.mp hrun
      obtain ⟨⟨p, r⟩, hp, hrun⟩ := Option.bind_eq_some_iff.mp hrun
      obtain ⟨hmem, hmq, hstaging⟩ := qWithLongestPath_spec hm
      obtain ⟨h₁, hq₁⟩ := (h.congr hmq hstaging).take hP hnd hmem hp (st₁.answers 0) hq
      exact ih h₁.answered hq₁ hrun
    · obtain ⟨rfl, rfl⟩ := Prod.mk.inj (Option.some.inj hrun)
      exact ⟨h, hq⟩

/-- What each round of a loop over a list keeps is kept by the loop. -/
theorem foldlM_keeps {α σ : Type*} {f : σ → α → Option σ} {Q : σ → Prop} {l : List α}
    (hf : ∀ a ∈ l, ∀ st st', Q st → f st a = some st' → Q st') {st st' : σ} (hst : Q st)
    (h : l.foldlM f st = some st') : Q st' := by
  induction l generalizing st with
  | nil => exact Option.some.inj h ▸ hst
  | cons a l ih =>
    rw [List.foldlM_cons] at h
    obtain ⟨st₁, h₁, h₂⟩ := Option.bind_eq_some_iff.mp h
    exact ih (fun b hb => hf b (List.mem_cons_of_mem _ hb)) (hf a List.mem_cons_self st st₁ hst h₁) h₂

theorem fit_nil {nd s : ℕ} : Fit g dom P nd s [] := fun _ hp => nomatch hp

theorem Within.fill (hP : Closed g d dom P) {e : Frame} (hnd : e.slot.nd g ∈ g.nodes)
    (h : Within dom P st) (hrun : fill g d minPacketsize S e st = some st') : Within dom P st' := by
  refine foldlM_keeps (fun x _ st st' h hrun => ?_) h hrun
  obtain ⟨⟨q, st₁⟩, hq, hrun⟩ := Option.bind_eq_some_iff.mp hrun
  obtain ⟨h₁, hq⟩ := Within.fillLoop hP hnd h fit_nil hq
  exact Option.some.inj hrun ▸ h₁.deliver hq

variable (hg : g.LoopFree) (hdom : ∀ e, dom (.edge e) = sizes e)
include hg hdom

theorem Within.nextKLoop (hP : Closed g d dom P) {fuel : ℕ} {e : Frame} {stack : List Frame}
    (hnd : ∀ f ∈ e :: stack, f.slot.nd g ∈ g.nodes) (h : Within dom P st)
    (hrun : nextKLoop g d minPacketsize S sizes fuel e stack st = some st') : Within dom P st' := by
  induction fuel generalizing e stack st with
  | zero => exact nomatch hrun
  | succ fuel ih =>
    obtain ⟨he, hstack⟩ := List.forall_mem_cons.mp hnd
    unfold Mqueues.nextKLoop at hrun
    dsimp only at hrun
    split at hrun
    · obtain ⟨pr, hpr, hrun⟩ := Option.bind_eq_some_iff.mp hrun
      refine ih (List.forall_mem_cons.mpr ⟨?_, hnd⟩) (h.absorb hdom pr) hrun
      exact (hg.pred_succ _ he pr (shortestMq_mem hpr)).1
    · obtain ⟨st₁, hfill, hrun⟩ := Option.bind_eq_some_iff.mp hrun
      have h₁ := Within.fill hP he h hfill
      cases stack with
      | nil => exact Option.some.inj hrun ▸ h₁
      | cons e stack => exact ih hstack h₁ hrun

/-- **`cfg::next_k` keeps the property**, and the paths that it returns have it. -/
theorem Within.nextK (hP : Closed g d dom P) {fuel : ℕ} {k : Sizev} (hk : ∀ s ∈ k, s ∈ dom .output)
    {mq : Mpathq} (h : Within dom P st)
    (hrun : nextK g d minPacketsize S sizes fuel k st = some (mq, st')) :
    Within dom P st' ∧ ∀ s p w es, p ∈ mq.q s → p.path = .possible w es → P .output s w es := by
  obtain ⟨st₁, hloop, hrun⟩ := Option.bind_eq_some_iff.mp hrun
  obtain ⟨rfl, rfl⟩ := Prod.mk.inj (Option.some.inj hrun)
  have h₀ : Within dom P (st.setMq .output (.ofSizes k)) :=
    h.setMq hk fun s p w es hp => nomatch hp
  have hnd : ∀ f ∈ [Frame.mk .output k], f.slot.nd g ∈ g.nodes :=
    List.forall_mem_singleton.mpr hg.fin_mem
  have h₁ := Within.nextKLoop hg hdom hP hnd h₀ hloop
  refine ⟨h₁.setMq ?_ ?_, fun s p w es hp hw => h₁.mq _ s p w es hp hw⟩
  · exact fun s hs => absurd hs (Sizev.not_mem_zero s)
  · exact fun s p w es hp => nomatch hp

omit hg hdom in
theorem Within.mimpossibleLoop (hP : Closed g d dom P) {nd s : ℕ} (hnd : nd ∈ g.nodes) {fuel : ℕ}
    {q q' : List SizedPath} (h : Within dom P st) (hq : Fit g dom P nd s q)
    (hrun : mimpossibleLoop g d minPacketsize S nd s fuel q st = some (q', st')) :
    Within dom P st' ∧ Fit g dom P nd s q' := by
  induction fuel generalizing q st with
  | zero => exact nomatch hrun
  | succ fuel ih =>
    unfold Mqueues.mimpossibleLoop at hrun
    split at hrun
    · obtain ⟨rfl, rfl⟩ := Prod.mk.inj (Option.some.inj hrun)
      exact ⟨h, hq⟩
    · obtain ⟨⟨m, st₁⟩, hm, hrun⟩ := Option.bind_eq_some_iff.mp hrun
      obtain ⟨⟨p, r⟩, hp, hrun⟩ := Option.bind_eq_some_iff.mp hrun
      obtain ⟨hmem, hmq, hstaging⟩ := qWithLongestPath_spec hm
      have h₁ := h.congr hmq hstaging
      dsimp only at hrun
      split at hrun
      · obtain ⟨rfl, rfl⟩ := Prod.mk.inj (Option.some.inj hrun)
        exact ⟨h₁.answered, hq⟩
      · obtain ⟨h₂, hq₂⟩ := h₁.take hP hnd hmem hp (st₁.answers 1) hq
        exact ih h₂.answered.answered hq₂ hrun

/-- **`cfg::push_mimpossible` keeps the property.** -/
theorem Within.pushMimpossible (hP : Closed g d dom P) {fuel : ℕ} (h : Within dom P st)
    (hrun : pushMimpossible g d minPacketsize S sizes fuel st = some st') : Within dom P st' := by
  refine foldlM_keeps (fun nd hnd st st' h hrun => ?_) h hrun
  refine foldlM_keeps (fun pr hpr st st' h hrun => ?_) h hrun
  refine foldlM_keeps (fun x _ st st' h hrun => ?_) (h.absorb hdom pr) hrun
  obtain ⟨⟨q, st₁⟩, hq, hrun⟩ := Option.bind_eq_some_iff.mp hrun
  obtain ⟨h₁, hq⟩ := Within.mimpossibleLoop hP (hg.pred_succ _ hnd pr hpr).1 h fit_nil hq
  exact Option.some.inj hrun ▸ h₁.deliver hq

end Mqueues

/-! ### The paths that have come to the end -/

namespace Tpathq

theorem emplace_perm {α : Type*} (r : Ratio) (x : α) (l : List (Ratio × α)) :
    (emplace r x l).Perm ((r, x) :: l) := by
  refine List.perm_middle.trans ?_
  rw [List.takeWhile_append_dropWhile]

/-- The possible paths among those that have not been taken. -/
def possibles (q : List (Ratio × SizedPath × Bool)) : List (List Edge) :=
  q.filterMap fun y => y.2.1.edges

theorem possibles_cons (y : Ratio × SizedPath × Bool) (q : List (Ratio × SizedPath × Bool)) :
    possibles (y :: q) = y.2.1.edges.toList ++ possibles q := by
  cases hes : y.2.1.edges with
  | none => exact List.filterMap_cons_none hes
  | some es => exact List.filterMap_cons_some hes

theorem possibles_append (q r : List (Ratio × SizedPath × Bool)) :
    possibles (q ++ r) = possibles q ++ possibles r := List.filterMap_append ..

theorem possibles_emplace (r : Ratio) (p : SizedPath) (decided : Bool)
    (q : List (Ratio × SizedPath × Bool)) :
    (possibles (emplace r (p, decided) q)).Perm (p.edges.toList ++ possibles q) := by
  rw [← possibles_cons (r, p, decided)]
  exact (emplace_perm r (p, decided) q).filterMap _

theorem mem_possibles {q : List (Ratio × SizedPath × Bool)} {es : List Edge} :
    es ∈ possibles q ↔ ∃ y ∈ q, ∃ w, y.2.1.path = .possible w es := by
  simp only [possibles, List.mem_filterMap, SizedPath.edges_eq_some]

/-- The possible paths that have been reported, and those that have not been taken, are all different.
The latter are in the table. -/
structure Once (g : Cfg) (firmware : ℕ) (out : Sizev) (R : List (List Edge)) (tq : Tpathq) :
    Prop where
  sizes : tq.sizes = out
  nodup : (R ++ possibles tq.q).Nodup
  known : ∀ y ∈ tq.q, ∀ w es, y.2.1.path = .possible w es → ∃ x ∈ tq.pathes, x.1 = y.2.1.path
  along : ∀ y ∈ tq.q, ∀ w es, y.2.1.path = .possible w es → w = g.pathAlong firmware es

variable {g : Cfg} {firmware : ℕ} {out : Sizev} {R R' : List (List Edge)} {tq tq' : Tpathq}
  {p : SizedPath}

/-- Only the paths in the queue and in the table matter. -/
theorem Once.congr (h : Once g firmware out R tq) (hsizes : tq'.sizes = tq.sizes) (hq : tq'.q = tq.q)
    (hpathes : tq'.pathes = tq.pathes) : Once g firmware out R tq' := by
  obtain ⟨h₀, h₁, h₂, h₃⟩ := h
  rw [← hsizes] at h₀
  rw [← hq] at h₁
  rw [← hq, ← hpathes] at h₂
  rw [← hq] at h₃
  exact ⟨h₀, h₁, h₂, h₃⟩

theorem Once.mono (h : Once g firmware out R tq) (hR : R'.Sublist R) : Once g firmware out R' tq :=
  ⟨h.sizes, h.nodup.sublist (hR.append_right _), h.known, h.along⟩

theorem Once.push (h : Once g firmware out R tq) (same : Bool)
    (hp : ∀ w es, p.path = .possible w es → w = g.pathAlong firmware es ∧ es ∉ R) :
    Once g firmware out R (tq.push same p) := by
  unfold Tpathq.push
  split
  · exact h
  next hnew =>
    have hperm := emplace_perm p.ratio (p, p.decided) tq.q
    refine ⟨h.sizes, ?_, fun y hy w es hw => ?_, fun y hy w es hw => ?_⟩
    · refine ((possibles_emplace p.ratio p p.decided tq.q).append_left R).nodup_iff.mpr ?_
      cases hes : p.edges with
      | none => exact h.nodup
      | some es =>
        obtain ⟨w, hw⟩ := SizedPath.edges_eq_some.mp hes
        obtain ⟨hwes, hR⟩ := hp w es hw
        refine List.nodup_middle.mpr (List.nodup_cons.mpr ⟨fun hmem => ?_, h.nodup⟩)
        -- a path of the queue with these edges would be found in the table
        obtain ⟨y, hy, w', hw'⟩ := mem_possibles.mp ((List.mem_append.mp hmem).resolve_left hR)
        obtain ⟨x, hx, hxp⟩ := h.known y hy w' es hw'
        refine hnew ?_
        rw [Tpathq.known, hw, Path.isUnsat, Bool.not_true, Bool.not_false, Bool.or_true,
          Bool.and_true, List.any_eq_true]
        exact ⟨x, hx, decide_eq_true (by rw [hxp, hw', hwes, h.along y hy w' es hw'])⟩
    · rcases List.mem_cons.mp (hperm.mem_iff.mp hy) with rfl | hy
      · exact ⟨_, List.mem_cons_self, rfl⟩
      · obtain ⟨x, hx, hxy⟩ := h.known y hy w es hw
        exact ⟨x, List.mem_cons_of_mem _ hx, hxy⟩
    · rcases List.mem_cons.mp (hperm.mem_iff.mp hy) with rfl | hy
      · exact (hp w es hw).1
      · exact h.along y hy w es hw

theorem Once.pushSize (h : Once g firmware out R tq) (same : ℕ → Bool) (s : ℕ) {ps : List SizedPath}
    (hps : ∀ p ∈ ps, ∀ w es, p.path = .possible w es → w = g.pathAlong firmware es ∧ es ∉ R) :
    Once g firmware out R (tq.pushSize same s ps) := by
  induction ps generalizing tq same with
  | nil => exact h
  | cons p ps ih =>
    obtain ⟨hp, hps⟩ := List.forall_mem_cons.mp hps
    have h₁ : Once g firmware out R
        { tq with limits := Function.update tq.limits s (p.path.maxCycles, s) } := h.congr rfl rfl rfl
    exact ih (h₁.push (same 0) hp) _ hps

/-- What comes out of the queues is put in. -/
theorem Once.pushAll (h : Once g firmware out R tq) (same : ℕ → ℕ → Bool) {mq : Mpathq}
    (hmq : ∀ s, ∀ p ∈ mq.q s, ∀ w es, p.path = .possible w es →
      w = g.pathAlong firmware es ∧ es ∉ R) : Once g firmware out R (tq.pushAll same mq) := by
  have hfold : ∀ (l : List (ℕ × ℕ)) (tq : Tpathq), Once g firmware out R tq →
      Once g firmware out R (l.foldl (fun tq x =>
        let tq := tq.pushSize (same x.1) x.1 (mq.q x.1)
        { tq with limit := if ratioLt tq.limit (tq.limits x.1) then tq.limits x.1 else tq.limit })
        tq) := by
    intro l
    induction l with
    | nil => exact fun tq h => h
    | cons x l ih => exact fun tq h => ih _ ((h.pushSize (same x.1) x.1 (hmq x.1)).congr rfl rfl rfl)
  exact hfold _ _ (h.congr rfl rfl rfl)

theorem Once.take (h : Once g firmware out R tq) (hp : tq.takeLowestBitrate = some (p, tq')) :
    Once g firmware out (R ++ p.edges.toList) tq' := by
  unfold takeLowestBitrate at hp
  split at hp
  · exact nomatch hp
  next r p' decided q hq =>
    split at hp
    · exact nomatch hp
    split at hp
    · exact nomatch hp
    obtain ⟨rfl, rfl⟩ := Prod.mk.inj (Option.some.inj hp)
    have hnodup := h.nodup
    rw [hq, possibles_cons, ← List.append_assoc] at hnodup
    have hsub : ∀ y ∈ q, y ∈ tq.q := fun y hy => hq ▸ List.mem_cons_of_mem _ hy
    refine ⟨h.sizes, hnodup, fun y hy w es hw => ?_, fun y hy => h.along y (hsub y hy)⟩
    obtain ⟨x, hx, hxy⟩ := h.known y (hsub y hy) w es hw
    refine ⟨x, ?_, hxy⟩
    refine (List.mem_eraseP_of_neg ?_).mpr hx
    -- another path of the queue has other edges
    intro heq
    have hp' : p'.path = .possible w es := (of_decide_eq_true heq).symm.trans (hxy.trans hw)
    rw [SizedPath.edges_eq_some.mpr ⟨w, hp'⟩] at hnodup
    exact (List.nodup_append.mp hnodup).2.2 es (by simp) es (mem_possibles.mpr ⟨y, hy, w, hw⟩) rfl

theorem Once.takeUndecided (h : Once g firmware out R tq) (hp : tq.takeUndecided = some (p, tq')) :
    Once g firmware out R tq' := by
  unfold Tpathq.takeUndecided at hp
  split at hp
  · exact nomatch hp
  · split at hp
    · exact nomatch hp
    · obtain ⟨rfl, rfl⟩ := Prod.mk.inj (Option.some.inj hp)
      exact h.congr rfl rfl rfl

/-- The possible paths are some of those before, and the table has the same keys. -/
theorem Once.of_subperm (h : Once g firmware out R tq) (hsizes : tq'.sizes = tq.sizes)
    (hperm : (possibles tq'.q).Subperm (possibles tq.q))
    (hmem : ∀ y ∈ tq'.q, ∀ w es, y.2.1.path = .possible w es → ∃ y' ∈ tq.q, y'.2.1.path = y.2.1.path)
    (hpathes : ∀ x ∈ tq.pathes, ∃ x' ∈ tq'.pathes, x'.1 = x.1) : Once g firmware out R tq' := by
  obtain ⟨l, hl, hsub⟩ := (List.subperm_append_left R).mpr hperm
  refine ⟨hsizes.trans h.sizes, hl.nodup_iff.mp (h.nodup.sublist hsub), fun y hy w es hw => ?_,
    fun y hy w es hw => ?_⟩
  · obtain ⟨y', hy', heq⟩ := hmem y hy w es hw
    obtain ⟨x, hx, hxy⟩ := h.known y' hy' w es (heq.trans hw)
    obtain ⟨x', hx', heq'⟩ := hpathes x hx
    exact ⟨x', hx', heq'.trans (hxy.trans heq)⟩
  · obtain ⟨y', hy', heq⟩ := hmem y hy w es hw
    exact h.along y' hy' w es (heq.trans hw)

theorem edges_check_sublist (answer : Answer) (p : SizedPath) :
    (p.check answer).edges.toList.Sublist p.edges.toList := by
  cases hes : (p.check answer).edges with
  | none => exact List.nil_sublist _
  | some es =>
    obtain ⟨w, hw⟩ := SizedPath.edges_eq_some.mp hes
    rw [SizedPath.edges_eq_some.mpr ⟨w, SizedPath.path_check hw⟩]

/-- A path that is moved is not put in a second time. -/
theorem Once.adjustSize (h : Once g firmware out R tq) (answer : Answer)
    (hp : tq.adjustSize p (p.check answer) = some tq') : Once g firmware out R tq' := by
  obtain ⟨⟨_, r⟩, -, hp⟩ := Option.bind_eq_some_iff.mp hp
  dsimp only at hp
  generalize hother : (fun y : Ratio × SizedPath × Bool =>
    ratioLt y.1 r || ratioLt r y.1 || y.2.1.path != p.path || y.2.2) = other at hp
  split at hp
  · exact nomatch hp
  next y rest hy =>
    have hq : tq.q = tq.q.takeWhile other ++ y :: rest := by
      rw [← hy, List.takeWhile_append_dropWhile]
    have hpath : y.2.1.path = p.path := by
      have hfalse : other y = false := by
        have hne : tq.q.dropWhile other ≠ [] := by simp [hy]
        have hhead := List.head_dropWhile_not other hne
        simpa [hy] using hhead
      simp only [← hother, Bool.or_eq_false_iff, bne_eq_false_iff_eq] at hfalse
      exact hfalse.1.2
    have hedges : y.2.1.edges = p.edges := by rw [SizedPath.edges, SizedPath.edges, hpath]
    generalize tq.q.takeWhile other = as at hq hp
    have hposs : possibles tq.q = possibles as ++ (p.edges.toList ++ possibles rest) := by
      rw [hq, possibles_append, possibles_cons, hedges]
    split at hp
    · obtain rfl := Option.some.inj hp
      refine h.of_subperm rfl ?_ (fun z hz w es hw => ?_) fun x hx => ⟨x, hx, rfl⟩
      · have hsame : possibles (as ++ (y.1, { p with decided := true }, true) :: rest) =
            possibles tq.q := by
          rw [hposs, possibles_append, possibles_cons]
          rfl
        exact hsame ▸ List.Subperm.refl _
      · rw [hq]
        rcases List.mem_append.mp hz with hz | hz
        · exact ⟨z, List.mem_append_left _ hz, rfl⟩
        rcases List.mem_cons.mp hz with rfl | hz
        · exact ⟨y, List.mem_append_right _ List.mem_cons_self, hpath⟩
        · exact ⟨z, List.mem_append_right _ (List.mem_cons_of_mem _ hz), rfl⟩
    · obtain rfl := Option.some.inj hp
      have hperm := emplace_perm (p.check answer).ratio (p.check answer, true) (as ++ rest)
      refine h.of_subperm rfl ?_ (fun z hz w es hw => ?_) fun x hx => ?_
      · have hmoved := possibles_emplace (p.check answer).ratio (p.check answer) true (as ++ rest)
        rw [possibles_append] at hmoved
        have hsub := ((edges_check_sublist answer p).append_right (possibles rest)).append_left
          (possibles as)
        rw [← hposs] at hsub
        exact (hmoved.trans (List.perm_append_comm_assoc _ _ _)).subperm.trans hsub.subperm
      · rw [hq]
        rcases List.mem_cons.mp (hperm.mem_iff.mp hz) with rfl | hz
        · refine ⟨y, List.mem_append_right _ List.mem_cons_self, ?_⟩
          rw [hpath, hw, SizedPath.path_check hw]
        · rcases List.mem_append.mp hz with hz | hz
          · exact ⟨z, List.mem_append_left _ hz, rfl⟩
          · exact ⟨z, List.mem_append_right _ (List.mem_cons_of_mem _ hz), rfl⟩
      · refine ⟨_, List.mem_map_of_mem hx, ?_⟩
        split <;> rfl

end Tpathq

/-! ### A batch -/

/-- The possible paths that have been reported. -/
def reportedPaths (rs : List SizedPath) : List (List Edge) := rs.filterMap SizedPath.edges

/-- Only answers of the solver are used up. -/
def Mqueues.Alike (st st' : Mqueues) : Prop := st'.mq = st.mq ∧ st'.staging = st.staging

section

variable {g : Cfg} {firmware : ℕ} {out : Sizev} {R : List (List Edge)} {tq tq' : Tpathq}
  {st st' : Mqueues} {rs : List SizedPath}

theorem takeLoop_once {n : ℕ} (h : tq.Once g firmware out R) (hrun : takeLoop n tq st = (rs, tq', st')) :
    tq'.Once g firmware out (R ++ reportedPaths rs) ∧ st.Alike st' := by
  induction n generalizing R tq st rs with
  | zero =>
    obtain ⟨rfl, rfl, rfl⟩ := hrun
    exact ⟨by simpa [reportedPaths] using h, rfl, rfl⟩
  | succ n ih =>
    unfold takeLoop at hrun
    split at hrun
    · obtain ⟨rfl, rfl, rfl⟩ := hrun
      exact ⟨by simpa [reportedPaths] using h, rfl, rfl⟩
    next p tq₁ hp =>
      obtain ⟨rs₁, tq₂, st₂, hloop⟩ : ∃ rs₁ tq₂ st₂, takeLoop n tq₁ st.answered = (rs₁, tq₂, st₂) :=
        ⟨_, _, _, rfl⟩
      rw [hloop] at hrun
      obtain ⟨rfl, rfl, rfl⟩ := hrun
      have h₁ := (h.take hp).mono ((Tpathq.edges_check_sublist (st.answers 0) p).append_left R)
      obtain ⟨h₂, halike⟩ := ih h₁ hloop
      refine ⟨?_, halike⟩
      have hcons : reportedPaths (p.check (st.answers 0) :: rs₁) =
          (p.check (st.answers 0)).edges.toList ++ reportedPaths rs₁ := by
        cases hes : (p.check (st.answers 0)).edges with
        | none => exact List.filterMap_cons_none hes
        | some es => exact List.filterMap_cons_some hes
      rwa [hcons, ← List.append_assoc]

theorem undecidedLoop_once {n : ℕ} (h : tq.Once g firmware out R)
    (hrun : undecidedLoop n tq st = some (rs, tq', st')) :
    tq'.Once g firmware out (R ++ reportedPaths rs) ∧ st.Alike st' := by
  induction n generalizing R tq st rs with
  | zero =>
    obtain ⟨rfl, rfl, rfl⟩ := Option.some.inj hrun
    exact ⟨by simpa [reportedPaths] using h, rfl, rfl⟩
  | succ n ih =>
    unfold undecidedLoop at hrun
    split at hrun
    · obtain ⟨rfl, rfl, rfl⟩ := Option.some.inj hrun
      exact ⟨by simpa [reportedPaths] using h, rfl, rfl⟩
    next p tq₁ hp =>
      obtain ⟨tq₂, hadjust, hrun⟩ := Option.bind_eq_some_iff.mp hrun
      obtain ⟨rs₁, tq₃, st₃, hloop⟩ : ∃ rs₁ tq₃ st₃, takeAll tq₂ st.answered = (rs₁, tq₃, st₃) :=
        ⟨_, _, _, rfl⟩
      rw [hloop] at hrun
      obtain ⟨⟨rs₂, tq₄, st₄⟩, hrest, hrun⟩ := Option.bind_eq_some_iff.mp hrun
      obtain ⟨rfl, rfl, rfl⟩ := Option.some.inj hrun
      obtain ⟨h₃, halike₃⟩ := takeLoop_once ((h.takeUndecided hp).adjustSize _ hadjust) hloop
      obtain ⟨h₄, halike₄⟩ := ih h₃ hrest
      refine ⟨?_, halike₄.1.trans halike₃.1, halike₄.2.trans halike₃.2⟩
      rwa [reportedPaths, List.filterMap_append, ← List.append_assoc]

end

/-! ### Paths that wait -/

section

variable {g : Cfg} {firmware : ℕ} {minPacketsize : Edge → ℕ}

/-- A possible path along these edges waits to be extended along `e`, under a packet size. -/
def Mqueues.Queued (st : Mqueues) (e : Edge) (s : ℕ) (es : List Edge) : Prop :=
  ∃ p ∈ (st.mq (.edge e)).q s ++ (st.staging e).q s, p.edges = some es

/-- A prefix of the path waits to be extended, under a packet size that the edges behind it and the
end of the program have queues for. -/
def Mqueues.Waits (g : Cfg) (minPacketsize : Edge → ℕ) (st : Mqueues) (path : List Edge) : Prop :=
  ∃ es e rest s, path = es ++ e :: rest ∧ st.Queued e s es ∧
    (∀ e' ∈ rest, s ∈ g.edgeSizes minPacketsize e') ∧ s ∈ g.propagateSizes minPacketsize

instance (st : Mqueues) (e : Edge) (s : ℕ) (es : List Edge) : Decidable (st.Queued e s es) :=
  inferInstanceAs (Decidable (∃ p ∈ _, SizedPath.edges p = some es))

/-- A prefix of the path waits under the size at its edge of this number. -/
def Mqueues.WaitsAt (g : Cfg) (minPacketsize : Edge → ℕ) (st : Mqueues) (path : List Edge) (i s : ℕ) :
    Prop :=
  (∃ e ∈ path[i]?.toList, st.Queued e s (path.take i)) ∧
    ∀ e' ∈ path.drop (i + 1), s ∈ g.edgeSizes minPacketsize e'

instance (st : Mqueues) (path : List Edge) (i s : ℕ) :
    Decidable (st.WaitsAt g minPacketsize path i s) :=
  inferInstanceAs (Decidable ((∃ e ∈ path[i]?.toList, st.Queued e s (path.take i)) ∧ ∀ e' ∈ _, _))

instance (st : Mqueues) (path : List Edge) : Decidable (st.Waits g minPacketsize path) :=
  decidable_of_iff (∃ i ∈ List.range path.length, ∃ x ∈ (g.propagateSizes minPacketsize).entries,
    st.WaitsAt g minPacketsize path i x.1) <| by
    constructor
    · rintro ⟨i, -, x, hx, ⟨e, he, hes⟩, hrest⟩
      obtain ⟨hlt, rfl⟩ := List.getElem?_eq_some_iff.mp (Option.mem_toList.mp he)
      refine ⟨_, _, _, _, ?_, hes, hrest, Sparse.mem_iff_exists.mpr ⟨_, hx⟩⟩
      rw [List.getElem_cons_drop, List.take_append_drop]
    · rintro ⟨es, e, rest, s, rfl, hes, hrest, hs⟩
      obtain ⟨n, hn⟩ := Sparse.mem_iff_exists.mp hs
      refine ⟨es.length, by simp, (s, n), hn, ⟨e, by simp, ?_⟩, by simpa using hrest⟩
      rwa [List.take_left]

/-- The packet sizes that a slot has queues for. -/
def slotSizes (g : Cfg) (minPacketsize : Edge → ℕ) : Slot → Sizev
  | .output => g.propagateSizes minPacketsize
  | .edge e => g.edgeSizes minPacketsize e

/-- A path under a packet size does not become `path` on its way to the end. -/
def Avoids (g : Cfg) (minPacketsize : Edge → ℕ) (path : List Edge) (s : ℕ) (es : List Edge) :
    Slot → Prop
  | .output => path ≠ es
  | .edge e => ∀ rest, (∀ e' ∈ rest, s ∈ g.edgeSizes minPacketsize e') →
    s ∈ g.propagateSizes minPacketsize → path ≠ es ++ e :: rest

/-- What holds of the paths in the queues after the paths `R` have been reported. -/
def Leaves (g : Cfg) (firmware : ℕ) (minPacketsize : Edge → ℕ) (R : List (List Edge)) (sl : Slot)
    (s : ℕ) (w : WithState) (es : List Edge) : Prop :=
  g.Walk g.start es (sl.nd g) ∧ w = g.pathAlong firmware es ∧
    ∀ path ∈ R, Avoids g minPacketsize path s es sl

theorem leaves_closed (hg : g.LoopFree) (R : List (List Edge)) :
    Mqueues.Closed g g.overestimateCycles (slotSizes g minPacketsize)
      (Leaves g firmware minPacketsize R) := by
  rintro sl m s w es hnd hm hs ⟨hwalk, rfl, hR⟩
  have hnext : (g.pathAlong firmware es).next g m.2 = some m := by
    rw [WithState.next, target_pathAlong firmware hwalk]
    rfl
  rw [hnext]
  refine ⟨hwalk.append (Cfg.walk_single (hg.pred_succ _ hnd m hm).2),
    (pathAlong_append_singleton firmware es m).symm, fun path hpath => ?_⟩
  have havoid := hR path hpath
  cases sl with
  | output => exact havoid [] (fun _ h => absurd h List.not_mem_nil) hs
  | edge e =>
    intro rest hrest hout
    rw [Option.toList_some, List.append_assoc]
    exact havoid (e :: rest) (List.forall_mem_cons.mpr ⟨hs, hrest⟩) hout

/-- Paths that have been reported and do not wait do not come to the end again. -/
theorem within_leaves {st : Mqueues} {R R' : List (List Edge)}
    (h : st.Within (slotSizes g minPacketsize) (Leaves g firmware minPacketsize R))
    (hempty : ∀ s, (st.mq .output).q s = [])
    (hwait : ∀ path ∈ R', ¬st.Waits g minPacketsize path) :
    st.Within (slotSizes g minPacketsize) (Leaves g firmware minPacketsize (R ++ R')) where
  mq_sizes := h.mq_sizes
  staging_sizes := h.staging_sizes
  mq sl s p w es hp hw := by
    obtain ⟨h₁, h₂, h₃⟩ := h.mq sl s p w es hp hw
    refine ⟨h₁, h₂, List.forall_mem_append.mpr ⟨h₃, fun path hpath => ?_⟩⟩
    cases sl with
    | output =>
      rw [hempty] at hp
      exact nomatch hp
    | edge e =>
      intro rest hrest hout heq
      have hes := SizedPath.edges_eq_some.mpr ⟨w, hw⟩
      exact hwait path hpath ⟨es, e, rest, s, heq, ⟨p, List.mem_append_left _ hp, hes⟩, hrest, hout⟩
  staging e s p w es hp hw := by
    obtain ⟨h₁, h₂, h₃⟩ := h.staging e s p w es hp hw
    refine ⟨h₁, h₂, List.forall_mem_append.mpr ⟨h₃, fun path hpath => ?_⟩⟩
    intro rest hrest hout heq
    have hes := SizedPath.edges_eq_some.mpr ⟨w, hw⟩
    exact hwait path hpath ⟨es, e, rest, s, heq, ⟨p, List.mem_append_right _ hp, hes⟩, hrest, hout⟩

theorem within_init (g : Cfg) (firmware : ℕ) (minPacketsize : Edge → ℕ) (answers : ℕ → Answer) :
    (Mqueues.init g (g.edgeSizes minPacketsize) firmware answers).Within (slotSizes g minPacketsize)
      (Leaves g firmware minPacketsize []) := by
  have hpush : ∀ {st : Mqueues}, st.Within (slotSizes g minPacketsize)
      (Leaves g firmware minPacketsize []) → ∀ b,
      (st.mqpush g g.start b [⟨.possible (g.startPath firmware) [], NfpEstimator.minPacketsize, false⟩,
        ⟨.none, NfpEstimator.minPacketsize, true⟩]).Within (slotSizes g minPacketsize)
        (Leaves g firmware minPacketsize []) := by
    intro st h b
    unfold Mqueues.mqpush
    split
    · refine h.setStaging ?_ fun s p w es hp hw => ?_
      · exact h.staging_sizes _
      rcases Mpathq.mem_of_mem_pushAll hp hw with hp | hp
      · exact h.staging _ s p w es hp hw
      · rcases List.mem_cons.mp hp with rfl | hp
        · obtain ⟨rfl, rfl⟩ := Path.possible.inj hw
          exact ⟨rfl, rfl, fun _ h => (nomatch h)⟩
        · obtain rfl := List.mem_singleton.mp hp
          exact nomatch hw
    · exact h
  refine hpush (hpush ⟨fun sl s hs => ?_, fun e s hs => hs, fun sl s p w es hp => ?_,
    fun e s p w es hp => ?_⟩ true) false
  · cases sl with
    | output => exact absurd hs (Sizev.not_mem_zero s)
    | edge e => exact hs
  · cases sl with
    | output => exact nomatch hp
    | edge e => exact nomatch hp
  · exact nomatch hp

/-! ### The whole enumeration -/

/-- All paths that are reported in some batches. -/
def reportedIn (bs : List Bitbatch) : List (List Edge) := bs.flatMap fun b => reportedPaths b.reported

/-- No path waits any more when it is reported. -/
def NoneWaits (g : Cfg) (minPacketsize : Edge → ℕ) (bs : List Bitbatch) : Prop :=
  ∀ b ∈ bs, ∀ path ∈ reportedPaths b.reported, ¬b.queues.Waits g minPacketsize path

instance (bs : List Bitbatch) : Decidable (NoneWaits g minPacketsize bs) :=
  inferInstanceAs (Decidable (∀ b ∈ bs, ∀ path ∈ reportedPaths b.reported,
    ¬b.queues.Waits g minPacketsize path))

variable {γ : Type*} [LinearOrder γ] {S : Option Path → Bool → γ} {tq tq' : Tpathq}
  {st st' : Mqueues} {R : List (List Edge)}

/-- A batch reports paths that have not been reported before. -/
theorem bitbatch_once (hg : g.LoopFree) {fuel k : ℕ} {same : ℕ → ℕ → Bool} {b : Bitbatch}
    (h : tq.Once g firmware (g.propagateSizes minPacketsize) R)
    (hq : st.Within (slotSizes g minPacketsize) (Leaves g firmware minPacketsize R))
    (hrun : bitbatch g g.overestimateCycles minPacketsize S (g.edgeSizes minPacketsize) fuel k same tq
      st = some (b, tq', st'))
    (hwait : ∀ path ∈ reportedPaths b.reported, ¬b.queues.Waits g minPacketsize path) :
    tq'.Once g firmware (g.propagateSizes minPacketsize) (R ++ reportedPaths b.reported) ∧
      st'.Within (slotSizes g minPacketsize)
        (Leaves g firmware minPacketsize (R ++ reportedPaths b.reported)) := by
  obtain ⟨⟨mq, st₁⟩, hnext, hrun⟩ := Option.bind_eq_some_iff.mp hrun
  obtain ⟨rs₁, tq₂, st₂, htake⟩ : ∃ rs₁ tq₂ st₂, takeAll (tq.pushAll same mq) st₁ = (rs₁, tq₂, st₂) :=
    ⟨_, _, _, rfl⟩
  dsimp only at hrun
  rw [htake] at hrun
  obtain ⟨⟨rs₂, tq₃, st₃⟩, hrest, hrun⟩ := Option.bind_eq_some_iff.mp hrun
  obtain ⟨rfl, rfl, rfl⟩ := Option.some.inj hrun
  have hk : ∀ s ∈ tq.sizesTo k, s ∈ slotSizes g minPacketsize .output := by
    intro s hs
    have hmem := Sparse.mem_of_mem_restrict hs
    rwa [h.sizes] at hmem
  obtain ⟨hq₁, hmq⟩ := hq.nextK hg (fun _ => rfl) (leaves_closed hg R) hk hnext
  have hpush := h.pushAll same fun s p hp w es hw =>
    ⟨(hmq s p w es hp hw).2.1, fun hR => (hmq s p w es hp hw).2.2 es hR rfl⟩
  obtain ⟨h₂, halike₂⟩ := takeLoop_once hpush htake
  obtain ⟨h₃, halike₃⟩ := undecidedLoop_once h₂ hrest
  have hreported : reportedPaths (rs₁ ++ rs₂) = reportedPaths rs₁ ++ reportedPaths rs₂ :=
    List.filterMap_append ..
  rw [hreported, ← List.append_assoc]
  refine ⟨h₃, ?_⟩
  rw [List.append_assoc, ← hreported]
  have hempty : ∀ s, (st₁.mq .output).q s = [] := by
    intro s
    obtain ⟨st₀, -, hst₀⟩ := Option.bind_eq_some_iff.mp hnext
    obtain ⟨-, rfl⟩ := Prod.mk.inj (Option.some.inj hst₀)
    rw [Mqueues.mq_setMq, if_pos rfl]
    rfl
  exact (within_leaves hq₁ hempty hwait).congr (halike₃.1.trans halike₂.1)
    (halike₃.2.trans halike₂.2)

theorem bitrateLoop_once (hg : g.LoopFree) {fuel count index : ℕ} {same : ℕ → ℕ → ℕ → Bool}
    {ks : List Batch} {bs : List Bitbatch}
    (h : tq.Once g firmware (g.propagateSizes minPacketsize) R)
    (hq : st.Within (slotSizes g minPacketsize) (Leaves g firmware minPacketsize R))
    (hrun : bitrateLoop g g.overestimateCycles minPacketsize S (g.edgeSizes minPacketsize) fuel count
      same ks index tq st = some bs)
    (hwait : NoneWaits g minPacketsize bs) : (R ++ reportedIn bs).Nodup := by
  induction ks generalizing R index tq st same bs with
  | nil =>
    obtain rfl := Option.some.inj hrun
    rw [reportedIn, List.flatMap_nil, List.append_nil]
    exact (List.nodup_append.mp h.nodup).1
  | cons k ks ih =>
    obtain ⟨⟨b, tq₁, st₁⟩, hbatch, hrun⟩ := Option.bind_eq_some_iff.mp hrun
    obtain ⟨st₂, hpush, hrun⟩ := Option.bind_eq_some_iff.mp hrun
    have hcons : ∀ {bs'}, NoneWaits g minPacketsize (b :: bs') →
        (tq₁.Once g firmware (g.propagateSizes minPacketsize) (R ++ reportedPaths b.reported) ∧
        st₁.Within (slotSizes g minPacketsize)
          (Leaves g firmware minPacketsize (R ++ reportedPaths b.reported))) :=
      fun hwait => bitbatch_once hg h hq hbatch (hwait b List.mem_cons_self)
    split at hrun
    · obtain rfl := Option.some.inj hrun
      rw [reportedIn, List.flatMap_singleton]
      exact (List.nodup_append.mp (hcons hwait).1.nodup).1
    · obtain ⟨bs', hrest, hrun⟩ := Option.bind_eq_some_iff.mp hrun
      obtain rfl := Option.some.inj hrun
      obtain ⟨h₁, hq₁⟩ := hcons hwait
      have hq₂ := hq₁.pushMimpossible hg (fun _ => rfl) (leaves_closed hg _) hpush
      rw [reportedIn, List.flatMap_cons, ← List.append_assoc]
      exact ih h₁ hq₂ hrest fun b' hb' => hwait b' (List.mem_cons_of_mem _ hb')

end

/-- **No path is reported twice** if no path waits any more when it is reported. -/
theorem bitrate_reportsOnce (g : LoopFreeCfg) (firmware : ℕ) (minPacketsize : Edge → ℕ)
    (fuel count : ℕ) (ks : List Batch) (answers : ℕ → Answer) (same : ℕ → ℕ → ℕ → Bool)
    (bs : List Bitbatch)
    (hrun : g.enumerateByBitrate firmware minPacketsize fuel count ks answers same = some bs)
    (hwait : NoneWaits g.toCfg minPacketsize bs) : (reportedIn bs).Nodup := by
  unfold Cfg.enumerateByBitrate at hrun
  dsimp only at hrun
  split at hrun
  · obtain rfl := Option.some.inj hrun
    exact List.nodup_nil
  · have hinit : (Tpathq.ofSizes (g.propagateSizes minPacketsize)).Once g.toCfg firmware
        (g.propagateSizes minPacketsize) [] :=
      ⟨rfl, List.nodup_nil, fun _ h => (nomatch h), fun _ h => (nomatch h)⟩
    exact bitrateLoop_once g.loopFree hinit (within_init g.toCfg firmware minPacketsize answers) hrun hwait

/-- The only path of `oneCheck` is reported once. -/
theorem bitrate_reportsOnce_oneCheck : ∃ bs,
    oneCheck.enumerateByBitrate 224 (fun _ => 60) 10 10 [⟨2, by decide⟩] (fun _ => ⟨true, false, 0⟩)
      (fun _ _ _ => false) = some bs ∧ (reportedIn bs).length = 1 ∧ (reportedIn bs).Nodup := by
  have hrun : (oneCheck.enumerateByBitrate 224 (fun _ => 60) 10 10 [⟨2, by decide⟩]
      (fun _ => ⟨true, false, 0⟩) fun _ _ _ => false).any fun bs =>
      (reportedIn bs).length = 1 ∧ NoneWaits oneCheck.toCfg (fun _ => 60) bs := by
    decide +kernel
  obtain ⟨bs, hbs, h⟩ := (Option.any_eq_true _ _).mp hrun
  obtain ⟨hlength, hwait⟩ := of_decide_eq_true h
  exact ⟨bs, hbs, hlength, bitrate_reportsOnce oneCheck 224 _ 10 10 _ _ _ bs hbs hwait⟩

/-- The paths of `twoChecks`, where a branch that is taken needs larger packets, and each path is found
to be possible. -/
def twoChecksByBitrate (ks : List Batch) : Option (List Bitbatch) :=
  twoChecks.enumerateByBitrate 224 (fun e => if e.2 then 100 else 60) 14 10 ks
    (fun _ => ⟨true, false, 0⟩) fun _ _ _ => false

/-- In batches of two and three paths, the one for small packets is reported in the first batch, comes
to the end once more under the larger packet size in the second one, and is reported again. -/
theorem bitrate_reportsTwice : ∃ bs, twoChecksByBitrate [⟨2, by decide⟩, ⟨3, by decide⟩] = some bs ∧
    (reportedIn bs).count [(0, false), (1, false), (2, false), (3, false)] = 2 := by
  have hrun : (twoChecksByBitrate [⟨2, by decide⟩, ⟨3, by decide⟩]).any fun bs =>
      (reportedIn bs).count [(0, false), (1, false), (2, false), (3, false)] = 2 := by
    decide +kernel
  obtain ⟨bs, hbs, h⟩ := (Option.any_eq_true _ _).mp hrun
  exact ⟨bs, hbs, of_decide_eq_true h⟩

end NfpEstimator
