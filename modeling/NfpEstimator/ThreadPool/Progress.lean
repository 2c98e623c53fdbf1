import NfpEstimator.ThreadPool.Workers

/-!
# No call of the thread pool hangs

A notification that nobody waits for is lost. Still nobody waits for something that has happened
already: as long as the caller is in a call, it or some thread can go on. Each step uses up a part
of what is left to do in the pool, so that a call comes to its end after a bounded number of steps,
in whatever order they are taken (`calls_return`).
-/

namespace NfpEstimator

/-- How many steps follow from what comes from outside. -/
def PoolAction.gain (size : ℕ) : PoolAction → ℕ
  | delegate => 9
  | perform => 1
  | wait => 2
  | destroy => 2 * size + 3
  | wakeWorker _ | wakeCaller => 2
  | notify _ | caller | worker _ => 0

namespace Worker

/-- How many steps it takes until it waits or has ended, with those that it enables in others. -/
def weight : Worker → ℕ
  | looking => 1
  | taken _ => 5
  | performing _ => 3
  | returned => 2
  | waiting | exited => 0

end Worker

namespace Caller

/-- How many steps it takes until it waits or its call ends, with those that it enables in the
threads. -/
def weight (size : ℕ) : Caller → ℕ
  | stored => 3
  | offering | checking => 1
  | quitting => 2 * size + 2
  | joining w => size + 1 - w
  | idle | offered | waiting | destroyed => 0

end Caller

namespace ThreadPool

variable {s s' : ThreadPool} {w k : ℕ} {x : Worker} {c : Caller} {a : PoolAction}

/-! ### Somebody can go on -/

theorem handle_isSome (hx : x ≠ .waiting) (hx' : x ≠ .exited) : (s.handle w x).isSome = true := by
  cases x <;> first | rfl | exact absurd rfl hx | exact absurd rfl hx'

/-- A thread that does not wait and has not ended can go on. -/
theorem exists_worker (hx : x ∈ s.threads) (hw : x ≠ .waiting) (he : x ≠ .exited) :
    ∃ w, (s.step (.worker w)).isSome = true := by
  obtain ⟨w, hlt, rfl⟩ := List.mem_iff_getElem.mp hx
  refine ⟨w, ?_⟩
  simp only [ThreadPool.step, List.getElem?_eq_getElem hlt, Option.bind_some]
  exact handle_isSome hw he

/-- As long as the counters differ, some thread is on its way to the caller. -/
theorem Inv.exists_busy (h : s.Inv) (hf : s.f = none) (hne : s.delegated ≠ s.performed) :
    ∃ x ∈ s.threads, x ≠ .waiting ∧ x ≠ .exited := by
  obtain ⟨d, p, hd, hp, hdp⟩ := h.counted
  by_contra hno
  push Not at hno
  have hhand : s.inHand = [] := by
    rw [inHand, hf, Option.toList_none, List.nil_append, List.filterMap_eq_nil_iff]
    intro x hx
    cases x with
    | taken k | performing k => cases hno _ hx (by simp)
    | looking | waiting | returned | exited => rfl
  have hret : s.returned = 0 := List.count_eq_zero.mpr fun hx => by cases hno _ hx (by simp)
  rw [hhand, hret] at hdp
  exact hne (hd.trans (hdp ▸ hp.symm))

/-- **Nobody waits for ever.** As long as the caller is in a call, it or some thread can go on
without being called or woken from outside. -/
theorem never_stuck {size : ℕ} (h : Reachable size s) (hi : s.caller ≠ .idle)
    (hd : s.caller ≠ .destroyed) :
    (s.step .caller).isSome = true ∨ (∃ w, (s.step (.notify w)).isSome = true) ∨
      ∃ w, (s.step (.worker w)).isSome = true := by
  have hinv := h.inv
  have hquit := hinv.phases.quit
  have hexit : s.caller.quits = false → ∀ x ∈ s.threads, x ≠ .exited := fun hq x hx he => by
    rw [← hquit, hinv.phases.exited (he ▸ hx)] at hq
    cases hq
  cases hc : s.caller with
  | idle => exact absurd hc hi
  | destroyed => exact absurd hc hd
  | offering | checking | quitting => exact .inl (by simp [ThreadPool.step, hc, proceed])
  | stored =>
    refine .inr (.inl ?_)
    by_cases hw : .waiting ∈ s.threads
    · obtain ⟨w, hlt, hw'⟩ := List.mem_iff_getElem.mp hw
      have hget : s.threads[w]? = some .waiting := by rw [List.getElem?_eq_getElem hlt, hw']
      exact ⟨w, by simp [ThreadPool.step, notify, hc, hw, hget]⟩
    · exact ⟨0, by simp [ThreadPool.step, notify, hc, hw]⟩
  | offered =>
    refine .inr (.inr ?_)
    have hq : s.caller.quits = false := by rw [hc]; rfl
    rcases hinv.awake.offered hc with hf | ⟨k, hk⟩
    · obtain ⟨x, hx, hw⟩ := hinv.awake.seen hf (by simp [hc])
      exact exists_worker hx hw (hexit hq x hx)
    · exact exists_worker hk (by simp) (by simp)
  | waiting =>
    obtain ⟨x, hx, hw, he⟩ := hinv.exists_busy (hinv.f_eq_none (by rw [hc]; rfl)) (hinv.awake.waiting hc)
    exact .inr (.inr (exists_worker hx hw he))
  | joining w =>
    by_cases hlt : s.threads.length ≤ w
    · exact .inl (by simp [ThreadPool.step, hc, proceed, hlt])
    · have hget := List.getElem?_eq_getElem (not_le.mp hlt)
      by_cases he : s.threads[w]? = some .exited
      · exact .inl (by simp [ThreadPool.step, hc, proceed, hlt, he])
      · have hmem := List.mem_of_getElem? hget
        refine .inr (.inr (exists_worker hmem (fun hw => ?_) fun hx => he (hget.trans (congrArg some hx))))
        exact hinv.phases.joining w hc (hw ▸ hmem)

/-! ### Every step uses something up -/

/-- What a pool can still do by itself. -/
def supply (s : ThreadPool) : ℕ :=
  (s.threads.map Worker.weight).sum + 5 * s.f.toList.length + s.caller.weight s.threads.length

theorem supply_setThread (h : s.threads[w]? = some x) (y : Worker) :
    (s.setThread w y).supply + x.weight = s.supply + y.weight := by
  obtain ⟨l₁, l₂, hl, hset⟩ := exists_of_getElem? h
  have hlen : (s.setThread w y).threads.length = s.threads.length := List.length_set
  rw [supply, supply, hlen]
  rw [setThread, hset, hl]
  simp only [List.map_append, List.map_cons, List.sum_append, List.sum_cons]
  omega

theorem supply_setCaller :
    (s.setCaller c).supply + s.caller.weight s.threads.length = s.supply + c.weight s.threads.length := by
  simp only [supply, setCaller]
  omega

/-- Looking for a function uses up a step. -/
theorem supply_look (hw : s.threads[w]? = some .looking) : (s.look w).supply + 1 ≤ s.supply := by
  rw [ThreadPool.look]
  split_ifs with hq
  · exact (supply_setThread hw .exited).le
  cases hf : s.f with
  | none => exact (supply_setThread hw .waiting).le
  | some k =>
    have hset := supply_setThread hw (.taken k)
    have hclear : ({ s.setThread w (.taken k) with f := none } : ThreadPool).supply + 5 =
        (s.setThread w (.taken k)).supply := by
      simp only [supply, setThread, hf, Option.toList_none, Option.toList_some, List.length_nil,
        List.length_singleton]
      omega
    simp only [Worker.weight] at hset
    show ({ s.setThread w (.taken k) with f := none } : ThreadPool).supply + 1 ≤ s.supply
    omega

theorem supply_wakeOffered : (s.setCaller s.caller.wakeOffered).supply ≤ s.supply + 1 := by
  have h := supply_setCaller (s := s) (c := s.caller.wakeOffered)
  cases hc : s.caller <;> simp only [hc, Caller.wakeOffered, Caller.weight] at h ⊢ <;> omega

theorem supply_wakeWaiting : (s.setCaller s.caller.wakeWaiting).supply ≤ s.supply + 1 := by
  have h := supply_setCaller (s := s) (c := s.caller.wakeWaiting)
  cases hc : s.caller <;> simp only [hc, Caller.wakeWaiting, Caller.weight] at h ⊢ <;> omega

theorem supply_handle (hw : s.threads[w]? = some x) (hs : s.handle w x = some s') :
    s'.supply + 1 ≤ s.supply := by
  cases x with
  | looking => exact Option.some.inj hs ▸ supply_look hw
  | waiting | exited => cases hs
  | taken k =>
    obtain rfl := Option.some.inj hs
    have h₁ := supply_setThread hw (.performing k)
    have h₂ : (s.begin w k).supply ≤ _ := supply_wakeOffered (s := s.setThread w (.performing k))
    simp only [Worker.weight] at h₁
    omega
  | performing k =>
    obtain rfl := Option.some.inj hs
    have h₁ : (s.finish w k).supply + 3 = s.supply + 2 := supply_setThread hw .returned
    omega
  | returned =>
    obtain rfl := Option.some.inj hs
    have hl := getElem?_count hw
    have h₁ := supply_setThread hw .looking
    have h₂ : (s.count w).supply ≤ _ := supply_wakeWaiting (s := s.setThread w .looking)
    have h₃ := supply_look hl
    simp only [Worker.weight] at h₁
    omega

theorem weight_wake_le (l : List Worker) :
    ((l.map Worker.wake).map Worker.weight).sum ≤ (l.map Worker.weight).sum + l.length := by
  induction l with
  | nil => exact Nat.le_refl _
  | cons x l ih => cases x <;> simp [Worker.wake, Worker.weight] at ih ⊢ <;> omega

theorem supply_notifyAll : s.notifyAll.supply ≤ s.supply + s.threads.length := by
  have h := weight_wake_le s.threads
  simp only [supply, notifyAll, List.length_map]
  omega

theorem Inv.supply_proceed (h : s.Inv) (hs : s.proceed s.caller = some s') :
    s'.supply + 1 ≤ s.supply := by
  cases hc : s.caller
  all_goals rw [hc] at hs
  case offering =>
    obtain rfl := Option.some.inj hs
    split_ifs
    all_goals
      have := supply_setCaller (s := s) (c := .idle)
      have := supply_setCaller (s := s) (c := .offered)
      simp only [hc, Caller.weight] at *
      omega
  case checking =>
    obtain rfl := Option.some.inj hs
    split_ifs
    all_goals
      have := supply_setCaller (s := s) (c := .idle)
      have := supply_setCaller (s := s) (c := .waiting)
      simp only [hc, Caller.weight] at *
      omega
  case quitting =>
    obtain rfl := Option.some.inj hs
    have h₁ := supply_setCaller (s := s.notifyAll) (c := .joining 0)
    have h₂ := supply_notifyAll (s := s)
    have hlen : s.notifyAll.threads.length = s.threads.length := List.length_map ..
    rw [hlen, show s.notifyAll.caller = s.caller from rfl, hc] at h₁
    simp only [Caller.weight] at h₁
    omega
  case joining v =>
    have hv : v ≤ s.threads.length := by
      by_contra hlt
      have hget := h.phases.joined v hc s.threads.length (not_le.mp hlt)
      rw [List.getElem?_eq_none (Nat.le_refl _)] at hget
      cases hget
    simp only [ThreadPool.proceed] at hs
    split_ifs at hs with hle he
    all_goals obtain rfl := Option.some.inj hs
    · have h₁ := supply_setCaller (s := s) (c := .destroyed)
      simp only [hc, Caller.weight] at h₁
      omega
    · have h₁ := supply_setCaller (s := s) (c := .joining (v + 1))
      simp only [hc, Caller.weight] at h₁
      omega
  all_goals cases hs

theorem supply_notify (hs : s.notify w = some s') : s'.supply + 1 ≤ s.supply := by
  unfold ThreadPool.notify at hs
  split_ifs at hs with hc hn hw
  all_goals obtain rfl := Option.some.inj hs
  · have h₁ := supply_setThread hw .looking
    have h₂ := supply_setCaller (s := s.setThread w .looking) (c := .offering)
    rw [show (s.setThread w .looking).caller = .stored from not_not.mp hc] at h₂
    simp only [Worker.weight, Caller.weight] at h₁ h₂
    omega
  · have h₂ := supply_setCaller (s := s) (c := .offering)
    rw [not_not.mp hc] at h₂
    simp only [Caller.weight] at h₂
    omega

/-- A step uses up a part of what the pool can do, as far as nothing is added from outside. -/
theorem Inv.supply_step (h : s.Inv) (hs : s.step a = some s') :
    s'.supply + 1 ≤ s.supply + a.gain s.threads.length := by
  cases a with
  | delegate =>
    simp only [ThreadPool.step] at hs
    by_cases hc : s.caller = .idle
    · rw [if_neg (not_not.mpr hc)] at hs
      obtain rfl := Option.some.inj hs
      have hf : s.f = none := h.f_eq_none (by rw [hc]; rfl)
      split_ifs
      · show s.supply + 1 ≤ s.supply + 9
        omega
      · simp only [supply, ThreadPool.store, hf, hc, Option.toList_none, Option.toList_some,
          List.length_nil, List.length_singleton, Caller.weight, PoolAction.gain]
        omega
    · rw [if_pos hc] at hs
      cases hs
  | perform =>
    simp only [ThreadPool.step] at hs
    split_ifs at hs
    exact Option.some.inj hs ▸ Nat.le_refl _
  | wait =>
    simp only [ThreadPool.step] at hs
    split_ifs at hs with hc
    obtain rfl := Option.some.inj hs
    have h₁ := supply_setCaller (s := s) (c := .checking)
    rw [not_not.mp hc] at h₁
    simp only [Caller.weight, PoolAction.gain] at h₁ ⊢
    omega
  | destroy =>
    simp only [ThreadPool.step] at hs
    split_ifs at hs with hc
    obtain rfl := Option.some.inj hs
    have h₁ := supply_setCaller (s := s) (c := .quitting)
    rw [not_not.mp hc] at h₁
    simp only [Caller.weight, PoolAction.gain] at h₁ ⊢
    exact (congrArg (· + 1) h₁).le.trans (by omega)
  | notify w => exact supply_notify hs
  | caller => exact h.supply_proceed hs
  | worker w =>
    obtain ⟨x, hw, hs⟩ := Option.bind_eq_some_iff.mp hs
    exact supply_handle hw hs
  | wakeWorker w =>
    simp only [ThreadPool.step] at hs
    split_ifs at hs with hw
    obtain rfl := Option.some.inj hs
    have h₁ := supply_setThread hw .looking
    simp only [Worker.weight, PoolAction.gain] at h₁ ⊢
    omega
  | wakeCaller =>
    simp only [ThreadPool.step] at hs
    split_ifs at hs with ho hw
    all_goals
      obtain rfl := Option.some.inj hs
      have h₁ := supply_setCaller (s := s) (c := .offering)
      have h₂ := supply_setCaller (s := s) (c := .checking)
      simp only [PoolAction.gain]
    · rw [ho] at h₁
      simp only [Caller.weight] at h₁
      omega
    · rw [hw] at h₂
      simp only [Caller.weight] at h₂
      omega

/-- **Every call comes to its end.** Whatever the order of the steps, their number is bounded by
what the calls add and what is woken up without a notification. -/
theorem length_run_le {size : ℕ} {as : List PoolAction}
    (hr : Runs.run ThreadPool.step (init size) as = some s) :
    as.length ≤ size + (as.map (PoolAction.gain size)).sum := by
  have hle := Runs.length_add_le (P := fun s => s.Inv ∧ s.threads.length = size)
    (fun s a t hi hs => ⟨⟨hi.1.step hs, (length_step hs).trans hi.2⟩, hi.2 ▸ hi.1.supply_step hs⟩)
    ⟨.init size, List.length_replicate⟩ hr
  have hinit : (init size).supply = size := by
    simp [supply, ThreadPool.init, Worker.weight, Caller.weight]
  omega

/-- **No call hangs.** The number of steps is bounded by what the calls add and by what is woken up
without a notification, and as long as the caller is in a call, it or some thread can go on. -/
theorem calls_return {size : ℕ} {as : List PoolAction}
    (hr : Runs.run ThreadPool.step (init size) as = some s) :
    as.length ≤ size + (as.map (PoolAction.gain size)).sum ∧
      (s.caller ≠ .idle → s.caller ≠ .destroyed →
        (s.step .caller).isSome = true ∨ (∃ w, (s.step (.notify w)).isSome = true) ∨
          ∃ w, (s.step (.worker w)).isSome = true) :=
  ⟨length_run_le hr, never_stuck ⟨as, hr⟩⟩

/-- The caller has to wait until its function has been taken. -/
theorem calls_return_one : ∃ s : ThreadPool, s.caller = .offered ∧
    ((s.step .caller).isSome = true ∨ (∃ w, (s.step (.notify w)).isSome = true) ∨
      ∃ w, (s.step (.worker w)).isSome = true) := by
  have hr : Runs.run ThreadPool.step (init 1) [.worker 0, .delegate, .notify 0, .caller] = some _ := rfl
  exact ⟨_, rfl, (calls_return hr).2 (by decide) (by decide)⟩

end ThreadPool

end NfpEstimator
