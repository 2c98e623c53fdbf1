import NfpEstimator.ThreadPool.Workers

/-!
# Callbacks of the thread pool

The users of the pool wait for it, create an `orderered_completion_state`, delegate tasks through
it, and wait again. The threads finish the tasks in any order, but the callbacks are executed in
the order in which the tasks were started (`completes_in_order`).
-/

namespace NfpEstimator

namespace TaskEvent

/-- An event after a number of tasks, as it is without them. -/
def since (n : ℕ) : TaskEvent → TaskEvent
  | finish k => .finish (k - n)
  | e => e

end TaskEvent

namespace OrderedCompletion

/-- A task that has been delegated and not finished can finish. -/
theorem exists_step_finish {t : OrderedCompletion} {d : ℕ × ℕ} (h : d ∈ t.delegated) :
    ∃ t', t.step (.finish d.1) = some t' ∧
      (d.1 :: t'.delegated.map Prod.fst).Perm (t.delegated.map Prod.fst) ∧ t'.tasks = t.tasks := by
  obtain ⟨u, hu⟩ := Option.isSome_iff_exists.mp
    (List.find?_isSome (p := fun x : ℕ × ℕ => decide (x.1 = d.1)).mpr ⟨d, h, decide_eq_true rfl⟩)
  obtain ⟨x, l₁, l₂, -, hx, hl, herase⟩ :=
    List.exists_of_eraseP (p := fun x : ℕ × ℕ => decide (x.1 = d.1)) h (decide_eq_true rfl)
  refine ⟨({ t with delegated := l₁ ++ l₂ } : OrderedCompletion).finish d.1 u.2, ?_, ?_, ?_⟩
  · rw [step, hu, herase]
    rfl
  · rw [delegated_finish, hl, ← of_decide_eq_true hx, ← List.map_cons]
    exact List.perm_middle.symm.map _
  · exact tasks_finish

end OrderedCompletion

namespace ThreadPool

variable {s s' : ThreadPool} {a : PoolAction}

/-- What has been logged since a state of the pool, as an `orderered_completion_state` sees it that
was created there. -/
structure Completes (s₀ s : ThreadPool) (t : OrderedCompletion) : Prop where
  run : ∃ es, s.log = s₀.log ++ es ∧
    OrderedCompletion.run {} (es.map (TaskEvent.since s₀.tasks)) = some t
  tasks : s.tasks = s₀.tasks + t.tasks
  delegated : (t.delegated.map fun d => s₀.tasks + d.1).Perm s.inHand

variable {s₀ : ThreadPool} {t t' : OrderedCompletion} {es : List TaskEvent}

theorem completes_refl (h : s₀.inHand = []) : Completes s₀ s₀ {} :=
  ⟨⟨[], (List.append_nil _).symm, rfl⟩, rfl, by rw [h]; rfl⟩

/-- The next events. -/
theorem Completes.next (h : Completes s₀ s t) (hlog : s'.log = s.log ++ es)
    (hrun : t.run (es.map (TaskEvent.since s₀.tasks)) = some t')
    (htasks : s'.tasks = s₀.tasks + t'.tasks)
    (hd : (t'.delegated.map fun d => s₀.tasks + d.1).Perm s'.inHand) : Completes s₀ s' t' := by
  obtain ⟨es₀, hes₀, hrun₀⟩ := h.run
  refine ⟨⟨es₀ ++ es, by rw [hlog, hes₀, List.append_assoc], ?_⟩, htasks, hd⟩
  rw [List.map_append, OrderedCompletion.run_append, hrun₀]
  exact hrun

theorem Completes.step (h : Completes s₀ s t) (hl : Logged s s') : ∃ t', Completes s₀ s' t' := by
  have htasks := h.tasks
  cases hl with
  | same log tasks hand =>
    exact ⟨t, h.next (log.trans (List.append_nil _).symm) rfl (tasks.trans htasks)
      (h.delegated.trans hand.symm)⟩
  | delegate log tasks hand =>
    refine ⟨_, h.next log rfl ?_ ?_⟩
    · show s'.tasks = s₀.tasks + (t.tasks + 1)
      omega
    · show ((t.delegated ++ [(t.tasks, t.index)]).map fun d => s₀.tasks + d.1).Perm s'.inHand
      rw [List.map_append, hand, htasks]
      exact (List.perm_append_singleton _ _).trans (h.delegated.cons _)
  | finish k log tasks hand =>
    obtain ⟨d, hd, rfl⟩ := List.mem_map.mp ((h.delegated.trans hand).mem_iff.mpr List.mem_cons_self)
    obtain ⟨t', ht', hrest, hn⟩ := OrderedCompletion.exists_step_finish hd
    have hev : TaskEvent.since s₀.tasks (.finish (s₀.tasks + d.1)) = .finish d.1 := by
      rw [TaskEvent.since, Nat.add_sub_cancel_left]
    refine ⟨t', (h.next log ?_ ?_ ?_ : Completes s₀ s' t')⟩
    · simp only [List.map_cons, List.map_nil, hev, OrderedCompletion.run, ht', Option.bind_some]
    · rw [tasks, hn, htasks]
    · have hperm := (hrest.map fun j => s₀.tasks + j)
      rw [List.map_cons, List.map_map, List.map_map] at hperm
      exact (hperm.trans (h.delegated.trans hand)).cons_inv
  | call log tasks hand =>
    obtain ⟨t', ht', hrest, hn⟩ := OrderedCompletion.exists_step_finish
      (t := { t.start with delegated := t.delegated ++ [(t.tasks, t.index)] })
      (d := (t.tasks, t.index)) (List.mem_append_right _ List.mem_cons_self)
    have hev : TaskEvent.since s₀.tasks (.finish s.tasks) = .finish t.tasks := by
      rw [TaskEvent.since, htasks, Nat.add_sub_cancel_left]
    refine ⟨t', (h.next log ?_ ?_ ?_ : Completes s₀ s' t')⟩
    · simp only [List.map_cons, List.map_nil, hev, OrderedCompletion.run]
      exact (Option.bind_some ..).trans (by rw [ht']; rfl)
    · rw [tasks, hn, htasks]
      rfl
    · have hrest : (t.tasks :: t'.delegated.map Prod.fst).Perm
          ((t.delegated ++ [(t.tasks, t.index)]).map Prod.fst) := hrest
      rw [List.map_append] at hrest
      have hrest := (hrest.trans (List.perm_append_singleton _ _)).cons_inv.map fun j => s₀.tasks + j
      rw [List.map_map, List.map_map] at hrest
      exact hand ▸ hrest.trans h.delegated
  | perform log tasks hand =>
    refine ⟨_, h.next log rfl ?_ ?_⟩
    · rw [OrderedCompletion.tasks_finish]
      show s'.tasks = s₀.tasks + (t.tasks + 1)
      omega
    · rw [OrderedCompletion.delegated_finish, hand]
      exact h.delegated

theorem exists_completes {size : ℕ} {as : List PoolAction} (h : Reachable size s₀)
    (hh : s₀.inHand = []) (hr : Runs.run ThreadPool.step s₀ as = some s) : ∃ t, Completes s₀ s t := by
  refine (Runs.run_invariant (P := fun s => s.Inv ∧ ∃ t, Completes s₀ s t) ?_
    ⟨h.inv, {}, completes_refl hh⟩ hr).2
  rintro s a s' ⟨hi, t, ht⟩ hs
  exact ⟨hi.step hs, ht.step (hi.logged hs)⟩

/-- **Callbacks in order.** An `orderered_completion_state` is created when all tasks have finished,
as they have when `wait` returns. When they have finished again and it has seen at most `2 ^ 32`
tasks, it has executed their callbacks once each and in the order in which they were started,
however the threads have performed them. -/
theorem completes_in_order {size : ℕ} {as : List PoolAction} (h : Reachable size s₀)
    (hh : s₀.inHand = []) (hr : Runs.run ThreadPool.step s₀ as = some s) (hh' : s.inHand = [])
    (htasks : s.tasks ≤ s₀.tasks + 2 ^ 32) :
    ∃ es t, s.log = s₀.log ++ es ∧
      OrderedCompletion.run {} (es.map (TaskEvent.since s₀.tasks)) = some t ∧ t.InOrder ∧
      s.tasks = s₀.tasks + t.tasks := by
  obtain ⟨t, hlog, hn, hd⟩ := exists_completes h hh hr
  obtain ⟨es, hes, hrun⟩ := hlog
  have hd : t.delegated = [] := by
    rw [hh'] at hd
    exact List.map_eq_nil_iff.mp hd.eq_nil
  obtain ⟨hsound, hfin, -⟩ := OrderedCompletion.sound_init.run hrun
  refine ⟨es, t, hes, hrun, ?_, hn⟩
  -- all numbers fit into 32 bits
  have hlt : ∀ k ∈ t.finished, k < 2 ^ 32 := fun k hk => by
    have hk := List.mem_range.mp (hsound.numbered.perm.mem_iff.mp (List.mem_append_left _ hk))
    omega
  have hearly : ∀ l k l', TaskEvent.finishing 0 (es.map (TaskEvent.since s₀.tasks)) = l ++ k :: l' →
      ∀ i < k, TaskEvent.Early i k := by
    intro l k l' hl i hik
    have hk := hlt k (by
      rw [hfin]
      exact List.mem_append_right _ (hl ▸ List.mem_append_right l List.mem_cons_self))
    exact ⟨by omega, by omega⟩
  obtain ⟨h₁, h₂⟩ := OrderedCompletion.straight_init.run (fun h => (by cases h))
    OrderedCompletion.sound_init (fun l k l' hl i hik _ => hearly l k l' hl i hik) hrun
  exact h₁.inOrder h₂ hsound hd

/-- Two threads take one task each, and the second one is faster. -/
theorem completes_in_order_two : ∃ (s : ThreadPool) (es : List TaskEvent) (t : OrderedCompletion),
    s.log = es ∧ s.finished = [1, 0] ∧
      OrderedCompletion.run {} (es.map (TaskEvent.since 0)) = some t ∧ t.InOrder := by
  have h : Reachable 2 (init 2) := ⟨[], rfl⟩
  have hr : Runs.run ThreadPool.step (init 2) [.delegate, .notify 0, .worker 0, .caller, .worker 0,
      .delegate, .notify 0, .worker 1, .worker 1, .caller, .worker 1, .worker 0, .worker 1] = some _ := rfl
  obtain ⟨es, t, hes, hrun, ht, -⟩ := completes_in_order h rfl hr rfl (by decide)
  exact ⟨_, es, t, hes, rfl, hrun, ht⟩

end ThreadPool

end NfpEstimator
