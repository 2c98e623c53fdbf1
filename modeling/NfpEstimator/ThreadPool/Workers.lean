import NfpEstimator.Runs
import NfpEstimator.ThreadPool

/-!
# The workers of the thread pool

`thread_pool` hands one function after another to its threads through the member `f`, under a
mutex and three condition variables: a thread waits on `cf` for a function, the caller waits on
`cd` until the function has been taken and on `cw` until all have been performed. What happens
while the mutex is held is one step. A notification wakes one of those that wait, if any does, and
anybody who waits may also wake up without one.

Whatever the threads do in which order, every function is performed exactly once, and `wait`
returns when all have been performed (`performs_each_once`).
-/

namespace NfpEstimator

/-- Where a thread is in `thread_pool::thread_handler`. -/
inductive Worker
  /-- It is about to take the mutex and to look for a function. -/
  | looking
  /-- It is in `cf.wait`. -/
  | waiting
  /-- It has taken the function of a task and has given the mutex back. -/
  | taken (task : ℕ)
  /-- It performs the function. -/
  | performing (task : ℕ)
  /-- The function has returned. -/
  | returned
  | exited
  deriving DecidableEq

/-- Where the caller of the pool is. -/
inductive Caller
  | idle
  /-- `delegate`: `f` has been set. -/
  | stored
  /-- `delegate`: it is about to take the mutex and to look whether the function has been taken. -/
  | offering
  /-- `delegate`: it is in `cd.wait`. -/
  | offered
  /-- `wait`: it is about to take the mutex and to look whether all functions have been performed. -/
  | checking
  /-- `wait`: it is in `cw.wait`. -/
  | waiting
  /-- `~thread_pool`: `quit` has been set. -/
  | quitting
  /-- `~thread_pool`: it joins this thread. -/
  | joining (w : ℕ)
  | destroyed
  deriving DecidableEq

/-- `thread_pool`, with the threads, the caller, and the tasks that have been started. -/
structure ThreadPool where
  threads : List Worker
  /-- The task whose function has been stored. -/
  f : Option ℕ := none
  delegated : ℕ := 0
  performed : ℕ := 0
  quit : Bool := false
  caller : Caller := .idle
  /-- How many tasks have been started. -/
  tasks : ℕ := 0
  log : List TaskEvent := []

/-- What can happen. -/
inductive PoolAction
  /-- `delegate` is called. -/
  | delegate
  /-- The caller performs a task by itself, as in `may_delegate`. -/
  | perform
  /-- `wait` is called. -/
  | wait
  /-- `~thread_pool` is called. -/
  | destroy
  /-- `cf.notify_one` in `delegate`, with the thread that is woken if one waits. -/
  | notify (w : ℕ)
  /-- The caller goes on. -/
  | caller
  /-- A thread goes on. -/
  | worker (w : ℕ)
  /-- A thread wakes up without a notification. -/
  | wakeWorker (w : ℕ)
  /-- The caller wakes up without a notification. -/
  | wakeCaller

namespace TaskEvent

/-- How many tasks are started. -/
def starts : List TaskEvent → ℕ
  | [] => 0
  | .delegate :: es | .perform :: es => starts es + 1
  | .finish _ :: es => starts es

theorem starts_append (es es' : List TaskEvent) : starts (es ++ es') = starts es + starts es' := by
  induction es with
  | nil => exact (Nat.zero_add _).symm
  | cons e es ih => cases e <;> simp [starts, ih] <;> omega

theorem finishing_append (n : ℕ) (es es' : List TaskEvent) :
    finishing n (es ++ es') = finishing n es ++ finishing (n + starts es) es' := by
  induction es generalizing n with
  | nil => rfl
  | cons e es ih =>
    have harith : n + 1 + starts es = n + (starts es + 1) := by omega
    cases e <;> simp [starts, finishing, ih, harith]

end TaskEvent

namespace Worker

/-- It is woken if it waits. -/
def wake : Worker → Worker
  | waiting => looking
  | x => x

/-- The task that it has taken and not finished. -/
def task : Worker → Option ℕ
  | taken k | performing k => some k
  | _ => none

end Worker

namespace Caller

/-- It is woken if it waits for its function to be taken. -/
def wakeOffered : Caller → Caller
  | offered => offering
  | c => c

/-- It is woken if it waits for all functions to be performed. -/
def wakeWaiting : Caller → Caller
  | waiting => checking
  | c => c

/-- It is in `delegate`. -/
def delegates : Caller → Bool
  | stored | offering | offered => true
  | _ => false

/-- It is in the destructor or behind it. -/
def quits : Caller → Bool
  | quitting | joining _ | destroyed => true
  | _ => false

/-- Another place in the same call. -/
structure SameCall (c c' : Caller) : Prop where
  delegates : c'.delegates = c.delegates
  quits : c'.quits = c.quits
  joining : ∀ w, c' = .joining w → c = .joining w
  destroyed : c' = .destroyed → c = .destroyed

theorem sameCall_wakeOffered (c : Caller) : c.SameCall c.wakeOffered := by
  cases c <;> exact ⟨rfl, rfl, fun _ h => by cases h <;> rfl, fun h => by cases h <;> rfl⟩

theorem sameCall_wakeWaiting (c : Caller) : c.SameCall c.wakeWaiting := by
  cases c <;> exact ⟨rfl, rfl, fun _ h => by cases h <;> rfl, fun h => by cases h <;> rfl⟩

end Caller

namespace ThreadPool

/-- `thread_pool::thread_pool`. -/
def init (size : ℕ) : ThreadPool := { threads := List.replicate size .looking }

/-- A thread is somewhere else now. -/
def setThread (s : ThreadPool) (w : ℕ) (x : Worker) : ThreadPool :=
  { s with threads := s.threads.set w x }

/-- The caller is somewhere else now. -/
def setCaller (s : ThreadPool) (c : Caller) : ThreadPool := { s with caller := c }

/-- `cf.wait` with its predicate, and what a thread does behind it until it gives the mutex back. -/
def look (s : ThreadPool) (w : ℕ) : ThreadPool :=
  if s.quit then s.setThread w .exited
  else match s.f with
    | none => s.setThread w .waiting
    | some k => { s.setThread w (.taken k) with f := none }

/-- A function that has returned is counted, and the caller is notified through `cw`. -/
def count (s : ThreadPool) (w : ℕ) : ThreadPool :=
  { s.setThread w .looking with
    performed := OrderedCompletion.increment s.performed, caller := s.caller.wakeWaiting }

/-- The caller is notified through `cd`, and the function is called. -/
def begin (s : ThreadPool) (w k : ℕ) : ThreadPool :=
  { s.setThread w (.performing k) with caller := s.caller.wakeOffered }

/-- The function returns. -/
def finish (s : ThreadPool) (w k : ℕ) : ThreadPool :=
  { s.setThread w .returned with log := s.log ++ [.finish k] }

/-- One step of `thread_handler`. -/
def handle (s : ThreadPool) (w : ℕ) : Worker → Option ThreadPool
  | .looking => some (s.look w)
  | .waiting => none
  | .taken k => some (s.begin w k)
  | .performing k => some (s.finish w k)
  | .returned => some ((s.count w).look w)
  | .exited => none

/-- The first critical section of `delegate`. -/
def store (s : ThreadPool) : ThreadPool :=
  { s with
    delegated := OrderedCompletion.increment s.delegated, f := some s.tasks, caller := .stored,
    tasks := s.tasks + 1, log := s.log ++ [.delegate] }

/-- `delegate` without threads. -/
def callAtOnce (s : ThreadPool) : ThreadPool :=
  { s with tasks := s.tasks + 1, log := s.log ++ [.delegate, .finish s.tasks] }

/-- The caller performs a task by itself. -/
def callAlone (s : ThreadPool) : ThreadPool :=
  { s with tasks := s.tasks + 1, log := s.log ++ [.perform] }

/-- `cf.notify_one`. -/
def notify (s : ThreadPool) (w : ℕ) : Option ThreadPool :=
  if s.caller ≠ .stored then none
  else if .waiting ∉ s.threads then some (s.setCaller .offering)
  else if s.threads[w]? = some .waiting then some ((s.setThread w .looking).setCaller .offering)
  else none

/-- `cf.notify_all`. -/
def notifyAll (s : ThreadPool) : ThreadPool := { s with threads := s.threads.map Worker.wake }

/-- The next step of the caller. -/
def proceed (s : ThreadPool) : Caller → Option ThreadPool
  | .offering => some (s.setCaller (if s.f = none then .idle else .offered))
  | .checking => some (s.setCaller (if s.delegated = s.performed then .idle else .waiting))
  | .quitting => some (s.notifyAll.setCaller (.joining 0))
  | .joining w =>
    if s.threads.length ≤ w then some (s.setCaller .destroyed)
    else if s.threads[w]? = some .exited then some (s.setCaller (.joining (w + 1)))
    else none
  | .idle | .stored | .offered | .waiting | .destroyed => none

/-- One step. -/
def step (s : ThreadPool) : PoolAction → Option ThreadPool
  | .delegate =>
    if s.caller ≠ .idle then none
    else some (if s.threads = [] then s.callAtOnce else s.store)
  | .perform => if s.caller ≠ .idle then none else some s.callAlone
  | .wait => if s.caller ≠ .idle then none else some (s.setCaller .checking)
  | .destroy =>
    if s.caller ≠ .idle then none else some { s.setCaller .quitting with quit := true }
  | .notify w => s.notify w
  | .caller => s.proceed s.caller
  | .worker w => s.threads[w]?.bind fun x => s.handle w x
  | .wakeWorker w =>
    if s.threads[w]? = some .waiting then some (s.setThread w .looking) else none
  | .wakeCaller =>
    if s.caller = .offered then some (s.setCaller .offering)
    else if s.caller = .waiting then some (s.setCaller .checking)
    else none

/-- The tasks that have finished, in the order of that. -/
def finished (s : ThreadPool) : List ℕ := TaskEvent.finishing 0 s.log

/-- The tasks that have been delegated and have not finished. -/
def inHand (s : ThreadPool) : List ℕ := s.f.toList ++ s.threads.filterMap Worker.task

/-- Some run of a pool with so many threads leads there. -/
def Reachable (size : ℕ) (s : ThreadPool) : Prop := Runs.Reachable step (init size) s

variable {s s' : ThreadPool} {w k : ℕ} {x : Worker} {c : Caller} {a : PoolAction}

/-! ### Lists of threads -/

/-- A thread in the list, and what it is replaced by. -/
theorem exists_of_getElem? {l : List Worker} (h : l[w]? = some x) :
    ∃ l₁ l₂, l = l₁ ++ x :: l₂ ∧ ∀ y, l.set w y = l₁ ++ y :: l₂ := by
  obtain ⟨hw, rfl⟩ := List.getElem?_eq_some_iff.mp h
  refine ⟨l.take w, l.drop (w + 1), ?_, fun y => List.set_eq_take_append_cons_drop.trans (if_pos hw)⟩
  rw [List.getElem_cons_drop, List.take_append_drop]

theorem filterMap_task_wake (l : List Worker) :
    (l.map Worker.wake).filterMap Worker.task = l.filterMap Worker.task := by
  rw [List.filterMap_map]
  exact List.filterMap_congr fun x _ => by cases x <;> rfl

theorem count_returned_wake (l : List Worker) :
    (l.map Worker.wake).count .returned = l.count .returned := by
  induction l with
  | nil => rfl
  | cons x l ih => cases x <;> simp [Worker.wake, ih]

theorem waiting_not_mem_wake (l : List Worker) : .waiting ∉ l.map Worker.wake := by
  rw [List.mem_map]
  rintro ⟨x, -, hx⟩
  cases x <;> cases hx

/-- How many functions have returned and are not counted yet. -/
def returned (s : ThreadPool) : ℕ := s.threads.count .returned

/-- The other tasks in hand are the same before and after a thread goes on. -/
theorem inHand_setThread (h : s.threads[w]? = some x) :
    ∃ others, s.inHand.Perm (x.task.toList ++ others) ∧
      ∀ y, (s.setThread w y).inHand.Perm (y.task.toList ++ others) := by
  obtain ⟨l₁, l₂, hl, hset⟩ := exists_of_getElem? h
  have hperm : ∀ y : Worker, (s.f.toList ++ (l₁ ++ y :: l₂).filterMap Worker.task).Perm
      (y.task.toList ++ (s.f.toList ++ (l₁ ++ l₂).filterMap Worker.task)) := by
    intro y
    have hy : (y :: l₂).filterMap Worker.task = y.task.toList ++ l₂.filterMap Worker.task := by
      cases hy : y.task <;> simp [hy]
    rw [List.filterMap_append, hy, List.filterMap_append]
    exact ((List.perm_append_comm_assoc ..).append_left _).trans (List.perm_append_comm_assoc ..)
  refine ⟨s.f.toList ++ (l₁ ++ l₂).filterMap Worker.task, ?_, fun y => ?_⟩
  · rw [inHand, hl]
    exact hperm x
  · rw [inHand, setThread, hset]
    exact hperm y

theorem returned_setThread (h : s.threads[w]? = some x) (y : Worker) :
    (s.setThread w y).returned + (if x = .returned then 1 else 0) =
      s.returned + (if y = .returned then 1 else 0) := by
  obtain ⟨l₁, l₂, hl, hset⟩ := exists_of_getElem? h
  rw [returned, returned, setThread, hset, hl]
  simp only [List.count_append, List.count_cons, beq_iff_eq]
  omega

theorem mem_setThread_of_ne {y z : Worker} (hw : s.threads[w]? = some x) (hz : z ∈ s.threads)
    (hne : z ≠ x) : z ∈ (s.setThread w y).threads := by
  obtain ⟨l₁, l₂, hl, hset⟩ := exists_of_getElem? hw
  rw [setThread, hset]
  rw [hl] at hz
  simp only [List.mem_append, List.mem_cons] at hz ⊢
  tauto

theorem mem_setThread_self {y : Worker} (hw : s.threads[w]? = some x) :
    y ∈ (s.setThread w y).threads := by
  obtain ⟨l₁, l₂, -, hset⟩ := exists_of_getElem? hw
  rw [setThread, hset]
  exact List.mem_append_right l₁ List.mem_cons_self

/-! ### What is logged -/

/-- What a step does to the tasks: nothing, or one of them is started, finishes or both. -/
inductive Logged (s s' : ThreadPool) : Prop
  | same (log : s'.log = s.log) (tasks : s'.tasks = s.tasks) (hand : s'.inHand.Perm s.inHand)
  | delegate (log : s'.log = s.log ++ [.delegate]) (tasks : s'.tasks = s.tasks + 1)
    (hand : s'.inHand = s.tasks :: s.inHand)
  | finish (k : ℕ) (log : s'.log = s.log ++ [.finish k]) (tasks : s'.tasks = s.tasks)
    (hand : s.inHand.Perm (k :: s'.inHand))
  | call (log : s'.log = s.log ++ [.delegate, .finish s.tasks]) (tasks : s'.tasks = s.tasks + 1)
    (hand : s'.inHand = s.inHand)
  | perform (log : s'.log = s.log ++ [.perform]) (tasks : s'.tasks = s.tasks + 1)
    (hand : s'.inHand = s.inHand)

/-- A thread goes on with the task that it has. -/
theorem perm_inHand_keep {y : Worker} (hw : s.threads[w]? = some x) (ht : y.task = x.task) :
    (s.setThread w y).inHand.Perm s.inHand := by
  obtain ⟨others, h₁, h₂⟩ := inHand_setThread hw
  exact (h₂ y).trans (ht ▸ h₁.symm)

theorem perm_inHand_look (hw : s.threads[w]? = some .looking) :
    (s.look w).inHand.Perm s.inHand := by
  rw [look]
  split_ifs with hq
  · exact perm_inHand_keep hw rfl
  cases hf : s.f with
  | none => exact perm_inHand_keep hw rfl
  | some k =>
    obtain ⟨l₁, l₂, hl, hset⟩ := exists_of_getElem? hw
    simp only [inHand, setThread, hset, hf, Option.toList_none, Option.toList_some]
    rw [hl]
    simp only [List.nil_append, List.filterMap_append, List.filterMap_cons, Worker.task]
    exact List.perm_middle

theorem log_look : (s.look w).log = s.log ∧ (s.look w).tasks = s.tasks := by
  rw [look]
  split_ifs
  · exact ⟨rfl, rfl⟩
  · cases s.f <;> exact ⟨rfl, rfl⟩

theorem getElem?_count (hw : s.threads[w]? = some .returned) :
    (s.count w).threads[w]? = some .looking := by
  obtain ⟨hlt, -⟩ := List.getElem?_eq_some_iff.mp hw
  exact List.getElem?_set_self hlt

theorem perm_inHand_finish (hw : s.threads[w]? = some (.performing k)) :
    s.inHand.Perm (k :: (s.finish w k).inHand) := by
  obtain ⟨others, h₁, h₂⟩ := inHand_setThread hw
  exact h₁.trans ((h₂ .returned).symm.cons k)

theorem inHand_store (hf : s.f = none) : s.store.inHand = s.tasks :: s.inHand := by
  simp [inHand, store, hf]

theorem inHand_notifyAll : s.notifyAll.inHand = s.inHand := by
  rw [inHand, notifyAll, filterMap_task_wake, inHand]

theorem logged_handle (hw : s.threads[w]? = some x) (hs : s.handle w x = some s') : Logged s s' := by
  cases x with
  | looking => exact Option.some.inj hs ▸ .same log_look.1 log_look.2 (perm_inHand_look hw)
  | waiting | exited => cases hs
  | taken k => exact Option.some.inj hs ▸ .same rfl rfl (perm_inHand_keep hw rfl)
  | performing k => exact Option.some.inj hs ▸ .finish k rfl rfl (perm_inHand_finish hw)
  | returned =>
    obtain rfl := Option.some.inj hs
    have hcount : (s.count w).inHand.Perm s.inHand := perm_inHand_keep hw rfl
    exact .same log_look.1 log_look.2 ((perm_inHand_look (getElem?_count hw)).trans hcount)

/-- What a step does to the tasks. The slot is empty before it is filled. -/
theorem logged_step (hf : s.caller = .idle → s.f = none) (hs : s.step a = some s') : Logged s s' := by
  cases a with
  | delegate =>
    simp only [step] at hs
    by_cases hc : s.caller = .idle
    · rw [if_neg (not_not.mpr hc)] at hs
      obtain rfl := Option.some.inj hs
      split_ifs
      · exact .call rfl rfl rfl
      · exact .delegate rfl rfl (inHand_store (hf hc))
    · rw [if_pos hc] at hs
      cases hs
  | perform =>
    simp only [step] at hs
    split_ifs at hs
    exact Option.some.inj hs ▸ .perform rfl rfl rfl
  | wait | destroy =>
    simp only [step] at hs
    split_ifs at hs
    exact Option.some.inj hs ▸ .same rfl rfl (.refl _)
  | notify w =>
    simp only [step, notify] at hs
    split_ifs at hs with hc hn hw
    all_goals obtain rfl := Option.some.inj hs
    · exact .same rfl rfl (perm_inHand_keep hw rfl)
    · exact .same rfl rfl (.refl _)
  | caller =>
    simp only [step] at hs
    unfold proceed at hs
    split at hs
    case h_3 => exact Option.some.inj hs ▸ .same rfl rfl (.of_eq (inHand_notifyAll (s := s)))
    case h_4 =>
      split_ifs at hs
      all_goals exact Option.some.inj hs ▸ .same rfl rfl (.refl _)
    all_goals first | exact Option.some.inj hs ▸ .same rfl rfl (.refl _) | cases hs
  | worker w =>
    obtain ⟨x, hw, hs⟩ := Option.bind_eq_some_iff.mp hs
    exact logged_handle hw hs
  | wakeWorker w =>
    simp only [step] at hs
    split_ifs at hs with hw
    exact Option.some.inj hs ▸ .same rfl rfl (perm_inHand_keep hw rfl)
  | wakeCaller =>
    simp only [step] at hs
    split_ifs at hs
    all_goals exact Option.some.inj hs ▸ .same rfl rfl (.refl _)

/-- Every task that has been started has finished or is in one hand. -/
structure Started (s : ThreadPool) : Prop where
  tasks : (s.finished ++ s.inHand).Perm (List.range s.tasks)
  starts : TaskEvent.starts s.log = s.tasks

theorem inHand_init (size : ℕ) : (init size).inHand = [] := by
  simp [inHand, init, List.filterMap_replicate, Worker.task]

theorem started_init (size : ℕ) : (init size).Started := ⟨by rw [inHand_init]; rfl, rfl⟩

theorem perm_range_succ {fin hand : List ℕ} {n : ℕ} (h : (fin ++ hand).Perm (List.range n)) :
    (fin ++ n :: hand).Perm (List.range (n + 1)) := by
  rw [List.range_succ]
  exact List.perm_middle.trans ((h.cons n).trans (List.perm_append_singleton n _).symm)

theorem Started.logged (h : s.Started) (hl : Logged s s') : s'.Started := by
  have happ : ∀ es, s'.log = s.log ++ es →
      s'.finished = s.finished ++ TaskEvent.finishing s.tasks es ∧
        TaskEvent.starts s'.log = s.tasks + TaskEvent.starts es := by
    intro es hes
    rw [finished, hes, TaskEvent.finishing_append, TaskEvent.starts_append, Nat.zero_add, h.starts]
    exact ⟨rfl, rfl⟩
  cases hl with
  | same log tasks hand =>
    obtain ⟨hfin, hst⟩ := happ [] (log.trans (List.append_nil _).symm)
    refine ⟨?_, hst.trans tasks.symm⟩
    rw [hfin, tasks, TaskEvent.finishing, List.append_nil]
    exact (hand.append_left _).trans h.tasks
  | delegate log tasks hand =>
    obtain ⟨hfin, hst⟩ := happ _ log
    refine ⟨?_, hst.trans tasks.symm⟩
    rw [hfin, hand, tasks, TaskEvent.finishing, TaskEvent.finishing, List.append_nil]
    exact perm_range_succ h.tasks
  | finish k log tasks hand =>
    obtain ⟨hfin, hst⟩ := happ _ log
    refine ⟨?_, hst.trans tasks.symm⟩
    rw [hfin, tasks, List.append_assoc]
    exact (hand.symm.append_left _).trans h.tasks
  | call log tasks hand | perform log tasks hand =>
    obtain ⟨hfin, hst⟩ := happ _ log
    refine ⟨?_, hst.trans tasks.symm⟩
    rw [hfin, hand, tasks, List.append_assoc]
    exact perm_range_succ h.tasks

/-! ### What is counted -/

/-- The counters differ by the tasks in hand and by the functions that have returned. -/
def Counted (s : ThreadPool) : Prop :=
  ∃ d p, s.delegated = d % 2 ^ 64 ∧ s.performed = p % 2 ^ 64 ∧ d = p + s.inHand.length + s.returned

theorem counted_init (size : ℕ) : (init size).Counted := by
  have hr : (init size).returned = 0 := by
    rw [returned, init, List.count_replicate]
    rfl
  exact ⟨0, 0, rfl, rfl, by rw [inHand_init, hr]; rfl⟩

/-- As many are in hand or have returned as before. -/
theorem Counted.of_eq (h : s.Counted) (hd : s'.delegated = s.delegated)
    (hp : s'.performed = s.performed)
    (hn : s'.inHand.length + s'.returned = s.inHand.length + s.returned) : s'.Counted := by
  obtain ⟨d, p, h₁, h₂, h₃⟩ := h
  exact ⟨d, p, hd.trans h₁, hp.trans h₂, by omega⟩

theorem Counted.keep {y : Worker} (h : s.Counted) (hw : s.threads[w]? = some x)
    (ht : y.task = x.task) (hx : x ≠ .returned) (hy : y ≠ .returned) : (s.setThread w y).Counted := by
  have hr := returned_setThread hw y
  rw [if_neg hx, if_neg hy] at hr
  refine h.of_eq rfl rfl ?_
  rw [(perm_inHand_keep hw ht).length_eq]
  omega

theorem Counted.look (h : s.Counted) (hw : s.threads[w]? = some .looking) : (s.look w).Counted := by
  rw [ThreadPool.look]
  split_ifs with hq
  · exact h.keep hw rfl (by simp) (by simp)
  cases hf : s.f with
  | none => exact h.keep hw rfl (by simp) (by simp)
  | some k =>
    have hperm := perm_inHand_look hw
    rw [ThreadPool.look, if_neg hq, hf] at hperm
    have hr := returned_setThread hw (.taken k)
    simp only [reduceCtorEq, if_false, Nat.add_zero] at hr
    refine h.of_eq rfl rfl ?_
    rw [hperm.length_eq]
    exact congrArg (s.inHand.length + ·) hr

theorem Counted.count (h : s.Counted) (hw : s.threads[w]? = some .returned) : (s.count w).Counted := by
  have hperm : (s.setThread w .looking).inHand.Perm s.inHand := perm_inHand_keep hw rfl
  have hr := returned_setThread hw .looking
  simp only [reduceCtorEq, if_false, if_true, Nat.add_zero] at hr
  obtain ⟨d, p, hd, hp, hdp⟩ := h
  refine ⟨d, p + 1, hd, ?_, ?_⟩
  · show OrderedCompletion.increment s.performed = _
    rw [hp, OrderedCompletion.increment, Nat.mod_add_mod]
  · show d = p + 1 + (s.setThread w .looking).inHand.length + (s.setThread w .looking).returned
    rw [hdp, hperm.length_eq]
    omega

theorem Counted.finish (h : s.Counted) (hw : s.threads[w]? = some (.performing k)) :
    (s.finish w k).Counted := by
  have hlen := (perm_inHand_finish hw).length_eq
  rw [List.length_cons] at hlen
  have hr : (s.finish w k).returned + _ = _ := returned_setThread hw .returned
  simp only [reduceCtorEq, if_false, if_true, Nat.add_zero] at hr
  exact h.of_eq rfl rfl (by omega)

theorem Counted.store (h : s.Counted) (hf : s.f = none) : s.store.Counted := by
  obtain ⟨d, p, hd, hp, hdp⟩ := h
  refine ⟨d + 1, p, ?_, hp, ?_⟩
  · show OrderedCompletion.increment s.delegated = _
    rw [hd, OrderedCompletion.increment, Nat.mod_add_mod]
  · rw [inHand_store hf, List.length_cons, show s.store.returned = s.returned from rfl]
    omega

theorem Counted.notifyAll (h : s.Counted) : s.notifyAll.Counted := by
  refine h.of_eq rfl rfl ?_
  rw [inHand_notifyAll, returned, returned, ThreadPool.notifyAll, count_returned_wake]

/-! ### Who is where -/

/-- Where the caller, the function that is offered and the threads are. -/
structure Phases (s : ThreadPool) : Prop where
  slot : s.f ≠ none → s.caller.delegates = true
  threads : s.caller.delegates = true → s.threads ≠ []
  quit : s.quit = s.caller.quits
  exited : .exited ∈ s.threads → s.quit = true
  joining : ∀ w, s.caller = .joining w → .waiting ∉ s.threads
  joined : ∀ w, s.caller = .joining w → ∀ i < w, s.threads[i]? = some .exited
  destroyed : s.caller = .destroyed → ∀ x ∈ s.threads, x = .exited

theorem Phases.init (size : ℕ) : (init size).Phases := by
  refine ⟨fun h => absurd rfl h, fun h => ?_, rfl, fun h => ?_, fun w h => ?_, fun w h => ?_, fun h => ?_⟩
  · cases h
  · cases List.eq_of_mem_replicate h
  all_goals cases h

theorem Phases.f_eq_none (h : s.Phases) (hc : s.caller.delegates = false) : s.f = none := by
  by_contra hf
  rw [h.slot hf] at hc
  cases hc

/-- What is counted and logged does not matter. -/
theorem Phases.of_eq (h : s.Phases) (ht : s'.threads = s.threads) (hf : s'.f = s.f)
    (hc : s'.caller = s.caller) (hq : s'.quit = s.quit) : s'.Phases := by
  refine ⟨?_, ?_, ?_, ?_, ?_, ?_, ?_⟩
  all_goals simp only [ht, hf, hc, hq]
  exacts [h.slot, h.threads, h.quit, h.exited, h.joining, h.joined, h.destroyed]

/-- A thread goes on. -/
theorem Phases.setThread {y : Worker} (h : s.Phases) (hw : s.threads[w]? = some x)
    (hx : x ≠ .exited) (hy : y = .exited → s.quit = true) (hy' : y = .waiting → s.quit = false) :
    (s.setThread w y).Phases := by
  have hmem : x ∈ s.threads := List.mem_of_getElem? hw
  refine ⟨h.slot, fun hc => ?_, h.quit, fun he => ?_, fun v hv hm => ?_, fun v hv i hi => ?_, fun hd => ?_⟩
  · exact fun hn => List.not_mem_nil (hn ▸ mem_setThread_self (y := y) hw)
  · rcases List.mem_or_eq_of_mem_set he with he | he
    · exact h.exited he
    · exact hy he.symm
  · rcases List.mem_or_eq_of_mem_set hm with hm | hm
    · exact h.joining v hv hm
    · have hq := hy' hm.symm
      rw [h.quit, show s.caller = .joining v from hv] at hq
      cases hq
  · have hi := h.joined v hv i hi
    have hne : w ≠ i := fun heq => hx (Option.some.inj (hw.symm.trans (heq ▸ hi)))
    exact (List.getElem?_set_ne hne).trans hi
  · exact absurd (h.destroyed hd x hmem) hx

/-- The caller goes on in the same call. -/
theorem Phases.setCaller (h : s.Phases) (hc : s.caller.SameCall c) : (s.setCaller c).Phases where
  slot hf := hc.delegates.trans (h.slot hf)
  threads hd := h.threads (hc.delegates.symm.trans hd)
  quit := h.quit.trans hc.quits.symm
  exited := h.exited
  joining w hw := h.joining w (hc.joining w hw)
  joined w hw := h.joined w (hc.joining w hw)
  destroyed hd := h.destroyed (hc.destroyed hd)

/-- A call begins or ends. -/
theorem Phases.enter (h : s.Phases) (hf : s.f = none) (hd : c.delegates = false)
    (hq : c.quits = s.caller.quits) (hc : c.quits = false) : (s.setCaller c).Phases where
  slot hf' := absurd hf hf'
  threads hd' := absurd (hd.symm.trans hd') Bool.false_ne_true
  quit := h.quit.trans hq.symm
  exited := h.exited
  joining w hw := by rw [show c = .joining w from hw] at hc; cases hc
  joined w hw := by rw [show c = .joining w from hw] at hc; cases hc
  destroyed hw := by rw [show c = .destroyed from hw] at hc; cases hc

/-- The slot is emptied. -/
theorem Phases.clear (h : s.Phases) : ({ s with f := none } : ThreadPool).Phases :=
  ⟨fun hf => absurd rfl hf, h.threads, h.quit, h.exited, h.joining, h.joined, h.destroyed⟩

theorem Phases.look (h : s.Phases) (hw : s.threads[w]? = some .looking) : (s.look w).Phases := by
  rw [ThreadPool.look]
  split_ifs with hq
  · exact h.setThread hw (by simp) (fun _ => hq) (by simp)
  cases hf : s.f with
  | none => exact h.setThread hw (by simp) (by simp) fun _ => Bool.eq_false_iff.mpr hq
  | some k => exact (h.setThread (y := .taken k) hw (by simp) (by simp) (by simp)).clear

theorem Phases.count (h : s.Phases) (hw : s.threads[w]? = some .returned) : (s.count w).Phases :=
  ((h.setThread (y := .looking) hw (by simp) (by simp) (by simp)).setCaller
    (Caller.sameCall_wakeWaiting _)).of_eq rfl rfl rfl rfl

theorem Phases.begin (h : s.Phases) (hw : s.threads[w]? = some (.taken k)) : (s.begin w k).Phases :=
  (h.setThread (y := .performing k) hw (by simp) (by simp) (by simp)).setCaller
    (Caller.sameCall_wakeOffered _)

theorem Phases.finish (h : s.Phases) (hw : s.threads[w]? = some (.performing k)) :
    (s.finish w k).Phases :=
  (h.setThread (y := .returned) hw (by simp) (by simp) (by simp)).of_eq rfl rfl rfl rfl

theorem Phases.store (h : s.Phases) (hc : s.caller = .idle) (ht : s.threads ≠ []) : s.store.Phases where
  slot _ := rfl
  threads _ := ht
  quit := h.quit.trans (by rw [hc]; rfl)
  exited := h.exited
  joining w hw := by cases hw
  joined w hw := by cases hw
  destroyed hw := by cases hw

/-! ### Who is going to be woken -/

/-- Nobody waits for something that has happened. -/
structure Awake (s : ThreadPool) : Prop where
  /-- Once `cf` has been notified of a function, some thread does not wait. -/
  seen : s.f ≠ none → s.caller ≠ .stored → ∃ x ∈ s.threads, x ≠ .waiting
  /-- Whoever has taken the function is going to notify the caller. -/
  offered : s.caller = .offered → s.f ≠ none ∨ ∃ k, .taken k ∈ s.threads
  waiting : s.caller = .waiting → s.delegated ≠ s.performed

/-- A thread goes on that has not waited, or it is woken. -/
theorem Awake.setThread {y : Worker} (h : s.Awake) (hw : s.threads[w]? = some x)
    (hx : ∀ k, x ≠ .taken k) (hy : y = .waiting → s.f = none) : (s.setThread w y).Awake where
  seen hf _ := ⟨y, mem_setThread_self hw, fun h => hf (hy h)⟩
  offered hc := by
    rcases h.offered hc with hf | ⟨k, hk⟩
    · exact .inl hf
    · exact .inr ⟨k, mem_setThread_of_ne hw hk (hx k).symm⟩
  waiting := h.waiting

/-- A caller that does not wait. -/
theorem Awake.setCaller (h : s.f ≠ none → c ≠ .stored → ∃ x ∈ s.threads, x ≠ .waiting)
    (ho : c ≠ .offered) (hw : c ≠ .waiting) : (s.setCaller c).Awake :=
  ⟨h, fun hc => absurd hc ho, fun hc => absurd hc hw⟩

/-- In the destructor nobody is offered a function. -/
theorem awake_of_quits (hf : s.f = none) (hq : s.caller.quits = true) : s.Awake where
  seen hf' := absurd hf hf'
  offered hc := by rw [hc] at hq; cases hq
  waiting hc := by rw [hc] at hq; cases hq

theorem Awake.look (h : s.Awake) (hp : s.Phases) (hw : s.threads[w]? = some .looking) :
    (s.look w).Awake := by
  rw [ThreadPool.look]
  split_ifs with hq
  · rw [hp.quit] at hq
    have hf : s.f = none := hp.f_eq_none (by cases hc : s.caller <;> rw [hc] at hq <;> first | rfl | cases hq)
    exact awake_of_quits hf hq
  cases hf : s.f with
  | none => exact h.setThread hw (by simp) fun _ => hf
  | some k => exact ⟨fun hf' => absurd rfl hf', fun _ => .inr ⟨k, mem_setThread_self hw⟩, h.waiting⟩

theorem Awake.count (h : s.Awake) (hw : s.threads[w]? = some .returned) : (s.count w).Awake where
  seen _ _ := ⟨.looking, mem_setThread_self hw, by simp⟩
  offered hc := by
    have hc : s.caller = .offered := by
      cases hs : s.caller <;> rw [show (s.count w).caller = s.caller.wakeWaiting from rfl, hs] at hc <;>
        first | rfl | cases hc
    rcases h.offered hc with hf | ⟨k, hk⟩
    · exact .inl hf
    · exact .inr ⟨k, mem_setThread_of_ne hw hk (by simp)⟩
  waiting hc := by
    cases hs : s.caller <;> rw [show (s.count w).caller = s.caller.wakeWaiting from rfl, hs] at hc <;> cases hc

theorem Awake.begin (h : s.Awake) (hw : s.threads[w]? = some (.taken k)) : (s.begin w k).Awake where
  seen _ _ := ⟨.performing k, mem_setThread_self hw, by simp⟩
  offered hc := by
    cases hs : s.caller <;> rw [show (s.begin w k).caller = s.caller.wakeOffered from rfl, hs] at hc <;> cases hc
  waiting hc := by
    refine h.waiting ?_
    cases hs : s.caller <;> rw [show (s.begin w k).caller = s.caller.wakeOffered from rfl, hs] at hc <;>
      first | rfl | cases hc

theorem Awake.finish (h : s.Awake) (hw : s.threads[w]? = some (.performing k)) : (s.finish w k).Awake := by
  obtain ⟨h₁, h₂, h₃⟩ := h.setThread (y := .returned) hw (by simp) (by simp)
  exact ⟨h₁, h₂, h₃⟩

/-! ### Steps -/

/-- What holds in every state of a pool. -/
structure Inv (s : ThreadPool) : Prop where
  counted : s.Counted
  phases : s.Phases
  awake : s.Awake

theorem Inv.init (size : ℕ) : (init size).Inv :=
  ⟨counted_init size, .init size, fun hf => absurd rfl hf, fun hc => (by cases hc), fun hc => (by cases hc)⟩

/-- Outside of `delegate` nothing is offered. -/
theorem Inv.f_eq_none (h : s.Inv) (hc : s.caller.delegates = false) : s.f = none :=
  h.phases.f_eq_none hc

/-- A call begins or ends. -/
theorem Inv.enter (h : s.Inv) (hf : s.f = none) (hd : c.delegates = false)
    (hq : c.quits = s.caller.quits) (hc : c.quits = false)
    (hw : c = .waiting → s.delegated ≠ s.performed) : (s.setCaller c).Inv := by
  refine ⟨h.counted, h.phases.enter hf hd hq hc,
    fun hf' => absurd hf hf', fun ho => ?_, hw⟩
  rw [show c = .offered from ho] at hd
  cases hd

theorem Inv.delegate (h : s.Inv) (hc : s.caller = .idle) :
    (if s.threads = [] then s.callAtOnce else s.store).Inv := by
  have hf : s.f = none := h.f_eq_none (by rw [hc]; rfl)
  split_ifs with ht
  · refine ⟨h.counted, h.phases.of_eq rfl rfl rfl rfl,
      h.awake.seen, h.awake.offered, h.awake.waiting⟩
  · exact ⟨h.counted.store hf, h.phases.store hc ht, fun _ hs => absurd rfl hs,
      fun ho => (by cases ho), fun hw => (by cases hw)⟩

theorem Inv.callAlone (h : s.Inv) : s.callAlone.Inv :=
  ⟨h.counted, h.phases.of_eq rfl rfl rfl rfl, h.awake.seen, h.awake.offered, h.awake.waiting⟩

theorem Inv.destroy (h : s.Inv) (hc : s.caller = .idle) :
    ({ s.setCaller .quitting with quit := true } : ThreadPool).Inv := by
  have hf : s.f = none := h.f_eq_none (by rw [hc]; rfl)
  refine ⟨h.counted, ?_, awake_of_quits hf rfl⟩
  exact ⟨fun hf' => absurd hf hf', fun hd => (by cases hd), rfl, fun _ => rfl, fun _ hw => (by cases hw),
    fun _ hw => (by cases hw), fun hw => (by cases hw)⟩

/-- A thread that waits is woken. -/
theorem Inv.wake (h : s.Inv) (hw : s.threads[w]? = some .waiting) : (s.setThread w .looking).Inv :=
  ⟨h.counted.keep hw rfl (by simp) (by simp), h.phases.setThread hw (by simp) (by simp) (by simp),
    h.awake.setThread hw (by simp) (by simp)⟩

theorem Inv.notify (h : s.Inv) (hs : s.notify w = some s') : s'.Inv := by
  unfold ThreadPool.notify at hs
  split_ifs at hs with hc hn hw
  all_goals obtain rfl := Option.some.inj hs
  all_goals
    have hcall : s.caller.SameCall .offering := by
      rw [not_not.mp hc]
      exact ⟨rfl, rfl, fun _ h => (by cases h), fun h => (by cases h)⟩
  · have hi := h.wake hw
    refine ⟨hi.counted, hi.phases.setCaller hcall, ?_⟩
    exact .setCaller (fun _ _ => ⟨.looking, mem_setThread_self hw, by simp⟩) (by simp) (by simp)
  · -- nobody waits, so that any thread is going to look
    obtain ⟨x, hx⟩ := List.exists_mem_of_ne_nil _ (h.phases.threads (by rw [not_not.mp hc]; rfl))
    refine ⟨h.counted, h.phases.setCaller hcall, ?_⟩
    exact .setCaller (fun _ _ => ⟨x, hx, fun heq => hn (heq ▸ hx)⟩) (by simp) (by simp)

theorem Inv.handle (h : s.Inv) (hw : s.threads[w]? = some x) (hs : s.handle w x = some s') :
    s'.Inv := by
  cases x with
  | looking =>
    obtain rfl := Option.some.inj hs
    exact ⟨h.counted.look hw, h.phases.look hw, h.awake.look h.phases hw⟩
  | waiting => cases hs
  | taken k =>
    obtain rfl := Option.some.inj hs
    have hk : (s.setThread w (.performing k)).Counted := h.counted.keep hw rfl (by simp) (by simp)
    exact ⟨hk, h.phases.begin hw, h.awake.begin hw⟩
  | performing k =>
    obtain rfl := Option.some.inj hs
    exact ⟨h.counted.finish hw, h.phases.finish hw, h.awake.finish hw⟩
  | returned =>
    obtain rfl := Option.some.inj hs
    have hi : (s.count w).Inv := ⟨h.counted.count hw, h.phases.count hw, h.awake.count hw⟩
    have hl := getElem?_count hw
    exact ⟨hi.counted.look hl, hi.phases.look hl, hi.awake.look hi.phases hl⟩
  | exited => cases hs

theorem Inv.proceed (h : s.Inv) (hs : s.proceed s.caller = some s') : s'.Inv := by
  cases hc : s.caller
  all_goals rw [hc] at hs
  case offering =>
    obtain rfl := Option.some.inj hs
    split_ifs with hf
    · exact h.enter hf rfl (by rw [hc]; rfl) rfl fun hw => (by cases hw)
    · have hcall : s.caller.SameCall .offered := by
        rw [hc]
        exact ⟨rfl, rfl, fun _ h => (by cases h), fun h => (by cases h)⟩
      refine ⟨h.counted, h.phases.setCaller hcall, ?_⟩
      exact ⟨fun _ _ => h.awake.seen hf (by simp [hc]), fun _ => .inl hf, fun hw => (by cases hw)⟩
  case checking =>
    obtain rfl := Option.some.inj hs
    have hf : s.f = none := h.f_eq_none (by rw [hc]; rfl)
    split_ifs with heq
    · exact h.enter hf rfl (by rw [hc]; rfl) rfl fun hw => (by cases hw)
    · exact h.enter hf rfl (by rw [hc]; rfl) rfl fun _ => heq
  case quitting =>
    obtain rfl := Option.some.inj hs
    have hf : s.f = none := h.f_eq_none (by rw [hc]; rfl)
    have hn := h.counted.notifyAll
    refine ⟨hn, ?_, awake_of_quits hf rfl⟩
    have hq : s.quit = true := by rw [h.phases.quit, hc]; rfl
    exact ⟨fun hf' => absurd hf hf', fun hd => (by cases hd), hq, fun _ => hq,
      fun _ _ => waiting_not_mem_wake s.threads, fun v hv i hi => (by cases hv; cases hi),
      fun hd => (by cases hd)⟩
  case joining v =>
    have hf : s.f = none := h.f_eq_none (by rw [hc]; rfl)
    have hq : s.quit = true := by rw [h.phases.quit, hc]; rfl
    simp only [ThreadPool.proceed] at hs
    split_ifs at hs with hv he
    all_goals obtain rfl := Option.some.inj hs
    all_goals refine ⟨h.counted, ?_, awake_of_quits hf rfl⟩
    · refine ⟨fun hf' => absurd hf hf', fun hd => (by cases hd), hq, h.phases.exited,
        fun _ hw => (by cases hw), fun _ hw => (by cases hw), fun _ x hx => ?_⟩
      obtain ⟨i, hi, rfl⟩ := List.mem_iff_getElem.mp hx
      exact (List.getElem?_eq_some_iff.mp (h.phases.joined v hc i (hi.trans_le hv))).2
    · refine ⟨fun hf' => absurd hf hf', fun hd => (by cases hd), hq, h.phases.exited,
        fun _ _ => h.phases.joining v hc, fun u hu i hi => ?_, fun hw => (by cases hw)⟩
      obtain rfl : v + 1 = u := by injection hu
      rcases Nat.lt_succ_iff_lt_or_eq.mp hi with hi | rfl
      · exact h.phases.joined v hc i hi
      · exact he
  all_goals cases hs

/-- Every step keeps the invariant. -/
theorem Inv.step (h : s.Inv) (hs : s.step a = some s') : s'.Inv := by
  cases a with
  | delegate =>
    simp only [ThreadPool.step] at hs
    by_cases hc : s.caller = .idle
    · rw [if_neg (not_not.mpr hc)] at hs
      exact Option.some.inj hs ▸ h.delegate hc
    · rw [if_pos hc] at hs
      cases hs
  | perform =>
    simp only [ThreadPool.step] at hs
    split_ifs at hs with hc
    exact Option.some.inj hs ▸ h.callAlone
  | wait =>
    simp only [ThreadPool.step] at hs
    split_ifs at hs with hc
    have hc := not_not.mp hc
    exact Option.some.inj hs ▸ h.enter (h.f_eq_none (by rw [hc]; rfl)) rfl (by rw [hc]; rfl) rfl
      fun hw => (by cases hw)
  | destroy =>
    simp only [ThreadPool.step] at hs
    split_ifs at hs with hc
    exact Option.some.inj hs ▸ h.destroy (not_not.mp hc)
  | notify w => exact h.notify hs
  | caller => exact h.proceed hs
  | worker w =>
    obtain ⟨x, hw, hs⟩ := Option.bind_eq_some_iff.mp hs
    exact h.handle hw hs
  | wakeWorker w =>
    simp only [ThreadPool.step] at hs
    split_ifs at hs with hw
    exact Option.some.inj hs ▸ h.wake hw
  | wakeCaller =>
    simp only [ThreadPool.step] at hs
    split_ifs at hs with ho hw
    · obtain rfl := Option.some.inj hs
      refine ⟨h.counted, h.phases.setCaller ?_, ?_⟩
      · rw [ho]
        exact ⟨rfl, rfl, fun _ h => (by cases h), fun h => (by cases h)⟩
      · exact .setCaller (fun hf _ => h.awake.seen hf (by simp [ho])) (by simp) (by simp)
    · exact Option.some.inj hs ▸ h.enter (h.f_eq_none (by rw [hw]; rfl)) rfl (by rw [hw]; rfl) rfl
        fun hw => (by cases hw)

theorem Reachable.inv {size : ℕ} (h : Reachable size s) : s.Inv := by
  obtain ⟨as, hr⟩ := h
  exact Runs.run_invariant (fun _ _ _ hi hs => hi.step hs) (.init size) hr

theorem Inv.logged (h : s.Inv) (hs : s.step a = some s') : Logged s s' :=
  logged_step (fun hc => h.f_eq_none (by rw [hc]; rfl)) hs

theorem Reachable.started {size : ℕ} (h : Reachable size s) : s.Started := by
  obtain ⟨as, hr⟩ := h
  exact (Runs.run_invariant (P := fun s => s.Inv ∧ s.Started)
    (fun _ _ _ hi hs => ⟨hi.1.step hs, hi.2.logged (hi.1.logged hs)⟩)
    ⟨.init size, started_init size⟩ hr).2

/-! ### Every function is performed once -/

theorem length_look : (s.look w).threads.length = s.threads.length := by
  rw [ThreadPool.look]
  split_ifs
  · exact List.length_set
  · cases s.f <;> exact List.length_set

/-- The threads stay. -/
theorem length_step (hs : s.step a = some s') : s'.threads.length = s.threads.length := by
  cases a with
  | delegate =>
    simp only [ThreadPool.step] at hs
    split at hs
    · cases hs
    · obtain rfl := Option.some.inj hs
      split <;> rfl
  | perform | wait | destroy =>
    simp only [ThreadPool.step] at hs
    split_ifs at hs
    exact Option.some.inj hs ▸ rfl
  | notify w =>
    simp only [ThreadPool.step, notify] at hs
    split_ifs at hs
    all_goals obtain rfl := Option.some.inj hs
    · exact List.length_set
    · rfl
  | caller =>
    simp only [ThreadPool.step] at hs
    unfold proceed at hs
    split at hs
    case h_3 => exact Option.some.inj hs ▸ List.length_map ..
    case h_4 =>
      split_ifs at hs
      all_goals exact Option.some.inj hs ▸ rfl
    all_goals first | exact Option.some.inj hs ▸ rfl | cases hs
  | worker w =>
    obtain ⟨x, hw, hs⟩ := Option.bind_eq_some_iff.mp hs
    cases x
    case returned => exact Option.some.inj hs ▸ length_look.trans List.length_set
    case looking => exact Option.some.inj hs ▸ length_look
    all_goals first | exact Option.some.inj hs ▸ List.length_set | cases hs
  | wakeWorker w =>
    simp only [ThreadPool.step] at hs
    split_ifs at hs
    exact Option.some.inj hs ▸ List.length_set
  | wakeCaller =>
    simp only [ThreadPool.step] at hs
    split_ifs at hs
    all_goals exact Option.some.inj hs ▸ rfl

theorem Reachable.length {size : ℕ} (h : Reachable size s) : s.threads.length = size := by
  obtain ⟨as, hr⟩ := h
  exact Runs.run_invariant (P := fun s => s.threads.length = size)
    (fun _ _ _ hi hs => (length_step hs).trans hi) List.length_replicate hr

theorem length_task_add_count_le (l : List Worker) :
    (l.filterMap Worker.task).length + l.count .returned ≤ l.length := by
  induction l with
  | nil => exact Nat.le_refl _
  | cons x l ih => cases x <;> simp [List.filterMap_cons, Worker.task] <;> omega

/-- The counters tell whether something is left to do, as long as they cannot wrap in between. -/
theorem Inv.inHand_eq_nil (h : s.Inv) (hlen : s.threads.length < 2 ^ 64) (hf : s.f = none)
    (heq : s.delegated = s.performed) : s.inHand = [] := by
  obtain ⟨d, p, hd, hp, hdp⟩ := h.counted
  have hle : s.inHand.length + s.returned ≤ s.threads.length := by
    rw [inHand, hf]
    exact length_task_add_count_le s.threads
  rw [hd, hp] at heq
  exact List.length_eq_zero_iff.mp (by omega)

theorem Started.finished_perm (h : s.Started) (hh : s.inHand = []) :
    s.finished.Perm (List.range s.tasks) := by
  have ht := h.tasks
  rwa [hh, List.append_nil] at ht

/-- **Every function is performed exactly once.** In every state each task that has been started
has finished or is in the hand of one thread or of the caller, `delegate` has returned only once the
function has been taken, and when `wait` returns or the pool is destroyed, all have finished. -/
theorem performs_each_once {size : ℕ} (hsize : size < 2 ^ 64) (h : Reachable size s) :
    (s.finished ++ s.inHand).Perm (List.range s.tasks) ∧
      (s.caller = .idle → s.f = none) ∧
      (s.caller = .checking → ∀ s', s.step .caller = some s' → s'.caller = .idle →
        s'.finished.Perm (List.range s'.tasks)) ∧
      (s.caller = .destroyed →
        s.finished.Perm (List.range s.tasks) ∧ ∀ x ∈ s.threads, x = .exited) := by
  have hi := h.inv
  have hst := h.started
  refine ⟨hst.tasks, fun hc => hi.f_eq_none (by rw [hc]; rfl), fun hc s' hs hc' => ?_, fun hc => ?_⟩
  · have hf : s.f = none := hi.f_eq_none (by rw [hc]; rfl)
    have hs : s.proceed s.caller = some s' := hs
    rw [hc] at hs
    obtain rfl := Option.some.inj hs
    by_cases heq : s.delegated = s.performed
    · exact hst.finished_perm (hi.inHand_eq_nil (h.length ▸ hsize) hf heq)
    · rw [if_neg heq] at hc'
      cases hc'
  · have hall := hi.phases.destroyed hc
    have hf : s.f = none := hi.f_eq_none (by rw [hc]; rfl)
    have hh : s.inHand = [] := by
      rw [inHand, hf, Option.toList_none, List.nil_append, List.filterMap_eq_nil_iff]
      intro x hx
      rw [hall x hx]
      rfl
    exact ⟨hst.finished_perm hh, hall⟩

/-- Two threads, and a task that one of them has performed while the caller waits. -/
theorem performs_each_once_two : ∃ s, Reachable 2 s ∧ s.caller = .checking ∧
    ∃ s', s.step .caller = some s' ∧ s'.caller = .idle ∧ s'.finished.Perm (List.range s'.tasks) := by
  have hr : Reachable 2 _ :=
    ⟨[.worker 0, .worker 1, .delegate, .notify 1, .worker 1, .worker 1, .caller, .wait, .worker 1, .worker 1], rfl⟩
  exact ⟨_, hr, rfl, _, rfl, rfl, (performs_each_once (by decide) hr).2.2.1 rfl _ rfl rfl⟩

end ThreadPool

end NfpEstimator
