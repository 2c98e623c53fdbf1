import NfpEstimator.Table

/-!
# Ordered completion

Tasks are started in an order and finish in any other one. `thread_pool::orderered_completion_state`
numbers them as they are started. When a task finishes, its callback is executed if those of
all tasks before it are, and with it the callbacks that have been waiting for it; else it waits in
the map `results`.

The number of a task is truncated to an `unsigned int` when it is started. The main result is when the callbacks are
executed in the order of the tasks (`inOrder_iff_unwrapped`): when no task whose number does
not fit into 32 bits finishes before one that was started earlier.
-/

namespace NfpEstimator

/-- What can be seen of an `orderered_completion_state`. -/
inductive Completion
  /-- A task has finished. -/
  | finished (task : ℕ)
  /-- The callback of a task is executed, with a number. -/
  | callback (task i : ℕ)
  deriving DecidableEq

/-- `thread_pool::orderered_completion_state`, with the tasks that have been started. -/
structure OrderedCompletion where
  started : ℕ := 0
  completed : ℕ := 0
  /-- The tasks whose callbacks wait, in the order of the map's keys. -/
  results : List (ℕ × ℕ) := []
  /-- The tasks that have been delegated and have not finished, with what they have captured as
  `index`. -/
  delegated : List (ℕ × ℕ) := []
  /-- How many tasks have been started. -/
  tasks : ℕ := 0
  log : List Completion := []

namespace OrderedCompletion

/-- `++` on an `unsigned long`. -/
def increment (n : ℕ) : ℕ := (n + 1) % 2 ^ 64

/-- A callback is executed. -/
def execute (s : OrderedCompletion) (task i : ℕ) : OrderedCompletion :=
  { s with log := s.log ++ [.callback task i], completed := increment s.completed }

/-- These callbacks wait. -/
def setResults (s : OrderedCompletion) (rs : List (ℕ × ℕ)) : OrderedCompletion :=
  { s with results := rs }

/-- The loop over `results` in `sync`. -/
def executeWaiting (s : OrderedCompletion) : List (ℕ × ℕ) → OrderedCompletion
  | [] => s.setResults []
  | r :: rs =>
    if r.1 ≠ s.completed then s.setResults (r :: rs)
    else (s.execute r.2 s.completed).executeWaiting rs

/-- `sync(c, index)`, with the callback of the task. -/
def sync (s : OrderedCompletion) (task index : ℕ) : OrderedCompletion :=
  if s.completed < index then s.setResults (Table.assign index task s.results)
  else (s.execute task index).executeWaiting s.results

/-- A task has come to its end. -/
def record (s : OrderedCompletion) (task : ℕ) : OrderedCompletion :=
  { s with log := s.log ++ [.finished task] }

/-- A task has come to its end, and its result is handed over. -/
def finish (s : OrderedCompletion) (task index : ℕ) : OrderedCompletion :=
  (s.record task).sync task index

/-- `unsigned int index = this->started++`. -/
def index (s : OrderedCompletion) : ℕ := s.started % 2 ^ 32

/-- The task is numbered. -/
def start (s : OrderedCompletion) : OrderedCompletion :=
  { s with started := increment s.started, tasks := s.tasks + 1 }

end OrderedCompletion

/-- What the caller and the workers do. -/
inductive TaskEvent
  /-- `delegate`, or `may_delegate` with `may`. -/
  | delegate
  /-- `may_delegate` without `may`: the caller performs the task. -/
  | perform
  /-- A worker has performed a task that was delegated. -/
  | finish (task : ℕ)

namespace OrderedCompletion

/-- One event. Only a task that was delegated and has not finished can finish. -/
def step (s : OrderedCompletion) : TaskEvent → Option OrderedCompletion
  | .delegate => some { s.start with delegated := s.delegated ++ [(s.tasks, s.index)] }
  | .perform => some (s.start.finish s.tasks s.index)
  | .finish k =>
    (s.delegated.find? fun t => t.1 = k).map fun t =>
      { s with delegated := s.delegated.eraseP fun t => t.1 = k }.finish k t.2

/-- A sequence of events. -/
def run (s : OrderedCompletion) : List TaskEvent → Option OrderedCompletion
  | [] => some s
  | e :: es => (s.step e).bind fun s' => s'.run es

/-- The tasks that have finished. -/
def finished (s : OrderedCompletion) : List ℕ :=
  s.log.filterMap fun | .finished k => some k | .callback _ _ => none

/-- The tasks whose callbacks have been executed, in the order of that. -/
def callbacks (s : OrderedCompletion) : List ℕ :=
  s.log.filterMap fun | .finished _ => none | .callback k _ => some k

/-- The callbacks have been executed once for each task, in the order in which they were started,
each after its task has finished, and nothing waits. -/
structure InOrder (s : OrderedCompletion) : Prop where
  callbacks : s.callbacks = List.range s.tasks
  finished : ∀ l k i l', s.log = l ++ .callback k i :: l' → Completion.finished k ∈ l
  results : s.results = []

end OrderedCompletion

namespace TaskEvent

/-- The tasks in the order in which they finish, from a number of tasks on. -/
def finishing (n : ℕ) : List TaskEvent → List ℕ
  | [] => []
  | .delegate :: es => finishing (n + 1) es
  | .perform :: es => n :: finishing (n + 1) es
  | .finish k :: es => k :: finishing n es

/-- A task that finishes before a task `i` that was started earlier has a number that fits into
32 bits, as far as it is counted. -/
def Early (i k : ℕ) : Prop := k % 2 ^ 64 < 2 ^ 32 ∧ i / 2 ^ 64 = k / 2 ^ 64

/-- No task whose number is truncated finishes before one that was started earlier. -/
def Unwrapped (es : List TaskEvent) : Prop :=
  ∀ l k l', finishing 0 es = l ++ k :: l' → ∀ i < k, i ∉ l → Early i k

end TaskEvent

namespace OrderedCompletion

variable {s s' : OrderedCompletion} {task k i : ℕ} {rs : List (ℕ × ℕ)}

/-! ### The loop over the callbacks that wait -/

/-- What holds before the loop and is kept by each callback of it holds after it, and then the first callback
that waits is not the next one. -/
theorem executeWaiting_induction {P : OrderedCompletion → Prop}
    (hP : ∀ (s : OrderedCompletion) r rs, P (s.setResults (r :: rs)) → r.1 = s.completed →
      P ((s.execute r.2 s.completed).setResults rs))
    (h : P (s.setResults rs)) :
    P (s.executeWaiting rs) ∧
      ∀ r ∈ (s.executeWaiting rs).results.head?, r.1 ≠ (s.executeWaiting rs).completed := by
  induction rs generalizing s with
  | nil => exact ⟨h, fun _ hr => nomatch hr⟩
  | cons r rs ih =>
    rw [executeWaiting]
    split_ifs with hr
    · exact ⟨h, fun _ h => Option.mem_some.mp h ▸ hr⟩
    · exact ih (hP s r rs h (not_not.mp hr))

@[simp] theorem callbacks_execute : (s.execute k i).callbacks = s.callbacks ++ [k] := by
  simp [callbacks, execute]

@[simp] theorem finished_execute : (s.execute k i).finished = s.finished := by
  simp [finished, execute]


@[simp] theorem callbacks_setResults : (s.setResults rs).callbacks = s.callbacks := rfl

@[simp] theorem finished_setResults : (s.setResults rs).finished = s.finished := rfl

@[simp] theorem results_setResults : (s.setResults rs).results = rs := rfl

@[simp] theorem completed_setResults : (s.setResults rs).completed = s.completed := rfl

@[simp] theorem results_record : (s.record k).results = s.results := rfl

@[simp] theorem completed_record : (s.record k).completed = s.completed := rfl

@[simp] theorem callbacks_record : (s.record k).callbacks = s.callbacks := by
  simp [callbacks, record]

@[simp] theorem finished_record : (s.record k).finished = s.finished ++ [k] := by
  simp [finished, record]

/-- The number of a task, after another one of the same 64 bits. -/
theorem increment_length (h : s.completed = s.callbacks.length % 2 ^ 64) :
    (s.execute k i).completed = (s.execute k i).callbacks.length % 2 ^ 64 := by
  simp only [callbacks_execute, List.length_append, List.length_singleton]
  rw [show (s.execute k i).completed = (s.completed + 1) % 2 ^ 64 from rfl, h, Nat.mod_add_mod]

/-! ### The keys of the map -/

/-- The callbacks that wait are behind what has been completed, whoever they belong to. -/
structure Waits (s : OrderedCompletion) : Prop where
  sorted : Table.Sorted s.results
  completed : s.completed = s.callbacks.length % 2 ^ 64
  keys : ∀ x ∈ s.results, s.completed ≤ x.1 ∧ x.1 < 2 ^ 32

/-- Besides, the next callback does not wait. -/
def Settled (s : OrderedCompletion) : Prop := s.Waits ∧ ∀ x ∈ s.results, s.completed < x.1

theorem Settled.execute (h : s.Settled) : (s.execute k i).Waits where
  sorted := h.1.sorted
  completed := increment_length h.1.completed
  keys x hx := by
    have h1 := h.2 x hx
    have h2 := (h.1.keys x hx).2
    refine ⟨?_, h2⟩
    rw [show (s.execute k i).completed = (s.completed + 1) % 2 ^ 64 from rfl]
    omega

theorem Settled.record (h : s.Settled) : (s.record k).Settled :=
  ⟨⟨h.1.sorted, by simpa using h.1.completed, h.1.keys⟩, h.2⟩

theorem Waits.tail {r : ℕ × ℕ} (h : (s.setResults (r :: rs)).Waits) (hr : r.1 = s.completed) :
    (s.setResults rs).Settled := by
  obtain ⟨hr1, hs⟩ := Table.sorted_cons.mp h.sorted
  refine ⟨⟨hs, h.completed, fun x hx => ?_⟩, fun x hx => ?_⟩
  · exact h.keys x (List.mem_cons_of_mem r hx)
  · exact hr ▸ hr1 x hx

theorem Waits.next {r : ℕ × ℕ} (h : (s.setResults (r :: rs)).Waits) (hr : r.1 = s.completed) :
    ((s.execute r.2 s.completed).setResults rs).Waits := (h.tail hr).execute

theorem Waits.executeWaiting (h : (s.setResults rs).Waits) :
    (s.executeWaiting rs).Settled := by
  obtain ⟨h1, h2⟩ := executeWaiting_induction (fun _ _ _ h hr => h.next hr) h
  refine ⟨h1, fun x hx => lt_of_le_of_ne (h1.keys x hx).1 fun hc => ?_⟩
  have hs := h1.sorted
  cases hq : (s.executeWaiting rs).results with
  | nil => exact nomatch hq ▸ hx
  | cons r l =>
    rw [hq] at h2 hs hx
    have hr := (h1.keys r (hq ▸ List.mem_cons_self)).1
    rcases List.mem_cons.mp hx with rfl | hx
    · exact h2 x rfl hc.symm
    · exact absurd ((Table.sorted_cons.mp hs).1 x hx) (by omega)

theorem Settled.sync (h : s.Settled) (hi : i < 2 ^ 32) : (s.sync k i).Settled := by
  rw [OrderedCompletion.sync]
  split_ifs with hc
  · refine ⟨⟨h.1.sorted.assign, h.1.completed, fun x hx => ?_⟩, fun x hx => ?_⟩
    all_goals rcases Table.mem_or_mem_of_mem_assign hx with rfl | hx
    · exact ⟨hc.le, hi⟩
    · exact h.1.keys x hx
    · exact hc
    · exact h.2 x hx
  · exact Waits.executeWaiting h.execute

/-! ### In order -/

/-- What has been executed are the first callbacks, of tasks that have finished, and those of the
other tasks that have finished wait under their own numbers. -/
structure Straight (s : OrderedCompletion) : Prop where
  callbacks : s.callbacks = List.range s.callbacks.length
  finished : ∀ k < s.callbacks.length, k ∈ s.finished
  waiting : ∀ x ∈ s.results, x.2 ∈ s.finished ∧ s.callbacks.length ≤ x.2 ∧ x.1 = x.2 % 2 ^ 64 ∧
    s.callbacks.length / 2 ^ 64 = x.2 / 2 ^ 64
  mem : ∀ k ∈ s.finished, k < s.callbacks.length ∨ (k % 2 ^ 64, k) ∈ s.results

/-- The callback that is the next one is executed. -/
theorem Straight.execute (h : s.Straight) (hc : k = s.callbacks.length) (hk : k ∈ s.finished)
    (hrs : ∀ x, x ∈ rs ↔ x ∈ s.results ∧ k < x.2) :
    ((s.execute k i).setResults rs).Straight where
  callbacks := by simp [List.range_succ, ← h.callbacks, hc]
  finished j hj := by
    simp only [callbacks_setResults, callbacks_execute, List.length_append, List.length_singleton] at hj
    rcases Nat.lt_succ_iff_lt_or_eq.mp hj with h1 | rfl
    · simpa using h.finished j h1
    · simpa using hc ▸ hk
  waiting x hx := by
    obtain ⟨hx, hlt⟩ := (hrs x).mp hx
    obtain ⟨h1, h2, h3, h4⟩ := h.waiting x hx
    simp only [finished_setResults, finished_execute, callbacks_setResults, callbacks_execute,
      List.length_append, List.length_singleton]
    exact ⟨h1, by omega, h3, by omega⟩
  mem j hj := by
    simp only [finished_setResults, finished_execute, callbacks_setResults, callbacks_execute,
      List.length_append, List.length_singleton] at hj ⊢
    rcases h.mem j hj with h1 | h1
    · exact Or.inl (h1.trans (Nat.lt_succ_self _))
    · rcases Nat.lt_or_ge k j with h2 | h2
      · exact Or.inr ((hrs _).mpr ⟨h1, h2⟩)
      · exact Or.inl (Nat.lt_succ_of_le (hc ▸ h2))

/-- The first of the callbacks that wait is the next one as soon as its key is. -/
theorem Straight.next {r : ℕ × ℕ} (h : (s.setResults (r :: rs)).Straight)
    (hs : (s.setResults (r :: rs)).Waits) (hr : r.1 = s.completed) :
    ((s.execute r.2 s.completed).setResults rs).Straight := by
  obtain ⟨h1, h2, h3, h4⟩ := h.waiting r List.mem_cons_self
  have hc := hs.completed
  simp only [callbacks_setResults, completed_setResults] at h2 h4 hc
  have hr2 : r.2 = s.callbacks.length := by omega
  have hlt := (Table.sorted_cons.mp hs.sorted).1
  refine Straight.execute (s := s.setResults (r :: rs)) h hr2 h1 fun x => ?_
  simp only [results_setResults, List.mem_cons]
  constructor
  · intro hx
    obtain ⟨-, h5, h6, h7⟩ := h.waiting x (List.mem_cons_of_mem r hx)
    have h8 := hlt x hx
    simp only [callbacks_setResults] at h5 h7
    exact ⟨Or.inr hx, by omega⟩
  · rintro ⟨rfl | hx, h5⟩
    · exact absurd h5 (by omega)
    · exact hx

/-- After the loop all of the first callbacks are executed. -/
theorem Straight.executeWaiting (h : (s.setResults rs).Straight)
    (hs : (s.setResults rs).Waits) :
    (s.executeWaiting rs).Straight ∧
      (s.executeWaiting rs).callbacks.length ∉ (s.executeWaiting rs).finished := by
  obtain ⟨⟨-, h1⟩, -⟩ := executeWaiting_induction (P := fun s => s.Waits ∧ s.Straight)
    (fun _ _ _ h hr => ⟨h.1.next hr, h.2.next h.1 hr⟩) ⟨hs, h⟩
  refine ⟨h1, fun hf => ?_⟩
  -- were the next task finished, its callback would wait under the next key
  rcases h1.mem _ hf with h2 | h2
  · exact lt_irrefl _ h2
  · have h3 := hs.executeWaiting.2 _ h2
    rw [hs.executeWaiting.1.completed] at h3
    exact lt_irrefl _ h3

/-- A task has finished, and its callback waits under its own number. -/
theorem Straight.add (h : s.Straight) (hc : s.callbacks.length ≤ k)
    (hk : s.callbacks.length / 2 ^ 64 = k / 2 ^ 64)
    (hrs : ∀ x, x ∈ rs ↔ x = (k % 2 ^ 64, k) ∨ x ∈ s.results) :
    ((s.record k).setResults rs).Straight where
  callbacks := by simpa using h.callbacks
  finished j hj := by
    simp only [callbacks_setResults, callbacks_record, finished_setResults, finished_record] at hj ⊢
    exact List.mem_append_left _ (h.finished j hj)
  waiting x hx := by
    simp only [callbacks_setResults, callbacks_record, finished_setResults, finished_record]
    rcases (hrs x).mp hx with rfl | hx
    · exact ⟨List.mem_append_right _ (List.mem_singleton.mpr rfl), hc, rfl, hk⟩
    · exact ⟨List.mem_append_left _ (h.waiting x hx).1, (h.waiting x hx).2⟩
  mem j hj := by
    simp only [callbacks_setResults, callbacks_record, finished_setResults, finished_record] at hj ⊢
    rcases List.mem_append.mp hj with hj | hj
    · exact (h.mem j hj).imp_right fun h => (hrs _).mpr (Or.inr h)
    · exact Or.inr ((hrs _).mpr (Or.inl (by rw [List.mem_singleton.mp hj])))

/-- A task finishes: either it is the first that has not, or its number fits into 32 bits. -/
theorem Straight.finish (h : s.Straight) (hs : s.Settled) (hc : s.callbacks.length ∉ s.finished)
    (hk : k ∉ s.finished) (he : ∀ i < k, i ∉ s.finished → TaskEvent.Early i k) :
    (s.finish k (k % 2 ^ 32)).Straight ∧
      (s.finish k (k % 2 ^ 32)).callbacks.length ∉ (s.finish k (k % 2 ^ 32)).finished := by
  have hle : s.callbacks.length ≤ k := le_of_not_gt fun h1 => hk (h.finished k h1)
  have hne : ∀ x ∈ s.results, x.2 ≠ k := fun x hx h1 => hk (h1 ▸ (h.waiting x hx).1)
  have hcompleted := hs.1.completed
  rw [OrderedCompletion.finish, OrderedCompletion.sync, completed_record, results_record]
  rcases hle.eq_or_lt with hk | hlt
  · -- its callback is the next one, as if it had been waiting
    rw [if_neg (show ¬ s.completed < k % 2 ^ 32 by omega)]
    refine Straight.executeWaiting ?_ hs.record.execute
    have hadd : ((s.record k).setResults ((k % 2 ^ 64, k) :: s.results)).Straight :=
      h.add hle (by rw [hk]) fun x => List.mem_cons
    refine hadd.execute (by simp [hk]) (by simp) fun x => ?_
    constructor
    · exact fun hx => ⟨List.mem_cons_of_mem _ hx,
        lt_of_le_of_ne (hk ▸ (h.waiting x hx).2.1) fun h1 => hne x hx h1.symm⟩
    · rintro ⟨hx, hlt⟩
      exact (List.mem_cons.mp hx).resolve_left fun h1 => by simp [h1] at hlt
  · obtain ⟨h1, h2⟩ := he _ hlt hc
    have hk32 : k % 2 ^ 32 = k % 2 ^ 64 := by omega
    rw [if_pos (show s.completed < k % 2 ^ 32 by omega), hk32]
    refine ⟨h.add hle h2 fun x => ⟨Table.mem_or_mem_of_mem_assign, ?_⟩, ?_⟩
    · rintro (rfl | hx)
      · exact Table.mem_assign_self
      · obtain ⟨-, h3, h4, h5⟩ := h.waiting x hx
        exact Table.mem_assign_of_mem hx fun h6 => hne x hx (by omega)
    · simp only [callbacks_setResults, callbacks_record, finished_setResults, finished_record,
        List.mem_append, List.mem_singleton]
      rintro (h3 | h3)
      · exact hc h3
      · exact hlt.ne h3

/-! ### Out of order -/

/-- A task has finished, but its callback is not executed at its place, nor will it be. -/
structure Lost (s : OrderedCompletion) (k : ℕ) : Prop where
  finished : k ∈ s.finished
  callbacks : s.callbacks[k]? ≠ some k
  waiting : ∀ x ∈ s.results, x.2 = k → s.callbacks.length / 2 ^ 64 * 2 ^ 64 + x.1 ≠ k

variable {m : ℕ}

theorem Lost.execute (h : s.Lost k) (hs : s.Settled) (hm : m = k → s.callbacks.length ≠ k) :
    (s.execute m i).Lost k where
  finished := by simpa using h.finished
  callbacks := by
    have h1 := h.callbacks
    rw [callbacks_execute]
    rcases lt_trichotomy k s.callbacks.length with hk | hk | hk
    · rwa [List.getElem?_append_left hk]
    · simp only [hk, List.getElem?_concat_length]
      exact fun h2 => hm (hk ▸ Option.some.inj h2) hk.symm
    · rw [List.getElem?_eq_none (by simpa using Nat.succ_le_of_lt hk)]
      exact (Option.some_ne_none k).symm
  waiting x hx he := by
    have h1 := h.waiting x hx he
    -- keys are below 2 ^ 32, so the counter does not wrap around while something waits
    have h2 := hs.2 x hx
    have h3 := hs.1.keys x hx
    have h4 := hs.1.completed
    have h5 : (s.callbacks.length + 1) / 2 ^ 64 = s.callbacks.length / 2 ^ 64 := by omega
    rwa [callbacks_execute, List.length_append, List.length_singleton, h5]

theorem Lost.executeWaiting (h : (s.setResults rs).Lost k) (hs : (s.setResults rs).Waits) :
    (s.executeWaiting rs).Lost k := by
  refine (executeWaiting_induction (P := fun s => s.Waits ∧ s.Lost k) ?_ ⟨hs, h⟩).1.2
  rintro s r rs ⟨hs, h⟩ hr
  refine ⟨hs.next hr, ?_⟩
  refine Lost.execute (s := s.setResults rs) ?_ (hs.tail hr) fun he => ?_
  · exact ⟨h.finished, h.callbacks, fun x hx => h.waiting x (List.mem_cons_of_mem r hx)⟩
  · have h1 := h.waiting r List.mem_cons_self he
    have h2 := hs.completed
    simp only [callbacks_setResults, completed_setResults] at h1 h2 ⊢
    omega

theorem Lost.finish (h : s.Lost k) (hs : s.Settled) (hm : m ≠ k) : (s.finish m i).Lost k := by
  have h1 : (s.record m).Lost k := by
    refine ⟨?_, ?_, ?_⟩
    · simpa using Or.inl h.finished
    · simpa using h.callbacks
    · simpa using h.waiting
  rw [OrderedCompletion.finish, OrderedCompletion.sync]
  split_ifs
  · refine ⟨h1.finished, h1.callbacks, fun x hx he => ?_⟩
    rcases Table.mem_or_mem_of_mem_assign hx with rfl | hx
    · exact absurd he hm
    · exact h1.waiting x hx he
  · exact Lost.executeWaiting (h1.execute hs.record fun h2 => absurd h2 hm) hs.record.execute

/-- A callback is lost when a task finishes before an earlier one and its number is truncated. -/
theorem lost_finish (hs : s.Settled) (hk : ∀ x ∈ s.results, x.2 ≠ k)
    (hc : s.callbacks.length ≤ i) (hi : i < k) (he : ¬ TaskEvent.Early i k) :
    (s.finish k (k % 2 ^ 32)).Lost k := by
  rw [TaskEvent.Early, not_and] at he
  have hc' : (s.record k).callbacks.length < k := by simpa using hc.trans_lt hi
  rw [OrderedCompletion.finish, OrderedCompletion.sync]
  split_ifs
  · refine ⟨by simp, ?_, fun x hx h1 => ?_⟩
    · rw [callbacks_setResults, List.getElem?_eq_none hc'.le]
      exact (Option.some_ne_none k).symm
    · rcases Table.mem_or_mem_of_mem_assign hx with rfl | hx
      · simp only [callbacks_setResults, callbacks_record]
        omega
      · exact absurd h1 (hk x hx)
  · refine Lost.executeWaiting ⟨by simp, ?_, fun x hx h1 => absurd h1 (hk x hx)⟩ hs.record.execute
    rw [callbacks_setResults, callbacks_execute, List.getElem?_eq_none (by simpa using Nat.succ_le_of_lt hc')]
    exact (Option.some_ne_none k).symm

/-! ### What has finished -/

theorem mem_finished : k ∈ s.finished ↔ .finished k ∈ s.log := by
  simp only [OrderedCompletion.finished, List.mem_filterMap]
  constructor
  · rintro ⟨a, ha, hk⟩
    cases a with
    | finished j => exact Option.some.inj hk ▸ ha
    | callback j i => exact nomatch hk
  · exact fun h => ⟨_, h, rfl⟩

theorem mem_callbacks : k ∈ s.callbacks ↔ ∃ i, .callback k i ∈ s.log := by
  simp only [OrderedCompletion.callbacks, List.mem_filterMap]
  constructor
  · rintro ⟨a, ha, hk⟩
    cases a with
    | finished j => exact nomatch hk
    | callback j i => exact ⟨i, Option.some.inj hk ▸ ha⟩
  · exact fun ⟨i, h⟩ => ⟨_, h, rfl⟩

/-- Only the callbacks of tasks that have finished are executed, or wait. -/
structure Performed (s : OrderedCompletion) : Prop where
  log : ∀ l k i l', s.log = l ++ .callback k i :: l' → Completion.finished k ∈ l
  waiting : ∀ x ∈ s.results, x.2 ∈ s.finished

theorem Performed.mem_finished (h : s.Performed) (hk : k ∈ s.callbacks) : k ∈ s.finished := by
  obtain ⟨i, hi⟩ := mem_callbacks.mp hk
  obtain ⟨l, l', hl⟩ := List.append_of_mem hi
  rw [OrderedCompletion.mem_finished, hl]
  exact List.mem_append_left _ (h.log l k i l' hl)

theorem Performed.execute (h : s.Performed) (hk : k ∈ s.finished) : (s.execute k i).Performed where
  log l j i' l' hl := by
    rcases List.eq_nil_or_concat l' with rfl | ⟨l'', a, rfl⟩
    · obtain ⟨rfl, h1⟩ := List.append_inj' hl rfl
      obtain ⟨rfl, -⟩ := Completion.callback.inj (List.singleton_inj.mp h1)
      exact OrderedCompletion.mem_finished.mp hk
    · refine h.log l j i' l'' ?_
      rw [List.concat_eq_append, ← List.cons_append, ← List.append_assoc] at hl
      exact (List.append_inj' hl rfl).1
  waiting x hx := by simpa using h.waiting x hx

theorem Performed.executeWaiting (h : (s.setResults rs).Performed) :
    (s.executeWaiting rs).Performed := by
  refine (executeWaiting_induction (fun s r rs h _ => ?_) h).1
  refine Performed.execute (s := s.setResults rs) ⟨h.log, fun x hx => ?_⟩ ?_
  · exact h.waiting x (List.mem_cons_of_mem r hx)
  · exact h.waiting r List.mem_cons_self

theorem Performed.record (h : s.Performed) : (s.record k).Performed where
  log l j i l' hl := by
    rcases List.eq_nil_or_concat l' with rfl | ⟨l'', a, rfl⟩
    · exact nomatch List.singleton_inj.mp (List.append_inj' hl rfl).2
    · refine h.log l j i l'' ?_
      rw [List.concat_eq_append, ← List.cons_append, ← List.append_assoc] at hl
      exact (List.append_inj' hl rfl).1
  waiting x hx := by simpa using Or.inl (h.waiting x hx)

theorem Performed.finish (h : s.Performed) : (s.finish k i).Performed := by
  rw [OrderedCompletion.finish, OrderedCompletion.sync]
  split_ifs
  · refine ⟨h.record.log, fun x hx => ?_⟩
    rcases Table.mem_or_mem_of_mem_assign hx with rfl | hx
    · simp
    · exact h.record.waiting x hx
  · exact Performed.executeWaiting (h.record.execute (by simp))

/-! ### Numbers -/

/-- The numbers and the tasks that have been delegated are as given. -/
def renumber (s : OrderedCompletion) (started : ℕ) (delegated : List (ℕ × ℕ)) (tasks : ℕ) :
    OrderedCompletion :=
  { s with started := started, delegated := delegated, tasks := tasks }

/-- The tasks are numbered, and those that have not finished have been delegated. -/
structure Numbered (s : OrderedCompletion) : Prop where
  started : s.started = s.tasks % 2 ^ 64
  index : ∀ t ∈ s.delegated, t.2 = t.1 % 2 ^ 32
  perm : (s.finished ++ s.delegated.map Prod.fst).Perm (List.range s.tasks)

/-- Handing over a result changes no number, and lets no other task finish. -/
structure SameTasks (s s' : OrderedCompletion) : Prop where
  started : s'.started = s.started
  delegated : s'.delegated = s.delegated
  tasks : s'.tasks = s.tasks
  finished : s'.finished = s.finished
  callbacks : s.callbacks <+: s'.callbacks

theorem sameTasks_executeWaiting : SameTasks s (s.executeWaiting rs) := by
  refine (executeWaiting_induction (P := SameTasks s) (fun t r rs h _ => ?_) ?_).1
  · refine ⟨h.started, h.delegated, h.tasks, ?_, ?_⟩
    · simpa using h.finished
    · simpa using h.callbacks.trans (List.prefix_append _ _)
  · exact ⟨rfl, rfl, rfl, rfl, List.prefix_refl _⟩

theorem sameTasks_sync : SameTasks s (s.sync k i) := by
  rw [OrderedCompletion.sync]
  split_ifs
  · exact ⟨rfl, rfl, rfl, rfl, List.prefix_refl _⟩
  · have h : SameTasks (s.execute k i) ((s.execute k i).executeWaiting s.results) :=
      sameTasks_executeWaiting
    refine ⟨h.started, h.delegated, h.tasks, ?_, ?_⟩
    · simpa using h.finished
    · exact (by simp : s.callbacks <+: (s.execute k i).callbacks).trans h.callbacks

@[simp] theorem finished_finish : (s.finish k i).finished = s.finished ++ [k] := by
  rw [OrderedCompletion.finish, sameTasks_sync.finished, finished_record]

@[simp] theorem tasks_finish : (s.finish k i).tasks = s.tasks := sameTasks_sync.tasks

@[simp] theorem delegated_finish : (s.finish k i).delegated = s.delegated := sameTasks_sync.delegated

@[simp] theorem started_finish : (s.finish k i).started = s.started := sameTasks_sync.started

/-- What an event comes to, with the tasks that finish with it. -/
inductive Moves (s : OrderedCompletion) : List ℕ → OrderedCompletion → Prop
  | start (started : ℕ) (delegated : List (ℕ × ℕ)) (tasks : ℕ) :
    Moves s [] (s.renumber started delegated tasks)
  | finish (started : ℕ) (delegated : List (ℕ × ℕ)) (tasks k : ℕ) (hk : k ∉ s.finished) :
    Moves s [k] ((s.renumber started delegated tasks).finish k (k % 2 ^ 32))

theorem Numbered.not_mem (h : s.Numbered) : s.tasks ∉ s.finished := fun hk =>
  lt_irrefl _ (List.mem_range.mp (h.perm.mem_iff.mp (List.mem_append_left _ hk)))

/-- A task that the last number was given to, or that was delegated, finishes. -/
theorem Numbered.finish {n : ℕ} {d : List (ℕ × ℕ)} (hd : ∀ t ∈ d, t.2 = t.1 % 2 ^ 32)
    (hp : (s.finished ++ k :: d.map Prod.fst).Perm (List.range n)) :
    ((s.renumber (n % 2 ^ 64) d n).finish k i).Numbered := by
  refine ⟨?_, fun t ht => hd t ?_, ?_⟩
  · rw [started_finish, tasks_finish, renumber]
  · rwa [delegated_finish] at ht
  · rw [finished_finish, delegated_finish, tasks_finish, List.append_assoc]
    exact hp

theorem step_moves {e : TaskEvent} (h : s.Numbered) (hs : s.step e = some s') :
    s'.Numbered ∧ ∃ ks, s.Moves ks s' ∧
      ∀ es, TaskEvent.finishing s.tasks (e :: es) = ks ++ TaskEvent.finishing s'.tasks es := by
  have hstarted : increment s.started = (s.tasks + 1) % 2 ^ 64 := by
    rw [increment, h.started, Nat.mod_add_mod]
  have hindex : s.index = s.tasks % 2 ^ 32 := by
    rw [OrderedCompletion.index, h.started]
    omega
  have hrange := List.range_succ ▸ h.perm.append_right [s.tasks]
  cases e with
  | delegate =>
    obtain rfl := Option.some.inj hs
    refine ⟨⟨hstarted, fun t ht => ?_, ?_⟩, [], .start .., fun es => rfl⟩
    · rcases List.mem_append.mp ht with ht | ht
      · exact h.index t ht
      · rw [List.mem_singleton.mp ht, hindex]
    · have hp : (s.finished ++ (s.delegated ++ [(s.tasks, s.index)]).map Prod.fst).Perm
          (List.range (s.tasks + 1)) := by simpa using hrange
      exact hp
  | perform =>
    obtain rfl := Option.some.inj hs
    have hp : (s.finished ++ s.tasks :: s.delegated.map Prod.fst).Perm (List.range (s.tasks + 1)) := by
      refine List.Perm.trans ?_ hrange
      rw [List.append_assoc]
      exact (List.perm_append_singleton _ _).symm.append_left _
    have hstart : s.start = s.renumber ((s.tasks + 1) % 2 ^ 64) s.delegated (s.tasks + 1) := by
      rw [start, hstarted, renumber]
    rw [hstart, hindex]
    refine ⟨Numbered.finish h.index hp, _, .finish _ _ _ _ h.not_mem, fun es => ?_⟩
    rw [TaskEvent.finishing, List.singleton_append, tasks_finish, renumber]
  | finish k =>
    obtain ⟨t, ht, rfl⟩ := Option.map_eq_some_iff.mp hs
    have hk := of_decide_eq_true (List.find?_some (p := fun t : ℕ × ℕ => decide (t.1 = k)) ht)
    have hmem := List.mem_of_find?_eq_some ht
    obtain ⟨t', l₁, l₂, -, ht', hl, herase⟩ :=
      List.exists_of_eraseP (p := fun t : ℕ × ℕ => decide (t.1 = k)) hmem (decide_eq_true hk)
    have ht' := of_decide_eq_true ht'
    rw [herase, h.index t hmem, hk]
    have hp : (s.finished ++ k :: (l₁ ++ l₂).map Prod.fst).Perm (List.range s.tasks) := by
      refine List.Perm.trans (List.Perm.append_left _ ?_) h.perm
      rw [hl, ← ht', ← List.map_cons]
      exact List.perm_middle.symm.map _
    have hd : ∀ u ∈ l₁ ++ l₂, u.2 = u.1 % 2 ^ 32 := fun u hu =>
      h.index u (hl ▸ List.mem_append.mpr ((List.mem_append.mp hu).imp_right (List.mem_cons_of_mem _)))
    have hnot : k ∉ s.finished := fun hf =>
      (List.nodup_append.mp (hp.nodup_iff.mpr List.nodup_range)).2.2 k hf k List.mem_cons_self rfl
    have hs' : ({ s with delegated := l₁ ++ l₂ } : OrderedCompletion) =
        s.renumber (s.tasks % 2 ^ 64) (l₁ ++ l₂) s.tasks := by
      rw [← h.started, renumber]
    rw [hs']
    refine ⟨Numbered.finish hd hp, _, .finish _ _ _ _ hnot, fun es => ?_⟩
    rw [TaskEvent.finishing, List.singleton_append, tasks_finish, renumber]

/-! ### Runs -/

/-- What holds whatever order the tasks finish in. -/
structure Sound (s : OrderedCompletion) : Prop where
  numbered : s.Numbered
  settled : s.Settled
  performed : s.Performed

theorem sound_init : Sound {} := by
  refine ⟨⟨rfl, fun _ ht => (nomatch ht), List.Perm.refl []⟩,
    ⟨⟨Table.sorted_nil, rfl, fun _ hx => (nomatch hx)⟩, fun _ hx => (nomatch hx)⟩,
    ⟨fun l k i l' h => ?_, fun _ hx => (nomatch hx)⟩⟩
  exact nomatch (List.append_eq_nil_iff.mp h.symm).2

theorem straight_init : Straight {} :=
  ⟨rfl, fun _ hk => (nomatch hk), fun _ hx => (nomatch hx), fun _ hk => (nomatch hk)⟩

theorem Settled.finish (h : s.Settled) : (s.finish k (k % 2 ^ 32)).Settled :=
  h.record.sync (Nat.mod_lt _ (Nat.two_pow_pos 32))

variable {ks : List ℕ} {e : TaskEvent} {es : List TaskEvent}

theorem Moves.finished (h : s.Moves ks s') : s'.finished = s.finished ++ ks := by
  cases h with
  | start => exact (List.append_nil _).symm
  | finish => exact finished_finish

theorem Moves.callbacks (h : s.Moves ks s') : s.callbacks <+: s'.callbacks := by
  cases h with
  | start => exact List.prefix_refl _
  | finish a d n k _ =>
    have h := (sameTasks_sync (s := (s.renumber a d n).record k) (k := k) (i := k % 2 ^ 32)).callbacks
    rwa [callbacks_record] at h

theorem Moves.settled (h : s.Moves ks s') (hs : s.Settled) : s'.Settled := by
  have hr : ∀ a d n, (s.renumber a d n).Settled := fun a d n =>
    ⟨⟨hs.1.sorted, hs.1.completed, hs.1.keys⟩, hs.2⟩
  cases h with
  | start => exact hr ..
  | finish => exact (hr ..).finish

theorem Moves.performed (h : s.Moves ks s') (hs : s.Performed) : s'.Performed := by
  have hr : ∀ a d n, (s.renumber a d n).Performed := fun a d n => ⟨hs.log, hs.waiting⟩
  cases h with
  | start => exact hr ..
  | finish => exact (hr ..).finish

theorem Moves.lost (h : s.Moves ks s') (hs : s.Settled) (hl : s.Lost k) : s'.Lost k := by
  have hr : ∀ a d n, (s.renumber a d n).Settled := fun a d n =>
    ⟨⟨hs.1.sorted, hs.1.completed, hs.1.keys⟩, hs.2⟩
  have hl' : ∀ a d n, (s.renumber a d n).Lost k := fun a d n => ⟨hl.finished, hl.callbacks, hl.waiting⟩
  cases h with
  | start => exact hl' ..
  | finish a d n j hj => exact (hl' ..).finish (hr ..) fun h => hj (h ▸ hl.finished)

theorem Sound.step (h : s.Sound) (hs : s.step e = some s') :
    s'.Sound ∧ ∃ ks, s.Moves ks s' ∧
      ∀ es, TaskEvent.finishing s.tasks (e :: es) = ks ++ TaskEvent.finishing s'.tasks es := by
  obtain ⟨hn, ks, hm, hes⟩ := step_moves h.numbered hs
  exact ⟨⟨hn, hm.settled h.settled, hm.performed h.performed⟩, ks, hm, hes⟩

theorem run_cons (h : s.run (e :: es) = some s') : ∃ t, s.step e = some t ∧ t.run es = some s' :=
  Option.bind_eq_some_iff.mp h

theorem Sound.run (h : s.Sound) (hr : s.run es = some s') :
    s'.Sound ∧ s'.finished = s.finished ++ TaskEvent.finishing s.tasks es ∧
      s.callbacks <+: s'.callbacks := by
  induction es generalizing s with
  | nil =>
    obtain rfl := Option.some.inj hr
    exact ⟨h, (List.append_nil _).symm, List.prefix_refl _⟩
  | cons e es ih =>
    obtain ⟨t, hs, hr⟩ := run_cons hr
    obtain ⟨ht, ks, hm, hes⟩ := h.step hs
    obtain ⟨h1, h2, h3⟩ := ih ht hr
    refine ⟨h1, ?_, hm.callbacks.trans h3⟩
    rw [h2, hm.finished, hes, List.append_assoc]

/-- As long as no number is truncated that would have to wait, the callbacks are executed in order. -/
theorem Straight.run (hst : s.Straight) (hc : s.callbacks.length ∉ s.finished) (h : s.Sound)
    (he : ∀ l k l', TaskEvent.finishing s.tasks es = l ++ k :: l' →
      ∀ i < k, i ∉ s.finished ++ l → TaskEvent.Early i k)
    (hr : s.run es = some s') : s'.Straight ∧ s'.callbacks.length ∉ s'.finished := by
  induction es generalizing s with
  | nil =>
    obtain rfl := Option.some.inj hr
    exact ⟨hst, hc⟩
  | cons e es ih =>
    obtain ⟨t, hs, hr⟩ := run_cons hr
    obtain ⟨ht, ks, hm, hes⟩ := h.step hs
    have hst' : t.Straight ∧ t.callbacks.length ∉ t.finished := by
      cases hm with
      | start => exact ⟨⟨hst.callbacks, hst.finished, hst.waiting, hst.mem⟩, hc⟩
      | finish a d n k hk =>
        have hst' : (s.renumber a d n).Straight :=
          ⟨hst.callbacks, hst.finished, hst.waiting, hst.mem⟩
        have hs' : (s.renumber a d n).Settled :=
          ⟨⟨h.settled.1.sorted, h.settled.1.completed, h.settled.1.keys⟩, h.settled.2⟩
        refine hst'.finish hs' hc hk fun i hi hf => ?_
        exact he [] k _ (hes es) i hi (by rwa [List.append_nil])
    refine ih hst'.1 hst'.2 ht (fun l k l' hl i hi hf => ?_) hr
    refine he (ks ++ l) k l' (by rw [hes, hl, List.append_assoc]) i hi ?_
    rwa [hm.finished, List.append_assoc] at hf

theorem Lost.run (hl : s.Lost k) (h : s.Sound) (hr : s.run es = some s') : s'.Lost k := by
  induction es generalizing s with
  | nil => exact Option.some.inj hr ▸ hl
  | cons e es ih =>
    obtain ⟨t, hs, hr⟩ := run_cons hr
    obtain ⟨ht, ks, hm, -⟩ := h.step hs
    exact ih (hm.lost h.settled hl) ht hr

/-- With a number that is truncated and would have to wait, they are not. -/
theorem Sound.early (h : s.Sound) {l l' : List ℕ}
    (hf : TaskEvent.finishing s.tasks es = l ++ k :: l') (hik : i < k) (hi : i ∉ s.finished ++ l)
    (hr : s.run es = some s') (ho : s'.InOrder) : TaskEvent.Early i k := by
  induction es generalizing s l with
  | nil => exact nomatch (List.append_eq_nil_iff.mp hf.symm).2
  | cons e es ih =>
    obtain ⟨t, hs, hr⟩ := run_cons hr
    obtain ⟨ht, ks, hm, hes⟩ := h.step hs
    rw [hes] at hf
    cases hm with
    | start => exact ih ht hf hi hr
    | finish a d n j hj =>
      cases l with
      | cons j' l =>
        obtain ⟨rfl, hf'⟩ := List.cons.inj hf
        exact ih ht hf' (by rwa [finished_finish, List.append_assoc]) hr
      | nil =>
        obtain ⟨rfl, -⟩ := List.cons.inj hf
        by_contra he
        -- the callbacks so far are those of the first tasks, and `i` is not among these
        have hpre : s.callbacks <+: List.range s'.tasks :=
          ho.callbacks ▸ ((Moves.finish a d n j hj).callbacks.trans (ht.run hr).2.2)
        have hlen : s.callbacks.length ≤ i := by
          by_contra hlt
          refine hi (List.mem_append_left _ (h.performed.mem_finished ?_))
          rw [List.prefix_iff_eq_take.mp hpre, List.take_range]
          have := hpre.length_le
          rw [List.length_range] at this
          exact List.mem_range.mpr (by omega)
        have hs' : (s.renumber a d n).Settled :=
          ⟨⟨h.settled.1.sorted, h.settled.1.completed, h.settled.1.keys⟩, h.settled.2⟩
        have hlost := (lost_finish hs' (fun x hx h1 => hj (by rw [← h1]; exact h.performed.waiting x hx)) hlen
          hik he).run ht hr
        have hsound := (ht.run hr).1.numbered.perm.mem_iff.mp (List.mem_append_left _ hlost.finished)
        refine hlost.callbacks ?_
        rw [ho.callbacks, List.getElem?_range (List.mem_range.mp hsound)]

/-- Once all tasks have finished. -/
theorem Straight.inOrder (hst : s.Straight) (hc : s.callbacks.length ∉ s.finished) (h : s.Sound)
    (hd : s.delegated = []) : s.InOrder := by
  have hfin : ∀ k, k ∈ s.finished ↔ k < s.tasks := fun k => by
    have hp := h.numbered.perm.mem_iff (a := k)
    rwa [hd, List.map_nil, List.append_nil, List.mem_range] at hp
  have htasks : s.callbacks.length = s.tasks := by
    refine le_antisymm (le_of_not_gt fun hlt => ?_) (not_lt.mp fun hlt => hc ((hfin _).mpr hlt))
    exact lt_irrefl _ ((hfin _).mp (hst.finished _ hlt))
  refine ⟨htasks ▸ hst.callbacks, h.performed.log, List.eq_nil_iff_forall_not_mem.mpr fun x hx => ?_⟩
  obtain ⟨h1, h2, -⟩ := hst.waiting x hx
  exact absurd ((hfin _).mp h1) (by omega)

theorem early_of_inOrder (hr : run {} es = some s) (ho : s.InOrder) : TaskEvent.Unwrapped es :=
  fun l _ _ hl i hik hi => sound_init.early hl hik (by simpa [finished] using hi) hr ho

/-- **Ordered completion.** When all tasks have finished, the callbacks have been executed exactly
once each, in the order in which the tasks were started, each after its own task, and nothing waits, if and only if
no task whose number is truncated has finished before an earlier one. -/
theorem inOrder_iff_unwrapped (hr : run {} es = some s) (hd : s.delegated = []) :
    s.InOrder ↔ TaskEvent.Unwrapped es := by
  refine ⟨early_of_inOrder hr, fun he => ?_⟩
  obtain ⟨h1, h2⟩ := straight_init.run (fun h => (nomatch h)) sound_init
    (fun l k l' hl i hi hf => he l k l' hl i hi hf) hr
  exact h1.inOrder h2 (sound_init.run hr).1 hd

/-- The second of two tasks finishes first. -/
theorem inOrder_iff_unwrapped_two :
    ∃ s, run {} [.delegate, .delegate, .finish 1, .finish 0] = some s ∧ s.delegated = [] ∧
      (s.InOrder ↔ TaskEvent.Unwrapped [.delegate, .delegate, .finish 1, .finish 0]) :=
  ⟨_, rfl, rfl, inOrder_iff_unwrapped rfl rfl⟩

/-! ### More tasks than numbers -/

theorem run_append {es' : List TaskEvent} : s.run (es ++ es') = (s.run es).bind fun t => t.run es' := by
  induction es generalizing s with
  | nil => rfl
  | cons e es ih => simp only [List.cons_append, OrderedCompletion.run, ih, Option.bind_assoc]

/-- A worker starts the next task, and the other one finishes. -/
theorem run_handOver {m j : ℕ} (hd : s.delegated = [(m, j)]) (ht : s.tasks = m + 1) :
    ∃ t j', s.run [.delegate, .finish m] = some t ∧ t.delegated = [(m + 1, j')] ∧ t.tasks = m + 2 := by
  have hsame := sameTasks_sync (k := m) (i := j)
    (s := ({ s.start with delegated := [(m + 1, s.index)] } : OrderedCompletion).record m)
  refine ⟨_, s.index, ?_, hsame.delegated, ?_⟩
  · simp only [OrderedCompletion.run, OrderedCompletion.step, Option.bind_some, hd, ht, List.cons_append,
      List.nil_append, List.find?_cons, decide_true, Option.map_some, List.eraseP_cons, cond_true]
    rfl
  · rw [hsame.tasks]
    exact congrArg (· + 1) ht

/-- Two workers take turns, from the `m`th task on. -/
theorem run_handOvers {m j : ℕ} (hd : s.delegated = [(m, j)]) (ht : s.tasks = m + 1) (n : ℕ) :
    ∃ t j', s.run ((List.range' m n).flatMap fun k => [.delegate, .finish k]) = some t ∧
      t.delegated = [(m + n, j')] ∧ t.tasks = m + n + 1 := by
  induction n generalizing s m j with
  | zero => exact ⟨s, j, rfl, hd, ht⟩
  | succ n ih =>
    obtain ⟨t, j', hr, hd', ht'⟩ := run_handOver hd ht
    obtain ⟨u, j'', hr', hd'', ht''⟩ := ih hd' ht'
    refine ⟨u, j'', ?_, by rw [hd'', Nat.add_right_comm m 1 n, Nat.add_assoc], by omega⟩
    rw [List.range'_succ, List.flatMap_cons, run_append, hr]
    exact hr'

/-- Another task is started, and finishes before the one in hand. -/
theorem run_overtake {m j : ℕ} (hd : s.delegated = [(m, j)]) (ht : s.tasks = m + 1) :
    ∃ t, s.run [.delegate, .finish (m + 1), .finish m] = some t ∧ t.delegated = [] := by
  have hsame := sameTasks_sync (k := m) (i := j) (s := ({ ({ s.start with delegated := [(m, j)] } :
    OrderedCompletion).finish (m + 1) s.index with delegated := [] } : OrderedCompletion).record m)
  refine ⟨_, ?_, hsame.delegated⟩
  simp [OrderedCompletion.run, OrderedCompletion.step, hd, ht]
  rfl

theorem finishing_handOvers (m n a : ℕ) (es : List TaskEvent) :
    TaskEvent.finishing a ((List.range' m n).flatMap (fun k => [.delegate, .finish k]) ++ es) =
      List.range' m n ++ TaskEvent.finishing (a + n) es := by
  induction n generalizing m a with
  | zero => rfl
  | succ n ih =>
    rw [List.range'_succ, List.flatMap_cons, List.append_assoc, List.cons_append, List.cons_append,
      List.nil_append, TaskEvent.finishing, TaskEvent.finishing, ih, Nat.add_assoc, Nat.add_comm 1, List.cons_append]

/-- One task after the other is started while the one before it is still in hand, up to two of which the
later one finishes first. -/
abbrev overtaking (n : ℕ) : List TaskEvent :=
  .delegate :: (List.range' 0 n).flatMap (fun k => [.delegate, .finish k]) ++
    [.delegate, .finish (n + 1), .finish n]

theorem exists_not_inOrder {n : ℕ} (hn : n + 1 = 2 ^ 32) :
    ∃ s, run {} (overtaking n) = some s ∧ s.delegated = [] ∧ ¬ s.InOrder := by
  obtain ⟨t, j, ht, hd, htasks⟩ := run_handOvers (m := 0) (j := 0)
    (s := { OrderedCompletion.start {} with delegated := [(0, 0)] }) rfl rfl n
  obtain ⟨s, hs, hdone⟩ := run_overtake (m := n) (by rwa [Nat.zero_add] at hd) (by omega)
  have hr : run {} (overtaking n) = some s := by
    rw [overtaking, List.cons_append, OrderedCompletion.run, OrderedCompletion.step, Option.bind_some, run_append]
    exact (congrArg (Option.bind · _) ht).trans hs
  refine ⟨s, hr, hdone, fun ho => ?_⟩
  have hfin : TaskEvent.finishing 0 (overtaking n) = List.range' 0 n ++ (n + 1) :: [n] := by
    rw [overtaking, List.cons_append, TaskEvent.finishing, finishing_handOvers]
    rfl
  have he := early_of_inOrder hr ho _ _ _ hfin n (Nat.lt_succ_self n) (by simp)
  exact absurd he.1 (by omega)

/-- Two workers perform `2 ^ 32 + 1` tasks, the last one faster than the one before it: it is taken for
the first task, and its callback is executed at once. -/
theorem delegate_outOfOrder :
    ∃ s, run {} (overtaking (2 ^ 32 - 1)) = some s ∧ s.delegated = [] ∧ ¬ s.InOrder := exists_not_inOrder rfl

end OrderedCompletion

end NfpEstimator
