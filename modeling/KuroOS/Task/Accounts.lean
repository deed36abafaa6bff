import KuroOS.Task.Run

/-!
# The scheduler's books over whole runs

The counter, the two lists, the states of the tasks and the current task agree
between operations, so `task_exit_current` never fails its assertions, and it
asks for a shutdown exactly when the last runnable task exits.
-/

namespace KuroOS

open Base

section

variable [Layout]

/-- The scheduler's books, as memory and the kernel's variables show them. -/
structure Balanced (s : Kernel) (tasks queue : List Nat) : Prop where
  onAllTasks : AllTasks s tasks
  onRunQueue : RunQueue s queue
  count : s.nrRunnableTasks = queue.length
  distinct : queue.Nodup
  runnable : ∀ t, t ∈ queue ↔ t ∈ tasks ∧ (stateOf s t = TaskState.ready.code ∨ stateOf s t = TaskState.running.code)
  running : ∀ t ∈ tasks, stateOf s t = TaskState.running.code ↔ t = s.current
  zombies : ∀ t ∈ tasks, stateOf s t = TaskState.zombie.code → t ∉ queue
  pids : (tasks.map (pidOf s)).Pairwise (· < ·)
  next : ∀ t ∈ tasks, pidOf s t < s.nextPid

namespace ValidOf

variable {g : World} {s : Kernel}

/-- Between operations the books are balanced. -/
theorem balanced (valid : Valid g s) (pids : Pids g s) : Balanced s (g.tasks.map TaskView.addr) g.queue := by
  have books := valid.sched.books
  have state : ∀ v ∈ g.tasks, stateOf s v.addr = v.state.code := fun v member => (valid.world.view v member).state
  have code : ∀ v ∈ g.tasks, ∀ state', stateOf s v.addr = state'.code ↔ v.state = state' := fun v member state' => by
    rw [state v member]
    exact ⟨TaskState.code_inj, congrArg _⟩
  have pid : (g.tasks.map TaskView.addr).map (pidOf s) = g.tasks.map TaskView.pid := by
    rw [List.map_map]
    exact List.map_congr_left fun v member => (valid.world.view v member).pid
  refine ⟨valid.allTasks, valid.runQueue, books.count, valid.world.queue_nodup, fun t => ?_, fun t member => ?_,
    fun t member zombie queued => ?_, pid ▸ pids.increasing, fun t member => ?_⟩
  · constructor
    · intro queued
      obtain ⟨v, member, rfl⟩ := books.known t queued
      refine ⟨List.mem_map_of_mem member, ?_⟩
      rw [code v member, code v member]
      have alive := (books.queued v member).mp queued
      rcases books.states v member with ready | running | zombie
      · exact .inl ready
      · exact .inr running
      · exact absurd zombie alive
    · rintro ⟨member, alive⟩
      obtain ⟨v, inside, rfl⟩ := List.mem_map.mp member
      rw [code v inside, code v inside] at alive
      refine (books.queued v inside).mpr fun zombie => ?_
      rcases alive with here | here <;> simp [zombie] at here
  · obtain ⟨v, inside, rfl⟩ := List.mem_map.mp member
    rw [code v inside]
    exact books.running v inside
  · obtain ⟨v, inside, rfl⟩ := List.mem_map.mp member
    rw [code v inside] at zombie
    exact (books.queued v inside).mp queued zombie
  · obtain ⟨v, inside, rfl⟩ := List.mem_map.mp member
    have : pidOf s v.addr = v.pid := (valid.world.view v inside).pid
    rw [this]
    exact pids.below v inside

/-- `task_exit_current` returns, with 0 exactly when no other task can run. -/
theorem exit_returns (valid : Valid g s) (busy : s.current ≠ 0) (code : UInt64) :
    ∃ r s', taskExitCurrent (currentFrame s) code.toNat s = .ok r s' ∧ (r = 0 ↔ g.queue = [s.current]) := by
  obtain ⟨p, member, current, isFrame⟩ := valid.running busy
  rw [isFrame]
  obtain ⟨r, s', returned, g', world', _, switched, _, _, outcome⟩ :=
    wp_total (valid.world.taskExitCurrent_spec valid.sched member current.symm code.toNat_lt)
  refine ⟨r, s', returned, ?_⟩
  rw [← current]
  rcases outcome with ⟨alone, zero, _⟩ | ⟨others, w, resumed, _, isTf⟩
  · exact iff_of_true zero alone
  · refine iff_of_false ?_ others
    have space := world'.space w resumed.member
    have owner : g'.own w.kernelStack = .kstack w.addr := (space.kstack _).mpr rfl
    have bounds := (world'.heap.pool.pages w.kernelStack (by simp [owner])).bounds
    have top := space.tf
    simp only [trapFrameSize, pageSize] at top
    omega

end ValidOf

namespace ValidOf

variable {g : World} {s : Kernel}

/-- Where two tasks can run, one of them waits. -/
theorem waiting (valid : Valid g s) (two : 2 ≤ g.queue.length) : ∃ v ∈ g.tasks, v.addr ≠ s.current ∧ v.state ≠ .zombie := by
  have distinct := valid.world.queue_nodup
  obtain ⟨a, inQueue, other⟩ : ∃ a ∈ g.queue, a ≠ s.current := by
    by_contra none
    push Not at none
    have := List.nodup_replicate.mp ((List.eq_replicate_of_mem none) ▸ distinct)
    omega
  obtain ⟨v, member, rfl⟩ := valid.sched.books.known a inQueue
  exact ⟨v, member, other, (valid.sched.books.queued v member).mp inQueue⟩

end ValidOf

/-- At every point of every run with fewer than 2^63 creations, up to the exit of
the last runnable task, the books are balanced, and an exit of the current task
goes through. -/
theorem scheduler_books {n : Nat} {s : Kernel} (run : Reachable n s) (few : n < 2 ^ 63) (busy : s.current ≠ 0) :
    ∃ tasks queue, Balanced s tasks queue ∧ s.current ∈ queue ∧
      ∀ code : UInt64, ∃ r s', taskExitCurrent (currentFrame s) code.toNat s = .ok r s' ∧
        (r = 0 ↔ queue = [s.current]) := by
  obtain ⟨g, valid, numbered⟩ := run.valid
  exact ⟨_, _, valid.balanced (numbered few).1, valid.sched.current.resolve_left busy, valid.exit_returns busy⟩

/-- `task_destroy` of a task returns, and the counter and both lists have lost
exactly that task. -/
def DestroysInOrder (s : Kernel) (t : Nat) : Prop :=
  ∃ s' tasks queue, taskDestroy t s = .ok () s' ∧ AllTasks s tasks ∧ RunQueue s queue ∧ AllTasks s' (tasks.erase t) ∧
    RunQueue s' (queue.erase t) ∧ s'.nrRunnableTasks = (queue.erase t).length

/-- The addresses of a list of tasks without one of them. -/
theorem ValidOf.erase_addr {g : World} {s : Kernel} {v : TaskView} (valid : Valid g s) (member : v ∈ g.tasks) :
    (g.tasks.erase v).map TaskView.addr = (g.tasks.map TaskView.addr).erase v.addr := by
  obtain ⟨xs, ys, absent, split, erased⟩ := List.exists_erase_eq member
  have fresh : v.addr ∉ xs.map TaskView.addr := fun inside => by
    obtain ⟨w, old, same⟩ := List.mem_map.mp inside
    obtain rfl := valid.world.eq_of_addr (by simp [split, old]) member same
    exact absent old
  rw [erased, split, List.map_append, List.map_append, List.map_cons, List.erase_append_right _ fresh, List.erase_cons_head]

/-- `task_destroy` of a task that is not the current one keeps the books if and only
if the task is no zombie. -/
theorem ValidOf.destroysInOrder {g : World} {s : Kernel} {t : Nat} (valid : Valid g s) (onList : OnAllTasks s t)
    (other : t ≠ s.current) : DestroysInOrder s t ↔ stateOf s t ≠ TaskState.zombie.code := by
  obtain ⟨v, member, rfl⟩ := valid.onAllTasks.mp onList
  have books := valid.sched.books
  have state : stateOf s v.addr = v.state.code := (valid.world.view v member).state
  have zombie : stateOf s v.addr ≠ TaskState.zombie.code ↔ v.addr ∈ g.queue := by
    rw [books.queued v member, state]
    exact not_congr ⟨TaskState.code_inj, congrArg _⟩
  rw [zombie]
  have short := valid.world.queue_length
  by_cases positive : 0 < s.nrRunnableTasks
  · obtain ⟨_, s', returned, g', world', same, _, _, globals⟩ :=
      wp_total (valid.world.taskDestroy_spec member (books.queued v member) other positive)
    have count : s'.nrRunnableTasks = g.queue.length - 1 := by
      rw [globals]
      change wsub s.nrRunnableTasks 1 = _
      rw [books.count, wsub_of_le (by rw [← books.count]; exact positive) (by omega)]
    constructor
    · rintro ⟨s'', tasks, queue, returned', _, isQueue, _, _, count'⟩
      obtain ⟨_, rfl⟩ : () = () ∧ s' = s'' := by simpa [returned] using returned'
      rw [valid.runQueue_eq isQueue] at count'
      by_contra absent
      rw [List.erase_of_not_mem absent, count] at count'
      rw [books.count] at positive
      omega
    · intro queued
      have tasks' : AllTasks s' ((g.tasks.map TaskView.addr).erase v.addr) := by
        unfold AllTasks
        rw [← valid.erase_addr member, List.map_map]
        have := world'.allTasks
        rwa [same.tasks] at this
      have queue' : RunQueue s' (g.queue.erase v.addr) := by
        have := world'.runQueue
        rwa [same.queue] at this
      exact ⟨s', _, _, returned, valid.allTasks, valid.runQueue, tasks', queue', by rw [count, List.length_erase_of_mem queued]⟩
  · have none : s.nrRunnableTasks = 0 := by omega
    refine iff_of_false ?_ fun queued => ?_
    · rintro ⟨s', _, _, returned, _⟩
      exact wp_returned (valid.world.taskDestroy_panics member (books.queued v member) other none) returned
    · rw [books.count] at none
      exact List.not_mem_nil (List.length_eq_zero_iff.mp none ▸ queued)

/-- In every state of a run, `task_destroy` of a task that is not the current one
keeps the books if and only if the task is no zombie. -/
theorem destroy_books {n : Nat} {s : Kernel} (run : Reachable n s) {t : Nat} (onList : OnAllTasks s t) (other : t ≠ s.current) :
    DestroysInOrder s t ↔ stateOf s t ≠ TaskState.zombie.code := by
  obtain ⟨g, valid, _⟩ := run.valid
  exact valid.destroysInOrder onList other

end

section

attribute [local instance] Layout.sample

/-- The books of a machine in user mode. -/
theorem scheduler_books_sample : ∃ s tasks queue, Reachable 0 s ∧ Balanced s tasks queue ∧ s.current ∈ queue ∧
    ∀ code : UInt64, ∃ r s', taskExitCurrent (currentFrame s) code.toNat s = .ok r s' ∧ (r = 0 ↔ queue = [s.current]) := by
  obtain ⟨s, _, run, _, busy, _⟩ := reachable_sample
  obtain ⟨tasks, queue, rest⟩ := scheduler_books run (by decide) busy
  exact ⟨s, tasks, queue, run, rest⟩

/-- Destroying the second task, which is ready. -/
theorem destroy_books_sample : ∃ s t, Reachable 0 s ∧ DestroysInOrder s t := by
  obtain ⟨s, g, run, valid, _, two, _⟩ := reachable_sample
  obtain ⟨v, member, other, alive⟩ := valid.waiting two
  have state : stateOf s v.addr = v.state.code := (valid.world.view v member).state
  refine ⟨s, v.addr, run, (destroy_books run (valid.onAllTasks.mpr ⟨v, member, rfl⟩) other).mpr fun zombie => alive ?_⟩
  exact TaskState.code_inj (state.symm.trans zombie)

/-- A machine whose first task has exited. -/
theorem exited_sample : ∃ s t, Reachable 0 s ∧ s.current ≠ 0 ∧ OnAllTasks s t ∧ t ≠ s.current ∧
    stateOf s t = TaskState.zombie.code := by
  obtain ⟨s, g, run, valid, busy, two, _⟩ := reachable_sample
  obtain ⟨p, member, current, isFrame⟩ := valid.running busy
  obtain ⟨r, s', returned, g', world', sched', _, _, ⟨w, dead, here, zombie, _⟩, outcome⟩ :=
    wp_total (valid.world.taskExitCurrent_spec valid.sched member current.symm (UInt64.toNat_lt 0))
  rcases outcome with ⟨alone, _⟩ | ⟨_, u, resumed, _⟩
  · simp [alone] at two
  have steps : taskExitCurrent (currentFrame s) (UInt64.toNat 0) s = .ok r s' := by
    rw [isFrame]
    exact returned
  have run' : Reachable 0 s' := OpRun.step run (show Running s (.exit 0) from ⟨busy, trivial⟩) steps
  have state : stateOf s' w.addr = TaskState.zombie.code := zombie ▸ (world'.view w dead).state
  have onList : OnAllTasks s' w.addr := ⟨_, world'.allTasks, List.mem_map_of_mem dead⟩
  have other : w.addr ≠ s'.current := fun equal => by
    have := (sched'.books.running w dead).mpr equal
    simp [zombie] at this
  exact ⟨s', w.addr, run', resumed.current ▸ world'.addr_ne_zero resumed.member, onList, other, state⟩

/-- The first task exits, and is destroyed before it is reaped. -/
theorem destroy_zombie_miscounts : ∃ s t, Reachable 0 s ∧ s.current ≠ 0 ∧ OnAllTasks s t ∧ t ≠ s.current ∧
    stateOf s t = TaskState.zombie.code ∧ ¬ DestroysInOrder s t := by
  obtain ⟨s, t, run, busy, onList, other, zombie⟩ := exited_sample
  obtain ⟨_, valid, _⟩ := run.valid
  exact ⟨s, t, run, busy, onList, other, zombie, fun inOrder => (valid.destroysInOrder onList other).mp inOrder zombie⟩

end

end KuroOS
