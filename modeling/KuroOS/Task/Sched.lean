import Mathlib.Data.List.TakeWhile
import KuroOS.Task.Spawn

/-!
# The scheduler's books

A counter, a queue, the state of each task and the current task are kept apart
by the code. `Books` says how they agree while an operation is at work, when the
task in state `TASK_RUNNING` need not be the current one; `Sched` says it for
the states between operations.
-/

namespace KuroOS

open Base

/-- The scheduler's books. `running` is the address of the task in state
`TASK_RUNNING`, 0 when there is none. -/
structure Books (running : Nat) (g : World) (s : Kernel) : Prop where
  count : s.nrRunnableTasks = g.queue.length
  queued : ∀ v ∈ g.tasks, v.addr ∈ g.queue ↔ v.state ≠ .zombie
  known : ∀ a ∈ g.queue, ∃ v ∈ g.tasks, v.addr = a
  states : ∀ v ∈ g.tasks, v.state = .ready ∨ v.state = .running ∨ v.state = .zombie
  running : ∀ v ∈ g.tasks, v.state = .running ↔ v.addr = running

/-- The scheduler's books between operations. -/
structure Sched (g : World) (s : Kernel) : Prop where
  books : Books s.current g s
  current : s.current = 0 ∨ s.current ∈ g.queue

/-- The task after one in the queue, cyclically: the first one when that task is
not queued, 0 when no task is. -/
def afterCurrent (queue : List Nat) (current : Nat) : Nat :=
  ((queue.dropWhile (· != current)).tail ++ queue).headD 0

theorem afterCurrent_nil (current : Nat) : afterCurrent [] current = 0 := rfl

/-- The first task is next when the current one is not queued. -/
theorem afterCurrent_off {queue : List Nat} {current : Nat} (off : current ∉ queue) :
    afterCurrent queue current = queue.headD 0 := by
  have drop : queue.dropWhile (· != current) = [] := by
    rw [List.dropWhile_eq_nil_iff]
    exact fun a member => by simpa using fun equal : a = current => off (equal ▸ member)
  simp [afterCurrent, drop]

/-- The task after a queued one. -/
theorem afterCurrent_split {xs ys : List Nat} {current : Nat} (notBefore : current ∉ xs) :
    afterCurrent (xs ++ current :: ys) current = (ys ++ xs ++ [current]).headD 0 := by
  have drop : (xs ++ current :: ys).dropWhile (· != current) = current :: ys := by
    induction xs with
    | nil => simp
    | cons x xs ih =>
        have ne : x ≠ current := fun equal => notBefore (by simp [equal])
        simp only [List.mem_cons, not_or] at notBefore
        simpa [ne] using ih notBefore.2
  unfold afterCurrent
  rw [drop, List.tail_cons]
  cases ys with
  | cons y ys => simp
  | nil => cases xs <;> simp

/-- Some task is next when one is queued. -/
theorem afterCurrent_mem {queue : List Nat} {current : Nat} (some : queue ≠ []) :
    afterCurrent queue current ∈ queue := by
  obtain ⟨rest, is⟩ : ∃ rest, rest = (queue.dropWhile (· != current)).tail := ⟨_, rfl⟩
  have inside : ∀ a ∈ rest, a ∈ queue := fun a member =>
    (List.dropWhile_sublist _).mem (List.mem_of_mem_tail (is ▸ member))
  unfold afterCurrent
  rw [← is]
  cases rest with
  | cons a rest => exact inside a (by simp)
  | nil =>
      obtain ⟨a, queue, rfl⟩ := List.exists_cons_of_ne_nil some
      simp

/-- The tasks after one of them has changed. -/
theorem mem_modify {g : World} {t : Nat} {change : TaskView → TaskView} {w' : TaskView} :
    w' ∈ (g.modify t change).tasks ↔ ∃ w ∈ g.tasks, w' = if w.addr = t then change w else w := by
  simp only [World.modify, List.mem_map, eq_comm]

/-- Two changes of one task. -/
theorem modify_modify {g : World} {t : Nat} {first later : TaskView → TaskView} (keeps : ∀ v, (first v).addr = v.addr) :
    (g.modify t first).modify t later = g.modify t (later ∘ first) := by
  simp only [World.modify, List.map_map]
  congr 1
  refine List.map_congr_left fun v _ => ?_
  simp only [Function.comp_apply]
  by_cases here : v.addr = t
  · rw [if_pos here, if_pos ((keeps v).trans here), if_pos here]
  · rw [if_neg here, if_neg here, if_neg here]

/-- Take a task off the queue. -/
def World.unqueue (g : World) (t : Nat) : World := { g with queue := g.queue.erase t }

namespace Books

variable {running t : Nat} {g : World} {s s' : Kernel}

/-- The books are about one counter of the machine. -/
theorem congr (books : Books running g s) (count : s'.nrRunnableTasks = s.nrRunnableTasks) : Books running g s' :=
  { books with count := count.trans books.count }

variable {change : TaskView → TaskView}

/-- A change of state between ready and running keeps the task on the queue. -/
theorem setState (books : Books running g s) {running' : Nat} {state : TaskState} (queued : t ∈ g.queue)
    (keeps : ∀ v, (change v).addr = v.addr) (becomes : ∀ v, (change v).state = state)
    (alive : state = .ready ∨ state = .running)
    (runs : ∀ v ∈ g.tasks, (v.addr = t → (state = .running ↔ v.addr = running')) ∧
      (v.addr ≠ t → (v.addr = running ↔ v.addr = running')))
    (count : s'.nrRunnableTasks = s.nrRunnableTasks) : Books running' (g.modify t change) s' := by
  refine ⟨count.trans books.count, fun w' inside => ?_, fun a inQueue => ?_, fun w' inside => ?_, fun w' inside => ?_⟩
  · obtain ⟨w, member, rfl⟩ := mem_modify.mp inside
    split
    · next here =>
        rw [keeps, becomes]
        refine iff_of_true (here ▸ queued) ?_
        rcases alive with is | is <;> simp [is]
    · exact books.queued w member
  · obtain ⟨v, member, rfl⟩ := books.known a inQueue
    refine ⟨_, mem_modify.mpr ⟨v, member, rfl⟩, ?_⟩
    split
    · exact keeps v
    · rfl
  · obtain ⟨w, member, rfl⟩ := mem_modify.mp inside
    split
    · rw [becomes]
      exact alive.imp id .inl
    · exact books.states w member
  · obtain ⟨w, member, rfl⟩ := mem_modify.mp inside
    split
    · next here =>
        rw [keeps, becomes]
        exact (runs w member).1 here
    · next other => exact (books.running w member).trans ((runs w member).2 other)

/-- The running task becomes ready. -/
theorem park (books : Books t g s) (queued : t ∈ g.queue) (nonzero : ∀ v ∈ g.tasks, v.addr ≠ 0)
    (keeps : ∀ v, (change v).addr = v.addr) (becomes : ∀ v, (change v).state = .ready)
    (count : s'.nrRunnableTasks = s.nrRunnableTasks) : Books 0 (g.modify t change) s' :=
  books.setState queued keeps becomes (.inl rfl) (fun v member => ⟨fun _ => iff_of_false (by simp) (nonzero v member),
    fun other => iff_of_false other (nonzero v member)⟩) count

/-- A queued task runs. -/
theorem dispatch (books : Books 0 g s) (queued : t ∈ g.queue) (nonzero : ∀ v ∈ g.tasks, v.addr ≠ 0)
    (keeps : ∀ v, (change v).addr = v.addr) (becomes : ∀ v, (change v).state = .running)
    (count : s'.nrRunnableTasks = s.nrRunnableTasks) : Books t (g.modify t change) s' :=
  books.setState queued keeps becomes (.inr rfl) (fun v member => ⟨fun here => iff_of_true rfl here,
    fun other => iff_of_false (nonzero v member) other⟩) count

/-- The running task dies and leaves the queue. -/
theorem die (books : Books t g s) (queued : t ∈ g.queue) (distinct : g.queue.Nodup)
    (nonzero : ∀ v ∈ g.tasks, v.addr ≠ 0) (short : g.queue.length < 2 ^ 63)
    (keeps : ∀ v, (change v).addr = v.addr) (becomes : ∀ v, (change v).state = .zombie)
    (count : s'.nrRunnableTasks = wsub s.nrRunnableTasks 1) : Books 0 ((g.modify t change).unqueue t) s' := by
  have positive := List.length_pos_of_mem queued
  refine ⟨?_, fun w' inside => ?_, fun a inQueue => ?_, fun w' inside => ?_, fun w' inside => ?_⟩
  · rw [count, books.count, wsub_of_le (by omega) (by omega)]
    exact (List.length_erase_of_mem queued).symm
  · obtain ⟨w, member, rfl⟩ := mem_modify.mp inside
    refine (distinct.mem_erase_iff).trans ?_
    split
    · next here =>
        rw [keeps, becomes]
        exact iff_of_false (fun both => both.1 here) (by simp)
    · next other => exact (and_iff_right other).trans (books.queued w member)
  · obtain ⟨v, member, rfl⟩ := books.known a (List.mem_of_mem_erase inQueue)
    refine ⟨_, mem_modify.mpr ⟨v, member, rfl⟩, ?_⟩
    split
    · exact keeps v
    · rfl
  · obtain ⟨w, member, rfl⟩ := mem_modify.mp inside
    split
    · exact .inr (.inr (becomes w))
    · exact books.states w member
  · obtain ⟨w, member, rfl⟩ := mem_modify.mp inside
    split
    · rw [keeps, becomes]
      exact iff_of_false (by simp) (nonzero w member)
    · next other =>
        refine iff_of_false (fun runs => other ((books.running w member).mp runs)) (nonzero w member)

end Books

variable [Layout]

namespace WorldOf

variable {Kind : SpaceKind} {wip : Set Owner} {g : World} {s : Kernel} {v : TaskView}
  {halt : Halt → Kernel → Prop} {running : Nat}

/-- `next` of a queued task's node. -/
theorem next_run (world : WorldOf Kind wip g s) (xs : List Nat) {ys : List Nat} {a : Nat} (split : g.queue = xs ++ a :: ys) :
    nextOf s.mem (runNode a) = (ys.map runNode ++ [Layout.runQueue]).head (by simp) := by
  have ring := world.runQueue
  rw [split, List.map_append, List.map_cons] at ring
  exact (ring.cycle.around _ _).2

/-- A queued task's node is not the list head. -/
theorem runNode_ne_head (world : WorldOf Kind wip g s) {a : Nat} (queued : a ∈ g.queue) : runNode a ≠ Layout.runQueue := by
  have := (List.nodup_cons.mp world.runQueue.nodup).1
  exact fun equal => this (equal ▸ List.mem_map_of_mem queued)

/-- The queue has no task twice. -/
theorem queue_nodup (world : WorldOf Kind wip g s) : g.queue.Nodup :=
  (List.nodup_cons.mp world.runQueue.nodup).2.of_map _

/-- The address of a queued task is not 0. -/
theorem queued_ne_zero (world : WorldOf Kind wip g s) {a : Nat} (queued : a ∈ g.queue) : a ≠ 0 := by
  have := (world.queue_home queued).bounds world.heap
  omega

/-- The queue is shorter than any counter. -/
theorem queue_length (world : WorldOf Kind wip g s) : g.queue.length < 2 ^ 63 := by
  have subset : g.queue ⊆ List.range 0x88000000 := fun a queued => by
    have := (world.queue_home queued).bounds world.heap
    simp only [taskSize] at this
    exact List.mem_range.mpr (by omega)
  have := (List.Nodup.subperm world.queue_nodup subset).length_le
  rw [List.length_range] at this
  omega

/-- The loop of `task_pick_next` takes the first task it meets. -/
theorem taskPickLoop_spec (world : WorldOf Kind wip g s) (books : Books running g s) {fuel pos a : Nat} (enough : 0 < fuel) (queued : a ∈ g.queue)
    (here : (if pos = Layout.runQueue then nextOf s.mem Layout.runQueue else pos) = runNode a) :
    wp (taskPickLoop fuel pos 0) s (fun r s' => s' = s ∧ r = a) halt := by
  obtain ⟨fuel, rfl⟩ := Nat.exists_eq_succ_of_ne_zero (n := fuel) (by omega)
  obtain ⟨v, member, rfl⟩ := books.known a queued
  have bounds := (world.task_home member).bounds world.heap
  have task : wsub (runNode v.addr) Task.runNode = v.addr := by
    rw [runNode, wsub_of_le] <;> simp only [Task.runNode, taskSize] at * <;> omega
  have positive : 0 < s.nrRunnableTasks := by
    rw [books.count]
    exact List.length_pos_of_mem queued
  have alive : v.state.code = TaskState.ready.code ∨ v.state.code = TaskState.running.code := by
    have notZombie := (books.queued v member).mp queued
    rcases books.states v member with here | here | here
    · exact .inl (by rw [here])
    · exact .inr (by rw [here])
    · exact absurd here notZombie
  rw [taskPickLoop]
  simp only [wp_bind, wp_get, positive, if_true, here, task, wp_loadState, (world.view v member).state, wp_ite, alive,
    wp_pure, and_self]

/-- `task_pick_next`: the task after the current one, or the first. -/
theorem taskPickNext_spec (world : WorldOf Kind wip g s) (books : Books running g s)
    (current : s.current = 0 ∨ s.current ∈ g.queue) :
    wp taskPickNext s (fun r s' => s' = s ∧ r = afterCurrent g.queue s.current) halt := by
  unfold taskPickNext
  simp only [wp_bind, wp_get, wp_ite, wp_pure, listEmpty_iff world.runQueue, List.map_eq_nil_iff]
  by_cases none : g.queue = []
  · rw [if_pos (.inl none), none, afterCurrent_nil]
    exact ⟨trivial, rfl⟩
  have positive : s.nrRunnableTasks ≠ 0 := by
    rw [books.count]
    exact fun zero => none (List.length_eq_zero_iff.mp zero)
  rw [if_neg (by simp [none, positive])]
  have first : nextOf s.mem Layout.runQueue = runNode (g.queue.headD 0) := by
    rw [world.runQueue.cycle.next_head]
    obtain ⟨a, rest, is⟩ := List.exists_cons_of_ne_nil none
    simp [is]
  refine wp_mono (world.taskPickLoop_spec books (by decide) (afterCurrent_mem none) ?_) (fun _ _ => id) fun _ _ => id
  rw [first]
  rcases current with zero | queued
  · have off : s.current ∉ g.queue := fun queued => world.queued_ne_zero queued zero
    rw [if_neg (not_not.mpr zero), afterCurrent_off off, ite_self]
  · have nonzero := world.queued_ne_zero queued
    obtain ⟨xs, ys, split⟩ := List.append_of_mem queued
    have notBefore : s.current ∉ xs := fun before => by
      have distinct := world.queue_nodup
      rw [split] at distinct
      exact (List.nodup_append.mp distinct).2.2 s.current before s.current (by simp) rfl
    have following := world.next_run xs split
    rw [if_pos nonzero, show s.current + Task.runNode = runNode s.current from rfl, following, split,
      afterCurrent_split notBefore]
    cases ys with
    | nil =>
        cases xs <;> simp
    | cons y ys =>
        have other : runNode y ≠ Layout.runQueue := world.runNode_ne_head (by simp [split])
        simp [other]

end WorldOf

omit [Layout] in
/-- No zombie is queued. -/
theorem Books.unqueued {running current : Nat} {g : World} {s : Kernel} (books : Books running g s) :
    ∀ v ∈ g.tasks, v.reapable current = true → v.addr ∉ g.queue := fun v member reapable queued => by
  simp only [TaskView.reapable, Bool.and_eq_true, beq_iff_eq] at reapable
  exact (books.queued v member).mp queued reapable.1

end KuroOS
