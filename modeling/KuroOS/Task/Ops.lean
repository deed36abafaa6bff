import KuroOS.Memory.Sv39
import KuroOS.Task.Destroy
import KuroOS.Task.Exec

/-!
# Runs of kernel operations

Between two operations user code runs, and the trap entry saves its registers:
the bytes they may write are those of the user pages that the running task
maps and of its kernel stack. `Valid` is what holds between operations, and each
operation preserves it.
-/

namespace KuroOS

open Base

/-- What happens to the kernel, seen from between its operations. -/
inductive Op where
  | createUser (start stop entry : Nat)
  | fork
  | schedule
  | exit (code : UInt64)
  | reap
  | exec (filename : Nat)
  | destroy (task : Nat)
  /-- another part of the kernel takes a page for good -/
  | take
  /-- user code runs, and the trap entry saves its registers -/
  | user (mem : Mem) (uart : Uart)

/-- The frame that the trap entry builds for the current task. -/
def currentFrame (s : Kernel) : Nat := wsub (s.mem.load (s.current + Task.kernelSp) 8) trapFrameSize

/-- The bytes that the current task's user code and the trap entry write. -/
def MayWrite (s : Kernel) (x : Nat) : Prop :=
  (∃ va, sv39User s.mem s.satpRoot va .write = some x) ∨
    pageOf x = s.mem.load (s.current + Task.kernelStackBase) 8

/-- How many tasks an operation with this result has made. -/
def Op.creations (result : Nat) : Op → Nat
  | .createUser .. | .fork => if result = 0 then 0 else 1
  | _ => 0

variable [Layout]

/-- An operation that returns, its result where that is a pointer or a pid, and the
state it leaves. -/
def Op.Steps (s : Kernel) (result : Nat) (s' : Kernel) : Op → Prop
  | .createUser start stop entry => taskCreateUser start stop entry s = .ok result s'
  | .fork => taskFork (currentFrame s) s = .ok result s'
  | .schedule => taskSchedule (currentFrame s) s = .ok result s'
  | .exit code => taskExitCurrent (currentFrame s) code.toNat s = .ok result s'
  | .reap => taskReapZombies s = .ok () s'
  | .exec filename => ∃ r, sysExec filename (currentFrame s) s = .ok r s'
  | .destroy task => taskDestroy task s = .ok () s'
  | .take => pageAlloc s = .ok result s'
  | .user mem uart => (∀ x, mem x ≠ s.mem x → MayWrite s x) ∧ s' = { s with mem, uart }

/-- A task is on `all_tasks`. -/
def OnAllTasks (s : Kernel) (task : Nat) : Prop :=
  ∃ nodes, Ring s.mem Layout.allTasks nodes ∧ task + Task.taskNode ∈ nodes

/-- When an operation is called: user code and `sys_exec` need a task that runs,
and `task_destroy` is for a task that is ready. -/
def Op.Called (s : Kernel) : Op → Prop
  | .exec _ | .user _ _ => s.current ≠ 0
  | .destroy task => OnAllTasks s task ∧ s.mem.load (task + Task.state) 4 = TaskState.ready.code
  | _ => True

/-- The operations that do not look into an address space. -/
def Op.Plain : Op → Prop
  | .fork | .exec _ | .user _ _ => False
  | _ => True

/-- What holds between operations, for tasks that have spaces of a kind. -/
structure ValidOf (Kind : SpaceKind) (g : World) (s : Kernel) : Prop where
  world : WorldOf Kind ∅ g s
  sched : Sched g s
  pid : s.nextPid < 2 ^ 64
  root : ∀ v ∈ g.tasks, v.addr = s.current → s.satpRoot = v.pagetable

/-- What holds between operations. -/
abbrev Valid : World → Kernel → Prop := ValidOf TaskSpace

/-- What an attempt to make a task does: the zombies are reaped, and then a task is
made, or the attempt leaves no trace but a page of the heap's. -/
def MadeOf (Kind : SpaceKind) (X : Set Nat) (g : World) (s : Kernel) (r : Nat) (g' : World) (s' : Kernel) : Prop :=
  ∃ g₁ s₁, ReapingOf Kind g s g₁ s₁ ∧
    ((r = 0 ∧ Aborted g₁ s₁ g' s') ∨ (r ≠ 0 ∧ ∃ v pages, v.addr = r ∧ Created X g₁ s₁ v pages g' s'))

/-- The same for tasks that have address spaces. -/
abbrev Made : Set Nat → World → Kernel → Nat → World → Kernel → Prop := MadeOf TaskSpace

/-- What `task_destroy` of a task does. -/
structure Destroyed (v : TaskView) (g : World) (s : Kernel) (g' : World) (s' : Kernel) : Prop where
  same : SameTasks (g.without v) g'
  frees : Frees [v] g.own g'.own
  effect : Effect (freed [v]) g.own s g'.own s'
  globals : s' = { s with
    mem := s'.mem, nrFreePages := s'.nrFreePages, heapHead := s'.heapHead, heapTail := s'.heapTail,
    nrRunnableTasks := wsub s.nrRunnableTasks 1 }

/-- What an operation does to a world. -/
def Op.OutcomeOf (Kind : SpaceKind) (g : World) (s : Kernel) (r : Nat) (g' : World) (s' : Kernel) : Op → Prop
  | .createUser .. => MadeOf Kind ∅ g s r g' s'
  | .fork => (g' = g ∧ s' = s) ∨ ∃ p ∈ g.tasks, p.addr = s.current ∧ MadeOf Kind (resultBytes p.tf) g s r g' s'
  | .schedule => Switched (zombies s.current g.tasks) (survivors s.current g.tasks) g s g' s'
  | .exit _ => Switched [] g.tasks g s g' s'
  | .reap => ReapingOf Kind g s g' s'
  | .exec _ => ExecFailed g s g' s' ∨ ∃ p ∈ g.tasks, p.addr = s.current ∧ ∃ root entry, Execed g s p root entry g' s'
  | .destroy task => ∃ v ∈ g.tasks, v.addr = task ∧ Destroyed v g s g' s'
  | .take => ExecFailed g s g' s'
  | .user mem uart => g' = g ∧ (∀ x, mem x ≠ s.mem x → MayWrite s x) ∧ s' = { s with mem, uart }

/-- What an operation does to a world of address spaces. -/
abbrev Op.Outcome (g : World) (s : Kernel) (r : Nat) (g' : World) (s' : Kernel) (op : Op) : Prop :=
  op.OutcomeOf TaskSpace g s r g' s'

variable {Kind : SpaceKind} {g g' : World} {s s' : Kernel} {v : TaskView}

omit [Layout] in
/-- A new task joins the books. -/
theorem Books.append {running : Nat} (books : Books running g s) (tasks : g'.tasks = g.tasks ++ [v])
    (queue : g'.queue = g.queue ++ [v.addr]) (ready : v.state = .ready) (fresh : v.addr ∉ g.structs)
    (other : running ≠ v.addr) (short : g.queue.length < 2 ^ 63) (count : s'.nrRunnableTasks = wadd s.nrRunnableTasks 1) :
    Books running g' s' := by
  simp only [World.structs, List.mem_append, List.mem_map, not_or, not_exists, not_and] at fresh
  have cases : ∀ w, w ∈ g'.tasks ↔ w ∈ g.tasks ∨ w = v := fun w => by rw [tasks]; simp
  have queued : ∀ a, a ∈ g'.queue ↔ a ∈ g.queue ∨ a = v.addr := fun a => by rw [queue]; simp
  refine ⟨?_, fun w member => ?_, fun a inQueue => ?_, fun w member => ?_, fun w member => ?_⟩
  · rw [count, books.count, queue, wadd_of_lt (by omega)]
    simp
  · rw [queued]
    rcases (cases w).mp member with old | rfl
    · rw [or_iff_left (fresh.1 w old)]
      exact books.queued w old
    · simp [ready]
  · rcases (queued a).mp inQueue with old | rfl
    · obtain ⟨w, member, here⟩ := books.known a old
      exact ⟨w, (cases w).mpr (.inl member), here⟩
    · exact ⟨v, (cases v).mpr (.inr rfl), rfl⟩
  · rcases (cases w).mp member with old | rfl
    · exact books.states w old
    · exact .inl ready
  · rcases (cases w).mp member with old | rfl
    · exact books.running w old
    · exact iff_of_false (by simp [ready]) other.symm

omit [Layout] in
/-- Books about the same tasks. -/
theorem Books.same {running : Nat} (books : Books running g s) (same : SameTasks g g')
    (count : s'.nrRunnableTasks = s.nrRunnableTasks) : Books running g' s' := by
  obtain ⟨tasks, queue, _⟩ := same
  exact ⟨by rw [count, queue, books.count], by rw [tasks, queue]; exact books.queued, by rw [tasks, queue]; exact books.known,
    by rw [tasks]; exact books.states, by rw [tasks]; exact books.running⟩

namespace ValidOf

/-- The task that runs. -/
theorem running [Spaces Kind] (valid : ValidOf Kind g s) (busy : s.current ≠ 0) : ∃ p ∈ g.tasks, p.addr = s.current ∧ currentFrame s = p.tf := by
  obtain ⟨p, member, here⟩ := valid.sched.books.known _ (valid.sched.current.resolve_left busy)
  refine ⟨p, member, here, ?_⟩
  have space := valid.world.space p member
  have owner : g.own p.kernelStack = .kstack p.addr := (Spaces.kstack space _).mpr rfl
  have bounds := (valid.world.heap.pool.pages p.kernelStack (by simp [owner])).bounds
  have top := Spaces.tf space
  have sp := Spaces.kernelSp space
  unfold currentFrame
  rw [← here, (valid.world.view p member).kernelSp, wsub_of_le] <;>
  · simp only [trapFrameSize, pageSize] at *
    omega

/-- The frame of the current task, if there is one. -/
theorem frame [Spaces Kind] (valid : ValidOf Kind g s) : ∀ v ∈ g.tasks, v.addr = s.current → currentFrame s = v.tf := by
  intro v member here
  obtain ⟨p, member', here', isFrame⟩ := valid.running fun zero => valid.world.addr_ne_zero member (here.trans zero)
  rwa [valid.world.eq_of_addr member member' (here.trans here'.symm)]

theorem unqueued (valid : ValidOf Kind g s) : ∀ v ∈ g.tasks, v.reapable s.current = true → v.addr ∉ g.queue :=
  fun v member => valid.sched.books.unqueued v member

/-- A zombie that runs no more is not the current task. -/
theorem reaping (valid : ValidOf Kind g s) (reaping : ReapingOf Kind g s g' s') : ValidOf Kind g' s' := by
  have globals := reaping.reaped.globals
  have current : s'.current = s.current := by rw [globals]
  refine ⟨reaping.world, ⟨?_, ?_⟩, by rw [globals]; exact valid.pid, fun v member here => ?_⟩
  · rw [current]
    exact valid.sched.books.reaped reaping
  · rw [current, reaping.reaped.queue]
    exact valid.sched.current
  · rw [reaping.tasks] at member
    rw [globals]
    exact valid.root v (mem_survivors.mp member).1 (here.trans current)

/-- The tasks are as they were. -/
theorem same_tasks (valid : ValidOf Kind g s) (world' : WorldOf Kind ∅ g' s') (same : SameTasks g g') (current : s'.current = s.current)
    (count : s'.nrRunnableTasks = s.nrRunnableTasks) (pid : s'.nextPid = s.nextPid) (root : s'.satpRoot = s.satpRoot) :
    ValidOf Kind g' s' := by
  refine ⟨world', ⟨?_, ?_⟩, pid ▸ valid.pid, fun v member here => ?_⟩
  · rw [current]
    exact valid.sched.books.same same count
  · rw [current, same.queue]
    exact valid.sched.current
  · rw [same.tasks] at member
    rw [root]
    exact valid.root v member (here.trans current)

/-- An attempt that failed. -/
theorem aborted (valid : ValidOf Kind g s) (world' : WorldOf Kind ∅ g' s') (aborted : Aborted g s g' s') : ValidOf Kind g' s' := by
  have globals := aborted.globals
  exact valid.same_tasks world' aborted.same (by rw [globals]) (by rw [globals]) (by rw [globals]) (by rw [globals])

/-- A task that was made. -/
theorem born (valid : ValidOf Kind g s) (world' : WorldOf Kind ∅ g' s') {X : Set Nat} (born : Born X g s v g' s')
    (ready : v.state = .ready) : ValidOf Kind g' s' := by
  have globals := born.globals
  have current : s'.current = s.current := by rw [globals]
  have nonzero : v.addr ≠ 0 := world'.addr_ne_zero (by rw [born.tasks]; simp)
  have other : s.current ≠ v.addr := by
    rintro equal
    rcases valid.sched.current with zero | queued
    · exact nonzero (equal ▸ zero)
    · exact born.fresh (List.mem_append_right _ (equal ▸ queued))
  refine ⟨world', ⟨?_, ?_⟩, by rw [globals]; exact wadd_lt _ _, fun w member here => ?_⟩
  · rw [current]
    exact valid.sched.books.append born.tasks born.queue ready born.fresh other valid.world.queue_length (by rw [globals])
  · rw [current, born.queue]
    exact valid.sched.current.imp id (List.mem_append_left _)
  · rw [current] at here
    rw [born.tasks, List.mem_append, List.mem_singleton] at member
    rw [globals]
    rcases member with old | rfl
    · exact valid.root w old here
    · exact absurd here.symm other

/-- A task with an address space that was made. -/
theorem created (valid : ValidOf Kind g s) (world' : WorldOf Kind ∅ g' s') {X : Set Nat} {pages : Nat}
    (created : Created X g s v pages g' s') : ValidOf Kind g' s' :=
  valid.born world' created.born (by rw [created.view]; rfl)

end ValidOf

/-- A task after a switch, but for what scheduling changes. -/
theorem Switched.core_mem {gone kept : List TaskView} (switched : Switched gone kept g s g' s') (member : v ∈ g'.tasks) :
    ∃ u ∈ kept, u.core = v.core := by
  have inside : v.core ∈ g'.tasks.map TaskView.core := List.mem_map_of_mem member
  rw [switched.tasks] at inside
  obtain ⟨u, old, same⟩ := List.mem_map.mp inside
  exact ⟨u, old, same⟩

omit [Layout] in
theorem TaskView.core_fields {u v : TaskView} (same : u.core = v.core) : u.addr = v.addr ∧ u.pid = v.pid ∧ u.tf = v.tf ∧
    u.kernelSp = v.kernelSp ∧ u.kernelStack = v.kernelStack ∧ u.userStack = v.userStack ∧ u.imageSize = v.imageSize ∧
    u.pagetable = v.pagetable ∧ u.userSp = v.userSp ∧ u.entry = v.entry := by
  simp only [TaskView.core, TaskView.mk.injEq] at same
  tauto

namespace ValidOf

variable {halt : Halt → Kernel → Prop}

/-- `task_reap_zombies`. -/
theorem reap_step [FreeSpaces Kind] (valid : ValidOf Kind g s) (r : Nat) :
    wp taskReapZombies s (fun _ s' => ∃ g', ValidOf Kind g' s' ∧ Op.reap.OutcomeOf Kind g s r g' s') halt := by
  have program : wp (do taskReapZombies; pure ()) s (fun (_ : Unit) s' => ∃ g', ValidOf Kind g' s' ∧ Op.reap.OutcomeOf Kind g s r g' s') halt :=
    valid.world.reaping valid.unqueued fun g' s' reaping => by
      rw [wp_pure]
      exact ⟨g', valid.reaping reaping, reaping⟩
  simpa using program

/-- `task_create_user`. -/
theorem create_step [FreeSpaces Kind] (valid : ValidOf Kind g s) (start stop entry : Nat) :
    wp (taskCreateUser start stop entry) s
      (fun r s' => ∃ g', ValidOf Kind g' s' ∧ (Op.createUser start stop entry).OutcomeOf Kind g s r g' s') halt := by
  refine wp_mono (valid.world.taskCreateUser_spec valid.unqueued valid.pid) ?_ fun _ _ => id
  rintro r s' ⟨g₁, s₁, g', reaping, world', ⟨zero, aborted, _⟩ | ⟨some, v, pages, here, _, _, created, _⟩⟩
  · exact ⟨g', (valid.reaping reaping).aborted world' aborted, g₁, s₁, reaping, .inl ⟨zero, aborted⟩⟩
  · exact ⟨g', (valid.reaping reaping).created world' created, g₁, s₁, reaping, .inr ⟨some, v, pages, here, created⟩⟩

/-- `task_fork` in the current task's frame. -/
theorem fork_step (valid : Valid g s) :
    wp (taskFork (currentFrame s)) s (fun r s' => ∃ g', Valid g' s' ∧ Op.fork.Outcome g s r g' s') halt := by
  by_cases idle : s.current = 0
  · unfold taskFork
    rw [wp_bind, wp_get, if_pos idle, wp_pure]
    exact ⟨g, valid, .inl ⟨rfl, rfl⟩⟩
  obtain ⟨p, member, current, isFrame⟩ := valid.running idle
  rw [isFrame]
  refine wp_mono (valid.world.taskFork_spec valid.unqueued valid.pid member current.symm rfl) ?_ fun _ _ => id
  rintro r s' ⟨g₁, s₁, g', reaping, world', ⟨zero, aborted, _⟩ | ⟨some, v, pages, here, _, _, created, _⟩⟩
  · exact ⟨g', (valid.reaping reaping).aborted world' aborted,
      .inr ⟨p, member, current, g₁, s₁, reaping, .inl ⟨zero, aborted⟩⟩⟩
  · exact ⟨g', (valid.reaping reaping).created world' created,
      .inr ⟨p, member, current, g₁, s₁, reaping, .inr ⟨some, v, pages, here, created⟩⟩⟩

/-- `task_schedule`. -/
theorem schedule_step [FreeSpaces Kind] (valid : ValidOf Kind g s) :
    wp (taskSchedule (currentFrame s)) s (fun r s' => ∃ g', ValidOf Kind g' s' ∧ Op.schedule.OutcomeOf Kind g s r g' s') halt := by
  refine wp_mono (valid.world.taskSchedule_spec valid.sched valid.frame) ?_ fun _ _ => id
  rintro r s' ⟨g', world', sched', switched, _, outcome⟩
  refine ⟨g', ⟨world', sched', by rw [switched.globals]; exact valid.pid, fun v member here => ?_⟩, switched⟩
  rcases outcome with ⟨_, idle, _⟩ | ⟨_, w, inside, isNext, current, _, isRoot⟩
  · exact absurd (here.trans idle) (world'.addr_ne_zero member)
  · obtain rfl := world'.eq_of_addr member inside (here.trans current)
    rcases isRoot with isRoot | ⟨stays, same⟩
    · exact isRoot
    · obtain ⟨u, old, core⟩ := switched.core_mem member
      have fields := TaskView.core_fields core
      have := valid.root u (mem_survivors.mp old).1 (fields.1.trans stays)
      rw [same, this, fields.2.2.2.2.2.2.2.1]

/-- `task_exit_current`. -/
theorem exit_step [Spaces Kind] (valid : ValidOf Kind g s) (code : UInt64) :
    wp (taskExitCurrent (currentFrame s) code.toNat) s
      (fun r s' => ∃ g', ValidOf Kind g' s' ∧ (Op.exit code).OutcomeOf Kind g s r g' s') fun _ _ => True := by
  by_cases idle : s.current = 0
  · unfold taskExitCurrent
    rw [wp_bind, wp_get, wp_bind, wp_kassert, if_neg (not_not.mpr idle)]
    trivial
  obtain ⟨p, member, current, isFrame⟩ := valid.running idle
  rw [isFrame]
  refine wp_mono (valid.world.taskExitCurrent_spec valid.sched member current.symm code.toNat_lt) ?_ fun _ _ => id
  rintro r s' ⟨g', world', sched', switched, _, _, outcome⟩
  refine ⟨g', ⟨world', sched', by rw [switched.globals]; exact valid.pid, fun v inside here => ?_⟩, switched⟩
  rcases outcome with ⟨_, _, idle'⟩ | ⟨_, w, resumed, _⟩
  · exact absurd (here.trans idle') (world'.addr_ne_zero inside)
  · rw [world'.eq_of_addr inside resumed.member (here.trans resumed.current)]
    exact resumed.root

/-- What a failed `sys_exec` leaves. -/
theorem execFailed (valid : Valid g s) (world' : WorldAt ∅ g' s') (failed : ExecFailed g s g' s') : Valid g' s' := by
  have globals := failed.globals
  exact valid.same_tasks world' failed.same (by rw [globals]) (by rw [globals]) (by rw [globals]) (by rw [globals])

/-- What a look leaves. -/
theorem looked (valid : Valid g s) (looked : Looked s s') : Valid g s' := by
  have mem := looked.mem
  unfold Looked at looked
  exact valid.same_tasks (valid.world.congr (fun x _ => by rw [mem]) (by rw [looked]) (by rw [looked]) (by rw [looked])
    (by rw [looked])) (.refl g) (by rw [looked]) (by rw [looked]) (by rw [looked]) (by rw [looked])

/-- What `sys_exec` leaves when it succeeds. -/
theorem execed (valid : Valid g s) {p : TaskView} {root entry : Nat} (member : p ∈ g.tasks) (isCurrent : s.current = p.addr)
    (world' : WorldAt ∅ g' s') (execed : Execed g s p root entry g' s') : Valid g' s' := by
  have globals := execed.globals
  have current : s'.current = s.current := by rw [globals]
  have queued : p.addr ∈ g.queue := by
    rw [← isCurrent]
    exact valid.sched.current.resolve_left (isCurrent ▸ valid.world.addr_ne_zero member)
  have isRunning : p.state = .running := (valid.sched.books.running p member).mpr isCurrent.symm
  have books := valid.sched.books
  have tasks : ∀ w' ∈ g'.tasks, ∃ w ∈ g.tasks, w'.addr = w.addr ∧ w'.state = w.state ∧
      (w.addr = p.addr → w'.pagetable = root) ∧ (w.addr ≠ p.addr → w' = w) := by
    intro w' inside
    rw [execed.tasks] at inside
    obtain ⟨w, old, rfl⟩ := mem_modify.mp inside
    refine ⟨w, old, ?_⟩
    split
    · next here => exact ⟨rfl, rfl, fun _ => rfl, fun other => absurd here other⟩
    · next other => exact ⟨rfl, rfl, fun here => absurd here other, fun _ => rfl⟩
  refine ⟨world', ⟨⟨?_, fun w' inside => ?_, fun a inQueue => ?_, fun w' inside => ?_, fun w' inside => ?_⟩, ?_⟩,
    by rw [globals]; exact valid.pid, fun w' inside here => ?_⟩
  · rw [globals, execed.queue]
    exact books.count
  · obtain ⟨w, old, addr, state, _⟩ := tasks w' inside
    rw [addr, state, execed.queue]
    exact books.queued w old
  · obtain ⟨w, old, here⟩ := books.known a (execed.queue ▸ inQueue)
    rw [execed.tasks]
    refine ⟨_, mem_modify.mpr ⟨w, old, rfl⟩, ?_⟩
    split
    · exact here
    · exact here
  · obtain ⟨w, old, _, state, _⟩ := tasks w' inside
    rw [state]
    exact books.states w old
  · obtain ⟨w, old, addr, state, _⟩ := tasks w' inside
    rw [addr, state, current]
    exact books.running w old
  · rw [current, execed.queue]
    exact valid.sched.current
  · obtain ⟨w, old, addr, _, isRoot, _⟩ := tasks w' inside
    rw [isRoot (by rw [← addr, here, current, isCurrent]), globals]

/-- `sys_exec`. -/
theorem exec_step (valid : Valid g s) (busy : s.current ≠ 0) (filename r : Nat) :
    wp (sysExec filename (currentFrame s)) s
      (fun _ s' => ∃ g', Valid g' s' ∧ (Op.exec filename).Outcome g s r g' s') fun _ _ => True := by
  obtain ⟨p, member, current, isFrame⟩ := valid.running busy
  rw [isFrame]
  refine wp_mono (valid.world.sysExec_spec member current.symm filename) ?_ fun _ _ => id
  rintro _ s' ⟨g', world', ⟨_, failed⟩ | ⟨_, root, entry, execed⟩⟩
  · exact ⟨g', valid.execFailed world' failed, .inl failed⟩
  · exact ⟨g', valid.execed member current.symm world' execed, .inr ⟨p, member, current, root, entry, execed⟩⟩

/-- The bytes that user code and the trap entry write are the current task's. -/
theorem mayWrite (valid : Valid g s) {p : TaskView} (member : p ∈ g.tasks) (current : p.addr = s.current) {x : Nat}
    (writes : MayWrite s x) :
    g.own (pageOf x) = .data (.task p.addr) ∨ g.own (pageOf x) = .ustack p.addr ∨ g.own (pageOf x) = .kstack p.addr := by
  have space := valid.world.space p member
  have pool := valid.world.heap.pool
  rcases writes with ⟨va, reached⟩ | isStack
  · rw [valid.root p member current] at reached
    obtain ⟨q, found, here⟩ := SpaceState.sv39User space.leaves space.tables pool (fun n q found => by
      refine pool.pages q fun outside => ?_
      rcases space.mapped n q found with here | here <;> simp [outside] at here) reached
    rw [here]
    exact (space.mapped _ q found).imp id .inl
  · rw [isStack, ← current, (valid.world.view p member).kernelStack]
    exact .inr (.inr ((space.kstack _).mpr rfl))

/-- User code runs. -/
theorem user_step (valid : Valid g s) (busy : s.current ≠ 0) {mem : Mem} (uart : Uart)
    (writes : ∀ x, mem x ≠ s.mem x → MayWrite s x) : Valid g { s with mem, uart } := by
  obtain ⟨p, member, current, _⟩ := valid.running busy
  have world : WorldAt ∅ g { s with mem } := valid.world.congr_pages fun x kind => by
    by_contra changed
    rcases valid.mayWrite member current (writes x changed) with here | here | here <;>
      rcases kind with other | other | other | ⟨_, other⟩ <;> simp [here] at other
  exact ⟨world.congr (fun _ _ => rfl) rfl rfl rfl rfl, ⟨{ valid.sched.books with }, valid.sched.current⟩, valid.pid, valid.root⟩

/-- The user pages of a task are pages of the pool. -/
theorem userPage (valid : Valid g s) (member : v ∈ g.tasks) {n p : Nat}
    (found : g.user v.addr n = some p) : PoolPage p :=
  valid.world.heap.pool.pages p (by
    rcases (valid.world.space v member).mapped n p found with here | here <;> simp [here])

/-- The task structures on `all_tasks`. -/
theorem onAllTasks (valid : ValidOf Kind g s) {task : Nat} : OnAllTasks s task ↔ ∃ v ∈ g.tasks, v.addr = task := by
  constructor
  · rintro ⟨nodes, ring, member⟩
    rw [ring.cycle.unique valid.world.allTasks.cycle] at member
    obtain ⟨v, inside, here⟩ := List.mem_map.mp member
    exact ⟨v, inside, by simp only [TaskView.taskNode] at here; omega⟩
  · rintro ⟨v, inside, rfl⟩
    exact ⟨_, valid.world.allTasks, List.mem_map_of_mem inside⟩

/-- The books without a task that does not run. -/
theorem without_books (valid : ValidOf Kind g s) (member : v ∈ g.tasks) (alive : v.state ≠ .zombie)
    (count : s'.nrRunnableTasks = wsub s.nrRunnableTasks 1) (same : SameTasks (g.without v) g')
    (current : s'.current = s.current) (other : v.addr ≠ s.current) : Sched g' s' := by
  have books := valid.sched.books
  have queued : v.addr ∈ g.queue := (books.queued v member).mpr alive
  have positive := List.length_pos_of_mem queued
  have short := valid.world.queue_length
  have distinct : g.tasks.Nodup := (List.nodup_cons.mp valid.world.allTasks.nodup).2.of_map _
  have tasks : ∀ w, w ∈ g'.tasks ↔ w ≠ v ∧ w ∈ g.tasks := fun w => by
    rw [same.tasks]
    exact distinct.mem_erase_iff
  have queue : ∀ a, a ∈ g'.queue ↔ a ≠ v.addr ∧ a ∈ g.queue := fun a => by
    rw [same.queue]
    exact valid.world.queue_nodup.mem_erase_iff
  have apart : ∀ w ∈ g'.tasks, w.addr ≠ v.addr := fun w inside equal => by
    obtain ⟨ne, old⟩ := (tasks w).mp inside
    exact ne (valid.world.eq_of_addr old member equal)
  refine ⟨⟨?_, fun w inside => ?_, fun a inQueue => ?_, fun w inside => ?_, fun w inside => ?_⟩, ?_⟩
  · rw [count, books.count, wsub_of_le (by omega) (by omega), same.queue]
    exact (List.length_erase_of_mem queued).symm
  · rw [queue, and_iff_right (apart w inside)]
    exact books.queued w ((tasks w).mp inside).2
  · obtain ⟨ne, old⟩ := (queue a).mp inQueue
    obtain ⟨w, inside, rfl⟩ := books.known a old
    exact ⟨w, (tasks w).mpr ⟨fun equal => ne (equal ▸ rfl), inside⟩, rfl⟩
  · exact books.states w ((tasks w).mp inside).2
  · rw [current]
    exact books.running w ((tasks w).mp inside).2
  · rw [current]
    exact valid.sched.current.imp id fun inQueue => (queue _).mpr ⟨other.symm, inQueue⟩

/-- `task_destroy` of a ready task. -/
theorem destroy_step [FreeSpaces Kind] (valid : ValidOf Kind g s) (member : v ∈ g.tasks) (ready : v.state = .ready) (r : Nat) :
    wp (taskDestroy v.addr) s (fun _ s' => ∃ g', ValidOf Kind g' s' ∧ (Op.destroy v.addr).OutcomeOf Kind g s r g' s') halt := by
  have books := valid.sched.books
  have alive : v.state ≠ .zombie := by simp [ready]
  have queued : v.addr ∈ g.queue := (books.queued v member).mpr alive
  have other : v.addr ≠ s.current := fun equal => by
    have := (books.running v member).mpr equal
    simp [ready] at this
  have positive : 0 < s.nrRunnableTasks := by
    rw [books.count]
    exact List.length_pos_of_mem queued
  refine wp_mono (valid.world.taskDestroy_spec member (books.queued v member) other positive) ?_ fun _ _ => id
  rintro _ s' ⟨g', world', same, frees, effect, globals⟩
  have current : s'.current = s.current := by rw [globals]
  refine ⟨g', ⟨world', valid.without_books member alive (by rw [globals]) same current other, by rw [globals]; exact valid.pid,
    fun w inside here => ?_⟩, v, member, rfl, same, frees, effect, globals⟩
  rw [same.tasks] at inside
  rw [globals]
  exact valid.root w (List.mem_of_mem_erase inside) (here.trans current)

/-- A page that is taken for good. -/
theorem take_step [Spaces Kind] (valid : ValidOf Kind g s) :
    wp pageAlloc s (fun r s' => ∃ g', ValidOf Kind g' s' ∧ Op.take.OutcomeOf Kind g s r g' s' ∧ (r ≠ 0 → g'.own r = .lost)) halt := by
  refine wp_mono (valid.world.heap.pool.alloc (o := .lost) (by simp)) ?_ fun _ _ => id
  rintro r s' (⟨_, rfl, rfl⟩ | ⟨rest, _, _, wasFree, pool', moves⟩)
  · exact ⟨g, valid, ⟨.refl g, fun _ => .inl rfl, fun _ _ _ => rfl, rfl⟩, fun nonzero => absurd rfl nonzero⟩
  have world := valid.world
  have owner : ∀ q, Function.update g.own r .lost q = g.own q ∨
      (g.own q = .free ∧ Function.update g.own r .lost q = .lost) := fun q => by
    by_cases equal : q = r
    · exact .inr ⟨equal ▸ wasFree, by rw [equal, Function.update_self]⟩
    · exact .inl (Function.update_of_ne equal _ _)
  have bytes : ∀ x, g.own (pageOf x) ≠ .free → x ∉ node Layout.freePageList → s'.mem x = s.mem x := fun x inUse plain =>
    moves.moves.bytes x (by simpa using inUse) plain
  have world' : WorldOf Kind ∅ { g with own := Function.update g.own r .lost, free := rest } s' := by
    refine world.carry ⟨pool', world.heap.heap.congr (fun b member x low high => ?_) ?_ ?_ (moves.moves.own_iff (by simp)),
      world.heap.coalesced⟩ (fun q => (owner q).imp id fun both => ⟨.inl both.1, .inr (.inr (.inl both.2))⟩) world.home
      (fun x inside => ?_) ?_
    · have inHeap := (world.heap.heap.cover x).mpr ⟨b, member, low, by unfold Block.stop; omega⟩
      exact bytes x (by simp [inHeap]) (world.heap.pool.not_head (by simp [inHeap]))
    · rw [moves.globals]
    · rw [moves.globals]
    · obtain ⟨notFree, _, plain⟩ := world.bytes_owner inside
      exact bytes x notFree plain
    · rw [moves.globals]
  refine ⟨_, valid.same_tasks world' ⟨rfl, rfl, rfl, rfl, rfl⟩ ?_ ?_ ?_ ?_, ⟨⟨rfl, rfl, rfl, rfl, rfl⟩, owner, bytes, ?_⟩,
    fun _ => Function.update_self ..⟩
  · rw [moves.globals]
  · rw [moves.globals]
  · rw [moves.globals]
  · rw [moves.globals]
  · have globals := moves.globals
    generalize s'.mem = m, s'.nrFreePages = n at globals
    rw [globals]

/-- Every operation preserves what holds between operations, whatever the kind of the
spaces, if it does not look into one. -/
theorem step_plain [FreeSpaces Kind] (valid : ValidOf Kind g s) {op : Op} {result : Nat} (plain : op.Plain) (called : op.Called s)
    (steps : op.Steps s result s') : ∃ g', ValidOf Kind g' s' ∧ op.OutcomeOf Kind g s result g' s' := by
  cases op with
  | fork => exact plain.elim
  | exec filename => exact plain.elim
  | user mem uart => exact plain.elim
  | createUser start stop entry => exact wp_returned (valid.create_step start stop entry) steps
  | schedule => exact wp_returned valid.schedule_step steps
  | exit code => exact wp_returned (valid.exit_step code) steps
  | reap => exact wp_returned (valid.reap_step result) steps
  | destroy task =>
      obtain ⟨onList, ready⟩ := called
      obtain ⟨v, member, rfl⟩ := valid.onAllTasks.mp onList
      rw [(valid.world.view v member).state] at ready
      exact wp_returned (valid.destroy_step member (TaskState.code_inj ready) result) steps
  | take =>
      obtain ⟨g', valid', outcome, _⟩ := wp_returned valid.take_step steps
      exact ⟨g', valid', outcome⟩

/-- Every operation preserves what holds between operations. -/
theorem step (valid : Valid g s) {op : Op} {result : Nat} (called : op.Called s) (steps : op.Steps s result s') :
    ∃ g', Valid g' s' ∧ op.Outcome g s result g' s' := by
  cases op with
  | fork => exact wp_returned valid.fork_step steps
  | exec filename =>
      obtain ⟨r, returned⟩ := steps
      exact wp_returned (valid.exec_step called filename result) returned
  | user mem uart =>
      obtain ⟨writes, rfl⟩ := steps
      exact ⟨g, valid.user_step called uart writes, rfl, writes, rfl⟩
  | createUser | schedule | exit | reap | destroy | take => exact valid.step_plain trivial called steps

end ValidOf

/-- Runs: states reached from a start by operations that are called as `allowed`
says. The number counts the tasks that were made. -/
inductive OpRun (start : Kernel → Prop) (allowed : Kernel → Op → Prop) : Nat → Kernel → Prop
  | start {s : Kernel} (starts : start s) : OpRun start allowed 0 s
  | step {n result : Nat} {s s' : Kernel} {op : Op} (before : OpRun start allowed n s) (called : allowed s op)
      (steps : op.Steps s result s') : OpRun start allowed (n + op.creations result) s'

end KuroOS
