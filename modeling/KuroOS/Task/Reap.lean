import KuroOS.Task.Free

/-!
# Reaping zombies

`task_reap_zombies` walks `all_tasks` with the next node at hand, so that the
node it stands on can go away. It frees the zombies other than the current
task, and keeps the rest in their order.
-/

namespace KuroOS

open Base

/-- The tasks that `task_reap_zombies` frees. -/
def TaskView.reapable (current : Nat) (v : TaskView) : Bool :=
  v.state == .zombie && v.addr != current

/-- The tasks that `task_reap_zombies` keeps. -/
def survivors (current : Nat) (tasks : List TaskView) : List TaskView :=
  tasks.filter fun v => !v.reapable current

/-- The tasks that `task_reap_zombies` frees, of a list. -/
def zombies (current : Nat) (tasks : List TaskView) : List TaskView :=
  tasks.filter (·.reapable current)

section

variable {current : Nat} {v : TaskView} {tasks : List TaskView}

theorem survivors_cons_reaped (reaped : v.reapable current = true) :
    survivors current (v :: tasks) = survivors current tasks := by
  simp [survivors, reaped]

theorem survivors_cons_kept (kept : v.reapable current = false) :
    survivors current (v :: tasks) = v :: survivors current tasks := by
  simp [survivors, kept]

theorem zombies_cons_reaped (reaped : v.reapable current = true) :
    zombies current (v :: tasks) = v :: zombies current tasks := by
  simp [zombies, reaped]

theorem zombies_cons_kept (kept : v.reapable current = false) :
    zombies current (v :: tasks) = zombies current tasks := by
  simp [zombies, kept]

theorem mem_zombies : v ∈ zombies current tasks ↔ v ∈ tasks ∧ v.state = .zombie ∧ v.addr ≠ current := by
  simp [zombies, TaskView.reapable]

theorem mem_survivors : v ∈ survivors current tasks ↔ v ∈ tasks ∧ (v.state = .zombie → v.addr = current) := by
  simp [survivors, TaskView.reapable]
  tauto

end

variable [Layout]

/-- The node that a walk of `all_tasks` stands on, with the tasks still to come. -/
def walkNode (tasks : List TaskView) : Nat :=
  (tasks.map TaskView.taskNode ++ [Layout.allTasks]).head (by simp)

/-- What freeing some of the tasks leaves behind. -/
structure Reaped (g : World) (s : Kernel) (gone : List TaskView) (g' : World) (s' : Kernel) : Prop where
  queue : g'.queue = g.queue
  dir : g'.dir = g.dir
  user : g'.user = g.user
  kdir : g'.kdir = g.kdir
  frees : Frees gone g.own g'.own
  effect : Effect (freed gone) g.own s g'.own s'
  globals : s' = { s with
    mem := s'.mem, nrFreePages := s'.nrFreePages, heapHead := s'.heapHead, heapTail := s'.heapTail }

namespace Reaped

variable {g g₁ g₂ : World} {s s₁ s₂ : Kernel} {v : TaskView} {gone : List TaskView}

theorem refl (g : World) (s : Kernel) : Reaped g s [] g s := ⟨rfl, rfl, rfl, rfl, .nil, .refl, rfl⟩

/-- Freeing one more task first. -/
theorem cons (first : Reaped g s [v] g₁ s₁) (later : Reaped g₁ s₁ gone g₂ s₂)
    (distinct : ∀ w ∈ gone, w.addr ≠ v.addr) : Reaped g s (v :: gone) g₂ s₂ where
  queue := later.queue.trans first.queue
  dir := later.dir.trans first.dir
  user := later.user.trans first.user
  kdir := later.kdir.trans first.kdir
  frees := first.frees.cons later.frees distinct
  effect := by
    have one : freed [v] ⊆ freed (v :: gone) := freed_mono (by simp)
    have others : freed gone ⊆ freed (v :: gone) := freed_mono fun w member => by simp [member]
    exact (first.effect.mono one one one).trans (later.effect.mono others others others)
  globals := by
    have := first.globals
    rw [later.globals]
    generalize s₂.mem = m, s₂.nrFreePages = n, s₂.heapHead = h, s₂.heapTail = t
    rw [this]

end Reaped

namespace WorldOf

variable {Kind : SpaceKind} {wip : Set Owner} {g : World} {s : Kernel} {v : TaskView}
  {halt : Halt → Kernel → Prop}

/-- The list of tasks is shorter than any loop bound. -/
theorem tasks_length (world : WorldOf Kind wip g s) : g.tasks.length < loopBound := by
  have distinct := (List.nodup_cons.mp world.allTasks.nodup).2
  have subset : g.tasks.map TaskView.taskNode ⊆ List.range 0x88000000 := fun n member => by
    obtain ⟨a, rfl, home, _⟩ := world.task_nodes member
    have := home.bounds world.heap
    simp only [Task.taskNode, taskSize] at *
    exact List.mem_range.mpr (by omega)
  have := (List.Nodup.subperm distinct subset).length_le
  rw [List.length_map, List.length_range] at this
  unfold loopBound
  omega

/-- `next` of a task's node is the node of the task after it. -/
theorem next_task (world : WorldOf Kind wip g s) (xs : List TaskView) {ys : List TaskView} (split : g.tasks = xs ++ v :: ys) :
    nextOf s.mem v.taskNode = walkNode ys := by
  have ring := world.allTasks
  rw [split, List.map_append, List.map_cons] at ring
  exact (ring.cycle.around _ _).2

/-- Changing list nodes is an effect within the heap. -/
theorem link_effect {offset head : Nat} {mem' : Mem} (frame : LinkFrame g offset head s.mem mem')
    (isHead : head = Layout.allTasks ∨ head = Layout.runQueue) {C : Set Owner} (inHeap : .heap ∈ C) :
    Effect C g.own s g.own { s with mem := mem' } := by
  refine .of_bytes fun x outside plain => frame.foreign x (fun here => outside (here ▸ inHeap)) fun inside => ?_
  rcases isHead with rfl | rfl
  · exact plain (.inr inside)
  · exact plain (.inl (.inr inside))

/-- One round of `task_reap_zombies`, for a zombie. -/
theorem taskReap_zombie [FreeSpaces Kind] (world : WorldOf Kind wip g s) {xs ys : List TaskView} (split : g.tasks = xs ++ v :: ys)
    (reaped : v.reapable s.current = true) (unqueued : v.addr ∉ g.queue) :
    wp (taskReap v.addr) s (fun _ s' => ∃ g', WorldOf Kind wip g' s' ∧ g'.tasks = xs ++ ys ∧
      Reaped g s [v] g' s') halt := by
  have member : v ∈ g.tasks := by simp [split]
  have frame := world.delTask_frame split
  have home := world.task_home member
  have fresh : v.addr ∉ ({ g with tasks := xs ++ ys } : World).structs := by
    simp only [World.structs, List.mem_append, List.mem_map, not_or, not_exists, not_and]
    exact ⟨fun w other => world.others_ne split (List.mem_append.mpr other), unqueued⟩
  simp only [TaskView.reapable, Bool.and_eq_true, beq_iff_eq, bne_iff_ne, ne_eq] at reaped
  unfold taskReap
  simp only [wp_bind, wp_loadState, wp_get, (world.view v member).state, reaped.1, reaped.2, ne_eq,
    not_true_eq_false, or_self, wp_ite, if_false, wp_modifyMem]
  refine wp_mono ((world.delTask split).taskFree_spec (v := v)
    (view_links frame (by decide) home (world.view v member))
    (world.space_links frame (.inl rfl) (world.space v member)) home fresh) ?_ fun _ _ => id
  rintro _ s' ⟨g', world', same, frees, effect, globals⟩
  exact ⟨g', world', same.tasks, same.queue, same.dir, same.user, same.kdir, frees,
    (link_effect frame (.inl rfl) (by simp [freed])).trans effect, globals⟩

/-- One round of `task_reap_zombies`, for a task that stays. -/
theorem taskReap_other (world : WorldOf Kind wip g s) (member : v ∈ g.tasks)
    (kept : v.reapable s.current = false) : wp (taskReap v.addr) s (fun _ s' => s' = s) halt := by
  have stays : v.state.code ≠ TaskState.zombie.code ∨ v.addr = s.current := by
    simp only [TaskView.reapable, Bool.and_eq_false_iff, beq_eq_false_iff_ne, bne_eq_false_iff_eq] at kept
    exact kept.imp (fun other equal => other (TaskState.code_inj equal)) id
  unfold taskReap
  simp only [wp_bind, wp_loadState, wp_get, (world.view v member).state, wp_ite, if_pos stays, wp_pure]

/-- The loop of `task_reap_zombies`, from a task on. -/
theorem taskReapLoop_spec [FreeSpaces Kind] {fuel next : Nat} (before rest : List TaskView) (world : WorldOf Kind wip g s)
    (split : g.tasks = before ++ rest) (enough : rest.length < fuel)
    (atNext : ∀ v ys, rest = v :: ys → next = walkNode ys)
    (unqueued : ∀ v ∈ rest, v.reapable s.current = true → v.addr ∉ g.queue) :
    wp (taskReapLoop fuel (walkNode rest) next) s
      (fun _ s' => ∃ g', WorldOf Kind wip g' s' ∧ g'.tasks = before ++ survivors s.current rest ∧
        Reaped g s (zombies s.current rest) g' s') halt := by
  induction rest generalizing fuel next before g s with
  | nil =>
      obtain ⟨fuel, rfl⟩ := Nat.exists_eq_succ_of_ne_zero (n := fuel) (by omega)
      rw [taskReapLoop, if_pos (by simp [walkNode]), wp_pure]
      exact ⟨g, world, split, .refl g s⟩
  | cons v ys ih =>
      obtain ⟨fuel, rfl⟩ := Nat.exists_eq_succ_of_ne_zero (n := fuel) (by omega)
      have member : v ∈ g.tasks := by simp [split]
      have bounds := (world.task_home member).bounds world.heap
      have notHead : v.taskNode ≠ Layout.allTasks := by
        have := (List.nodup_cons.mp world.allTasks.nodup).1
        exact fun equal => this (equal ▸ List.mem_map_of_mem member)
      have here : wsub v.taskNode Task.taskNode = v.addr := by
        rw [TaskView.taskNode, wsub_of_le] <;> simp only [Task.taskNode, taskSize] at * <;> omega
      rw [taskReapLoop, show walkNode (v :: ys) = v.taskNode from rfl, if_neg notHead, here,
        atNext v ys rfl]
      cases reaped : v.reapable s.current with
      | true =>
          rw [survivors_cons_reaped reaped, zombies_cons_reaped reaped]
          refine wp_bind_of (world.taskReap_zombie split reaped (unqueued v (by simp) reaped)) ?_
          rintro _ s₁ ⟨g₁, world₁, tasks₁, first⟩
          simp only [wp_bind, wp_get]
          have current₁ : s₁.current = s.current := by rw [first.globals]
          refine wp_mono (ih before world₁ tasks₁ (by simpa using enough) (fun w zs rest => ?_)
            fun w inRest isZombie => ?_) ?_ fun _ _ => id
          · subst rest
            exact world₁.next_task before tasks₁
          · rw [first.queue]
            exact unqueued w (by simp [inRest]) (current₁ ▸ isZombie)
          · rw [current₁]
            rintro _ s' ⟨g', world', tasks', later⟩
            refine ⟨g', world', tasks', first.cons later fun w gone => ?_⟩
            exact world.others_ne split (List.mem_append_right _ (mem_zombies.mp gone).1)
      | false =>
          rw [survivors_cons_kept reaped, zombies_cons_kept reaped]
          refine wp_bind_of (world.taskReap_other member reaped) ?_
          rintro _ _ rfl
          simp only [wp_bind, wp_get]
          have split' : g.tasks = (before ++ [v]) ++ ys := by simp [split]
          refine wp_mono (ih (before ++ [v]) world split' (by simpa using enough)
            (fun w zs rest => ?_) fun w inRest => unqueued w (by simp [inRest])) ?_ fun _ _ => id
          · subst rest
            exact world.next_task (before ++ [v]) split'
          · rintro _ s' ⟨g', world', tasks', later⟩
            exact ⟨g', world', by simpa using tasks', later⟩

/-- `task_reap_zombies`, when no zombie is queued. -/
theorem taskReapZombies_spec [FreeSpaces Kind] (world : WorldOf Kind wip g s)
    (unqueued : ∀ v ∈ g.tasks, v.reapable s.current = true → v.addr ∉ g.queue) :
    wp taskReapZombies s (fun _ s' => ∃ g', WorldOf Kind wip g' s' ∧ g'.tasks = survivors s.current g.tasks ∧
      Reaped g s (zombies s.current g.tasks) g' s') halt := by
  have first : nextOf s.mem Layout.allTasks = walkNode g.tasks := world.allTasks.cycle.next_head
  unfold taskReapZombies
  simp only [wp_bind, wp_get, first]
  refine world.taskReapLoop_spec [] g.tasks rfl world.tasks_length (fun v ys split => ?_) unqueued
  rw [split]
  exact world.next_task [] split

end WorldOf

end KuroOS
