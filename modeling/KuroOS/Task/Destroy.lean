import KuroOS.Task.Schedule

/-!
# Destroying a task

`task_destroy` unlinks a task from both lists and frees it. It is written for a
task that is queued: for a zombie the second `list_del` changes nothing, since
the node is linked to itself, but the counter goes down all the same.
-/

namespace KuroOS

open Base

variable [Layout]

/-- A world without one of its tasks. -/
def World.without (g : World) (v : TaskView) : World :=
  { g with tasks := g.tasks.erase v, queue := g.queue.erase v.addr }

variable {Kind : SpaceKind} {g : World} {s : Kernel} {v : TaskView} {halt : Halt → Kernel → Prop}
  {running : Nat}

namespace WorldOf

/-- `list_del(&task->task_node)`; its run queue node stays as it is. -/
theorem unlinkTask_spec [Spaces Kind] (world : WorldOf Kind ∅ g s) (member : v ∈ g.tasks) (queued : v.addr ∈ g.queue ↔ v.state ≠ .zombie) :
    wp (modifyMem (listDel · (v.addr + Task.taskNode))) s (fun _ s' =>
      WorldOf Kind (labels v.addr) { g with tasks := g.tasks.erase v } s' ∧ s' = { s with mem := s'.mem } ∧
      TaskAt s'.mem v ∧ Kind g.own s'.mem (g.dir v.addr) (g.user v.addr) v ∧
      Effect {.heap} g.own s g.own s' ∧ (v.addr ∈ g.queue ∨ Ring s'.mem (runNode v.addr) [])) halt := by
  obtain ⟨xs, ys, _, split, erased⟩ := List.exists_erase_eq member
  have home := world.task_home member
  have frame := world.delTask_frame split
  have removed := world.delTask split
  rw [Set.empty_union, ← erased] at removed
  rw [wp_modifyMem]
  refine ⟨removed, rfl, view_links frame (by decide) home (world.view v member),
    world.space_links frame (.inl rfl) (world.space v member), link_effect frame (.inl rfl) rfl, ?_⟩
  by_cases inQueue : v.addr ∈ g.queue
  · exact .inl inQueue
  · have isZombie : v.state = .zombie := by
      by_contra alive
      exact inQueue (queued.mpr alive)
    exact .inr (idle_links frame home (world.idle v member isZombie inQueue))

/-- `list_del(&task->run_node)` of a task that is off the other list, queued or
not. -/
theorem unlinkRun_spec [Spaces Kind] {L : Set Owner} (world : WorldOf Kind L g s) (home : Home g.blocks v.addr)
    (off : ∀ w ∈ g.tasks, w.addr ≠ v.addr) (view : TaskAt s.mem v) (space : Kind g.own s.mem (g.dir v.addr) (g.user v.addr) v)
    (linked : v.addr ∈ g.queue ∨ Ring s.mem (runNode v.addr) []) :
    wp (modifyMem (listDel · (v.addr + Task.runNode))) s (fun _ s' =>
      WorldOf Kind L (g.unqueue v.addr) s' ∧ s' = { s with mem := s'.mem } ∧ TaskAt s'.mem v ∧
      Kind g.own s'.mem (g.dir v.addr) (g.user v.addr) v ∧ Effect {.heap} g.own s g.own s') halt := by
  rw [wp_modifyMem]
  by_cases queued : v.addr ∈ g.queue
  · obtain ⟨xs, ys, _, split, erased⟩ := List.exists_erase_eq queued
    have frame := world.delRun_frame split
    have removed := world.delRun split
    rw [← erased] at removed
    exact ⟨removed, rfl, view_links frame (by decide) home view, world.space_links frame (.inr rfl) space,
      link_effect frame (.inr rfl) rfl⟩
  · -- the node is linked to itself, and only it is written
    obtain ⟨_, same⟩ := listDel_self (linked.resolve_left queued)
    have outside : ∀ x, x < v.addr ∨ v.addr + taskSize ≤ x → listDel s.mem (runNode v.addr) x = s.mem x := fun x away =>
      same x (by simp only [mem_node, runNode, Task.runNode, taskSize] at *; omega)
    have fresh : v.addr ∉ g.structs := by
      simp only [World.structs, List.mem_append, List.mem_map, not_or, not_exists, not_and]
      exact ⟨off, queued⟩
    have plain : ∀ x, g.own (pageOf x) ≠ .heap → listDel s.mem (runNode v.addr) x = s.mem x := fun x notHeap =>
      outside x (world.struct_heap home notHeap)
    have unchanged : g.unqueue v.addr = g := by
      simp [World.unqueue, List.erase_of_not_mem queued]
    rw [unchanged]
    refine ⟨world.write_struct home fresh outside, rfl, view.congr fun x low high => same x ?_,
      Spaces.congr space world.heap.pool (fun _ _ _ => Iff.rfl) fun x inTable => plain x (by simp [inTable]),
      .of_bytes fun x notHeap _ => plain x (by simpa using notHeap)⟩
    simp only [mem_node, runNode, Task.runNode]
    omega

end WorldOf

/-- `task_destroy` up to its second assertion: the task is off both lists. -/
theorem taskDestroy_counter [Spaces Kind] (world : WorldOf Kind ∅ g s) (member : v ∈ g.tasks) (queued : v.addr ∈ g.queue ↔ v.state ≠ .zombie)
    (other : v.addr ≠ s.current) {post : Unit → Kernel → Prop}
    (rest : ∀ s₂, WorldOf Kind (labels v.addr) (g.without v) s₂ → s₂ = { s with mem := s₂.mem } → TaskAt s₂.mem v →
      Kind g.own s₂.mem (g.dir v.addr) (g.user v.addr) v → Effect {.heap} g.own s g.own s₂ →
      v.addr ∉ (g.without v).structs →
      wp (do
        kassert ((← get).nrRunnableTasks > 0) "nr_runnable_tasks > 0"
        modify fun s => { s with nrRunnableTasks := wsub s.nrRunnableTasks 1 }
        taskFree v.addr) s₂ post halt) :
    wp (taskDestroy v.addr) s post halt := by
  have nonzero := world.addr_ne_zero member
  have home := world.task_home member
  unfold taskDestroy
  rw [wp_bind, wp_kassert, if_pos nonzero, wp_bind, wp_get, wp_bind, wp_kassert, if_pos other]
  refine wp_bind_of (world.unlinkTask_spec member queued) ?_
  rintro _ s₁ ⟨world₁, same₁, view₁, space₁, effect₁, linked₁⟩
  have off : ∀ w ∈ g.tasks.erase v, w.addr ≠ v.addr := fun w inside equal => by
    have old := List.mem_of_mem_erase inside
    obtain rfl := world.eq_of_addr old member equal
    have distinct : g.tasks.Nodup := (List.nodup_cons.mp world.allTasks.nodup).2.of_map _
    exact List.Nodup.not_mem_erase distinct inside
  refine wp_bind_of (world₁.unlinkRun_spec home off view₁ space₁ linked₁) ?_
  rintro _ s₂ ⟨world₂, same₂, view₂, space₂, effect₂⟩
  have fresh : v.addr ∉ (g.without v).structs := by
    simp only [World.structs, World.without, List.mem_append, List.mem_map, not_or, not_exists, not_and]
    exact ⟨off, List.Nodup.not_mem_erase world.queue_nodup⟩
  refine rest s₂ world₂ ?_ view₂ space₂ (effect₁.trans effect₂) fresh
  rw [same₂]
  generalize s₂.mem = m
  rw [same₁]

namespace WorldOf

/-- `task_destroy` panics when no task is counted as runnable. -/
theorem taskDestroy_panics [Spaces Kind] (world : WorldOf Kind ∅ g s) (member : v ∈ g.tasks) (queued : v.addr ∈ g.queue ↔ v.state ≠ .zombie)
    (other : v.addr ≠ s.current) (none : s.nrRunnableTasks = 0) :
    wp (taskDestroy v.addr) s (fun _ _ => False) fun _ _ => True := by
  refine taskDestroy_counter world member queued other fun s₂ _ same _ _ _ _ => ?_
  rw [wp_bind, wp_get, wp_bind, wp_kassert, if_neg (by rw [same]; simp [none])]
  trivial

/-- `task_destroy`, from any books: the task leaves both lists and its pages go
back, and the counter goes down. -/
theorem taskDestroy_spec [FreeSpaces Kind] (world : WorldOf Kind ∅ g s) (member : v ∈ g.tasks) (queued : v.addr ∈ g.queue ↔ v.state ≠ .zombie)
    (other : v.addr ≠ s.current) (positive : 0 < s.nrRunnableTasks) :
    wp (taskDestroy v.addr) s (fun _ s' => ∃ g', WorldOf Kind ∅ g' s' ∧ SameTasks (g.without v) g' ∧
      Frees [v] g.own g'.own ∧ Effect (freed [v]) g.own s g'.own s' ∧
      s' = { s with
        mem := s'.mem, nrFreePages := s'.nrFreePages, heapHead := s'.heapHead, heapTail := s'.heapTail,
        nrRunnableTasks := wsub s.nrRunnableTasks 1 }) halt := by
  have home := world.task_home member
  refine taskDestroy_counter world member queued other fun s₂ world₂ same₂ view₂ space₂ linking₂ fresh => ?_
  have counter : s₂.nrRunnableTasks = s.nrRunnableTasks := by rw [same₂]
  rw [wp_bind, wp_get, wp_bind, wp_kassert, if_pos (by rw [counter]; exact positive), wp_bind, wp_modify]
  obtain ⟨s₃, is₃⟩ : ∃ s₃ : Kernel, s₃ = { s₂ with nrRunnableTasks := wsub s₂.nrRunnableTasks 1 } := ⟨_, rfl⟩
  have world₃ : WorldOf Kind (∅ ∪ labels v.addr) (g.without v) s₃ := by
    rw [Set.empty_union]
    exact world₂.congr (by simp [is₃]) (by simp [is₃]) (by simp [is₃]) (by simp [is₃]) (by simp [is₃])
  have mem₃ : s₃.mem = s₂.mem := by rw [is₃]
  rw [← is₃]
  refine wp_mono (world₃.taskFree_spec (mem₃ ▸ view₂) (mem₃ ▸ space₂) home fresh) ?_ fun _ _ => id
  rintro _ s₄ ⟨g₄, world₄, same₄, frees, effect, globals⟩
  have sub : ({.heap} : Set Owner) ⊆ freed [v] := by
    rintro o rfl
    simp [freed]
  have linking := linking₂.mono sub sub sub
  have whole : Moves pageOf listHeads (freed [v]) (freed [v]) g.own s.mem g.own s₃.mem := by
    rw [mem₃]
    exact linking
  refine ⟨g₄, world₄, same₄, frees, whole.trans effect, ?_⟩
  rw [globals]
  generalize s₄.mem = m, s₄.nrFreePages = n, s₄.heapHead = h, s₄.heapTail = t
  rw [is₃, same₂]

end WorldOf

end KuroOS
