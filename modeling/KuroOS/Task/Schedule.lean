import KuroOS.Task.Sched

/-!
# Switching tasks

`task_set_current`, `task_exit_current` and `task_schedule`. They change states,
lists and counters, and reap zombies on the way; pages, tables and saved frames
of the tasks they keep are out of their reach.
-/

namespace KuroOS

open Base

/-- A task without the fields that scheduling changes. -/
def TaskView.core (v : TaskView) : TaskView := { v with state := .unused, exitCode := 0 }

section

variable {current : Nat} {change : TaskView → TaskView} (keeps : ∀ v, (change v).addr = v.addr) (g : World)

include keeps

/-- A change of the current task does not make it reapable. -/
theorem reapable_modify (v : TaskView) :
    (if v.addr = current then change v else v).reapable current = v.reapable current := by
  split
  · next here => simp [TaskView.reapable, keeps v, here]
  · rfl

/-- What is reaped does not depend on the current task. -/
theorem zombies_modify : zombies current (g.modify current change).tasks = zombies current g.tasks := by
  simp only [zombies, World.modify, List.filter_map]
  have same : (fun v : TaskView => v.reapable current) ∘ (fun v => if v.addr = current then change v else v) =
      fun v => v.reapable current := funext fun v => reapable_modify keeps v
  rw [same]
  refine (List.map_congr_left fun v inside => ?_).trans (List.map_id _)
  have reapable := (List.mem_filter.mp inside).2
  simp only [TaskView.reapable, Bool.and_eq_true, bne_iff_ne] at reapable
  exact if_neg reapable.2

/-- What is kept does, up to what scheduling changes. -/
theorem survivors_modify (core : ∀ v, (change v).core = v.core) :
    (survivors current (g.modify current change).tasks).map TaskView.core =
      (survivors current g.tasks).map TaskView.core := by
  simp only [survivors, World.modify, List.filter_map, List.map_map]
  have same : (fun v : TaskView => !v.reapable current) ∘ (fun v => if v.addr = current then change v else v) =
      fun v => !v.reapable current := funext fun v => congrArg not (reapable_modify keeps v)
  rw [same]
  refine List.map_congr_left fun v _ => ?_
  simp only [Function.comp_apply]
  split
  · exact core v
  · rfl

end

/-- The world in which a task runs. -/
def World.dispatch (g : World) (t : Nat) : World := g.modify t fun v => { v with state := .running }

variable [Layout]

/-- What switching tasks leaves behind: the tasks in `gone` are freed, those in
`kept` are still there. -/
structure Switched (gone kept : List TaskView) (g : World) (s : Kernel) (g' : World) (s' : Kernel) : Prop where
  tasks : g'.tasks.map TaskView.core = kept.map TaskView.core
  dir : g'.dir = g.dir
  user : g'.user = g.user
  kdir : g'.kdir = g.kdir
  frees : Frees gone g.own g'.own
  effect : Effect (freed gone) g.own s g'.own s'
  globals : s' = { s with
    mem := s'.mem, nrFreePages := s'.nrFreePages, heapHead := s'.heapHead, heapTail := s'.heapTail,
    satpRoot := s'.satpRoot, current := s'.current, nrRunnableTasks := s'.nrRunnableTasks }

namespace Switched

variable {gone kept : List TaskView} {g g₁ g' : World} {s s₁ s' : Kernel}

theorem refl (g : World) (s : Kernel) : Switched [] g.tasks g s g s := ⟨rfl, rfl, rfl, rfl, .nil, .refl, rfl⟩

/-- Reaping switches nothing, and frees. -/
theorem of_reaping {Kind : SpaceKind} (reaping : ReapingOf Kind g s g' s') :
    Switched (zombies s.current g.tasks) (survivors s.current g.tasks) g s g' s' where
  tasks := by rw [reaping.tasks]
  dir := reaping.reaped.dir
  user := reaping.reaped.user
  kdir := reaping.reaped.kdir
  frees := reaping.reaped.frees
  effect := reaping.reaped.effect
  globals := by
    have := reaping.reaped.globals
    generalize s'.mem = m, s'.nrFreePages = n, s'.heapHead = h, s'.heapTail = t at *
    rw [this]

omit [Layout] in
/-- Owners that nothing changes between. -/
theorem frees_trans {own own' own'' : Nat → Owner} (first : Frees [] own own') (later : Frees gone own' own'') :
    Frees gone own own'' := by
  have same : own' = own := funext fun q => first.others q (by simp)
  rwa [same] at later

omit [Layout] in
theorem trans_frees {own own' own'' : Nat → Owner} (first : Frees gone own own') (later : Frees [] own' own'') :
    Frees gone own own'' := by
  have same : own'' = own' := funext fun q => later.others q (by simp)
  rwa [same]

/-- Switching before anything else. -/
theorem before (first : Switched [] g.tasks g s g₁ s₁) (later : Switched gone kept g₁ s₁ g' s') :
    Switched gone kept g s g' s' where
  tasks := later.tasks
  dir := later.dir.trans first.dir
  user := later.user.trans first.user
  kdir := later.kdir.trans first.kdir
  frees := frees_trans first.frees later.frees
  effect := by
    have sub : freed [] ⊆ freed gone := freed_mono (by simp)
    exact (first.effect.mono sub sub sub).trans later.effect
  globals := by
    have := first.globals
    rw [later.globals]
    generalize s'.mem = m, s'.nrFreePages = n, s'.heapHead = h, s'.heapTail = t, s'.satpRoot = r, s'.current = c,
      s'.nrRunnableTasks = k
    rw [this]

/-- Switching after everything else. -/
theorem after (first : Switched gone kept g s g₁ s₁) (later : Switched [] g₁.tasks g₁ s₁ g' s') :
    Switched gone kept g s g' s' where
  tasks := later.tasks.trans first.tasks
  dir := later.dir.trans first.dir
  user := later.user.trans first.user
  kdir := later.kdir.trans first.kdir
  frees := trans_frees first.frees later.frees
  effect := by
    have sub : freed [] ⊆ freed gone := freed_mono (by simp)
    exact first.effect.trans (later.effect.mono sub sub sub)
  globals := by
    have := first.globals
    rw [later.globals]
    generalize s'.mem = m, s'.nrFreePages = n, s'.heapHead = h, s'.heapTail = t, s'.satpRoot = r, s'.current = c,
      s'.nrRunnableTasks = k
    rw [this]

/-- Changes of globals only. -/
theorem of_globals {current satpRoot nrRunnableTasks : Nat} :
    Switched [] g.tasks g s g { s with current, satpRoot, nrRunnableTasks } :=
  ⟨rfl, rfl, rfl, rfl, .nil, .refl, rfl⟩

end Switched

/-- Reaping keeps the books. -/
theorem Books.reaped {running : Nat} {g g' : World} {s s' : Kernel} (books : Books running g s)
    {Kind : SpaceKind} (reaping : ReapingOf Kind g s g' s') : Books running g' s' := by
  have inside : ∀ v ∈ g'.tasks, v ∈ g.tasks := fun v member => by
    rw [reaping.tasks] at member
    exact (mem_survivors.mp member).1
  have queue := reaping.reaped.queue
  refine ⟨?_, fun v member => queue ▸ books.queued v (inside v member), fun a queued => ?_,
    fun v member => books.states v (inside v member), fun v member => books.running v (inside v member)⟩
  · rw [queue, ← books.count, reaping.reaped.globals]
  · obtain ⟨v, member, rfl⟩ := books.known a (queue ▸ queued)
    refine ⟨v, ?_, rfl⟩
    rw [reaping.tasks]
    exact mem_survivors.mpr ⟨member, fun isZombie => absurd isZombie ((books.queued v member).mp (queue ▸ queued))⟩

namespace WorldOf

variable {Kind : SpaceKind} {wip : Set Owner} {g : World} {s : Kernel} {v : TaskView}
  {halt : Halt → Kernel → Prop} {running : Nat}

/-- A store to a field that scheduling changes. -/
theorem switchField [Spaces Kind] (world : WorldOf Kind wip g s) (member : v ∈ g.tasks) {change : TaskView → TaskView}
    (keeps : KeepsPages Kind change) (core : ∀ v, (change v).core = v.core)
    (dies : (change v).state = .zombie → v.state = .zombie ∨ v.addr ∈ g.queue)
    {offset width value : Nat} (inside : offset + width ≤ 96)
    (view : TaskAt (s.mem.store (v.addr + offset) width value) (change v)) :
    WorldOf Kind wip (g.modify v.addr change) { s with mem := s.mem.store (v.addr + offset) width value } ∧
      Switched [] g.tasks g s (g.modify v.addr change)
        { s with mem := s.mem.store (v.addr + offset) width value } := by
  refine ⟨world.modify member keeps dies inside view, ?_, rfl, rfl, rfl, .nil, .of_bytes fun x outside _ => ?_, rfl⟩
  · simp only [World.modify, List.map_map]
    refine List.map_congr_left fun w _ => ?_
    simp only [Function.comp_apply]
    split
    · exact core w
    · rfl
  · have := world.struct_heap (world.task_home member) (show g.own (pageOf x) ≠ .heap from fun here =>
      outside (by simp [here, freed]))
    exact Mem.store_of_outside (by simp only [taskSize] at this; omega)

/-- `task->state = state`. -/
theorem storeState_spec [Spaces Kind] (world : WorldOf Kind wip g s) (member : v ∈ g.tasks) (state : TaskState)
    (dies : state = .zombie → v.addr ∈ g.queue) :
    wp (storeState v.addr state) s (fun _ s' => WorldOf Kind wip (g.modify v.addr fun v => { v with state }) s' ∧
      Switched [] g.tasks g s (g.modify v.addr fun v => { v with state }) s' ∧ s' = { s with mem := s'.mem }) halt := by
  rw [wp_storeState]
  obtain ⟨world', switched⟩ := world.switchField member (keepsPages_state state) (fun _ => rfl)
    (fun here => .inr (dies here)) (by decide) ((world.view v member).setState state)
  exact ⟨world', switched, rfl⟩

/-- `task->exit_code = code`. -/
theorem storeExitCode_spec [Spaces Kind] (world : WorldOf Kind wip g s) (member : v ∈ g.tasks) {code : Nat} (fits : code < 2 ^ 64) :
    wp (storeWord (v.addr + Task.exitCode) code) s (fun _ s' =>
      WorldOf Kind wip (g.modify v.addr fun v => { v with exitCode := code }) s' ∧
      Switched [] g.tasks g s (g.modify v.addr fun v => { v with exitCode := code }) s' ∧
      s' = { s with mem := s'.mem }) halt := by
  rw [wp_storeWord]
  obtain ⟨world', switched⟩ := world.switchField member (keepsPages_exitCode code) (fun _ => rfl) .inl
    (by decide) ((world.view v member).setExitCode (show code < 256 ^ 8 from fits))
  exact ⟨world', switched, rfl⟩

/-- `task->tf = tf` with the frame that the task has anyway. -/
theorem storeFrame_spec [Spaces Kind] (world : WorldOf Kind wip g s) (member : v ∈ g.tasks) :
    wp (storeWord (v.addr + Task.tf) v.tf) s (fun _ s' => WorldOf Kind wip g s' ∧ Switched [] g.tasks g s g s' ∧
      s' = { s with mem := s'.mem }) halt := by
  have same : g.modify v.addr id = g := by
    simp [World.modify]
  have fits : v.tf < 256 ^ 8 := by
    rw [← (world.view v member).tf]
    exact Mem.load_lt _ _ _
  have keeps : KeepsPages Kind id := ⟨fun _ => rfl, fun _ _ _ _ _ => id⟩
  have stored := world.switchField member keeps (fun _ => rfl) .inl
    (show Task.tf + 8 ≤ 96 by decide) ((world.view v member).setTf fits)
  rw [same] at stored
  rw [wp_storeWord]
  exact ⟨stored.1, stored.2, rfl⟩

/-- `list_del(&task->run_node)`. -/
theorem unqueue_spec [Spaces Kind] (world : WorldOf Kind wip g s) {t : Nat} (queued : t ∈ g.queue) :
    wp (modifyMem (listDel · (t + Task.runNode))) s (fun _ s' => WorldOf Kind wip (g.unqueue t) s' ∧
      Switched [] g.tasks g s (g.unqueue t) s' ∧ s' = { s with mem := s'.mem }) halt := by
  obtain ⟨xs, ys, split, erased⟩ : ∃ xs ys, g.queue = xs ++ t :: ys ∧ g.queue.erase t = xs ++ ys := by
    obtain ⟨xs, ys, _, split, erased⟩ := List.exists_erase_eq queued
    exact ⟨xs, ys, split, erased⟩
  have removed := world.delRun split
  have frame := world.delRun_frame split
  rw [← erased] at removed
  rw [wp_modifyMem]
  refine ⟨removed, ⟨rfl, rfl, rfl, rfl, .nil, .of_bytes fun x outside plain => ?_, rfl⟩, rfl⟩
  exact frame.foreign x (fun here => outside (by simp [here, freed])) fun inside => plain (.inl (.inr inside))

/-- The root of a task's tables is the address of a page. -/
theorem root_bounds [Spaces Kind] (world : WorldOf Kind wip g s) (member : v ∈ g.tasks) : PoolPage v.pagetable := by
  have tables := Spaces.tables (world.space v member)
  exact tables.page world.heap.pool tables.tree.root_mem

/-- The task that a switch resumes. -/
structure Resumed (v : TaskView) (g : World) (s : Kernel) : Prop where
  member : v ∈ g.tasks
  current : s.current = v.addr
  root : s.satpRoot = v.pagetable

/-- `task_set_current` for a queued task, when no task is running. -/
theorem taskSetCurrent_spec [Spaces Kind] (world : WorldOf Kind wip g s) (books : Books 0 g s) (member : v ∈ g.tasks)
    (queued : v.addr ∈ g.queue) :
    wp (taskSetCurrent v.addr) s (fun _ s' => WorldOf Kind wip (g.dispatch v.addr) s' ∧ Sched (g.dispatch v.addr) s' ∧
      Resumed { v with state := .running } (g.dispatch v.addr) s' ∧ Switched [] g.tasks g s (g.dispatch v.addr) s') halt := by
  have page := world.root_bounds member
  have bounds := page.bounds
  have nonzero := world.addr_ne_zero member
  have current : WorldOf Kind wip g { s with current := v.addr } := world.congr (fun _ _ => rfl) rfl rfl rfl rfl
  unfold taskSetCurrent vmSwitch
  simp only [wp_bind, wp_kassert, wp_modify, ne_eq, nonzero, not_false_eq_true, if_true]
  refine wp_mono (current.storeState_spec member .running (by simp)) ?_ fun _ _ => id
  rintro _ s₁ ⟨world₁, switched₁, same₁⟩
  have member₁ : { v with state := .running } ∈ (g.modify v.addr fun v => { v with state := .running }).tasks :=
    mem_modify.mpr ⟨v, member, by simp⟩
  have view := world₁.view _ member₁
  have counter : s₁.nrRunnableTasks = s.nrRunnableTasks := by rw [same₁]
  have isCurrent : s₁.current = v.addr := by rw [same₁]
  simp only [wp_loadWord]
  rw [show s₁.mem.load (v.addr + Task.pagetable) 8 = v.pagetable from view.pagetable, if_pos (by omega),
    if_pos (pageAligned_iff.mpr page.1)]
  refine ⟨world₁.congr (fun _ _ => rfl) rfl rfl rfl rfl, ⟨?_, .inr ?_⟩, ⟨member₁, isCurrent, rfl⟩, ?_⟩
  · change Books s₁.current _ _
    rw [isCurrent]
    exact books.dispatch queued (fun w inside => world.addr_ne_zero inside) (fun _ => rfl) (fun _ => rfl) counter
  · change s₁.current ∈ g.queue
    rwa [isCurrent]
  · refine ⟨switched₁.tasks, rfl, rfl, rfl, .nil, switched₁.effect, ?_⟩
    have := switched₁.globals
    generalize s₁.mem = m, s₁.current = c, s₁.nrRunnableTasks = k at *
    rw [this]

/-- The end of `task_exit_current`: the first task of the queue runs, unless there
is none. -/
theorem resume_spec [Spaces Kind] (world : WorldOf Kind wip g s) (books : Books 0 g s) (current : s.current = 0) :
    wp (do
      if (← get).nrRunnableTasks = 0 then
        return 0
      else
        let next ← taskPickNext
        kassert (next ≠ 0) "next != 0"
        taskSetCurrent next
        loadWord (next + Task.tf)) s (fun r s' => ∃ g', WorldOf Kind wip g' s' ∧ Sched g' s' ∧
      Switched [] g.tasks g s g' s' ∧ g'.queue = g.queue ∧ (∀ v ∈ g.tasks, v.addr ∉ g.queue → v ∈ g'.tasks) ∧
      ((g.queue = [] ∧ r = 0 ∧ s'.current = 0) ∨
        (g.queue ≠ [] ∧ ∃ w, Resumed w g' s' ∧ w.addr = g.queue.headD 0 ∧ r = w.tf))) halt := by
  simp only [wp_bind, wp_get, wp_ite, wp_pure, wp_kassert, wp_loadWord]
  by_cases none : g.queue = []
  · rw [if_pos (by rw [books.count, none]; rfl)]
    exact ⟨g, world, ⟨current.symm ▸ books, .inl current⟩, .refl g s, rfl, fun _ member _ => member,
      .inl ⟨none, trivial, current⟩⟩
  · rw [if_neg fun zero => none (List.length_eq_zero_iff.mp (books.count ▸ zero))]
    refine wp_mono (world.taskPickNext_spec books (.inl current)) ?_ fun _ _ => id
    rintro next s₁ ⟨rfl, rfl⟩
    have queued : afterCurrent g.queue s₁.current ∈ g.queue := afterCurrent_mem none
    have first : afterCurrent g.queue s₁.current = g.queue.headD 0 :=
      afterCurrent_off fun inside => world.queued_ne_zero inside current
    obtain ⟨w, member, here⟩ := books.known _ queued
    rw [first] at queued here
    rw [first, if_pos (world.queued_ne_zero queued), ← here]
    refine wp_mono (world.taskSetCurrent_spec books member (here ▸ queued)) ?_ fun _ _ => id
    rintro _ s' ⟨world', sched', resumed, switched⟩
    have view := world'.view _ resumed.member
    refine ⟨_, world', sched', switched, rfl, fun v inside unqueued => ?_, .inr ⟨none, _, resumed, rfl, view.tf⟩⟩
    have other : v.addr ≠ w.addr := fun equal => unqueued (equal ▸ here ▸ queued)
    exact mem_modify.mpr ⟨v, inside, (if_neg other).symm⟩

/-- `task_exit_current`: the current task becomes a zombie, and the first of the
queue runs unless there is none. -/
theorem taskExitCurrent_spec [Spaces Kind] (world : WorldOf Kind wip g s) (sched : Sched g s) (member : v ∈ g.tasks)
    (current : s.current = v.addr) {code : Nat} (fits : code < 2 ^ 64) :
    wp (taskExitCurrent v.tf code) s (fun r s' => ∃ g', WorldOf Kind wip g' s' ∧ Sched g' s' ∧
      Switched [] g.tasks g s g' s' ∧ g'.queue = g.queue.erase v.addr ∧
      (∃ w ∈ g'.tasks, w.addr = v.addr ∧ w.state = .zombie ∧ w.exitCode = code) ∧
      ((g.queue = [v.addr] ∧ r = 0 ∧ s'.current = 0) ∨
        (g.queue ≠ [v.addr] ∧ ∃ w, Resumed w g' s' ∧ w.addr = (g.queue.erase v.addr).headD 0 ∧ r = w.tf))) halt := by
  have nonzero := world.addr_ne_zero member
  have queued : v.addr ∈ g.queue := by
    rw [← current]
    exact sched.current.resolve_left (current ▸ nonzero)
  have books : Books v.addr g s := current ▸ sched.books
  have positive := List.length_pos_of_mem queued
  have short := world.queue_length
  obtain ⟨change, isChange⟩ : ∃ change : TaskView → TaskView,
    change = fun w => { w with state := .zombie, exitCode := code } := ⟨_, rfl⟩
  unfold taskExitCurrent
  rw [wp_bind, wp_get, wp_bind, wp_kassert, current, if_pos nonzero, wp_bind, wp_get, current]
  refine wp_bind_of (world.storeFrame_spec member) ?_
  rintro _ s₁ ⟨world₁, switched₁, same₁⟩
  refine wp_bind_of (world₁.storeExitCode_spec member fits) ?_
  rintro _ s₂ ⟨world₂, switched₂, same₂⟩
  have member₂ : { v with exitCode := code } ∈ (g.modify v.addr fun w => { w with exitCode := code }).tasks :=
    mem_modify.mpr ⟨v, member, by simp⟩
  refine wp_bind_of (world₂.storeState_spec member₂ .zombie fun _ => queued) ?_
  rintro _ s₃ ⟨world₃, switched₃, same₃⟩
  have changed : (g.modify v.addr fun w => { w with exitCode := code }).modify v.addr (fun w => { w with state := .zombie }) =
      g.modify v.addr change := by
    rw [modify_modify (by simp), isChange]
    rfl
  simp only [changed] at world₃ switched₃
  refine wp_bind_of (world₃.unqueue_spec queued) ?_
  rintro _ s₄ ⟨world₄, switched₄, same₄⟩
  have counter : s₄.nrRunnableTasks = g.queue.length := by rw [same₄, same₃, same₂, same₁, books.count]
  rw [wp_bind, wp_get, wp_bind, wp_kassert, if_pos (show s₄.nrRunnableTasks > 0 by rw [counter]; exact positive),
    wp_bind, wp_modify, wp_bind, wp_modify]
  have switched := ((switched₁.before switched₂).after switched₃).after switched₄
  obtain ⟨g₄, isWorld⟩ : ∃ g₄, g₄ = (g.modify v.addr change).unqueue v.addr := ⟨_, rfl⟩
  rw [← isWorld] at world₄ switched
  have queue₄ : g₄.queue = g.queue.erase v.addr := by rw [isWorld]; rfl
  have length₄ : g₄.queue.length = g.queue.length - 1 := by rw [queue₄, List.length_erase_of_mem queued]
  obtain ⟨s₅, is₅⟩ : ∃ s₅ : Kernel, s₅ = { s₄ with nrRunnableTasks := wsub s₄.nrRunnableTasks 1, current := 0 } := ⟨_, rfl⟩
  have count : s₅.nrRunnableTasks = g₄.queue.length := by
    rw [is₅, length₄, ← counter]
    exact wsub_of_le (by omega) (by omega)
  have world₅ : WorldOf Kind wip g₄ s₅ := world₄.congr (by simp [is₅]) (by simp [is₅]) (by simp [is₅]) (by simp [is₅]) (by simp [is₅])
  have books₅ : Books 0 g₄ s₅ := by
    rw [isWorld]
    refine books.die queued world.queue_nodup (fun w inside => world.addr_ne_zero inside) short (fun w => ?_) (fun w => ?_) ?_
    · rw [isChange]
    · rw [isChange]
    · rw [is₅, books.count, ← counter]
  have switched₅ : Switched [] g.tasks g s g₄ s₅ := switched.after (by rw [is₅]; exact Switched.of_globals)
  have current₅ : s₅.current = 0 := by rw [is₅]
  have dead : change v ∈ g₄.tasks := by
    rw [isWorld]
    exact mem_modify.mpr ⟨v, member, by simp⟩
  have isDead : ∃ w ∈ g₄.tasks, w.addr = v.addr ∧ w.state = .zombie ∧ w.exitCode = code := by
    refine ⟨_, dead, ?_⟩
    simp [isChange]
  have last : g.queue = [v.addr] ↔ g₄.queue = [] := by
    rw [queue₄]
    refine ⟨fun only => by simp [only], fun none => ?_⟩
    obtain ⟨xs, ys, _, split, erased⟩ := List.exists_erase_eq queued
    rw [erased, List.append_eq_nil_iff] at none
    simpa [none.1, none.2] using split
  subst is₅
  refine wp_mono (world₅.resume_spec books₅ current₅) ?_ fun _ _ => id
  rintro r s' ⟨g', world', sched', switched', queue', stay, outcome⟩
  refine ⟨g', world', sched', switched₅.after switched', queue'.trans queue₄, ?_, ?_⟩
  · obtain ⟨w, inside, isAddr, facts⟩ := isDead
    refine ⟨w, stay w inside fun queued' => ?_, isAddr, facts⟩
    rw [isAddr, queue₄] at queued'
    exact (List.Nodup.not_mem_erase world.queue_nodup) queued'
  · rw [← queue₄]
    exact outcome.imp (fun found => ⟨last.mpr found.1, found.2⟩)
      fun found => ⟨fun only => found.1 (last.mp only), found.2⟩

/-- `task_schedule` from the reaping on, when no task is in state `TASK_RUNNING`. -/
theorem schedule_rest [FreeSpaces Kind] (world : WorldOf Kind ∅ g s) (books : Books 0 g s) (current : s.current = 0 ∨ s.current ∈ g.queue)
    {tf : Nat} (frame : ∀ v ∈ g.tasks, v.addr = s.current → tf = v.tf) :
    wp (do
      taskReapZombies
      let next ← taskPickNext
      if ← taskStays s.current next then
        if s.current ≠ 0 then
          storeState s.current .running
          return tf
        else
          return tf
      else
        taskSetCurrent next
        loadWord (next + Task.tf)) s (fun r s' => ∃ g', WorldOf Kind ∅ g' s' ∧ Sched g' s' ∧
      Switched (zombies s.current g.tasks) (survivors s.current g.tasks) g s g' s' ∧ g'.queue = g.queue ∧
      ((g.queue = [] ∧ s'.current = 0 ∧ s'.satpRoot = s.satpRoot ∧ r = tf) ∨
        (g.queue ≠ [] ∧ ∃ w ∈ g'.tasks, w.addr = afterCurrent g.queue s.current ∧ s'.current = w.addr ∧ r = w.tf ∧
          (s'.satpRoot = w.pagetable ∨ (w.addr = s.current ∧ s'.satpRoot = s.satpRoot))))) halt := by
  refine world.reaping (fun v member => books.unqueued v member) fun g₁ s₁ reaping => ?_
  have world₁ := reaping.world
  have books₁ := books.reaped reaping
  have switched₁ := Switched.of_reaping reaping
  have queue₁ := reaping.reaped.queue
  have current₁ : s₁.current = s.current := by rw [reaping.reaped.globals]
  have root₁ : s₁.satpRoot = s.satpRoot := by rw [reaping.reaped.globals]
  refine wp_bind_of (world₁.taskPickNext_spec books₁ (by rwa [current₁, queue₁])) ?_
  rintro next s₂ ⟨rfl, rfl⟩
  rw [queue₁, current₁]
  by_cases none : g.queue = []
  · have idle : s.current = 0 := current.resolve_right (by simp [none])
    rw [none, afterCurrent_nil, taskStays, if_pos (.inl rfl), pure_bind, if_pos rfl, if_neg (not_not.mpr idle), wp_pure]
    refine ⟨g₁, world₁, ⟨?_, .inl (current₁.trans idle)⟩, switched₁, queue₁.trans none, .inl ⟨rfl, current₁.trans idle, root₁, rfl⟩⟩
    rw [current₁, idle]
    exact books₁
  have queued : afterCurrent g.queue s.current ∈ g.queue := afterCurrent_mem none
  obtain ⟨w, member, here⟩ := books₁.known (afterCurrent g.queue s.current) (by rwa [queue₁])
  have nonzero := world.queued_ne_zero queued
  rw [← here] at nonzero queued ⊢
  by_cases stays : w.addr = s.current
  · rw [taskStays, if_pos (.inr stays), pure_bind, if_pos rfl, if_pos (stays ▸ nonzero), ← stays]
    refine wp_bind_of (world₁.storeState_spec member .running (by simp)) ?_
    rintro _ s₃ ⟨world₃, switched₃, same₃⟩
    have current₃ : s₃.current = w.addr := by rw [same₃, current₁, stays]
    have switched := switched₁.after switched₃
    rw [← stays] at switched
    rw [wp_pure]
    refine ⟨_, world₃, ⟨?_, .inr ?_⟩, switched, queue₁, .inr ⟨none, _,
      mem_modify.mpr ⟨w, member, rfl⟩, by simp, by simp [current₃], ?_, .inr ⟨by simp, ?_⟩⟩⟩
    · rw [current₃]
      exact books₁.dispatch (queue₁ ▸ queued) (fun v inside => world₁.addr_ne_zero inside) (fun _ => rfl) (fun _ => rfl)
        (by rw [same₃])
    · rw [current₃]
      exact queue₁ ▸ queued
    · have kept : w ∈ g.tasks := by
        rw [reaping.tasks] at member
        exact (mem_survivors.mp member).1
      simpa using frame w kept stays
    · rw [same₃, root₁]
  · have view := world₁.view w member
    have space := world₁.space w member
    have tf_ne : w.tf ≠ 0 := by
      have page := world₁.heap.pool.pages w.kernelStack (by simp [(Spaces.kstack space _).mpr rfl])
      have := page.bounds
      have := Spaces.tf space
      simp only [trapFrameSize, pageSize] at *
      omega
    have goes : taskStays s.current w.addr = do return (← loadWord (w.addr + Task.tf)) == 0 := by
      rw [taskStays, if_neg (by simp [nonzero, stays])]
    rw [goes, wp_bind, wp_bind, wp_loadWord, wp_pure, view.tf, if_neg (by simpa using tf_ne)]
    refine wp_bind_of (world₁.taskSetCurrent_spec books₁ member (queue₁ ▸ queued)) ?_
    rintro _ s₃ ⟨world₃, sched₃, resumed, switched₃⟩
    rw [wp_loadWord]
    exact ⟨_, world₃, sched₃, switched₁.after switched₃, queue₁, .inr ⟨none, _, resumed.member, rfl, resumed.current,
      (world₃.view _ resumed.member).tf, .inl resumed.root⟩⟩

/-- `task_schedule`: the task after the current one runs, if there is one. -/
theorem taskSchedule_spec [FreeSpaces Kind] (world : WorldOf Kind ∅ g s) (sched : Sched g s) {tf : Nat}
    (frame : ∀ v ∈ g.tasks, v.addr = s.current → tf = v.tf) :
    wp (taskSchedule tf) s (fun r s' => ∃ g', WorldOf Kind ∅ g' s' ∧ Sched g' s' ∧
      Switched (zombies s.current g.tasks) (survivors s.current g.tasks) g s g' s' ∧ g'.queue = g.queue ∧
      ((g.queue = [] ∧ s'.current = 0 ∧ s'.satpRoot = s.satpRoot ∧ r = tf) ∨
        (g.queue ≠ [] ∧ ∃ w ∈ g'.tasks, w.addr = afterCurrent g.queue s.current ∧ s'.current = w.addr ∧ r = w.tf ∧
          (s'.satpRoot = w.pagetable ∨ (w.addr = s.current ∧ s'.satpRoot = s.satpRoot))))) halt := by
  unfold taskSchedule
  rw [wp_bind, wp_get]
  dsimp only
  rcases sched.current with idle | queued
  · have books : Books 0 g s := idle ▸ sched.books
    rw [taskPark, if_neg (not_not.mpr idle), pure_bind]
    exact world.schedule_rest books (.inl idle) frame
  obtain ⟨v, member, here⟩ := sched.books.known _ queued
  have books : Books s.current g s := sched.books
  have isRunning : v.state = .running := (books.running v member).mpr here
  have nonzero := world.queued_ne_zero queued
  have sameFrame := frame v member here
  rw [taskPark, if_pos nonzero, bind_assoc, ← here, sameFrame]
  refine wp_bind_of (world.storeFrame_spec member) ?_
  rintro _ s₁ ⟨world₁, switched₁, same₁⟩
  rw [bind_assoc, wp_bind, wp_loadState, (world₁.view v member).state, isRunning, if_pos rfl]
  refine wp_bind_of (world₁.storeState_spec member .ready (by simp)) ?_
  rintro _ s₂ ⟨world₂, switched₂, same₂⟩
  have current₂ : s₂.current = s.current := by rw [same₂, same₁]
  have root₂ : s₂.satpRoot = s.satpRoot := by rw [same₂, same₁]
  have books₂ : Books 0 (g.modify v.addr fun v => { v with state := .ready }) s₂ := by
    rw [here]
    exact books.park queued (fun w inside => world.addr_ne_zero inside) (fun _ => rfl) (fun _ => rfl) (by rw [same₂, same₁])
  have keeps : ∀ u : TaskView, ({ u with state := .ready } : TaskView).addr = u.addr := fun _ => rfl
  have frame₂ : ∀ w ∈ (g.modify v.addr fun v => { v with state := .ready }).tasks, w.addr = s₂.current → v.tf = w.tf := by
    intro w inside isCurrent
    obtain ⟨u, old, rfl⟩ := mem_modify.mp inside
    have same : u.addr = v.addr := by
      rw [here, ← current₂, ← isCurrent]
      split <;> rfl
    rw [world.eq_of_addr old member same, if_pos rfl]
  have gone : zombies s₂.current (g.modify v.addr fun v => { v with state := .ready }).tasks = zombies s.current g.tasks := by
    rw [current₂, here]
    exact zombies_modify keeps g
  have left : (survivors s₂.current (g.modify v.addr fun v => { v with state := .ready }).tasks).map TaskView.core =
      (survivors s.current g.tasks).map TaskView.core := by
    rw [current₂, here]
    exact survivors_modify keeps g fun _ => rfl
  have isAddr : v.addr = s₂.current := here.trans current₂.symm
  rw [isAddr]
  refine wp_mono (world₂.schedule_rest books₂ (.inr (by rw [current₂]; exact queued)) frame₂) ?_ fun _ _ => id
  rintro r s' ⟨g', world', sched', switched', queue', outcome⟩
  have switched := (switched₁.before switched₂).before switched'
  rw [gone, ← current₂] at switched
  refine ⟨g', world', sched', ⟨switched.tasks.trans ?_, switched.dir, switched.user, switched.kdir, switched.frees,
    switched.effect, switched.globals⟩, queue', ?_⟩
  · rw [left, current₂]
  · rw [← root₂]
    exact outcome

end WorldOf

end KuroOS
