import KuroOS.Task.Edit

/-!
# The lists of the tasks

`all_tasks` and `run_queue` run through nodes of the same task structures. An
operation on one of them changes nodes of that list only, which is what
`LinkFrame` says; from it each operation's effect on the world follows.
-/

namespace KuroOS

open Base

/-- Change the task at an address. -/
def World.modify (g : World) (task : Nat) (change : TaskView → TaskView) : World :=
  { g with tasks := g.tasks.map fun v => if v.addr = task then change v else v }

/-- Change the task at an address together with its pages. -/
def World.replace (g : World) (task : Nat) (change : TaskView → TaskView) (own : Nat → Owner)
    (dir : Directory) (user : UserMap) : World :=
  { g.modify task change with
    own := own, dir := Function.update g.dir task dir, user := Function.update g.user task user }

variable [Layout]

/-- A change of a task that its pages do not depend on. -/
structure KeepsPages (Kind : SpaceKind) (change : TaskView → TaskView) : Prop where
  addr : ∀ v, (change v).addr = v.addr
  space : ∀ own mem dir user v, Kind own mem dir user v → Kind own mem dir user (change v)

theorem keepsPages_state {Kind : SpaceKind} [Spaces Kind] (state : TaskState) : KeepsPages Kind fun v => { v with state } where
  addr _ := rfl
  space _ _ _ _ v space := Spaces.change state v.exitCode space

theorem keepsPages_exitCode {Kind : SpaceKind} [Spaces Kind] (exitCode : Nat) :
    KeepsPages Kind fun v => { v with exitCode } where
  addr _ := rfl
  space _ _ _ _ v space := Spaces.change v.state exitCode space

/-- What a change to list nodes leaves alone: `offset` is where the nodes are in
their task structures, and `head` the list's head. -/
structure LinkFrame (g : World) (offset head : Nat) (mem mem' : Mem) : Prop where
  allocator : ∀ x ∈ g.allocator, mem' x = mem x
  foreign : ∀ x, g.own (pageOf x) ≠ .heap → x ∉ node head → mem' x = mem x
  struct : ∀ a, Home g.blocks a → ∀ x, a ≤ x → x < a + taskSize →
    ¬ (a + offset ≤ x ∧ x < a + offset + 16) → mem' x = mem x
  heads : ∀ x, x ∈ node Layout.allTasks ∨ x ∈ node Layout.runQueue → x ∉ node head → mem' x = mem x

namespace LinkFrame

variable {Kind : SpaceKind} {wip : Set Owner} {g : World} {s : Kernel} {offset head : Nat} {mem' : Mem}

/-- Changing the nodes of task structures and the head of one list. -/
theorem intro (world : WorldOf Kind wip g s) (inStruct : offset + 16 ≤ taskSize)
    (isHead : head = Layout.allTasks ∨ head = Layout.runQueue) (nodeList : List Nat)
    (homes : ∀ n ∈ nodeList, ∃ a, n = a + offset ∧ Home g.blocks a)
    (same : SameOff (nodes (head :: nodeList)) s.mem mem') : LinkFrame g offset head s.mem mem' := by
  simp only [taskSize] at inStruct
  have touched : ∀ x, (∀ a, Home g.blocks a → ¬ (a + offset ≤ x ∧ x < a + offset + 16)) →
      x ∉ node head → mem' x = s.mem x := by
    intro x outside notHead
    refine same x ?_
    rintro ⟨n, member, inside⟩
    rcases List.mem_cons.mp member with rfl | member
    · exact notHead inside
    · obtain ⟨a, rfl, home⟩ := homes n member
      exact outside a home inside
  have headByte : ∀ {x}, x ∈ node head → x ∈ node Layout.allTasks ∨ x ∈ node Layout.runQueue := by
    intro x inside
    rcases isHead with rfl | rfl
    · exact .inl inside
    · exact .inr inside
  have headPage : ∀ {x}, x ∈ node head → g.own (pageOf x) = .outside := by
    intro x inside
    rcases headByte inside with inside | inside
    · exact WorldOf.head_outside world.heap.pool (by simp) inside
    · exact WorldOf.head_outside world.heap.pool (by simp) inside
  have payload : ∀ {a x}, Home g.blocks a → a + offset ≤ x → x < a + offset + 16 →
      x ∈ payloads g.blocks ∧ g.own (pageOf x) = .heap := fun home low high =>
    home.payload world.heap.heap (by omega) (by simp only [taskSize]; omega)
  refine ⟨fun x inside => ?_, fun x notHeap notHead => ?_, fun a home x low high outside => ?_,
    fun x isHead notHead => ?_⟩
  · refine touched x (fun a home link => ?_) fun isHead => ?_
    · exact World.not_allocator world.heap (.inl (payload home link.1 link.2).1) inside
    · exact World.not_allocator world.heap (.inr (headByte isHead)) inside
  · exact touched x (fun a home link => notHeap (payload home link.1 link.2).2) notHead
  · refine touched x (fun b home' link => ?_) fun isHead => ?_
    · by_cases equal : a = b
      · exact outside (equal ▸ link)
      · have := home.apart world.heap.heap home' equal
        simp only [taskSize] at *
        omega
    · have := (home.payload world.heap.heap low high).2
      simp [headPage isHead] at this
  · refine touched x (fun a home link => ?_) notHead
    have := (payload home link.1 link.2).2
    rcases isHead with inside | inside
    · simp [WorldOf.head_outside world.heap.pool (by simp) inside] at this
    · simp [WorldOf.head_outside world.heap.pool (by simp) inside] at this

/-- Tables are out of reach. -/
theorem table (frame : LinkFrame g offset head s.mem mem') (world : WorldOf Kind wip g s)
    (isHead : head = Layout.allTasks ∨ head = Layout.runQueue) {x : Nat} {space : Space}
    (inTable : g.own (pageOf x) = .table space) : mem' x = s.mem x := by
  refine frame.foreign x (by simp [inTable]) fun inside => ?_
  rcases isHead with rfl | rfl
  · simp [WorldOf.head_outside world.heap.pool (by simp) inside] at inTable
  · simp [WorldOf.head_outside world.heap.pool (by simp) inside] at inTable

end LinkFrame

/-- Add a task at the end of `all_tasks`. -/
def World.addTask (g : World) (v : TaskView) (dir : Directory) (user : UserMap) : World :=
  { g with
    tasks := g.tasks ++ [v]
    dir := Function.update g.dir v.addr dir
    user := Function.update g.user v.addr user }

namespace WorldOf

variable {Kind : SpaceKind} {wip : Set Owner} {g : World} {s : Kernel} {v : TaskView}

/-- The nodes of the tasks lie in their structures. -/
theorem task_nodes (world : WorldOf Kind wip g s) {n : Nat} (member : n ∈ g.tasks.map TaskView.taskNode) :
    ∃ a, n = a + Task.taskNode ∧ Home g.blocks a ∧ a ∈ g.structs := by
  obtain ⟨v, isTask, rfl⟩ := List.mem_map.mp member
  have inStructs : v.addr ∈ g.structs := List.mem_append_left _ (List.mem_map_of_mem isTask)
  exact ⟨v.addr, rfl, world.home _ inStructs, inStructs⟩

/-- The nodes of the queued tasks lie in their structures. -/
theorem run_nodes (world : WorldOf Kind wip g s) {n : Nat} (member : n ∈ g.queue.map runNode) :
    ∃ a, n = a + Task.runNode ∧ Home g.blocks a ∧ a ∈ g.structs := by
  obtain ⟨a, queued, rfl⟩ := List.mem_map.mp member
  have inStructs : a ∈ g.structs := List.mem_append_right _ queued
  exact ⟨a, rfl, world.home _ inStructs, inStructs⟩

/-- The two list heads do not overlap. -/
theorem heads_disjoint {x : Nat} : ¬ (x ∈ node Layout.allTasks ∧ x ∈ node Layout.runQueue) := by
  have apart := Layout.heads_apart
  simp only [List.pairwise_cons, List.mem_cons, List.not_mem_nil, or_false, forall_eq_or_imp,
    forall_eq] at apart
  simp only [mem_node]
  omega

/-- A change to the nodes of `all_tasks` is invisible to an unlinked node of the
run queue. -/
theorem idle_links {mem' : Mem} (frame : LinkFrame g Task.taskNode Layout.allTasks s.mem mem') {a : Nat}
    (home : Home g.blocks a) (ring : Ring s.mem (runNode a) []) : Ring mem' (runNode a) [] := by
  refine ring.congr fun x ⟨n, member, low, high⟩ => ?_
  obtain rfl := List.mem_singleton.mp member
  simp only [runNode, Task.runNode] at low high
  exact frame.struct a home x (by omega) (by simp only [taskSize]; omega) (by simp only [Task.taskNode]; omega)

/-- A change to the nodes of `all_tasks` is invisible to the run queue. -/
theorem runQueue_links (world : WorldOf Kind wip g s) {mem' : Mem}
    (frame : LinkFrame g Task.taskNode Layout.allTasks s.mem mem') :
    Ring mem' Layout.runQueue (g.queue.map runNode) := by
  refine world.runQueue.congr fun x ⟨n, member, inside⟩ => ?_
  rcases List.mem_cons.mp member with rfl | member
  · exact frame.heads x (.inr inside) fun other => heads_disjoint ⟨other, inside⟩
  · obtain ⟨a, rfl, home, _⟩ := world.run_nodes member
    simp only [Task.runNode, mem_node] at inside
    exact frame.struct a home x (by omega) (by simp only [taskSize]; omega)
      (by simp only [Task.taskNode]; omega)

/-- A change to the nodes of the run queue is invisible to `all_tasks`. -/
theorem allTasks_links (world : WorldOf Kind wip g s) {mem' : Mem}
    (frame : LinkFrame g Task.runNode Layout.runQueue s.mem mem') :
    Ring mem' Layout.allTasks (g.tasks.map TaskView.taskNode) := by
  refine world.allTasks.congr fun x ⟨n, member, inside⟩ => ?_
  rcases List.mem_cons.mp member with rfl | member
  · exact frame.heads x (.inl inside) fun other => heads_disjoint ⟨inside, other⟩
  · obtain ⟨a, rfl, home, _⟩ := world.task_nodes member
    simp only [Task.taskNode, mem_node] at inside
    exact frame.struct a home x (by omega) (by simp only [taskSize]; omega)
      (by simp only [Task.runNode]; omega)

/-- A change to list nodes keeps task structures, spaces and the kernel's own
tables. -/
theorem view_links {mem' : Mem} {offset head : Nat} (frame : LinkFrame g offset head s.mem mem')
    (later : 96 ≤ offset) (home : Home g.blocks v.addr) (view : TaskAt s.mem v) : TaskAt mem' v :=
  view.congr fun x low high =>
    frame.struct v.addr home x low (by simp only [taskSize]; omega) (by omega)

theorem space_links [Spaces Kind] (world : WorldOf Kind wip g s) {mem' : Mem} {offset head : Nat} {dir : Directory}
    {user : UserMap} (frame : LinkFrame g offset head s.mem mem')
    (isHead : head = Layout.allTasks ∨ head = Layout.runQueue)
    (space : Kind g.own s.mem dir user v) : Kind g.own mem' dir user v :=
  Spaces.congr space world.heap.pool (fun _ _ _ => Iff.rfl) fun _ inTable => frame.table world isHead inTable

theorem kernel_links (world : WorldOf Kind wip g s) {mem' : Mem} {offset head : Nat}
    (frame : LinkFrame g offset head s.mem mem')
    (isHead : head = Layout.allTasks ∨ head = Layout.runQueue) :
    SpaceTables g.own mem' .kernel s.kernelPagetable g.kdir :=
  world.kernel.congr world.heap.pool (fun _ => Iff.rfl) fun _ inTable => frame.table world isHead inTable

/-- The node of a structure that is on neither list is apart from the list's
nodes. -/
theorem node_apart (world : WorldOf Kind wip g s) {a offset head : Nat} (home : Home g.blocks a)
    (inStruct : offset + 16 ≤ taskSize) (isHead : head = Layout.allTasks ∨ head = Layout.runQueue)
    {addrs : List Nat} (homes : ∀ b ∈ addrs, Home g.blocks b) (fresh : a ∉ addrs) :
    ∀ n ∈ head :: addrs.map (· + offset), Apart (a + offset) n := by
  simp only [taskSize] at inStruct
  have bounds := home.bounds world.heap
  have image : head + 16 ≤ Layout.kernelEnd := by
    rcases isHead with rfl | rfl
    · exact (heads_facts _ (by simp)).2.1
    · exact (heads_facts _ (by simp)).2.1
  intro n member
  unfold Apart
  rcases List.mem_cons.mp member with rfl | member
  · omega
  · obtain ⟨b, inside, rfl⟩ := List.mem_map.mp member
    have := home.apart world.heap.heap (homes b inside) (fun equal => fresh (equal ▸ inside))
    simp only [taskSize] at this
    omega

/-- What `list_add_tail(&task->task_node, &all_tasks)` touches. -/
theorem addTask_frame (world : WorldOf Kind wip g s) (home : Home g.blocks v.addr) :
    LinkFrame g Task.taskNode Layout.allTasks s.mem (listAddTail s.mem v.taskNode Layout.allTasks) := by
  refine .intro world (by decide) (.inl rfl) (v.taskNode :: g.tasks.map TaskView.taskNode)
    (fun n member => ?_) ((listAddTail_sameOff world.allTasks).mono fun x => ?_)
  · rcases List.mem_cons.mp member with rfl | member
    · exact ⟨v.addr, rfl, home⟩
    · obtain ⟨a, here, home, _⟩ := world.task_nodes member
      exact ⟨a, here, home⟩
  · rintro ⟨n, member, inside⟩
    refine ⟨n, ?_, inside⟩
    simp only [List.mem_cons] at member ⊢
    tauto

/-- `list_add_tail(&task->task_node, &all_tasks)` for a finished task. -/
theorem addTask [Spaces Kind] (world : WorldOf Kind wip g s) {dir : Directory} {user : UserMap}
    (home : Home g.blocks v.addr) (fresh : v.addr ∉ g.structs) (alive : v.state ≠ .zombie) (view : TaskAt s.mem v)
    (space : Kind g.own s.mem dir user v) :
    WorldOf Kind (wip \ labels v.addr) (g.addTask v dir user)
      { s with mem := listAddTail s.mem v.taskNode Layout.allTasks } := by
  have bounds := home.bounds world.heap
  have addrs : g.tasks.map TaskView.taskNode = (g.tasks.map TaskView.addr).map (· + Task.taskNode) := by
    rw [List.map_map]
    rfl
  have notTask : v.addr ∉ g.tasks.map TaskView.addr := fun old => fresh (List.mem_append_left _ old)
  have apart : ∀ n ∈ Layout.allTasks :: g.tasks.map TaskView.taskNode, Apart v.taskNode n := by
    rw [addrs]
    exact world.node_apart home (by decide) (.inl rfl)
      (fun b member => world.home b (List.mem_append_left _ member)) notTask
  have frame := world.addTask_frame home
  have keepDir : ∀ w ∈ g.tasks, w.addr ≠ v.addr := fun w member equal =>
    notTask (equal ▸ List.mem_map_of_mem member)
  refine ⟨world.heap.congr frame.allocator rfl rfl rfl, ?_, world.runQueue_links frame,
    fun a member => ?_, fun w member => ?_, fun w member => ?_, world.kernel_links frame (.inl rfl),
    fun q => ?_, fun o inWip => ?_, fun w member isZombie off => ?_⟩
  · have ring := listAddTail_ring world.allTasks apart
      (by simp only [TaskView.taskNode, Task.taskNode]; omega)
    simpa [World.addTask] using ring
  · simp only [World.addTask, World.structs, List.map_append, List.map_singleton, List.append_assoc,
      List.mem_append, List.mem_singleton] at member
    rcases member with member | rfl | member
    · exact world.home a (List.mem_append_left _ member)
    · exact home
    · exact world.home a (List.mem_append_right _ member)
  · rcases List.mem_append.mp member with old | new
    · exact view_links frame (by decide) (world.task_home old) (world.view w old)
    · obtain rfl := List.mem_singleton.mp new
      exact view_links frame (by decide) home view
  · rcases List.mem_append.mp member with old | new
    · simp only [World.addTask, Function.update_of_ne (keepDir w old)]
      exact world.space_links frame (.inl rfl) (world.space w old)
    · obtain rfl := List.mem_singleton.mp new
      simp only [World.addTask, Function.update_self]
      exact world.space_links frame (.inl rfl) space
  · rcases world.owners q with isCommon | ⟨w, member, label⟩ | inWip
    · exact .inl isCommon
    · exact .inr (.inl ⟨w, List.mem_append_left _ member, label⟩)
    · by_cases own : g.own q ∈ labels v.addr
      · exact .inr (.inl ⟨v, by simp [World.addTask], own⟩)
      · exact .inr (.inr ⟨inWip, own⟩)
  · obtain ⟨notCommon, notLabel⟩ := world.foreign o inWip.1
    refine ⟨notCommon, fun w member => ?_⟩
    rcases List.mem_append.mp member with old | new
    · exact notLabel w old
    · obtain rfl := List.mem_singleton.mp new
      exact inWip.2
  · rcases List.mem_append.mp member with old | new
    · exact idle_links frame (world.task_home old) (world.idle w old isZombie off)
    · obtain rfl := List.mem_singleton.mp new
      exact absurd isZombie alive

/-- What `list_add_tail(&task->run_node, &run_queue)` touches. -/
theorem addRun_frame (world : WorldOf Kind wip g s) {a : Nat} (home : Home g.blocks a) :
    LinkFrame g Task.runNode Layout.runQueue s.mem (listAddTail s.mem (runNode a) Layout.runQueue) := by
  refine .intro world (by decide) (.inr rfl) (runNode a :: g.queue.map runNode)
    (fun n member => ?_) ((listAddTail_sameOff world.runQueue).mono fun x => ?_)
  · rcases List.mem_cons.mp member with rfl | member
    · exact ⟨a, rfl, home⟩
    · obtain ⟨b, here, home, _⟩ := world.run_nodes member
      exact ⟨b, here, home⟩
  · rintro ⟨n, member, inside⟩
    refine ⟨n, ?_, inside⟩
    simp only [List.mem_cons] at member ⊢
    tauto

/-- `list_add_tail(&task->run_node, &run_queue)` for a task that is not queued. -/
theorem addRun [Spaces Kind] (world : WorldOf Kind wip g s) {a : Nat} (home : Home g.blocks a) (fresh : a ∉ g.queue) :
    WorldOf Kind wip { g with queue := g.queue ++ [a] }
      { s with mem := listAddTail s.mem (runNode a) Layout.runQueue } := by
  have bounds := home.bounds world.heap
  have apart : ∀ n ∈ Layout.runQueue :: g.queue.map runNode, Apart (runNode a) n :=
    world.node_apart home (by decide) (.inr rfl) (fun b member => world.queue_home member) fresh
  have frame := world.addRun_frame home
  refine ⟨world.heap.congr frame.allocator rfl rfl rfl, world.allTasks_links frame, ?_,
    fun b member => ?_, fun w member => ?_, fun w member => ?_, world.kernel_links frame (.inr rfl),
    world.owners, world.foreign, fun w member isZombie off => ?_⟩
  · have ring := listAddTail_ring world.runQueue apart
      (by simp only [runNode, Task.runNode]; omega)
    simpa using ring
  · simp only [World.structs, List.mem_append, List.mem_singleton] at member
    rcases member with member | member | rfl
    · exact world.home b (List.mem_append_left _ member)
    · exact world.home b (List.mem_append_right _ member)
    · exact home
  · exact view_links frame (by decide) (world.task_home member) (world.view w member)
  · exact world.space_links frame (.inr rfl) (world.space w member)
  · simp only [List.mem_append, List.mem_singleton, not_or] at off
    refine (world.idle w member isZombie off.1).congr ?_
    rintro x ⟨n, isNode, inside⟩
    refine listAddTail_sameOff world.runQueue x ?_
    rintro ⟨m, isTouched, touch⟩
    obtain rfl := List.mem_singleton.mp isNode
    have clear : Apart (runNode w.addr) m := by
      rcases List.mem_cons.mp isTouched with rfl | isTouched
      · exact world.node_apart (world.task_home member) (by decide) (.inr rfl)
          (fun b (inside : b ∈ [a]) => List.mem_singleton.mp inside ▸ home) (by simpa using off.2) _ (by simp [runNode])
      · exact world.node_apart (world.task_home member) (by decide) (.inr rfl)
          (fun b member => world.queue_home member) off.1 m isTouched
    unfold Apart at clear
    simp only [mem_node] at inside touch
    omega

/-- What `list_del(&task->task_node)` touches. -/
theorem delTask_frame (world : WorldOf Kind wip g s) {xs ys : List TaskView} (split : g.tasks = xs ++ v :: ys) :
    LinkFrame g Task.taskNode Layout.allTasks s.mem (listDel s.mem v.taskNode) := by
  have ring := world.allTasks
  rw [split, List.map_append, List.map_cons] at ring
  refine .intro world (by decide) (.inl rfl) (g.tasks.map TaskView.taskNode) (fun n member => ?_) ?_
  · obtain ⟨b, here, home, _⟩ := world.task_nodes member
    exact ⟨b, here, home⟩
  · rw [split, List.map_append, List.map_cons]
    exact listDel_sameOff _ ring

/-- A task is not among the others. -/
theorem others_ne (world : WorldOf Kind wip g s) {xs ys : List TaskView} (split : g.tasks = xs ++ v :: ys)
    {w : TaskView} (member : w ∈ xs ++ ys) : w.addr ≠ v.addr := by
  intro equal
  have nodup := (List.nodup_cons.mp world.allTasks.nodup).2
  rw [split, List.map_append, List.map_cons] at nodup
  have notOther := (List.nodup_cons.mp (List.perm_middle.nodup_iff.mp nodup)).1
  refine notOther ?_
  rw [← List.map_append]
  exact List.mem_map.mpr ⟨w, member, by simp [TaskView.taskNode, equal]⟩

/-- `list_del(&task->task_node)`. The task's pages are in progress from here
on. -/
theorem delTask [Spaces Kind] (world : WorldOf Kind wip g s) {xs ys : List TaskView} (split : g.tasks = xs ++ v :: ys) :
    WorldOf Kind (wip ∪ labels v.addr) { g with tasks := xs ++ ys }
      { s with mem := listDel s.mem v.taskNode } := by
  have others : ∀ {w}, w ∈ xs ++ ys → w ∈ g.tasks := fun {w} member => by
    rw [split]
    simp only [List.mem_append, List.mem_cons] at member ⊢
    tauto
  have ring := world.allTasks
  rw [split, List.map_append, List.map_cons] at ring
  have frame := world.delTask_frame split
  have distinct : ∀ {w}, w ∈ xs ++ ys → w.addr ≠ v.addr := fun member => world.others_ne split member
  refine ⟨world.heap.congr frame.allocator rfl rfl rfl, ?_, world.runQueue_links frame,
    fun b member => ?_, fun w member => ?_, fun w member => ?_, world.kernel_links frame (.inl rfl),
    fun q => ?_, fun o inWip => ?_, fun w member isZombie off => ?_⟩
  · have after := (listDel_ring _ ring).1
    rwa [← List.map_append] at after
  · refine world.home b ?_
    simp only [World.structs, List.mem_append, List.mem_map] at member ⊢
    refine member.imp ?_ id
    rintro ⟨w, inside, here⟩
    exact ⟨w, others (by simpa using inside), here⟩
  · exact view_links frame (by decide) (world.task_home (others member)) (world.view w (others member))
  · exact world.space_links frame (.inl rfl) (world.space w (others member))
  · rcases world.owners q with isCommon | ⟨w, member, label⟩ | inWip
    · exact .inl isCommon
    · rw [split] at member
      rcases List.mem_append.mp member with before | after
      · exact .inr (.inl ⟨w, List.mem_append_left _ before, label⟩)
      · rcases List.mem_cons.mp after with rfl | after
        · exact .inr (.inr (.inr label))
        · exact .inr (.inl ⟨w, List.mem_append_right _ after, label⟩)
    · exact .inr (.inr (.inl inWip))
  · rcases inWip with inWip | label
    · obtain ⟨notCommon, notLabel⟩ := world.foreign o inWip
      exact ⟨notCommon, fun w member => notLabel w (others member)⟩
    · refine ⟨fun isCommon => ?_, fun w member label' => distinct member ?_⟩
      · simp only [labels, common, Set.mem_insert_iff, Set.mem_singleton_iff] at label isCommon
        rcases label with rfl | rfl | rfl | rfl <;> simp at isCommon
      · simp only [labels, Set.mem_insert_iff, Set.mem_singleton_iff] at label label'
        rcases label with rfl | rfl | rfl | rfl <;> simpa [eq_comm] using label'
  · exact idle_links frame (world.task_home (others member)) (world.idle w (others member) isZombie off)

/-- What `list_del(&task->run_node)` touches. -/
theorem delRun_frame (world : WorldOf Kind wip g s) {xs ys : List Nat} {a : Nat} (split : g.queue = xs ++ a :: ys) :
    LinkFrame g Task.runNode Layout.runQueue s.mem (listDel s.mem (runNode a)) := by
  have ring := world.runQueue
  rw [split, List.map_append, List.map_cons] at ring
  refine .intro world (by decide) (.inr rfl) (g.queue.map runNode) (fun n member => ?_) ?_
  · obtain ⟨b, here, home, _⟩ := world.run_nodes member
    exact ⟨b, here, home⟩
  · rw [split, List.map_append, List.map_cons]
    exact listDel_sameOff _ ring

/-- `list_del(&task->run_node)`. -/
theorem delRun [Spaces Kind] (world : WorldOf Kind wip g s) {xs ys : List Nat} {a : Nat} (split : g.queue = xs ++ a :: ys) :
    WorldOf Kind wip { g with queue := xs ++ ys } { s with mem := listDel s.mem (runNode a) } := by
  have ring := world.runQueue
  rw [split, List.map_append, List.map_cons] at ring
  have frame := world.delRun_frame split
  refine ⟨world.heap.congr frame.allocator rfl rfl rfl, world.allTasks_links frame, ?_,
    fun b member => ?_, fun w member => ?_, fun w member => ?_, world.kernel_links frame (.inr rfl),
    world.owners, world.foreign, fun w member isZombie off => ?_⟩
  · have after := (listDel_ring _ ring).1
    rwa [← List.map_append] at after
  · refine world.home b ?_
    simp only [World.structs, split, List.mem_append, List.mem_cons] at member ⊢
    tauto
  · exact view_links frame (by decide) (world.task_home member) (world.view w member)
  · exact world.space_links frame (.inr rfl) (world.space w member)
  · by_cases equal : w.addr = a
    · rw [equal]
      exact (listDel_ring _ ring).2
    · have queued : w.addr ∉ g.queue := by
        rw [split]
        simp only [List.mem_append, List.mem_cons, not_or] at off ⊢
        exact ⟨off.1, equal, off.2⟩
      refine (world.idle w member isZombie queued).congr ?_
      rintro x ⟨n, isNode, inside⟩
      refine listDel_sameOff _ ring x ?_
      rintro ⟨m, isTouched, touch⟩
      obtain rfl := List.mem_singleton.mp isNode
      rw [← List.map_cons, ← List.map_append, ← split] at isTouched
      have clear : Apart (runNode w.addr) m := world.node_apart (world.task_home member) (by decide) (.inr rfl)
        (fun b member => world.queue_home member) queued m isTouched
      unfold Apart at clear
      simp only [mem_node] at inside touch
      omega

end WorldOf

namespace WorldOf

variable {Kind : SpaceKind} {wip : Set Owner} {g : World} {s : Kernel} {v : TaskView}

variable {L : Set Owner}

/-- A task's fields change, and its pages with them: what it or an operation in
progress had becomes the task's or is lost. -/
theorem replace [Spaces Kind] (world : WorldOf Kind (wip ∪ L) g s) (member : v ∈ g.tasks) {change : TaskView → TaskView}
    (addr : ∀ w, (change w).addr = w.addr)
    (dies : (change v).state = .zombie → v.state = .zombie ∨ v.addr ∈ g.queue) {mem' : Mem}
    (elsewhere : ∀ x, ¬ (v.addr ≤ x ∧ x < v.addr + 96) → mem' x = s.mem x) (view : TaskAt mem' (change v))
    {own' : Nat → Owner}
    (owner : ∀ q, own' q = g.own q ∨ (g.own q ∈ labels v.addr ∪ L ∧ (own' q = .lost ∨ own' q ∈ labels v.addr)))
    (gone : ∀ q, own' q ∉ L) {dir : Directory} {user : UserMap} (space : Kind own' mem' dir user (change v)) :
    WorldOf Kind wip (g.replace v.addr change own' dir user) { s with mem := mem' } := by
  have home := world.task_home member
  have payload : ∀ {x}, v.addr ≤ x → x < v.addr + 96 → x ∈ payloads g.blocks ∧ g.own (pageOf x) = .heap :=
    fun low high => home.payload world.heap.heap low (by simp only [taskSize]; omega)
  have plain : ∀ x, g.own (pageOf x) ≠ .heap → mem' x = s.mem x :=
    fun x notHeap => elsewhere x fun touch => notHeap (payload touch.1 touch.2).2
  have kept : ∀ o, o ≠ .lost → o ∉ labels v.addr → o ∉ L → ∀ q, own' q = o ↔ g.own q = o := by
    intro o notLost notLabel notL q
    rcases owner q with equal | ⟨before, after⟩
    · rw [equal]
    · refine iff_of_false (fun here => ?_) fun here => before.elim (here ▸ notLabel) (here ▸ notL)
      exact after.elim (fun isLost => notLost (here.symm.trans isLost)) (here ▸ notLabel)
  have foreign : ∀ o ∈ common, o ≠ .lost → ∀ q, own' q = o ↔ g.own q = o := fun o isCommon notLost =>
    kept o notLost (fun inLabels => by
      simp only [labels, common, Set.mem_insert_iff, Set.mem_singleton_iff] at inLabels isCommon
      rcases inLabels with rfl | rfl | rfl | rfl <;> simp at isCommon) fun inL => (world.foreign o (.inr inL)).1 isCommon
  have others : ∀ w ∈ g.tasks, w.addr ≠ v.addr → ∀ o ∈ labels w.addr, ∀ q, own' q = o ↔ g.own q = o :=
    fun w old other o inLabels => kept o (by
      rintro rfl
      simp [labels] at inLabels) (labels_disjoint other inLabels) fun inL => (world.foreign o (.inr inL)).2 w old inLabels
  have addrs : (g.modify v.addr change).tasks.map TaskView.addr = g.tasks.map TaskView.addr := by
    simp only [World.modify, List.map_map]
    refine List.map_congr_left fun w _ => ?_
    simp only [Function.comp_apply]
    split
    · exact addr w
    · rfl
  have nodeList : (g.modify v.addr change).tasks.map TaskView.taskNode =
      g.tasks.map TaskView.taskNode := by
    have shift : ∀ l : List TaskView, l.map TaskView.taskNode = (l.map TaskView.addr).map (· + 96) :=
      fun l => by
        rw [List.map_map]
        rfl
    rw [shift, shift, addrs]
  have structs : (g.replace v.addr change own' dir user).structs = g.structs := by
    change (g.modify v.addr change).tasks.map TaskView.addr ++ g.queue = _
    rw [addrs]
    rfl
  -- nodes of either list lie past the fields
  have nodeByte : ∀ {a x offset' : Nat}, Home g.blocks a → 96 ≤ offset' → offset' ≤ 112 →
      a + offset' ≤ x → x < a + offset' + 16 → mem' x = s.mem x := by
    intro a x offset' home' _ _ low high
    refine elsewhere x fun touch => ?_
    by_cases equal : a = v.addr
    · omega
    · have := home'.apart world.heap.heap home equal
      simp only [taskSize] at this
      omega
  have tasks : ∀ w' ∈ (g.modify v.addr change).tasks, ∃ w ∈ g.tasks,
      (w = v ∧ w' = change v) ∨ (w.addr ≠ v.addr ∧ w' = w) := by
    intro w' inside
    obtain ⟨w, isTask, rfl⟩ := List.mem_map.mp inside
    by_cases equal : w.addr = v.addr
    · obtain rfl := world.eq_of_addr isTask member equal
      exact ⟨w, isTask, .inl ⟨rfl, if_pos rfl⟩⟩
    · exact ⟨w, isTask, .inr ⟨equal, if_neg equal⟩⟩
  have written : HeapState g.own g.free g.blocks { s with mem := mem' } :=
    world.heap.congr (fun x inAllocator => elsewhere x fun touch =>
      World.not_allocator world.heap (.inl (payload touch.1 touch.2).1) inAllocator) rfl rfl rfl
  have heap : HeapState own' g.free g.blocks { s with mem := mem' } := by
    refine ⟨written.pool.relabel (foreign .free (by simp [common]) (by simp)) fun p owned isOutside => owned ?_,
      written.heap.congr (fun _ _ _ _ _ => rfl) rfl rfl (foreign .heap (by simp [common]) (by simp)), written.coalesced⟩
    exact (foreign .outside (by simp [common]) (by simp) p).mpr isOutside
  refine ⟨heap, ?_, ?_,
    fun a isStruct => world.home a (structs ▸ isStruct), fun w' isTask => ?_, fun w' isTask => ?_,
    world.kernel.congr world.heap.pool (foreign _ (by simp [common]) (by simp)) fun x inTable => plain x (by simp [inTable]),
    fun q => ?_, fun o inWip => ?_, fun w' isTask isZombie off => ?_⟩
  · change Ring _ _ ((g.modify v.addr change).tasks.map TaskView.taskNode)
    rw [nodeList]
    refine world.allTasks.congr ?_
    rintro x ⟨n, isNode, low, high⟩
    rcases List.mem_cons.mp isNode with rfl | isNode
    · exact plain x (by simp [head_outside world.heap.pool (show Layout.allTasks ∈ _ by simp) ⟨low, high⟩])
    · obtain ⟨a, rfl, home', _⟩ := world.task_nodes isNode
      exact nodeByte home' (by decide) (by decide) low high
  · refine world.runQueue.congr ?_
    rintro x ⟨n, isNode, low, high⟩
    rcases List.mem_cons.mp isNode with rfl | isNode
    · exact plain x (by simp [head_outside world.heap.pool (show Layout.runQueue ∈ _ by simp) ⟨low, high⟩])
    · obtain ⟨a, rfl, home', _⟩ := world.run_nodes isNode
      exact nodeByte home' (by decide) (by decide) low high
  · obtain ⟨w, old, ⟨rfl, rfl⟩ | ⟨other, rfl⟩⟩ := tasks w' isTask
    · exact view
    · refine (world.view w' old).congr fun x low high => elsewhere x fun touch => ?_
      have := (world.task_home old).apart world.heap.heap home other
      simp only [taskSize] at this
      omega
  · change Kind own' mem' (Function.update g.dir v.addr dir w'.addr) (Function.update g.user v.addr user w'.addr) w'
    obtain ⟨w, old, ⟨rfl, rfl⟩ | ⟨other, rfl⟩⟩ := tasks w' isTask
    · rwa [addr w, Function.update_self, Function.update_self]
    · rw [Function.update_of_ne other, Function.update_of_ne other]
      exact Spaces.congr (world.space w' old) world.heap.pool (others w' old other) fun x inTable =>
        plain x (by simp [inTable])
  · have mapped : ∀ w ∈ g.tasks, own' q ∈ labels w.addr →
        ∃ w' ∈ (g.replace v.addr change own' dir user).tasks, own' q ∈ labels w'.addr := fun w old label => by
      refine ⟨if w.addr = v.addr then change w else w, List.mem_map_of_mem old, ?_⟩
      split
      · rwa [addr w]
      · exact label
    change own' q ∈ common ∨ (∃ w' ∈ (g.replace v.addr change own' dir user).tasks, own' q ∈ labels w'.addr) ∨ own' q ∈ wip
    rcases owner q with equal | ⟨_, isLost | label⟩
    · rw [equal] at mapped ⊢
      rcases world.owners q with isCommon | ⟨w, old, label⟩ | inWip | inL
      · exact .inl isCommon
      · exact .inr (.inl (mapped w old label))
      · exact .inr (.inr inWip)
      · exact absurd (equal ▸ inL) (gone q)
    · exact .inl (by simp [common, isLost])
    · exact .inr (.inl (mapped v member label))
  · obtain ⟨notCommon, notLabel⟩ := world.foreign o (.inl inWip)
    refine ⟨notCommon, fun w' isTask => ?_⟩
    obtain ⟨w, old, ⟨rfl, rfl⟩ | ⟨_, rfl⟩⟩ := tasks w' isTask
    · rw [addr w]
      exact notLabel w old
    · exact notLabel w' old
  · have unlinked : ∃ w ∈ g.tasks, w.addr = w'.addr ∧ w.state = .zombie := by
      obtain ⟨w, old, ⟨rfl, rfl⟩ | ⟨_, rfl⟩⟩ := tasks w' isTask
      · rw [addr w] at off ⊢
        exact ⟨w, old, rfl, (dies isZombie).resolve_right off⟩
      · exact ⟨w', old, rfl, isZombie⟩
    obtain ⟨w, old, equal, wasZombie⟩ := unlinked
    rw [← equal] at off ⊢
    refine (world.idle w old wasZombie off).congr ?_
    rintro x ⟨n, isNode, low, high⟩
    obtain rfl := List.mem_singleton.mp isNode
    exact nodeByte (world.task_home old) (by decide) (by decide) low high

/-- A store to a field of a task. -/
theorem modify [Spaces Kind] (world : WorldOf Kind wip g s) (member : v ∈ g.tasks) {change : TaskView → TaskView}
    (keeps : KeepsPages Kind change) (dies : (change v).state = .zombie → v.state = .zombie ∨ v.addr ∈ g.queue)
    {offset width value : Nat} (inside : offset + width ≤ 96)
    (view : TaskAt (s.mem.store (v.addr + offset) width value) (change v)) :
    WorldOf Kind wip (g.modify v.addr change)
      { s with mem := s.mem.store (v.addr + offset) width value } := by
  have home := world.task_home member
  have elsewhere : ∀ x, ¬ (v.addr ≤ x ∧ x < v.addr + 96) →
      s.mem.store (v.addr + offset) width value x = s.mem x := fun x outside =>
    Mem.store_of_outside (by omega)
  have space : Kind g.own (s.mem.store (v.addr + offset) width value) (g.dir v.addr) (g.user v.addr) v :=
    Spaces.congr (world.space v member) world.heap.pool (fun _ _ _ => Iff.rfl) fun x inTable => elsewhere x fun touch => by
      have := (home.payload world.heap.heap touch.1 (by simp only [taskSize]; omega)).2
      simp [inTable] at this
  have replaced := replace (L := ∅) (by rwa [Set.union_empty]) member keeps.addr dies elsewhere view
    (fun _ => .inl rfl) (fun _ => id) (keeps.space _ _ _ _ _ space)
  have same : g.replace v.addr change g.own (g.dir v.addr) (g.user v.addr) = g.modify v.addr change := by
    simp only [World.replace, Function.update_eq_self]
    rfl
  rwa [same] at replaced

end WorldOf

end KuroOS
