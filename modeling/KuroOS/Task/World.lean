import KuroOS.Memory.UserPages
import KuroOS.Memory.Kmalloc
import KuroOS.Task.View

/-!
# What the machine's memory stands for

A `World` is what a machine state stands for: who owns which page, the heap's
blocks, the task structures in the order of `all_tasks`, the run queue, and the
tables and user pages of every address space. `WorldAt` says that a machine
state holds a world. The labels in `wip` belong to an operation in progress; no
task on `all_tasks` has any of their pages. The run queue's node of a zombie is
linked to itself once `list_del` has taken it off.
-/

namespace KuroOS

open Base

/-- The page number of `USER_STACK_TOP - PAGE_SIZE`. -/
@[simp] abbrev stackVpn : Nat := 0x3ffff

/-- The owners of a task's pages. -/
def labels (task : Nat) : Set Owner :=
  {.table (.task task), .data (.task task), .kstack task, .ustack task}

/-- Tasks at different addresses share no label. -/
theorem labels_disjoint {a b : Nat} (ne : a ≠ b) {o : Owner} (inside : o ∈ labels a) : o ∉ labels b := by
  simp only [labels, Set.mem_insert_iff, Set.mem_singleton_iff] at *
  rcases inside with rfl | rfl | rfl | rfl <;> simpa using ne

/-- The owners that belong to no task. -/
def common : Set Owner := {.outside, .free, .heap, .lost, .table .kernel}

/-- The user pages that `task_create_user` and `task_fork` map: the image from
`USER_TEXT_BASE` on, and the stack. -/
structure FreshMap (user : UserMap) (pages stack : Nat) : Prop where
  mapped : ∀ n, (user n).isSome ↔ (16 ≤ n ∧ n < 16 + pages) ∨ n = stackVpn
  stack : user stackVpn = some stack

/-- The user pages that `sys_exec` maps: a stack of its own, and not the page
that the task structure still calls its stack. -/
structure LoadedMap (user : UserMap) (oldStack : Nat) : Prop where
  stack : (user stackVpn).isSome
  dropped : ∀ n, user n ≠ some oldStack

/-- The address space of a task, and the pages it owns. -/
structure TaskSpace (own : Nat → Owner) (mem : Mem) (dir : Directory) (user : UserMap)
    (v : TaskView) : Prop where
  tables : SpaceTables own mem (.task v.addr) v.pagetable dir
  leaves : ∀ n, dir.leafAt mem n = spaceEntry user n
  plain : ∀ n, KernelVpn n → user n = none
  low : ∀ n p, user n = some p → n < 2 ^ 26
  inj : ∀ n m p, user n = some p → user m = some p → n = m
  mapped : ∀ n p, user n = some p → own p = .data (.task v.addr) ∨ own p = .ustack v.addr
  data : ∀ p, own p = .data (.task v.addr) → ∃ n, user n = some p
  kstack : ∀ q, own q = .kstack v.addr ↔ q = v.kernelStack
  ustack : ∀ q, own q = .ustack v.addr ↔ q = v.userStack
  kernelSp : v.kernelSp = v.kernelStack + pageSize
  tf : v.tf + trapFrameSize = v.kernelStack + pageSize
  userSp : v.userSp = userStackTop
  shape : (∃ pages ≤ 0x8000, v.imageSize = pageSize * pages ∧ FreshMap user pages v.userStack) ∨
    (v.imageSize = 0 ∧ LoadedMap user v.userStack)

/-- The task structure is the payload of a block in use. -/
def Home (blocks : List Block) (task : Nat) : Prop :=
  ∃ b ∈ blocks, b.free = false ∧ b.addr + 48 = task ∧ taskSize ≤ b.size

/-- Two homes at different addresses do not overlap. -/
theorem Home.apart {own : Nat → Owner} {blocks : List Block} {s : Kernel} (heap : Heap own blocks s)
    {a b : Nat} (home : Home blocks a) (home' : Home blocks b) (ne : a ≠ b) :
    a + taskSize ≤ b ∨ b + taskSize ≤ a := by
  obtain ⟨c, inside, _, here, large⟩ := home
  obtain ⟨d, inside', _, here', large'⟩ := home'
  have apart := heap.apart_of_ne inside inside' (by
    rintro rfl
    omega)
  unfold Block.Apart Block.stop at apart
  simp only [taskSize] at *
  omega

/-- The bytes of a home are payload, in heap pages. -/
theorem Home.payload {own : Nat → Owner} {blocks : List Block} {s : Kernel} (heap : Heap own blocks s)
    {a x : Nat} (home : Home blocks a) (low : a ≤ x) (high : x < a + taskSize) :
    x ∈ payloads blocks ∧ own (pageOf x) = .heap := by
  obtain ⟨b, inside, used, here, large⟩ := home
  simp only [taskSize] at *
  refine ⟨⟨b, inside, used, by omega, ?_⟩, (heap.cover x).mpr ⟨b, inside, by omega, ?_⟩⟩ <;>
  · unfold Block.stop
    omega

/-- What a machine state stands for. -/
structure World where
  own : Nat → Owner
  free : List Nat
  blocks : List Block
  tasks : List TaskView
  queue : List Nat
  dir : Nat → Directory
  user : Nat → UserMap
  kdir : Directory

/-- The addresses of the task structures on either list. -/
def World.structs (g : World) : List Nat := g.tasks.map TaskView.addr ++ g.queue

/-- Two worlds with the same tasks and address spaces. -/
structure SameTasks (g g' : World) : Prop where
  tasks : g'.tasks = g.tasks
  queue : g'.queue = g.queue
  dir : g'.dir = g.dir
  user : g'.user = g.user
  kdir : g'.kdir = g.kdir

namespace SameTasks

variable {g g' g'' : World}

theorem refl (g : World) : SameTasks g g := ⟨rfl, rfl, rfl, rfl, rfl⟩

theorem trans (first : SameTasks g g') (second : SameTasks g' g'') : SameTasks g g'' :=
  ⟨second.tasks.trans first.tasks, second.queue.trans first.queue, second.dir.trans first.dir,
    second.user.trans first.user, second.kdir.trans first.kdir⟩

theorem structs (same : SameTasks g g') : g'.structs = g.structs := by
  rw [World.structs, World.structs, same.tasks, same.queue]

end SameTasks

variable [Layout]

/-- What a task's tables and pages are. -/
abbrev SpaceKind := (Nat → Owner) → Mem → Directory → UserMap → TaskView → Prop

/-- A machine state holds a world whose tasks have spaces of a kind. -/
structure WorldOf (Kind : SpaceKind) (wip : Set Owner) (g : World) (s : Kernel) : Prop where
  heap : HeapState g.own g.free g.blocks s
  allTasks : Ring s.mem Layout.allTasks (g.tasks.map TaskView.taskNode)
  runQueue : Ring s.mem Layout.runQueue (g.queue.map runNode)
  home : ∀ a ∈ g.structs, Home g.blocks a
  view : ∀ v ∈ g.tasks, TaskAt s.mem v
  space : ∀ v ∈ g.tasks, Kind g.own s.mem (g.dir v.addr) (g.user v.addr) v
  kernel : SpaceTables g.own s.mem .kernel s.kernelPagetable g.kdir
  owners : ∀ q, g.own q ∈ common ∨ (∃ v ∈ g.tasks, g.own q ∈ labels v.addr) ∨ g.own q ∈ wip
  foreign : ∀ o ∈ wip, o ∉ common ∧ ∀ v ∈ g.tasks, o ∉ labels v.addr
  idle : ∀ v ∈ g.tasks, v.state = .zombie → v.addr ∉ g.queue → Ring s.mem (runNode v.addr) []

/-- A machine state holds a world whose tasks have address spaces. -/
abbrev WorldAt : Set Owner → World → Kernel → Prop := WorldOf TaskSpace

/-- What a kind of spaces has to tell: they depend on the task's own pages only, and an
address space is one. -/
class Spaces (Kind : SpaceKind) : Prop where
  congr : ∀ {own own' : Nat → Owner} {mem' : Mem} {dir : Directory} {user : UserMap} {v : TaskView} {free : List Nat}
    {s : Kernel}, Kind own s.mem dir user v → Pool own free s → (∀ o ∈ labels v.addr, ∀ q, own' q = o ↔ own q = o) →
    (∀ x, own (pageOf x) = .table (.task v.addr) → mem' x = s.mem x) → Kind own' mem' dir user v
  change : ∀ {own : Nat → Owner} {mem : Mem} {dir : Directory} {user : UserMap} {v : TaskView} (state : TaskState)
    (exitCode : Nat), Kind own mem dir user v → Kind own mem dir user { v with state, exitCode }
  tables : ∀ {own : Nat → Owner} {mem : Mem} {dir : Directory} {user : UserMap} {v : TaskView}, Kind own mem dir user v →
    SpaceTables own mem (.task v.addr) v.pagetable dir
  kstack : ∀ {own : Nat → Owner} {mem : Mem} {dir : Directory} {user : UserMap} {v : TaskView}, Kind own mem dir user v →
    ∀ q, own q = .kstack v.addr ↔ q = v.kernelStack
  tf : ∀ {own : Nat → Owner} {mem : Mem} {dir : Directory} {user : UserMap} {v : TaskView}, Kind own mem dir user v →
    v.tf + trapFrameSize = v.kernelStack + pageSize
  kernelSp : ∀ {own : Nat → Owner} {mem : Mem} {dir : Directory} {user : UserMap} {v : TaskView}, Kind own mem dir user v →
    v.kernelSp = v.kernelStack + pageSize
  ofTask : ∀ {own : Nat → Owner} {mem : Mem} {dir : Directory} {user : UserMap} {v : TaskView}, TaskSpace own mem dir user v →
    Kind own mem dir user v

/-- The bytes that the tasks and the two lists live in. -/
def World.bytes (g : World) : Set Nat :=
  {x | (∃ a ∈ g.structs, a ≤ x ∧ x < a + taskSize) ∨ x ∈ node Layout.allTasks ∨
    x ∈ node Layout.runQueue ∨ g.own (pageOf x) = .table .kernel ∨
    ∃ v ∈ g.tasks, g.own (pageOf x) = .table (.task v.addr)}

/-- A task's space depends on its own pages only. -/
theorem TaskSpace.congr {own own' : Nat → Owner} {mem' : Mem} {dir : Directory} {user : UserMap}
    {v : TaskView} {free : List Nat} {s : Kernel} (space : TaskSpace own s.mem dir user v)
    (pool : Pool own free s) (owner : ∀ o ∈ labels v.addr, ∀ q, own' q = o ↔ own q = o)
    (same : ∀ x, own (pageOf x) = .table (.task v.addr) → mem' x = s.mem x) :
    TaskSpace own' mem' dir user v where
  tables := space.tables.congr pool (owner _ (by simp [labels])) same
  leaves n := (space.tables.leafAt_congr pool same n).trans (space.leaves n)
  plain := space.plain
  low := space.low
  inj := space.inj
  mapped n p found := (space.mapped n p found).imp (owner _ (by simp [labels]) p).mpr
    (owner _ (by simp [labels]) p).mpr
  data p here := space.data p ((owner _ (by simp [labels]) p).mp here)
  kstack q := (owner _ (by simp [labels]) q).trans (space.kstack q)
  ustack q := (owner _ (by simp [labels]) q).trans (space.ustack q)
  kernelSp := space.kernelSp
  tf := space.tf
  userSp := space.userSp
  shape := space.shape

instance : Spaces TaskSpace where
  congr space := space.congr
  change _ _ space := { space with }
  tables space := space.tables
  kstack space := space.kstack
  tf space := space.tf
  kernelSp space := space.kernelSp
  ofTask := id

/-- A page of the kernel image has no owner of its own. -/
theorem Pool.image_outside {own : Nat → Owner} {free : List Nat} {s : Kernel} (pool : Pool own free s)
    {x : Nat} (image : x < Layout.kernelEnd) : own (pageOf x) = .outside := by
  by_contra owned
  obtain ⟨_, low, _⟩ := pool.pages _ owned
  unfold pageOf at low
  omega

/-- A home lies in RAM, above the kernel image. -/
theorem Home.bounds {own : Nat → Owner} {free : List Nat} {blocks : List Block} {s : Kernel}
    (state : HeapState own free blocks s) {a : Nat} (home : Home blocks a) :
    Layout.kernelEnd < a ∧ 0x80000000 < a ∧ a + taskSize ≤ 0x88000000 ∧ a % 16 = 0 := by
  obtain ⟨b, inside, _, here, large⟩ := home
  have bounds := state.heap.bounds state.pool inside
  have image : Layout.kernelEnd ≤ b.addr := by
    by_contra below
    have inHeap := (state.heap.cover b.addr).mpr
      ⟨b, inside, Nat.le_refl _, by unfold Block.stop; omega⟩
    rw [state.pool.image_outside (Nat.lt_of_not_le below)] at inHeap
    simp at inHeap
  unfold Block.stop at bounds
  simp only [taskSize] at *
  omega

namespace WorldOf

variable {Kind : SpaceKind} {wip : Set Owner} {g : World} {s s' : Kernel} {v : TaskView}

theorem task_home (world : WorldOf Kind wip g s) (member : v ∈ g.tasks) : Home g.blocks v.addr :=
  world.home _ (List.mem_append_left _ (List.mem_map_of_mem member))

theorem queue_home (world : WorldOf Kind wip g s) {a : Nat} (member : a ∈ g.queue) : Home g.blocks a :=
  world.home _ (List.mem_append_right _ member)

/-- Two tasks at one address are one. -/
theorem eq_of_addr (world : WorldOf Kind wip g s) {w : TaskView} (member : v ∈ g.tasks)
    (member' : w ∈ g.tasks) (equal : v.addr = w.addr) : v = w := by
  have distinct := (List.nodup_cons.mp world.allTasks.nodup).2
  exact List.inj_on_of_nodup_map distinct member member' (by simp [TaskView.taskNode, equal])

/-- No task is at address 0. -/
theorem addr_ne_zero (world : WorldOf Kind wip g s) (member : v ∈ g.tasks) : v.addr ≠ 0 := by
  have := (world.task_home member).bounds world.heap
  omega

/-- The list heads are in the kernel image. -/
theorem head_outside {own : Nat → Owner} {free : List Nat} (pool : Pool own free s) {head x : Nat}
    (isHead : head ∈ [Layout.freePageList, Layout.runQueue, Layout.allTasks]) (inside : x ∈ node head) :
    own (pageOf x) = .outside := by
  have := heads_facts head isHead
  exact pool.image_outside (by
    simp only [mem_node] at inside
    omega)

/-- The heads of the two task lists are not the page allocator's. -/
theorem head_apart {x : Nat} (inside : x ∈ node Layout.allTasks ∨ x ∈ node Layout.runQueue) :
    x ∉ node Layout.freePageList := by
  have apart := Layout.heads_apart
  simp only [List.pairwise_cons, List.mem_cons, List.not_mem_nil, or_false, forall_eq_or_imp,
    forall_eq] at apart
  simp only [mem_node] at *
  omega

omit [Layout] in
/-- Owners that the moves of pages are not about. -/
theorem own_iff {own' : Nat → Owner}
    (owner : ∀ q, own' q = g.own q ∨
      ((g.own q = .free ∨ g.own q = .heap ∨ g.own q ∈ wip) ∧
        (own' q = .free ∨ own' q = .heap ∨ own' q = .lost ∨ own' q ∈ wip)))
    {o : Owner} (notFree : o ≠ .free) (notHeap : o ≠ .heap) (notLost : o ≠ .lost) (notWip : o ∉ wip) (q : Nat) :
    own' q = o ↔ g.own q = o := by
  rcases owner q with equal | ⟨before, after⟩
  · rw [equal]
  · constructor
    · rintro rfl
      exact absurd after (by simp [notFree, notHeap, notLost, notWip])
    · rintro rfl
      exact absurd before (by simp [notFree, notHeap, notWip])

/-- A world survives whatever leaves the bytes of its tasks and lists alone, moves
pages only between the heap, the free list and work in progress, and leaves the
kernel tables of the same shape. -/
theorem carryTables [Spaces Kind] (world : WorldOf Kind wip g s) {own' : Nat → Owner} {free' : List Nat} {blocks' : List Block}
    (heap' : HeapState own' free' blocks' s')
    (owner : ∀ q, own' q = g.own q ∨
      ((g.own q = .free ∨ g.own q = .heap ∨ g.own q ∈ wip) ∧
        (own' q = .free ∨ own' q = .heap ∨ own' q = .lost ∨ own' q ∈ wip)))
    (home : ∀ a ∈ g.structs, Home blocks' a)
    (same : ∀ x ∈ g.bytes, g.own (pageOf x) ≠ .table .kernel → s'.mem x = s.mem x)
    (kernel : SpaceTables own' s'.mem .kernel s'.kernelPagetable g.kdir) :
    WorldOf Kind wip { g with own := own', free := free', blocks := blocks' } s' := by
  have label : ∀ v ∈ g.tasks, ∀ o ∈ labels v.addr, ∀ q, own' q = o ↔ g.own q = o := by
    intro v member o inLabels
    refine own_iff owner ?_ ?_ ?_ fun inWip => (world.foreign o inWip).2 v member inLabels <;>
    · rintro rfl
      simp [labels] at inLabels
  have struct : ∀ a ∈ g.structs, ∀ x, a ≤ x → x < a + taskSize → s'.mem x = s.mem x := fun a member x low high =>
    same x (.inl ⟨a, member, low, high⟩) (by simp [((world.home a member).payload world.heap.heap low high).2])
  have isTask : ∀ v ∈ g.tasks, v.addr ∈ g.structs := fun v member =>
    List.mem_append_left _ (List.mem_map_of_mem member)
  refine ⟨heap', ?_, ?_, home, ?_, ?_, kernel, fun q => ?_, world.foreign, fun v member isZombie off => ?_⟩
  · refine world.allTasks.congr fun x ⟨a, member, low, high⟩ => ?_
    rcases List.mem_cons.mp member with rfl | member
    · exact same x (.inr (.inl ⟨low, high⟩)) (by simp [head_outside world.heap.pool (by simp) ⟨low, high⟩])
    · obtain ⟨v, inside, rfl⟩ := List.mem_map.mp member
      refine struct v.addr (isTask v inside) x ?_ ?_ <;>
      · simp only [TaskView.taskNode, Task.taskNode, taskSize] at *
        omega
  · refine world.runQueue.congr fun x ⟨a, member, low, high⟩ => ?_
    rcases List.mem_cons.mp member with rfl | member
    · exact same x (.inr (.inr (.inl ⟨low, high⟩))) (by simp [head_outside world.heap.pool (by simp) ⟨low, high⟩])
    · obtain ⟨t, queued, rfl⟩ := List.mem_map.mp member
      refine struct t (List.mem_append_right _ queued) x ?_ ?_ <;>
      · simp only [runNode, Task.runNode, taskSize] at *
        omega
  · intro v member
    refine (world.view v member).congr fun x low high => struct v.addr (isTask v member) x low ?_
    simp only [taskSize]
    omega
  · intro v member
    exact Spaces.congr (world.space v member) world.heap.pool (label v member) fun x here =>
      same x (.inr (.inr (.inr (.inr ⟨v, member, here⟩)))) (by simp [here])
  · change own' q ∈ common ∨ (∃ v ∈ g.tasks, own' q ∈ labels v.addr) ∨ own' q ∈ wip
    rcases owner q with equal | ⟨_, isFree | isHeap | isLost | inWip⟩
    · rw [equal]
      exact world.owners q
    · exact .inl (by simp [common, isFree])
    · exact .inl (by simp [common, isHeap])
    · exact .inl (by simp [common, isLost])
    · exact .inr (.inr inWip)
  · refine (world.idle v member isZombie off).congr fun x ⟨n, isNode, low, high⟩ => ?_
    obtain rfl := List.mem_singleton.mp isNode
    refine struct v.addr (isTask v member) x ?_ ?_ <;>
    · simp only [runNode, Task.runNode, taskSize] at *
      omega

/-- A world survives whatever leaves the bytes of its tasks and lists alone and
moves pages only between the heap, the free list and work in progress. -/
theorem carry [Spaces Kind] (world : WorldOf Kind wip g s) {own' : Nat → Owner} {free' : List Nat} {blocks' : List Block}
    (heap' : HeapState own' free' blocks' s')
    (owner : ∀ q, own' q = g.own q ∨
      ((g.own q = .free ∨ g.own q = .heap ∨ g.own q ∈ wip) ∧
        (own' q = .free ∨ own' q = .heap ∨ own' q = .lost ∨ own' q ∈ wip)))
    (home : ∀ a ∈ g.structs, Home blocks' a) (same : ∀ x ∈ g.bytes, s'.mem x = s.mem x)
    (root : s'.kernelPagetable = s.kernelPagetable) :
    WorldOf Kind wip { g with own := own', free := free', blocks := blocks' } s' := by
  refine world.carryTables heap' owner home (fun x inside _ => same x inside) ?_
  rw [root]
  refine world.kernel.congr world.heap.pool (own_iff owner (by simp) (by simp) (by simp) fun inWip => ?_) fun x here =>
    same x (.inr (.inr (.inr (.inl here))))
  exact (world.foreign _ inWip).1 (by simp [common])

/-- The bytes of a world are in no free page and in no page of an operation in
progress. -/
theorem bytes_owner (world : WorldOf Kind wip g s) {x : Nat} (inside : x ∈ g.bytes) :
    g.own (pageOf x) ≠ .free ∧ g.own (pageOf x) ∉ wip ∧ x ∉ node Layout.freePageList := by
  have pool := world.heap.pool
  have split : ∀ {o}, g.own (pageOf x) = o → o ≠ .free → o ∉ wip → o ≠ .outside →
      g.own (pageOf x) ≠ .free ∧ g.own (pageOf x) ∉ wip ∧ x ∉ node Layout.freePageList := by
    rintro o rfl notFree notWip owned
    exact ⟨notFree, notWip, pool.not_head owned⟩
  have notWip : ∀ o ∈ common, o ∉ wip := fun o isCommon inWip => (world.foreign o inWip).1 isCommon
  rcases inside with ⟨a, member, low, high⟩ | isHead | isHead | isKernel | ⟨v, member, isTask⟩
  · exact split ((world.home a member).payload world.heap.heap low high).2 (by simp)
      (notWip _ (by simp [common])) (by simp)
  · have here := head_outside pool (by simp) isHead
    exact ⟨by simp [here], here ▸ notWip _ (by simp [common]), head_apart (.inl isHead)⟩
  · have here := head_outside pool (by simp) isHead
    exact ⟨by simp [here], here ▸ notWip _ (by simp [common]), head_apart (.inr isHead)⟩
  · exact split isKernel (by simp) (notWip _ (by simp [common])) (by simp)
  · refine split isTask (by simp) (fun inWip => ?_) (by simp)
    exact (world.foreign _ inWip).2 v member (by simp [labels])

/-- Page operations between the free list and work in progress. -/
theorem pageMoves [Spaces Kind] (world : WorldOf Kind wip g s) {C W : Set Owner} {own' : Nat → Owner} {free' : List Nat}
    (moves : PageMoves C W g.own s own' s') (pool' : Pool own' free' s')
    (cells : ∀ o ∈ C, o = .free ∨ o ∈ wip) (written : ∀ o ∈ W, o = .free ∨ o ∈ wip) :
    ∃ g', WorldOf Kind wip g' s' ∧ SameTasks g g' ∧ g'.own = own' ∧ g'.free = free' ∧ g'.blocks = g.blocks := by
  have heapForeign : Owner.heap ∉ wip := fun inWip => (world.foreign _ inWip).1 (by simp [common])
  have notC : Owner.heap ∉ C := fun inside => (cells _ inside).elim (by simp) heapForeign
  have notW : Owner.heap ∉ W := fun inside => (written _ inside).elim (by simp) heapForeign
  refine ⟨{ g with own := own', free := free' }, ?_, ⟨rfl, rfl, rfl, rfl, rfl⟩, rfl, rfl, rfl⟩
  refine world.carry ⟨pool', world.heap.heap.congr (fun b member x low high => ?_) ?_ ?_ ?_,
    world.heap.coalesced⟩ (fun q => ?_) world.home (fun x inside => ?_) ?_
  · have inHeap := (world.heap.heap.cover x).mpr ⟨b, member, low, by unfold Block.stop; omega⟩
    exact moves.moves.bytes x (inHeap ▸ notW) (world.heap.pool.not_head (by simp [inHeap]))
  · rw [moves.globals]
  · rw [moves.globals]
  · exact moves.moves.own_iff notC
  · rcases moves.moves.owner q with equal | ⟨before, after⟩
    · exact .inl equal
    · exact .inr ⟨(cells _ before).imp id .inr, (cells _ after).imp id fun inWip => .inr (.inr inWip)⟩
  · obtain ⟨notFree, notWip, plain⟩ := world.bytes_owner inside
    refine moves.moves.bytes x (fun inW => ?_) plain
    exact (written _ inW).elim notFree notWip
  · rw [moves.globals]

/-- An entry of the kernel's own tables is written. -/
theorem setKernelLeaf [Spaces Kind] (world : WorldOf Kind wip g s) {vpn pte : Nat} (reached : g.kdir.slot vpn ≠ 0)
    (entry : LeafEntry pte) (fits : pte < 2 ^ 64) :
    WorldOf Kind wip g { s with mem := s.mem.store (g.kdir.slot vpn) 8 pte } := by
  have st : TableState .kernel s.kernelPagetable g.own g.free g.kdir s := ⟨world.kernel, world.heap.pool⟩
  obtain ⟨st', moves, _⟩ := st.setLeaf pte reached entry fits
  refine world.carryTables ⟨st'.pool, world.heap.heap.congr (fun b member x low high => ?_) rfl rfl fun _ => Iff.rfl,
    world.heap.coalesced⟩ (fun _ => .inl rfl) world.home (fun x inside notTable => ?_) st'.tables
  · have inHeap := (world.heap.heap.cover x).mpr ⟨b, member, low, by unfold Block.stop; omega⟩
    exact moves.moves.bytes x (by simp [inHeap]) (world.heap.pool.not_head (by simp [inHeap]))
  · obtain ⟨notFree, _, plain⟩ := world.bytes_owner inside
    exact moves.moves.bytes x (by simp [notFree, notTable]) plain

end WorldOf

end KuroOS
