import KuroOS.Task.Image

/-!
# New tasks

`task_alloc`, the fields that `task_create_user` and `task_fork` set, and
what an attempt that fails leaves behind: the world as it was, except that the
heap may have grown by a page.
-/

namespace KuroOS

open Base

variable [Layout]

/-- What a failed attempt to make a task leaves behind. -/
structure Aborted (g : World) (s : Kernel) (g' : World) (s' : Kernel) : Prop where
  same : SameTasks g g'
  owner : ∀ q, g'.own q = g.own q ∨ (g.own q = .free ∧ g'.own q = .heap)
  effect : Effect {.free, .heap} g.own s g'.own s'
  count : g.free.length ≤ g'.free.length + 1
  globals : s' = { s with
    mem := s'.mem, nrFreePages := s'.nrFreePages, heapHead := s'.heapHead, heapTail := s'.heapTail }

/-- What making a task leaves behind. Beside its own pages and structure, the
bytes in `X` may have changed. -/
structure Born (X : Set Nat) (g : World) (s : Kernel) (v : TaskView) (g' : World) (s' : Kernel) : Prop where
  tasks : g'.tasks = g.tasks ++ [v]
  queue : g'.queue = g.queue ++ [v.addr]
  fresh : v.addr ∉ g.structs
  dir : ∀ a ≠ v.addr, g'.dir a = g.dir a
  user : ∀ a ≠ v.addr, g'.user a = g.user a
  kdir : g'.kdir = g.kdir
  unused : ∀ q, g.own q ∉ labels v.addr
  effect : Moves pageOf (listHeads ∪ X) ({.free, .heap} ∪ labels v.addr) ({.free, .heap} ∪ labels v.addr)
    g.own s.mem g'.own s'.mem
  globals : s' = { s with
    mem := s'.mem, nrFreePages := s'.nrFreePages, heapHead := s'.heapHead, heapTail := s'.heapTail,
    nextPid := wadd s.nextPid 1, nrRunnableTasks := wadd s.nrRunnableTasks 1 }

/-- Two owners' accounts of the free pages have the same length. -/
theorem Pool.length_eq {own : Nat → Owner} {free free' : List Nat} {s s' : Kernel} (pool : Pool own free s)
    (pool' : Pool own free' s') : free'.length = free.length :=
  ((List.perm_ext_iff_of_nodup pool'.nodup pool.nodup).mpr fun p =>
    (pool'.mem_iff p).trans (pool.mem_iff p).symm).length_eq

/-- Owners that no page has play no part in an effect. -/
theorem Effect.drop {C L : Set Owner} {own own' : Nat → Owner} {s s' : Kernel}
    (effect : Effect (C ∪ L) own s own' s') (before : ∀ q, own q ∉ L) (after : ∀ q, own' q ∉ L) :
    Effect C own s own' s' where
  owner q := (effect.owner q).imp id fun both =>
    ⟨both.1.resolve_right (before q), both.2.resolve_right (after q)⟩
  closed q outside inside := effect.closed q (fun was => outside (was.resolve_right (before q))) (.inl inside)
  bytes x outside plain := effect.bytes x (fun was => outside (was.resolve_right (before _))) plain

namespace Aborted

variable {g g' : World} {s s' : Kernel}

/-- Writes to heap pages come on top. -/
theorem write (aborted : Aborted g s g' s') (mem' : Mem)
    (same : ∀ x, g'.own (pageOf x) ≠ .heap → mem' x = s'.mem x) : Aborted g s g' { s' with mem := mem' } where
  same := aborted.same
  owner := aborted.owner
  effect := aborted.effect.trans (.of_bytes fun x outside _ => same x fun here => outside (by simp [here]))
  count := aborted.count
  globals := congrArg (fun k : Kernel => { k with mem := mem' }) aborted.globals

/-- A failed attempt after another. -/
theorem trans {g'' : World} {s'' : Kernel} (first : Aborted g s g' s') (second : Aborted g' s' g'' s'')
    (kept : g'.free.length ≤ g''.free.length) : Aborted g s g'' s'' where
  same := first.same.trans second.same
  owner q := by
    rcases second.owner q with same | ⟨was, now⟩
    · rw [same]
      exact first.owner q
    · rcases first.owner q with same | ⟨_, heap⟩
      · exact .inr ⟨same ▸ was, now⟩
      · simp [heap] at was
  effect := first.effect.trans second.effect
  count := first.count.trans (by omega)
  globals := by
    have := first.globals
    rw [second.globals]
    generalize s''.mem = m, s''.nrFreePages = n, s''.heapHead = h, s''.heapTail = l
    rw [this]

end Aborted

/-- A task structure that `task_alloc` has cleared. -/
def TaskView.blank (t : Nat) : TaskView := ⟨t, 0, .unused, 0, 0, 0, 0, 0, 0, 0, 0, 0, 0⟩

namespace WorldOf

variable {Kind : SpaceKind} {wip : Set Owner} {g : World} {s : Kernel} {t : Nat}
  {halt : Halt → Kernel → Prop}

/-- No page has a label of an address that is no task's. -/
theorem unlabelled (world : WorldOf Kind ∅ g s) (fresh : t ∉ g.structs) (q : Nat) : g.own q ∉ labels t := by
  intro inside
  rcases world.owners q with isCommon | ⟨v, member, labelled⟩ | inWip
  · simp only [labels, common, Set.mem_insert_iff, Set.mem_singleton_iff] at inside isCommon
    rcases inside with here | here | here | here <;> rw [here] at isCommon <;> simp at isCommon
  · refine labels_disjoint (fun equal => fresh ?_) inside labelled
    exact equal ▸ List.mem_append_left _ (List.mem_map_of_mem member)
  · exact inWip

/-- A new task's pages are in progress. -/
theorem start (world : WorldOf Kind ∅ g s) (fresh : t ∉ g.structs) : WorldOf Kind (∅ ∪ labels t) g s := by
  refine { world with owners := fun q => (world.owners q).imp id fun later => later.imp id False.elim,
                      foreign := fun o inside => ?_ }
  have inside := inside.resolve_left False.elim
  refine ⟨fun isCommon => ?_, fun v member => labels_disjoint (fun equal => fresh ?_) inside⟩
  · simp only [labels, common, Set.mem_insert_iff, Set.mem_singleton_iff] at inside isCommon
    rcases inside with rfl | rfl | rfl | rfl <;> simp at isCommon
  · exact equal ▸ List.mem_append_left _ (List.mem_map_of_mem member)

/-- Writes to a task structure that is on neither list. -/
theorem write_struct [Spaces Kind] (world : WorldOf Kind wip g s) (home : Home g.blocks t) (fresh : t ∉ g.structs) {mem' : Mem}
    (same : ∀ x, x < t ∨ t + taskSize ≤ x → mem' x = s.mem x) : WorldOf Kind wip g { s with mem := mem' } := by
  have outside : ∀ x, x ∈ g.bytes ∨ x ∈ g.allocator → ¬ (t ≤ x ∧ x < t + taskSize) := by
    intro x inside touch
    obtain ⟨payload, inHeap⟩ := home.payload world.heap.heap touch.1 touch.2
    rcases inside with (⟨a, member, low, high⟩ | isHead | isHead | isKernel | ⟨v, _, isTask⟩) | inAllocator
    · have := home.apart world.heap.heap (world.home a member) fun equal => fresh (equal ▸ member)
      omega
    · simp [head_outside world.heap.pool (by simp) isHead] at inHeap
    · simp [head_outside world.heap.pool (by simp) isHead] at inHeap
    · simp [isKernel] at inHeap
    · simp [isTask] at inHeap
    · exact World.not_allocator world.heap (.inl payload) inAllocator
  exact world.congr (fun x inside => same x (by
    have := outside x inside
    omega)) rfl rfl rfl rfl

/-- Bytes outside heap pages are outside task structures. -/
theorem struct_heap (world : WorldOf Kind wip g s) (home : Home g.blocks t) {x : Nat}
    (notHeap : g.own (pageOf x) ≠ .heap) : x < t ∨ t + taskSize ≤ x := by
  by_contra inside
  exact notHeap (home.payload world.heap.heap (by omega) (by omega)).2

/-- The end of a failed attempt: everything taken is back, and the structure is
freed. -/
theorem abort [Spaces Kind] (world : WorldOf Kind ∅ g s) (home : Home g.blocks t) (fresh : t ∉ g.structs)
    {own' : Nat → Owner} {free' : List Nat} {s' : Kernel} (pool' : Pool own' free' s')
    (moves : BuildMoves t g.own s own' s') (clear : ∀ q, own' q ∉ labels t) :
    wp (kfree t) s' (fun _ s'' => ∃ g', WorldOf Kind ∅ g' s'' ∧ Aborted g s g' s'' ∧
      g'.free.length = g.free.length) halt := by
  have unused := world.unlabelled fresh
  obtain rfl := moves.restored unused clear
  have cells : ∀ o ∈ building t, o = .free ∨ o ∈ ∅ ∪ labels t := fun o inside => inside.imp id .inr
  obtain ⟨g₁, world₁, same₁, owners₁, free₁, blocks₁⟩ := (world.start fresh).pageMoves moves pool' cells cells
  obtain ⟨g₂, world₂, same₂, owners₂, free₂, blocks₂⟩ := world₁.settle g.own
    (fun q => .inl (by rw [owners₁])) clear
  have same := same₁.trans same₂
  refine wp_mono (world₂.kfree_spec (p := t) (by rwa [blocks₂, blocks₁]) (by rwa [same.structs])) ?_
    fun _ _ => id
  rintro _ s'' ⟨g₃, world₃, same₃, owners₃, free₃, bytes, globals⟩
  rw [owners₂] at owners₃ bytes
  have length : g₃.free.length = g.free.length := by
    rw [free₃, free₂, free₁, world.heap.pool.length_eq pool']
  refine ⟨g₃, world₃, ⟨same.trans same₃, fun q => .inl (by rw [owners₃]), ?_, by omega, ?_⟩, length⟩
  · have first : Effect ({.free, .heap} ∪ labels t) g.own s g.own s' := moves.effect
      (fun o inside => inside.imp (by rintro rfl; simp) id) fun o inside => inside.imp (by rintro rfl; simp) id
    rw [owners₃]
    refine (first.drop unused unused).trans (.of_bytes fun x outside _ => bytes x fun inHeap => ?_)
    exact outside (by simp [inHeap])
  · have := moves.globals
    rw [globals]
    generalize s''.mem = m, s''.heapHead = h, s''.heapTail = l
    rw [this]

/-- `task_alloc`. -/
theorem taskAlloc_spec [Spaces Kind] (world : WorldOf Kind ∅ g s) :
    wp taskAlloc s (fun t s' => ∃ g', WorldOf Kind ∅ g' s' ∧ Aborted g s g' s' ∧
      ((t = 0 ∧ g.free = []) ∨ (t ≠ 0 ∧ Home g'.blocks t ∧ t ∉ g'.structs))) halt := by
  have size : alignUp taskSize kmallocAlign = 128 := by decide
  unfold taskAlloc
  refine wp_bind_of (world.kmalloc_spec (n := taskSize) (by decide) (by rw [size]; decide) (by rw [size]; decide)) ?_
  rintro t s₁ ⟨g₁, world₁, same₁, moves₁, count₁, outcome⟩
  have aborted : Aborted g s g₁ s₁ := by
    refine ⟨same₁, moves₁.owner, ⟨fun q => (moves₁.owner q).imp id fun both => ?_, fun q outside => ?_,
      fun x outside plain => moves₁.bytes x (.inl ⟨fun here => outside (by simp [here]), fun here =>
        outside (by simp [here]), fun isHead => plain (.inl (.inl isHead))⟩)⟩, count₁, moves₁.globals⟩
    · simp [both]
    · rcases moves₁.owner q with same | ⟨was, _⟩
      · rwa [same]
      · simp [was] at outside
  rcases outcome with ⟨rfl, empty⟩ | ⟨home, fresh, _⟩
  · rw [if_pos rfl, wp_pure]
    exact ⟨g₁, world₁, aborted, .inl ⟨rfl, empty⟩⟩
  · rw [size] at home
    have home : Home g₁.blocks t := home
    have fresh : t ∉ g₁.structs := by rwa [same₁.structs]
    have bounds := home.bounds world₁.heap
    have nonzero : t ≠ 0 := by omega
    rw [if_neg nonzero]
    simp only [wp_bind, wp_storeWord, wp_storeState, wp_modifyMem, wp_pure]
    obtain ⟨mem', here⟩ : ∃ mem', mem' = initListHead (initListHead
        (storeFields s₁.mem t (TaskView.blank t).fields) (t + Task.taskNode)) (t + Task.runNode) := ⟨_, rfl⟩
    have same : ∀ x, x < t ∨ t + taskSize ≤ x → mem' x = s₁.mem x := by
      intro x outside
      simp only [taskSize] at outside
      rw [here, initListHead_sameOff x (by simp only [mem_node, Task.runNode]; omega),
        initListHead_sameOff x (by simp only [mem_node, Task.taskNode]; omega)]
      exact storeFields_of_outside 96 (by simp [TaskView.fields]) (by omega)
    have written := world₁.write_struct home fresh same
    refine ⟨g₁, ?_, ?_, .inr ⟨nonzero, home, fresh⟩⟩
    · rw [here] at written
      exact written
    · have changed := aborted.write mem' fun x notHeap => same x (world₁.struct_heap home notHeap)
      rw [here] at changed
      exact changed

/-- A task whose pages and fields are in place is put on both lists. -/
theorem birth [Spaces Kind] (world : WorldOf Kind ∅ g s) {v : TaskView} (home : Home g.blocks v.addr) (fresh : v.addr ∉ g.structs)
    (alive : v.state ≠ .zombie)
    {own' : Nat → Owner} {free' : List Nat} {s' : Kernel} (pool' : Pool own' free' s')
    (moves : BuildMoves v.addr g.own s own' s') (X : Set Nat) {mem' : Mem}
    (written : ∀ x, x ∉ X → (x < v.addr ∨ v.addr + taskSize ≤ x) → own' (pageOf x) ≠ .kstack v.addr →
      own' (pageOf x) ≠ .ustack v.addr → mem' x = s'.mem x)
    (inStacks : ∀ x ∈ X, ∃ k, own' (pageOf x) = .kstack k) {dir : Directory} {user : UserMap}
    (view : TaskAt mem' v) (space : Kind own' mem' dir user v) :
    wp (taskEnqueue v.addr) { s' with nextPid := wadd s.nextPid 1, mem := mem' } (fun _ s'' =>
      ∃ g', WorldOf Kind ∅ g' s'' ∧ Born X g s v g' s'' ∧ g'.own = own' ∧ g'.dir v.addr = dir ∧
        g'.user v.addr = user ∧ ∀ x, own' (pageOf x) ≠ .heap → x ∉ listHeads → s''.mem x = mem' x) halt := by
  have unused := world.unlabelled fresh
  have cells : ∀ o ∈ building v.addr, o = .free ∨ o ∈ ∅ ∪ labels v.addr := fun o inside => inside.imp id .inr
  obtain ⟨g₁, world₁, same₁, owners₁, free₁, blocks₁⟩ := (world.start fresh).pageMoves moves pool' cells cells
  have home₁ : Home g₁.blocks v.addr := by rwa [blocks₁]
  have fresh₁ : v.addr ∉ g₁.structs := by rwa [same₁.structs]
  -- first the bytes of the structure change, then those of stacks
  obtain ⟨mid, midSame, midStruct⟩ : ∃ mid : Mem, (∀ x, x < v.addr ∨ v.addr + taskSize ≤ x → mid x = s'.mem x) ∧
      ∀ x, ¬ (x < v.addr ∨ v.addr + taskSize ≤ x) → mid x = mem' x :=
    ⟨fun x => if x < v.addr ∨ v.addr + taskSize ≤ x then s'.mem x else mem' x, fun x outside => if_pos outside,
      fun x inside => if_neg inside⟩
  have world₂ : WorldOf Kind (∅ ∪ labels v.addr) g₁ { s' with mem := mem' } :=
      (world₁.write_struct home₁ fresh₁ midSame).congr_pages fun x kind => by
    by_cases outside : x < v.addr ∨ v.addr + taskSize ≤ x
    · have notStack : ∀ k, own' (pageOf x) ≠ .kstack k ∧ own' (pageOf x) ≠ .ustack k := by
        intro k
        rw [owners₁] at kind
        rcases kind with here | here | here | ⟨_, here⟩ <;> simp [here]
      refine (written x (fun inX => ?_) outside (notStack _).1 (notStack _).2).trans (midSame x outside).symm
      obtain ⟨k, here⟩ := inStacks x inX
      exact (notStack k).1 here
    · exact (midStruct x outside).symm
  have world₃ : WorldOf Kind (∅ ∪ labels v.addr) g₁ { s' with nextPid := wadd s.nextPid 1, mem := mem' } :=
    world₂.congr (fun _ _ => rfl) rfl rfl rfl rfl
  have frame₄ := world₃.addTask_frame home₁
  have world₄ := world₃.addTask home₁ fresh₁ alive view (owners₁ ▸ space)
  have homeAdded : Home (g₁.addTask v dir user).blocks v.addr := home₁
  have notQueued : v.addr ∉ (g₁.addTask v dir user).queue := fun queued =>
    fresh₁ (List.mem_append_right _ queued)
  have frame₅ := world₄.addRun_frame homeAdded
  have world₅ := world₄.addRun homeAdded notQueued
  rw [show (∅ ∪ labels v.addr) \ labels v.addr = ∅ by simp] at world₅
  obtain ⟨g₂, is⟩ : ∃ g₂ : World, g₂ = { g₁.addTask v dir user with queue := g₁.queue ++ [v.addr] } := ⟨_, rfl⟩
  obtain ⟨mem₂, isMem⟩ : ∃ mem₂, mem₂ = listAddTail (listAddTail mem' v.taskNode Layout.allTasks)
    (runNode v.addr) Layout.runQueue := ⟨_, rfl⟩
  have world₆ : WorldOf Kind ∅ g₂ { s' with
      nextPid := wadd s.nextPid 1, mem := mem₂, nrRunnableTasks := wadd s'.nrRunnableTasks 1 } := by
    rw [is, isMem]
    exact world₅.congr (fun _ _ => rfl) rfl rfl rfl rfl
  have own₂ : g₂.own = own' := by rw [is, ← owners₁]; rfl
  have links : ∀ x, own' (pageOf x) ≠ .heap → x ∉ listHeads → mem₂ x = mem' x := fun x notHeap plain => by
    rw [isMem]
    exact (frame₅.foreign x (owners₁.symm ▸ notHeap) fun inside => plain (.inl (.inr inside))).trans
      (frame₄.foreign x (owners₁.symm ▸ notHeap) fun inside => plain (.inr inside))
  unfold taskEnqueue
  simp only [wp_bind, wp_modifyMem, wp_modify]
  rw [show listAddTail (listAddTail mem' (v.addr + Task.taskNode) Layout.allTasks) (v.addr + Task.runNode)
    Layout.runQueue = mem₂ from isMem.symm]
  refine ⟨g₂, world₆, ⟨?_, ?_, fresh, fun a other => ?_, fun a other => ?_, ?_, unused, ?_, ?_⟩, own₂, ?_,
    ?_, links⟩
  · rw [is, ← same₁.tasks]
    rfl
  · rw [is, ← same₁.queue]
  · rw [is, ← same₁.dir]
    exact Function.update_of_ne other _ _
  · rw [is, ← same₁.user]
    exact Function.update_of_ne other _ _
  · rw [is, ← same₁.kdir]
    rfl
  · have subset : building v.addr ⊆ {.free, .heap} ∪ labels v.addr := fun o inside =>
      inside.imp (by rintro rfl; simp) id
    have first : Moves pageOf (listHeads ∪ X) ({.free, .heap} ∪ labels v.addr) ({.free, .heap} ∪ labels v.addr)
        g.own s.mem own' s'.mem := (PageMoves.effect moves subset subset).extend Set.subset_union_left
    rw [own₂]
    refine first.trans (.of_bytes fun x outside plain => ?_)
    simp only [Set.mem_union, not_or] at outside plain
    refine (links x (fun here => outside.1 (by simp [here])) plain.1).trans ?_
    refine written x plain.2 ?_ (fun here => outside.2 (by simp [here, labels])) fun here =>
      outside.2 (by simp [here, labels])
    exact world₁.struct_heap home₁ fun here => outside.1 (by simp [← owners₁, here])
  · have := moves.globals
    generalize s'.mem = m, s'.nrFreePages = n at *
    rw [this]
  · rw [is]
    exact Function.update_self _ _ _
  · rw [is]
    exact Function.update_self _ _ _

end WorldOf

end KuroOS
