import KuroOS.Task.World

/-!
# Editing a world

A write to bytes that the world does not stand on, an allocation from the heap
and its return.
-/

namespace KuroOS

open Base

/-- Payload bytes are in no header. -/
theorem Heap.payload_not_header {own : Nat → Owner} {blocks : List Block} {s : Kernel} {x : Nat}
    (heap : Heap own blocks s) (inside : x ∈ payloads blocks) {b : Block} (member : b ∈ blocks) :
    ¬ (b.addr ≤ x ∧ x < b.addr + 48) := by
  obtain ⟨c, member', _, low, high⟩ := inside
  by_cases equal : b = c
  · subst equal
    omega
  · have := heap.apart_of_ne member member' equal
    unfold Block.Apart Block.stop at this
    unfold Block.stop at high
    omega

variable [Layout]

/-- The bytes that the page allocator and the heap keep their own data in. -/
def World.allocator (g : World) : Set Nat :=
  {x | g.own (pageOf x) = .free ∨ x ∈ node Layout.freePageList ∨
    ∃ b ∈ g.blocks, b.addr ≤ x ∧ x < b.addr + 48}

/-- The allocators survive whatever leaves their own data alone. -/
theorem HeapState.congr {g : World} {s s' : Kernel} (state : HeapState g.own g.free g.blocks s)
    (same : ∀ x ∈ g.allocator, s'.mem x = s.mem x) (count : s'.nrFreePages = s.nrFreePages)
    (head : s'.heapHead = s.heapHead) (tail : s'.heapTail = s.heapTail) :
    HeapState g.own g.free g.blocks s' where
  pool := state.pool.congr (fun x inside => same x (inside.imp id .inl)) count
  heap := state.heap.congr (fun b member x low high => same x (.inr (.inr ⟨b, member, low, high⟩)))
    head tail fun _ => Iff.rfl
  coalesced := state.coalesced

/-- A byte that neither the allocators nor a page of an address space uses:
payload of the heap, or a list head of the tasks. -/
theorem World.not_allocator {g : World} {s : Kernel} (state : HeapState g.own g.free g.blocks s) {x : Nat}
    (plain : x ∈ payloads g.blocks ∨ x ∈ node Layout.allTasks ∨ x ∈ node Layout.runQueue) :
    x ∉ g.allocator := by
  rcases plain with inside | isHead
  · have inHeap : g.own (pageOf x) = .heap := by
      obtain ⟨c, member, _, low, high⟩ := inside
      exact (state.heap.cover x).mpr ⟨c, member, by omega, high⟩
    rintro (isFree | isHead | ⟨b, member, header⟩)
    · simp [inHeap] at isFree
    · exact state.pool.not_head (by simp [inHeap]) isHead
    · exact state.heap.payload_not_header inside member header
  · have here : g.own (pageOf x) = .outside := by
      rcases isHead with isHead | isHead
      · exact WorldOf.head_outside state.pool (by simp) isHead
      · exact WorldOf.head_outside state.pool (by simp) isHead
    rintro (isFree | isFreeHead | ⟨b, member, header⟩)
    · simp [here] at isFree
    · exact WorldOf.head_apart isHead isFreeHead
    · have inHeap := (state.heap.cover x).mpr ⟨b, member, header.1, by unfold Block.stop; omega⟩
      simp [here] at inHeap

namespace WorldOf

variable {Kind : SpaceKind} {wip : Set Owner} {g : World} {s s' : Kernel} {v : TaskView}
  {halt : Halt → Kernel → Prop}

/-- A world survives a change of other memory and of other globals. -/
theorem congr [Spaces Kind] (world : WorldOf Kind wip g s) (same : ∀ x, x ∈ g.bytes ∨ x ∈ g.allocator → s'.mem x = s.mem x)
    (count : s'.nrFreePages = s.nrFreePages) (head : s'.heapHead = s.heapHead)
    (tail : s'.heapTail = s.heapTail) (root : s'.kernelPagetable = s.kernelPagetable) :
    WorldOf Kind wip g s' :=
  world.carry (world.heap.congr (fun x inside => same x (.inr inside)) count head tail)
    (fun _ => .inl rfl) world.home (fun x inside => same x (.inl inside)) root

/-- Bytes of a page that a task or an operation in progress may write. -/
theorem congr_pages [Spaces Kind] (world : WorldOf Kind wip g s) {mem' : Mem}
    (same : ∀ x, g.own (pageOf x) = .outside ∨ g.own (pageOf x) = .free ∨ g.own (pageOf x) = .heap ∨
      (∃ space, g.own (pageOf x) = .table space) → mem' x = s.mem x) :
    WorldOf Kind wip g { s with mem := mem' } := by
  refine world.congr (fun x inside => same x ?_) rfl rfl rfl rfl
  rcases inside with (⟨a, member, low, high⟩ | isHead | isHead | isKernel | ⟨v, member, isTask⟩) |
      isFree | isHead | ⟨b, member, low, high⟩
  · exact .inr (.inr (.inl ((world.home a member).payload world.heap.heap low high).2))
  · exact .inl (head_outside world.heap.pool (by simp) isHead)
  · exact .inl (head_outside world.heap.pool (by simp) isHead)
  · exact .inr (.inr (.inr ⟨_, isKernel⟩))
  · exact .inr (.inr (.inr ⟨_, isTask⟩))
  · exact .inr (.inl isFree)
  · exact .inl (head_outside world.heap.pool (by simp) isHead)
  · exact .inr (.inr (.inl ((world.heap.heap.cover x).mpr
      ⟨b, member, low, by unfold Block.stop; omega⟩)))

/-- A new block of the heap: in use, large enough, and no task's. -/
structure NewBlock (g g' : World) (size p : Nat) : Prop where
  home : ∃ b ∈ g'.blocks, b.free = false ∧ b.addr + 48 = p ∧ size ≤ b.size
  fresh : p ∉ g.structs
  apart : ∀ a ∈ g.structs, a + taskSize ≤ p ∨ p + size ≤ a

/-- `kmalloc` returns a new block, or 0 when there is no page to make one. -/
theorem kmalloc_spec [Spaces Kind] (world : WorldOf Kind wip g s) {n : Nat} (nonzero : n ≠ 0)
    (positive : 0 < alignUp n kmallocAlign) (small : alignUp n kmallocAlign ≤ 4048) :
    wp (kmalloc n) s (fun p s' => ∃ g', WorldOf Kind wip g' s' ∧ SameTasks g g' ∧
      KmallocMoves g.own g.blocks s g'.own s' ∧ g.free.length ≤ g'.free.length + 1 ∧
      ((p = 0 ∧ g.free = []) ∨ NewBlock g g' (alignUp n kmallocAlign) p)) halt := by
  refine wp_mono (KuroOS.kmalloc_spec world.heap) ?_ fun _ _ => id
  rintro p s' ⟨own', free', blocks', state', moves, count, outcome⟩
  have keeps : ∀ b ∈ usedBlocks g.blocks, b ∈ usedBlocks blocks' := by
    intro b member
    rcases outcome with ⟨_, same, _⟩ | ⟨c, _, _, _, perm⟩
    · rwa [same]
    · exact perm.mem_iff.mpr (List.mem_cons_of_mem _ member)
  have homes : ∀ a ∈ g.structs, Home blocks' a := by
    intro a member
    obtain ⟨b, inside, used, here, large⟩ := world.home a member
    exact ⟨b, (mem_usedBlocks.mp (keeps b (mem_usedBlocks.mpr ⟨inside, used⟩))).1, used, here, large⟩
  refine ⟨{ g with own := own', free := free', blocks := blocks' },
    world.carry state' (fun q => ?_) homes (fun x inside => ?_) ?_, ⟨rfl, rfl, rfl, rfl, rfl⟩, moves,
    count, ?_⟩
  · rcases moves.owner q with equal | ⟨before, after⟩
    · exact .inl equal
    · exact .inr ⟨.inl before, .inr (.inl after)⟩
  · have foreign := world.bytes_owner inside
    by_cases inHeap : g.own (pageOf x) = .heap
    · refine moves.bytes x (.inr ?_)
      rcases inside with ⟨a, member, low, high⟩ | isHead | isHead | isKernel | ⟨v, member, isTask⟩
      · exact ((world.home a member).payload world.heap.heap low high).1
      · simp [head_outside world.heap.pool (by simp) isHead] at inHeap
      · simp [head_outside world.heap.pool (by simp) isHead] at inHeap
      · simp [isKernel] at inHeap
      · simp [isTask] at inHeap
    · exact moves.bytes x (.inl ⟨inHeap, foreign.1, foreign.2.2⟩)
  · rw [moves.globals]
  · rcases outcome with ⟨zero, _, refused | empty⟩ | ⟨b, rfl, used, large, perm⟩
    · have : pageSize - blockSize = 4048 := rfl
      omega
    · exact .inl ⟨zero, empty⟩
    · have member := (mem_usedBlocks.mp (perm.mem_iff.mpr List.mem_cons_self)).1
      -- the new block is not one of the blocks that were in use
      have isNew : b ∉ usedBlocks g.blocks := by
        have distinct : (usedBlocks blocks').Nodup :=
          ((List.nodup_cons.mp state'.heap.cycle.nodup).2.of_map _).filter _
        exact (List.nodup_cons.mp (perm.nodup_iff.mp distinct)).1
      have apart : ∀ a ∈ g.structs, a + taskSize ≤ b.addr + 48 ∨
          b.addr + 48 + alignUp n kmallocAlign ≤ a := by
        intro a inStructs
        obtain ⟨c, inside, usedC, here, largeC⟩ := world.home a inStructs
        have inUse := keeps c (mem_usedBlocks.mpr ⟨inside, usedC⟩)
        have := state'.heap.apart_of_ne (mem_usedBlocks.mp inUse).1 member (by
          rintro rfl
          exact isNew (mem_usedBlocks.mpr ⟨inside, usedC⟩))
        unfold Block.Apart Block.stop at this
        simp only [taskSize] at *
        omega
      refine .inr ⟨⟨b, member, used, rfl, large⟩, fun old => ?_, apart⟩
      have := apart _ old
      simp only [taskSize] at this
      omega

/-- Writing into a new block. -/
theorem NewBlock.write [Spaces Kind] {g g' : World} {size p : Nat} (block : NewBlock g g' size p) (world : WorldOf Kind wip g' s)
    (same : SameTasks g g') {mem' : Mem} (outside : ∀ x, x < p ∨ p + size ≤ x → mem' x = s.mem x) :
    WorldOf Kind wip g' { s with mem := mem' } := by
  obtain ⟨b, member, used, here, large⟩ := block.home
  refine world.congr (fun x inside => outside x ?_) rfl rfl rfl rfl
  by_contra touch
  have payload : x ∈ payloads g'.blocks := ⟨b, member, used, by omega, by unfold Block.stop; omega⟩
  have inHeap : g'.own (pageOf x) = .heap :=
    (world.heap.heap.cover x).mpr ⟨b, member, by omega, by unfold Block.stop; omega⟩
  rcases inside with (⟨a, task, low, high⟩ | isHead | isHead | isKernel | ⟨v, _, isTask⟩) | inAllocator
  · have := block.apart a (same.structs ▸ task)
    omega
  · simp [head_outside world.heap.pool (by simp) isHead] at inHeap
  · simp [head_outside world.heap.pool (by simp) isHead] at inHeap
  · simp [isKernel] at inHeap
  · simp [isTask] at inHeap
  · exact World.not_allocator world.heap (.inl payload) inAllocator

/-- `kfree` of a block that is no task's. -/
theorem kfree_spec [Spaces Kind] (world : WorldOf Kind wip g s) {p : Nat} (home : Home g.blocks p) (fresh : p ∉ g.structs) :
    wp (kfree p) s (fun _ s' => ∃ g', WorldOf Kind wip g' s' ∧ SameTasks g g' ∧ g'.own = g.own ∧
      g'.free = g.free ∧ (∀ x, g.own (pageOf x) ≠ .heap → s'.mem x = s.mem x) ∧
      s' = { s with mem := s'.mem, heapHead := s'.heapHead, heapTail := s'.heapTail }) halt := by
  obtain ⟨b, member, used, rfl, _⟩ := home
  obtain ⟨xs, ys, split⟩ := List.append_of_mem member
  have state := world.heap
  rw [split] at state
  refine wp_mono (KuroOS.kfree_spec state.heap state.pool state.coalesced used) ?_ fun _ _ => id
  rintro _ s' ⟨blocks', heap', coalesced', same, moves⟩
  have others : ∀ a ∈ g.structs, Home (xs ++ ys) a := by
    intro a inStructs
    obtain ⟨c, inside, usedC, here, large⟩ := world.home a inStructs
    rw [split, List.mem_append, List.mem_cons] at inside
    refine ⟨c, ?_, usedC, here, large⟩
    rcases inside with inside | rfl | inside
    · exact List.mem_append_left _ inside
    · exact absurd (here ▸ inStructs) fresh
    · exact List.mem_append_right _ inside
  refine ⟨{ g with blocks := blocks' }, world.carry ⟨moves.pool state.pool, heap', coalesced'⟩
    (fun _ => .inl rfl) (fun a inStructs => ?_) (fun x inside => ?_) ?_, ⟨rfl, rfl, rfl, rfl, rfl⟩, rfl,
    rfl, fun x outside => moves.bytes x (.inl outside), moves.globals⟩
  · obtain ⟨c, inside, usedC, here, large⟩ := others a inStructs
    refine ⟨c, (mem_usedBlocks.mp ?_).1, usedC, here, large⟩
    rw [same]
    exact mem_usedBlocks.mpr ⟨inside, usedC⟩
  · by_cases inHeap : g.own (pageOf x) = .heap
    · refine moves.bytes x (.inr ?_)
      rcases inside with ⟨a, inStructs, low, high⟩ | isHead | isHead | isKernel | ⟨v, member, isTask⟩
      · obtain ⟨c, inside, usedC, here, large⟩ := others a inStructs
        refine ⟨c, inside, usedC, by omega, ?_⟩
        simp only [taskSize] at *
        unfold Block.stop
        omega
      · simp [head_outside world.heap.pool (by simp) isHead] at inHeap
      · simp [head_outside world.heap.pool (by simp) isHead] at inHeap
      · simp [isKernel] at inHeap
      · simp [isTask] at inHeap
    · exact moves.bytes x (.inl inHeap)
  · rw [moves.globals]

end WorldOf

end KuroOS
