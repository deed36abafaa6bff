import KuroOS.Memory.HeapRun
import KuroOS.Task.Ops

/-!
# What memory shows of the tasks

The results about runs speak of machine memory alone: of the nodes on the lists,
of the fields of the task structures, of the entries that the hardware's walk
ends at. Here each of these is read off a world.
-/

namespace KuroOS

open Base

/-- A page of the kernel heap: it is in one of the blocks from `heap_head` on. -/
def HeapPage (s : Kernel) (page : Nat) : Prop :=
  ∃ blocks, Follows (fun b => s.mem.load (b + 32) 8) 0 s.heapHead blocks ∧
    ∃ b ∈ blocks, b ≤ page ∧ page < b + blockSize + blockBytes s.mem b

/-- The table of a tree of tables at a depth below its root, for the page numbers
that begin with a key. -/
def tableAt (mem : Mem) (root : Nat) : (depth key : Nat) → Option Nat
  | 0, key => if key = 0 then some root else none
  | depth + 1, key =>
      match tableAt mem root depth (key / 512) with
      | none => none
      | some table =>
          let pte := mem.load (table + 8 * (key % 512)) 8
          if ptePresent pte && !pteLeaf pte then some (pteToPa pte) else none

/-- A page of the tables under a root. -/
def TablePage (mem : Mem) (root page : Nat) : Prop := ∃ depth < sv39Levels, ∃ key, tableAt mem root depth key = some page

/-- The entry that the walk for a page number ends at. -/
def entryAt (mem : Mem) (root vpn : Nat) : Nat := sv39EntryFrom mem (4096 * vpn) (sv39Levels - 1) root

/-- A page number is mapped to a page with `PTE_U`. -/
structure UserLeaf (mem : Mem) (root vpn page : Nat) : Prop where
  present : ptePresent (entryAt mem root vpn) = true
  leaf : pteLeaf (entryAt mem root vpn) = true
  user : entryAt mem root vpn &&& pteU ≠ 0
  page : pteToPa (entryAt mem root vpn) = page

/-- Every page of RAM is mapped to itself with R, W and X, and the UART page is
mapped to itself, all without `PTE_U`. -/
structure KernelMapped (mem : Mem) (root : Nat) : Prop where
  ram : ∀ va, va % pageSize = 0 → ramBase ≤ va → va < ramEnd →
    entryAt mem root (va / 4096) = mkPte va (pageKernel ||| pteV)
  uart : entryAt mem root (uartBase / 4096) = mkPte uartBase (pageDevice ||| pteV)

/-! ### The fields of a task -/

/-- `task->pagetable`. -/
def pagetableOf (s : Kernel) (task : Nat) : Nat := s.mem.load (task + Task.pagetable) 8

/-- `task->kernel_stack_base`. -/
def kernelStackOf (s : Kernel) (task : Nat) : Nat := s.mem.load (task + Task.kernelStackBase) 8

/-- `task->user_stack_base`. -/
def userStackOf (s : Kernel) (task : Nat) : Nat := s.mem.load (task + Task.userStackBase) 8

/-- `task->user_image_size`. -/
def imageSizeOf (s : Kernel) (task : Nat) : Nat := s.mem.load (task + Task.userImageSize) 8

/-- `task->state`. -/
def stateOf (s : Kernel) (task : Nat) : Nat := s.mem.load (task + Task.state) 4

/-- `task->pid`. -/
def pidOf (s : Kernel) (task : Nat) : Nat := s.mem.load (task + Task.pid) 8

/-- `task->tf`. -/
def tfOf (s : Kernel) (task : Nat) : Nat := s.mem.load (task + Task.tf) 8

/-- A task's saved frame stands where it stood, with the same bytes. -/
def SameFrame (task : Nat) (s s' : Kernel) : Prop :=
  tfOf s' task = tfOf s task ∧ ∀ i < trapFrameSize, s'.mem (tfOf s task + i) = s.mem (tfOf s task + i)

/-- `task->kernel_sp`. -/
def kernelSpOf (s : Kernel) (task : Nat) : Nat := s.mem.load (task + Task.kernelSp) 8

variable [Layout]

variable {own : Nat → Owner} {free : List Nat} {blocks : List Block} {s : Kernel} {space : Space} {root : Nat}
  {dir : Directory} {user : UserMap}

/-- The tasks on `all_tasks`, in order. -/
def AllTasks (s : Kernel) (tasks : List Nat) : Prop := Ring s.mem Layout.allTasks (tasks.map (· + Task.taskNode))

/-- The tasks on `run_queue`, in order. -/
def RunQueue (s : Kernel) (queue : List Nat) : Prop := Ring s.mem Layout.runQueue (queue.map (· + Task.runNode))

/-- The pages of the heap are the pages that it owns. -/
theorem HeapState.heapPage (state : HeapState own free blocks s) {page : Nat} (aligned : page % 4096 = 0) :
    HeapPage s page ↔ own page = .heap := by
  have heap := state.heap
  have nonzero : ∀ a ∈ blocks.map Block.addr, a ≠ 0 := fun a member zero =>
    (List.nodup_cons.mp heap.cycle.nodup).1 (zero ▸ member)
  have forward : Follows (fun b => s.mem.load (b + 32) 8) 0 s.heapHead (blocks.map Block.addr) := by
    refine heap.cycle.follows.congr fun a member => ?_
    rw [blockNext, if_neg (nonzero a member)]
  have inBlock : own page = .heap ↔ ∃ b ∈ blocks, b.addr ≤ page ∧ page < b.stop := by
    have := heap.cover page
    rwa [pageOf_aligned aligned] at this
  rw [inBlock]
  constructor
  · rintro ⟨addrs, follows, a, member, low, high⟩
    rw [follows.unique forward] at member
    obtain ⟨b, inside, rfl⟩ := List.mem_map.mp member
    have size : blockBytes s.mem b.addr = b.size := (heap.header b inside).size
    rw [size] at high
    exact ⟨b, inside, low, by unfold Block.stop; simp only [blockSize] at high; omega⟩
  · rintro ⟨b, inside, low, high⟩
    have size : blockBytes s.mem b.addr = b.size := (heap.header b inside).size
    refine ⟨_, forward, b.addr, List.mem_map_of_mem inside, low, ?_⟩
    rw [size]
    unfold Block.stop at high
    simp only [blockSize]
    omega

namespace SpaceTables

/-- The tables in memory are those of the directory. -/
theorem tableAt (tables : SpaceTables own s.mem space root dir) (pool : Pool own free s) {depth : Nat} (deep : depth ≤ 2)
    (key : Nat) : KuroOS.tableAt s.mem root depth key = dir (2 - depth) key := by
  induction depth generalizing key with
  | zero =>
      rw [KuroOS.tableAt, Nat.sub_zero]
      split
      · next isRoot => rw [isRoot, tables.tree.root_mem]
      · next other =>
          cases found : dir 2 key with
          | none => rfl
          | some p =>
              rcases tables.tree.shape 2 key p found with ⟨_, zero⟩ | ⟨low, _⟩
              · exact absurd zero other
              · omega
  | succ depth ih =>
      have level : 2 - depth = 2 - (depth + 1) + 1 := by omega
      rw [KuroOS.tableAt, ih (by omega), level]
      cases upper : dir (2 - (depth + 1) + 1) (key / 512) with
      | none =>
          cases found : dir (2 - (depth + 1)) key with
          | none => rfl
          | some p =>
              rcases tables.tree.shape _ key p found with ⟨high, _⟩ | ⟨_, parent⟩
              · omega
              · rw [upper] at parent
                simp at parent
      | some table =>
          dsimp only
          rw [tables.tree.inner _ key table (by omega) upper]
          cases found : dir (2 - (depth + 1)) key with
          | none => rfl
          | some q =>
              have bounds := (tables.page pool found).bounds
              obtain ⟨present, inner, here⟩ := innerEntry_some bounds.1 (by omega)
              rw [present, inner, here]
              rfl

/-- The table pages are the pages that the space owns. -/
theorem tablePage (tables : SpaceTables own s.mem space root dir) (pool : Pool own free s) {page : Nat} :
    TablePage s.mem root page ↔ own page = .table space := by
  rw [tables.owned]
  constructor
  · rintro ⟨depth, deep, key, found⟩
    rw [tables.tableAt pool (by simp only [sv39Levels] at deep; omega)] at found
    exact ⟨_, _, found⟩
  · rintro ⟨l, k, found⟩
    have low : l ≤ 2 := by
      rcases tables.tree.shape l k page found with ⟨rfl, _⟩ | ⟨low, _⟩ <;> omega
    refine ⟨2 - l, by simp only [sv39Levels]; omega, k, ?_⟩
    rw [tables.tableAt pool (by omega), show 2 - (2 - l) = l by omega]
    exact found

/-- The entry of a page number. -/
theorem entryAt (tables : SpaceTables own s.mem space root dir) (pool : Pool own free s) {vpn : Nat} (below : vpn < 2 ^ 27) :
    KuroOS.entryAt s.mem root vpn = dir.leafAt s.mem vpn := by
  have entry := tables.sv39Entry pool (4096 * vpn)
  have isVpn : sv39Vpn (4096 * vpn) = vpn := by
    unfold sv39Vpn
    omega
  rwa [isVpn] at entry

end SpaceTables

/-- The kernel's own mappings, in a space whose entries are known. -/
theorem kernelMapped (tables : SpaceTables own s.mem space root dir) (pool : Pool own free s)
    (leaves : ∀ n, dir.leafAt s.mem n = spaceEntry user n) (plain : ∀ n, KernelVpn n → user n = none) :
    KernelMapped s.mem root := by
  have entry : ∀ n, n < 2 ^ 27 → KernelVpn n → entryAt s.mem root n = kernelEntry n := fun n below inside => by
    rw [tables.entryAt pool below, leaves, spaceEntry, plain n inside]
  refine ⟨fun va aligned low high => ?_, ?_⟩
  · have vpn : 0x80000 ≤ va / 4096 ∧ va / 4096 < 0x88000 := by
      simp only [ramBase, ramEnd] at low high
      omega
    rw [entry (va / 4096) (by omega) (.inl vpn), kernelEntry, if_pos vpn]
    congr 1
    simp only [pageSize] at aligned
    omega
  · have vpn : uartBase / 4096 = 0x10000 := by decide
    rw [vpn, entry 0x10000 (by decide) (.inr rfl)]
    rfl

/-- The user leaves of a space are its user pages. -/
theorem userLeaf (tables : SpaceTables own s.mem space root dir) (pool : Pool own free s)
    (leaves : ∀ n, dir.leafAt s.mem n = spaceEntry user n) (valid : ∀ n p, user n = some p → PoolPage p)
    {vpn page : Nat} (below : vpn < 2 ^ 27) : UserLeaf s.mem root vpn page ↔ user vpn = some page := by
  have entry : entryAt s.mem root vpn = spaceEntry user vpn := (tables.entryAt pool below).trans (leaves vpn)
  cases found : user vpn with
  | none =>
      refine iff_of_false (fun leaf => ?_) (by simp)
      have isUser := leaf.user
      rw [entry, spaceEntry, found] at isUser
      exact isUser (kernelEntry_user vpn)
  | some p =>
      have bounds := (valid vpn p found).bounds
      have isEntry : entryAt s.mem root vpn = mkPte p userFlags := by
        rw [entry]
        simp [spaceEntry, found]
      have here : pteToPa (mkPte p userFlags) = p := by
        rw [mkPte_pa (by decide) bounds.1]
        omega
      have isUser : mkPte p userFlags &&& pteU ≠ 0 := by
        rw [mkPte_and (by decide) (by decide)]
        decide
      constructor
      · intro leaf
        rw [← leaf.page, isEntry, here]
      · rintro equal
        obtain rfl : p = page := by simpa using equal
        refine ⟨?_, ?_, ?_, ?_⟩
        · rw [isEntry]
          exact mkPte_present (by decide) (by decide)
        · rw [isEntry, mkPte_leaf (by decide)]
          decide
        · rw [isEntry]
          exact isUser
        · rw [isEntry, here]

end KuroOS
