import KuroOS.Task.ElfLoad
import KuroOS.Task.Run

/-!
# Where a program's bytes are

`elf_load` of a well-formed file on a table fresh from `vm_map_kernel`: when it
returns an entry, every byte of every segment is where its header says.
-/

namespace KuroOS

open Base

section

variable [Layout]

variable {g : World} {s s' : Kernel} {root elfData size : Nat} {file : Mem}

/-- A file in RAM, outside the page pool, as the embedded archive's are. -/
structure InImage (s : Kernel) (file : Mem) (elfData size : Nat) : Prop where
  ram : ∀ i < size, ramBase ≤ elfData + i ∧ elfData + i < ramEnd
  bytes : ∀ i < size, s.mem (elfData + i) = file i
  outside : ∀ i < size, ¬ PoolPage (pageOf (elfData + i)) ∧ elfData + i ∉ node Layout.freePageList

/-- `sys_exec` up to `elf_load`: `pgtable_create` and `vm_map_kernel` have made a
table. -/
structure FreshTable (s : Kernel) (root : Nat) (s' : Kernel) : Prop where
  made : ∃ s₁, pgtableCreate s = .ok root s₁ ∧ vmMapKernel root s₁ = .ok 0 s'
  nonzero : root ≠ 0

/-- `sys_exec` up to `elf_load`, as the world has it. -/
structure Fresh (g : World) (s : Kernel) (root : Nat) (own : Nat → Owner) (free : List Nat) (dir : Directory) (s' : Kernel) :
    Prop where
  loading : Loading root own free dir (fun _ => none) s'
  loads : Loads g.own s own s'
  used : g.free.length = free.length + 68

namespace ValidOf

/-- What `pgtable_create` leaves. -/
theorem single (valid : Valid g s) {s₁ : Kernel} (created : pgtableCreate s = .ok root s₁) (nonzero : root ≠ 0) :
    ∃ own free, TableState .pending root own free (.single root) s₁ ∧ Loads g.own s own s₁ ∧ g.free.length = free.length + 1 := by
  have unused := valid.world.not_pending
  have creates : wp pgtableCreate s _ fun _ _ => True := pgtableCreate_spec valid.world.heap.pool (o := .table .pending) (by simp)
  obtain ⟨_, zero, _⟩ | ⟨free₁, shape, _, _, pool₁, moves₁, clear⟩ := wp_returned creates created
  · exact absurd zero nonzero
  have isTable : ∀ q, Function.update g.own root (.table .pending) q = .table .pending ↔ q = root := fun q => by
    by_cases equal : q = root
    · simp [equal]
    · rw [Function.update_of_ne equal]
      exact iff_of_false (fun here => unused q (by simp [here, pending])) equal
  refine ⟨_, free₁, ⟨.single isTable fun i low => Mem.load_zero fun x first last => clear x (by omega) (by omega), pool₁⟩,
    .of_pageMoves moves₁ (by rintro o (rfl | rfl) <;> simp [loading]) (by rintro o rfl; simp [loading]), ?_⟩
  rw [shape, List.length_cons]

/-- What `pgtable_create` and `vm_map_kernel` leave. -/
theorem fresh (valid : Valid g s) (fresh : FreshTable s root s') : ∃ own free dir, Fresh g s root own free dir s' := by
  obtain ⟨⟨s₁, created, mapped⟩, nonzero⟩ := fresh
  obtain ⟨own₁, free₁, st, loads₁, used₁⟩ := valid.single created nonzero
  have maps : wp (vmMapKernel root) s₁ _ fun _ _ => True := vmMapKernel_spec st
  obtain ⟨own₂, free₂, dir₂, _, moves₂, ⟨_, space, _, used⟩ | ⟨refused, _⟩⟩ := wp_returned maps mapped
  · exact ⟨own₂, free₂, dir₂, ⟨space, by simp, by simp, by simp⟩, loads₁.trans
      (.of_pageMoves moves₂ (by rintro o (rfl | rfl) <;> simp [loading]) (by rintro o (rfl | rfl) <;> simp [loading])), by omega⟩
  · exact absurd rfl refused

/-- With 68 free pages there is such a table. -/
theorem fresh_exists (valid : Valid g s) (room : 68 ≤ g.free.length) : ∃ root s', FreshTable s root s' := by
  obtain ⟨root, s₁, created, outcome⟩ := wp_total (pgtableCreate_spec valid.world.heap.pool (o := .table .pending) (by simp))
  rcases outcome with ⟨empty, _⟩ | ⟨_, _, page, _⟩
  · simp [empty] at room
  have nonzero : root ≠ 0 := by
    have := page.bounds
    omega
  obtain ⟨own₁, free₁, st, _, used₁⟩ := valid.single created nonzero
  obtain ⟨r, s₂, mapped, _, _, _, _, _, outcome⟩ := wp_total (vmMapKernel_spec st)
  rcases outcome with ⟨rfl, _⟩ | ⟨_, short⟩
  · exact ⟨root, s₂, ⟨s₁, created, mapped⟩, nonzero⟩
  · omega

/-- A file in the image, while a task runs. -/
theorem fileAt (valid : Valid g s) (busy : s.current ≠ 0) (image : InImage s file elfData size) :
    FileAt g.own elfData size file s := by
  obtain ⟨p, member, current, _⟩ := valid.running busy
  have space := valid.world.space p member
  refine ⟨⟨.task p.addr, g.dir p.addr, g.user p.addr, by simp, ?_, space.leaves, space.plain⟩, image.ram, image.bytes, fun i low => ?_⟩
  · rw [valid.root p member current]
    exact space.tables
  · obtain ⟨outside, noHead⟩ := image.outside i low
    exact ⟨not_not.mp fun owned => outside (valid.world.heap.pool.pages _ owned), noHead⟩

/-- `elf_load` on a table fresh from `vm_map_kernel`. -/
theorem elfLoad_fresh (valid : Valid g s) (busy : s.current ≠ 0) (elf : ElfFile file size) (image : InImage s file elfData size)
    {s₂ : Kernel} (fresh : FreshTable s root s₂) {halt : Halt → Kernel → Prop} :
    wp (elfLoad root elfData) s₂ (fun entry s' => ∃ own' free' dir' user', Loading root own' free' dir' user' s' ∧
      (∀ n, user' n ≠ none → n ∈ elfVpns file 0) ∧
      ((entry = elfEntry file ∧ Fits (fun _ => none) file 0 ∧ ∀ k < elfPhnum file, ∀ n ∈ (elfSegment file k).vpns,
        Placed (elfSegment file k) file user' s'.mem n) ∨
      entry = 0 ∧ (¬ Fits (fun _ => none) file 0 ∨ g.free.length < 68 + 3 * elfPages file 0))) halt := by
  obtain ⟨own, free, dir, l, loads, used⟩ := valid.fresh fresh
  refine wp_mono (elfLoad_of l ((valid.fileAt busy image).loads valid.world.heap.pool loads) elf) ?_ fun _ _ => id
  rintro entry s' ⟨own', free', dir', user', l', step, outcome⟩
  refine ⟨own', free', dir', user', l', fun n some => (step.reach n some).resolve_left (by simp), ?_⟩
  rcases outcome with ⟨isEntry, fits, placed, _⟩ | ⟨zero, why⟩
  · exact .inl ⟨isEntry, fits, placed⟩
  · exact .inr ⟨zero, why.imp id fun short => by omega⟩

end ValidOf

/-- Each address of a segment is mapped for the user to the file's byte or to 0. -/
def SegmentsPresent (file : Mem) (mem : Mem) (root : Nat) : Prop :=
  ∀ k < elfPhnum file, (elfSegment file k).type = ptLoad → ∀ va, (elfSegment file k).vaddr ≤ va →
    va < (elfSegment file k).vaddr + (elfSegment file k).memsz → ∃ page, UserLeaf mem root (va / 4096) page ∧
      mem (page + va % 4096) = if va < (elfSegment file k).vaddr + (elfSegment file k).filesz then
        file ((elfSegment file k).offset + (va - (elfSegment file k).vaddr)) else 0

/-- A file's bytes are where its headers say, and the rest of each mapped page is 0. -/
structure ElfPlaced (file : Mem) (mem : Mem) (root : Nat) : Prop where
  segments : SegmentsPresent file mem root
  rest : ∀ n < 2 ^ 27, ∀ page, UserLeaf mem root n page → ∃ k < elfPhnum file, (elfSegment file k).type = ptLoad ∧
    ∀ i < 4096, mem (page + i) =
      if (elfSegment file k).vaddr ≤ 4096 * n + i ∧ 4096 * n + i < (elfSegment file k).vaddr + (elfSegment file k).filesz then
        file ((elfSegment file k).offset + (4096 * n + i - (elfSegment file k).vaddr)) else 0

section

variable {own : Nat → Owner} {free : List Nat} {dir : Directory} {user : UserMap}

/-- The user leaves of the new space. -/
theorem Loading.userLeaf (l : Loading root own free dir user s) {n page : Nat} (below : n < 2 ^ 27) :
    UserLeaf s.mem root n page ↔ user n = some page :=
  have pool := l.space.table.pool
  KuroOS.userLeaf l.space.table.tables pool l.space.leaves (fun n p found => pool.pages p (by simp [l.mapped n p found])) below

/-- Pages that hold their segments hold every byte of them. -/
theorem Loading.segmentsPresent (l : Loading root own free dir user s) (elf : ElfFile file size)
    (placed : ∀ k < elfPhnum file, ∀ n ∈ (elfSegment file k).vpns, Placed (elfSegment file k) file user s.mem n) :
    SegmentsPresent file s.mem root := by
  intro k inside isLoad va low high
  have address := (elf.segments k inside isLoad).address
  generalize isSeg : elfSegment file k = seg at *
  simp only [maxVa] at address
  have member : va / 4096 ∈ seg.vpns := ⟨isLoad, by
    unfold Segment.firstVpn Segment.endVpn
    simp only [Set.mem_Ico]
    omega⟩
  obtain ⟨page, found, bytes⟩ := placed k inside (va / 4096) (isSeg ▸ member)
  refine ⟨page, (l.userLeaf (by omega)).mpr found, ?_⟩
  rw [bytes _ (by omega), isSeg, Segment.byte, show 4096 * (va / 4096) + va % 4096 = va by omega]
  by_cases data : va < seg.vaddr + seg.filesz
  · rw [if_pos ⟨low, data⟩, if_pos data]
  · rw [if_neg fun inside => data inside.2, if_neg data]

/-- Pages that hold their segments, and no others, hold the file. -/
theorem Loading.elfPlaced (l : Loading root own free dir user s) (elf : ElfFile file size)
    (reach : ∀ n, user n ≠ none → n ∈ elfVpns file 0)
    (placed : ∀ k < elfPhnum file, ∀ n ∈ (elfSegment file k).vpns, Placed (elfSegment file k) file user s.mem n) :
    ElfPlaced file s.mem root := by
  refine ⟨l.segmentsPresent elf placed, fun n below page mapped => ?_⟩
  have found := (l.userLeaf below).mp mapped
  obtain ⟨k, _, inside, member⟩ := reach n (by simp [found])
  obtain ⟨page', found', bytes⟩ := placed k inside n member
  obtain rfl : page' = page := Option.some.inj (found'.symm.trans found)
  exact ⟨k, inside, member.1, bytes⟩

end

/-- In every state between operations with a task running, an `elf_load` of a
well-formed file that returns an entry has placed every byte. -/
theorem elf_load_places (valid : Valid g s) (busy : s.current ≠ 0) (elf : ElfFile file size)
    (image : InImage s file elfData size) {s₂ : Kernel} (fresh : FreshTable s root s₂) {entry : Nat}
    (returned : elfLoad root elfData s₂ = .ok entry s') (nonzero : entry ≠ 0) :
    entry = elfEntry file ∧ ElfPlaced file s'.mem root := by
  have spec : wp (elfLoad root elfData) s₂ _ fun _ _ => True := valid.elfLoad_fresh busy elf image fresh
  obtain ⟨own', free', dir', user', l, reach, ⟨isEntry, _, placed⟩ | ⟨zero, _⟩⟩ := wp_returned spec returned
  · exact ⟨isEntry, l.elfPlaced elf reach placed⟩
  · exact absurd zero nonzero

/-- The bytes that a world depends on are in the page pool or list heads. -/
theorem WorldOf.touched {wip : Set Owner} (world : WorldAt wip g s) {x : Nat} (inside : x ∈ g.bytes ∨ x ∈ g.allocator) :
    PoolPage (pageOf x) ∨ x ∈ listHeads := by
  have owned : ∀ {o : Owner}, g.own (pageOf x) = o → o ≠ .outside → PoolPage (pageOf x) := fun here other =>
    world.heap.pool.pages _ (here ▸ other)
  rcases inside with (⟨a, member, low, high⟩ | isHead | isHead | isKernel | ⟨v, member, isTask⟩) |
      isFree | isHead | ⟨b, member, low, high⟩
  · exact .inl (owned ((world.home a member).payload world.heap.heap low high).2 (by simp))
  · exact .inr (.inr isHead)
  · exact .inr (.inl (.inr isHead))
  · exact .inl (owned isKernel (by simp))
  · exact .inl (owned isTask (by simp))
  · exact .inl (owned isFree (by simp))
  · exact .inr (.inl (.inl isHead))
  · exact .inl (owned ((world.heap.heap.cover x).mpr ⟨b, member, low, by unfold Block.stop; omega⟩) (by simp))

/-- Memory with bytes put at an address. -/
def putBytes (mem : Mem) (start : Nat) (bytes : List UInt8) : Mem := fun x =>
  if start ≤ x ∧ x < start + bytes.length then bytes.getD (x - start) 0 else mem x

/-- A machine with other bytes outside the page pool. -/
theorem ValidOf.putBytes (valid : Valid g s) {start : Nat} {bytes : List UInt8}
    (outside : ∀ i < bytes.length, ¬ PoolPage (pageOf (start + i)) ∧ start + i ∉ listHeads) :
    Valid g { s with mem := KuroOS.putBytes s.mem start bytes } := by
  refine valid.same_tasks (valid.world.congr (fun x inside => if_neg fun ⟨low, high⟩ => ?_) rfl rfl rfl rfl) (.refl g) rfl rfl rfl rfl
  obtain ⟨notPool, noHead⟩ := outside (x - start) (by omega)
  rw [Nat.add_sub_cancel' low] at notPool noHead
  exact (valid.world.touched inside).elim notPool noHead

end

section

attribute [local instance] Layout.sample

/-- The archive is outside the page pool and the list heads. -/
theorem initrd_outside {x : Nat} (low : Layout.initrdStart ≤ x) (high : x < Layout.initrdStart + 4096) :
    ¬ PoolPage (pageOf x) ∧ x ∉ listHeads := by
  have isStart : Layout.initrdStart = 0x80220000 := rfl
  refine ⟨?_, ?_⟩
  · rintro ⟨_, above, _⟩
    have : Layout.kernelEnd = 0x80400000 := rfl
    unfold pageOf at above
    omega
  · have heads : Layout.freePageList = 0x80200000 ∧ Layout.runQueue = 0x80200010 ∧ Layout.allTasks = 0x80200020 := ⟨rfl, rfl, rfl⟩
    rintro ((inside | inside) | inside)
    all_goals
      simp only [mem_node] at inside
      omega

/-- A file that has been put where the linker puts the archive. -/
theorem initrd_image {s : Kernel} {bytes : List UInt8} (small : bytes.length ≤ 4096)
    (put : ∀ i < bytes.length, s.mem (Layout.initrdStart + i) = bytes.getD i 0) :
    InImage s (fileOf bytes) Layout.initrdStart bytes.length := by
  refine ⟨fun i low => ?_, put, fun i low => ?_⟩
  · have isStart : Layout.initrdStart = 0x80220000 := rfl
    simp only [ramBase, ramEnd]
    omega
  · obtain ⟨notPool, noHead⟩ := initrd_outside (show Layout.initrdStart ≤ Layout.initrdStart + i by omega) (by omega)
    exact ⟨notPool, fun inside => noHead (.inl (.inl inside))⟩

/-- A running machine with a file where the linker puts the archive. -/
theorem image_sample (bytes : List UInt8) (small : bytes.length ≤ 4096) : ∃ s g, Valid g s ∧ s.current ≠ 0 ∧
    InImage s (fileOf bytes) Layout.initrdStart bytes.length ∧ 31000 ≤ g.free.length := by
  obtain ⟨s, g, _, valid, busy, _, room⟩ := kernelMain_sample
  have outside : ∀ i < bytes.length, ¬ PoolPage (pageOf (Layout.initrdStart + i)) ∧ Layout.initrdStart + i ∉ listHeads := fun i low =>
    initrd_outside (by omega) (by omega)
  refine ⟨_, g, valid.putBytes outside, busy, initrd_image small fun i low => ?_, room⟩
  unfold putBytes
  dsimp only
  rw [if_pos (by omega), Nat.add_sub_cancel_left]

/-- A program of one segment, which starts in the middle of a page. -/
def helloSegment : Segment := ⟨ptLoad, 5, 120, 0x10010, 4, 8⟩

/-- Its file. -/
def helloBytes : List UInt8 := elfBytes 0x10010 [helloSegment] [1, 2, 3, 4]

/-- It is well formed. -/
theorem hello_elf : ElfFile (fileOf helloBytes) 124 := by
  have one : elfPhnum (fileOf helloBytes) = 1 := by decide
  refine ⟨by decide, by decide, by decide, fun i inside _ => ?_⟩
  obtain rfl : i = 0 := by omega
  exact ⟨by decide, by decide, by decide⟩

/-- Its one page can be mapped. -/
theorem hello_fits : Fits (fun _ => none) (fileOf helloBytes) 0 ∧ elfPages (fileOf helloBytes) 0 = 1 := by
  have one : elfPhnum (fileOf helloBytes) = 1 := by decide
  have vpns : ∀ n ∈ (elfSegment (fileOf helloBytes) 0).vpns, n = 16 := fun n ⟨_, low, high⟩ => by
    have first : (elfSegment (fileOf helloBytes) 0).firstVpn = 16 := by decide
    have stop : (elfSegment (fileOf helloBytes) 0).endVpn = 17 := by decide
    omega
  refine ⟨fun k _ inside => ?_, ?_⟩
  · obtain rfl : k = 0 := by omega
    refine ⟨fun n member => ⟨rfl, ?_⟩, fun l above below => by omega⟩
    rw [vpns n member]
    decide
  · rw [elfPages, one]
    decide

/-- It is loaded. -/
theorem hello_loads : ∃ s g root s₂ entry s', Valid g s ∧ s.current ≠ 0 ∧ InImage s (fileOf helloBytes) Layout.initrdStart 124 ∧
    FreshTable s root s₂ ∧ elfLoad root Layout.initrdStart s₂ = .ok entry s' ∧ entry ≠ 0 := by
  obtain ⟨s, g, valid, busy, image, room⟩ := image_sample helloBytes (by decide +kernel)
  obtain ⟨root, s₂, fresh⟩ := valid.fresh_exists (by omega)
  obtain ⟨entry, s', returned, _, _, _, _, _, _, outcome⟩ := wp_total (valid.elfLoad_fresh busy hello_elf image fresh)
  refine ⟨s, g, root, s₂, entry, s', valid, busy, image, fresh, returned, ?_⟩
  rcases outcome with ⟨rfl, _⟩ | ⟨_, clash | short⟩
  · decide
  · exact absurd hello_fits.1 clash
  · rw [hello_fits.2] at short
    omega

/-- Its bytes are where its header says. -/
theorem elf_load_places_sample : ∃ root s₂ entry s', elfLoad root Layout.initrdStart s₂ = .ok entry s' ∧ entry ≠ 0 ∧
    entry = elfEntry (fileOf helloBytes) ∧ ElfPlaced (fileOf helloBytes) s'.mem root := by
  obtain ⟨s, g, root, s₂, entry, s', valid, busy, image, fresh, returned, nonzero⟩ := hello_loads
  exact ⟨root, s₂, entry, s', returned, nonzero, elf_load_places valid busy hello_elf image fresh returned nonzero⟩

end

end KuroOS
