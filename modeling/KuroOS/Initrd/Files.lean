import KuroOS.Memory.Room
import KuroOS.Memory.UserPages
import KuroOS.Kernel.Initrd
import KuroOS.Base.Text

/-!
# The list of files

`initrd_init` builds a list of heap blocks, one for each file it registers.
`FileChain` reads the list off memory, and `InitrdState` is what holds of it
and of the heap below it between two registrations.
-/

namespace KuroOS

open Base

/-- A registered file: its name, and where its contents lie. -/
structure InitrdFile where
  name : List UInt8
  data : Nat
  size : Nat
deriving DecidableEq, Repr

/-- An entry in memory describes a file. -/
structure EntryAt (mem : Mem) (entry : Nat) (file : InitrdFile) : Prop where
  name : CString mem (entry + InitrdEntry.name) file.name
  short : file.name.length < 64
  data : mem.load (entry + InitrdEntry.data) 8 = file.data
  size : mem.load (entry + InitrdEntry.size) 8 = file.size

/-- The list of entries that starts at an address, newest first. -/
def FileChain (mem : Mem) : (entry : Nat) → List (Nat × InitrdFile) → Prop
  | entry, [] => entry = 0
  | entry, (here, file) :: rest =>
      entry = here ∧ here ≠ 0 ∧ here + initrdEntrySize < 2 ^ 64 ∧ EntryAt mem here file ∧
        FileChain mem (mem.load (here + InitrdEntry.next) 8) rest

/-- The files that `initrd_find` searches, newest first. -/
def Registered (s : Kernel) (files : List InitrdFile) : Prop :=
  ∃ entries, FileChain s.mem s.fileList entries ∧ entries.map Prod.snd = files

variable {mem mem' : Mem} {entry : Nat} {file : InitrdFile} {entries : List (Nat × InitrdFile)}

/-- An entry depends on its own bytes only. -/
theorem EntryAt.congr (holds : EntryAt mem entry file)
    (same : ∀ x, entry ≤ x → x < entry + initrdEntrySize → mem' x = mem x) : EntryAt mem' entry file where
  name := holds.name.congr fun x low high => by
    have := holds.short
    exact same x low (by simp only [initrdEntrySize, InitrdEntry.name] at *; omega)
  short := holds.short
  data := (Mem.load_congr fun x low high => same x (by omega) (by simp at *; omega)).trans holds.data
  size := (Mem.load_congr fun x low high => same x (by omega) (by simp at *; omega)).trans holds.size

/-- An address is the entry of at most one file. -/
theorem EntryAt.unique {file' : InitrdFile} (holds : EntryAt mem entry file)
    (holds' : EntryAt mem entry file') : file = file' := by
  have names := holds.name.unique holds'.name
  have datas := holds.data.symm.trans holds'.data
  have sizes := holds.size.symm.trans holds'.size
  cases file
  cases file'
  simp_all

namespace FileChain

/-- The list depends on its entries only. -/
theorem congr (chain : FileChain mem entry entries)
    (same : ∀ e ∈ entries, ∀ x, e.1 ≤ x → x < e.1 + initrdEntrySize → mem' x = mem x) :
    FileChain mem' entry entries := by
  induction entries generalizing entry with
  | nil => exact chain
  | cons e rest ih =>
      obtain ⟨here, file⟩ := e
      obtain ⟨is, nonzero, fits, holds, tail⟩ := chain
      have own := same _ (List.mem_cons_self)
      have next : mem'.load (here + InitrdEntry.next) 8 = mem.load (here + InitrdEntry.next) 8 :=
        Mem.load_congr fun x low high => own x (by omega) (by simp at *; omega)
      refine ⟨is, nonzero, fits, holds.congr own, ?_⟩
      rw [next]
      exact ih tail fun e member => same e (List.mem_cons_of_mem _ member)

/-- Memory holds at most one list at an address. -/
theorem unique {entries' : List (Nat × InitrdFile)} (chain : FileChain mem entry entries)
    (chain' : FileChain mem entry entries') : entries = entries' := by
  induction entries generalizing entry entries' with
  | nil =>
      cases entries' with
      | nil => rfl
      | cons e rest => exact absurd (chain'.1.symm.trans chain) chain'.2.1
  | cons e rest ih =>
      cases entries' with
      | nil => exact absurd (chain.1.symm.trans chain') chain.2.1
      | cons e' rest' =>
          obtain ⟨rfl, _, _, holds, tail⟩ := chain
          obtain ⟨same, _, _, holds', tail'⟩ := chain'
          rw [← same] at holds' tail'
          rw [ih tail tail', Prod.ext same (holds.unique holds')]

end FileChain

/-- A state has one list of files. -/
theorem Registered.unique {s : Kernel} {files files' : List InitrdFile} (registered : Registered s files)
    (registered' : Registered s files') : files = files' := by
  obtain ⟨entries, chain, rfl⟩ := registered
  obtain ⟨entries', chain', rfl⟩ := registered'
  rw [chain.unique chain']

section

variable [Layout] {own : Nat → Owner} {free : List Nat} {blocks : List Block} {s : Kernel}
  {halt : Halt → Kernel → Prop}

/-- A byte that the allocators never write: not in a free page, a heap page or
the head of the free list. -/
def Quiet (own : Nat → Owner) (x : Nat) : Prop :=
  own (pageOf x) ≠ .heap ∧ own (pageOf x) ≠ .free ∧ x ∉ node Layout.freePageList

/-- The heap, with the list of files in blocks of its own. -/
structure InitrdState (own : Nat → Owner) (free : List Nat) (blocks : List Block)
    (entries : List (Nat × InitrdFile)) (s : Kernel) : Prop where
  heap : HeapState own free blocks s
  chain : FileChain s.mem s.fileList entries
  homes : ∀ e ∈ entries, ∃ b ∈ usedBlocks blocks, e.1 = b.payload ∧ initrdEntrySize ≤ b.size

/-- The list starts empty. -/
theorem HeapState.initrd (state : HeapState own free blocks s) :
    InitrdState own free blocks [] { s with fileList := 0 } :=
  ⟨⟨state.pool.congr (fun _ _ => rfl) rfl, state.heap.congr (fun _ _ _ _ _ => rfl) rfl rfl fun _ => Iff.rfl,
    state.coalesced⟩, rfl, by simp⟩

/-- Writing in the payload of a block in use keeps the heap. -/
theorem HeapState.payload (state : HeapState own free blocks s) {b : Block} (member : b ∈ usedBlocks blocks)
    {s' : Kernel} (same : ∀ x, x < b.payload ∨ b.stop ≤ x → s'.mem x = s.mem x)
    (globals : s'.nrFreePages = s.nrFreePages ∧ s'.heapHead = s.heapHead ∧ s'.heapTail = s.heapTail) :
    HeapState own free blocks s' := by
  obtain ⟨inside, used⟩ := mem_usedBlocks.mp member
  have inHeap : ∀ x, b.payload ≤ x → x < b.stop → own (pageOf x) = .heap := fun x low high =>
    (state.heap.cover x).mpr ⟨b, inside, by unfold Block.payload at low; omega, high⟩
  refine ⟨state.pool.congr (fun x plain => same x ?_) globals.1, state.heap.congr (fun c member' x low high =>
    same x ?_) globals.2.1 globals.2.2 fun _ => Iff.rfl, state.coalesced⟩
  · by_contra within
    have here := inHeap x (by omega) (by omega)
    rcases plain with isFree | isHead
    · simp [here] at isFree
    · exact state.pool.not_head (by simp [here]) isHead
  · by_cases equal : c = b
    · subst equal
      exact .inl high
    · have := state.heap.apart_of_ne member' inside equal
      unfold Block.Apart Block.stop at this
      unfold Block.payload Block.stop
      omega

end

/-- The memory after an entry was filled in, from the memory that `kmalloc`
leaves. -/
def entryMem (mem : Mem) (entry name namesize filesize data next : Nat) : Mem :=
  let named : Mem := Function.update (memCopy mem (entry + InitrdEntry.name) name (min namesize 63))
    (entry + InitrdEntry.name + if namesize < 64 then namesize else 63) 0
  ((named.store (entry + InitrdEntry.data) 8 data).store (entry + InitrdEntry.size) 8 filesize).store
    (entry + InitrdEntry.next) 8 next

/-- The bytes that `initrd_init` copies as the name of an entry. -/
def nameBytes (mem : Mem) (name namesize : Nat) : List UInt8 :=
  (List.range (min namesize 63)).map fun i => mem (name + i)

/-- Filling in an entry changes the entry only. -/
theorem entryMem_of_outside {name namesize filesize data next x : Nat}
    (fits : entry + initrdEntrySize < 2 ^ 64) (outside : x < entry ∨ entry + initrdEntrySize ≤ x) :
    entryMem mem entry name namesize filesize data next x = mem x := by
  unfold entryMem
  simp only [initrdEntrySize, InitrdEntry.name, InitrdEntry.data, InitrdEntry.size,
    InitrdEntry.next] at *
  rw [Mem.store_of_outside (by omega), Mem.store_of_outside (by omega), Mem.store_of_outside (by omega),
    Function.update_of_ne (by split <;> omega), memCopy_of_outside (by omega) (by omega)]

/-- A filled entry describes its file, whatever lies where its name is read from. The
name is what lies there if that is not in the entry itself. -/
theorem entryMem_entryAt {name namesize filesize data next : Nat} (fits : entry + initrdEntrySize < 2 ^ 64)
    (dataFits : data < 2 ^ 64) (sizeFits : filesize < 2 ^ 64) (nextFits : next < 2 ^ 64) :
    ∃ text, EntryAt (entryMem mem entry name namesize filesize data next) entry ⟨text, data, filesize⟩ ∧
      (entryMem mem entry name namesize filesize data next).load (entry + InitrdEntry.next) 8 = next ∧
      (name + namesize ≤ 2 ^ 64 → (∀ x, name ≤ x → x < name + namesize → x < entry ∨ entry + initrdEntrySize ≤ x) →
        text = untilNul (nameBytes mem name namesize)) := by
  simp only [initrdEntrySize] at *
  have word : ∀ n, n < 2 ^ 64 → n < 256 ^ 8 := fun n small => small
  have stopAt : (if namesize < 64 then namesize else 63) = min namesize 63 := by split <;> omega
  -- the name field, with the NUL behind what was copied
  obtain ⟨mem', is⟩ : ∃ m, m = entryMem mem entry name namesize filesize data next := ⟨_, rfl⟩
  have named : ∀ i ≤ min namesize 63, mem' (entry + i) =
      Function.update (memCopy mem (entry + InitrdEntry.name) name (min namesize 63)) (entry + InitrdEntry.name + min namesize 63) 0
        (entry + i) := fun i low => by
    rw [is]
    simp only [entryMem, InitrdEntry.name, InitrdEntry.data, InitrdEntry.size, InitrdEntry.next, stopAt]
    rw [Mem.store_of_outside (by omega), Mem.store_of_outside (by omega), Mem.store_of_outside (by omega)]
  have stop : mem' (entry + min namesize 63) = 0 := by
    rw [named _ (Nat.le_refl _)]
    simp [InitrdEntry.name]
  have holds : Holds mem' entry (nameBytes mem' entry namesize ++ [0]) := by
    refine holds_iff.mpr fun i inside => ?_
    have copied : (nameBytes mem' entry namesize).length = min namesize 63 := by simp [nameBytes]
    rw [List.length_append, List.length_singleton, copied] at inside
    rcases Nat.lt_succ_iff_lt_or_eq.mp inside with before | last
    · rw [List.getElem_append_left (by omega)]
      simp [nameBytes]
    · simp [last, copied, stop]
  refine ⟨untilNul (nameBytes mem' entry namesize), is ▸ ⟨cString_untilNul holds, ?_, ?_, ?_⟩, Mem.load_store_same (word _ nextFits),
    fun source apart => congrArg untilNul (List.map_congr_left fun i inside => ?_)⟩
  · have := untilNul_length_le (nameBytes mem' entry namesize)
    simp only [nameBytes, List.length_map, List.length_range] at this ⊢
    omega
  · rw [is]
    simp only [entryMem, InitrdEntry.data, InitrdEntry.size, InitrdEntry.next]
    rw [Mem.load_store_of_disjoint (by omega), Mem.load_store_of_disjoint (by omega)]
    exact Mem.load_store_same (word _ dataFits)
  · rw [is]
    simp only [entryMem, InitrdEntry.size, InitrdEntry.next]
    rw [Mem.load_store_of_disjoint (by omega)]
    exact Mem.load_store_same (word _ sizeFits)
  · have low := List.mem_range.mp inside
    have away : name + namesize ≤ entry ∨ entry + 88 ≤ name := by
      have := apart (max entry name)
      omega
    rw [named i (by omega)]
    simp only [InitrdEntry.name, Nat.add_zero]
    rw [Function.update_of_ne (by omega), memCopy_of_inside (by omega) (by omega) (by omega) low]

/-- The number of entries that the heap and the free pages have room for. -/
def initrdRoom (free : List Nat) (blocks : List Block) : Nat :=
  heapRoom (alignUp initrdEntrySize kmallocAlign) free blocks

section

variable [Layout] {own own' own'' : Nat → Owner} {free : List Nat} {blocks : List Block} {s s' s'' : Kernel}
  {halt : Halt → Kernel → Prop}

/-- What registering files may change: the allocators' bytes and the list. -/
structure InitrdMoves (own : Nat → Owner) (s : Kernel) (own' : Nat → Owner) (s' : Kernel) : Prop where
  owner : ∀ p, own' p = own p ∨ own p = .free ∧ own' p = .heap
  bytes : ∀ x, Quiet own x → s'.mem x = s.mem x
  globals : s' = { s with
    mem := s'.mem, nrFreePages := s'.nrFreePages, heapHead := s'.heapHead, heapTail := s'.heapTail,
    fileList := s'.fileList }

namespace InitrdMoves

/-- Quiet bytes stay quiet. -/
theorem quiet (moves : InitrdMoves own s own' s') {x : Nat} (quiet : Quiet own x) : Quiet own' x := by
  rcases moves.owner (pageOf x) with same | ⟨wasFree, _⟩
  · unfold Quiet
    rw [same]
    exact quiet
  · exact absurd wasFree quiet.2.1

theorem refl : InitrdMoves own s own s := ⟨fun _ => .inl rfl, fun _ _ => rfl, rfl⟩

theorem trans (first : InitrdMoves own s own' s') (second : InitrdMoves own' s' own'' s'') :
    InitrdMoves own s own'' s'' where
  owner p := by
    rcases first.owner p with same | ⟨was, now⟩
    · rw [← same]
      exact second.owner p
    · rcases second.owner p with same | ⟨still, _⟩
      · exact .inr ⟨was, same.trans now⟩
      · simp [now] at still
  bytes x quiet := (second.bytes x (first.quiet quiet)).trans (first.bytes x quiet)
  globals := by
    have := first.globals
    rw [second.globals]
    generalize s''.mem = m, s''.nrFreePages = n, s''.heapHead = h, s''.heapTail = t, s''.fileList = l
    rw [this]

end InitrdMoves

omit [Layout] in
/-- A new block is none of the blocks that were in use. -/
theorem Heap.new_block {blocks' : List Block} (heap : Heap own' blocks' s') {b : Block}
    (perm : (usedBlocks blocks').Perm (b :: usedBlocks blocks)) : b ∉ usedBlocks blocks := by
  have irrefl : ∀ c : Block, ¬ Block.Apart c c := fun c apart => by
    unfold Block.Apart Block.stop at apart
    omega
  have distinct : blocks'.Nodup := heap.apart.imp fun {c d} apart => by
    rintro rfl
    exact irrefl c apart
  exact (List.nodup_cons.mp (perm.nodup_iff.mp (distinct.filter _))).1

/-- Registering a file puts one entry in front of the list, unless there is no
room for it; the name is what the allocators have left where it is read from. -/
theorem InitrdState.add_any {entries : List (Nat × InitrdFile)} (state : InitrdState own free blocks entries s)
    {name namesize filesize data : Nat} (short : namesize < 64) (dataFits : data < 2 ^ 64) (sizeFits : filesize < 2 ^ 64) :
    wp (initrdAdd name namesize filesize data) s (fun ok s' =>
      (ok = false ∧ s' = s ∧ initrdRoom free blocks = 0) ∨
      (ok = true ∧ ∃ own' free' blocks' entry text, InitrdState own' free' blocks' ((entry, ⟨text, data, filesize⟩) :: entries) s' ∧
        initrdRoom free' blocks' + 1 = initrdRoom free blocks ∧ InitrdMoves own s own' s' ∧
        ((∀ x, name ≤ x → x < name + namesize → Quiet own x) → name + namesize ≤ 2 ^ 64 →
          text = untilNul (nameBytes s.mem name namesize)))) halt := by
  unfold initrdAdd
  refine wp_bind_of (kmalloc_room state.heap (by decide) (by decide)) ?_
  rintro _ s₁ (⟨rfl, rfl, full⟩ | ⟨own', free', blocks', b, heap', moves, rfl, used, large, perm, room⟩)
  · rw [if_pos rfl]
    exact (wp_pure _).mpr (.inl ⟨rfl, rfl, full⟩)
  have member : b ∈ usedBlocks blocks' := perm.mem_iff.mpr List.mem_cons_self
  have bounds := heap'.heap.bounds heap'.pool (mem_usedBlocks.mp member).1
  have large : 96 ≤ b.size := large
  obtain ⟨entry, here⟩ : ∃ e, e = b.addr + 48 := ⟨_, rfl⟩
  have low : b.payload = entry := here.symm
  have high : entry + 96 ≤ b.stop := by unfold Block.stop; omega
  have fits : entry + initrdEntrySize < 2 ^ 64 := by
    simp only [initrdEntrySize]
    omega
  -- the bytes of the entry are heap bytes, those of the name are not
  have inHeap : ∀ x, entry ≤ x → x < entry + initrdEntrySize → own' (pageOf x) = .heap := fun x above below =>
    (heap'.heap.cover x).mpr ⟨b, (mem_usedBlocks.mp member).1, by omega, by
      simp only [initrdEntrySize] at below
      omega⟩
  have quietApart : ∀ x, Quiet own x → x < entry ∨ entry + initrdEntrySize ≤ x := fun x still => by
    by_contra within
    have inside := inHeap x (by omega) (by omega)
    rcases moves.owner (pageOf x) with same | ⟨wasFree, _⟩
    · exact still.1 (same ▸ inside)
    · exact still.2.1 wasFree
  have sameName : (∀ x, name ≤ x → x < name + namesize → Quiet own x) →
      nameBytes s₁.mem name namesize = nameBytes s.mem name namesize := fun quiet => by
    refine List.map_congr_left fun i inside => moves.bytes _ (.inl (quiet _ (by omega) ?_))
    have := List.mem_range.mp inside
    omega
  rw [← here, if_neg (by omega)]
  simp only [wp_bind, wp_modifyMem, wp_storeWord, wp_get, wp_modify, wp_pure]
  have listFits : s₁.fileList < 2 ^ 64 := by
    have same : s₁.fileList = s.fileList := by rw [moves.globals]
    have chain := state.chain
    rw [same]
    cases entries with
    | nil => simp only [FileChain] at chain; omega
    | cons e rest => have := chain.1; have := chain.2.2.1; omega
  have after : ∀ next, Mem.store (Mem.store (Mem.store
      (Function.update (memCopy s₁.mem (entry + InitrdEntry.name) name (min namesize 63))
        (entry + InitrdEntry.name + if namesize < 64 then namesize else 63) 0)
      (entry + InitrdEntry.data) 8 data) (entry + InitrdEntry.size) 8 filesize) (entry + InitrdEntry.next) 8 next =
        entryMem s₁.mem entry name namesize filesize data next := fun _ => rfl
  rw [after]
  obtain ⟨mem', is⟩ : ∃ m, m = entryMem s₁.mem entry name namesize filesize data s₁.fileList := ⟨_, rfl⟩
  rw [← is]
  have outside : ∀ x, x < entry ∨ entry + initrdEntrySize ≤ x → mem' x = s₁.mem x := fun x away =>
    is ▸ entryMem_of_outside fits away
  obtain ⟨text, described, next, named⟩ := is ▸ @entryMem_entryAt s₁.mem entry name namesize _ _ _ fits dataFits sizeFits listFits
  refine .inr ⟨trivial, own', free', blocks', entry, text, ⟨heap'.payload member (fun x away => outside x ?_) ⟨rfl, rfl, rfl⟩,
    ⟨rfl, by omega, fits, described, ?_⟩, ?_⟩, room, ⟨moves.owner, fun x still => ?_, ?_⟩, fun quiet source => ?_⟩
  · simp only [initrdEntrySize]
    omega
  · simp only
    rw [next]
    have list : s₁.fileList = s.fileList := by rw [moves.globals]
    rw [list]
    refine state.chain.congr fun e inside x above below => ?_
    obtain ⟨c, home, at', size⟩ := state.homes e inside
    have isOther : c ≠ b := fun equal => heap'.heap.new_block perm (equal ▸ home)
    have away := heap'.heap.apart_of_ne (mem_usedBlocks.mp (perm.mem_iff.mpr (List.mem_cons_of_mem _ home))).1
      (mem_usedBlocks.mp member).1 isOther
    unfold Block.Apart Block.stop at away
    unfold Block.payload at at'
    simp only [initrdEntrySize] at size below
    refine (outside x ?_).trans (moves.bytes x (.inr ⟨c, (mem_usedBlocks.mp home).1, (mem_usedBlocks.mp home).2,
      by omega, by unfold Block.stop; omega⟩))
    simp only [initrdEntrySize]
    omega
  · rintro e inside
    rcases List.mem_cons.mp inside with rfl | inside
    · exact ⟨b, member, low.symm, by simp only [initrdEntrySize]; omega⟩
    · obtain ⟨c, home, rest⟩ := state.homes e inside
      exact ⟨c, perm.mem_iff.mpr (List.mem_cons_of_mem _ home), rest⟩
  · exact (outside x (quietApart x still)).trans (moves.bytes x (.inl still))
  · rw [moves.globals]
  · rw [named source fun x above below => quietApart x (quiet x above below), sameName quiet]

/-- A name that the allocators do not write to is registered as it is. -/
theorem InitrdState.add {entries : List (Nat × InitrdFile)} (state : InitrdState own free blocks entries s)
    {name namesize filesize data : Nat} (short : namesize < 64)
    (quiet : ∀ x, name ≤ x → x < name + namesize → Quiet own x) (source : name + namesize ≤ 2 ^ 64)
    (dataFits : data < 2 ^ 64) (sizeFits : filesize < 2 ^ 64) :
    wp (initrdAdd name namesize filesize data) s (fun ok s' =>
      (ok = false ∧ s' = s ∧ initrdRoom free blocks = 0) ∨
      (ok = true ∧ ∃ own' free' blocks' entry, InitrdState own' free' blocks'
        ((entry, ⟨untilNul (nameBytes s.mem name namesize), data, filesize⟩) :: entries) s' ∧
        initrdRoom free' blocks' + 1 = initrdRoom free blocks ∧ InitrdMoves own s own' s')) halt := by
  refine wp_mono (state.add_any short dataFits sizeFits) ?_ fun _ _ => id
  rintro ok s' (full | ⟨done, own', free', blocks', entry, text, state', room, moves, named⟩)
  · exact .inl full
  · exact .inr ⟨done, own', free', blocks', entry, named quiet source ▸ state', room, moves⟩

end

end KuroOS
