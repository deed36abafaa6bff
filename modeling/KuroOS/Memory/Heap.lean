import KuroOS.Memory.PagePool
import KuroOS.Kernel.Kmalloc

/-!
# The heap as a list of blocks

`Heap own blocks s` says that the words of the headers, the links and the two
end pointers are those of the list `blocks`, and that the blocks tile the heap
pages. The null pointer is the head of the cycle of blocks: its `next` is
`heap_head` and its `prev` is `heap_tail`, so the code's two cases for a
missing neighbour are one.
-/

namespace KuroOS

open Base

/-- A block of the heap: the address of its header, the size of its payload,
and whether it is free. -/
structure Block where
  addr : Nat
  size : Nat
  free : Bool
deriving DecidableEq, Repr

namespace Block

/-- The address after a block. -/
def stop (b : Block) : Nat := b.addr + 48 + b.size

/-- The pointer that is handed out for a block. -/
def payload (b : Block) : Nat := b.addr + 48

/-- Two blocks do not overlap. -/
def Apart (b c : Block) : Prop := b.stop ≤ c.addr ∨ c.stop ≤ b.addr

instance : Std.Symm Apart := ⟨fun _ _ => Or.symm⟩

theorem apart_of_disjoint {b c : Block}
    (disjoint : ∀ x, b.addr ≤ x → x < b.stop → ¬ (c.addr ≤ x ∧ x < c.stop)) : Apart b c := by
  have first := disjoint b.addr
  have second := disjoint c.addr
  unfold Apart stop at *
  omega

end Block

/-- The words of a block's header, its links aside. -/
structure Header (mem : Mem) (b : Block) : Prop where
  size : mem.load b.addr 8 = b.size
  free : mem.load (b.addr + 8) 8 = if b.free then 1 else 0
  magic : mem.load (b.addr + 16) 8 = kmallocMagic

/-- The block after a block; the first block, after the null pointer. -/
def blockNext (s : Kernel) (a : Nat) : Nat := if a = 0 then s.heapHead else s.mem.load (a + 32) 8

/-- The block before a block; the last block, before the null pointer. -/
def blockPrev (s : Kernel) (a : Nat) : Nat := if a = 0 then s.heapTail else s.mem.load (a + 24) 8

/-- Memory holds the list of blocks, and they tile the heap's pages. -/
structure Heap (own : Nat → Owner) (blocks : List Block) (s : Kernel) : Prop where
  cycle : Cycle (blockNext s) (blockPrev s) 0 (blocks.map Block.addr)
  header : ∀ b ∈ blocks, Header s.mem b
  aligned : ∀ b ∈ blocks, b.addr % 16 = 0 ∧ b.size % 16 = 0
  apart : blocks.Pairwise Block.Apart
  cover : ∀ x, own (pageOf x) = .heap ↔ ∃ b ∈ blocks, b.addr ≤ x ∧ x < b.stop

/-- No two neighbours in the list are both free and adjacent in memory. -/
def Coalesced (blocks : List Block) : Prop :=
  blocks.IsChain fun b c => ¬ (b.free = true ∧ c.free = true ∧ b.stop = c.addr)

/-- The payload bytes of the blocks in use. -/
def payloads (blocks : List Block) : Set Nat :=
  {x | ∃ b ∈ blocks, b.free = false ∧ b.addr + 48 ≤ x ∧ x < b.stop}

/-- Heap code: it changes heap pages, but no payload in use, and the two end
pointers. -/
structure HeapMoves (own : Nat → Owner) (blocks : List Block) (s s' : Kernel) : Prop where
  bytes : ∀ x, own (pageOf x) ≠ .heap ∨ x ∈ payloads blocks → s'.mem x = s.mem x
  globals : s' = { s with mem := s'.mem, heapHead := s'.heapHead, heapTail := s'.heapTail }

theorem HeapMoves.refl {own : Nat → Owner} {blocks : List Block} {s : Kernel} :
    HeapMoves own blocks s s := ⟨fun _ _ => rfl, rfl⟩

theorem HeapMoves.trans {own : Nat → Owner} {blocks blocks' : List Block} {s s' s'' : Kernel}
    (first : HeapMoves own blocks s s') (kept : payloads blocks ⊆ payloads blocks')
    (second : HeapMoves own blocks' s' s'') : HeapMoves own blocks s s'' where
  bytes x outside := (second.bytes x (outside.imp id (@kept x))).trans (first.bytes x outside)
  globals := by
    have := first.globals
    rw [second.globals]
    generalize s''.mem = m, s''.heapHead = h, s''.heapTail = t
    rw [this]

/-- Store a link of the node `a`, which is in memory unless `a` is null. -/
def linkMem (mem : Mem) (a offset v : Nat) : Mem :=
  if a = 0 then mem else mem.store (a + offset) 8 v

section

variable {s : Kernel} {mem : Mem} {a v x offset : Nat} {post : Unit → Kernel → Prop}
  {halt : Halt → Kernel → Prop}

@[simp] theorem wp_setPrev : wp (setPrev a v) s post halt ↔
    post () { s with
      mem := linkMem s.mem a 24 v, heapTail := if a = 0 then v else s.heapTail } := by
  unfold setPrev linkMem
  by_cases zero : a = 0 <;> simp [zero]

@[simp] theorem wp_setNext : wp (setNext a v) s post halt ↔
    post () { s with
      mem := linkMem s.mem a 32 v, heapHead := if a = 0 then v else s.heapHead } := by
  unfold setNext linkMem
  by_cases zero : a = 0 <;> simp [zero]

theorem linkMem_load (apart : a = 0 ∨ x + 8 ≤ a + offset ∨ a + offset + 8 ≤ x) :
    (linkMem mem a offset v).load x 8 = mem.load x 8 := by
  unfold linkMem
  split
  · rfl
  · exact Mem.load_store_of_disjoint (by omega)

theorem linkMem_load_same (inMemory : a ≠ 0) (fits : v < 256 ^ 8) :
    (linkMem mem a offset v).load (a + offset) 8 = v := by
  unfold linkMem
  rw [if_neg inMemory]
  exact Mem.load_store_same fits

theorem linkMem_byte (outside : a = 0 ∨ x < a + offset ∨ a + offset + 8 ≤ x) :
    linkMem mem a offset v x = mem x := by
  unfold linkMem
  split
  · rfl
  · exact Mem.store_of_outside (by omega)

end

namespace Heap

variable {own : Nat → Owner} {blocks xs mid mid' ys : List Block} {b c : Block} {s s' : Kernel}

/-- Blocks lie in the pool. -/
theorem bounds [Layout] {free : List Nat} (heap : Heap own blocks s) (pool : Pool own free s) (member : b ∈ blocks) :
    0x80000000 < b.addr ∧ b.stop ≤ 0x88000000 ∧ b.addr % 16 = 0 ∧ b.size % 16 = 0 := by
  have inHeap : ∀ x, b.addr ≤ x → x < b.stop → 0x80000000 < pageOf x ∧ pageOf x + 4096 ≤ 0x88000000 :=
    fun x low high => by
      have owned := (heap.cover x).mpr ⟨b, member, low, high⟩
      have := (pool.pages (pageOf x) (by simp [owned])).bounds
      omega
  obtain ⟨addrAligned, sizeAligned⟩ := heap.aligned b member
  have first := inHeap b.addr (Nat.le_refl _) (by unfold Block.stop; omega)
  have last := inHeap (b.stop - 1) (by unfold Block.stop; omega) (by unfold Block.stop; omega)
  unfold pageOf at first last
  unfold Block.stop at *
  omega

/-- Two blocks of the heap are the same or do not overlap. -/
theorem apart_of_ne (heap : Heap own blocks s) (member : b ∈ blocks) (member' : c ∈ blocks)
    (ne : b ≠ c) : Block.Apart b c :=
  heap.apart.forall member member' ne

theorem eq_of_addr (heap : Heap own blocks s) (member : b ∈ blocks) (member' : c ∈ blocks)
    (equal : b.addr = c.addr) : b = c := by
  by_contra ne
  have := heap.apart_of_ne member member' ne
  unfold Block.Apart Block.stop at this
  omega

/-- The node after the prefix of a list of blocks. -/
def nextAddr (ys : List Block) : Nat := (ys.map Block.addr ++ [0]).head (by simp)

/-- The node before the suffix of a list of blocks. -/
def prevAddr (xs : List Block) : Nat := (0 :: xs.map Block.addr).getLast (by simp)

theorem nextAddr_cases (ys : List Block) :
    (ys = [] ∧ nextAddr ys = 0) ∨ ∃ c ys', ys = c :: ys' ∧ nextAddr ys = c.addr := by
  cases ys with
  | nil => exact .inl ⟨rfl, rfl⟩
  | cons c ys => exact .inr ⟨c, ys, rfl, rfl⟩

theorem prevAddr_cases (xs : List Block) :
    (xs = [] ∧ prevAddr xs = 0) ∨ ∃ xs' c, xs = xs' ++ [c] ∧ prevAddr xs = c.addr := by
  rcases List.eq_nil_or_concat xs with rfl | ⟨xs', c, rfl⟩
  · exact .inl ⟨rfl, rfl⟩
  · refine .inr ⟨xs', c, by simp, ?_⟩
    simp [prevAddr]

theorem around (heap : Heap own (xs ++ b :: ys) s) :
    blockPrev s b.addr = prevAddr xs ∧ blockNext s b.addr = nextAddr ys :=
  Cycle.around (xs.map Block.addr) (ys.map Block.addr) (by simpa using heap.cycle)

/-- A heap depends on its headers, its two end pointers and its pages. -/
theorem congr {own' : Nat → Owner} (heap : Heap own blocks s)
    (same : ∀ b ∈ blocks, ∀ x, b.addr ≤ x → x < b.addr + 48 → s'.mem x = s.mem x)
    (head : s'.heapHead = s.heapHead) (tail : s'.heapTail = s.heapTail)
    (pages : ∀ p, own' p = .heap ↔ own p = .heap) : Heap own' blocks s' where
  cycle := by
    have load : ∀ b ∈ blocks, ∀ k, k + 8 ≤ 48 →
        s'.mem.load (b.addr + k) 8 = s.mem.load (b.addr + k) 8 := fun b member k inHeader =>
      Mem.load_congr fun x low high => same b member x (by omega) (by omega)
    refine heap.cycle.congr (fun a member => ?_) fun a member => ?_
    · rcases List.mem_cons.mp member with rfl | member
      · exact head
      · obtain ⟨b, inside, rfl⟩ := List.mem_map.mp member
        simp only [blockNext, head, load b inside 32 (by omega)]
    · rcases List.mem_cons.mp member with rfl | member
      · exact tail
      · obtain ⟨b, inside, rfl⟩ := List.mem_map.mp member
        simp only [blockPrev, tail, load b inside 24 (by omega)]
  header b member := by
    obtain ⟨size, free, magic⟩ := heap.header b member
    have load : ∀ k, k + 8 ≤ 48 → s'.mem.load (b.addr + k) 8 = s.mem.load (b.addr + k) 8 :=
      fun k inHeader => Mem.load_congr fun x low high => same b member x (by omega) (by omega)
    exact ⟨(load 0 (by omega)).trans size, (load 8 (by omega)).trans free,
      (load 16 (by omega)).trans magic⟩
  aligned := heap.aligned
  apart := heap.apart
  cover x := (pages (pageOf x)).trans (heap.cover x)

/-- Rewrite a stretch of the list into blocks that tile the same bytes. -/
theorem replace {blocks' : List Block} (xs mid mid' ys : List Block) (heap : Heap own blocks s)
    (before : blocks = xs ++ mid ++ ys) (after : blocks' = xs ++ mid' ++ ys)
    (cycle : Cycle (blockNext s') (blockPrev s') 0 (blocks'.map Block.addr))
    (outer : ∀ b ∈ xs ++ ys, ∀ x, b.addr ≤ x → x < b.addr + 24 → s'.mem x = s.mem x)
    (header : ∀ b ∈ mid', Header s'.mem b)
    (aligned : ∀ b ∈ mid', b.addr % 16 = 0 ∧ b.size % 16 = 0) (apart : mid'.Pairwise Block.Apart)
    (tile : ∀ x, (∃ b ∈ mid', b.addr ≤ x ∧ x < b.stop) ↔ ∃ b ∈ mid, b.addr ≤ x ∧ x < b.stop) :
    Heap own blocks' s' where
  cycle := cycle
  header b member := by
    subst before after
    simp only [List.mem_append] at member
    by_cases new : b ∈ mid'
    · exact header b new
    have outside : b ∈ xs ++ ys := by
      simp only [List.mem_append]
      tauto
    obtain ⟨size, free, magic⟩ := heap.header b (by simp only [List.mem_append] at *; tauto)
    have same := outer b outside
    refine ⟨?_, ?_, ?_⟩
    · rw [← size]
      exact Mem.load_congr fun x low high => same x (by omega) (by omega)
    · rw [← free]
      exact Mem.load_congr fun x low high => same x (by omega) (by omega)
    · rw [← magic]
      exact Mem.load_congr fun x low high => same x (by omega) (by omega)
  aligned b member := by
    subst before after
    by_cases new : b ∈ mid'
    · exact aligned b new
    · exact heap.aligned b (by simp only [List.mem_append] at *; tauto)
  apart := by
    subst before after
    have pairs := heap.apart
    simp only [List.append_assoc, List.pairwise_append] at pairs ⊢
    obtain ⟨first, ⟨_, last, midLast⟩, firstRest⟩ := pairs
    -- a new block overlaps no outer block, because the old ones in its place did not
    have outside : ∀ b ∈ mid', ∀ c, (∀ d ∈ mid, Block.Apart d c) → Block.Apart b c := by
      intro b member c away
      refine Block.apart_of_disjoint fun x low high inside => ?_
      obtain ⟨d, memberD, lowD, highD⟩ := (tile x).mp ⟨b, member, low, high⟩
      have := away d memberD
      unfold Block.Apart at this
      omega
    refine ⟨first, ⟨apart, last, fun b member c memberC => ?_⟩, fun c memberC b member => ?_⟩
    · exact outside b member c fun d memberD => midLast d memberD c memberC
    · rcases List.mem_append.mp member with member | member
      · exact (outside b member c fun d memberD =>
          (firstRest c memberC d (List.mem_append_left _ memberD)).symm).symm
      · exact firstRest c memberC b (List.mem_append_right _ member)
  cover x := by
    subst before after
    have here := tile x
    simp only [List.mem_append, or_and_right, exists_or] at here ⊢
    rw [heap.cover x, here]
    simp only [List.mem_append, or_and_right, exists_or]

theorem inner (member : c ∈ xs ++ ys) : c ∈ xs ++ b :: ys := by
  simp only [List.mem_append, List.mem_cons] at member ⊢
  tauto

theorem node_cases {a : Nat} (member : a ∈ 0 :: (xs.map Block.addr ++ b.addr :: ys.map Block.addr)) :
    a = 0 ∨ a = b.addr ∨ ∃ c ∈ xs ++ ys, a = c.addr := by
  simp only [List.mem_cons, List.mem_append, List.mem_map] at member ⊢
  rcases member with rfl | ⟨c, inside, rfl⟩ | rfl | ⟨c, inside, rfl⟩
  · exact .inl rfl
  · exact .inr (.inr ⟨c, .inl inside, rfl⟩)
  · exact .inr (.inl rfl)
  · exact .inr (.inr ⟨c, .inr inside, rfl⟩)

/-- A block overlaps no other block of its list. -/
theorem others_apart (heap : Heap own (xs ++ b :: ys) s) : ∀ c ∈ xs ++ ys, Block.Apart b c := by
  have pairs := heap.apart
  simp only [List.pairwise_append, List.pairwise_cons, List.mem_cons] at pairs
  intro c member
  rcases List.mem_append.mp member with member | member
  · exact (pairs.2.2 c member b (.inl rfl)).symm
  · exact pairs.2.1.1 c member

/-- Where the neighbours of a block are. -/
theorem next_apart (heap : Heap own (xs ++ b :: ys) s) (member : c ∈ xs ++ b :: ys) :
    nextAddr ys = 0 ∨ nextAddr ys = c.addr ∨ c.stop ≤ nextAddr ys ∨ nextAddr ys + 48 ≤ c.addr := by
  rcases nextAddr_cases ys with ⟨_, zero⟩ | ⟨d, rest, rfl, here⟩
  · exact .inl zero
  by_cases equal : d = c
  · exact .inr (.inl (equal ▸ here))
  · have := heap.apart_of_ne (b := d) (by simp) member equal
    unfold Block.Apart Block.stop at *
    omega

/-- A block is not its own successor. -/
theorem next_apart_self (heap : Heap own (xs ++ b :: ys) s) :
    nextAddr ys = 0 ∨ b.stop ≤ nextAddr ys ∨ nextAddr ys + 48 ≤ b.addr := by
  rcases nextAddr_cases ys with ⟨_, zero⟩ | ⟨d, rest, rfl, here⟩
  · exact .inl zero
  · have := heap.others_apart d (by simp)
    unfold Block.Apart Block.stop at *
    omega

/-- The blocks that take the place of a free block from which `size` bytes are
taken. -/
def taken (b : Block) (size : Nat) : List Block :=
  if b.size < size + 64 then [{ b with free := false }]
  else [⟨b.addr, size, false⟩, ⟨b.addr + 48 + size, b.size - size - 48, true⟩]

/-- Writes to headers and to free blocks are heap moves. -/
theorem moves (heap : Heap own blocks s)
    (same : ∀ x, (∀ b ∈ blocks, b.addr ≤ x → x < b.stop → b.addr + 48 ≤ x ∧ b.free = false) →
      s'.mem x = s.mem x)
    (globals : s' = { s with mem := s'.mem, heapHead := s'.heapHead, heapTail := s'.heapTail }) :
    HeapMoves own blocks s s' where
  bytes x outside := by
    refine same x fun b member low high => ?_
    rcases outside with foreign | ⟨c, memberC, used, lowC, highC⟩
    · exact absurd ((heap.cover x).mpr ⟨b, member, low, high⟩) foreign
    · by_cases equal : b = c
      · subst equal
        exact ⟨lowC, used⟩
      · have := heap.apart_of_ne member memberC equal
        unfold Block.Apart at this
        omega
  globals := globals

/-- The memory after `split_block` and the store that takes the block, when a
new block is made of what is left; `after` is the block that followed. -/
structure SplitMem (mem : Mem) (b : Block) (size after : Nat) (mem' : Mem) : Prop where
  outside : ∀ x, x < b.addr ∨ b.stop ≤ x → after = 0 ∨ x < after + 24 ∨ after + 24 + 8 ≤ x →
    mem' x = mem x
  prev : mem'.load (b.addr + 24) 8 = mem.load (b.addr + 24) 8
  next : mem'.load (b.addr + 32) 8 = b.addr + 48 + size
  header : Header mem' ⟨b.addr, size, false⟩
  newPrev : mem'.load (b.addr + 48 + size + 24) 8 = b.addr
  newNext : mem'.load (b.addr + 48 + size + 32) 8 = after
  newHeader : Header mem' ⟨b.addr + 48 + size, b.size - size - 48, true⟩
  afterPrev : after ≠ 0 → mem'.load (after + 24) 8 = b.addr + 48 + size

/-- The stores of `split_block`, and the one that takes the block. -/
theorem splitMem {mem : Mem} (size : Nat) {next : Nat} (low : 0 < b.addr) (high : b.stop < 2 ^ 64)
    (fits : size + 64 ≤ b.size) (nextFits : next < 2 ^ 64)
    (apart : next = 0 ∨ b.stop ≤ next ∨ next + 48 ≤ b.addr)
    (magic : mem.load (b.addr + 16) 8 = kmallocMagic) :
    SplitMem mem b size next
      ((((linkMem ((((((mem.store (b.addr + 48 + size) 8 (b.size - size - 48)).store
        (b.addr + 48 + size + 8) 8 1).store (b.addr + 48 + size + 16) 8 kmallocMagic).store
        (b.addr + 48 + size + 40) 8 0).store (b.addr + 48 + size + 24) 8 b.addr).store
        (b.addr + 48 + size + 32) 8 next) next 24 (b.addr + 48 + size)).store
        (b.addr + 32) 8 (b.addr + 48 + size)).store b.addr 8 size).store (b.addr + 8) 8 0) := by
  have magicFits : kmallocMagic < 256 ^ 8 := by decide
  unfold Block.stop at *
  constructor
  · unfold Block.stop
    intro x offBlock offNext
    simp (disch := omega) only [Mem.store_of_outside, linkMem_byte]
  · simp (disch := omega) only [Mem.load_store_of_disjoint, linkMem_load]
  · simp (disch := omega) only [Mem.load_store_of_disjoint, Mem.load_store_same]
  · constructor
    · simp (disch := omega) only [Mem.load_store_of_disjoint, Mem.load_store_same]
    · simp (disch := omega) only [Mem.load_store_same]
      rfl
    · simp (disch := omega) only [Mem.load_store_of_disjoint, linkMem_load, magic]
  · simp (disch := omega) only [Mem.load_store_of_disjoint, Mem.load_store_same, linkMem_load]
  · simp (disch := omega) only [Mem.load_store_of_disjoint, Mem.load_store_same, linkMem_load]
  · constructor <;>
      simp (disch := omega) only [Mem.load_store_of_disjoint, Mem.load_store_same, linkMem_load]
    rfl
  · intro inMemory
    simp (disch := omega) only [Mem.load_store_of_disjoint, linkMem_load_same inMemory]

/-- The other blocks keep their headers, and all links but the one back from
the next block. -/
theorem SplitMem.load_other {mem' : Mem} {size : Nat} (split : SplitMem s.mem b size (nextAddr ys) mem')
    (heap : Heap own (xs ++ b :: ys) s) (member : c ∈ xs ++ ys) {k : Nat} (inHeader : k + 8 ≤ 48)
    (notLink : c.addr = nextAddr ys → k + 8 ≤ 24 ∨ 24 + 8 ≤ k) :
    mem'.load (c.addr + k) 8 = s.mem.load (c.addr + k) 8 := by
  have apart := heap.others_apart c member
  have apart' := heap.next_apart (inner member)
  unfold Block.Apart Block.stop at *
  exact Mem.load_congr fun x low high => split.outside x (by unfold Block.stop; omega) (by omega)

/-- The list after a free block has been merged with the block behind it, where
that is free and adjacent. -/
def merged (b : Block) : List Block → List Block
  | [] => [b]
  | c :: ys =>
      if c.free = true ∧ b.stop = c.addr then { b with size := b.size + 48 + c.size } :: ys
      else b :: c :: ys

/-- The memory after `merge_with_next` has joined `c` to `b`; `after` is the
block that followed `c`. -/
structure MergeMem (mem : Mem) (b c : Block) (after : Nat) (mem' : Mem) : Prop where
  outside : ∀ x, x < b.addr ∨ b.addr + 48 ≤ x → after = 0 ∨ x < after + 24 ∨ after + 24 + 8 ≤ x →
    mem' x = mem x
  prev : mem'.load (b.addr + 24) 8 = mem.load (b.addr + 24) 8
  next : mem'.load (b.addr + 32) 8 = after
  header : Header mem' { b with size := b.size + 48 + c.size }
  afterPrev : after ≠ 0 → mem'.load (after + 24) 8 = b.addr

/-- The stores of `merge_with_next`. -/
theorem mergeMem (mem : Mem) (c : Block) (after : Nat) (fits : b.size + 48 + c.size < 2 ^ 64)
    (low : b.addr < 2 ^ 64) (afterFits : after < 2 ^ 64)
    (apart : after = 0 ∨ b.addr + 48 ≤ after ∨ after + 48 ≤ b.addr) (header : Header mem b) :
    MergeMem mem b c after
      (linkMem ((mem.store b.addr 8 (b.size + 48 + c.size)).store (b.addr + 32) 8 after)
        after 24 b.addr) := by
  obtain ⟨_, freeWord, magicWord⟩ := header
  constructor
  · intro x offBlock offNext
    simp (disch := omega) only [Mem.store_of_outside, linkMem_byte]
  · simp (disch := omega) only [Mem.load_store_of_disjoint, linkMem_load]
  · simp (disch := omega) only [Mem.load_store_same, linkMem_load]
  · constructor
    · simp (disch := omega) only [Mem.load_store_of_disjoint, Mem.load_store_same, linkMem_load]
    · simp (disch := omega) only [Mem.load_store_of_disjoint, linkMem_load, freeWord]
    · simp (disch := omega) only [Mem.load_store_of_disjoint, linkMem_load, magicWord]
  · intro inMemory
    exact linkMem_load_same inMemory low

/-- The blocks that stay keep all links but those at the seam. -/
theorem MergeMem.load_other {mem' : Mem} {after : Nat} (merge : MergeMem s.mem b c after mem')
    {d : Block} (apart : Block.Apart b d)
    (next : after = 0 ∨ after = d.addr ∨ d.stop ≤ after ∨ after + 48 ≤ d.addr)
    {k : Nat} (inHeader : k + 8 ≤ 48) (notLink : d.addr = after → k + 8 ≤ 24 ∨ 24 + 8 ≤ k) :
    mem'.load (d.addr + k) 8 = s.mem.load (d.addr + k) 8 := by
  unfold Block.Apart Block.stop at *
  exact Mem.load_congr fun x low high => merge.outside x (by omega) (by omega)

/-- The blocks around a pair of neighbours. -/
theorem pair_others (heap : Heap own (xs ++ b :: c :: ys) s) {d : Block} (member : d ∈ xs ++ ys) :
    Block.Apart b d ∧ d ∈ xs ++ b :: c :: ys ∧
      (nextAddr ys = 0 ∨ nextAddr ys = d.addr ∨ d.stop ≤ nextAddr ys ∨ nextAddr ys + 48 ≤ d.addr) := by
  have inside : d ∈ xs ++ c :: ys := inner member
  refine ⟨heap.others_apart d inside, inner inside, ?_⟩
  have shifted : Heap own ((xs ++ [b]) ++ c :: ys) s := by simpa using heap
  exact shifted.next_apart (inner (by simp only [List.mem_append] at member ⊢; tauto))

variable [Layout] {free : List Nat} {halt : Halt → Kernel → Prop}

/-- Marking a block as free or in use. -/
theorem mark (heap : Heap own (xs ++ b :: ys) s) (pool : Pool own free s) (f : Bool) :
    let s' := { s with mem := s.mem.store (b.addr + 8) 8 (if f then 1 else 0) }
    Heap own (xs ++ { b with free := f } :: ys) s' ∧ HeapMoves own (xs ++ b :: ys) s s' := by
  intro s'
  have bMem : b ∈ xs ++ b :: ys := by simp
  have bounds := heap.bounds pool bMem
  obtain ⟨sizeWord, _, magicWord⟩ := heap.header b bMem
  unfold Block.stop at bounds
  have links : ∀ a ∈ 0 :: (xs ++ b :: ys).map Block.addr,
      blockNext s' a = blockNext s a ∧ blockPrev s' a = blockPrev s a := by
    intro a member
    unfold blockNext blockPrev
    by_cases zero : a = 0
    · simp [zero, s']
    obtain ⟨c, memberC, rfl⟩ := List.mem_map.mp ((List.mem_cons.mp member).resolve_left zero)
    simp only [zero, if_false, s']
    by_cases equal : b = c
    · subst equal
      exact ⟨Mem.load_store_of_disjoint (by omega), Mem.load_store_of_disjoint (by omega)⟩
    · have away := heap.apart_of_ne bMem memberC equal
      unfold Block.Apart Block.stop at away
      exact ⟨Mem.load_store_of_disjoint (by omega), Mem.load_store_of_disjoint (by omega)⟩
  constructor
  · refine heap.replace xs [b] [{ b with free := f }] ys (by simp) (by simp) ?_
      (fun c member x low high => Mem.store_of_outside ?_) ?_ ?_ (by simp) ?_
    · have same := heap.cycle.congr (fun a member => (links a member).1)
        fun a member => (links a member).2
      simpa using same
    · have := heap.others_apart c member
      unfold Block.Apart Block.stop at this
      omega
    · simp only [List.mem_singleton, forall_eq]
      refine ⟨Eq.trans ?_ sizeWord, Mem.load_store_same (by split <;> decide),
        Eq.trans ?_ magicWord⟩
      · exact Mem.load_store_of_disjoint (by simp only; omega)
      · exact Mem.load_store_of_disjoint (by simp only; omega)
    · simpa using ⟨bounds.2.2.1, bounds.2.2.2⟩
    · simp [Block.stop]
  · refine heap.moves (fun x outside => Mem.store_of_outside ?_) rfl
    have := outside b bMem
    unfold Block.stop at this
    omega

namespace SplitMem

variable {mem' : Mem} {size : Nat}

/-- The links after a split. -/
theorem cycle (split : SplitMem s.mem b size (nextAddr ys) mem') (heap : Heap own (xs ++ b :: ys) s)
    (pool : Pool own free s) (fits : size + 64 ≤ b.size) :
    let s' := { s with
      mem := mem', heapTail := if nextAddr ys = 0 then b.addr + 48 + size else s.heapTail }
    Cycle (blockNext s') (blockPrev s') 0
      (xs.map Block.addr ++ b.addr :: (b.addr + 48 + size) :: ys.map Block.addr) := by
  intro s'
  have bounds := heap.bounds pool (b := b) (by simp)
  have nonzero : b.addr ≠ 0 := by omega
  have others : ∀ c ∈ xs ++ ys, c.addr ≠ 0 := fun c member => by
    have := heap.bounds pool (inner (b := b) member)
    omega
  refine Cycle.linkAfter (xs.map Block.addr) (ys.map Block.addr)
    (by simpa using heap.cycle) ?_ ⟨?_, ?_⟩ ⟨?_, ?_⟩ ?_ ?_
  · intro again
    rcases node_cases again with zero | equal | ⟨c, member, equal⟩
    · omega
    · omega
    · have apart := heap.others_apart c member
      unfold Block.Apart Block.stop at apart
      omega
  · rw [blockNext, if_neg nonzero]
    exact split.next
  · rw [blockPrev, if_neg (by omega)]
    exact split.newPrev
  · rw [blockNext, if_neg (by omega)]
    exact split.newNext
  · change blockPrev s' (nextAddr ys) = _
    by_cases zero : nextAddr ys = 0
    · rw [blockPrev, if_pos zero]
      exact if_pos zero
    · rw [blockPrev, if_neg zero]
      exact split.afterPrev zero
  · intro a member notBlock
    rcases node_cases member with rfl | equal | ⟨c, inside, rfl⟩
    · rfl
    · exact absurd equal notBlock
    · rw [blockNext, blockNext, if_neg (others c inside), if_neg (others c inside)]
      exact split.load_other heap inside (by omega) (by omega)
  · intro a member notNext
    have notNext : a ≠ nextAddr ys := notNext
    rcases node_cases member with rfl | rfl | ⟨c, inside, rfl⟩
    · exact if_neg notNext.symm
    · rw [blockPrev, blockPrev, if_neg nonzero, if_neg nonzero]
      exact split.prev
    · rw [blockPrev, blockPrev, if_neg (others c inside), if_neg (others c inside)]
      exact split.load_other heap inside (by omega) fun equal => absurd equal notNext

/-- The heap after a split. -/
theorem heap (split : SplitMem s.mem b size (nextAddr ys) mem') (heap : Heap own (xs ++ b :: ys) s)
    (pool : Pool own free s) (isFree : b.free = true) (multiple : size % 16 = 0)
    (fits : size + 64 ≤ b.size) :
    let s' := { s with
      mem := mem', heapTail := if nextAddr ys = 0 then b.addr + 48 + size else s.heapTail }
    Heap own (xs ++ [⟨b.addr, size, false⟩, ⟨b.addr + 48 + size, b.size - size - 48, true⟩] ++ ys) s' ∧
      HeapMoves own (xs ++ b :: ys) s s' := by
  intro s'
  have bMem : b ∈ xs ++ b :: ys := by simp
  have bounds := heap.bounds pool bMem
  have cycle := split.cycle heap pool fits
  constructor
  · refine heap.replace xs [b] _ ys (by simp) rfl (by simpa using cycle)
      (fun c member x low high => ?_) ?_ ?_ ?_ ?_
    · have apart := heap.others_apart c member
      have apart' := heap.next_apart (inner member)
      unfold Block.Apart Block.stop at *
      exact split.outside x (by unfold Block.stop; omega) (by omega)
    · simp only [List.mem_cons, List.not_mem_nil, or_false, forall_eq_or_imp, forall_eq]
      exact ⟨split.header, split.newHeader⟩
    · simp only [List.mem_cons, List.not_mem_nil, or_false, forall_eq_or_imp, forall_eq]
      omega
    · simp [Block.Apart, Block.stop]
    · intro x
      simp only [List.mem_cons, List.not_mem_nil, or_false, exists_eq_or_imp, exists_eq_left,
        Block.stop]
      omega
  · refine heap.moves (fun x unused => split.outside x ?_ ?_) rfl
    · have := unused b bMem
      simp only [isFree, Bool.true_eq_false, and_false, imp_false] at this
      omega
    · rcases nextAddr_cases ys with ⟨_, zero⟩ | ⟨d, rest, rfl, here⟩
      · exact .inl zero
      · have := unused d (by simp)
        unfold Block.stop at this
        omega

end SplitMem

/-- `split_block`, and the store that takes the block. -/
theorem take_spec (heap : Heap own (xs ++ b :: ys) s) (pool : Pool own free s)
    (isFree : b.free = true) {size : Nat} (multiple : size % 16 = 0) (fits : size ≤ b.size) :
    wp (splitBlock b.addr size) s (fun _ s' => wp (storeWord (b.addr + 8) 0) s' (fun _ s'' =>
      Heap own (xs ++ taken b size ++ ys) s'' ∧ HeapMoves own (xs ++ b :: ys) s s'') halt) halt := by
  have bMem : b ∈ xs ++ b :: ys := by simp
  have bounds := heap.bounds pool bMem
  obtain ⟨sizeWord, freeWord, magicWord⟩ := heap.header b bMem
  have stop : b.stop = b.addr + 48 + b.size := rfl
  have limit : wadd (wadd size blockSize) kmallocAlign = size + 64 := by
    unfold wadd
    simp only [blockSize, kmallocAlign]
    omega
  unfold splitBlock
  simp only [wp_bind, wp_loadWord, sizeWord, limit]
  split
  · next small =>
      simp only [wp_pure, wp_storeWord, taken, small, if_true]
      simpa using heap.mark pool false
  · next large =>
      have next := heap.around.2
      rw [blockNext, if_neg (by omega)] at next
      have newBlock : wadd (b.addr + blockSize) size = b.addr + 48 + size := by
        unfold wadd
        simp only [blockSize]
        omega
      have remaining : wsub (wsub b.size size) blockSize = b.size - size - 48 := by
        rw [wsub_of_le fits (by omega)]
        exact wsub_of_le (by simp only [blockSize]; omega) (by omega)
      simp only [newBlock, remaining, wp_bind, wp_storeWord, wp_loadWord, wp_setPrev]
      simp (disch := omega) only [Mem.load_store_of_disjoint, next]
      have split := splitMem size (by omega) (by omega) (by omega) (next ▸ s.mem.load_lt _ 8)
        heap.next_apart_self magicWord
      rw [taken, if_neg large]
      exact split.heap heap pool isFree multiple (by omega)

namespace MergeMem

variable {mem' : Mem}

/-- The links after a merge. -/
theorem cycle (merge : MergeMem s.mem b c (nextAddr ys) mem')
    (heap : Heap own (xs ++ b :: c :: ys) s) (pool : Pool own free s) :
    let s' := { s with
      mem := mem', heapTail := if nextAddr ys = 0 then b.addr else s.heapTail }
    Cycle (blockNext s') (blockPrev s') 0 (xs.map Block.addr ++ b.addr :: ys.map Block.addr) := by
  intro s'
  have bounds := heap.bounds pool (b := b) (by simp)
  have nonzero : b.addr ≠ 0 := by omega
  have nonzeros : ∀ d ∈ xs ++ ys, d.addr ≠ 0 := fun d member => by
    have := heap.bounds pool (pair_others heap member).2.1
    omega
  refine Cycle.unlinkAfter (a := c.addr) (xs.map Block.addr) (ys.map Block.addr)
    (by simpa using heap.cycle) ⟨?_, ?_⟩ ?_ ?_
  · rw [blockNext, if_neg nonzero]
    exact merge.next
  · change blockPrev s' (nextAddr ys) = _
    by_cases zero : nextAddr ys = 0
    · rw [blockPrev, if_pos zero]
      exact if_pos zero
    · rw [blockPrev, if_neg zero]
      exact merge.afterPrev zero
  · intro a member notBlock
    rcases node_cases member with rfl | equal | ⟨d, inside, rfl⟩
    · rfl
    · exact absurd equal notBlock
    · obtain ⟨apart, _, next⟩ := pair_others heap inside
      rw [blockNext, blockNext, if_neg (nonzeros d inside), if_neg (nonzeros d inside)]
      exact merge.load_other apart next (by omega) (by omega)
  · intro a member notNext
    have notNext : a ≠ nextAddr ys := notNext
    rcases node_cases member with rfl | rfl | ⟨d, inside, rfl⟩
    · exact if_neg notNext.symm
    · rw [blockPrev, blockPrev, if_neg nonzero, if_neg nonzero]
      exact merge.prev
    · obtain ⟨apart, _, next⟩ := pair_others heap inside
      rw [blockPrev, blockPrev, if_neg (nonzeros d inside), if_neg (nonzeros d inside)]
      exact merge.load_other apart next (by omega) fun equal => absurd equal notNext

/-- The heap after a merge. -/
theorem heap (merge : MergeMem s.mem b c (nextAddr ys) mem')
    (heap : Heap own (xs ++ b :: c :: ys) s) (pool : Pool own free s) (adjacent : b.stop = c.addr) :
    let s' := { s with
      mem := mem', heapTail := if nextAddr ys = 0 then b.addr else s.heapTail }
    Heap own (xs ++ { b with size := b.size + 48 + c.size } :: ys) s' ∧
      HeapMoves own (xs ++ b :: c :: ys) s s' := by
  intro s'
  have bMem : b ∈ xs ++ b :: c :: ys := by simp
  have bounds := heap.bounds pool bMem
  have boundsC := heap.bounds pool (b := c) (by simp)
  have cycle := merge.cycle heap pool
  constructor
  · refine heap.replace xs [b, c] [{ b with size := b.size + 48 + c.size }] ys (by simp) (by simp)
      (by simpa using cycle) (fun d member x low high => ?_) ?_ ?_ (by simp) fun x => ?_
    · obtain ⟨apart, _, next⟩ := pair_others heap member
      unfold Block.Apart Block.stop at *
      exact merge.outside x (by omega) (by omega)
    · simpa using merge.header
    · simp only [List.mem_singleton, forall_eq]
      omega
    · simp only [List.mem_cons, List.not_mem_nil, or_false, exists_eq_or_imp, exists_eq_left,
        Block.stop] at *
      omega
  · refine heap.moves (fun x unused => merge.outside x ?_ ?_) rfl
    · have := unused b bMem
      unfold Block.stop at this
      omega
    · rcases nextAddr_cases ys with ⟨_, zero⟩ | ⟨d, rest, rfl, here⟩
      · exact .inl zero
      · have := unused d (by simp)
        unfold Block.stop at this
        omega

end MergeMem

/-- `merge_with_next`. -/
theorem merge_spec (heap : Heap own (xs ++ b :: ys) s) (pool : Pool own free s) :
    wp (mergeWithNext b.addr) s (fun _ s' =>
      Heap own (xs ++ merged b ys) s' ∧ HeapMoves own (xs ++ b :: ys) s s') halt := by
  have bMem : b ∈ xs ++ b :: ys := by simp
  have bounds := heap.bounds pool bMem
  have header := heap.header b bMem
  have next := heap.around.2
  rw [blockNext, if_neg (by omega)] at next
  unfold mergeWithNext
  simp only [wp_bind, wp_loadWord, next]
  cases ys with
  | nil =>
      have none : nextAddr [] = 0 := rfl
      simp only [none, if_true, wp_pure, merged]
      exact ⟨heap, .refl⟩
  | cons c ys =>
      have boundsC := heap.bounds pool (b := c) (by simp)
      have headerC := heap.header c (by simp)
      have some : nextAddr (c :: ys) = c.addr := rfl
      have nonzero : c.addr ≠ 0 := by omega
      have stop : wadd (b.addr + blockSize) b.size = b.stop := by
        unfold wadd
        unfold Block.stop at *
        simp only [blockSize]
        omega
      simp only [some, nonzero, if_false, wp_bind, blockAdjacent, wp_loadWord, wp_pure, header.size,
        stop, headerC.free]
      have condition : ((if c.free = true then 1 else 0) = 0 ∨ (b.stop == c.addr) = false) ↔
          ¬ (c.free = true ∧ b.stop = c.addr) := by
        cases c.free <;> simp
      by_cases both : c.free = true ∧ b.stop = c.addr
      · rw [if_neg fun skip => condition.mp skip both]
        have shifted : Heap own ((xs ++ [b]) ++ c :: ys) s := by simpa using heap
        have after := shifted.around.2
        rw [blockNext, if_neg nonzero] at after
        have apart := shifted.next_apart_self
        have apart' := shifted.next_apart (c := b) (by simp)
        have distinct : nextAddr ys ≠ b.addr := by
          rcases nextAddr_cases ys with ⟨_, zero⟩ | ⟨d, rest, rfl, here⟩
          · omega
          · have := heap.others_apart d (by simp)
            unfold Block.Apart Block.stop at this
            omega
        have adjacent := both.2
        unfold Block.stop at bounds boundsC apart apart' adjacent
        have total : wadd b.size (wadd blockSize c.size) = b.size + 48 + c.size := by
          unfold wadd
          simp only [blockSize]
          omega
        have reread : (s.mem.store b.addr 8 (b.size + 48 + c.size)).load (c.addr + 32) 8 =
            nextAddr ys := by
          rw [Mem.load_store_of_disjoint (by omega), after]
        simp only [wp_bind, wp_loadWord, header.size, headerC.size, total, wp_storeWord, reread,
          wp_setPrev]
        have merge := mergeMem s.mem c (nextAddr ys) (by omega) (by omega)
          (after ▸ s.mem.load_lt _ 8) (by omega) header
        rw [merged, if_pos both]
        exact merge.heap heap pool both.2
      · rw [if_pos (condition.mpr both), wp_pure, merged, if_neg both]
        exact ⟨heap, .refl⟩

end Heap

end KuroOS
