import KuroOS.Memory.Kmalloc
import KuroOS.Memory.PageUse

/-!
# The heap over whole runs

`HeapRun` is a run of `kmalloc` and `kfree` calls in which the callers write in
their payloads and the rest of the kernel takes and returns pages.
`HeapSound` is what can be read off memory after any of its steps.
-/

namespace KuroOS

open Base

/-- The words of a block in memory. -/
def blockBytes (mem : Mem) (b : Nat) : Nat := mem.load b 8
def blockFree (mem : Mem) (b : Nat) : Nat := mem.load (b + 8) 8
def blockMagic (mem : Mem) (b : Nat) : Nat := mem.load (b + 16) 8

/-- The list of blocks as memory holds it: its two end pointers, its links both
ways and the headers. -/
structure HeapList (blocks : List Block) (s : Kernel) : Prop where
  forward : Follows (fun b => s.mem.load (b + 32) 8) 0 s.heapHead (blocks.map Block.addr)
  backward : Follows (fun b => s.mem.load (b + 24) 8) 0 s.heapTail (blocks.map Block.addr).reverse
  header : ∀ b ∈ blocks, Header s.mem b

theorem Heap.list {own : Nat → Owner} {blocks : List Block} {s : Kernel} (heap : Heap own blocks s) : HeapList blocks s := by
  have nonzero : ∀ a ∈ blocks.map Block.addr, a ≠ 0 := fun a member zero =>
    (List.nodup_cons.mp heap.cycle.nodup).1 (zero ▸ member)
  refine ⟨?_, ?_, heap.header⟩
  · refine heap.cycle.follows.congr fun a member => ?_
    rw [blockNext, if_neg (nonzero a member)]
  · refine heap.cycle.reverse.follows.congr fun a member => ?_
    rw [blockPrev, if_neg (nonzero a (List.mem_reverse.mp member))]

/-- Memory holds one list of blocks. -/
theorem HeapList.unique {blocks blocks' : List Block} {s : Kernel} (list : HeapList blocks s)
    (list' : HeapList blocks' s) : blocks = blocks' := by
  have addrs := list.forward.unique list'.forward
  have headers := list.header
  have headers' := list'.header
  clear list list'
  induction blocks generalizing blocks' with
  | nil =>
      cases blocks' with
      | nil => rfl
      | cons b' rest' => simp at addrs
  | cons b rest ih =>
      cases blocks' with
      | nil => simp at addrs
      | cons b' rest' =>
          obtain ⟨addr, tail⟩ := List.cons.inj addrs
          have same : b = b' := by
            have first := headers b (by simp)
            have second := headers' b' (by simp)
            obtain ⟨a, n, f⟩ := b
            obtain ⟨a', n', f'⟩ := b'
            obtain rfl : a = a' := addr
            have size := first.size.symm.trans second.size
            have free := first.free.symm.trans second.free
            cases f <;> cases f' <;> simp_all
          rw [same, ih tail (fun c member => headers c (by simp [member])) fun c member => headers' c (by simp [member])]

/-- The heap is well formed: `live` are the pointers handed out and not freed,
`taken` the pages the heap has. -/
structure HeapSound (live : List Nat) (taken : Set Nat) (blocks : List Nat) (s : Kernel) : Prop where
  forward : Follows (fun b => s.mem.load (b + 32) 8) 0 s.heapHead blocks
  backward : Follows (fun b => s.mem.load (b + 24) 8) 0 s.heapTail blocks.reverse
  magic : ∀ b ∈ blocks, blockMagic s.mem b = kmallocMagic
  size : ∀ b ∈ blocks, blockBytes s.mem b % kmallocAlign = 0
  apart : blocks.Pairwise fun b c => b + blockSize + blockBytes s.mem b ≤ c ∨
    c + blockSize + blockBytes s.mem c ≤ b
  tiled : ∀ x, (∃ b ∈ blocks, b ≤ x ∧ x < b + blockSize + blockBytes s.mem b) ↔
    ∃ p ∈ taken, p ≤ x ∧ x < p + pageSize
  distinct : live.Nodup
  owned : ∀ p ∈ live, p % kmallocAlign = 0 ∧
    ∃ b ∈ blocks, p = b + blockSize ∧ blockFree s.mem b = 0
  coalesced : blocks.IsChain fun b c => ¬ (blockFree s.mem b ≠ 0 ∧ blockFree s.mem c ≠ 0 ∧
    b + blockSize + blockBytes s.mem b = c)

section

variable [Layout]

/-- Runs of the heap: the live pointers, the pages other code holds, the pages
the heap has taken off the free list. -/
inductive HeapRun : List Nat → List Nat → Set Nat → Kernel → Prop where
  | start {s₀ s : Kernel} (emptyHead : s₀.heapHead = 0) (emptyTail : s₀.heapTail = 0)
      (init : pageInit s₀ = .ok () s) : HeapRun [] [] ∅ s
  | kmalloc {live held : List Nat} {taken : Set Nat} {s s' : Kernel} {size p : Nat}
      (before : HeapRun live held taken s) (returned : kmalloc size s = .ok p s') :
      HeapRun (if p = 0 then live else p :: live) held (taken ∪ (freePages s \ freePages s')) s'
  | kfree {live held : List Nat} {taken : Set Nat} {s s' : Kernel} {p : Nat}
      (before : HeapRun live held taken s) (isLive : p ∈ live) (returned : kfree p s = .ok () s') :
      HeapRun (live.erase p) held taken s'
  | write {live held : List Nat} {taken : Set Nat} {s : Kernel} {p x : Nat} {value : UInt8}
      (before : HeapRun live held taken s) (isLive : p ∈ live)
      (inside : p ≤ x ∧ x < p + blockBytes s.mem (p - blockSize)) :
      HeapRun live held taken { s with mem := Function.update s.mem x value }
  | other {live held held' : List Nat} {taken : Set Nat} {s s' : Kernel}
      (before : HeapRun live held taken s) (change : PageStep held s held' s') :
      HeapRun live held' taken s'

/-- The invariant of `HeapRun`. -/
structure HeapRunInv (live held : List Nat) (taken : Set Nat) (own : Nat → Owner) (free : List Nat)
    (blocks : List Block) (s : Kernel) : Prop where
  state : HeapState own free blocks s
  holds : HeldPages own free held s
  live_perm : live.Perm ((usedBlocks blocks).map Block.payload)
  taken_iff : ∀ p, p ∈ taken ↔ own p = .heap

variable {own : Nat → Owner} {free live held : List Nat} {blocks : List Block} {taken : Set Nat}
  {s s' : Kernel} {halt : Halt → Kernel → Prop}

namespace HeapRunInv

/-- A live pointer is the payload of a block in use. -/
theorem live_block (inv : HeapRunInv live held taken own free blocks s) {p : Nat} (isLive : p ∈ live) :
    ∃ b ∈ blocks, b.free = false ∧ p = b.payload := by
  obtain ⟨b, member, rfl⟩ := List.mem_map.mp (inv.live_perm.mem_iff.mp isLive)
  obtain ⟨inside, used⟩ := mem_usedBlocks.mp member
  exact ⟨b, inside, used, rfl⟩

/-- `kmalloc` keeps the invariant. -/
theorem kmalloc_step (inv : HeapRunInv live held taken own free blocks s) (size : Nat) :
    wp (kmalloc size) s (fun p s' => ∃ own' free' blocks',
      HeapRunInv (if p = 0 then live else p :: live) held (taken ∪ (freePages s \ freePages s'))
        own' free' blocks' s') halt := by
  refine wp_mono (kmalloc_spec inv.state) ?_ fun _ _ => id
  rintro p s' ⟨own', free', blocks', state', moves, _, outcome⟩
  refine ⟨own', free', blocks', state', ⟨state'.pool, inv.holds.distinct, fun q member => ?_⟩, ?_,
    fun q => ?_⟩
  · rcases moves.owner q with same | ⟨wasFree, _⟩
    · rw [same]
      exact inv.holds.owned q member
    · simp [inv.holds.owned q member] at wasFree
  · rcases outcome with ⟨rfl, same, _⟩ | ⟨b, rfl, _, _, perm⟩
    · rw [if_pos rfl, same]
      exact inv.live_perm
    · rw [if_neg (by omega)]
      exact (inv.live_perm.cons b.payload).trans (perm.map Block.payload).symm
  · rw [Set.mem_union, Set.mem_sdiff, inv.taken_iff, inv.state.pool.mem_freePages,
      state'.pool.mem_freePages]
    rcases moves.owner q with same | ⟨wasFree, isHeap⟩
    · rw [same]
      tauto
    · simp [wasFree, isHeap]

/-- The addresses of the blocks are distinct. -/
theorem distinct (inv : HeapRunInv live held taken own free blocks s) : (blocks.map Block.addr).Nodup :=
  (List.nodup_cons.mp inv.state.heap.cycle.nodup).2

/-- `kfree` of a live pointer marks its block free and coalesces the list. -/
theorem kfree_exact (inv : HeapRunInv live held taken own free blocks s) {p : Nat} (isLive : p ∈ live) :
    wp (kfree p) s (fun _ s' => HeapRunInv (live.erase p) held taken own free
      (coalesce (markFree [p - blockSize] blocks)) s') halt := by
  obtain ⟨b, member, used, rfl⟩ := inv.live_block isLive
  obtain ⟨xs, ys, rfl⟩ := List.append_of_mem member
  have here : b.payload - blockSize = b.addr := Nat.add_sub_cancel b.addr 48
  rw [here, markFree_split inv.distinct]
  refine wp_mono (kfree_coalesce inv.state.heap inv.state.pool inv.state.coalesced used) ?_ fun _ _ => id
  rintro _ s' ⟨heap', moves⟩
  have pool' := moves.pool inv.state.pool
  refine ⟨⟨pool', heap', coalesced_coalesce _⟩, ⟨pool', inv.holds.distinct, inv.holds.owned⟩, ?_,
    inv.taken_iff⟩
  rw [usedBlocks_coalesce, usedBlocks_append, usedBlocks_cons_free rfl]
  have before := inv.live_perm
  rw [usedBlocks_append, usedBlocks_cons_used used] at before
  have front := (before.trans (List.perm_middle.map Block.payload)).erase b.payload
  rwa [List.map_cons, List.erase_cons_head] at front

/-- `kfree` of a live pointer keeps the invariant. -/
theorem kfree_step (inv : HeapRunInv live held taken own free blocks s) {p : Nat} (isLive : p ∈ live) :
    wp (kfree p) s (fun _ s' => ∃ blocks',
      HeapRunInv (live.erase p) held taken own free blocks' s') halt :=
  wp_mono (inv.kfree_exact isLive) (fun _ _ after => ⟨_, after⟩) fun _ _ => id

/-- Writing in a live payload keeps the invariant. -/
theorem write_step (inv : HeapRunInv live held taken own free blocks s) {p x : Nat} (isLive : p ∈ live)
    (inside : p ≤ x ∧ x < p + blockBytes s.mem (p - blockSize)) (value : UInt8) :
    HeapRunInv live held taken own free blocks
      { s with mem := Function.update s.mem x value } := by
  obtain ⟨b, member, used, rfl⟩ := inv.live_block isLive
  have here : b.payload - blockSize = b.addr := Nat.add_sub_cancel b.addr 48
  rw [here, blockBytes, (inv.state.heap.header b member).size] at inside
  unfold Block.payload at inside
  have inHeap : own (pageOf x) = .heap :=
    (inv.state.heap.cover x).mpr ⟨b, member, by omega, by unfold Block.stop; omega⟩
  have elsewhere : ∀ y, y ≠ x → Function.update s.mem x value y = s.mem y :=
    fun y other => Function.update_of_ne other _ _
  have pool : Pool own free { s with mem := Function.update s.mem x value } := by
    refine inv.state.pool.congr (fun y inPool => elsewhere y ?_) rfl
    rintro rfl
    rcases inPool with isFree | isHead
    · simp [inHeap] at isFree
    · exact inv.state.pool.not_head (by simp [inHeap]) isHead
  refine ⟨⟨pool, inv.state.heap.congr (fun c memberC y low high => elsewhere y ?_) rfl rfl
    fun _ => Iff.rfl, inv.state.coalesced⟩, ⟨pool, inv.holds.distinct, inv.holds.owned⟩,
    inv.live_perm, inv.taken_iff⟩
  -- a header is not in the payload of a block in use
  by_cases equal : b = c
  · subst equal
    omega
  · have := inv.state.heap.apart_of_ne member memberC equal
    unfold Block.Apart Block.stop at this
    omega

/-- What other code does with its pages keeps the invariant. -/
theorem other_step (inv : HeapRunInv live held taken own free blocks s) {held' : List Nat}
    (change : PageStep held s held' s') : ∃ own' free',
    HeapRunInv live held' taken own' free' blocks s' := by
  obtain ⟨own', free', holds', moves⟩ := inv.holds.step change
  have pages : ∀ q, own' q = .heap ↔ own q = .heap := moves.moves.own_iff (by simp)
  refine ⟨own', free', ⟨holds'.pool, inv.state.heap.congr (fun b member x low high => ?_) ?_ ?_ pages,
    inv.state.coalesced⟩, holds', inv.live_perm, fun q => (inv.taken_iff q).trans (pages q).symm⟩
  · have inHeap : own (pageOf x) = .heap :=
      (inv.state.heap.cover x).mpr ⟨b, member, low, by unfold Block.stop; omega⟩
    exact moves.moves.bytes x (by simp [inHeap]) (inv.state.pool.not_head (by simp [inHeap]))
  · rw [moves.globals]
  · rw [moves.globals]

end HeapRunInv

/-- After `page_init` the heap is empty and every page of the pool is free. -/
theorem pageInit_heapState (emptyHead : s.heapHead = 0) (emptyTail : s.heapTail = 0) :
    wp pageInit s (fun _ s' => ∃ free, HeapState startOwner free [] s' ∧
      free.length = (0x88000000 - Layout.kernelEnd) / 4096 ∧ InitMoves s s' ∧ s'.nrTotalPages = free.length) halt := by
  refine wp_mono pageInit_spec ?_ fun _ _ => id
  rintro _ s' ⟨free, pool, count, moves, total⟩
  have noHeap : ∀ q, startOwner q ≠ .heap := fun q => by
    rcases startOwner_or q with here | here <;> simp [here]
  refine ⟨free, ⟨pool, ⟨Cycle.nil_iff.mpr ⟨?_, ?_⟩, by simp, by simp, .nil, fun x => by simp [noHeap]⟩, .nil⟩,
    count, moves, total⟩
  · rw [moves.globals]
    exact emptyHead
  · rw [moves.globals]
    exact emptyTail

/-- Every state of a run has the invariant. -/
theorem HeapRun.inv (run : HeapRun live held taken s) :
    ∃ own free blocks, HeapRunInv live held taken own free blocks s := by
  induction run with
  | start emptyHead emptyTail init =>
      obtain ⟨free, state, _⟩ := wp_returned (pageInit_heapState emptyHead emptyTail) init
      have noHeap : ∀ q, startOwner q ≠ .heap := fun q => by
        rcases startOwner_or q with here | here <;> simp [here]
      exact ⟨startOwner, free, [], state, ⟨state.pool, List.nodup_nil, by simp⟩, .nil, by simp [noHeap]⟩
  | kmalloc before returned ih =>
      obtain ⟨own, free, blocks, inv⟩ := ih
      exact wp_returned (inv.kmalloc_step _) returned
  | kfree before isLive returned ih =>
      obtain ⟨own, free, blocks, inv⟩ := ih
      obtain ⟨blocks', inv'⟩ := wp_returned (inv.kfree_step isLive) returned
      exact ⟨own, free, blocks', inv'⟩
  | write before isLive inside ih =>
      obtain ⟨own, free, blocks, inv⟩ := ih
      exact ⟨own, free, blocks, inv.write_step isLive inside _⟩
  | other before change ih =>
      obtain ⟨own, free, blocks, inv⟩ := ih
      obtain ⟨own', free', inv'⟩ := inv.other_step change
      exact ⟨own', free', blocks, inv'⟩

/-- The invariant is visible in memory. -/
theorem HeapRunInv.sound (inv : HeapRunInv live held taken own free blocks s) :
    HeapSound live taken (blocks.map Block.addr) s := by
  obtain ⟨pool, heap, coalesced⟩ := inv.state
  have words : ∀ b ∈ blocks, blockBytes s.mem b.addr = b.size ∧
      (blockFree s.mem b.addr = 0 ↔ b.free = false) ∧ blockMagic s.mem b.addr = kmallocMagic := by
    intro b member
    obtain ⟨size, free, magic⟩ := heap.header b member
    refine ⟨size, ?_, magic⟩
    unfold blockFree
    rw [free]
    cases b.free <;> simp
  refine ⟨heap.list.forward, heap.list.backward, ?_, ?_, ?_, fun x => ?_, ?_, fun p isLive => ?_, ?_⟩
  · exact List.forall_mem_map.mpr fun b member => (words b member).2.2
  · refine List.forall_mem_map.mpr fun b member => ?_
    rw [(words b member).1]
    exact (heap.aligned b member).2
  · refine List.pairwise_map.mpr (heap.apart.imp_of_mem fun member member' apart => ?_)
    rw [(words _ member).1, (words _ member').1]
    exact apart
  · have tiles : (∃ b ∈ blocks.map Block.addr, b ≤ x ∧ x < b + blockSize + blockBytes s.mem b) ↔
        ∃ b ∈ blocks, b.addr ≤ x ∧ x < b.stop := by
      constructor
      · rintro ⟨_, mapped, inside⟩
        obtain ⟨b, member, rfl⟩ := List.mem_map.mp mapped
        rw [(words b member).1] at inside
        exact ⟨b, member, inside⟩
      · rintro ⟨b, member, inside⟩
        refine ⟨b.addr, List.mem_map_of_mem member, ?_⟩
        rw [(words b member).1]
        exact inside
    rw [tiles, ← heap.cover x]
    constructor
    · intro inHeap
      refine ⟨pageOf x, (inv.taken_iff _).mpr inHeap, ?_⟩
      unfold pageOf
      simp only [pageSize]
      omega
    · rintro ⟨p, member, low, high⟩
      have here := (inv.taken_iff p).mp member
      have page := (pool.pages p (by simp [here])).bounds
      rwa [pageOf_of_mem page.1 low high]
  · refine inv.live_perm.nodup_iff.mpr (List.Nodup.map_on ?_ ?_)
    · intro b member c member' equal
      exact heap.eq_of_addr (mem_usedBlocks.mp member).1 (mem_usedBlocks.mp member').1
        (Nat.add_right_cancel equal)
    · have distinct := (List.nodup_cons.mp heap.cycle.nodup).2
      exact List.Nodup.filter _ (List.Nodup.of_map _ distinct)
  · obtain ⟨b, member, used, rfl⟩ := inv.live_block isLive
    refine ⟨?_, b.addr, List.mem_map_of_mem member, rfl, (words b member).2.1.mpr used⟩
    have := (heap.aligned b member).1
    unfold Block.payload
    simp only [kmallocAlign]
    omega
  · refine (List.isChain_map Block.addr).mpr (coalesced.imp_of_mem_imp fun b c member member' apart => ?_)
    rw [(words b member).1, ne_eq, ne_eq, (words b member).2.1, (words c member').2.1]
    simpa [Block.stop] using apart

/-- After any run of the heap, memory holds a well-formed heap, and the next
call of `kmalloc` or of `kfree` on a live pointer returns. -/
theorem heap_sound (run : HeapRun live held taken s) :
    (∃ blocks, HeapSound live taken blocks s) ∧
      (∀ size, ∃ p s', kmalloc size s = .ok p s') ∧
      ∀ p ∈ live, ∃ s', kfree p s = .ok () s' := by
  obtain ⟨own, free, blocks, inv⟩ := run.inv
  refine ⟨⟨_, inv.sound⟩, fun size => ?_, fun p isLive => ?_⟩
  · obtain ⟨p, s', returned, _⟩ := wp_total (inv.kmalloc_step size)
    exact ⟨p, s', returned⟩
  · obtain ⟨_, s', returned, _⟩ := wp_total (inv.kfree_step isLive)
    exact ⟨s', returned⟩

end

section

attribute [local instance] Layout.sample

/-- The heap of a run with a live pointer. -/
theorem heap_sound_sample : ∃ p taken s blocks, p ≠ 0 ∧ HeapSound [p] taken blocks s := by
  obtain ⟨_, s₁, init, free, pool, count, _⟩ := wp_total (pageInit_spec (s := .blank))
  have start : HeapRun [] [] ∅ s₁ := .start rfl rfl init
  have many : free.length = 31744 := by
    rw [count]
    rfl
  obtain ⟨own, free', blocks, inv⟩ := start.inv
  obtain rfl : free' = free := inv.state.pool.ring.cycle.unique pool.ring.cycle
  obtain ⟨p, s₂, returned, _, _, _, _, _, _, outcome⟩ := wp_total
    (kmalloc_spec inv.state (n := 24))
  have nonzero : p ≠ 0 := by
    rcases outcome with ⟨_, _, refused | empty⟩ | ⟨b, rfl, _⟩
    · exact absurd refused (by decide)
    · simp [empty] at many
    · omega
  have run := HeapRun.kmalloc start returned
  rw [if_neg nonzero] at run
  obtain ⟨⟨blocks', sound⟩, _⟩ := heap_sound run
  exact ⟨p, _, s₂, blocks', nonzero, sound⟩

end

end KuroOS
