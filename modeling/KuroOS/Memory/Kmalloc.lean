import KuroOS.Memory.Coalesce

/-!
# `kmalloc` and `kfree` keep the heap

The list of blocks stays coalesced from call to call. Within `kmalloc` it may
not be: `heap_grow` appends a free block to a free block without merging them.
The search that follows takes the new block, since no older one was large
enough, and so separates the two.
-/

namespace KuroOS

open Base

variable {own : Nat → Owner} {blocks xs ys : List Block} {b c : Block} {s s' : Kernel}

/-- What taking a free block adds to the blocks in use. -/
theorem usedBlocks_taken {size : Nat} (fits : size ≤ b.size) : ∃ b', b'.addr = b.addr ∧
    b'.free = false ∧ size ≤ b'.size ∧ b'.size ≤ b.size ∧ usedBlocks (Heap.taken b size) = [b'] := by
  unfold Heap.taken
  split
  · exact ⟨{ b with free := false }, rfl, rfl, fits, Nat.le_refl _, rfl⟩
  · exact ⟨⟨b.addr, size, false⟩, rfl, rfl, Nat.le_refl _, fits, rfl⟩

theorem HeapMoves.mono (moves : HeapMoves own ys s s') (sub : ∀ b ∈ usedBlocks xs, b ∈ usedBlocks ys) :
    HeapMoves own xs s s' :=
  ⟨fun x outside => moves.bytes x (outside.imp id (@payloads_mono _ _ sub x)), moves.globals⟩

section

variable [Layout] {free : List Nat} {halt : Halt → Kernel → Prop}

/-- Heap moves keep the page pool. -/
theorem HeapMoves.pool (moves : HeapMoves own blocks s s') (pool : Pool own free s) :
    Pool own free s' := by
  refine pool.congr (fun x inside => moves.bytes x (.inl ?_)) ?_
  · intro inHeap
    rcases inside with isFree | isHead
    · simp [inHeap] at isFree
    · exact pool.not_head (by simp [inHeap]) isHead
  · rw [moves.globals]

/-- `kfree` of a block in use marks it free and joins it with its neighbours. -/
theorem kfree_coalesce (heap : Heap own (xs ++ b :: ys) s) (pool : Pool own free s)
    (coalesced : Coalesced (xs ++ b :: ys)) (used : b.free = false) :
    wp (kfree (b.addr + 48)) s (fun _ s' => Heap own (coalesce (xs ++ { b with free := true } :: ys)) s' ∧
      HeapMoves own (xs ++ ys) s s') halt := by
  have bMem : b ∈ xs ++ b :: ys := by simp
  have bounds := heap.bounds pool bMem
  have header := heap.header b bMem
  have isUsed : s.mem.load (b.addr + 8) 8 = 0 := by simpa [used] using header.free
  have nonzero : b.addr + 48 ≠ 0 := by omega
  -- the block is free from here on, so only the other payloads are kept
  obtain ⟨marked, markMoves⟩ := heap.mark pool true
  have rest : Coalesced ys := (Coalesced.append_iff.mp coalesced).2.1.tail
  have pool₁ := markMoves.pool pool
  have moves₁ : HeapMoves own (xs ++ ys) s _ := markMoves.mono fun c member => by
    rw [usedBlocks_append, List.mem_append] at member ⊢
    rw [usedBlocks_cons_used used]
    exact member.imp id (List.mem_cons_of_mem b)
  have usedMarked : usedBlocks (xs ++ { b with free := true } :: ys) = usedBlocks (xs ++ ys) := by
    rw [usedBlocks_append, usedBlocks_cons_free rfl, usedBlocks_append]
  have usedMerged : usedBlocks (xs ++ Heap.merged { b with free := true } ys) = usedBlocks (xs ++ ys) := by
    rw [usedBlocks_append, usedBlocks_merged rfl, usedBlocks_append]
  have coalescedMerged := Coalesced.merged { b with free := true } rest
  obtain ⟨b', ys', shape, sameAddr, sameFree⟩ := merged_head { b with free := true } ys
  have suffix : coalesce ({ b with free := true } :: ys) = b' :: ys' := by
    rw [coalesce_cons_free rfl, rest.coalesce_eq, shape]
  unfold kfree
  simp only [nonzero, if_false, Nat.add_sub_cancel, wp_bind, wp_loadWord, header.magic, wp_kassert,
    if_true, isUsed, wp_storeWord]
  refine wp_mono (marked.merge_spec pool₁) ?_ fun _ _ => id
  rintro _ s₂ ⟨heap₂, moves₂⟩
  have pool₂ := moves₂.pool pool₁
  have moves : HeapMoves own (xs ++ ys) s s₂ :=
    moves₁.trans (fun _ => id) (moves₂.mono fun c member => usedMarked ▸ member)
  rw [shape] at heap₂ usedMerged coalescedMerged
  have back := heap₂.around.1
  have sameAddr : b'.addr = b.addr := sameAddr
  have nonzero' : b'.addr ≠ 0 := by omega
  rw [blockPrev, if_neg nonzero', sameAddr] at back
  simp only [back]
  rcases Heap.prevAddr_cases xs with ⟨rfl, zero⟩ | ⟨xs', a, rfl, here⟩
  · simp only [zero, if_true, wp_pure]
    rw [List.nil_append, suffix]
    exact ⟨heap₂, moves⟩
  have heap₃ : Heap own (xs' ++ a :: (b' :: ys')) s₂ := by simpa using heap₂
  have boundsA := heap₃.bounds pool₂ (b := a) (by simp)
  have inMemory : a.addr ≠ 0 := by omega
  have headerA := heap₃.header a (by simp)
  simp only [here, inMemory, if_false, wp_bind, wp_loadWord, headerA.free, wp_ite, wp_pure]
  have firstPart : Coalesced (xs' ++ a :: []) := by
    have whole : Coalesced ((xs' ++ [a]) ++ (b :: ys)) := by simpa using coalesced
    exact (Coalesced.append_iff.mp whole).1
  have regroup : xs' ++ [a] ++ { b with free := true } :: ys = xs' ++ (a :: { b with free := true } :: ys) := by
    simp
  by_cases aFree : a.free = true
  · simp only [aFree, if_true, Nat.one_ne_zero, if_false]
    refine wp_mono (heap₃.merge_spec pool₂) ?_ fun _ _ => id
    rintro _ s₃ ⟨heap₄, moves₄⟩
    have suffix' : coalesce (a :: { b with free := true } :: ys) = Heap.merged a (b' :: ys') := by
      rw [coalesce_cons_free aFree, suffix]
    have whole : Coalesced (xs' ++ coalesce (a :: { b with free := true } :: ys)) := by
      rw [suffix']
      refine firstPart.append_of_head (Coalesced.merged a coalescedMerged) fun c' member isFree' => ?_
      obtain ⟨a', rest', shapeA, addrA, freeA⟩ := merged_head a (b' :: ys')
      rw [shapeA] at member
      simp only [List.head?_cons, Option.mem_some] at member
      subst member
      exact ⟨a, rfl, aFree, addrA.symm⟩
    refine ⟨?_, moves.trans (fun _ => id) (moves₄.mono fun c member => ?_)⟩
    · rw [regroup, whole.coalesce_append, suffix']
      exact heap₄
    · rw [← usedMerged] at member
      simpa using member
  · have aUsed : a.free = false := by simpa using aFree
    simp only [aFree, Bool.false_eq_true, if_false, if_true]
    have suffix' : coalesce (a :: { b with free := true } :: ys) = a :: b' :: ys' := by
      rw [coalesce_cons_used aUsed, suffix]
    have whole : Coalesced (xs' ++ coalesce (a :: { b with free := true } :: ys)) := by
      rw [suffix']
      refine firstPart.append_of_head (coalescedMerged.cons_used aUsed) fun c' member isFree' => ?_
      simp only [List.head?_cons, Option.mem_some] at member
      subst member
      exact absurd isFree' aFree
    refine ⟨?_, moves⟩
    rw [regroup, whole.coalesce_append, suffix']
    exact heap₃

/-- `kfree` of a block in use. Between neighbours in use it only marks the block. -/
theorem kfree_blocks (heap : Heap own (xs ++ b :: ys) s) (pool : Pool own free s)
    (coalesced : Coalesced (xs ++ b :: ys)) (used : b.free = false) :
    wp (kfree (b.addr + 48)) s (fun _ s' => ∃ blocks', Heap own blocks' s' ∧ Coalesced blocks' ∧
      usedBlocks blocks' = usedBlocks (xs ++ ys) ∧ HeapMoves own (xs ++ ys) s s' ∧
      ((∀ c ∈ xs.getLast?, c.free = false) → (∀ c ∈ ys.head?, c.free = false) →
        blocks' = xs ++ { b with free := true } :: ys)) halt := by
  refine wp_mono (kfree_coalesce heap pool coalesced used) ?_ fun _ _ => id
  rintro _ s' ⟨heap', moves⟩
  refine ⟨_, heap', coalesced_coalesce _, ?_, moves, fun prevUsed nextUsed => Coalesced.coalesce_eq ?_⟩
  · rw [usedBlocks_coalesce, usedBlocks_append, usedBlocks_cons_free rfl, usedBlocks_append]
  obtain ⟨first, rest, _⟩ := Coalesced.append_iff.mp coalesced
  refine Coalesced.append_iff.mpr ⟨first, ?_, fun c last d _ both => by simp [prevUsed c last] at both⟩
  cases ys with
  | nil => exact List.isChain_singleton _
  | cons c ys => exact Coalesced.cons_iff.mpr ⟨fun three => by simp [nextUsed c rfl] at three, rest.tail⟩

/-- `kfree` of a block in use. -/
theorem kfree_spec (heap : Heap own (xs ++ b :: ys) s) (pool : Pool own free s)
    (coalesced : Coalesced (xs ++ b :: ys)) (used : b.free = false) :
    wp (kfree (b.addr + 48)) s (fun _ s' => ∃ blocks', Heap own blocks' s' ∧ Coalesced blocks' ∧
      usedBlocks blocks' = usedBlocks (xs ++ ys) ∧ HeapMoves own (xs ++ ys) s s') halt := by
  refine wp_mono (kfree_blocks heap pool coalesced used) ?_ fun _ _ => id
  rintro _ s' ⟨blocks', heap', coalesced', same, moves, _⟩
  exact ⟨blocks', heap', coalesced', same, moves⟩

/-- The search of `kmalloc` takes the first block that fits. -/
theorem kmallocFind_spec (xs : List Block) (heap : Heap own (xs ++ ys) s) (pool : Pool own free s) {size fuel : Nat}
    (enough : ys.length < fuel) (multiple : size % 16 = 0) :
    wp (kmallocFind size fuel (Heap.nextAddr ys)) s (fun r s' =>
      (r = none ∧ s' = s ∧ ∀ b ∈ ys, ¬ (b.free = true ∧ size ≤ b.size)) ∨
      ∃ zs b rest, ys = zs ++ b :: rest ∧ r = some (b.addr + 48) ∧ b.free = true ∧ size ≤ b.size ∧
        (∀ c ∈ zs, ¬ (c.free = true ∧ size ≤ c.size)) ∧
        Heap own (xs ++ zs ++ Heap.taken b size ++ rest) s' ∧ HeapMoves own (xs ++ ys) s s') halt := by
  induction ys generalizing xs fuel with
  | nil =>
      obtain ⟨fuel, rfl⟩ : ∃ f, fuel = f + 1 := ⟨fuel - 1, by omega⟩
      have zero : Heap.nextAddr [] = 0 := rfl
      rw [kmallocFind, zero, if_pos rfl, wp_pure]
      exact .inl ⟨rfl, rfl, by simp⟩
  | cons b ys ih =>
      obtain ⟨fuel, rfl⟩ : ∃ f, fuel = f + 1 := ⟨fuel - 1, by omega⟩
      have here : Heap.nextAddr (b :: ys) = b.addr := rfl
      have bounds := heap.bounds pool (b := b) (by simp)
      have nonzero : b.addr ≠ 0 := by omega
      have header := heap.header b (by simp)
      have next := heap.around.2
      rw [blockNext, if_neg nonzero] at next
      have flag : ((if b.free = true then 1 else 0) ≠ 0 ∧ b.size ≥ size) ↔
          b.free = true ∧ size ≤ b.size := by
        cases b.free <;> simp
      rw [kmallocFind, here, if_neg nonzero]
      simp only [wp_bind, wp_loadWord, header.free, header.size]
      by_cases fits : b.free = true ∧ size ≤ b.size
      · rw [if_pos (flag.mpr fits)]
        simp only [wp_bind, wp_pure]
        refine wp_mono (heap.take_spec pool fits.1 multiple fits.2) ?_ fun _ _ => id
        intro _ s₁ taken
        refine wp_mono taken ?_ fun _ _ => id
        rintro _ s' ⟨heap', moves⟩
        exact .inr ⟨[], b, ys, rfl, rfl, fits.1, fits.2, by simp, by simpa using heap', moves⟩
      · rw [if_neg fun hit => fits (flag.mp hit)]
        simp only [wp_bind, wp_loadWord, next]
        have shifted : Heap own ((xs ++ [b]) ++ ys) s := by simpa using heap
        refine wp_mono (ih _ shifted (by simp only [List.length_cons] at enough; omega)) ?_ fun _ _ => id
        rintro r s' (⟨rfl, rfl, none⟩ | ⟨zs, c, rest, rfl, rfl, isFree, large, before, heap', moves⟩)
        · exact .inl ⟨rfl, rfl, List.forall_mem_cons.mpr ⟨fits, none⟩⟩
        · refine .inr ⟨b :: zs, c, rest, rfl, rfl, isFree, large,
            List.forall_mem_cons.mpr ⟨fits, before⟩, by simpa using heap', ?_⟩
          simpa using moves

/-- The number of blocks is bounded by the size of memory. -/
theorem Heap.length_le (heap : Heap own blocks s) (pool : Pool own free s) :
    blocks.length < loopBound := by
  have distinct : (blocks.map Block.addr).Nodup := (List.nodup_cons.mp heap.cycle.nodup).2
  have subset : blocks.map Block.addr ⊆ List.range 0x88000000 := fun a member => by
    obtain ⟨b, inside, rfl⟩ := List.mem_map.mp member
    have := heap.bounds pool inside
    unfold Block.stop at this
    exact List.mem_range.mpr (by omega)
  have := (List.Nodup.subperm distinct subset).length_le
  rw [List.length_range, List.length_map] at this
  unfold loopBound
  omega

/-- What `kmalloc` may do: heap moves, and pages taken from the free list into
the heap. -/
structure KmallocMoves (own : Nat → Owner) (blocks : List Block) (s : Kernel) (own' : Nat → Owner)
    (s' : Kernel) : Prop where
  owner : ∀ p, own' p = own p ∨ own p = .free ∧ own' p = .heap
  bytes : ∀ x, (own (pageOf x) ≠ .heap ∧ own (pageOf x) ≠ .free ∧ x ∉ node Layout.freePageList) ∨
    x ∈ payloads blocks → s'.mem x = s.mem x
  globals : s' = { s with
    mem := s'.mem, nrFreePages := s'.nrFreePages, heapHead := s'.heapHead, heapTail := s'.heapTail }

theorem HeapMoves.kmalloc (moves : HeapMoves own blocks s s') : KmallocMoves own blocks s own s' where
  owner _ := .inl rfl
  bytes x outside := moves.bytes x (outside.imp And.left id)
  globals := by rw [moves.globals]

namespace KmallocMoves

variable {own' own'' : Nat → Owner} {s'' : Kernel} {blocks' : List Block}

theorem trans (first : KmallocMoves own blocks s own' s')
    (kept : ∀ b ∈ usedBlocks blocks, b ∈ usedBlocks blocks')
    (second : KmallocMoves own' blocks' s' own'' s'') : KmallocMoves own blocks s own'' s'' where
  owner p := by
    rcases first.owner p with same | ⟨was, now⟩
    · rw [← same]
      exact second.owner p
    · rcases second.owner p with same | ⟨still, _⟩
      · exact .inr ⟨was, same.trans now⟩
      · simp [now] at still
  bytes x outside := by
    refine (second.bytes x ?_).trans (first.bytes x outside)
    rcases outside with ⟨notHeap, notFree, plain⟩ | inside
    · rcases first.owner (pageOf x) with same | ⟨was, _⟩
      · exact .inl ⟨same ▸ notHeap, same ▸ notFree, plain⟩
      · exact absurd was notFree
    · exact .inr (payloads_mono kept inside)
  globals := by
    have := first.globals
    rw [second.globals]
    generalize s''.mem = m, s''.nrFreePages = n, s''.heapHead = h, s''.heapTail = t
    rw [this]

end KmallocMoves

/-- The memory after `heap_grow`, from the memory that `page_alloc` leaves. -/
def grownMem (mem : Mem) (block tail : Nat) : Mem :=
  linkMem ((((((mem.store block 8 4048).store (block + 8) 8 1).store (block + 16) 8 kmallocMagic).store
    (block + 40) 8 0).store (block + 24) 8 tail).store (block + 32) 8 0) tail 32 block

/-- Appending the block of a fresh page. -/
theorem Heap.append (heap : Heap own blocks s) (pool : Pool own free s) {page : Nat}
    (valid : PoolPage page) (fresh : own page ≠ .heap) {mem : Mem}
    (same : ∀ x, own (pageOf x) = .heap → mem x = s.mem x)
    (memory : s'.mem = grownMem mem page (prevAddr blocks))
    (head : s'.heapHead = if prevAddr blocks = 0 then page else s.heapHead)
    (tail : s'.heapTail = page) :
    Heap (Function.update own page .heap) (blocks ++ [⟨page, 4048, true⟩]) s' := by
  have pageBounds := valid.bounds
  have tailCases := prevAddr_cases blocks
  have offPage : ∀ b ∈ blocks, b.stop ≤ page ∨ page + 4096 ≤ b.addr := by
    intro b member
    have bounds := heap.bounds pool member
    by_contra touch
    have inPage : pageOf (max b.addr page) = page := by
      refine pageOf_of_mem pageBounds.1 (by omega) ?_
      unfold Block.stop at touch
      omega
    have owned := (heap.cover (max b.addr page)).mpr ⟨b, member, by omega, by
      unfold Block.stop at *
      omega⟩
    exact fresh (inPage ▸ owned)
  have tailBlock : prevAddr blocks = 0 ∨ ∃ c ∈ blocks, prevAddr blocks = c.addr := by
    rcases tailCases with ⟨_, zero⟩ | ⟨xs', c, rfl, here⟩
    · exact .inl zero
    · exact .inr ⟨c, by simp, here⟩
  have tailFits : prevAddr blocks < 256 ^ 8 := by
    rcases tailBlock with zero | ⟨c, member, here⟩
    · omega
    · have := heap.bounds pool member
      unfold Block.stop at this
      omega
  have tailPage : prevAddr blocks = 0 ∨ prevAddr blocks + 48 ≤ page ∨ page + 4096 ≤ prevAddr blocks := by
    rcases tailBlock with zero | ⟨c, member, here⟩
    · exact .inl zero
    · have := offPage c member
      unfold Block.stop at this
      omega
  have load_old : ∀ c ∈ blocks, ∀ k, k + 8 ≤ 48 → (c.addr = prevAddr blocks → k + 8 ≤ 32 ∨ 32 + 8 ≤ k) →
      s'.mem.load (c.addr + k) 8 = s.mem.load (c.addr + k) 8 := by
    intro c member k inHeader notLink
    have away := offPage c member
    have tailApart : prevAddr blocks = 0 ∨ prevAddr blocks = c.addr ∨ c.stop ≤ prevAddr blocks ∨
        prevAddr blocks + 48 ≤ c.addr := by
      rcases tailBlock with zero | ⟨d, memberD, here⟩
      · exact .inl zero
      by_cases equal : d = c
      · exact .inr (.inl (equal ▸ here))
      · have := heap.apart_of_ne memberD member equal
        unfold Block.Apart Block.stop at *
        omega
    refine Mem.load_congr fun x low high => ?_
    have inHeap : own (pageOf x) = .heap :=
      (heap.cover x).mpr ⟨c, member, by omega, by unfold Block.stop; omega⟩
    have step : s'.mem x = mem x := by
      unfold Block.stop at away tailApart
      simp (disch := omega) only [memory, grownMem, Mem.store_of_outside, linkMem_byte]
    exact step.trans (same x inHeap)
  have nonzeros : ∀ c ∈ blocks, c.addr ≠ 0 := fun c member => by
    have := heap.bounds pool member
    omega
  have magicFits : kmallocMagic < 256 ^ 8 := by decide
  have words : Header s'.mem ⟨page, 4048, true⟩ ∧ s'.mem.load (page + 24) 8 = prevAddr blocks ∧
      s'.mem.load (page + 32) 8 = 0 := by
    refine ⟨⟨?_, ?_, ?_⟩, ?_, ?_⟩ <;>
      simp (disch := omega) only [memory, grownMem, Mem.load_store_of_disjoint, Mem.load_store_same,
        linkMem_load]
    rfl
  refine ⟨?_, fun b member => ?_, fun b member => ?_, ?_, fun x => ?_⟩
  · have pageFresh : page ∉ 0 :: (blocks.map Block.addr ++ []) := by
      simp only [List.append_nil, List.mem_cons, List.mem_map, not_or, not_exists, not_and]
      refine ⟨by omega, fun c member equal => ?_⟩
      have := offPage c member
      unfold Block.stop at this
      omega
    rw [List.map_append, List.map_singleton]
    refine Cycle.link (blocks.map Block.addr) [] (by simpa using heap.cycle) pageFresh
      ⟨?_, ?_⟩ ⟨?_, ?_⟩ ?_ ?_
    · change blockNext s' (prevAddr blocks) = page
      by_cases zero : prevAddr blocks = 0
      · rw [blockNext, if_pos zero, head, if_pos zero]
      · rw [blockNext, if_neg zero, memory]
        exact linkMem_load_same zero (by omega)
    · change blockPrev s' page = prevAddr blocks
      rw [blockPrev, if_neg (by omega)]
      exact words.2.1
    · change blockNext s' page = 0
      rw [blockNext, if_neg (by omega)]
      exact words.2.2
    · exact tail
    · intro a member notTail
      have notTail : a ≠ prevAddr blocks := notTail
      rcases List.mem_cons.mp member with rfl | member
      · rw [blockNext, blockNext, if_pos rfl, if_pos rfl, head, if_neg notTail.symm]
      · obtain ⟨c, inside, rfl⟩ := List.mem_map.mp (by simpa using member)
        rw [blockNext, blockNext, if_neg (nonzeros c inside), if_neg (nonzeros c inside)]
        exact load_old c inside 32 (by omega) fun equal => absurd equal notTail
    · intro a member notHead
      rcases List.mem_cons.mp member with rfl | member
      · exact absurd rfl notHead
      · obtain ⟨c, inside, rfl⟩ := List.mem_map.mp (by simpa using member)
        rw [blockPrev, blockPrev, if_neg (nonzeros c inside), if_neg (nonzeros c inside)]
        exact load_old c inside 24 (by omega) fun _ => by omega
  · rcases List.mem_append.mp member with old | new
    · obtain ⟨size, free, magic⟩ := heap.header b old
      exact ⟨(load_old b old 0 (by omega) (by omega)).trans size,
        (load_old b old 8 (by omega) (by omega)).trans free,
        (load_old b old 16 (by omega) (by omega)).trans magic⟩
    · rw [List.mem_singleton.mp new]
      exact words.1
  · rcases List.mem_append.mp member with old | new
    · exact heap.aligned b old
    · rw [List.mem_singleton.mp new]
      change page % 16 = 0 ∧ 4048 % 16 = 0
      omega
  · refine List.pairwise_append.mpr ⟨heap.apart, by simp, fun b old c new => ?_⟩
    rw [List.mem_singleton.mp new]
    exact (offPage b old).imp id fun above => above
  · simp only [List.mem_append, List.mem_singleton, or_and_right, exists_or, exists_eq_left]
    rw [← heap.cover x]
    by_cases inPage : pageOf x = page
    · rw [inPage, Function.update_self]
      refine iff_of_true rfl (.inr ?_)
      unfold pageOf at inPage
      unfold Block.stop
      simp only
      omega
    · rw [Function.update_of_ne inPage]
      refine ⟨.inl, fun either => either.resolve_right fun inside => inPage ?_⟩
      unfold Block.stop at inside
      simp only at inside
      exact pageOf_of_mem pageBounds.1 inside.1 (by omega)

/-- `heap_grow` appends a free block that fills a page. -/
theorem heapGrow_spec (heap : Heap own blocks s) (pool : Pool own free s) :
    wp heapGrow s (fun r s' => (r = 0 ∧ free = [] ∧ s' = s) ∨
      ∃ rest own', free = r :: rest ∧ r ≠ 0 ∧ Pool own' rest s' ∧
        Heap own' (blocks ++ [⟨r, 4048, true⟩]) s' ∧ KmallocMoves own blocks s own' s') halt := by
  unfold heapGrow
  refine wp_bind_of (pool.alloc (o := .heap) (by simp)) ?_
  rintro page s₁ (⟨empty, rfl, rfl⟩ | ⟨rest, shape, valid, wasFree, pool₁, moves⟩)
  · simp [empty]
  have bounds := valid.bounds
  have nonzero : page ≠ 0 := by omega
  have same : ∀ x, own (pageOf x) = .heap → s₁.mem x = s.mem x := fun x inHeap =>
    moves.moves.bytes x (by simp [inHeap]) (pool.not_head (by simp [inHeap]))
  have tail : s₁.heapTail = Heap.prevAddr blocks := by
    rw [moves.globals]
    exact heap.cycle.prev_head
  simp only [nonzero, if_false, wp_bind, wp_storeWord, heapAppend, wp_get, wp_setNext, wp_modify,
    wp_pure, tail]
  have written : ∀ x, pageOf x ≠ page →
      (Heap.prevAddr blocks = 0 ∨ x < Heap.prevAddr blocks + 32 ∨ Heap.prevAddr blocks + 32 + 8 ≤ x) →
      grownMem s₁.mem page (Heap.prevAddr blocks) x = s₁.mem x := by
    intro x other offTail
    have offPage : x < page ∨ page + 4096 ≤ x := by
      by_contra touch
      exact other (pageOf_of_mem bounds.1 (by omega) (by omega))
    simp (disch := omega) only [grownMem, Mem.store_of_outside, linkMem_byte]
  -- the tail's `next` word is in a heap page, in a header
  have offTail : ∀ x, own (pageOf x) ≠ .heap ∨ x ∈ payloads blocks →
      Heap.prevAddr blocks = 0 ∨ x < Heap.prevAddr blocks + 32 ∨ Heap.prevAddr blocks + 32 + 8 ≤ x := by
    intro x outside
    rcases Heap.prevAddr_cases blocks with ⟨_, zero⟩ | ⟨xs', c, rfl, here⟩
    · exact .inl zero
    by_contra touch
    have inBlock : c.addr ≤ x ∧ x < c.stop := by
      unfold Block.stop
      omega
    rcases outside with notHeap | ⟨d, member, _, low, high⟩
    · exact notHeap ((heap.cover x).mpr ⟨c, by simp, inBlock⟩)
    · by_cases equal : d = c
      · subst equal
        omega
      · have := heap.apart_of_ne member (by simp) equal
        unfold Block.Apart at this
        omega
  refine .inr ⟨rest, _, shape, nonzero, ?_, heap.append pool valid (by simp [wasFree]) same rfl ?_ rfl,
    fun p => ?_, fun x outside => ?_, ?_⟩
  · refine pool₁.congr (fun x inside => written x ?_ (offTail x (.inl ?_))) rfl
    · rintro rfl
      rcases inside with isFree | isHead
      · simp at isFree
      · exact pool.not_head (by simp [wasFree]) isHead
    · intro inHeap
      rcases inside with isFree | isHead
      · rw [Function.update_of_ne (by rintro equal; simp [equal, wasFree] at inHeap)] at isFree
        simp [inHeap] at isFree
      · exact pool.not_head (by simp [inHeap]) isHead
  · rw [moves.globals]
  · by_cases equal : p = page
    · subst equal
      exact .inr ⟨wasFree, by simp⟩
    · exact .inl (Function.update_of_ne equal _ _)
  · have other : pageOf x ≠ page := by
      rintro rfl
      rcases outside with ⟨_, notFree, _⟩ | ⟨c, member, _, low, high⟩
      · exact notFree wasFree
      · have := (heap.cover x).mpr ⟨c, member, by omega, high⟩
        simp [wasFree] at this
    refine (written x other (offTail x (outside.imp And.left id))).trans ?_
    rcases outside with ⟨_, notFree, plain⟩ | ⟨c, member, _, low, high⟩
    · exact moves.moves.bytes x notFree plain
    · exact same x ((heap.cover x).mpr ⟨c, member, by omega, high⟩)
  · rw [moves.globals]

/-- The heap between calls. -/
structure HeapState (own : Nat → Owner) (free : List Nat) (blocks : List Block) (s : Kernel) : Prop where
  pool : Pool own free s
  heap : Heap own blocks s
  coalesced : Coalesced blocks

/-- What a search of `kmalloc` leaves behind: a block in use, or nothing and no
page to make one of. -/
def KmallocOutcome (own : Nat → Owner) (free : List Nat) (blocks : List Block) (s : Kernel)
    (refused : Prop) (size p : Nat) (s' : Kernel) : Prop :=
  ∃ own' free' blocks', HeapState own' free' blocks' s' ∧ KmallocMoves own blocks s own' s' ∧
    free.length ≤ free'.length + 1 ∧
    ((p = 0 ∧ usedBlocks blocks' = usedBlocks blocks ∧ (refused ∨ free = [])) ∨
      ∃ b, p = b.addr + 48 ∧ b.free = false ∧ size ≤ b.size ∧
        (usedBlocks blocks').Perm (b :: usedBlocks blocks))

/-- Nothing taken. -/
theorem KmallocOutcome.none (state : HeapState own free blocks s) {refused : Prop} {size : Nat}
    (why : refused ∨ free = []) : KmallocOutcome own free blocks s refused size 0 s :=
  ⟨own, free, blocks, state, HeapMoves.refl.kmalloc, by omega, .inl ⟨rfl, rfl, why⟩⟩

/-- A block taken. -/
theorem KmallocOutcome.some {refused : Prop} {size : Nat} {own' : Nat → Owner} {free' : List Nat}
    (heap : Heap own' (xs ++ Heap.taken b size ++ ys) s') (pool : Pool own' free' s')
    (coalesced : Coalesced (xs ++ (Heap.taken b size ++ ys))) (isFree : b.free = true)
    (fits : size ≤ b.size) (moves : KmallocMoves own blocks s own' s')
    (count : free.length ≤ free'.length + 1) (same : usedBlocks (xs ++ b :: ys) = usedBlocks blocks) :
    KmallocOutcome own free blocks s refused size (b.addr + 48) s' := by
  obtain ⟨b', addr, used, large, _, only⟩ := usedBlocks_taken fits
  refine ⟨own', free', _, ⟨pool, heap, by simpa using coalesced⟩, moves, count,
    .inr ⟨b', by rw [addr], used, large, ?_⟩⟩
  rw [← same, usedBlocks_append, usedBlocks_append, only, usedBlocks_append,
    usedBlocks_cons_free isFree, List.append_assoc]
  exact List.perm_middle

/-- `kmalloc` took the free block `b` out of `xs ++ b :: ys`, which is the list
as it was, or the list with a new page behind it. -/
structure KmallocTaken (own : Nat → Owner) (free : List Nat) (blocks : List Block) (s : Kernel)
    (size : Nat) (own' : Nat → Owner) (free' : List Nat) (xs : List Block) (b : Block)
    (ys : List Block) (s' : Kernel) : Prop where
  isFree : b.free = true
  fits : size ≤ b.size
  origin : (xs ++ b :: ys = blocks ∧ free' = free) ∨
    (xs = blocks ∧ ys = [] ∧ ∃ page, b = ⟨page, 4048, true⟩ ∧ free = page :: free')
  skipped : ∀ c ∈ xs, ¬ (c.free = true ∧ size ≤ c.size)
  pool : Pool own' free' s'
  heap : Heap own' (xs ++ Heap.taken b size ++ ys) s'
  coalesced : Coalesced (xs ++ (Heap.taken b size ++ ys))
  moves : KmallocMoves own blocks s own' s'

/-- What the code after a block was taken can rely on. -/
theorem KmallocTaken.outcome {refused : Prop} {size : Nat} {own' : Nat → Owner} {free' : List Nat}
    (taken : KmallocTaken own free blocks s size own' free' xs b ys s') :
    KmallocOutcome own free blocks s refused size (b.addr + 48) s' := by
  refine .some taken.heap taken.pool taken.coalesced taken.isFree taken.fits taken.moves ?_ ?_
  · rcases taken.origin with ⟨_, rfl⟩ | ⟨_, _, page, _, shape⟩
    · omega
    · simp [shape]
  · rcases taken.origin with ⟨rfl, _⟩ | ⟨rfl, rfl, page, rfl, _⟩
    · rfl
    · simp [usedBlocks]

/-- The outer loop of `kmalloc` makes at most two rounds: it takes a block, or
there is none that fits and no page to make one of. -/
theorem kmallocLoop_taken (state : HeapState own free blocks s) {size fuel : Nat}
    (multiple : size % 16 = 0) (small : size ≤ 4048) :
    wp (kmallocLoop size (fuel + 2)) s (fun p s' =>
      (p = 0 ∧ s' = s ∧ free = [] ∧ ∀ b ∈ blocks, ¬ (b.free = true ∧ size ≤ b.size)) ∨
      ∃ own' free' xs b ys, p = b.addr + 48 ∧
        KmallocTaken own free blocks s size own' free' xs b ys s') halt := by
  obtain ⟨pool, heap, coalesced⟩ := state
  have first : s.heapHead = Heap.nextAddr blocks := heap.cycle.next_head
  rw [kmallocLoop]
  simp only [wp_bind, wp_get, first]
  refine wp_mono (kmallocFind_spec [] heap pool (heap.length_le pool) multiple) ?_
    fun _ _ => id
  rintro _ s₁ (⟨rfl, rfl, none⟩ | ⟨xs, b, ys, rfl, rfl, isFree, fits, before, heap₁, moves₁⟩)
  · simp only [wp_bind]
    refine wp_mono (heapGrow_spec heap pool) ?_ fun _ _ => id
    rintro page s₂ (⟨rfl, empty, rfl⟩ | ⟨rest, own₂, shape, nonzero, pool₂, heap₂, moves₂⟩)
    · rw [if_pos rfl]
      exact (wp_pure _).mpr (.inl ⟨rfl, rfl, empty, none⟩)
    have again : s₂.heapHead = Heap.nextAddr (blocks ++ [⟨page, 4048, true⟩]) :=
      heap₂.cycle.next_head
    have grown : usedBlocks (blocks ++ [⟨page, 4048, true⟩]) = usedBlocks blocks := by
      simp [usedBlocks]
    simp only [nonzero, if_false]
    rw [kmallocLoop]
    simp only [wp_bind, wp_get, again]
    refine wp_mono (kmallocFind_spec [] heap₂ pool₂ (heap₂.length_le pool₂) multiple) ?_
      fun _ _ => id
    rintro _ s₃ (⟨rfl, rfl, stillNone⟩ | ⟨xs, b, ys, split, rfl, isFree, fits, before, heap₃, moves₃⟩)
    · exact absurd ⟨rfl, small⟩ (stillNone ⟨page, 4048, true⟩ (by simp))
    -- no older block fits, so the one taken is the new one, at the end of the list
    have isNew : b ∉ blocks := fun old => none b old ⟨isFree, fits⟩
    have split : blocks ++ [⟨page, 4048, true⟩] = xs ++ b :: ys := split
    obtain ⟨rfl, rfl⟩ : ys = [] ∧ xs = blocks := by
      rcases List.eq_nil_or_concat ys with rfl | ⟨ys', c, rfl⟩
      · exact ⟨rfl, (List.append_inj_left' split rfl).symm⟩
      · have longer : blocks ++ [⟨page, 4048, true⟩] = (xs ++ b :: ys') ++ [c] := by simp [split]
        exact absurd (by rw [List.append_inj_left' longer rfl]; simp) isNew
    simp only [wp_pure]
    have moves : KmallocMoves own xs s₁ own₂ s₃ :=
      moves₂.trans (fun c member => grown ▸ member) moves₃.kmalloc
    have isPage : b = ⟨page, 4048, true⟩ := by simpa using split.symm
    refine .inr ⟨own₂, rest, xs, b, [], rfl, isFree, fits, .inr ⟨rfl, rfl, page, isPage, shape⟩, none,
      moves₃.pool pool₂, heap₃, ?_, moves⟩
    have alone : Coalesced ([] ++ (Heap.taken b size ++ [])) :=
      Coalesced.taken (show Coalesced ([] ++ b :: []) from List.isChain_singleton b) isFree size
    refine Coalesced.append_iff.mpr ⟨coalesced, alone, fun c _ d member both => ?_⟩
    simp [taken_head member] at both
  · simp only [wp_pure]
    exact .inr ⟨own, free, xs, b, ys, rfl, isFree, fits, .inl ⟨rfl, rfl⟩, before, moves₁.pool pool, heap₁,
      coalesced.taken isFree size, moves₁.kmalloc⟩

/-- The outer loop of `kmalloc` finds a block in use, or nothing and no page. -/
theorem kmallocLoop_spec (state : HeapState own free blocks s) {size fuel : Nat}
    (multiple : size % 16 = 0) (small : size ≤ 4048) (refused : Prop) :
    wp (kmallocLoop size (fuel + 2)) s (KmallocOutcome own free blocks s refused size) halt := by
  refine wp_mono (kmallocLoop_taken state multiple small) ?_ fun _ _ => id
  rintro p s' (⟨rfl, rfl, empty, _⟩ | ⟨own', free', xs, b, ys, rfl, taken⟩)
  · exact .none state (.inr empty)
  · exact taken.outcome

omit [Layout] in
/-- A request is rounded up to a multiple of 16. -/
theorem alignUp_multiple (n : Nat) : alignUp n kmallocAlign % 16 = 0 := by
  unfold alignUp
  rw [show kmallocAlign - 1 = 2 ^ 4 - 1 from rfl, and_wnot_low (wsub_lt _ _) (by decide)]
  omega

/-- `kmalloc` of a size that passes its checks takes a block, or there is none. -/
theorem kmalloc_accepted (state : HeapState own free blocks s) {n size : Nat} (isSize : alignUp n kmallocAlign = size)
    (positive : n ≠ 0) (small : size ≤ 4048) :
    wp (kmalloc n) s (fun p s' =>
      (p = 0 ∧ s' = s ∧ free = [] ∧ ∀ b ∈ blocks, ¬ (b.free = true ∧ size ≤ b.size)) ∨
      ∃ own' free' xs b ys, p = b.addr + 48 ∧ KmallocTaken own free blocks s size own' free' xs b ys s') halt := by
  have multiple : size % 16 = 0 := isSize ▸ alignUp_multiple n
  obtain ⟨fuel, bound⟩ : ∃ f, loopBound = f + 2 := ⟨loopBound - 2, rfl⟩
  unfold kmalloc
  rw [if_neg positive, isSize]
  simp only
  rw [if_neg (show ¬ size > pageSize - blockSize from Nat.not_lt.mpr small), bound]
  exact kmallocLoop_taken state multiple small

/-- `kmalloc` of a size in range takes a block, or there is none. -/
theorem kmalloc_taken (state : HeapState own free blocks s) {n size : Nat} (isSize : alignUp n kmallocAlign = size)
    (large : 16 ≤ size) (small : size ≤ 4048) :
    wp (kmalloc n) s (fun p s' =>
      (p = 0 ∧ s' = s ∧ free = [] ∧ ∀ b ∈ blocks, ¬ (b.free = true ∧ size ≤ b.size)) ∨
      ∃ own' free' xs b ys, p = b.addr + 48 ∧ KmallocTaken own free blocks s size own' free' xs b ys s') halt := by
  refine kmalloc_accepted state isSize ?_ small
  rintro rfl
  have zero : alignUp 0 kmallocAlign = 0 := by decide
  omega

omit [Layout] in
/-- A list is cut at the first of its elements with a property in one way. -/
theorem first_unique {P : Block → Prop} {xs' ys' : List Block} {b' : Block} (same : xs ++ b :: ys = xs' ++ b' :: ys')
    (before : ∀ c ∈ xs, ¬ P c) (before' : ∀ c ∈ xs', ¬ P c) (here : P b) (here' : P b') : xs = xs' ∧ b = b' ∧ ys = ys' := by
  induction xs generalizing xs' with
  | nil =>
      cases xs' with
      | nil => simpa using same
      | cons c rest =>
          obtain ⟨rfl, _⟩ := List.cons.inj same
          exact absurd here (before' b (by simp))
  | cons c rest ih =>
      cases xs' with
      | nil =>
          obtain ⟨rfl, _⟩ := List.cons.inj same
          exact absurd here' (before c (by simp))
      | cons c' rest' =>
          obtain ⟨rfl, tail⟩ := List.cons.inj same
          obtain ⟨rfl, others⟩ := ih tail (fun d member => before d (by simp [member])) fun d member => before' d (by simp [member])
          exact ⟨rfl, others⟩

/-- `kmalloc` takes the first block that fits. -/
theorem kmalloc_first (state : HeapState own free (xs ++ b :: ys) s) {n size : Nat} (isSize : alignUp n kmallocAlign = size)
    (large : 16 ≤ size) (small : size ≤ 4048) (isFree : b.free = true) (fits : size ≤ b.size)
    (skipped : ∀ c ∈ xs, ¬ (c.free = true ∧ size ≤ c.size)) :
    wp (kmalloc n) s (fun p s' => p = b.addr + 48 ∧ ∃ own',
      HeapState own' free (xs ++ (Heap.taken b size ++ ys)) s' ∧ KmallocMoves own (xs ++ b :: ys) s own' s') halt := by
  refine wp_mono (kmalloc_taken state isSize large small) ?_ fun _ _ => id
  rintro p s' (⟨_, _, _, none⟩ | ⟨own', free', xs', b', ys', rfl, taken⟩)
  · exact absurd ⟨isFree, fits⟩ (none b (by simp))
  rcases taken.origin with ⟨split, rfl⟩ | ⟨rfl, _⟩
  · obtain ⟨rfl, rfl, rfl⟩ := first_unique split taken.skipped skipped ⟨taken.isFree, taken.fits⟩ ⟨isFree, fits⟩
    exact ⟨rfl, own', ⟨taken.pool, by simpa using taken.heap, taken.coalesced⟩, taken.moves⟩
  · exact absurd ⟨isFree, fits⟩ (taken.skipped b (by simp))

/-- `kmalloc` of an empty heap takes a page. -/
theorem kmalloc_fresh (state : HeapState own free [] s) {n size : Nat} (isSize : alignUp n kmallocAlign = size)
    (large : 16 ≤ size) (small : size ≤ 4048) :
    wp (kmalloc n) s (fun p s' => (p = 0 ∧ s' = s ∧ free = []) ∨ ∃ own' page rest, free = page :: rest ∧ p = page + 48 ∧
      HeapState own' rest (Heap.taken ⟨page, 4048, true⟩ size) s' ∧ KmallocMoves own [] s own' s') halt := by
  refine wp_mono (kmalloc_taken state isSize large small) ?_ fun _ _ => id
  rintro p s' (⟨zero, same, empty, _⟩ | ⟨own', free', xs, b, ys, rfl, taken⟩)
  · exact .inl ⟨zero, same, empty⟩
  rcases taken.origin with ⟨split, _⟩ | ⟨rfl, rfl, page, rfl, shape⟩
  · simp at split
  · have heap := taken.heap
    have coalesced := taken.coalesced
    simp only [List.nil_append, List.append_nil] at heap coalesced
    exact .inr ⟨own', page, free', shape, rfl, ⟨taken.pool, heap, coalesced⟩, taken.moves⟩

/-- `kmalloc` returns a block in use, or 0 when the size is out of range or
there is no page. -/
theorem kmalloc_spec (state : HeapState own free blocks s) {n : Nat} :
    wp (kmalloc n) s (KmallocOutcome own free blocks s
      (n = 0 ∨ pageSize - blockSize < alignUp n kmallocAlign) (alignUp n kmallocAlign)) halt := by
  have multiple : alignUp n kmallocAlign % 16 = 0 := alignUp_multiple n
  unfold kmalloc
  split
  · next zero => exact (wp_pure 0).mpr (.none state (.inl (.inl zero)))
  simp only
  split
  · next large => exact (wp_pure 0).mpr (.none state (.inl (.inr large)))
  · next small =>
      obtain ⟨fuel, bound⟩ : ∃ f, loopBound = f + 2 := ⟨loopBound - 2, rfl⟩
      rw [bound]
      exact kmallocLoop_spec state multiple (Nat.le_of_not_lt small) _

end

end KuroOS
