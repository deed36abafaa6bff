import KuroOS.Memory.Kmalloc

/-!
# Room in the heap

How many more requests of one size `kmalloc` will serve. A free block of `b`
bytes serves one for every `size + 48` bytes it covers with its header, and a
free page is such a block. The count is exact: each request served takes one
from it, and `kmalloc` refuses when it is 0.
-/

namespace KuroOS

open Base

/-- The number of requests of `size` bytes that fit in a block. -/
def Block.room (size : Nat) (b : Block) : Nat :=
  if b.free = true then (b.size + 48) / (size + 48) else 0

/-- The number of requests of `size` bytes that fit in the heap and the free
pages. -/
def heapRoom (size : Nat) (free : List Nat) (blocks : List Block) : Nat :=
  (blocks.map (Block.room size)).sum + free.length * (4096 / (size + 48))

/-- A free block has room for a request when it is as large. -/
theorem Block.room_pos {size : Nat} {b : Block} : 0 < b.room size ↔ b.free = true ∧ size ≤ b.size := by
  unfold Block.room
  split
  · next isFree => simp [isFree, Nat.div_pos_iff]
  · next used => simp [used]

/-- Taking a request out of a free block takes one from its room. -/
theorem Heap.room_taken {size : Nat} {b : Block} (isFree : b.free = true) (fits : size ≤ b.size)
    (large : 16 ≤ size) : ((Heap.taken b size).map (Block.room size)).sum + 1 = b.room size := by
  unfold Heap.taken
  split
  · next short =>
      have one : (b.size + 48) / (size + 48) = 1 := Nat.div_eq_of_lt_le (by omega) (by omega)
      simp [Block.room, isFree, one]
  · next long =>
      have rest : b.size + 48 = (b.size - size - 48 + 48) + (size + 48) := by omega
      have count : (b.size + 48) / (size + 48) = (b.size - size - 48 + 48) / (size + 48) + 1 := by
        rw [rest, Nat.add_div_right _ (by omega)]
      simp [Block.room, isFree, count]

/-- There is no room when no block fits and no page is free. -/
theorem heapRoom_zero {size : Nat} {free : List Nat} {blocks : List Block} (empty : free = [])
    (none : ∀ b ∈ blocks, ¬ (b.free = true ∧ size ≤ b.size)) : heapRoom size free blocks = 0 := by
  have full : ∀ n ∈ blocks.map (Block.room size), n = 0 := fun n member => by
    obtain ⟨b, inside, rfl⟩ := List.mem_map.mp member
    exact Nat.eq_zero_of_not_pos fun room => none b inside (Block.room_pos.mp room)
  simp [heapRoom, empty, List.sum_eq_zero_iff_forall_eq_nat.mpr full]

section

variable [Layout] {own : Nat → Owner} {free : List Nat} {blocks : List Block} {s : Kernel}
  {halt : Halt → Kernel → Prop}

/-- A request served takes one from the room. -/
theorem KmallocTaken.room {size : Nat} {own' : Nat → Owner} {free' : List Nat} {xs ys : List Block}
    {b : Block} {s' : Kernel} (taken : KmallocTaken own free blocks s size own' free' xs b ys s')
    (large : 16 ≤ size) :
    heapRoom size free' (xs ++ Heap.taken b size ++ ys) + 1 = heapRoom size free blocks := by
  have one := Heap.room_taken taken.isFree taken.fits large
  simp only [heapRoom, List.map_append, List.sum_append]
  rcases taken.origin with ⟨rfl, rfl⟩ | ⟨rfl, rfl, page, rfl, rfl⟩
  · simp only [List.map_append, List.map_cons, List.sum_append, List.sum_cons]
    omega
  · have whole : Block.room size ⟨page, 4048, true⟩ = 4096 / (size + 48) := by simp [Block.room]
    simp only [List.map_nil, List.sum_nil, List.length_cons, Nat.add_mul]
    omega

/-- `kmalloc` refuses a request exactly when there is no room for it. -/
theorem kmalloc_room (state : HeapState own free blocks s) {n : Nat}
    (large : 16 ≤ alignUp n kmallocAlign) (small : alignUp n kmallocAlign ≤ 4048) :
    wp (kmalloc n) s (fun p s' =>
      (p = 0 ∧ s' = s ∧ heapRoom (alignUp n kmallocAlign) free blocks = 0) ∨
      ∃ own' free' blocks' b, HeapState own' free' blocks' s' ∧ KmallocMoves own blocks s own' s' ∧
        p = b.addr + 48 ∧ b.free = false ∧ alignUp n kmallocAlign ≤ b.size ∧
        (usedBlocks blocks').Perm (b :: usedBlocks blocks) ∧
        heapRoom (alignUp n kmallocAlign) free' blocks' + 1 =
          heapRoom (alignUp n kmallocAlign) free blocks) halt := by
  refine wp_mono (kmalloc_taken state rfl large small) ?_ fun _ _ => id
  rintro p s' (⟨rfl, rfl, empty, none⟩ | ⟨own', free', xs, b, ys, rfl, taken⟩)
  · exact .inl ⟨rfl, rfl, heapRoom_zero empty none⟩
  · obtain ⟨b', addr, used, fits, _, only⟩ := usedBlocks_taken taken.fits
    refine .inr ⟨own', free', _, b', ⟨taken.pool, taken.heap, by simpa using taken.coalesced⟩,
      taken.moves, by rw [addr], used, fits, ?_, taken.room large⟩
    have same : usedBlocks (xs ++ b :: ys) = usedBlocks blocks := by
      rcases taken.origin with ⟨rfl, _⟩ | ⟨rfl, rfl, page, rfl, _⟩
      · rfl
      · simp [usedBlocks]
    rw [← same, usedBlocks_append, usedBlocks_append, only, usedBlocks_append,
      usedBlocks_cons_free taken.isFree, List.append_assoc]
    exact List.perm_middle

end

end KuroOS
