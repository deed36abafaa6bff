import KuroOS.Memory.Heap

/-!
# Coalesced lists of blocks

`coalesce` joins every free block with the free blocks that follow it in memory
and in the list. A coalesced list is its own image, and freeing a block of one
is marking it free and coalescing again, so the effect of several frees does
not depend on their order.
-/

namespace KuroOS

open Base

variable {blocks xs ys : List Block} {b c : Block}

/-- The blocks in use. -/
def usedBlocks (blocks : List Block) : List Block := blocks.filter fun b => b.free = false

@[simp] theorem mem_usedBlocks : b ∈ usedBlocks blocks ↔ b ∈ blocks ∧ b.free = false := by
  simp [usedBlocks]

@[simp] theorem usedBlocks_append : usedBlocks (xs ++ ys) = usedBlocks xs ++ usedBlocks ys :=
  List.filter_append ..

theorem usedBlocks_cons_used (used : b.free = false) : usedBlocks (b :: xs) = b :: usedBlocks xs := by
  simp [usedBlocks, used]

theorem usedBlocks_cons_free (isFree : b.free = true) : usedBlocks (b :: xs) = usedBlocks xs := by
  simp [usedBlocks, isFree]

theorem payloads_mono (sub : ∀ b ∈ usedBlocks xs, b ∈ usedBlocks ys) : payloads xs ⊆ payloads ys := by
  rintro x ⟨b, member, used, inside⟩
  obtain ⟨member', _⟩ := mem_usedBlocks.mp (sub b (mem_usedBlocks.mpr ⟨member, used⟩))
  exact ⟨b, member', used, inside⟩

/-- The block that is taken comes first. -/
theorem taken_head {size : Nat} (member : c ∈ (Heap.taken b size ++ ys).head?) : c.free = false := by
  unfold Heap.taken at member
  split at member <;>
  · simp only [List.cons_append, List.head?_cons, Option.mem_some] at member
    subst member
    rfl

namespace Coalesced

/-- A list is coalesced when both parts are and the blocks at the seam are not
free neighbours. -/
theorem append_iff : Coalesced (xs ++ ys) ↔ Coalesced xs ∧ Coalesced ys ∧
    ∀ b ∈ xs.getLast?, ∀ c ∈ ys.head?, ¬ (b.free = true ∧ c.free = true ∧ b.stop = c.addr) :=
  List.isChain_append

theorem cons_iff : Coalesced (b :: c :: ys) ↔
    ¬ (b.free = true ∧ c.free = true ∧ b.stop = c.addr) ∧ Coalesced (c :: ys) :=
  List.isChain_cons_cons

/-- The seam to a list depends on the address and the state of its first block. -/
theorem append_of_head {zs : List Block} (whole : Coalesced (xs ++ ys)) (last : Coalesced zs)
    (head : ∀ c' ∈ zs.head?, c'.free = true → ∃ c ∈ ys.head?, c.free = true ∧ c.addr = c'.addr) :
    Coalesced (xs ++ zs) := by
  obtain ⟨first, _, seam⟩ := append_iff.mp whole
  refine append_iff.mpr ⟨first, last, fun b hb c' hc' both => ?_⟩
  obtain ⟨c, hc, isFree, addr⟩ := head c' hc' both.2.1
  exact seam b hb c hc ⟨both.1, isFree, addr ▸ both.2.2⟩

/-- Merging a free block with what follows it coalesces the list from it on. -/
theorem merged (b : Block) (rest : Coalesced ys) : Coalesced (Heap.merged b ys) := by
  cases ys with
  | nil => exact List.isChain_singleton b
  | cons c ys =>
      rw [Heap.merged]
      split
      · next both =>
          cases ys with
          | nil => exact List.isChain_singleton _
          | cons d ys =>
              obtain ⟨apart, tail⟩ := cons_iff.mp rest
              refine cons_iff.mpr ⟨fun three => apart ⟨both.1, three.2.1, ?_⟩, tail⟩
              have joined := three.2.2
              have adjacent := both.2
              unfold Block.stop at *
              simp only at joined
              omega
      · next apart => exact cons_iff.mpr ⟨fun three => apart ⟨three.2.1, three.2.2⟩, rest⟩

/-- Taking a free block leaves a coalesced list. -/
theorem taken (whole : Coalesced (xs ++ b :: ys)) (isFree : b.free = true) (size : Nat) :
    Coalesced (xs ++ (Heap.taken b size ++ ys)) := by
  refine append_of_head whole ?_ ?_
  · obtain ⟨_, rest, _⟩ := append_iff.mp whole
    unfold Heap.taken
    split
    · cases ys with
      | nil => exact List.isChain_singleton _
      | cons c ys => exact cons_iff.mpr ⟨by simp, (cons_iff.mp rest).2⟩
    · next large =>
        refine cons_iff.mpr ⟨by simp, ?_⟩
        cases ys with
        | nil => exact List.isChain_singleton _
        | cons c ys =>
            obtain ⟨apart, tail⟩ := cons_iff.mp rest
            refine cons_iff.mpr ⟨fun three => apart ⟨isFree, three.2.1, ?_⟩, tail⟩
            have adjacent := three.2.2
            unfold Block.stop at *
            simp only at adjacent
            omega
  · intro c' member isFree'
    simp [taken_head member] at isFree'

end Coalesced

/-- What merging leaves in use. -/
theorem usedBlocks_merged (isFree : b.free = true) : usedBlocks (Heap.merged b ys) = usedBlocks ys := by
  cases ys with
  | nil => simp [Heap.merged, usedBlocks, isFree]
  | cons c ys =>
      rw [Heap.merged]
      split
      · next both => simp [usedBlocks, isFree, both.1]
      · rw [usedBlocks_cons_free isFree]

/-- A merged list still starts with its first block's header. -/
theorem merged_head (b : Block) (ys : List Block) : ∃ b' ys', Heap.merged b ys = b' :: ys' ∧
    b'.addr = b.addr ∧ b'.free = b.free := by
  cases ys with
  | nil => exact ⟨b, [], rfl, rfl, rfl⟩
  | cons c ys =>
      rw [Heap.merged]
      split
      · exact ⟨_, ys, rfl, rfl, rfl⟩
      · exact ⟨b, c :: ys, rfl, rfl, rfl⟩

/-- Join every free block with the free blocks that follow it. -/
def coalesce : List Block → List Block
  | [] => []
  | b :: ys => if b.free then Heap.merged b (coalesce ys) else b :: coalesce ys

theorem coalesce_cons_free (isFree : b.free = true) : coalesce (b :: ys) = Heap.merged b (coalesce ys) := by
  simp [coalesce, isFree]

theorem coalesce_cons_used (used : b.free = false) : coalesce (b :: ys) = b :: coalesce ys := by
  simp [coalesce, used]

/-- A block in use may follow any coalesced list and precede one. -/
theorem Coalesced.cons_used (used : b.free = false) (rest : Coalesced ys) : Coalesced (b :: ys) := by
  cases ys with
  | nil => exact List.isChain_singleton b
  | cons c ys => exact cons_iff.mpr ⟨fun three => by simp [used] at three, rest⟩

theorem Coalesced.tail (whole : Coalesced (b :: ys)) : Coalesced ys := by
  cases ys with
  | nil => exact .nil
  | cons c ys => exact (cons_iff.mp whole).2

theorem coalesced_coalesce (xs : List Block) : Coalesced (coalesce xs) := by
  induction xs with
  | nil => exact .nil
  | cons b xs ih =>
      by_cases isFree : b.free = true
      · rw [coalesce_cons_free isFree]
        exact ih.merged b
      · have used : b.free = false := by simpa using isFree
        rw [coalesce_cons_used used]
        exact ih.cons_used used

@[simp] theorem usedBlocks_coalesce (xs : List Block) : usedBlocks (coalesce xs) = usedBlocks xs := by
  induction xs with
  | nil => rfl
  | cons b xs ih =>
      by_cases isFree : b.free = true
      · rw [coalesce_cons_free isFree, usedBlocks_merged isFree, usedBlocks_cons_free isFree, ih]
      · have used : b.free = false := by simpa using isFree
        rw [coalesce_cons_used used, usedBlocks_cons_used used, usedBlocks_cons_used used, ih]

/-- Between neighbours that do not touch or are not both free there is nothing
to join. -/
theorem Coalesced.merged_eq (whole : Coalesced (b :: ys)) (isFree : b.free = true) :
    Heap.merged b ys = b :: ys := by
  cases ys with
  | nil => rfl
  | cons c ys => rw [Heap.merged, if_neg fun both => (cons_iff.mp whole).1 ⟨isFree, both⟩]

theorem Coalesced.coalesce_eq (whole : Coalesced xs) : coalesce xs = xs := by
  induction xs with
  | nil => rfl
  | cons b xs ih =>
      by_cases isFree : b.free = true
      · rw [coalesce_cons_free isFree, ih whole.tail, whole.merged_eq isFree]
      · have used : b.free = false := by simpa using isFree
        rw [coalesce_cons_used used, ih whole.tail]

/-- Coalescing a suffix first changes nothing. -/
theorem coalesce_append_coalesce (xs ys : List Block) : coalesce (xs ++ coalesce ys) = coalesce (xs ++ ys) := by
  induction xs with
  | nil => exact (coalesced_coalesce ys).coalesce_eq
  | cons b xs ih => rw [List.cons_append, List.cons_append, coalesce, coalesce, ih]

/-- Where the seams of `xs` are closed already, only the suffix changes. -/
theorem Coalesced.coalesce_append (whole : Coalesced (xs ++ coalesce ys)) :
    coalesce (xs ++ ys) = xs ++ coalesce ys := by
  rw [← coalesce_append_coalesce, whole.coalesce_eq]

/-- Joining to the left and to the right may be done in either order. -/
theorem merged_merged (isFree : c.free = true) (adjacent : b.stop = c.addr) :
    Heap.merged b (Heap.merged c ys) = Heap.merged { b with size := b.size + 48 + c.size } ys := by
  have joined : Block.stop { b with size := b.size + 48 + c.size } = c.stop := by
    unfold Block.stop at *
    simp only
    omega
  cases ys with
  | nil => simp [Heap.merged, isFree, adjacent]
  | cons d ys =>
      by_cases both : d.free = true ∧ c.stop = d.addr
      · have first : Heap.merged c (d :: ys) = { c with size := c.size + 48 + d.size } :: ys := by
          rw [Heap.merged, if_pos both]
        rw [first, Heap.merged, if_pos ⟨isFree, adjacent⟩, Heap.merged, if_pos (joined ▸ both)]
        simp only [List.cons.injEq, Block.mk.injEq, and_true, true_and]
        omega
      · have first : Heap.merged c (d :: ys) = c :: d :: ys := by rw [Heap.merged, if_neg both]
        rw [first, Heap.merged, if_pos ⟨isFree, adjacent⟩, Heap.merged, if_neg (joined ▸ both)]

/-- The list with the blocks at some addresses marked free. -/
def markFree (addrs : List Nat) (blocks : List Block) : List Block :=
  blocks.map fun b => if b.addr ∈ addrs then { b with free := true } else b

@[simp] theorem markFree_nil (blocks : List Block) : markFree [] blocks = blocks := by
  simp [markFree]

theorem markFree_cons_of_mem {addrs : List Nat} (member : b.addr ∈ addrs) :
    markFree addrs (b :: ys) = { b with free := true } :: markFree addrs ys := by
  simp [markFree, member]

theorem markFree_cons_of_notMem {addrs : List Nat} (notMember : b.addr ∉ addrs) :
    markFree addrs (b :: ys) = b :: markFree addrs ys := by
  simp [markFree, notMember]

theorem markFree_markFree (addrs addrs' : List Nat) (blocks : List Block) :
    markFree addrs (markFree addrs' blocks) = markFree (addrs ++ addrs') blocks := by
  unfold markFree
  rw [List.map_map]
  refine List.map_congr_left fun b _ => ?_
  by_cases first : b.addr ∈ addrs <;> by_cases second : b.addr ∈ addrs' <;> simp [first, second]

/-- Only which addresses are marked matters. -/
theorem markFree_congr {addrs addrs' : List Nat} (same : ∀ a, a ∈ addrs ↔ a ∈ addrs') (blocks : List Block) :
    markFree addrs blocks = markFree addrs' blocks := by
  simp [markFree, same]

/-- Marking one block of a list. -/
theorem markFree_split (distinct : (xs ++ b :: ys).map Block.addr |>.Nodup) :
    markFree [b.addr] (xs ++ b :: ys) = xs ++ { b with free := true } :: ys := by
  rw [List.map_append, List.map_cons, List.nodup_middle, List.nodup_cons] at distinct
  have others : ∀ c ∈ xs ++ ys, c.addr ≠ b.addr := fun c member equal => by
    refine distinct.1 (equal ▸ ?_)
    rw [← List.map_append]
    exact List.mem_map_of_mem member
  have untouched : ∀ zs : List Block, (∀ c ∈ zs, c ∈ xs ++ ys) → markFree [b.addr] zs = zs := fun zs sub =>
    (List.map_congr_left fun c member => by simp [others c (sub c member)]).trans (List.map_id zs)
  unfold markFree at *
  rw [List.map_append, List.map_cons, untouched xs (by simp +contextual), untouched ys (by simp +contextual)]
  simp

/-- A free block of a coalesced list starts where one did before. -/
theorem addr_of_mem_merged (member : c ∈ Heap.merged b ys) :
    ∃ d ∈ b :: ys, d.addr = c.addr ∧ d.free = c.free := by
  cases ys with
  | nil => exact ⟨c, by simpa [Heap.merged] using member, rfl, rfl⟩
  | cons d ys =>
      rw [Heap.merged] at member
      split at member
      · rcases List.mem_cons.mp member with rfl | inside
        · exact ⟨b, by simp, rfl, rfl⟩
        · exact ⟨c, by simp [inside], rfl, rfl⟩
      · exact ⟨c, member, rfl, rfl⟩

theorem addr_of_mem_coalesce (member : c ∈ coalesce xs) : ∃ d ∈ xs, d.addr = c.addr ∧ d.free = c.free := by
  induction xs generalizing c with
  | nil => simp [coalesce] at member
  | cons b xs ih =>
      by_cases isFree : b.free = true
      · rw [coalesce_cons_free isFree] at member
        obtain ⟨d, inside, addr, free⟩ := addr_of_mem_merged member
        rcases List.mem_cons.mp inside with rfl | inside
        · exact ⟨d, by simp, addr, free⟩
        · obtain ⟨e, inside', addr', free'⟩ := ih inside
          exact ⟨e, by simp [inside'], addr'.trans addr, free'.trans free⟩
      · rw [coalesce_cons_used (by simpa using isFree)] at member
        rcases List.mem_cons.mp member with rfl | inside
        · exact ⟨c, by simp, rfl, rfl⟩
        · obtain ⟨d, inside', same⟩ := ih inside
          exact ⟨d, by simp [inside'], same⟩

/-- Marking a block in use after joining two free ones. -/
theorem coalesce_markFree_merged {addrs : List Nat} (isFree : b.free = true)
    (inUse : ∀ c ∈ b :: ys, c.free = true → c.addr ∉ addrs) :
    coalesce (markFree addrs (Heap.merged b ys)) = Heap.merged b (coalesce (markFree addrs ys)) := by
  have head : ∀ size zs, coalesce (markFree addrs ({ b with size := size } :: zs)) =
      Heap.merged { b with size := size } (coalesce (markFree addrs zs)) := fun size zs => by
    have here : Block.addr { b with size := size } ∉ addrs := inUse b (by simp) isFree
    have stillFree : Block.free { b with size := size } = true := isFree
    rw [markFree_cons_of_notMem here, coalesce_cons_free stillFree]
  cases ys with
  | nil => exact head b.size []
  | cons c ys =>
      by_cases both : c.free = true ∧ b.stop = c.addr
      · rw [Heap.merged, if_pos both, head, markFree_cons_of_notMem (inUse c (by simp) both.1),
          coalesce_cons_free both.1, merged_merged both.1 both.2]
      · rw [Heap.merged, if_neg both]
        exact head b.size (c :: ys)

/-- Coalescing before some blocks in use are freed changes nothing: the joined
blocks stay joined and the freed ones find the same neighbours. -/
theorem coalesce_markFree_coalesce {addrs : List Nat} (inUse : ∀ c ∈ xs, c.free = true → c.addr ∉ addrs) :
    coalesce (markFree addrs (coalesce xs)) = coalesce (markFree addrs xs) := by
  induction xs with
  | nil => rfl
  | cons b xs ih =>
      have rest := ih fun c member => inUse c (by simp [member])
      by_cases isFree : b.free = true
      · rw [coalesce_cons_free isFree, coalesce_markFree_merged isFree, rest,
          markFree_cons_of_notMem (inUse b (by simp) isFree), coalesce_cons_free isFree]
        intro c member cFree
        rcases List.mem_cons.mp member with rfl | inside
        · exact inUse c (by simp) cFree
        · obtain ⟨d, inside', addr, free⟩ := addr_of_mem_coalesce inside
          exact addr ▸ inUse d (by simp [inside']) (free.trans cFree)
      · rw [coalesce_cons_used (by simpa using isFree)]
        simp only [markFree, List.map_cons, coalesce] at rest ⊢
        rw [rest]

/-- Taking a free block and freeing it again. -/
theorem coalesce_taken (whole : Coalesced (xs ++ b :: ys)) (isFree : b.free = true) {size : Nat}
    (distinct : ((xs ++ Heap.taken b size ++ ys).map Block.addr).Nodup) :
    coalesce (markFree [b.addr] (xs ++ Heap.taken b size ++ ys)) = xs ++ b :: ys := by
  have same : { b with free := true } = b := by rw [← isFree]
  by_cases small : b.size < size + 64
  · have shape : xs ++ Heap.taken b size ++ ys = xs ++ { b with free := false } :: ys := by
      rw [Heap.taken, if_pos small]
      simp
    rw [shape] at distinct ⊢
    rw [markFree_split distinct]
    simp only [same]
    exact whole.coalesce_eq
  · have shape : xs ++ Heap.taken b size ++ ys =
        xs ++ ⟨b.addr, size, false⟩ :: ⟨b.addr + 48 + size, b.size - size - 48, true⟩ :: ys := by
      rw [Heap.taken, if_neg small]
      simp
    rw [shape] at distinct ⊢
    rw [markFree_split distinct]
    have suffix : Coalesced (b :: ys) := (Coalesced.append_iff.mp whole).2.1
    have joined : Heap.merged ⟨b.addr + 48 + size, b.size - size - 48, true⟩ ys =
        ⟨b.addr + 48 + size, b.size - size - 48, true⟩ :: ys := by
      refine Coalesced.merged_eq (?_ : Coalesced (_ :: ys)) rfl
      suffices before : Coalesced ([_] ++ ys) from
        before.append_of_head suffix.tail fun c member cFree => ⟨c, member, cFree, rfl⟩
      cases ys with
      | nil => exact List.isChain_singleton _
      | cons c ys =>
          obtain ⟨apart, tail⟩ := Coalesced.cons_iff.mp suffix
          refine Coalesced.cons_iff.mpr ⟨fun three => apart ⟨isFree, three.2.1, ?_⟩, tail⟩
          have adjacent := three.2.2
          unfold Block.stop at *
          simp only at adjacent
          omega
    have back : coalesce (⟨b.addr, size, true⟩ :: ⟨b.addr + 48 + size, b.size - size - 48, true⟩ :: ys) = b :: ys := by
      rw [coalesce_cons_free rfl, coalesce_cons_free rfl, suffix.tail.coalesce_eq, joined, Heap.merged,
        if_pos ⟨rfl, rfl⟩]
      refine congrArg (· :: ys) ?_
      rw [← same]
      simp only [Block.mk.injEq, and_true, true_and]
      omega
    rw [← coalesce_append_coalesce, back, whole.coalesce_eq]

end KuroOS
