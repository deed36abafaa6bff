import Mathlib.Data.List.SplitBy
import KuroOS.Memory.FirstFit

/-!
# The order of frees

`kfree` marks a block free and coalesces the list, so `kfree` undoes `kmalloc`,
the order of frees does not matter, and what is left when nothing is in use
depends only on the pages of the heap: one free block for each run of pages that
follow each other in the list and in memory.
-/

namespace KuroOS

open Base

variable {xs ys zs blocks : List Block} {b c : Block} {start : Nat}

/-- The pages that begin in a block. -/
def Block.pages (b : Block) : List Nat :=
  (List.range' ((b.addr + 4095) / 4096) ((b.stop + 4095) / 4096 - (b.addr + 4095) / 4096)).map (4096 * ·)

/-- The pages of a list of blocks, in the order in which the list visits them. -/
def listPages (blocks : List Block) : List Nat := blocks.flatMap Block.pages

/-- The maximal runs of pages that are consecutive in the list and in memory. -/
def pageRuns (pages : List Nat) : List (List Nat) := pages.splitBy fun p q => p + pageSize == q

/-- The free block that fills a run of pages. -/
def runBlock (run : List Nat) : Block := ⟨run.headD 0, pageSize * run.length - blockSize, true⟩

theorem Block.mem_pages {p : Nat} : p ∈ b.pages ↔ p % 4096 = 0 ∧ b.addr ≤ p ∧ p < b.stop := by
  have forward : b.addr ≤ b.stop := by
    unfold Block.stop
    omega
  unfold Block.pages
  simp only [List.mem_map, List.mem_range'_1]
  constructor
  · rintro ⟨i, inside, rfl⟩
    omega
  · rintro ⟨aligned, low, high⟩
    exact ⟨p / 4096, by omega, by omega⟩

theorem mem_listPages {p : Nat} : p ∈ listPages blocks ↔ p % 4096 = 0 ∧ ∃ b ∈ blocks, b.addr ≤ p ∧ p < b.stop := by
  unfold listPages
  simp only [List.mem_flatMap, Block.mem_pages]
  tauto

/-- Joining two adjacent blocks keeps the pages. -/
theorem Block.pages_joined (adjacent : b.stop = c.addr) :
    Block.pages { b with size := b.size + 48 + c.size } = b.pages ++ c.pages := by
  have joined : Block.stop { b with size := b.size + 48 + c.size } = c.stop := by
    unfold Block.stop at *
    simp only
    omega
  have order : b.addr ≤ b.stop ∧ c.addr ≤ c.stop := by
    unfold Block.stop
    omega
  unfold Block.pages
  rw [← List.map_append, joined, ← adjacent]
  have first : (b.addr + 4095) / 4096 ≤ (b.stop + 4095) / 4096 := by omega
  have second : (b.stop + 4095) / 4096 ≤ (c.stop + 4095) / 4096 := by omega
  generalize (b.addr + 4095) / 4096 = low, (b.stop + 4095) / 4096 = mid, (c.stop + 4095) / 4096 = high at *
  have seam := List.range'_append_1 (s := low) (m := mid - low) (n := high - mid)
  rw [show low + (mid - low) = mid by omega, show mid - low + (high - mid) = high - low by omega] at seam
  rw [seam]

theorem listPages_cons : listPages (b :: ys) = b.pages ++ listPages ys := List.flatMap_cons

theorem listPages_merged : listPages (Heap.merged b ys) = listPages (b :: ys) := by
  cases ys with
  | nil => rfl
  | cons c ys =>
      rw [Heap.merged]
      split
      · next both =>
          simp only [listPages_cons]
          rw [Block.pages_joined both.2, List.append_assoc]
      · rfl

@[simp] theorem listPages_coalesce (xs : List Block) : listPages (coalesce xs) = listPages xs := by
  induction xs with
  | nil => rfl
  | cons b xs ih =>
      rw [coalesce]
      split
      · rw [listPages_merged, listPages_cons, listPages_cons, ih]
      · rw [listPages_cons, listPages_cons, ih]

@[simp] theorem listPages_markFree (addrs : List Nat) (xs : List Block) : listPages (markFree addrs xs) = listPages xs := by
  unfold listPages markFree
  rw [List.flatMap_map]
  refine List.flatMap_congr fun b _ => ?_
  split <;> rfl

/-- Walking the list from an address, every block begins where the last one
stopped, or one page ends and another begins between them; at the end a page
ends. -/
def Seamed : (start : Nat) → List Block → Prop
  | start, [] => start % 4096 = 0
  | start, b :: ys => (start = b.addr ∨ start % 4096 = 0 ∧ b.addr % 4096 = 0) ∧ Seamed b.stop ys

namespace Seamed

/-- A suffix may be replaced by one that fits wherever it does. -/
theorem append_mono (fits : ∀ start, Seamed start ys → Seamed start zs) (seamed : Seamed start (xs ++ ys)) :
    Seamed start (xs ++ zs) := by
  induction xs generalizing start with
  | nil => exact fits start seamed
  | cons b xs ih => exact ⟨seamed.1, ih seamed.2⟩

theorem merged (seamed : Seamed start (b :: ys)) : Seamed start (Heap.merged b ys) := by
  cases ys with
  | nil => exact seamed
  | cons c ys =>
      rw [Heap.merged]
      split
      · next both =>
          refine ⟨seamed.1, ?_⟩
          have joined : Block.stop { b with size := b.size + 48 + c.size } = c.stop := by
            have adjacent := both.2
            unfold Block.stop at *
            simp only
            omega
          exact joined ▸ seamed.2.2
      · exact seamed

theorem coalesce (seamed : Seamed start xs) : Seamed start (coalesce xs) := by
  induction xs generalizing start with
  | nil => exact seamed
  | cons b xs ih =>
      have both : Seamed start (b :: KuroOS.coalesce xs) := ⟨seamed.1, ih seamed.2⟩
      rw [KuroOS.coalesce]
      split
      · exact both.merged
      · exact both

theorem markFree (addrs : List Nat) (seamed : Seamed start xs) : Seamed start (markFree addrs xs) := by
  induction xs generalizing start with
  | nil => exact seamed
  | cons b xs ih =>
      by_cases member : b.addr ∈ addrs
      · rw [markFree_cons_of_mem member]
        exact ⟨seamed.1, ih seamed.2⟩
      · rw [markFree_cons_of_notMem member]
        exact ⟨seamed.1, ih seamed.2⟩

theorem taken {size : Nat} (seamed : Seamed start (b :: ys)) : Seamed start (Heap.taken b size ++ ys) := by
  unfold Heap.taken
  split
  · exact seamed
  · next large =>
      refine ⟨seamed.1, .inl rfl, ?_⟩
      have same : Block.stop ⟨b.addr + 48 + size, b.size - size - 48, true⟩ = b.stop := by
        unfold Block.stop
        simp only
        omega
      exact same ▸ seamed.2

theorem page {page : Nat} (aligned : page % 4096 = 0) (seamed : Seamed start []) : Seamed start [⟨page, 4048, true⟩] := by
  refine ⟨.inr ⟨seamed, aligned⟩, ?_⟩
  show (page + 48 + 4048) % 4096 = 0
  omega

/-- With nothing in use, a coalesced list is cut at page borders only. -/
theorem whole_pages (seamed : Seamed start xs) (border : start % 4096 = 0) (coalesced : Coalesced xs)
    (allFree : ∀ b ∈ xs, b.free = true) : ∀ b ∈ xs, b.addr % 4096 = 0 ∧ b.stop % 4096 = 0 := by
  induction xs generalizing start with
  | nil => simp
  | cons b xs ih =>
      have begins : b.addr % 4096 = 0 := by
        rcases seamed.1 with here | ⟨_, here⟩
        · exact here ▸ border
        · exact here
      have ends : b.stop % 4096 = 0 := by
        cases xs with
        | nil => exact seamed.2
        | cons c xs =>
            rcases seamed.2.1 with touch | ⟨here, _⟩
            · exact absurd ⟨allFree b (by simp), allFree c (by simp), touch⟩ (Coalesced.cons_iff.mp coalesced).1
            · exact here
      exact List.forall_mem_cons.mpr ⟨⟨begins, ends⟩,
        ih seamed.2 ends coalesced.tail fun c member => allFree c (by simp [member])⟩

end Seamed

/-- A block that begins and ends at page borders is a run of pages. -/
theorem Block.pages_whole (begins : b.addr % 4096 = 0) (ends : b.stop % 4096 = 0) :
    ∃ n, b.stop = b.addr + 4096 * (n + 1) ∧ b.pages = (List.range' (b.addr / 4096) (n + 1)).map (4096 * ·) := by
  refine ⟨(b.stop - b.addr) / 4096 - 1, ?_, ?_⟩
  · unfold Block.stop at *
    omega
  · unfold Block.pages
    have count : (b.stop + 4095) / 4096 - (b.addr + 4095) / 4096 = (b.stop - b.addr) / 4096 - 1 + 1 := by
      unfold Block.stop at *
      omega
    rw [count, show (b.addr + 4095) / 4096 = b.addr / 4096 by omega]

/-- With nothing in use, a coalesced list has one block for each run of pages. -/
theorem pageRuns_listPages (whole : ∀ b ∈ blocks, b.addr % 4096 = 0 ∧ b.stop % 4096 = 0) (coalesced : Coalesced blocks)
    (allFree : ∀ b ∈ blocks, b.free = true) : (pageRuns (listPages blocks)).map runBlock = blocks := by
  have runs : pageRuns (listPages blocks) = blocks.map Block.pages := by
    unfold pageRuns listPages
    rw [List.flatMap_def]
    refine List.splitBy_flatten ?_ ?_ ?_
    · rintro empty
      obtain ⟨b, member, none⟩ := List.mem_map.mp empty
      obtain ⟨n, _, shape⟩ := b.pages_whole (whole b member).1 (whole b member).2
      simp [shape] at none
    · intro run member
      obtain ⟨b, inside, rfl⟩ := List.mem_map.mp member
      obtain ⟨n, _, shape⟩ := b.pages_whole (whole b inside).1 (whole b inside).2
      rw [shape, List.isChain_map]
      exact List.isChain_range' _ _ _ |>.imp fun i j next => by simp [next, pageSize]; omega
    · refine (List.isChain_map Block.pages).mpr (coalesced.imp_of_mem_imp fun b c member member' apart => ?_)
      obtain ⟨n, stop, shape⟩ := b.pages_whole (whole b member).1 (whole b member).2
      obtain ⟨m, _, shape'⟩ := c.pages_whole (whole c member').1 (whole c member').2
      refine ⟨by simp [shape], by simp [shape'], ?_⟩
      have border := (whole b member).1
      have border' := (whole c member').1
      have away : b.stop ≠ c.addr := fun touch => apart ⟨allFree b member, allFree c member', touch⟩
      simp only [shape, shape', List.getLast_map, List.head_map, pageSize]
      simp
      omega
  rw [runs, List.map_map]
  refine (List.map_congr_left fun b member => ?_).trans (List.map_id blocks)
  obtain ⟨n, stop, shape⟩ := b.pages_whole (whole b member).1 (whole b member).2
  have isFree := allFree b member
  have begins := (whole b member).1
  obtain ⟨addr, size, flag⟩ := b
  obtain rfl : flag = true := isFree
  simp only [Block.stop] at stop begins shape
  simp only [Function.comp, runBlock, shape, id]
  simp [List.range'_succ]
  omega

/-- The block that is taken, at the head of what takes the place of a free one. -/
theorem taken_shape (b : Block) (size : Nat) : ∃ b' rest, Heap.taken b size = b' :: rest ∧ b'.addr = b.addr ∧ b'.free = false := by
  unfold Heap.taken
  split
  · exact ⟨_, _, rfl, rfl, rfl⟩
  · exact ⟨_, _, rfl, rfl, rfl⟩

section

variable [Layout]

/-- Free pointers one after the other. -/
def kfreeAll : List Nat → K Unit
  | [] => pure ()
  | p :: ps => do
      kfree p
      kfreeAll ps

variable {own : Nat → Owner} {free live held ps : List Nat} {taken : Set Nat} {s s' : Kernel} {halt : Halt → Kernel → Prop}

/-- Freeing live pointers marks their blocks and coalesces the list. -/
theorem HeapRunInv.kfreeAll_exact (inv : HeapRunInv live held taken own free blocks s) (distinct : ps.Nodup)
    (isLive : ∀ p ∈ ps, p ∈ live) :
    wp (kfreeAll ps) s (fun _ s' => HeapRunInv (live.diff ps) held taken own free
      (coalesce (markFree (ps.map (· - blockSize)) blocks)) s') halt := by
  induction ps generalizing live blocks s with
  | nil =>
      rw [kfreeAll, List.map_nil, markFree_nil, inv.state.coalesced.coalesce_eq]
      exact (wp_pure ()).mpr inv
  | cons p ps ih =>
      obtain ⟨fresh, distinct⟩ := List.nodup_cons.mp distinct
      have others : ∀ q ∈ ps, q ∈ live.erase p := fun q member =>
        (List.mem_erase_of_ne fun equal => fresh (by rwa [← equal])).mpr (isLive q (by simp [member]))
      have here := isLive p (by simp)
      rw [kfreeAll]
      refine wp_bind_of (inv.kfree_exact here) fun _ s₁ inv₁ => ?_
      refine wp_mono (ih inv₁ distinct others) ?_ fun _ _ => id
      intro _ s' inv'
      -- the blocks still to be freed are in use, also once `p` is free
      have inUse : ∀ c ∈ markFree [p - blockSize] blocks, c.free = true → c.addr ∉ ps.map (· - blockSize) := by
        intro c member isFree marked
        obtain ⟨q, inside, addr⟩ := List.mem_map.mp marked
        obtain ⟨d, memberD, rfl⟩ := List.mem_map.mp member
        obtain ⟨e, memberE, used, rfl⟩ := inv.live_block (isLive q (by simp [inside]))
        obtain ⟨f, _, _, rfl⟩ := inv.live_block here
        simp only [Block.payload, blockSize, Nat.add_sub_cancel, List.mem_singleton] at addr isFree fresh inside
        by_cases first : d.addr = f.addr
        · rw [if_pos first] at addr
          exact fresh (by rwa [addr, first] at inside)
        · rw [if_neg first] at addr isFree
          rw [inv.state.heap.eq_of_addr memberE memberD addr, isFree] at used
          cases used
      rw [coalesce_markFree_coalesce inUse, markFree_markFree] at inv'
      rw [List.diff_cons, List.map_cons]
      have both : ∀ a, a ∈ ps.map (· - blockSize) ++ [p - blockSize] ↔ a ∈ (p - blockSize) :: ps.map (· - blockSize) := by
        simp [or_comm]
      rwa [markFree_congr both] at inv'

/-- `kmalloc` keeps the seams of the list. -/
theorem kmalloc_seamed (state : HeapState own free blocks s) (seamed : Seamed 0 blocks) (n : Nat) :
    wp (kmalloc n) s (fun _ s' => ∃ blocks', HeapList blocks' s' ∧ Seamed 0 blocks') halt := by
  by_cases zero : n = 0
  · subst zero
    exact (wp_pure 0).mpr ⟨blocks, state.heap.list, seamed⟩
  by_cases small : alignUp n kmallocAlign ≤ 4048
  · refine wp_mono (kmalloc_accepted state rfl zero small) ?_ fun _ _ => id
    rintro p s' (⟨_, rfl, _⟩ | ⟨own', free', xs, b, ys, rfl, taken⟩)
    · exact ⟨blocks, state.heap.list, seamed⟩
    refine ⟨_, taken.heap.list, ?_⟩
    have before : Seamed 0 (xs ++ b :: ys) := by
      rcases taken.origin with ⟨rfl, _⟩ | ⟨rfl, rfl, page, rfl, shape⟩
      · exact seamed
      · have isPage := (state.pool.pages page (by simp [(state.pool.mem_iff page).mp (by simp [shape])])).1
        have alone : Seamed 0 (xs ++ []) := by simpa using seamed
        exact alone.append_mono fun _ => Seamed.page isPage
    rw [List.append_assoc]
    exact before.append_mono fun _ => Seamed.taken
  · rw [kmalloc_eq_zero (Nat.lt_of_not_le small)]
    exact (wp_pure 0).mpr ⟨blocks, state.heap.list, seamed⟩

/-- In every reachable heap the blocks are cut out of the pages in the order of
the list. -/
theorem HeapRun.seamed (run : HeapRun live held taken s) : ∃ blocks, HeapList blocks s ∧ Seamed 0 blocks := by
  induction run with
  | start emptyHead emptyTail init =>
      obtain ⟨free, state, _⟩ := wp_returned (pageInit_heapState emptyHead emptyTail) init
      exact ⟨[], state.heap.list, rfl⟩
  | kmalloc before returned ih =>
      obtain ⟨own, free, blocks, inv⟩ := before.inv
      obtain ⟨blocks₀, list, seamed⟩ := ih
      exact wp_returned (kmalloc_seamed inv.state (list.unique inv.state.heap.list ▸ seamed) _) returned
  | kfree before isLive returned ih =>
      obtain ⟨own, free, blocks, inv⟩ := before.inv
      obtain ⟨blocks₀, list, seamed⟩ := ih
      obtain rfl := list.unique inv.state.heap.list
      have after := wp_returned (inv.kfree_exact isLive) returned
      exact ⟨_, after.state.heap.list, (seamed.markFree _).coalesce⟩
  | write before isLive inside ih =>
      obtain ⟨own, free, blocks, inv⟩ := before.inv
      obtain ⟨blocks₀, list, seamed⟩ := ih
      obtain rfl := list.unique inv.state.heap.list
      exact ⟨blocks₀, (inv.write_step isLive inside _).state.heap.list, seamed⟩
  | other before change ih =>
      obtain ⟨own, free, blocks, inv⟩ := before.inv
      obtain ⟨blocks₀, list, seamed⟩ := ih
      obtain rfl := list.unique inv.state.heap.list
      obtain ⟨own', free', inv'⟩ := inv.other_step change
      exact ⟨blocks₀, inv'.state.heap.list, seamed⟩

/-- The pages of the heap, in the order of the list. -/
theorem HeapRunInv.mem_pages (inv : HeapRunInv live held taken own free blocks s) {p : Nat} :
    p ∈ listPages blocks ↔ p ∈ taken := by
  have own_page : ∀ {p : Nat}, p % 4096 = 0 → pageOf p = p := fun aligned => by
    unfold pageOf
    omega
  rw [mem_listPages, inv.taken_iff]
  constructor
  · rintro ⟨aligned, inside⟩
    have inHeap := (inv.state.heap.cover p).mpr inside
    rwa [own_page aligned] at inHeap
  · intro isHeap
    have isPage := (inv.state.pool.pages p (by simp [isHeap])).1
    refine ⟨isPage, (inv.state.heap.cover p).mp ?_⟩
    rwa [own_page isPage]

/-- `kmalloc` of a size for which there is a free block, and `kfree` of the
result: the list of blocks is what it was. -/
theorem kfree_kmalloc (run : HeapRun live held taken s) {size : Nat} (positive : size ≠ 0)
    (accepted : alignUp size kmallocAlign ≤ pageSize - blockSize) (list : HeapList blocks s)
    (fits : ∃ b ∈ blocks, b.Fits (alignUp size kmallocAlign)) :
    ∃ p s₁ s₂, kmalloc size s = .ok p s₁ ∧ p ≠ 0 ∧ kfree p s₁ = .ok () s₂ ∧ HeapList blocks s₂ := by
  obtain ⟨own, free, blocks', inv⟩ := run.inv
  obtain rfl := list.unique inv.state.heap.list
  obtain ⟨c, member, fits⟩ := fits
  obtain ⟨p, s₁, returned, ⟨_, _, _, none⟩ | ⟨own', free', xs, b, ys, rfl, taken⟩⟩ := wp_total
    (kmalloc_accepted inv.state (n := size) rfl positive accepted)
  · exact absurd fits (none c member)
  rcases taken.origin with ⟨rfl, _⟩ | ⟨rfl, _⟩
  swap
  · exact absurd fits (taken.skipped c member)
  have heap := taken.heap
  have distinct := (List.nodup_cons.mp heap.cycle.nodup).2
  have back := coalesce_taken inv.state.coalesced taken.isFree distinct
  have coalesced := taken.coalesced
  obtain ⟨b', rest, shape, addr, used⟩ := taken_shape b (alignUp size kmallocAlign)
  have regroup : xs ++ Heap.taken b (alignUp size kmallocAlign) ++ ys = xs ++ b' :: (rest ++ ys) := by simp [shape]
  rw [regroup] at heap distinct back
  rw [← List.append_assoc, regroup] at coalesced
  rw [← addr, markFree_split distinct] at back
  obtain ⟨_, s₂, freed, heap₂, _⟩ := wp_total (kfree_coalesce heap taken.pool coalesced used)
  rw [back] at heap₂
  rw [addr] at freed
  exact ⟨_, s₁, s₂, returned, by omega, freed, heap₂.list⟩

/-- The order of frees does not matter: two live pointers, or any set of them,
leave one list of blocks. Freeing all of them leaves one free block for each
maximal run of the pages of the heap, in the order of the list. -/
theorem kfree_any_order (run : HeapRun live held taken s) (list : HeapList blocks s) :
    (∀ p ∈ live, ∀ q ∈ live, p ≠ q → ∃ blocks' s₁ s₂, kfreeAll [p, q] s = .ok () s₁ ∧
      kfreeAll [q, p] s = .ok () s₂ ∧ HeapList blocks' s₁ ∧ HeapList blocks' s₂) ∧
    (∀ ps : List Nat, ps.Nodup → (∀ p ∈ ps, p ∈ live) → ∃ blocks', ∀ qs, qs.Perm ps → ∃ s',
      kfreeAll qs s = .ok () s' ∧ HeapList blocks' s') ∧
    (∀ p, p ∈ listPages blocks ↔ p ∈ taken) ∧
    ∀ ps, ps.Perm live → ∃ s', kfreeAll ps s = .ok () s' ∧
      HeapList ((pageRuns (listPages blocks)).map runBlock) s' := by
  obtain ⟨own, free, blocks', inv⟩ := run.inv
  obtain rfl := list.unique inv.state.heap.list
  have orders : ∀ ps : List Nat, ps.Nodup → (∀ p ∈ ps, p ∈ live) → ∃ blocks', ∀ qs, qs.Perm ps → ∃ s',
      kfreeAll qs s = .ok () s' ∧ HeapList blocks' s' := by
    intro ps distinct isLive
    refine ⟨coalesce (markFree (ps.map (· - blockSize)) blocks), fun qs perm => ?_⟩
    obtain ⟨_, s', returned, after⟩ := wp_total
      (inv.kfreeAll_exact (perm.nodup_iff.mpr distinct) fun q member => isLive q (perm.mem_iff.mp member))
    refine ⟨s', returned, ?_⟩
    rw [← markFree_congr fun a => (perm.map (· - blockSize)).mem_iff]
    exact after.state.heap.list
  refine ⟨fun p hp q hq ne => ?_, orders, fun p => inv.mem_pages, fun ps perm => ?_⟩
  · obtain ⟨blocks', any⟩ := orders [p, q] (by simpa using ne) (by simp [hp, hq])
    obtain ⟨s₁, first, list₁⟩ := any [p, q] (.refl _)
    obtain ⟨s₂, second, list₂⟩ := any [q, p] (.swap _ _ _)
    exact ⟨blocks', s₁, s₂, first, second, list₁, list₂⟩
  · have distinct : live.Nodup := inv.sound.distinct
    obtain ⟨_, s', returned, after⟩ := wp_total
      (inv.kfreeAll_exact (perm.nodup_iff.mpr distinct) fun q member => perm.mem_iff.mp member)
    refine ⟨s', returned, ?_⟩
    obtain ⟨blocks₀, list₀, seamed⟩ := run.seamed
    obtain rfl := list.unique list₀
    have allFree : ∀ b ∈ coalesce (markFree (ps.map (· - blockSize)) blocks), b.free = true := by
      intro b member
      by_contra used
      have inUse := after.live_perm.mem_iff.mpr (List.mem_map_of_mem (mem_usedBlocks.mpr ⟨member, by simpa using used⟩))
      rw [List.Nodup.mem_sdiff_iff distinct] at inUse
      exact inUse.2 (perm.mem_iff.mpr inUse.1)
    have whole := ((seamed.markFree (ps.map (· - blockSize))).coalesce).whole_pages rfl (coalesced_coalesce _) allFree
    have final := pageRuns_listPages whole (coalesced_coalesce _) allFree
    rw [listPages_coalesce, listPages_markFree] at final
    rw [final]
    exact after.state.heap.list

end

section

attribute [local instance] Layout.sample

/-- A heap of one page with two blocks in use. -/
theorem heapRun_two : ∃ page taken s, HeapRun [page + 128, page + 48] [] taken s ∧
    HeapList [⟨page, 32, false⟩, ⟨page + 80, 32, false⟩, ⟨page + 160, 3888, true⟩] s := by
  obtain ⟨own, free, s₀, run₀, state₀, room⟩ := heapRun_sample
  have isSize : alignUp 24 kmallocAlign = 32 := by decide
  obtain ⟨p, s₁, first, ⟨_, _, empty⟩ | ⟨own₁, page, rest, shape, rfl, state₁, _⟩⟩ := wp_total
    (kmalloc_fresh state₀ isSize (by decide) (by decide))
  · exact absurd empty room
  have run₁ := run₀.kmalloc first
  rw [if_neg (by omega)] at run₁
  have split : Heap.taken ⟨page, 4048, true⟩ 32 = [⟨page, 32, false⟩] ++ ⟨page + 80, 3968, true⟩ :: [] := rfl
  rw [split] at state₁
  obtain ⟨q, s₂, second, rfl, own₂, state₂, _⟩ := wp_total
    (kmalloc_first state₁ isSize (by decide) (by decide) rfl (by simp) (by simp))
  have run₂ := run₁.kmalloc second
  rw [if_neg (by omega)] at run₂
  exact ⟨page, _, s₂, run₂, state₂.heap.list⟩

/-- A third request, and its free. -/
theorem kfree_kmalloc_sample : ∃ blocks p s s₁ s₂, HeapList blocks s ∧ kmalloc 100 s = .ok p s₁ ∧ p ≠ 0 ∧
    kfree p s₁ = .ok () s₂ ∧ HeapList blocks s₂ := by
  obtain ⟨page, taken, s, run, list⟩ := heapRun_two
  have size : alignUp 100 kmallocAlign = 112 := by decide
  obtain ⟨p, s₁, s₂, returned, nonzero, freed, same⟩ := kfree_kmalloc run (show 100 ≠ 0 by decide) (by decide) list
    ⟨⟨page + 160, 3888, true⟩, by simp, rfl, by simp [size]⟩
  exact ⟨_, p, s, s₁, s₂, list, returned, nonzero, freed, same⟩

/-- Two frees in both orders. -/
theorem kfree_any_order_sample : ∃ p q s blocks s₁ s₂, p ≠ q ∧ kfreeAll [p, q] s = .ok () s₁ ∧
    kfreeAll [q, p] s = .ok () s₂ ∧ HeapList blocks s₁ ∧ HeapList blocks s₂ := by
  obtain ⟨page, taken, s, run, list⟩ := heapRun_two
  have distinct : page + 128 ≠ page + 48 := by omega
  obtain ⟨blocks, s₁, s₂, both⟩ := (kfree_any_order run list).1 (page + 128) (by simp) (page + 48) (by simp) distinct
  exact ⟨_, _, s, blocks, s₁, s₂, distinct, both⟩

end

end KuroOS
