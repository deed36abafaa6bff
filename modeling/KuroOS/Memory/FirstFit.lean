import KuroOS.Memory.HeapRun

/-!
# Which block `kmalloc` returns

`KmallocRounds` is the outer loop of `kmalloc` round by round, with the results
of its calls of `page_alloc`. From every reachable heap it stops after one round
or after two, with the first block that fits, with the block of a new page, or
with nothing. The block is as large as the request was, except for the fifteen
sizes that rounding takes to zero.
-/

namespace KuroOS

open Base

section

variable [Layout]

/-- The rounds of the outer loop of `kmalloc`: the results of the calls of
`heap_grow`, each of which calls `page_alloc` once and returns its page. -/
inductive KmallocRounds (size : Nat) : List Nat → Kernel → Nat → Kernel → Prop where
  | found {s s' : Kernel} {p : Nat} (found : kmallocFind size loopBound s.heapHead s = .ok (some p) s') :
      KmallocRounds size [] s p s'
  | full {s s₁ s' : Kernel} (missed : kmallocFind size loopBound s.heapHead s = .ok none s₁)
      (refused : heapGrow s₁ = .ok 0 s') : KmallocRounds size [0] s 0 s'
  | grown {calls : List Nat} {s s₁ s₂ s' : Kernel} {block p : Nat}
      (missed : kmallocFind size loopBound s.heapHead s = .ok none s₁) (grown : heapGrow s₁ = .ok block s₂)
      (nonzero : block ≠ 0) (rest : KmallocRounds size calls s₂ p s') :
      KmallocRounds size (block :: calls) s p s'

variable {own : Nat → Owner} {free live held : List Nat} {blocks xs ys : List Block} {b : Block} {taken : Set Nat}
  {s s' : Kernel}

/-- Every run of the loop that returns is a sequence of rounds. -/
theorem KmallocRounds.of_loop {size fuel : Nat} {p : Nat} (returned : kmallocLoop size fuel s = .ok p s') :
    ∃ calls, KmallocRounds size calls s p s' := by
  suffices whole : wp (kmallocLoop size fuel) s (fun p s' => ∃ calls, KmallocRounds size calls s p s') fun _ _ => True from
    wp_returned whole returned
  clear returned
  induction fuel generalizing s with
  | zero => exact (wp_throw _).mpr trivial
  | succ fuel ih =>
      rw [kmallocLoop]
      simp only [wp_bind, wp_get]
      refine wp_intro (fun r s₁ search => ?_) fun _ _ _ => trivial
      cases r with
      | some p => exact (wp_pure p).mpr ⟨[], .found search⟩
      | none =>
          simp only [wp_bind]
          refine wp_intro (fun block s₂ grew => ?_) fun _ _ _ => trivial
          by_cases zero : block = 0
          · subst zero
            rw [if_pos rfl]
            exact (wp_pure 0).mpr ⟨[0], .full search grew⟩
          · rw [if_neg zero]
            refine wp_mono ih ?_ fun _ _ => id
            rintro p s' ⟨calls, rest⟩
            exact ⟨block :: calls, .grown search grew zero rest⟩

/-- `heap_grow` returns what `page_alloc` did. -/
theorem heapGrow_page {block : Nat} (returned : heapGrow s = .ok block s') : ∃ s₁, pageAlloc s = .ok block s₁ := by
  suffices whole : wp heapGrow s (fun r _ => ∃ s₁, pageAlloc s = .ok r s₁) fun _ _ => True from wp_returned whole returned
  unfold heapGrow
  rw [wp_bind]
  refine wp_intro (fun page s₁ allocated => ?_) fun _ _ _ => trivial
  by_cases zero : page = 0
  · rw [if_pos zero]
    exact (wp_pure 0).mpr ⟨s₁, zero ▸ allocated⟩
  · rw [if_neg zero]
    simp only [wp_bind, wp_storeWord, heapAppend, wp_get, wp_setNext, wp_modify, wp_pure]
    exact ⟨s₁, allocated⟩

/-- A free block that is large enough. -/
def Block.Fits (b : Block) (size : Nat) : Prop := b.free = true ∧ size ≤ b.size

/-- The search from `heap_head` looks at the whole list. -/
theorem Heap.search (heap : Heap own blocks s) (pool : Pool own free s) {size : Nat} (multiple : size % 16 = 0) :
    wp (kmallocFind size loopBound s.heapHead) s (fun r s' =>
      (r = none ∧ s' = s ∧ ∀ b ∈ blocks, ¬ b.Fits size) ∨
      ∃ b ∈ blocks, r = some b.payload ∧ b.Fits size) fun _ _ => True := by
  have first : s.heapHead = Heap.nextAddr blocks := heap.cycle.next_head
  rw [first]
  refine wp_mono (kmallocFind_spec [] heap pool (heap.length_le pool) multiple) ?_ fun _ _ => id
  rintro r s' (missed | ⟨zs, b, rest, rfl, rfl, isFree, large, _⟩)
  · exact .inl missed
  · exact .inr ⟨b, by simp, rfl, isFree, large⟩

/-- With a block that fits, the first round finds one. -/
theorem KmallocRounds.calls_nil (heap : Heap own blocks s) (pool : Pool own free s) {size p : Nat} {calls : List Nat}
    (multiple : size % 16 = 0) (member : b ∈ blocks) (fits : b.Fits size) (rounds : KmallocRounds size calls s p s') :
    calls = [] := by
  have search := heap.search pool multiple
  have found : ∀ {r s₁}, kmallocFind size loopBound s.heapHead s = .ok r s₁ → r ≠ none := fun returned => by
    rcases wp_returned search returned with ⟨_, _, missed⟩ | ⟨_, _, rfl, _⟩
    · exact absurd fits (missed b member)
    · simp
  cases rounds with
  | found => rfl
  | full missed => exact absurd rfl (found missed)
  | grown missed => exact absurd rfl (found missed)

/-- What one call of `kmalloc` does with a size in range: `calls` are the results
of its calls of `page_alloc`. -/
structure FirstFit (blocks : List Block) (size : Nat) (s : Kernel) (calls : List Nat) (p : Nat) (s' : Kernel) :
    Prop where
  fitting : ∀ xs b ys, blocks = xs ++ b :: ys → b.Fits size → (∀ c ∈ xs, ¬ c.Fits size) →
    calls = [] ∧ p = b.payload ∧ HeapList (xs ++ Heap.taken b size ++ ys) s'
  growing : (∀ b ∈ blocks, ¬ b.Fits size) → ∃ page s₁, calls = [page] ∧ pageAlloc s = .ok page s₁ ∧
    ((page = 0 ∧ p = 0 ∧ s' = s) ∨
      (page ≠ 0 ∧ p = page + blockSize ∧ HeapList (blocks ++ Heap.taken ⟨page, pageSize - blockSize, true⟩ size) s'))

/-- What the loop of `kmalloc` returns determines its rounds. -/
theorem KmallocRounds.firstFit (state : HeapState own free blocks s) {size p : Nat} {calls : List Nat}
    (multiple : size % 16 = 0) (small : size ≤ 4048) (rounds : KmallocRounds size calls s p s')
    (outcome : (p = 0 ∧ s' = s ∧ free = [] ∧ ∀ b ∈ blocks, ¬ (b.free = true ∧ size ≤ b.size)) ∨
      ∃ own' free' xs b ys, p = b.addr + 48 ∧ KmallocTaken own free blocks s size own' free' xs b ys s') :
    FirstFit blocks size s calls p s' := by
  refine ⟨fun xs b ys split fits skipped => ?_, fun none => ?_⟩
  · refine ⟨rounds.calls_nil state.heap state.pool multiple (split ▸ by simp) fits, ?_⟩
    rcases outcome with ⟨_, _, _, none⟩ | ⟨own', free', xs', b', ys', rfl, taken⟩
    · exact absurd fits (none b (split ▸ by simp))
    rcases taken.origin with ⟨split', _⟩ | ⟨rfl, _⟩
    · obtain ⟨rfl, rfl, rfl⟩ := first_unique (split'.trans split) taken.skipped skipped
        ⟨taken.isFree, taken.fits⟩ fits
      exact ⟨rfl, taken.heap.list⟩
    · exact absurd fits (taken.skipped b (split ▸ by simp))
  have search := state.heap.search state.pool multiple
  have missed : ∀ {r s₁}, kmallocFind size loopBound s.heapHead s = .ok r s₁ → r = .none ∧ s₁ = s := fun returned => by
    rcases wp_returned search returned with ⟨rfl, rfl, _⟩ | ⟨c, member, _, fits⟩
    · exact ⟨rfl, rfl⟩
    · exact absurd fits (none c member)
  have grow : wp heapGrow s _ fun _ _ => True := heapGrow_spec state.heap state.pool
  cases rounds with
  | found found => exact absurd (missed found).1 (by simp)
  | full miss refused =>
      obtain ⟨_, rfl⟩ := missed miss
      obtain ⟨s₁, page⟩ := heapGrow_page refused
      rcases wp_returned grow refused with ⟨_, _, rfl⟩ | ⟨_, _, _, nonzero, _⟩
      · exact ⟨0, s₁, rfl, page, .inl ⟨rfl, rfl, rfl⟩⟩
      · exact absurd rfl nonzero
  | grown miss grew nonzero rest =>
      rename_i calls s₁ s₂ block
      obtain ⟨_, rfl⟩ := missed miss
      obtain ⟨s₃, page⟩ := heapGrow_page grew
      rcases wp_returned grow grew with ⟨zero, _⟩ | ⟨free₂, own₂, shape, _, pool₂, heap₂, _⟩
      · exact absurd zero nonzero
      -- the new block fits, so the second round is the last
      have stops : calls = [] :=
        rest.calls_nil heap₂ pool₂ multiple (b := ⟨block, 4048, true⟩) (by simp) ⟨rfl, small⟩
      rcases outcome with ⟨_, _, empty, _⟩ | ⟨own', free', xs', b', ys', rfl, taken⟩
      · simp [empty] at shape
      rcases taken.origin with ⟨split', _⟩ | ⟨rfl, rfl, page', rfl, shape'⟩
      · exact absurd ⟨taken.isFree, taken.fits⟩ (none b' (by simp [← split']))
      · obtain rfl : block = page' := (List.cons.inj (shape.symm.trans shape')).1
        refine ⟨block, s₃, by rw [stops], page, .inr ⟨nonzero, rfl, ?_⟩⟩
        simpa using taken.heap.list

omit [Layout] in
/-- Rounding up stays below a bound that is itself a multiple of 16. -/
theorem alignUp_le {size bound : Nat} (multiple : bound % 16 = 0) (word : bound < 2 ^ 64) (below : size ≤ bound) :
    size ≤ alignUp size kmallocAlign ∧ alignUp size kmallocAlign ≤ bound := by
  have value : wsub (wadd size kmallocAlign) 1 = size + 15 := by
    unfold wsub wadd
    simp only [kmallocAlign]
    omega
  have rounded : alignUp size kmallocAlign = (size + 15) / 16 * 16 := by
    unfold alignUp
    rw [value, show kmallocAlign - 1 = 2 ^ 4 - 1 from rfl, and_wnot_low (by omega) (by decide)]
    rfl
  rw [rounded]
  omega

omit [Layout] in
/-- The fifteen sizes at the top of the range are rounded to zero. -/
theorem alignUp_wraps {size : Nat} (word : size < 2 ^ 64) (top : 2 ^ 64 - 16 < size) : alignUp size kmallocAlign = 0 := by
  have value : wsub (wadd size kmallocAlign) 1 = size + 15 - 2 ^ 64 := by
    unfold wsub wadd
    simp only [kmallocAlign]
    omega
  unfold alignUp
  rw [value, show kmallocAlign - 1 = 2 ^ 4 - 1 from rfl, and_wnot_low (by omega) (by decide)]
  omega

/-- `kmalloc` past its checks. -/
theorem kmalloc_eq_loop {size : Nat} (positive : size ≠ 0) (small : alignUp size kmallocAlign ≤ pageSize - blockSize) :
    kmalloc size = kmallocLoop (alignUp size kmallocAlign) loopBound := by
  unfold kmalloc
  rw [if_neg positive]
  exact if_neg (Nat.not_lt.mpr small)

/-- `kmalloc` of a size that is too large. -/
theorem kmalloc_eq_zero {size : Nat} (large : pageSize - blockSize < alignUp size kmallocAlign) :
    kmalloc size = pure 0 := by
  unfold kmalloc
  split
  · rfl
  · exact if_pos large

/-- `kmalloc` takes the first free block that is large enough and asks for no
page. Without one it asks for one page and places the request there, or returns
0 and leaves everything as it was. It makes at most one call of `page_alloc`, so
at most two rounds. -/
theorem kmalloc_first_fit (run : HeapRun live held taken s) {size : Nat} (positive : 1 ≤ size)
    (small : size ≤ pageSize - blockSize) :
    ∃ blocks, HeapList blocks s ∧ ∃ calls p s', kmalloc size s = .ok p s' ∧
      KmallocRounds (alignUp size kmallocAlign) calls s p s' ∧ calls.length ≤ 1 ∧
      FirstFit blocks (alignUp size kmallocAlign) s calls p s' := by
  obtain ⟨own, free, blocks, inv⟩ := run.inv
  have bound := (alignUp_le (show 4048 % 16 = 0 by decide) (by decide) small).2
  obtain ⟨p, s', returned, outcome⟩ := wp_total
    (kmalloc_accepted inv.state (n := size) rfl (by omega) bound)
  obtain ⟨calls, rounds⟩ := KmallocRounds.of_loop (kmalloc_eq_loop (by omega) bound ▸ returned)
  have outcome := rounds.firstFit inv.state (alignUp_multiple size) bound outcome
  refine ⟨blocks, inv.state.heap.list, calls, p, s', returned, rounds, ?_, outcome⟩
  by_cases some : ∃ b ∈ blocks, b.Fits (alignUp size kmallocAlign)
  · obtain ⟨b, member, fits⟩ := some
    rw [rounds.calls_nil inv.state.heap inv.state.pool (alignUp_multiple size) member fits]
    exact Nat.zero_le 1
  · obtain ⟨page, _, only, _⟩ := outcome.growing fun b member fits => some ⟨b, member, fits⟩
    simp [only]

/-- Every block is in use and every page is. -/
def HeapFull (s : Kernel) : Prop :=
  freePages s = ∅ ∧ ∀ blocks, HeapList blocks s → ∀ b ∈ blocks, b.free = false

/-- A block that was taken is as large as the request was rounded to, and the
request was rounded to less than memory holds. -/
theorem KmallocTaken.size {own' : Nat → Owner} {free' : List Nat} {size : Nat}
    (taken : KmallocTaken own free blocks s size own' free' xs b ys s') :
    size ≤ blockBytes s'.mem b.addr ∧ blockBytes s'.mem b.addr < 2 ^ 32 := by
  obtain ⟨b', addr, used, large, _, only⟩ := usedBlocks_taken taken.fits
  have inside : b' ∈ xs ++ Heap.taken b size ++ ys := by
    have : b' ∈ usedBlocks (Heap.taken b size) := by simp [only]
    simp [(mem_usedBlocks.mp this).1]
  have word : blockBytes s'.mem b.addr = b'.size := by
    rw [← addr]
    exact (taken.heap.header b' inside).size
  have bounds := taken.heap.bounds taken.pool inside
  unfold Block.stop at bounds
  omega

/-- A size that rounding takes to zero gets any free block, or a new page. -/
theorem kmalloc_wrapped (state : HeapState own free blocks s) {size : Nat} {halt : Halt → Kernel → Prop}
    (word : size < 2 ^ 64) (top : 2 ^ 64 - 16 < size) :
    wp (kmalloc size) s (fun p s' => (p = 0 ∧ free = [] ∧ ∀ b ∈ blocks, b.free = false) ∨
      (p ≠ 0 ∧ blockBytes s'.mem (p - blockSize) < 2 ^ 32 ∧ ¬ (free = [] ∧ ∀ b ∈ blocks, b.free = false))) halt := by
  refine wp_mono (kmalloc_accepted state (alignUp_wraps word top) (by omega) (Nat.zero_le 4048)) ?_ fun _ _ => id
  rintro p s' (⟨rfl, _, empty, none⟩ | ⟨own', free', xs, b, ys, rfl, taken⟩)
  · refine .inl ⟨rfl, empty, fun b member => ?_⟩
    by_contra isFree
    exact none b member ⟨by simpa using isFree, Nat.zero_le _⟩
  · refine .inr ⟨by omega, ?_, ?_⟩
    · rw [show b.addr + 48 - blockSize = b.addr from Nat.add_sub_cancel b.addr 48]
      exact taken.size.2
    · rintro ⟨empty, used⟩
      rcases taken.origin with ⟨split, _⟩ | ⟨_, _, page, _, shape⟩
      · have := used b (by simp [← split])
        simp [taken.isFree] at this
      · simp [empty] at shape

/-- `kmalloc` returns 0 or a block with at least `size` bytes, for every size
that rounding up does not wrap, and for the others only where there is nothing
to return. -/
theorem kmalloc_large_enough_iff (run : HeapRun live held taken s) {size : Nat} (word : size < 2 ^ 64) :
    (∃ p s', kmalloc size s = .ok p s' ∧ (p = 0 ∨ size ≤ blockBytes s'.mem (p - blockSize))) ↔
      size ≤ 2 ^ 64 - 16 ∨ HeapFull s := by
  obtain ⟨own, free, blocks, inv⟩ := run.inv
  have full_iff : HeapFull s ↔ free = [] ∧ ∀ b ∈ blocks, b.free = false := by
    have pages : freePages s = ∅ ↔ free = [] := by
      simp only [Set.eq_empty_iff_forall_notMem, inv.state.pool.mem_freePages, List.eq_nil_iff_forall_not_mem,
        inv.state.pool.mem_iff]
    refine and_congr pages ⟨fun all => all blocks inv.state.heap.list, fun all blocks' list => ?_⟩
    rwa [list.unique inv.state.heap.list]
  by_cases fits : size ≤ 2 ^ 64 - 16
  · refine iff_of_true ?_ (.inl fits)
    have rounded := (alignUp_le (show (2 ^ 64 - 16) % 16 = 0 by decide) (by decide) fits).1
    by_cases zero : size = 0
    · subst zero
      exact ⟨0, s, rfl, .inl rfl⟩
    by_cases small : alignUp size kmallocAlign ≤ 4048
    · obtain ⟨p, s', returned, ⟨rfl, _⟩ | ⟨own', free', xs, b, ys, rfl, taken⟩⟩ := wp_total
        (kmalloc_accepted inv.state (n := size) rfl zero small)
      · exact ⟨0, s', returned, .inl rfl⟩
      · refine ⟨_, s', returned, .inr ?_⟩
        rw [show b.addr + 48 - blockSize = b.addr from Nat.add_sub_cancel b.addr 48]
        exact rounded.trans taken.size.1
    · refine ⟨0, s, ?_, .inl rfl⟩
      rw [kmalloc_eq_zero (Nat.lt_of_not_le small)]
      rfl
  · rw [or_iff_right fits, full_iff]
    obtain ⟨p, s', returned, outcome⟩ := wp_total (kmalloc_wrapped inv.state word (by omega))
    rcases outcome with ⟨rfl, full⟩ | ⟨nonzero, short, notFull⟩
    · exact iff_of_true ⟨0, s', returned, .inl rfl⟩ full
    · refine iff_of_false ?_ notFull
      rintro ⟨p', s'', again, outcome⟩
      cases returned.symm.trans again
      rcases outcome with zero | enough
      · exact nonzero zero
      · omega

end

section

attribute [local instance] Layout.sample

/-- A heap before its first call. -/
theorem heapRun_sample : ∃ own free s, HeapRun [] [] ∅ s ∧ HeapState own free [] s ∧ free ≠ [] := by
  obtain ⟨_, s, init, free, state, count, _⟩ := wp_total (pageInit_heapState (s := .blank) rfl rfl)
  refine ⟨_, free, s, .start rfl rfl init, state, fun empty => ?_⟩
  have many : free.length = 31744 := count.trans rfl
  simp [empty] at many

/-- The first request of 24 bytes. -/
theorem kmalloc_first_fit_sample : ∃ blocks calls p s s', HeapList blocks s ∧ kmalloc 24 s = .ok p s' ∧
    FirstFit blocks 32 s calls p s' := by
  obtain ⟨own, free, s, run, _⟩ := heapRun_sample
  obtain ⟨blocks, list, calls, p, s', returned, _, _, fit⟩ := kmalloc_first_fit run (show 1 ≤ 24 by decide) (by decide)
  exact ⟨blocks, calls, p, s, s', list, returned, fit⟩

/-- The largest size that is not wrapped. -/
theorem kmalloc_large_enough_sample : ∃ p s s', kmalloc (2 ^ 64 - 16) s = .ok p s' ∧
    (p = 0 ∨ 2 ^ 64 - 16 ≤ blockBytes s'.mem (p - blockSize)) := by
  obtain ⟨own, free, s, run, _⟩ := heapRun_sample
  obtain ⟨p, s', holds⟩ := (kmalloc_large_enough_iff run (show 2 ^ 64 - 16 < 2 ^ 64 by decide)).mpr (.inl (by decide))
  exact ⟨p, s, s', holds⟩

/-- `kmalloc(-1)` returns a block that is smaller than asked. -/
theorem kmalloc_large_enough_fails : ¬ ∀ live held taken s, HeapRun live held taken s → ∀ size < 2 ^ 64, ∀ p s',
    kmalloc size s = .ok p s' → p = 0 ∨ size ≤ blockBytes s'.mem (p - blockSize) := by
  intro claim
  obtain ⟨own, free, s, run, state, room⟩ := heapRun_sample
  obtain ⟨p, s', returned, outcome⟩ := wp_total
    (kmalloc_wrapped state (show 2 ^ 64 - 1 < 2 ^ 64 by decide) (by decide))
  rcases outcome with ⟨_, empty, _⟩ | ⟨nonzero, short, _⟩
  · exact room empty
  · rcases claim [] [] ∅ s run (2 ^ 64 - 1) (by decide) p s' returned with zero | enough
    · exact nonzero zero
    · omega

end

end KuroOS
