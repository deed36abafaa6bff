import KuroOS.Memory.PageUse

/-!
# The page allocator on any range

`page_init_range` may be given any range. Where no whole page of it holds a byte
of the list head, the pages of the range are divided between the ring of free
pages and the holders, whatever the holders write. A page that contains the list
head would be linked into the ring that it carries.
-/

namespace KuroOS

open Base

/-- The aligned pages that lie wholly in a range. -/
def RangePage (start last p : Nat) : Prop := p % 4096 = 0 ∧ start ≤ p ∧ p + 4096 ≤ last

/-- A range that `page_init_range` can be given: its end is a page border, and
`end + PAGE_SIZE` does not wrap. -/
structure GoodRange (start last : Nat) : Prop where
  positive : 0 < start
  order : start ≤ last
  aligned : last % 4096 = 0
  fits : last + 4096 < 2 ^ 64

section

variable [Layout]

/-- No page of the range holds a byte of the list head. -/
def HeadOutside (start last : Nat) : Prop := ∀ x ∈ node Layout.freePageList, ¬ RangePage start last (pageOf x)

/-- Code that uses the pages of a range, from `page_init_range` on. -/
inductive RangeRun (start last : Nat) : List Nat → Kernel → Prop where
  | start {s₀ s : Kernel} (init : pageInitRange start last s₀ = .ok () s) : RangeRun start last [] s
  | step {held held' : List Nat} {s s' : Kernel} (before : RangeRun start last held s)
      (change : PageStep held s held' s') : RangeRun start last held' s'

/-- The pages of the range are on the ring of free pages or held, and counted. -/
structure RangePool (start last : Nat) (free held : List Nat) (s : Kernel) : Prop where
  ring : Ring s.mem Layout.freePageList free
  distinct : (free ++ held).Nodup
  pages : ∀ p, p ∈ free ++ held ↔ RangePage start last p
  count : s.nrFreePages = free.length
  total : s.nrTotalPages = free.length + held.length

variable {start last p : Nat} {free held held' : List Nat} {s s' : Kernel} {halt : Halt → Kernel → Prop}

omit [Layout] in
/-- The node of a page overlaps no other page's node. -/
theorem RangePage.apart {q : Nat} (page : RangePage start last p) (page' : RangePage start last q) (ne : p ≠ q) :
    Apart p q := by
  unfold RangePage at page page'
  unfold Apart
  omega

omit [Layout] in
theorem RangePage.ne_zero (positive : 0 < start) (page : RangePage start last p) : p ≠ 0 := by
  unfold RangePage at page
  omega

/-- Nor the list head. -/
theorem HeadOutside.apart (outside : HeadOutside start last) (page : RangePage start last p) : Apart p Layout.freePageList := by
  have first := outside Layout.freePageList ⟨Nat.le_refl _, by omega⟩
  have second := outside (Layout.freePageList + 15) ⟨by omega, by omega⟩
  unfold RangePage pageOf at *
  unfold Apart
  omega

namespace RangePool

/-- There are fewer pages than a word can count. -/
theorem few (pool : RangePool start last free held s) (fits : last < 2 ^ 64) : free.length + held.length < 2 ^ 63 := by
  have distinct : ((free ++ held).map (· / 4096)).Nodup := by
    refine pool.distinct.map_on fun p member q member' equal => ?_
    have page := (pool.pages p).mp member
    have page' := (pool.pages q).mp member'
    unfold RangePage at page page'
    omega
  have subset : (free ++ held).map (· / 4096) ⊆ List.range (2 ^ 52) := fun n member => by
    obtain ⟨p, inside, rfl⟩ := List.mem_map.mp member
    have page := (pool.pages p).mp inside
    unfold RangePage at page
    exact List.mem_range.mpr (by omega)
  have := (List.Nodup.subperm distinct subset).length_le
  rw [List.length_map, List.length_append, List.length_range] at this
  omega

/-- A held page is not free. -/
theorem held_apart (pool : RangePool start last free held s) (outside : HeadOutside start last) (member : p ∈ held) :
    RangePage start last p ∧ ∀ b ∈ Layout.freePageList :: free, Apart p b := by
  have page := (pool.pages p).mp (List.mem_append_right _ member)
  refine ⟨page, fun b inside => ?_⟩
  rcases List.mem_cons.mp inside with rfl | inside
  · exact outside.apart page
  · refine page.apart ((pool.pages b).mp (List.mem_append_left _ inside)) ?_
    rintro rfl
    exact (List.nodup_append.mp pool.distinct).2.2 p inside p member rfl

/-- `page_alloc` takes a page out of the ring, or there is none. -/
theorem alloc (pool : RangePool start last free held s) (fits : last < 2 ^ 64) :
    wp pageAlloc s (fun page s' => (page = 0 ∧ free = [] ∧ s' = s) ∨
      ∃ rest, free = page :: rest ∧ RangePool start last rest (page :: held) s') halt := by
  refine wp_mono (pageAlloc_ring pool.ring) ?_ fun _ _ => id
  rintro page s' (⟨empty, zero, same⟩ | ⟨rest, rfl, ring, _, globals⟩)
  · exact .inl ⟨zero, empty, same⟩
  have few := pool.few fits
  have count := pool.count
  have total := pool.total
  have perm : (rest ++ page :: held).Perm (page :: rest ++ held) := List.perm_middle
  rw [List.length_cons] at few count total
  refine .inr ⟨rest, rfl, ring, perm.nodup_iff.mpr pool.distinct, fun q => perm.mem_iff.trans (pool.pages q), ?_, ?_⟩
  · rw [globals]
    exact (wsub_of_le (by omega) (by omega)).trans (by omega)
  · rw [globals, List.length_cons]
    exact total.trans (by omega)

/-- `page_free` puts a held page in front. -/
theorem release (pool : RangePool start last free held s) (good : GoodRange start last) (outside : HeadOutside start last)
    (member : p ∈ held) :
    wp (pageFree p) s (fun _ s' => RangePool start last (p :: free) (held.erase p) s') halt := by
  obtain ⟨page, fresh⟩ := pool.held_apart outside member
  have bounds := good.fits
  have inRange := page.2.2
  refine wp_mono (pageFree_ring pool.ring (page.ne_zero good.positive) page.1 (by omega) fresh) ?_ fun _ _ => id
  rintro _ s' ⟨ring, _, globals⟩
  have few := pool.few (by omega)
  have count := pool.count
  have total := pool.total
  have perm : (p :: free ++ held.erase p).Perm (free ++ held) :=
    List.perm_middle.symm.trans ((List.perm_cons_erase member).symm.append_left free)
  have shorter := List.length_erase_of_mem member
  have some := List.length_pos_of_mem member
  refine ⟨ring, perm.nodup_iff.mpr pool.distinct, fun q => perm.mem_iff.trans (pool.pages q), ?_, ?_⟩
  · rw [globals, List.length_cons]
    exact (wadd_of_lt (by omega)).trans (by omega)
  · rw [globals, List.length_cons]
    exact total.trans (by omega)

/-- What holders write in their pages is not in the ring. -/
theorem write (pool : RangePool start last free held s) (outside : HeadOutside start last) {x : Nat} (member : pageOf x ∈ held)
    (value : UInt8) : RangePool start last free held { s with mem := Function.update s.mem x value } := by
  obtain ⟨page, _⟩ := pool.held_apart outside member
  refine ⟨pool.ring.congr fun y inside => Function.update_of_ne ?_ _ _, pool.distinct, pool.pages, pool.count, pool.total⟩
  rintro rfl
  obtain ⟨b, known, inNode⟩ := inside
  rcases List.mem_cons.mp known with rfl | known
  · exact outside y inNode page
  · have isPage := (pool.pages b).mp (List.mem_append_left _ known)
    have here : pageOf y = b := pageOf_of_mem isPage.1 inNode.1 (by have := inNode.2; omega)
    exact (List.nodup_append.mp pool.distinct).2.2 b known b (here ▸ member) rfl

/-- What the holders do keeps the division of the pages. -/
theorem step (pool : RangePool start last free held s) (good : GoodRange start last) (outside : HeadOutside start last)
    (change : PageStep held s held' s') : ∃ free', RangePool start last free' held' s' := by
  have fits := good.fits
  cases change with
  | alloc returned success =>
      rcases wp_returned (pool.alloc (by omega)) returned with ⟨zero, _⟩ | ⟨rest, _, pool'⟩
      · exact absurd zero success
      · exact ⟨rest, pool'⟩
  | free holds returned =>
      have after := wp_returned (pool.release good outside holds) returned
      exact ⟨_, after⟩
  | write holds => exact ⟨free, pool.write outside holds _⟩

end RangePool

/-- The loop of `page_init_range` frees the pages from `p` on. -/
theorem pageInitLoop_range (good : GoodRange start last) (outside : HeadOutside start last) {fuel : Nat} (aligned : p % 4096 = 0)
    (low : start ≤ p) (high : p ≤ last) (enough : (last - p) / 4096 < fuel) (pool : RangePool start p free [] s) :
    wp (pageInitLoop last fuel p) s (fun _ s' => ∃ free', RangePool start last free' [] s') halt := by
  have fits := good.fits
  have endAligned := good.aligned
  induction fuel generalizing p free s with
  | zero => omega
  | succ fuel ih =>
      have next : wadd p pageSize = p + 4096 := wadd_of_lt (by simp only [pageSize]; omega)
      rw [pageInitLoop, next]
      split
      · next more =>
          have page : RangePage start last p := ⟨aligned, low, more⟩
          have smaller : ∀ {q}, RangePage start p q → RangePage start last q := fun inside => ⟨inside.1, inside.2.1, by
            have := inside.2.2
            omega⟩
          have fresh : ∀ b ∈ Layout.freePageList :: free, Apart p b := by
            intro b member
            rcases List.mem_cons.mp member with rfl | member
            · exact outside.apart page
            · have before := (pool.pages b).mp (by simpa using member)
              refine page.apart (smaller before) ?_
              have := before.2.2
              omega
          simp only [wp_bind, wp_modify]
          refine wp_mono (pageFree_ring pool.ring (page.ne_zero good.positive) aligned (by omega) fresh) ?_ fun _ _ => id
          rintro _ s₁ ⟨ring, _, globals⟩
          refine ih (by omega) (by omega) (by omega) (by omega) (?_ : RangePool _ _ (p :: free) _ _)
          refine ⟨ring, ?_, fun q => ?_, ?_, ?_⟩
          · have distinct := pool.distinct
            rw [List.append_nil] at distinct ⊢
            refine List.nodup_cons.mpr ⟨fun again => ?_, distinct⟩
            have := ((pool.pages p).mp (by simpa using again)).2.2
            omega
          · have known := pool.pages q
            rw [List.append_nil] at known ⊢
            rw [List.mem_cons, known]
            unfold RangePage
            omega
          · have few := pool.few (by omega)
            have counted : s₁.nrFreePages = wadd s.nrFreePages 1 := by rw [globals]
            rw [counted, pool.count, List.length_cons]
            exact wadd_of_lt (by omega)
          · have few := pool.few (by omega)
            have counted : s₁.nrTotalPages = wadd s.nrTotalPages 1 := by rw [globals]
            rw [counted, pool.total, List.length_cons, List.length_nil]
            exact wadd_of_lt (by omega)
      · next done =>
          have same : p = last := by
            simp only [not_le] at done
            omega
          exact (wp_pure ()).mpr ⟨free, same ▸ pool⟩

/-- `page_init_range` frees every page of the range. -/
theorem pageInitRange_spec (good : GoodRange start last) (outside : HeadOutside start last) :
    wp (pageInitRange start last) s (fun _ s' => ∃ free, RangePool start last free [] s') halt := by
  have head := freePageList_facts
  have fits := good.fits
  have order := good.order
  have endAligned := good.aligned
  have first : alignUp start pageSize = (start + 4095) / 4096 * 4096 := alignUp_page (by omega)
  have isAligned : pageAligned last = true := pageAligned_iff.mpr good.aligned
  unfold pageInitRange
  simp only [wp_bind, wp_kassert, isAligned, if_true, wp_modifyMem, wp_modify, first]
  refine pageInitLoop_range good outside (by omega) (by omega) (by omega) (by unfold loopBound; omega)
    (?_ : RangePool _ _ [] _ _)
  refine ⟨initListHead_ring (by omega), List.nodup_nil, fun q => ?_, rfl, rfl⟩
  unfold RangePage
  simp
  omega

/-- The pages of a range are divided in every state of a run. -/
theorem RangeRun.pool (run : RangeRun start last held s) (good : GoodRange start last) (outside : HeadOutside start last) :
    ∃ free, RangePool start last free held s := by
  induction run with
  | start init => exact wp_returned (pageInitRange_spec good outside) init
  | step before change ih =>
      obtain ⟨free, pool⟩ := ih
      exact pool.step good outside change

/-- The contract of the page allocator, in every state of a run on a range whose
pages do not contain the list head. -/
theorem page_allocator_contract (good : GoodRange start last) (outside : HeadOutside start last) :
    (∀ s₀, ∃ s, pageInitRange start last s₀ = .ok () s) ∧
    ∀ held s, RangeRun start last held s →
      (∃ page s', pageAlloc s = .ok page s' ∧ (page = 0 ↔ ∀ p, RangePage start last p → p ∈ held) ∧
        (page = 0 → s' = s) ∧ (page ≠ 0 → RangePage start last page ∧ page ∉ held)) ∧
      (∃ free : List Nat, Ring s.mem Layout.freePageList free ∧ free.Nodup ∧
        (∀ p, p ∈ free ↔ RangePage start last p ∧ p ∉ held) ∧ pageFreeCount s = free.length) ∧
      (held.Nodup ∧ (∀ p ∈ held, RangePage start last p) ∧ pageUsedCount s = held.length) ∧
      ∀ p ∈ held, ∃ s₁ s₂, pageFree p s = .ok () s₁ ∧ pageAlloc s₁ = .ok p s₂ := by
  have fits := good.fits
  refine ⟨fun s₀ => ?_, fun held s run => ?_⟩
  · obtain ⟨_, s, returned, _⟩ := wp_total (pageInitRange_spec good outside (s := s₀))
    exact ⟨s, returned⟩
  obtain ⟨free, pool⟩ := run.pool good outside
  obtain ⟨freeDistinct, heldDistinct, disjoint⟩ := List.nodup_append.mp pool.distinct
  have heldPage : ∀ p ∈ held, RangePage start last p := fun p member => (pool.pages p).mp (List.mem_append_right _ member)
  have free_iff : ∀ p, p ∈ free ↔ RangePage start last p ∧ p ∉ held := fun p => by
    rw [← pool.pages p, List.mem_append]
    exact ⟨fun isFree => ⟨.inl isFree, fun isHeld => disjoint p isFree p isHeld rfl⟩, fun both => both.1.resolve_right both.2⟩
  refine ⟨?_, ⟨free, pool.ring, freeDistinct, free_iff, pool.count⟩, ⟨heldDistinct, heldPage, ?_⟩, fun p member => ?_⟩
  · obtain ⟨page, s', returned, ⟨rfl, rfl, same⟩ | ⟨rest, rfl, pool'⟩⟩ := wp_total (pool.alloc (by omega))
    · refine ⟨0, s', returned, iff_of_true rfl fun p page => ?_, fun _ => same, fun nonzero => absurd rfl nonzero⟩
      by_contra notHeld
      simpa using (free_iff p).mpr ⟨page, notHeld⟩
    · have here := (free_iff page).mp (by simp)
      have nonzero := here.1.ne_zero good.positive
      exact ⟨page, s', returned, iff_of_false nonzero fun all => here.2 (all page here.1), fun zero => absurd zero nonzero,
        fun _ => here⟩
  · have few := pool.few (by omega)
    unfold pageUsedCount
    rw [pool.total, pool.count, wsub_of_le (by omega) (by omega)]
    omega
  · obtain ⟨_, s₁, freed, pool₁⟩ := wp_total (pool.release good outside member)
    obtain ⟨page, s₂, returned, ⟨_, empty, _⟩ | ⟨rest, shape, _⟩⟩ := wp_total (pool₁.alloc (by omega))
    · simp at empty
    · obtain ⟨rfl, _⟩ := List.cons.inj shape
      exact ⟨s₁, s₂, freed, returned⟩

end

/-- A node that is linked after itself. -/
theorem listAdd_self (mem : Mem) {a : Nat} (fits : a < 2 ^ 64) : nextOf (listAdd mem a a) a = a := by
  unfold listAdd listInsert nextOf
  exact Mem.load_store_same fits

section

attribute [local instance] Layout.sample

/-- The range that `page_init` passes. -/
theorem page_allocator_contract_sample : ∃ s page s', pageInitRange 0x80400000 0x88000000 .blank = .ok () s ∧
    pageAlloc s = .ok page s' ∧ (page ≠ 0 → RangePage 0x80400000 0x88000000 page) := by
  have outside : HeadOutside 0x80400000 0x88000000 := by
    rintro x ⟨low, high⟩ ⟨_, inside, _⟩
    have here : Layout.freePageList = 0x80200000 := rfl
    unfold pageOf at inside
    omega
  obtain ⟨starts, runs⟩ := page_allocator_contract ⟨by decide, by decide, by decide, by decide⟩ outside
  obtain ⟨s, init⟩ := starts .blank
  obtain ⟨⟨page, s', returned, _, _, fresh⟩, _⟩ := runs [] s (.start init)
  exact ⟨s, page, s', init, returned, fun nonzero => (fresh nonzero).1⟩

/-- A range with the page of the list head: `page_init_range` links that page into
the ring that begins in it, and the page is lost. -/
theorem page_of_head_lost : ∃ s, pageInitRange 0x80200000 0x80201000 .blank = .ok () s ∧ ∃ s', pageAlloc s = .ok 0 s' := by
  have first : alignUp 0x80200000 pageSize = 0x80200000 := by decide
  have step : wadd 0x80200000 pageSize = 0x80201000 := by decide
  have aligned : pageAligned 0x80201000 = true := by decide
  have isPage : pageAligned 0x80200000 = true := by decide
  obtain ⟨fuel, bound⟩ : ∃ f, loopBound = f + 2 := ⟨loopBound - 2, rfl⟩
  have program : wp (pageInitRange 0x80200000 0x80201000) .blank (fun _ s => nextOf s.mem 0x80200000 = 0x80200000)
      fun _ _ => False := by
    unfold pageInitRange
    simp only [wp_bind, wp_kassert, aligned, if_true, wp_modifyMem, wp_modify, first, bound]
    rw [pageInitLoop, step, if_pos (by decide)]
    simp only [wp_bind, wp_modify, pageFree, wp_kassert, isPage, ne_eq, Nat.reduceEqDiff, not_false_eq_true, if_true, wp_modifyMem]
    rw [pageInitLoop, if_neg (by decide), wp_pure]
    exact listAdd_self _ (by decide)
  obtain ⟨_, s, init, loops⟩ := wp_total program
  refine ⟨s, init, s, ?_⟩
  have empty : listEmpty s.mem Layout.freePageList = true := by
    unfold listEmpty
    rw [show nextOf s.mem Layout.freePageList = Layout.freePageList from loops]
    exact beq_self_eq_true _
  have returns : wp pageAlloc s (fun page s' => page = 0 ∧ s' = s) fun _ _ => False := by
    unfold pageAlloc
    rw [wp_bind, wp_get, if_pos empty, wp_pure]
    exact ⟨rfl, rfl⟩
  obtain ⟨_, _, returned, rfl, rfl⟩ := wp_total returns
  exact returned

/-- So the contract does not hold on every range. -/
theorem page_allocator_contract_fails : ¬ ∀ start last held s, GoodRange start last → RangeRun start last held s →
    ∀ s', pageAlloc s = .ok 0 s' → ∀ p, RangePage start last p → p ∈ held := by
  intro claim
  obtain ⟨s, init, s', returned⟩ := page_of_head_lost
  have never := claim 0x80200000 0x80201000 [] s ⟨by decide, by decide, by decide, by decide⟩ (.start init) s' returned
    0x80200000 ⟨by decide, by decide, by decide⟩
  simp at never

end

end KuroOS
