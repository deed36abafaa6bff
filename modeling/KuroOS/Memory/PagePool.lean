import KuroOS.Kernel.Page
import KuroOS.Base.Ownership
import Mathlib.Data.List.Perm.Subperm

/-!
# Who owns which page

`Pool own free s` is the page allocator's invariant: the free list of `s` is
the ring of the pages `own` calls free, and every page that has an owner is one
of the pages between the kernel image and the end of RAM. Allocating and
freeing change one page's owner; everything they do to memory is in free pages
and in the list head, which is what `PageMoves` records for any combination
of page operations.
-/

namespace KuroOS

open Base

/-- An address space: the kernel's own, a task's, or one under construction. -/
inductive Space where
  | kernel
  | task (t : Nat)
  | pending
deriving DecidableEq, Repr

/-- The use a page is in. Pages outside the pool have no use of their own;
`held` pages belong to code in the middle of an operation and `lost` pages to
nobody. -/
inductive Owner where
  | outside
  | free
  | heap
  | held
  | lost
  | table (space : Space)
  | data (space : Space)
  | kstack (t : Nat)
  | ustack (t : Nat)
deriving DecidableEq, Repr

/-- The page of an address inside an aligned page. -/
theorem pageOf_of_mem {p x : Nat} (aligned : p % 4096 = 0) (low : p ≤ x) (high : x < p + 4096) :
    pageOf x = p := by
  unfold pageOf
  omega

@[simp] theorem pageOf_aligned {p : Nat} (aligned : p % 4096 = 0) : pageOf p = p :=
  pageOf_of_mem aligned (Nat.le_refl p) (by omega)

variable [Layout]

/-- The pages that `page_init` hands to the allocator. -/
def PoolPage (p : Nat) : Prop :=
  p % 4096 = 0 ∧ Layout.kernelEnd ≤ p ∧ p + 4096 ≤ ramEnd

instance (p : Nat) : Decidable (PoolPage p) :=
  inferInstanceAs (Decidable (_ ∧ _ ∧ _))

/-- The free list holds exactly the free pages, and the counter counts them. -/
structure Pool (own : Nat → Owner) (free : List Nat) (s : Kernel) : Prop where
  ring : Ring s.mem Layout.freePageList free
  mem_iff : ∀ p, p ∈ free ↔ own p = .free
  pages : ∀ p, own p ≠ .outside → PoolPage p
  count : s.nrFreePages = free.length

/-- Page operations: `Moves` between the pages of the pool, with the list head
as the only memory outside it, and no other global touched. -/
structure PageMoves (C W : Set Owner) (own : Nat → Owner) (s : Kernel) (own' : Nat → Owner)
    (s' : Kernel) : Prop where
  moves : Moves pageOf (node Layout.freePageList) C W own s.mem own' s'.mem
  globals : s' = { s with mem := s'.mem, nrFreePages := s'.nrFreePages }

/-- Freeing the pages of a set: they become free, every other page keeps its
owner, and pages outside the set keep their bytes unless `W` owns them. -/
structure Releases (W : Set Owner) (A : Set Nat) (own : Nat → Owner) (s : Kernel)
    (own' : Nat → Owner) (s' : Kernel) : Prop where
  owner : ∀ q, (q ∈ A → own' q = .free) ∧ (q ∉ A → own' q = own q)
  bytes : ∀ x, own (pageOf x) ∉ W → pageOf x ∉ A → x ∉ node Layout.freePageList →
    s'.mem x = s.mem x
  globals : s' = { s with mem := s'.mem, nrFreePages := s'.nrFreePages }

/-- The pages on the free list. -/
def freePages (s : Kernel) : Set Nat := {p | ∃ free, Ring s.mem Layout.freePageList free ∧ p ∈ free}

theorem heads_facts : ∀ head ∈ [Layout.freePageList, Layout.runQueue, Layout.allTasks],
    0x80000000 ≤ head ∧ head + 16 ≤ Layout.kernelEnd ∧ head % 8 = 0 :=
  Layout.heads_in_image

theorem freePageList_facts : 0x80000000 ≤ Layout.freePageList ∧
    Layout.freePageList + 16 ≤ Layout.kernelEnd ∧ Layout.kernelEnd ≤ 0x88000000 :=
  have image := Layout.heads_in_image Layout.freePageList (by simp)
  ⟨image.1, image.2.1, Layout.kernelEnd_le⟩

namespace PoolPage

variable {p q : Nat}

theorem bounds (page : PoolPage p) :
    p % 4096 = 0 ∧ 0x80000000 < p ∧ p + 4096 ≤ 0x88000000 ∧ Layout.freePageList + 16 ≤ p := by
  obtain ⟨aligned, low, high⟩ := page
  have := freePageList_facts
  simp only [ramEnd] at high
  omega

theorem apart (page : PoolPage p) (page' : PoolPage q) (ne : p ≠ q) : Apart p q := by
  have := page.bounds
  have := page'.bounds
  unfold Apart
  omega

theorem apart_head (page : PoolPage p) : Apart p Layout.freePageList := by
  have := page.bounds
  unfold Apart
  omega

end PoolPage

namespace PageMoves

variable {C C' W W' : Set Owner} {own own' own'' : Nat → Owner} {s s' s'' : Kernel}

theorem refl : PageMoves C W own s own s := ⟨.refl, rfl⟩

theorem trans (first : PageMoves C W own s own' s') (second : PageMoves C W own' s' own'' s'') :
    PageMoves C W own s own'' s'' where
  moves := first.moves.trans second.moves
  globals := by
    have := first.globals
    rw [second.globals]
    generalize s''.mem = m, s''.nrFreePages = n
    rw [this]

theorem mono (moves : PageMoves C W own s own' s') (subC : C ⊆ C') (subW : W ⊆ W')
    (covered : C ⊆ W') : PageMoves C' W' own s own' s' :=
  ⟨moves.moves.mono subC subW covered, moves.globals⟩

theorem mono_owner (moves : PageMoves C W own s own' s') (subC : C ⊆ C') :
    PageMoves C' W own s own' s' :=
  ⟨moves.moves.mono_owner subC, moves.globals⟩

end PageMoves

namespace Releases

variable {A B : Set Nat} {C W W' : Set Owner} {own own' own'' : Nat → Owner} {s s' s'' : Kernel}

theorem refl : Releases W ∅ own s own s :=
  ⟨fun _ => ⟨fun impossible => impossible.elim, fun _ => rfl⟩, fun _ _ _ _ => rfl, rfl⟩

theorem trans (first : Releases W A own s own' s') (second : Releases W B own' s' own'' s'') :
    Releases W (A ∪ B) own s own'' s'' where
  owner q := by
    constructor
    · intro member
      by_cases later : q ∈ B
      · exact (second.owner q).1 later
      · rw [(second.owner q).2 later]
        exact (first.owner q).1 (member.resolve_right later)
    · intro outside
      rw [(second.owner q).2 fun later => outside (.inr later)]
      exact (first.owner q).2 fun earlier => outside (.inl earlier)
  bytes x inUse outside plain := by
    have kept := (first.owner (pageOf x)).2 fun earlier => outside (.inl earlier)
    rw [second.bytes x (kept ▸ inUse) (fun later => outside (.inr later)) plain]
    exact first.bytes x inUse (fun earlier => outside (.inl earlier)) plain
  globals := by
    have := first.globals
    rw [second.globals]
    generalize s''.mem = m, s''.nrFreePages = n
    rw [this]

/-- Allowing more pages to change. -/
theorem mono (releases : Releases W A own s own' s') (sub : W ⊆ W') : Releases W' A own s own' s' :=
  ⟨releases.owner, fun x outside => releases.bytes x fun inside => outside (sub inside),
    releases.globals⟩

/-- Freeing pages whose owners may change hands and be written. -/
theorem pageMoves (releases : Releases W A own s own' s') (members : ∀ q ∈ A, own q ∈ C)
    (free : Owner.free ∈ C) (sub : W ⊆ W') (covered : C ⊆ W') : PageMoves C W' own s own' s' where
  moves :=
    { owner := fun q => by
        by_cases member : q ∈ A
        · exact .inr ⟨members q member, (releases.owner q).1 member ▸ free⟩
        · exact .inl ((releases.owner q).2 member)
      closed := fun q outside => by
        rw [(releases.owner q).2 fun member => outside (covered (members q member))]
        exact outside
      bytes := fun x foreign plain => releases.bytes x (fun inside => foreign (sub inside))
        (fun member => foreign (covered (members _ member))) plain }
  globals := releases.globals

end Releases

/-- `page_alloc` on the ring of free pages: it unlinks the first. -/
theorem pageAlloc_ring {free : List Nat} {s : Kernel} {halt : Halt → Kernel → Prop}
    (ring : Ring s.mem Layout.freePageList free) :
    wp pageAlloc s (fun page s' => (free = [] ∧ page = 0 ∧ s' = s) ∨
      ∃ rest, free = page :: rest ∧ Ring s'.mem Layout.freePageList rest ∧
        SameOff (nodes (Layout.freePageList :: free)) s.mem s'.mem ∧
        s' = { s with mem := s'.mem, nrFreePages := wsub s.nrFreePages 1 }) halt := by
  unfold pageAlloc
  simp only [wp_bind, wp_get, wp_ite, wp_pure]
  cases free with
  | nil => simp [(listEmpty_iff ring).mpr rfl]
  | cons p rest =>
      have notEmpty : ¬ listEmpty s.mem Layout.freePageList = true := by
        rw [listEmpty_iff ring]
        simp
      have first : nextOf s.mem Layout.freePageList = p := ring.cycle.next_head
      simp only [notEmpty, Bool.false_eq_true, if_false, wp_modifyMem, wp_modify, first]
      exact .inr ⟨rest, rfl, (listDel_ring [] ring).1, listDel_sameOff [] ring, trivial⟩

/-- `page_free` of a page that overlaps no node of the ring: it becomes the first. -/
theorem pageFree_ring {free : List Nat} {s : Kernel} {p : Nat} {halt : Halt → Kernel → Prop}
    (ring : Ring s.mem Layout.freePageList free) (nonzero : p ≠ 0) (aligned : p % 4096 = 0) (fits : p < 2 ^ 64)
    (fresh : ∀ b ∈ Layout.freePageList :: free, Apart p b) :
    wp (pageFree p) s (fun _ s' => Ring s'.mem Layout.freePageList (p :: free) ∧
      SameOff (nodes (p :: Layout.freePageList :: free)) s.mem s'.mem ∧
      s' = { s with mem := s'.mem, nrFreePages := wadd s.nrFreePages 1 }) halt := by
  have ring' : Ring (initListHead s.mem p) Layout.freePageList free := by
    refine ring.congr ?_
    rintro x ⟨b, member, low, high⟩
    have := fresh b member
    unfold Apart at this
    refine initListHead_sameOff x ?_
    simp only [mem_node]
    omega
  have isAligned : pageAligned p = true := pageAligned_iff.mpr aligned
  unfold pageFree
  simp only [wp_bind, wp_kassert, nonzero, ne_eq, not_false_eq_true, isAligned, if_true, wp_modifyMem, wp_modify]
  refine ⟨listAdd_ring ring' fresh fits, fun x outside => ?_, trivial⟩
  refine (listAdd_sameOff ring' x outside).trans (initListHead_sameOff x fun inside => outside ⟨p, by simp, inside⟩)

namespace Pool

variable {own : Nat → Owner} {free : List Nat} {s : Kernel}

theorem page_of_mem (pool : Pool own free s) {p : Nat} (member : p ∈ free) : PoolPage p :=
  pool.pages p (by simp [(pool.mem_iff p).mp member])

theorem nodup (pool : Pool own free s) : free.Nodup :=
  (List.nodup_cons.mp pool.ring.nodup).2

/-- The pages on the free list are those that `own` calls free. -/
theorem mem_freePages (pool : Pool own free s) {p : Nat} : p ∈ freePages s ↔ own p = .free := by
  rw [← pool.mem_iff p]
  constructor
  · rintro ⟨free', ring, member⟩
    rwa [pool.ring.cycle.unique ring.cycle]
  · exact fun member => ⟨free, pool.ring, member⟩

/-- The pool lies in the first 2 GiB and 128 MiB, which bounds the free list. -/
theorem length_le (pool : Pool own free s) : free.length ≤ 0x88000000 := by
  have subset : free ⊆ List.range 0x88000000 := fun p member => by
    have := (pool.page_of_mem member).bounds
    exact List.mem_range.mpr (by omega)
  have := (List.Nodup.subperm pool.nodup subset).length_le
  rwa [List.length_range] at this

/-- There are 32768 pages of RAM. -/
theorem length_pages (pool : Pool own free s) : free.length ≤ 0x8000 := by
  have distinct : (free.map (· / 4096)).Nodup := by
    refine pool.nodup.map_on fun p member q member' equal => ?_
    have := (pool.page_of_mem member).bounds
    have := (pool.page_of_mem member').bounds
    omega
  have subset : free.map (· / 4096) ⊆ List.range' 0x80000 0x8000 := fun n member => by
    obtain ⟨p, inside, rfl⟩ := List.mem_map.mp member
    have := (pool.page_of_mem inside).bounds
    exact List.mem_range'_1.mpr (by omega)
  have := (List.Nodup.subperm distinct subset).length_le
  rwa [List.length_map, List.length_range'] at this

/-- Where pages only become free, the free list only grows. -/
theorem length_mono {own' : Nat → Owner} {free' : List Nat} {s' : Kernel} (pool : Pool own free s) (pool' : Pool own' free' s')
    (kept : ∀ q, own q = .free → own' q = .free) : free.length ≤ free'.length :=
  (List.Nodup.subperm pool.nodup fun q member => (pool'.mem_iff q).mpr (kept q ((pool.mem_iff q).mp member))).length_le

/-- The list nodes of the free pages lie in free pages or in the list head. -/
theorem node_mem (pool : Pool own free s) {x : Nat}
    (inside : x ∈ nodes (Layout.freePageList :: free)) :
    own (pageOf x) = .free ∨ x ∈ node Layout.freePageList := by
  obtain ⟨a, member, low, high⟩ := inside
  rcases List.mem_cons.mp member with rfl | member
  · exact .inr ⟨low, high⟩
  · have page := (pool.page_of_mem member).bounds
    rw [pageOf_of_mem page.1 low (by omega)]
    exact .inl ((pool.mem_iff a).mp member)

/-- A page with an owner is not the one the list head is in. -/
theorem not_head (pool : Pool own free s) {x : Nat} (owned : own (pageOf x) ≠ .outside) :
    x ∉ node Layout.freePageList := by
  rintro ⟨low, high⟩
  have page := (pool.pages _ owned).bounds
  unfold pageOf at page
  omega

/-- Memory that differs in neither free pages nor the list head. -/
theorem congr {s' : Kernel} (pool : Pool own free s)
    (same : ∀ x, own (pageOf x) = .free ∨ x ∈ node Layout.freePageList → s'.mem x = s.mem x)
    (count : s'.nrFreePages = s.nrFreePages) : Pool own free s' where
  ring := pool.ring.congr fun x inside => same x (pool.node_mem inside)
  mem_iff := pool.mem_iff
  pages := pool.pages
  count := count.trans pool.count

/-- Relabelling pages that stay out of the free list. -/
theorem relabel {own' : Nat → Owner} (pool : Pool own free s)
    (free_iff : ∀ p, own' p = .free ↔ own p = .free)
    (outside : ∀ p, own' p ≠ .outside → own p ≠ .outside) : Pool own' free s where
  ring := pool.ring
  mem_iff p := (pool.mem_iff p).trans (free_iff p).symm
  pages p owned := pool.pages p (outside p owned)
  count := pool.count

/-- `page_alloc` takes the first free page for a new owner, or reports that
there is none. -/
theorem alloc (pool : Pool own free s) {o : Owner} (notFree : o ≠ .free)
    {halt : Halt → Kernel → Prop} :
    wp pageAlloc s (fun page s' =>
      (free = [] ∧ page = 0 ∧ s' = s) ∨
      ∃ rest, free = page :: rest ∧ PoolPage page ∧ own page = .free ∧
        Pool (Function.update own page o) rest s' ∧
        PageMoves {.free, o} {.free} own s (Function.update own page o) s') halt := by
  refine wp_mono (pageAlloc_ring pool.ring) ?_ fun _ _ => id
  rintro p s' (⟨empty, zero, same⟩ | ⟨rest, rfl, ring, same, globals⟩)
  · exact .inl ⟨empty, zero, same⟩
  have isFree : own p = .free := (pool.mem_iff p).mp (by simp)
  have page := pool.page_of_mem (p := p) (by simp)
  have distinct := List.nodup_cons.mp pool.nodup
  have count := pool.count
  have bound := pool.length_le
  simp only [List.length_cons] at count bound
  refine .inr ⟨rest, rfl, page, isFree, ⟨ring, fun q => ?_, fun q owned => ?_, ?_⟩, ⟨?_, ?_⟩⟩
  · by_cases equal : q = p
    · subst equal
      simp [distinct.1, notFree]
    · rw [Function.update_of_ne equal, ← pool.mem_iff q]
      simp [equal]
  · by_cases equal : q = p
    · exact equal ▸ page
    · rw [Function.update_of_ne equal] at owned
      exact pool.pages q owned
  · rw [globals]
    change wsub s.nrFreePages 1 = rest.length
    rw [wsub_of_le (by omega) (by omega)]
    omega
  · refine (Moves.of_bytes fun x foreign plain => ?_).trans
      (Moves.of_update (by simp [isFree]) (by simp) (by simp [isFree]))
    exact same x fun inside => (pool.node_mem inside).elim foreign plain
  · rw [globals]

/-- `page_free` puts a page that is in use in front of the free list. -/
theorem release (pool : Pool own free s) {p : Nat} (inUse : own p ≠ .free)
    (owned : own p ≠ .outside) {halt : Halt → Kernel → Prop} :
    wp (pageFree p) s (fun _ s' => ∃ own', Pool own' (p :: free) s' ∧ Releases {.free} {p} own s own' s')
      halt := by
  have page := pool.pages p owned
  have bounds := page.bounds
  have bound := pool.length_le
  have absent : p ∉ free := fun member => inUse ((pool.mem_iff p).mp member)
  have fresh : ∀ b ∈ Layout.freePageList :: free, Apart p b := by
    intro b member
    rcases List.mem_cons.mp member with rfl | member
    · exact page.apart_head
    · exact page.apart (pool.page_of_mem member) fun equal => absent (equal ▸ member)
  refine wp_mono (pageFree_ring pool.ring (by omega) bounds.1 (by omega) fresh) ?_ fun _ _ => id
  rintro _ s' ⟨ring, same, globals⟩
  refine ⟨Function.update own p .free, ⟨ring, fun q => ?_, fun q => ?_, ?_⟩,
    ⟨fun q => ?_, fun x inUse other plain => ?_, ?_⟩⟩
  · by_cases equal : q = p
    · subst equal
      simp
    · rw [Function.update_of_ne equal, ← pool.mem_iff q]
      simp [equal]
  · by_cases equal : q = p
    · exact fun _ => equal ▸ page
    · rw [Function.update_of_ne equal]
      exact pool.pages q
  · rw [globals]
    change wadd s.nrFreePages 1 = _
    rw [pool.count, List.length_cons]
    exact wadd_of_lt (by omega)
  · by_cases equal : q = p
    · subst equal
      simp
    · simp [equal]
  · refine same x ?_
    rintro ⟨b, member, hx⟩
    rcases List.mem_cons.mp member with rfl | member
    · exact other (pageOf_of_mem bounds.1 hx.1 (by have := hx.2; omega))
    · exact (pool.node_mem ⟨b, member, hx⟩).elim inUse plain
  · rw [globals]

end Pool

/-- The owners half way through `page_init_range`: the pages below `p` are free. -/
def initOwner (p q : Nat) : Owner :=
  if PoolPage q then if q < p then .free else .held else .outside

/-- The owners `page_init` leaves behind: every page it was handed is free. -/
def startOwner (q : Nat) : Owner := if PoolPage q then .free else .outside

theorem startOwner_free {q : Nat} : startOwner q = .free ↔ PoolPage q := by
  unfold startOwner
  split <;> simp_all

theorem startOwner_or (q : Nat) : startOwner q = .free ∨ startOwner q = .outside := by
  unfold startOwner
  split <;> simp

/-- What `page_init_range` may change: pages of the pool, the list head and the
two counters. -/
structure InitMoves (s s' : Kernel) : Prop where
  bytes : ∀ x, ¬ PoolPage (pageOf x) → x ∉ node Layout.freePageList → s'.mem x = s.mem x
  globals : s' = { s with
    mem := s'.mem, nrTotalPages := s'.nrTotalPages, nrFreePages := s'.nrFreePages }

theorem InitMoves.trans {s s' s'' : Kernel} (first : InitMoves s s') (second : InitMoves s' s'') :
    InitMoves s s'' where
  bytes x foreign plain := (second.bytes x foreign plain).trans (first.bytes x foreign plain)
  globals := by
    have := first.globals
    rw [second.globals]
    generalize s''.mem = m, s''.nrFreePages = n, s''.nrTotalPages = k
    rw [this]

/-- The loop of `page_init_range` frees the pages it has left. -/
theorem pageInitLoop_spec {fuel p : Nat} {free : List Nat} {s : Kernel}
    (aligned : p % 4096 = 0) (low : Layout.kernelEnd ≤ p) (high : p ≤ 0x88000000)
    (enough : (0x88000000 - p) / 4096 < fuel) (pool : Pool (initOwner p) free s)
    (total : s.nrTotalPages = free.length) {halt : Halt → Kernel → Prop} :
    wp (pageInitLoop ramEnd fuel p) s (fun _ s' => ∃ free',
      Pool startOwner free' s' ∧ free'.length = free.length + (0x88000000 - p) / 4096 ∧
        InitMoves s s' ∧ s'.nrTotalPages = free'.length) halt := by
  induction fuel generalizing p free s with
  | zero => omega
  | succ fuel ih =>
      have next : wadd p pageSize = p + 4096 := wadd_of_lt (by simp only [pageSize]; omega)
      rw [pageInitLoop, next]
      split
      · next more =>
          simp only [ramEnd] at more
          have page : PoolPage p := ⟨aligned, low, more⟩
          have held : initOwner p p = .held := by simp [initOwner, page]
          simp only [wp_bind, wp_modify]
          have pool' : Pool (initOwner p) free { s with nrTotalPages := wadd s.nrTotalPages 1 } :=
            pool.congr (fun _ _ => rfl) rfl
          refine wp_mono (pool'.release (p := p) (by simp [held]) (by simp [held])) ?_ fun _ _ => id
          rintro _ s₁ ⟨own₁, pool₁, releases⟩
          have owners : own₁ = initOwner (p + 4096) := by
            funext q
            by_cases equal : q = p
            · subst equal
              rw [(releases.owner q).1 rfl]
              simp [initOwner, page]
            · rw [(releases.owner q).2 equal]
              unfold initOwner
              split
              · next valid =>
                  have := valid.bounds
                  by_cases before : q < p
                  · rw [if_pos before, if_pos (by omega)]
                  · rw [if_neg before, if_neg (by omega)]
              · rfl
          rw [owners] at pool₁
          have total₁ : s₁.nrTotalPages = (p :: free).length := by
            have few := pool.length_le
            rw [releases.globals]
            simp only [List.length_cons, total]
            exact wadd_of_lt (by omega)
          refine wp_mono (ih (by omega) (by omega) (by omega) (by omega) pool₁ total₁) ?_ fun _ _ => id
          rintro _ s' ⟨free', pool₂, count, moves, total₂⟩
          refine ⟨free', pool₂, ?_, InitMoves.trans ⟨fun x foreign plain => ?_, ?_⟩ moves, total₂⟩
          · rw [count, List.length_cons]
            omega
          · refine releases.bytes x ?_ (fun equal => foreign ?_) plain
            · simp [initOwner, foreign]
            · rw [show pageOf x = p from equal]
              exact page
          · rw [releases.globals]
      · next done =>
          simp only [ramEnd, not_le] at done
          have owners : initOwner p = startOwner := by
            funext q
            unfold initOwner startOwner
            split
            · next valid =>
                have := valid.bounds
                rw [if_pos (by omega)]
            · rfl
          rw [wp_pure]
          exact ⟨free, owners ▸ pool, by omega, ⟨fun _ _ _ => rfl, rfl⟩, total⟩

/-- `page_init` puts every page between the kernel image and the end of RAM on
the free list. -/
theorem pageInit_spec {s : Kernel} {halt : Halt → Kernel → Prop} :
    wp pageInit s (fun _ s' => ∃ free, Pool startOwner free s' ∧
      free.length = (0x88000000 - Layout.kernelEnd) / 4096 ∧ InitMoves s s' ∧ s'.nrTotalPages = free.length) halt := by
  have head := freePageList_facts
  have aligned := Layout.kernelEnd_aligned
  have start : alignUp Layout.kernelEnd pageSize = Layout.kernelEnd := by
    rw [alignUp_page (by omega)]
    omega
  have endAligned : pageAligned ramEnd = true := rfl
  unfold pageInit pageInitRange
  simp only [wp_bind, wp_kassert, endAligned, if_true, wp_modifyMem, wp_modify, start]
  refine wp_mono (pageInitLoop_spec aligned (Nat.le_refl _) head.2.2
    (by unfold loopBound; omega) ⟨initListHead_ring (by omega), fun p => ?_, fun p owned => ?_, rfl⟩ rfl)
    ?_ fun _ _ => id
  · unfold initOwner
    split
    · next valid => simp [Nat.not_lt.mpr valid.2.1]
    · simp
  · by_contra foreign
    exact owned (if_neg foreign)
  · rintro _ s' ⟨free', pool, count, moves, total⟩
    refine ⟨free', pool, by simpa using count, InitMoves.trans ⟨fun x _ plain => ?_, rfl⟩ moves, total⟩
    exact initListHead_sameOff x plain

end KuroOS
