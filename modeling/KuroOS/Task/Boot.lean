import KuroOS.Initrd.Member
import KuroOS.Memory.HeapRun
import KuroOS.Kernel.Main
import KuroOS.Task.Pids

/-!
# Boot

`kernel_main` up to `vm_init` sets up the page allocator and the kernel's page
table, and runs three tests that give back what they take. Its assertions may
stop it, on a machine with too little memory; when they do not, it leaves an
empty world.
-/

namespace KuroOS

open Base

section

variable [Layout]

/-- What the image and `start.S` leave: static variables have their initial
values. -/
structure PowerOn (s : Kernel) : Prop where
  allTasks : Ring s.mem Layout.allTasks []
  runQueue : Ring s.mem Layout.runQueue []
  heapHead : s.heapHead = 0
  heapTail : s.heapTail = 0
  current : s.current = 0
  nextPid : s.nextPid = 1
  nrRunnableTasks : s.nrRunnableTasks = 0

section

variable {α : Type} {next : K α} {post : α → Kernel → Prop} {s : Kernel} {condition : Prop} [Decidable condition]
  {text : String} {enough : Prop}

omit [Layout] in
/-- What follows an assertion may use it. It stops a boot only where there is not
`enough` memory. -/
theorem wp_assert (known : enough → condition) (rest : condition → wp next s post fun _ _ => ¬ enough) :
    wp (do kassert condition text; next) s post fun _ _ => ¬ enough := by
  rw [wp_bind, wp_kassert]
  split
  · next holds => exact rest holds
  · next fails => exact fun large => fails (known large)

omit [Layout] in
theorem wp_assert_last {post : Unit → Kernel → Prop} (known : enough → condition) (rest : condition → post () s) :
    wp (kassert condition text) s post fun _ _ => ¬ enough := by
  rw [wp_kassert]
  split
  · next holds => exact rest holds
  · next fails => exact fun large => fails (known large)

omit [Layout] in
/-- A program that may halt where there is not enough memory, and does not. -/
theorem wp_enough (holds : enough) {program : K α} (may : wp program s post fun _ _ => ¬ enough) {halt : Halt → Kernel → Prop} :
    wp program s post halt :=
  wp_mono may (fun _ _ => id) fun _ _ short => absurd holds short

end

namespace Looks

omit [Layout] in
theorem kassert (condition : Prop) [Decidable condition] (text : String) : Looks (KuroOS.kassert condition text) :=
  .ite (.pure _) (.throw _)

theorem pgtableDescend (pte : Nat) : Looks (KuroOS.pgtableDescend false pte) := by
  unfold KuroOS.pgtableDescend
  simp only [if_true]
  exact .bind (loadWord _) fun value => .ite (.bind (kassert _ _) fun _ => .pure _) (.pure _)

theorem pgtableWalkFrom (va level table : Nat) : Looks (KuroOS.pgtableWalkFrom va false level table) := by
  induction level generalizing table with
  | zero => exact .pure _
  | succ level ih =>
      refine .bind (pgtableDescend _) fun found => ?_
      cases found with
      | none => exact .pure _
      | some next => exact ih next

/-- A look-up in a page table. -/
theorem pgtableWalk (root va : Nat) : Looks (KuroOS.pgtableWalk root va false) :=
  .bind (kassert _ _) fun _ => .bind (kassert _ _) fun _ => pgtableWalkFrom _ _ _

/-- The assertions of `task_create_user_test` on an entry. -/
theorem entryTest (root va wanted : Nat) (text : String) : Looks (KuroOS.entryTest root va wanted text) :=
  .bind (pgtableWalk _ _) fun _ => .bind (kassert _ _) fun _ => .bind (loadWord _) fun _ => .bind (kassert _ _) fun _ =>
    .bind (kassert _ _) fun _ => .bind (kassert _ _) fun _ => kassert _ _

end Looks

/-- The owners between which the tests pass pages. -/
def testing : Set Owner := {.free, .held, .table .pending}

/-- The state of a boot, before there are tables: `live` are the pointers of the
heap that are in use. -/
structure Booting (live : List Nat) (own : Nat → Owner) (free : List Nat) (blocks : List Block) (s₀ s : Kernel) :
    Prop where
  state : HeapState own free blocks s
  live : live.Perm ((usedBlocks blocks).map Block.payload)
  owners : ∀ q, (own q = .outside ∧ ¬ PoolPage q) ∨ own q = .free ∨ own q = .heap
  heads : ∀ x, x ∈ node Layout.allTasks ∨ x ∈ node Layout.runQueue → s.mem x = s₀.mem x
  globals : s = { s₀ with
    mem := s.mem, nrTotalPages := s.nrTotalPages, nrFreePages := s.nrFreePages, heapHead := s.heapHead,
    heapTail := s.heapTail }

namespace Booting

variable {live free free' : List Nat} {own own' : Nat → Owner} {blocks : List Block} {s₀ s s' : Kernel}
  {halt : Halt → Kernel → Prop} {enough : Prop}

/-- `page_init`. -/
theorem pageInit (power : PowerOn s₀) : wp pageInit s₀ (fun _ s => ∃ free, Booting [] startOwner free [] s₀ s ∧
    free.length = (0x88000000 - Layout.kernelEnd) / 4096 ∧ s.nrTotalPages = free.length) halt := by
  refine wp_mono (pageInit_heapState power.heapHead power.heapTail) ?_ fun _ _ => id
  rintro _ s ⟨free, state, count, moves, total⟩
  refine ⟨free, ⟨state, .nil, fun q => ?_, fun x isHead => moves.bytes x (fun page => ?_) (WorldOf.head_apart isHead), ?_⟩,
    count, total⟩
  · rcases startOwner_or q with here | here
    · exact .inr (.inl here)
    · exact .inl ⟨here, fun isPage => by simp [startOwner_free.mpr isPage] at here⟩
  · have outside : startOwner (pageOf x) = .outside := by
      rcases isHead with isHead | isHead
      · exact WorldOf.head_outside state.pool (by simp) isHead
      · exact WorldOf.head_outside state.pool (by simp) isHead
    rw [startOwner_free.mpr page] at outside
    simp at outside
  · rw [moves.globals]

/-- The heads of the task lists are in the kernel image. -/
theorem head_outside (b : Booting live own free blocks s₀ s) {x : Nat}
    (isHead : x ∈ node Layout.allTasks ∨ x ∈ node Layout.runQueue) : own (pageOf x) = .outside := by
  rcases isHead with isHead | isHead
  · exact WorldOf.head_outside b.state.pool (by simp) isHead
  · exact WorldOf.head_outside b.state.pool (by simp) isHead

/-- A test that has given back its pages. -/
theorem pages (b : Booting live own free blocks s₀ s) (moves : PageMoves testing testing own s own' s')
    (pool' : Pool own' free' s') (clean : ∀ q, own' q ≠ .held ∧ own' q ≠ .table .pending) :
    Booting live own' free' blocks s₀ s' ∧ free.length ≤ free'.length := by
  have globals := moves.globals
  refine ⟨⟨⟨pool', b.state.heap.congr (fun c member x low high => ?_) (by rw [globals]) (by rw [globals])
    (moves.moves.own_iff (by simp [testing])), b.state.coalesced⟩, b.live, fun q => ?_, fun x isHead => ?_, ?_⟩, ?_⟩
  · have inHeap := (b.state.heap.cover x).mpr ⟨c, member, low, by unfold Block.stop; omega⟩
    exact moves.moves.bytes x (by simp [inHeap, testing]) (b.state.pool.not_head (by simp [inHeap]))
  · rcases moves.moves.owner q with same | ⟨_, here | here | here⟩
    · rw [same]
      exact b.owners q
    · exact .inr (.inl here)
    · exact absurd here (clean q).1
    · exact absurd here (clean q).2
  · rw [moves.moves.bytes x (by simp [b.head_outside isHead, testing]) (WorldOf.head_apart isHead)]
    exact b.heads x isHead
  · have := b.globals
    rw [globals]
    generalize s'.mem = m, s'.nrFreePages = n
    rw [this]
  · refine b.state.pool.length_mono pool' fun q isFree => ?_
    rcases moves.moves.owner q with same | ⟨_, here | here | here⟩
    · rw [same, isFree]
    · exact here
    · exact absurd here (clean q).1
    · exact absurd here (clean q).2

/-- A page that a test takes. -/
theorem allocated {p : Nat} (moves : PageMoves {.free, .held} {.free} own s (Function.update own p .held) s') :
    PageMoves testing testing own s (Function.update own p .held) s' :=
  moves.mono (by rintro o (rfl | rfl) <;> simp [testing]) (by rintro o rfl; simp [testing])
    (by rintro o (rfl | rfl) <;> simp [testing])

/-- A page that a test gives back. -/
theorem released {p : Nat} (releases : Releases {.free} {p} own s own' s') (ours : own p ∈ testing) :
    PageMoves testing testing own s own' s' :=
  releases.pageMoves (by rintro q rfl; exact ours) (by simp [testing]) (by rintro o rfl; simp [testing]) (Set.Subset.refl _)

/-- What `kmalloc` does to a boot. -/
theorem moved {blocks' : List Block} {live' : List Nat} (b : Booting live own free blocks s₀ s) (state' : HeapState own' free' blocks' s')
    (moves : KmallocMoves own blocks s own' s') (inUse : live'.Perm ((usedBlocks blocks').map Block.payload)) :
    Booting live' own' free' blocks' s₀ s' := by
  refine ⟨state', inUse, fun q => ?_, fun x isHead => ?_, ?_⟩
  · rcases moves.owner q with same | ⟨_, here⟩
    · rw [same]
      exact b.owners q
    · exact .inr (.inr here)
  · have here := b.head_outside isHead
    rw [moves.bytes x (.inl ⟨by simp [here], by simp [here], WorldOf.head_apart isHead⟩)]
    exact b.heads x isHead
  · have := b.globals
    rw [moves.globals]
    generalize s'.mem = m, s'.nrFreePages = n, s'.heapHead = h, s'.heapTail = t
    rw [this]

/-- `kmalloc`. -/
theorem kmalloc (b : Booting live own free blocks s₀ s) (size : Nat) :
    wp (KuroOS.kmalloc size) s (fun p s' => ∃ own' free' blocks',
      Booting (if p = 0 then live else p :: live) own' free' blocks' s₀ s' ∧ free.length ≤ free'.length + 1 ∧
      (p = 0 → (size = 0 ∨ pageSize - blockSize < alignUp size kmallocAlign) ∨ free = [])) halt := by
  refine wp_mono (kmalloc_spec b.state) ?_ fun _ _ => id
  rintro p s' ⟨own', free', blocks', state', moves, count, outcome⟩
  refine ⟨own', free', blocks', b.moved state' moves ?_, count, fun zero => ?_⟩
  · rcases outcome with ⟨rfl, same, _⟩ | ⟨c, rfl, _, _, perm⟩
    · rw [if_pos rfl, same]
      exact b.live
    · rw [if_neg (by omega)]
      exact (b.live.cons c.payload).trans (perm.map Block.payload).symm
  · rcases outcome with ⟨_, _, why⟩ | ⟨c, here, _⟩
    · exact why
    · omega

/-- `kfree` of a block in use. -/
theorem kfree_block {xs ys : List Block} {c : Block} (b : Booting live own free (xs ++ c :: ys) s₀ s) (used : c.free = false)
    {rest : List Nat} (isLive : live.Perm (c.payload :: rest)) :
    wp (KuroOS.kfree c.payload) s (fun _ s' => ∃ blocks', Booting rest own free blocks' s₀ s' ∧
      ((∀ d ∈ xs.getLast?, d.free = false) → (∀ d ∈ ys.head?, d.free = false) →
        blocks' = xs ++ { c with free := true } :: ys)) halt := by
  have before := isLive.symm.trans b.live
  have state := b.state
  refine wp_mono (kfree_blocks state.heap state.pool state.coalesced used) ?_ fun _ _ => id
  rintro _ s' ⟨blocks', heap', coalesced', same, moves, alone⟩
  refine ⟨blocks', ⟨⟨moves.pool state.pool, heap', coalesced'⟩, ?_, b.owners, fun x isHead => ?_, ?_⟩, alone⟩
  · rw [same, usedBlocks_append]
    rw [usedBlocks_append, usedBlocks_cons_used used] at before
    exact (before.trans (List.perm_middle.map Block.payload)).cons_inv
  · rw [moves.bytes x (.inl (by simp [b.head_outside isHead]))]
    exact b.heads x isHead
  · have := b.globals
    rw [moves.globals]
    generalize s'.mem = m, s'.heapHead = h, s'.heapTail = t
    rw [this]

/-- `kfree` of a pointer in use. -/
theorem kfree (b : Booting live own free blocks s₀ s) {p : Nat} {rest : List Nat} (isLive : live.Perm (p :: rest)) :
    wp (KuroOS.kfree p) s (fun _ s' => ∃ blocks', Booting rest own free blocks' s₀ s') halt := by
  obtain ⟨c, inside, rfl⟩ := List.mem_map.mp ((isLive.symm.trans b.live).mem_iff.mp List.mem_cons_self)
  obtain ⟨member, used⟩ := mem_usedBlocks.mp inside
  obtain ⟨xs, ys, rfl⟩ := List.append_of_mem member
  refine wp_mono (b.kfree_block used isLive) ?_ fun _ _ => id
  rintro _ s' ⟨blocks', b', _⟩
  exact ⟨blocks', b'⟩

/-- `page_test`. -/
theorem pageTest (b : Booting live own free blocks s₀ s) (large : enough → 2 ≤ free.length)
    (total : enough → s.nrTotalPages = free.length) :
    wp KuroOS.pageTest s (fun _ s' => ∃ own' free', Booting live own' free' blocks s₀ s' ∧ free.length ≤ free'.length)
      fun _ _ => ¬ enough := by
  have count : pageFreeCount s = free.length := b.state.pool.count
  have few := b.state.pool.length_pages
  unfold KuroOS.pageTest
  rw [wp_bind, wp_get]
  refine wp_bind_of (b.state.pool.alloc (o := .held) (by simp)) ?_
  rintro a s₁ (⟨empty, rfl, rfl⟩ | ⟨free₁, shape₁, valid, was, pool₁, moves₁⟩)
  · have never : ¬ enough := fun here => by simpa [empty] using large here
    exact wp_bind_of (b.state.pool.alloc (o := .held) (by simp)) fun _ _ _ =>
      wp_assert (fun here => absurd here never) fun _ => wp_assert (fun here => absurd here never) fun nonzero => absurd rfl nonzero
  refine wp_bind_of (pool₁.alloc (o := .held) (by simp)) ?_
  rintro b' s₂ (⟨empty, rfl, rfl⟩ | ⟨free₂, shape₂, valid', was', pool₂, moves₂⟩)
  · have never : ¬ enough := fun here => by
      have := large here
      simp [shape₁, empty] at this
    exact wp_assert (fun here => absurd here never) fun _ => wp_assert (fun here => absurd here never) fun _ =>
      wp_assert (fun here => absurd here never) fun nonzero => absurd rfl nonzero
  have bounds := valid.bounds
  have bounds' := valid'.bounds
  have apart : a ≠ b' := by
    rintro rfl
    simp at was'
  have length₂ : free.length = free₂.length + 2 := by simp [shape₁, shape₂]
  refine wp_assert (fun here => count ▸ large here) fun _ => wp_assert (fun _ => by omega) fun _ =>
    wp_assert (fun _ => by omega) fun _ => wp_assert (fun _ => apart) fun distinct => ?_
  have isHeld : Function.update (Function.update own a .held) b' .held a = .held := by
    rw [Function.update_of_ne distinct, Function.update_self]
  rw [wp_bind, wp_get]
  refine wp_assert (fun _ => ?_) fun _ => ?_
  · rw [pageFreeCount, pool₂.count, count, wsub_of_le (by omega) (by omega)]
    omega
  rw [wp_bind, wp_get]
  have total₂ : s₂.nrTotalPages = s.nrTotalPages := by rw [moves₂.globals, moves₁.globals]
  refine wp_assert (fun here => ?_) fun _ => ?_
  · rw [pageUsedCount, pool₂.count, total₂, total here, wsub_of_le (by omega) (by omega)]
    omega
  refine wp_bind_of (pool₂.release (p := a) (by simp [isHeld]) (by simp [isHeld])) ?_
  rintro _ s₃ ⟨own₃, pool₃, releases₃⟩
  have isHeld' : own₃ b' = .held := by
    rw [(releases₃.owner b').2 fun equal => distinct (Set.mem_singleton_iff.mp equal).symm, Function.update_self]
  refine wp_bind_of (pool₃.release (p := b') (by simp [isHeld']) (by simp [isHeld'])) ?_
  rintro _ s₄ ⟨own₄, pool₄, releases₄⟩
  have count₄ : s₄.nrFreePages = free.length := by rw [pool₄.count, length₂]; rfl
  rw [wp_bind, wp_get]
  refine wp_assert (fun _ => by rw [pageFreeCount, count₄, count]) fun _ => ?_
  rw [wp_bind, wp_get]
  refine wp_assert_last (fun here => ?_) fun _ => ⟨own₄, _, b.pages ?_ pool₄ fun q => ?_⟩
  · have total₄ : s₄.nrTotalPages = s₂.nrTotalPages := by rw [releases₄.globals, releases₃.globals]
    rw [pageUsedCount, count₄, total₄, total₂, total here, wsub_of_le (by omega) (by omega), Nat.sub_self]
  · have taken := (allocated moves₁).trans (allocated moves₂)
    refine (taken.trans (released releases₃ ?_)).trans (released releases₄ ?_)
    · rw [isHeld]
      simp [testing]
    · rw [isHeld']
      simp [testing]
  · have given := (releases₃.trans releases₄).owner q
    by_cases back : q = a ∨ q = b'
    · rw [given.1 back]
      simp
    · rw [not_or] at back
      rw [given.2 fun inside => inside.elim back.1 back.2, Function.update_of_ne back.2, Function.update_of_ne back.1]
      rcases b.owners q with here | here | here <;> simp [here]

/-- `kmalloc` of the first block that fits. -/
theorem kmalloc_first {xs ys : List Block} {c : Block} {n size : Nat} (b : Booting live own free (xs ++ c :: ys) s₀ s)
    (live' : List Nat) (blocks' : List Block) (isSize : alignUp n kmallocAlign = size) (large : 16 ≤ size) (small : size ≤ 4048) (isFree : c.free = true)
    (fits : size ≤ c.size) (skipped : ∀ d ∈ xs, d.free = false ∨ d.size < size)
    (after : xs ++ (Heap.taken c size ++ ys) = blocks') (inUse : live'.Perm ((usedBlocks blocks').map Block.payload)) :
    wp (KuroOS.kmalloc n) s (fun p s' => p = c.payload ∧ ∃ own', Booting live' own' free blocks' s₀ s') halt := by
  refine wp_mono (KuroOS.kmalloc_first b.state isSize large small isFree fits fun d member both => ?_) ?_ fun _ _ => id
  · rcases skipped d member with used | tiny
    · simp [used] at both
    · omega
  · rintro p s' ⟨rfl, own', state', moves⟩
    rw [after] at state'
    exact ⟨rfl, own', b.moved state' moves inUse⟩

/-- `kmalloc_test`. The second block is freed between two blocks in use, so the
next request that fits gets it back. -/
theorem kmallocTest (start : Booting [] own free [] s₀ s) (large : enough → 2 ≤ free.length) :
    wp KuroOS.kmallocTest s (fun _ s' => ∃ own' free' blocks', Booting [] own' free' blocks' s₀ s' ∧ free.length ≤ free'.length + 2)
      fun _ _ => ¬ enough := by
  unfold KuroOS.kmallocTest
  refine wp_bind_of (kmalloc_fresh start.state (show alignUp 24 kmallocAlign = 32 by decide) (by decide) (by decide)) ?_
  rintro a s₁ (⟨rfl, rfl, empty⟩ | ⟨own₁, page, rest, shape, rfl, state₁, moves₁⟩)
  · have never : ¬ enough := fun here => by simpa [empty] using large here
    refine wp_bind_of (start.kmalloc 128) ?_
    rintro b s₂ ⟨own₂, free₂, blocks₂, b₂, _⟩
    refine wp_bind_of (b₂.kmalloc 512) fun _ _ _ => wp_assert (fun here => absurd here never) fun nonzero => absurd rfl nonzero
  have bounds := (start.state.pool.page_of_mem (show page ∈ free by simp [shape])).bounds
  have b₁ : Booting [page + 48] own₁ rest ([⟨page, 32, false⟩] ++ ⟨page + 80, 3968, true⟩ :: []) s₀ s₁ :=
    start.moved (by simpa [Heap.taken] using state₁) moves₁ (by simp [usedBlocks, Block.payload])
  refine wp_bind_of (b₁.kmalloc_first [page + 48, page + 128]
    ([⟨page, 32, false⟩, ⟨page + 80, 128, false⟩] ++ ⟨page + 256, 3792, true⟩ :: [])
    (show alignUp 128 kmallocAlign = 128 by decide) (by decide)
    (by decide) rfl (by simp) (by simp) (by simp [Heap.taken]) (by simp [usedBlocks, Block.payload])) ?_
  rintro b s₂ ⟨rfl, own₂, b₂⟩
  refine wp_bind_of (b₂.kmalloc_first [page + 48, page + 128, page + 304]
    ([⟨page, 32, false⟩] ++ ⟨page + 80, 128, false⟩ :: [⟨page + 256, 512, false⟩, ⟨page + 816, 3232, true⟩])
    (show alignUp 512 kmallocAlign = 512 by decide) (by decide) (by decide) rfl (by simp) (by simp) (by simp [Heap.taken]) (by simp [usedBlocks, Block.payload])) ?_
  rintro c s₃ ⟨rfl, own₃, b₃⟩
  have aligned : ∀ x, x % 16 = 0 → x &&& (kmallocAlign - 1) = 0 := fun x multiple => (and_low x 4).trans multiple
  simp only [Block.payload]
  refine wp_assert (fun _ => by omega) fun _ => wp_assert (fun _ => by omega) fun _ => wp_assert (fun _ => by omega) fun _ =>
    wp_assert (fun _ => aligned _ (by omega)) fun _ => wp_assert (fun _ => aligned _ (by omega)) fun _ =>
    wp_assert (fun _ => aligned _ (by omega)) fun _ => ?_
  refine wp_bind_of (b₃.kfree_block rfl (List.Perm.swap _ _ _)) ?_
  rintro _ s₄ ⟨blocks₄, b₄, alone⟩
  rw [alone (by simp) (by simp)] at b₄
  refine wp_bind_of (b₄.kmalloc_first [page + 48, page + 128, page + 304]
    [⟨page, 32, false⟩, ⟨page + 80, 64, false⟩, ⟨page + 192, 16, true⟩, ⟨page + 256, 512, false⟩, ⟨page + 816, 3232, true⟩]
    (show alignUp 64 kmallocAlign = 64 by decide) (by decide) (by decide) rfl (by simp) (by simp) (by simp [Heap.taken])
    (by simp [usedBlocks, Block.payload])) ?_
  rintro d s₅ ⟨rfl, own₅, b₅⟩
  refine wp_assert (fun _ => rfl) fun _ => ?_
  refine wp_bind_of (b₅.kfree (.refl _)) ?_
  rintro _ s₆ ⟨blocks₆, b₆⟩
  refine wp_bind_of (b₆.kfree (List.Perm.swap _ _ _)) ?_
  rintro _ s₇ ⟨blocks₇, b₇⟩
  refine wp_bind_of (b₇.kfree (.refl _)) ?_
  rintro _ s₈ ⟨blocks₈, b₈⟩
  refine wp_bind_of (b₈.kmalloc 600) ?_
  rintro e s₉ ⟨own₉, free₉, blocks₉, b₉, count₉, why⟩
  have some : enough → e ≠ 0 := fun here zero => by
    rcases why zero with refused | empty
    · exact absurd refused (by decide)
    · have := large here
      simp [shape, empty] at this
  refine wp_assert some fun someE => ?_
  rw [if_neg someE] at b₉
  refine wp_mono (b₉.kfree (.refl _)) ?_ fun _ _ => id
  rintro _ s' ⟨blocks', b'⟩
  exact ⟨own₉, free₉, blocks', b', by simp only [shape, List.length_cons]; omega⟩

/-- A page of a test's table, or the table. -/
theorem tabled (moves : TableMoves .pending own s own' s') : PageMoves testing testing own s own' s' :=
  moves.mono (by rintro o (rfl | rfl) <;> simp [testing]) (by rintro o (rfl | rfl) <;> simp [testing])
    (by rintro o (rfl | rfl) <;> simp [testing])

/-- `pgtable_test`. -/
theorem pgtableTest (b : Booting live own free blocks s₀ s) (large : enough → 4 ≤ free.length) :
    wp KuroOS.pgtableTest s (fun _ s' => ∃ own' free', Booting live own' free' blocks s₀ s' ∧ free.length ≤ free'.length)
      fun _ _ => ¬ enough := by
  unfold KuroOS.pgtableTest
  extract_lets va
  have small : va + pageSize ≤ 2 ^ 38 := by decide
  have below : va < 2 ^ 38 := by decide
  have onePage : rangePages va pageSize = 1 := by decide
  clear_value va
  refine wp_bind_of (pgtableCreate_spec b.state.pool (o := .table .pending) (by simp)) ?_
  rintro root s₁ (⟨empty, rfl, rfl⟩ | ⟨free₁, shape₁, valid, was, pool₁, moves₁, clear⟩)
  · have never : ¬ enough := fun here => by simpa [empty] using large here
    exact wp_bind_of (b.state.pool.alloc (o := .held) (by simp)) fun _ _ _ =>
      wp_assert (fun here => absurd here never) fun nonzero => absurd rfl nonzero
  have bounds := valid.bounds
  refine wp_bind_of (pool₁.alloc (o := .held) (by simp)) ?_
  rintro page s₂ (⟨empty, rfl, rfl⟩ | ⟨free₂, shape₂, valid', was', pool₂, moves₂⟩)
  · have never : ¬ enough := fun here => by
      have := large here
      simp [shape₁, empty] at this
    exact wp_assert (fun here => absurd here never) fun _ => wp_assert (fun here => absurd here never) fun nonzero =>
      absurd rfl nonzero
  have bounds' := valid'.bounds
  have distinct : page ≠ root := by
    rintro rfl
    simp at was'
  have isTable : ∀ q, Function.update own root (.table .pending) q = .table .pending ↔ q = root := fun q => by
    by_cases equal : q = root
    · simp [equal]
    · rw [Function.update_of_ne equal]
      refine iff_of_false (fun here => ?_) equal
      rcases b.owners q with other | other | other <;> simp [here] at other
  have tables₁ : SpaceTables (Function.update own root (.table .pending)) s₁.mem .pending root (.single root) :=
    .single isTable fun i low => Mem.load_zero fun x first last => clear x (by omega) (by omega)
  obtain ⟨tables₂, leaves₂⟩ := tables₁.moves pool₁ moves₂ (by simp) (by simp)
  have st₂ : TableState .pending root _ free₂ (.single root) s₂ := ⟨tables₂, pool₂⟩
  refine wp_assert (fun _ => by omega) fun _ => wp_assert (fun _ => by omega) fun _ => ?_
  have mapping : wp (pgtableMap root va page pageSize pageUser) s₂ _ fun _ _ => ¬ enough :=
    pgtableMap_spec (by decide) (by decide) small (by decide) bounds'.1 (by omega) st₂
  refine wp_bind_of mapping ?_
  rintro r s₃ ⟨own₃, free₃, dir₃, done, st₃, moves₃, leaves₃, _, outcome⟩
  rw [onePage] at outcome
  have succeeds : enough → r = 0 := fun here => by
    rcases outcome with ⟨zero, _⟩ | ⟨_, first, present | short⟩
    · exact zero
    · refine absurd ?_ present
      rw [leaves₂]
      simp [Directory.leafAt, Directory.single]
    · have := large here
      have := Reach.need_le (Directory.reach (.single root)) (done + 1) (va / 4096)
      simp only [shape₁, shape₂, List.length_cons] at *
      omega
  refine wp_assert succeeds fun success => ?_
  obtain ⟨_, isDone, _⟩ := outcome.resolve_right fun failed => by simp [failed.1] at success
  have leaf₃ : dir₃.leafAt s₃.mem (va / 4096) = mkPte page userFlags := by
    rw [leaves₃, if_pos ⟨Nat.le_refl _, by omega⟩, Nat.sub_self, Nat.mul_zero, wadd_zero (by omega)]
  have slot₃ : dir₃.slot (va / 4096) ≠ 0 := fun zero => by
    rw [st₃.leafAt_of_slot_zero zero] at leaf₃
    exact mkPte_ne_zero (by decide) (by decide) leaf₃.symm
  have value₃ : s₃.mem.load (dir₃.slot (va / 4096)) 8 = mkPte page userFlags :=
    (SpaceTables.leafAt_of_slot _ slot₃).trans leaf₃
  refine wp_bind_of (pgtableWalk_lookup st₃ below) ?_
  rintro pte _ ⟨rfl, same⟩
  rw [same]
  refine wp_assert (fun _ => slot₃) fun _ => ?_
  rw [wp_bind, wp_loadWord, value₃]
  refine wp_assert (fun _ => mkPte_present (by decide) (by decide)) fun _ =>
    wp_assert (fun _ => (mkPte_leaf (by decide)).trans (by decide)) fun _ =>
    wp_assert (fun _ => pteToPa_user valid') fun _ =>
    wp_assert (fun _ => by rw [mkPte_flags (by decide)]; decide) fun _ => ?_
  have present : ∀ v, va / 4096 ≤ v → v < va / 4096 + rangePages va pageSize → dir₃.leafAt s₃.mem v ≠ 0 := by
    intro v low high
    rw [onePage] at high
    rw [leaves₃, if_pos ⟨low, by omega⟩]
    exact mkPte_ne_zero (by decide) (by decide)
  have unmapping : wp (pgtableUnmap root va pageSize) s₃ _ fun _ _ => ¬ enough :=
    pgtableUnmap_spec small (by decide) present st₃
  refine wp_bind_of unmapping ?_
  rintro _ s₄ ⟨st₄, moves₄, leaves₄⟩
  refine wp_bind_of (pgtableWalk_lookup st₄ below) ?_
  rintro pte _ ⟨rfl, same⟩
  rw [same]
  rw [wp_bind, wp_loadWord]
  have gone : s₄.mem.load (dir₃.slot (va / 4096)) 8 = 0 := by
    rw [SpaceTables.leafAt_of_slot _ slot₃, leaves₄, if_pos ⟨Nat.le_refl _, by omega⟩]
  refine wp_assert (fun _ => by rw [gone]; decide) fun _ => ?_
  have still : own₃ page = .held := by
    rw [moves₃.moves.own_iff (by simp)]
    simp
  refine wp_bind_of (st₄.pool.release (p := page) (by simp [still]) (by simp [still])) ?_
  rintro _ s₅ ⟨own₅, pool₅, releases₅⟩
  have moves₅ : PageMoves {.free, .held} {.free, .held} own₃ s₄ own₅ s₅ :=
    releases₅.pageMoves (by rintro q rfl; simp [still]) (by simp) (by simp) (.refl _)
  refine wp_mono (pgtableFreeWalk_spec (st₄.tables.moves st₄.pool moves₅ (by simp) (by simp)).1 pool₅) ?_ fun _ _ => id
  rintro _ s₆ ⟨own₆, free₆, pool₆, releases₆⟩
  refine ⟨own₆, free₆, b.pages ?_ pool₆ fun q => ?_⟩
  · have created : PageMoves testing testing own s (Function.update own root (.table .pending)) s₁ :=
      moves₁.mono (by rintro o (rfl | rfl) <;> simp [testing]) (by rintro o rfl; simp [testing])
        (by rintro o (rfl | rfl) <;> simp [testing])
    have taken := ((created.trans (allocated moves₂)).trans (tabled moves₃)).trans (tabled moves₄)
    refine (taken.trans (released releases₅ (by simp [still, testing]))).trans (releases₆.pageMoves (fun q here => ?_)
      (by simp [testing]) (by rintro o rfl; simp [testing]) (.refl _))
    rw [show own₅ q = .table .pending from here]
    simp [testing]
  · by_cases table : own₅ q = .table .pending
    · rw [(releases₆.owner q).1 table]
      simp
    · rw [(releases₆.owner q).2 table]
      refine ⟨fun held => ?_, table⟩
      by_cases here : q = page
      · rw [(releases₅.owner q).1 here] at held
        simp at held
      · rw [(releases₅.owner q).2 here, moves₃.moves.own_iff (by simp), Function.update_of_ne here] at held
        by_cases isRoot : q = root
        · simp [isRoot] at held
        · rw [Function.update_of_ne isRoot] at held
          rcases b.owners q with other | other | other <;> simp [other] at held

end Booting

/-- The world that `vm_init` leaves: there are no tasks. -/
def emptyWorld (own : Nat → Owner) (free : List Nat) (blocks : List Block) (kdir : Directory) : World where
  own := own
  free := free
  blocks := blocks
  tasks := []
  queue := []
  dir := fun _ _ _ => none
  user := fun _ _ => none
  kdir := kdir

/-- What holds when the kernel has its page table: a world without tasks, in which
no page is lost and user code may reach none. -/
structure Started (g : World) (s : Kernel) : Prop where
  valid : Valid g s
  leaves : ∀ n, g.kdir.leafAt s.mem n = kernelEntry n
  tasks : g.tasks = []
  current : s.current = 0
  kept : ∀ q, g.own q ≠ .lost ∧ (PoolPage q → g.own q ≠ .outside)
  pid : s.nextPid = 1

/-- `vm_init`. -/
theorem Booting.vmInit {live free : List Nat} {own : Nat → Owner} {blocks : List Block} {s₀ s : Kernel} {enough : Prop}
    (power : PowerOn s₀) (b : Booting live own free blocks s₀ s) (large : enough → 68 ≤ free.length) :
    wp vmInit s (fun _ s' => ∃ g, Started g s' ∧ free.length = g.free.length + 68) fun _ _ => ¬ enough := by
  unfold KuroOS.vmInit
  refine wp_bind_of (pgtableCreate_spec b.state.pool (o := .table .kernel) (by simp)) ?_
  rintro root s₁ (⟨empty, rfl, rfl⟩ | ⟨free₁, shape₁, valid, was, pool₁, moves₁, clear⟩)
  · rw [wp_bind, wp_modify]
    exact wp_assert (fun here => by simpa [empty] using large here) fun nonzero => absurd rfl nonzero
  have bounds := valid.bounds
  have isTable : ∀ q, Function.update own root (.table .kernel) q = .table .kernel ↔ q = root := fun q => by
    by_cases equal : q = root
    · simp [equal]
    · rw [Function.update_of_ne equal]
      refine iff_of_false (fun here => ?_) equal
      rcases b.owners q with other | other | other <;> simp [here] at other
  rw [wp_bind, wp_modify]
  refine wp_assert (fun _ => by omega) fun nonzero => ?_
  obtain ⟨s₂, is₂⟩ : ∃ s₂ : Kernel, s₂ = { s₁ with kernelPagetable := root } := ⟨_, rfl⟩
  have mem₂ : s₂.mem = s₁.mem := by rw [is₂]
  rw [← is₂]
  have st₂ : TableState .kernel root _ free₁ (.single root) s₂ :=
    ⟨.single isTable fun i low => Mem.load_zero fun x first last => mem₂ ▸ clear x (by omega) (by omega),
      pool₁.congr (fun x _ => by rw [mem₂]) (by rw [is₂])⟩
  refine wp_bind_of (vmMapKernel_spec st₂) ?_
  rintro r s₃ ⟨own₃, free₃, dir₃, st₃, moves₃, outcome⟩
  have succeeds : enough → r = 0 := fun here => by
    rcases outcome with ⟨zero, _⟩ | ⟨_, short⟩
    · exact zero
    · have := large here
      simp only [shape₁, List.length_cons] at this
      omega
  refine wp_assert succeeds fun success => ?_
  obtain ⟨_, space₃, _, count₃⟩ := outcome.resolve_right fun failed => failed.1 success
  have moves := (moves₁.mono_owner (Set.Subset.refl _)).moves.mono (Set.Subset.refl _)
    (show ({.free} : Set Owner) ⊆ {.free, .table .kernel} by simp) (Set.Subset.refl _) |>.trans (mem₂ ▸ moves₃.moves)
  have globals : s₃ = { s₀ with
      mem := s₃.mem, nrTotalPages := s.nrTotalPages, nrFreePages := s₃.nrFreePages, heapHead := s.heapHead,
      heapTail := s.heapTail, kernelPagetable := root } := by
    have first := b.globals
    rw [moves₃.globals]
    generalize s₃.mem = m, s₃.nrFreePages = n
    rw [is₂, moves₁.globals]
    generalize s₁.mem = m', s₁.nrFreePages = n'
    rw [first]
  have heads : ∀ x, x ∈ node Layout.allTasks ∨ x ∈ node Layout.runQueue → s₃.mem x = s₀.mem x := fun x isHead => by
    rw [moves.bytes x (by simp [b.head_outside isHead]) (WorldOf.head_apart isHead)]
    exact b.heads x isHead
  have owners : ∀ q, (own₃ q = .outside ∧ ¬ PoolPage q) ∨ own₃ q = .free ∨ own₃ q = .heap ∨ own₃ q = .table .kernel := fun q => by
    rcases moves.owner q with same | ⟨_, here⟩
    · rw [same]
      exact (b.owners q).imp id fun here => here.imp id .inl
    · simp only [Set.mem_insert_iff, Set.mem_singleton_iff] at here
      tauto
  unfold vmSwitch
  refine wp_assert (fun _ => by omega) fun _ => wp_assert (fun _ => pageAligned_iff.mpr bounds.1) fun _ => ?_
  rw [wp_modify]
  obtain ⟨s₄, is₄⟩ : ∃ s₄ : Kernel, s₄ = { s₃ with satpRoot := root } := ⟨_, rfl⟩
  have mem₄ : s₄.mem = s₃.mem := by rw [is₄]
  have ring : ∀ {head}, Ring s₀.mem head [] → (∀ x ∈ node head, s₃.mem x = s₀.mem x) → Ring s₄.mem head [] :=
    fun empty same => empty.congr fun x ⟨a, member, inside⟩ => by
      obtain rfl := List.mem_singleton.mp member
      rw [mem₄]
      exact same x inside
  have heap : HeapState own₃ free₃ blocks s₄ := ⟨st₃.pool.congr (fun x _ => by rw [mem₄]) (by rw [is₄]),
    b.state.heap.congr (fun c member x low high => by
      have inHeap := (b.state.heap.cover x).mpr ⟨c, member, low, by unfold Block.stop; omega⟩
      rw [mem₄]
      exact moves.bytes x (by simp [inHeap]) (b.state.pool.not_head (by simp [inHeap]))) (by rw [is₄, globals])
      (by rw [is₄, globals]) (moves.own_iff (by simp)), b.state.coalesced⟩
  have kernel : SpaceTables own₃ s₄.mem .kernel s₄.kernelPagetable dir₃ := by
    rw [mem₄, is₄, globals]
    exact st₃.tables
  have world : WorldAt ∅ (emptyWorld own₃ free₃ blocks dir₃) s₄ :=
    { heap := heap
      allTasks := ring power.allTasks fun x inside => heads x (.inl inside)
      runQueue := ring power.runQueue fun x inside => heads x (.inr inside)
      home := by simp [World.structs, emptyWorld]
      view := by simp [emptyWorld]
      space := by simp [emptyWorld]
      kernel := kernel
      owners := fun q => .inl (by rcases owners q with here | here | here | here <;> simp [emptyWorld, here, common])
      foreign := by simp
      idle := by simp [emptyWorld] }
  rw [← is₄]
  have same : s₄.current = s₀.current ∧ s₄.nextPid = s₀.nextPid ∧ s₄.nrRunnableTasks = s₀.nrRunnableTasks := by
    rw [is₄, globals]
    exact ⟨rfl, rfl, rfl⟩
  refine ⟨emptyWorld own₃ free₃ blocks dir₃, ⟨⟨world, ⟨⟨?_, ?_, ?_, ?_, ?_⟩, .inl ?_⟩, ?_, ?_⟩, fun n => ?_, rfl, ?_, fun q => ?_, ?_⟩, ?_⟩
  · rw [same.2.2, power.nrRunnableTasks]
    rfl
  · simp [emptyWorld]
  · simp [emptyWorld]
  · simp [emptyWorld]
  · simp [emptyWorld]
  · rw [same.1, power.current]
  · rw [same.2.1, power.nextPid]
    decide
  · simp [emptyWorld]
  · rw [mem₄]
    exact space₃.leaves n
  · rw [same.1, power.current]
  · rcases owners q with ⟨here, not⟩ | here | here | here
    · exact ⟨by simp [emptyWorld, here], fun isPage => absurd isPage not⟩
    all_goals simp [emptyWorld, here]
  · rw [same.2.1, power.nextPid]
  · simp only [emptyWorld, shape₁, List.length_cons]
    omega

/-- `kernel_main` up to `vm_init`. -/
theorem kernelStart_spec {s₀ : Kernel} {enough : Prop} (power : PowerOn s₀)
    (large : enough → 70 ≤ (0x88000000 - Layout.kernelEnd) / 4096) :
    wp kernelStart s₀ (fun _ s => ∃ g, Started g s ∧ (0x88000000 - Layout.kernelEnd) / 4096 ≤ g.free.length + 70)
      fun _ _ => ¬ enough := by
  unfold kernelStart
  refine wp_bind_of (Booting.pageInit power) ?_
  rintro _ s₁ ⟨free₁, b₁, count, total⟩
  rw [← count] at large ⊢
  refine wp_bind_of (b₁.pageTest (fun here => by have := large here; omega) fun _ => total) ?_
  rintro _ s₂ ⟨own₂, free₂, b₂, more₂⟩
  refine wp_bind_of (b₂.kmallocTest fun here => by have := large here; omega) ?_
  rintro _ s₃ ⟨own₃, free₃, blocks₃, b₃, more₃⟩
  refine wp_bind_of (b₃.pgtableTest fun here => by have := large here; omega) ?_
  rintro _ s₄ ⟨own₄, free₄, b₄, more₄⟩
  refine wp_mono (b₄.vmInit power fun here => by have := large here; omega) ?_ fun _ _ => id
  rintro _ s ⟨g, started, length⟩
  exact ⟨g, started, by omega⟩

/-- The linker's symbols for the user image are in order: both programs start in it. -/
structure UserImage (pages : Nat) : Prop where
  count : alignUp (wsub Layout.userEnd Layout.userStart) pageSize = 4096 * pages
  main : Layout.userStart ≤ Layout.userMain ∧ Layout.userMain < Layout.userEnd

/-- Between the tests and `user_init` no task runs, and few have been made. -/
structure Idle (made : Nat) (g : World) (s : Kernel) : Prop where
  valid : Valid g s
  current : s.current = 0
  pids : Pids g s
  next : s.nextPid ≤ made + 1

namespace Idle

variable {made : Nat} {g g' : World} {s s' : Kernel} {halt : Halt → Kernel → Prop}

/-- No task is made. -/
theorem keep (idle : Idle made g s) (valid : Valid g' s') (current : s'.current = s.current) (fewer : FewerPids g s g' s') :
    Idle made g' s' :=
  ⟨valid, current.trans idle.current, idle.pids.fewer fewer, fewer.2 ▸ idle.next⟩

theorem looked (idle : Idle made g s) (looked : Looked s s') : Idle made g s' := by
  have kept := idle.valid.looked looked
  unfold Looked at looked
  exact idle.keep kept (by rw [looked]) ⟨.refl _, by rw [looked]⟩

/-- `task_create_user`. -/
theorem create (idle : Idle made g s) (small : made < 2 ^ 32) (start stop entry : Nat) {pages : Nat}
    (count : alignUp (wsub stop start) pageSize = 4096 * pages) :
    wp (taskCreateUser start stop entry) s (fun r s' => ∃ g', Idle (made + 1) g' s' ∧
      (∀ v ∈ g.tasks, (v ∈ g'.tasks ∧ g'.user v.addr = g.user v.addr) ∨ v.state = .zombie) ∧
      ((r = 0 ∧ g.free.length < 73 + 3 * pages) ∨
        (r ≠ 0 ∧ g.free.length ≤ g'.free.length + 73 + 3 * pages ∧ g'.queue.length = g.queue.length + 1 ∧ ∃ v ∈ g'.tasks, v.addr = r ∧ v.state = .ready ∧
          v.entry = wadd userTextBase (wsub entry start) ∧ v.userSp = userStackTop ∧
          FreshMap (g'.user v.addr) pages v.userStack))) halt := by
  have valid := idle.valid
  refine wp_mono (valid.world.taskCreateUser_spec valid.unqueued valid.pid) ?_ fun _ _ => id
  rintro r s' ⟨g₁, s₁, g', reaping, world', outcome⟩
  have few : (Op.createUser start stop entry).creations r ≤ 1 := by
    unfold Op.creations
    dsimp only
    split <;> omega
  have next := idle.next
  have more : g.free.length ≤ g₁.free.length := valid.world.heap.pool.length_mono reaping.world.heap.pool fun q isFree => by
    rw [reaping.reaped.frees.others q fun v _ => by simp [isFree, labels], isFree]
  have alive : ∀ v ∈ g.tasks, v ∈ g₁.tasks ∨ v.state = .zombie := fun v member => by
    by_cases dead : v.state = .zombie
    · exact .inr dead
    · rw [reaping.tasks]
      exact .inl (mem_survivors.mpr ⟨member, fun zombie => absurd zombie dead⟩)
  have current₁ : s₁.current = 0 := by
    rw [reaping.reaped.globals]
    exact idle.current
  have idle' : Valid g' s' → s'.current = 0 → (Op.createUser start stop entry).Outcome g s r g' s' → Idle (made + 1) g' s' :=
    fun valid' current outcome => by
      obtain ⟨pids', next'⟩ := idle.pids.step outcome (by omega)
      exact ⟨valid', current, pids', by omega⟩
  rcases outcome with ⟨rfl, aborted, short⟩ | ⟨nonzero, v, n, here, isEntry, isSize, created, _, _, used⟩
  · rw [count] at short
    refine ⟨g', idle' ((valid.reaping reaping).aborted world' aborted) (by rw [aborted.globals]; exact current₁)
      ⟨g₁, s₁, reaping, .inl ⟨rfl, aborted⟩⟩, ?_, .inl ⟨rfl, by omega⟩⟩
    rw [aborted.same.tasks, aborted.same.user, reaping.reaped.user]
    exact fun v member => (alive v member).imp (fun inside => ⟨inside, rfl⟩) id
  · obtain rfl : n = pages := by omega
    refine ⟨g', idle' ((valid.reaping reaping).created world' created) (by rw [created.born.globals]; exact current₁)
      ⟨g₁, s₁, reaping, .inr ⟨nonzero, v, n, here, created⟩⟩, fun w member => ?_, .inr ⟨nonzero, by omega, ?_, v, ?_, here, ?_,
      isEntry, ?_, created.fresh⟩⟩
    · refine (alive w member).imp (fun inside => ⟨?_, ?_⟩) id
      · rw [created.born.tasks]
        exact List.mem_append_left _ inside
      · rw [created.born.user _ fun equal => created.born.fresh (List.mem_append_left _ (equal ▸ List.mem_map_of_mem inside)),
          reaping.reaped.user]
    · rw [created.born.queue, reaping.reaped.queue]
      simp
    · rw [created.born.tasks]
      simp
    · rw [created.view]
      rfl
    · rw [created.view]
      rfl

/-- The assertions of `task_create_user_test` on an entry hold of a page that the
task has mapped. -/
theorem entryTest (idle : Idle made g s) {v : TaskView} (member : v ∈ g.tasks) {va page : Nat} (below : va < 2 ^ 38)
    (found : g.user v.addr (va / 4096) = some page) {wanted : Nat} (grants : userFlags &&& wanted ≠ 0) (text : String) :
    wp (KuroOS.entryTest v.pagetable va wanted text) s (fun _ s' => s' = s) halt := by
  have space := idle.valid.world.space v member
  have st : SpaceState (.task v.addr) v.pagetable g.own g.free (g.dir v.addr) (g.user v.addr) s :=
    ⟨⟨space.tables, idle.valid.world.heap.pool⟩, space.leaves, space.plain⟩
  have valid := idle.valid.userPage member found
  have entry : (g.dir v.addr).leafAt s.mem (va / 4096) = mkPte page userFlags := by
    rw [space.leaves]
    simp [spaceEntry, found]
  have slot : (g.dir v.addr).slot (va / 4096) ≠ 0 := fun zero => by
    rw [st.table.leafAt_of_slot_zero zero] at entry
    exact mkPte_ne_zero (by decide) (by decide) entry.symm
  have value : s.mem.load ((g.dir v.addr).slot (va / 4096)) 8 = mkPte page userFlags :=
    (SpaceTables.leafAt_of_slot _ slot).trans entry
  have flags : pteFlags (mkPte page userFlags) = userFlags := mkPte_flags (by decide)
  unfold KuroOS.entryTest
  refine wp_bind_of (pgtableWalk_lookup st.table below) ?_
  rintro _ _ ⟨rfl, rfl⟩
  have present : ptePresent (mkPte page userFlags) = true := mkPte_present (by decide) (by decide)
  have leaf : pteLeaf (mkPte page userFlags) = true := (mkPte_leaf (by decide)).trans (by decide)
  have user : userFlags &&& pteU ≠ 0 := by decide
  simp only [wp_bind, wp_kassert, wp_loadWord, value, flags, present, leaf, user, grants, slot, ne_eq, not_false_eq_true, if_true]

/-- `task_create_user_test`. -/
theorem taskCreateUserTest (idle : Idle made g s) (small : made < 2 ^ 32) {enough : Prop} {pages : Nat}
    (image : enough → UserImage pages) (large : enough → 73 + 3 * pages ≤ g.free.length) :
    wp KuroOS.taskCreateUserTest s (fun _ s' => ∃ g', Idle (made + 1) g' s' ∧
      (enough → g.free.length ≤ g'.free.length + 73 + 3 * pages)) fun _ _ => ¬ enough := by
  obtain ⟨n, count⟩ : ∃ n, alignUp (wsub Layout.userEnd Layout.userStart) pageSize = 4096 * n :=
    ⟨_, (Nat.mul_div_cancel' (Nat.dvd_of_mod_eq_zero (alignUp_pages _).1)).symm⟩
  have isPages : enough → n = pages := fun here => by
    have := (image here).count
    omega
  unfold KuroOS.taskCreateUserTest
  refine wp_bind_of (idle.create small _ _ _ count) ?_
  rintro task s₁ ⟨g₁, idle₁, _, outcome⟩
  have made₁ : enough → task ≠ 0 := fun here zero => by
    rcases outcome with ⟨_, short⟩ | ⟨nonzero, _⟩
    · have := large here
      have := isPages here
      omega
    · exact nonzero zero
  refine wp_assert made₁ fun nonzero => ?_
  obtain ⟨_, used, _, v, member, rfl, ready, isEntry, isSp, fresh⟩ := outcome.resolve_left fun failed => nonzero failed.1
  have view := idle₁.valid.world.view v member
  have rootBounds := ((idle₁.valid.world.space v member).tables.page idle₁.valid.world.heap.pool
    (idle₁.valid.world.space v member).tables.tree.root_mem).bounds
  have section' := Layout.user_section
  have top := Layout.kernelEnd_le
  rw [wp_bind, wp_loadState, view.state]
  refine wp_assert (fun _ => by rw [ready]) fun _ => ?_
  rw [wp_bind, wp_loadWord, view.entry]
  refine wp_assert (fun _ => isEntry) fun _ => ?_
  rw [wp_bind, wp_loadWord, view.userSp]
  refine wp_assert (fun _ => isSp) fun _ => ?_
  rw [wp_bind, wp_loadWord, view.pagetable]
  refine wp_assert (fun _ => by omega) fun _ => ?_
  rw [wp_bind, wp_loadWord, wp_bind, wp_loadWord, view.pagetable, view.entry]
  have entryRuns : wp (KuroOS.entryTest v.pagetable v.entry pteX "pte_flags(*entry_pte) & PTE_X") s₁
      (fun _ s₂ => Looked s₁ s₂) fun _ _ => ¬ enough := by
    by_cases here : enough
    · have size : wsub Layout.userEnd Layout.userStart = Layout.userEnd - Layout.userStart :=
        wsub_of_le (by omega) (by simp only [ramEnd] at top; omega)
      have offset : wsub Layout.userMain Layout.userStart = Layout.userMain - Layout.userStart := by
        have := (image here).main
        exact wsub_of_le (by omega) (by simp only [ramEnd] at top; omega)
      have within := (image here).main
      simp only [ramEnd, ramBase] at top section'
      have rounded : alignUp (wsub Layout.userEnd Layout.userStart) pageSize =
          (Layout.userEnd - Layout.userStart + 4095) / 4096 * 4096 := by
        rw [size, alignUp_page (by omega)]
      have isEntry' : v.entry = 0x10000 + (Layout.userMain - Layout.userStart) := by
        rw [isEntry, offset, wadd_of_lt (by simp only [userTextBase]; omega)]
      obtain ⟨page, found⟩ := Option.isSome_iff_exists.mp ((fresh.mapped (v.entry / 4096)).mpr (.inl (by omega)))
      refine wp_mono (idle₁.entryTest member (by omega) found (by decide) _) ?_ fun _ _ => id
      rintro _ _ rfl
      exact .refl _
    · exact wp_mono (Looks.entryTest _ _ _ _ s₁) (fun _ _ => id) fun _ _ _ => here
  refine wp_bind_of entryRuns fun _ s₂ looked₂ => ?_
  have mem₂ := looked₂.mem
  have idle₂ : Idle (made + 1) g₁ s₂ := idle₁.looked looked₂
  rw [wp_bind, wp_loadWord, (idle₂.valid.world.view v member).pagetable]
  have address : (userStackTop - pageSize) / 4096 = stackVpn := by decide
  have below : userStackTop - pageSize < 2 ^ 38 := by decide
  refine wp_bind_of (idle₂.entryTest member below (address ▸ fresh.stack) (by decide) _) ?_
  rintro _ s₃ rfl
  refine wp_mono (idle₂.valid.destroy_step member ready 0) ?_ fun _ _ => id
  rintro _ s' ⟨g', valid', w, _, _, destroyed⟩
  refine ⟨g', idle₂.keep valid' (by rw [destroyed.globals]) destroyed.fewerPids, fun here => ?_⟩
  have back := idle₂.valid.world.heap.pool.length_mono valid'.world.heap.pool fun q isFree => by
    rw [destroyed.frees.others q fun v _ => by simp [isFree, labels], isFree]
  have := isPages here
  omega

/-- Registering a file of the initial ramdisk. -/
theorem initrdAdd (idle : Idle made g s) (name namesize filesize data : Nat) :
    wp (KuroOS.initrdAdd name namesize filesize data) s (fun _ s' => ∃ g', Idle made g' s' ∧
      g.free.length ≤ g'.free.length + 1) halt := by
  unfold KuroOS.initrdAdd
  refine wp_bind_of (idle.valid.world.kmalloc_spec (n := initrdEntrySize) (by decide) (by decide) (by decide)) ?_
  rintro entry s₁ ⟨g₁, world₁, same₁, moves₁, used, outcome⟩
  have globals := moves₁.globals
  have idle₁ : Idle made g₁ s₁ := idle.keep (idle.valid.same_tasks world₁ same₁ (by rw [globals]) (by rw [globals])
    (by rw [globals]) (by rw [globals])) (by rw [globals]) (same₁.fewerPids (by rw [globals]))
  rcases outcome with ⟨rfl, _⟩ | block
  · rw [if_pos rfl, wp_pure]
    exact ⟨g₁, idle₁, used⟩
  obtain ⟨b, member, _, here, large⟩ := block.home
  have bounds := world₁.heap.heap.bounds world₁.heap.pool member
  have size : alignUp initrdEntrySize kmallocAlign = 96 := by decide
  rw [size] at block large
  rw [if_neg (by omega)]
  simp only [wp_bind, wp_modifyMem, wp_storeWord, wp_get, wp_modify, wp_pure]
  obtain ⟨mem', is⟩ : ∃ m, m = entryMem s₁.mem entry name namesize filesize data s₁.fileList := ⟨_, rfl⟩
  have world' : WorldAt ∅ g₁ { s₁ with mem := mem' } := block.write world₁ same₁ fun x away => by
    rw [is]
    refine entryMem_of_outside ?_ ?_ <;>
    · unfold Block.stop at bounds
      simp only [initrdEntrySize]
      omega
  have program : Idle made g₁ { s₁ with mem := mem', fileList := entry } :=
    idle₁.keep (idle₁.valid.same_tasks (world'.congr (fun _ _ => rfl) rfl rfl rfl rfl) (.refl _) rfl rfl rfl rfl) rfl ⟨.refl _, rfl⟩
  rw [is] at program
  exact ⟨g₁, program, used⟩

/-- The scan of the initial ramdisk. Every round goes on by a header at least, and
takes at most a page. -/
theorem initrdLoop (idle : Idle made g s) {stop fuel pos : Nat} (low : stop < 2 ^ 63) (fits : pos < 2 ^ 63 + 2 ^ 36)
    (positive : 0 < fuel) (bound : stop < pos + 110 * fuel) :
    wp (KuroOS.initrdLoop stop fuel pos) s (fun _ s' => ∃ g', Idle made g' s' ∧
      110 * g.free.length ≤ 110 * g'.free.length + (stop - pos)) halt := by
  induction fuel generalizing pos g s with
  | zero => omega
  | succ fuel ih =>
      rw [KuroOS.initrdLoop, wp_bind, wp_get]
      dsimp only
      have next : wadd pos cpioHeaderSize = pos + 110 := wadd_of_lt (by simp only [cpioHeaderSize]; omega)
      rw [next]
      split
      · next more =>
          have names := parseHex_lt s.mem (pos + 94) (show 8 ≤ 15 by omega)
          have files := parseHex_lt s.mem (pos + 54) (show 8 ≤ 15 by omega)
          obtain ⟨after, isAfter⟩ : ∃ a, a = align4 (wadd (align4 (wadd (pos + 110) (parseHex s.mem (pos + 94) 8)))
              (parseHex s.mem (pos + 54) 8)) := ⟨_, rfl⟩
          have later : pos + 110 ≤ after ∧ after < pos + 110 + 2 ^ 34 := by
            have isData : align4 (wadd (pos + 110) (parseHex s.mem (pos + 94) 8)) =
                (pos + 110 + parseHex s.mem (pos + 94) 8 + 3) / 4 * 4 := by
              rw [wadd_of_lt (by omega), align4_eq (by omega)]
              rfl
            rw [isAfter, isData, wadd_of_lt (by omega), align4_eq (by omega)]
            unfold roundUp
            omega
          rw [← isAfter]
          split
          · exact (wp_pure _).mpr ⟨g, idle, by omega⟩
          · split
            · refine wp_mono (ih idle (by omega) (by omega) (by omega)) ?_ fun _ _ => id
              rintro _ s' ⟨g', idle', used⟩
              exact ⟨g', idle', by omega⟩
            · refine wp_bind_of (idle.initrdAdd _ _ _ _) ?_
              rintro more s₁ ⟨g₁, idle₁, used₁⟩
              split
              · refine wp_mono (ih idle₁ (by omega) (by omega) (by omega)) ?_ fun _ _ => id
                rintro _ s' ⟨g', idle', used⟩
                exact ⟨g', idle', by omega⟩
              · exact (wp_pure _).mpr ⟨g₁, idle₁, by omega⟩
      · exact (wp_pure _).mpr ⟨g, idle, by omega⟩

/-- `initrd_init`. -/
theorem initrdInit (idle : Idle made g s) {start size : Nat} (low : start + size < 2 ^ 63) :
    wp (KuroOS.initrdInit start size) s (fun _ s' => ∃ g', Idle made g' s' ∧
      g.free.length ≤ g'.free.length + size / 110 + 1) halt := by
  unfold KuroOS.initrdInit
  rw [wp_bind, wp_modify]
  have world : WorldAt ∅ g { s with fileList := 0 } := idle.valid.world.congr (fun _ _ => rfl) rfl rfl rfl rfl
  have cleared : Idle made g { s with fileList := 0 } :=
    idle.keep (idle.valid.same_tasks world (.refl _) rfl rfl rfl rfl) rfl ⟨.refl _, rfl⟩
  have stop : wadd start size = start + size := wadd_of_lt (by omega)
  rw [stop]
  refine wp_mono (cleared.initrdLoop low (by omega) (by unfold loopBound; omega) (by unfold loopBound; omega)) ?_ fun _ _ => id
  rintro _ s' ⟨g', idle', used⟩
  exact ⟨g', idle', by omega⟩

/-- `kernel_main` from the test after `vm_init` on. -/
theorem kernelTestAndInitrd (idle : Idle made g s) (small : made < 2 ^ 32) {enough : Prop} {pages : Nat}
    (image : enough → UserImage pages) (large : enough → 73 + 3 * pages ≤ g.free.length) :
    wp KuroOS.kernelTestAndInitrd s (fun _ s' => ∃ g', Idle (made + 1) g' s' ∧ (enough →
      g.free.length ≤ g'.free.length + 74 + 3 * pages + (Layout.initrdEnd - Layout.initrdStart) / 110)) fun _ _ => ¬ enough := by
  have bounds := Layout.initrd_section
  have top := Layout.kernelEnd_le
  simp only [ramEnd] at top
  unfold KuroOS.kernelTestAndInitrd
  refine wp_bind_of (idle.taskCreateUserTest small image large) ?_
  rintro _ s₁ ⟨g₁, idle₁, used₁⟩
  split
  · refine wp_mono (idle₁.initrdInit (by omega)) ?_ fun _ _ => id
    rintro _ s' ⟨g', idle', used'⟩
    exact ⟨g', idle', fun here => by have := used₁ here; omega⟩
  · exact (wp_pure _).mpr ⟨g₁, idle₁, fun here => by have := used₁ here; omega⟩

/-- `user_init`: two tasks are made, and the first one runs, on the stack that it was
made with. -/
theorem userInit (idle : Idle made g s) (small : made + 1 < 2 ^ 32) {enough : Prop} {pages : Nat}
    (image : enough → UserImage pages) (large : enough → 2 * (73 + 3 * pages) ≤ g.free.length) :
    wp KuroOS.userInit s (fun _ s' => ∃ g', Valid g' s' ∧ s'.current ≠ 0 ∧ Pids g' s' ∧ s'.nextPid ≤ made + 3 ∧
      2 ≤ g'.queue.length ∧ (∃ w ∈ g'.tasks, w.addr = s'.current ∧ g'.user w.addr stackVpn = some w.userStack) ∧
      (enough → g.free.length ≤ g'.free.length + 2 * (73 + 3 * pages))) fun _ _ => ¬ enough := by
  obtain ⟨n, count⟩ : ∃ n, alignUp (wsub Layout.userEnd Layout.userStart) pageSize = 4096 * n :=
    ⟨_, (Nat.mul_div_cancel' (Nat.dvd_of_mod_eq_zero (alignUp_pages _).1)).symm⟩
  have isPages : enough → n = pages := fun here => by
    have := (image here).count
    omega
  unfold KuroOS.userInit
  refine wp_bind_of (idle.create (by omega) _ _ _ count) ?_
  rintro first s₁ ⟨g₁, idle₁, _, made₁⟩
  refine wp_bind_of (idle₁.create (by omega) _ _ _ count) ?_
  rintro second s₂ ⟨g₂, idle₂, kept, made₂⟩
  have someFirst : enough → first ≠ 0 := fun here zero => by
    have := large here
    have := isPages here
    rcases made₁ with ⟨_, short⟩ | ⟨nonzero, _⟩
    · omega
    · exact nonzero zero
  refine wp_assert someFirst fun nonzero => ?_
  obtain ⟨_, used₁, longer₁, v, member, rfl, ready, _, _, fresh⟩ := made₁.resolve_left fun failed => nonzero failed.1
  have someSecond : enough → second ≠ 0 := fun here zero => by
    have := large here
    have := isPages here
    rcases made₂ with ⟨_, short⟩ | ⟨nonzero, _⟩
    · omega
    · exact nonzero zero
  refine wp_assert someSecond fun nonzero' => ?_
  obtain ⟨_, used₂, longer₂, _⟩ := made₂.resolve_left fun failed => nonzero' failed.1
  obtain ⟨member₂, users⟩ := (kept v member).resolve_right (by simp [ready])
  have books : Books 0 g₂ s₂ := by
    have := idle₂.valid.sched.books
    rwa [idle₂.current] at this
  have queued : v.addr ∈ g₂.queue := (books.queued v member₂).mpr (by simp [ready])
  refine wp_mono (idle₂.valid.world.taskSetCurrent_spec books member₂ queued) ?_ fun _ _ => id
  rintro _ s' ⟨world', sched', resumed, switched⟩
  have fewer := switched.fewerPids (.refl _)
  refine ⟨_, ⟨world', sched', fewer.2 ▸ idle₂.valid.pid, fun w inside here => ?_⟩, ?_, idle₂.pids.fewer fewer, ?_, ?_,
    ⟨_, resumed.member, resumed.current.symm, users ▸ fresh.stack⟩, fun here => ?_⟩
  · rw [world'.eq_of_addr inside resumed.member (here.trans resumed.current)]
    exact resumed.root
  · rw [resumed.current]
    exact world'.addr_ne_zero resumed.member
  · rw [fewer.2]
    exact idle₂.next
  · change 2 ≤ g₂.queue.length
    omega
  · have := isPages here
    change _ ≤ g₂.free.length + _
    omega

end Idle

/-- A machine whose boot returns: the user image is in order, and there is memory
for the tests and for two tasks. -/
structure Bootable (pages : Nat) : Prop where
  image : UserImage pages
  large : 290 + 9 * pages + (Layout.initrdEnd - Layout.initrdStart) / 110 ≤ (ramEnd - Layout.kernelEnd) / pageSize

/-- `kernel_main`, up to the jump to user mode. -/
theorem kernelMain_boots {s₀ : Kernel} (power : PowerOn s₀) {enough : Prop} {pages : Nat} (bootable : enough → Bootable pages) :
    wp kernelMain s₀ (fun _ s => ∃ g, Valid g s ∧ s.current ≠ 0 ∧ Pids g s ∧ s.nextPid ≤ 4 ∧ 2 ≤ g.queue.length ∧
      (∃ w ∈ g.tasks, w.addr = s.current ∧ g.user w.addr stackVpn = some w.userStack) ∧ (enough → (ramEnd - Layout.kernelEnd) / pageSize ≤
        g.free.length + 290 + 9 * pages + (Layout.initrdEnd - Layout.initrdStart) / 110)) fun _ _ => ¬ enough := by
  have large : enough → 290 + 9 * pages + (Layout.initrdEnd - Layout.initrdStart) / 110 ≤ (0x88000000 - Layout.kernelEnd) / 4096 :=
    fun here => (bootable here).large
  have image : enough → UserImage pages := fun here => (bootable here).image
  simp only [ramEnd, pageSize]
  unfold kernelMain
  refine wp_bind_of (kernelStart_spec power fun here => by have := large here; omega) ?_
  rintro _ s₁ ⟨g₁, started, used₁⟩
  have idle : Idle 0 g₁ s₁ := ⟨started.valid, started.current, ⟨by simp [started.tasks], by simp [started.tasks]⟩,
    by rw [started.pid]⟩
  refine wp_bind_of (idle.kernelTestAndInitrd (by decide) image fun here => by have := large here; omega) ?_
  rintro _ s₂ ⟨g₂, idle₂, used₂⟩
  refine wp_mono (idle₂.userInit (by decide) image fun here => by have := large here; have := used₂ here; omega) ?_ fun _ _ => id
  rintro _ s ⟨g, valid, busy, pids, next, two, own, used⟩
  exact ⟨g, valid, busy, pids, next, two, own, fun here => by have := used₂ here; have := used here; omega⟩

/-- `kernel_main` where its assertions may stop it. -/
theorem kernelMain_spec {s₀ : Kernel} (power : PowerOn s₀) :
    wp kernelMain s₀ (fun _ s => ∃ g, Valid g s ∧ s.current ≠ 0 ∧ Pids g s ∧ s.nextPid ≤ 4) fun _ _ => True := by
  refine wp_mono (kernelMain_boots power fun none : False => (none.elim : Bootable 0)) ?_ fun _ _ _ => trivial
  rintro _ s ⟨g, valid, busy, pids, next, _⟩
  exact ⟨g, valid, busy, pids, next⟩

end

section

attribute [local instance] Layout.sample

/-- A machine with cleared memory and empty lists. -/
def Kernel.powerOn : Kernel :=
  { Kernel.blank with mem := initListHead (initListHead Kernel.blank.mem Layout.allTasks) Layout.runQueue }

theorem powerOn_sample : PowerOn Kernel.powerOn where
  allTasks := by
    refine (initListHead_ring (by decide)).congr fun x ⟨a, member, inside⟩ => initListHead_sameOff x ?_
    obtain rfl := List.mem_singleton.mp member
    simp only [mem_node, Layout.allTasks, Layout.runQueue] at *
    omega
  runQueue := initListHead_ring (by decide)
  heapHead := rfl
  heapTail := rfl
  current := rfl
  nextPid := rfl
  nrRunnableTasks := rfl

theorem bootable_sample : Bootable 1 where
  image := ⟨by decide, by decide⟩
  large := by decide

/-- The part of a boot that `vm_init` ends. -/
theorem kernelStart_sample : ∃ s, kernelStart Kernel.powerOn = .ok () s := by
  obtain ⟨_, s, returned, _⟩ := wp_total (wp_enough trivial (kernelStart_spec powerOn_sample fun _ : True => by decide))
  exact ⟨s, returned⟩

/-- A boot that comes to user mode, with two tasks and much memory to spare. The first
one runs on its own stack. -/
theorem kernelMain_stack : ∃ s g, kernelMain Kernel.powerOn = .ok () s ∧ Valid g s ∧ s.current ≠ 0 ∧
    2 ≤ g.queue.length ∧ 31000 ≤ g.free.length ∧
    ∃ w ∈ g.tasks, w.addr = s.current ∧ g.user w.addr stackVpn = some w.userStack := by
  obtain ⟨_, s, returned, g, valid, busy, _, _, two, own, used⟩ :=
    wp_total (wp_enough trivial (kernelMain_boots powerOn_sample fun _ : True => bootable_sample))
  have total : (ramEnd - Layout.kernelEnd) / pageSize = 31744 := by decide
  have initrd : (Layout.initrdEnd - Layout.initrdStart) / 110 = 37 := by decide
  have := used trivial
  exact ⟨s, g, returned, valid, busy, two, by omega, own⟩

theorem kernelMain_sample : ∃ s g, kernelMain Kernel.powerOn = .ok () s ∧ Valid g s ∧ s.current ≠ 0 ∧
    2 ≤ g.queue.length ∧ 31000 ≤ g.free.length := by
  obtain ⟨s, g, returned, valid, busy, two, room, _⟩ := kernelMain_stack
  exact ⟨s, g, returned, valid, busy, two, room⟩

end

end KuroOS
