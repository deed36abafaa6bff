import KuroOS.Task.Reap

/-!
# Building a task's pages

`task_create_user` and `task_fork` take the pages of a new task one by one, and
any of these steps may fail. `Building` is the state in between: a kernel
mapping, image pages beside it, two stacks, and perhaps a page that is not
mapped yet. Whatever was taken by then, the clean-up of the error exits gives it
all back.
-/

namespace KuroOS

open Base

/-- The owners between which pages pass while a task is built. -/
def building (t : Nat) : Set Owner := {.free} ∪ labels t

variable [Layout]

variable {t us ks root : Nat} {spare : Set Nat} {own own' : Nat → Owner} {free free' : List Nat}
  {dir : Directory} {user : UserMap} {s s' : Kernel} {halt : Halt → Kernel → Prop}

/-- What building a task may change. -/
abbrev BuildMoves (t : Nat) : (Nat → Owner) → Kernel → (Nat → Owner) → Kernel → Prop :=
  PageMoves (building t) (building t)

/-- A space survives page operations of other owners. -/
theorem SpaceState.moves {space : Space} {C W : Set Owner} (st : SpaceState space root own free dir user s)
    (moves : PageMoves C W own s own' s') (pool' : Pool own' free' s') (foreignC : .table space ∉ C)
    (foreignW : .table space ∉ W) : SpaceState space root own' free' dir user s' := by
  obtain ⟨tables, leaves⟩ := st.table.tables.moves st.table.pool moves foreignC foreignW
  exact ⟨⟨tables, pool'⟩, fun n => (leaves n).trans (st.leaves n), st.plain⟩

/-- The image pages of the task keep their bytes. -/
def KeepsData (t : Nat) (own : Nat → Owner) (s s' : Kernel) : Prop :=
  ∀ x, own (pageOf x) = .data (.task t) → s'.mem x = s.mem x

/-- A task half built. The `spare` pages are taken and not mapped yet. -/
structure Building (t us ks root : Nat) (spare : Set Nat) (own : Nat → Owner) (free : List Nat)
    (dir : Directory) (user : UserMap) (s : Kernel) : Prop where
  space : SpaceState (.task t) root own free dir user s
  low : ∀ n p, user n = some p → n < 2 ^ 26
  inj : ∀ n m p, user n = some p → user m = some p → n = m
  mapped : ∀ n p, user n = some p → own p = .data (.task t)
  data : ∀ p, own p = .data (.task t) → p ∈ spare ∨ ∃ n, user n = some p
  spares : ∀ p ∈ spare, own p = .data (.task t) ∧ ∀ n, user n ≠ some p
  kstack : ∀ q, own q = .kstack t ↔ q = ks
  ustack : ∀ q, own q = .ustack t ↔ q = us

namespace Building

/-- Writes to pages that are neither tables nor free. -/
theorem write (b : Building t us ks root spare own free dir user s) (mem' : Mem)
    (same : ∀ x, own (pageOf x) = .table (.task t) ∨ own (pageOf x) = .free ∨ x ∈ node Layout.freePageList →
      mem' x = s.mem x) : Building t us ks root spare own free dir user { s with mem := mem' } := by
  have pool := b.space.table.pool
  have tableSame : ∀ x, own (pageOf x) = .table (.task t) → mem' x = s.mem x := fun x here => same x (.inl here)
  exact { b with
    space := ⟨⟨b.space.table.tables.congr pool (fun _ => Iff.rfl) tableSame,
      pool.congr (fun x inside => same x (.inr inside)) rfl⟩,
      fun n => (b.space.table.tables.leafAt_congr pool tableSame n).trans (b.space.leaves n), b.space.plain⟩ }

/-- `page_alloc` for an image page. -/
theorem alloc (b : Building t us ks root ∅ own free dir user s) :
    wp pageAlloc s (fun page s' => (free = [] ∧ page = 0 ∧ s' = s) ∨
      ∃ own' free', free = page :: free' ∧ PoolPage page ∧ own page = .free ∧
        Building t us ks root {page} own' free' dir user s' ∧ BuildMoves t own s own' s' ∧
        KeepsData t own s s') halt := by
  refine wp_mono (b.space.table.pool.alloc (o := .data (.task t)) (by simp)) ?_ fun _ _ => id
  rintro page s' (⟨empty, zero, same⟩ | ⟨rest, shape, valid, wasFree, pool', moves⟩)
  · exact .inl ⟨empty, zero, same⟩
  refine .inr ⟨_, rest, shape, valid, wasFree, ?_, moves.mono ?_ ?_ ?_, fun x isData =>
    moves.moves.bytes x (by simp [isData]) (b.space.table.pool.not_head (by simp [isData]))⟩
  · have other : ∀ o, o ≠ .free → o ≠ .data (.task t) → ∀ q,
        Function.update own page (.data (.task t)) q = o ↔ own q = o := fun o notFree notData =>
      moves.moves.own_iff (by simp [notFree, notData])
    have unmapped : ∀ n, user n ≠ some page := fun n found => by
      simp [b.mapped n page found] at wasFree
    refine ⟨b.space.moves moves pool' (by simp) (by simp), b.low, b.inj, fun n p found => ?_,
      fun p here => ?_, fun p isSpare => ?_, fun q => (other _ (by simp) (by simp) q).trans (b.kstack q),
      fun q => (other _ (by simp) (by simp) q).trans (b.ustack q)⟩
    · rw [Function.update_of_ne (show p ≠ page by rintro rfl; exact unmapped n found)]
      exact b.mapped n p found
    · by_cases equal : p = page
      · exact .inl equal
      · rw [Function.update_of_ne equal] at here
        exact .inr ((b.data p here).resolve_left (by simp))
    · obtain rfl : p = page := isSpare
      exact ⟨by simp, unmapped⟩
  · rintro o (rfl | rfl) <;> simp [building, labels]
  · rintro o rfl
    simp [building]
  · rintro o (rfl | rfl) <;> simp [building, labels]

/-- Giving the spare page back. -/
theorem release {page : Nat} (b : Building t us ks root {page} own free dir user s) :
    wp (pageFree page) s (fun _ s' => ∃ own' free', Building t us ks root ∅ own' free' dir user s' ∧
      BuildMoves t own s own' s') halt := by
  obtain ⟨isData, unmapped⟩ := b.spares page rfl
  refine wp_mono (b.space.table.pool.release (p := page) (by simp [isData]) (by simp [isData])) ?_ fun _ _ => id
  rintro _ s' ⟨own', pool', releases⟩
  have kept : ∀ q, q ≠ page → own' q = own q := fun q other => (releases.owner q).2 other
  have gone : own' page = .free := (releases.owner page).1 rfl
  have moves : BuildMoves t own s own' s' := releases.pageMoves
    (fun q inside => by
      obtain rfl : q = page := inside
      simp [isData, building, labels]) (by simp [building]) (by simp [building]) (fun _ => id)
  have other : ∀ o, o ≠ .free → o ≠ .data (.task t) → ∀ q, own' q = o ↔ own q = o := by
    intro o notFree notData q
    by_cases equal : q = page
    · subst equal
      rw [gone, isData]
      exact iff_of_false notFree.symm notData.symm
    · rw [kept q equal]
  refine ⟨own', _, ⟨b.space.releases releases pool' (fun q inside => ?_) (by simp), b.low, b.inj,
    fun n p found => ?_, fun p here => ?_, by simp, fun q => (other _ (by simp) (by simp) q).trans (b.kstack q),
    fun q => (other _ (by simp) (by simp) q).trans (b.ustack q)⟩, moves⟩
  · obtain rfl : q = page := inside
    simp [isData]
  · rw [kept p (show p ≠ page by rintro rfl; exact unmapped n found)]
    exact b.mapped n p found
  · by_cases equal : p = page
    · subst equal
      simp [gone] at here
    · rw [kept p equal] at here
      exact .inr ((b.data p here).resolve_left equal)

/-- Mapping the spare page. -/
theorem map {page n : Nat} (b : Building t us ks root {page} own free dir user s) (below : n < 2 ^ 26) :
    wp (pgtableMap root (4096 * n) page pageSize pageUser) s (fun r s' => ∃ own' free' dir',
      BuildMoves t own s own' s' ∧ KeepsData t own s s' ∧
      ((r = 0 ∧ user n = none ∧ Building t us ks root ∅ own' free' dir' (user.add n page) s' ∧
          own' page = .data (.task t) ∧
          dir'.reach = dir.reach.path n ∧ free.length = free'.length + dir.reach.missing n) ∨
        (r ≠ 0 ∧ Building t us ks root {page} own' free' dir' user s' ∧
          (user n ≠ none ∨ KernelVpn n ∨ free.length < dir.reach.missing n)))) halt := by
  obtain ⟨isData, unmapped⟩ := b.spares page rfl
  have valid := b.space.table.pool.pages page (by simp [isData])
  refine wp_mono (b.space.map below rfl valid) ?_ fun _ _ => id
  rintro r s' ⟨own', free', dir', moves, outcome⟩
  have kept : ∀ o, o ≠ .free → o ≠ .table (.task t) → ∀ q, own' q = o ↔ own q = o := fun o notFree notTable =>
    moves.moves.own_iff (by simp [notFree, notTable])
  refine ⟨own', free', dir', moves.mono ?_ ?_ ?_, fun x isData => moves.moves.bytes x (by simp [isData])
    (b.space.table.pool.not_head (by simp [isData])), ?_⟩
  · rintro o (rfl | rfl) <;> simp [building, labels]
  · rintro o (rfl | rfl) <;> simp [building, labels]
  · rintro o (rfl | rfl) <;> simp [building, labels]
  rcases outcome with ⟨rfl, absent, _, space', reach, count⟩ | ⟨failed, space', why⟩
  · refine .inl ⟨rfl, absent, ⟨space', fun m p found => ?_, fun m m' p found found' => ?_, fun m p found => ?_,
      fun p here => ?_, by simp, fun q => (kept _ (by simp) (by simp) q).trans (b.kstack q),
      fun q => (kept _ (by simp) (by simp) q).trans (b.ustack q)⟩,
      (kept _ (by simp) (by simp) page).mpr isData, reach, count⟩
    · by_cases equal : m = n
      · omega
      · rw [UserMap.add, Function.update_of_ne equal] at found
        exact b.low m p found
    · by_cases equal : m = n <;> by_cases equal' : m' = n
      · omega
      · subst equal
        rw [UserMap.add, Function.update_self] at found
        rw [UserMap.add, Function.update_of_ne equal'] at found'
        exact absurd ((Option.some.inj found) ▸ found') (unmapped m')
      · subst equal'
        rw [UserMap.add, Function.update_self] at found'
        rw [UserMap.add, Function.update_of_ne equal] at found
        exact absurd ((Option.some.inj found') ▸ found) (unmapped m)
      · rw [UserMap.add, Function.update_of_ne equal] at found
        rw [UserMap.add, Function.update_of_ne equal'] at found'
        exact b.inj m m' p found found'
    · rw [kept _ (by simp) (by simp)]
      by_cases equal : m = n
      · subst equal
        rw [UserMap.add, Function.update_self] at found
        exact Option.some.inj found ▸ isData
      · rw [UserMap.add, Function.update_of_ne equal] at found
        exact b.mapped m p found
    · rw [kept _ (by simp) (by simp)] at here
      rcases b.data p here with isPage | ⟨m, found⟩
      · obtain rfl : p = page := isPage
        exact .inr ⟨n, by simp [UserMap.add]⟩
      · refine .inr ⟨m, ?_⟩
        rw [UserMap.add, Function.update_of_ne ?_]
        · exact found
        · rintro rfl
          simp [absent] at found
  · refine .inr ⟨failed, ⟨space', b.low, b.inj, fun m p found => ?_, fun p here => ?_, fun p isSpare => ?_,
      fun q => (kept _ (by simp) (by simp) q).trans (b.kstack q),
      fun q => (kept _ (by simp) (by simp) q).trans (b.ustack q)⟩, why⟩
    · exact (kept _ (by simp) (by simp) p).mpr (b.mapped m p found)
    · exact b.data p ((kept _ (by simp) (by simp) p).mp here)
    · exact ⟨(kept _ (by simp) (by simp) p).mpr (b.spares p isSpare).1, (b.spares p isSpare).2⟩

/-- `task_free_user_pages` on all that is mapped. -/
theorem freePages (b : Building t us ks root ∅ own free dir user s) {pages : Nat} (below : pages ≤ 0xfff0)
    (range : ∀ n p, user n = some p → 16 ≤ n ∧ n < 16 + pages) :
    wp (taskFreeUserPages root userTextBase (4096 * pages)) s (fun _ s' => ∃ own' free',
      Building t us ks root ∅ own' free' dir (fun _ => none) s' ∧ BuildMoves t own s own' s') halt := by
  refine wp_mono (taskFreeUserPages_spec below b.space (fun n p _ _ found => ?_) b.inj) ?_ fun _ _ => id
  · simp [b.mapped n p found]
  rintro _ s' ⟨own', free', space', releases⟩
  have gone : user.remove 16 pages = fun _ => none := by
    funext n
    unfold UserMap.remove
    split
    · rfl
    · next outside =>
        cases found : user n with
        | none => rfl
        | some p => exact absurd (range n p found) outside
  have freed : ∀ p, p ∈ user.pages 16 pages ↔ own p = .data (.task t) := by
    refine fun p => ⟨fun ⟨n, _, _, found⟩ => b.mapped n p found, fun here => ?_⟩
    obtain ⟨n, found⟩ := (b.data p here).resolve_left (by simp)
    exact ⟨n, (range n p found).1, (range n p found).2, found⟩
  have kept : ∀ o, o ≠ .free → o ≠ .data (.task t) → ∀ q, own' q = o ↔ own q = o := by
    intro o notFree notData q
    by_cases inside : q ∈ user.pages 16 pages
    · rw [(releases.owner q).1 inside, (freed q).mp inside]
      exact iff_of_false notFree.symm notData.symm
    · rw [(releases.owner q).2 inside]
  rw [gone] at space'
  refine ⟨own', free', ⟨space', by simp, by simp, by simp, fun p here => ?_, by simp,
    fun q => (kept _ (by simp) (by simp) q).trans (b.kstack q),
    fun q => (kept _ (by simp) (by simp) q).trans (b.ustack q)⟩,
    releases.pageMoves (fun q inside => ?_) (by simp [building]) ?_ (fun _ => id)⟩
  · by_cases inside : p ∈ user.pages 16 pages
    · simp [(releases.owner p).1 inside] at here
    · rw [(releases.owner p).2 inside] at here
      exact absurd ((freed p).mpr here) inside
  · simp [(freed q).mp inside, building, labels]
  · rintro o (rfl | rfl) <;> simp [building, labels]

end Building

/-- Page operations of a build that leave none of its labels restore the
owners. -/
theorem PageMoves.restored (moves : BuildMoves t own s own' s') (before : ∀ q, own q ∉ labels t)
    (after : ∀ q, own' q ∉ labels t) : own' = own := by
  funext q
  rcases moves.moves.owner q with same | ⟨was, now⟩
  · exact same
  · rw [was.resolve_right (before q), now.resolve_right (after q)]

/-- The clean-up up to `kfree`: it gives back both stacks and the tables. -/
theorem taskAbandon_spec (tables : SpaceTables own s.mem (.task t) root dir) (pool : Pool own free s)
    (kstack : ∀ q, own q = .kstack t ↔ q = ks) (ustack : ∀ q, own q = .ustack t ↔ q = us)
    (noData : ∀ q, own q ≠ .data (.task t)) {post : Unit → Kernel → Prop}
    (rest : ∀ own' free' s', Pool own' free' s' → BuildMoves t own s own' s' → (∀ q, own' q ∉ labels t) →
      wp (kfree t) s' post halt) : wp (taskAbandon us ks root t) s post halt := by
  have isUser : own us = .ustack t := (ustack us).mpr rfl
  have isKernel : own ks = .kstack t := (kstack ks).mpr rfl
  have ne : ks ≠ us := by
    rintro rfl
    simp [isUser] at isKernel
  unfold taskAbandon
  refine wp_bind_of (pool.release (p := us) (by simp [isUser]) (by simp [isUser])) ?_
  rintro _ s₁ ⟨own₁, pool₁, first⟩
  have kernel₁ : own₁ ks = .kstack t := by rw [(first.owner ks).2 ne, isKernel]
  refine wp_bind_of (pool₁.release (p := ks) (by simp [kernel₁]) (by simp [kernel₁])) ?_
  rintro _ s₂ ⟨own₂, pool₂, second⟩
  have both := first.trans second
  have notTable : ∀ q ∈ ({us} ∪ {ks} : Set Nat), own q ≠ .table (.task t) := by
    rintro q (rfl | rfl)
    · simp [isUser]
    · simp [isKernel]
  have gone : ∀ q ∈ ({us} ∪ {ks} : Set Nat), own₂ q = .free := fun q inside => (both.owner q).1 inside
  have tables₂ : SpaceTables own₂ s₂.mem (.task t) root dir := by
    refine tables.congr pool (fun q => ?_) fun x here => ?_
    · by_cases inside : q ∈ ({us} ∪ {ks} : Set Nat)
      · rw [gone q inside]
        exact iff_of_false (by simp) (notTable q inside)
      · rw [(both.owner q).2 inside]
    · exact both.bytes x (by simp [here]) (fun inside => notTable _ inside here)
        (pool.not_head (by simp [here]))
  refine wp_bind_of (pgtableFreeWalk_spec tables₂ pool₂) ?_
  rintro _ s₃ ⟨own₃, free₃, pool₃, third⟩
  have all := both.trans third
  refine rest own₃ free₃ s₃ pool₃ (all.pageMoves (fun q inside => ?_) (by simp [building])
    (by simp [building]) fun _ => id) fun q labelled => ?_
  · rcases inside with (rfl | rfl) | inTable
    · simp [isUser, building, labels]
    · simp [isKernel, building, labels]
    · have : own₂ q = .table (.task t) := inTable
      by_cases inside : q ∈ ({us} ∪ {ks} : Set Nat)
      · simp [gone q inside] at this
      · rw [(both.owner q).2 inside] at this
        simp [this, building, labels]
  · by_cases inside : q ∈ {us} ∪ {ks} ∪ {q | own₂ q = .table (.task t)}
    · rw [(all.owner q).1 inside] at labelled
      simp [labels] at labelled
    · have kept := (all.owner q).2 inside
      simp only [Set.mem_union, Set.mem_singleton_iff, not_or] at inside
      rw [kept] at labelled
      simp only [labels, Set.mem_insert_iff, Set.mem_singleton_iff] at labelled
      rcases labelled with isTable | isData | isKernel' | isUser'
      · refine inside.2 ?_
        change own₂ q = .table (.task t)
        rw [(both.owner q).2 (by simpa [and_comm] using inside.1), isTable]
      · exact noData q isData
      · exact inside.1.2 ((kstack q).mp isKernel')
      · exact inside.1.1 ((ustack q).mp isUser')

/-- The clean-up of an image loop: all that is mapped, then the rest. -/
theorem Building.abandon (b : Building t us ks root ∅ own free dir user s) (pages : Nat)
    (below : pages ≤ 0xfff0) (range : ∀ n p, user n = some p → 16 ≤ n ∧ n < 16 + pages)
    {post : Unit → Kernel → Prop}
    (rest : ∀ own' free' s', Pool own' free' s' → BuildMoves t own s own' s' → (∀ q, own' q ∉ labels t) →
      wp (kfree t) s' post halt) :
    wp (do taskFreeUserPages root userTextBase (4096 * pages); taskAbandon us ks root t) s post halt := by
  refine wp_bind_of (b.freePages below range) ?_
  rintro _ s₁ ⟨own₁, free₁, b₁, moves₁⟩
  refine taskAbandon_spec b₁.space.table.tables b₁.space.table.pool b₁.kstack b₁.ustack (fun q here => ?_)
    fun own' free' s' pool' moves' clear => rest own' free' s' pool' (moves₁.trans moves') clear
  obtain ⟨n, found⟩ := (b₁.data q here).resolve_left (by simp)
  exact absurd found (by simp)

/-- Taking a page for one of the labels. -/
theorem PageMoves.toBuild {o : Owner} {W : Set Owner} (moves : PageMoves {.free, o} W own s own' s')
    (label : o ∈ labels t) (subW : W ⊆ {.free, o}) : BuildMoves t own s own' s' := by
  have sub : ({.free, o} : Set Owner) ⊆ building t := by
    rintro o' (rfl | rfl)
    · exact .inl rfl
    · exact .inr label
  exact moves.mono sub (subW.trans sub) sub

/-- Giving a labelled page back. -/
theorem Releases.toBuild {p : Nat} (releases : Releases {.free} {p} own s own' s') (label : own p ∈ labels t) :
    BuildMoves t own s own' s' :=
  releases.pageMoves (fun q inside => by
    obtain rfl : q = p := inside
    exact .inr label) (.inl rfl) (fun o inside => .inl inside) fun _ => id

/-- The stacks and the root of a new task's tables, which map nothing yet. -/
structure NewPages (t us ks root : Nat) (own : Nat → Owner) (free : List Nat) (s : Kernel) : Prop where
  table : TableState (.task t) root own free (.single root) s
  kstack : ∀ q, own q = .kstack t ↔ q = ks
  ustack : ∀ q, own q = .ustack t ↔ q = us
  data : ∀ q, own q ≠ .data (.task t)

/-- The three pages that every new task takes first. -/
theorem newPages_spec (pool : Pool own free s) (unused : ∀ q, own q ∉ labels t) {α : Type} {gone : K α}
    {next : Nat → Nat → Nat → K α} {post : α → Kernel → Prop}
    (failed : ∀ free' s', Pool own free' s' → BuildMoves t own s own s' → free.length < 3 →
      wp (do kfree t; gone) s' post halt)
    (done : ∀ us ks root own' free' s', NewPages t us ks root own' free' s' → BuildMoves t own s own' s' →
      free.length = free'.length + 3 → wp (next us ks root) s' post halt) :
    wp (do
      let userStack ← pageAlloc
      let kernelStack ← pageAlloc
      let pagetable ← pgtableCreate
      if userStack = 0 ∨ kernelStack = 0 ∨ pagetable = 0 then
        pageFreeIf userStack
        pageFreeIf kernelStack
        pgtableFreeWalkIf pagetable
        kfree t
        gone
      else
        next userStack kernelStack pagetable) s post halt := by
  have unlabelled : ∀ o ∈ labels t, ∀ q, own q ≠ o := fun o inside q here => unused q (here ▸ inside)
  refine wp_bind_of (pool.alloc (o := .ustack t) (by simp)) ?_
  rintro us s₁ (⟨empty, rfl, rfl⟩ | ⟨free₁, shape₁, valid₁, was₁, pool₁, moves₁⟩)
  · refine wp_bind_of (pool.alloc (o := .kstack t) (by simp)) ?_
    rintro ks s₂ (⟨_, rfl, rfl⟩ | ⟨free₂, shape₂, _⟩)
    · refine wp_bind_of (pgtableCreate_spec pool (o := .table (.task t)) (by simp)) ?_
      rintro root s₃ (⟨_, rfl, rfl⟩ | ⟨free₃, shape₃, _⟩)
      · simp only [true_or, if_true, pageFreeIf, pgtableFreeWalkIf, ne_eq, not_true_eq_false, if_false,
          pure_bind]
        exact failed free s₃ pool .refl (by simp [empty])
      · simp [empty] at shape₃
    · simp [empty] at shape₂
  have bounds₁ := valid₁.bounds
  have us_ne : us ≠ 0 := by omega
  have moved₁ := moves₁.toBuild (t := t) (by simp [labels]) (by simp)
  refine wp_bind_of (pool₁.alloc (o := .kstack t) (by simp)) ?_
  rintro ks s₂ (⟨empty, rfl, rfl⟩ | ⟨free₂, shape₂, valid₂, was₂, pool₂, moves₂⟩)
  · refine wp_bind_of (pgtableCreate_spec pool₁ (o := .table (.task t)) (by simp)) ?_
    rintro root s₃ (⟨_, rfl, rfl⟩ | ⟨free₃, shape₃, _⟩)
    · simp only [us_ne, false_or, true_or, if_true, pageFreeIf, pgtableFreeWalkIf, ne_eq,
        not_true_eq_false, not_false_eq_true, if_false, pure_bind]
      refine wp_bind_of (pool₁.release (p := us) (by simp) (by simp)) ?_
      rintro _ s₄ ⟨own₄, pool₄, releases₄⟩
      have moved₄ := moved₁.trans (releases₄.toBuild (t := t) (by simp [labels]))
      have same := moved₄.restored unused fun q labelled => by
        by_cases equal : q = us
        · simp [equal, (releases₄.owner us).1 rfl, labels] at labelled
        · rw [(releases₄.owner q).2 equal, Function.update_of_ne equal] at labelled
          exact unused q labelled
      subst same
      exact failed _ s₄ pool₄ moved₄ (by simp [shape₁, empty])
    · simp [empty] at shape₃
  have bounds₂ := valid₂.bounds
  have ks_ne : ks ≠ 0 := by omega
  have distinct : ks ≠ us := by
    rintro rfl
    simp at was₂
  have moved₂ := moved₁.trans (moves₂.toBuild (t := t) (by simp [labels]) (by simp))
  refine wp_bind_of (pgtableCreate_spec pool₂ (o := .table (.task t)) (by simp)) ?_
  rintro root s₃ (⟨empty, rfl, rfl⟩ | ⟨free₃, shape₃, valid₃, was₃, pool₃, moves₃, clear₃⟩)
  · simp only [us_ne, ks_ne, false_or, if_true, pageFreeIf, pgtableFreeWalkIf, ne_eq,
      not_true_eq_false, not_false_eq_true, if_false, pure_bind]
    refine wp_bind_of (pool₂.release (p := us) ?_ ?_) ?_
    · rw [Function.update_of_ne distinct.symm]
      simp
    · rw [Function.update_of_ne distinct.symm]
      simp
    rintro _ s₄ ⟨own₄, pool₄, releases₄⟩
    have kernel₄ : own₄ ks = .kstack t := by
      rw [(releases₄.owner ks).2 distinct, Function.update_self]
    refine wp_bind_of (pool₄.release (p := ks) (by simp [kernel₄]) (by simp [kernel₄])) ?_
    rintro _ s₅ ⟨own₅, pool₅, releases₅⟩
    have moved₅ := (moved₂.trans (releases₄.toBuild (t := t) (by
      rw [Function.update_of_ne distinct.symm]
      simp [labels]))).trans (releases₅.toBuild (t := t) (by simp [kernel₄, labels]))
    have same := moved₅.restored unused fun q labelled => by
      by_cases isKernel : q = ks
      · simp [isKernel, (releases₅.owner ks).1 rfl, labels] at labelled
      · rw [(releases₅.owner q).2 isKernel] at labelled
        by_cases isUser : q = us
        · simp [isUser, (releases₄.owner us).1 rfl, labels] at labelled
        · rw [(releases₄.owner q).2 isUser, Function.update_of_ne isKernel,
            Function.update_of_ne isUser] at labelled
          exact unused q labelled
    subst same
    exact failed _ s₅ pool₅ moved₅ (by simp [shape₁, shape₂, empty])
  have bounds₃ := valid₃.bounds
  have root_ne : root ≠ 0 := by omega
  have moved₃ := moved₂.trans (moves₃.toBuild (t := t) (by simp [labels]) (by simp))
  have apart : root ≠ us ∧ root ≠ ks := by
    refine ⟨?_, ?_⟩
    · rintro rfl
      simp [Function.update_of_ne distinct.symm] at was₃
    · rintro rfl
      simp at was₃
  obtain ⟨own₃, here⟩ : ∃ own₃, own₃ = Function.update (Function.update (Function.update own us (.ustack t))
    ks (.kstack t)) root (.table (.task t)) := ⟨_, rfl⟩
  rw [← here] at pool₃ moved₃
  have owner₃ : ∀ q, own₃ q = if q = root then .table (.task t) else if q = ks then .kstack t
      else if q = us then .ustack t else own q := fun q => by
    simp only [here, Function.update_apply]
  have isTable : ∀ q, own₃ q = .table (.task t) ↔ q = root := fun q => by
    rw [owner₃]
    have := unlabelled (.table (.task t)) (by simp [labels]) q
    split_ifs <;> simp_all
  have isKernel : ∀ q, own₃ q = .kstack t ↔ q = ks := fun q => by
    rw [owner₃]
    have := unlabelled (.kstack t) (by simp [labels]) q
    split_ifs <;> simp_all
  have isUser : ∀ q, own₃ q = .ustack t ↔ q = us := fun q => by
    rw [owner₃]
    have := unlabelled (.ustack t) (by simp [labels]) q
    split_ifs <;> simp_all
  have noData : ∀ q, own₃ q ≠ .data (.task t) := fun q => by
    rw [owner₃]
    have := unlabelled (.data (.task t)) (by simp [labels]) q
    split_ifs <;> simp_all
  have st : TableState (.task t) root own₃ free₃ (.single root) s₃ :=
    ⟨.single isTable fun i low => Mem.load_zero fun x first last => clear₃ x (by omega) (by omega), pool₃⟩
  simp only [us_ne, ks_ne, root_ne, or_self, if_false]
  exact done us ks root own₃ free₃ s₃ ⟨st, isKernel, isUser, noData⟩ moved₃ (by simp only [shape₁, shape₂, shape₃, List.length_cons])

/-- `task_create_user` and `task_fork` up to the mapping of the kernel. It needs
70 pages: two stacks, the root and 67 tables. -/
theorem taskPages_spec (pool : Pool own free s) (unused : ∀ q, own q ∉ labels t)
    {post : Option (Nat × Nat × Nat) → Kernel → Prop}
    (failed : ∀ free' s', Pool own free' s' → BuildMoves t own s own s' → free.length < 70 →
      wp (kfree t) s' (fun _ s'' => post none s'') halt)
    (done : ∀ us ks root own' free' dir' s', Building t us ks root ∅ own' free' dir' (fun _ => none) s' →
      dir'.reach = kernelReach root → BuildMoves t own s own' s' → free.length = free'.length + 70 →
      post (some (us, ks, root)) s') :
    wp (taskPages t) s post halt := by
  unfold taskPages
  refine newPages_spec pool unused (fun free' s' pool' moves' short => ?_) fun us ks root own₃ free₃ s₃ new moved₃ length => ?_
  · simpa only [wp_bind, wp_pure] using failed free' s' pool' moves' (by omega)
  obtain ⟨st, isKernel, isUser, noData⟩ := new
  refine wp_bind_of (vmMapKernel_spec st) ?_
  rintro r s₄ ⟨own₄, free₄, dir₄, st₄, moves₄, outcome⟩
  have kept : ∀ o, o ≠ .free → o ≠ .table (.task t) → ∀ q, own₄ q = o ↔ own₃ q = o := fun o notFree notTable =>
    moves₄.moves.own_iff (by simp [notFree, notTable])
  have moved₄ := moved₃.trans (moves₄.toBuild (by simp [labels]) (by simp))
  rcases outcome with ⟨rfl, space₄, reach₄, count⟩ | ⟨refused, short⟩
  · rw [if_neg (by simp), wp_pure]
    refine done us ks root own₄ free₄ dir₄ s₄ ⟨space₄, by simp, by simp, by simp, fun p isData => ?_, by simp,
      fun q => (kept _ (by simp) (by simp) q).trans (isKernel q),
      fun q => (kept _ (by simp) (by simp) q).trans (isUser q)⟩ reach₄ moved₄ ?_
    · exact absurd ((kept _ (by simp) (by simp) p).mp isData) (noData p)
    · omega
  · rw [if_pos refused, wp_bind]
    refine taskAbandon_spec st₄.tables st₄.pool (fun q => (kept _ (by simp) (by simp) q).trans (isKernel q))
      (fun q => (kept _ (by simp) (by simp) q).trans (isUser q))
      (fun q isData => noData q ((kept _ (by simp) (by simp) q).mp isData))
      fun own₅ free₅ s₅ pool₅ moves₅ clear₅ => ?_
    have moved₅ := moved₄.trans moves₅
    have same := moved₅.restored unused clear₅
    subst same
    simp only [wp_pure]
    exact failed _ s₅ pool₅ moved₅ (by omega)

end KuroOS
