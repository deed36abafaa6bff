import KuroOS.Memory.Look
import KuroOS.Task.Build

/-!
# Loading a program

`elf_load` fills a new address space with pages whose number, place and contents
a file decides. Whatever the file says, it takes free pages, maps them in the
new tables or gives them back, and touches nothing that has another owner. A
page beyond `MAXVA` halts the kernel, unless it is the last one of the address
space: then `va + size` wraps, `pgtable_map` maps nothing, and the page is gone.
-/

namespace KuroOS

open Base

/-- The owners between which pages pass while a program is loaded. -/
def loading : Set Owner := {.free, .table .pending, .data .pending}

namespace UserMap

variable {user : UserMap} {n m p q : Nat}

/-- What a space maps after a page has been added. -/
theorem add_cases (found : user.add n p m = some q) : (m = n ∧ q = p) ∨ (m ≠ n ∧ user m = some q) := by
  by_cases equal : m = n
  · subst equal
    rw [add, Function.update_self, Option.some.injEq] at found
    exact .inl ⟨rfl, found.symm⟩
  · rw [add, Function.update_of_ne equal] at found
    exact .inr ⟨equal, found⟩

/-- A page that was not mapped is mapped once. -/
theorem add_inj (inj : ∀ n m p, user n = some p → user m = some p → n = m) (fresh : ∀ n, user n ≠ some p)
    {m' : Nat} (found : user.add n p m = some q) (found' : user.add n p m' = some q) : m = m' := by
  rcases add_cases found with ⟨rfl, rfl⟩ | ⟨_, old⟩ <;> rcases add_cases found' with ⟨rfl, equal⟩ | ⟨_, old'⟩
  · rfl
  · exact absurd old' (fresh m')
  · exact absurd (equal ▸ old) (fresh m)
  · exact inj m m' q old old'

end UserMap

/-- Every segment gets the same flags. -/
theorem elfFlags_eq (pFlags : Nat) : elfFlags pFlags = pageUser := by
  unfold elfFlags
  dsimp only
  split <;> split <;> decide

variable [Layout]

/-- What loading a program may change. -/
structure Loads (own : Nat → Owner) (s : Kernel) (own' : Nat → Owner) (s' : Kernel) : Prop where
  moves : Moves pageOf (node Layout.freePageList) loading loading own s.mem own' s'.mem
  globals : s' = { s with mem := s'.mem, nrFreePages := s'.nrFreePages, uart := s'.uart, derefs := s'.derefs }

variable {own own' own'' : Nat → Owner} {free free' : List Nat} {s s' s'' : Kernel}

namespace Loads

theorem refl : Loads own s own s := ⟨.refl, rfl⟩

theorem trans (first : Loads own s own' s') (later : Loads own' s' own'' s'') : Loads own s own'' s'' where
  moves := first.moves.trans later.moves
  globals := by
    have := first.globals
    rw [later.globals]
    generalize s''.mem = m, s''.nrFreePages = n, s''.uart = u, s''.derefs = d
    rw [this]

/-- Looking loads nothing. -/
theorem of_looked (looked : Looked s s') : Loads own s own s' where
  moves := by
    rw [looked.mem]
    exact .refl
  globals := by
    have := looked.mem
    unfold Looked at looked
    generalize s'.uart = u, s'.derefs = d at looked
    rw [looked]

theorem of_pageMoves {C W : Set Owner} (moves : PageMoves C W own s own' s') (subC : C ⊆ loading) (subW : W ⊆ loading) :
    Loads own s own' s' where
  moves := moves.moves.mono subC subW subC
  globals := by
    have := moves.globals
    generalize s'.mem = m, s'.nrFreePages = n at *
    rw [this]

/-- A page that loading does not pass around has its owner all along. -/
theorem own_iff (loads : Loads own s own' s') {o : Owner} (foreign : o ∉ loading) (q : Nat) : own' q = o ↔ own q = o :=
  loads.moves.own_iff foreign q

/-- Pages of others keep their bytes. -/
theorem bytes (loads : Loads own s own' s') {x : Nat} (foreign : own (pageOf x) ∉ loading)
    (plain : x ∉ node Layout.freePageList) : s'.mem x = s.mem x :=
  loads.moves.bytes x foreign plain

end Loads

/-- An address space being filled. A page of it that is not mapped is in hand, or
gone. -/
structure Loading (root : Nat) (own : Nat → Owner) (free : List Nat) (dir : Directory) (user : UserMap)
    (s : Kernel) : Prop where
  space : SpaceState .pending root own free dir user s
  low : ∀ n p, user n = some p → n < 2 ^ 26
  inj : ∀ n m p, user n = some p → user m = some p → n = m
  mapped : ∀ n p, user n = some p → own p = .data .pending

namespace Loading

variable {root page : Nat} {dir : Directory} {user : UserMap} {halt : Halt → Kernel → Prop}

/-- The new space depends on its tables and on the free pages. -/
theorem congr (l : Loading root own free dir user s) (count : s'.nrFreePages = s.nrFreePages)
    (same : ∀ x, own (pageOf x) = .table .pending ∨ own (pageOf x) = .free ∨ x ∈ node Layout.freePageList → s'.mem x = s.mem x) :
    Loading root own free dir user s' := by
  have pool := l.space.table.pool
  have tableSame : ∀ x, own (pageOf x) = .table .pending → s'.mem x = s.mem x := fun x here => same x (.inl here)
  exact { l with
    space := ⟨⟨l.space.table.tables.congr pool (fun _ => Iff.rfl) tableSame, pool.congr (fun x inside => same x (.inr inside)) count⟩,
      fun n => (l.space.table.tables.leafAt_congr pool tableSame n).trans (l.space.leaves n), l.space.plain⟩ }

/-- Writes to data pages. -/
theorem write (l : Loading root own free dir user s) (writes : s'.nrFreePages = s.nrFreePages)
    (same : ∀ x, own (pageOf x) ≠ .data .pending → s'.mem x = s.mem x) : Loading root own free dir user s' := by
  refine l.congr writes fun x kind => same x fun here => ?_
  rcases kind with isTable | isFree | isHead
  · simp [here] at isTable
  · simp [here] at isFree
  · exact l.space.table.pool.not_head (by simp [here]) isHead

/-- Looking at memory. -/
theorem looked (l : Loading root own free dir user s) (looks : Looked s s') : Loading root own free dir user s' :=
  l.write (by rw [looks]) fun x _ => by rw [looks.mem]

/-- The pages of the program keep their bytes. -/
def KeepsProgram (own : Nat → Owner) (s s' : Kernel) : Prop := ∀ x, own (pageOf x) = .data .pending → s'.mem x = s.mem x

/-- `page_alloc` for a page of the program. -/
theorem alloc (l : Loading root own free dir user s) :
    wp pageAlloc s (fun page s' => (free = [] ∧ page = 0 ∧ s' = s) ∨
      ∃ own' free', free = page :: free' ∧ PoolPage page ∧ Loading root own' free' dir user s' ∧ Loads own s own' s' ∧
        own page = .free ∧ own' page = .data .pending ∧ (∀ n, user n ≠ some page) ∧ KeepsProgram own s s') halt := by
  refine wp_mono (l.space.table.pool.alloc (o := .data .pending) (by simp)) ?_ fun _ _ => id
  rintro page s' (⟨empty, zero, same⟩ | ⟨rest, shape, valid, wasFree, pool', moves⟩)
  · exact .inl ⟨empty, zero, same⟩
  have unmapped : ∀ n, user n ≠ some page := fun n found => by
    simp [l.mapped n page found] at wasFree
  refine .inr ⟨_, rest, shape, valid, ⟨l.space.moves moves pool' (by simp) (by simp), l.low, l.inj, fun n p found => ?_⟩,
    .of_pageMoves moves ?_ ?_, wasFree, by simp, unmapped, fun x isData => ?_⟩
  · rw [Function.update_of_ne (show p ≠ page by rintro rfl; exact unmapped n found)]
    exact l.mapped n p found
  · rintro o (rfl | rfl) <;> simp [loading]
  · rintro o rfl
    simp [loading]
  · exact moves.moves.bytes x (by simp [isData]) (l.space.table.pool.not_head (by simp [isData]))

/-- `page_free` of a page that is not mapped. -/
theorem release (l : Loading root own free dir user s) (isData : own page = .data .pending)
    (unmapped : ∀ n, user n ≠ some page) :
    wp (pageFree page) s (fun _ s' => ∃ own', Loading root own' (page :: free) dir user s' ∧ Loads own s own' s' ∧
      own' page = .free ∧ (∀ q, q ≠ page → own' q = own q) ∧
      ∀ x, own (pageOf x) = .data .pending → pageOf x ≠ page → s'.mem x = s.mem x) halt := by
  refine wp_mono (l.space.table.pool.release (p := page) (by simp [isData]) (by simp [isData])) ?_ fun _ _ => id
  rintro _ s' ⟨own', pool', releases⟩
  have kept : ∀ q, q ≠ page → own' q = own q := fun q other => (releases.owner q).2 other
  refine ⟨own', ⟨l.space.releases releases pool' (fun q inside => ?_) (by simp), l.low, l.inj, fun n p found => ?_⟩,
    .of_pageMoves (C := loading) (W := loading) (releases.pageMoves (fun q inside => ?_) (by simp [loading]) (by simp [loading]) fun _ => id)
      (fun _ => id) (fun _ => id), (releases.owner page).1 rfl, kept, fun x inUse other =>
    releases.bytes x (by simp [inUse]) other (l.space.table.pool.not_head (by simp [inUse]))⟩
  · obtain rfl : q = page := inside
    simp [isData]
  · rw [kept p (show p ≠ page by rintro rfl; exact unmapped n found)]
    exact l.mapped n p found
  · obtain rfl : q = page := inside
    simp [isData, loading]

/-- `pgtable_map` of a page below `MAXVA`. -/
theorem map (l : Loading root own free dir user s) {n flags : Nat} (below : n < 2 ^ 26) (isUser : flags = pageUser)
    (isData : own page = .data .pending) (unmapped : ∀ n, user n ≠ some page) :
    wp (pgtableMap root (4096 * n) page pageSize flags) s (fun r s' => ∃ own' free' dir',
      Loads own s own' s' ∧ own' page = .data .pending ∧ KeepsProgram own s s' ∧
      ((r = 0 ∧ Loading root own' free' dir' (user.add n page) s' ∧ user n = none ∧ ¬ KernelVpn n ∧
          free.length ≤ free'.length + 2) ∨
        (r ≠ 0 ∧ Loading root own' free' dir' user s' ∧ (user n ≠ none ∨ KernelVpn n ∨ free.length < 2)))) halt := by
  have valid := l.space.table.pool.pages page (by simp [isData])
  refine wp_mono (l.space.map below isUser valid) ?_ fun _ _ => id
  rintro r s' ⟨own', free', dir', moves, outcome⟩
  have kept : ∀ q, own' q = .data .pending ↔ own q = .data .pending := moves.moves.own_iff (by simp)
  have few := Reach.missing_le dir.reach n
  refine ⟨own', free', dir', .of_pageMoves moves ?_ ?_, (kept page).mpr isData, fun x inUse => ?_, ?_⟩
  · rintro o (rfl | rfl) <;> simp [loading]
  · rintro o (rfl | rfl) <;> simp [loading]
  · exact moves.moves.bytes x (by simp [inUse]) (l.space.table.pool.not_head (by simp [inUse]))
  rcases outcome with ⟨rfl, absent, plain, space', _, count⟩ | ⟨refused, space', why⟩
  · refine .inl ⟨rfl, ⟨space', fun m p found => ?_, fun m m' p found found' => UserMap.add_inj l.inj unmapped found found',
      fun m p found => (kept p).mpr ?_⟩, absent, plain, by omega⟩
    · rcases UserMap.add_cases found with ⟨rfl, _⟩ | ⟨_, old⟩
      · exact below
      · exact l.low m p old
    · rcases UserMap.add_cases found with ⟨_, rfl⟩ | ⟨_, old⟩
      · exact isData
      · exact l.mapped m p old
  · exact .inr ⟨refused, ⟨space', l.low, l.inj, fun m p found => (kept p).mpr (l.mapped m p found)⟩,
      why.imp id (.imp id fun short => by omega)⟩

/-- The tables go back; the pages that they mapped do not. -/
theorem freeWalk (l : Loading root own free dir user s) :
    wp (pgtableFreeWalk root) s (fun _ s' => ∃ own' free', Pool own' free' s' ∧ Loads own s own' s' ∧
      (∀ q, own' q ≠ .table .pending) ∧ ∀ q, own' q = .data .pending ↔ own q = .data .pending) halt := by
  refine wp_mono (pgtableFreeWalk_spec l.space.table.tables l.space.table.pool) ?_ fun _ _ => id
  rintro _ s' ⟨own', free', pool', releases⟩
  refine ⟨own', free', pool', .of_pageMoves (C := loading) (W := loading)
    (releases.pageMoves (fun q inside => ?_) (by simp [loading]) (by simp [loading]) fun _ => id) (fun _ => id) (fun _ => id),
    fun q here => ?_, fun q => ?_⟩
  · rw [show own q = .table .pending from inside]
    simp [loading]
  · by_cases inside : own q = .table .pending
    · simp [(releases.owner q).1 inside] at here
    · rw [(releases.owner q).2 inside] at here
      exact inside here
  · by_cases inside : own q = .table .pending
    · simp [(releases.owner q).1 inside, inside]
    · rw [(releases.owner q).2 inside]

end Loading

/-- Beyond `MAXVA` nothing is mapped: the walk asserts, unless the range has
wrapped to nothing. -/
theorem pgtableMap_beyond {root va page flags : Nat} (high : 2 ^ 38 ≤ va) (aligned : va % 4096 = 0) (fits : va < 2 ^ 64)
    (s : Kernel) : wp (pgtableMap root va page pageSize flags) s (fun r s' => r = 0 ∧ s' = s) fun _ _ => True := by
  have start : alignDown va pageSize = va := by
    rw [alignDown_page fits]
    omega
  unfold pgtableMap
  simp only [wp_bind, wp_kassert, start]
  split <;> try trivial
  split <;> try trivial
  split <;> try trivial
  cases (alignUp (wadd va pageSize) pageSize - va) / pageSize with
  | zero => simp [pgtableMapLoop]
  | succ pages =>
      rw [pgtableMapLoop]
      unfold pgtableWalk
      simp only [wp_bind, wp_kassert]
      rw [if_neg (show ¬ va < maxVa by unfold maxVa; omega)]
      split <;> trivial

/-- "Copy file data" changes the page only. -/
theorem elfCopyPage_spec {phdr elfData fileOff pageVa copyStart page : Nat} (fits : pageVa < 2 ^ 64)
    (valid : PoolPage page) (s : Kernel) :
    wp (elfCopyPage phdr elfData fileOff pageVa copyStart page) s (fun _ s' => Looked { s with mem := s'.mem } s' ∧
      ∀ x, pageOf x ≠ page → s'.mem x = s.mem x) fun _ _ => True := by
  have bounds := valid.bounds
  unfold elfCopyPage
  refine wp_bind_of (elfCopyRange_spec fits s) ?_
  rintro range s₁ ⟨looked, inPage⟩
  have unchanged : Looked { s with mem := s₁.mem } s₁ := by
    rw [looked.mem]
    exact looked
  cases range with
  | none =>
      rw [wp_pure]
      exact ⟨unchanged, fun x _ => by rw [looked.mem]⟩
  | some range =>
      obtain ⟨start, stop, off⟩ := range
      obtain ⟨_, small⟩ := inPage start stop off rfl
      dsimp only
      by_cases some : stop > start
      · rw [if_pos some]
        refine wp_mono (copyFromVirtual_spec (by omega) s₁) ?_ fun _ _ => id
        rintro _ s₂ ⟨looked₂, same⟩
        refine ⟨?_, fun x other => ?_⟩
        · unfold Looked at *
          rw [looked₂]
          generalize s₂.uart = u, s₂.derefs = d, s₂.mem = m
          rw [looked]
        · rw [same x (by
            by_contra touch
            exact other (pageOf_of_mem bounds.1 (by omega) (by omega))), looked.mem]
      · rw [if_neg some, wp_pure]
        exact ⟨unchanged, fun x _ => by rw [looked.mem]⟩

omit [Layout] in
theorem alignDown_aligned (x : Nat) : alignDown x pageSize % 4096 = 0 := by
  unfold alignDown
  rw [show (4096 : Nat) = 2 ^ 12 from rfl, Nat.and_mod_two_pow,
    show wnot (pageSize - 1) % 2 ^ 12 = 0 by decide, Nat.and_zero]

/-- What a part of `elf_load` leaves behind. -/
def Loaded (root : Nat) (own : Nat → Owner) (s s' : Kernel) : Prop :=
  ∃ own' free' dir' user', Loading root own' free' dir' user' s' ∧ Loads own s own' s'

section

variable {root : Nat} {dir : Directory} {user : UserMap} {phdr elfData fileOff vaStart memOff : Nat}

/-- One page of a segment. -/
theorem elfLoadPage_spec (l : Loading root own free dir user s) (aligned : vaStart % 4096 = 0) (j : Nat) :
    wp (elfLoadPage root phdr elfData fileOff vaStart memOff j) s (fun _ s' => Loaded root own s s') fun _ _ => True := by
  unfold elfLoadPage
  refine wp_bind_of l.alloc ?_
  rintro page s₁ (⟨_, rfl, rfl⟩ | ⟨own₁, free₁, _, valid, l₁, loads₁, _, isData, unmapped, _⟩)
  · rw [if_pos rfl, wp_pure]
    exact ⟨own, free, dir, user, l, .refl⟩
  have bounds := valid.bounds
  rw [if_neg (by omega), wp_bind, wp_modifyMem]
  obtain ⟨va, isVa⟩ : ∃ va, va = wadd vaStart (j * pageSize) := ⟨_, rfl⟩
  have vaFits : va < 2 ^ 64 := isVa ▸ wadd_lt _ _
  have vaAligned : va % 4096 = 0 := by
    rw [isVa]
    unfold wadd
    simp only [pageSize]
    omega
  obtain ⟨s₂, is₂⟩ : ∃ s₂ : Kernel, s₂ = { s₁ with mem := memZero s₁.mem page pageSize } := ⟨_, rfl⟩
  have zeroed : ∀ x, pageOf x ≠ page → s₂.mem x = s₁.mem x := fun x other => by
    rw [is₂]
    refine (memZero_apply (by simp only [pageSize]; omega)).trans (if_neg fun touch => other ?_)
    exact pageOf_of_mem bounds.1 touch.1 (by simpa using touch.2)
  dsimp only
  rw [← isVa, ← is₂]
  refine wp_bind_of (elfCopyPage_spec vaFits valid s₂) ?_
  rintro _ s₃ ⟨looked₃, same₃⟩
  refine (Looks.loadVirtual _ _).before fun pFlags s₄ looked₄ => ?_
  -- everything since the allocation was written into the page
  have same : ∀ x, pageOf x ≠ page → s₄.mem x = s₁.mem x := fun x other => by
    rw [looked₄.mem, same₃ x other, zeroed x other]
  have globals : s₄ = { s₁ with mem := s₄.mem, uart := s₄.uart, derefs := s₄.derefs } := by
    unfold Looked at *
    rw [looked₄]
    generalize s₄.uart = u, s₄.derefs = d
    rw [looked₃]
    generalize s₃.uart = u, s₃.derefs = d, s₃.mem = m
    rw [is₂]
  have l₄ : Loading root own₁ free₁ dir user s₄ := l₁.write (by rw [globals]) fun x other =>
    same x (by rintro rfl; exact other isData)
  have loads₄ : Loads own s own₁ s₄ := loads₁.trans ⟨.of_bytes fun x foreign _ => same x (by
    rintro rfl
    simp [isData, loading] at foreign), by
      generalize s₄.mem = m, s₄.uart = u, s₄.derefs = d at *
      rw [globals]⟩
  rw [elfFlags_eq]
  by_cases high : 2 ^ 38 ≤ va
  · refine wp_bind_of (pgtableMap_beyond high vaAligned vaFits s₄) ?_
    rintro _ _ ⟨rfl, rfl⟩
    rw [if_neg (by simp), wp_pure]
    exact ⟨own₁, free₁, dir, user, l₄, loads₄⟩
  obtain ⟨n, isN⟩ : ∃ n, va = 4096 * n := ⟨va / 4096, by omega⟩
  rw [isN]
  refine wp_bind_of (l₄.map (by omega) rfl isData unmapped) ?_
  rintro r s₅ ⟨own₅, free₅, dir₅, loads₅, isData₅, _, ⟨rfl, l₅, _⟩ | ⟨refused, l₅, _⟩⟩
  · rw [if_neg (by simp), wp_pure]
    exact ⟨own₅, free₅, dir₅, _, l₅, loads₄.trans loads₅⟩
  · rw [if_pos refused]
    refine wp_bind_of (l₅.release isData₅ unmapped) ?_
    rintro _ s₆ ⟨own₆, l₆, loads₆, _⟩
    rw [wp_pure]
    exact ⟨own₆, _, dir₅, user, l₆, (loads₄.trans loads₅).trans loads₆⟩

/-- Going on from a part of `elf_load`. -/
theorem Loaded.next {α β : Type} {program : K α} {next : α → K β}
    (first : wp program s (fun _ s' => Loaded root own s s') fun _ _ => True)
    (rest : ∀ value own' free' dir' user' s', Loading root own' free' dir' user' s' →
      wp (next value) s' (fun _ s'' => Loaded root own' s' s'') fun _ _ => True) :
    wp (program >>= next) s (fun _ s' => Loaded root own s s') fun _ _ => True := by
  refine wp_bind_of first ?_
  rintro value s₁ ⟨own₁, free₁, dir₁, user₁, l₁, loads₁⟩
  refine wp_mono (rest value own₁ free₁ dir₁ user₁ s₁ l₁) ?_ fun _ _ => id
  rintro _ s₂ ⟨own₂, free₂, dir₂, user₂, l₂, loads₂⟩
  exact ⟨own₂, free₂, dir₂, user₂, l₂, loads₁.trans loads₂⟩

theorem Loaded.of_looks {α : Type} {program : K α} (l : Loading root own free dir user s) (looks : Looks program) :
    wp program s (fun _ s' => Loaded root own s s') fun _ _ => True :=
  wp_mono (looks s) (fun _ _ looked => ⟨own, free, dir, user, l.looked looked, .of_looked looked⟩) fun _ _ => id

/-- The page loop of `elf_load`. -/
theorem elfLoadPages_spec (l : Loading root own free dir user s) (aligned : vaStart % 4096 = 0) (pages j : Nat) :
    wp (elfLoadPages root phdr elfData fileOff vaStart memOff pages j) s (fun _ s' => Loaded root own s s')
      fun _ _ => True := by
  induction pages generalizing own free dir user s j with
  | zero => exact Loaded.of_looks l (.pure true)
  | succ pages ih =>
      rw [elfLoadPages]
      refine Loaded.next (elfLoadPage_spec l aligned j) fun more own' free' dir' user' s' l' => ?_
      cases more with
      | false => exact Loaded.of_looks l' (.pure false)
      | true => exact ih l' (j + 1)

/-- One segment. -/
theorem elfLoadSegment_spec (l : Loading root own free dir user s) (i : Nat) :
    wp (elfLoadSegment root elfData i) s (fun _ s' => Loaded root own s s') fun _ _ => True := by
  unfold elfLoadSegment
  refine Loaded.next (Loaded.of_looks l (.loadVirtual _ _)) fun phoff _ _ _ _ _ l => ?_
  refine Loaded.next (Loaded.of_looks l (.loadVirtual _ _)) fun phentsize _ _ _ _ _ l => ?_
  refine Loaded.next (Loaded.of_looks l (.loadVirtual _ _)) fun pType _ _ _ _ _ l => ?_
  by_cases other : pType ≠ ptLoad
  · rw [if_pos other]
    exact Loaded.of_looks l (.pure true)
  rw [if_neg other]
  refine Loaded.next (Loaded.of_looks l (.loadVirtual _ _)) fun vaddr _ _ _ _ _ l => ?_
  refine Loaded.next (Loaded.of_looks l (.loadVirtual _ _)) fun memsz _ _ _ _ _ l => ?_
  refine Loaded.next (Loaded.of_looks l (.loadVirtual _ _)) fun fileOff _ _ _ _ _ l => ?_
  exact elfLoadPages_spec l (alignDown_aligned _) _ 0

/-- The segment loop. -/
theorem elfLoadSegments_spec (l : Loading root own free dir user s) (fuel i : Nat) :
    wp (elfLoadSegments root elfData fuel i) s (fun _ s' => Loaded root own s s') fun _ _ => True := by
  induction fuel generalizing own free dir user s i with
  | zero => exact Loaded.of_looks l (.throw _)
  | succ fuel ih =>
      rw [elfLoadSegments]
      refine Loaded.next (Loaded.of_looks l (.loadVirtual _ _)) fun phnum _ _ _ _ _ l => ?_
      by_cases last : i < phnum
      · rw [if_pos last]
        refine Loaded.next (elfLoadSegment_spec l i) fun more _ _ _ _ _ l => ?_
        cases more with
        | false => exact Loaded.of_looks l (.pure false)
        | true => exact ih l (i + 1)
      · rw [if_neg last]
        exact Loaded.of_looks l (.pure true)

/-- `elf_load`, whatever the file holds. -/
theorem elfLoad_spec (l : Loading root own free dir user s) :
    wp (elfLoad root elfData) s (fun entry s' => Loaded root own s s' ∧ entry < 2 ^ 64) fun _ _ => True := by
  unfold elfLoad
  refine wp_bind_of (wp_mono (wp_and (Looks.loadVirtual _ 8 s) (loadVirtual_lt _ 8 s)) (fun _ _ => id) fun _ _ _ => trivial) ?_
  rintro entry s₁ ⟨looked, small⟩
  refine wp_bind_of (elfLoadSegments_spec (l.looked looked) _ 0) ?_
  rintro more s₂ ⟨own₂, free₂, dir₂, user₂, l₂, loads₂⟩
  have loaded : Loaded root own s s₂ := ⟨own₂, free₂, dir₂, user₂, l₂, (Loads.of_looked looked).trans loads₂⟩
  cases more with
  | false =>
      rw [if_neg (by simp), wp_pure]
      exact ⟨loaded, by decide⟩
  | true =>
      rw [if_pos rfl, wp_pure]
      exact ⟨loaded, small⟩

end

end KuroOS
