import KuroOS.Task.Plain

/-!
# `task_create`

It makes a task whose page table stays empty. User code is to reach the task's stack
through the kernel's own table: `vm_allow_user_identity` sets `PTE_U` there on the
entry of the page.
-/

namespace KuroOS

open Base

section

variable [Layout]

variable {own own' : Nat → Owner} {free free' : List Nat} {mem mem' : Mem} {dir : Directory} {granted : UserMap}
  {g g' : World} {s s' : Kernel} {v : TaskView} {t us ks root pid entry userSp p : Nat} {halt : Halt → Kernel → Prop}

/-- The kernel's tables map what `vm_map_kernel` has mapped, and grant some of these
pages to user code. -/
structure Grants (dir : Directory) (granted : UserMap) (mem : Mem) : Prop where
  leaves : ∀ n, dir.leafAt mem n = spaceEntry granted n
  identity : ∀ n p, granted n = some p → p = 4096 * n

namespace Grants

omit [Layout] in
/-- Grants are in the entries. -/
theorem congr (grants : Grants dir granted mem) (same : ∀ n, dir.leafAt mem' n = dir.leafAt mem n) : Grants dir granted mem' :=
  ⟨fun n => (same n).trans (grants.leaves n), grants.identity⟩

/-- The entry for a page of the allocator leads to that page, granted or not. -/
theorem leaf_page (grants : Grants dir granted mem) (page : PoolPage p) :
    ∃ flags, flags < 1024 ∧ flags % 2 = 1 ∧ pteLeaf flags = true ∧ dir.leafAt mem (p / 4096) = mkPte p flags := by
  have bounds := page.bounds
  have here : 4096 * (p / 4096) = p := by omega
  rw [grants.leaves, spaceEntry]
  cases found : granted (p / 4096) with
  | some q =>
      have same : q = p := (grants.identity _ _ found).trans here
      exact ⟨userFlags, by decide, by decide, by decide, by rw [same]⟩
  | none =>
      refine ⟨pageKernel ||| pteV, by decide, by decide, by decide, ?_⟩
      rw [kernelEntry, if_pos (by omega), here]

/-- One more page is granted. -/
theorem add (grants : Grants dir granted mem) (page : PoolPage p)
    (leaves : ∀ n, dir.leafAt mem' n = if n = p / 4096 then mkPte p userFlags else dir.leafAt mem n) :
    Grants dir (granted.add (p / 4096) p) mem' := by
  have bounds := page.bounds
  refine ⟨fun n => ?_, fun n q found => ?_⟩
  · rw [leaves, spaceEntry, UserMap.add]
    by_cases equal : n = p / 4096
    · rw [if_pos equal, equal, Function.update_self]
    · rw [if_neg equal, Function.update_of_ne equal, grants.leaves, spaceEntry]
  · by_cases equal : n = p / 4096
    · rw [equal, UserMap.add, Function.update_self] at found
      obtain rfl : p = q := by simpa using found
      omega
    · rw [UserMap.add, Function.update_of_ne equal] at found
      exact grants.identity n q found

/-- The slot of the entry exists. -/
theorem reached (grants : Grants dir granted s.mem) (st : TableState .kernel root own free dir s) (page : PoolPage p) :
    dir.slot (p / 4096) ≠ 0 := by
  obtain ⟨flags, small, valid, _, value⟩ := grants.leaf_page page
  intro zero
  have present : ptePresent (mkPte p flags) = true := mkPte_present small valid
  rw [← value, st.leafAt_of_slot_zero zero] at present
  simp at present

end Grants

/-- `vm_allow_user_identity` of one page sets `PTE_U` on its entry. -/
theorem vmAllowUserIdentity_spec (st : TableState .kernel s.kernelPagetable own free dir s) (grants : Grants dir granted s.mem)
    (page : PoolPage p) :
    wp (vmAllowUserIdentity p pageSize) s
      (fun _ s' => s' = { s with mem := s.mem.store (dir.slot (p / 4096)) 8 (mkPte p userFlags) }) halt := by
  have bounds := page.bounds
  have rootPage := (st.tables.page st.pool st.tables.tree.root_mem).bounds
  have rootNonzero : s.kernelPagetable ≠ 0 := by omega
  have reached := grants.reached st page
  obtain ⟨flags, small, valid, isLeaf, value⟩ := grants.leaf_page page
  have loaded : s.mem.load (dir.slot (p / 4096)) 8 = mkPte p flags := (SpaceTables.leafAt_of_slot _ reached).trans value
  have first : alignDown p pageSize = p := by
    rw [alignDown_page (by omega)]
    omega
  have last : (alignDown (wadd (wadd p pageSize) (pageSize - 1)) pageSize - p) / pageSize = 1 := by
    rw [wadd_of_lt (show p + pageSize < 2 ^ 64 by simp only [pageSize]; omega),
      wadd_of_lt (by simp only [pageSize]; omega), alignDown_page (by simp only [pageSize]; omega)]
    simp only [pageSize]
    omega
  have same : pteToPa (mkPte p flags) = p := by
    rw [mkPte_pa small bounds.1]
    omega
  have present : ptePresent (mkPte p flags) = true := mkPte_present small valid
  have leaf : pteLeaf (mkPte p flags) = true := (mkPte_leaf small).trans isLeaf
  unfold vmAllowUserIdentity
  simp only [wp_bind, wp_get, wp_kassert, ne_eq, rootNonzero, not_false_eq_true, if_true, first, last]
  rw [vmAllowUserIdentityLoop]
  refine wp_bind_of (pgtableWalk_lookup st (by omega)) ?_
  rintro _ s₁ ⟨rfl, rfl⟩
  simp only [wp_bind, wp_kassert, ne_eq, reached, not_false_eq_true, if_true, wp_loadWord, loaded, present, leaf,
    wp_storeWord, same, vmAllowUserIdentityLoop, wp_pure]

/-- A store may come before page operations that do not look at it. -/
theorem PageMoves.store {C W : Set Owner} (moves : PageMoves C W own s own' s') (a n value : Nat) :
    PageMoves C W own { s with mem := s.mem.store a n value } own' { s' with mem := s'.mem.store a n value } where
  moves := ⟨moves.moves.owner, moves.moves.closed, fun x outside plain =>
    Mem.store_congr (moves.moves.bytes x outside plain)⟩
  globals := by
    have globals := moves.globals
    generalize s'.mem = m, s'.nrFreePages = k at *
    rw [globals]

/-- The space of a new task whose page table is empty. -/
theorem NewPages.plain (new : NewPages t us ks root own free s)
    (same : ∀ x, own (pageOf x) = .table (.task t) → mem' x = s.mem x) :
    PlainSpace own mem' (.single root) (TaskView.new t pid us ks 0 userSp entry root) where
  tables := new.table.tables.congr new.table.pool (fun _ => Iff.rfl) same
  leaves n := Directory.leafAt_single root mem' n
  kstack := new.kstack
  ustack := new.ustack
  kernelSp := rfl
  tf := by
    simp only [TaskView.new, pageSize, trapFrameSize]
    omega
  imageSize := rfl

/-- What `task_create` leaves: a new task, whose stack the kernel's table grants to
user code from before the task is on the lists. -/
structure Granted (granted : UserMap) (g : World) (s : Kernel) (v : TaskView) (g' : World) (s' : Kernel) : Prop where
  ready : v.state = .ready
  stack : PoolPage v.userStack
  userSp : v.userSp = v.userStack + pageSize
  born : ∃ mem, WorldOf EitherSpace ∅ g { s with mem } ∧ Born ∅ g { s with mem } v g' s'
  grants : Grants g'.kdir (granted.add (v.userStack / 4096) v.userStack) s'.mem

namespace WorldOf

/-- `task_create` from the fields of the structure on. -/
theorem finishPlain (world : WorldOf EitherSpace ∅ g s) (home : Home g.blocks t) (fresh : t ∉ g.structs)
    (pidFits : s.nextPid < 2 ^ 64) (grants : Grants g.kdir granted s.mem) (moves : BuildMoves t g.own s own' s')
    (new : NewPages t us ks root own' free' s') (entryFits : entry < 2 ^ 64) :
    wp (do taskFill t ks us 0 (wadd us pageSize) entry root; vmAllowUserIdentity us pageSize; taskInitFrame t; taskEnqueue t; pure t)
      s' (fun r s'' => r = t ∧ ∃ v g', v.addr = t ∧ WorldOf EitherSpace ∅ g' s'' ∧ Granted granted g s v g' s'') halt := by
  have foreign : ∀ q, own' q = .heap ↔ g.own q = .heap := moves.moves.own_iff (by simp [building, labels])
  have kernelOwner : own' ks = .kstack t := (new.kstack ks).mpr rfl
  have userOwner : own' us = .ustack t := (new.ustack us).mpr rfl
  have pool' := new.table.pool
  have validKs := pool'.pages ks (by simp [kernelOwner])
  have boundsKs := validKs.bounds
  have validUs := pool'.pages us (by simp [userOwner])
  have boundsUs := validUs.bounds
  have boundsRoot := (new.table.tables.page pool' new.table.tables.tree.root_mem).bounds
  have apart : t + taskSize ≤ ks ∨ ks + 4096 ≤ t := world.struct_page home validKs fun here => by
    have := (foreign ks).mpr here
    simp [kernelOwner] at this
  have samePid : s'.nextPid = s.nextPid := by rw [moves.globals]
  have sameRoot : s'.kernelPagetable = s.kernelPagetable := by rw [moves.globals]
  obtain ⟨v, is⟩ : ∃ v, v = TaskView.new t s'.nextPid us ks 0 (wadd us pageSize) entry root := ⟨_, rfl⟩
  have fits : v.Fits := is ▸ TaskView.new_fits (samePid ▸ pidFits) (by omega) (by omega) (by omega) (wadd_lt _ _) entryFits
    (by omega)
  have fields : v.addr = t ∧ v.kernelSp = ks + pageSize ∧ v.tf = ks + pageSize - trapFrameSize ∧ v.userStack = us ∧
      v.userSp = wadd us pageSize ∧ v.state = .ready := by simp [is, TaskView.new]
  obtain ⟨addr, kernelSp, frame, userStack, userSp, ready⟩ := fields
  subst addr
  have notHeap : ∀ {x o}, own' (pageOf x) = o → o ≠ .heap → x < v.addr ∨ v.addr + taskSize ≤ x := by
    rintro x _ rfl other
    exact world.struct_heap home fun here => other ((foreign _).mpr here)
  -- the kernel's table in the states before and after the fields are written
  obtain ⟨kernel', leaves'⟩ := world.kernel.moves world.heap.pool moves (by simp [building, labels]) (by simp [building, labels])
  have grants' : Grants g.kdir granted s'.mem := grants.congr leaves'
  refine taskFill_spec (is ▸ fits) (by omega) fun mem₁ filled _ => ?_
  rw [← is] at filled
  have same₁ : ∀ x, x < v.addr ∨ v.addr + taskSize ≤ x → mem₁ x = s'.mem x := fun x outside => by
    simp only [taskSize] at outside
    rw [filled]
    exact storeFields_of_outside 96 (by simp [TaskView.filled]) (by omega)
  have table₁ : ∀ x, own' (pageOf x) = .table .kernel → mem₁ x = s'.mem x := fun x here => same₁ x (notHeap here (by simp))
  have pool₁ : Pool own' free' { s' with nextPid := wadd s'.nextPid 1, mem := mem₁ } := pool'.congr (fun x inside => by
    rcases inside with isFree | isHead
    · exact same₁ x (notHeap isFree (by simp))
    · exact same₁ x (notHeap (head_outside pool' (by simp) isHead) (by simp))) rfl
  have kernel₁ : SpaceTables own' mem₁ .kernel s'.kernelPagetable g.kdir :=
    sameRoot ▸ kernel'.congr pool' (fun _ => Iff.rfl) table₁
  have grants₁ : Grants g.kdir granted mem₁ := grants'.congr (kernel'.leafAt_congr pool' table₁)
  have st₁ : TableState .kernel s'.kernelPagetable own' free' g.kdir { s' with nextPid := wadd s'.nextPid 1, mem := mem₁ } :=
    ⟨kernel₁, pool₁⟩
  have st₀ : TableState .kernel s.kernelPagetable g.own g.free g.kdir s := ⟨world.kernel, world.heap.pool⟩
  have st' : TableState .kernel s'.kernelPagetable own' free' g.kdir s' := ⟨sameRoot ▸ kernel', pool'⟩
  have reached := grants.reached st₀ validUs
  obtain ⟨pte, isPte⟩ : ∃ pte, pte = mkPte us userFlags := ⟨_, rfl⟩
  have leafEntry : LeafEntry pte :=
    isPte ▸ .inr ⟨mkPte_present (by decide) (by decide), (mkPte_leaf (by decide)).trans (by decide)⟩
  have word : pte < 2 ^ 64 := isPte ▸ mkPte_lt (by decide) (by omega)
  obtain ⟨_, _, leaves₀⟩ := st₀.setLeaf pte reached leafEntry word
  obtain ⟨_, moves₁, _⟩ := st₁.setLeaf pte reached leafEntry word
  obtain ⟨stored, movesStored, _⟩ := st'.setLeaf pte reached leafEntry word
  refine wp_bind_of (vmAllowUserIdentity_spec st₁ grants₁ validUs) ?_
  rintro _ _ rfl
  rw [← isPte]
  have put : TaskAt ((mem₁.store (g.kdir.slot (us / 4096)) 8 pte).store (v.addr + Task.tf) 8 v.tf) v := by
    have whole : mem₁.store (v.addr + Task.tf) 8 v.tf = v.put s'.mem := by
      rw [filled, TaskView.put, TaskView.fillOrder, storeFields_append]
      rfl
    refine (whole ▸ TaskView.put_taskAt fits : TaskAt (mem₁.store (v.addr + Task.tf) 8 v.tf) v).congr fun x low high => ?_
    have here : own' (pageOf x) = .heap :=
      (foreign _).mpr (home.payload world.heap.heap low (by simp only [taskSize]; omega)).2
    exact Mem.store_congr (moves₁.moves.bytes x (by simp [here]) (pool'.not_head (by simp [here])))
  refine wp_bind_of (taskInitFrame_spec put kernelSp frame (by omega) apart) ?_
  rintro _ _ rfl
  obtain ⟨mem₃, isMem⟩ : ∃ mem₃, mem₃ = freshFrame ((mem₁.store (g.kdir.slot (us / 4096)) 8 pte).store (v.addr + Task.tf) 8 v.tf)
    v.tf v.userSp v.entry := ⟨_, rfl⟩
  rw [← isMem, samePid]
  have outsideFrame : ∀ x, own' (pageOf x) ≠ .kstack v.addr → x < v.tf ∨ v.tf + trapFrameSize ≤ x := fun x notStack => by
    by_contra inside
    refine notStack ?_
    rw [pageOf_of_mem boundsKs.1 (by simp only [pageSize, trapFrameSize] at *; omega)
      (by simp only [pageSize, trapFrameSize] at *; omega)]
    exact kernelOwner
  have written : ∀ x, (x < v.addr ∨ v.addr + taskSize ≤ x) → own' (pageOf x) ≠ .kstack v.addr →
      mem₃ x = s'.mem.store (g.kdir.slot (us / 4096)) 8 pte x := fun x outside notStack => by
    rw [isMem, freshFrame_of_outside (outsideFrame x notStack),
      Mem.store_of_outside (by simp only [taskSize, Task.tf] at *; omega)]
    exact Mem.store_congr (same₁ x outside)
  have view : TaskAt mem₃ v := put.congr fun x low high => by
    have here : own' (pageOf x) = .heap :=
      (foreign _).mpr (home.payload world.heap.heap low (by simp only [taskSize]; omega)).2
    rw [isMem, freshFrame_of_outside (outsideFrame x (by simp [here]))]
  have space : PlainSpace own' mem₃ (.single root) v := by
    rw [is]
    refine new.plain fun x here => (written x (notHeap here (by simp)) (by simp [here])).trans ?_
    exact movesStored.moves.bytes x (by simp [here]) (pool'.not_head (by simp [here]))
  have granting := world.setKernelLeaf reached leafEntry word
  refine wp_bind_of (granting.birth home fresh (by simp [ready]) stored.pool (moves.store _ 8 pte) ∅
    (fun x _ outside notStack _ => written x outside notStack) (by simp) view
    (show EitherSpace own' mem₃ (.single root) (fun _ => none) v from .inr space)) ?_
  rintro _ s'' ⟨g', world', born, _⟩
  rw [wp_pure]
  have top : wadd us pageSize = us + pageSize := wadd_of_lt (by simp only [pageSize]; omega)
  refine ⟨rfl, v, g', rfl, world', ready, userStack ▸ validUs, by rw [userSp, userStack, top], ⟨_, granting, born⟩, ?_⟩
  rw [userStack, born.kdir]
  have kept : ∀ x, g.own (pageOf x) = .table .kernel → s''.mem x = s.mem.store (g.kdir.slot (us / 4096)) 8 pte x := fun x here =>
    born.effect.bytes x (by simp [here, labels]) (by simpa using world.heap.pool.not_listHeads (by simp [here]))
  exact grants.add validUs fun n => isPte ▸ (granting.kernel.leafAt_congr granting.heap.pool kept n).trans (leaves₀ n)

/-- The kernel's tables keep their entries while tasks and the heap change. -/
theorem grants_effect {Kind : SpaceKind} {wip C : Set Owner} (world : WorldOf Kind wip g s) (grants : Grants g.kdir granted s.mem)
    (effect : Effect C g.own s g'.own s') (notTable : .table .kernel ∉ C) (kdir : g'.kdir = g.kdir) :
    Grants g'.kdir granted s'.mem := by
  rw [kdir]
  exact grants.congr (world.kernel.leafAt_congr world.heap.pool fun x here =>
    effect.bytes x (here ▸ notTable) (world.heap.pool.not_listHeads (by simp [here])))

/-- `task_create`: it makes a task, or it leaves the world that reaping left. -/
theorem taskCreate_spec (world : WorldOf EitherSpace ∅ g s)
    (unqueued : ∀ v ∈ g.tasks, v.reapable s.current = true → v.addr ∉ g.queue) (pidFits : s.nextPid < 2 ^ 64)
    (grants : Grants g.kdir granted s.mem) (entryFits : entry < 2 ^ 64) :
    wp (taskCreate entry) s (fun r s' => ∃ g₁ s₁ g' s₂ g₂, ReapingOf EitherSpace g s g₁ s₁ ∧ WorldOf EitherSpace ∅ g' s' ∧
      WorldOf EitherSpace ∅ g₂ s₂ ∧ Aborted g₁ s₁ g₂ s₂ ∧
      ((r = 0 ∧ g' = g₂ ∧ s' = s₂ ∧ g₁.free.length < 4) ∨
        (r ≠ 0 ∧ ∃ v, v.addr = r ∧ Granted granted g₂ s₂ v g' s'))) halt := by
  unfold taskCreate
  refine world.reaping unqueued fun g₁ s₁ reaping => ?_
  refine wp_bind_of reaping.world.taskAlloc_spec ?_
  rintro t s₂ ⟨g₂, world₂, aborted₂, ⟨rfl, none⟩ | ⟨nonzero, home, fresh⟩⟩
  · rw [if_pos rfl, wp_pure]
    exact ⟨g₁, s₁, g₂, s₂, g₂, reaping, world₂, world₂, aborted₂, .inl ⟨rfl, rfl, rfl, by simp [none]⟩⟩
  have used₂ := aborted₂.count
  rw [if_neg nonzero]
  have grants₁ := world.grants_effect grants reaping.reaped.effect (by simp [freed, labels]) reaping.reaped.kdir
  have grants₂ := reaping.world.grants_effect grants₁ aborted₂.effect (by simp) aborted₂.same.kdir
  have pid₂ : s₂.nextPid < 2 ^ 64 := by
    rw [aborted₂.globals, reaping.reaped.globals]
    exact pidFits
  refine newPages_spec world₂.heap.pool (world₂.unlabelled fresh) (fun free' s' pool' moves' short => ?_)
    fun us ks root own' free' s' new moves' _ => ?_
  · refine wp_bind_of (world₂.abort home fresh pool' moves' (world₂.unlabelled fresh)) ?_
    rintro _ s'' ⟨g', world', aborted, length⟩
    rw [wp_pure]
    exact ⟨g₁, s₁, g', s'', g', reaping, world', world', aborted₂.trans aborted (by omega), .inl ⟨rfl, rfl, rfl, by omega⟩⟩
  · refine wp_mono (world₂.finishPlain home fresh pid₂ grants₂ moves' new entryFits) ?_ fun _ _ => id
    rintro r s'' ⟨rfl, v, g', addr, world', made⟩
    exact ⟨g₁, s₁, g', s₂, g₂, reaping, world', world₂, aborted₂, .inr ⟨nonzero, v, addr, made⟩⟩

end WorldOf

end

end KuroOS
