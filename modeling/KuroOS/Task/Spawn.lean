import KuroOS.Task.Frame

/-!
# Making a task, from the first page to the lists

The last page that `task_create_user` and `task_fork` map is the user stack.
With it the address space of the new task is complete, its structure and frame
are written, and the task is put on both lists; or everything is given back.
-/

namespace KuroOS

open Base

variable [Layout]

/-- The pages of a new task are in place. -/
structure Built (t us ks root pages : Nat) (own : Nat → Owner) (free : List Nat) (dir : Directory)
    (user : UserMap) (s : Kernel) : Prop where
  space : SpaceState (.task t) root own free dir user s
  fresh : FreshMap user pages us
  low : ∀ n p, user n = some p → n < 2 ^ 26
  inj : ∀ n m p, user n = some p → user m = some p → n = m
  mapped : ∀ n p, user n = some p → own p = .data (.task t) ∨ own p = .ustack t
  data : ∀ p, own p = .data (.task t) → ∃ n, user n = some p
  kstack : ∀ q, own q = .kstack t ↔ q = ks
  ustack : ∀ q, own q = .ustack t ↔ q = us

variable {t us ks root pages : Nat} {own own' : Nat → Owner} {free free' : List Nat} {dir : Directory}
  {user : UserMap} {s s' : Kernel} {halt : Halt → Kernel → Prop}

namespace Built

/-- The address space of a new task. -/
theorem taskSpace (b : Built t us ks root pages own free dir user s) (small : pages ≤ 0x8000)
    {mem : Mem} (same : ∀ x, own (pageOf x) = .table (.task t) → mem x = s.mem x) {pid entry : Nat} :
    TaskSpace own mem dir user (TaskView.new t pid us ks (4096 * pages) userStackTop entry root) where
  tables := b.space.table.tables.congr b.space.table.pool (fun _ => Iff.rfl) same
  leaves n := (b.space.table.tables.leafAt_congr b.space.table.pool same n).trans (b.space.leaves n)
  plain := b.space.plain
  low := b.low
  inj := b.inj
  mapped := b.mapped
  data := b.data
  kstack := b.kstack
  ustack := b.ustack
  kernelSp := rfl
  tf := by
    simp only [TaskView.new, pageSize, trapFrameSize]
    omega
  userSp := rfl
  shape := .inl ⟨pages, small, rfl, b.fresh⟩

end Built

/-- The user stack is mapped, or the page table has no room for it. -/
theorem Building.mapStack (b : Building t us ks root ∅ own free dir user s) (small : pages ≤ 0x8000)
    (range : ∀ n, (user n).isSome ↔ 16 ≤ n ∧ n < 16 + pages) :
    wp (pgtableMap root (userStackTop - pageSize) us pageSize pageUser) s (fun r s' => ∃ own' free' dir',
      BuildMoves t own s own' s' ∧
      (∀ x, own (pageOf x) = .data (.task t) ∨ own (pageOf x) = .ustack t → s'.mem x = s.mem x) ∧
      ((r = 0 ∧ Built t us ks root pages own' free' dir' (user.add stackVpn us) s' ∧
          own' us = own us ∧ ∀ p, own p = .data (.task t) → own' p = own p) ∨
        (r ≠ 0 ∧ Building t us ks root ∅ own' free' dir' user s' ∧ free.length < 2)) ∧
      (r = 0 → free.length ≤ free'.length + 2)) halt := by
  have isUser : own us = .ustack t := (b.ustack us).mpr rfl
  have valid := b.space.table.pool.pages us (by simp [isUser])
  have absent : user stackVpn = none := by
    rw [← Option.not_isSome_iff_eq_none, range]
    simp only [stackVpn]
    omega
  have below : stackVpn < 2 ^ 26 := by decide
  have mapping : wp (pgtableMap root (4096 * stackVpn) us pageSize pageUser) s _ halt :=
    b.space.map below rfl valid
  refine wp_mono mapping ?_ fun _ _ => id
  rintro r s' ⟨own', free', dir', moves, outcome⟩
  have kept : ∀ o, o ≠ .free → o ≠ .table (.task t) → ∀ q, own' q = o ↔ own q = o := fun o notFree notTable =>
    moves.moves.own_iff (by simp [notFree, notTable])
  have few := Reach.missing_le dir.reach stackVpn
  refine ⟨own', free', dir', moves.toBuild (by simp [labels]) (by simp), fun x here => ?_, ?_, fun zero => ?_⟩
  · rcases here with here | here <;>
      exact moves.moves.bytes x (by simp [here]) (b.space.table.pool.not_head (by simp [here]))
  · rcases outcome with ⟨rfl, _, _, space', _, _⟩ | ⟨refused, space', why⟩
    · have added : ∀ n p, user.add stackVpn us n = some p → (n = stackVpn ∧ p = us) ∨ user n = some p := by
        intro n p found
        by_cases equal : n = stackVpn
        · subst equal
          rw [UserMap.add, Function.update_self, Option.some.injEq] at found
          exact .inl ⟨rfl, found.symm⟩
        · rw [UserMap.add, Function.update_of_ne equal] at found
          exact .inr found
      have notStack : ∀ n, user n ≠ some us := fun n found => by
        have := b.mapped n us found
        simp [isUser] at this
      refine .inl ⟨rfl, ⟨space', ⟨fun n => ?_, by simp [UserMap.add]⟩, fun n p found => ?_,
        fun n m p found found' => ?_, fun n p found => ?_, fun p here => ?_,
        fun q => (kept _ (by simp) (by simp) q).trans (b.kstack q),
        fun q => (kept _ (by simp) (by simp) q).trans (b.ustack q)⟩,
        (kept _ (by simp) (by simp) us).mpr isUser ▸ isUser.symm ▸ rfl, fun p here => ?_⟩
      · by_cases equal : n = stackVpn
        · subst equal
          simp [UserMap.add]
        · rw [UserMap.add, Function.update_of_ne equal, range n]
          simp [equal]
      · rcases added n p found with ⟨rfl, _⟩ | old
        · decide
        · exact b.low n p old
      · rcases added n p found with ⟨rfl, rfl⟩ | old <;> rcases added m p found' with ⟨rfl, equal⟩ | old'
        · rfl
        · exact absurd old' (notStack m)
        · exact absurd (equal ▸ old) (notStack n)
        · exact b.inj n m p old old'
      · rcases added n p found with ⟨_, rfl⟩ | old
        · exact .inr ((kept _ (by simp) (by simp) p).mpr isUser)
        · exact .inl ((kept _ (by simp) (by simp) p).mpr (b.mapped n p old))
      · obtain ⟨n, found⟩ := (b.data p ((kept _ (by simp) (by simp) p).mp here)).resolve_left (by simp)
        refine ⟨n, ?_⟩
        rw [UserMap.add, Function.update_of_ne (by rintro rfl; simp [absent] at found)]
        exact found
      · rw [here]
        exact (kept _ (by simp) (by simp) p).mpr here
    · have short := (why.resolve_left (by simp [absent])).resolve_left (by decide)
      refine .inr ⟨refused, ⟨space', b.low, b.inj, fun m p found => ?_, fun p here => ?_, by simp,
        fun q => (kept _ (by simp) (by simp) q).trans (b.kstack q),
        fun q => (kept _ (by simp) (by simp) q).trans (b.ustack q)⟩, by omega⟩
      · exact (kept _ (by simp) (by simp) p).mpr (b.mapped m p found)
      · exact b.data p ((kept _ (by simp) (by simp) p).mp here)
  · rcases outcome with ⟨_, _, _, _, _, count⟩ | ⟨refused, _⟩
    · omega
    · exact absurd zero refused

/-- Writes to the pages of the task being built. -/
theorem PageMoves.fill (moves : BuildMoves t own s own' s') (mem' : Mem)
    (same : ∀ x, own' (pageOf x) ∉ building t → mem' x = s'.mem x) :
    BuildMoves t own s own' { s' with mem := mem' } where
  moves := moves.moves.trans (.of_bytes fun x outside _ => same x outside)
  globals := congrArg (fun k : Kernel => { k with mem := mem' }) moves.globals

/-- Filling the user stack. -/
theorem Building.fillStack (b : Building t us ks root ∅ own free dir user s) (mem' : Mem)
    (same : ∀ x, pageOf x ≠ us → mem' x = s.mem x) :
    Building t us ks root ∅ own free dir user { s with mem := mem' } ∧
      ∀ x, own (pageOf x) ≠ .ustack t → mem' x = s.mem x := by
  have isUser : own us = .ustack t := (b.ustack us).mpr rfl
  have elsewhere : ∀ x, own (pageOf x) ≠ .ustack t → mem' x = s.mem x := fun x other =>
    same x fun equal => other (equal ▸ isUser)
  refine ⟨b.write mem' fun x here => ?_, elsewhere⟩
  rcases here with here | here | isHead
  · exact elsewhere x (by simp [here])
  · exact elsewhere x (by simp [here])
  · refine same x fun equal => ?_
    exact b.space.table.pool.not_head (show own (pageOf x) ≠ .outside by simp [equal, isUser]) isHead

/-- Owned pages do not hold list heads. -/
theorem Pool.not_listHeads (pool : Pool own free s) {x : Nat} (owned : own (pageOf x) ≠ .outside) : x ∉ listHeads := by
  have image : ∀ head ∈ [Layout.freePageList, Layout.runQueue, Layout.allTasks], x ∉ node head := by
    intro head isHead inside
    have := heads_facts head isHead
    refine owned (pool.image_outside ?_)
    simp only [mem_node] at inside
    omega
  rintro ((inside | inside) | inside)
  · exact image _ (by simp) inside
  · exact image _ (by simp) inside
  · exact image _ (by simp) inside

/-- What a new task's pages hold. -/
structure Contents (want : Nat → Nat → UInt8) (stack : Nat → UInt8) (user : UserMap) (mem : Mem) : Prop where
  image : ∀ n p, user n = some p → n ≠ stackVpn → ∀ i < 4096, mem (p + i) = want n i
  stack : ∀ p, user stackVpn = some p → ∀ i < 4096, mem (p + i) = stack i

namespace WorldOf

variable {Kind : SpaceKind} {g : World}

/-- A structure does not overlap a page that is not the heap's. -/
theorem struct_page (world : WorldOf Kind ∅ g s) (home : Home g.blocks t) {p : Nat} (page : PoolPage p)
    (notHeap : g.own p ≠ .heap) : t + taskSize ≤ p ∨ p + 4096 ≤ t := by
  by_contra overlap
  have inPage : pageOf (max t p) = p := pageOf_of_mem page.1 (by omega) (by simp only [taskSize] at *; omega)
  have := world.struct_heap home (show g.own (pageOf (max t p)) ≠ .heap by rwa [inPage])
  simp only [taskSize] at *
  omega

/-- The clean-up of the error exits after the page table exists. -/
theorem abandon [Spaces Kind] (world : WorldOf Kind ∅ g s) (home : Home g.blocks t) (fresh : t ∉ g.structs)
    (moves : BuildMoves t g.own s own' s') (b : Building t us ks root ∅ own' free' dir user s')
    (small : pages ≤ 0x8000) (range : ∀ n p, user n = some p → 16 ≤ n ∧ n < 16 + pages)
    {post : Unit → Kernel → Prop}
    (done : ∀ g' s'', WorldOf Kind ∅ g' s'' → Aborted g s g' s'' → g'.free.length = g.free.length → post () s'') :
    wp (do taskFreeUserPages root userTextBase (4096 * pages); taskAbandon us ks root t) s' post halt :=
  b.abandon pages (by omega) range fun _ _ _ pool'' moves'' clear =>
    wp_mono (world.abort home fresh pool'' (moves.trans moves'') clear)
      (fun _ s'' ⟨g', world', aborted, length⟩ => done g' s'' world' aborted length) fun _ _ => id

end WorldOf

/-- Making a task after an attempt that only grew the heap. -/
theorem Aborted.born {g g₁ g' : World} {s₁ : Kernel} {X : Set Nat} {v : TaskView} (aborted : Aborted g s g₁ s₁)
    (born : Born X g₁ s₁ v g' s') : Born X g s v g' s' where
  tasks := aborted.same.tasks ▸ born.tasks
  queue := aborted.same.queue ▸ born.queue
  fresh := aborted.same.structs ▸ born.fresh
  dir a other := aborted.same.dir ▸ born.dir a other
  user a other := aborted.same.user ▸ born.user a other
  kdir := born.kdir.trans aborted.same.kdir
  unused q inside := by
    rcases aborted.owner q with same | ⟨was, _⟩
    · exact born.unused q (same ▸ inside)
    · simp [was, labels] at inside
  effect := by
    have sub : ({.free, .heap} : Set Owner) ⊆ {.free, .heap} ∪ labels v.addr := Set.subset_union_left
    exact ((aborted.effect.mono sub sub sub).extend Set.subset_union_left).trans born.effect
  globals := by
    have := aborted.globals
    rw [born.globals]
    generalize s'.mem = m, s'.nrFreePages = n, s'.heapHead = h, s'.heapTail = l
    rw [this]

/-- A task made by `task_create_user` or `task_fork`. -/
structure Created (X : Set Nat) (g : World) (s : Kernel) (v : TaskView) (pages : Nat) (g' : World) (s' : Kernel) :
    Prop where
  born : Born X g s v g' s'
  view : v = TaskView.new v.addr s.nextPid v.userStack v.kernelStack (4096 * pages) userStackTop v.entry v.pagetable
  small : pages ≤ 0x8000
  fresh : FreshMap (g'.user v.addr) pages v.userStack

omit [Layout] in
/-- Sizes are rounded up to pages, or wrap. -/
theorem alignUp_pages (n : Nat) : alignUp n pageSize % 4096 = 0 ∧ alignUp n pageSize < 2 ^ 64 ∧
    alignUp n pageSize < n + 4096 := by
  have lt := wsub_lt (wadd n pageSize) 1
  have le : wsub (wadd n pageSize) 1 < n + 4096 := by
    unfold wsub wadd
    simp only [pageSize]
    omega
  unfold alignUp
  rw [show pageSize - 1 = 2 ^ 12 - 1 from rfl, and_wnot_low lt (by decide)]
  omega

/-- Memory that no page owner has. -/
structure Unowned (own : Nat → Owner) (start size : Nat) : Prop where
  fits : start + size ≤ 2 ^ 64
  outside : ∀ j < size, own (pageOf (start + j)) = .outside ∧ start + j ∉ listHeads

/-- Such memory keeps its bytes. -/
theorem Unowned.effect {start size : Nat} {C : Set Owner} (source : Unowned own start size)
    (effect : Effect C own s own' s') (foreign : .outside ∉ C) :
    Unowned own' start size ∧ ∀ j < size, s'.mem (start + j) = s.mem (start + j) := by
  refine ⟨⟨source.fits, fun j low => ⟨?_, (source.outside j low).2⟩⟩, fun j low => ?_⟩
  · exact (effect.own_iff foreign _).mpr (source.outside j low).1
  · exact effect.bytes _ ((source.outside j low).1 ▸ foreign) (source.outside j low).2

/-- What `task_reap_zombies` leaves behind, at the start of both constructors. -/
structure ReapingOf (Kind : SpaceKind) (g : World) (s : Kernel) (g' : World) (s' : Kernel) : Prop where
  returned : taskReapZombies s = .ok () s'
  world : WorldOf Kind ∅ g' s'
  tasks : g'.tasks = survivors s.current g.tasks
  reaped : Reaped g s (zombies s.current g.tasks) g' s'

/-- The same for tasks that have address spaces. -/
abbrev Reaping : World → Kernel → World → Kernel → Prop := ReapingOf TaskSpace

namespace WorldOf

variable {Kind : SpaceKind} {g : World} {start stop size imagePages entry : Nat}

/-- Both constructors reap first. -/
theorem reaping [FreeSpaces Kind] (world : WorldOf Kind ∅ g s) (unqueued : ∀ v ∈ g.tasks, v.reapable s.current = true → v.addr ∉ g.queue)
    {α : Type} {next : K α} {post : α → Kernel → Prop}
    (rest : ∀ g' s', ReapingOf Kind g s g' s' → wp next s' post halt) :
    wp (do taskReapZombies; next) s post halt := by
  obtain ⟨_, s₁, returned, g₁, world₁, tasks₁, reaped₁⟩ := wp_total (world.taskReapZombies_spec unqueued)
  have reaps : wp taskReapZombies s (fun _ s' => s' = s₁) halt := wp_intro
    (fun _ _ other => (EStateM.Result.ok.inj (returned.symm.trans other)).2.symm)
    fun _ _ halted => by
      rw [returned] at halted
      cases halted
  refine wp_bind_of reaps ?_
  · rintro _ _ rfl
    exact rest g₁ _ ⟨returned, world₁, tasks₁, reaped₁⟩

/-- The fields, the frame and the lists, for a task whose pages are in place.
`frame` is what is written into stacks; `X` is where it writes in other tasks'
stacks. -/
theorem finishTask [Spaces Kind] (world : WorldOf Kind ∅ g s) (home : Home g.blocks t) (fresh : t ∉ g.structs)
    (moves : BuildMoves t g.own s own' s') (b : Built t us ks root pages own' free' dir user s')
    (small : pages ≤ 0x8000) {v : TaskView} (fits : v.Fits)
    (isView : v = TaskView.new t s.nextPid us ks (4096 * pages) userStackTop entry root) (X : Set Nat) (frame : Mem → Mem)
    (inStacks : ∀ x ∈ X, ∃ k, own' (pageOf x) = .kstack k)
    (outside : ∀ mem x, x ∉ X → (x < ks ∨ ks + 4096 ≤ x) → frame mem x = mem x) :
    wp (taskEnqueue t) { s' with nextPid := wadd s.nextPid 1, mem := frame (v.put s'.mem) } (fun _ s'' =>
      ∃ g', WorldOf Kind ∅ g' s'' ∧ Created X g s v pages g' s'' ∧ g'.own = own' ∧ g'.user t = user ∧
        (∀ x, own' (pageOf x) = .data (.task t) ∨ own' (pageOf x) = .ustack t → s''.mem x = s'.mem x) ∧
        ∀ x, own' (pageOf x) ≠ .heap → x ∉ listHeads → s''.mem x = frame (v.put s'.mem) x) halt := by
  have foreign : ∀ q, own' q = .heap ↔ g.own q = .heap := moves.moves.own_iff (by simp [building, labels])
  have kernelOwner : own' ks = .kstack t := (b.kstack ks).mpr rfl
  have pool' := b.space.table.pool
  have validKs := pool'.pages ks (by simp [kernelOwner])
  have boundsKs := validKs.bounds
  have apart : t + taskSize ≤ ks ∨ ks + 4096 ≤ t := world.struct_page home validKs fun here => by
    have := (foreign ks).mpr here
    simp [kernelOwner] at this
  have addr : v.addr = t := by rw [isView]; rfl
  subst addr
  have notHeap : ∀ {x o}, own' (pageOf x) = o → o ≠ .heap → x < v.addr ∨ v.addr + taskSize ≤ x := by
    rintro x _ rfl other
    exact world.struct_heap home fun here => other ((foreign _).mpr here)
  have written : ∀ x, x ∉ X → (x < v.addr ∨ v.addr + taskSize ≤ x) → own' (pageOf x) ≠ .kstack v.addr →
      frame (v.put s'.mem) x = s'.mem x := fun x notX elsewhere notStack => by
    rw [outside _ x notX, TaskView.put_of_outside elsewhere]
    by_contra inside
    refine notStack ?_
    rw [pageOf_of_mem boundsKs.1 (by omega) (by omega)]
    exact kernelOwner
  have notX : ∀ {x}, (∀ k, own' (pageOf x) ≠ .kstack k) → x ∉ X := fun other inside => by
    obtain ⟨k, here⟩ := inStacks _ inside
    exact other k here
  have view' : TaskAt (frame (v.put s'.mem)) v := (TaskView.put_taskAt fits).congr fun x low high => by
    have inHeap := (home.payload world.heap.heap low (by simp only [taskSize]; omega)).2
    refine outside _ x (notX fun k here => ?_) (by simp only [taskSize] at *; omega)
    simp [(foreign _).mpr inHeap] at here
  have space' : Kind own' (frame (v.put s'.mem)) dir user v := by
    have space : TaskSpace own' (frame (v.put s'.mem)) dir user
        (TaskView.new v.addr s.nextPid us ks (4096 * pages) userStackTop entry root) := b.taskSpace small fun x inTable =>
      written x (notX fun k here => by simp [inTable] at here) (notHeap inTable (by simp)) (by simp [inTable])
    rw [← isView] at space
    exact Spaces.ofTask space
  have alive : v.state ≠ .zombie := by
    rw [isView]
    simp [TaskView.new]
  refine wp_mono (world.birth home fresh alive pool' moves X (fun x notX elsewhere notStack _ => written x notX elsewhere notStack)
    inStacks view' space') ?_ fun _ _ => id
  rintro _ s'' ⟨g', world', born, owners, _, users, bytes⟩
  refine ⟨g', world', ⟨born, ?_, small, ?_⟩, owners, users, fun x here => ?_, bytes⟩
  · rw [isView]
    rfl
  · rw [users, isView]
    exact b.fresh
  · have facts : own' (pageOf x) ≠ .heap ∧ own' (pageOf x) ≠ .outside ∧ ∀ k, own' (pageOf x) ≠ .kstack k := by
      rcases here with here | here <;> simp [here]
    exact (bytes x facts.1 (pool'.not_listHeads facts.2.1)).trans
      (written x (notX facts.2.2) (notHeap rfl facts.1) (facts.2.2 _))

/-- The stack is mapped, or everything is given back. `stackMem` is memory with
the stack page filled. -/
theorem mapStack [Spaces Kind] (world : WorldOf Kind ∅ g s) (home : Home g.blocks t) (fresh : t ∉ g.structs)
    (small : pages ≤ 0x8000) (moves : BuildMoves t g.own s own' s') (b : Building t us ks root ∅ own' free' dir user s')
    (range : ∀ n, (user n).isSome ↔ 16 ≤ n ∧ n < 16 + pages) (stackMem : Mem) (stack : Nat → UInt8)
    (filled : ∀ x, pageOf x ≠ us → stackMem x = s'.mem x) (holds : ∀ i < 4096, stackMem (us + i) = stack i)
    {no yes : Kernel → Prop}
    (failed : ∀ g' s'', WorldOf Kind ∅ g' s'' → Aborted g s g' s'' → g'.free.length = g.free.length → free'.length < 2 → no s'')
    (mapped : ∀ own₂ free₂ dir₂ s₂, BuildMoves t g.own s own₂ s₂ →
      Built t us ks root pages own₂ free₂ dir₂ (user.add stackVpn us) s₂ → free'.length ≤ free₂.length + 2 →
      (∀ want mem, Filled want user s'.mem →
        (∀ x, own₂ (pageOf x) = .data (.task t) ∨ own₂ (pageOf x) = .ustack t → mem x = s₂.mem x) →
        Contents want stack (user.add stackVpn us) mem) → yes s₂) :
    wp (pgtableMap root (userStackTop - pageSize) us pageSize pageUser) { s' with mem := stackMem } (fun r s₂ =>
      if r ≠ 0 then wp (taskFreeUserPages root userTextBase (4096 * pages)) s₂ (fun _ s₃ =>
        wp (taskAbandon us ks root t) s₃ (fun _ s₄ => no s₄) halt) halt else yes s₂) halt := by
  obtain ⟨b₁, keeps₁⟩ := b.fillStack stackMem filled
  have validUs := b.space.table.pool.pages us (by simp [(b.ustack us).mpr rfl])
  have moves₁ := moves.fill stackMem fun x outside => keeps₁ x fun here =>
    outside (by simp [here, building, labels])
  refine wp_mono (b₁.mapStack small range) ?_ fun _ _ => id
  rintro r s₂ ⟨own₂, free₂, dir₂, moves₂, keeps₂, ⟨rfl, built, stack₂, data₂⟩ | ⟨refused, b₂, short⟩, used⟩
  · rw [if_neg (by simp)]
    refine mapped own₂ free₂ dir₂ s₂ (moves₁.trans moves₂) built (used rfl) fun want mem holdsImage kept => ?_
    refine ⟨fun n p found other i low => ?_, fun p found i low => ?_⟩
    · rw [UserMap.add, Function.update_of_ne other] at found
      have here := b₁.mapped n p found
      have inPage := (b₁.space.table.pool.pages p (by simp [here])).pageOf_add low
      have here₂ : own₂ p = .data (.task t) := (data₂ p here).trans here
      calc mem (p + i) = s₂.mem (p + i) := kept _ (.inl (by rw [inPage, here₂]))
        _ = stackMem (p + i) := keeps₂ _ (.inl (by rw [inPage, here]))
        _ = s'.mem (p + i) := keeps₁ _ (by rw [inPage, here]; simp)
        _ = want n i := holdsImage n p found i low
    · rw [UserMap.add, Function.update_self, Option.some.injEq] at found
      subst found
      have inPage := validUs.pageOf_add low
      calc mem (us + i) = s₂.mem (us + i) := kept _ (.inr (by rw [inPage]; exact (built.ustack us).mpr rfl))
        _ = stackMem (us + i) := keeps₂ _ (.inr (by rw [inPage]; exact (b₁.ustack us).mpr rfl))
        _ = stack i := holds i low
  · rw [if_pos refused]
    refine (wp_bind _ _).mp (world.abandon home fresh (moves₁.trans moves₂) b₂ small (fun n p found => ?_)
      fun g' s'' world' aborted length => ?_)
    · exact (range n).mp (by simp [found])
    · exact failed g' s'' world' aborted length short

/-- `task_create_user` from the user stack on. -/
theorem createUser_stack [Spaces Kind] (world : WorldOf Kind ∅ g s) (home : Home g.blocks t) (fresh : t ∉ g.structs)
    (pid : s.nextPid < 2 ^ 64) (entryFits : entry < 2 ^ 64) (small : pages ≤ 0x8000)
    (moves : BuildMoves t g.own s own' s') (b : Building t us ks root ∅ own' free' dir user s')
    (range : ∀ n, (user n).isSome ↔ 16 ≤ n ∧ n < 16 + pages) {post : Nat → Kernel → Prop}
    (failed : ∀ g' s'', WorldOf Kind ∅ g' s'' → Aborted g s g' s'' → g'.free.length = g.free.length → free'.length < 2 →
      post 0 s'')
    (made : ∀ v g' s'', v.addr = t → v.entry = entry → WorldOf Kind ∅ g' s'' → Created ∅ g s v pages g' s'' →
      free'.length ≤ g'.free.length + 2 →
      (∀ want, Filled want user s'.mem → Contents want (fun _ => 0) (g'.user t) s''.mem) →
      (∃ mem, ∀ i < trapFrameSize, s''.mem (v.tf + i) = freshFrame mem v.tf userStackTop entry (v.tf + i)) → post t s'') :
    wp (do
      modifyMem (memZero · us pageSize)
      if (← pgtableMap root (userStackTop - pageSize) us pageSize pageUser) ≠ 0 then
        taskFreeUserPages root userTextBase (4096 * pages)
        taskAbandon us ks root t
        return 0
      else
        taskFill t ks us (4096 * pages) userStackTop entry root
        taskInitFrame t
        taskEnqueue t
        return t) s' post halt := by
  have boundsUs := (b.space.table.pool.pages us (by simp [(b.ustack us).mpr rfl])).bounds
  have zero : ∀ x, memZero s'.mem us pageSize x = if us ≤ x ∧ x < us + 4096 then 0 else s'.mem x := fun x =>
    memZero_apply (by simp only [pageSize]; omega)
  simp only [wp_bind, wp_modifyMem, wp_ite, wp_pure]
  refine world.mapStack home fresh small moves b range (memZero s'.mem us pageSize) (fun _ => 0)
    (fun x other => ?_) (fun i low => ?_) failed fun own₂ free₂ dir₂ s₂ moves₂ built used contents => ?_
  · rw [zero, if_neg fun inside => other (pageOf_of_mem boundsUs.1 inside.1 inside.2)]
  · rw [zero, if_pos (by omega)]
  have pidSame : s₂.nextPid = s.nextPid := by rw [moves₂.globals]
  have kernelOwner : own₂ ks = .kstack t := (built.kstack ks).mpr rfl
  have validKs := built.space.table.pool.pages ks (by simp [kernelOwner])
  have boundsKs := validKs.bounds
  have apart : t + taskSize ≤ ks ∨ ks + 4096 ≤ t := world.struct_page home validKs fun here => by
    have := (moves₂.moves.own_iff (o := .heap) (by simp [building, labels]) ks).mpr here
    simp [kernelOwner] at this
  have rootBounds := (built.space.table.tables.page built.space.table.pool
    built.space.table.tables.tree.root_mem).bounds
  obtain ⟨v, isView⟩ : ∃ v, v = TaskView.new t s.nextPid us ks (4096 * pages) userStackTop entry root := ⟨_, rfl⟩
  have fits : v.Fits := isView ▸ TaskView.new_fits pid (by omega) (by omega) (by omega) (by decide) entryFits (by omega)
  refine (wp_bind _ _).mp (taskInit_spec (pidSame.symm ▸ isView ▸ fits) (by omega) apart ?_)
  rw [pidSame, ← isView]
  refine wp_mono (world.finishTask home fresh moves₂ built small fits isView ∅
    (fun mem => freshFrame mem (ks + pageSize - trapFrameSize) userStackTop entry) (by simp)
    fun mem x _ outside => ?_) ?_ fun _ _ => id
  · refine freshFrame_of_outside ?_
    simp only [trapFrameSize, pageSize]
    omega
  · rintro _ s'' ⟨g', world', created, rfl, users, kept, bytes⟩
    have length := built.space.table.pool.length_eq world'.heap.pool
    refine made v g' s'' (by rw [isView]; rfl) (by rw [isView]; rfl) world' created (by omega) (fun want filled => ?_) ?_
    · rw [users]
      exact contents want s''.mem filled kept
    · rw [show v.tf = ks + pageSize - trapFrameSize by rw [isView]; rfl]
      have written : ∀ i < trapFrameSize, s''.mem (ks + pageSize - trapFrameSize + i) =
          freshFrame (v.put s₂.mem) (ks + pageSize - trapFrameSize) userStackTop entry (ks + pageSize - trapFrameSize + i) := by
        intro i low
        have here : g'.own (pageOf (ks + pageSize - trapFrameSize + i)) = .kstack t := by
          rw [pageOf_of_mem boundsKs.1 (by simp only [trapFrameSize, pageSize] at *; omega)
            (by simp only [trapFrameSize, pageSize] at *; omega), kernelOwner]
        exact bytes _ (by rw [here]; simp) (built.space.table.pool.not_listHeads (by rw [here]; simp))
      exact ⟨_, written⟩

/-- `task_create_user`: it makes a task, or it leaves the world that reaping left. The frame of
the task is written byte by byte. -/
theorem taskCreateUser_writes [FreeSpaces Kind] (world : WorldOf Kind ∅ g s)
    (unqueued : ∀ v ∈ g.tasks, v.reapable s.current = true → v.addr ∉ g.queue) (pid : s.nextPid < 2 ^ 64) :
    wp (taskCreateUser start stop entry) s (fun r s' => ∃ g₁ s₁ g', ReapingOf Kind g s g₁ s₁ ∧ WorldOf Kind ∅ g' s' ∧
      ((r = 0 ∧ Aborted g₁ s₁ g' s' ∧ g₁.free.length < 73 + 3 * (alignUp (wsub stop start) pageSize / 4096)) ∨
        (r ≠ 0 ∧ ∃ v pages, v.addr = r ∧
        v.entry = wadd userTextBase (wsub entry start) ∧ alignUp (wsub stop start) pageSize = 4096 * pages ∧
        Created ∅ g₁ s₁ v pages g' s' ∧
        (Unowned g.own start (wsub stop start) →
          Contents (imageByte (fun j => s.mem (start + j)) (wsub stop start)) (fun _ => 0) (g'.user r) s'.mem) ∧
        (∃ mem, ∀ i < trapFrameSize, s'.mem (v.tf + i) = freshFrame mem v.tf userStackTop v.entry (v.tf + i)) ∧
        g₁.free.length ≤ g'.free.length + 73 + 3 * pages))) halt := by
  unfold taskCreateUser
  refine world.reaping unqueued fun g₁ s₁ reaping => ?_
  refine wp_bind_of reaping.world.taskAlloc_spec ?_
  rintro t s₂ ⟨g₂, world₂, aborted₂, ⟨rfl, none⟩ | ⟨nonzero, home, fresh⟩⟩
  · rw [if_pos rfl, wp_pure]
    exact ⟨g₁, s₁, g₂, reaping, world₂, .inl ⟨rfl, aborted₂, by simp only [none, List.length_nil]; omega⟩⟩
  have used₂ := aborted₂.count
  rw [if_neg nonzero]
  have pid₂ : s₂.nextPid < 2 ^ 64 := by
    rw [aborted₂.globals, reaping.reaped.globals]
    exact pid
  have entryFits : wadd userTextBase (wsub entry start) < 2 ^ 64 := Nat.mod_lt _ (by decide)
  have sizeFits : wsub stop start < 2 ^ 64 := Nat.mod_lt _ (by decide)
  obtain ⟨size, isSize⟩ : ∃ size, size = wsub stop start := ⟨_, rfl⟩
  have sourceOf : Unowned g.own start (wsub stop start) → ImageSource t start (wsub stop start) g₂.own s₂ fun j =>
      s.mem (start + j) := fun source => by
    obtain ⟨source₁, same₁⟩ := source.effect reaping.reaped.effect (by simp [freed, labels])
    obtain ⟨source₂, same₂⟩ := source₁.effect aborted₂.effect (by simp)
    refine ⟨source.fits, fun j low => (same₂ j low).trans (same₁ j low), fun j low => ?_⟩
    refine ⟨by simp [(source₂.outside j low).1, building, labels], fun isHead => ?_⟩
    exact (source.outside j low).2 (.inl (.inl isHead))
  obtain ⟨size, isSize⟩ : ∃ size, size = wsub stop start := ⟨_, rfl⟩
  rw [← isSize] at sizeFits sourceOf ⊢
  obtain ⟨imagePages, isPages⟩ : ∃ imagePages, imagePages = alignUp size pageSize := ⟨_, rfl⟩
  rw [← isPages]
  have multiple := isPages ▸ alignUp_pages size
  have failed : ∀ g' s'', WorldOf Kind ∅ g' s'' → Aborted g₂ s₂ g' s'' → g'.free.length = g₂.free.length →
      WorldOf Kind ∅ g' s'' ∧ Aborted g₁ s₁ g' s'' := fun g' s'' world' aborted length =>
    ⟨world', aborted₂.trans aborted (by omega)⟩
  refine (wp_bind _ _).mpr ?_
  refine taskPages_spec world₂.heap.pool (world₂.unlabelled fresh) (fun free' s' pool' moves' short => ?_)
    fun us ks root own' free' dir' s' b _ moves' count => ?_
  · refine wp_mono (world₂.abort home fresh pool' moves' (world₂.unlabelled fresh)) ?_ fun _ _ => id
    rintro _ s'' ⟨g', world', aborted, length⟩
    rw [wp_pure]
    exact ⟨g₁, s₁, g', reaping, world', .inl ⟨rfl, (failed g' s'' world' aborted length).2, by omega⟩⟩
  refine (wp_bind _ _).mpr ?_
  rw [← isPages]
  change wp (taskCreateImage t us ks root start size imagePages loopBound (4096 * 0)) _ _ _
  have few : 0 + free'.length ≤ 0x8000 := by
    have := b.space.table.pool.length_pages
    omega
  have enough : free'.length < loopBound := by
    unfold loopBound
    omega
  refine taskCreateImage_spec multiple.1 multiple.2.1 multiple.2.2 sizeFits enough few b (by simp)
    (by omega) (fun _ n p found => by simp at found) (fun source => (sourceOf source).build moves')
    (fun own'' free'' s'' pool'' moves'' clear short => ?_)
    fun pages own'' free'' dir'' user'' s'' isMultiple small b'' range filled moves'' used => ?_
  · refine wp_mono (world₂.abort home fresh pool'' (moves'.trans moves'') clear) ?_ fun _ _ => id
    rintro _ s₃ ⟨g', world', aborted, length⟩
    rw [if_pos rfl, wp_pure]
    exact ⟨g₁, s₁, g', reaping, world', .inl ⟨rfl, (failed g' s₃ world' aborted length).2, by omega⟩⟩
  · rw [if_neg (by simp), isMultiple]
    refine world₂.createUser_stack home fresh pid₂ entryFits small (moves'.trans moves'') b'' range
      (fun g' s₃ world' aborted length short => ?_) fun v g' s₃ addr isEntry world' created last contents frame => ?_
    · exact ⟨g₁, s₁, g', reaping, world', .inl ⟨rfl, (failed g' s₃ world' aborted length).2, by omega⟩⟩
    · refine ⟨g₁, s₁, g', reaping, world', .inr ⟨nonzero, v, pages, addr, isEntry, rfl, ?_, fun source => ?_, isEntry ▸ frame,
        by omega⟩⟩
      · refine ⟨aborted₂.born created.born, ?_, created.small, created.fresh⟩
        rw [show s₁.nextPid = s₂.nextPid by rw [aborted₂.globals]]
        exact created.view
      · exact contents _ (filled source)

/-- `task_create_user`, by the fields of the frame. -/
theorem taskCreateUser_spec [FreeSpaces Kind] (world : WorldOf Kind ∅ g s)
    (unqueued : ∀ v ∈ g.tasks, v.reapable s.current = true → v.addr ∉ g.queue) (pid : s.nextPid < 2 ^ 64) :
    wp (taskCreateUser start stop entry) s (fun r s' => ∃ g₁ s₁ g', ReapingOf Kind g s g₁ s₁ ∧ WorldOf Kind ∅ g' s' ∧
      ((r = 0 ∧ Aborted g₁ s₁ g' s' ∧ g₁.free.length < 73 + 3 * (alignUp (wsub stop start) pageSize / 4096)) ∨
        (r ≠ 0 ∧ ∃ v pages, v.addr = r ∧
        v.entry = wadd userTextBase (wsub entry start) ∧ alignUp (wsub stop start) pageSize = 4096 * pages ∧
        Created ∅ g₁ s₁ v pages g' s' ∧
        (Unowned g.own start (wsub stop start) →
          Contents (imageByte (fun j => s.mem (start + j)) (wsub stop start)) (fun _ => 0) (g'.user r) s'.mem) ∧
        FreshFrame v.tf userStackTop v.entry s'.mem ∧ g₁.free.length ≤ g'.free.length + 73 + 3 * pages))) halt := by
  refine wp_mono (world.taskCreateUser_writes unqueued pid) ?_ fun _ _ => id
  rintro r s' ⟨g₁, s₁, g', reaping, world', failed | ⟨some, v, pages, here, isEntry, size, created, contents, ⟨_, written⟩, used⟩⟩
  · exact ⟨g₁, s₁, g', reaping, world', .inl failed⟩
  · have word : v.entry < 2 ^ 64 := isEntry ▸ wadd_lt _ _
    exact ⟨g₁, s₁, g', reaping, world', .inr ⟨some, v, pages, here, isEntry, size, created, contents,
      freshFrame_holds (by decide) word written, used⟩⟩

end WorldOf

/-- The page number of `user_sp` of a task that has not run: it lies past the stack
page. -/
@[simp] abbrev aboveStack : Nat := 0x40000

/-- What `task_fork` puts into the child's stack page: the page that `user_sp` of
the parent points at, or zeros. -/
def forkedStack (user : UserMap) (mem : Mem) (i : Nat) : UInt8 :=
  match user aboveStack with
  | some q => mem (q + i)
  | none => 0

/-- The pages of a task keep their bytes in what is not about them. -/
theorem label_bytes {C : Set Owner} {a x : Nat} (pool : Pool own free s) (effect : Effect C own s own' s')
    (foreign : ∀ o ∈ labels a, o ∉ C) (here : own (pageOf x) ∈ labels a) :
    s'.mem x = s.mem x ∧ own' (pageOf x) ∈ labels a := by
  have owned : own (pageOf x) ≠ .outside := by
    intro outside
    simp [outside, labels] at here
  refine ⟨effect.bytes x (foreign _ here) (pool.not_listHeads owned), ?_⟩
  rwa [(effect.own_iff (foreign _ here) _).mpr rfl]

omit [Layout] in
/-- The mapped pages of a task are labelled. -/
theorem TaskSpace.labelled {v : TaskView} {mem : Mem} (space : TaskSpace own mem dir user v) {n q : Nat}
    (found : user n = some q) : own q ∈ labels v.addr := by
  rcases space.mapped n q found with here | here <;> simp [here, labels]

omit [Layout] in
/-- A task has nothing to do with the freeing of others. -/
theorem freed_foreign {v : TaskView} {gone : List TaskView} (others : ∀ w ∈ gone, w.addr ≠ v.addr) :
    ∀ o ∈ labels v.addr, o ∉ freed gone := by
  rintro o inside (isCommon | ⟨w, member, inside'⟩)
  · simp only [labels, Set.mem_insert_iff, Set.mem_singleton_iff] at inside isCommon
    rcases inside with rfl | rfl | rfl | rfl <;> simp at isCommon
  · exact labels_disjoint (others w member).symm inside inside'

omit [Layout] in
/-- The image of a task is a number of pages, all of them mapped. -/
theorem TaskSpace.image {v : TaskView} {mem : Mem} (space : TaskSpace own mem dir user v) :
    ∃ pages ≤ 0x8000, v.imageSize = 4096 * pages ∧ ∀ n, 16 ≤ n → n < 16 + pages → (user n).isSome := by
  rcases space.shape with ⟨pages, small, size, fresh⟩ | ⟨zero, _⟩
  · exact ⟨pages, small, size, fun n low high => (fresh.mapped n).mpr (.inl ⟨low, high⟩)⟩
  · exact ⟨0, by omega, by omega, fun n low high => by omega⟩

/-- What `task_fork` puts into the child's image pages. -/
def forkedImage (user : UserMap) (mem : Mem) (n i : Nat) : UInt8 :=
  match user n with
  | some q => mem (q + i)
  | none => 0

/-- `task_fork`'s copy of the user stack. -/
theorem taskForkStack_spec {p : TaskView} (parent : Parent p t own dir user s) (pool : Pool own free s)
    (isUser : own us = .ustack t) :
    wp (taskForkStack p.addr us) s (fun _ s' => ∃ mem', s' = { s with mem := mem' } ∧
      (∀ x, pageOf x ≠ us → mem' x = s.mem x) ∧ ∀ i < 4096, mem' (us + i) = forkedStack user s.mem i) halt := by
  have validUs := pool.pages us (by simp [isUser])
  have boundsUs := validUs.bounds
  have outside : ∀ x, pageOf x ≠ us → x < us ∨ us + pageSize ≤ x := fun x other => by
    by_contra inside
    simp only [pageSize] at inside
    exact other (pageOf_of_mem boundsUs.1 (by omega) (by omega))
  have space : SpaceState (.task p.addr) p.pagetable own free dir user s :=
    ⟨⟨parent.space.tables, pool⟩, parent.space.leaves, parent.space.plain⟩
  have address : userStackTop &&& wnot (pageSize - 1) = 4096 * aboveStack := by decide
  have below : aboveStack < 2 ^ 26 := by decide
  unfold taskForkStack forkedStack
  simp only [wp_bind, wp_loadWord, parent.view.userSp, parent.view.pagetable, parent.space.userSp, address]
  cases found : user aboveStack with
  | none =>
      refine wp_mono (space.lookup_none below found (by decide)) ?_ fun _ _ => id
      rintro _ _ ⟨rfl, rfl⟩
      simp only [wp_modifyMem]
      refine ⟨_, rfl, fun x other => ?_, fun i low => ?_⟩
      · rw [memZero_apply (by simp only [pageSize]; omega), if_neg]
        have := outside x other
        omega
      · rw [memZero_apply (by simp only [pageSize]; omega), if_pos (by simp only [pageSize]; omega)]
  | some q =>
      have labelled := parent.space.mapped _ q found
      have valid := pool.pages q (by rcases labelled with here | here <;> simp [here])
      have bounds := valid.bounds
      have apart : q ≠ us := by
        rintro rfl
        rcases labelled with here | here
        · simp [isUser] at here
        · simp only [isUser, Owner.ustack.injEq] at here
          exact parent.other here.symm
      refine wp_mono (space.lookup_page below found) ?_ fun _ _ => id
      rintro _ s' ⟨rfl, _, rfl⟩
      simp only [wp_modifyMem, pteToPa_user valid]
      refine ⟨_, rfl, fun x other => memCopy_of_outside (by simp only [pageSize]; omega) (outside x other), fun i low => ?_⟩
      exact memCopy_of_inside (by simp only [pageSize]; omega) (by simp only [pageSize]; omega)
        (by simp only [pageSize]; omega) low

/-- The result register of a trap frame. -/
def resultBytes (tf : Nat) : Set Nat := {x | tf + TrapFrame.a0 ≤ x ∧ x < tf + TrapFrame.a0 + 8}

/-- The frame of a forked task: the parent's, with a result of 0. -/
structure ForkedFrame (tf frame pid : Nat) (mem mem' : Mem) : Prop where
  copy : ∀ i < trapFrameSize, i < TrapFrame.a0 ∨ TrapFrame.a0 + 8 ≤ i → mem' (frame + i) = mem (tf + i)
  child : mem'.load (frame + TrapFrame.a0) 8 = 0
  parent : mem'.load (tf + TrapFrame.a0) 8 = pid

namespace WorldOf

variable {g : World} {p : TaskView} {tf : Nat}

/-- A task on the list, as the parent of one that is not. -/
theorem parent (world : WorldAt ∅ g s) (member : p ∈ g.tasks) (fresh : t ∉ g.structs) :
    Parent p t g.own (g.dir p.addr) (g.user p.addr) s where
  view := world.view p member
  heap x low high := ((world.task_home member).payload world.heap.heap low (by simp only [taskSize]; omega)).2
  space := world.space p member
  other equal := fresh (equal ▸ List.mem_append_left _ (List.mem_map_of_mem member))

/-- `task_fork` from the user stack on. -/
theorem fork_stack (world : WorldAt ∅ g s) (home : Home g.blocks t) (fresh : t ∉ g.structs)
    (pid : s.nextPid < 2 ^ 64) (member : p ∈ g.tasks) (isTf : tf = p.tf) (small : pages ≤ 0x8000)
    (moves : BuildMoves t g.own s own' s') (b : Building t us ks root ∅ own' free' dir user s')
    (range : ∀ n, (user n).isSome ↔ 16 ≤ n ∧ n < 16 + pages) {post : Nat → Kernel → Prop}
    (failed : ∀ g' s'', WorldAt ∅ g' s'' → Aborted g s g' s'' → g'.free.length = g.free.length → free'.length < 2 →
      post 0 s'')
    (made : ∀ v g' s'', v.addr = t → v.entry = p.entry → WorldAt ∅ g' s'' →
      Created (resultBytes tf) g s v pages g' s'' → free'.length ≤ g'.free.length + 2 →
      (∀ want, Filled want user s'.mem →
        Contents want (forkedStack (g.user p.addr) s.mem) (g'.user t) s''.mem) →
      ForkedFrame tf v.tf v.pid s.mem s''.mem → post t s'') :
    wp (do
      taskForkStack p.addr us
      if (← pgtableMap root (userStackTop - pageSize) us pageSize pageUser) ≠ 0 then
        taskFreeUserPages root userTextBase (4096 * pages)
        taskAbandon us ks root t
        return 0
      else
        taskFill t ks us (4096 * pages) (← loadWord (p.addr + Task.userSp)) (← loadWord (p.addr + Task.entry)) root
        taskForkFrame t tf
        taskEnqueue t
        return t) s' post halt := by
  have pool := world.heap.pool
  have parent := world.parent member fresh
  have parent₁ := parent.build pool moves
  simp only [wp_bind, wp_ite, wp_pure, wp_loadWord]
  refine wp_mono (taskForkStack_spec parent₁ b.space.table.pool ((b.ustack us).mpr rfl)) ?_ fun _ _ => id
  rintro _ _ ⟨stackMem, rfl, elsewhere, holds⟩
  refine world.mapStack home fresh small moves b range stackMem (forkedStack (g.user p.addr) s.mem) elsewhere
    (fun i low => ?_) failed fun own₂ free₂ dir₂ s₂ moves₂ built used contents => ?_
  · rw [holds i low]
    unfold forkedStack
    cases found : g.user p.addr aboveStack with
    | none => rfl
    | some q => exact parent.bytes pool moves found low
  have parent₂ := parent.build pool moves₂
  have entryFits : p.entry < 2 ^ 64 := by
    rw [← parent.view.entry]
    exact Mem.load_lt _ _ _
  have pidSame : s₂.nextPid = s.nextPid := by rw [moves₂.globals]
  have kernelOwner : own₂ ks = .kstack t := (built.kstack ks).mpr rfl
  have parentOwner : own₂ p.kernelStack = .kstack p.addr := (parent₂.space.kstack _).mpr rfl
  have parentOwner₀ : g.own p.kernelStack = .kstack p.addr := (parent.space.kstack _).mpr rfl
  have pool₂ := built.space.table.pool
  have validKs := pool₂.pages ks (by simp [kernelOwner])
  have boundsKs := validKs.bounds
  have boundsUs := (pool₂.pages us (by simp [(built.ustack us).mpr rfl])).bounds
  have validP := pool₂.pages p.kernelStack (by simp [parentOwner])
  have boundsP := validP.bounds
  have apart : t + taskSize ≤ ks ∨ ks + 4096 ≤ t := world.struct_page home validKs fun here => by
    have := (moves₂.moves.own_iff (o := .heap) (by simp [building, labels]) ks).mpr here
    simp [kernelOwner] at this
  have apartP : t + taskSize ≤ p.kernelStack ∨ p.kernelStack + 4096 ≤ t := world.struct_page home validP (by
    simp [parentOwner₀])
  have stacks_ne : ks ≠ p.kernelStack := by
    rintro equal
    rw [← equal, kernelOwner, Owner.kstack.injEq] at parentOwner
    exact parent.other parentOwner.symm
  have frameTop := parent.space.tf
  obtain ⟨frame, isFrame⟩ : ∃ frame, frame = ks + pageSize - trapFrameSize := ⟨_, rfl⟩
  have inFrame : ∀ i, i < trapFrameSize → pageOf (frame + i) = ks := fun i low =>
    pageOf_of_mem boundsKs.1 (by simp only [trapFrameSize, pageSize] at *; omega)
      (by simp only [trapFrameSize, pageSize] at *; omega)
  have inTf : ∀ i, i < trapFrameSize → pageOf (tf + i) = p.kernelStack := fun i low =>
    pageOf_of_mem boundsP.1 (by simp only [trapFrameSize, pageSize] at *; omega)
      (by simp only [trapFrameSize, pageSize] at *; omega)
  have rootBounds := (built.space.table.tables.page pool₂ built.space.table.tables.tree.root_mem).bounds
  obtain ⟨v, isView⟩ : ∃ v, v = TaskView.new t s.nextPid us ks (4096 * pages) userStackTop p.entry root := ⟨_, rfl⟩
  have fits : v.Fits := isView ▸ TaskView.new_fits pid (by omega) (by omega) (by omega) (by decide) entryFits (by omega)
  have addr : v.addr = t := by rw [isView]; rfl
  rw [parent₂.view.userSp, parent₂.view.entry, parent.space.userSp]
  refine (wp_bind _ _).mp (taskForkFrame_spec (pidSame.symm ▸ isView ▸ fits) (by omega) apart ?_)
  rw [pidSame, ← isView, ← isFrame]
  refine wp_mono (world.finishTask home fresh moves₂ built small fits isView (resultBytes tf)
    (fun mem => forkedFrame mem frame tf s.nextPid) (fun x inside => ⟨p.addr, ?_⟩)
    fun mem x notResult outside => ?_) ?_ fun _ _ => id
  · have here := inTf (x - tf) (by
      simp only [resultBytes, Set.mem_ofPred_eq, TrapFrame.a0, trapFrameSize] at *
      omega)
    rw [show tf + (x - tf) = x by
      simp only [resultBytes, Set.mem_ofPred_eq] at inside
      omega] at here
    rw [here, parentOwner]
  · refine forkedFrame_of_outside ?_ ?_ ?_
    · simp only [trapFrameSize, pageSize] at *
      omega
    · simp only [trapFrameSize, pageSize] at *
      omega
    · simp only [resultBytes, Set.mem_ofPred_eq] at notResult
      omega
  rintro _ s'' ⟨g', world', created, owners, users, kept, bytes⟩
  have length := pool₂.length_eq (owners ▸ world'.heap.pool)
  refine made v g' s'' addr (by rw [isView]; rfl) world' created (by omega) (fun want filled => ?_) ?_
  · rw [users]
    exact contents want s''.mem filled kept
  have isTfField : v.tf = frame := by rw [isView, isFrame]; rfl
  have isPid : v.pid = s.nextPid := by rw [isView]; rfl
  rw [isTfField, isPid]
  have frameBytes : ∀ i < trapFrameSize, s''.mem (frame + i) =
      forkedFrame (v.put s₂.mem) frame tf s.nextPid (frame + i) := fun i low =>
    bytes _ (by rw [inFrame i low, kernelOwner]; simp) (pool₂.not_listHeads (by rw [inFrame i low, kernelOwner]; simp))
  have tfBytes : ∀ i < trapFrameSize, s''.mem (tf + i) =
      forkedFrame (v.put s₂.mem) frame tf s.nextPid (tf + i) := fun i low =>
    bytes _ (by rw [inTf i low, parentOwner]; simp) (pool₂.not_listHeads (by rw [inTf i low, parentOwner]; simp))
  have frameApart : tf + trapFrameSize ≤ frame ∨ frame + trapFrameSize ≤ tf := by
    simp only [trapFrameSize, pageSize] at *
    omega
  refine ⟨fun i low other => ?_, ?_, ?_⟩
  · calc s''.mem (frame + i) = forkedFrame (v.put s₂.mem) frame tf s.nextPid (frame + i) := frameBytes i low
      _ = v.put s₂.mem (tf + i) := forkedFrame_copy (by simp only [trapFrameSize, pageSize] at *; omega)
          (by simp only [trapFrameSize, pageSize] at *; omega) frameApart low other
      _ = s₂.mem (tf + i) := TaskView.put_of_outside (by
          rw [addr]
          simp only [trapFrameSize, pageSize, taskSize] at *
          omega)
      _ = s.mem (tf + i) := by
          refine moves₂.moves.bytes _ ?_ (pool.not_head ?_)
          · rw [inTf i low, parentOwner₀]
            simpa [building, labels] using parent.other
          · rw [inTf i low, parentOwner₀]
            simp
  · have same : s''.mem.load (frame + TrapFrame.a0) 8 =
        (forkedFrame (v.put s₂.mem) frame tf s.nextPid).load (frame + TrapFrame.a0) 8 :=
      Mem.load_congr fun x low high => by
        have := frameBytes (x - frame) (by simp only [trapFrameSize, TrapFrame.a0] at *; omega)
        rwa [show frame + (x - frame) = x by omega] at this
    rw [same, forkedFrame, Mem.load_store_of_disjoint (by simp only [trapFrameSize, TrapFrame.a0] at *; omega)]
    exact Mem.load_store_same (by decide)
  · have same : s''.mem.load (tf + TrapFrame.a0) 8 =
        (forkedFrame (v.put s₂.mem) frame tf s.nextPid).load (tf + TrapFrame.a0) 8 :=
      Mem.load_congr fun x low high => by
        have := tfBytes (x - tf) (by simp only [trapFrameSize, TrapFrame.a0] at *; omega)
        rwa [show tf + (x - tf) = x by omega] at this
    rw [same, forkedFrame]
    exact Mem.load_store_same (Nat.lt_of_lt_of_le pid (by decide))

/-- `task_fork` by a task on the list: it makes a copy, or it leaves the world that
reaping left. -/
theorem taskFork_spec (world : WorldAt ∅ g s)
    (unqueued : ∀ v ∈ g.tasks, v.reapable s.current = true → v.addr ∉ g.queue) (pid : s.nextPid < 2 ^ 64)
    (member : p ∈ g.tasks) (current : s.current = p.addr) (isTf : tf = p.tf) :
    wp (taskFork tf) s (fun r s' => ∃ g₁ s₁ g', Reaping g s g₁ s₁ ∧ WorldAt ∅ g' s' ∧
      ((r = 0 ∧ Aborted g₁ s₁ g' s' ∧ g₁.free.length < 73 + 3 * (p.imageSize / 4096)) ∨
        (r ≠ 0 ∧ ∃ v pages, v.addr = r ∧ v.entry = p.entry ∧
        p.imageSize = 4096 * pages ∧ Created (resultBytes tf) g₁ s₁ v pages g' s' ∧
        Contents (forkedImage (g.user p.addr) s.mem) (forkedStack (g.user p.addr) s.mem) (g'.user r) s'.mem ∧
        ForkedFrame tf v.tf v.pid s.mem s'.mem ∧ g₁.free.length ≤ g'.free.length + 73 + 3 * pages))) halt := by
  have bounds := (world.task_home member).bounds world.heap
  unfold taskFork
  rw [wp_bind, wp_get, current, if_neg (by omega)]
  refine world.reaping unqueued fun g₁ s₁ reaping => ?_
  have member₁ : p ∈ g₁.tasks := by
    rw [reaping.tasks]
    exact mem_survivors.mpr ⟨member, fun _ => current.symm⟩
  refine wp_bind_of reaping.world.taskAlloc_spec ?_
  rintro t s₂ ⟨g₂, world₂, aborted₂, ⟨rfl, none⟩ | ⟨nonzero, home, fresh⟩⟩
  · rw [if_pos rfl, wp_pure]
    exact ⟨g₁, s₁, g₂, reaping, world₂, .inl ⟨rfl, aborted₂, by simp only [none, List.length_nil]; omega⟩⟩
  have used₂ := aborted₂.count
  rw [if_neg nonzero]
  have member₂ : p ∈ g₂.tasks := by rwa [aborted₂.same.tasks]
  have pid₂ : s₂.nextPid < 2 ^ 64 := by
    rw [aborted₂.globals, reaping.reaped.globals]
    exact pid
  have failed : ∀ g' s'', WorldAt ∅ g' s'' → Aborted g₂ s₂ g' s'' → g'.free.length = g₂.free.length →
      WorldAt ∅ g' s'' ∧ Aborted g₁ s₁ g' s'' := fun g' s'' world' aborted length =>
    ⟨world', aborted₂.trans aborted (by omega)⟩
  refine (wp_bind _ _).mpr ?_
  refine taskPages_spec world₂.heap.pool (world₂.unlabelled fresh) (fun free' s' pool' moves' short => ?_)
    fun us ks root own' free' dir' s' b _ moves' count => ?_
  · refine wp_mono (world₂.abort home fresh pool' moves' (world₂.unlabelled fresh)) ?_ fun _ _ => id
    rintro _ s'' ⟨g', world', aborted, length⟩
    rw [wp_pure]
    exact ⟨g₁, s₁, g', reaping, world', .inl ⟨rfl, (failed g' s'' world' aborted length).2, by omega⟩⟩
  have space := world.space p member
  have parent := (world₂.parent member₂ fresh).build world₂.heap.pool moves'
  have users : g₂.user p.addr = g.user p.addr := by rw [aborted₂.same.user, reaping.reaped.user]
  have gone : ∀ w ∈ zombies s.current g.tasks, w.addr ≠ p.addr := fun w inside =>
    current ▸ (mem_zombies.mp inside).2.2
  have quiet : ∀ o ∈ labels p.addr, o ∉ ({.free, .heap} : Set Owner) := fun o inside other => by
    simp only [labels, Set.mem_insert_iff, Set.mem_singleton_iff] at inside other
    rcases inside with rfl | rfl | rfl | rfl <;> simp at other
  have same₁ : ∀ x, g.own (pageOf x) ∈ labels p.addr → s₂.mem x = s.mem x := fun x here => by
    obtain ⟨first, here₁⟩ := label_bytes world.heap.pool reaping.reaped.effect (freed_foreign gone) here
    exact (label_bytes reaping.world.heap.pool aborted₂.effect quiet here₁).1.trans first
  have pageBytes : ∀ {q i : Nat}, g.own q ∈ labels p.addr → i < 4096 → s₂.mem (q + i) = s.mem (q + i) :=
    fun {q i} here low => same₁ _ (by
      have owned : g.own q ≠ .outside := by
        intro outside
        simp [outside, labels] at here
      rwa [(world.heap.pool.pages q owned).pageOf_add low])
  obtain ⟨pages, small, size, full⟩ := space.image
  rw [users] at parent
  simp only [wp_bind, wp_loadWord, parent.view.imageSize, size]
  have empty : Filled (forkedImage (g.user p.addr) s.mem) (fun _ => none) s'.mem := fun n q found => by simp at found
  refine taskForkImage_spec (Nat.zero_add pages) small (show pages < loopBound by unfold loopBound; omega)
    parent b (by simp) (fun n _ _ => by omega) empty (fun n q found i low => ?_)
    (fun own'' free'' s'' pool'' moves'' clear short => ?_)
    fun own'' free'' dir'' user'' s'' b'' range dom filled moves'' used => ?_
  · have kept := (world₂.parent member₂ fresh).bytes world₂.heap.pool moves' (users ▸ found) low
    rw [kept, pageBytes (space.labelled found) low, forkedImage, found]
  · refine wp_mono (world₂.abort home fresh pool'' (moves'.trans moves'') clear) ?_ fun _ _ => id
    rintro _ s₃ ⟨g', world', aborted, length⟩
    rw [if_pos rfl, wp_pure]
    exact ⟨g₁, s₁, g', reaping, world', .inl ⟨rfl, (failed g' s₃ world' aborted length).2, by omega⟩⟩
  · rw [if_neg (by simp)]
    have range' : ∀ n, (user'' n).isSome ↔ 16 ≤ n ∧ n < 16 + pages := fun n => by
      refine ⟨fun some => ?_, fun ⟨low, high⟩ => (dom n low high).mpr (full n low high)⟩
      obtain ⟨q, found⟩ := Option.isSome_iff_exists.mp some
      exact range n q found
    refine world₂.fork_stack home fresh pid₂ member₂ isTf small (moves'.trans moves'') b'' range'
      (fun g' s₃ world' aborted length short => ?_) fun v g' s₃ addr isEntry world' created last contents frame => ?_
    · exact ⟨g₁, s₁, g', reaping, world', .inl ⟨rfl, (failed g' s₃ world' aborted length).2, by omega⟩⟩
    · refine ⟨g₁, s₁, g', reaping, world', .inr ⟨nonzero, v, pages, addr, isEntry, rfl, ?_, ?_, ?_⟩⟩
      · refine ⟨aborted₂.born created.born, ?_, created.small, created.fresh⟩
        rw [show s₁.nextPid = s₂.nextPid by rw [aborted₂.globals]]
        exact created.view
      · have held := contents _ filled
        refine ⟨held.image, fun q found i low => (held.stack q found i low).trans ?_⟩
        rw [users, forkedStack, forkedStack]
        cases above : g.user p.addr aboveStack with
        | none => rfl
        | some r => exact pageBytes (space.labelled above) low
      · refine ⟨⟨fun i low other => (frame.copy i low other).trans ?_, frame.child, frame.parent⟩, by omega⟩
        have isStack : g.own p.kernelStack = .kstack p.addr := (space.kstack _).mpr rfl
        have boundsP := (world.heap.pool.pages p.kernelStack (by simp [isStack])).bounds
        have top := space.tf
        refine same₁ _ ?_
        rw [pageOf_of_mem boundsP.1 (show p.kernelStack ≤ tf + i by simp only [trapFrameSize, pageSize] at *; omega)
          (by simp only [trapFrameSize, pageSize] at *; omega), isStack]
        simp [labels]

end WorldOf

end KuroOS
