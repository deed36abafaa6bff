import KuroOS.Task.Load
import KuroOS.Task.Create

/-!
# Replacing a program

`sys_exec` builds a new address space beside the live one and, when that has
worked, gives it to the calling task. Until then every page that is taken comes
from the free list, so a call that fails leaves the task as it was; but the pages
that the loader had mapped by then are not given back. A call that succeeds
drops the tables and the pages of the old space.
-/

namespace KuroOS

open Base

/-- The owners of an address space being filled. -/
def pending : Set Owner := {.table .pending, .data .pending}

/-- A task with a new program. -/
def TaskView.loaded (v : TaskView) (root entry : Nat) : TaskView :=
  { v with pagetable := root, entry, userSp := userStackTop, imageSize := 0 }

/-- The fields of `struct task` that `sys_exec` sets. -/
def loadedFields (root entry : Nat) : List Field :=
  [⟨Task.pagetable, 8, root⟩, ⟨Task.entry, 8, entry⟩, ⟨Task.userSp, 8, userStackTop⟩, ⟨Task.userImageSize, 8, 0⟩]

/-- The registers that `sys_exec` sets. -/
def loadedFrame (entry : Nat) : List Field :=
  [⟨TrapFrame.sepc, 8, entry⟩, ⟨TrapFrame.sp, 8, userStackTop⟩, ⟨TrapFrame.a0, 8, 0⟩, ⟨TrapFrame.a1, 8, 0⟩,
   ⟨TrapFrame.a2, 8, 0⟩]

@[simp] theorem wp_execCommit {post : Unit → Kernel → Prop} {halt : Halt → Kernel → Prop} {s : Kernel}
    {task root entry tf : Nat} : wp (execCommit task root entry tf) s post halt ↔
      post () { s with mem := storeFields (storeFields s.mem task (loadedFields root entry)) tf (loadedFrame entry) } := by
  simp only [execCommit, wp_bind, wp_storeWord, loadedFields, loadedFrame, storeFields]

/-- The fields of a task with a new program. -/
theorem TaskAt.loaded {mem : Mem} {v : TaskView} (holds : TaskAt mem v) {root entry : Nat} (rootFits : root < 2 ^ 64)
    (entryFits : entry < 2 ^ 64) :
    TaskAt (storeFields mem v.addr (loadedFields root entry)) (v.loaded root entry) := by
  refine FieldsAt.overwrite holds ?_ ?_ ?_
  · simp [loadedFields, Field.Apart]
  · simpa [loadedFields] using And.intro rootFits entryFits
  · simp [loadedFields, TaskView.fields, TaskView.loaded, Field.Apart]

theorem loadedFields_of_outside {mem : Mem} {t x root entry : Nat} (outside : x < t ∨ t + 96 ≤ x) :
    storeFields mem t (loadedFields root entry) x = mem x :=
  storeFields_of_outside 96 (by simp [loadedFields]) outside

theorem loadedFrame_of_outside {mem : Mem} {tf x entry : Nat} (outside : x < tf ∨ tf + trapFrameSize ≤ x) :
    storeFields mem tf (loadedFrame entry) x = mem x :=
  storeFields_of_outside trapFrameSize (by simp [loadedFrame]) outside

/-- The pages of a task once it has a new address space: it keeps its stacks, the
new tables and their pages become its own, and the old ones are lost. -/
noncomputable def adopt (t : Nat) (user : UserMap) (own : Nat → Owner) (q : Nat) : Owner :=
  open Classical in
  if own q = .table .pending then .table (.task t)
  else if own q = .data .pending then (if ∃ n, user n = some q then .data (.task t) else .lost)
  else if own q = .table (.task t) ∨ own q = .data (.task t) then .lost
  else own q

section

variable {t q : Nat} {user : UserMap} {own : Nat → Owner}

theorem adopt_table : adopt t user own q = .table (.task t) ↔ own q = .table .pending := by
  unfold adopt
  split
  · next here => simp [here]
  · split
    · next here => split <;> simp [here]
    · split
      · next here => rcases here with here | here <;> simp [here]
      · next other => simp_all

theorem adopt_data : adopt t user own q = .data (.task t) ↔ own q = .data .pending ∧ ∃ n, user n = some q := by
  unfold adopt
  split
  · next here => simp [here]
  · split
    · next here =>
        split
        · next mapped => simp [here, mapped]
        · next unmapped => simp [unmapped]
    · split
      · next other _ => simp [other]
      · next other => simp_all

/-- Pages that are neither the new space's nor the old one's keep their owner. -/
theorem adopt_other {o : Owner} (fresh : o ∉ pending) (table : o ≠ .table (.task t)) (data : o ≠ .data (.task t))
    (kept : o ≠ .lost) : adopt t user own q = o ↔ own q = o := by
  have notTable : Owner.table .pending ≠ o := by
    rintro rfl
    simp [pending] at fresh
  have notData : Owner.data .pending ≠ o := by
    rintro rfl
    simp [pending] at fresh
  unfold adopt
  split
  · next here => simp [here, notTable, table.symm]
  · split
    · next here => split <;> simp [here, notData, data.symm, kept.symm]
    · split
      · next here => rcases here with here | here <;> simp [here, table.symm, data.symm, kept.symm]
      · rfl

/-- Every page keeps its owner, or was the new or the old space's. -/
theorem adopt_cases (t : Nat) (user : UserMap) (own : Nat → Owner) (q : Nat) : adopt t user own q = own q ∨
    (own q ∈ pending ∧ (adopt t user own q = .lost ∨ adopt t user own q ∈ labels t)) ∨
    ((own q = .table (.task t) ∨ own q = .data (.task t)) ∧ adopt t user own q = .lost) := by
  unfold adopt
  split
  · next here => exact .inr (.inl ⟨by simp [here, pending], .inr (by simp [labels])⟩)
  · split
    · next here =>
        refine .inr (.inl ⟨by simp [here, pending], ?_⟩)
        split <;> simp [labels]
    · split
      · next here => exact .inr (.inr ⟨here, rfl⟩)
      · exact .inl rfl

theorem adopt_pending : adopt t user own q ∉ pending := by
  unfold adopt
  split
  · simp [pending]
  · split
    · split <;> simp [pending]
    · split
      · simp [pending]
      · next table data _ => simp [pending, table, data]

end

variable [Layout]

variable {own own' own'' : Nat → Owner} {free free' : List Nat} {s s' s'' : Kernel} {root : Nat} {dir : Directory}
  {user : UserMap}

/-- The address space that was filled is a task's. -/
theorem Loading.taskSpace (l : Loading root own free dir user s) {v : TaskView} {entry : Nat} {mem : Mem}
    {old : Directory} {oldUser : UserMap} (space : TaskSpace own s.mem old oldUser v)
    (stack : (user stackVpn).isSome) (same : ∀ x, own (pageOf x) = .table .pending → mem x = s.mem x) :
    TaskSpace (adopt v.addr user own) mem dir user (v.loaded root entry) where
  tables :=
    have tables := l.space.table.tables.congr l.space.table.pool (fun _ => Iff.rfl) same
    ⟨tables.tree, fun p => adopt_table.trans (tables.owned p)⟩
  leaves n := (l.space.table.tables.leafAt_congr l.space.table.pool same n).trans (l.space.leaves n)
  plain := l.space.plain
  low := l.low
  inj := l.inj
  mapped n p found := .inl (adopt_data.mpr ⟨l.mapped n p found, n, found⟩)
  data p here := (adopt_data.mp here).2
  kstack q := (adopt_other (by simp [pending]) (by simp) (by simp) (by simp)).trans (space.kstack q)
  ustack q := (adopt_other (by simp [pending]) (by simp) (by simp) (by simp)).trans (space.ustack q)
  kernelSp := space.kernelSp
  tf := space.tf
  userSp := rfl
  shape := .inr ⟨rfl, stack, fun n found => by
    have := l.mapped n _ found
    rw [show own (v.loaded root entry).userStack = .ustack v.addr from (space.ustack _).mpr rfl] at this
    simp at this⟩

/-- What a call of `sys_exec` that fails leaves behind: pages of the free list
may be lost. -/
structure ExecFailed (g : World) (s : Kernel) (g' : World) (s' : Kernel) : Prop where
  same : SameTasks g g'
  owner : ∀ q, g'.own q = g.own q ∨ (g.own q = .free ∧ g'.own q = .lost)
  bytes : ∀ x, g.own (pageOf x) ≠ .free → x ∉ node Layout.freePageList → s'.mem x = s.mem x
  globals : s' = { s with mem := s'.mem, nrFreePages := s'.nrFreePages, uart := s'.uart, derefs := s'.derefs }

/-- What a call of `sys_exec` that succeeds leaves behind. -/
structure Execed (g : World) (s : Kernel) (p : TaskView) (root entry : Nat) (g' : World) (s' : Kernel) : Prop where
  nonzero : entry ≠ 0
  tasks : g'.tasks = (g.modify p.addr (·.loaded root entry)).tasks
  queue : g'.queue = g.queue
  dir : ∀ a ≠ p.addr, g'.dir a = g.dir a
  user : ∀ a ≠ p.addr, g'.user a = g.user a
  kdir : g'.kdir = g.kdir
  loaded : LoadedMap (g'.user p.addr) p.userStack
  owner : ∀ q, g'.own q = g.own q ∨ (g.own q = .free ∧ (g'.own q = .lost ∨ g'.own q ∈ labels p.addr)) ∨
    ((g.own q = .table (.task p.addr) ∨ g.own q = .data (.task p.addr)) ∧ g'.own q = .lost)
  bytes : ∀ x, g.own (pageOf x) ≠ .free → g.own (pageOf x) ≠ .heap → x ∉ node Layout.freePageList →
    (x < p.tf ∨ p.tf + trapFrameSize ≤ x) → s'.mem x = s.mem x
  frame : ∀ x, p.tf ≤ x → x < p.tf + trapFrameSize → s'.mem x = storeFields s.mem p.tf (loadedFrame entry) x
  globals : s' = { s with
    mem := s'.mem, nrFreePages := s'.nrFreePages, uart := s'.uart, derefs := s'.derefs, satpRoot := root }

namespace WorldOf

variable {g : World} {p : TaskView}

/-- No page is being loaded between operations. -/
theorem not_pending (world : WorldAt ∅ g s) (q : Nat) : g.own q ∉ pending := by
  intro inside
  simp only [pending, Set.mem_insert_iff, Set.mem_singleton_iff] at inside
  rcases world.owners q with isCommon | ⟨v, _, labelled⟩ | inWip
  · rcases inside with here | here <;> simp [here, common] at isCommon
  · rcases inside with here | here <;> simp [here, labels] at labelled
  · exact inWip

/-- A world while a program is loaded. -/
theorem loads (world : WorldAt ∅ g s) (loads : Loads g.own s own' s') (pool' : Pool own' free' s') :
    ∃ g', WorldAt (∅ ∪ pending) g' s' ∧ SameTasks g g' ∧ g'.own = own' ∧ g'.free = free' := by
  have started : WorldAt (∅ ∪ pending) g s := by
    refine { world with owners := fun q => (world.owners q).imp id fun later => later.imp id False.elim,
                        foreign := fun o inside => ?_ }
    have inside := inside.resolve_left False.elim
    simp only [pending, Set.mem_insert_iff, Set.mem_singleton_iff] at inside
    rcases inside with rfl | rfl <;> simp [common, labels]
  have moves : PageMoves loading loading g.own s own' { s with mem := s'.mem, nrFreePages := s'.nrFreePages } :=
    ⟨loads.moves, rfl⟩
  have cells : ∀ o ∈ loading, o = .free ∨ o ∈ ∅ ∪ pending := fun o inside => inside.imp id .inr
  obtain ⟨g', world', same', owners', free', _⟩ := started.pageMoves moves (pool'.congr (fun _ _ => rfl) rfl) cells cells
  have globals := loads.globals
  refine ⟨g', world'.congr (fun _ _ => rfl) rfl ?_ ?_ ?_, same', owners', free'⟩ <;>
  · rw [globals]

/-- A page that was not free has its owner all along. -/
theorem loads_owner (world : WorldAt ∅ g s) (loads : Loads g.own s own' s') (q : Nat) :
    own' q = g.own q ∨ (g.own q = .free ∧ own' q ∈ loading) := by
  rcases loads.moves.owner q with same | ⟨before, after⟩
  · exact .inl same
  · exact .inr ⟨before.resolve_right (world.not_pending q), after⟩

/-- Pages that were not free keep their bytes. -/
theorem loads_bytes (world : WorldAt ∅ g s) (loads : Loads g.own s own' s') {x : Nat} (inUse : g.own (pageOf x) ≠ .free)
    (plain : x ∉ node Layout.freePageList) : s'.mem x = s.mem x :=
  loads.bytes (fun inside => inside.elim inUse (world.not_pending _)) plain

/-- A call that fails, with its tables given back. -/
theorem execFailed (world : WorldAt ∅ g s) (loads : Loads g.own s own' s') (pool' : Pool own' free' s')
    (tables : ∀ q, own' q ≠ .table .pending) : ∃ g', WorldAt ∅ g' s' ∧ ExecFailed g s g' s' ∧
      (∀ q, g'.own q = .lost ↔ g.own q = .lost ∨ own' q = .data .pending) := by
  obtain ⟨g₁, world₁, same₁, owners₁, _⟩ := world.loads loads pool'
  obtain ⟨own₂, is₂⟩ : ∃ own₂ : Nat → Owner, ∀ q, own₂ q = if own' q = .data .pending then .lost else own' q :=
    ⟨_, fun _ => rfl⟩
  obtain ⟨g₂, world₂, same₂, owners₂, _⟩ := world₁.settle own₂ (fun q => by
      rw [is₂, owners₁]
      split
      · next here => exact .inr ⟨by simp [here, pending], rfl⟩
      · exact .inl rfl) fun q inside => by
    rw [is₂] at inside
    split at inside
    · simp [pending] at inside
    · next other => exact inside.elim (tables q) other
  refine ⟨g₂, world₂, ⟨same₁.trans same₂, fun q => ?_, fun x inUse plain => world.loads_bytes loads inUse plain,
    loads.globals⟩, fun q => ?_⟩
  · rw [owners₂, is₂]
    rcases world.loads_owner loads q with same | ⟨isFree, after⟩
    · rw [same, if_neg fun here => world.not_pending q (by simp [here, pending])]
      exact .inl rfl
    · split
      · exact .inr ⟨isFree, rfl⟩
      · next other =>
          rcases after with here | here | here
          · exact .inl (here.trans isFree.symm)
          · exact absurd here (tables q)
          · exact absurd here other
  · rw [owners₂, is₂]
    split
    · next here => simp [here]
    · next other =>
        have := loads.own_iff (o := .lost) (by simp [loading]) q
        simp [other, this]

/-- A call that succeeds, from the last allocation on. -/
theorem execCommit (world : WorldAt ∅ g s) (member : p ∈ g.tasks) (current : s.current = p.addr) {filename entry : Nat}
    (nonzero : entry ≠ 0) (fits : entry < 2 ^ 64) (l : Loading root own' free' dir user s') (loads : Loads g.own s own' s')
    (stack : (user stackVpn).isSome) :
    wp (do
      execCommit s'.current root entry p.tf
      vmSwitch root
      printkUser filename
      return (0 : Int)) s' (fun r s'' => r = 0 ∧ ∃ g', WorldAt ∅ g' s'' ∧ Execed g s p root entry g' s'') fun _ _ => True := by
  have current' : s'.current = p.addr := by rw [loads.globals, current]
  obtain ⟨g₁, world₁, same₁, owners₁, _⟩ := world.loads loads l.space.table.pool
  have member₁ : p ∈ g₁.tasks := by rwa [same₁.tasks]
  have home := world₁.task_home member₁
  have space₁ := world₁.space p member₁
  have rootBounds := (l.space.table.tables.page l.space.table.pool l.space.table.tables.tree.root_mem).bounds
  have structHeap : ∀ x, own' (pageOf x) ≠ .heap → x < p.addr ∨ p.addr + 96 ≤ x := fun x notHeap => by
    have := world₁.struct_heap home (owners₁ ▸ notHeap)
    simp only [taskSize] at this
    omega
  obtain ⟨mid, isMid⟩ : ∃ mid, mid = storeFields s'.mem p.addr (loadedFields root entry) := ⟨_, rfl⟩
  have midSame : ∀ x, own' (pageOf x) ≠ .heap → mid x = s'.mem x := fun x notHeap => by
    rw [isMid]
    exact loadedFields_of_outside (structHeap x notHeap)
  obtain ⟨becomes, isBecomes⟩ : ∃ becomes : TaskView → TaskView, becomes = fun v => v.loaded root entry := ⟨_, rfl⟩
  obtain ⟨g₂, isWorld⟩ : ∃ g₂, g₂ = g₁.replace p.addr becomes (adopt p.addr user own') dir user := ⟨_, rfl⟩
  have owners₂ : g₂.own = adopt p.addr user own' := by rw [isWorld]; rfl
  have space₂ : TaskSpace (adopt p.addr user own') mid dir user (becomes p) := by
    rw [isBecomes]
    exact l.taskSpace (owners₁ ▸ space₁) stack fun x here => midSame x (by simp [here])
  have world₂ : WorldAt ∅ g₂ { s' with mem := mid } := by
    rw [isWorld]
    refine world₁.replace member₁ (fun v => ?_) (fun isZombie => .inl ?_) (fun x outside => ?_) ?_ (fun q => ?_)
      (fun _ => adopt_pending) space₂
    · rw [isBecomes]
      rfl
    · rw [isBecomes] at isZombie
      exact isZombie
    · rw [isMid]
      exact loadedFields_of_outside (by omega)
    · rw [isMid, isBecomes]
      exact (world₁.view p member₁).loaded (by omega) fits
    · rw [owners₁]
      rcases adopt_cases p.addr user _ q with same | ⟨inside, after⟩ | ⟨inside, after⟩
      · exact .inl same
      · exact .inr ⟨.inr inside, after⟩
      · exact .inr ⟨.inl (by rcases inside with here | here <;> simp [here, labels]), .inl after⟩
  -- the frame is in the task's kernel stack
  have stackOwner : own' p.kernelStack = .kstack p.addr := by
    rw [← owners₁]
    exact (space₁.kstack _).mpr rfl
  have stackBounds := (l.space.table.pool.pages p.kernelStack (by simp [stackOwner])).bounds
  have top := space₁.tf
  have inFrame : ∀ x, p.tf ≤ x → x < p.tf + trapFrameSize → own' (pageOf x) = .kstack p.addr := fun x low high => by
    rw [pageOf_of_mem stackBounds.1 (by simp only [trapFrameSize, pageSize] at *; omega)
      (by simp only [trapFrameSize, pageSize] at *; omega), stackOwner]
  obtain ⟨last, isLast⟩ : ∃ last, last = storeFields mid p.tf (loadedFrame entry) := ⟨_, rfl⟩
  have lastSame : ∀ x, (x < p.tf ∨ p.tf + trapFrameSize ≤ x) → last x = mid x := fun x outside => by
    rw [isLast]
    exact loadedFrame_of_outside outside
  have world₃ : WorldAt ∅ g₂ { s' with mem := last } := by
    refine world₂.congr_pages fun x kind => lastSame x ?_
    by_contra touch
    have here : g₂.own (pageOf x) = .kstack p.addr := by
      rw [owners₂]
      exact (adopt_other (by simp [pending]) (by simp) (by simp) (by simp)).mpr (inFrame x (by omega) (by omega))
    rcases kind with other | other | other | ⟨_, other⟩ <;>
    · rw [here] at other
      simp at other
  rw [wp_bind, current', wp_execCommit, ← isMid, ← isLast]
  unfold vmSwitch
  simp only [wp_bind, wp_kassert, wp_modify]
  rw [if_pos (by omega), if_pos (pageAligned_iff.mpr rootBounds.1)]
  refine wp_mono (Looks.printkUser filename _) ?_ fun _ _ => id
  rintro _ s'' looked
  rw [wp_pure]
  have mem'' : s''.mem = last := looked.mem
  refine ⟨rfl, g₂, world₃.congr (fun x _ => by rw [mem'']) (by rw [looked]) (by rw [looked]) (by rw [looked]) (by rw [looked]),
    nonzero, ?_, by rw [isWorld]; exact same₁.queue, fun a other => ?_, fun a other => ?_, by rw [isWorld]; exact same₁.kdir,
    ?_, fun q => ?_, fun x notFree notHeap plain outside => ?_, fun x low high => ?_, ?_⟩
  · rw [isWorld, isBecomes]
    simp only [World.replace, World.modify, same₁.tasks]
  · rw [isWorld]
    exact (Function.update_of_ne other _ _).trans (congrFun same₁.dir a)
  · rw [isWorld]
    exact (Function.update_of_ne other _ _).trans (congrFun same₁.user a)
  · rw [show g₂.user p.addr = user by rw [isWorld]; exact Function.update_self _ _ _]
    refine ⟨stack, fun n found => ?_⟩
    have := l.mapped n _ found
    rw [← owners₁, (space₁.ustack _).mpr rfl] at this
    simp at this
  · rw [owners₂]
    rcases adopt_cases p.addr user own' q with same | ⟨inside, after⟩ | ⟨inside, after⟩
    · refine .inl (same.trans ?_)
      rcases world.loads_owner loads q with kept | ⟨isFree, isFree' | inside⟩
      · exact kept
      · exact isFree'.trans isFree.symm
      · exact absurd (same ▸ inside) adopt_pending
    · rcases world.loads_owner loads q with kept | ⟨isFree, _⟩
      · exact absurd (kept ▸ inside) (world.not_pending q)
      · exact .inr (.inl ⟨isFree, after⟩)
    · exact .inr (.inr ⟨inside.imp (loads.own_iff (by simp [loading]) q).mp (loads.own_iff (by simp [loading]) q).mp, after⟩)
  · rw [mem'', lastSame x outside, midSame x, world.loads_bytes loads notFree plain]
    intro here
    exact notHeap ((loads.own_iff (by simp [loading]) _).mp here)
  · have inStack := inFrame x low high
    have before : g.own (pageOf x) = .kstack p.addr := (loads.own_iff (by simp [loading]) _).mp inStack
    rw [mem'', isLast]
    refine storeFields_congr _ ((midSame x (by simp [inStack])).trans (world.loads_bytes loads (by simp [before]) ?_))
    exact world.heap.pool.not_head (by simp [before])
  · have globals := loads.globals
    unfold Looked at looked
    rw [looked]
    generalize s''.uart = u, s''.derefs = d, s'.nrFreePages = n at *
    rw [globals]

/-- What a call of `sys_exec` by a task leaves behind. -/
def ExecOutcome (g : World) (s : Kernel) (p : TaskView) (r : Int) (s' : Kernel) : Prop :=
  ∃ g', WorldAt ∅ g' s' ∧ ((r = -1 ∧ ExecFailed g s g' s') ∨ (r = 0 ∧ ∃ root entry, Execed g s p root entry g' s'))

/-- A call that fails once it has tables. -/
theorem execGiveUp (world : WorldAt ∅ g s) (l : Loading root own' free' dir user s') (loads : Loads g.own s own' s') :
    wp (do pgtableFreeWalk root; return (-1 : Int)) s' (ExecOutcome g s p) fun _ _ => True := by
  refine wp_bind_of l.freeWalk ?_
  rintro _ s'' ⟨own'', free'', pool'', loads'', tables, _⟩
  rw [wp_pure]
  obtain ⟨g', world', failed, _⟩ := world.execFailed (loads.trans loads'') pool'' tables
  exact ⟨g', world', .inl ⟨rfl, failed⟩⟩

/-- `sys_exec` from the user stack on. -/
theorem execStack_spec (world : WorldAt ∅ g s) (member : p ∈ g.tasks) (current : s.current = p.addr)
    {filename entry : Nat} (nonzero : entry ≠ 0) (fits : entry < 2 ^ 64) (l : Loading root own' free' dir user s')
    (loads : Loads g.own s own' s') :
    wp (execStack filename p.tf root entry) s' (ExecOutcome g s p) fun _ _ => True := by
  unfold execStack
  refine wp_bind_of l.alloc ?_
  rintro page s₁ (⟨_, rfl, rfl⟩ | ⟨own₁, free₁, _, valid, l₁, loads₁, _, isData, unmapped, _⟩)
  · rw [if_pos rfl]
    exact world.execGiveUp l loads
  have bounds := valid.bounds
  rw [if_neg (by omega), wp_bind, wp_modifyMem]
  obtain ⟨s₂, is₂⟩ : ∃ s₂ : Kernel, s₂ = { s₁ with mem := memZero s₁.mem page pageSize } := ⟨_, rfl⟩
  have zeroed : ∀ x, pageOf x ≠ page → s₂.mem x = s₁.mem x := fun x other => by
    rw [is₂]
    refine (memZero_apply (by simp only [pageSize]; omega)).trans (if_neg fun touch => other ?_)
    exact pageOf_of_mem bounds.1 touch.1 (by simpa using touch.2)
  have l₂ : Loading root own₁ free₁ dir user s₂ := l₁.write (by rw [is₂]) fun x other =>
    zeroed x (by rintro rfl; exact other isData)
  have loads₂ : Loads g.own s own₁ s₂ := (loads.trans loads₁).trans ⟨.of_bytes fun x foreign _ => zeroed x (by
    rintro rfl
    simp [isData, loading] at foreign), by rw [is₂]⟩
  rw [← is₂]
  have isUser : pageUser ||| pageWrite = pageUser := by decide
  have mapping : wp (pgtableMap root (4096 * stackVpn) page pageSize (pageUser ||| pageWrite)) s₂ _ fun _ _ => True :=
    l₂.map (by decide) isUser isData unmapped
  refine wp_bind_of mapping ?_
  rintro r s₃ ⟨own₃, free₃, dir₃, loads₃, isData₃, _, ⟨rfl, l₃, _⟩ | ⟨refused, l₃, _⟩⟩
  · have current₃ : s₃.current ≠ 0 := by
      rw [(loads₂.trans loads₃).globals]
      exact current ▸ world.addr_ne_zero member
    rw [if_neg (by simp), wp_bind, wp_get, if_neg current₃]
    refine wp_mono (world.execCommit member current nonzero fits l₃ (loads₂.trans loads₃) (by simp [UserMap.add])) ?_
      fun _ _ => id
    rintro r s'' ⟨rfl, g', world', execed⟩
    exact ⟨g', world', .inr ⟨rfl, root, entry, execed⟩⟩
  · rw [if_pos refused]
    refine wp_bind_of (l₃.release isData₃ unmapped) ?_
    rintro _ s₄ ⟨own₄, l₄, loads₄, _⟩
    exact world.execGiveUp l₄ ((loads₂.trans loads₃).trans loads₄)

/-- `sys_exec` from the page table on. -/
theorem execLoad_spec (world : WorldAt ∅ g s) (member : p ∈ g.tasks) (current : s.current = p.addr)
    {filename elfData : Nat} (looked : Looked s s') :
    wp (execLoad filename p.tf elfData) s' (ExecOutcome g s p) fun _ _ => True := by
  have loads : Loads g.own s g.own s' := .of_looked looked
  have pool : Pool g.own g.free s' := world.heap.pool.congr (fun x _ => by rw [looked.mem]) (by rw [looked])
  have unused := world.not_pending
  unfold execLoad
  refine wp_bind_of (pgtableCreate_spec pool (o := .table .pending) (by simp)) ?_
  rintro root s₁ (⟨_, rfl, rfl⟩ | ⟨free₁, _, valid, was, pool₁, moves₁, clear⟩)
  · rw [if_pos rfl, wp_pure]
    obtain ⟨g', world', failed, _⟩ := world.execFailed loads pool fun q here => unused q (by simp [here, pending])
    exact ⟨g', world', .inl ⟨rfl, failed⟩⟩
  have bounds := valid.bounds
  have loads₁ : Loads g.own s (Function.update g.own root (.table .pending)) s₁ := loads.trans (.of_pageMoves moves₁
    (by rintro o (rfl | rfl) <;> simp [loading]) (by rintro o rfl; simp [loading]))
  have isTable : ∀ q, Function.update g.own root (.table .pending) q = .table .pending ↔ q = root := fun q => by
    by_cases equal : q = root
    · simp [equal]
    · rw [Function.update_of_ne equal]
      exact iff_of_false (fun here => unused q (by simp [here, pending])) equal
  have st : TableState .pending root (Function.update g.own root (.table .pending)) free₁ (.single root) s₁ :=
    ⟨.single isTable fun i low => Mem.load_zero fun x first last => clear x (by omega) (by omega), pool₁⟩
  rw [if_neg (by omega)]
  refine wp_bind_of (vmMapKernel_spec st) ?_
  rintro r s₂ ⟨own₂, free₂, dir₂, st₂, moves₂, outcome⟩
  have loads₂ : Loads g.own s own₂ s₂ := loads₁.trans (.of_pageMoves moves₂
    (by rintro o (rfl | rfl) <;> simp [loading]) (by rintro o (rfl | rfl) <;> simp [loading]))
  rcases outcome with ⟨rfl, space₂, _, _⟩ | ⟨refused, _⟩
  · have l₂ : Loading root own₂ free₂ dir₂ (fun _ => none) s₂ := ⟨space₂, by simp, by simp, by simp⟩
    rw [if_neg (by simp)]
    refine wp_bind_of (elfLoad_spec l₂) ?_
    rintro entry s₃ ⟨⟨own₃, free₃, dir₃, user₃, l₃, loads₃⟩, small⟩
    by_cases zero : entry = 0
    · rw [if_pos zero]
      exact world.execGiveUp l₃ (loads₂.trans loads₃)
    · rw [if_neg zero]
      exact world.execStack_spec member current zero small l₃ (loads₂.trans loads₃)
  · rw [if_pos refused]
    refine wp_bind_of (pgtableFreeWalk_spec st₂.tables st₂.pool) ?_
    rintro _ s₃ ⟨own₃, free₃, pool₃, releases⟩
    have loads₃ : Loads own₂ s₂ own₃ s₃ := .of_pageMoves (C := loading) (W := loading)
      (releases.pageMoves (fun q inside => by
        rw [show own₂ q = .table .pending from inside]
        simp [loading]) (by simp [loading]) (by simp [loading]) fun _ => id) (fun _ => id) fun _ => id
    obtain ⟨g', world', failed, _⟩ := world.execFailed (loads₂.trans loads₃) pool₃ fun q here => by
      by_cases inside : own₂ q = .table .pending
      · simp [(releases.owner q).1 inside] at here
      · rw [(releases.owner q).2 inside] at here
        exact inside here
    rw [wp_pure]
    exact ⟨g', world', .inl ⟨rfl, failed⟩⟩

/-- `sys_exec` by a task on the list, whatever the name and the file are. -/
theorem sysExec_spec (world : WorldAt ∅ g s) (member : p ∈ g.tasks) (current : s.current = p.addr) (filename : Nat) :
    wp (sysExec filename p.tf) s (ExecOutcome g s p) fun _ _ => True := by
  have gaveUp : ∀ s', Looked s s' → ExecOutcome g s p (-1) s' := fun s' looked => by
    obtain ⟨g', world', failed, _⟩ := world.execFailed (.of_looked looked)
      (world.heap.pool.congr (fun x _ => by rw [looked.mem]) (by rw [looked])) fun q here =>
        world.not_pending q (by simp [here, pending])
    exact ⟨g', world', .inl ⟨rfl, failed⟩⟩
  unfold sysExec
  refine (Looks.initrdFind filename).before fun found s₁ looked₁ => ?_
  obtain ⟨elfData, elfSize⟩ := found
  dsimp only
  by_cases missing : elfData = 0
  · rw [if_pos missing]
    refine (Looks.printkUser filename).before fun _ s₂ looked₂ => ?_
    rw [wp_pure]
    exact gaveUp s₂ (looked₁.trans looked₂)
  rw [if_neg missing]
  refine (Looks.elfVerify elfData elfSize).before fun verified s₂ looked₂ => ?_
  by_cases refused : verified = false
  · rw [if_pos refused, wp_pure]
    exact gaveUp s₂ (looked₁.trans looked₂)
  · rw [if_neg refused]
    exact world.execLoad_spec member current (looked₁.trans looked₂)

end WorldOf

end KuroOS
