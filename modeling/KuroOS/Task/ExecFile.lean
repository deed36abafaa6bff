import KuroOS.Initrd.Find
import KuroOS.Task.ElfPages

/-!
# `sys_exec` of a well-formed file

What `sys_exec` leaves when the file that it finds is well formed: it fails for
want of pages or room, or the task's new page table holds the program. Once that
table is active only the printing of the name can stop the kernel.
-/

namespace KuroOS

open Base

/-- How a program that reads strings may stop: at an address that is not mapped,
or never. -/
def ReadHalt : Halt → Prop
  | .fault _ => True
  | .hang => True
  | _ => False

/-- A program that only looks, also when it stops at an address. -/
def Reads {α : Type} (program : K α) : Prop :=
  ∀ s, wp program s (fun _ s' => Looked s s') fun reason s' => ReadHalt reason ∧ Looked s s'

namespace Reads

variable {α β : Type} {program : K α}

theorem pure (value : α) : Reads (Pure.pure value : K α) := fun s => by
  rw [wp_pure]
  exact .refl s

theorem bind {next : α → K β} (first : Reads program) (rest : ∀ value, Reads (next value)) : Reads (program >>= next) :=
  fun s => by
  rw [wp_bind]
  exact wp_mono (first s) (fun value _ looked =>
    wp_mono (rest value _) (fun _ _ later => looked.trans later) fun _ _ ⟨reads, later⟩ => ⟨reads, looked.trans later⟩)
    fun _ _ => id

theorem ite {condition : Prop} [Decidable condition] {yes no : K α} (left : Reads yes) (right : Reads no) :
    Reads (if condition then yes else no) := by
  split
  · exact left
  · exact right

theorem uartRead (register : Nat) : Reads (KuroOS.uartRead register) := fun s => by
  unfold KuroOS.uartRead
  rw [wp_bind, wp_get]
  split
  · exact Reads.pure _ s
  · split
    · rw [wp_bind, wp_set, wp_pure]
      rfl
    · exact Reads.ite (.pure _) (.pure _) s

theorem readVirtual (va : Nat) : Reads (KuroOS.readVirtual va) := fun s => by
  unfold KuroOS.readVirtual
  rw [wp_bind, wp_get]
  cases sv39 s.mem s.satpRoot va .read with
  | none =>
      dsimp only
      rw [wp_throw]
      exact ⟨trivial, .refl s⟩
  | some pa => exact Reads.ite (uartRead _) (.pure _) s

theorem readUser (va : Nat) : Reads (KuroOS.readUser va) :=
  .bind (fun s => by
    unfold recordDeref
    rw [wp_modify]
    exact rfl) fun _ => readVirtual va

theorem uartWrite (register : Nat) (byte : UInt8) : Reads (KuroOS.uartWrite register byte) :=
  .ite (fun s => by
    rw [wp_modify]
    exact rfl) (.pure _)

/-- `uart_puts`. -/
theorem uartPutsUser (fuel va : Nat) : Reads (KuroOS.uartPutsUser fuel va) := by
  induction fuel generalizing va with
  | zero =>
      intro s
      rw [KuroOS.uartPutsUser, wp_throw]
      exact ⟨trivial, .refl s⟩
  | succ fuel ih =>
      have rest (byte : UInt8) : Reads (do KuroOS.uartWrite uartData byte; KuroOS.uartPutsUser fuel (wadd va 1)) :=
        .bind (uartWrite _ _) fun _ => ih _
      exact .bind (readUser va) fun byte => .ite (.pure _) (.ite (.bind (uartWrite _ _) fun _ => rest byte) (rest byte))

theorem printkUser (va : Nat) : Reads (KuroOS.printkUser va) := .ite (uartPutsUser _ va) (.pure _)

end Reads

section

variable [Layout]

variable {g : World} {p : TaskView} {own own' : Nat → Owner} {free free' : List Nat} {s s' s'' : Kernel} {root elfData size entry : Nat}
  {dir : Directory} {user : UserMap} {file : Mem}

/-- The fields that `sys_exec` stores are not in the new space. -/
theorem WorldOf.commit_outside (world : WorldAt ∅ g s) (member : p ∈ g.tasks) (pool' : Pool own' free' s')
    (loads : Loads g.own s own' s') {x : Nat} (kind : own' (pageOf x) = .table .pending ∨ own' (pageOf x) = .data .pending ∨
      own' (pageOf x) = .free ∨ x ∈ node Layout.freePageList) :
    storeFields (storeFields s'.mem p.addr (loadedFields root entry)) p.tf (loadedFrame entry) x = s'.mem x := by
  obtain ⟨g₁, world₁, same₁, owners₁, _⟩ := world.loads loads pool'
  have member₁ : p ∈ g₁.tasks := by rwa [same₁.tasks]
  have space₁ := world₁.space p member₁
  have foreign : own' (pageOf x) ≠ .heap ∧ own' (pageOf x) ≠ .kstack p.addr := by
    rcases kind with here | here | here | isHead
    · simp [here]
    · simp [here]
    · simp [here]
    · have here := WorldOf.head_outside pool' (by simp) isHead
      simp [here]
  have stackOwner : own' p.kernelStack = .kstack p.addr := by
    rw [← owners₁]
    exact (space₁.kstack _).mpr rfl
  have stackBounds := (pool'.pages p.kernelStack (by simp [stackOwner])).bounds
  have top := space₁.tf
  have notFrame : x < p.tf ∨ p.tf + trapFrameSize ≤ x := by
    by_contra touch
    refine foreign.2 ?_
    rw [pageOf_of_mem stackBounds.1 (by simp only [trapFrameSize, pageSize] at *; omega)
      (by simp only [trapFrameSize, pageSize] at *; omega), stackOwner]
  have notStruct := world₁.struct_heap (world₁.task_home member₁) (owners₁ ▸ foreign.1)
  simp only [taskSize] at notStruct
  rw [loadedFrame_of_outside notFrame, loadedFields_of_outside (by omega)]

/-- `sys_exec` from the user stack on, up to its last line; `true` once the task has its
new address space. -/
def execStackCommit (tf newPagetable entry : Nat) : K Bool := do
  let newStack ← pageAlloc
  if newStack = 0 then
    pgtableFreeWalk newPagetable
    return false
  else
    modifyMem (memZero · newStack pageSize)
    if (← pgtableMap newPagetable (userStackTop - pageSize) newStack pageSize
        (pageUser ||| pageWrite)) ≠ 0 then
      pageFree newStack
      pgtableFreeWalk newPagetable
      return false
    else
      let task := (← get).current
      if task = 0 then
        pageFree newStack
        pgtableFreeWalk newPagetable
        return false
      else
        execCommit task newPagetable entry tf
        vmSwitch newPagetable
        return true

/-- `sys_exec` from the page table on, up to its last line. -/
def execLoadCommit (tf elfData : Nat) : K Bool := do
  let newPagetable ← pgtableCreate
  if newPagetable = 0 then
    return false
  else if (← vmMapKernel newPagetable) ≠ 0 then
    pgtableFreeWalk newPagetable
    return false
  else
    let entry ← elfLoad newPagetable elfData
    if entry = 0 then
      pgtableFreeWalk newPagetable
      return false
    else
      execStackCommit tf newPagetable entry

/-- The last line of `sys_exec`, and its result. -/
def execReport (filename : Nat) (done : Bool) : K Int :=
  if done then do
    printkUser filename
    return 0
  else
    return -1

theorem execStack_eq (filename tf newPagetable entry : Nat) :
    execStack filename tf newPagetable entry = execStackCommit tf newPagetable entry >>= execReport filename := by
  unfold execStack execStackCommit
  rw [bind_assoc]
  congr 1
  funext newStack
  split
  · rw [bind_assoc]
    rfl
  · rw [bind_assoc]
    congr 1
    funext _
    rw [bind_assoc]
    congr 1
    funext mapped
    split
    · simp only [bind_assoc]
      rfl
    · rw [bind_assoc]
      congr 1
      funext s
      dsimp only
      split
      · simp only [bind_assoc]
        rfl
      · simp only [bind_assoc]
        rfl

theorem execLoad_eq (filename tf elfData : Nat) :
    execLoad filename tf elfData = execLoadCommit tf elfData >>= execReport filename := by
  unfold execLoad execLoadCommit
  rw [bind_assoc]
  congr 1
  funext newPagetable
  split
  · rfl
  · rw [bind_assoc]
    congr 1
    funext mapped
    split
    · rw [bind_assoc]
      rfl
    · rw [bind_assoc]
      congr 1
      funext entry
      split
      · rw [bind_assoc]
        rfl
      · exact execStack_eq ..

/-- The program is in place, with a stack: the new page table is the active one. -/
structure Committed (root : Nat) (user : UserMap) (s s' : Kernel) : Prop where
  active : s'.satpRoot = root
  room : user stackVpn = none
  space : ∃ own free dir page, Loading root own free dir (user.add stackVpn page) s' ∧
    Grows user s.mem (user.add stackVpn page) s'.mem

/-- The page of the new user stack holds zeros. -/
def StackClear (s : Kernel) : Prop := ∃ page, UserLeaf s.mem s.satpRoot stackVpn page ∧ ∀ k < 4096, s.mem (page + k) = 0

omit [Layout] in
theorem StackClear.looked (clear : StackClear s) (looked : Looked s s') : StackClear s' := by
  unfold Looked at looked
  rw [looked]
  exact clear

/-- The last stores of `sys_exec` leave the new space alone, and it becomes the active one. -/
theorem WorldOf.execCommit_of (world : WorldAt ∅ g s) (member : p ∈ g.tasks) (l : Loading root own free dir user s')
    (loads : Loads g.own s own s') {halt : Halt → Kernel → Prop} :
    wp (do
      KuroOS.execCommit p.addr root entry p.tf
      vmSwitch root
      return true) s' (fun done s'' => done = true ∧ s''.satpRoot = root ∧ Loading root own free dir user s'' ∧
        ∀ x, own (pageOf x) = .data .pending → s''.mem x = s'.mem x) halt := by
  have rootBounds := (l.space.table.tables.page l.space.table.pool l.space.table.tables.tree.root_mem).bounds
  obtain ⟨last, isLast⟩ : ∃ last, last = storeFields (storeFields s'.mem p.addr (loadedFields root entry)) p.tf (loadedFrame entry) :=
    ⟨_, rfl⟩
  have outside : ∀ x, own (pageOf x) = .table .pending ∨ own (pageOf x) = .data .pending ∨ own (pageOf x) = .free ∨
      x ∈ node Layout.freePageList → last x = s'.mem x := fun x kind => by
    rw [isLast]
    exact world.commit_outside member l.space.table.pool loads kind
  rw [wp_bind, wp_execCommit, ← isLast]
  unfold vmSwitch
  simp only [wp_bind, wp_kassert, wp_modify]
  rw [if_pos (by omega), if_pos (pageAligned_iff.mpr rootBounds.1), wp_pure]
  exact ⟨rfl, rfl, l.congr rfl fun x kind => outside x (kind.imp id .inr), fun x isData => outside x (.inr (.inl isData))⟩

/-- `sys_exec` from the user stack to its last line. -/
theorem WorldOf.execStackCommit_of (world : WorldAt ∅ g s) (member : p ∈ g.tasks) (current : s.current = p.addr)
    (l : Loading root own free dir user s') (loads : Loads g.own s own s') {halt : Halt → Kernel → Prop} :
    wp (execStackCommit p.tf root entry) s' (fun done s'' =>
      (done = true ∧ Committed root user s' s'' ∧ StackClear s'' ∧ free.length ≤ s''.nrFreePages + 3) ∨
      (done = false ∧ (user stackVpn ≠ none ∨ free.length < 3))) halt := by
  unfold execStackCommit
  refine wp_bind_of l.alloc ?_
  rintro page s₁ (⟨empty, rfl, rfl⟩ | ⟨own₁, free₁, shape, valid, l₁, loads₁, _, isData, unmapped, keeps₁⟩)
  · rw [if_pos rfl]
    refine wp_bind_of l.freeWalk ?_
    rintro _ s₂ _
    rw [wp_pure]
    exact .inr ⟨rfl, .inr (by simp [empty])⟩
  have bounds := valid.bounds
  rw [if_neg (by omega), wp_bind, wp_modifyMem]
  obtain ⟨s₂, is₂⟩ : ∃ s₂ : Kernel, s₂ = { s₁ with mem := memZero s₁.mem page pageSize } := ⟨_, rfl⟩
  have cleared : ∀ x, s₂.mem x = if page ≤ x ∧ x < page + pageSize then 0 else s₁.mem x := fun x => by
    rw [is₂]
    exact memZero_apply (by simp only [pageSize]; omega)
  have zeroed : ∀ x, pageOf x ≠ page → s₂.mem x = s₁.mem x := fun x other =>
    (cleared x).trans (if_neg fun touch => other (pageOf_of_mem bounds.1 touch.1 (by simpa using touch.2)))
  have l₂ : Loading root own₁ free₁ dir user s₂ := l₁.write (by rw [is₂]) fun x other =>
    zeroed x (by rintro rfl; exact other isData)
  have loads₂ : Loads g.own s own₁ s₂ := (loads.trans loads₁).trans ⟨.of_bytes fun x foreign _ => zeroed x (by
    rintro rfl
    simp [isData, loading] at foreign), by rw [is₂]⟩
  rw [← is₂]
  have isUser : pageUser ||| pageWrite = pageUser := by decide
  refine wp_bind_of (l₂.map (n := stackVpn) (by decide) isUser isData unmapped) ?_
  rintro r s₃ ⟨own₃, free₃, dir₃, loads₃, isData₃, keeps₃, ⟨rfl, l₃, absent, few⟩ | ⟨refused, l₃, why⟩⟩
  · have total := loads₂.trans loads₃
    have left : free.length ≤ free₃.length + 3 := by
      rw [shape, List.length_cons]
      omega
    have current₃ : s₃.current = p.addr := by rw [total.globals, current]
    rw [if_neg (by simp), wp_bind, wp_get, if_neg (current₃ ▸ world.addr_ne_zero member), current₃]
    refine wp_mono (world.execCommit_of member l₃ total) ?_ fun _ _ => id
    rintro done s₄ ⟨rfl, active, l₄, keeps₄⟩
    refine .inl ⟨rfl, ⟨active, absent, own₃, free₃, dir₃, page, l₄, fun n q found => ?_⟩, ⟨page, ?_, fun k low => ?_⟩, l₄.space.table.pool.count ▸ left⟩
    · have other : n ≠ stackVpn := by
        rintro rfl
        simp [absent] at found
      have found₃ : user.add stackVpn page n = some q := by rwa [UserMap.add, Function.update_of_ne other]
      refine ⟨found₃, fun k low => ?_⟩
      have aligned := (l.space.table.pool.pages q (by simp [l.mapped n q found])).1
      have here : pageOf (q + k) = q := pageOf_of_mem aligned (by omega) (by omega)
      have ne : q ≠ page := by
        rintro rfl
        exact unmapped n found
      rw [keeps₄ _ (by rw [here]; exact l₃.mapped n q found₃), keeps₃ _ (by rw [here]; exact l₁.mapped n q found),
        zeroed _ (by rwa [here]), keeps₁ _ (by rw [here]; exact l.mapped n q found)]
    · rw [active]
      exact (l₄.userLeaf (by decide)).mpr (Function.update_self ..)
    · have here : pageOf (page + k) = page := pageOf_of_mem bounds.1 (by omega) (by omega)
      rw [keeps₄ _ (by rw [here]; exact isData₃), keeps₃ _ (by rw [here]; exact isData), cleared,
        if_pos ⟨by omega, by simp only [pageSize]; omega⟩]
  · rw [if_pos refused]
    refine wp_bind_of (l₃.release isData₃ unmapped) ?_
    rintro _ s₄ ⟨own₄, l₄, _⟩
    refine wp_bind_of l₄.freeWalk ?_
    rintro _ s₅ _
    rw [wp_pure]
    refine .inr ⟨rfl, why.imp id ?_⟩
    rw [shape, List.length_cons]
    rintro (kernel | short)
    · exact absurd kernel (by decide)
    · omega

/-- The program of a file is in place, below a stack. -/
structure Replaced (file : Mem) (s : Kernel) : Prop where
  fits : Fits (fun _ => none) file 0
  stack : stackVpn ∉ elfVpns file 0
  space : ∃ own free dir user, Loading s.satpRoot own free dir user s ∧
    (∀ k < elfPhnum file, ∀ n ∈ (elfSegment file k).vpns, Placed (elfSegment file k) file user s.mem n) ∧
    ∀ n, user n ≠ none → n ∈ elfVpns file 0 ∨ n = stackVpn

/-- A program that was loaded and committed is in place. -/
theorem Committed.replaced (committed : Committed root user s s') (fits : Fits (fun _ => none) file 0)
    (placed : ∀ k < elfPhnum file, ∀ n ∈ (elfSegment file k).vpns, Placed (elfSegment file k) file user s.mem n)
    (reach : ∀ n, user n ≠ none → n ∈ elfVpns file 0) : Replaced file s' := by
  obtain ⟨rfl, room, own, free, dir, page, l, grows⟩ := committed
  refine ⟨fits, ?_, own, free, dir, _, l, fun k inside n member => (placed k inside n member).grows grows, fun n some => ?_⟩
  · rintro ⟨k, _, inside, member⟩
    obtain ⟨q, found, _⟩ := placed k inside stackVpn member
    simp [room] at found
  · by_cases here : n = stackVpn
    · exact .inr here
    · rw [UserMap.add, Function.update_of_ne here] at some
      exact .inl (reach n some)

theorem Replaced.looked (replaced : Replaced file s) (looked : Looked s s') : Replaced file s' := by
  obtain ⟨fits, stack, own, free, dir, user, l, placed, reach⟩ := replaced
  refine ⟨fits, stack, own, free, dir, user, looked.root ▸ l.looked looked, ?_, reach⟩
  rw [looked.mem]
  exact placed

/-- What `sys_exec` returns for a well-formed file, and when it fails. -/
def ExecReturns (g : World) (file : Mem) (r : Int) (s' : Kernel) : Prop :=
  (r = 0 ∧ elfEntry file ≠ 0 ∧ Replaced file s') ∨
    (r = -1 ∧ (elfEntry file = 0 ∨ ¬ Fits (fun _ => none) file 0 ∨ stackVpn ∈ elfVpns file 0 ∨
      g.free.length < 71 + 3 * elfPages file 0))

/-- How `sys_exec` of a well-formed file may stop: with the program in place. -/
def ExecStops (file : Mem) (reason : Halt) (s' : Kernel) : Prop :=
  ReadHalt reason ∧ elfEntry file ≠ 0 ∧ Replaced file s'

namespace ValidOf

/-- `sys_exec` of a well-formed file, from the page table to its last line. -/
theorem execLoadCommit_of (valid : Valid g s) (busy : s.current ≠ 0) (elf : ElfFile file size) (image : InImage s file elfData size)
    {halt : Halt → Kernel → Prop} : wp (execLoadCommit (currentFrame s) elfData) s (fun done s' =>
      (done = true ∧ elfEntry file ≠ 0 ∧ Replaced file s' ∧ StackClear s' ∧
        g.free.length ≤ s'.nrFreePages + (71 + 3 * elfPages file 0)) ∨
      (done = false ∧ (elfEntry file = 0 ∨ ¬ Fits (fun _ => none) file 0 ∨ stackVpn ∈ elfVpns file 0 ∨
        g.free.length < 71 + 3 * elfPages file 0))) halt := by
  obtain ⟨p, member, current, isFrame⟩ := valid.running busy
  rw [isFrame]
  unfold execLoadCommit
  refine wp_bind_of (wp_returns (pgtableCreate_spec valid.world.heap.pool (o := .table .pending) (by simp))) ?_
  rintro root s₁ ⟨outcome, created⟩
  by_cases zero : root = 0
  · rw [if_pos zero, wp_pure]
    rcases outcome with ⟨empty, _⟩ | ⟨_, _, page, _⟩
    · refine .inr ⟨rfl, .inr (.inr (.inr ?_))⟩
      rw [empty, List.length_nil]
      omega
    · have := page.bounds
      omega
  rw [if_neg zero]
  obtain ⟨own₁, free₁, st, loads₁, used₁⟩ := valid.single created zero
  refine wp_bind_of (wp_returns (vmMapKernel_spec st)) ?_
  rintro r s₂ ⟨⟨own₂, free₂, dir₂, st₂, _, mapping⟩, mapped⟩
  by_cases refused : r ≠ 0
  · rw [if_pos refused]
    refine wp_bind_of (pgtableFreeWalk_spec st₂.tables st₂.pool) ?_
    rintro _ s₃ _
    rw [wp_pure]
    rcases mapping with ⟨rfl, _⟩ | ⟨_, short⟩
    · exact absurd rfl refused
    · exact .inr ⟨rfl, .inr (.inr (.inr (by omega)))⟩
  rw [if_neg refused]
  obtain rfl : r = 0 := not_not.mp refused
  obtain ⟨own, free, dir, l, loads, used⟩ := valid.fresh ⟨⟨s₁, created, mapped⟩, zero⟩
  refine wp_bind_of (elfLoad_of l ((valid.fileAt busy image).loads valid.world.heap.pool loads) elf) ?_
  rintro entry s₃ ⟨own₃, free₃, dir₃, user₃, l₃, step, outcome⟩
  have reach : ∀ n, user₃ n ≠ none → n ∈ elfVpns file 0 := fun n some => (step.reach n some).resolve_left (by simp)
  by_cases none : entry = 0
  · rw [if_pos none]
    refine wp_bind_of l₃.freeWalk ?_
    rintro _ s₄ _
    rw [wp_pure]
    refine .inr ⟨rfl, ?_⟩
    rcases outcome with ⟨isEntry, _⟩ | ⟨_, clash | short⟩
    · exact .inl (isEntry ▸ none)
    · exact .inr (.inl clash)
    · exact .inr (.inr (.inr (by omega)))
  rw [if_neg none]
  rcases outcome with ⟨isEntry, fits, placed, count⟩ | ⟨isZero, _⟩
  swap
  · exact absurd isZero none
  refine wp_mono (valid.world.execStackCommit_of member current.symm l₃ (loads.trans step.loads)) ?_ fun _ _ => id
  rintro done s₄ (⟨rfl, committed, clear, left⟩ | ⟨rfl, why⟩)
  · exact .inl ⟨rfl, isEntry ▸ none, committed.replaced fits placed reach, clear, by omega⟩
  · refine .inr ⟨rfl, .inr (.inr ?_)⟩
    rcases why with taken | short
    · exact .inl (reach _ taken)
    · exact .inr (by omega)

/-- `sys_exec` from the page table on, for a well-formed file. -/
theorem execLoad_of (valid : Valid g s) (busy : s.current ≠ 0) (elf : ElfFile file size) (image : InImage s file elfData size)
    (filename : Nat) :
    wp (execLoad filename (currentFrame s) elfData) s (ExecReturns g file) (ExecStops file) := by
  rw [execLoad_eq]
  refine wp_bind_of (valid.execLoadCommit_of busy elf image) ?_
  rintro done s₁ (⟨rfl, nonzero, replaced, _⟩ | ⟨rfl, why⟩)
  · refine wp_bind_of (wp_mono (Reads.printkUser filename s₁) (fun _ _ => id) ?_) ?_
    · rintro reason s₂ ⟨reads, looked⟩
      exact ⟨reads, nonzero, replaced.looked looked⟩
    · rintro _ s₂ looked
      rw [wp_pure]
      exact .inl ⟨rfl, nonzero, replaced.looked looked⟩
  · unfold execReport
    rw [if_neg (by decide), wp_pure]
    exact .inr ⟨rfl, why⟩

end ValidOf

/-- `sys_exec` finds a file under a name, and verifies it. -/
structure Found (s : Kernel) (filename elfData size : Nat) (s' : Kernel) : Prop where
  found : ∃ s₁, initrdFind filename s = .ok (elfData, size) s₁ ∧ elfVerify elfData size s₁ = .ok true s'
  nonzero : elfData ≠ 0

variable {filename : Nat}

omit [Layout] in
/-- Finding and verifying only look. -/
theorem Found.looked (found : Found s filename elfData size s') : Looked s s' := by
  obtain ⟨⟨s₁, searched, verified⟩, _⟩ := found
  have finds : wp (initrdFind filename) s (fun _ s' => Looked s s') fun _ _ => True := Looks.initrdFind filename s
  have verifies : wp (elfVerify elfData size) s₁ (fun _ s' => Looked s₁ s') fun _ _ => True := Looks.elfVerify elfData size s₁
  have first := wp_returned finds searched
  have second := wp_returned verifies verified
  exact first.trans second

/-- The task that has searched is where it was. -/
theorem Found.after (found : Found s filename elfData size s') (valid : Valid g s) (busy : s.current ≠ 0)
    (image : InImage s file elfData size) :
    Valid g s' ∧ s'.current ≠ 0 ∧ InImage s' file elfData size ∧ currentFrame s' = currentFrame s := by
  have looked := found.looked
  have mem := looked.mem
  have current := looked.current
  exact ⟨valid.looked looked, current ▸ busy, ⟨image.ram, mem ▸ image.bytes, image.outside⟩,
    by rw [currentFrame, currentFrame, mem, current]⟩

/-- `sys_exec` of a file that is found. -/
theorem Found.sysExec (found : Found s filename elfData size s') (tf : Nat) {post : Int → Kernel → Prop} {halt : Halt → Kernel → Prop} :
    wp (execLoad filename tf elfData) s' post halt → wp (sysExec filename tf) s post halt := by
  intro loads
  obtain ⟨⟨s₁, searched, verified⟩, nonzero⟩ := found
  unfold KuroOS.sysExec
  refine wp_bind_of (wp_of_ok searched) ?_
  rintro _ _ ⟨rfl, rfl⟩
  dsimp only
  rw [if_neg nonzero]
  refine wp_bind_of (wp_of_ok verified) ?_
  rintro _ _ ⟨rfl, rfl⟩
  rw [if_neg (by decide)]
  exact loads

/-- `sys_exec` of a well-formed file. -/
theorem ValidOf.sysExec_of (valid : Valid g s) (busy : s.current ≠ 0) (elf : ElfFile file size) (image : InImage s file elfData size)
    (found : Found s filename elfData size s') :
    wp (sysExec filename (currentFrame s)) s (ExecReturns g file) (ExecStops file) := by
  obtain ⟨valid', busy', image', frame⟩ := found.after valid busy image
  refine found.sysExec _ ?_
  rw [← frame]
  exact valid'.execLoad_of busy' elf image' filename

/-- `sys_exec` has replaced the program: it returned 0, or stopped at the printing of
the name. -/
def Execs (filename : Nat) (s s' : Kernel) : Prop :=
  sysExec filename (currentFrame s) s = .ok 0 s' ∨
    ∃ reason, ReadHalt reason ∧ sysExec filename (currentFrame s) s = .error reason s'

/-- Then the program is in place. -/
theorem ValidOf.replaced (valid : Valid g s) (busy : s.current ≠ 0) (elf : ElfFile file size) (image : InImage s file elfData size)
    {s₁ : Kernel} (found : Found s filename elfData size s₁) (execs : Execs filename s s') : Replaced file s' := by
  have spec := valid.sysExec_of busy elf image found
  rcases execs with returned | ⟨reason, _, stopped⟩
  · rcases wp_ok spec returned with ⟨_, _, replaced⟩ | ⟨failed, _⟩
    · exact replaced
    · exact absurd failed (by decide)
  · exact (wp_error spec stopped).2.2

/-- With room enough a well-formed program that fits is executed. -/
theorem ValidOf.execs (valid : Valid g s) (busy : s.current ≠ 0) (elf : ElfFile file size) (image : InImage s file elfData size)
    {s₁ : Kernel} (found : Found s filename elfData size s₁) (nonzero : elfEntry file ≠ 0) (fits : Fits (fun _ => none) file 0)
    (stack : stackVpn ∉ elfVpns file 0) (room : 71 + 3 * elfPages file 0 ≤ g.free.length) : ∃ s', Execs filename s s' := by
  have spec := valid.sysExec_of busy elf image found
  cases outcome : sysExec filename (currentFrame s) s with
  | ok r s' =>
      rcases wp_ok spec outcome with ⟨rfl, _⟩ | ⟨_, zero | clash | taken | short⟩
      · exact ⟨s', .inl outcome⟩
      · exact absurd zero nonzero
      · exact absurd fits clash
      · exact absurd taken stack
      · omega
  | error reason s' => exact ⟨s', .inr ⟨reason, (wp_error spec outcome).1, outcome⟩⟩

variable {own : Nat → Owner} {free : List Nat} {halt : Halt → Kernel → Prop}

/-- The bytes of a file are compared. -/
theorem FileAt.bytesMatch (at_ : FileAt own elfData size file s) (pool : Pool own free s) {bytes : List UInt8} {offset : Nat}
    (inside : offset + bytes.length ≤ size) (same : ∀ i < bytes.length, file (offset + i) = bytes.getD i 0) :
    wp (KuroOS.bytesMatch (elfData + offset) bytes) s (fun r s' => r = true ∧ s' = s) halt := by
  induction bytes generalizing offset with
  | nil =>
      rw [KuroOS.bytesMatch, wp_pure]
      exact ⟨rfl, rfl⟩
  | cons byte rest ih =>
      rw [List.length_cons] at inside same
      have high := (at_.ram offset (by omega)).2
      simp only [ramEnd] at high
      rw [KuroOS.bytesMatch]
      refine wp_bind_of (at_.read pool (show offset < size by omega)) ?_
      rintro _ _ ⟨rfl, rfl⟩
      have first : file offset = byte := same 0 (by omega)
      rw [if_neg (not_not.mpr first), wadd_of_lt (by omega), Nat.add_assoc]
      refine ih (by omega) fun i low => ?_
      rw [Nat.add_assoc, Nat.add_comm 1 i]
      exact same (i + 1) (by omega)

/-- A file that starts like a RISC-V executable is verified. -/
theorem FileAt.elfVerify (at_ : FileAt own elfData size file s) (pool : Pool own free s) (header : ehdrSize ≤ size)
    (magic : ∀ i < elfMagic.length, file (0 + i) = elfMagic.getD i 0) (type : file.load Ehdr.eType 2 = etExec)
    (machine : file.load Ehdr.eMachine 2 = emRiscv) :
    wp (KuroOS.elfVerify elfData size) s (fun r s' => r = true ∧ s' = s) halt := by
  simp only [ehdrSize] at header
  have high := (at_.ram 0 (by omega)).2
  simp only [ramEnd] at high
  unfold KuroOS.elfVerify
  rw [if_neg (by simp only [ehdrSize]; omega)]
  refine wp_bind_of (at_.bytesMatch pool (show 0 + elfMagic.length ≤ size by simp only [elfMagic, List.length_cons, List.length_nil]; omega)
    magic) ?_
  rintro _ _ ⟨rfl, rfl⟩
  rw [if_neg (by decide), wadd_of_lt (by simp only [Ehdr.eType]; omega)]
  refine wp_bind_of (at_.field pool (by simp only [Ehdr.eType]; omega)) ?_
  rintro _ _ ⟨rfl, rfl⟩
  rw [if_neg (not_not.mpr type), wadd_of_lt (by simp only [Ehdr.eMachine]; omega)]
  refine wp_bind_of (at_.field pool (by simp only [Ehdr.eMachine]; omega)) ?_
  rintro _ _ ⟨rfl, rfl⟩
  rw [if_neg (not_not.mpr machine), wp_pure]
  exact ⟨rfl, rfl⟩

end

section

attribute [local instance] Layout.sample

/-- The bytes of an archive entry without a name, for the file where the archive is. -/
def entryBytes (size : Nat) : List UInt8 :=
  List.replicate 64 0 ++ leBytes 8 Layout.initrdStart ++ leBytes 8 size ++ leBytes 8 0

/-- The bytes start like a RISC-V executable, and an entry for them says so. -/
def Executable (bytes : List UInt8) : Prop :=
  bytes.length ≤ 2048 ∧ ehdrSize ≤ bytes.length ∧ (∀ i < elfMagic.length, fileOf bytes (0 + i) = elfMagic.getD i 0) ∧
    (fileOf bytes).load Ehdr.eType 2 = etExec ∧ (fileOf bytes).load Ehdr.eMachine 2 = emRiscv ∧
    (fileOf (entryBytes bytes.length)).load InitrdEntry.data 8 = Layout.initrdStart ∧
    (fileOf (entryBytes bytes.length)).load InitrdEntry.size 8 = bytes.length ∧
    (fileOf (entryBytes bytes.length)).load InitrdEntry.next 8 = 0

/-- Where the entry is. -/
theorem entry_outside {i : Nat} (low : i < 88) :
    ¬ PoolPage (pageOf (Layout.initrdStart + 2048 + i)) ∧ Layout.initrdStart + 2048 + i ∉ listHeads :=
  have isStart : Layout.initrdStart = 0x80220000 := rfl
  initrd_outside (by omega) (by omega)

/-- A running machine with a file in its archive, under the empty name. -/
theorem archive_sample {bytes : List UInt8} (small : bytes.length ≤ 2048) : ∃ s g, Valid g s ∧ s.current ≠ 0 ∧
    InImage s (fileOf bytes) Layout.initrdStart bytes.length ∧ 2 ≤ g.queue.length ∧ 31000 ≤ g.free.length ∧
    s.fileList = Layout.initrdStart + 2048 ∧ ∀ i < 88, s.mem (Layout.initrdStart + 2048 + i) = fileOf (entryBytes bytes.length) i := by
  obtain ⟨s₀, g, _, valid₀, busy, two, room⟩ := kernelMain_sample
  have isStart : Layout.initrdStart = 0x80220000 := rfl
  obtain ⟨entry, isEntry⟩ : ∃ entry, entry = Layout.initrdStart + 2048 := ⟨_, rfl⟩
  have length : (entryBytes bytes.length).length = 88 := rfl
  have outside : ∀ i < bytes.length, ¬ PoolPage (pageOf (Layout.initrdStart + i)) ∧ Layout.initrdStart + i ∉ listHeads := fun i low =>
    initrd_outside (by omega) (by omega)
  have outside' : ∀ i < (entryBytes bytes.length).length, ¬ PoolPage (pageOf (entry + i)) ∧ entry + i ∉ listHeads := fun i low =>
    isEntry ▸ entry_outside low
  have valid₁ := (valid₀.putBytes outside).putBytes outside'
  obtain ⟨mem, isMem⟩ : ∃ mem, mem = putBytes (putBytes s₀.mem Layout.initrdStart bytes) entry (entryBytes bytes.length) := ⟨_, rfl⟩
  obtain ⟨s, is⟩ : ∃ s : Kernel, s = { s₀ with mem := mem, fileList := entry } := ⟨_, rfl⟩
  have valid : Valid g s := by
    rw [is, isMem]
    exact valid₁.same_tasks (valid₁.world.congr (fun _ _ => rfl) rfl rfl rfl rfl) (.refl g) rfl rfl rfl rfl
  have memory : s.mem = mem := by rw [is]
  have image : InImage s (fileOf bytes) Layout.initrdStart bytes.length := initrd_image (by omega) fun i low => by
    rw [memory, isMem]
    unfold putBytes
    rw [if_neg (by omega), if_pos (by omega), Nat.add_sub_cancel_left]
  refine ⟨s, g, valid, by rwa [is], image, two, room, by rw [is, isEntry], fun i low => ?_⟩
  rw [memory, isMem, ← isEntry]
  unfold putBytes
  rw [if_pos (by omega), Nat.add_sub_cancel_left]
  rfl

/-- The file is found under the name in its entry. -/
theorem archive_found {bytes name : List UInt8} {s : Kernel} {g : World} {p : Nat} (executable : Executable bytes) (valid : Valid g s)
    (busy : s.current ≠ 0) (image : InImage s (fileOf bytes) Layout.initrdStart bytes.length)
    (list : s.fileList = Layout.initrdStart + 2048) (named : CString s.mem (Layout.initrdStart + 2048) name) (short : name.length < 64)
    (fields : ∀ i < 88, 64 ≤ i → s.mem (Layout.initrdStart + 2048 + i) = fileOf (entryBytes bytes.length) i)
    (string : UserString s p name) : ∃ s', Found s p Layout.initrdStart bytes.length s' := by
  obtain ⟨small, header, magic, type, machine, isData, isSize, isNext⟩ := executable
  have isStart : Layout.initrdStart = 0x80220000 := rfl
  obtain ⟨entry, isEntry⟩ : ∃ entry, entry = Layout.initrdStart + 2048 := ⟨_, rfl⟩
  rw [← isEntry] at list named fields
  have field : ∀ {offset}, 64 ≤ offset → offset + 8 ≤ 88 →
      s.mem.load (entry + offset) 8 = (fileOf (entryBytes bytes.length)).load offset 8 :=
    fun {offset} after inside => Mem.load_shift fun i low => by
      rw [Nat.add_assoc]
      exact fields _ (by omega) (by omega)
  have registered : Registered s [⟨name, Layout.initrdStart, bytes.length⟩] := by
    refine ⟨[(entry, ⟨name, Layout.initrdStart, bytes.length⟩)], ⟨list, by omega, by simp only [initrdEntrySize]; omega, ?_, ?_⟩, rfl⟩
    · refine ⟨named, short, ?_, ?_⟩
      · rw [field (by decide) (by decide)]
        exact isData
      · rw [field (by decide) (by decide)]
        exact isSize
    · change s.mem.load _ 8 = 0
      rw [field (by decide) (by decide)]
      exact isNext
  obtain ⟨r, s₁, found, isResult, d, is₁⟩ := wp_total (initrdFind_spec registered (show 1 < loopBound by decide) string)
  rw [isResult.trans lookup_cons_self] at found
  have looked : Looked s s₁ := by
    rw [is₁]
    rfl
  have mem₁ := looked.mem
  have valid' := valid.looked looked
  have at' : FileAt g.own Layout.initrdStart bytes.length (fileOf bytes) s₁ :=
    valid'.fileAt (by rw [is₁]; exact busy) ⟨image.ram, mem₁ ▸ image.bytes, image.outside⟩
  obtain ⟨_, s₂, verified, rfl, _⟩ := wp_total (at'.elfVerify valid'.world.heap.pool header magic type machine)
  exact ⟨s₂, ⟨s₁, found, verified⟩, by omega⟩

end

end KuroOS
