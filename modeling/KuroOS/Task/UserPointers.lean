import KuroOS.Task.ExecName
import KuroOS.Task.Undo

/-!
# Where system calls follow pointers

The kernel follows the pointers of `sys_write`, `sys_read` and `sys_exec` through the
caller's page table and with the rights of the kernel: no line looks at `PTE_U`. A
call stays in user pages when the bytes that its registers name are there.
-/

namespace KuroOS

open Base

section

/-- An address is in a page that the active page table maps with `PTE_U`. -/
def InUser (s : Kernel) (va : Nat) : Prop := ∃ access x, sv39User s.mem s.satpRoot va access = some x

/-- Since `s`, pointers were followed into user pages of the caller alone. -/
def Confined (s s' : Kernel) : Prop :=
  ∃ log, s'.derefs = log ++ s.derefs ∧ ∀ d ∈ log, d.root = s.satpRoot ∧ InUser s d.address

/-- What a call has done while it follows pointers in user pages. -/
structure Followed (s s' : Kernel) : Prop where
  rest : s' = { s with mem := s'.mem, uart := s'.uart, derefs := s'.derefs }
  writes : ∀ x, s'.mem x ≠ s.mem x → MayWrite s x
  confined : Confined s s'

variable {g : World} {s s₁ s' : Kernel} {p : TaskView} {va buf len : Nat} {access : Access}

theorem Confined.refl (s : Kernel) : Confined s s := ⟨[], rfl, by simp⟩

theorem Confined.same (confined : Confined s s₁) (same : s'.derefs = s₁.derefs) : Confined s s' := by
  obtain ⟨log, records, all⟩ := confined
  exact ⟨log, same.trans records, all⟩

theorem Confined.record (confined : Confined s s₁) (root : s₁.satpRoot = s.satpRoot) (inUser : InUser s va)
    (records : s'.derefs = ⟨access, va, s₁.satpRoot⟩ :: s₁.derefs) : Confined s s' := by
  obtain ⟨log, before, all⟩ := confined
  refine ⟨⟨access, va, s₁.satpRoot⟩ :: log, by rw [records, before, List.cons_append], List.forall_mem_cons.mpr ⟨⟨root, inUser⟩, all⟩⟩

namespace Followed

theorem refl (s : Kernel) : Followed s s := ⟨rfl, fun _ changed => absurd rfl changed, .refl s⟩

theorem root (followed : Followed s s') : s'.satpRoot = s.satpRoot := by rw [followed.rest]

theorem current (followed : Followed s s') : s'.current = s.current := by rw [followed.rest]

theorem looked (followed : Followed s s₁) (looked : Looked s₁ s') (confined : Confined s s') : Followed s s' := by
  have mem := looked.mem
  refine ⟨?_, fun x changed => followed.writes x (by rwa [mem] at changed), confined⟩
  unfold Looked at looked
  rw [looked, followed.rest]

theorem sent (followed : Followed s s₁) (uart : Uart) : Followed s { s₁ with uart } :=
  followed.looked rfl (followed.confined.same rfl)

/-- A read through a pointer. -/
theorem readUser (followed : Followed s s₁) (inUser : InUser s va) :
    wp (readUser va) s₁ (fun _ s' => Followed s s') fun _ s' => Followed s s' := by
  unfold KuroOS.readUser recordDeref
  rw [wp_bind, wp_modify]
  have reads : Followed s { s₁ with derefs := ⟨.read, va, s₁.satpRoot⟩ :: s₁.derefs } :=
    followed.looked rfl (followed.confined.record followed.root inUser rfl)
  exact wp_mono (wp_and (Reads.readVirtual va _) (SameDerefs.readVirtual va _))
    (fun _ _ after => reads.looked after.1 (reads.confined.same after.2))
    fun _ _ after => reads.looked after.1.2 (reads.confined.same after.2)

/-- `sys_write` of a buffer. -/
theorem sysWrite (followed : Followed s s₁) (named : ∀ i < len, InUser s (wadd buf i)) (fd : Nat) :
    wp (sysWrite fd buf len) s₁ (fun _ s' => Followed s s') fun _ s' => Followed s s' := by
  unfold KuroOS.sysWrite
  split
  · exact (wp_pure _).mpr followed
  refine wp_bind_of (wp_countUp (fun _ s' => Followed s s') followed fun i below s₂ followed => ?_) fun _ _ followed => (wp_pure _).mpr followed
  exact wp_bind_of (followed.readUser (named i below)) fun _ _ followed => wp_uartPutc.mpr (followed.sent _)

theorem uartGetc (followed : Followed s s₁) : wp uartGetc s₁ (fun _ s' => Followed s s') fun _ s' => Followed s s' := by
  unfold KuroOS.uartGetc
  rw [wp_bind, wp_get]
  split
  · simp only [wp_bind, wp_set, wp_pure]
    exact followed.sent _
  · simp only [wp_bind, wp_set, wp_pure]
    exact followed.sent _
  · exact (wp_throw _).mpr followed

end Followed

variable [Layout]

/-- What a page table lets user code reach depends on the task's pages alone. -/
theorem ValidOf.sv39User_congr (valid : Valid g s) (valid' : Valid g s') (member : p ∈ g.tasks) (current : p.addr = s.current)
    (current' : p.addr = s'.current) (va : Nat) (access : Access) :
    sv39User s'.mem s'.satpRoot va access = sv39User s.mem s.satpRoot va access := by
  have space := valid.world.space p member
  have space' := valid'.world.space p member
  unfold sv39User
  rw [valid'.sv39_eq member current', valid.sv39_eq member current, valid.root p member current, valid'.root p member current',
    show sv39Levels - 1 = 2 from rfl, space.tables.sv39Entry valid.world.heap.pool, space'.tables.sv39Entry valid'.world.heap.pool,
    space.leaves, space'.leaves]

/-- A user page may be read and written. -/
theorem ValidOf.sv39User_any (valid : Valid g s) (member : p ∈ g.tasks) (current : p.addr = s.current) {x : Nat}
    (mapped : sv39User s.mem s.satpRoot va access = some x) (other : Access) : sv39User s.mem s.satpRoot va other = some x := by
  obtain ⟨_, canonical, q, found, rfl⟩ := valid.userPage_reached member current mapped
  have isUser : sv39EntryFrom s.mem va (sv39Levels - 1) s.satpRoot &&& pteU ≠ 0 := by
    by_contra none
    unfold sv39User at mapped
    rw [if_neg (not_not.mpr none)] at mapped
    simp at mapped
  have entry : spaceEntry (g.user p.addr) (sv39Vpn va) = mkPte q userFlags := by simp [spaceEntry, found]
  unfold sv39User
  rw [if_pos isUser, valid.sv39_eq member current, if_pos canonical, entry, if_pos (userPte_grants q other),
    pteToPa_user (valid.userPage member found)]

namespace Followed

theorem valid (followed : Followed s s') (valid : Valid g s) (busy : s.current ≠ 0) : Valid g s' := by
  have looked : Looked { s with mem := s'.mem, uart := s'.uart } s' := by
    unfold Looked
    rw [followed.rest]
  exact (valid.user_step busy s'.uart followed.writes).looked looked

/-- A store through a pointer. -/
theorem writeUser (followed : Followed s s₁) (valid : Valid g s) (busy : s.current ≠ 0) (inUser : InUser s va) (c : UInt8) :
    wp (writeUser va c) s₁ (fun _ s' => Followed s s') fun _ s' => Followed s s' := by
  obtain ⟨p, member, current, _⟩ := valid.running busy
  have valid₁ := followed.valid valid busy
  have same := valid.sv39User_congr valid₁ member current (current.trans followed.current.symm) va .write
  obtain ⟨_, x, allowed⟩ := inUser
  have mapped := valid.sv39User_any member current allowed .write
  obtain ⟨walk, _⟩ := valid₁.userPage_reached member (current.trans followed.current.symm) (same.trans mapped)
  have records : Followed s { s₁ with derefs := ⟨.write, va, s₁.satpRoot⟩ :: s₁.derefs } :=
    followed.looked rfl (followed.confined.record followed.root ⟨_, x, allowed⟩ rfl)
  unfold KuroOS.writeUser recordDeref writeVirtual
  simp only [wp_bind, wp_modify, wp_get, walk]
  split
  · unfold uartWrite
    split
    · exact (wp_modify _).mpr (records.sent _)
    · exact (wp_pure ()).mpr records
  · refine wp_modifyMem.mpr ⟨?_, fun y changed => ?_, records.confined.same rfl⟩
    · rw [records.rest]
    · by_cases here : y = x
      · exact here ▸ .inl ⟨va, mapped⟩
      · exact followed.writes y fun same => changed ((Function.update_of_ne here c s₁.mem).trans same)

/-- The loop of `sys_read` stays in the buffer. -/
theorem sysReadLoop (valid : Valid g s) (busy : s.current ≠ 0) (word : len < 2 ^ 64)
    (named : ∀ i < len, InUser s (wadd buf i)) {i : Nat} (low : i < len) (fuel : Nat) (followed : Followed s s₁) :
    wp (sysReadLoop buf len fuel i) s₁ (fun j s' => j < len ∧ Followed s s') fun _ s' => Followed s s' := by
  induction fuel generalizing i s₁ with
  | zero => exact (wp_throw _).mpr followed
  | succ fuel ih =>
      rw [KuroOS.sysReadLoop, wadd_of_lt (by omega)]
      split
      swap
      · exact (wp_pure _).mpr ⟨low, followed⟩
      refine wp_bind_of followed.uartGetc fun c s₂ followed => ?_
      generalize (if c = ascii '\r' then ascii '\n' else c) = c
      dsimp only
      split
      · split
        · simp only [wp_bind, wp_uartPutc]
          exact ih (by omega) (((followed.sent _).sent _).sent _)
        · exact ih low followed
      · rw [wp_bind, wp_uartPutc]
        split
        · exact (wp_pure _).mpr ⟨low, followed.sent _⟩
        · refine wp_bind_of ((followed.sent _).writeUser valid busy (named i low) _) fun _ _ followed => ih (by omega) followed

/-- `sys_read` into a buffer. -/
theorem sysRead (followed : Followed s s₁) (valid : Valid g s) (busy : s.current ≠ 0) (word : len < 2 ^ 64)
    (named : ∀ i < len, InUser s (wadd buf i)) (fd : Nat) :
    wp (sysRead fd buf len) s₁ (fun _ s' => Followed s s') fun _ s' => Followed s s' := by
  unfold KuroOS.sysRead
  split
  · exact (wp_pure _).mpr followed
  split
  · exact (wp_pure _).mpr followed
  rw [wp_bind, wp_get]
  refine wp_bind_of (sysReadLoop valid busy word named (by omega) _ followed) ?_
  rintro i s₂ ⟨low, followed⟩
  exact wp_bind_of (followed.writeUser valid busy (named i low) 0) fun _ _ followed => (wp_pure _).mpr followed

/-- A word is stored in the caller's frame. -/
theorem store_frame (followed : Followed s s₁) (valid : Valid g s) (member : p ∈ g.tasks) (current : p.addr = s.current)
    {offset value : Nat} (inside : offset + 8 ≤ trapFrameSize) :
    Followed s { s₁ with mem := s₁.mem.store (p.tf + offset) 8 value } := by
  refine ⟨?_, fun x changed => ?_, followed.confined.same rfl⟩
  · rw [followed.rest]
  · by_cases touched : p.tf + offset ≤ x ∧ x < p.tf + offset + 8
    · exact valid.frame_mayWrite member current (by omega) (by omega)
    · exact followed.writes x fun same => changed ((Mem.store_of_outside (by omega)).trans same)

end Followed

/-- A register in the trap frame of the current task. -/
def frameReg (s : Kernel) (offset : Nat) : Nat := s.mem.load (currentFrame s + offset) 8

/-- `sys_exec` has followed its pointer into user pages, or it has replaced the program
after that, and has then printed the name in the new address space. -/
def ExecConfined (filename tf : Nat) (s s' : Kernel) : Prop :=
  Confined s s' ∨ ∃ elfData s₁ s₂ s₃, Confined s s₁ ∧ execLoadCommit tf elfData s₁ = .ok true s₂ ∧
    Ends (printkUser filename) s₂ s₃ ∧ s'.derefs = s₃.derefs

/-- A system call has followed pointers into user pages of its caller alone. -/
structure CallConfined (s s' : Kernel) : Prop where
  exec : frameReg s TrapFrame.a7 = sysExecNr → ExecConfined (frameReg s TrapFrame.a0) (currentFrame s) s s'
  other : frameReg s TrapFrame.a7 ≠ sysExecNr → Confined s s'

variable {text : List UInt8} {filename tf r n : Nat}

omit [Layout] in
/-- Reading a string in user pages. -/
theorem StringAt.confined (named : ∀ i ≤ text.length, InUser s (wadd filename i)) (confined : Confined s s₁)
    (root : s₁.satpRoot = s.satpRoot) (reads : ReadsString s₁ filename text.length s') : Confined s s' := by
  obtain ⟨log, before, all⟩ := confined
  obtain ⟨_, log', after, all'⟩ := reads
  refine ⟨log' ++ log, by rw [after, before, List.append_assoc], fun d inside => ?_⟩
  rcases List.mem_append.mp inside with late | early
  · obtain ⟨isRoot, i, low, is⟩ := all' d late
    exact ⟨isRoot.trans root, is ▸ named i low⟩
  · exact all d early

theorem Confined.call (confined : Confined s s') (notExec : frameReg s TrapFrame.a7 ≠ sysExecNr) : CallConfined s s' :=
  ⟨fun isExec => absurd isExec notExec, fun _ => confined⟩

theorem ExecConfined.same (confined : ExecConfined filename tf s s₁) (same : s'.derefs = s₁.derefs) :
    ExecConfined filename tf s s' := by
  rcases confined with confined | ⟨elfData, s₁, s₂, s₃, confined, committed, printed, last⟩
  · exact .inl (confined.same same)
  · exact .inr ⟨elfData, s₁, s₂, s₃, confined, committed, printed, same.trans last⟩

namespace ValidOf

end ValidOf

end

section

attribute [local instance] Layout.sample

end

end KuroOS
