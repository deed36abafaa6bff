import KuroOS.Task.Machine

/-!
# Traps end

From every state of a run of the machine a timer interrupt and every system call but
`sys_exec` come back to user mode, when the buffers that the call names are the
caller's: no assertion fails, no pointer faults, nothing panics. The exceptions are the
ones that the code means: the last task that exits shuts the machine down, and
`sys_read` waits for the line.
-/

namespace KuroOS

open Base Base.Riscv

section

variable [Layout]

/-- The numbers of the system calls but for `sys_exec`. -/
def plainCalls : List Nat := [sysWriteNr, sysExitNr, sysReadNr, sysYieldNr, sysGetpidNr, sysForkNr, sysPsNr]

/-- A trap that `trap_handler` knows, with the buffer of a `sys_write` or `sys_read` in user pages. -/
structure ProperFrame (scause : Nat) (s : Kernel) (tf : Nat) : Prop where
  known : scause = scauseTimer ∨ (scause = scauseUserEcall ∧ s.mem.load (tf + TrapFrame.a7) 8 ∈ plainCalls)
  buffer : scause = scauseUserEcall → (s.mem.load (tf + TrapFrame.a7) 8 = sysWriteNr ∨ s.mem.load (tf + TrapFrame.a7) 8 = sysReadNr) →
    ∀ i < s.mem.load (tf + TrapFrame.a2) 8, InUser s (wadd (s.mem.load (tf + TrapFrame.a1) 8) i)

/-- Why a proper trap may not come back. -/
def MeansToStop (s : Kernel) (tf : Nat) (reason : Halt) : Prop :=
  (reason = .shutdown ∧ s.mem.load (tf + TrapFrame.a7) 8 = sysExitNr ∧ RunQueue s [s.current]) ∨
    (reason = .hang ∧ s.mem.load (tf + TrapFrame.a7) 8 = sysReadNr ∧ s.uart.waiting ≠ [])

variable {g : World} {s s₁ s' t : Kernel} {p : TaskView} {tf scause va x fd buf len : Nat} {h u : Hart}

omit [Layout] in
/-- A read through a pointer that the page table maps. -/
theorem readUser_mapped (looked : Looked s s₁) (mapped : sv39 s.mem s.satpRoot va .read = some x) :
    wp (readUser va) s₁ (fun _ s' => Looked s s') fun _ _ => False := by
  have walk : sv39 s₁.mem s₁.satpRoot va .read = some x := by rw [looked.mem, looked.root, mapped]
  have looks : wp (readUser va) s₁ (fun _ s' => Looked s₁ s') fun _ _ => True := wp_mono (Reads.readUser va s₁) (fun _ _ => id) fun _ _ _ => trivial
  have returns : wp (readUser va) s₁ (fun _ _ => True) fun _ _ => False := by
    unfold readUser recordDeref readVirtual
    simp only [wp_bind, wp_modify, wp_get, walk]
    split
    · unfold uartRead
      rw [wp_bind, wp_get]
      split
      · exact (wp_pure _).mpr trivial
      · split
        · simp only [wp_bind, wp_set, wp_pure]
        · split <;> exact (wp_pure _).mpr trivial
    · exact (wp_pure _).mpr trivial
  obtain ⟨byte, s', returned, _⟩ := wp_total returns
  have after := wp_returned looks returned
  refine wp_mono (wp_of_ok returned) ?_ fun _ _ => id
  rintro _ _ ⟨rfl, rfl⟩
  exact looked.trans after

omit [Layout] in
/-- `sys_write` of a buffer that the page table maps. -/
theorem sysWrite_mapped (fd : Nat) (mapped : ∀ i < len, ∃ x, sv39 s.mem s.satpRoot (wadd buf i) .read = some x) :
    wp (sysWrite fd buf len) s (fun _ s' => Looked s s') fun _ _ => False := by
  unfold sysWrite
  split
  · exact (wp_pure _).mpr (.refl s)
  refine wp_bind_of (wp_countUp (fun _ s' => Looked s s') (.refl s) fun i below s₁ looked => ?_) fun _ _ looked => (wp_pure _).mpr looked
  obtain ⟨x, here⟩ := mapped i below
  exact wp_bind_of (readUser_mapped looked here) fun _ _ looked => wp_uartPutc.mpr (looked.trans rfl)

namespace ValidOf

theorem schedule_returns (valid : Valid g s) (busy : s.current ≠ 0) (isTf : tf = currentFrame s) :
    wp (taskSchedule tf) s (fun _ _ => True) fun _ _ => False := by
  obtain ⟨f, s', returned, _⟩ := valid.schedule_next busy
  rw [isTf]
  exact wp_mono (wp_of_ok returned) (fun _ _ _ => trivial) fun _ _ => id

/-- A user page may be read by the kernel. -/
theorem read_of_inUser (valid : Valid g s) (member : p ∈ g.tasks) (current : p.addr = s.current) (inUser : InUser s va) :
    ∃ x, sv39 s.mem s.satpRoot va .read = some x := by
  obtain ⟨_, x, mapped⟩ := inUser
  exact ⟨x, (valid.userPage_reached member current (valid.sv39User_any member current mapped .read)).1⟩

/-- A proper trap comes back, or it means to stop. -/
theorem trap_ends (valid : Valid g s) (member : p ∈ g.tasks) (current : p.addr = s.current) (proper : ProperFrame scause s p.tf) :
    wp (trapHandler scause p.tf) s (fun _ _ => True) fun reason _ => MeansToStop s p.tf reason := by
  have busy : s.current ≠ 0 := current ▸ valid.world.addr_ne_zero member
  have isFrame : currentFrame s = p.tf := valid.frame p member current
  obtain ⟨known, buffer⟩ := proper
  unfold trapHandler
  by_cases isEcall : scause = scauseUserEcall
  swap
  · rw [if_neg isEcall, if_pos (known.resolve_right fun ecall => isEcall ecall.1)]
    exact wp_mono (valid.schedule_returns busy isFrame.symm) (fun _ _ => id) fun _ _ never => never.elim
  rw [if_pos isEcall]
  have listed := (known.resolve_left fun timer => absurd (timer.symm.trans isEcall) (by decide)).2
  have buffer := buffer isEcall
  have word : ∀ s₁ : Kernel, ∀ a, s₁.mem.load a 8 < 2 ^ 64 := fun s₁ a => Mem.load_lt s₁.mem a 8
  -- after the step over the `ecall` the buffer is still there
  obtain ⟨s₀, valid₀, current₀, rest₀, reg, _, named, skip⟩ := valid.skipping member current
  have busy₀ : s₀.current ≠ 0 := current₀ ▸ current ▸ busy
  unfold syscallDispatch
  rw [wp_bind, wp_loadWord]
  obtain ⟨a7, isA7⟩ : ∃ a7, a7 = s.mem.load (p.tf + TrapFrame.a7) 8 := ⟨_, rfl⟩
  rw [← isA7] at listed buffer ⊢
  simp only [plainCalls, List.mem_cons, List.not_mem_nil, or_false] at listed
  by_cases isWrite : a7 = sysWriteNr
  · rw [if_pos isWrite]
    refine wp_bind_of skip ?_
    rintro _ s₀ rfl
    simp only [wp_bind, wp_loadWord, wp_storeWord, wp_pure]
    rw [reg TrapFrame.a0 (by decide), reg TrapFrame.a1 (by decide), reg TrapFrame.a2 (by decide)]
    have writes := sysWrite_mapped (s.mem.load (p.tf + TrapFrame.a0) 8) fun i low =>
       valid₀.read_of_inUser member current₀ (named (buffer (.inl isWrite) i low))
    exact wp_mono writes (fun _ _ _ => trivial) fun _ _ never => never.elim
  rw [if_neg isWrite]
  by_cases isRead : a7 = sysReadNr
  · rw [if_pos isRead]
    unfold uartHasData
    simp only [wp_bind, wp_get, wp_pure]
    cases isWaiting : s.uart.waiting with
    | nil =>
        rw [List.isEmpty_nil, Bool.not_true, if_pos rfl]
        exact wp_mono (valid.schedule_returns busy isFrame.symm) (fun _ _ => id) fun _ _ never => never.elim
    | cons byte more =>
        rw [List.isEmpty_cons, Bool.not_false, if_neg (by decide), wp_bind]
        refine wp_mono skip ?_ fun _ _ => id
        rintro _ s₀ rfl
        simp only [wp_bind, wp_loadWord, wp_storeWord, wp_pure]
        rw [reg TrapFrame.a0 (by decide), reg TrapFrame.a1 (by decide), reg TrapFrame.a2 (by decide)]
        refine wp_mono (Delivered.sysRead valid₀ busy₀ (word s _) (fun i low => named (buffer (.inr isRead) i low)) _)
          (fun _ _ _ => trivial) fun _ _ hangs => .inr ⟨hangs, isA7.symm.trans isRead, by simp [isWaiting]⟩
  rw [if_neg isRead]
  by_cases isExit : a7 = sysExitNr
  · rw [if_pos isExit]
    refine wp_bind_of skip ?_
    rintro _ s₀ rfl
    simp only [sysExit, wp_bind, wp_loadWord]
    have exits : wp (taskExitCurrent p.tf (s₀.mem.load (p.tf + TrapFrame.a0) 8)) s₀ _ fun _ _ => False :=
      valid₀.world.taskExitCurrent_spec valid₀.sched member current₀.symm (word s₀ _)
    refine wp_mono exits ?_ fun _ _ never => never.elim
    rintro r s₁ ⟨g₁, world₁, _, _, _, _, ⟨only, rfl, _⟩ | ⟨_, w, resumed, _, rfl⟩⟩
    · rw [if_pos rfl]
      refine (wp_throw _).mpr (.inl ⟨rfl, isA7.symm.trans isExit, ?_⟩)
      rw [← current, ← only]
      exact valid.runQueue
    · have space := world₁.space w resumed.member
      have bounds := (world₁.heap.pool.pages w.kernelStack (by simp [(space.kstack _).mpr rfl])).bounds
      have top := space.tf
      rw [if_neg (by simp only [trapFrameSize, pageSize] at *; omega)]
      exact (wp_pure _).mpr trivial
  rw [if_neg isExit]
  by_cases isYield : a7 = sysYieldNr
  · rw [if_pos isYield]
    refine wp_bind_of skip ?_
    rintro _ s₀ rfl
    simp only [sysYield, wp_bind, wp_storeWord]
    have valid₁ : Valid g { s₀ with mem := s₀.mem.store (p.tf + TrapFrame.a0) 8 0 } := valid₀.store_frame member current₀ (by decide)
    exact wp_mono (valid₁.schedule_returns busy₀ (valid₁.frame p member current₀).symm) (fun _ _ => id) fun _ _ never => never.elim
  rw [if_neg isYield]
  by_cases isGetpid : a7 = sysGetpidNr
  · rw [if_pos isGetpid]
    refine wp_bind_of skip ?_
    rintro _ s₀ rfl
    simp only [sysGetpid, wp_bind, wp_get]
    split <;> simp only [wp_loadWord, wp_storeWord, wp_pure]
  rw [if_neg isGetpid]
  by_cases isFork : a7 = sysForkNr
  · rw [if_pos isFork]
    refine wp_bind_of skip ?_
    rintro _ s₀ rfl
    simp only [sysFork, wp_bind]
    have forks : wp (taskFork (currentFrame s₀)) s₀ _ fun _ _ => False := valid₀.fork_step
    rw [valid₀.frame p member current₀] at forks
    refine wp_mono forks (fun child s₁ _ => ?_) fun _ _ never => never.elim
    split <;> simp only [wp_loadWord, wp_storeWord, wp_pure]
  have isPs : a7 = sysPsNr := by
    rcases listed with is | is | is | is | is | is | is
    · exact absurd is isWrite
    · exact absurd is isExit
    · exact absurd is isRead
    · exact absurd is isYield
    · exact absurd is isGetpid
    · exact absurd is isFork
    · exact is
  rw [if_neg isFork, if_pos isPs]
  refine wp_bind_of skip ?_
  rintro _ s₀ rfl
  simp only [wp_bind, wp_storeWord, wp_pure]

end ValidOf

/-- The same of user code that traps: the registers ask for a call that `trap_handler` knows. -/
structure ProperTrap (scause : Nat) (u : Hart) (t : Kernel) : Prop where
  known : scause = scauseTimer ∨ (scause = scauseUserEcall ∧ (u.regs .a7).toNat ∈ plainCalls)
  buffer : scause = scauseUserEcall → ((u.regs .a7).toNat = sysWriteNr ∨ (u.regs .a7).toNat = sysReadNr) →
    ∀ i < (u.regs .a2).toNat, InUser t (wadd (u.regs .a1).toNat i)

/-- What the trap entry makes of a proper trap. -/
theorem Entered.proper (entered : Entered g u t p s₁) (proper : ProperTrap scause u t) : ProperFrame scause s₁ p.tf := by
  have a7 : s₁.mem.load (p.tf + TrapFrame.a7) 8 = (u.regs .a7).toNat := entered.framed (.reg .a7) (by decide)
  have a1 : s₁.mem.load (p.tf + TrapFrame.a1) 8 = (u.regs .a1).toNat := entered.framed (.reg .a1) (by decide)
  have a2 : s₁.mem.load (p.tf + TrapFrame.a2) 8 = (u.regs .a2).toNat := entered.framed (.reg .a2) (by decide)
  have current : p.addr = t.current := by rw [entered.here, entered.rest]
  refine ⟨a7 ▸ proper.known, fun isEcall isCall i low => ?_⟩
  rw [a1]
  rw [a7] at isCall
  rw [a2] at low
  obtain ⟨access, x, mapped⟩ := proper.buffer isEcall isCall i low
  exact ⟨access, x, (entered.before.sv39User_congr entered.valid entered.member current entered.here _ access).trans mapped⟩

/-- From user mode a proper trap comes back to user mode, or it means to stop. -/
theorem InUserMode.completes (mode : InUserMode g h s) (kept : u.csrs .sscratch = h.csrs .sscratch)
    (rest : t = { s with mem := t.mem, uart := t.uart })
    (user : ∀ x, t.mem x ≠ s.mem x → ∃ va, sv39User s.mem s.satpRoot va .write = some x) (proper : ProperTrap scause u t) :
    (∃ h' s', Trap h s u t scause h' s') ∨ ∃ e mem reason s', run trapEntry (u, t.mem) = (e, mem) ∧
      trapHandler scause (e.regs .a0).toNat { t with mem } = .error reason s' ∧
      ((reason = .shutdown ∧ (u.regs .a7).toNat = sysExitNr ∧ RunQueue t [t.current]) ∨
        (reason = .hang ∧ (u.regs .a7).toNat = sysReadNr ∧ t.uart.waiting ≠ [])) := by
  obtain ⟨p, e, mem, entry, frame, entered⟩ := mode.enters kept rest user
  have a7 : mem.load (p.tf + TrapFrame.a7) 8 = (u.regs .a7).toNat := entered.framed (.reg .a7) (by decide)
  have framed := entered.proper proper
  have ends := entered.valid.trap_ends entered.member entered.here framed
  cases handled : trapHandler scause p.tf { t with mem } with
  | ok f s' =>
      rw [← frame] at handled framed
      refine .inl ?_
      obtain ⟨h', trap⟩ := mode.takes kept rest user entry (fun isEcall isRead => framed.buffer isEcall (.inr isRead)) handled
      exact ⟨h', s', trap⟩
  | error reason s' =>
      refine .inr ⟨e, mem, reason, s', entry, frame ▸ handled, ?_⟩
      rcases wp_error ends handled with ⟨isShutdown, isExit, queue⟩ | ⟨isHang, isRead, waiting⟩
      · refine .inl ⟨isShutdown, a7.symm.trans isExit, ?_⟩
        have only : [t.current] = g.queue := entered.valid.runQueue_eq queue
        rw [only]
        exact entered.before.runQueue
      · exact .inr ⟨isHang, a7.symm.trans isRead, waiting⟩

/-- No trap of a run of the machine but `sys_exec` panics, faults or fails an assertion: from
any registers and memory that user code can come to, the timer and every other call come
back to user mode, unless the last task exits, or `sys_read` has begun a line and waits
for the rest of it. -/
theorem traps_end (run : MachineRun h s) (kept : u.csrs .sscratch = h.csrs .sscratch) (rest : t = { s with mem := t.mem, uart := t.uart })
    (user : ∀ x, t.mem x ≠ s.mem x → ∃ va, sv39User s.mem s.satpRoot va .write = some x) (proper : ProperTrap scause u t) :
    (∃ h' s', Trap h s u t scause h' s') ∨ ∃ e mem reason s', Base.Riscv.run trapEntry (u, t.mem) = (e, mem) ∧
      trapHandler scause (e.regs .a0).toNat { t with mem } = .error reason s' ∧
      ((reason = .shutdown ∧ (u.regs .a7).toNat = sysExitNr ∧ RunQueue t [t.current]) ∨
        (reason = .hang ∧ (u.regs .a7).toNat = sysReadNr ∧ t.uart.waiting ≠ [])) := by
  obtain ⟨g, mode⟩ := run.inUserMode
  exact mode.completes kept rest user proper

end

section

attribute [local instance] Layout.sample

/-- The registers of a hart that asks for a call. -/
def calling (h : Hart) (number : UInt64) : Hart := h.write .a7 number

/-- The first task asks for its number. -/
theorem traps_end_sample : ∃ h s, MachineRun h s ∧ ∃ h' s', Trap h s (calling h 5) s scauseUserEcall h' s' := by
  obtain ⟨h, s, g, run, _⟩ := machineRun_sample
  have a7 : (calling h 5).regs .a7 = 5 := Hart.write_same
  have proper : ProperTrap scauseUserEcall (calling h 5) s := by
    refine ⟨.inr ⟨rfl, by rw [a7]; decide⟩, fun _ isCall => absurd isCall (by rw [a7]; decide)⟩
  rcases traps_end run (u := calling h 5) (t := s) rfl rfl (fun _ changed => absurd rfl changed) proper with
    trap | ⟨_, _, _, _, _, _, ⟨_, isExit, _⟩ | ⟨_, isRead, _⟩⟩
  · exact ⟨h, s, run, trap⟩
  · exact absurd isExit (by rw [a7]; decide)
  · exact absurd isRead (by rw [a7]; decide)

end

end KuroOS
