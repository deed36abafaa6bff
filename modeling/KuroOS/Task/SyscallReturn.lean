import KuroOS.Task.Progress

/-!
# What a system call does to its caller

A call that is answered steps over the `ecall`, puts its result into `a0`, and changes no
other register; but for `sys_read`, which fills a buffer, it changes no byte of the
caller's memory either. That is so whichever tasks run before the caller goes on.
-/

namespace KuroOS

open Base Base.Riscv

section

/-- The bytes of the saved `sepc`. -/
def pcBytes (tf : Nat) : Set Nat := {x | tf + TrapFrame.sepc ≤ x ∧ x < tf + TrapFrame.sepc + 8}

/-- The bytes of a task that its system call changes: the result, the saved `sepc`, and what a
`sys_read` delivers. -/
def callBytes (g : World) (s : Kernel) (p : TaskView) : Set Nat :=
  {x | x ∈ resultBytes p.tf ∨ x ∈ pcBytes p.tf ∨ (s.mem.load (p.tf + TrapFrame.a7) 8 = sysReadNr ∧ g.own (pageOf x) ≠ .kstack p.addr)}

/-- Registers with which a task goes on after a call: those that it had, but for the result, at
the next instruction. -/
structure GoesOn (u h : Hart) : Prop where
  regs : ∀ r ≠ .a0, h.regs r = u.regs r
  sepc : h.csrs .sepc = u.csrs .sepc + 4
  sstatus : h.csrs .sstatus = u.csrs .sstatus

/-- A frame that differs from another one in the result and in a `sepc` that is stepped over. -/
theorem Framed.goesOn {mem mem' : Mem} {tf tf' : Nat} {u h : Hart} (framed : Framed mem tf u) (framed' : Framed mem' tf' h)
    (same : ∀ i < trapFrameSize, i < TrapFrame.a0 ∨ TrapFrame.a0 + 8 ≤ i → i < TrapFrame.sepc ∨ TrapFrame.sepc + 8 ≤ i →
      mem' (tf' + i) = mem (tf + i))
    (pc : mem'.load (tf' + TrapFrame.sepc) 8 = wadd (mem.load (tf + TrapFrame.sepc) 8) 4) : GoesOn u h := by
  have field : ∀ f : TrapField, f ≠ .reserved → f ≠ .reg .a0 → f ≠ .sepc → f.value h = f.value u := by
    intro f some notResult notPc
    refine UInt64.toNat_inj.mp ?_
    rw [← framed' f some, ← framed f some]
    have low : f.offset + 8 ≤ trapFrameSize ∧ (f.offset + 8 ≤ TrapFrame.a0 ∨ TrapFrame.a0 + 8 ≤ f.offset) ∧
        (f.offset + 8 ≤ TrapFrame.sepc ∨ TrapFrame.sepc + 8 ≤ f.offset) := by
      cases f with
      | reg r => cases r <;> first | exact absurd rfl notResult | decide
      | sepc => exact absurd rfl notPc
      | sstatus => decide
      | reserved => exact absurd rfl some
    refine Mem.load_shift fun i small => ?_
    rw [Nat.add_assoc, Nat.add_assoc]
    exact same _ (by omega) (by omega) (by omega)
  refine ⟨fun r notResult => field (.reg r) (by simp) (by simpa using notResult) (by simp), ?_, field .sstatus (by decide) (by decide) (by decide)⟩
  refine UInt64.toNat_inj.mp ?_
  have pc' := framed' .sepc (by decide)
  have before := framed .sepc (by decide)
  rw [show TrapField.sepc.offset = TrapFrame.sepc from rfl] at before pc'
  rw [show TrapField.value h .sepc = h.csrs .sepc from rfl, pc, before] at pc'
  rw [← pc', UInt64.toNat_add]
  rfl

variable [Layout]

/-- A task whose call has been stepped over. -/
structure Stepped (p : TaskView) (g : World) (s : Kernel) (g' : World) (s' : Kernel) : Prop where
  valid : Valid g' s'
  spared : SparedBut (callBytes g s p) p.addr g s g' s'
  sepc : s'.mem.load (p.tf + TrapFrame.sepc) 8 = wadd (s.mem.load (p.tf + TrapFrame.sepc) 8) 4

variable {X : Set Nat} {g g₁ g' : World} {s s₁ s₂ s' t : Kernel} {p w : TaskView} {tf scause : Nat} {h h₁ h₂ u : Hart}

omit [Layout] in
theorem resultBytes_pc {x : Nat} (inPc : x ∈ pcBytes tf) : x ∉ resultBytes tf := by
  simp only [pcBytes, resultBytes, Set.mem_ofPred_eq, TrapFrame.sepc, TrapFrame.a0] at *
  omega

namespace Stepped

/-- One more step that changes bytes of `callBytes` alone, and not the saved `sepc`. -/
theorem step (stepped : Stepped p g s g₁ s₁) (member : p ∈ g.tasks) (world : Valid g s) (valid : Valid g' s')
    (spared : SparedBut (callBytes g s p) p.addr g₁ s₁ g' s')
    (pc : ∀ x ∈ pcBytes p.tf, g₁.own (pageOf x) ∈ labels p.addr → s'.mem x = s₁.mem x) : Stepped p g s g' s' := by
  refine ⟨valid, stepped.spared.trans spared, Eq.trans (Mem.load_congr fun x low high => ?_) stepped.sepc⟩
  refine pc x ⟨low, high⟩ ?_
  have stack := (world.frame_page member (x := x) (by simp only [TrapFrame.sepc] at low; omega)
    (by simp only [TrapFrame.sepc] at high; simp only [trapFrameSize]; omega)).2
  rw [(stepped.spared.owner (.kstack p.addr) (by simp [labels]) _).mpr stack]
  simp [labels]

/-- A step that changes the bytes of the result alone. -/
theorem step_result (stepped : Stepped p g s g₁ s₁) (member : p ∈ g.tasks) (world : Valid g s) (valid : Valid g' s')
    (spared : SparedBut (resultBytes p.tf) p.addr g₁ s₁ g' s') : Stepped p g s g' s' :=
  stepped.step member world valid (spared.mono fun _ inside outside => absurd (.inl inside) outside)
    fun x inPc label => spared.bytes x (resultBytes_pc inPc) label

end Stepped

omit [Layout] in
/-- Changing bytes in a set is sparing everything else. -/
theorem SparedBut.of_bytes {task : Nat} (same : ∀ x ∉ X, s'.mem x = s.mem x) : SparedBut X task g s g s' :=
  ⟨fun v member _ => ⟨v, member, rfl⟩, rfl, fun _ _ _ => .rfl, fun x outside _ => same x outside⟩

/-- `tf->sepc += 4`. -/
theorem ValidOf.stepped_skip (valid : Valid g s) (member : p ∈ g.tasks) (current : p.addr = s.current) : Stepped p g s g (skipped p.tf s) := by
  refine ⟨valid.store_frame member current (by decide), .of_bytes fun x outside => ?_, Mem.load_store_same (wadd_lt _ _)⟩
  refine Mem.store_of_outside ?_
  by_contra inside
  refine outside (.inr (.inl ?_))
  simp only [pcBytes, Set.mem_ofPred_eq]
  omega

/-- The result. -/
theorem Stepped.store_result {value : Nat} (stepped : Stepped p g s g₁ s₁) (valid : Valid g s) (member : p ∈ g.tasks) (busy : s₁.current ≠ 0)
    (isTf : p.tf = currentFrame s₁) : Stepped p g s g₁ { s₁ with mem := s₁.mem.store (p.tf + TrapFrame.a0) 8 value } := by
  obtain ⟨q, inside, here, isFrame⟩ := stepped.valid.running busy
  have sameTf : q.tf = p.tf := isFrame.symm.trans isTf.symm
  rw [← sameTf]
  refine stepped.step_result member valid (stepped.valid.store_frame inside here (by decide)) (.of_bytes fun x outside => ?_)
  refine Mem.store_of_outside ?_
  by_contra within
  refine outside ?_
  simp only [resultBytes, Set.mem_ofPred_eq, ← sameTf]
  omega

/-- `trap_handler` steps over a call of the current task, and serves it. -/
theorem ValidOf.returnRule (valid : Valid g s) (member : p ∈ g.tasks) (current : p.addr = s.current)
    (notExit : s.mem.load (p.tf + TrapFrame.a7) 8 ≠ sysExitNr) (notExec : s.mem.load (p.tf + TrapFrame.a7) 8 ≠ sysExecNr) :
    TrapRule scauseUserEcall s p.tf (fun s' => ∃ g', s'.current = s.current ∧ Stepped p g s g' s')
      (fun _ s' => s.mem.load (p.tf + TrapFrame.a7) 8 ≠ sysReadNr → ∃ g', p.addr ∈ g'.queue ∧ Stepped p g s g' s') where
  skip := ⟨g, rfl, valid.stepped_skip member current⟩
  result := by
    rintro s₁ value ⟨_, busy, isTf⟩ ⟨g₁, same, stepped⟩
    exact ⟨g₁, same, stepped.store_result valid member busy isTf⟩
  looked := by
    rintro s₁ s' ⟨_, busy, _⟩ ⟨g₁, same, stepped⟩ looked
    exact ⟨g₁, looked.current.trans same, stepped.step_result member valid (stepped.valid.looked looked)
      (.of_bytes fun x _ => by rw [looked.mem])⟩
  delivered := by
    rintro s₁ s' isRead ⟨_, busy, isTf⟩ ⟨g₁, same, stepped⟩ delivered
    obtain ⟨q, inside, here, isFrame⟩ := stepped.valid.running busy
    have addr : q.addr = p.addr := here.trans (same.trans current.symm)
    -- what is delivered is not on the kernel stack
    have user : ∀ x, s'.mem x ≠ s₁.mem x → g₁.own (pageOf x) ≠ .kstack p.addr := fun x changed isStack => by
      obtain ⟨va, mapped⟩ := delivered.writes x changed
      rw [stepped.valid.root q inside here] at mapped
      have space := stepped.valid.world.space q inside
      obtain ⟨page, found, isPage⟩ := SpaceState.sv39User space.leaves space.tables stepped.valid.world.heap.pool
        (fun _ _ found => stepped.valid.userPage inside found) mapped
      rw [isPage] at isStack
      rcases space.mapped _ _ found with is | is <;> simp [is] at isStack
    have stack := stepped.spared.owner (.kstack p.addr) (by simp [labels])
    refine ⟨g₁, delivered.current.trans same, stepped.step member valid (delivered.valid stepped.valid busy)
      (.of_bytes fun x outside => ?_) fun x inPc label => ?_⟩
    · by_contra changed
      exact outside (.inr (.inr ⟨isRead, fun isStack => user x changed ((stack _).mpr isStack)⟩))
    · by_contra changed
      refine user x changed ((stack _).mpr ?_)
      simp only [pcBytes, Set.mem_ofPred_eq, TrapFrame.sepc] at inPc
      exact (valid.frame_page member (by omega) (by simp only [trapFrameSize]; omega)).2
  fork := by
    rintro s₁ ⟨_, busy, isTf⟩ ⟨g₁, same, stepped⟩
    obtain ⟨q, inside, here, isFrame⟩ := stepped.valid.running busy
    have addr : q.addr = p.addr := here.trans (same.trans current.symm)
    have sameTf : q.tf = p.tf := isFrame.symm.trans isTf.symm
    rw [isTf]
    refine wp_mono stepped.valid.fork_step ?_ fun _ _ => id
    rintro child s' ⟨g', valid', outcome⟩
    obtain ⟨same', _⟩ := stepped.valid.fork_spares busy outcome
    refine ⟨g', same'.trans same, stepped.step_result member valid valid' ?_⟩
    rcases outcome with ⟨rfl, rfl⟩ | ⟨q', inside', here', made⟩
    · exact .refl ..
    · obtain rfl := stepped.valid.world.eq_of_addr inside inside' (here.trans here'.symm)
      rw [sameTf] at made
      exact stepped.valid.spared_made (addr ▸ here ▸ stepped.valid.sched.current.resolve_left busy) made
  exec filename isExec := absurd isExec notExec
  preempt isRead := by
    refine wp_intro (fun _ _ _ notRead => absurd (isRead rfl) notRead) fun _ _ _ => trivial
  yield := by
    rintro s₁ _ ⟨_, busy, isTf⟩ ⟨g₁, same, stepped⟩
    rw [isTf]
    obtain ⟨f, s', returned, ⟨g₂, valid₂, queue⟩, _⟩ := stepped.valid.schedule_next busy
    have queued : p.addr ∈ g₁.queue := current ▸ same ▸ stepped.valid.sched.current.resolve_left busy
    have steps : wp (taskSchedule (currentFrame s₁)) s₁ _ fun _ _ => True := stepped.valid.schedule_step
    have ends : wp (taskSchedule (currentFrame s₁)) s₁ _ fun _ _ => True := wp_of_ok returned
    refine wp_mono (wp_and steps ends) ?_ fun _ _ _ => trivial
    rintro f s' ⟨⟨g', valid', switched⟩, rfl, rfl⟩ _
    have sameQueue : g'.queue = g₂.queue := valid₂.runQueue_eq valid'.runQueue
    refine ⟨g', by rw [sameQueue, queue]; exact queued, stepped.step_result member valid valid' ?_⟩
    exact stepped.valid.spared_switched (stepped.valid.queued_alive queued)
      (fun v member isP => stepped.valid.queued_survives queued member isP) switched
  exit isExit := absurd isExit notExit

/-- What a task goes on with once its call is answered. -/
theorem Stepped.again {g₂ : World} (stepped : Stepped p g s g₁ s₁) (valid : Valid g s) (member : p ∈ g.tasks)
    (framed : Framed s.mem p.tf u) (waits : Waits p.addr g₁ s₁ g₂ h₂ s₂) (queued : p.addr ∈ g₁.queue) (again : s₂.current = p.addr) :
    GoesOn u h₂ ∧ (s.mem.load (p.tf + TrapFrame.a7) 8 ≠ sysReadNr → ∀ va, userByte s₂ p.addr va = userByte s p.addr va) := by
  obtain ⟨w, inside, core⟩ := stepped.spared.view p member rfl
  have fields := TaskView.core_fields core
  have tf : tfOf s₁ p.addr = p.tf := by
    rw [← fields.1, ← fields.2.2.1]
    exact (stepped.valid.world.view w inside).tf
  obtain ⟨u₁, framed₁⟩ := framed_exists s₁.mem p.tf
  obtain ⟨same, bytes⟩ := waits.again stepped.valid queued again (tf ▸ framed₁)
  have stack : ∀ x, p.tf ≤ x → x < p.tf + trapFrameSize → g.own (pageOf x) = .kstack p.addr := fun x low high =>
    (valid.frame_page member low high).2
  have goes : GoesOn u u₁ := by
    refine framed.goesOn framed₁ (fun i low notResult notPc => stepped.spared.bytes _ ?_ ?_) stepped.sepc
    · simp only [callBytes, resultBytes, pcBytes, Set.mem_ofPred_eq, stack (p.tf + i) (by omega) (by omega), ne_eq, not_true_eq_false,
        and_false, or_false]
      omega
    · simp [stack (p.tf + i) (by omega) (by omega), labels]
  refine ⟨⟨fun r notResult => ?_, ?_, ?_⟩, fun notRead va => ?_⟩
  · rw [same.regs]
    exact goes.regs r notResult
  · rw [same.sepc]
    exact goes.sepc
  · rw [same.sstatus]
    exact goes.sstatus
  · rw [bytes va]
    refine valid.userByte_same stepped.valid member inside fields.1 stepped.spared.user (fun x owner => stepped.spared.bytes x ?_ ?_) va
    · rintro (inside | inside | ⟨isRead, _⟩)
      · simp only [resultBytes, Set.mem_ofPred_eq, TrapFrame.a0] at inside
        have stack := (valid.frame_page member (x := x) (by omega) (by simp only [trapFrameSize]; omega)).2
        rcases owner with is | is <;> simp [is] at stack
      · simp only [pcBytes, Set.mem_ofPred_eq, TrapFrame.sepc] at inside
        have stack := (valid.frame_page member (x := x) (by omega) (by simp only [trapFrameSize]; omega)).2
        rcases owner with is | is <;> simp [is] at stack
      · exact notRead isRead
    · rcases owner with is | is <;> simp [is, labels]

/-- An answered call of `write`, `read`, `yield`, `getpid`, `fork` or `ps` returns once: when
its task runs again, whatever ran in between, it stands after the `ecall` with every
register but `a0` as it was, and unless it asked to read, so is every byte it sees. -/
theorem syscall_returns (run : MachineRun h s) (trap : Trap h s u t scauseUserEcall h₁ s₁) (notExit : (u.regs .a7).toNat ≠ sysExitNr)
    (notExec : (u.regs .a7).toNat ≠ sysExecNr) (answered : ¬ Preempts scauseUserEcall u t) (away : Away s.current h₁ s₁ h₂ s₂)
    (again : s₂.current = s.current) :
    (∀ r ≠ .a0, h₂.regs r = u.regs r) ∧ h₂.csrs .sepc = u.csrs .sepc + 4 ∧ h₂.csrs .sstatus = u.csrs .sstatus ∧
      ((u.regs .a7).toNat ≠ sysReadNr → ∀ va, userByte s₂ s.current va = userByte t s.current va) := by
  obtain ⟨g, mode⟩ := run.inUserMode
  obtain ⟨p, s₃, f, entered, handles, reads, resumes, stack, loads⟩ := trap.spec mode
  have current : s₃.current = s.current := by rw [entered.rest, trap.rest]
  have here : p.addr = s.current := entered.here.trans current
  have isFrame : currentFrame s₃ = p.tf := entered.valid.frame p entered.member entered.here
  have a7 : s₃.mem.load (p.tf + TrapFrame.a7) 8 = (u.regs .a7).toNat := entered.framed (.reg .a7) (by decide)
  have uart : s₃.uart = t.uart := by rw [entered.rest]
  rw [← a7] at notExit notExec ⊢
  have resumes₃ : Resumes p.tf s₃ := entered.valid.resumes_same entered.member entered.here
  have rule := entered.valid.returnRule entered.member entered.here notExit notExec
  have ends := wp_returned (rule.handler resumes₃ reads) handles
  obtain ⟨g₁, queued, stepped⟩ : ∃ g₁, p.addr ∈ g₁.queue ∧ Stepped p g s₃ g₁ s₁ := by
    rcases ends with ⟨_, _, g₁, same, stepped⟩ | ⟨switches, after⟩
    · refine ⟨g₁, ?_, stepped⟩
      rw [entered.here, ← same]
      exact stepped.valid.sched.current.resolve_left resumes.2.1
    · refine after fun isRead => answered (.inr ⟨rfl, a7.symm.trans isRead, ?_⟩)
      rcases switches rfl with yields | exits | ⟨_, none⟩
      · simp [isRead] at yields
      · exact absurd exits notExit
      · rwa [uart] at none
  rw [← here] at away again ⊢
  obtain ⟨g₂, waits₂⟩ := (Waits.start stepped.valid resumes stack loads queued).away away
  obtain ⟨goes, bytes⟩ := stepped.again entered.valid entered.member entered.framed waits₂ queued again
  refine ⟨goes.regs, goes.sepc, goes.sstatus, fun notRead va => (bytes notRead va).trans ?_⟩
  exact entered.userByte va

end

section

attribute [local instance] Layout.sample

/-- The first task asks for its number and goes on. -/
theorem syscall_returns_sample : ∃ h s h₁ s₁, MachineRun h s ∧ Trap h s (calling h 5) s scauseUserEcall h₁ s₁ ∧
    h₁.csrs .sepc = h.csrs .sepc + 4 := by
  obtain ⟨h, s, g, run, mode, _⟩ := machineRun_sample
  have a7 : ((calling h 5).regs .a7).toNat = sysGetpidNr := by
    rw [calling, Hart.write_same]
    rfl
  have proper : ProperTrap scauseUserEcall (calling h 5) s := by
    refine ⟨.inr ⟨rfl, by rw [a7]; decide⟩, fun _ isCall => absurd isCall (by rw [a7]; decide)⟩
  have trap : ∃ h' s', Trap h s (calling h 5) s scauseUserEcall h' s' := by
    rcases mode.completes (u := calling h 5) (t := s) rfl rfl (fun _ changed => absurd rfl changed) proper with
      trap | ⟨_, _, _, _, _, _, ⟨_, isExit, _⟩ | ⟨_, isRead, _⟩⟩
    · exact trap
    · exact absurd isExit (by rw [a7]; decide)
    · exact absurd isRead (by rw [a7]; decide)
  obtain ⟨h₁, s₁, trap⟩ := trap
  -- the task stays the current one
  obtain ⟨p, s₃, f, entered, handles, reads, _⟩ := trap.spec mode
  have current : s₃.current = s.current := by rw [entered.rest]
  have isFrame := entered.valid.frame p entered.member entered.here
  have isCall : s₃.mem.load (p.tf + TrapFrame.a7) 8 = sysGetpidNr := (entered.framed (.reg .a7) (by decide)).trans a7
  obtain ⟨_, ends⟩ := wp_returned (entered.valid.trapHandler_spec (current ▸ mode.busy) isFrame.symm reads) handles
  have again : s₁.current = s.current := by
    rcases ends with ⟨_, _, g', served⟩ | ⟨switches, _⟩
    · exact served.current.trans current
    · rcases switches rfl with is | is | ⟨is, _⟩ <;> simp [isCall] at is
  have returns := syscall_returns run trap (by rw [a7]; decide) (by rw [a7]; decide)
    (by rintro (isTimer | ⟨_, isRead, _⟩)
        · exact absurd isTimer (by decide)
        · exact absurd isRead (by rw [a7]; decide)) .refl again
  exact ⟨h, s, h₁, s₁, run, trap, returns.2.1⟩

end

end KuroOS
