import KuroOS.Task.FirstFrames

/-!
# The way back to user mode

`sret` goes to the mode that `SPP` names, and user code runs with what the kernel gave
it: `SPP` clear, so that it is user code; `SPIE` set, so that the timer can take the CPU
back; and `SUM` set, without which `sys_write` and `sys_read` would fault. All other
results on the machine take this for granted, and here it is proved.
-/

namespace KuroOS

open Base Base.Riscv

section

variable [Layout]

/-- What `sret` and the trap after it make of the status. Code that runs in between has no
way to the bits that matter. -/
def TrapsFrom (h u : Hart) : Prop :=
  ∃ status, StatusKept (sretStatus (h.csrs .sstatus)) status ∧ u.csrs .sstatus = trapStatus (sretMode (h.csrs .sstatus)) status

/-- Runs of the machine in which the hardware keeps `sstatus`. `vm_init` has set `SUM`. -/
inductive StatusRun : Hart → Kernel → Prop
  | enter {a h : Hart} {s : Kernel} (starts : AfterUserInit s) (userSp : (a.regs .a0).toNat = s.mem.load (s.current + Task.userSp) 8)
      (entry : (a.regs .a1).toNat = s.mem.load (s.current + Task.entry) 8) (stack : (a.regs .a2).toNat = kernelSpOf s s.current)
      (access : bit (a.csrs .sstatus) sumBit = true) (enters : run enterUser (a, s.mem) = (h, s.mem)) : StatusRun h s
  | trap {h u h' : Hart} {s t s' : Kernel} {scause : Nat} (before : StatusRun h s) (traps : TrapsFrom h u)
      (trap : Trap h s u t scause h' s') : StatusRun h' s'

variable {g : World} {h h' u : Hart} {s s' s₁ t : Kernel} {p : TaskView} {scause : Nat}

theorem StatusRun.machineRun (run : StatusRun h s) : MachineRun h s := by
  induction run with
  | enter starts userSp entry stack access enters => exact .enter starts userSp entry stack enters
  | trap before traps trap ih => exact ih.trap trap

/-- `trap_entry` stores the status of the trap for its task, and the others keep theirs. -/
theorem Trap.userFrames (mode : InUserMode g h s) (trap : Trap h s u t scause h' s') (entered : Entered g u t p s₁) (frames : UserFrames s)
    (status : UserStatus (u.csrs .sstatus)) : UserFrames s₁ := by
  have current : s₁.current = s.current := by rw [entered.rest, trap.rest]
  refine mode.valid.userFrames_step entered.valid frames fun task queued => ?_
  obtain ⟨v, known, rfl⟩ := mode.valid.sched.books.known task queued
  by_cases here : v.addr = s.current
  · obtain rfl := entered.valid.world.eq_of_addr known entered.member (here.trans (current.symm.trans entered.here.symm))
    have stored : s₁.mem.load (v.tf + TrapFrame.sstatus) 8 = (u.csrs .sstatus).toNat := entered.framed .sstatus (by decide)
    right
    rw [frameStatus, show tfOf s₁ v.addr = v.tf from (entered.valid.world.view v known).tf, stored, UInt64.ofNat_toNat]
    exact status
  · exact .inl ⟨queued, (trap.spares mode entered here).frameStatus mode.valid entered.valid known (by simp)⟩

/-- The kernel always goes back to user mode, with interrupts enabled and with its own access
to user pages; and so it will for every task on the run queue. -/
theorem returns_to_user_mode (run : StatusRun h s) : UserStatus (h.csrs .sstatus) ∧ UserFrames s := by
  induction run with
  | @enter a h s starts _ _ _ access enters =>
      obtain ⟨h', enters', _, _, _, _, status⟩ := enterUser_spec a s.mem
      obtain rfl : h = h' := by simpa [enters] using enters'
      refine ⟨⟨?_, ?_, ?_⟩, starts.userFrames⟩
      · rw [sretMode, bit, status _ (by decide)]
        rfl
      · rw [bit, status _ (by decide)]
        rfl
      · rw [bit, status _ (by decide)]
        exact access
  | @trap h u h' s t s' scause before traps trap ih =>
      obtain ⟨user, frames⟩ := ih
      obtain ⟨status, kept, isStatus⟩ := traps
      obtain ⟨g, mode⟩ := before.machineRun.inUserMode
      obtain ⟨p, s₁, f, entered, handles, reads, resumes, _, loads⟩ := trap.spec mode
      have taken : UserStatus (u.csrs .sstatus) := isStatus ▸ user.of_bits (trapStatus_sretStatus kept)
      have resumes₁ : Resumes p.tf s₁ := entered.valid.resumes_same entered.member entered.here
      have ends := wp_returned (((trap.userFrames mode entered frames taken).trapRule resumes₁).handler resumes₁ reads) handles
      have frames' : UserFrames s' := by
        rcases ends with ⟨_, _, stays⟩ | ⟨_, switched⟩
        · exact stays
        · exact switched
      refine ⟨?_, frames'⟩
      -- the way out loads the status of the frame of the task that runs next
      obtain ⟨u', framed⟩ := framed_exists s'.mem f
      have loaded : frameStatus s' s'.current = h'.csrs .sstatus := by
        have word : s'.mem.load (f + TrapFrame.sstatus) 8 = (u'.csrs .sstatus).toNat := framed .sstatus (by decide)
        rw [frameStatus, ← resumes.frame_tf, word, UInt64.ofNat_toNat, (loads u' framed).sstatus]
      obtain ⟨⟨g', valid'⟩, busy, _⟩ := resumes
      rw [← loaded]
      exact frames' _ valid'.runQueue _ (valid'.sched.current.resolve_left busy)

end

section

attribute [local instance] Layout.sample

/-- The timer interrupts the first task at once. -/
theorem returns_to_user_mode_sample : ∃ h s u h' s', StatusRun h s ∧ Trap h s u s scauseTimer h' s' ∧ UserStatus (h'.csrs .sstatus) := by
  obtain ⟨s, g, returned, valid, busy, _⟩ := kernelMain_sample
  obtain ⟨a, h, userSp, entry, stack, isStatus, enters, mode⟩ := enterUser_args valid busy 0x40000
  have access : bit (a.csrs .sstatus) sumBit = true := by
    rw [isStatus]
    decide
  have run : StatusRun h s := .enter ⟨_, powerOn_sample, returned⟩ userSp entry stack access enters
  obtain ⟨u, isU⟩ : ∃ u : Hart, u = h.writeCsr .sstatus (trapStatus (sretMode (h.csrs .sstatus)) (sretStatus (h.csrs .sstatus))) := ⟨_, rfl⟩
  obtain ⟨h', s', _, trap, _⟩ := mode.timer (u := u) (by rw [isU, Hart.writeCsr_other (by decide)])
  have traps : TrapsFrom h u := ⟨_, ⟨rfl, rfl⟩, by rw [isU, Hart.writeCsr_same]⟩
  exact ⟨h, s, u, h', s', run, trap, (returns_to_user_mode (run.trap traps trap)).1⟩

end

end KuroOS
