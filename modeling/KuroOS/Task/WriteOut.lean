import KuroOS.Task.Reach
import KuroOS.Task.SyscallReturn

/-!
# What a program prints

`sys_write` sends the bytes that its caller sees in the buffer, all of them, in their
order and nothing else, however the buffer lies in the pages of the caller.
-/

namespace KuroOS

open Base Base.Riscv

section

variable [Layout] {g : World} {h h' u : Hart} {s s₁ s' t : Kernel} {p : TaskView} {va fd buf : Nat} {bytes : List UInt8}

namespace ValidOf

/-- The kernel reads through a pointer of the current task what the task itself would. -/
theorem readUser_userByte (valid : Valid g s) (member : p ∈ g.tasks) (current : p.addr = s.current) (looked : Looked s s₁) {c : UInt8}
    (isByte : userByte s p.addr va = some c) : wp (readUser va) s₁ (fun b s' => b = c ∧ Looked s s' ∧ s'.uart = s₁.uart) fun _ _ => False := by
  unfold userByte at isByte
  obtain ⟨x, mapped, isC⟩ := Option.map_eq_some_iff.mp isByte
  obtain ⟨page, found, isX⟩ := valid.reach_page member mapped
  have bounds := (valid.userPage member found).bounds
  have root : s.satpRoot = pagetableOf s p.addr := (valid.root p member current).trans (valid.world.view p member).pagetable.symm
  rw [← root] at mapped
  have walk : sv39 s₁.mem s₁.satpRoot va .read = some x := by
    rw [looked.mem, looked.root]
    exact (valid.userPage_reached member current mapped).1
  have memory : isUart x = false := by
    simp only [isUart, uartBase, pageSize, Bool.and_eq_false_iff, decide_eq_false_iff_not]
    omega
  unfold readUser recordDeref readVirtual
  simp only [wp_bind, wp_modify, wp_get, walk, memory, Bool.false_eq_true, if_false, wp_pure]
  exact ⟨by rw [looked.mem, isC], looked.trans rfl, trivial⟩

/-- `sys_write` on the console. -/
theorem sysWrite_sends (valid : Valid g s) (member : p ∈ g.tasks) (current : p.addr = s.current) (console : fd = 1 ∨ fd = 2)
    (reads : ∀ i (inside : i < bytes.length), userByte s p.addr (wadd buf i) = some bytes[i]) :
    wp (sysWrite fd buf bytes.length) s (fun r s' => r = bytes.length ∧ Looked s s' ∧
      s'.uart = { s.uart with sent := s.uart.sent ++ bytes }) fun _ _ => False := by
  unfold sysWrite
  rw [if_neg (by omega)]
  -- after `i` rounds the first `i` bytes are out
  refine wp_bind_of (wp_countUp (fun i s' => Looked s s' ∧ s'.uart = { s.uart with sent := s.uart.sent ++ bytes.take i })
    ⟨.refl s, by simp⟩ fun i inside s₁ before => ?_) fun _ s' after => ?_
  · obtain ⟨looked, sent⟩ := before
    refine wp_bind_of (valid.readUser_userByte member current looked (reads i inside)) ?_
    rintro c s₂ ⟨rfl, looked₂, same⟩
    refine wp_uartPutc.mpr ⟨looked₂.trans rfl, ?_⟩
    dsimp only
    rw [same, sent, List.append_assoc, List.take_append_getElem inside]
  · obtain ⟨looked, sent⟩ := after
    rw [List.take_length] at sent
    exact (wp_pure _).mpr ⟨rfl, looked, sent⟩

/-- A call of `write`. -/
theorem writeCall (valid : Valid g s) (member : p ∈ g.tasks) (current : p.addr = s.current)
    (isWrite : s.mem.load (p.tf + TrapFrame.a7) 8 = sysWriteNr) (length : s.mem.load (p.tf + TrapFrame.a2) 8 = bytes.length)
    (reads : ∀ i (inside : i < bytes.length), userByte s p.addr (wadd (s.mem.load (p.tf + TrapFrame.a1) 8) i) = some bytes[i]) :
    wp (trapHandler scauseUserEcall p.tf) s (fun f s' => f = p.tf ∧ s'.current = s.current ∧
      if s.mem.load (p.tf + TrapFrame.a0) 8 = 1 ∨ s.mem.load (p.tf + TrapFrame.a0) 8 = 2 then
        s'.mem.load (p.tf + TrapFrame.a0) 8 = bytes.length ∧ s'.uart = { s.uart with sent := s.uart.sent ++ bytes }
      else s'.mem.load (p.tf + TrapFrame.a0) 8 = minusOne ∧ s'.uart = s.uart) fun _ _ => False := by
  obtain ⟨s₀, valid₀, here₀, rest₀, reg, same, _, skip⟩ := valid.skipping member current
  have current₀ : s₀.current = s.current := by rw [rest₀]
  have uart₀ : s₀.uart = s.uart := by rw [rest₀]
  have word : bytes.length < 2 ^ 64 := length ▸ Mem.load_lt s.mem _ 8
  unfold trapHandler syscallDispatch
  rw [if_pos rfl, wp_bind, wp_loadWord, isWrite, if_pos rfl]
  refine wp_bind_of skip fun _ s₂ is₂ => ?_
  rw [is₂]
  simp only [wp_bind, wp_loadWord, wp_storeWord, wp_pure]
  rw [reg TrapFrame.a0 (by decide), reg TrapFrame.a1 (by decide), reg TrapFrame.a2 (by decide), length]
  split
  · next console =>
      have reads₀ : ∀ i (inside : i < bytes.length), userByte s₀ p.addr (wadd (s.mem.load (p.tf + TrapFrame.a1) 8) i) = some bytes[i] :=
        fun i inside => (same _).trans (reads i inside)
      refine wp_mono (valid₀.sysWrite_sends member here₀ console reads₀) ?_ fun _ _ never => never
      rintro _ s' ⟨rfl, looked, sent⟩
      exact ⟨trivial, looked.current.trans current₀, Mem.load_store_same word, by rw [← uart₀]; exact sent⟩
  · next other =>
      unfold sysWrite
      rw [if_pos (not_or.mp other), wp_pure]
      exact ⟨trivial, current₀, Mem.load_store_same (by decide), uart₀⟩

end ValidOf

/-- A `write` of a run of the machine sends the bytes that its caller reads in the buffer, and
returns their number; on another file it sends nothing and fails. -/
theorem write_sends (run : MachineRun h s) (trap : Trap h s u t scauseUserEcall h' s') (isWrite : (u.regs .a7).toNat = sysWriteNr)
    (length : (u.regs .a2).toNat = bytes.length)
    (reads : ∀ i (inside : i < bytes.length), userByte t s.current (wadd (u.regs .a1).toNat i) = some bytes[i]) :
    s'.current = s.current ∧ if (u.regs .a0).toNat = 1 ∨ (u.regs .a0).toNat = 2 then
      (h'.regs .a0).toNat = bytes.length ∧ s'.uart = { t.uart with sent := t.uart.sent ++ bytes }
    else (h'.regs .a0).toNat = minusOne ∧ s'.uart = t.uart := by
  obtain ⟨g, mode⟩ := run.inUserMode
  obtain ⟨p, s₁, f, entered, handles, _, resumes, _, loads⟩ := trap.spec mode
  have current : s₁.current = s.current := by rw [entered.rest, trap.rest]
  have here : p.addr = s.current := entered.here.trans current
  have uart : s₁.uart = t.uart := by rw [entered.rest]
  have reg : ∀ r : Reg, s₁.mem.load (p.tf + (TrapField.reg r).offset) 8 = (u.regs r).toNat := fun r => entered.framed (.reg r) (by simp)
  have a0 : s₁.mem.load (p.tf + TrapFrame.a0) 8 = (u.regs .a0).toNat := reg .a0
  have a1 : s₁.mem.load (p.tf + TrapFrame.a1) 8 = (u.regs .a1).toNat := reg .a1
  have a2 : s₁.mem.load (p.tf + TrapFrame.a2) 8 = (u.regs .a2).toNat := reg .a2
  have a7 : s₁.mem.load (p.tf + TrapFrame.a7) 8 = (u.regs .a7).toNat := reg .a7
  have call := entered.valid.writeCall entered.member entered.here (a7.trans isWrite) (a2.trans length) fun i inside => by
    rw [a1, entered.userByte, here]
    exact reads i inside
  obtain ⟨isF, same, outcome⟩ := wp_returned (wp_mono call (fun _ _ => id) fun _ _ _ => trivial) handles
  obtain ⟨u₁, framed⟩ := framed_exists s'.mem p.tf
  have result : (h'.regs .a0).toNat = s'.mem.load (p.tf + TrapFrame.a0) 8 := by
    rw [(loads u₁ (isF ▸ framed)).regs]
    exact (framed (.reg .a0) (by decide)).symm
  rw [a0, uart] at outcome
  rw [result]
  exact ⟨same.trans current, outcome⟩

end

section

attribute [local instance] Layout.sample

/-- The first task writes the lowest byte of its stack. -/
theorem write_sends_sample : ∃ h s u h' s' c, MachineRun h s ∧ Trap h s u s scauseUserEcall h' s' ∧ s'.uart.sent = s.uart.sent ++ [c] := by
  obtain ⟨s, g, returned, valid, busy, _, _, w, member, here, stack⟩ := kernelMain_stack
  obtain ⟨a, h, userSp, entry, kernelSp, _, enters, mode⟩ := enterUser_args valid busy 0
  have run : MachineRun h s := .enter ⟨_, powerOn_sample, returned⟩ userSp entry kernelSp enters
  obtain ⟨u, isU⟩ : ∃ u : Hart, u = (((h.write .a7 1).write .a0 1).write .a1 (.ofNat (4096 * stackVpn))).write .a2 1 := ⟨_, rfl⟩
  have a7 : (u.regs .a7).toNat = sysWriteNr := by
    rw [isU, Hart.write_other (by decide), Hart.write_other (by decide), Hart.write_other (by decide), Hart.write_same]
    rfl
  have a0 : (u.regs .a0).toNat = 1 := by
    rw [isU, Hart.write_other (by decide), Hart.write_other (by decide), Hart.write_same]
    rfl
  have a1 : (u.regs .a1).toNat = 4096 * stackVpn := by
    rw [isU, Hart.write_other (by decide), Hart.write_same]
    rfl
  obtain ⟨c, isC⟩ : ∃ c, c = s.mem (w.userStack + 0) := ⟨_, rfl⟩
  have a2 : (u.regs .a2).toNat = [c].length := by
    rw [isU, Hart.write_same]
    rfl
  have mapped := valid.sv39User_of_mapped member here stack (show 0 < 4096 by decide) .read
  have byte := valid.userByte_page member stack (show 0 < 4096 by decide)
  have address : ∀ i < 1, wadd (u.regs .a1).toNat i = 4096 * stackVpn + 0 := fun i low => by
    obtain rfl : i = 0 := by omega
    rw [a1]
    rfl
  have proper : ProperTrap scauseUserEcall u s := by
    refine ⟨.inr ⟨rfl, by rw [a7]; decide⟩, fun _ _ i low => ?_⟩
    rw [a2] at low
    rw [address i low]
    exact ⟨.read, _, mapped⟩
  rcases mode.completes (t := s) (by rw [isU]; rfl) rfl (fun _ changed => absurd rfl changed) proper with
    ⟨h', s', trap⟩ | ⟨_, _, _, _, _, _, ⟨_, isExit, _⟩ | ⟨_, isRead, _⟩⟩
  · have reads : ∀ i (inside : i < [c].length), userByte s s.current (wadd (u.regs .a1).toNat i) = some [c][i] := fun i inside => by
      rw [address i inside, ← here, byte, ← isC]
      obtain rfl : i = 0 := by simpa using inside
      rfl
    have sends := (write_sends run trap a7 a2 reads).2
    rw [if_pos (.inl a0)] at sends
    exact ⟨h, s, u, h', s', c, run, trap, by rw [sends.2]⟩
  · exact absurd isExit (by rw [a7]; decide)
  · exact absurd isRead (by rw [a7]; decide)

end

end KuroOS
