import KuroOS.Task.SyscallReturn

/-!
# What `exec` does to its caller

`exec` returns to the CPU's owner in any case. When it fails, it returns like any other
call; when it succeeds, the program that it has loaded starts at its entry point, with an
empty stack, no arguments, and the rest of the registers as the old program left them.
-/

namespace KuroOS

open Base Base.Riscv

section

/-- The registers with which a loaded program starts, when the old one had `u`. -/
structure Starts (entry : Nat) (u h : Hart) : Prop where
  sepc : (h.csrs .sepc).toNat = entry
  sp : (h.regs .sp).toNat = userStackTop
  arguments : h.regs .a0 = 0 ∧ h.regs .a1 = 0 ∧ h.regs .a2 = 0
  regs : ∀ r, r ≠ .sp → r ≠ .a0 → r ≠ .a1 → r ≠ .a2 → h.regs r = u.regs r
  sstatus : h.csrs .sstatus = u.csrs .sstatus

/-- The registers that `sys_exec` sets are set. -/
theorem loadedFrame_holds {mem : Mem} {tf entry : Nat} (word : entry < 2 ^ 64) :
    FieldsAt (storeFields mem tf (loadedFrame entry)) tf (loadedFrame entry) := by
  refine FieldsAt.storeFields (by simp [loadedFrame, Field.Apart]) fun f inside => ?_
  simp only [loadedFrame, List.mem_cons, List.not_mem_nil, or_false] at inside
  rcases inside with rfl | rfl | rfl | rfl | rfl
  · exact word
  all_goals decide

/-- A frame into which `sys_exec` has stored. -/
theorem Framed.starts {mem mem' : Mem} {tf entry : Nat} {u h : Hart} (framed : Framed mem tf u) (framed' : Framed mem' tf h)
    (word : entry < 2 ^ 64) (stored : ∀ i < trapFrameSize, i < TrapFrame.sepc ∨ TrapFrame.sepc + 8 ≤ i →
      mem' (tf + i) = storeFields mem tf (loadedFrame entry) (tf + i))
    (pc : mem'.load (tf + TrapFrame.sepc) 8 = entry) : Starts entry u h := by
  have field : ∀ f : TrapField, f ≠ .reserved → f ≠ .sepc →
      (f.value h).toNat = (storeFields mem tf (loadedFrame entry)).load (tf + f.offset) 8 := by
    intro f some notPc
    rw [← framed' f some]
    have low : f.offset + 8 ≤ trapFrameSize ∧ (f.offset + 8 ≤ TrapFrame.sepc ∨ TrapFrame.sepc + 8 ≤ f.offset) := by
      cases f with
      | reg r => cases r <;> decide
      | sepc => exact absurd rfl notPc
      | sstatus => decide
      | reserved => exact absurd rfl some
    refine Mem.load_shift fun i small => ?_
    rw [Nat.add_assoc]
    exact stored _ (by omega) (by omega)
  have holds : FieldsAt (storeFields mem tf (loadedFrame entry)) tf (loadedFrame entry) := loadedFrame_holds word
  have set : ∀ (r : Reg) (value : Nat), (⟨(TrapField.reg r).offset, 8, value⟩ : Field) ∈ loadedFrame entry → (h.regs r).toNat = value :=
    fun r value inside => by
      have isValue := field (.reg r) (by simp) (by simp)
      have stored := holds _ inside
      dsimp only at stored
      rw [stored] at isValue
      exact isValue
  have zero : ∀ r : Reg, (⟨(TrapField.reg r).offset, 8, 0⟩ : Field) ∈ loadedFrame entry → h.regs r = 0 := fun r inside =>
    UInt64.toNat_inj.mp (set r 0 inside)
  -- the fields that are not stored into
  have kept : ∀ f : TrapField, f ≠ .reserved → f ≠ .sepc →
      (∀ o ∈ [TrapFrame.sepc, TrapFrame.sp, TrapFrame.a0, TrapFrame.a1, TrapFrame.a2], f.offset + 8 ≤ o ∨ o + 8 ≤ f.offset) →
      f.value h = f.value u := fun f some notPc apart => by
    refine UInt64.toNat_inj.mp ?_
    rw [field f some notPc, ← framed f some]
    refine storeFields_load (f := ⟨f.offset, 8, 0⟩) fun g inside => ?_
    simp only [loadedFrame, List.mem_cons, List.not_mem_nil, or_false] at inside
    rcases inside with rfl | rfl | rfl | rfl | rfl <;> exact apart _ (by simp)
  have isPc := framed' .sepc (by decide)
  rw [show TrapField.sepc.offset = TrapFrame.sepc from rfl, pc] at isPc
  have offsets : (TrapField.reg .sp).offset = TrapFrame.sp ∧ (TrapField.reg .a0).offset = TrapFrame.a0 ∧
      (TrapField.reg .a1).offset = TrapFrame.a1 ∧ (TrapField.reg .a2).offset = TrapFrame.a2 := by decide
  refine ⟨isPc.symm, set .sp userStackTop ?_, ⟨zero .a0 ?_, zero .a1 ?_, zero .a2 ?_⟩, fun r sp a0 a1 a2 => ?_, ?_⟩
  · simp [loadedFrame, offsets.1]
  · simp [loadedFrame, offsets.2.1]
  · simp [loadedFrame, offsets.2.2.1]
  · simp [loadedFrame, offsets.2.2.2]
  · refine kept (.reg r) (by simp) (by simp) ?_
    cases r <;> first | exact absurd rfl sp | exact absurd rfl a0 | exact absurd rfl a1 | exact absurd rfl a2 | decide
  · exact kept .sstatus (by decide) (by decide) (by decide)

variable [Layout]

variable {g g₁ g' : World} {h h₁ u : Hart} {s s₁ s₂ s' t : Kernel} {p : TaskView} {root entry : Nat}

end

section

attribute [local instance] Layout.sample

end

end KuroOS
