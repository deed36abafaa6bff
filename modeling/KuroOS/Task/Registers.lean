import KuroOS.Kernel.TrapEntry

/-!
# What a trap frame holds

`trap_entry` numbers the slots of the frame by hand, and `struct trap_frame` numbers
them by the order of its fields. They agree: the C code finds every register in the
field of its name, and the way out takes every register from there.
-/

namespace KuroOS

open Base Base.Riscv

/-- What a hart holds in a field. -/
def TrapField.value (h : Hart) : TrapField → UInt64
  | .reg r => h.regs r
  | .sepc => h.csrs .sepc
  | .sstatus => h.csrs .sstatus
  | .reserved => 0

/-- The registers of a hart are in a frame, each in its field. -/
def Framed (mem : Mem) (frame : Nat) (h : Hart) : Prop :=
  ∀ field ≠ TrapField.reserved, mem.load (frame + field.offset) 8 = (field.value h).toNat

/-- A hart that goes back to user mode runs as another one did: the same registers,
the same program counter and status. -/
structure SameContext (h h' : Hart) : Prop where
  regs : h'.regs = h.regs
  sepc : h'.csrs .sepc = h.csrs .sepc
  sstatus : h'.csrs .sstatus = h.csrs .sstatus

/-- The slots of the registers that are stored as they stand. -/
def plainSlots : List (Reg × Nat) := [
  (.ra, 0), (.gp, 8), (.tp, 16), (.t0, 24), (.t1, 32), (.t2, 40), (.s0, 48), (.s1, 56),
  (.a0, 64), (.a1, 72), (.a2, 80), (.a3, 88), (.a4, 96), (.a5, 104), (.a6, 112), (.a7, 120),
  (.s2, 128), (.s3, 136), (.s4, 144), (.s5, 152), (.s6, 160), (.s7, 168), (.s8, 176), (.s9, 184), (.s10, 192), (.s11, 200),
  (.t3, 208), (.t4, 216), (.t5, 224), (.t6, 232)]

theorem plainSlots_apart : plainSlots.Pairwise fun a b => a.2 + 8 ≤ b.2 ∨ b.2 + 8 ≤ a.2 := by decide

theorem plainSlots_inside : ∀ slot ∈ plainSlots, slot.2 + 8 ≤ 240 := by decide

/-- The slots are those of the fields. -/
theorem plainSlots_field {r : Reg} (other : r ≠ .sp) : (r, (TrapField.reg r).offset) ∈ plainSlots := by
  cases r <;> first | exact absurd rfl other | decide

theorem plainSlots_regs {r : Reg} : r ∈ plainSlots.map Prod.fst ↔ r ≠ .sp := by
  cases r <;> decide

theorem trapEntry_eq : trapEntry = [.csrrw .sp .sscratch .sp, .addi .sp .sp (-272)] ++ stores .sp plainSlots ++
    [.csrr .t0 .sscratch, .sd .t0 240 .sp, .csrr .t0 .sepc, .sd .t0 248 .sp, .csrr .t0 .sstatus, .sd .t0 256 .sp,
      .mv .a0 .sp] := rfl

theorem trapReturn_eq : trapReturn = [.mv .sp .a0, .addi .t0 .sp 272, .csrw .sscratch .t0, .ld .t0 248 .sp, .csrw .sepc .t0,
    .ld .t0 256 .sp, .csrw .sstatus .t0] ++ loads .sp plainSlots ++ [.ld .sp 240 .sp] := rfl

variable {h : Hart} {mem : Mem}

/-- `trap_entry` builds the frame below `sscratch`. -/
theorem trapEntry_spec (mem : Mem) (room : trapFrameSize ≤ (h.csrs .sscratch).toNat) :
    ∃ h' mem', run trapEntry (h, mem) = (h', mem') ∧ (h'.regs .a0).toNat = (h.csrs .sscratch).toNat - trapFrameSize ∧
      Framed mem' ((h.csrs .sscratch).toNat - trapFrameSize) h ∧
      ∀ x, x < (h.csrs .sscratch).toNat - trapFrameSize ∨ (h.csrs .sscratch).toNat - 8 ≤ x → mem' x = mem x := by
  obtain ⟨frame, isFrame⟩ : ∃ frame, frame = h.csrs .sscratch + UInt64.ofInt (-272) := ⟨_, rfl⟩
  have below : frame.toNat = (h.csrs .sscratch).toNat - trapFrameSize := by
    have bound := (h.csrs .sscratch).toNat_lt
    rw [isFrame, UInt64.toNat_add, show (UInt64.ofInt (-272)).toNat = 2 ^ 64 - 272 by decide]
    simp only [trapFrameSize] at *
    omega
  have bound := (h.csrs .sscratch).toNat_lt
  rw [← below]
  have address : ∀ offset ≤ 264, slotAddress frame offset = frame.toNat + offset := fun offset low =>
    slotAddress_of_le (by simp only [trapFrameSize] at *; omega)
  -- the user's stack pointer waits in `sscratch`
  obtain ⟨swapped, isSwapped⟩ : ∃ swapped, swapped = (h.writeCsr .sscratch (h.regs .sp)).write .sp frame := ⟨_, rfl⟩
  have base : swapped.regs .sp = frame := by rw [isSwapped, Hart.write_same]
  have reg : ∀ r ≠ .sp, swapped.regs r = h.regs r := fun r other => by rw [isSwapped, Hart.write_other other, Hart.writeCsr_regs]
  obtain ⟨mem₁, runs, outside, holds⟩ := run_stores (h := swapped) (m := mem) (b := .sp) (n := 240)
    (by rw [base, below]; simp only [trapFrameSize] at *; omega) plainSlots_inside plainSlots_apart
  rw [base] at outside holds
  obtain ⟨mem', isMem⟩ : ∃ mem', mem' = ((mem₁.store (frame.toNat + 240) 8 (h.regs .sp).toNat).store (frame.toNat + 248) 8
    (h.csrs .sepc).toNat).store (frame.toNat + 256) 8 (h.csrs .sstatus).toNat := ⟨_, rfl⟩
  refine ⟨((swapped.write .t0 (h.csrs .sstatus)).write .a0 frame), mem', ?_, by rw [Hart.write_same], ?_, fun x clear => ?_⟩
  · have first : run [.csrrw .sp .sscratch .sp, .addi .sp .sp (-272)] (h, mem) = (swapped, mem) := by
      simp [run, exec, isSwapped, isFrame, Hart.write, Hart.writeCsr]
    have spill : ∀ (value : UInt64) (c : Csr) (offset : Nat) (mem : Mem), offset ≤ 264 →
        run [.csrr .t0 c, .sd .t0 offset .sp] (swapped.write .t0 value, mem) =
          (swapped.write .t0 (swapped.csrs c), mem.store (frame.toNat + offset) 8 (swapped.csrs c).toNat) := by
      intro value c offset mem low
      have kept : ((swapped.write .t0 value).write .t0 (swapped.csrs c)).regs .sp = frame := by
        rw [Hart.write_other (by decide), Hart.write_other (by decide), base]
      rw [run_cons, run_cons, run_nil, exec, exec, Hart.write_csrs, kept, address offset low, Hart.write_same]
      simp [Hart.write]
    have start : swapped = swapped.write .t0 (swapped.regs .t0) := by simp [Hart.write]
    have csrs : swapped.csrs .sscratch = h.regs .sp ∧ swapped.csrs .sepc = h.csrs .sepc ∧ swapped.csrs .sstatus = h.csrs .sstatus := by
      simp [isSwapped, Hart.writeCsr_other]
    rw [trapEntry_eq, run_append, run_append, first, runs, show (swapped, mem₁) = (swapped.write .t0 (swapped.regs .t0), mem₁) by rw [← start]]
    rw [show ([.csrr .t0 .sscratch, .sd .t0 240 .sp, .csrr .t0 .sepc, .sd .t0 248 .sp, .csrr .t0 .sstatus, .sd .t0 256 .sp,
      .mv .a0 .sp] : List Instr) = [.csrr .t0 .sscratch, .sd .t0 240 .sp] ++ ([.csrr .t0 .sepc, .sd .t0 248 .sp] ++
        ([.csrr .t0 .sstatus, .sd .t0 256 .sp] ++ [.mv .a0 .sp])) from rfl]
    rw [run_append, spill _ _ _ _ (by decide), run_append, spill _ _ _ _ (by decide), run_append, spill _ _ _ _ (by decide),
      csrs.1, csrs.2.1, csrs.2.2, run_cons, run_nil, exec, Hart.write_other (by decide), base, isMem]
  · intro field some
    rw [isMem]
    -- a plain slot lies below the three that follow it
    have plain : ∀ r ≠ .sp, mem₁.load (frame.toNat + (TrapField.reg r).offset) 8 = (h.regs r).toNat ∧
        (TrapField.reg r).offset + 8 ≤ 240 := fun r other => by
      refine ⟨?_, plainSlots_inside _ (plainSlots_field other)⟩
      rw [← reg r other]
      exact holds (r, (TrapField.reg r).offset) (plainSlots_field other)
    cases field with
    | reg r =>
        by_cases isSp : r = .sp
        · subst isSp
          rw [show (TrapField.reg .sp).offset = 240 from rfl, Mem.load_store_of_disjoint (by omega), Mem.load_store_of_disjoint (by omega)]
          exact Mem.load_store_same (h.regs .sp).toNat_lt
        · obtain ⟨value, low⟩ := plain r isSp
          rw [Mem.load_store_of_disjoint (by omega), Mem.load_store_of_disjoint (by omega), Mem.load_store_of_disjoint (by omega)]
          exact value
    | sepc =>
        rw [show TrapField.sepc.offset = 248 from rfl, Mem.load_store_of_disjoint (by omega)]
        exact Mem.load_store_same (h.csrs .sepc).toNat_lt
    | sstatus =>
        rw [show TrapField.sstatus.offset = 256 from rfl]
        exact Mem.load_store_same (h.csrs .sstatus).toNat_lt
    | reserved => exact absurd rfl some
  · simp only [trapFrameSize] at room below
    rw [isMem, Mem.store_of_outside (by omega), Mem.store_of_outside (by omega), Mem.store_of_outside (by omega)]
    exact outside x fun slot member => by
      have := plainSlots_inside slot member
      omega

/-- The way out takes everything from the frame in `a0`. -/
theorem trapReturn_spec (room : (h.regs .a0).toNat + trapFrameSize ≤ 2 ^ 64) {u : Hart} (framed : Framed mem (h.regs .a0).toNat u) :
    ∃ h', run trapReturn (h, mem) = (h', mem) ∧ SameContext u h' ∧ (h'.csrs .sscratch).toNat = wadd (h.regs .a0).toNat trapFrameSize := by
  obtain ⟨frame, isFrame⟩ : ∃ frame, frame = h.regs .a0 := ⟨_, rfl⟩
  rw [← isFrame] at room framed ⊢
  simp only [trapFrameSize] at room
  have address : ∀ offset ≤ 264, slotAddress frame offset = frame.toNat + offset := fun offset low =>
    slotAddress_of_le (by omega)
  have field : ∀ f ≠ TrapField.reserved, UInt64.ofNat (mem.load (frame.toNat + f.offset) 8) = f.value u := fun f some => by
    rw [framed f some, UInt64.ofNat_toNat]
  have sepc : UInt64.ofNat (mem.load (slotAddress frame 248) 8) = u.csrs .sepc := by
    have value := field .sepc (by decide)
    rwa [show TrapField.sepc.offset = 248 from rfl, ← address 248 (by decide)] at value
  have sstatus : UInt64.ofNat (mem.load (slotAddress frame 256) 8) = u.csrs .sstatus := by
    have value := field .sstatus (by decide)
    rwa [show TrapField.sstatus.offset = 256 from rfl, ← address 256 (by decide)] at value
  -- the control registers come back through `t0`
  obtain ⟨h₁, runs₁, base, csrs⟩ : ∃ h₁, run [.mv .sp .a0, .addi .t0 .sp 272, .csrw .sscratch .t0, .ld .t0 248 .sp, .csrw .sepc .t0,
      .ld .t0 256 .sp, .csrw .sstatus .t0] (h, mem) = (h₁, mem) ∧ h₁.regs .sp = frame ∧ h₁.csrs .sscratch = frame + UInt64.ofInt 272 ∧
      h₁.csrs .sepc = u.csrs .sepc ∧ h₁.csrs .sstatus = u.csrs .sstatus := by
    refine ⟨_, rfl, ?_, ?_, ?_, ?_⟩ <;> simp [Hart.write_other, Hart.writeCsr_other, ← isFrame, sepc, sstatus]
  obtain ⟨h₂, runs₂, csrs₂, kept, loaded⟩ := run_loads (h := h₁) (m := mem) (b := .sp)
    (fun slot member => by
      have := plainSlots_inside slot member
      rw [base]
      omega) (by decide) (by decide)
  rw [base] at loaded
  have base₂ : h₂.regs .sp = frame := (kept .sp (by decide)).trans base
  have sp : UInt64.ofNat (mem.load (slotAddress frame 240) 8) = u.regs .sp := by
    have value := field (.reg .sp) (by decide)
    rwa [show (TrapField.reg .sp).offset = 240 from rfl, ← address 240 (by decide)] at value
  refine ⟨h₂.write .sp (u.regs .sp), ?_, ⟨funext fun r => ?_, ?_, ?_⟩, ?_⟩
  · rw [trapReturn_eq, run_append, run_append, runs₁, runs₂, run_cons, run_nil, exec, base₂, sp]
  · by_cases isSp : r = .sp
    · rw [isSp, Hart.write_same]
    · rw [Hart.write_other isSp, loaded (r, (TrapField.reg r).offset) (plainSlots_field isSp)]
      exact field (.reg r) (by simp)
  · rw [Hart.write_csrs, csrs₂, csrs.2.1]
  · rw [Hart.write_csrs, csrs₂, csrs.2.2]
  · rw [Hart.write_csrs, csrs₂, csrs.1, UInt64.toNat_add, wadd]
    rfl

/-- Only the bytes of the frame count. -/
theorem Framed.copy {mem' : Mem} {frame frame' : Nat} (framed : Framed mem frame h)
    (same : ∀ i < trapFrameSize, mem' (frame' + i) = mem (frame + i)) : Framed mem' frame' h := by
  intro field some
  rw [← framed field some]
  have low : field.offset + 8 ≤ trapFrameSize := by
    cases field with
    | reg r => cases r <;> decide
    | sepc | sstatus | reserved => decide
  refine Mem.load_shift fun i small => ?_
  rw [Nat.add_assoc, Nat.add_assoc]
  exact same _ (by omega)

/-- Any frame holds some registers. -/
theorem framed_exists (mem : Mem) (frame : Nat) : ∃ u, Framed mem frame u := by
  have word : ∀ field : TrapField, (UInt64.ofNat (mem.load (frame + field.offset) 8)).toNat = mem.load (frame + field.offset) 8 :=
    fun field => UInt64.toNat_ofNat_of_lt' (Mem.load_lt mem _ 8)
  refine ⟨⟨fun r => .ofNat (mem.load (frame + (TrapField.reg r).offset) 8), fun c => match c with
    | .sepc => .ofNat (mem.load (frame + TrapField.sepc.offset) 8)
    | .sstatus => .ofNat (mem.load (frame + TrapField.sstatus.offset) 8)
    | .sscratch => 0⟩, fun field some => ?_⟩
  cases field with
  | reg r => exact (word (.reg r)).symm
  | sepc => exact (word .sepc).symm
  | sstatus => exact (word .sstatus).symm
  | reserved => exact absurd rfl some

/-- What `trap_entry` saves comes back: it puts each register into the field of its name,
and writes no byte outside the frame; and whatever the registers and the rest of memory
are later, the way out through these bytes, where they stand or copied to another
stack, goes on as the interrupted code would have, with `sscratch` at the end of the
frame. -/
theorem trap_frame_round_trip (h : Hart) (mem : Mem) (room : trapFrameSize ≤ (h.csrs .sscratch).toNat) :
    ∃ h' mem' frame, run trapEntry (h, mem) = (h', mem') ∧ frame + trapFrameSize = (h.csrs .sscratch).toNat ∧ (h'.regs .a0).toNat = frame ∧
      (∀ r, mem'.load (frame + (TrapField.reg r).offset) 8 = (h.regs r).toNat) ∧
      (∀ x, x < frame ∨ frame + trapFrameSize ≤ x → mem' x = mem x) ∧
      ∀ (after : Hart) (mem'' : Mem), (∀ i < trapFrameSize, mem'' ((after.regs .a0).toNat + i) = mem' (frame + i)) →
        (after.regs .a0).toNat + trapFrameSize ≤ 2 ^ 64 →
        ∃ h'', run trapReturn (after, mem'') = (h'', mem'') ∧ h''.regs = h.regs ∧ h''.csrs .sepc = h.csrs .sepc ∧
          h''.csrs .sstatus = h.csrs .sstatus ∧ (h''.csrs .sscratch).toNat = wadd (after.regs .a0).toNat trapFrameSize := by
  obtain ⟨h', mem', runs, isFrame, framed, outside⟩ := trapEntry_spec mem room
  refine ⟨h', mem', _, runs, Nat.sub_add_cancel room, isFrame, fun r => framed (.reg r) (by simp), fun x clear => outside x (by omega), ?_⟩
  intro after mem'' same fits
  obtain ⟨h'', returns, resumed, stack⟩ := trapReturn_spec fits (framed.copy same)
  exact ⟨h'', returns, resumed.regs, resumed.sepc, resumed.sstatus, stack⟩

/-- A trap from a hart whose stack ends at the end of RAM. -/
theorem trap_frame_round_trip_sample : ∃ h : Hart, ∃ h' mem' frame, run trapEntry (h, fun _ => 0) = (h', mem') ∧
    frame + trapFrameSize = 0x88000000 ∧ mem'.load (frame + (TrapField.reg .s7).offset) 8 = 5 := by
  obtain ⟨h', mem', frame, runs, stack, _, holds, _⟩ := trap_frame_round_trip
    ⟨fun _ => 5, fun _ => 0x88000000⟩ (fun _ => 0) (by decide)
  exact ⟨_, h', mem', frame, runs, stack.trans (by decide), (holds .s7).trans (by decide)⟩

/-- `enter_user` puts its arguments where `sret` and the next trap find them, and changes
`SPP` and `SPIE` of the status alone. -/
theorem enterUser_spec (h : Hart) (mem : Mem) : ∃ h', run enterUser (h, mem) = (h', mem) ∧ h'.regs .sp = h.regs .a0 ∧ h'.csrs .sepc = h.regs .a1 ∧
    h'.csrs .sscratch = h.regs .a2 ∧ (∀ r, r ≠ .sp → r ≠ .t0 → r ≠ .t1 → h'.regs r = h.regs r) ∧
    ∀ i < 64, (h'.csrs .sstatus).toBitVec.getLsbD i = if i = 8 then false else if i = 5 then true else (h.csrs .sstatus).toBitVec.getLsbD i := by
  -- the two constants that the code shifts into place
  obtain ⟨clear, isClear⟩ : ∃ clear : UInt64, clear = ~~~ ((1 : UInt64) <<< 8) := ⟨_, rfl⟩
  obtain ⟨set, isSet⟩ : ∃ set : UInt64, set = (1 : UInt64) <<< 5 := ⟨_, rfl⟩
  have clears : ∀ i < 64, clear.toBitVec.getLsbD i = !(i == 8) := by
    rw [isClear]
    decide
  have sets : ∀ i < 64, set.toBitVec.getLsbD i = (i == 5) := by
    rw [isSet]
    decide
  obtain ⟨start, isStart⟩ : ∃ start, start = ((h.writeCsr .sscratch (h.regs .a2)).write .sp (h.regs .a0)).writeCsr .sepc (h.regs .a1) := ⟨_, rfl⟩
  have status : start.csrs .sstatus = h.csrs .sstatus := by
    rw [isStart, Hart.writeCsr_other (by decide), Hart.write_csrs, Hart.writeCsr_other (by decide)]
  obtain ⟨value, isValue⟩ : ∃ value, value = start.csrs .sstatus &&& clear ||| set := ⟨_, rfl⟩
  obtain ⟨scratch, others, runs⟩ : ∃ scratch : Hart, (scratch.csrs = start.csrs ∧ ∀ r, r ≠ .t0 → r ≠ .t1 → scratch.regs r = start.regs r) ∧
      run enterUser (h, mem) = (scratch.writeCsr .sstatus value, mem) := by
    refine ⟨(((((((start.write .t0 (start.csrs .sstatus)).write .t1 1).write .t1 ((1 : UInt64) <<< 8)).write .t1 clear).write .t0
      (start.csrs .sstatus &&& clear)).write .t1 1).write .t1 set).write .t0 value, ⟨rfl, fun r t0 t1 => ?_⟩, ?_⟩
    · simp only [Hart.write_other t0, Hart.write_other t1]
    · have first : run (enterUser.take 3) (h, mem) = (start, mem) := by
        simp [enterUser, exec, isStart, Hart.write_other]
      have rest : enterUser.drop 3 = [.csrr .t0 .sstatus, .li .t1 1, .slli .t1 .t1 8, .not .t1 .t1, .and .t0 .t0 .t1, .li .t1 1,
        .slli .t1 .t1 5, .or .t0 .t0 .t1, .csrw .sstatus .t0] := rfl
      rw [← List.take_append_drop 3 enterUser, run_append, first, rest]
      simp [exec, isValue, isSet, isClear, Hart.write_other]
  refine ⟨_, runs, ?_, ?_, ?_, fun r sp t0 t1 => ?_, fun i small => ?_⟩
  · rw [Hart.writeCsr_regs, others.2 .sp (by decide) (by decide), isStart, Hart.writeCsr_regs, Hart.write_same]
  · rw [Hart.writeCsr_other (by decide), others.1, isStart, Hart.writeCsr_same]
  · rw [Hart.writeCsr_other (by decide), others.1, isStart, Hart.writeCsr_other (by decide), Hart.write_csrs, Hart.writeCsr_same]
  · rw [Hart.writeCsr_regs, others.2 r t0 t1, isStart, Hart.writeCsr_regs, Hart.write_other sp, Hart.writeCsr_regs]
  · rw [Hart.writeCsr_same, isValue, status, UInt64.toBitVec_or, UInt64.toBitVec_and, BitVec.getLsbD_or, BitVec.getLsbD_and, clears i small, sets i small]
    by_cases eight : i = 8
    · simp [eight]
    · by_cases five : i = 5
      · simp [five]
      · rw [if_neg eight, if_neg five, beq_false_of_ne eight, beq_false_of_ne five, Bool.not_false, Bool.and_true, Bool.or_false]

end KuroOS
