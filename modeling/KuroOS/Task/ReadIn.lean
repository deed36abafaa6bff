import KuroOS.Task.WriteOut

/-!
# What a program reads

`sys_read` edits a line and leaves it in the buffer of its caller, with a 0 behind it. The
caller sees the line there, in whatever pages the buffer lies, gets its length, and finds
everything else as it was.
-/

namespace KuroOS

open Base Base.Riscv

section

variable {len cap : Nat} {line todo final : List UInt8}

/-- No line on the way is as long as the buffer. -/
theorem Edits.within (edits : Edits len cap line todo final) : Edits len len line todo final := by
  induction edits with
  | full fills => exact .full fills
  | eol room ends => exact .eol room ends
  | erase room goes erases _ ih => exact .erase room goes erases ih
  | store room goes stores _ _ ih => exact .store room goes stores room ih

variable [Layout] {g : World} {h h' u : Hart} {s s' t : Kernel} {p : TaskView} {buf : Nat}

/-- What a call of `read` leaves to its caller, for what it has consumed of the input. -/
structure LineRead (s : Kernel) (task buf len : Nat) (consumed rest : List UInt8) (s' : Kernel) : Prop where
  consumes : Consumes len s.input consumed rest
  input : s'.input = rest
  line : ∀ i (inside : i < (editLine consumed ++ [0]).length), userByte s' task (wadd buf i) = some (editLine consumed ++ [0])[i]
  others : ∀ va, (∀ i < len, va % 2 ^ 39 ≠ wadd buf i % 2 ^ 39) → userByte s' task va = userByte s task va

namespace ValidOf

/-- `sys_read` from the console, into user pages. -/
theorem sysRead_line (valid : Valid g s) (member : p ∈ g.tasks) (current : p.addr = s.current) (positive : 1 ≤ len) (word : len < 2 ^ 64)
    (enough : ∃ part, part <+: s.input ∧ Finishes len part) (named : ∀ i < len, InUser s (wadd buf i)) :
    wp (sysRead 0 buf len) s (fun n s' => Delivered s s' ∧ ∃ consumed rest, LineRead s p.addr buf len consumed rest s' ∧
      n = (editLine consumed).length ∧ n < len) fun _ _ => False := by
  have busy : s.current ≠ 0 := current ▸ valid.world.addr_ne_zero member
  obtain ⟨place, mapped⟩ : ∃ place : Nat → Nat, ∀ i < len, sv39User s.mem s.satpRoot (wadd buf i) .write = some (place i) := by
    refine ⟨fun i => (sv39User s.mem s.satpRoot (wadd buf i) .write).getD 0, fun i low => ?_⟩
    obtain ⟨_, x, allowed⟩ := named i low
    dsimp only
    rw [valid.sv39User_any member current allowed .write, Option.getD_some]
  have array : UserArray s buf len place := valid.userArray busy (by omega) mapped
  obtain ⟨consumed, rest, consumes⟩ := Consumes.exists enough
  have short : Edits len (consumed.length + 1) [] consumed (editLine consumed) := consumes.edits positive fun part isPart =>
    Nat.lt_succ_of_le ((length_editLine_le part).trans isPart.length_le)
  have edits := short.within
  have start : ArrayHolds s len place [] s := ⟨rfl, fun _ _ => rfl, by simp⟩
  have room := edits.slots.2
  have reads : wp (sysRead 0 buf len) s (fun n s' => n = (editLine consumed).length ∧ ArrayHolds s len place (editLine consumed ++ [0]) s' ∧
      s'.input = rest) fun _ _ => False :=
    sysRead_spec array.keeps positive word edits start consumes.split fun s' holds => array.write holds room 0
  refine wp_mono (wp_and reads (Delivered.sysRead valid busy word named 0)) ?_ fun _ _ both => both.1
  rintro n s' ⟨⟨rfl, holds, input⟩, delivered⟩
  have valid' := delivered.valid valid busy
  have current' : p.addr = s'.current := current.trans delivered.current.symm
  have root : s'.satpRoot = pagetableOf s' p.addr := (valid'.root p member current').trans (valid'.world.view p member).pagetable.symm
  have root₀ : s.satpRoot = pagetableOf s p.addr := (valid.root p member current).trans (valid.world.view p member).pagetable.symm
  refine ⟨delivered, consumed, rest, ⟨consumes, input, fun i inside => ?_, fun va apart => ?_⟩, rfl, room⟩
  · have low : i < len := by
      rw [List.length_append, List.length_singleton] at inside
      omega
    have here : sv39User s'.mem s'.satpRoot (wadd buf i) .write = some (place i) :=
      (valid.sv39User_congr valid' member current current' (wadd buf i) .write).trans (mapped i low)
    rw [userByte, ← root, valid'.sv39User_any member current' here .read, Option.map_some, holds.bytes i inside]
  · have same : sv39User s'.mem s'.satpRoot va .read = sv39User s.mem s.satpRoot va .read :=
      valid.sv39User_congr valid' member current current' va .read
    rw [userByte, userByte, ← root, ← root₀, same]
    cases reached : sv39User s.mem s.satpRoot va .read with
    | none => rfl
    | some x =>
        rw [Option.map_some, Option.map_some, holds.outside x]
        rintro i low rfl
        -- the tables are injective
        have first : Reaches s p.addr va (place i) := ⟨.read, root₀ ▸ reached⟩
        have second : Reaches s p.addr (wadd buf i) (place i) := ⟨.write, root₀ ▸ mapped i low⟩
        exact apart i low (valid.reach_unique member member second first).2

/-- A call of `read`. -/
theorem readCall (valid : Valid g s) (member : p ∈ g.tasks) (current : p.addr = s.current)
    (isRead : s.mem.load (p.tf + TrapFrame.a7) 8 = sysReadNr) (console : s.mem.load (p.tf + TrapFrame.a0) 8 = 0)
    (isBuf : s.mem.load (p.tf + TrapFrame.a1) 8 = buf) (length : s.mem.load (p.tf + TrapFrame.a2) 8 = len) (positive : 1 ≤ len)
    (waits : s.uart.waiting ≠ []) (enough : ∃ part, part <+: s.input ∧ Finishes len part) (named : ∀ i < len, InUser s (wadd buf i)) :
    wp (trapHandler scauseUserEcall p.tf) s (fun f s' => f = p.tf ∧ s'.current = s.current ∧
      ∃ consumed rest, LineRead s p.addr buf len consumed rest s' ∧ s'.mem.load (p.tf + TrapFrame.a0) 8 = (editLine consumed).length)
      fun _ _ => False := by
  obtain ⟨s₀, valid₀, here₀, rest₀, reg, same, named₀, skip⟩ := valid.skipping member current
  have current₀ : s₀.current = s.current := by rw [rest₀]
  have busy : s₀.current ≠ 0 := current₀ ▸ current ▸ valid.world.addr_ne_zero member
  have input₀ : s₀.input = s.input := by rw [rest₀]; rfl
  have word : len < 2 ^ 64 := length ▸ Mem.load_lt s.mem _ 8
  unfold trapHandler syscallDispatch uartHasData
  rw [if_pos rfl, wp_bind, wp_loadWord, isRead, if_neg (by decide), if_pos rfl]
  simp only [wp_bind, wp_get, wp_pure]
  rw [List.isEmpty_eq_false_iff.mpr waits, Bool.not_false, if_neg (by decide)]
  refine (wp_bind _ _).mpr (wp_mono skip (fun _ s₂ is₂ => ?_) fun _ _ never => never)
  rw [is₂]
  simp only [wp_bind, wp_loadWord, wp_storeWord, wp_pure]
  rw [reg TrapFrame.a0 (by decide), reg TrapFrame.a1 (by decide), reg TrapFrame.a2 (by decide), console, isBuf, length]
  refine wp_mono (valid₀.sysRead_line member here₀ positive word (input₀ ▸ enough) fun i low => named₀ (named i low)) ?_
    fun _ _ never => never
  rintro _ s₃ ⟨delivered, consumed, rest, lineRead, rfl, room⟩
  have valid₃ := delivered.valid valid₀ busy
  have current₃ : p.addr = s₃.current := here₀.trans delivered.current.symm
  have same₃ : ∀ va, userByte { s₃ with mem := s₃.mem.store (p.tf + TrapFrame.a0) 8 (editLine consumed).length } p.addr va =
      userByte s₃ p.addr va := valid₃.userByte_store member current₃ (by decide)
  obtain ⟨consumes, input, line, others⟩ := lineRead
  refine ⟨trivial, ?_, consumed, rest,
    ⟨input₀ ▸ consumes, input, fun i inside => (same₃ _).trans (line i inside), fun va apart => ?_⟩, ?_⟩
  · exact delivered.current.trans current₀
  · exact ((same₃ va).trans (others va apart)).trans (same va)
  · exact Mem.load_store_same (by omega)

end ValidOf

/-- A call of `read`, from the trap entry on. -/
theorem Entered.readCall (entered : Entered g u t p s) (isRead : (u.regs .a7).toNat = sysReadNr) (console : u.regs .a0 = 0)
    (positive : 1 ≤ (u.regs .a2).toNat) (waits : t.uart.waiting ≠ [])
    (enough : ∃ part, part <+: t.input ∧ Finishes (u.regs .a2).toNat part) (named : ReadsIntoUser s p.tf) :
    wp (trapHandler scauseUserEcall p.tf) s (fun f s' => f = p.tf ∧ s'.current = t.current ∧
      ∃ consumed rest, LineRead t t.current (u.regs .a1).toNat (u.regs .a2).toNat consumed rest s' ∧
        s'.mem.load (p.tf + TrapFrame.a0) 8 = (editLine consumed).length) fun _ _ => False := by
  have current : s.current = t.current := by rw [entered.rest]
  have here : p.addr = t.current := entered.here.trans current
  have uart : s.uart = t.uart := by rw [entered.rest]
  have input : s.input = t.input := by rw [Kernel.input, Kernel.input, uart]
  have reg : ∀ r : Reg, s.mem.load (p.tf + (TrapField.reg r).offset) 8 = (u.regs r).toNat := fun r => entered.framed (.reg r) (by simp)
  have a0 : s.mem.load (p.tf + TrapFrame.a0) 8 = 0 := (reg .a0).trans (by rw [console]; rfl)
  have a1 : s.mem.load (p.tf + TrapFrame.a1) 8 = (u.regs .a1).toNat := reg .a1
  have a2 : s.mem.load (p.tf + TrapFrame.a2) 8 = (u.regs .a2).toNat := reg .a2
  have a7 : s.mem.load (p.tf + TrapFrame.a7) 8 = sysReadNr := (reg .a7).trans isRead
  have inside := named a7
  rw [a1, a2] at inside
  refine wp_mono (entered.valid.readCall entered.member entered.here a7 a0 a1 a2 positive (uart ▸ waits) (input ▸ enough) inside) ?_
    fun _ _ never => never
  rintro f s' ⟨isF, same, consumed, rest, ⟨consumes, left, line, others⟩, length⟩
  refine ⟨isF, same.trans current, consumed, rest, ⟨input ▸ consumes, left, here ▸ line, fun va apart => ?_⟩, length⟩
  rw [← here]
  exact (others va apart).trans (entered.userByte va)

/-- A `read` of a run of the machine, when a byte waits and enough come, edits a line. Its caller
gets the length of the line, sees it in the buffer with a 0 behind it, and sees no change
outside the buffer. -/
theorem read_receives (run : MachineRun h s) (trap : Trap h s u t scauseUserEcall h' s') (isRead : (u.regs .a7).toNat = sysReadNr)
    (console : u.regs .a0 = 0) (positive : 1 ≤ (u.regs .a2).toNat) (waits : t.uart.waiting ≠ [])
    (enough : ∃ part, part <+: t.input ∧ Finishes (u.regs .a2).toNat part) : s'.current = s.current ∧
    ∃ consumed rest, LineRead t s.current (u.regs .a1).toNat (u.regs .a2).toNat consumed rest s' ∧
      (h'.regs .a0).toNat = (editLine consumed).length := by
  obtain ⟨g, mode⟩ := run.inUserMode
  obtain ⟨p, s₁, f, entered, handles, reads, resumes, _, loads⟩ := trap.spec mode
  have current : t.current = s.current := by rw [trap.rest]
  have call := entered.readCall isRead console positive waits enough (reads rfl)
  obtain ⟨isF, same, consumed, rest, lineRead, length⟩ := wp_returned (wp_mono call (fun _ _ => id) fun _ _ _ => trivial) handles
  obtain ⟨u₁, framed⟩ := framed_exists s'.mem p.tf
  have result : (h'.regs .a0).toNat = s'.mem.load (p.tf + TrapFrame.a0) 8 := by
    rw [(loads u₁ (isF ▸ framed)).regs]
    exact (framed (.reg .a0) (by decide)).symm
  exact ⟨same.trans current, consumed, rest, current ▸ lineRead, result.trans length⟩

end

section

attribute [local instance] Layout.sample

/-- The first task reads a line to its stack while four bytes wait. -/
theorem read_receives_sample : ∃ h s u t h' s' consumed rest, MachineRun h s ∧ Trap h s u t scauseUserEcall h' s' ∧
    t.input = [104, 105, 13, 120] ∧ LineRead t s.current (u.regs .a1).toNat 8 consumed rest s' ∧
    (h'.regs .a0).toNat = (editLine consumed).length := by
  obtain ⟨s, g, returned, valid, busy, _, _, w, member, here, stack⟩ := kernelMain_stack
  obtain ⟨a, h, userSp, entry, kernelSp, _, enters, mode⟩ := enterUser_args valid busy 0
  have run : MachineRun h s := .enter ⟨_, powerOn_sample, returned⟩ userSp entry kernelSp enters
  obtain ⟨u, isU⟩ : ∃ u : Hart, u = (((h.write .a7 3).write .a0 0).write .a1 (.ofNat (4096 * stackVpn))).write .a2 8 := ⟨_, rfl⟩
  obtain ⟨t, isT⟩ : ∃ t : Kernel, t = { s with uart := { waiting := [104, 105, 13, 120], coming := [], sent := [] } } := ⟨_, rfl⟩
  have a7 : (u.regs .a7).toNat = sysReadNr := by
    rw [isU, Hart.write_other (by decide), Hart.write_other (by decide), Hart.write_other (by decide), Hart.write_same]
    rfl
  have a0 : u.regs .a0 = 0 := by
    rw [isU, Hart.write_other (by decide), Hart.write_other (by decide), Hart.write_same]
  have a1 : (u.regs .a1).toNat = 4096 * stackVpn := by
    rw [isU, Hart.write_other (by decide), Hart.write_same]
    rfl
  have a2 : (u.regs .a2).toNat = 8 := by
    rw [isU, Hart.write_same]
    rfl
  have input : t.input = [104, 105, 13, 120] := by rw [isT]; rfl
  have waits : t.uart.waiting ≠ [] := by simp [isT]
  have enough : ∃ part, part <+: t.input ∧ Finishes (u.regs .a2).toNat part :=
    ⟨[104, 105, 13], by rw [input]; decide, .inl ⟨13, rfl, by decide⟩⟩
  have kept : u.csrs .sscratch = h.csrs .sscratch := by rw [isU]; rfl
  have isRest : t = { s with mem := t.mem, uart := t.uart } := by rw [isT]
  have unchanged : t.mem = s.mem := by rw [isT]
  have user : ∀ x, t.mem x ≠ s.mem x → ∃ va, sv39User s.mem s.satpRoot va .write = some x :=
    fun x changed => absurd (congrFun unchanged x) changed
  have valid₁ : Valid g t := isT ▸ valid.user_step busy _ fun _ changed => absurd rfl changed
  have proper : ProperTrap scauseUserEcall u t := by
    refine ⟨.inr ⟨rfl, by rw [a7]; decide⟩, fun _ _ i low => ?_⟩
    rw [a2] at low
    rw [a1, wadd_of_lt (by simp only [stackVpn]; omega)]
    exact ⟨.write, _, valid₁.sv39User_of_mapped member (by rw [isT]; exact here) stack (by omega) .write⟩
  obtain ⟨p, e, mem, entry, frame, entered⟩ := mode.enters kept isRest user
  have named : ReadsIntoUser { t with mem } p.tf := fun isCall i low => (entered.proper proper).buffer rfl (.inr isCall) i low
  have call := entered.readCall a7 a0 (by rw [a2]; decide) waits enough named
  rcases mode.completes kept isRest user proper with ⟨h', s', trap⟩ | ⟨e', mem', reason, s', entry', stops, _⟩
  · obtain ⟨_, consumed, rest, lineRead, length⟩ := read_receives run trap a7 a0 (by rw [a2]; decide) waits enough
    exact ⟨h, s, u, t, h', s', consumed, rest, run, trap, input, a2 ▸ lineRead, length⟩
  · obtain ⟨rfl, rfl⟩ : e = e' ∧ mem = mem' := by simpa [entry] using entry'
    rw [frame] at stops
    exact (wp_error call stops).elim

end

end KuroOS
