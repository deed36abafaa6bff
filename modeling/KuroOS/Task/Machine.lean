import KuroOS.Task.Registers
import KuroOS.Task.TrapRule

/-!
# The machine, with its registers

Here a trap is what the hart does: user code runs with registers of its own until it
traps, `trap_entry` saves them, `trap_handler` returns a frame, and the way out loads
it. Machine runs are runs of traps, so what holds of those holds here; and a task that
waits finds its registers and its memory as they were when it lost the CPU, whatever
the others have done in between.
-/

namespace KuroOS

open Base Base.Riscv

section

variable [Layout]

/-- A trap: user code has come from `s` to the registers `u` and the state `t`, and the machine
goes back to user mode with the registers `h'` in `s'`. What the handler leaves in
registers beside its result is any value. -/
structure Trap (h : Hart) (s : Kernel) (u : Hart) (t : Kernel) (scause : Nat) (h' : Hart) (s' : Kernel) : Prop where
  kept : u.csrs .sscratch = h.csrs .sscratch
  rest : t = { s with mem := t.mem, uart := t.uart }
  user : ∀ x, t.mem x ≠ s.mem x → ∃ va, sv39User s.mem s.satpRoot va .write = some x
  handled : ∃ e mem f a, run trapEntry (u, t.mem) = (e, mem) ∧
    (scause = scauseUserEcall → ReadsIntoUser { t with mem } (e.regs .a0).toNat) ∧
    trapHandler scause (e.regs .a0).toNat { t with mem } = .ok f s' ∧ (a.regs .a0).toNat = f ∧
    run trapReturn (a, s'.mem) = (h', s'.mem)

/-- Runs of the machine in user mode. `user_init` enters the first task by `enter_user`. -/
inductive MachineRun : Hart → Kernel → Prop
  | enter {a h : Hart} {s : Kernel} (starts : AfterUserInit s) (userSp : (a.regs .a0).toNat = s.mem.load (s.current + Task.userSp) 8)
      (entry : (a.regs .a1).toNat = s.mem.load (s.current + Task.entry) 8) (stack : (a.regs .a2).toNat = kernelSpOf s s.current)
      (enters : run enterUser (a, s.mem) = (h, s.mem)) : MachineRun h s
  | trap {h u h' : Hart} {s t s' : Kernel} {scause : Nat} (before : MachineRun h s) (trap : Trap h s u t scause h' s') :
      MachineRun h' s'

/-- The traps of a machine while it does not run the user code of a task. -/
inductive Away (task : Nat) (h : Hart) (s : Kernel) : Hart → Kernel → Prop
  | refl : Away task h s h s
  | trap {h₁ u h₂ : Hart} {s₁ t s₂ : Kernel} {scause : Nat} (before : Away task h s h₁ s₁) (other : s₁.current ≠ task)
      (trap : Trap h₁ s₁ u t scause h₂ s₂) : Away task h s h₂ s₂

variable {g g' : World} {h h' h₁ h₂ u : Hart} {s s' s₁ s₂ t : Kernel} {p w : TaskView} {tf scause task : Nat}

omit [Layout] in
/-- The stores of `trap_entry`, from the memory that they leave. -/
theorem trapSave_reaches {mem : Mem} (outside : ∀ x, x < tf ∨ tf + 8 * trapWords ≤ x → mem x = s.mem x) :
    trapSave tf (fun i => mem.load (tf + 8 * i) 8) s = .ok () { s with mem } := by
  have total : wp (trapSave tf fun i => mem.load (tf + 8 * i) 8) s
      (fun _ s' => s' = { s with mem := s'.mem } ∧ ∀ x, s'.mem x = if tf ≤ x ∧ x < tf + 8 * trapWords then mem x else s.mem x)
      fun _ _ => False := by
    refine wp_countUp (fun i (s' : Kernel) => s' = { s with mem := s'.mem } ∧
      ∀ x, s'.mem x = if tf ≤ x ∧ x < tf + 8 * i then mem x else s.mem x) ⟨rfl, fun x => ?_⟩ fun i _ s₁ after => ?_
    · rw [if_neg (by omega)]
    rw [wp_storeWord]
    refine ⟨by rw [after.1], fun x => ?_⟩
    by_cases here : tf + 8 * i ≤ x ∧ x < tf + 8 * i + 8
    · have stored : s₁.mem.store (tf + 8 * i) 8 (mem.load (tf + 8 * i) 8) x = mem x := by
        rw [Mem.store, if_pos here, Mem.load_digit (by omega), Nat.add_sub_cancel' here.1]
      rw [if_pos (by omega)]
      exact stored
    · refine (Mem.store_of_outside (by omega)).trans ((after.2 x).trans ?_)
      by_cases before : tf ≤ x ∧ x < tf + 8 * i
      · rw [if_pos before, if_pos (by omega)]
      · rw [if_neg before, if_neg (by omega)]
  obtain ⟨_, s', returned, rest, bytes⟩ := wp_total total
  rw [returned, rest, show s'.mem = mem from ?_]
  funext x
  rw [bytes x]
  split
  · rfl
  · exact (outside x (by omega)).symm

/-- The byte that a task's user code reads at an address. -/
def userByte (s : Kernel) (task va : Nat) : Option UInt8 := (sv39User s.mem (pagetableOf s task) va .read).map s.mem

/-- What user code reads is determined by the user pages of its task and their bytes. -/
theorem ValidOf.userByte_same (valid : Valid g s) (valid' : Valid g' s') (member : p ∈ g.tasks) (member' : w ∈ g'.tasks)
    (addr : w.addr = p.addr) (user : g'.user p.addr = g.user p.addr)
    (bytes : ∀ x, g.own (pageOf x) = .data (.task p.addr) ∨ g.own (pageOf x) = .ustack p.addr → s'.mem x = s.mem x) (va : Nat) :
    userByte s' p.addr va = userByte s p.addr va := by
  have space := valid.world.space p member
  have space' := valid'.world.space w member'
  have pool := valid.world.heap.pool
  have root : pagetableOf s p.addr = p.pagetable := (valid.world.view p member).pagetable
  have root' : pagetableOf s' p.addr = w.pagetable := addr ▸ (valid'.world.view w member').pagetable
  have same : sv39User s'.mem (pagetableOf s' p.addr) va .read = sv39User s.mem (pagetableOf s p.addr) va .read := by
    unfold sv39User sv39
    rw [root, root', show sv39Levels - 1 = 2 from rfl, space.tables.sv39Entry pool, space'.tables.sv39Entry valid'.world.heap.pool,
      space.tables.sv39From pool, space'.tables.sv39From valid'.world.heap.pool, space.leaves, space'.leaves, addr, user]
  unfold userByte
  rw [same]
  cases found : sv39User s.mem (pagetableOf s p.addr) va .read with
  | none => rfl
  | some x =>
      rw [root] at found
      obtain ⟨q, isMapped, inPage⟩ := SpaceState.sv39User space.leaves space.tables pool (fun _ _ found => valid.userPage member found) found
      rw [Option.map_some, Option.map_some, bytes x (by rw [inPage]; exact space.mapped _ _ isMapped)]

/-- A state in which the machine runs user code: the hart took everything from the frame
of the current task. -/
structure InUserMode (g : World) (h : Hart) (s : Kernel) : Prop where
  valid : Valid g s
  busy : s.current ≠ 0
  stack : (h.csrs .sscratch).toNat = kernelSpOf s s.current

/-- The state that `trap_entry` leaves. -/
structure Entered (g : World) (u : Hart) (t : Kernel) (p : TaskView) (s₁ : Kernel) : Prop where
  valid : Valid g s₁
  before : Valid g t
  member : p ∈ g.tasks
  here : p.addr = s₁.current
  rest : s₁ = { t with mem := s₁.mem }
  framed : Framed s₁.mem p.tf u
  bytes : ∀ x, x < p.tf ∨ p.tf + 8 * trapWords ≤ x → s₁.mem x = t.mem x

/-- The frame of the current task ends at the end of its kernel stack, which is in memory. -/
theorem Resumes.stack {f : Nat} (resumes : Resumes f s) : wadd f trapFrameSize = kernelSpOf s s.current ∧ f + trapFrameSize ≤ 2 ^ 64 := by
  obtain ⟨⟨g, valid⟩, busy, isF⟩ := resumes
  obtain ⟨w, inside, here, isW⟩ := valid.running busy
  have space := valid.world.space w inside
  have bounds := (valid.world.heap.pool.pages w.kernelStack (by simp [(space.kstack _).mpr rfl])).bounds
  have top := space.tf
  rw [isF, isW]
  refine ⟨(Resumes.of_stack valid inside here).2, ?_⟩
  simp only [trapFrameSize, pageSize] at *
  omega

/-- The handler returns the frame of the task that runs next. -/
theorem Resumes.frame_tf {f : Nat} (resumes : Resumes f s) : f = tfOf s s.current := by
  obtain ⟨⟨g, valid⟩, busy, isF⟩ := resumes
  obtain ⟨w, inside, here, isW⟩ := valid.running busy
  rw [isF, isW, ← here]
  exact (valid.world.view w inside).tf.symm

/-- What the trap entry leads to, from user mode. -/
theorem InUserMode.enters (mode : InUserMode g h s) (kept : u.csrs .sscratch = h.csrs .sscratch)
    (rest : t = { s with mem := t.mem, uart := t.uart })
    (user : ∀ x, t.mem x ≠ s.mem x → ∃ va, sv39User s.mem s.satpRoot va .write = some x) :
    ∃ p e mem, run trapEntry (u, t.mem) = (e, mem) ∧ (e.regs .a0).toNat = p.tf ∧ Entered g u t p { t with mem } := by
  obtain ⟨valid, busy, stack⟩ := mode
  obtain ⟨p, member, current, _⟩ := valid.running busy
  have isTf : p.tf + trapFrameSize = kernelSpOf s s.current := by
    rw [(valid.world.space p member).tf, ← (valid.world.space p member).kernelSp, ← current]
    exact (valid.world.view p member).kernelSp.symm
  rw [← isTf, ← kept] at stack
  have ran : Valid g { s with mem := t.mem, uart := t.uart } := valid.user_step busy t.uart fun x changed => .inl (user x changed)
  rw [← rest] at ran
  have sameCurrent : t.current = s.current := by rw [rest]
  have current' : p.addr = t.current := current.trans sameCurrent.symm
  obtain ⟨e, mem, entry, frame, framed, outside⟩ := trapEntry_spec (h := u) t.mem (by omega)
  have isFrame : (u.csrs .sscratch).toNat - trapFrameSize = p.tf := by omega
  rw [isFrame] at frame framed outside
  have bytes : ∀ x, x < p.tf ∨ p.tf + 8 * trapWords ≤ x → mem x = t.mem x := fun x clear => outside x (by
    simp only [trapFrameSize, trapWords] at *
    omega)
  have entered : Valid g { t with mem } := by
    refine ran.user_step (sameCurrent ▸ busy) t.uart fun x changed => ?_
    by_contra never
    refine changed (bytes x ?_)
    by_contra inside
    refine never (ran.frame_mayWrite member current' (by omega) ?_)
    simp only [trapFrameSize, trapWords] at *
    omega
  exact ⟨p, e, mem, entry, frame, entered, ran, member, current', rfl, framed, bytes⟩

/-- One trap: user code and `trap_entry` lead to a state with the registers in the frame,
the handler goes on from there, and the hart is loaded from the frame that it returns. -/
theorem Trap.spec (mode : InUserMode g h s) (trap : Trap h s u t scause h' s') :
    ∃ p s₁ f, Entered g u t p s₁ ∧ trapHandler scause p.tf s₁ = .ok f s' ∧ (scause = scauseUserEcall → ReadsIntoUser s₁ p.tf) ∧
      Resumes f s' ∧ (h'.csrs .sscratch).toNat = kernelSpOf s' s'.current ∧ ∀ u', Framed s'.mem f u' → SameContext u' h' := by
  obtain ⟨kept, rest, user, e, mem, f, a, entry, reads, handles, result, back⟩ := trap
  obtain ⟨p, e', mem', entry', frame, entered⟩ := mode.enters kept rest user
  obtain ⟨rfl, rfl⟩ : e = e' ∧ mem = mem' := by simpa [entry] using entry'
  rw [frame] at handles reads
  have resumes : Resumes p.tf { t with mem } := entered.valid.resumes_same entered.member entered.here
  have after := wp_returned (resumes.handler reads) handles
  refine ⟨p, _, f, entered, handles, reads, after, ?_⟩
  obtain ⟨end', room⟩ := after.stack
  rw [← result] at room
  obtain ⟨u₀, framed₀⟩ := framed_exists s'.mem (a.regs .a0).toNat
  obtain ⟨h'', back', _, sscratch⟩ := trapReturn_spec room framed₀
  obtain rfl : h' = h'' := by simpa [back] using back'
  constructor
  · rw [sscratch, result, end']
  · intro u' framed'
    rw [← result] at framed'
    obtain ⟨h'', back', same, _⟩ := trapReturn_spec room framed'
    obtain rfl : h' = h'' := by simpa [back] using back'
    exact same

/-- User code and then the stores of `trap_entry` leave the other tasks alone. -/
theorem Trap.spares (mode : InUserMode g h s) (trap : Trap h s u t scause h' s') (entered : Entered g u t p s₁) (other : task ≠ s.current) :
    Spared task g s g s₁ := by
  have current : s₁.current = s.current := by rw [entered.rest, trap.rest]
  have current' : t.current = s.current := by rw [trap.rest]
  have ran : Spared task g s g t := mode.valid.spared_writes mode.busy other fun x changed => .inl (trap.user x changed)
  refine ran.trans (entered.before.spared_writes (current' ▸ mode.busy) (current' ▸ other) fun x changed => ?_)
  refine entered.before.frame_mayWrite entered.member (entered.here.trans (current.trans current'.symm)) ?_ ?_
  · by_contra low
    exact changed (entered.bytes x (by omega))
  · by_contra high
    exact changed (entered.bytes x (by simp only [trapFrameSize, trapWords] at *; omega))

/-- When the handler returns, so does the trap. -/
theorem InUserMode.takes (mode : InUserMode g h s) (kept : u.csrs .sscratch = h.csrs .sscratch)
    (rest : t = { s with mem := t.mem, uart := t.uart })
    (user : ∀ x, t.mem x ≠ s.mem x → ∃ va, sv39User s.mem s.satpRoot va .write = some x) {e : Hart} {mem : Mem} {f : Nat}
    (entry : run trapEntry (u, t.mem) = (e, mem)) (reads : scause = scauseUserEcall → ReadsIntoUser { t with mem } (e.regs .a0).toNat)
    (handles : trapHandler scause (e.regs .a0).toNat { t with mem } = .ok f s') : ∃ h', Trap h s u t scause h' s' := by
  obtain ⟨p, e', mem', entry', frame, entered⟩ := mode.enters kept rest user
  obtain ⟨rfl, rfl⟩ : e = e' ∧ mem = mem' := by simpa [entry] using entry'
  have resumes : Resumes (e.regs .a0).toNat { t with mem } := frame ▸ entered.valid.resumes_same entered.member entered.here
  obtain ⟨_, room⟩ := (wp_returned (resumes.handler reads) handles).stack
  have small : f < 2 ^ 64 := by
    simp only [trapFrameSize] at room
    omega
  obtain ⟨a, isA⟩ : ∃ a : Hart, (a.regs .a0).toNat = f := ⟨⟨fun _ => .ofNat f, fun _ => 0⟩, UInt64.toNat_ofNat_of_lt' small⟩
  obtain ⟨u₀, framed₀⟩ := framed_exists s'.mem (a.regs .a0).toNat
  obtain ⟨h', back, _⟩ := trapReturn_spec (isA ▸ room) framed₀
  exact ⟨h', kept, rest, user, e, mem, f, a, entry, reads, handles, isA, back⟩

/-- A trap comes back to user mode. -/
theorem Trap.inUserMode (mode : InUserMode g h s) (trap : Trap h s u t scause h' s') : ∃ g', InUserMode g' h' s' := by
  obtain ⟨_, _, _, _, _, _, ⟨⟨g', valid⟩, busy, _⟩, stack, _⟩ := trap.spec mode
  exact ⟨g', valid, busy, stack⟩

/-- The machine is in user mode after every trap. -/
theorem MachineRun.inUserMode (run : MachineRun h s) : ∃ g, InUserMode g h s := by
  induction run with
  | @enter a h s starts _ _ stack enters =>
      obtain ⟨s₀, power, returned⟩ := starts
      obtain ⟨g, valid, busy, _⟩ := wp_returned (kernelMain_spec power) returned
      obtain ⟨h', enters', _, _, sscratch, _⟩ := enterUser_spec a s.mem
      obtain rfl : h = h' := by simpa [enters] using enters'
      exact ⟨g, valid, busy, by rw [sscratch, stack]⟩
  | trap before trap ih =>
      obtain ⟨g, mode⟩ := ih
      exact trap.inUserMode mode

/-- The assembly refines the run of traps: whatever the machine does with its registers, from
`enter_user` over any number of `trap_entry`s, is a run of traps of the kernel, with
`sscratch` as the hart holds it. -/
theorem machine_refines_traps (run : MachineRun h s) : TrapRun (h.csrs .sscratch).toNat s := by
  induction run with
  | @enter a h s starts _ _ stack enters =>
      obtain ⟨h', enters', _, _, sscratch, _⟩ := enterUser_spec a s.mem
      obtain rfl : h = h' := by simpa [enters] using enters'
      rw [sscratch, stack]
      exact .enter starts
  | @trap h u h' s t s' scause before trap ih =>
      obtain ⟨g, mode⟩ := before.inUserMode
      obtain ⟨p, s₁, f, entered, handles, reads, ⟨⟨g', valid⟩, busy, isFrame⟩, stack, _⟩ := trap.spec mode
      obtain ⟨w, member, here, isTf⟩ := valid.running busy
      have sameCurrent : s₁.current = s.current := by rw [entered.rest, trap.rest]
      have frame := (Resumes.of_stack mode.valid entered.member (entered.here.trans sameCurrent)).1
      have top := (Resumes.of_stack valid member here).2
      rw [← mode.stack] at frame
      have saves : trapSave (wsub (h.csrs .sscratch).toNat trapFrameSize) (fun i => s₁.mem.load (p.tf + 8 * i) 8)
          { s with mem := t.mem, uart := t.uart } = .ok () s₁ := by
        have stored := trapSave_reaches (s := t) entered.bytes
        rw [← entered.rest] at stored
        rw [frame, ← trap.rest]
        exact stored
      rw [← frame] at handles reads
      rw [stack, ← top, ← isTf, ← isFrame]
      exact .trap ih trap.user saves reads handles

/-- A queued task that has not run user code since `s`, in the state `s'` of the machine: it is
spared, and it is loaded from its frame when it runs again. -/
structure Waits (task : Nat) (g : World) (s : Kernel) (g' : World) (h' : Hart) (s' : Kernel) : Prop where
  mode : InUserMode g' h' s'
  queued : task ∈ g'.queue
  spared : Spared task g s g' s'
  loaded : s'.current = task → ∀ u, Framed s'.mem (tfOf s' task) u → SameContext u h'

/-- A trap leaves every queued task waiting, or running from its frame. -/
theorem Waits.start {f : Nat} (valid : Valid g s) (resumes : Resumes f s) (stack : (h.csrs .sscratch).toNat = kernelSpOf s s.current)
    (loads : ∀ u, Framed s.mem f u → SameContext u h) (queued : task ∈ g.queue) : Waits task g s g h s := by
  refine ⟨⟨valid, resumes.2.1, stack⟩, queued, .refl .., fun isCurrent u framed => loads u ?_⟩
  rwa [resumes.frame_tf, isCurrent]

/-- A trap of another task. -/
theorem Waits.trap (waits : Waits task g s g' h₁ s₁) (other : s₁.current ≠ task) (trap : Trap h₁ s₁ u t scause h₂ s₂) :
    ∃ g'', Waits task g s g'' h₂ s₂ := by
  obtain ⟨p, s₃, f, entered, handles, reads, resumes, stack, loads⟩ := trap.spec waits.mode
  obtain ⟨valid, busy, _⟩ := waits.mode
  have current : s₃.current = s₁.current := by rw [entered.rest, trap.rest]
  have isFrame : currentFrame s₃ = p.tf := entered.valid.frame p entered.member entered.here
  have before := trap.spares waits.mode entered other.symm
  have handler := entered.valid.trapHandler_spec (current ▸ busy) isFrame.symm reads
  obtain ⟨_, ends⟩ := wp_returned handler handles
  have notCurrent : task ≠ s₃.current := current ▸ other.symm
  obtain ⟨g'', valid'', queued, spared⟩ : ∃ g'', Valid g'' s₂ ∧ task ∈ g''.queue ∧ Spared task g' s₃ g'' s₂ := by
    rcases ends with ⟨_, _, g'', served⟩ | ⟨_, g'', passed⟩
    · obtain ⟨joined, queue⟩ := served.queue
      exact ⟨g'', served.valid, by rw [queue]; exact List.mem_append_left _ waits.queued, served.spared task waits.queued notCurrent⟩
    · refine ⟨g'', passed.valid, ?_, passed.spared task waits.queued notCurrent⟩
      obtain ⟨g₁, _, served, ⟨queue, _⟩ | ⟨queue, _⟩⟩ := passed.turn <;> obtain ⟨joined, isQueue⟩ := served.queue
      · rw [queue, isQueue]
        exact List.mem_append_left _ waits.queued
      · rw [queue, isQueue]
        exact (List.mem_erase_of_ne notCurrent).mpr (List.mem_append_left _ waits.queued)
  refine ⟨g'', ⟨valid'', resumes.2.1, stack⟩, queued, (waits.spared.trans before).trans spared, fun here u' framed => ?_⟩
  refine loads u' ?_
  rwa [resumes.frame_tf, here]

/-- Any number of traps of other tasks. -/
theorem Waits.away (waits : Waits task g s g' h₁ s₁) (away : Away task h₁ s₁ h₂ s₂) : ∃ g'', Waits task g s g'' h₂ s₂ := by
  induction away with
  | refl => exact ⟨g', waits⟩
  | trap before other trap ih =>
      obtain ⟨_, waits'⟩ := ih
      exact waits'.trap other trap

/-- What a task that waited finds when it runs again: the registers of its frame, and the
bytes of its user pages. -/
theorem Waits.again (waits : Waits task g s g' h' s') (valid : Valid g s) (queued : task ∈ g.queue) (again : s'.current = task)
    (framed : Framed s.mem (tfOf s task) u) : SameContext u h' ∧ ∀ va, userByte s' task va = userByte s task va := by
  obtain ⟨v, member, rfl⟩ := valid.sched.books.known task queued
  obtain ⟨w, inside, core⟩ := waits.spared.view v member rfl
  have fields := TaskView.core_fields core
  have valid' := waits.mode.valid
  have tf : tfOf s v.addr = v.tf := (valid.world.view v member).tf
  have tf' : tfOf s' v.addr = v.tf := by
    rw [← fields.1, ← fields.2.2.1]
    exact (valid'.world.view w inside).tf
  refine ⟨waits.loaded again u ?_, fun va => ?_⟩
  · rw [tf']
    rw [tf] at framed
    refine framed.copy fun i small => waits.spared.bytes _ (Set.notMem_empty _) ?_
    rw [(valid.frame_page member (x := v.tf + i) (by omega) (by omega)).2]
    simp [labels]
  · refine valid.userByte_same valid' member inside fields.1 waits.spared.user (fun x owner => waits.spared.bytes x (Set.notMem_empty x) ?_) va
    rcases owner with here | here <;> simp [here, labels]

/-- The registers of a task that waits on the run queue, and its memory, are its own:
whatever traps the other tasks take, when it runs again its hart is loaded with exactly
the registers in its frame, and it reads the bytes that its pages held. -/
theorem waiting_task_untouched (run : MachineRun h s) {queue : List Nat} (isQueue : RunQueue s queue) (queued : task ∈ queue)
    (waiting : s.current ≠ task) (framed : Framed s.mem (tfOf s task) u) (away : Away task h s h' s') (again : s'.current = task) :
    h'.regs = u.regs ∧ h'.csrs .sepc = u.csrs .sepc ∧ h'.csrs .sstatus = u.csrs .sstatus ∧
      ∀ va, userByte s' task va = userByte s task va := by
  obtain ⟨g, mode⟩ := run.inUserMode
  rw [mode.valid.runQueue_eq isQueue] at queued
  have waits : Waits task g s g h s := ⟨mode, queued, .refl task g s, fun here => absurd here waiting⟩
  obtain ⟨g', waits'⟩ := waits.away away
  obtain ⟨same, bytes⟩ := waits'.again mode.valid queued again framed
  exact ⟨same.regs, same.sepc, same.sstatus, bytes⟩

/-- A trap that takes the CPU from a task which is not done with its instruction: the timer, and
a `sys_read` for which no byte waits. -/
def Preempts (scause : Nat) (u : Hart) (t : Kernel) : Prop :=
  scause = scauseTimer ∨ (scause = scauseUserEcall ∧ (u.regs .a7).toNat = sysReadNr ∧ t.uart.waiting = [])

/-- Then the handler calls `task_schedule` and does nothing else. -/
theorem Entered.preempted (entered : Entered g u t p s₁) (preempts : Preempts scause u t) :
    trapHandler scause p.tf s₁ = taskSchedule p.tf s₁ := by
  unfold trapHandler
  rcases preempts with rfl | ⟨rfl, isRead, none⟩
  · rw [if_neg (by decide), if_pos rfl]
  rw [if_pos rfl]
  have a7 : loadWord (p.tf + TrapFrame.a7) s₁ = .ok sysReadNr s₁ := by
    have value := entered.framed (.reg .a7) (by decide)
    rw [show (TrapField.reg .a7).offset = TrapFrame.a7 from rfl, show TrapField.value u (.reg .a7) = u.regs .a7 from rfl, isRead] at value
    rw [← value]
    rfl
  have noData : uartHasData s₁ = .ok false s₁ := by
    have empty : s₁.uart.waiting = [] := by rw [entered.rest, none]
    have returned : uartHasData s₁ = .ok (!s₁.uart.waiting.isEmpty) s₁ := rfl
    rw [returned, empty]
    rfl
  unfold syscallDispatch
  rw [bind_ok a7, if_neg (by decide), if_pos rfl, bind_ok noData, if_pos rfl]

/-- What is written in a task's frame is not in its user pages. -/
theorem ValidOf.userByte_frame (valid : Valid g s) (valid' : Valid g s') (member : p ∈ g.tasks)
    (bytes : ∀ x, x < p.tf ∨ p.tf + 8 * trapWords ≤ x → s'.mem x = s.mem x) (va : Nat) : userByte s' p.addr va = userByte s p.addr va := by
  refine valid.userByte_same valid' member member rfl rfl (fun x owner => ?_) va
  by_contra changed
  have isStack := (valid.frame_page member (x := x) ?_ ?_).2
  · rcases owner with is | is <;> simp [is] at isStack
  · by_contra low
    exact changed (bytes x (by omega))
  · by_contra high
    exact changed (bytes x (by simp only [trapFrameSize, trapWords] at *; omega))

/-- A store into the frame of the running task is not seen in its user pages. -/
theorem ValidOf.userByte_store (valid : Valid g s) (member : p ∈ g.tasks) (current : p.addr = s.current) {offset value : Nat}
    (inside : offset + 8 ≤ 8 * trapWords) (va : Nat) :
    userByte { s with mem := s.mem.store (p.tf + offset) 8 value } p.addr va = userByte s p.addr va := by
  have inFrame : offset + 8 ≤ trapFrameSize := inside.trans (by decide)
  refine valid.userByte_frame (valid.store_frame member current inFrame) member (fun x outside => Mem.store_of_outside ?_) va
  omega

/-- The handler has stepped over the `ecall` of its caller. -/
structure Skipping (g : World) (s : Kernel) (p : TaskView) (s₀ : Kernel) : Prop where
  valid : Valid g s₀
  here : p.addr = s₀.current
  rest : s₀ = { s with mem := s₀.mem }
  reg : ∀ offset, offset + 8 ≤ TrapFrame.sepc → s₀.mem.load (p.tf + offset) 8 = s.mem.load (p.tf + offset) 8
  sees : ∀ va, userByte s₀ p.addr va = userByte s p.addr va
  named : ∀ {va}, InUser s va → InUser s₀ va
  skips : ∀ {halt : Halt → Kernel → Prop}, wp (skipEcall p.tf) s (fun _ s' => s' = s₀) halt

theorem ValidOf.skipping (valid : Valid g s) (member : p ∈ g.tasks) (current : p.addr = s.current) : ∃ s₀, Skipping g s p s₀ := by
  have skipped : Valid g (skipped p.tf s) := valid.store_frame member current (by decide)
  refine ⟨_, skipped, current, rfl, fun offset low => skipped_load low, valid.userByte_store member current (by decide), ?_, wp_skipEcall.mpr rfl⟩
  rintro va ⟨access, x, mapped⟩
  exact ⟨access, x, (valid.sv39User_congr skipped member current current va access).trans mapped⟩

/-- The trap entry writes into the kernel stack alone. -/
theorem Entered.userByte (entered : Entered g u t p s₁) (va : Nat) : userByte s₁ p.addr va = userByte t p.addr va :=
  entered.before.userByte_frame entered.valid entered.member entered.bytes va

/-- Losing the CPU is invisible to a task: it loses it at any instruction, any number of traps
of other tasks pass, and when it runs again all its registers, its program counter, its
status and every byte that it reads are as they were at that instruction. -/
theorem preempted_task_resumes (run : MachineRun h s) (trap : Trap h s u t scause h₁ s₁) (preempts : Preempts scause u t)
    (away : Away s.current h₁ s₁ h₂ s₂) (again : s₂.current = s.current) :
    h₂.regs = u.regs ∧ h₂.csrs .sepc = u.csrs .sepc ∧ h₂.csrs .sstatus = u.csrs .sstatus ∧
      ∀ va, userByte s₂ s.current va = userByte t s.current va := by
  obtain ⟨g, mode⟩ := run.inUserMode
  obtain ⟨p, s₃, f, entered, handles, _, resumes, stack, loads⟩ := trap.spec mode
  have current : s₃.current = s.current := by rw [entered.rest, trap.rest]
  have here : p.addr = s.current := entered.here.trans current
  have busy : s₃.current ≠ 0 := current ▸ mode.busy
  have queued : p.addr ∈ g.queue := by
    rw [entered.here]
    exact entered.valid.sched.current.resolve_left busy
  have isFrame : currentFrame s₃ = p.tf := entered.valid.frame p entered.member entered.here
  -- the switch spares the task that loses the CPU too
  rw [entered.preempted preempts, ← isFrame] at handles
  have steps : wp (taskSchedule (currentFrame s₃)) s₃ _ fun _ _ => True := entered.valid.schedule_step
  obtain ⟨g₁, valid₁, switched⟩ := wp_returned steps handles
  obtain ⟨_, _, handles', ⟨g₂, valid₂, queue⟩, _⟩ := entered.valid.schedule_next busy
  obtain ⟨rfl, rfl⟩ : f = _ ∧ s₁ = _ := by simpa [handles] using handles'
  have spared : Spared p.addr g s₃ g₁ s₁ := entered.valid.spared_switched (entered.valid.queued_alive queued)
    (fun v member isP => entered.valid.queued_survives queued member isP) switched
  have queued₁ : p.addr ∈ g₁.queue := by
    rw [valid₂.runQueue_eq valid₁.runQueue, queue]
    exact queued
  have waits : Waits p.addr g s₃ g₁ h₁ s₁ := by
    refine ⟨⟨valid₁, resumes.2.1, stack⟩, queued₁, spared, fun isCurrent u' framed => loads u' ?_⟩
    rwa [resumes.frame_tf, isCurrent]
  rw [← here] at away again ⊢
  obtain ⟨g', waits'⟩ := waits.away away
  have tf : tfOf s₃ p.addr = p.tf := (entered.valid.world.view p entered.member).tf
  obtain ⟨same, bytes⟩ := waits'.again (u := u) entered.valid queued again (tf ▸ entered.framed)
  refine ⟨same.regs, same.sepc, same.sstatus, fun va => (bytes va).trans (entered.userByte va)⟩

/-- The timer may interrupt user code anywhere; the next task of the queue runs. -/
theorem InUserMode.timer (mode : InUserMode g h s) (kept : u.csrs .sscratch = h.csrs .sscratch) :
    ∃ h' s' g', Trap h s u s scauseTimer h' s' ∧ InUserMode g' h' s' ∧ g'.queue = g.queue ∧ s'.current = afterCurrent g.queue s.current := by
  obtain ⟨p, e, mem, entry, frame, entered⟩ := mode.enters (t := s) kept rfl fun _ changed => absurd rfl changed
  obtain ⟨f, s', scheduled, ⟨g', valid', queue⟩, next, _⟩ := entered.valid.schedule_next mode.busy
  rw [entered.valid.frame p entered.member entered.here, ← frame] at scheduled
  have handles : trapHandler scauseTimer (e.regs .a0).toNat { s with mem } = .ok f s' := by
    rw [trapHandler, if_neg (by decide), if_pos rfl]
    exact scheduled
  obtain ⟨h', trap⟩ := mode.takes kept rfl (fun _ changed => absurd rfl changed) entry (fun isEcall => absurd isEcall (by decide)) handles
  obtain ⟨_, _, _, _, _, _, resumes, stack, _⟩ := trap.spec mode
  exact ⟨h', s', g', trap, ⟨valid', resumes.2.1, stack⟩, queue, next⟩

/-- The timer alone brings the turns of the queue. -/
theorem InUserMode.turns (mode : InUserMode g h s) (task : Nat) {i : Nat} (here : s.current = turn g.queue i) {k : Nat}
    (others : ∀ j < k, turn g.queue (i + j) ≠ task) :
    ∃ h' s' g', Away task h s h' s' ∧ InUserMode g' h' s' ∧ g'.queue = g.queue ∧ s'.current = turn g.queue (i + k) := by
  induction k with
  | zero => exact ⟨h, s, g, .refl, mode, rfl, here⟩
  | succ k ih =>
      obtain ⟨h₁, s₁, g₁, away, mode₁, queue₁, current₁⟩ := ih fun j less => others j (by omega)
      have some : g.queue ≠ [] := by
        have := mode.valid.sched.current.resolve_left mode.busy
        exact List.ne_nil_of_mem this
      obtain ⟨h', s', g', trap, mode', queue', next⟩ := mode₁.timer (u := h₁) rfl
      refine ⟨h', s', g', away.trap (current₁ ▸ others k (by omega)) trap, mode', queue'.trans queue₁, ?_⟩
      rw [next, queue₁, current₁, afterCurrent_turn mode.valid.world.queue_nodup some, Nat.add_assoc]

/-- A hart that calls `enter_user` for the current task. -/
theorem enterUser_args (valid : Valid g s) (busy : s.current ≠ 0) (status : UInt64) :
    ∃ a h : Hart, (a.regs .a0).toNat = s.mem.load (s.current + Task.userSp) 8 ∧ (a.regs .a1).toNat = s.mem.load (s.current + Task.entry) 8 ∧
      (a.regs .a2).toNat = kernelSpOf s s.current ∧ a.csrs .sstatus = status ∧ run enterUser (a, s.mem) = (h, s.mem) ∧ InUserMode g h s := by
  have word : ∀ a, s.mem.load a 8 < 2 ^ 64 := fun a => Mem.load_lt s.mem a 8
  obtain ⟨a, isA⟩ : ∃ a : Hart, a = ⟨fun r => .ofNat (if r = .a0 then s.mem.load (s.current + Task.userSp) 8
    else if r = .a1 then s.mem.load (s.current + Task.entry) 8 else kernelSpOf s s.current), fun _ => status⟩ := ⟨_, rfl⟩
  obtain ⟨h, enters, _, _, sscratch, _⟩ := enterUser_spec a s.mem
  have stack : (a.regs .a2).toNat = kernelSpOf s s.current := isA ▸ UInt64.toNat_ofNat_of_lt' (word _)
  exact ⟨a, h, isA ▸ UInt64.toNat_ofNat_of_lt' (word _), isA ▸ UInt64.toNat_ofNat_of_lt' (word _), stack, by rw [isA], enters,
    valid, busy, by rw [sscratch, stack]⟩

end

section

attribute [local instance] Layout.sample

/-- A machine that has entered user mode. -/
theorem machineRun_sample : ∃ h s g, MachineRun h s ∧ InUserMode g h s ∧ 2 ≤ g.queue.length := by
  obtain ⟨s, g, returned, valid, busy, two, _⟩ := kernelMain_sample
  obtain ⟨a, h, userSp, entry, stack, _, enters, mode⟩ := enterUser_args valid busy 0
  exact ⟨h, s, g, .enter ⟨_, powerOn_sample, returned⟩ userSp entry stack enters, mode, two⟩

/-- A machine that the timer has interrupted. -/
theorem machine_refines_traps_sample : ∃ h s u h' s', MachineRun h s ∧ Trap h s u s scauseTimer h' s' ∧
    TrapRun (h'.csrs .sscratch).toNat s' := by
  obtain ⟨h, s, g, run, mode, _⟩ := machineRun_sample
  obtain ⟨h', s', _, trap, _⟩ := mode.timer (u := h) rfl
  exact ⟨h, s, h, h', s', run, trap, machine_refines_traps (run.trap trap)⟩

/-- The second task of the queue waits for its first turn. -/
theorem waiting_task_untouched_sample : ∃ h s h' s' task u, MachineRun h s ∧ Away task h s h' s' ∧ s.current ≠ task ∧ s'.current = task ∧
    Framed s.mem (tfOf s task) u ∧ h'.regs = u.regs := by
  obtain ⟨h, s, g, run, mode, two⟩ := machineRun_sample
  have distinct := mode.valid.world.queue_nodup
  obtain ⟨i, inside, here⟩ := List.getElem_of_mem (mode.valid.sched.current.resolve_left mode.busy)
  have isTurn : s.current = turn g.queue i := by rw [turn_of_lt inside, here]
  have apart : turn g.queue i ≠ turn g.queue (i + 1) := fun equal => by
    obtain ⟨j, _, unique⟩ := turn_once distinct (List.getElem_mem inside) i
    have zero := unique 0 ⟨by omega, turn_of_lt inside⟩
    have one := unique 1 ⟨by omega, by rw [← equal, turn_of_lt inside]⟩
    omega
  obtain ⟨h', s', g', away, _, _, current⟩ := mode.turns (turn g.queue (i + 1)) isTurn (k := 1) fun j less => by
    obtain rfl : j = 0 := by omega
    exact apart
  have queued : turn g.queue (i + 1) ∈ g.queue := by
    rw [turn, List.getD_eq_getElem _ _ (Nat.mod_lt _ (by omega))]
    exact List.getElem_mem _
  obtain ⟨u, framed⟩ := framed_exists s.mem (tfOf s (turn g.queue (i + 1)))
  exact ⟨h, s, h', s', _, u, run, away, isTurn ▸ apart, current, framed,
    (waiting_task_untouched run mode.valid.runQueue queued (isTurn ▸ apart) framed away current).1⟩

/-- The first task is interrupted with some registers, and comes back when all the others
have had their turn. -/
theorem preempted_task_resumes_sample : ∃ h s u h₁ s₁ h₂ s₂, MachineRun h s ∧ Trap h s u s scauseTimer h₁ s₁ ∧ u.regs .s7 = 5 ∧
    Away s.current h₁ s₁ h₂ s₂ ∧ s₂.current = s.current ∧ h₂.regs .s7 = 5 := by
  obtain ⟨h, s, g, run, mode, two⟩ := machineRun_sample
  have distinct := mode.valid.world.queue_nodup
  obtain ⟨i, inside, here⟩ := List.getElem_of_mem (mode.valid.sched.current.resolve_left mode.busy)
  have isTurn : s.current = turn g.queue i := by rw [turn_of_lt inside, here]
  obtain ⟨h₁, s₁, g₁, trap, mode₁, queue₁, next⟩ := mode.timer (u := h.write .s7 5) rfl
  rw [isTurn, afterCurrent_turn distinct (List.ne_nil_of_length_pos (by omega)), ← queue₁] at next
  obtain ⟨h₂, s₂, _, away, _, _, current⟩ := mode₁.turns s.current next (k := g.queue.length - 1) fun j less equal => by
    obtain ⟨_, _, unique⟩ := turn_once distinct (List.getElem_mem inside) i
    have zero := unique 0 ⟨by omega, turn_of_lt inside⟩
    rw [queue₁, Nat.add_assoc] at equal
    have later := unique (1 + j) ⟨by omega, equal.trans here.symm⟩
    omega
  have again : s₂.current = s.current := by
    rw [current, isTurn, queue₁, Nat.add_assoc, Nat.add_sub_cancel' (by omega), ← turn_mod, Nat.add_mod_right, turn_mod]
  have same := (preempted_task_resumes run trap (.inl rfl) away again).1
  exact ⟨h, s, _, h₁, s₁, h₂, s₂, run, trap, Hart.write_same, away, again, by rw [same, Hart.write_same]⟩

end

end KuroOS
