import KuroOS.Kernel.Trap
import KuroOS.Task.UserPointers
import KuroOS.Task.ExecReap

/-!
# What a trap goes back to

A machine in user mode runs the code of the current task until a trap. The trap entry
builds a frame below `sscratch`, and goes back to the frame that `trap_handler`
returns, with `sscratch` at its end. That frame is always at the top of the kernel
stack of the task that the handler has made the current one.
-/

namespace KuroOS

open Base

section

variable [Layout]

/-- A `sys_read` in this frame has its buffer in user pages of the caller. -/
def ReadsIntoUser (s : Kernel) (tf : Nat) : Prop :=
  s.mem.load (tf + TrapFrame.a7) 8 = sysReadNr →
    ∀ i < s.mem.load (tf + TrapFrame.a2) 8, InUser s (wadd (s.mem.load (tf + TrapFrame.a1) 8) i)

/-- Runs of traps: `sscratch`, and the machine in user mode. User code runs until a
trap, `trap_entry` builds a frame below `sscratch`, and leaves the end of the frame that
`trap_handler` returns there. -/
inductive TrapRun : Nat → Kernel → Prop
  | enter {s : Kernel} (starts : AfterUserInit s) : TrapRun (kernelSpOf s s.current) s
  | trap {sscratch scause f : Nat} {s s₁ s₂ : Kernel} {mem : Mem} {uart : Uart} {words : Nat → Nat} (before : TrapRun sscratch s)
      (user : ∀ x, mem x ≠ s.mem x → ∃ va, sv39User s.mem s.satpRoot va .write = some x)
      (saves : trapSave (wsub sscratch trapFrameSize) words { s with mem, uart } = .ok () s₁)
      (reads : scause = scauseUserEcall → ReadsIntoUser s₁ (wsub sscratch trapFrameSize))
      (handles : trapHandler scause (wsub sscratch trapFrameSize) s₁ = .ok f s₂) : TrapRun (wadd f trapFrameSize) s₂

/-- The kernel stack, the page table and the frames go with the current task. -/
structure Coherent (sscratch : Nat) (s : Kernel) : Prop where
  busy : s.current ≠ 0
  stack : sscratch = kernelSpOf s s.current
  root : s.satpRoot = pagetableOf s s.current
  frames : ∀ queue, RunQueue s queue → ∀ t ∈ queue, t ≠ s.current → tfOf s t + trapFrameSize = kernelSpOf s t

/-- A frame is that of the current task, in a state that holds a world. -/
def Resumes (f : Nat) (s : Kernel) : Prop := (∃ g, Valid g s) ∧ s.current ≠ 0 ∧ f = currentFrame s

variable {g g' : World} {s s₁ s' : Kernel} {p : TaskView} {r tf sscratch scause : Nat}

/-- The frame that a task's structure names is that of the task, when it is the current one. -/
theorem ValidOf.resumes (valid : Valid g s) (busy : s.current ≠ 0) (isTf : r = tfOf s s.current) : Resumes r s := by
  obtain ⟨p, member, current, isFrame⟩ := valid.running busy
  refine ⟨⟨g, valid⟩, busy, ?_⟩
  rw [isTf, isFrame, ← current]
  exact (valid.world.view p member).tf

/-- A task keeps its frame. -/
theorem ValidOf.resumes_same (valid : Valid g s) (member : p ∈ g.tasks) (current : p.addr = s.current) : Resumes p.tf s :=
  ⟨⟨g, valid⟩, current ▸ valid.world.addr_ne_zero member, (valid.frame p member current).symm⟩

/-- `task_fork` and `sys_exec` leave the current task its frame. -/
theorem ValidOf.resumes_after (valid : Valid g s) (member : p ∈ g.tasks) (current : p.addr = s.current) {op : Op}
    (stays : ¬ op.FreesTask s p.addr) (same : s'.current = s.current) (outcome : op.Outcome g s r g' s') :
    ∃ w ∈ g'.tasks, w.addr = s'.current ∧ w.tf = p.tf := by
  rcases valid.step_keeps member stays outcome with ⟨_, _, w, inside, core⟩ | ⟨_, _, root, entry, execed⟩
  · have fields := TaskView.core_fields core
    exact ⟨w, inside, fields.1.trans (current.trans same.symm), fields.2.2.1⟩
  · refine ⟨p.loaded root entry, ?_, current.trans same.symm, rfl⟩
    rw [execed.tasks]
    exact mem_modify.mpr ⟨p, member, (if_pos rfl).symm⟩

/-- A word in the frame of the current task. -/
theorem Resumes.store (resumes : Resumes tf s) {offset value : Nat} (inside : offset + 8 ≤ trapFrameSize) :
    Resumes tf { s with mem := s.mem.store (tf + offset) 8 value } := by
  obtain ⟨⟨g, valid⟩, busy, isTf⟩ := resumes
  rw [isTf]
  obtain ⟨p, member, current, isFrame⟩ := valid.running busy
  rw [isFrame]
  exact (valid.store_frame member current inside).resumes_same member current

theorem Resumes.looked (resumes : Resumes tf s) (looked : Looked s s') : Resumes tf s' := by
  obtain ⟨⟨g, valid⟩, busy, isTf⟩ := resumes
  rw [isTf]
  obtain ⟨p, member, current, isFrame⟩ := valid.running busy
  rw [isFrame]
  exact (valid.looked looked).resumes_same member (by rw [looked.current]; exact current)

theorem Resumes.schedule (resumes : Resumes tf s) : wp (taskSchedule tf) s (fun f s' => Resumes f s') fun _ _ => True := by
  obtain ⟨⟨g, valid⟩, busy, isTf⟩ := resumes
  rw [isTf]
  have spec : wp (taskSchedule (currentFrame s)) s _ fun _ _ => True := valid.world.taskSchedule_spec valid.sched valid.frame
  have steps : wp (taskSchedule (currentFrame s)) s _ fun _ _ => True := valid.schedule_step
  refine wp_mono (wp_and steps spec) ?_ fun _ _ _ => trivial
  rintro f s' ⟨⟨g', valid', _⟩, g'', world, _, _, _, ⟨empty, _⟩ | ⟨_, w, inside, _, current, rfl, _⟩⟩
  · have queued := valid.sched.current.resolve_left busy
    simp [empty] at queued
  · refine valid'.resumes (current ▸ world.addr_ne_zero inside) ?_
    rw [current]
    exact (world.view w inside).tf.symm

theorem Resumes.exit (resumes : Resumes tf s) {code : Nat} (word : code < 2 ^ 64) :
    wp (taskExitCurrent tf code) s (fun f s' => f = 0 ∨ Resumes f s') fun _ _ => True := by
  obtain ⟨⟨g, valid⟩, busy, isTf⟩ := resumes
  rw [isTf]
  obtain ⟨p, member, current, isFrame⟩ := valid.running busy
  have steps := valid.exit_step (UInt64.ofNat code)
  rw [UInt64.toNat_ofNat_of_lt' word] at steps
  have spec : wp (taskExitCurrent p.tf code) s _ fun _ _ => True := valid.world.taskExitCurrent_spec valid.sched member current.symm word
  rw [← isFrame] at spec
  refine wp_mono (wp_and steps spec) ?_ fun _ _ _ => trivial
  rintro f s' ⟨⟨g', valid', _⟩, g'', world, _, _, _, _, ⟨_, zero, _⟩ | ⟨_, w, resumed, _, rfl⟩⟩
  · exact .inl zero
  · refine .inr (valid'.resumes (resumed.current ▸ world.addr_ne_zero resumed.member) ?_)
    rw [resumed.current]
    exact (world.view w resumed.member).tf.symm

theorem Resumes.fork (resumes : Resumes tf s) : wp (taskFork tf) s (fun _ s' => Resumes tf s') fun _ _ => True := by
  obtain ⟨⟨g, valid⟩, busy, isTf⟩ := resumes
  rw [isTf]
  obtain ⟨p, member, current, isFrame⟩ := valid.running busy
  refine wp_mono valid.fork_step ?_ fun _ _ => id
  rintro child s' ⟨g', valid', outcome⟩
  have same : s'.current = s.current := by
    rcases outcome with ⟨_, rfl⟩ | ⟨_, _, _, g₁, s₁, reaping, ⟨_, aborted⟩ | ⟨_, v, pages, _, created⟩⟩
    · rfl
    · rw [aborted.globals, reaping.reaped.globals]
    · rw [created.born.globals, reaping.reaped.globals]
  have stays : ¬ Op.fork.FreesTask s p.addr := fun freed => freed.2 current
  obtain ⟨w, inside, here, sameTf⟩ := valid.resumes_after member current stays same outcome
  rw [isFrame, ← sameTf]
  exact valid'.resumes_same inside here

theorem Resumes.exec (resumes : Resumes tf s) (filename : Nat) :
    wp (sysExec filename tf) s (fun _ s' => Resumes tf s') fun _ _ => True := by
  obtain ⟨⟨g, valid⟩, busy, isTf⟩ := resumes
  rw [isTf]
  obtain ⟨p, member, current, isFrame⟩ := valid.running busy
  refine wp_mono (valid.exec_step busy filename 0) ?_ fun _ _ => id
  rintro r s' ⟨g', valid', outcome⟩
  have same : s'.current = s.current := by
    rcases outcome with failed | ⟨_, _, _, root, entry, execed⟩
    · rw [failed.globals]
    · rw [execed.globals]
  have stays : ¬ (Op.exec filename).FreesTask s p.addr := fun freed => freed
  obtain ⟨w, inside, here, sameTf⟩ := valid.resumes_after member current stays same outcome
  rw [isFrame, ← sameTf]
  exact valid'.resumes_same inside here

theorem Resumes.followed (resumes : Resumes tf s) (followed : Followed s s') : Resumes tf s' := by
  obtain ⟨⟨g, valid⟩, busy, isTf⟩ := resumes
  rw [isTf]
  obtain ⟨p, member, current, isFrame⟩ := valid.running busy
  rw [isFrame]
  exact (followed.valid valid busy).resumes_same member (current.trans followed.current.symm)

omit [Layout] in
/-- `sys_write` of any buffer only looks. -/
theorem sysWrite_looked (fd buf len : Nat) : wp (sysWrite fd buf len) s (fun _ s' => Looked s s') fun _ _ => True := by
  unfold sysWrite
  split
  · exact (wp_pure _).mpr (.refl s)
  refine wp_bind_of (wp_countUp (fun _ s' => Looked s s') (.refl s) fun i _ s₁ looked => ?_) fun _ _ looked => (wp_pure _).mpr looked
  refine wp_bind_of (wp_mono (Reads.readUser _ s₁) (fun _ _ => id) fun _ _ _ => trivial) fun _ _ later => ?_
  exact wp_uartPutc.mpr ((looked.trans later).trans rfl)

/-- Every system call that returns does so with the frame of the current task. -/
theorem Resumes.dispatch (resumes : Resumes tf s) (reads : ReadsIntoUser s tf) :
    wp (syscallDispatch tf) s (fun f s' => Resumes f s') fun _ _ => True := by
  have ⟨⟨g, valid⟩, busy, isFrame⟩ := resumes
  have word : ∀ s₁ : Kernel, ∀ a, s₁.mem.load a 8 < 2 ^ 64 := fun s₁ a => Mem.load_lt s₁.mem a 8
  obtain ⟨s₀, is₀⟩ : ∃ s₀, s₀ = skipped tf s := ⟨_, rfl⟩
  have resumes₀ : Resumes tf s₀ := is₀ ▸ resumes.store (by decide)
  have skip : wp (skipEcall tf) s (fun _ s' => s' = s₀) fun _ _ => True := wp_skipEcall.mpr is₀.symm
  have reply : ∀ {s' value}, Resumes tf s' → Resumes tf { s' with mem := s'.mem.store (tf + TrapFrame.a0) 8 value } :=
    fun resumes => resumes.store (by decide)
  unfold syscallDispatch
  rw [wp_bind, wp_loadWord]
  obtain ⟨a7, isA7⟩ : ∃ a7, a7 = s.mem.load (tf + TrapFrame.a7) 8 := ⟨_, rfl⟩
  rw [← isA7]
  by_cases isWrite : a7 = sysWriteNr
  · rw [if_pos isWrite]
    refine wp_bind_of skip ?_
    rintro _ s₀ rfl
    simp only [wp_bind, wp_loadWord, wp_storeWord, wp_pure]
    exact wp_mono (sysWrite_looked _ _ _) (fun _ _ looked => reply (resumes₀.looked looked)) fun _ _ => id
  rw [if_neg isWrite]
  by_cases isRead : a7 = sysReadNr
  · rw [if_pos isRead]
    unfold uartHasData
    simp only [wp_bind, wp_get, wp_pure]
    split
    · exact resumes.schedule
    · rw [wp_bind]
      refine wp_mono skip ?_ fun _ _ => id
      rintro _ s₀ rfl
      simp only [wp_bind, wp_loadWord, wp_storeWord, wp_pure]
      obtain ⟨p, member, current, isTf⟩ := valid.running busy
      have followed : Followed s s₀ := by
        rw [is₀, isFrame, isTf]
        exact (Followed.refl s).store_frame valid member current (by decide)
      have reg : ∀ offset, offset + 8 ≤ TrapFrame.sepc → s₀.mem.load (tf + offset) 8 = s.mem.load (tf + offset) 8 :=
        fun offset low => is₀ ▸ skipped_load low
      rw [reg TrapFrame.a0 (by decide), reg TrapFrame.a1 (by decide), reg TrapFrame.a2 (by decide)]
      refine wp_mono (followed.sysRead valid busy (word s _) (reads (isA7.symm.trans isRead)) _) (fun _ _ after => ?_) fun _ _ _ => trivial
      exact reply (resumes.followed after)
  rw [if_neg isRead]
  by_cases isExit : a7 = sysExitNr
  · rw [if_pos isExit]
    refine wp_bind_of skip ?_
    rintro _ s₀ rfl
    simp only [sysExit, wp_bind, wp_loadWord]
    refine wp_mono (resumes₀.exit (word s₀ _)) (fun next s₁ after => ?_) fun _ _ => id
    split
    · exact (wp_throw _).mpr trivial
    · next nonzero => exact (wp_pure _).mpr (after.resolve_left nonzero)
  rw [if_neg isExit]
  by_cases isYield : a7 = sysYieldNr
  · rw [if_pos isYield]
    refine wp_bind_of skip ?_
    rintro _ s₀ rfl
    simp only [sysYield, wp_bind, wp_storeWord]
    exact (reply resumes₀).schedule
  rw [if_neg isYield]
  by_cases isGetpid : a7 = sysGetpidNr
  · rw [if_pos isGetpid]
    refine wp_bind_of skip ?_
    rintro _ s₀ rfl
    simp only [sysGetpid, wp_bind, wp_get]
    split <;> simp only [wp_loadWord, wp_storeWord, wp_pure] <;> exact reply resumes₀
  rw [if_neg isGetpid]
  by_cases isFork : a7 = sysForkNr
  · rw [if_pos isFork]
    refine wp_bind_of skip ?_
    rintro _ s₀ rfl
    simp only [sysFork, wp_bind]
    refine wp_mono resumes₀.fork (fun child s₁ after => ?_) fun _ _ => id
    split <;> simp only [wp_loadWord, wp_storeWord, wp_pure] <;> exact reply after
  rw [if_neg isFork]
  by_cases isPs : a7 = sysPsNr
  · rw [if_pos isPs]
    refine wp_bind_of skip ?_
    rintro _ s₀ rfl
    simp only [wp_bind, wp_storeWord, wp_pure]
    exact reply resumes₀
  rw [if_neg isPs]
  split
  · refine wp_bind_of skip ?_
    rintro _ s₀ rfl
    simp only [wp_bind, wp_loadWord, wp_storeWord, wp_pure]
    exact wp_mono (resumes₀.exec _) (fun _ _ after => reply after) fun _ _ => id
  · exact (wp_throw _).mpr trivial

/-- `trap_handler`. -/
theorem Resumes.handler (resumes : Resumes tf s) (reads : scause = scauseUserEcall → ReadsIntoUser s tf) :
    wp (trapHandler scause tf) s (fun f s' => Resumes f s') fun _ _ => True := by
  unfold trapHandler
  split
  · next isEcall => exact resumes.dispatch (reads isEcall)
  · split
    · exact resumes.schedule
    · exact (wp_throw _).mpr trivial

omit [Layout] in
/-- What `trap_entry` stores is in the frame. -/
theorem trapSave_spec {words : Nat → Nat} {halt : Halt → Kernel → Prop} : wp (trapSave tf words) s
    (fun _ s' => s' = { s with mem := s'.mem } ∧ ∀ x, x < tf ∨ tf + trapFrameSize ≤ x → s'.mem x = s.mem x) halt := by
  refine wp_countUp (fun _ (s' : Kernel) => s' = { s with mem := s'.mem } ∧ ∀ x, x < tf ∨ tf + trapFrameSize ≤ x → s'.mem x = s.mem x)
    ⟨rfl, fun _ _ => rfl⟩ fun i below s₁ after => ?_
  rw [wp_storeWord]
  refine ⟨by rw [after.1], fun x outside => ?_⟩
  refine Eq.trans (Mem.store_of_outside ?_) (after.2 x outside)
  simp only [trapWords, trapFrameSize] at *
  omega

/-- The trap entry writes what user code and it may write. -/
theorem ValidOf.entered (valid : Valid g s) (member : p ∈ g.tasks) (current : p.addr = s.current) {words : Nat → Nat}
    (saves : trapSave p.tf words s = .ok () s₁) : Valid g s₁ ∧ p.addr = s₁.current := by
  have entry : wp (trapSave p.tf words) s _ fun _ _ => True := trapSave_spec
  obtain ⟨rest, outside⟩ := wp_returned entry saves
  have busy : s.current ≠ 0 := current ▸ valid.world.addr_ne_zero member
  have stored : Valid g { s with mem := s₁.mem, uart := s.uart } := valid.user_step busy s.uart fun x changed => by
    by_contra never
    refine changed (outside x ?_)
    by_contra inside
    exact never (valid.frame_mayWrite member current (by omega) (by omega))
  rw [rest]
  exact ⟨stored, current⟩

/-- The frame below the end of the kernel stack of the current task. -/
theorem Resumes.of_stack (valid : Valid g s) (member : p ∈ g.tasks) (current : p.addr = s.current) :
    wsub (kernelSpOf s s.current) trapFrameSize = p.tf ∧ wadd p.tf trapFrameSize = kernelSpOf s s.current := by
  have space := valid.world.space p member
  have sp : kernelSpOf s s.current = p.kernelSp := current ▸ (valid.world.view p member).kernelSp
  have isFrame : currentFrame s = p.tf := valid.frame p member current
  have bounds := (valid.world.heap.pool.pages p.kernelStack (by simp [(space.kstack _).mpr rfl])).bounds
  have top := space.tf
  have stack := space.kernelSp
  refine ⟨isFrame, ?_⟩
  rw [sp, stack, ← top, wadd_of_lt]
  simp only [trapFrameSize, pageSize] at *
  omega

/-- In every run of traps a world is held, and `sscratch` is the end of the current
task's kernel stack. -/
theorem TrapRun.holds (run : TrapRun sscratch s) : ∃ g, Valid g s ∧ s.current ≠ 0 ∧ sscratch = kernelSpOf s s.current := by
  induction run with
  | enter starts =>
      obtain ⟨s₀, power, returned⟩ := starts
      obtain ⟨g, valid, busy, _⟩ := wp_returned (kernelMain_spec power) returned
      exact ⟨g, valid, busy, rfl⟩
  | @trap sscratch scause f s s₁ s₂ mem uart words before user saves reads handles ih =>
      obtain ⟨g, valid, busy, rfl⟩ := ih
      obtain ⟨p, member, current, _⟩ := valid.running busy
      rw [(Resumes.of_stack valid member current).1] at saves reads handles
      -- user code, and then the stores of the trap entry
      have ran : Valid g { s with mem, uart } := valid.user_step busy uart fun x changed => .inl (user x changed)
      obtain ⟨entered, here⟩ := ran.entered member current saves
      have resumes : Resumes p.tf s₁ := entered.resumes_same member here
      obtain ⟨⟨g', valid'⟩, busy', isFrame'⟩ := wp_returned (resumes.handler reads) handles
      obtain ⟨w, inside, here, isFrame⟩ := valid'.running busy'
      refine ⟨g', valid', busy', ?_⟩
      rw [isFrame', isFrame]
      exact (Resumes.of_stack valid' inside here).2

/-- Whenever `trap_entry` goes back to user mode, `sscratch` is the end of the kernel stack of
the current task, whose page table is the active one, and the frame of every other task on
the run queue is at the end of its kernel stack. -/
theorem trap_frames_coherent (run : TrapRun sscratch s) : Coherent sscratch s := by
  obtain ⟨g, valid, busy, stack⟩ := run.holds
  obtain ⟨p, member, current, _⟩ := valid.running busy
  refine ⟨busy, stack, ?_, fun queue isQueue t queued _ => ?_⟩
  · rw [valid.root p member current, ← current]
    exact (valid.world.view p member).pagetable.symm
  · rw [valid.runQueue_eq isQueue] at queued
    obtain ⟨v, inside, rfl⟩ := valid.sched.books.known t queued
    have space := valid.world.space v inside
    have view := valid.world.view v inside
    rw [tfOf, kernelSpOf, view.tf, view.kernelSp, space.tf, space.kernelSp]

end

section

attribute [local instance] Layout.sample

/-- A machine that has come to user mode, and has been interrupted by the timer. -/
theorem trap_frames_coherent_sample : ∃ sscratch s s', AfterUserInit s ∧ TrapRun sscratch s' ∧ Coherent sscratch s' := by
  obtain ⟨s, g, returned, valid, busy, _⟩ := kernelMain_sample
  obtain ⟨p, member, current, isFrame⟩ := valid.running busy
  have starts : AfterUserInit s := ⟨_, powerOn_sample, returned⟩
  have frame := (Resumes.of_stack valid member current).1
  obtain ⟨mem, isMem⟩ : ∃ mem, mem = s.mem := ⟨_, rfl⟩
  have total : wp (trapSave p.tf fun _ => 0) { s with mem, uart := s.uart } _ fun _ _ => False := trapSave_spec
  obtain ⟨_, s₁, saves, _⟩ := wp_total total
  have ran : Valid g { s with mem, uart := s.uart } := by
    rw [isMem]
    exact valid
  obtain ⟨entered, here⟩ := ran.entered member current saves
  have schedules : wp (taskSchedule (currentFrame s₁)) s₁ _ fun _ _ => False := entered.schedule_step
  obtain ⟨f, s₂, scheduled, _⟩ := wp_total schedules
  have handles : trapHandler scauseTimer p.tf s₁ = .ok f s₂ := by
    rw [trapHandler, if_neg (by decide), if_pos rfl, ← entered.frame p member here]
    exact scheduled
  rw [← frame] at saves handles
  have run := TrapRun.trap (.enter starts) (fun x changed => absurd (congrFun isMem x) changed) saves
    (fun isEcall => absurd isEcall (by decide)) handles
  exact ⟨_, s, s₂, starts, run, trap_frames_coherent run⟩

end

end KuroOS
