import KuroOS.Base.Privilege
import KuroOS.Task.ExecReturn
import KuroOS.Task.ForkReturn

/-!
# The status in saved frames

Every task on the run queue has a frame whose `sstatus` leads back to user mode, with
interrupts on and with user pages open to the kernel. `trap_handler` stores into frames,
copies them and switches between them, but it never lets this fail.
-/

namespace KuroOS

open Base Base.Riscv

section

/-- A status with which `sret` enters user mode and lets the timer in, and under which the
kernel reads user pages. -/
structure UserStatus (status : UInt64) : Prop where
  user : sretMode status = .user
  enabled : bit status spieBit = true
  access : bit status sumBit = true

/-- The bits that a `UserStatus` is about. -/
theorem UserStatus.of_bits {status status' : UInt64} (user : UserStatus status)
    (same : ∀ i ∈ [spieBit, sppBit, sumBit], bit status' i = bit status i) : UserStatus status' := by
  refine ⟨?_, ?_, ?_⟩
  · rw [sretMode, same sppBit (by simp)]
    exact user.user
  · exact (same spieBit (by simp)).trans user.enabled
  · exact (same sumBit (by simp)).trans user.access

/-- The `sstatus` of a task's frame. -/
def frameStatus (s : Kernel) (task : Nat) : UInt64 := .ofNat (s.mem.load (tfOf s task + TrapFrame.sstatus) 8)

/-- The bytes of the saved `sstatus`. -/
def statusBytes (tf : Nat) : Set Nat := {x | tf + TrapFrame.sstatus ≤ x ∧ x < tf + TrapFrame.sstatus + 8}

variable [Layout]

/-- The tasks on the run queue go on in user mode. -/
def UserFrames (s : Kernel) : Prop := ∀ queue, RunQueue s queue → ∀ task ∈ queue, UserStatus (frameStatus s task)

variable {X : Set Nat} {g g' : World} {s s' : Kernel} {p v : TaskView} {tf scause offset r : Nat}

theorem UserFrames.congr (frames : UserFrames s) (same : s'.mem = s.mem) : UserFrames s' := by
  unfold UserFrames RunQueue frameStatus tfOf at *
  rwa [same]

/-- What making a task does to the queue. -/
theorem made_queue (made : Made X g s r g' s') : (r = 0 ∧ g'.queue = g.queue) ∨ (r ≠ 0 ∧ g'.queue = g.queue ++ [r]) := by
  obtain ⟨g₁, s₁, reaping, ⟨zero, aborted⟩ | ⟨some, v, pages, rfl, created⟩⟩ := made
  · exact .inl ⟨zero, aborted.same.queue.trans reaping.reaped.queue⟩
  · exact .inr ⟨some, by rw [created.born.queue, reaping.reaped.queue]⟩

namespace ValidOf

/-- A queued task has the status that it had, or a user status of its own. -/
theorem userFrames_step (valid : Valid g s) (valid' : Valid g' s') (frames : UserFrames s)
    (each : ∀ task ∈ g'.queue, (task ∈ g.queue ∧ frameStatus s' task = frameStatus s task) ∨ UserStatus (frameStatus s' task)) :
    UserFrames s' := by
  intro queue isQueue task queued
  rw [valid'.runQueue_eq isQueue] at queued
  rcases each task queued with ⟨before, same⟩ | user
  · rw [same]
    exact frames g.queue valid.runQueue task before
  · exact user

/-- The frames of tasks do not overlap. -/
theorem frame_owner (valid : Valid g s) (member : p ∈ g.tasks) (inside : v ∈ g.tasks) {x : Nat} (low : p.tf ≤ x)
    (high : x < p.tf + trapFrameSize) (low' : v.tf ≤ x) (high' : x < v.tf + trapFrameSize) : v = p := by
  have here := (valid.frame_page member low high).2
  have there := (valid.frame_page inside low' high').2
  rw [here] at there
  exact valid.world.eq_of_addr inside member (Owner.kstack.inj there).symm

/-- Bytes of a frame beside the saved `sstatus` are in no frame's `sstatus`. -/
theorem beside_status (valid : Valid g s) (member : p ∈ g.tasks) (inside : v ∈ g.tasks) {x : Nat} (low : p.tf ≤ x)
    (high : x < p.tf + TrapFrame.sstatus) : x ∉ statusBytes v.tf := by
  intro isStatus
  simp only [statusBytes, Set.mem_ofPred_eq, TrapFrame.sstatus] at isStatus high
  obtain rfl := valid.frame_owner member inside low (by simp only [trapFrameSize]; omega) (by omega) (by simp only [trapFrameSize]; omega)
  omega

end ValidOf

/-- A task that is spared keeps its status. -/
theorem SparedBut.frameStatus (spared : SparedBut X v.addr g s g' s') (valid : Valid g s) (valid' : Valid g' s') (member : v ∈ g.tasks)
    (outside : ∀ x ∈ X, x ∉ statusBytes v.tf) : KuroOS.frameStatus s' v.addr = KuroOS.frameStatus s v.addr := by
  obtain ⟨w, inside, core⟩ := spared.view v member rfl
  have fields := TaskView.core_fields core
  have tf : tfOf s v.addr = v.tf := (valid.world.view v member).tf
  have tf' : tfOf s' v.addr = v.tf := by
    rw [← fields.1, ← fields.2.2.1]
    exact (valid'.world.view w inside).tf
  have word : s'.mem.load (v.tf + TrapFrame.sstatus) 8 = s.mem.load (v.tf + TrapFrame.sstatus) 8 := by
    apply Mem.load_congr
    intro x low high
    refine spared.bytes x (fun inX => outside x inX ⟨low, high⟩) ?_
    simp only [TrapFrame.sstatus] at low high
    rw [(valid.frame_page member (x := x) (by omega) (by simp only [trapFrameSize]; omega)).2]
    simp [labels]
  rw [KuroOS.frameStatus, KuroOS.frameStatus, tf, tf', word]

/-- A register of the frame beside `sstatus`. -/
theorem Resumes.store_userFrames (resumes : Resumes tf s) (frames : UserFrames s) (inside : offset + 8 ≤ TrapFrame.sstatus) {value : Nat} :
    UserFrames { s with mem := s.mem.store (tf + offset) 8 value } := by
  obtain ⟨⟨g, valid⟩, busy, isTf⟩ := resumes
  obtain ⟨p, member, current, isFrame⟩ := valid.running busy
  rw [isTf, isFrame]
  have valid' : Valid g { s with mem := s.mem.store (p.tf + offset) 8 value } := valid.store_frame member current (by
    simp only [TrapFrame.sstatus, trapFrameSize] at *
    omega)
  refine valid.userFrames_step valid' frames fun task queued => .inl ⟨queued, ?_⟩
  obtain ⟨v, known, rfl⟩ := valid.sched.books.known task queued
  have spared : SparedBut {x | p.tf + offset ≤ x ∧ x < p.tf + offset + 8} v.addr g s g { s with mem := s.mem.store (p.tf + offset) 8 value } := by
    apply SparedBut.of_bytes
    intro x outside
    simp only [Set.mem_ofPred_eq] at outside
    exact Mem.store_of_outside (by omega)
  refine spared.frameStatus valid valid' known fun x ⟨low, high⟩ => ?_
  exact valid.beside_status member known (by omega) (by omega)

namespace ValidOf

/-- What user code writes, or `sys_read` for it, is in no frame. -/
theorem userFrames_delivered (valid : Valid g s) (busy : s.current ≠ 0) (frames : UserFrames s) (delivered : Delivered s s') : UserFrames s' := by
  obtain ⟨q, member, here, _⟩ := valid.running busy
  have valid' := delivered.valid valid busy
  refine valid.userFrames_step valid' frames fun task queued => .inl ⟨queued, ?_⟩
  obtain ⟨v, known, rfl⟩ := valid.sched.books.known task queued
  have spared : SparedBut {x | ∃ va, sv39User s.mem s.satpRoot va .write = some x} v.addr g s g s' := by
    apply SparedBut.of_bytes
    intro x outside
    by_contra changed
    exact outside (delivered.writes x changed)
  refine spared.frameStatus valid valid' known fun x ⟨va, mapped⟩ isStatus => ?_
  simp only [statusBytes, Set.mem_ofPred_eq, TrapFrame.sstatus] at isStatus
  have isStack := (valid.frame_page known (x := x) (by omega) (by simp only [trapFrameSize]; omega)).2
  -- a user page is no kernel stack
  rw [valid.root q member here] at mapped
  have space := valid.world.space q member
  obtain ⟨page, found, isPage⟩ := SpaceState.sv39User space.leaves space.tables valid.world.heap.pool
    (fun _ _ found => valid.userPage member found) mapped
  rw [isPage] at isStack
  rcases space.mapped _ _ found with is | is <;> simp [is] at isStack

/-- Making a task leaves the status of the tasks before it. -/
theorem userFrames_made (valid : Valid g s) (valid' : Valid g' s') (frames : UserFrames s) (made : Made X g s r g' s')
    (beside : ∀ v ∈ g.tasks, ∀ x ∈ X, x ∉ statusBytes v.tf) (child : r ≠ 0 → UserStatus (frameStatus s' r)) : UserFrames s' := by
  have old : ∀ task ∈ g.queue, frameStatus s' task = frameStatus s task := fun task queued => by
    obtain ⟨v, known, rfl⟩ := valid.sched.books.known task queued
    exact (valid.spared_made queued made).frameStatus valid valid' known (beside v known)
  refine valid.userFrames_step valid' frames fun task queued => ?_
  rcases made_queue made with ⟨_, queue⟩ | ⟨some, queue⟩ <;> rw [queue] at queued
  · exact .inl ⟨queued, old task queued⟩
  rcases List.mem_append.mp queued with before | isChild
  · exact .inl ⟨before, old task before⟩
  · obtain rfl := List.mem_singleton.mp isChild
    exact .inr (child some)

/-- `task_fork` copies the status of its caller. -/
theorem userFrames_fork (valid : Valid g s) (busy : s.current ≠ 0) (frames : UserFrames s) :
    wp (taskFork (currentFrame s)) s (fun _ s' => UserFrames s') fun _ _ => True := by
  obtain ⟨p, member, current, isFrame⟩ := valid.running busy
  rw [isFrame]
  refine wp_mono (valid.fork_made member current) ?_ fun _ _ => id
  rintro child s' ⟨g', valid', made, forked⟩
  refine valid.userFrames_made valid' frames made (fun v known x inResult => ?_) fun some => ?_
  · simp only [resultBytes, Set.mem_ofPred_eq, TrapFrame.a0] at inResult
    exact valid.beside_status member known (by omega) (by simp only [TrapFrame.sstatus]; omega)
  have same : frameStatus s' child = frameStatus s p.addr := by
    unfold frameStatus
    rw [show tfOf s p.addr = p.tf from (valid.world.view p member).tf]
    refine congrArg UInt64.ofNat (Mem.load_shift fun i low => ?_)
    have copied := ((forked some).copies (TrapFrame.sstatus + i) (by simp only [TrapFrame.sstatus, trapFrameSize]; omega)
      (by simp only [TrapFrame.sstatus, TrapFrame.a0]; omega)).1
    rw [valid.frame p member current] at copied
    rw [Nat.add_assoc, Nat.add_assoc]
    exact copied
  rw [same]
  exact frames g.queue valid.runQueue _ (current ▸ valid.sched.current.resolve_left busy)

/-- `sys_exec` leaves the status of its caller. -/
theorem userFrames_exec (valid : Valid g s) (busy : s.current ≠ 0) (frames : UserFrames s) (filename : Nat) :
    wp (sysExec filename (currentFrame s)) s (fun _ s' => UserFrames s') fun _ _ => True := by
  have resumes : Resumes (currentFrame s) s := ⟨⟨g, valid⟩, busy, rfl⟩
  refine wp_mono (wp_and (resumes.exec filename) (valid.exec_step busy filename 0)) ?_ fun _ _ _ => trivial
  rintro r s' ⟨after, g', valid', outcome⟩
  obtain ⟨same, queue, spared⟩ := valid.exec_spares outcome
  refine valid.userFrames_step valid' frames fun task queued => ?_
  rw [queue] at queued
  refine .inl ⟨queued, ?_⟩
  obtain ⟨v, known, rfl⟩ := valid.sched.books.known task queued
  by_cases other : v.addr = s.current
  swap
  · exact (spared v.addr queued other).frameStatus valid valid' known (by simp)
  rcases outcome with failed | ⟨p, member, current, root, entry, execed⟩
  · exact (valid.spared_execFailed (X := ∅) failed).frameStatus valid valid' known (by simp)
  obtain rfl := valid.world.eq_of_addr known member (other.trans current.symm)
  have tf : tfOf s v.addr = v.tf := (valid.world.view v known).tf
  have tf' : tfOf s' v.addr = v.tf := by
    rw [other, ← same, ← after.frame_tf]
    exact valid.frame v known other
  unfold frameStatus
  rw [tf, tf']
  have kept : s'.mem.load (v.tf + TrapFrame.sstatus) 8 = (storeFields s.mem v.tf (loadedFrame entry)).load (v.tf + TrapFrame.sstatus) 8 := by
    apply Mem.load_congr
    intro x low high
    simp only [TrapFrame.sstatus] at low high
    exact execed.frame x (by omega) (by simp only [trapFrameSize]; omega)
  rw [kept]
  refine congrArg UInt64.ofNat (storeFields_load (f := ⟨TrapFrame.sstatus, 8, 0⟩) fun field inside => ?_)
  simp only [loadedFrame, List.mem_cons, List.not_mem_nil, or_false] at inside
  rcases inside with rfl | rfl | rfl | rfl | rfl <;> simp [Field.Apart]

/-- A switch leaves every status. -/
theorem userFrames_switched {gone kept : List TaskView} (valid : Valid g s) (valid' : Valid g' s') (frames : UserFrames s)
    (switched : Switched gone kept g s g' s') (alive : ∀ task ∈ g'.queue, task ∈ g.queue ∧ ∀ v ∈ gone, v.addr ≠ task)
    (stays : ∀ task ∈ g'.queue, ∀ v ∈ g.tasks, v.addr = task → v ∈ kept) : UserFrames s' := by
  refine valid.userFrames_step valid' frames fun task queued => ?_
  obtain ⟨before, remains⟩ := alive task queued
  refine .inl ⟨before, ?_⟩
  obtain ⟨v, known, rfl⟩ := valid.sched.books.known task before
  exact (valid.spared_switched (X := ∅) remains (stays _ queued) switched).frameStatus valid valid' known (by simp)

/-- `task_schedule`. -/
theorem userFrames_schedule (valid : Valid g s) (busy : s.current ≠ 0) (frames : UserFrames s) :
    wp (taskSchedule (currentFrame s)) s (fun _ s' => UserFrames s') fun _ _ => True := by
  obtain ⟨f, s', returned, ⟨g₂, valid₂, queue⟩, _⟩ := valid.schedule_next busy
  have steps : wp (taskSchedule (currentFrame s)) s _ fun _ _ => True := valid.schedule_step
  have ends : wp (taskSchedule (currentFrame s)) s _ fun _ _ => True := wp_of_ok returned
  refine wp_mono (wp_and steps ends) ?_ fun _ _ _ => trivial
  rintro f s' ⟨⟨g', valid', switched⟩, rfl, rfl⟩
  have sameQueue : g'.queue = g.queue := (valid₂.runQueue_eq valid'.runQueue).trans queue
  refine valid.userFrames_switched valid' frames switched (fun task queued => ?_) fun task queued v member here => ?_
  · rw [sameQueue] at queued
    exact ⟨queued, valid.queued_alive queued⟩
  · rw [sameQueue] at queued
    exact valid.queued_survives queued member here

/-- `task_exit_current`. -/
theorem userFrames_exit (valid : Valid g s) (busy : s.current ≠ 0) (frames : UserFrames s) {code : Nat} (word : code < 2 ^ 64) :
    wp (taskExitCurrent (currentFrame s) code) s (fun _ s' => UserFrames s') fun _ _ => True := by
  obtain ⟨f, s', returned, isQueue, _⟩ := valid.exit_next busy (UInt64.ofNat code)
  have steps := valid.exit_step (UInt64.ofNat code)
  rw [UInt64.toNat_ofNat_of_lt' word] at returned steps
  have ends : wp (taskExitCurrent (currentFrame s) code) s _ fun _ _ => True := wp_of_ok returned
  refine wp_mono (wp_and steps ends) ?_ fun _ _ _ => trivial
  rintro f s' ⟨⟨g', valid', switched⟩, rfl, rfl⟩
  have sameQueue := valid'.runQueue_eq isQueue
  refine valid.userFrames_switched valid' frames switched (fun task queued => ⟨?_, by simp⟩) fun _ _ _ member _ => member
  rw [← sameQueue] at queued
  exact List.mem_of_mem_erase queued

end ValidOf

/-- `trap_handler` keeps the status of every frame that it returns to. -/
theorem UserFrames.trapRule (frames : UserFrames s) (resumes : Resumes tf s) : TrapRule scause s tf UserFrames fun _ => UserFrames where
  skip := resumes.store_userFrames frames (by decide)
  result resumes frames := resumes.store_userFrames frames (by decide)
  looked _ frames looked := frames.congr looked.mem
  delivered := by
    rintro s₁ s' _ ⟨⟨g, valid⟩, busy, _⟩ frames delivered
    exact valid.userFrames_delivered busy frames delivered
  fork := by
    rintro s₁ ⟨⟨g, valid⟩, busy, isTf⟩ frames
    exact isTf ▸ valid.userFrames_fork busy frames
  exec := by
    rintro s₁ filename _ ⟨⟨g, valid⟩, busy, isTf⟩ frames
    exact isTf ▸ valid.userFrames_exec busy frames filename
  preempt _ := by
    obtain ⟨⟨g, valid⟩, busy, isTf⟩ := resumes
    exact isTf ▸ valid.userFrames_schedule busy frames
  yield := by
    rintro s₁ _ ⟨⟨g, valid⟩, busy, isTf⟩ frames
    exact isTf ▸ valid.userFrames_schedule busy frames
  exit := by
    rintro s₁ code _ word ⟨⟨g, valid⟩, busy, isTf⟩ frames
    exact wp_mono (isTf ▸ valid.userFrames_exit busy frames word) (fun _ _ after => .inr after) fun _ _ => id

end

end KuroOS
