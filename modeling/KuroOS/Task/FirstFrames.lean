import KuroOS.Base.Along
import KuroOS.Task.UserStatus

/-!
# The first frames

When `kernel_main` comes to user mode, the run queue holds tasks of `task_create_user`
alone: the task that the test makes is gone, and the initial ramdisk makes none. Their
frames have the status that `task_init_frame` wrote.
-/

namespace KuroOS

open Base Base.Riscv

/-- No task is queued or taken off the queue. -/
def SameCount (s s' : Kernel) : Prop := s'.nrRunnableTasks = s.nrRunnableTasks

instance : IsPreorder Kernel SameCount where
  refl _ := rfl
  trans _ _ _ first later := later.trans first

namespace SameCount

theorem modifyMem (change : Mem → Mem) : Along SameCount (KuroOS.modifyMem change) := .modify fun _ => rfl

theorem storeWord (address value : Nat) : Along SameCount (KuroOS.storeWord address value) := modifyMem _

theorem loadWord (address : Nat) : Along SameCount (KuroOS.loadWord address) := .bind .get fun _ => .pure _

theorem setPrev (a block : Nat) : Along SameCount (KuroOS.setPrev a block) := .ite (storeWord _ _) (.modify fun _ => rfl)

theorem setNext (a block : Nat) : Along SameCount (KuroOS.setNext a block) := .ite (storeWord _ _) (.modify fun _ => rfl)

theorem splitBlock (block size : Nat) : Along SameCount (KuroOS.splitBlock block size) := by
  refine .bind (loadWord _) fun _ => .ite (.pure _) ?_
  refine .bind (storeWord _ _) fun _ => .bind (storeWord _ _) fun _ => .bind (storeWord _ _) fun _ => .bind (storeWord _ _) fun _ => ?_
  refine .bind (storeWord _ _) fun _ => .bind (loadWord _) fun _ => .bind (storeWord _ _) fun _ => .bind (setPrev _ _) fun _ => ?_
  exact .bind (storeWord _ _) fun _ => storeWord _ _

theorem kmallocFind (size fuel block : Nat) : Along SameCount (KuroOS.kmallocFind size fuel block) := by
  induction fuel generalizing block with
  | zero => exact .throw _
  | succ fuel ih =>
      refine .ite (.pure _) (.bind (loadWord _) fun _ => .bind (loadWord _) fun _ => .ite ?_ ?_)
      · exact .bind (splitBlock _ _) fun _ => .bind (storeWord _ _) fun _ => .pure _
      · exact .bind (loadWord _) fun _ => ih _

section

variable [Layout]

theorem pageAlloc : Along SameCount KuroOS.pageAlloc :=
  .bind .get fun _ => .ite (.pure _) (.bind (modifyMem _) fun _ => .bind (.modify fun _ => rfl) fun _ => .pure _)

theorem heapGrow : Along SameCount KuroOS.heapGrow := by
  have append (block : Nat) : Along SameCount (KuroOS.heapAppend block) := by
    unfold KuroOS.heapAppend
    exact .bind .get fun _ => .bind (storeWord _ _) fun _ => .bind (storeWord _ _) fun _ => .bind (setNext _ _) fun _ =>
      .modify fun _ => rfl
  refine .bind pageAlloc fun _ => .ite (.pure _) ?_
  refine .bind (storeWord _ _) fun _ => .bind (storeWord _ _) fun _ => .bind (storeWord _ _) fun _ => .bind (storeWord _ _) fun _ => ?_
  exact .bind (append _) fun _ => .pure _

/-- `kmalloc`. -/
theorem kmalloc (size : Nat) : Along SameCount (KuroOS.kmalloc size) := by
  have loop (size fuel : Nat) : Along SameCount (KuroOS.kmallocLoop size fuel) := by
    induction fuel with
    | zero => exact .throw _
    | succ fuel ih =>
        refine .bind .get fun _ => .bind (kmallocFind _ _ _) fun found => ?_
        cases found with
        | some payload => exact .pure _
        | none => exact .bind heapGrow fun _ => .ite (.pure _) ih
  exact .ite (.pure _) (.ite (.pure _) (loop _ _))

/-- `initrd_init`. -/
theorem initrdInit (start size : Nat) : Along SameCount (KuroOS.initrdInit start size) := by
  have add (name namesize filesize data : Nat) : Along SameCount (KuroOS.initrdAdd name namesize filesize data) := by
    refine .bind (kmalloc _) fun _ => .ite (.pure _) (.bind (modifyMem _) fun _ => .bind (modifyMem _) fun _ => ?_)
    refine .bind (storeWord _ _) fun _ => .bind (storeWord _ _) fun _ => .bind .get fun _ => .bind (storeWord _ _) fun _ => ?_
    exact .bind (.modify fun _ => rfl) fun _ => .pure _
  have loop (stop fuel pos : Nat) : Along SameCount (KuroOS.initrdLoop stop fuel pos) := by
    induction fuel generalizing pos with
    | zero => exact .throw _
    | succ fuel ih =>
        refine .bind .get fun _ => .ite (.ite (.pure _) (.ite (ih _) (.bind (add _ _ _ _) fun _ => .ite (ih _) (.pure _)))) (.pure _)
  exact .bind (.modify fun _ => rfl) fun _ => loop _ _ _

end

end SameCount

section

variable [Layout] {g g' : World} {s s' : Kernel} {tf userSp entry made : Nat}

omit [Layout] in
/-- The status that `task_init_frame` writes. -/
theorem freshFrame_status {mem mem' : Mem} (written : ∀ i < trapFrameSize, mem' (tf + i) = freshFrame mem tf userSp entry (tf + i)) :
    UserStatus (.ofNat (mem'.load (tf + TrapFrame.sstatus) 8)) := by
  have word : mem'.load (tf + TrapFrame.sstatus) 8 = sstatusSpie ||| sstatusSum := by
    calc mem'.load (tf + TrapFrame.sstatus) 8 = (freshFrame mem tf userSp entry).load (tf + TrapFrame.sstatus) 8 :=
          Mem.load_shift fun i low => by
            rw [Nat.add_assoc]
            exact written _ (by simp only [TrapFrame.sstatus, trapFrameSize]; omega)
      _ = sstatusSpie ||| sstatusSum := Mem.load_store_same (by decide)
  rw [word]
  constructor <;> decide

/-- `task_create_user` queues a task with that status. -/
theorem ValidOf.userFrames_create (valid : Valid g s) (frames : UserFrames s) (start stop entry : Nat) :
    wp (taskCreateUser start stop entry) s (fun _ s' => UserFrames s') fun _ _ => True := by
  refine wp_mono (valid.world.taskCreateUser_writes valid.unqueued valid.pid) ?_ fun _ _ => id
  rintro r s' ⟨g₁, s₁, g', reaping, world', ⟨rfl, aborted, _⟩ | ⟨some, v, pages, rfl, _, _, created, _, ⟨_, written⟩, _⟩⟩
  · have valid' := (valid.reaping reaping).aborted world' aborted
    exact valid.userFrames_made (X := ∅) valid' frames ⟨g₁, s₁, reaping, .inl ⟨rfl, aborted⟩⟩ (by simp)
      fun nonzero => absurd rfl nonzero
  · have valid' := (valid.reaping reaping).created world' created
    refine valid.userFrames_made (X := ∅) valid' frames ⟨g₁, s₁, reaping, .inr ⟨some, v, pages, rfl, created⟩⟩ (by simp)
      fun _ => ?_
    have member : v ∈ g'.tasks := by
      rw [created.born.tasks]
      simp
    rw [frameStatus, show tfOf s' v.addr = v.tf from (valid'.world.view v member).tf]
    exact freshFrame_status written

namespace Idle

/-- What `user_init` needs of each task that it makes. -/
theorem create_frames (idle : Idle made g s) (small : made < 2 ^ 32) (frames : UserFrames s) (start stop entry : Nat) :
    wp (taskCreateUser start stop entry) s (fun r s' => UserFrames s' ∧ ∃ g', Idle (made + 1) g' s' ∧
      (∀ v ∈ g.tasks, v ∈ g'.tasks ∨ v.state = .zombie) ∧ (r ≠ 0 → ∃ v ∈ g'.tasks, v.addr = r ∧ v.state = .ready)) fun _ _ => ¬ False := by
  obtain ⟨n, count⟩ : ∃ n, alignUp (wsub stop start) pageSize = 4096 * n :=
    ⟨_, (Nat.mul_div_cancel' (Nat.dvd_of_mod_eq_zero (alignUp_pages _).1)).symm⟩
  have created : wp (taskCreateUser start stop entry) s _ fun _ _ => True := idle.create small start stop entry count
  refine wp_mono (wp_and (idle.valid.userFrames_create frames start stop entry) created) ?_ fun _ _ _ => not_false
  rintro r s' ⟨frames', g', idle', kept, outcome⟩
  refine ⟨frames', g', idle', fun v member => (kept v member).imp And.left id, fun some => ?_⟩
  obtain ⟨_, _, _, v, member, here, ready, _⟩ := outcome.resolve_left fun failed => some failed.1
  exact ⟨v, member, here, ready⟩

/-- `user_init` starts with queued tasks in user mode. -/
theorem userInit_frames (idle : Idle made g s) (small : made + 1 < 2 ^ 32) (frames : UserFrames s) :
    wp KuroOS.userInit s (fun _ s' => UserFrames s') fun _ _ => ¬ False := by
  unfold KuroOS.userInit
  refine wp_bind_of (idle.create_frames (by omega) frames _ _ _) ?_
  rintro first s₁ ⟨frames₁, g₁, idle₁, _, first'⟩
  refine wp_bind_of (idle₁.create_frames small frames₁ _ _ _) ?_
  rintro second s₂ ⟨frames₂, g₂, idle₂, kept, _⟩
  refine wp_assert False.elim fun some => wp_assert False.elim fun _ => ?_
  obtain ⟨v, member, rfl, ready⟩ := first' some
  have member₂ : v ∈ g₂.tasks := (kept v member).resolve_right (by simp [ready])
  have books : Books 0 g₂ s₂ := by
    have := idle₂.valid.sched.books
    rwa [idle₂.current] at this
  have queued : v.addr ∈ g₂.queue := (books.queued v member₂).mpr (by simp [ready])
  refine wp_mono (idle₂.valid.world.taskSetCurrent_spec books member₂ queued) ?_ fun _ _ => id
  rintro _ s' ⟨world', sched', resumed, switched⟩
  have fewer := switched.fewerPids (.refl _)
  have valid' : Valid _ s' := ⟨world', sched', fewer.2 ▸ idle₂.valid.pid, fun w inside here => by
    rw [world'.eq_of_addr inside resumed.member (here.trans resumed.current)]
    exact resumed.root⟩
  exact idle₂.valid.userFrames_switched valid' frames₂ switched (fun task queued => ⟨queued, by simp⟩) fun _ _ _ member _ => member

/-- `task_create_user_test` takes its task off the queue again. -/
theorem taskCreateUserTest_count (idle : Idle made g s) (small : made < 2 ^ 32) (empty : g.queue = []) :
    wp KuroOS.taskCreateUserTest s (fun _ s' => s'.nrRunnableTasks = 0) fun _ _ => ¬ False := by
  obtain ⟨n, count⟩ : ∃ n, alignUp (wsub Layout.userEnd Layout.userStart) pageSize = 4096 * n :=
    ⟨_, (Nat.mul_div_cancel' (Nat.dvd_of_mod_eq_zero (alignUp_pages _).1)).symm⟩
  have entryRuns : ∀ root va wanted text s, wp (KuroOS.entryTest root va wanted text) s (fun _ s' => Looked s s') fun _ _ => ¬ False :=
    fun _ _ _ _ s => wp_mono (Looks.entryTest _ _ _ _ s) (fun _ _ => id) fun _ _ _ => not_false
  unfold KuroOS.taskCreateUserTest
  refine wp_bind_of (idle.create small _ _ _ count) ?_
  rintro task s₁ ⟨g₁, idle₁, _, outcome⟩
  refine wp_assert False.elim fun nonzero => ?_
  obtain ⟨_, _, longer, v, member, rfl, ready, _⟩ := outcome.resolve_left fun failed => nonzero failed.1
  rw [wp_bind, wp_loadState]
  refine wp_assert False.elim fun _ => ?_
  rw [wp_bind, wp_loadWord]
  refine wp_assert False.elim fun _ => ?_
  rw [wp_bind, wp_loadWord]
  refine wp_assert False.elim fun _ => ?_
  rw [wp_bind, wp_loadWord]
  refine wp_assert False.elim fun _ => ?_
  rw [wp_bind, wp_loadWord, wp_bind, wp_loadWord]
  refine wp_bind_of (entryRuns _ _ _ _ s₁) fun _ s₂ looked₂ => ?_
  rw [wp_bind, wp_loadWord]
  refine wp_bind_of (entryRuns _ _ _ _ s₂) fun _ s₃ looked₃ => ?_
  have idle₃ : Idle (made + 1) g₁ s₃ := (idle₁.looked looked₂).looked looked₃
  refine wp_mono (idle₃.valid.destroy_step member ready 0) ?_ fun _ _ => id
  rintro _ s' ⟨g', valid', w, _, _, destroyed⟩
  have one : s₃.nrRunnableTasks = 1 := by
    rw [idle₃.valid.sched.books.count, longer, empty, List.length_nil]
  rw [destroyed.globals, one]
  rfl

end Idle

/-- `kernel_main`, up to the jump to user mode. -/
theorem kernelMain_frames {s₀ : Kernel} (power : PowerOn s₀) : wp kernelMain s₀ (fun _ s => UserFrames s) fun _ _ => ¬ False := by
  unfold kernelMain
  refine wp_bind_of (kernelStart_spec power False.elim) ?_
  rintro _ s₁ ⟨g₁, started, _⟩
  have idle : Idle 0 g₁ s₁ := ⟨started.valid, started.current, ⟨by simp [started.tasks], by simp [started.tasks]⟩,
    by rw [started.pid]⟩
  have empty : g₁.queue = [] := by
    apply List.eq_nil_iff_forall_not_mem.mpr
    intro task queued
    obtain ⟨v, member, _⟩ := started.valid.sched.books.known task queued
    simp [started.tasks] at member
  have counted : wp kernelTestAndInitrd s₁ (fun _ s' => s'.nrRunnableTasks = 0) fun _ _ => ¬ False := by
    unfold kernelTestAndInitrd
    refine wp_bind_of (idle.taskCreateUserTest_count (by decide) empty) fun _ s₂ zero => ?_
    split
    · exact wp_mono (SameCount.initrdInit _ _ s₂) (fun _ _ same => same.trans zero) fun _ _ _ => not_false
    · exact (wp_pure _).mpr zero
  have image : False → UserImage 0 := False.elim
  refine wp_bind_of (wp_mono (wp_and (idle.kernelTestAndInitrd (by decide) image False.elim) counted) (fun _ _ => id) fun _ _ => And.left) ?_
  rintro _ s₂ ⟨⟨g₂, idle₂, _⟩, zero⟩
  refine idle₂.userInit_frames (by omega) fun queue isQueue task queued => ?_
  rw [idle₂.valid.runQueue_eq isQueue] at queued
  rw [idle₂.valid.sched.books.count] at zero
  rw [List.eq_nil_of_length_eq_zero zero] at queued
  simp at queued

/-- The first state in user mode. -/
theorem AfterUserInit.userFrames (starts : AfterUserInit s) : UserFrames s := by
  obtain ⟨s₀, power, returned⟩ := starts
  have frames := wp_ok (kernelMain_frames power) returned
  exact frames

end

end KuroOS
