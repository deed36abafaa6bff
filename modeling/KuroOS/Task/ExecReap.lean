import KuroOS.Task.ExecName
import KuroOS.Task.ReapExact

/-!
# Reaping a task that has executed a file

`task_free` gives back the user pages that `task_create_user` and `task_fork` have
mapped: it counts them with `user_image_size`. `sys_exec` maps others and sets that
size to 0: it does not track them. So reaping such a task gives back its page table
and its kernel stack, and none of the pages that its page table maps for the user.
-/

namespace KuroOS

open Base

section

variable [Layout]

/-- An operation frees a task: it reaps, and the task is a zombie that is not the
current one, or it destroys the task. -/
def Op.FreesTask (s : Kernel) (t : Nat) : Op → Prop
  | .createUser .. | .fork | .schedule | .reap => Reapable s t
  | .destroy task => task = t
  | _ => False

/-- The runs of operations from a state in which a task is not freed. -/
inductive Lives (t : Nat) (s : Kernel) : Kernel → Prop
  | refl : Lives t s s
  | step {s₁ s₂ : Kernel} {op : Op} {r : Nat} (before : Lives t s s₁) (called : Running s₁ op)
      (stays : ¬ op.FreesTask s₁ t) (steps : op.Steps s₁ r s₂) : Lives t s s₂

/-- A task has the address space of a file. -/
def HasFile (g : World) (t : Nat) : Prop := ∃ v ∈ g.tasks, v.addr = t ∧ v.imageSize = 0 ∧ LoadedMap (g.user t) v.userStack

/-- A task keeps its pages and its fields, those of the scheduler apart. -/
def Keeps (v : TaskView) (g g' : World) : Prop :=
  g'.user v.addr = g.user v.addr ∧ g'.dir v.addr = g.dir v.addr ∧ ∃ w ∈ g'.tasks, w.core = v.core

variable {g g₁ g' : World} {s s' s₁ s₂ s₃ s₄ s₅ : Kernel} {t filename : Nat} {v : TaskView} {op : Op} {r : Nat}

omit [Layout] in
theorem Keeps.of_mem (member : v ∈ g'.tasks) (user : g'.user v.addr = g.user v.addr) (dir : g'.dir v.addr = g.dir v.addr) :
    Keeps v g g' :=
  ⟨user, dir, v, member, rfl⟩

/-- A task that is not reaped survives. -/
theorem ValidOf.survives {Kind : SpaceKind} (valid : ValidOf Kind g s) (member : v ∈ g.tasks) (stays : ¬ Reapable s v.addr) : v ∈ survivors s.current g.tasks := by
  refine mem_survivors.mpr ⟨member, fun zombie => ?_⟩
  by_contra other
  exact stays ⟨zombie ▸ (valid.world.view v member).state, other⟩

/-- Making another task changes nothing for it. -/
theorem Keeps.made {X : Set Nat} (valid : Valid g s) (member : v ∈ g.tasks) (stays : ¬ Reapable s v.addr)
    (made : Made X g s r g' s') : Keeps v g g' := by
  obtain ⟨g₁, s₁, reaping, outcome⟩ := made
  have member₁ : v ∈ g₁.tasks := by
    rw [reaping.tasks]
    exact valid.survives member stays
  have user₁ := reaping.reaped.user
  have dir₁ := reaping.reaped.dir
  rcases outcome with ⟨_, aborted⟩ | ⟨_, w, pages, _, created⟩
  · exact .of_mem (aborted.same.tasks ▸ member₁) (by rw [aborted.same.user, user₁]) (by rw [aborted.same.dir, dir₁])
  · have other : v.addr ≠ w.addr := fun equal =>
      created.born.fresh (List.mem_append_left _ (equal ▸ List.mem_map_of_mem member₁))
    refine .of_mem ?_ (by rw [created.born.user _ other, user₁]) (by rw [created.born.dir _ other, dir₁])
    rw [created.born.tasks]
    exact List.mem_append_left _ member₁

/-- Switching tasks changes nothing for it. -/
theorem Keeps.switched {gone kept : List TaskView} (inside : v ∈ kept) (switched : Switched gone kept g s g' s') : Keeps v g g' := by
  obtain ⟨w, member, core⟩ := List.mem_map.mp (switched.tasks ▸ List.mem_map_of_mem inside)
  exact ⟨by rw [switched.user], by rw [switched.dir], w, member, core⟩

/-- An operation that does not free a task leaves it its pages, unless it is the task's
own `sys_exec`. -/
theorem ValidOf.step_keeps (valid : Valid g s) (member : v ∈ g.tasks) (stays : ¬ op.FreesTask s v.addr) (outcome : op.Outcome g s r g' s') :
    Keeps v g g' ∨ (v.addr = s.current ∧ (∃ filename, op = .exec filename) ∧ ∃ root entry, Execed g s v root entry g' s') := by
  have unchanged : SameTasks g g' → Keeps v g g' := fun same =>
    .of_mem (same.tasks ▸ member) (by rw [same.user]) (by rw [same.dir])
  cases op with
  | createUser start stop entry => exact .inl (.made valid member stays outcome)
  | fork =>
      rcases outcome with ⟨rfl, rfl⟩ | ⟨p, _, _, made⟩
      · exact .inl (unchanged (.refl _))
      · exact .inl (.made valid member stays made)
  | schedule => exact .inl (.switched (valid.survives member stays) outcome)
  | exit code => exact .inl (.switched member outcome)
  | reap =>
      refine .inl (.of_mem ?_ (by rw [outcome.reaped.user]) (by rw [outcome.reaped.dir]))
      rw [outcome.tasks]
      exact valid.survives member stays
  | exec filename =>
      rcases outcome with failed | ⟨p, inTasks, current, root, entry, execed⟩
      · exact .inl (unchanged failed.same)
      · by_cases same : v.addr = p.addr
        · obtain rfl := valid.world.eq_of_addr member inTasks same
          exact .inr ⟨current, ⟨filename, rfl⟩, root, entry, execed⟩
        · refine .inl (.of_mem ?_ (execed.user _ same) (execed.dir _ same))
          rw [execed.tasks]
          exact mem_modify.mpr ⟨v, member, (if_neg same).symm⟩
  | destroy task =>
      obtain ⟨w, _, here, destroyed⟩ := outcome
      have other : v ≠ w := by
        rintro rfl
        exact stays here.symm
      refine .inl (.of_mem ?_ (by rw [destroyed.same.user]; rfl) (by rw [destroyed.same.dir]; rfl))
      rw [destroyed.same.tasks]
      exact (List.mem_erase_of_ne other).mpr member
  | take => exact .inl (unchanged outcome.same)
  | user mem uart =>
      obtain ⟨rfl, _, _⟩ := outcome
      exact .inl (unchanged (.refl _))

omit [Layout] in
theorem Keeps.hasFile (keeps : Keeps v g g') (size : v.imageSize = 0) (map : LoadedMap (g.user v.addr) v.userStack) : HasFile g' v.addr := by
  obtain ⟨user, _, w, member, core⟩ := keeps
  have fields := TaskView.core_fields core
  refine ⟨w, member, fields.1, fields.2.2.2.2.2.2.1.trans size, ?_⟩
  rw [fields.2.2.2.2.2.1, user]
  exact map

omit [Layout] in
theorem Keeps.trans {w : TaskView} (keeps : Keeps v g g₁) (core : w.core = v.core) (later : Keeps w g₁ g') : Keeps v g g' := by
  obtain ⟨user, dir, _⟩ := keeps
  obtain ⟨user', dir', u, member, core'⟩ := later
  have addr := (TaskView.core_fields core).1
  rw [addr] at user' dir'
  exact ⟨user'.trans user, dir'.trans dir, u, member, core'.trans core⟩

/-- The task that has executed a file. -/
theorem Execed.hasFile {p : TaskView} {root entry : Nat} (execed : Execed g s p root entry g' s') (member : p ∈ g.tasks) :
    HasFile g' p.addr := by
  refine ⟨p.loaded root entry, ?_, rfl, rfl, execed.loaded⟩
  rw [execed.tasks]
  exact mem_modify.mpr ⟨p, member, (if_pos rfl).symm⟩

/-- As long as it is not freed, a task that has executed a file has pages of a file. -/
theorem Lives.hasFile (lives : Lives t s s') (start : ∃ g, Valid g s ∧ HasFile g t) : ∃ g, Valid g s' ∧ HasFile g t := by
  induction lives with
  | refl => exact start
  | step before called stays steps ih =>
      obtain ⟨g, valid, v, member, rfl, size, map⟩ := ih
      obtain ⟨g', valid', outcome⟩ := valid.step called.2 steps
      refine ⟨g', valid', ?_⟩
      rcases valid.step_keeps member stays outcome with keeps | ⟨_, _, root, entry, execed⟩
      · exact keeps.hasFile size map
      · exact execed.hasFile member

/-- A zombie can be reaped: it does not run. -/
theorem WorldOf.reapable {wip : Set Owner} (world : WorldAt wip g s) (sched : Sched g s) (member : v ∈ g.tasks) (zombie : v.state = .zombie) :
    Reapable s v.addr := by
  refine ⟨by rw [← zombie]; exact (world.view v member).state, fun current => ?_⟩
  have running := (sched.books.running v member).mpr current
  simp [zombie] at running

/-- What an exit of the current task leaves. -/
theorem ValidOf.exited (valid : Valid g s) (busy : s.current ≠ 0) {code : UInt64}
    (exits : taskExitCurrent (currentFrame s) code.toNat s = .ok r s') : ∃ g', WorldAt ∅ g' s' ∧ Sched g' s' ∧
    Switched [] g.tasks g s g' s' ∧ g'.queue = g.queue.erase s.current ∧ ∃ w ∈ g'.tasks, w.addr = s.current ∧ w.state = .zombie := by
  obtain ⟨p, member, current, isFrame⟩ := valid.running busy
  rw [isFrame] at exits
  have spec : wp (taskExitCurrent p.tf code.toNat) s _ fun _ _ => True :=
    valid.world.taskExitCurrent_spec valid.sched member current.symm code.toNat_lt
  obtain ⟨g', world, sched, switched, queue, ⟨w, dead, here, zombie, _⟩, _⟩ := wp_returned spec exits
  exact ⟨g', world, sched, switched, current ▸ queue, w, dead, here.trans current, zombie⟩

/-- A zombie that another task's operation does not free stays one. -/
theorem ValidOf.reapable_step (valid : Valid g s) (member : v ∈ g.tasks) (reapable : Reapable s v.addr) (called : Running s op)
    (stays : ¬ op.FreesTask s v.addr) (steps : op.Steps s r s') : Reapable s' v.addr := by
  have view := valid.world.view v member
  have zombie : v.state = .zombie := TaskState.code_inj (view.state.symm.trans reapable.1)
  have still : ∀ g', Valid g' s' → v ∈ g'.tasks → s'.current = s.current → Reapable s' v.addr := fun g' valid' here current =>
    ⟨by rw [← zombie]; exact (valid'.world.view v here).state, by rw [current]; exact reapable.2⟩
  obtain ⟨g', valid', outcome⟩ := valid.step called.2 steps
  cases op with
  | createUser start stop entry => exact absurd reapable stays
  | fork => exact absurd reapable stays
  | schedule => exact absurd reapable stays
  | exit code =>
      obtain ⟨g₁, world, sched, switched, queue, _⟩ := valid.exited called.1 steps
      obtain ⟨w, here, core⟩ := List.mem_map.mp (switched.tasks ▸ List.mem_map_of_mem member)
      have addr : w.addr = v.addr := (TaskView.core_fields core).1
      -- a zombie is not queued, and an exit queues nothing
      have idle : w.addr ∉ g₁.queue := fun queued => by
        rw [queue, addr] at queued
        exact (valid.sched.books.queued v member).mp (List.mem_of_mem_erase queued) zombie
      have dead : w.state = .zombie := not_not.mp fun alive => idle ((sched.books.queued w here).mpr alive)
      exact addr ▸ world.reapable sched here dead
  | reap => exact absurd reapable stays
  | exec filename =>
      rcases outcome with failed | ⟨p, inTasks, current, root, entry, execed⟩
      · exact still g' valid' (failed.same.tasks ▸ member) (by rw [failed.globals])
      · refine still g' valid' ?_ (by rw [execed.globals])
        rw [execed.tasks]
        exact mem_modify.mpr ⟨v, member, (if_neg fun same => reapable.2 (same.trans current)).symm⟩
  | destroy task =>
      obtain ⟨w, _, here, destroyed⟩ := outcome
      refine still g' valid' ?_ (by rw [destroyed.globals])
      rw [destroyed.same.tasks]
      refine (List.mem_erase_of_ne ?_).mpr member
      rintro rfl
      exact stays here.symm
  | take => exact still g' valid' (outcome.same.tasks ▸ member) (by rw [outcome.globals])
  | user mem uart =>
      obtain ⟨rfl, _, is⟩ := outcome
      exact still _ valid' member (by rw [is])

/-- A task that has exited keeps its pages until it is freed. -/
theorem Lives.kept (lives : Lives v.addr s s') (valid : Valid g s) (member : v ∈ g.tasks) (reapable : Reapable s v.addr) :
    ∃ g', Valid g' s' ∧ Keeps v g g' ∧ Reapable s' v.addr := by
  induction lives with
  | refl => exact ⟨g, valid, .of_mem member rfl rfl, reapable⟩
  | step before called stays steps ih =>
      obtain ⟨g₁, valid₁, keeps, zombie⟩ := ih
      obtain ⟨w, here, core⟩ := keeps.2.2
      have addr : w.addr = v.addr := (TaskView.core_fields core).1
      rw [← addr] at zombie stays ⊢
      obtain ⟨g', valid', outcome⟩ := valid₁.step called.2 steps
      refine ⟨g', valid', ?_, valid₁.reapable_step here zombie called stays steps⟩
      rcases valid₁.step_keeps here stays outcome with later | ⟨current, _⟩
      · exact keeps.trans core later
      · exact absurd current zombie.2

/-- A `sys_exec` that returns 0 gives the current task the pages of a file. -/
theorem ValidOf.exec_hasFile (valid : Valid g s) (busy : s.current ≠ 0) (returned : sysExec filename (currentFrame s) s = .ok 0 s') :
    ∃ g', Valid g' s' ∧ HasFile g' s.current ∧ g'.queue = g.queue ∧ s'.current = s.current := by
  obtain ⟨p, member, current, isFrame⟩ := valid.running busy
  rw [isFrame] at returned
  obtain ⟨g', world', ⟨failed, _⟩ | ⟨_, root, entry, execed⟩⟩ := wp_returned (valid.world.sysExec_spec member current.symm filename) returned
  · exact absurd failed (by decide)
  · exact ⟨g', valid.execed member current.symm world' execed, current ▸ execed.hasFile member, execed.queue, by rw [execed.globals]⟩

end

section

attribute [local instance] Layout.sample

/-- The program is executed under a name that is on the caller's stack: the new stack begins
with an empty name. -/
theorem ValidOf.hello_returns {s s₁ : Kernel} {g : World} (valid : Valid g s) (busy : s.current ≠ 0)
    (image : InImage s (fileOf helloBytes) Layout.initrdStart 124) (found : Found s (4096 * stackVpn) Layout.initrdStart 124 s₁)
    (room : 31000 ≤ g.free.length) :
    ∃ s', sysExec (4096 * stackVpn) (currentFrame s) s = .ok 0 s' ∧ Replaced (fileOf helloBytes) s' ∧ 30000 ≤ s'.nrFreePages := by
  obtain ⟨fits, one⟩ := hello_fits
  obtain ⟨valid₁, busy₁, image₁, frame⟩ := found.after valid busy image
  have returns : wp (sysExec (4096 * stackVpn) (currentFrame s)) s
      (fun r s' => r = 0 ∧ Replaced (fileOf helloBytes) s' ∧ 30000 ≤ s'.nrFreePages) fun _ _ => False := by
    refine found.sysExec _ ?_
    rw [execLoad_eq, ← frame]
    refine wp_bind_of (valid₁.execLoadCommit_of busy₁ hello_elf image₁) ?_
    rintro _ s₂ (⟨rfl, _, replaced, clear, left⟩ | ⟨_, zero | clash | taken | short⟩)
    · -- the name starts with the first byte of the new stack
      have empty : StringAt s₂ (4096 * stackVpn) [] := by
        refine ⟨fun i low => ?_, fun i low => absurd low (Nat.not_lt_zero i)⟩
        obtain rfl : i = 0 := Nat.le_zero.mp low
        exact (replaced.byteAt_iff clear (by decide) (by decide)).mpr (.inr ⟨by decide, rfl⟩)
      have printed : wp (printkUser (4096 * stackVpn)) s₂ (fun _ s' => Looked s₂ s') fun _ _ => False := by
        unfold printkUser
        rw [if_pos (by decide), show loopBound = (2 ^ 64 - 1) + 1 from rfl, uartPutsUser]
        refine wp_bind_of (empty.readUser (.refl s₂ _ _) (Nat.le_refl 0)) ?_
        rintro byte s₃ ⟨rfl, looked, _⟩
        rw [List.getD_nil, if_pos rfl, wp_pure]
        exact looked
      unfold execReport
      rw [if_pos rfl]
      refine wp_bind_of printed fun _ s₃ looked => ?_
      have count : s₃.nrFreePages = s₂.nrFreePages := by rw [looked]
      rw [one] at left
      rw [wp_pure]
      exact ⟨rfl, replaced.looked looked, by omega⟩
    · exact absurd zero (by decide)
    · exact absurd fits clash
    · exact absurd taken hello_user.below_stack
    · rw [one] at short
      omega
  obtain ⟨r, s', returned, rfl, replaced, left⟩ := wp_total returns
  exact ⟨s', returned, replaced, left⟩

/-- A program is executed whose name is no longer there to be printed. -/
theorem hello_returns : ∃ s g filename s', Valid g s ∧ s.current ≠ 0 ∧ 2 ≤ g.queue.length ∧
    sysExec filename (currentFrame s) s = .ok 0 s' ∧ Replaced (fileOf helloBytes) s' ∧ 30000 ≤ s'.nrFreePages := by
  have executable : Executable helloBytes := by
    refine ⟨?_, ?_, ?_, ?_, ?_, ?_, ?_, ?_⟩ <;> decide +kernel
  obtain ⟨s, g, s₁, valid, busy, image, _, _, found, two, room⟩ := named_sample executable
  have length : helloBytes.length = 124 := by decide +kernel
  rw [length] at image found
  obtain ⟨s', returned, replaced, left⟩ := valid.hello_returns busy image found room
  exact ⟨s, g, _, s', valid, busy, two, returned, replaced, left⟩

end

end KuroOS
