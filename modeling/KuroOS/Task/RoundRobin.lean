import KuroOS.Task.Run

/-!
# Round robin

`task_schedule` walks the run queue from the node of the current task. `Rounds`
are the runs in which it is called a number of times while no task is made, dies
or is destroyed; the queue then stands still and the calls go around it.
-/

namespace KuroOS

open Base

/-- The task at an index of the queue, counted around it. -/
def turn (queue : List Nat) (i : Nat) : Nat := queue.getD (i % queue.length) 0

/-- The operations that leave the run queue and the current task alone. -/
def Op.quiet : Op → Bool
  | .reap | .exec _ | .take | .user _ _ => true
  | _ => false

variable {queue : List Nat} {i k : Nat}

/-- What stands at an index of the queue. -/
theorem turn_of_lt (inside : i < queue.length) : turn queue i = queue[i] := by
  rw [turn, Nat.mod_eq_of_lt inside, List.getD_eq_getElem _ _ inside]

/-- Only the index modulo the length counts. -/
theorem turn_mod (i : Nat) : turn queue (i % queue.length) = turn queue i := by
  simp only [turn, Nat.mod_mod]

/-- The task after the one at an index stands at the next index. -/
theorem afterCurrent_turn (distinct : queue.Nodup) (some : queue ≠ []) (i : Nat) :
    afterCurrent queue (turn queue i) = turn queue (i + 1) := by
  have positive : 0 < queue.length := List.length_pos_of_ne_nil some
  obtain ⟨j, isIndex⟩ : ∃ j, j = i % queue.length := ⟨_, rfl⟩
  have inside : j < queue.length := isIndex ▸ Nat.mod_lt _ positive
  have here : turn queue i = queue[j] := by
    rw [← turn_mod, ← isIndex, turn_of_lt inside]
  have split : queue = queue.take j ++ queue[j] :: queue.drop (j + 1) := by
    rw [← List.drop_eq_getElem_cons inside, List.take_append_drop]
  have notBefore : queue[j] ∉ queue.take j := fun before => by
    have apart := (List.nodup_append.mp (split ▸ distinct)).2.2
    exact apart _ before _ List.mem_cons_self rfl
  have next : (i + 1) % queue.length = if j + 1 = queue.length then 0 else j + 1 := by
    rw [Nat.add_mod, ← isIndex]
    split
    · next last =>
        by_cases one : queue.length = 1
        · simp [one, Nat.mod_one]
        · rw [Nat.mod_eq_of_lt (show 1 < queue.length by omega), last, Nat.mod_self]
    · next more => rw [Nat.mod_eq_of_lt (show 1 < queue.length by omega), Nat.mod_eq_of_lt (by omega)]
  have following : afterCurrent (queue.take j ++ queue[j] :: queue.drop (j + 1)) queue[j] = _ := afterCurrent_split notBefore
  rw [← split] at following
  rw [here, following, turn, next]
  split
  · next last =>
      rw [List.drop_eq_nil_of_le (by omega), List.nil_append]
      cases queue with
      | nil => simp at some
      | cons a rest =>
          cases j with
          | zero => simp
          | succ j => simp
  · next more =>
      have less : j + 1 < queue.length := by omega
      rw [List.drop_eq_getElem_cons less, List.getD_eq_getElem _ _ less, List.cons_append, List.cons_append, List.headD_cons]

/-- One more index, counted around the queue. -/
theorem add_mod_cases {n i j : Nat} (less : j < n) :
    (i + j) % n = if i % n + j < n then i % n + j else i % n + j - n := by
  have small := Nat.mod_lt i (show 0 < n by omega)
  rw [Nat.add_mod, Nat.mod_eq_of_lt less]
  split
  · next below => exact Nat.mod_eq_of_lt below
  · next above => rw [Nat.mod_eq_sub_mod (by omega), Nat.mod_eq_of_lt (by omega)]

/-- In as many turns as the queue is long, every task on it comes once. -/
theorem turn_once (distinct : queue.Nodup) {t : Nat} (queued : t ∈ queue) (i : Nat) :
    ∃! j, j < queue.length ∧ turn queue (i + j) = t := by
  have positive := List.length_pos_of_mem queued
  obtain ⟨m, inside, rfl⟩ := List.getElem_of_mem queued
  have small := Nat.mod_lt i positive
  have atIndex : ∀ j, turn queue (i + j) = queue[m] ↔ (i + j) % queue.length = m := fun j => by
    rw [← turn_mod, turn_of_lt (Nat.mod_lt _ positive), distinct.getElem_inj_iff]
  refine ⟨if i % queue.length ≤ m then m - i % queue.length else m + queue.length - i % queue.length,
    ⟨by split <;> omega, (atIndex _).mpr ?_⟩, fun j ⟨less, here⟩ => ?_⟩
  · rw [add_mod_cases (by split <;> omega)]
    split <;> split <;> omega
  · have residue := (atIndex j).mp here
    rw [add_mod_cases less] at residue
    split at residue <;> split <;> omega

section

variable [Layout]

/-- Runs with a number of calls of `task_schedule`, each in the frame of the task
that is then current, and quiet operations between them. -/
inductive Rounds (s : Kernel) : Nat → Kernel → Prop
  | start : Rounds s 0 s
  | quiet {k r : Nat} {s' s'' : Kernel} {op : Op} (before : Rounds s k s') (quiet : op.quiet) (called : op.Called s')
      (steps : op.Steps s' r s'') : Rounds s k s''
  | turn {k r : Nat} {s' s'' : Kernel} (before : Rounds s k s')
      (returned : taskSchedule (currentFrame s') s' = .ok r s'') : Rounds s (k + 1) s''

variable {g g' : World} {s s' : Kernel} {n : Nat}

/-- What a quiet operation leaves alone. -/
theorem Op.Outcome.quiet {op : Op} {r : Nat} (outcome : op.Outcome g s r g' s') (isQuiet : op.quiet) :
    g'.queue = g.queue ∧ s'.current = s.current := by
  cases op with
  | reap => exact ⟨Reaped.queue (ReapingOf.reaped outcome), by rw [(ReapingOf.reaped outcome).globals]⟩
  | exec filename =>
      rcases outcome with failed | ⟨p, _, _, root, entry, execed⟩
      · exact ⟨failed.same.queue, by rw [failed.globals]⟩
      · exact ⟨execed.queue, by rw [execed.globals]⟩
  | take => exact ⟨SameTasks.queue (ExecFailed.same outcome), by rw [ExecFailed.globals outcome]⟩
  | user mem uart =>
      obtain ⟨rfl, _, rfl⟩ := outcome
      exact ⟨rfl, rfl⟩
  | createUser | fork | schedule | exit | destroy => simp [Op.quiet] at isQuiet

namespace ValidOf

/-- A task's saved frame is as a switch finds it, unless the task is freed. -/
theorem switched_frame {gone kept : List TaskView} {w : TaskView} (valid : Valid g s) (world' : WorldAt ∅ g' s')
    (switched : Switched gone kept g s g' s') (dead : ∀ v ∈ gone, v ∈ g.tasks) (alive : ∀ v ∈ kept, v ∈ g.tasks ∧ v ∉ gone)
    (member : w ∈ g'.tasks) : SameFrame w.addr s s' := by
  obtain ⟨u, inside, core⟩ := switched.core_mem member
  have fields := TaskView.core_fields core
  obtain ⟨old, stays⟩ := alive u inside
  rw [← fields.1]
  refine valid.sameFrame world' old member fields.1.symm fields.2.2.1.symm fun x owner plain => ?_
  refine switched.effect.bytes x (fun taken => ?_) plain
  rw [owner] at taken
  rcases taken with common | ⟨v, isGone, label⟩
  · simp at common
  · have same : v.addr = u.addr := by simpa [labels, eq_comm] using label
    exact stays (valid.world.eq_of_addr (dead v isGone) old same ▸ isGone)

/-- `task_schedule` with a current task: the next task on the queue resumes in the
frame that it was saved in. -/
theorem schedule_next (valid : Valid g s) (busy : s.current ≠ 0) :
    ∃ r s', taskSchedule (currentFrame s) s = .ok r s' ∧ (∃ g', Valid g' s' ∧ g'.queue = g.queue) ∧
      s'.current = afterCurrent g.queue s.current ∧ r = tfOf s s'.current ∧ SameFrame s'.current s s' := by
  have queued := valid.sched.current.resolve_left busy
  obtain ⟨r, s', returned, g', world', _, switched, queue, outcome⟩ :=
    wp_total (valid.world.taskSchedule_spec valid.sched valid.frame)
  obtain ⟨g₁, valid₁, _⟩ := wp_returned valid.schedule_step returned
  refine ⟨r, s', returned, ⟨g₁, valid₁, (valid₁.runQueue_eq world'.runQueue).symm.trans queue⟩, ?_⟩
  rcases outcome with ⟨none, _⟩ | ⟨_, w, member, isNext, current, isFrame, _⟩
  · simp [none] at queued
  have same := valid.switched_frame world' switched (fun v inside => (mem_zombies.mp inside).1)
    (fun v inside => ⟨(mem_survivors.mp inside).1, fun isZombie => ?_⟩) member
  · rw [current]
    exact ⟨isNext, isFrame.trans ((world'.view w member).tf.symm.trans same.1), same⟩
  · exact (mem_zombies.mp isZombie).2.2 ((mem_survivors.mp inside).2 (mem_zombies.mp isZombie).2.1)

/-- `task_exit_current` with a current task: the first of the tasks that remain
resumes in the frame that it was saved in. -/
theorem exit_next (valid : Valid g s) (busy : s.current ≠ 0) (code : UInt64) :
    ∃ r s', taskExitCurrent (currentFrame s) code.toNat s = .ok r s' ∧ RunQueue s' (g.queue.erase s.current) ∧
      s'.current = (g.queue.erase s.current).headD 0 ∧
      (s'.current ≠ 0 → r = tfOf s s'.current ∧ SameFrame s'.current s s') := by
  obtain ⟨p, member, here, isFrame⟩ := valid.running busy
  obtain ⟨r, s', returned, g', world', _, switched, queue, _, outcome⟩ :=
    wp_total (valid.world.taskExitCurrent_spec valid.sched member here.symm code.toNat_lt)
  rw [isFrame]
  refine ⟨r, s', returned, ?_, ?_⟩
  · rw [← here, ← queue]
    exact world'.runQueue
  rcases outcome with ⟨only, _, idle⟩ | ⟨_, w, resumed, isNext, isTf⟩
  · rw [only, here]
    simp [idle]
  · have same := valid.switched_frame world' switched (by simp) (fun v inside => ⟨inside, by simp⟩) resumed.member
    rw [resumed.current, ← here]
    exact ⟨isNext, fun _ => ⟨isTf.trans ((world'.view w resumed.member).tf.symm.trans same.1), same⟩⟩

/-- Rounds go around the queue. -/
theorem rounds (valid : Valid g s) {i : Nat} (here : g.queue[i]? = some s.current) {k : Nat}
    (rounds : Rounds s k s') : ∃ g', Valid g' s' ∧ g'.queue = g.queue ∧ s'.current = turn g.queue (i + k) := by
  have distinct := valid.world.queue_nodup
  obtain ⟨inside, isCurrent⟩ := List.getElem?_eq_some_iff.mp here
  induction rounds with
  | start => exact ⟨g, valid, rfl, by rw [Nat.add_zero, turn_of_lt inside, isCurrent]⟩
  | quiet before isQuiet called steps ih =>
      obtain ⟨g₁, valid₁, queue₁, current₁⟩ := ih
      obtain ⟨g', valid', outcome⟩ := valid₁.step called steps
      obtain ⟨queue, current⟩ := outcome.quiet isQuiet
      exact ⟨g', valid', queue.trans queue₁, current.trans current₁⟩
  | @turn k r s₁ s' before returned ih =>
      obtain ⟨g₁, valid₁, queue₁, current₁⟩ := ih
      have some : g.queue ≠ [] := List.ne_nil_of_length_pos (by omega)
      have queued : s₁.current ∈ g₁.queue := by
        rw [current₁, queue₁, turn, List.getD_eq_getElem _ _ (Nat.mod_lt _ (by omega))]
        exact List.getElem_mem _
      obtain ⟨r', s'', returned', ⟨g', valid', queue'⟩, current', _⟩ :=
        valid₁.schedule_next (valid₁.world.queued_ne_zero queued)
      rw [returned] at returned'
      obtain ⟨rfl, rfl⟩ : r = r' ∧ s' = s'' := by simpa using returned'
      refine ⟨g', valid', queue'.trans queue₁, ?_⟩
      rw [current', queue₁, current₁, afterCurrent_turn distinct some, Nat.add_assoc]

end ValidOf

/-- `task_schedule` is round robin: from any state of any run, calls of it go around
the run queue, one task at a time, and each returns the frame that the next task
was saved in. What `task_exit_current` leaves is headed by the task that runs
next. -/
theorem schedule_round_robin (run : Reachable n s) {i : Nat} (isQueue : RunQueue s queue) (here : queue[i]? = some s.current) :
    (∀ k s', Rounds s k s' → RunQueue s' queue ∧ s'.current = turn queue (i + k) ∧
      ∃ r s'', taskSchedule (currentFrame s') s' = .ok r s'' ∧ RunQueue s'' queue ∧
        s''.current = turn queue (i + k + 1) ∧ r = tfOf s' s''.current ∧ SameFrame s''.current s' s'') ∧
    (∀ t ∈ queue, ∀ k, ∃! j, j < queue.length ∧ turn queue (i + k + j) = t) ∧
    ∀ code : UInt64, ∃ r s', taskExitCurrent (currentFrame s) code.toNat s = .ok r s' ∧
      RunQueue s' (queue.erase s.current) ∧ s'.current = (queue.erase s.current).headD 0 ∧
      (s'.current ≠ 0 → r = tfOf s s'.current ∧ SameFrame s'.current s s') := by
  obtain ⟨g, valid, _⟩ := run.valid
  obtain rfl := valid.runQueue_eq isQueue
  have distinct := valid.world.queue_nodup
  obtain ⟨inside, isCurrent⟩ := List.getElem?_eq_some_iff.mp here
  have busy : s.current ≠ 0 := valid.world.queued_ne_zero (isCurrent ▸ List.getElem_mem inside)
  have positive : 0 < g.queue.length := by omega
  refine ⟨fun k s' rounds => ?_, fun t queued k => turn_once distinct queued _, valid.exit_next busy⟩
  obtain ⟨g', valid', queue', current'⟩ := valid.rounds here rounds
  have queued : s'.current ∈ g'.queue := by
    rw [current', queue', turn, List.getD_eq_getElem _ _ (Nat.mod_lt _ positive)]
    exact List.getElem_mem _
  obtain ⟨r, s'', returned, ⟨g'', valid'', queue''⟩, next, isFrame, same⟩ :=
    valid'.schedule_next (valid'.world.queued_ne_zero queued)
  refine ⟨queue' ▸ valid'.runQueue, current', r, s'', returned, ?_, ?_, isFrame, same⟩
  · rw [← queue', ← queue'']
    exact valid''.runQueue
  · rw [next, queue', current', afterCurrent_turn distinct (List.ne_nil_of_length_pos positive)]

end

section

attribute [local instance] Layout.sample

/-- A machine with two tasks on its queue goes around it. -/
theorem schedule_round_robin_sample : ∃ s queue i, Reachable 0 s ∧ RunQueue s queue ∧ 2 ≤ queue.length ∧
    queue[i]? = some s.current ∧ ∃ r s', taskSchedule (currentFrame s) s = .ok r s' ∧ s'.current = turn queue (i + 1) := by
  obtain ⟨s, g, run, valid, busy, two, _⟩ := reachable_sample
  obtain ⟨i, here⟩ := List.getElem?_of_mem (valid.sched.current.resolve_left busy)
  obtain ⟨r, s', returned, _, next, _⟩ := ((schedule_round_robin run valid.runQueue here).1 0 s .start).2.2
  exact ⟨s, g.queue, i, run, valid.runQueue, two, here, r, s', returned, next⟩

end

end KuroOS
