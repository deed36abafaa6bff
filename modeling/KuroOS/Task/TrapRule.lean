import KuroOS.Task.Bystander
import KuroOS.Task.Delivery
import KuroOS.Task.TrapRun

/-!
# A rule for traps

Whatever a trap asks for, `trap_handler` writes in the frame and in user pages of the
current task, calls `task_fork` or `sys_exec`, and switches at most once, at its end. So
what these keep, `trap_handler` keeps. `Served` is the instance with everything that a
trap does to the tasks that it is not about.
-/

namespace KuroOS

open Base

section

variable [Layout]

/-- What the kernel writes for the current task is in its pages. -/
structure Touched (s s' : Kernel) : Prop where
  rest : s' = { s with mem := s'.mem, uart := s'.uart, derefs := s'.derefs }
  writes : ∀ x, s'.mem x ≠ s.mem x → MayWrite s x

/-- A trap at which `trap_handler` gives up the CPU: the timer, `sys_yield`, `sys_exit`, and
`sys_read` when no byte waits. -/
def Switches (scause : Nat) (s : Kernel) (tf : Nat) : Prop :=
  scause = scauseUserEcall →
    s.mem.load (tf + TrapFrame.a7) 8 = sysYieldNr ∨ s.mem.load (tf + TrapFrame.a7) 8 = sysExitNr ∨
      s.mem.load (tf + TrapFrame.a7) 8 = sysReadNr ∧ s.uart.waiting = []

/-- What holds in a frame from the step over the `ecall` to the switch, and at the switch. The
calls that are asked for are told by `a7` of the frame at the trap. -/
structure TrapRule (scause : Nat) (s₀ : Kernel) (tf : Nat) (Inv : Kernel → Prop) (post : Nat → Kernel → Prop) : Prop where
  skip : Inv (skipped tf s₀)
  result : ∀ {s value}, Resumes tf s → Inv s → Inv { s with mem := s.mem.store (tf + TrapFrame.a0) 8 value }
  looked : ∀ {s s'}, Resumes tf s → Inv s → Looked s s' → Inv s'
  delivered : ∀ {s s'}, s₀.mem.load (tf + TrapFrame.a7) 8 = sysReadNr → Resumes tf s → Inv s → Delivered s s' → Inv s'
  fork : ∀ {s}, Resumes tf s → Inv s → wp (taskFork tf) s (fun _ => Inv) fun _ _ => True
  exec : ∀ {s} filename, s₀.mem.load (tf + TrapFrame.a7) 8 = sysExecNr → Resumes tf s → Inv s →
    wp (sysExec filename tf) s (fun _ => Inv) fun _ _ => True
  preempt : (scause = scauseUserEcall → s₀.mem.load (tf + TrapFrame.a7) 8 = sysReadNr) → wp (taskSchedule tf) s₀ post fun _ _ => True
  yield : ∀ {s}, s₀.mem.load (tf + TrapFrame.a7) 8 = sysYieldNr → Resumes tf s → Inv s → wp (taskSchedule tf) s post fun _ _ => True
  exit : ∀ {s code}, s₀.mem.load (tf + TrapFrame.a7) 8 = sysExitNr → code < 2 ^ 64 → Resumes tf s → Inv s →
    wp (taskExitCurrent tf code) s (fun f s' => f = 0 ∨ post f s') fun _ _ => True

/-- How a trap ends: it returns to its frame with the invariant, or it switches. -/
def TrapEnds (scause : Nat) (s : Kernel) (tf : Nat) (Inv : Kernel → Prop) (post : Nat → Kernel → Prop) (f : Nat) (s' : Kernel) : Prop :=
  (f = tf ∧ ¬ Switches scause s tf ∧ Inv s') ∨ (Switches scause s tf ∧ post f s')

variable {g g₁ g' : World} {s s₁ s' : Kernel} {p : TaskView} {tf scause r : Nat} {Inv : Kernel → Prop} {post : Nat → Kernel → Prop}

namespace Touched

omit [Layout] in
theorem of_looked (looked : Looked s s') : Touched s s' := by
  have mem := looked.mem
  unfold Looked at looked
  exact ⟨by rw [looked], fun x changed => absurd (congrFun mem x) changed⟩

theorem valid (touched : Touched s s') (valid : Valid g s) (busy : s.current ≠ 0) : Valid g s' := by
  have looked : Looked { s with mem := s'.mem, uart := s'.uart } s' := by
    unfold Looked
    rw [touched.rest]
  exact (valid.user_step busy s'.uart touched.writes).looked looked

omit [Layout] in
theorem current (touched : Touched s s') : s'.current = s.current := by rw [touched.rest]

end Touched

/-- A word of the frame of the current task. -/
theorem Resumes.store_touched (resumes : Resumes tf s) {offset value : Nat} (inside : offset + 8 ≤ trapFrameSize) :
    Touched s { s with mem := s.mem.store (tf + offset) 8 value } := by
  obtain ⟨⟨g, valid⟩, busy, isTf⟩ := resumes
  rw [isTf]
  obtain ⟨p, member, current, isFrame⟩ := valid.running busy
  rw [isFrame]
  exact ⟨rfl, valid.store_mayWrite member current inside⟩

namespace TrapRule


/-- A system call: it returns to the same frame with the invariant, or it switches. -/
theorem dispatch (rule : TrapRule scauseUserEcall s tf Inv post) (resumes : Resumes tf s) (reads : ReadsIntoUser s tf) :
    wp (syscallDispatch tf) s (TrapEnds scauseUserEcall s tf Inv post) fun _ _ => True := by
  have ⟨⟨g, valid⟩, busy, isFrame⟩ := resumes
  have word : ∀ s₁ : Kernel, ∀ a, s₁.mem.load a 8 < 2 ^ 64 := fun s₁ a => Mem.load_lt s₁.mem a 8
  obtain ⟨s₀, is₀⟩ : ∃ s₀, s₀ = skipped tf s := ⟨_, rfl⟩
  have resumes₀ : Resumes tf s₀ := is₀ ▸ resumes.store (by decide)
  have inv₀ : Inv s₀ := is₀ ▸ rule.skip
  have skip : wp (skipEcall tf) s (fun _ s' => s' = s₀) fun _ _ => True := wp_skipEcall.mpr is₀.symm
  obtain ⟨a7, isA7⟩ : ∃ a7, a7 = s.mem.load (tf + TrapFrame.a7) 8 := ⟨_, rfl⟩
  have switches : Switches scauseUserEcall s tf ↔ a7 = sysYieldNr ∨ a7 = sysExitNr ∨ a7 = sysReadNr ∧ s.uart.waiting = [] := by
    unfold Switches
    rw [← isA7]
    exact ⟨fun given => given rfl, fun given _ => given⟩
  -- what is left once the call is told apart
  have stay : ∀ {s'}, (a7 ≠ sysYieldNr ∧ a7 ≠ sysExitNr ∧ (a7 = sysReadNr → s.uart.waiting ≠ [])) → Inv s' →
      TrapEnds scauseUserEcall s tf Inv post tf s' := fun apart inv' => by
    refine .inl ⟨rfl, fun switching => ?_, inv'⟩
    rcases switches.mp switching with yields | exits | ⟨isRead, none⟩
    · exact apart.1 yields
    · exact apart.2.1 exits
    · exact apart.2.2 isRead none
  unfold syscallDispatch
  rw [wp_bind, wp_loadWord, ← isA7]
  by_cases isWrite : a7 = sysWriteNr
  · rw [if_pos isWrite]
    refine wp_bind_of skip ?_
    rintro _ s₀ rfl
    simp only [wp_bind, wp_loadWord, wp_storeWord, wp_pure]
    refine wp_mono (sysWrite_looked _ _ _) (fun _ _ looked => stay (by simp [isWrite]) ?_) fun _ _ => id
    exact rule.result (resumes₀.looked looked) (rule.looked resumes₀ inv₀ looked)
  rw [if_neg isWrite]
  by_cases isRead : a7 = sysReadNr
  · rw [if_pos isRead]
    unfold uartHasData
    simp only [wp_bind, wp_get, wp_pure]
    cases isWaiting : s.uart.waiting with
    | nil =>
        rw [List.isEmpty_nil, Bool.not_true, if_pos rfl]
        refine wp_mono (rule.preempt fun _ => isA7.symm.trans isRead) (fun f s' after => .inr ⟨?_, after⟩) fun _ _ => id
        exact switches.mpr (.inr (.inr ⟨isRead, isWaiting⟩))
    | cons byte more =>
        rw [List.isEmpty_cons, Bool.not_false, if_neg (by decide), wp_bind]
        refine wp_mono skip ?_ fun _ _ => id
        rintro _ s₀ rfl
        simp only [wp_bind, wp_loadWord, wp_storeWord, wp_pure]
        obtain ⟨p, member, current, isTf⟩ := valid.running busy
        have valid₀ : Valid g s₀ := by
          rw [is₀, isFrame, isTf]
          exact valid.store_frame member current (by decide)
        have current₀ : s₀.current = s.current := by rw [is₀, skipped]
        have reg : ∀ offset, offset + 8 ≤ TrapFrame.sepc → s₀.mem.load (tf + offset) 8 = s.mem.load (tf + offset) 8 :=
          fun offset low => is₀ ▸ skipped_load low
        rw [reg TrapFrame.a0 (by decide), reg TrapFrame.a1 (by decide), reg TrapFrame.a2 (by decide)]
        have named : ∀ i < s.mem.load (tf + TrapFrame.a2) 8, InUser s₀ (wadd (s.mem.load (tf + TrapFrame.a1) 8) i) := fun i low => by
          obtain ⟨access, x, mapped⟩ := reads (isA7.symm.trans isRead) i low
          exact ⟨access, x, (valid.sv39User_congr valid₀ member current (current.trans current₀.symm) _ access).trans mapped⟩
        refine wp_mono (Delivered.sysRead valid₀ (current₀ ▸ busy) (word s _) named _) (fun _ s' after => ?_) fun _ _ _ => trivial
        have resumes' : Resumes tf s' := by
          obtain ⟨⟨_, _⟩, _, isTf₀⟩ := resumes₀
          rw [isTf₀, valid₀.frame p member (current.trans current₀.symm)]
          exact (after.valid valid₀ (current₀ ▸ busy)).resumes_same member (current.trans (current₀.symm.trans after.current.symm))
        exact stay (by simp [isRead, isWaiting]) (rule.result resumes' (rule.delivered (isA7.symm.trans isRead) resumes₀ inv₀ after))
  rw [if_neg isRead]
  by_cases isExit : a7 = sysExitNr
  · rw [if_pos isExit]
    refine wp_bind_of skip ?_
    rintro _ s₀ rfl
    simp only [sysExit, wp_bind, wp_loadWord]
    refine wp_mono (rule.exit (isA7.symm.trans isExit) (word s₀ _) resumes₀ inv₀) (fun next s₁ after => ?_) fun _ _ => id
    split
    · exact (wp_throw _).mpr trivial
    · next nonzero => exact (wp_pure _).mpr (.inr ⟨switches.mpr (.inr (.inl isExit)), after.resolve_left nonzero⟩)
  rw [if_neg isExit]
  by_cases isYield : a7 = sysYieldNr
  · rw [if_pos isYield]
    refine wp_bind_of skip ?_
    rintro _ s₀ rfl
    simp only [sysYield, wp_bind, wp_storeWord]
    refine wp_mono (rule.yield (isA7.symm.trans isYield) (resumes₀.store (by decide)) (rule.result resumes₀ inv₀))
      (fun f s' after => .inr ⟨?_, after⟩) fun _ _ => id
    exact switches.mpr (.inl isYield)
  rw [if_neg isYield]
  by_cases isGetpid : a7 = sysGetpidNr
  · rw [if_pos isGetpid]
    refine wp_bind_of skip ?_
    rintro _ s₀ rfl
    simp only [sysGetpid, wp_bind, wp_get]
    split <;> simp only [wp_loadWord, wp_storeWord, wp_pure] <;>
      exact stay ⟨isYield, isExit, fun here => absurd here isRead⟩ (rule.result resumes₀ inv₀)
  rw [if_neg isGetpid]
  by_cases isFork : a7 = sysForkNr
  · rw [if_pos isFork]
    refine wp_bind_of skip ?_
    rintro _ s₀ rfl
    simp only [sysFork, wp_bind]
    refine wp_mono (wp_and resumes₀.fork (rule.fork resumes₀ inv₀)) (fun child s₁ after => ?_) fun _ _ _ => trivial
    split <;> simp only [wp_loadWord, wp_storeWord, wp_pure] <;>
      exact stay ⟨isYield, isExit, fun here => absurd here isRead⟩ (rule.result after.1 after.2)
  rw [if_neg isFork]
  by_cases isPs : a7 = sysPsNr
  · rw [if_pos isPs]
    refine wp_bind_of skip ?_
    rintro _ s₀ rfl
    simp only [wp_bind, wp_storeWord, wp_pure]
    exact stay ⟨isYield, isExit, fun here => absurd here isRead⟩ (rule.result resumes₀ inv₀)
  rw [if_neg isPs]
  by_cases isExec : a7 = sysExecNr
  · rw [if_pos isExec]
    refine wp_bind_of skip ?_
    rintro _ s₀ rfl
    simp only [wp_bind, wp_loadWord, wp_storeWord, wp_pure]
    refine wp_mono (wp_and (resumes₀.exec _) (rule.exec _ (isA7.symm.trans isExec) resumes₀ inv₀)) (fun _ _ after => ?_)
      fun _ _ _ => trivial
    exact stay ⟨isYield, isExit, fun here => absurd here isRead⟩ (rule.result after.1 after.2)
  · rw [if_neg isExec]
    exact (wp_throw _).mpr trivial

/-- `trap_handler`. -/
theorem handler (rule : TrapRule scause s tf Inv post) (resumes : Resumes tf s) (reads : scause = scauseUserEcall → ReadsIntoUser s tf) :
    wp (trapHandler scause tf) s (TrapEnds scause s tf Inv post) fun _ _ => True := by
  unfold trapHandler
  split
  · next isEcall =>
      subst isEcall
      exact rule.dispatch resumes (reads rfl)
  · next notEcall =>
      split
      · exact wp_mono (rule.preempt fun isEcall => absurd isEcall notEcall) (fun f s' after => .inr ⟨fun isEcall => absurd isEcall notEcall, after⟩) fun _ _ => id
      · exact (wp_throw _).mpr trivial

end TrapRule

/-- What a trap has done for the current task before a switch. -/
structure Served (g : World) (s : Kernel) (g' : World) (s' : Kernel) : Prop where
  valid : Valid g' s'
  current : s'.current = s.current
  queue : ∃ joined, g'.queue = g.queue ++ joined
  spared : ∀ t ∈ g.queue, t ≠ s.current → Spared t g s g' s'

/-- What a switch leaves: the next task of the queue runs, or the current one is off the
queue and the first of the others runs. -/
structure PassedOn (g : World) (s : Kernel) (g' : World) (s' : Kernel) : Prop where
  valid : Valid g' s'
  turn : ∃ g₁ s₁, Served g s g₁ s₁ ∧ ((g'.queue = g₁.queue ∧ s'.current = afterCurrent g₁.queue s.current) ∨
    (g'.queue = g₁.queue.erase s.current ∧ s'.current = (g₁.queue.erase s.current).headD 0))
  spared : ∀ t ∈ g.queue, t ≠ s.current → Spared t g s g' s'

namespace Served

theorem refl (valid : Valid g s) : Served g s g s :=
  ⟨valid, rfl, ⟨[], by simp⟩, fun t _ _ => .refl t g s⟩

/-- One more step for the current task. -/
theorem step (served : Served g s g₁ s₁) (valid : Valid g' s') (current : s'.current = s₁.current) {joined : List Nat}
    (queue : g'.queue = g₁.queue ++ joined) (spared : ∀ t ∈ g₁.queue, t ≠ s₁.current → Spared t g₁ s₁ g' s') : Served g s g' s' := by
  obtain ⟨before, isQueue⟩ := served.queue
  refine ⟨valid, current.trans served.current, ⟨before ++ joined, by rw [queue, isQueue, List.append_assoc]⟩, fun t queued other => ?_⟩
  refine (served.spared t queued other).trans (spared t ?_ (by rwa [served.current]))
  rw [isQueue]
  exact List.mem_append_left _ queued

/-- The switch. -/
theorem passOn (served : Served g s g₁ s₁) (valid : Valid g' s')
    (queue : (g'.queue = g₁.queue ∧ s'.current = afterCurrent g₁.queue s₁.current) ∨
      (g'.queue = g₁.queue.erase s₁.current ∧ s'.current = (g₁.queue.erase s₁.current).headD 0))
    (spared : ∀ t ∈ g₁.queue, t ≠ s₁.current → Spared t g₁ s₁ g' s') : PassedOn g s g' s' := by
  obtain ⟨joined, isQueue⟩ := served.queue
  refine ⟨valid, ⟨g₁, s₁, served, served.current ▸ queue⟩, fun t queued other => ?_⟩
  refine (served.spared t queued other).trans (spared t ?_ (by rwa [served.current]))
  rw [isQueue]
  exact List.mem_append_left _ queued

end Served

namespace ValidOf

/-- `task_fork`, seen by the other tasks. -/
theorem fork_spares (valid : Valid g s) (busy : s.current ≠ 0) (outcome : Op.fork.Outcome g s r g' s') :
    s'.current = s.current ∧ (∃ joined, g'.queue = g.queue ++ joined) ∧ ∀ t ∈ g.queue, t ≠ s.current → Spared t g s g' s' := by
  rcases outcome with ⟨rfl, rfl⟩ | ⟨p, member, current, made⟩
  · exact ⟨rfl, ⟨[], by simp⟩, fun t _ _ => .refl t _ _⟩
  refine ⟨?_, ?_, fun t queued other => (valid.spared_made queued made).mono fun x inX _ label => ?_⟩
  · obtain ⟨g₁, s₁, reaping, ⟨_, aborted⟩ | ⟨_, v, pages, _, created⟩⟩ := made
    · rw [aborted.globals, reaping.reaped.globals]
    · rw [created.born.globals, reaping.reaped.globals]
  · obtain ⟨g₁, s₁, reaping, ⟨_, aborted⟩ | ⟨_, v, pages, _, created⟩⟩ := made
    · exact ⟨[], by rw [aborted.same.queue, reaping.reaped.queue, List.append_nil]⟩
    · exact ⟨[v.addr], by rw [created.born.queue, reaping.reaped.queue]⟩
  · simp only [resultBytes, Set.mem_ofPred_eq, TrapFrame.a0] at inX
    rw [(valid.frame_page member (x := x) (by omega) (by simp only [trapFrameSize]; omega)).2] at label
    exact other (by simpa [labels, eq_comm, current] using label)

/-- `sys_exec`, seen by the other tasks. -/
theorem exec_spares {filename : Nat} (valid : Valid g s) (outcome : (Op.exec filename).Outcome g s r g' s') :
    s'.current = s.current ∧ g'.queue = g.queue ∧ ∀ t ∈ g.queue, t ≠ s.current → Spared t g s g' s' := by
  rcases outcome with failed | ⟨p, member, current, root, entry, execed⟩
  · exact ⟨by rw [failed.globals], failed.same.queue, fun t _ _ => valid.spared_execFailed failed⟩
  · exact ⟨by rw [execed.globals], execed.queue, fun t _ other => valid.spared_execed member (current ▸ other) execed⟩

/-- What the kernel writes for the current task. -/
theorem touched_serves (busy : s₁.current ≠ 0) (served : Served g s g₁ s₁) (touched : Touched s₁ s') : Served g s g₁ s' :=
  served.step (touched.valid served.valid busy) touched.current (List.append_nil _).symm fun _ _ other =>
    served.valid.spared_writes busy other touched.writes

/-- A switch that `task_schedule` makes. -/
theorem schedule_passes (served : Served g s g₁ s₁) (busy : s₁.current ≠ 0) (isTf : tf = currentFrame s₁) :
    wp (taskSchedule tf) s₁ (fun _ s' => ∃ g', PassedOn g s g' s') fun _ _ => True := by
  rw [isTf]
  obtain ⟨f, s', returned, ⟨g₂, valid₂, queue⟩, next, _⟩ := served.valid.schedule_next busy
  have steps : wp (taskSchedule (currentFrame s₁)) s₁ _ fun _ _ => True := served.valid.schedule_step
  have ends : wp (taskSchedule (currentFrame s₁)) s₁ _ fun _ _ => True := wp_of_ok returned
  refine wp_mono (wp_and steps ends) ?_ fun _ _ _ => trivial
  rintro f s' ⟨⟨g', valid', switched⟩, rfl, rfl⟩
  have same : g'.queue = g₂.queue := valid₂.runQueue_eq valid'.runQueue
  refine ⟨g', served.passOn valid' (.inl ⟨same.trans queue, next⟩) fun t queued _ => ?_⟩
  exact served.valid.spared_switched (served.valid.queued_alive queued)
    (fun v member here => served.valid.queued_survives queued member here) switched

/-- `trap_handler` serves the current task, and spares the others. -/
theorem trapRule (valid : Valid g s) (resumes : Resumes tf s) :
    TrapRule scause s tf (fun s' => ∃ g', Served g s g' s') (fun _ s' => ∃ g', PassedOn g s g' s') where
  skip := ⟨g, touched_serves resumes.2.1 (.refl valid) (resumes.store_touched (by decide))⟩
  result := by
    rintro s₁ value resumes ⟨g₁, served⟩
    exact ⟨g₁, touched_serves resumes.2.1 served (resumes.store_touched (by decide))⟩
  looked := by
    rintro s₁ s' ⟨_, busy, _⟩ ⟨g₁, served⟩ looked
    exact ⟨g₁, touched_serves busy served (.of_looked looked)⟩
  delivered := by
    rintro s₁ s' _ ⟨_, busy, _⟩ ⟨g₁, served⟩ delivered
    exact ⟨g₁, touched_serves busy served ⟨delivered.rest, fun x changed => .inl (delivered.writes x changed)⟩⟩
  fork := by
    rintro s₁ ⟨_, busy, isTf⟩ ⟨g₁, served⟩
    rw [isTf]
    refine wp_mono served.valid.fork_step ?_ fun _ _ => id
    rintro child s' ⟨g', valid', outcome⟩
    obtain ⟨current, ⟨joined, queue⟩, spared⟩ := served.valid.fork_spares busy outcome
    exact ⟨g', served.step valid' current queue spared⟩
  exec := by
    rintro s₁ filename _ ⟨_, busy, isTf⟩ ⟨g₁, served⟩
    rw [isTf]
    refine wp_mono (served.valid.exec_step busy filename 0) ?_ fun _ _ => id
    rintro r s' ⟨g', valid', outcome⟩
    obtain ⟨current, queue, spared⟩ := served.valid.exec_spares outcome
    exact ⟨g', served.step valid' current (queue.trans (List.append_nil _).symm) spared⟩
  preempt _ := schedule_passes (.refl valid) resumes.2.1 resumes.2.2
  yield := by
    rintro s₁ _ ⟨_, busy, isTf⟩ ⟨g₁, served⟩
    exact schedule_passes served busy isTf
  exit := by
    rintro s₁ code _ word ⟨_, busy, isTf⟩ ⟨g₁, served⟩
    rw [isTf]
    obtain ⟨f, s', returned, isQueue, next, _⟩ := served.valid.exit_next busy (UInt64.ofNat code)
    have steps := served.valid.exit_step (UInt64.ofNat code)
    rw [UInt64.toNat_ofNat_of_lt' word] at returned steps
    have ends : wp (taskExitCurrent (currentFrame s₁) code) s₁ _ fun _ _ => True := wp_of_ok returned
    refine wp_mono (wp_and steps ends) ?_ fun _ _ _ => trivial
    rintro f s' ⟨⟨g', valid', switched⟩, rfl, rfl⟩
    refine .inr ⟨g', served.passOn valid' (.inr ⟨(valid'.runQueue_eq isQueue).symm, next⟩) fun t _ _ => ?_⟩
    exact served.valid.spared_switched (by simp) (fun v member _ => member) switched

/-- What a trap does. -/
theorem trapHandler_spec (valid : Valid g s) (busy : s.current ≠ 0) (isTf : tf = currentFrame s)
    (reads : scause = scauseUserEcall → ReadsIntoUser s tf) :
    wp (trapHandler scause tf) s (fun f s' => Resumes f s' ∧
      TrapEnds scause s tf (fun s' => ∃ g', Served g s g' s') (fun _ s' => ∃ g', PassedOn g s g' s') f s') fun _ _ => True := by
  have resumes : Resumes tf s := ⟨⟨g, valid⟩, busy, isTf⟩
  exact wp_mono (wp_and (resumes.handler reads) ((valid.trapRule resumes).handler resumes reads)) (fun _ _ => id) fun _ _ _ => trivial

end ValidOf

end

end KuroOS
