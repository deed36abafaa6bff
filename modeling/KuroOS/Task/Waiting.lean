import KuroOS.Base.Rotation
import KuroOS.Task.Progress

/-!
# No task starves

Tasks that fork join the run queue at its end, and a task that exits hands the CPU to the
front. So a task that waits is passed over by the tasks behind it only once, and by each
of the tasks before it at most as often as one of these has exited.
-/

namespace KuroOS

open Base Base.Riscv

section

variable [Layout]

/-- A trap at which user code gives up the CPU, as the registers show it. -/
def GivesUp (scause : Nat) (u : Hart) (t : Kernel) : Prop :=
  scause = scauseUserEcall →
    (u.regs .a7).toNat = sysYieldNr ∨ (u.regs .a7).toNat = sysExitNr ∨ (u.regs .a7).toNat = sysReadNr ∧ t.uart.waiting = []

/-- The traps of a machine while a task waits, with the number of those at which the CPU
changed hands, and did not come to that task. -/
inductive Waiting (task : Nat) (h : Hart) (s : Kernel) : Nat → Hart → Kernel → Prop
  | start : Waiting task h s 0 h s
  | serves {k scause : Nat} {h₁ u h₂ : Hart} {s₁ t s₂ : Kernel} (before : Waiting task h s k h₁ s₁)
      (trap : Trap h₁ s₁ u t scause h₂ s₂) (keeps : ¬ GivesUp scause u t) : Waiting task h s k h₂ s₂
  | turns {k scause : Nat} {h₁ u h₂ : Hart} {s₁ t s₂ : Kernel} (before : Waiting task h s k h₁ s₁)
      (trap : Trap h₁ s₁ u t scause h₂ s₂) (gives : GivesUp scause u t) (still : s₂.current ≠ task) : Waiting task h s (k + 1) h₂ s₂

variable {g g' : World} {h h' h₁ u : Hart} {s s' s₁ t : Kernel} {p : TaskView} {scause task k i : Nat} {queue : List Nat}

omit [Layout] in
/-- `task_schedule` passes the turn on. -/
theorem rotates_afterCurrent {c : Nat} (distinct : queue.Nodup) (inside : c ∈ queue) : Rotates queue c queue (afterCurrent queue c) := by
  obtain ⟨xs, ys, rfl⟩ := List.append_of_mem inside
  have notBefore : c ∉ xs := fun before => (List.nodup_append.mp distinct).2.2 c before c List.mem_cons_self rfl
  rw [afterCurrent_split notBefore]
  cases ys with
  | cons y ys => exact .next
  | nil =>
      cases xs with
      | nil => exact .alone
      | cons x xs => exact .around

omit [Layout] in
/-- `task_exit_current` leaves the queue, and the turn is that of its front. -/
theorem rotates_erase {c : Nat} (distinct : queue.Nodup) (inside : c ∈ queue) (others : queue.erase c ≠ []) :
    Rotates queue c (queue.erase c) ((queue.erase c).headD 0) := by
  obtain ⟨xs, ys, rfl⟩ := List.append_of_mem inside
  have notBefore : c ∉ xs := fun before => (List.nodup_append.mp distinct).2.2 c before c List.mem_cons_self rfl
  rw [List.erase_append_right _ notBefore, List.erase_cons_head] at others ⊢
  obtain ⟨d, rest, front⟩ := List.exists_cons_of_ne_nil others
  rw [front, List.headD_cons, ← front]
  exact .leaves front

/-- Every task on the queue has a page of RAM for its kernel stack. -/
theorem ValidOf.queue_pages (valid : Valid g s) : g.queue.length ≤ 0x8000 := by
  have stack : ∀ a ∈ g.queue, ∃ v ∈ g.tasks, v.addr = a ∧ kernelStackOf s a = v.kernelStack ∧ g.own v.kernelStack = .kstack a := fun a queued => by
    obtain ⟨v, member, rfl⟩ := valid.sched.books.known a queued
    exact ⟨v, member, rfl, (valid.world.view v member).kernelStack, ((valid.world.space v member).kstack _).mpr rfl⟩
  have page : ∀ a ∈ g.queue, PoolPage (kernelStackOf s a) := fun a queued => by
    obtain ⟨v, _, _, isStack, owner⟩ := stack a queued
    rw [isStack]
    exact valid.world.heap.pool.pages _ (by simp [owner])
  have distinct : (g.queue.map fun a => kernelStackOf s a / 4096).Nodup := by
    refine valid.world.queue_nodup.map_on fun a queued b queued' equal => ?_
    obtain ⟨v, _, _, isStack, owner⟩ := stack a queued
    obtain ⟨w, _, _, isStack', owner'⟩ := stack b queued'
    have bounds := (page a queued).bounds
    have bounds' := (page b queued').bounds
    have same : v.kernelStack = w.kernelStack := by omega
    rw [same, owner'] at owner
    simpa using owner.symm
  have subset : (g.queue.map fun a => kernelStackOf s a / 4096) ⊆ List.range' 0x80000 0x8000 := fun n member => by
    obtain ⟨a, queued, rfl⟩ := List.mem_map.mp member
    have bounds := (page a queued).bounds
    exact List.mem_range'_1.mpr (by omega)
  have := (List.Nodup.subperm distinct subset).length_le
  rwa [List.length_map, List.length_range'] at this

/-- What one trap does to the run queue and to the turn: some tasks have joined when the CPU
changes hands, or does not. -/
theorem Trap.turn (mode : InUserMode g h s) (trap : Trap h s u t scause h' s') :
    ∃ g' joined, InUserMode g' h' s' ∧ (g.queue ++ joined).Nodup ∧ (g.queue ++ joined).length ≤ 0x8000 ∧
      ((¬ GivesUp scause u t ∧ s'.current = s.current ∧ g'.queue = g.queue ++ joined) ∨
        (GivesUp scause u t ∧ ((g'.queue = g.queue ++ joined ∧ s'.current = afterCurrent (g.queue ++ joined) s.current) ∨
          (g'.queue = (g.queue ++ joined).erase s.current ∧ s'.current = ((g.queue ++ joined).erase s.current).headD 0)))) := by
  obtain ⟨p, s₁, f, entered, handles, reads, resumes, stack, _⟩ := trap.spec mode
  have current : s₁.current = s.current := by rw [entered.rest, trap.rest]
  have uart : s₁.uart = t.uart := by rw [entered.rest]
  have isFrame : currentFrame s₁ = p.tf := entered.valid.frame p entered.member entered.here
  have a7 : s₁.mem.load (p.tf + TrapFrame.a7) 8 = (u.regs .a7).toNat := entered.framed (.reg .a7) (by decide)
  have gives : Switches scause s₁ p.tf ↔ GivesUp scause u t := by
    unfold Switches GivesUp
    rw [a7, uart]
  obtain ⟨_, ends⟩ := wp_returned (entered.valid.trapHandler_spec (current ▸ mode.busy) isFrame.symm reads) handles
  rw [← gives, ← current]
  rcases ends with ⟨_, keeps, g', served⟩ | ⟨switches, g', passed⟩
  · obtain ⟨joined, isQueue⟩ := served.queue
    refine ⟨g', joined, ⟨served.valid, resumes.2.1, stack⟩, ?_, ?_, .inl ⟨keeps, served.current, isQueue⟩⟩
    · exact isQueue ▸ served.valid.world.queue_nodup
    · exact isQueue ▸ served.valid.queue_pages
  · obtain ⟨g₁, s₂, served, turn⟩ := passed.turn
    obtain ⟨joined, isQueue⟩ := served.queue
    refine ⟨g', joined, ⟨passed.valid, resumes.2.1, stack⟩, ?_, ?_, .inr ⟨switches, isQueue ▸ turn⟩⟩
    · exact isQueue ▸ served.valid.world.queue_nodup
    · exact isQueue ▸ served.valid.queue_pages

/-- While a task waits, each turn of another lowers its rank. -/
theorem Waiting.rank (waits : Waiting task h s k h' s') (mode : InUserMode g h s) (queued : task ∈ g.queue) (waiting : s.current ≠ task) :
    ∃ g', InUserMode g' h' s' ∧ task ∈ g'.queue ∧ s'.current ≠ task ∧
      k + waitRank 0x8000 g'.queue s'.current task ≤ waitRank 0x8000 g.queue s.current task := by
  have running : ∀ {g : World} {h : Hart} {s : Kernel}, InUserMode g h s → s.current ∈ g.queue := fun mode =>
    mode.valid.sched.current.resolve_left mode.busy
  induction waits with
  | start => exact ⟨g, mode, queued, waiting, by omega⟩
  | serves before trap keeps ih =>
      obtain ⟨g₁, mode₁, queued₁, waiting₁, rank₁⟩ := ih
      obtain ⟨g₂, joined, mode₂, _, _, ⟨_, current, isQueue⟩ | ⟨gives, _⟩⟩ := trap.turn mode₁
      · refine ⟨g₂, mode₂, by rw [isQueue]; exact List.mem_append_left _ queued₁, current ▸ waiting₁, ?_⟩
        rwa [isQueue, current, waitRank_append (running mode₁) queued₁]
      · exact absurd gives keeps
  | @turns _ _ _ _ _ s₁ _ s₂ _ trap gives still ih =>
      obtain ⟨g₁, mode₁, queued₁, waiting₁, rank₁⟩ := ih
      obtain ⟨g₂, joined, mode₂, distinct, short, ⟨keeps, _⟩ | ⟨_, passes⟩⟩ := trap.turn mode₁
      · exact absurd gives keeps
      have here := List.mem_append_left joined (running mode₁)
      have there := List.mem_append_left joined queued₁
      have turn : Rotates (g₁.queue ++ joined) s₁.current g₂.queue s₂.current ∧ task ∈ g₂.queue := by
        rcases passes with ⟨isQueue, next⟩ | ⟨isQueue, next⟩
        · rw [isQueue]
          exact ⟨next ▸ rotates_afterCurrent distinct here, there⟩
        · have kept := (List.mem_erase_of_ne waiting₁.symm).mpr there
          rw [isQueue]
          exact ⟨next ▸ rotates_erase distinct here (List.ne_nil_of_mem kept), kept⟩
      have lower := turn.1.rank distinct short there waiting₁ still
      rw [waitRank_append (running mode₁) queued₁] at lower
      exact ⟨g₂, mode₂, turn.2, still, by omega⟩

/-- No task starves. A task that stands at place `i` of the run queue gets the CPU before
`32768 * (i + 1)` turns have gone to others, whatever the other tasks do: timers, calls,
forks that make the queue longer, and exits that send it back to its front. -/
theorem bounded_waiting (run : MachineRun h s) (isQueue : RunQueue s queue) (place : queue[i]? = some task) (waiting : s.current ≠ task)
    (waits : Waiting task h s k h' s') : k < 32768 * (i + 1) := by
  obtain ⟨g, mode⟩ := run.inUserMode
  obtain rfl := mode.valid.runQueue_eq isQueue
  obtain ⟨inside, isTask⟩ := List.getElem?_eq_some_iff.mp place
  have queued : task ∈ g.queue := isTask ▸ List.getElem_mem inside
  have isPlace : g.queue.idxOf task = i := by
    rw [← isTask]
    exact mode.valid.world.queue_nodup.idxOf_getElem i inside
  obtain ⟨_, _, _, _, rank⟩ := waits.rank mode queued waiting
  have bound := waitRank_lt mode.valid.queue_pages queued waiting (mode.valid.sched.current.resolve_left mode.busy)
  rw [isPlace] at bound
  omega

end

section

attribute [local instance] Layout.sample

/-- With two tasks or more, the second of the queue waits at first. -/
theorem bounded_waiting_sample : ∃ h s queue i task, MachineRun h s ∧ RunQueue s queue ∧ queue[i]? = some task ∧ s.current ≠ task ∧
    ∀ k h' s', Waiting task h s k h' s' → k < 32768 * (i + 1) := by
  obtain ⟨h, s, g, run, mode, two⟩ := machineRun_sample
  have distinct := mode.valid.world.queue_nodup
  obtain ⟨i, inside, here⟩ := List.getElem_of_mem (mode.valid.sched.current.resolve_left mode.busy)
  obtain ⟨j, other, inside'⟩ : ∃ j, j ≠ i ∧ j < g.queue.length := by
    by_cases first : i = 0
    · exact ⟨1, by omega, by omega⟩
    · exact ⟨0, by omega, by omega⟩
  have apart : s.current ≠ g.queue[j] := fun equal => other (distinct.getElem_inj_iff.mp (here.trans equal)).symm
  have place : g.queue[j]? = some g.queue[j] := List.getElem?_eq_getElem inside'
  exact ⟨h, s, g.queue, j, g.queue[j], run, mode.valid.runQueue, place, apart,
    fun k h' s' waits => bounded_waiting run mode.valid.runQueue place apart waits⟩

end

end KuroOS
