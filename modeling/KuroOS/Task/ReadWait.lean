import KuroOS.Task.RoundRobin
import KuroOS.Task.Undo

/-!
# Reads that need no input

`sys_read` refuses a descriptor other than 0 and answers a read of length 0
without looking at the UART, but `syscall_dispatch` looks at it first: while no
data is waiting it schedules and leaves the `ecall` to be tried again.
-/

namespace KuroOS

open Base

/-- The current task asks for a read that `sys_read` answers without input. -/
structure NeedsNoInput (s : Kernel) : Prop where
  isRead : s.mem.load (currentFrame s + TrapFrame.a7) 8 = sysReadNr
  rejected : s.mem.load (currentFrame s + TrapFrame.a0) 8 ≠ 0 ∨ s.mem.load (currentFrame s + TrapFrame.a2) 8 = 0

/-- What `sys_read` answers: -1 for a bad descriptor, else 0. -/
def rejection (s : Kernel) : Nat := if s.mem.load (currentFrame s + TrapFrame.a0) 8 ≠ 0 then minusOne else 0

section

variable [Layout]

/-- The system call of the current task is answered at once: the task goes on in
its frame, past the `ecall`, with the answer in `a0`, and nothing else changes. -/
def AnsweredAtOnce (s : Kernel) : Prop :=
  ∃ s', syscallDispatch (currentFrame s) s = .ok (currentFrame s) s' ∧
    s' = { s with mem := (s.mem.store (currentFrame s + TrapFrame.sepc) 8
      (wadd (s.mem.load (currentFrame s + TrapFrame.sepc) 8) 4)).store (currentFrame s + TrapFrame.a0) 8 (rejection s) }

variable {g : World} {s : Kernel} {n : Nat}

/-- With data waiting the request is looked at, and answered. -/
theorem answered_of_waiting (request : NeedsNoInput s) (waiting : s.uart.waiting ≠ []) : AnsweredAtOnce s := by
  obtain ⟨tf, isTf⟩ : ∃ tf, tf = currentFrame s := ⟨_, rfl⟩
  obtain ⟨isRead, rejected⟩ := request
  unfold AnsweredAtOnce rejection
  rw [← isTf] at isRead rejected ⊢
  have hasData : (!s.uart.waiting.isEmpty) = true := by simpa using waiting
  obtain ⟨skipped, isSkipped⟩ : ∃ mem, mem = s.mem.store (tf + TrapFrame.sepc) 8 (wadd (s.mem.load (tf + TrapFrame.sepc) 8) 4) :=
    ⟨_, rfl⟩
  have kept : ∀ k, k + 8 ≤ TrapFrame.sepc → skipped.load (tf + k) 8 = s.mem.load (tf + k) 8 := fun k below => by
    rw [isSkipped]
    exact Mem.load_store_of_disjoint (by omega)
  have program : wp (syscallDispatch tf) s (fun r s' => r = tf ∧ s' = { s with
      mem := skipped.store (tf + TrapFrame.a0) 8 (if s.mem.load (tf + TrapFrame.a0) 8 ≠ 0 then minusOne else 0) })
      fun _ _ => False := by
    unfold syscallDispatch
    rw [wp_bind, wp_loadWord, isRead]
    simp only [sysWriteNr, sysReadNr, Nat.reduceEqDiff, if_false, if_true, uartHasData, wp_bind, wp_get, wp_pure, hasData,
      Bool.true_eq_false, skipEcall, wp_loadWord, wp_storeWord, ← isSkipped]
    rw [kept TrapFrame.a0 (by decide), kept TrapFrame.a2 (by decide)]
    unfold sysRead
    by_cases bad : s.mem.load (tf + TrapFrame.a0) 8 ≠ 0
    · rw [if_pos bad, wp_pure, if_pos bad]
      exact ⟨trivial, rfl⟩
    · rw [if_neg bad, if_neg bad, if_pos (rejected.resolve_left bad), wp_pure]
      exact ⟨trivial, rfl⟩
  obtain ⟨_, s', returned, rfl, after⟩ := wp_total program
  exact ⟨s', returned, isSkipped ▸ after⟩

/-- With none waiting the dispatcher schedules, and the task's frame still stands at
the `ecall`. -/
theorem ValidOf.not_answered_of_idle (valid : Valid g s) (busy : s.current ≠ 0) (request : NeedsNoInput s)
    (idle : s.uart.waiting = []) : ¬ AnsweredAtOnce s := by
  rintro ⟨s', returned, after⟩
  obtain ⟨p, member, here, isFrame⟩ := valid.running busy
  have schedules : wp (syscallDispatch (currentFrame s)) s (fun _ s' => SameFrame p.addr s s') fun _ _ => False := by
    unfold syscallDispatch
    rw [wp_bind, wp_loadWord, request.isRead]
    simp only [sysWriteNr, sysReadNr, Nat.reduceEqDiff, if_false, if_true, uartHasData, wp_bind, wp_get, wp_pure, idle,
      List.isEmpty_nil, Bool.not_true]
    refine wp_mono (valid.world.taskSchedule_spec valid.sched valid.frame) ?_ fun _ _ => id
    rintro r s₁ ⟨g', world', _, switched, _⟩
    have survives : p ∈ survivors s.current g.tasks := mem_survivors.mpr ⟨member, fun _ => here⟩
    obtain ⟨w, inside, core⟩ : ∃ w ∈ g'.tasks, w.core = p.core :=
      List.mem_map.mp (switched.tasks ▸ List.mem_map_of_mem survives)
    have same := valid.switched_frame world' switched (fun v dead => (mem_zombies.mp dead).1)
      (fun v alive => ⟨(mem_survivors.mp alive).1, fun isZombie =>
        (mem_zombies.mp isZombie).2.2 ((mem_survivors.mp alive).2 (mem_zombies.mp isZombie).2.1)⟩) inside
    rwa [(TaskView.core_fields core).1] at same
  have same := wp_ok schedules returned
  have isTf : tfOf s p.addr = currentFrame s := (valid.world.view p member).tf.trans isFrame.symm
  -- the word at `sepc` cannot both stay and move on
  have stays : s'.mem.load (currentFrame s + TrapFrame.sepc) 8 = s.mem.load (currentFrame s + TrapFrame.sepc) 8 :=
    Mem.load_congr fun x low high => by
      have byte := same.2 (x - currentFrame s) (by simp only [TrapFrame.sepc, trapFrameSize] at *; omega)
      rw [isTf] at byte
      rwa [show currentFrame s + (x - currentFrame s) = x by omega] at byte
  have moves : s'.mem.load (currentFrame s + TrapFrame.sepc) 8 = wadd (s.mem.load (currentFrame s + TrapFrame.sepc) 8) 4 := by
    rw [after]
    simp only [Mem.load_store_of_disjoint (show currentFrame s + TrapFrame.sepc + 8 ≤ currentFrame s + TrapFrame.a0 ∨
      currentFrame s + TrapFrame.a0 + 8 ≤ currentFrame s + TrapFrame.sepc by simp only [TrapFrame.sepc, TrapFrame.a0]; omega)]
    exact Mem.load_store_same (wadd_lt _ _)
  have fits := s.mem.load_lt (currentFrame s + TrapFrame.sepc) 8
  rw [stays] at moves
  unfold wadd at moves
  omega

/-- In every state of a run, whatever the UART: a read that needs no input is
answered at once if and only if data is waiting. -/
theorem rejected_read_answered_iff (run : Reachable n s) (busy : s.current ≠ 0) (request : NeedsNoInput s) (uart uart' : Uart) :
    AnsweredAtOnce { s with uart } ∧ AnsweredAtOnce { s with uart := uart' } ↔ uart.waiting ≠ [] ∧ uart'.waiting ≠ [] := by
  obtain ⟨g, valid, _⟩ := run.valid
  have single : ∀ uart : Uart, AnsweredAtOnce { s with uart } ↔ uart.waiting ≠ [] := fun uart => by
    have valid' : Valid g { s with mem := s.mem, uart } := valid.user_step busy uart fun _ changed => absurd rfl changed
    have request' : NeedsNoInput { s with uart } := ⟨request.isRead, request.rejected⟩
    exact ⟨fun answered idle => valid'.not_answered_of_idle busy request' idle answered, answered_of_waiting request'⟩
  rw [single, single]

end

section

attribute [local instance] Layout.sample

/-- A machine whose current task reads from descriptor 7. -/
theorem needsNoInput_sample : ∃ s, Reachable 0 s ∧ s.current ≠ 0 ∧ NeedsNoInput s := by
  obtain ⟨s, g, run, valid, busy, _⟩ := reachable_sample
  obtain ⟨p, member, current, isFrame⟩ := valid.running busy
  -- user code loads the registers one after the other
  have store : ∀ {s : Kernel} (offset value : Nat), offset + 8 ≤ trapFrameSize → Valid g s → Reachable 0 s → p.addr = s.current →
      Valid g { s with mem := s.mem.store (p.tf + offset) 8 value } ∧
        Reachable 0 { s with mem := s.mem.store (p.tf + offset) 8 value } := by
    intro s offset value inside valid run current
    refine ⟨valid.store_frame member current inside, ?_⟩
    have busy : s.current ≠ 0 := current ▸ valid.world.addr_ne_zero member
    have steps : (Op.user (s.mem.store (p.tf + offset) 8 value) s.uart).Steps s 0
        { s with mem := s.mem.store (p.tf + offset) 8 value } := ⟨valid.store_mayWrite member current inside, rfl⟩
    have after := run.step (show Running s (.user (s.mem.store (p.tf + offset) 8 value) s.uart) from ⟨busy, busy⟩) steps
    exact after
  obtain ⟨valid₁, run₁⟩ := store TrapFrame.a7 sysReadNr (by decide) valid run current
  obtain ⟨valid₂, run₂⟩ := store TrapFrame.a0 7 (by decide) valid₁ run₁ current
  have isFrame₂ := valid₂.frame p member current
  refine ⟨_, run₂, busy, ⟨?_, .inl ?_⟩⟩
  · rw [isFrame₂]
    exact (Mem.load_store_of_disjoint (by simp only [TrapFrame.a0, TrapFrame.a7]; omega)).trans
      (Mem.load_store_same (by decide))
  · rw [isFrame₂]
    exact (Mem.load_store_same (by decide)).trans_ne (by decide)

/-- With a byte waiting both answers are given. -/
theorem rejected_read_answered_sample : ∃ s : Kernel, NeedsNoInput s ∧
    AnsweredAtOnce { s with uart := { waiting := [65], coming := [], sent := [] } } ∧
    AnsweredAtOnce { s with uart := { waiting := [66], coming := [], sent := [] } } := by
  obtain ⟨s, run, busy, request⟩ := needsNoInput_sample
  exact ⟨s, request, (rejected_read_answered_iff run busy request _ _).mpr ⟨by simp, by simp⟩⟩

/-- With an idle UART a read from descriptor 7 waits. -/
theorem rejected_read_waits : ¬ ∀ n s, Reachable n s → s.current ≠ 0 → NeedsNoInput s → ∀ uart uart' : Uart,
    AnsweredAtOnce { s with uart } ∧ AnsweredAtOnce { s with uart := uart' } := by
  intro claim
  obtain ⟨s, run, busy, request⟩ := needsNoInput_sample
  obtain ⟨g, valid, _⟩ := run.valid
  have idle := (claim 0 s run busy request ⟨[], [], []⟩ ⟨[], [], []⟩).1
  have valid' : Valid g { s with mem := s.mem, uart := ⟨[], [], []⟩ } :=
    valid.user_step busy _ fun _ changed => absurd rfl changed
  exact valid'.not_answered_of_idle busy ⟨request.isRead, request.rejected⟩ rfl idle

end

end KuroOS
