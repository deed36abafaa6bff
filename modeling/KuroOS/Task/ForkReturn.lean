import KuroOS.Task.ForkCopy
import KuroOS.Task.SyscallReturn

/-!
# The other return of fork

A child waits for its first turn with a frame of its own. When it runs, it stands where
its parent stands after the call, with the registers that the parent had, but for the
result, and it reads the parent's image, as that was at the call.
-/

namespace KuroOS

open Base Base.Riscv

section

variable [Layout]

/-- An address of the image that a task was made with. -/
def MadeImage (s : Kernel) (task va : Nat) : Prop := userTextBase ≤ va ∧ va < userTextBase + imageSizeOf s task

/-- A task `v` that `task_fork` of `p` has made. -/
structure ForkedChild (p : TaskView) (g : World) (s : Kernel) (v : TaskView) (g' : World) (s' : Kernel) : Prop where
  valid : Valid g' s'
  member : v ∈ g'.tasks
  queue : g'.queue = g.queue ++ [v.addr]
  forked : Forked s v.addr s'
  contents : Contents (forkedImage (g.user p.addr) s.mem) (forkedStack (g.user p.addr) s.mem) (g'.user v.addr) s'.mem
  image : ∀ n, 16 ≤ n → 4096 * n < userTextBase + p.imageSize → (g'.user v.addr n).isSome ∧ n ≠ stackVpn

variable {g g' : World} {h h₁ h₂ u : Hart} {s s₁ s₂ s' t : Kernel} {p v : TaskView} {va child : Nat}

namespace ValidOf

/-- What a task reads in a user page. -/
theorem userByte_page (valid : Valid g s) (member : p ∈ g.tasks) {vpn page offset : Nat} (found : g.user p.addr vpn = some page)
    (inPage : offset < 4096) : userByte s p.addr (4096 * vpn + offset) = some (s.mem (page + offset)) := by
  have space := valid.world.space p member
  have pool := valid.world.heap.pool
  have low := space.low vpn page found
  have root : pagetableOf s p.addr = p.pagetable := (valid.world.view p member).pagetable
  have isVpn : sv39Vpn (4096 * vpn + offset) = vpn := by
    unfold sv39Vpn
    omega
  have entry : spaceEntry (g.user p.addr) vpn = mkPte page userFlags := by simp [spaceEntry, found]
  have isUser : mkPte page userFlags &&& pteU ≠ 0 := by
    rw [mkPte_and (by decide) (by decide)]
    decide
  unfold userByte sv39User sv39
  rw [root, show sv39Levels - 1 = 2 from rfl, space.tables.sv39Entry pool, space.tables.sv39From pool, space.leaves, isVpn, entry,
    if_pos isUser, if_pos (.inl (by omega)), if_pos (userPte_grants page .read), pteToPa_user (valid.userPage member found),
    show (4096 * vpn + offset) % 4096 = offset by omega, Option.map_some]

/-- The image that `user_image_size` counts is mapped. -/
theorem image_mapped (valid : Valid g s) (member : p ∈ g.tasks) {n : Nat} (low : 16 ≤ n) (high : 4096 * n < userTextBase + p.imageSize) :
    (g.user p.addr n).isSome := by
  rcases (valid.world.space p member).shape with ⟨pages, _, size, fresh⟩ | ⟨size, _⟩
  · refine (fresh.mapped n).mpr (.inl ⟨low, ?_⟩)
    simp only [size, userTextBase, pageSize] at high
    omega
  · simp only [size, userTextBase] at high
    omega

/-- `task_fork` makes no task, or a child. -/
theorem fork_child (valid : Valid g s) (member : p ∈ g.tasks) (current : p.addr = s.current) :
    wp (taskFork p.tf) s (fun r s' => (r = 0 ∧ ∃ g', Valid g' s' ∧ g'.queue = g.queue ∧ s'.current = s.current) ∨
      (r ≠ 0 ∧ ∃ v g', v.addr = r ∧ ForkedChild p g s v g' s')) fun _ _ => True := by
  have makes : wp (taskFork p.tf) s _ fun _ _ => True := valid.fork_made member current
  have spec : wp (taskFork p.tf) s _ fun _ _ => True := valid.world.taskFork_spec valid.unqueued valid.pid member current.symm rfl
  refine wp_mono (wp_and makes spec) ?_ fun _ _ _ => trivial
  rintro r s' ⟨⟨_, _, _, forked⟩, g₁, s₁, g', reaping, world', ⟨rfl, aborted, _⟩ | ⟨some, v, pages, rfl, _, size, created, contents, _⟩⟩
  · refine .inl ⟨rfl, g', (valid.reaping reaping).aborted world' aborted, ?_, ?_⟩
    · rw [aborted.same.queue, reaping.reaped.queue]
    · rw [aborted.globals, reaping.reaped.globals]
  have born := created.born
  refine .inr ⟨some, v, g', rfl, (valid.reaping reaping).created world' created, ?_, ?_, forked some, contents, fun n low high => ?_⟩
  · rw [born.tasks]
    simp
  · rw [born.queue, reaping.reaped.queue]
  · have small := created.small
    simp only [size, userTextBase] at high
    exact ⟨(created.fresh.mapped n).mpr (.inl ⟨low, by omega⟩), by simp only [stackVpn]; omega⟩

end ValidOf

namespace ForkedChild

/-- The child reads its parent's image. -/
theorem image_byte (made : ForkedChild p g s v g' s') (valid : Valid g s) (member : p ∈ g.tasks) (low : userTextBase ≤ va)
    (high : va < userTextBase + p.imageSize) : userByte s' v.addr va = userByte s p.addr va := by
  obtain ⟨n, offset, isVa, small⟩ : ∃ n offset, va = 4096 * n + offset ∧ offset < 4096 :=
    ⟨va / 4096, va % 4096, (Nat.div_add_mod va 4096).symm, Nat.mod_lt va (by decide)⟩
  have first : 16 ≤ n := by
    simp only [userTextBase] at low
    omega
  have last : 4096 * n < userTextBase + p.imageSize := by omega
  obtain ⟨page, found⟩ := Option.isSome_iff_exists.mp (valid.image_mapped member first last)
  obtain ⟨mapped, notStack⟩ := made.image n first last
  obtain ⟨page', found'⟩ := Option.isSome_iff_exists.mp mapped
  rw [isVa, made.valid.userByte_page made.member found' small, valid.userByte_page member found small,
    made.contents.image n page' found' notStack offset small, forkedImage, found]

/-- The child's frame is the caller's after the call, but for the result. -/
theorem frame {u₂ : Hart} (made : ForkedChild p g (skipped p.tf s) v g' s') (valid : Valid g s) (member : p ∈ g.tasks)
    (current : p.addr = s.current) (framed : Framed s.mem p.tf u) (framed₂ : Framed s'.mem (tfOf s' v.addr) u₂) :
    GoesOn u u₂ ∧ u₂.regs .a0 = 0 := by
  have valid₁ : Valid g (skipped p.tf s) := valid.store_frame member current (by decide)
  have copies := made.forked.copies
  rw [valid₁.frame p member current] at copies
  have pc : (skipped p.tf s).mem.load (p.tf + TrapFrame.sepc) 8 = wadd (s.mem.load (p.tf + TrapFrame.sepc) 8) 4 :=
    Mem.load_store_same (wadd_lt _ _)
  refine ⟨framed.goesOn framed₂ (fun i low notResult notPc => ?_) ?_, ?_⟩
  · refine (copies i low notResult).1.trans (Mem.store_of_outside ?_)
    omega
  · rw [← pc]
    refine Mem.load_shift fun i low => ?_
    rw [Nat.add_assoc, Nat.add_assoc]
    exact (copies _ (by simp only [TrapFrame.sepc, trapFrameSize]; omega) (by simp only [TrapFrame.sepc, TrapFrame.a0]; omega)).1
  · refine UInt64.toNat_inj.mp ?_
    exact (framed₂ (.reg .a0) (by decide)).symm.trans made.forked.zero

end ForkedChild

/-- `sys_fork`, by way of the trap. -/
theorem ValidOf.forkCall (valid : Valid g s) (member : p ∈ g.tasks) (current : p.addr = s.current)
    (isFork : s.mem.load (p.tf + TrapFrame.a7) 8 = sysForkNr) :
    wp (trapHandler scauseUserEcall p.tf) s (fun f s' => f = p.tf ∧ s'.current = s.current ∧
      ((s'.mem.load (p.tf + TrapFrame.a0) 8 = minusOne ∧ ∃ g', Valid g' s' ∧ g'.queue = g.queue) ∨
        (∃ v g', ForkedChild p g (skipped p.tf s) v g' s'))) fun _ _ => True := by
  have valid₁ : Valid g (skipped p.tf s) := valid.store_frame member current (by decide)
  have current₁ : p.addr = (skipped p.tf s).current := current
  have resumes : Resumes p.tf (skipped p.tf s) := valid₁.resumes_same member current₁
  have skip : wp (skipEcall p.tf) s (fun _ s' => s' = skipped p.tf s) fun _ _ => True := wp_skipEcall.mpr rfl
  unfold trapHandler syscallDispatch
  rw [if_pos rfl, wp_bind, wp_loadWord, isFork]
  simp only [sysWriteNr, sysReadNr, sysExitNr, sysYieldNr, sysGetpidNr, sysForkNr, Nat.reduceEqDiff, if_false, if_true]
  refine wp_bind_of skip ?_
  rintro _ _ rfl
  simp only [sysFork, wp_bind]
  refine wp_mono (wp_and resumes.fork (valid₁.fork_child member current₁)) ?_ fun _ _ _ => trivial
  rintro child s₁ ⟨after, ⟨rfl, g', valid', queue, same⟩ | ⟨some, v, g', rfl, made⟩⟩
  · rw [if_pos rfl, wp_pure, wp_storeWord, wp_pure]
    refine ⟨rfl, same, .inl ⟨Mem.load_store_same (by decide), g', ?_, queue⟩⟩
    obtain ⟨w, inside, here, isTf⟩ := valid'.running after.2.1
    rw [after.2.2, isTf]
    exact valid'.store_frame inside here (by decide)
  · rw [if_neg some]
    simp only [wp_loadWord, wp_storeWord, wp_pure, Mem.store_load]
    exact ⟨trivial, made.forked.current, .inr ⟨v, g', made⟩⟩

/-- `fork` returns twice, on the machine. It fails, with -1 in `a0` and the run queue as it was; or
its caller goes on with the number of a new task at the end of the queue. Whatever all
tasks do in between, the new task begins after the `ecall` with 0 in `a0`, every other
register as the caller had it, and the caller's image as it was at the call. -/
theorem fork_child_runs (run : MachineRun h s) (trap : Trap h s u t scauseUserEcall h₁ s₁) (isFork : (u.regs .a7).toNat = sysForkNr)
    {queue : List Nat} (isQueue : RunQueue t queue) : s₁.current = s.current ∧
      (((h₁.regs .a0).toNat = minusOne ∧ RunQueue s₁ queue) ∨
        ∃ child, child ∉ queue ∧ RunQueue s₁ (queue ++ [child]) ∧ (h₁.regs .a0).toNat = pidOf s₁ child ∧
          ∀ h₂ s₂, Away child h₁ s₁ h₂ s₂ → s₂.current = child →
            h₂.regs .a0 = 0 ∧ (∀ r ≠ .a0, h₂.regs r = u.regs r) ∧ h₂.csrs .sepc = u.csrs .sepc + 4 ∧
              h₂.csrs .sstatus = u.csrs .sstatus ∧ ∀ va, MadeImage t s.current va → userByte s₂ child va = userByte t s.current va) := by
  obtain ⟨g, mode⟩ := run.inUserMode
  obtain ⟨p, s₃, f, entered, handles, _, resumes, stack, loads⟩ := trap.spec mode
  have current : s₃.current = s.current := by rw [entered.rest, trap.rest]
  have here : p.addr = s.current := entered.here.trans current
  have a7 : s₃.mem.load (p.tf + TrapFrame.a7) 8 = (u.regs .a7).toNat := entered.framed (.reg .a7) (by decide)
  obtain ⟨isF, same, outcome⟩ := wp_returned (entered.valid.forkCall entered.member entered.here (a7.trans isFork)) handles
  obtain rfl := entered.before.runQueue_eq isQueue
  have result : (h₁.regs .a0).toNat = s₁.mem.load (p.tf + TrapFrame.a0) 8 := by
    obtain ⟨u₁, framed₁⟩ := framed_exists s₁.mem p.tf
    rw [(loads u₁ (isF ▸ framed₁)).regs]
    exact (framed₁ (.reg .a0) (by decide)).symm
  refine ⟨same.trans current, ?_⟩
  rcases outcome with ⟨failed, g', valid', queue⟩ | ⟨v, g', made⟩
  · exact .inl ⟨result.trans failed, queue ▸ valid'.runQueue⟩
  have valid₁ : Valid g (skipped p.tf s₃) := entered.valid.store_frame entered.member entered.here (by decide)
  have runQueue : RunQueue s₁ (g.queue ++ [v.addr]) := made.queue ▸ made.valid.runQueue
  have fresh : v.addr ∉ g.queue := fun inside => by
    have distinct := made.valid.world.queue_nodup
    rw [made.queue] at distinct
    exact (List.nodup_append.mp distinct).2.2 v.addr inside v.addr (List.mem_singleton_self _) rfl
  have number : (h₁.regs .a0).toNat = pidOf s₁ v.addr := by
    have stored := made.forked.result
    rw [valid₁.frame p entered.member entered.here] at stored
    exact result.trans stored
  refine .inr ⟨v.addr, fresh, runQueue, number, fun h₂ s₂ away again => ?_⟩
  have queued : v.addr ∈ g'.queue := by
    rw [made.queue]
    simp
  have other : s₁.current ≠ v.addr := fun equal => by
    refine fresh (equal ▸ ?_)
    rw [same, current]
    exact mode.valid.sched.current.resolve_left mode.busy
  have waits : Waits v.addr g' s₁ g' h₁ s₁ := ⟨⟨made.valid, resumes.2.1, stack⟩, queued, .refl .., fun isCurrent => absurd isCurrent other⟩
  obtain ⟨g₂, waits₂⟩ := waits.away away
  obtain ⟨u₂, framed₂⟩ := framed_exists s₁.mem (tfOf s₁ v.addr)
  obtain ⟨context, bytes⟩ := waits₂.again made.valid queued again framed₂
  obtain ⟨goes, zero⟩ := made.frame entered.valid entered.member entered.here entered.framed framed₂
  refine ⟨by rw [context.regs, zero], fun r notResult => by rw [context.regs, goes.regs r notResult],
    by rw [context.sepc, goes.sepc], by rw [context.sstatus, goes.sstatus], fun va inImage => (bytes va).trans ?_⟩
  obtain ⟨low, high⟩ := inImage
  have size : imageSizeOf t s.current = p.imageSize := here ▸ (entered.before.world.view p entered.member).imageSize
  rw [made.image_byte valid₁ entered.member low (size ▸ high), ← here]
  refine Eq.trans ?_ (entered.userByte va)
  exact entered.valid.userByte_store entered.member entered.here (by decide) va

end

section

attribute [local instance] Layout.sample

/-- The first task forks. -/
theorem fork_child_runs_sample : ∃ h s h₁ s₁, MachineRun h s ∧ Trap h s (calling h 6) s scauseUserEcall h₁ s₁ ∧ s₁.current = s.current := by
  obtain ⟨h, s, g, run, mode, _⟩ := machineRun_sample
  have a7 : ((calling h 6).regs .a7).toNat = sysForkNr := by
    rw [calling, Hart.write_same]
    rfl
  have proper : ProperTrap scauseUserEcall (calling h 6) s := by
    refine ⟨.inr ⟨rfl, by rw [a7]; decide⟩, fun _ isCall => absurd isCall (by rw [a7]; decide)⟩
  rcases mode.completes (u := calling h 6) (t := s) rfl rfl (fun _ changed => absurd rfl changed) proper with
    ⟨h₁, s₁, trap⟩ | ⟨_, _, _, _, _, _, ⟨_, isExit, _⟩ | ⟨_, isRead, _⟩⟩
  · exact ⟨h, s, h₁, s₁, run, trap, (fork_child_runs run trap a7 mode.valid.runQueue).1⟩
  · exact absurd isExit (by rw [a7]; decide)
  · exact absurd isRead (by rw [a7]; decide)

end

end KuroOS
