import KuroOS.Task.Undo

/-!
# The two returns of fork

`task_fork` copies the frame of the running task, which has `sepc` past the
`ecall` by then, and writes the two results into the two frames. `Numbered` are
the runs together with the numbers of all tasks that were ever made.
-/

namespace KuroOS

open Base

section

variable [Layout]

/-- Runs of a machine in user mode, with the numbers of the tasks made so far. The
tasks that were made before took the numbers from 1 up to the counter. -/
inductive Numbered : List Nat → Kernel → Prop
  | start {s : Kernel} (starts : AfterUserInit s) : Numbered (List.range' 1 (s.nextPid - 1)) s
  | step {pids : List Nat} {r : Nat} {s s' : Kernel} {op : Op} (before : Numbered pids s) (called : Running s op)
      (steps : op.Steps s r s') : Numbered (if op.creations r = 0 then pids else pidOf s' r :: pids) s'

/-- What `task_fork` does when it makes a child: the tasks that are kept keep their
frames, but for the result in the parent's; the child's frame is a copy of the
parent's. -/
structure Forked (s : Kernel) (child : Nat) (s' : Kernel) : Prop where
  tasks : ∃ kept, AllTasks s' (kept ++ [child]) ∧ child ∉ kept ∧ s.current ∈ kept ∧
    ∀ t ∈ kept, OnAllTasks s t ∧ (t ≠ s.current → SameFrame t s s')
  current : s'.current = s.current
  frame : currentFrame s' = currentFrame s
  copies : ∀ i < trapFrameSize, i < TrapFrame.a0 ∨ TrapFrame.a0 + 8 ≤ i →
    s'.mem (tfOf s' child + i) = s.mem (currentFrame s + i) ∧ s'.mem (currentFrame s + i) = s.mem (currentFrame s + i)
  zero : s'.mem.load (tfOf s' child + TrapFrame.a0) 8 = 0
  result : s'.mem.load (currentFrame s + TrapFrame.a0) 8 = pidOf s' child
  pid : pidOf s' child = s.nextPid

variable {g g' : World} {s s' : Kernel} {p v : TaskView} {n : Nat}

/-- The bytes of other tasks' pages are as making a task finds them. -/
theorem Born.kept_bytes {X : Set Nat} (born : Born X g s v g' s') (world : WorldAt ∅ g s) {a x : Nat}
    (label : g.own (pageOf x) ∈ labels a) (outside : x ∉ X) : s'.mem x = s.mem x := by
  refine born.effect.bytes x (fun taken => ?_) (fun isHead => ?_)
  · rcases taken with common | mine
    · have here : g.own (pageOf x) = .free ∨ g.own (pageOf x) = .heap := common
      rcases here with here | here <;> simp [here, labels] at label
    · exact born.unused _ mine
  · refine world.heap.pool.not_listHeads (fun here => ?_) (isHead.resolve_right outside)
    simp [here, labels] at label

namespace ValidOf

/-- What `task_fork` of the running task does, by its result. -/
theorem fork_made {halt : Halt → Kernel → Prop} (valid : Valid g s) (member : p ∈ g.tasks) (current : p.addr = s.current) :
    wp (taskFork p.tf) s (fun r s' => ∃ g', Valid g' s' ∧ Made (resultBytes p.tf) g s r g' s' ∧
      (r ≠ 0 → Forked s r s')) halt := by
  refine wp_mono (valid.world.taskFork_spec valid.unqueued valid.pid member current.symm rfl) ?_ fun _ _ => id
  rintro r s' ⟨g₁, s₁, g', reaping, world', ⟨rfl, aborted, _⟩ | ⟨some, v, pages, rfl, _, _, created, _, forked, _⟩⟩
  · exact ⟨g', (valid.reaping reaping).aborted world' aborted, ⟨g₁, s₁, reaping, .inl ⟨rfl, aborted⟩⟩, by simp⟩
  have valid₁ := valid.reaping reaping
  have valid' := valid₁.created world' created
  have born := created.born
  refine ⟨g', valid', ⟨g₁, s₁, reaping, .inr ⟨some, v, pages, rfl, created⟩⟩, fun _ => ?_⟩
  have busy : s.current ≠ 0 := current ▸ valid.world.addr_ne_zero member
  have isFrame : currentFrame s = p.tf := valid.frame p member current
  have newMember : v ∈ g'.tasks := by
    rw [born.tasks]
    simp
  have isTf : tfOf s' v.addr = v.tf := (world'.view v newMember).tf
  have isPid : pidOf s' v.addr = v.pid := (world'.view v newMember).pid
  have nextPid : s₁.nextPid = s.nextPid := by rw [reaping.reaped.globals]
  have isCurrent : s'.current = s.current := by rw [born.globals, reaping.reaped.globals]
  have kept : ∀ w ∈ g₁.tasks, w ∈ g.tasks ∧ (∀ u ∈ zombies s.current g.tasks, u.addr ≠ w.addr) := fun w inside => by
    rw [reaping.tasks] at inside
    obtain ⟨old, alive⟩ := mem_survivors.mp inside
    refine ⟨old, fun u gone equal => ?_⟩
    obtain ⟨dead, isZombie, other⟩ := mem_zombies.mp gone
    obtain rfl := valid.world.eq_of_addr dead old equal
    exact other (alive isZombie)
  -- neither the reaping nor the birth writes into what is left of a task
  have bytes : ∀ w ∈ g₁.tasks, ∀ x, g.own (pageOf x) ∈ labels w.addr → x ∉ resultBytes p.tf → s'.mem x = s.mem x := by
    intro w inside x label outside
    obtain ⟨first, label₁⟩ := label_bytes valid.world.heap.pool reaping.reaped.effect (freed_foreign (kept w inside).2) label
    exact (born.kept_bytes valid₁.world label₁ outside).trans first
  have parent : p ∈ g₁.tasks := by
    rw [reaping.tasks]
    exact mem_survivors.mpr ⟨member, fun _ => current⟩
  have inResult : ∀ x ∈ resultBytes p.tf, g.own (pageOf x) = .kstack p.addr := fun x inside => by
    simp only [resultBytes, Set.mem_ofPred_eq] at inside
    refine (valid.frame_page member (by omega) ?_).2
    simp only [TrapFrame.a0, trapFrameSize] at *
    omega
  have old : ∀ w ∈ g₁.tasks, w ∈ g'.tasks := fun w inside => by
    rw [born.tasks]
    exact List.mem_append_left _ inside
  refine ⟨⟨g₁.tasks.map TaskView.addr, ?_, fun taken => born.fresh (List.mem_append_left _ taken), ?_, ?_⟩, isCurrent, ?_,
    fun i low other => ⟨?_, ?_⟩, ?_, ?_, ?_⟩
  · have list := valid'.allTasks
    rwa [born.tasks, List.map_append] at list
  · rw [← current]
    exact List.mem_map_of_mem parent
  · intro t listed
    obtain ⟨w, inside, rfl⟩ := List.mem_map.mp listed
    refine ⟨valid.onAllTasks.mpr ⟨w, (kept w inside).1, rfl⟩, fun other => ?_⟩
    refine valid.sameFrame world' (kept w inside).1 (old w inside) rfl rfl fun x owner _ => ?_
    refine bytes w inside x (by simp [owner, labels]) fun result => other ?_
    have := inResult x result
    rw [owner] at this
    rw [← current]
    simpa using this
  · rw [isFrame]
    exact valid'.frame p (old p parent) (current.trans isCurrent.symm)
  · rw [isTf, isFrame]
    exact forked.copy i low other
  · rw [isFrame]
    refine bytes p parent _ ?_ fun inside => ?_
    · rw [(valid.frame_page member (x := p.tf + i) (by omega) (by omega)).2]
      simp [labels]
    · simp only [resultBytes, Set.mem_ofPred_eq] at inside
      omega
  · rw [isTf]
    exact forked.child
  · rw [isFrame, isPid]
    exact forked.parent
  · rw [isPid, created.view, ← nextPid]
    rfl

end ValidOf

/-- What an attempt to make a task does to the numbers, by its result. -/
theorem MadeOf.numbered {X : Set Nat} {r : Nat} (made : Made X g s r g' s') (world' : WorldAt ∅ g' s') :
    (r = 0 ∧ FewerPids g s g' s') ∨ (r ≠ 0 ∧ pidOf s' r = s.nextPid ∧ s'.nextPid = wadd s.nextPid 1) := by
  obtain ⟨g₁, s₁, reaping, ⟨zero, aborted⟩ | ⟨nonzero, v, pages, rfl, created⟩⟩ := made
  · exact .inl ⟨zero, reaping.fewerPids.trans (aborted.same.fewerPids (by rw [aborted.globals]))⟩
  have next := reaping.fewerPids.2
  have member : v ∈ g'.tasks := by
    rw [created.born.tasks]
    simp
  refine .inr ⟨nonzero, ?_, by rw [created.born.globals, next]⟩
  rw [← next]
  refine Eq.trans (world'.view v member).pid ?_
  rw [created.view]
  rfl

/-- What an operation does to the counter, and the number of the task that it
makes. -/
theorem ValidOf.step_number {op : Op} {r : Nat} (valid : Valid g s) (called : Running s op) (steps : op.Steps s r s') :
    (op.creations r = 0 ∧ s'.nextPid = s.nextPid) ∨
      (op.creations r = 1 ∧ pidOf s' r = s.nextPid ∧ s'.nextPid = wadd s.nextPid 1) := by
  cases op with
  | createUser start stop entry =>
      obtain ⟨g', valid', made⟩ := wp_returned (valid.create_step start stop entry) steps
      rcases MadeOf.numbered made valid'.world with ⟨zero, fewer⟩ | ⟨nonzero, number⟩
      · exact .inl ⟨if_pos zero, fewer.2⟩
      · exact .inr ⟨if_neg nonzero, number⟩
  | fork =>
      obtain ⟨p, member, current, isFrame⟩ := valid.running called.1
      have returned : taskFork (currentFrame s) s = .ok r s' := steps
      rw [isFrame] at returned
      obtain ⟨g', valid', made, _⟩ := wp_returned (valid.fork_made member current) returned
      rcases made.numbered valid'.world with ⟨zero, fewer⟩ | ⟨nonzero, number⟩
      · exact .inl ⟨if_pos zero, fewer.2⟩
      · exact .inr ⟨if_neg nonzero, number⟩
  | schedule | exit | reap | exec | destroy | take | user =>
      obtain ⟨g', _, outcome⟩ := valid.step called.2 steps
      rcases outcome.pids with fewer | ⟨one, _⟩
      · exact .inl ⟨rfl, fewer.2⟩
      · simp [Op.creations] at one

/-- The numbers given out are below the counter, which has not wrapped. -/
theorem Numbered.holds {pids : List Nat} (run : Numbered pids s) :
    ∃ g, Valid g s ∧ (pids.length < 2 ^ 63 → 1 ≤ s.nextPid ∧ s.nextPid = pids.length + 1 ∧ ∀ pid ∈ pids, pid < s.nextPid) := by
  induction run with
  | @start s starts =>
      obtain ⟨s₀, power, returned⟩ := starts
      obtain ⟨g, valid, busy, pids, _⟩ := wp_returned (kernelMain_spec power) returned
      obtain ⟨p, member, _⟩ := valid.running busy
      have := pids.below p member
      refine ⟨g, valid, fun _ => ⟨by omega, ?_, fun pid inside => ?_⟩⟩
      · rw [List.length_range']
        omega
      · rw [List.mem_range'_1] at inside
        omega
  | @step pids r s s' op before called steps ih =>
      obtain ⟨g, valid, inv⟩ := ih
      obtain ⟨g', valid', _⟩ := valid.step called.2 steps
      refine ⟨g', valid', fun few => ?_⟩
      rcases valid.step_number called steps with ⟨none, same⟩ | ⟨one, number, next⟩
      · rw [if_pos none] at few ⊢
        rw [same]
        exact inv few
      · rw [if_neg (by omega), List.length_cons] at few
        rw [if_neg (by omega)]
        obtain ⟨positive, isNext, below⟩ := inv (by omega)
        rw [next, wadd_of_lt (by omega), number, List.length_cons]
        refine ⟨by omega, by omega, fun pid inside => ?_⟩
        rcases List.mem_cons.mp inside with rfl | inside
        · omega
        · have := below pid inside
          omega

/-- What a `fork` system call that succeeds leaves behind, when `pids` were given
out before. -/
structure TwoReturns (pids : List Nat) (s : Kernel) (child : Nat) (s' : Kernel) : Prop where
  tasks : ∃ kept, AllTasks s' (kept ++ [child]) ∧ child ∉ kept ∧ s.current ∈ kept ∧
    ∀ t ∈ kept, OnAllTasks s t ∧ (t ≠ s.current → SameFrame t s s')
  current : s'.current = s.current
  frame : currentFrame s' = currentFrame s
  registers : ∀ i < trapFrameSize, i < TrapFrame.a0 ∨ TrapFrame.a0 + 8 ≤ i → i < TrapFrame.sepc ∨ TrapFrame.sepc + 8 ≤ i →
    s'.mem (tfOf s' child + i) = s.mem (currentFrame s + i) ∧ s'.mem (currentFrame s + i) = s.mem (currentFrame s + i)
  sepc : s'.mem.load (tfOf s' child + TrapFrame.sepc) 8 = wadd (s.mem.load (currentFrame s + TrapFrame.sepc) 8) 4 ∧
    s'.mem.load (currentFrame s + TrapFrame.sepc) 8 = wadd (s.mem.load (currentFrame s + TrapFrame.sepc) 8) 4
  zero : s'.mem.load (tfOf s' child + TrapFrame.a0) 8 = 0
  result : s'.mem.load (currentFrame s + TrapFrame.a0) 8 = pidOf s' child
  pid : 1 ≤ pidOf s' child ∧ pidOf s' child ∉ pids

/-- What `task_fork` does after `tf->sepc += 4`, seen from before it. -/
theorem ValidOf.forked_skipped {child : Nat} (valid : Valid g s) (member : p ∈ g.tasks) (current : p.addr = s.current)
    (forked : Forked (skipped p.tf s) child s') {pids : List Nat} (positive : 1 ≤ s.nextPid)
    (below : ∀ pid ∈ pids, pid < s.nextPid) : TwoReturns pids s child s' := by
  have valid₁ : Valid g (skipped p.tf s) := valid.store_frame member current (by decide)
  have isFrame : currentFrame s = p.tf := valid.frame p member current
  have isFrame₁ : currentFrame (skipped p.tf s) = p.tf := valid₁.frame p member current
  have unskipped : ∀ i, i < TrapFrame.sepc ∨ TrapFrame.sepc + 8 ≤ i → (skipped p.tf s).mem (p.tf + i) = s.mem (p.tf + i) :=
    fun i other => Mem.store_of_outside (by omega)
  have sepc : (skipped p.tf s).mem.load (p.tf + TrapFrame.sepc) 8 = wadd (s.mem.load (p.tf + TrapFrame.sepc) 8) 4 :=
    Mem.load_store_same (wadd_lt _ _)
  have copies := forked.copies
  rw [isFrame₁] at copies
  obtain ⟨kept, list, apart, inside, others⟩ := forked.tasks
  refine ⟨⟨kept, list, apart, inside, fun t isKept => ?_⟩, forked.current, ?_, fun i low other other' => ?_, ⟨?_, ?_⟩, forked.zero,
    ?_, ?_⟩
  · obtain ⟨onList, same⟩ := others t isKept
    obtain ⟨w, old, rfl⟩ := valid₁.onAllTasks.mp onList
    refine ⟨valid.onAllTasks.mpr ⟨w, old, rfl⟩, fun other => ?_⟩
    have first : SameFrame w.addr s (skipped p.tf s) := valid.sameFrame valid₁.world old old rfl rfl fun x owner _ => by
      refine Mem.store_of_outside ?_
      by_contra touched
      have here := (valid.frame_page member (x := x) (by omega)
        (by simp only [TrapFrame.sepc, trapFrameSize] at *; omega)).2
      rw [owner] at here
      exact other (by simpa [← current] using here)
    have later := same other
    refine ⟨later.1.trans first.1, fun i low => ?_⟩
    rw [← first.2 i low, ← first.1]
    exact later.2 i low
  · rw [isFrame, ← isFrame₁]
    exact forked.frame
  · rw [isFrame, ← unskipped i other']
    exact copies i low other
  · rw [isFrame, ← sepc]
    refine Mem.load_shift fun i low => ?_
    rw [Nat.add_assoc, Nat.add_assoc]
    exact (copies _ (by simp only [TrapFrame.sepc, trapFrameSize]; omega) (by simp only [TrapFrame.sepc, TrapFrame.a0]; omega)).1
  · rw [isFrame, ← sepc]
    refine Mem.load_shift fun i low => ?_
    rw [Nat.add_assoc]
    exact (copies _ (by simp only [TrapFrame.sepc, trapFrameSize]; omega) (by simp only [TrapFrame.sepc, TrapFrame.a0]; omega)).2
  · rw [isFrame, ← isFrame₁]
    exact forked.result
  · have isPid : pidOf s' child = s.nextPid := forked.pid
    rw [isPid]
    exact ⟨positive, fun given => (below _ given).ne rfl⟩

/-- In every state of a run, a `fork` system call whose `task_fork` makes a child
returns twice: 0 in the child and the child's number in the parent, in frames that
are equal otherwise, past the `ecall`. The number is new. -/
theorem fork_returns_twice {pids : List Nat} (run : Numbered pids s) (few : pids.length < 2 ^ 63) (busy : s.current ≠ 0)
    (isFork : s.mem.load (currentFrame s + TrapFrame.a7) 8 = sysForkNr) {child : Nat}
    (forks : taskFork (currentFrame s) (skipped (currentFrame s) s) = .ok child s') (succeeds : child ≠ 0) :
    syscallDispatch (currentFrame s) s = .ok (currentFrame s) s' ∧ TwoReturns pids s child s' := by
  obtain ⟨g, valid, numbers⟩ := run.holds
  obtain ⟨positive, _, below⟩ := numbers few
  obtain ⟨p, member, current, isFrame⟩ := valid.running busy
  rw [isFrame] at isFork forks ⊢
  have valid₁ : Valid g (skipped p.tf s) := valid.store_frame member current (by decide)
  obtain ⟨_, _, _, forked⟩ := wp_returned (valid₁.fork_made member current) forks
  refine ⟨?_, valid.forked_skipped member current (forked succeeds) positive below⟩
  have program : wp (syscallDispatch p.tf) s (fun r t => r = p.tf ∧ t = s') fun _ _ => False := by
    unfold syscallDispatch
    rw [wp_bind, wp_loadWord, isFork]
    simp only [sysWriteNr, sysReadNr, sysExitNr, sysYieldNr, sysGetpidNr, sysForkNr, Nat.reduceEqDiff, if_false, if_true,
      wp_skipEcall, skipped, sysFork, wp_bind, wp_storeWord]
    refine wp_mono (wp_of_ok forks) ?_ fun _ _ => id
    rintro _ _ ⟨rfl, rfl⟩
    rw [if_neg succeeds]
    simp [Mem.store_load]
  obtain ⟨_, _, dispatched, rfl, rfl⟩ := wp_total program
  exact dispatched

/-- Free pages and the pages of one task's image have room in memory together. -/
theorem ValidOf.image_room (valid : Valid g s) (member : p ∈ g.tasks) : g.free.length + p.imageSize / 4096 ≤ 0x8000 := by
  have space := valid.world.space p member
  have pool := valid.world.heap.pool
  obtain ⟨pages, _, size, full⟩ := space.image
  rw [size, Nat.mul_div_cancel_left _ (by decide)]
  obtain ⟨image, isImage⟩ : ∃ image, image = (List.range pages).map fun n => (g.user p.addr (16 + n)).getD 0 := ⟨_, rfl⟩
  have found : ∀ n < pages, g.user p.addr (16 + n) = some ((g.user p.addr (16 + n)).getD 0) := fun n low => by
    obtain ⟨q, here⟩ := Option.isSome_iff_exists.mp (full (16 + n) (by omega) (by omega))
    simp [here]
  have owned : ∀ q ∈ image, g.own q ≠ .free ∧ PoolPage q := fun q inside => by
    rw [isImage] at inside
    obtain ⟨n, low, rfl⟩ := List.mem_map.mp inside
    have here := found n (List.mem_range.mp low)
    refine ⟨?_, valid.userPage member here⟩
    rcases space.mapped _ _ here with is | is <;> simp [is]
  have distinct : image.Nodup := by
    rw [isImage, List.nodup_map_iff_inj_on List.nodup_range]
    intro n low m low' same
    have := space.inj _ _ _ (found n (List.mem_range.mp low)) (same ▸ found m (List.mem_range.mp low'))
    omega
  have together : (g.free ++ image).Nodup := List.nodup_append.mpr ⟨pool.nodup, distinct, fun a isFree b inside equal =>
    (owned b inside).1 (equal ▸ (pool.mem_iff a).mp isFree)⟩
  have inPool : g.free ++ image ⊆ (List.range 0x8000).map fun i => 0x80000000 + 4096 * i := fun q inside => by
    have bounds : q % 4096 = 0 ∧ 0x80000000 ≤ q ∧ q < 0x88000000 := by
      rcases List.mem_append.mp inside with inside | inside
      · have := (pool.pages q (by simp [(pool.mem_iff q).mp inside])).bounds
        omega
      · have := (owned q inside).2.bounds
        omega
    exact List.mem_map.mpr ⟨(q - 0x80000000) / 4096, List.mem_range.mpr (by omega), by omega⟩
  have := (List.Nodup.subperm together inPool).length_le
  rw [List.length_append, List.length_map, List.length_range, isImage, List.length_map, List.length_range] at this
  exact this

/-- With enough free pages `task_fork` makes a child. -/
theorem ValidOf.fork_succeeds (valid : Valid g s) (member : p ∈ g.tasks) (current : p.addr = s.current)
    (room : 73 + 3 * (p.imageSize / 4096) ≤ g.free.length) : ∃ child s', taskFork p.tf s = .ok child s' ∧ child ≠ 0 := by
  obtain ⟨child, s', returned, g₁, s₁, g', reaping, _, outcome⟩ :=
    wp_total (valid.world.taskFork_spec valid.unqueued valid.pid member current.symm rfl)
  refine ⟨child, s', returned, ?_⟩
  rcases outcome with ⟨_, _, short⟩ | ⟨some, _⟩
  · have grows := valid.world.heap.pool.length_mono reaping.world.heap.pool fun q isFree =>
      (reaping.reaped.frees.others q fun v _ label => by simp [isFree, labels] at label).trans isFree
    omega
  · exact some

end

section

attribute [local instance] Layout.sample

/-- A machine whose current task asks for a `fork`, which succeeds. -/
theorem fork_returns_twice_sample : ∃ pids s child s', Numbered pids s ∧
    syscallDispatch (currentFrame s) s = .ok (currentFrame s) s' ∧ TwoReturns pids s child s' := by
  obtain ⟨s, g, returned, valid, busy, _, room⟩ := kernelMain_sample
  obtain ⟨p, member, current, isFrame⟩ := valid.running busy
  obtain ⟨_, _, _, _, next⟩ := wp_returned (kernelMain_spec powerOn_sample) returned
  have images := valid.image_room member
  -- user code loads the number of the system call into `a7`
  have called : TrapFrame.a7 + 8 ≤ trapFrameSize := by decide
  have valid₁ : Valid g { s with mem := s.mem.store (p.tf + TrapFrame.a7) 8 sysForkNr } := valid.store_frame member current called
  obtain ⟨op, isOp⟩ : ∃ op, op = Op.user (s.mem.store (p.tf + TrapFrame.a7) 8 sysForkNr) s.uart := ⟨_, rfl⟩
  have steps : op.Steps s 0 { s with mem := s.mem.store (p.tf + TrapFrame.a7) 8 sysForkNr } := by
    rw [isOp]
    exact ⟨valid.store_mayWrite member current called, rfl⟩
  have run := Numbered.step (.start ⟨_, powerOn_sample, returned⟩) (show Running s op from ⟨busy, isOp ▸ busy⟩) steps
  rw [if_pos (show op.creations 0 = 0 by rw [isOp]; rfl)] at run
  obtain ⟨s₁, is₁⟩ : ∃ s₁ : Kernel, s₁ = { s with mem := s.mem.store (p.tf + TrapFrame.a7) 8 sysForkNr } := ⟨_, rfl⟩
  rw [← is₁] at valid₁ run
  have current₁ : p.addr = s₁.current := by
    rw [is₁]
    exact current
  have isFrame₁ : currentFrame s₁ = p.tf := valid₁.frame p member current₁
  have valid₂ : Valid g (skipped p.tf s₁) := valid₁.store_frame member current₁ (by decide)
  obtain ⟨child, s', forks, succeeds⟩ := valid₂.fork_succeeds member current₁ (by omega)
  obtain ⟨dispatched, returns⟩ := fork_returns_twice run (by rw [List.length_range']; omega)
    (current₁ ▸ valid₁.world.addr_ne_zero member)
    (by rw [isFrame₁, is₁]; exact Mem.load_store_same (by decide)) (by rwa [isFrame₁]) succeeds
  exact ⟨_, s₁, child, s', run, dispatched, returns⟩

end

end KuroOS
