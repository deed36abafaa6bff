import KuroOS.Task.Fork

/-!
# The program of a new task

What `task_create_user` builds out of an image: the pages that the tables of the
new task map, what they hold, and the frame that the task starts from.
-/

namespace KuroOS

open Base

/-- `task->entry`. -/
def entryPointOf (s : Kernel) (task : Nat) : Nat := s.mem.load (task + Task.entry) 8

section

variable [Layout]

/-- The states between operations, from `vm_init` on. -/
abbrev Between : Nat → Kernel → Prop :=
  OpRun (fun s => AfterVmInit s ∨ AfterUserInit s) fun s op => op.Called s

/-- The task that `task_create_user` makes of the image from `start` up to `stop`. -/
structure BuiltImage (start stop entry : Nat) (s : Kernel) (task : Nat) (s' : Kernel) : Prop where
  image : ∀ i < (stop - start + 4095) / 4096 * 4096,
    ∃ page, UserLeaf s'.mem (pagetableOf s' task) ((userTextBase + i) / pageSize) page ∧
      entryAt s'.mem (pagetableOf s' task) ((userTextBase + i) / pageSize) &&& pteX ≠ 0 ∧
      s'.mem (page + (userTextBase + i) % pageSize) = if i < stop - start then s.mem (start + i) else 0
  stack : ∃ page, UserLeaf s'.mem (pagetableOf s' task) ((userStackTop - pageSize) / pageSize) page ∧
    entryAt s'.mem (pagetableOf s' task) ((userStackTop - pageSize) / pageSize) &&& pteW ≠ 0 ∧
    ∀ i < pageSize, s'.mem (page + i) = 0
  only : ∀ vpn < userStackTop / pageSize, ptePresent (entryAt s'.mem (pagetableOf s' task) vpn) = true →
    (userTextBase / pageSize ≤ vpn ∧ vpn < userTextBase / pageSize + (stop - start + 4095) / 4096) ∨
      vpn = (userStackTop - pageSize) / pageSize ∨ vpn = uartBase / pageSize
  entry : start ≤ entry → entry ≤ stop → entryPointOf s' task = userTextBase + (entry - start)
  frame : FreshFrame (tfOf s' task) userStackTop (entryPointOf s' task) s'.mem

variable {g g' : World} {s s' : Kernel} {v : TaskView} {n : Nat}

/-- The states between operations are in order. -/
theorem Between.valid (run : Between n s) : ∃ g, Valid g s := by
  induction run with
  | start starts =>
      rcases starts with ⟨s₀, power, returned⟩ | ⟨s₀, power, returned⟩
      · obtain ⟨g, started, _⟩ := wp_ok (kernelStart_spec power fun none : False => none.elim) returned
        exact ⟨g, started.valid⟩
      · obtain ⟨g, valid, _⟩ := wp_returned (kernelMain_spec power) returned
        exact ⟨g, valid⟩
  | step before called steps ih =>
      obtain ⟨g, valid⟩ := ih
      obtain ⟨g', valid', _⟩ := valid.step called steps
      exact ⟨g', valid'⟩

namespace ValidOf

/-- The entry of a page number in a task's tables. -/
theorem entryAt_user (valid : Valid g s) (member : v ∈ g.tasks) {vpn : Nat} (below : vpn < 2 ^ 27) :
    entryAt s.mem (pagetableOf s v.addr) vpn = spaceEntry (g.user v.addr) vpn := by
  have space := valid.world.space v member
  rw [show pagetableOf s v.addr = v.pagetable from (valid.world.view v member).pagetable]
  exact (space.tables.entryAt valid.world.heap.pool below).trans (space.leaves vpn)

/-- A user page is a leaf with every permission. -/
theorem leaf_of_user (valid : Valid g s) (member : v ∈ g.tasks) {vpn page : Nat} (below : vpn < 2 ^ 27)
    (found : g.user v.addr vpn = some page) : UserLeaf s.mem (pagetableOf s v.addr) vpn page ∧
      entryAt s.mem (pagetableOf s v.addr) vpn &&& pteX ≠ 0 ∧ entryAt s.mem (pagetableOf s v.addr) vpn &&& pteW ≠ 0 := by
  refine ⟨?_, ?_⟩
  · rw [show pagetableOf s v.addr = v.pagetable from (valid.world.view v member).pagetable]
    exact (valid.userLeaf member below).mpr found
  · rw [valid.entryAt_user member below, spaceEntry, found]
    dsimp only
    rw [mkPte_and (by decide) (by decide), mkPte_and (by decide) (by decide)]
    decide

end ValidOf

/-- The address space of a fresh task holds its image and its stack. -/
theorem ValidOf.builtImage {start stop entry pages : Nat} (valid : Valid g s') (member : v ∈ g.tasks)
    (isPages : (stop - start + 4095) / 4096 = pages) (small : pages ≤ 0x8000) (fresh : FreshMap (g.user v.addr) pages v.userStack)
    (contents : Contents (imageByte (fun j => s.mem (start + j)) (stop - start)) (fun _ => 0) (g.user v.addr) s'.mem)
    (isEntry : start ≤ entry → entry ≤ stop → v.entry = userTextBase + (entry - start))
    (frame : FreshFrame v.tf userStackTop v.entry s'.mem) : BuiltImage start stop entry s v.addr s' := by
  have view := valid.world.view v member
  have entryField : entryPointOf s' v.addr = v.entry := view.entry
  have tfField : tfOf s' v.addr = v.tf := view.tf
  refine ⟨fun i inside => ?_, ?_, fun vpn low present => ?_, ?_, ?_⟩
  · have vpn : (userTextBase + i) / pageSize = 16 + i / 4096 := by
      simp only [userTextBase, pageSize]
      omega
    have offset : (userTextBase + i) % pageSize = i % 4096 := by
      simp only [userTextBase, pageSize]
      omega
    obtain ⟨page, found⟩ := Option.isSome_iff_exists.mp ((fresh.mapped (16 + i / 4096)).mpr (.inl (by omega)))
    obtain ⟨leaf, exec, _⟩ := valid.leaf_of_user member (by omega) found
    rw [vpn, offset]
    refine ⟨page, leaf, exec, ?_⟩
    rw [contents.image _ _ found (by simp only [stackVpn]; omega) _ (Nat.mod_lt _ (by decide)), imageByte,
      show 4096 * (16 + i / 4096 - 16) + i % 4096 = i by omega]
  · have vpn : (userStackTop - pageSize) / pageSize = stackVpn := by decide
    rw [vpn]
    obtain ⟨leaf, _, write⟩ := valid.leaf_of_user member (by decide) fresh.stack
    exact ⟨_, leaf, write, fun i low => contents.stack _ fresh.stack i low⟩
  · simp only [userStackTop, pageSize, userTextBase, uartBase] at *
    rw [valid.entryAt_user member (by omega), spaceEntry] at present
    cases found : g.user v.addr vpn with
    | some page =>
        rcases (fresh.mapped vpn).mp (by simp [found]) with range | isStack
        · left
          omega
        · simp only [stackVpn] at isStack
          omega
    | none =>
        rw [found] at present
        dsimp only at present
        unfold kernelEntry at present
        rw [if_neg (by omega)] at present
        split at present
        · omega
        · simp [ptePresent] at present
  · rw [entryField]
    exact isEntry
  · rw [tfField, entryField]
    exact frame

/-- In every state between operations, a `task_create_user` that makes a task of an
image, which lies outside the page pool, has built what the image says. -/
theorem create_user_builds (run : Between n s) {start stop entry : Nat} (ordered : start ≤ stop) (word : stop < 2 ^ 64)
    (room : stop - start ≤ 0x8000 * pageSize)
    (linked : ∀ x, start ≤ x → x < stop → ¬ PoolPage (pageOf x) ∧ x ∉ listHeads) {task : Nat}
    (returned : taskCreateUser start stop entry s = .ok task s') (made : task ≠ 0) :
    BuiltImage start stop entry s task s' := by
  obtain ⟨g, valid⟩ := Between.valid run
  have pool := valid.world.heap.pool
  have isSize : wsub stop start = stop - start := wsub_of_le ordered word
  have spec : wp (taskCreateUser start stop entry) s _ fun _ _ => True :=
    valid.world.taskCreateUser_spec valid.unqueued valid.pid
  obtain ⟨g₁, s₁, g', reaping, world', ⟨zero, _⟩ | ⟨_, v, pages, rfl, isEntry, isPages, created, contents, frame, _⟩⟩ :=
    wp_returned spec returned
  · exact absurd zero made
  have valid' := (valid.reaping reaping).created world' created
  have member : v ∈ g'.tasks := by
    rw [created.born.tasks]
    simp
  have source : Unowned g.own start (wsub stop start) := by
    rw [isSize]
    refine ⟨by omega, fun j low => ?_⟩
    obtain ⟨outside, noHead⟩ := linked (start + j) (by omega) (by omega)
    exact ⟨not_not.mp fun owned => outside (pool.pages _ owned), noHead⟩
  rw [isSize] at contents isPages source
  rw [alignUp_page (by simp only [pageSize] at room; omega)] at isPages
  refine valid'.builtImage member (show (stop - start + 4095) / 4096 = pages by omega) created.small created.fresh (contents source) (fun low high => ?_) frame
  rw [isEntry, wsub_of_le low (by omega), wadd_of_lt]
  simp only [userTextBase, pageSize] at *
  omega

/-- With enough free pages `task_create_user` makes a task. -/
theorem ValidOf.create_succeeds (valid : Valid g s) {start stop entry : Nat}
    (room : 73 + 3 * (alignUp (wsub stop start) pageSize / 4096) ≤ g.free.length) :
    ∃ task s', taskCreateUser start stop entry s = .ok task s' ∧ task ≠ 0 := by
  obtain ⟨task, s', returned, g₁, s₁, g', reaping, _, outcome⟩ :=
    wp_total (valid.world.taskCreateUser_spec valid.unqueued valid.pid)
  refine ⟨task, s', returned, ?_⟩
  rcases outcome with ⟨_, _, short⟩ | ⟨some, _⟩
  · have grows := valid.world.heap.pool.length_mono reaping.world.heap.pool fun q isFree =>
      (reaping.reaped.frees.others q fun v _ label => by simp [isFree, labels] at label).trans isFree
    omega
  · exact some

end

section

attribute [local instance] Layout.sample

/-- A task made of the first five bytes of the embedded program. -/
theorem create_user_builds_sample : ∃ s task s', Between 0 s ∧ taskCreateUser 0x80210000 0x80210005 0x80210002 s = .ok task s' ∧
    BuiltImage 0x80210000 0x80210005 0x80210002 s task s' := by
  obtain ⟨s, g, returned, valid, _, _, room⟩ := kernelMain_sample
  have run : Between 0 s := .start (.inr ⟨_, powerOn_sample, returned⟩)
  have pages : alignUp (wsub 0x80210005 0x80210000) pageSize / 4096 = 1 := by decide
  obtain ⟨task, s', made, some⟩ : ∃ task s', taskCreateUser 0x80210000 0x80210005 0x80210002 s = .ok task s' ∧ task ≠ 0 :=
    valid.create_succeeds (by omega)
  refine ⟨s, task, s', run, made, create_user_builds run (by decide) (by decide) (by decide) (fun x low high => ⟨?_, ?_⟩) made some⟩
  · rintro ⟨_, above, _⟩
    have : Layout.kernelEnd = 0x80400000 := rfl
    unfold pageOf at above
    omega
  · have heads : Layout.freePageList = 0x80200000 ∧ Layout.runQueue = 0x80200010 ∧ Layout.allTasks = 0x80200020 := ⟨rfl, rfl, rfl⟩
    rintro ((inside | inside) | inside)
    all_goals
      simp only [mem_node] at inside
      omega

end

end KuroOS
