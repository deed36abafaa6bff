import KuroOS.Task.ForkCopy

/-!
# Which pages a forked task has

`task_fork` looks for the pages of the parent's program where `user_image_size` says
they are, from `USER_TEXT_BASE` on. `sys_exec` maps a program where its segments
are, and sets the size to 0: a child of such a task has a stack and no program.
-/

namespace KuroOS

open Base

section

variable [Layout]

/-- The page numbers that a task's page table maps with `PTE_U`. -/
def userVpns (s : Kernel) (t : Nat) : Set Nat := {vpn | vpn < 2 ^ 27 ∧ ∃ page, UserLeaf s.mem (pagetableOf s t) vpn page}

/-- The page numbers that `task_fork` looks at: the stack, and the image that
`user_image_size` counts. -/
def forkedVpns (s : Kernel) (t : Nat) : Set Nat :=
  {vpn | (16 ≤ vpn ∧ vpn < 16 + imageSizeOf s t / pageSize) ∨ vpn = stackVpn}

variable {g : World} {s s' : Kernel} {v : TaskView} {child : Nat}

namespace ValidOf

theorem mem_userVpns (valid : Valid g s) (member : v ∈ g.tasks) {vpn : Nat} :
    vpn ∈ userVpns s v.addr ↔ (g.user v.addr vpn).isSome := by
  rw [Option.isSome_iff_exists]
  constructor
  · rintro ⟨below, page, mapped⟩
    exact ⟨page, (valid.taskLeaf member below).mp mapped⟩
  · rintro ⟨page, found⟩
    have below : vpn < 2 ^ 27 := by
      have := (valid.world.space v member).low vpn page found
      omega
    exact ⟨below, page, (valid.taskLeaf member below).mpr found⟩

/-- The pages of a task that was made with so many image pages. -/
theorem mem_forkedVpns (valid : Valid g s) (member : v ∈ g.tasks) {pages vpn : Nat} (size : v.imageSize = pageSize * pages) :
    vpn ∈ forkedVpns s v.addr ↔ (16 ≤ vpn ∧ vpn < 16 + pages) ∨ vpn = stackVpn := by
  have counted : imageSizeOf s v.addr / pageSize = pages := by
    rw [imageSizeOf, (valid.world.view v member).imageSize, size, Nat.mul_div_cancel_left _ (by decide)]
  simp only [forkedVpns, counted, Set.mem_ofPred_eq]

/-- What `task_fork` looks at is mapped. -/
theorem forkedVpns_subset (valid : Valid g s) (member : v ∈ g.tasks) : forkedVpns s v.addr ⊆ userVpns s v.addr := by
  have space := valid.world.space v member
  obtain ⟨pages, _, size, full⟩ := space.image
  intro vpn looked
  rw [valid.mem_userVpns member]
  rcases (valid.mem_forkedVpns member size).mp looked with ⟨low, high⟩ | rfl
  · exact full vpn low high
  · rcases space.shape with ⟨_, _, _, fresh⟩ | ⟨_, loaded⟩
    · exact Option.isSome_iff_exists.mpr ⟨_, fresh.stack⟩
    · exact loaded.stack

/-- A task that has not executed a file has no other pages. -/
theorem userVpns_made (valid : Valid g s) (member : v ∈ g.tasks) (own : OwnStack s v.addr) :
    userVpns s v.addr ⊆ forkedVpns s v.addr := by
  obtain ⟨pages, _, size, fresh⟩ := (valid.ownStack_iff member).mp own
  intro vpn mapped
  rw [valid.mem_userVpns member, fresh.mapped] at mapped
  exact (valid.mem_forkedVpns member size).mpr mapped

/-- The child of a fork maps what `task_fork` looked at. -/
theorem fork_vpns (valid : Valid g s) (busy : s.current ≠ 0) (forks : taskFork (currentFrame s) s = .ok child s')
    (succeeds : child ≠ 0) : userVpns s' child = forkedVpns s s.current := by
  obtain ⟨p, member, current, g', valid', v, newMember, rfl, ⟨pages, _, size, fresh⟩, _⟩ := valid.fork_pages busy forks succeeds
  ext vpn
  rw [← current, valid.mem_forkedVpns member size, valid'.mem_userVpns newMember, fresh.mapped]

end ValidOf

/-- Whatever a task has executed, its child maps the same pages exactly if the parent's
are the stack and the image that `user_image_size` counts. -/
theorem fork_maps_iff (valid : Valid g s) (busy : s.current ≠ 0) (forks : taskFork (currentFrame s) s = .ok child s')
    (succeeds : child ≠ 0) : userVpns s' child = userVpns s s.current ↔ userVpns s s.current ⊆ forkedVpns s s.current := by
  obtain ⟨p, member, current, _⟩ := valid.running busy
  have looked := valid.forkedVpns_subset member
  rw [valid.fork_vpns busy forks succeeds, ← current]
  exact ⟨fun same => same.symm.subset, fun inside => looked.antisymm inside⟩

end

section

attribute [local instance] Layout.sample

/-- A task that has not executed a file forks. -/
theorem fork_maps_sample : ∃ s child s', userVpns s' child = userVpns s s.current ↔ userVpns s s.current ⊆ forkedVpns s s.current := by
  obtain ⟨s, g, child, s', _, valid, busy, _, forks, succeeds, _⟩ := forking_sample 0
  exact ⟨s, child, s', fork_maps_iff valid busy forks succeeds⟩

/-- A task executes a file and forks: the page of the file's code is not mapped for the
child. -/
theorem fork_loses_program : ¬ ∀ g s filename s₁ child s', Valid g s → s.current ≠ 0 →
    sysExec filename (currentFrame s) s = .ok 0 s₁ → taskFork (currentFrame s₁) s₁ = .ok child s' → child ≠ 0 →
    userVpns s' child = userVpns s₁ s₁.current := by
  intro claim
  obtain ⟨s, g, filename, s₁, valid, busy, _, execs, ⟨_, _, own, free, dir, user, l, placed, _⟩, room⟩ := hello_returns
  obtain ⟨g₁, valid₁, ⟨v, member, here, size, _⟩, _, current⟩ := valid.exec_hasFile busy execs
  have isCurrent : v.addr = s₁.current := here.trans current.symm
  have busy₁ : s₁.current ≠ 0 := by rwa [current]
  rw [valid₁.world.heap.pool.count] at room
  obtain ⟨child, s', forks, succeeds⟩ := valid₁.fork_succeeds member isCurrent (by rw [size]; omega)
  rw [← valid₁.frame v member isCurrent] at forks
  have same := claim g s filename s₁ child s' valid busy execs forks succeeds
  rw [valid₁.fork_vpns busy₁ forks succeeds, ← isCurrent] at same
  -- the entry of the program is in page 16
  have mapped : 16 ∈ userVpns s₁ v.addr := by
    obtain ⟨page, found, _⟩ := placed 0 (by decide) 16 ⟨by decide, by decide, by decide⟩
    refine ⟨by decide, page, ?_⟩
    rw [pagetableOf, (valid₁.world.view v member).pagetable, ← valid₁.root v member isCurrent]
    exact (l.userLeaf (by decide)).mpr found
  have noImage : v.imageSize = pageSize * 0 := size
  rw [← same, valid₁.mem_forkedVpns member noImage] at mapped
  exact absurd mapped (by decide)

end

end KuroOS
