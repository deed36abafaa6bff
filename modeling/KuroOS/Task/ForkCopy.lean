import KuroOS.Task.ExecReap

/-!
# What a forked task finds in its pages

`task_fork` gives the child the pages that `user_image_size` counts, with the bytes
of the parent's, and a page for the stack. The bytes for that one are looked up under
`user_sp`, which is one past the stack page: nothing is mapped there, and the child's
stack is cleared.
-/

namespace KuroOS

open Base

section

variable [Layout]

/-- A task that has not executed a file: the page at the top of its space is the stack
that it was made with. `sys_exec` maps another page there, and that one no more. -/
def OwnStack (s : Kernel) (t : Nat) : Prop :=
  UserLeaf s.mem (pagetableOf s t) ((userStackTop - pageSize) / pageSize) (userStackOf s t)

/-- Every page that a parent maps for the user, the child maps at the same address: to
another page, with the same bytes. -/
def CopiesMemory (s : Kernel) (child : Nat) (s' : Kernel) : Prop :=
  ∀ vpn < 2 ^ 27, ∀ page, UserLeaf s.mem (pagetableOf s s.current) vpn page →
    ∃ page', UserLeaf s'.mem (pagetableOf s' child) vpn page' ∧ page' ≠ page ∧
      ∀ i < pageSize, s'.mem (page' + i) = s.mem (page + i)

variable {g g₁ g' : World} {s s₁ s' : Kernel} {p v : TaskView} {child n : Nat}

namespace ValidOf

theorem ownStack (valid : Valid g s) (member : v ∈ g.tasks) : OwnStack s v.addr ↔ g.user v.addr stackVpn = some v.userStack := by
  have atTop : (userStackTop - pageSize) / pageSize = stackVpn := by decide
  unfold OwnStack userStackOf
  rw [(valid.world.view v member).userStack, atTop, valid.taskLeaf member (by decide)]

/-- Such a task maps what its image counts, and the stack. -/
theorem ownStack_iff (valid : Valid g s) (member : v ∈ g.tasks) : OwnStack s v.addr ↔
    ∃ pages ≤ 0x8000, v.imageSize = pageSize * pages ∧ FreshMap (g.user v.addr) pages v.userStack := by
  rw [valid.ownStack member]
  constructor
  · intro own
    rcases (valid.world.space v member).shape with fresh | ⟨_, loaded⟩
    · exact fresh
    · exact absurd own (loaded.dropped _)
  · rintro ⟨_, _, _, fresh⟩
    exact fresh.stack

/-- A task that `task_create_user` or `task_fork` makes. -/
theorem ownStack_made {X : Set Nat} {pages : Nat} (valid' : Valid g' s') (created : Created X g s v pages g' s') :
    OwnStack s' v.addr := by
  refine (valid'.ownStack ?_).mpr created.fresh.stack
  rw [created.born.tasks]
  simp

/-- An operation leaves a task the stack it was made with, unless it frees the task or
is a `sys_exec` by the task that succeeds. -/
theorem ownStack_step (valid : Valid g s) (member : v ∈ g.tasks) (own : OwnStack s v.addr) {op : Op} {r : Nat}
    (stays : ¬ op.FreesTask s v.addr)
    (other : ∀ filename, op = .exec filename → v.addr = s.current → sysExec filename (currentFrame s) s ≠ .ok 0 s')
    (called : op.Called s) (steps : op.Steps s r s') : OwnStack s' v.addr := by
  obtain ⟨pages, small, size, fresh⟩ := (valid.ownStack_iff member).mp own
  obtain ⟨g', valid', outcome⟩ := valid.step called steps
  rcases valid.step_keeps member stays outcome with ⟨users, _, w, inside, core⟩ | ⟨current, ⟨filename, rfl⟩, _⟩
  · have fields := TaskView.core_fields core
    rw [← fields.1, valid'.ownStack_iff inside]
    refine ⟨pages, small, fields.2.2.2.2.2.2.1.trans size, ?_⟩
    rw [fields.1, users, fields.2.2.2.2.2.1]
    exact fresh
  · obtain ⟨result, returned⟩ := steps
    have failing := other filename rfl current
    rw [valid.frame v member current] at returned failing
    obtain ⟨g', world', ⟨_, failed⟩ | ⟨zero, _⟩⟩ := wp_returned (valid.world.sysExec_spec member current.symm filename) returned
    · have valid' := valid.execFailed world' failed
      rw [valid'.ownStack_iff (failed.same.tasks ▸ member), failed.same.user]
      exact ⟨pages, small, size, fresh⟩
    · exact absurd (zero ▸ returned) failing

/-- What a child's pages are. -/
theorem fork_pages (valid : Valid g s) (busy : s.current ≠ 0) (forks : taskFork (currentFrame s) s = .ok child s')
    (succeeds : child ≠ 0) : ∃ p ∈ g.tasks, p.addr = s.current ∧ ∃ g', Valid g' s' ∧ ∃ v ∈ g'.tasks, v.addr = child ∧
      (∃ pages ≤ 0x8000, p.imageSize = pageSize * pages ∧ FreshMap (g'.user v.addr) pages v.userStack) ∧
      Contents (forkedImage (g.user p.addr) s.mem) (forkedStack (g.user p.addr) s.mem) (g'.user v.addr) s'.mem ∧
      ∀ n m q, g.user p.addr n = some q → g'.user v.addr m ≠ some q := by
  obtain ⟨p, member, current, isFrame⟩ := valid.running busy
  rw [isFrame] at forks
  obtain ⟨g₁, s₁, g', reaping, world', ⟨zero, _⟩ | ⟨_, v, pages, rfl, _, size, created, contents, _⟩⟩ :=
    wp_returned (valid.world.taskFork_spec valid.unqueued valid.pid member current.symm rfl) forks
  · exact absurd zero succeeds
  have valid' := (valid.reaping reaping).created world' created
  have born := created.born
  have newMember : v ∈ g'.tasks := by
    rw [born.tasks]
    simp
  refine ⟨p, member, current, g', valid', v, newMember, rfl, ⟨pages, created.small, size, created.fresh⟩, contents,
    fun n m q found found' => ?_⟩
  have parent : p ∈ g₁.tasks := by
    rw [reaping.tasks]
    exact mem_survivors.mpr ⟨member, fun _ => current⟩
  have apart : p.addr ≠ v.addr := fun equal =>
    born.fresh (List.mem_append_left _ (equal ▸ List.mem_map_of_mem parent))
  have gone : ∀ w ∈ zombies s.current g.tasks, w.addr ≠ p.addr := fun w inside => current ▸ (mem_zombies.mp inside).2.2
  -- the page is still the parent's when the child is made, and after it
  have label : g.own q ∈ labels p.addr := (valid.world.space p member).labelled found
  have label₁ : g₁.own q ∈ labels p.addr := by
    rwa [(reaping.reaped.effect.own_iff (freed_foreign gone _ label) q).mpr rfl]
  have quiet : g₁.own q ∉ ({.free, .heap} : Set Owner) ∪ labels v.addr := by
    rintro (isCommon | mine)
    · simp only [labels, Set.mem_insert_iff, Set.mem_singleton_iff] at label₁ isCommon
      rcases label₁ with here | here | here | here <;> simp [here] at isCommon
    · exact labels_disjoint apart label₁ mine
  have label' : g'.own q ∈ labels p.addr := by
    rwa [(born.effect.own_iff quiet q).mpr rfl]
  exact labels_disjoint apart label' ((world'.space v newMember).labelled found')

/-- The child's stack is clear, and its image pages are copies. -/
theorem fork_copies (valid : Valid g s) (busy : s.current ≠ 0) (own : OwnStack s s.current)
    (forks : taskFork (currentFrame s) s = .ok child s') (succeeds : child ≠ 0) :
    CopiesMemory s child s' ↔ ∀ i < pageSize, s.mem (userStackOf s s.current + i) = 0 := by
  obtain ⟨p, member, current, g', valid', v, newMember, rfl, ⟨pages, small, size, fresh'⟩, contents, apart⟩ :=
    valid.fork_pages busy forks succeeds
  rw [← current, valid.ownStack_iff member] at own
  obtain ⟨pages', _, size', fresh⟩ := own
  obtain rfl : pages = pages' := Nat.eq_of_mul_eq_mul_left (by decide) (size.symm.trans size')
  have isStack : userStackOf s s.current = p.userStack := current ▸ (valid.world.view p member).userStack
  -- `user_sp` points past the stack page, and the image ends below
  have cleared : ∀ i, forkedStack (g.user p.addr) s.mem i = 0 := fun i => by
    have unmapped : g.user p.addr aboveStack = none := by
      rw [← Option.not_isSome_iff_eq_none, fresh.mapped]
      simp only [aboveStack, stackVpn]
      omega
    rw [forkedStack, unmapped]
  rw [isStack]
  unfold CopiesMemory
  rw [← current]
  constructor
  · intro copies i low
    obtain ⟨page, found, _, same⟩ := copies stackVpn (by decide) p.userStack ((valid.taskLeaf member (by decide)).mpr fresh.stack)
    rw [← same i low, contents.stack page ((valid'.taskLeaf newMember (by decide)).mp found) i low]
    exact cleared i
  · intro clear vpn below page mapped
    have found := (valid.taskLeaf member below).mp mapped
    have inside := (fresh'.mapped vpn).mpr ((fresh.mapped vpn).mp (by simp [found]))
    obtain ⟨page', found'⟩ := Option.isSome_iff_exists.mp inside
    refine ⟨page', (valid'.taskLeaf newMember below).mpr found', fun same => apart vpn vpn page found (same ▸ found'), fun i low => ?_⟩
    by_cases atTop : vpn = stackVpn
    · subst atTop
      obtain rfl : p.userStack = page := by simpa [fresh.stack] using found
      rw [contents.stack page' found' i low, cleared, clear i low]
    · rw [contents.image vpn page' found' atTop i low, forkedImage, found]

end ValidOf

/-- In every state of a run, a task that has not executed a file gives its child a copy
of its memory exactly if its own stack page is clear. -/
theorem fork_copies_iff (run : Reachable n s) (busy : s.current ≠ 0) (own : OwnStack s s.current)
    (forks : taskFork (currentFrame s) s = .ok child s') (succeeds : child ≠ 0) :
    CopiesMemory s child s' ↔ ∀ i < pageSize, s.mem (userStackOf s s.current + i) = 0 := by
  obtain ⟨g, valid, _⟩ := run.valid
  exact valid.fork_copies busy own forks succeeds

end

section

attribute [local instance] Layout.sample

/-- The first task writes a byte to its stack and forks. -/
theorem forking_sample (byte : UInt8) : ∃ s g child s', Reachable 0 s ∧ Valid g s ∧ s.current ≠ 0 ∧ OwnStack s s.current ∧
    taskFork (currentFrame s) s = .ok child s' ∧ child ≠ 0 ∧ s.mem (userStackOf s s.current) = byte := by
  obtain ⟨s₀, g, returned, valid₀, busy, _, room, w, member, current, own⟩ := kernelMain_stack
  have images := valid₀.image_room member
  obtain ⟨mem, is⟩ : ∃ mem : Mem, mem = fun x => if x = w.userStack then byte else s₀.mem x := ⟨_, rfl⟩
  have writes : ∀ x, mem x ≠ s₀.mem x → MayWrite s₀ x := fun x changed => by
    obtain rfl : x = w.userStack := by
      by_contra other
      exact changed (by rw [is]; exact if_neg other)
    exact .inl ⟨4096 * stackVpn + 0, valid₀.sv39User_of_mapped member current own (by decide) .write⟩
  have steps : (Op.user mem s₀.uart).Steps s₀ 0 { s₀ with mem, uart := s₀.uart } := ⟨writes, rfl⟩
  have valid : Valid g { s₀ with mem, uart := s₀.uart } := valid₀.user_step busy s₀.uart writes
  have run : Reachable 0 { s₀ with mem, uart := s₀.uart } :=
    .step (.start ⟨_, powerOn_sample, returned⟩) ⟨busy, busy⟩ steps
  obtain ⟨child, s', forks, succeeds⟩ := valid.fork_succeeds member current (by omega)
  rw [← valid.frame w member current] at forks
  refine ⟨_, g, child, s', run, valid, busy, ?_, forks, succeeds, ?_⟩
  · exact current ▸ (valid.ownStack member).mpr own
  · have stack : userStackOf { s₀ with mem, uart := s₀.uart } w.addr = w.userStack := (valid.world.view w member).userStack
    rw [current] at stack
    refine (congrArg mem stack).trans ?_
    rw [is]
    exact if_pos rfl

/-- A stack that starts with a clear byte. -/
theorem fork_copies_sample : ∃ s child s', s.mem (userStackOf s s.current) = 0 ∧
    (CopiesMemory s child s' ↔ ∀ i < pageSize, s.mem (userStackOf s s.current + i) = 0) := by
  obtain ⟨s, _, child, s', run, _, busy, own, forks, succeeds, first⟩ := forking_sample 0
  exact ⟨s, child, s', first, fork_copies_iff run busy own forks succeeds⟩

/-- A byte on the parent's stack that the child does not find on its own. -/
theorem fork_loses_stack : ¬ ∀ n s child s', Reachable n s → s.current ≠ 0 → OwnStack s s.current →
    taskFork (currentFrame s) s = .ok child s' → child ≠ 0 → CopiesMemory s child s' := by
  intro claim
  obtain ⟨s, g, child, s', run, valid, busy, own, forks, succeeds, first⟩ := forking_sample 1
  have clear := (valid.fork_copies busy own forks succeeds).mp (claim 0 s child s' run busy own forks succeeds) 0 (by decide)
  rw [Nat.add_zero, first] at clear
  exact absurd clear (by decide)

end

end KuroOS
