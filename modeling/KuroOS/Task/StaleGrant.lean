import KuroOS.Task.ExecReap
import KuroOS.Task.Grant

/-!
# Grants and the tasks they are for

`task_create` has the kernel's table grant the page of a task's user stack to user
code, and nothing takes a grant back: `task_free` gives the page to the page
allocator and leaves the entry as it is. While no task of `task_create` is freed,
every granted page is still the stack of its task. Once one is, user code can reach a
free page.
-/

namespace KuroOS

open Base

/-- What happens after `vm_init` to tasks and pages: `task_create`, or another
operation. -/
inductive StackOp where
  | create (entry : UInt64)
  | kernel (op : Op)

/-- The task that `task_create` has made. -/
def StackOp.made (r : Nat) : StackOp → Set Nat
  | .create _ => {t | t = r ∧ r ≠ 0}
  | .kernel _ => ∅

/-- The page that `page_alloc` has given to another part of the kernel. -/
def StackOp.taken (r : Nat) : StackOp → Set Nat
  | .kernel .take => {p | p = r ∧ r ≠ 0}
  | _ => ∅

section

variable [Layout]

/-- An operation that returns, its result where that is a pointer, and the state it
leaves. -/
def StackOp.Steps (s : Kernel) (r : Nat) (s' : Kernel) : StackOp → Prop
  | .create entry => taskCreate entry.toNat s = .ok r s'
  | .kernel op => op.Steps s r s'

/-- When an operation is called: `task_destroy` is for a task that has not exited, and
no operation looks into an address space. -/
def StackOp.Called (s : Kernel) : StackOp → Prop
  | .create _ => True
  | .kernel (.destroy task) => OnAllTasks s task ∧ stateOf s task ≠ TaskState.zombie.code
  | .kernel op => op.Plain

/-- An operation frees a task: it reaps, and the task is a zombie that is not the
current one, or it destroys the task. -/
def StackOp.FreesTask (s : Kernel) (t : Nat) : StackOp → Prop
  | .create _ => Reapable s t
  | .kernel op => op.FreesTask s t

variable {made taken : Set Nat} {granted : UserMap} {g g₁ g' : World} {s s₁ s' : Kernel} {v : TaskView} {r : Nat}
  {gone : Nat → Prop}

/-- What an operation leaves of the grants, of the pages given away and of the tasks. -/
structure KeepsGrants (gone : Nat → Prop) (g : World) (s : Kernel) (g' : World) (s' : Kernel) : Prop where
  grants : ∀ granted, Grants g.kdir granted s.mem → Grants g'.kdir granted s'.mem
  lost : ∀ q, g.own q = .lost → g'.own q = .lost
  tasks : ∀ v ∈ g.tasks, ¬ gone v.addr → ∃ w ∈ g'.tasks, w.addr = v.addr ∧ w.userStack = v.userStack

namespace KeepsGrants

omit [Layout] in
theorem trans (first : KeepsGrants gone g s g₁ s₁) (second : KeepsGrants (fun _ => False) g₁ s₁ g' s') :
    KeepsGrants gone g s g' s' where
  grants granted grants := second.grants granted (first.grants granted grants)
  lost q here := second.lost q (first.lost q here)
  tasks v member stays := by
    obtain ⟨u, inside, addr, stack⟩ := first.tasks v member stays
    obtain ⟨w, inside', addr', stack'⟩ := second.tasks u inside not_false
    exact ⟨w, inside', addr'.trans addr, stack'.trans stack⟩

/-- Reaping. -/
theorem reaped (valid : ValidOf EitherSpace g s) (reaping : ReapingOf EitherSpace g s g' s') :
    KeepsGrants (Reapable s) g s g' s' where
  grants _ grants := valid.world.grants_effect grants reaping.reaped.effect (by simp [freed, labels]) reaping.reaped.kdir
  lost q here := (reaping.reaped.frees.others q fun v _ => by simp [here, labels]).trans here
  tasks v member stays := ⟨v, by rw [reaping.tasks]; exact valid.survives member stays, rfl, rfl⟩

/-- An attempt that failed. -/
theorem aborted (world : WorldOf EitherSpace ∅ g s) (aborted : Aborted g s g' s') : KeepsGrants (fun _ => False) g s g' s' where
  grants _ grants := world.grants_effect grants aborted.effect (by simp) aborted.same.kdir
  lost q here := by
    rcases aborted.owner q with same | ⟨isFree, _⟩
    · rw [same, here]
    · simp [here] at isFree
  tasks v member _ := ⟨v, aborted.same.tasks ▸ member, rfl, rfl⟩

/-- A task that was made. -/
theorem born (world : WorldOf EitherSpace ∅ g s) (born : Born ∅ g s v g' s') : KeepsGrants (fun _ => False) g s g' s' where
  grants _ grants := by
    have effect := born.effect
    rw [Set.union_empty] at effect
    exact world.grants_effect grants effect (by simp [labels]) born.kdir
  lost q here := by
    rcases born.effect.owner q with same | ⟨was, _⟩
    · rw [same, here]
    · simp [here, labels] at was
  tasks w member _ := ⟨w, by rw [born.tasks]; exact List.mem_append_left _ member, rfl, rfl⟩

/-- Switching tasks. -/
theorem switched (world : WorldOf EitherSpace ∅ g s) {left kept : List TaskView} (switched : Switched left kept g s g' s')
    (stays : ∀ v ∈ g.tasks, ¬ gone v.addr → v ∈ kept) : KeepsGrants gone g s g' s' where
  grants _ grants := world.grants_effect grants switched.effect (by simp [freed, labels]) switched.kdir
  lost q here := (switched.frees.others q fun v _ => by simp [here, labels]).trans here
  tasks v member alive := by
    obtain ⟨w, inside, core⟩ := List.mem_map.mp (switched.tasks ▸ List.mem_map_of_mem (stays v member alive))
    have fields := TaskView.core_fields core
    exact ⟨w, inside, fields.1, fields.2.2.2.2.2.1⟩

/-- `task_destroy`. -/
theorem destroyed (valid : ValidOf EitherSpace g s) (destroyed : Destroyed v g s g' s') :
    KeepsGrants (v.addr = ·) g s g' s' where
  grants _ grants := valid.world.grants_effect grants destroyed.effect (by simp [freed, labels])
    (by rw [destroyed.same.kdir]; rfl)
  lost q here := (destroyed.frees.others q fun v _ => by simp [here, labels]).trans here
  tasks w member other := by
    refine ⟨w, ?_, rfl, rfl⟩
    rw [destroyed.same.tasks]
    exact (List.mem_erase_of_ne fun same => other (by rw [same])).mpr member

/-- A page that is taken. -/
theorem take (world : WorldOf EitherSpace ∅ g s) (failed : ExecFailed g s g' s') : KeepsGrants (fun _ => False) g s g' s' where
  grants _ grants := by
    rw [failed.same.kdir]
    refine grants.congr (world.kernel.leafAt_congr world.heap.pool fun x here => failed.bytes x ?_ ?_)
    · simp [here]
    · exact world.heap.pool.not_head (by simp [here])
  lost q here := by
    rcases failed.owner q with same | ⟨isFree, _⟩
    · rw [same, here]
    · simp [here] at isFree
  tasks v member _ := ⟨v, failed.same.tasks ▸ member, rfl, rfl⟩

omit [Layout] in
/-- An operation frees what it frees. -/
theorem mono {gone' : Nat → Prop} (keeps : KeepsGrants gone g s g' s') (fewer : ∀ t, gone t → gone' t) : KeepsGrants gone' g s g' s' :=
  { keeps with tasks := fun v member stays => keeps.tasks v member fun here => stays (fewer _ here) }

/-- Every operation of the kernel that does not look into an address space. -/
theorem of_outcome (valid : ValidOf EitherSpace g s) {op : Op} (plain : op.Plain) (outcome : op.OutcomeOf EitherSpace g s r g' s') :
    KeepsGrants (op.FreesTask s) g s g' s' := by
  cases op with
  | fork => exact plain.elim
  | exec filename => exact plain.elim
  | user mem uart => exact plain.elim
  | createUser start stop entry =>
      obtain ⟨g₁, s₁, reaping, ⟨_, aborted⟩ | ⟨_, v, pages, _, created⟩⟩ := outcome
      · exact (reaped valid reaping).trans (.aborted reaping.world aborted)
      · exact (reaped valid reaping).trans (.born reaping.world created.born)
  | schedule => exact switched valid.world outcome fun v member stays => valid.survives member stays
  | exit code => exact switched valid.world outcome fun v member _ => member
  | reap => exact reaped valid outcome
  | destroy task =>
      obtain ⟨v, _, rfl, outcome⟩ := outcome
      exact destroyed valid outcome
  | take => exact (take valid.world outcome).mono fun _ => False.elim

end KeepsGrants

/-- What every state of a run holds in which no task of `task_create` is freed. -/
structure Granting (made taken : Set Nat) (granted : UserMap) (g : World) (s : Kernel) : Prop where
  valid : ValidOf EitherSpace g s
  grants : Grants g.kdir granted s.mem
  granted : ∀ n p, granted n = some p → ∃ v ∈ g.tasks, v.addr ∈ made ∧ v.userStack = p
  lost : ∀ p ∈ taken, g.own p = .lost

namespace Granting

/-- What user code reaches through the kernel's table is the stacks of the tasks that
`task_create` has made. -/
theorem userLeaf (inv : Granting made taken granted g s) {vpn page : Nat} (below : vpn < 2 ^ 27) :
    UserLeaf s.mem s.kernelPagetable vpn page ↔ granted vpn = some page := by
  have world := inv.valid.world
  refine KuroOS.userLeaf world.kernel world.heap.pool inv.grants.leaves (fun n p found => ?_) below
  obtain ⟨v, member, _, rfl⟩ := inv.granted n p found
  exact world.heap.pool.pages _ (by simp [((world.space v member).ustack _).mpr rfl])

/-- `vm_init` leaves no task and no grant. -/
theorem start (started : Started g s) : Granting ∅ ∅ (fun _ => none) g s where
  valid := { started.valid with world := { started.valid.world with space := by simp [started.tasks] } }
  grants := ⟨started.leaves, by simp⟩
  granted := by simp
  lost := by simp

/-- The grants of tasks that stay are for their stacks. -/
theorem keep (inv : Granting made taken granted g s) (valid' : ValidOf EitherSpace g' s') {more given : Set Nat}
    (keeps : KeepsGrants gone g s g' s') (stays : ∀ t ∈ made, ¬ gone t) (lost : ∀ p ∈ given, g'.own p = .lost) :
    Granting (made ∪ more) (taken ∪ given) granted g' s' where
  valid := valid'
  grants := keeps.grants _ inv.grants
  granted n p found := by
    obtain ⟨v, member, isMade, rfl⟩ := inv.granted n p found
    obtain ⟨w, inside, addr, stack⟩ := keeps.tasks v member (stays _ isMade)
    exact ⟨w, inside, .inl (addr ▸ isMade), stack⟩
  lost p inside := inside.elim (fun old => keeps.lost p (inv.lost p old)) (lost p)

/-- `task_create`. -/
theorem create (inv : Granting made taken granted g s) {entry : UInt64} (stays : ∀ t ∈ made, ¬ Reapable s t)
    (returned : taskCreate entry.toNat s = .ok r s') :
    ∃ granted' g', Granting (made ∪ {t | t = r ∧ r ≠ 0}) (taken ∪ ∅) granted' g' s' ∧
      (r ≠ 0 → ∃ v ∈ g'.tasks, v.addr = r ∧ v.state = .ready ∧ v.userSp = v.userStack + pageSize ∧
        granted' (v.userStack / 4096) = some v.userStack) := by
  have valid := inv.valid
  obtain ⟨g₁, s₁, g', s₂, g₂, reaping, world', world₂, aborted, outcome⟩ :=
    wp_returned (valid.world.taskCreate_spec valid.unqueued valid.pid inv.grants entry.toNat_lt) returned
  have valid₂ := (valid.reaping reaping).aborted world₂ aborted
  have keeps₂ := (KeepsGrants.reaped valid reaping).trans (.aborted reaping.world aborted)
  rcases outcome with ⟨rfl, rfl, rfl, _⟩ | ⟨nonzero, v, rfl, made'⟩
  · exact ⟨granted, g', inv.keep valid₂ keeps₂ stays (by simp), fun nonzero => absurd rfl nonzero⟩
  obtain ⟨mem, granting, born⟩ := made'.born
  have valid₃ : ValidOf EitherSpace g₂ { s₂ with mem } := valid₂.same_tasks granting (.refl _) rfl rfl rfl rfl
  have inside : v ∈ g'.tasks := by
    rw [born.tasks]
    simp
  refine ⟨granted.add (v.userStack / 4096) v.userStack, g', ⟨valid₃.born world' born made'.ready, made'.grants,
    fun n p found => ?_, fun p isTaken => ?_⟩, fun _ => ⟨v, inside, rfl, made'.ready, made'.userSp, Function.update_self ..⟩⟩
  · by_cases same : n = v.userStack / 4096
    · rw [same, UserMap.add, Function.update_self] at found
      exact ⟨v, inside, .inr ⟨rfl, nonzero⟩, by simpa using found⟩
    · rw [UserMap.add, Function.update_of_ne same] at found
      obtain ⟨u, member, isMade, rfl⟩ := inv.granted n p found
      obtain ⟨w, inside, addr, stack⟩ := keeps₂.tasks u member (stays _ isMade)
      refine ⟨w, ?_, .inl (addr ▸ isMade), stack⟩
      rw [born.tasks]
      exact List.mem_append_left _ inside
  · rw [Set.union_empty] at isTaken
    exact (KeepsGrants.born granting born).lost p (keeps₂.lost p (inv.lost p isTaken))

end Granting

/-- `task_destroy` returns for a task that has not exited only if the task is ready. -/
theorem ValidOf.destroy_called (valid : ValidOf EitherSpace g s) {task : Nat} (onList : OnAllTasks s task)
    (alive : stateOf s task ≠ TaskState.zombie.code) (returned : taskDestroy task s = .ok () s') : (Op.destroy task).Called s := by
  obtain ⟨v, member, rfl⟩ := valid.onAllTasks.mp onList
  have view := (valid.world.view v member).state
  refine ⟨onList, ?_⟩
  rw [stateOf, view] at alive
  rw [view]
  rcases valid.sched.books.states v member with ready | running | zombie
  · rw [ready]
  · have current := (valid.sched.books.running v member).mp running
    have stops : wp (taskDestroy v.addr) s (fun _ _ => False) fun _ _ => True := by
      unfold taskDestroy
      rw [wp_bind, wp_kassert]
      split
      · rw [wp_bind, wp_get, wp_bind, wp_kassert, if_neg (not_not.mpr current)]
        trivial
      · trivial
    exact (wp_returned stops returned).elim
  · exact absurd (by rw [zombie]) alive

/-- Every operation that frees no task of `task_create` keeps the grants in order. -/
theorem Granting.step (inv : Granting made taken granted g s) {op : StackOp} (called : op.Called s)
    (stays : ∀ t ∈ made, ¬ op.FreesTask s t) (steps : op.Steps s r s') :
    ∃ granted' g', Granting (made ∪ op.made r) (taken ∪ op.taken r) granted' g' s' := by
  cases op with
  | create entry =>
      obtain ⟨granted', g', inv', _⟩ := inv.create stays steps
      exact ⟨granted', g', inv'⟩
  | kernel op =>
      have rules : op.Plain ∧ op.Called s := by
        cases op with
        | destroy task => exact ⟨trivial, inv.valid.destroy_called called.1 called.2 steps⟩
        | fork | exec | user => exact called.elim
        | createUser | schedule | exit | reap | take => exact ⟨trivial, trivial⟩
      cases op with
      | take =>
          obtain ⟨g', valid', outcome, isLost⟩ := wp_returned inv.valid.take_step steps
          exact ⟨granted, g', inv.keep valid' (KeepsGrants.take inv.valid.world outcome) (fun _ _ => not_false) fun p given =>
            given.1 ▸ isLost given.2⟩
      | createUser | fork | schedule | exit | reap | exec | destroy | user =>
          obtain ⟨g', valid', outcome⟩ := inv.valid.step_plain rules.1 rules.2 steps
          exact ⟨granted, g', inv.keep valid' (KeepsGrants.of_outcome (r := r) inv.valid rules.1 outcome) stays (by simp [StackOp.taken])⟩

/-- `task_destroy` leaves the grant for the stack that it frees. -/
theorem Granting.destroy (inv : Granting made taken granted g s) (member : v ∈ g.tasks) (ready : v.state = .ready)
    (isGranted : granted (v.userStack / 4096) = some v.userStack) {halt : Halt → Kernel → Prop} :
    wp (taskDestroy v.addr) s (fun _ s' => UserLeaf s'.mem s'.kernelPagetable (v.userStack / 4096) v.userStack ∧
      v.userStack ∈ freePages s') halt := by
  refine wp_mono (inv.valid.destroy_step member ready 0) ?_ fun _ _ => id
  rintro _ s' ⟨g', valid', w, inside, same, destroyed⟩
  obtain rfl := inv.valid.world.eq_of_addr inside member same
  have isStack : g.own w.userStack = .ustack w.addr := ((inv.valid.world.space w member).ustack _).mpr rfl
  have pages : ∀ n p, granted n = some p → PoolPage p := fun n p found => by
    obtain ⟨u, old, _, rfl⟩ := inv.granted n p found
    exact inv.valid.world.heap.pool.pages _ (by simp [((inv.valid.world.space u old).ustack _).mpr rfl])
  have bounds := (pages _ _ isGranted).bounds
  have grants := (KeepsGrants.destroyed inv.valid destroyed).grants granted inv.grants
  refine ⟨(KuroOS.userLeaf valid'.world.kernel valid'.world.heap.pool grants.leaves pages (by omega)).mpr isGranted, ?_⟩
  rw [valid'.world.heap.pool.mem_freePages]
  exact destroyed.frees.rest w (by simp) _ (by simp [isStack, labels]) (by simp [isStack])

end

section

attribute [local instance] Layout.sample

end

end KuroOS
