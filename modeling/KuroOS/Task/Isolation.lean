import KuroOS.Task.Run

/-!
# Address spaces

In every state of a run, the address spaces of the tasks share the kernel's
mappings and nothing else, and no page that one of them uses is free.
-/

namespace KuroOS

open Base

section

variable [Layout]

/-- A page of the allocator that is not on its free list. -/
def Allocated (s : Kernel) (page : Nat) : Prop := PoolPage page ∧ page ∉ freePages s

/-- What the address space of a task is to the others. -/
structure Isolated (s : Kernel) (tasks : List Nat) (t : Nat) : Prop where
  /-- the kernel and the UART are mapped to themselves, without `PTE_U` -/
  kernel : KernelMapped s.mem (pagetableOf s t)
  /-- a user leaf points at an allocated page that has no other use -/
  user : ∀ vpn < 2 ^ 27, ∀ page, UserLeaf s.mem (pagetableOf s t) vpn page → Allocated s page ∧ ¬ HeapPage s page ∧
    ¬ TablePage s.mem s.kernelPagetable page ∧
    ∀ t' ∈ tasks, ¬ TablePage s.mem (pagetableOf s t') page ∧ page ≠ kernelStackOf s t'
  /-- and that no other user leaf points at -/
  single : ∀ vpn < 2 ^ 27, ∀ page, UserLeaf s.mem (pagetableOf s t) vpn page → ∀ t' ∈ tasks, ∀ vpn' < 2 ^ 27,
    UserLeaf s.mem (pagetableOf s t') vpn' page → t' = t ∧ vpn' = vpn
  /-- the tables and the kernel stack are allocated, and no other task's -/
  own : ∀ page, TablePage s.mem (pagetableOf s t) page ∨ page = kernelStackOf s t → Allocated s page ∧
    ∀ t' ∈ tasks, t' ≠ t → ¬ TablePage s.mem (pagetableOf s t') page ∧ page ≠ kernelStackOf s t' ∧
      page ≠ userStackOf s t' ∧ ∀ vpn < 2 ^ 27, ¬ UserLeaf s.mem (pagetableOf s t') vpn page

namespace ValidOf

variable {g : World} {s : Kernel} {v : TaskView} {page : Nat}

/-- A page that has an owner, and is not free. -/
theorem allocated (valid : Valid g s) {o : Owner} (here : g.own page = o) (owned : o ≠ .outside) (used : o ≠ .free) :
    Allocated s page := by
  subst here
  exact ⟨valid.world.heap.pool.pages page owned, fun isFree => used (valid.world.heap.pool.mem_freePages.mp isFree)⟩

/-- What a task's user leaves, tables and stacks say about the owner of a page. -/
theorem owner (valid : Valid g s) (page : Nat) (member : v ∈ g.tasks) :
    (∀ vpn < 2 ^ 27, UserLeaf s.mem v.pagetable vpn page →
      g.own page = .data (.task v.addr) ∨ g.own page = .ustack v.addr) ∧
    (TablePage s.mem v.pagetable page → g.own page = .table (.task v.addr)) ∧
    (page = v.kernelStack → g.own page = .kstack v.addr) ∧ (page = v.userStack → g.own page = .ustack v.addr) := by
  have space := valid.world.space v member
  exact ⟨fun vpn below leaf => space.mapped vpn page ((valid.userLeaf member below).mp leaf),
    (valid.tablePage member).mp, (space.kstack page).mpr, (space.ustack page).mpr⟩

/-- The address spaces of a state between operations. -/
theorem isolated (valid : Valid g s) (member : v ∈ g.tasks) : Isolated s (g.tasks.map TaskView.addr) v.addr := by
  have pool := valid.world.heap.pool
  have roots : ∀ w ∈ g.tasks, pagetableOf s w.addr = w.pagetable ∧ kernelStackOf s w.addr = w.kernelStack ∧
      userStackOf s w.addr = w.userStack := fun w inside =>
    ⟨(valid.world.view w inside).pagetable, (valid.world.view w inside).kernelStack, (valid.world.view w inside).userStack⟩
  obtain ⟨root, kstack, _⟩ := roots v member
  have userOwner : ∀ vpn < 2 ^ 27, ∀ page, UserLeaf s.mem v.pagetable vpn page →
      g.own page = .data (.task v.addr) ∨ g.own page = .ustack v.addr := fun vpn below page =>
    (valid.owner page member).1 vpn below
  refine ⟨?_, fun vpn below page leaf => ?_, fun vpn below page leaf t' inside vpn' below' leaf' => ?_, fun page used => ?_⟩
  · rw [root]
    exact valid.kernelMapped member
  · rw [root] at leaf
    have here := userOwner vpn below page leaf
    have allocated : Allocated s page := by
      rcases here with here | here
      · exact valid.allocated here (by simp) (by simp)
      · exact valid.allocated here (by simp) (by simp)
    refine ⟨allocated, fun inHeap => ?_, fun isTable => ?_, fun t' inside => ?_⟩
    · rw [valid.world.heap.heapPage allocated.1.bounds.1] at inHeap
      rcases here with here | here <;> simp [here] at inHeap
    · rw [valid.world.kernel.tablePage pool] at isTable
      rcases here with here | here <;> simp [here] at isTable
    · obtain ⟨w, old, rfl⟩ := List.mem_map.mp inside
      obtain ⟨root', kstack', _⟩ := roots w old
      obtain ⟨_, table', stack', _⟩ := valid.owner page old
      rw [root', kstack']
      refine ⟨fun isTable => ?_, fun isStack => ?_⟩
      · have := table' isTable
        rcases here with here | here <;> simp [here] at this
      · have := stack' isStack
        rcases here with here | here <;> simp [here] at this
  · obtain ⟨w, old, rfl⟩ := List.mem_map.mp inside
    rw [root] at leaf
    rw [(roots w old).1] at leaf'
    have here := userOwner vpn below page leaf
    have here' := (valid.owner page old).1 vpn' below' leaf'
    have same : w.addr = v.addr := by
      rcases here with here | here <;> rcases here' with here' | here' <;> simpa [here] using here'.symm
    obtain rfl := valid.world.eq_of_addr old member same
    exact ⟨rfl, (valid.world.space w member).inj _ _ page ((valid.userLeaf member below').mp leaf')
      ((valid.userLeaf member below).mp leaf)⟩
  · rw [root, kstack] at used
    have here : g.own page = .table (.task v.addr) ∨ g.own page = .kstack v.addr :=
      used.imp (valid.owner page member).2.1 (valid.owner page member).2.2.1
    have allocated : Allocated s page := by
      rcases here with here | here
      · exact valid.allocated here (by simp) (by simp)
      · exact valid.allocated here (by simp) (by simp)
    refine ⟨allocated, fun t' inside other => ?_⟩
    obtain ⟨w, old, rfl⟩ := List.mem_map.mp inside
    obtain ⟨root', kstack', ustack'⟩ := roots w old
    obtain ⟨user', table', stack', userStack'⟩ := valid.owner page old
    rw [root', kstack', ustack']
    refine ⟨fun isTable => ?_, fun isStack => ?_, fun isStack => ?_, fun vpn below leaf => ?_⟩
    · have := table' isTable
      rcases here with here | here <;> simp [here, other.symm] at this
    · have := stack' isStack
      rcases here with here | here <;> simp [here, other.symm] at this
    · have := userStack' isStack
      rcases here with here | here <;> simp [here] at this
    · have := user' vpn below leaf
      rcases here with here | here <;> simp [here] at this

end ValidOf

/-- At every point of every run, the address spaces of the tasks are isolated. -/
theorem address_spaces_isolated {n : Nat} {s : Kernel} (run : Reachable n s) :
    ∃ tasks, AllTasks s tasks ∧ ∀ t ∈ tasks, Isolated s tasks t := by
  obtain ⟨g, valid, _⟩ := run.valid
  refine ⟨_, valid.allTasks, fun t member => ?_⟩
  obtain ⟨v, inside, rfl⟩ := List.mem_map.mp member
  exact valid.isolated inside

end

section

attribute [local instance] Layout.sample

/-- The address spaces of a machine in user mode. -/
theorem address_spaces_isolated_sample : ∃ s tasks, Reachable 0 s ∧ AllTasks s tasks ∧ ∀ t ∈ tasks, Isolated s tasks t := by
  obtain ⟨s, _, run, _⟩ := reachable_sample
  obtain ⟨tasks, isTasks, isolated⟩ := address_spaces_isolated run
  exact ⟨s, tasks, run, isTasks, isolated⟩

end

end KuroOS
