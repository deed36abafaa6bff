import KuroOS.Task.ForkReturn
import KuroOS.Task.Isolation

/-!
# What user code can reach

In user mode the hart translates every address by the tables of the running task. What
it arrives at is a byte of an allocated page that the kernel uses for nothing else, and
that no other task arrives at, nor the same task from elsewhere.
-/

namespace KuroOS

open Base Base.Riscv

section

variable [Layout]

/-- User code of a task gets at a byte of memory. -/
def Reaches (s : Kernel) (task va x : Nat) : Prop := ∃ access, sv39User s.mem (pagetableOf s task) va access = some x

/-- A page that the kernel does not use: neither for its heap or its tables nor, of any of the
tasks, for tables or for kernel stacks. -/
structure NoKernelPage (s : Kernel) (tasks : List Nat) (page : Nat) : Prop where
  allocated : Allocated s page
  heap : ¬ HeapPage s page
  kernelTable : ¬ TablePage s.mem s.kernelPagetable page
  tables : ∀ t ∈ tasks, ¬ TablePage s.mem (pagetableOf s t) page
  stack : ∀ t ∈ tasks, page ≠ kernelStackOf s t

variable {g : World} {h : Hart} {s : Kernel} {v w : TaskView} {va va' x : Nat} {access : Access}

namespace ValidOf

/-- The byte of a user page that an address names. -/
theorem reach_page (valid : Valid g s) (member : v ∈ g.tasks) (reached : sv39User s.mem (pagetableOf s v.addr) va access = some x) :
    ∃ page, g.user v.addr (sv39Vpn va) = some page ∧ x = page + va % 4096 := by
  have space := valid.world.space v member
  have pool := valid.world.heap.pool
  rw [show pagetableOf s v.addr = v.pagetable from (valid.world.view v member).pagetable] at reached
  obtain ⟨page, found, _⟩ := SpaceState.sv39User space.leaves space.tables pool (fun _ _ found => valid.userPage member found) reached
  refine ⟨page, found, ?_⟩
  have entry : spaceEntry (g.user v.addr) (sv39Vpn va) = mkPte page userFlags := by simp [spaceEntry, found]
  have isUser : mkPte page userFlags &&& pteU ≠ 0 := by
    rw [mkPte_and (by decide) (by decide)]
    decide
  unfold sv39User sv39 at reached
  rw [show sv39Levels - 1 = 2 from rfl, space.tables.sv39Entry pool, space.tables.sv39From pool, space.leaves, entry, if_pos isUser] at reached
  split at reached
  · rw [if_pos (userPte_grants page access), pteToPa_user (valid.userPage member found), Option.some.injEq] at reached
    exact reached.symm
  · simp at reached

/-- Only one address of one task leads to a byte. -/
theorem reach_unique (valid : Valid g s) (member : v ∈ g.tasks) (inside : w ∈ g.tasks) (reach : Reaches s v.addr va x)
    (reach' : Reaches s w.addr va' x) : w.addr = v.addr ∧ va' % 2 ^ 39 = va % 2 ^ 39 := by
  obtain ⟨_, reached⟩ := reach
  obtain ⟨_, reached'⟩ := reach'
  obtain ⟨page, found, isX⟩ := valid.reach_page member reached
  obtain ⟨page', found', isX'⟩ := valid.reach_page inside reached'
  have aligned := (valid.userPage member found).bounds.1
  have aligned' := (valid.userPage inside found').bounds.1
  have low := Nat.mod_lt va (show 0 < 4096 by decide)
  have low' := Nat.mod_lt va' (show 0 < 4096 by decide)
  obtain rfl : page' = page := by omega
  have below : ∀ a, sv39Vpn a < 2 ^ 27 := fun a => Nat.mod_lt _ (by decide)
  have leaf := (valid.leaf_of_user member (below va) found).1
  have leaf' := (valid.leaf_of_user inside (below va') found').1
  obtain ⟨sameTask, sameVpn⟩ := (valid.isolated member).single _ (below va) _ leaf _ (List.mem_map_of_mem inside) _ (below va') leaf'
  refine ⟨sameTask, ?_⟩
  unfold sv39Vpn at sameVpn
  omega

/-- What a task reaches is no kernel page. -/
theorem reach_noKernelPage (valid : Valid g s) (member : v ∈ g.tasks) (reach : Reaches s v.addr va x) :
    NoKernelPage s (g.tasks.map TaskView.addr) (pageOf x) := by
  obtain ⟨_, reached⟩ := reach
  obtain ⟨page, found, isX⟩ := valid.reach_page member reached
  have isPage : pageOf x = page := by
    rw [isX]
    exact (valid.userPage member found).pageOf_add (Nat.mod_lt _ (by decide))
  have below : sv39Vpn va < 2 ^ 27 := Nat.mod_lt _ (by decide)
  obtain ⟨allocated, heap, kernelTable, others⟩ := (valid.isolated member).user _ below _ (valid.leaf_of_user member below found).1
  rw [isPage]
  exact ⟨allocated, heap, kernelTable, fun t inside => (others t inside).1, fun t inside => (others t inside).2⟩

end ValidOf

/-- In user mode the running task's own table is active. Whatever any task reaches is no page of
the kernel, and no byte is reached by two tasks, or from two addresses of one. -/
theorem user_reach_private (run : MachineRun h s) : s.satpRoot = pagetableOf s s.current ∧ ∃ tasks, AllTasks s tasks ∧ s.current ∈ tasks ∧
    ∀ t ∈ tasks, ∀ va x, Reaches s t va x → NoKernelPage s tasks (pageOf x) ∧
      ∀ t' ∈ tasks, ∀ va', Reaches s t' va' x → t' = t ∧ va' % 2 ^ 39 = va % 2 ^ 39 := by
  obtain ⟨g, mode⟩ := run.inUserMode
  have valid := mode.valid
  obtain ⟨p, member, current, _⟩ := valid.running mode.busy
  have root : s.satpRoot = pagetableOf s s.current := by
    rw [valid.root p member current, ← current]
    exact (valid.world.view p member).pagetable.symm
  refine ⟨root, _, valid.allTasks, current ▸ List.mem_map_of_mem member, fun t isTask va x reach => ?_⟩
  obtain ⟨v, known, rfl⟩ := List.mem_map.mp isTask
  refine ⟨valid.reach_noKernelPage known reach, fun t' isTask' va' reach' => ?_⟩
  obtain ⟨w, known', rfl⟩ := List.mem_map.mp isTask'
  exact valid.reach_unique known known' reach reach'

end

section

attribute [local instance] Layout.sample

/-- The machine that has entered user mode. -/
theorem user_reach_private_sample : ∃ h s, MachineRun h s ∧ s.satpRoot = pagetableOf s s.current := by
  obtain ⟨h, s, _, run, _⟩ := machineRun_sample
  exact ⟨h, s, run, (user_reach_private run).1⟩

end

end KuroOS
