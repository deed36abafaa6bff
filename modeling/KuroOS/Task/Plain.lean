import KuroOS.Task.Run

/-!
# Tasks that `task_create` makes

Such a task has an empty page table. User code is to reach its stack through the
kernel's own table, where `vm_allow_user_identity` sets `PTE_U` on the page. In a
world of `EitherSpace` these tasks stand beside those of `task_create_user`.
-/

namespace KuroOS

open Base

/-- The tables and pages of a task that `task_create` has made. -/
structure PlainSpace (own : Nat → Owner) (mem : Mem) (dir : Directory) (v : TaskView) : Prop where
  tables : SpaceTables own mem (.task v.addr) v.pagetable dir
  leaves : ∀ n, dir.leafAt mem n = 0
  kstack : ∀ q, own q = .kstack v.addr ↔ q = v.kernelStack
  ustack : ∀ q, own q = .ustack v.addr ↔ q = v.userStack
  kernelSp : v.kernelSp = v.kernelStack + pageSize
  tf : v.tf + trapFrameSize = v.kernelStack + pageSize
  imageSize : v.imageSize = 0

/-- The space of a task of either kind. -/
def EitherSpace : SpaceKind := fun own mem dir user v => TaskSpace own mem dir user v ∨ PlainSpace own mem dir v

variable {own own' own₁ : Nat → Owner} {mem : Mem} {dir : Directory} {user : UserMap} {v : TaskView}

theorem EitherSpace.ustack (space : EitherSpace own mem dir user v) (q : Nat) : own q = .ustack v.addr ↔ q = v.userStack := by
  rcases space with space | space
  · exact space.ustack q
  · exact space.ustack q

variable [Layout] {free free₁ : List Nat} {s s₁ : Kernel} {halt : Halt → Kernel → Prop}

namespace PlainSpace

/-- Such a space depends on the task's own pages only. -/
theorem congr {mem' : Mem} (space : PlainSpace own s.mem dir v) (pool : Pool own free s)
    (owner : ∀ o ∈ labels v.addr, ∀ q, own' q = o ↔ own q = o)
    (same : ∀ x, own (pageOf x) = .table (.task v.addr) → mem' x = s.mem x) : PlainSpace own' mem' dir v where
  tables := space.tables.congr pool (owner _ (by simp [labels])) same
  leaves n := (space.tables.leafAt_congr pool same n).trans (space.leaves n)
  kstack q := (owner _ (by simp [labels]) q).trans (space.kstack q)
  ustack q := (owner _ (by simp [labels]) q).trans (space.ustack q)
  kernelSp := space.kernelSp
  tf := space.tf
  imageSize := space.imageSize

/-- There is no image to give back. -/
theorem freeImage_spec (space : PlainSpace own s.mem dir v) (pool : Pool own free s)
    (stack : Releases {.free} {v.userStack} own s own₁ s₁) (pool₁ : Pool own₁ free₁ s₁) (view : TaskAt s₁.mem v) :
    wp (taskFreeImage v.addr) s₁ (fun _ s' => ∃ own' free', Pool own' free' s' ∧
      SpaceTables own' s'.mem (.task v.addr) v.pagetable dir ∧
      Releases {.free, .table (.task v.addr)}
        ({v.userStack} ∪ {q | own q = .data (.task v.addr) ∧ v.imageSize ≠ 0}) own s own' s') halt := by
  have isStack : own v.userStack = .ustack v.addr := (space.ustack _).mpr rfl
  have none : {q | own q = .data (.task v.addr) ∧ v.imageSize ≠ 0} = (∅ : Set Nat) := by
    simp [space.imageSize]
  unfold taskFreeImage
  simp only [wp_bind, wp_loadWord, view.pagetable, view.imageSize, wp_ite, wp_pure]
  rw [if_neg (by simp [space.imageSize]), none, Set.union_empty]
  refine ⟨own₁, free₁, pool₁, space.tables.congr pool (fun q => ?_) fun x here => ?_, stack.mono (by simp)⟩
  · by_cases gone : q = v.userStack
    · rw [gone, (stack.owner _).1 rfl, isStack]
      simp
    · rw [(stack.owner q).2 gone]
  · refine stack.bytes x (by simp [here]) (fun gone => ?_) (pool.not_head (by simp [here]))
    rw [Set.mem_singleton_iff.mp gone, isStack] at here
    simp at here

end PlainSpace

instance : FreeSpaces EitherSpace where
  congr space pool owner same := space.imp (fun space => space.congr pool owner same) fun space => space.congr pool owner same
  change _ _ space := space.imp (fun space => { space with }) fun space => { space with }
  tables space := space.elim (fun space => space.tables) fun space => space.tables
  kstack space := space.elim (fun space => space.kstack) fun space => space.kstack
  tf space := space.elim (fun space => space.tf) fun space => space.tf
  kernelSp space := space.elim (fun space => space.kernelSp) fun space => space.kernelSp
  ofTask := .inl
  free_spec space pool view inHeap rest := by
    rcases space with space | space
    · exact space.free_spec pool view inHeap rest
    · exact taskFree_image space.kstack space.ustack pool view inHeap
        (fun _ _ _ stack pool₁ view₁ => space.freeImage_spec pool stack pool₁ view₁) rest

end KuroOS
