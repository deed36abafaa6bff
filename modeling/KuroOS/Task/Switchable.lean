import KuroOS.Task.NewImage
import KuroOS.Task.StaleGrant

/-!
# What the scheduler relies on

`task_set_current` writes the root of a task's tables to `satp` and goes on, in kernel
code and on a kernel stack that these tables have to map. `task_create_user`,
`task_fork` and `sys_exec` start from `vm_map_kernel`. `task_create` takes an empty
page table.
-/

namespace KuroOS

open Base

section

variable [Layout]

/-- When an operation is called, `sys_exec`, `fork` and user code included. -/
def StackOp.Offered (s : Kernel) : StackOp → Prop
  | .create _ => True
  | .kernel op => op.Called s

/-- An operation is `task_create`. -/
def StackOp.IsCreate : StackOp → Prop
  | .create _ => True
  | .kernel _ => False

/-- The states that operations lead to, from `vm_init` or `user_init` on. -/
inductive TaskRun (allowed : Kernel → StackOp → Prop) : Kernel → Prop
  | start {s : Kernel} (starts : AfterVmInit s ∨ AfterUserInit s) : TaskRun allowed s
  | step {s s' : Kernel} {op : StackOp} {r : Nat} (before : TaskRun allowed s) (called : allowed s op)
      (steps : op.Steps s r s') : TaskRun allowed s'

variable {g : World} {s : Kernel} {v : TaskView}

/-- Without `task_create` the operations are those of address spaces. -/
theorem TaskRun.between (run : TaskRun (fun s op => op.Offered s ∧ ¬ op.IsCreate) s) : ∃ n, Between n s := by
  induction run with
  | start starts => exact ⟨0, .start starts⟩
  | @step s s' op r before called steps ih =>
      obtain ⟨n, run⟩ := ih
      cases op with
      | create entry => exact absurd trivial called.2
      | kernel op => exact ⟨n + op.creations r, .step run called.1 steps⟩

/-- A task whose stack pointer is in RAM has not been given an address space. -/
theorem EitherSpace.plain {own : Nat → Owner} {mem : Mem} {dir : Directory} {user : UserMap}
    (space : EitherSpace own mem dir user v) (page : PoolPage v.userStack) (userSp : v.userSp = v.userStack + pageSize) :
    PlainSpace own mem dir v := by
  rcases space with space | space
  · have top := space.userSp
    have bounds := page.bounds
    simp only [userStackTop] at top
    omega
  · exact space

end

section

attribute [local instance] Layout.sample

end

end KuroOS
