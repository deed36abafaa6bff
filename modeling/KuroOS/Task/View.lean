import KuroOS.Base.Record
import KuroOS.Kernel.Task

/-!
# Task structures in memory

A `TaskView` is the contents of a task structure, and `TaskAt` says that memory
holds it. The two list nodes at the end of the structure are not part of it:
they belong to the rings that they are members of.
-/

namespace KuroOS

open Base

/-- The contents of a task structure. -/
structure TaskView where
  addr : Nat
  pid : Nat
  state : TaskState
  tf : Nat
  kernelSp : Nat
  userSp : Nat
  entry : Nat
  kernelStack : Nat
  userStack : Nat
  stackSize : Nat
  imageSize : Nat
  exitCode : Nat
  pagetable : Nat
deriving DecidableEq, Repr

namespace TaskView

/-- The node of a task on `all_tasks`. -/
def taskNode (v : TaskView) : Nat := v.addr + Task.taskNode

/-- The fields of the structure. -/
def fields (v : TaskView) : List Field :=
  [⟨Task.pid, 8, v.pid⟩, ⟨Task.state, 4, v.state.code⟩, ⟨Task.tf, 8, v.tf⟩,
   ⟨Task.kernelSp, 8, v.kernelSp⟩, ⟨Task.userSp, 8, v.userSp⟩, ⟨Task.entry, 8, v.entry⟩,
   ⟨Task.kernelStackBase, 8, v.kernelStack⟩, ⟨Task.userStackBase, 8, v.userStack⟩,
   ⟨Task.stackSize, 8, v.stackSize⟩, ⟨Task.userImageSize, 8, v.imageSize⟩,
   ⟨Task.exitCode, 8, v.exitCode⟩, ⟨Task.pagetable, 8, v.pagetable⟩]

end TaskView

/-- The node of a task on `run_queue`. -/
def runNode (task : Nat) : Nat := task + Task.runNode

/-- Memory holds a task structure. -/
def TaskAt (mem : Mem) (v : TaskView) : Prop := FieldsAt mem v.addr v.fields

theorem TaskState.code_lt (state : TaskState) : state.code < 256 ^ 4 := by
  cases state <;> decide

theorem TaskState.code_inj {state state' : TaskState} (equal : state.code = state'.code) :
    state = state' := by
  cases state <;> cases state' <;> simp_all [TaskState.code]

@[simp] theorem wp_loadState {post : Nat → Kernel → Prop} {halt : Halt → Kernel → Prop} {s : Kernel}
    {task : Nat} : wp (loadState task) s post halt ↔ post (s.mem.load (task + Task.state) 4) s := by
  simp only [loadState, wp_bind, wp_get, wp_pure]

@[simp] theorem wp_storeState {post : Unit → Kernel → Prop} {halt : Halt → Kernel → Prop} {s : Kernel}
    {task : Nat} {value : TaskState} : wp (storeState task value) s post halt ↔
      post () { s with mem := s.mem.store (task + Task.state) 4 value.code } := by
  simp only [storeState, wp_modifyMem]

namespace TaskAt

variable {mem mem' : Mem} {v : TaskView}

/-- A task structure depends on its bytes before the list nodes. -/
theorem congr (holds : TaskAt mem v) (same : ∀ x, v.addr ≤ x → x < v.addr + 96 → mem' x = mem x) :
    TaskAt mem' v :=
  FieldsAt.congr holds (by simp [TaskView.fields]) same

theorem pid (holds : TaskAt mem v) : mem.load (v.addr + Task.pid) 8 = v.pid :=
  holds ⟨Task.pid, 8, v.pid⟩ (by simp [TaskView.fields])

theorem state (holds : TaskAt mem v) : mem.load (v.addr + Task.state) 4 = v.state.code :=
  holds ⟨Task.state, 4, v.state.code⟩ (by simp [TaskView.fields])

theorem tf (holds : TaskAt mem v) : mem.load (v.addr + Task.tf) 8 = v.tf :=
  holds ⟨Task.tf, 8, v.tf⟩ (by simp [TaskView.fields])

theorem kernelSp (holds : TaskAt mem v) : mem.load (v.addr + Task.kernelSp) 8 = v.kernelSp :=
  holds ⟨Task.kernelSp, 8, v.kernelSp⟩ (by simp [TaskView.fields])

theorem userSp (holds : TaskAt mem v) : mem.load (v.addr + Task.userSp) 8 = v.userSp :=
  holds ⟨Task.userSp, 8, v.userSp⟩ (by simp [TaskView.fields])

theorem entry (holds : TaskAt mem v) : mem.load (v.addr + Task.entry) 8 = v.entry :=
  holds ⟨Task.entry, 8, v.entry⟩ (by simp [TaskView.fields])

theorem kernelStack (holds : TaskAt mem v) :
    mem.load (v.addr + Task.kernelStackBase) 8 = v.kernelStack :=
  holds ⟨Task.kernelStackBase, 8, v.kernelStack⟩ (by simp [TaskView.fields])

theorem userStack (holds : TaskAt mem v) : mem.load (v.addr + Task.userStackBase) 8 = v.userStack :=
  holds ⟨Task.userStackBase, 8, v.userStack⟩ (by simp [TaskView.fields])

theorem imageSize (holds : TaskAt mem v) : mem.load (v.addr + Task.userImageSize) 8 = v.imageSize :=
  holds ⟨Task.userImageSize, 8, v.imageSize⟩ (by simp [TaskView.fields])

theorem pagetable (holds : TaskAt mem v) : mem.load (v.addr + Task.pagetable) 8 = v.pagetable :=
  holds ⟨Task.pagetable, 8, v.pagetable⟩ (by simp [TaskView.fields])

/-- `task->state = state`. -/
theorem setState (holds : TaskAt mem v) (state : TaskState) :
    TaskAt (mem.store (v.addr + Task.state) 4 state.code) { v with state } :=
  FieldsAt.store (f := ⟨Task.state, 4, state.code⟩) holds state.code_lt (by
    simp [TaskView.fields, Field.Apart])

/-- `task->tf = tf`. -/
theorem setTf (holds : TaskAt mem v) {tf : Nat} (fits : tf < 256 ^ 8) :
    TaskAt (mem.store (v.addr + Task.tf) 8 tf) { v with tf } :=
  FieldsAt.store (f := ⟨Task.tf, 8, tf⟩) holds fits (by simp [TaskView.fields, Field.Apart])

/-- `task->exit_code = code`. -/
theorem setExitCode (holds : TaskAt mem v) {exitCode : Nat} (fits : exitCode < 256 ^ 8) :
    TaskAt (mem.store (v.addr + Task.exitCode) 8 exitCode) { v with exitCode } :=
  FieldsAt.store (f := ⟨Task.exitCode, 8, exitCode⟩) holds fits (by
    simp [TaskView.fields, Field.Apart])

/-- The end of a task's structure in memory, when the code is done with it. -/
theorem load_lt (holds : TaskAt mem v) {f : Field} (member : f ∈ v.fields) :
    f.value < 256 ^ f.width :=
  holds f member ▸ Mem.load_lt _ _ _

end TaskAt

end KuroOS
