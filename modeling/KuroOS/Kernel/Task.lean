import KuroOS.Kernel.Vm
import KuroOS.Kernel.Kmalloc

/-!
# Tasks and the scheduler: `task.c`

A task structure is 128 bytes of the kmalloc heap and a trap frame 272 bytes of
a kernel stack. The offsets of their fields stand in `Task` and `TrapFrame`, so
`task + Task.pid` is `&task->pid`. Text that only goes to the log is left out.
-/

namespace KuroOS

open Base

/-- `USER_TEXT_BASE`. -/
@[simp] abbrev userTextBase : Nat := 0x00010000

/-- `USER_STACK_TOP`. -/
@[simp] abbrev userStackTop : Nat := 0x40000000

/-- `enum task_state`. -/
inductive TaskState where
  | unused
  | ready
  | running
  | sleeping
  | zombie
deriving DecidableEq, Repr

/-- The value of an enumerator. -/
def TaskState.code : TaskState → Nat
  | .unused => 0
  | .ready => 1
  | .running => 2
  | .sleeping => 3
  | .zombie => 4

namespace Task

/-! ### The fields of `struct task` -/

@[simp] abbrev pid : Nat := 0
@[simp] abbrev state : Nat := 8
@[simp] abbrev tf : Nat := 16
@[simp] abbrev kernelSp : Nat := 24
@[simp] abbrev userSp : Nat := 32
@[simp] abbrev entry : Nat := 40
@[simp] abbrev kernelStackBase : Nat := 48
@[simp] abbrev userStackBase : Nat := 56
@[simp] abbrev stackSize : Nat := 64
@[simp] abbrev userImageSize : Nat := 72
@[simp] abbrev exitCode : Nat := 80
@[simp] abbrev pagetable : Nat := 88
@[simp] abbrev taskNode : Nat := 96
@[simp] abbrev runNode : Nat := 112

end Task

/-- `sizeof(struct task)`. -/
@[simp] abbrev taskSize : Nat := 128

namespace TrapFrame

/-! ### The fields of `struct trap_frame` that the kernel uses by name -/

@[simp] abbrev a0 : Nat := 64
@[simp] abbrev a1 : Nat := 72
@[simp] abbrev a2 : Nat := 80
@[simp] abbrev a7 : Nat := 120
@[simp] abbrev sp : Nat := 240
@[simp] abbrev sepc : Nat := 248
@[simp] abbrev sstatus : Nat := 256

end TrapFrame

/-- `sizeof(struct trap_frame)`. -/
@[simp] abbrev trapFrameSize : Nat := 272

/-- `SSTATUS_SPIE`. -/
@[simp] abbrev sstatusSpie : Nat := 1 <<< 5

/-- `SSTATUS_SUM`. -/
@[simp] abbrev sstatusSum : Nat := 1 <<< 18

/-- The first `size` rounds of `mem_zero`. -/
def memZero (mem : Mem) (dst : Nat) : (size : Nat) → Mem
  | 0 => mem
  | size + 1 => Function.update (memZero mem dst size) (wadd dst size) 0

/-- The first `size` rounds of `mem_copy`: each reads what the rounds before it
left behind. -/
def memCopy (mem : Mem) (dst src : Nat) : (size : Nat) → Mem
  | 0 => mem
  | size + 1 =>
      let before := memCopy mem dst src size
      Function.update before (wadd dst size) (before (wadd src size))

/-- Load `task->state`. -/
def loadState (task : Nat) : K Nat := do
  return (← get).mem.load (task + Task.state) 4

/-- Store `task->state`. -/
def storeState (task : Nat) (value : TaskState) : K Unit :=
  modifyMem fun mem => mem.store (task + Task.state) 4 value.code

/-- `task_init_frame`. -/
def taskInitFrame (task : Nat) : K Unit := do
  let tf := wsub (← loadWord (task + Task.kernelSp)) trapFrameSize
  storeWord (task + Task.tf) tf
  modifyMem (zeroWords · tf (trapFrameSize / 8))
  storeWord (tf + TrapFrame.sp) (← loadWord (task + Task.userSp))
  storeWord (tf + TrapFrame.sepc) (← loadWord (task + Task.entry))
  storeWord (tf + TrapFrame.sstatus) (sstatusSpie ||| sstatusSum)

section

variable [Layout]

/-- `task_alloc`. -/
def taskAlloc : K Nat := do
  let task ← kmalloc taskSize
  if task = 0 then
    return 0
  else
    storeWord (task + Task.pid) 0
    storeState task .unused
    storeWord (task + Task.tf) 0
    storeWord (task + Task.kernelSp) 0
    storeWord (task + Task.userSp) 0
    storeWord (task + Task.entry) 0
    storeWord (task + Task.kernelStackBase) 0
    storeWord (task + Task.userStackBase) 0
    storeWord (task + Task.stackSize) 0
    storeWord (task + Task.userImageSize) 0
    storeWord (task + Task.exitCode) 0
    storeWord (task + Task.pagetable) 0
    modifyMem (initListHead · (task + Task.taskNode))
    modifyMem (initListHead · (task + Task.runNode))
    return task

/-- `pgtable_walk(pagetable, addr, 0)` with the test
`!pte || !pte_present(*pte) || !pte_leaf(*pte)`, for which the result is `none`;
otherwise `pte` and `*pte`. -/
def leafLookup (pagetable addr : Nat) : K (Option (Nat × Nat)) := do
  let pte ← pgtableWalk pagetable addr false
  if pte = 0 then
    return none
  else
    let value ← loadWord pte
    if ptePresent value && pteLeaf value then
      return some (pte, value)
    else
      return none

/-- One round of the loop of `task_free_user_pages`. -/
def taskFreeUserPage (pagetable addr : Nat) : K Unit := do
  match ← leafLookup pagetable addr with
  | none => pure ()
  | some (pte, value) =>
      pageFree (pteToPa value)
      storeWord pte 0

/-- The loop of `task_free_user_pages`. -/
def taskFreeUserPagesLoop (pagetable last : Nat) : (fuel addr : Nat) → K Unit
  | 0, _ => throw .hang
  | fuel + 1, addr =>
      if addr < last then do
        taskFreeUserPage pagetable addr
        taskFreeUserPagesLoop pagetable last fuel (wadd addr pageSize)
      else
        pure ()

/-- `task_free_user_pages`. -/
def taskFreeUserPages (pagetable va size : Nat) : K Unit :=
  taskFreeUserPagesLoop pagetable (wadd va size) loopBound va

/-- `if (page) page_free(page)`. -/
def pageFreeIf (page : Nat) : K Unit :=
  if page ≠ 0 then pageFree page else pure ()

/-- `if (pagetable) pgtable_free_walk(pagetable)`. -/
def pgtableFreeWalkIf (pagetable : Nat) : K Unit :=
  if pagetable ≠ 0 then pgtableFreeWalk pagetable else pure ()

/-- The second statement of `task_free`. -/
def taskFreeImage (task : Nat) : K Unit := do
  let pagetable ← loadWord (task + Task.pagetable)
  let imageSize ← loadWord (task + Task.userImageSize)
  if pagetable ≠ 0 ∧ imageSize ≠ 0 then
    taskFreeUserPages pagetable userTextBase imageSize
  else
    pure ()

/-- `task_free`. -/
def taskFree (task : Nat) : K Unit := do
  pageFreeIf (← loadWord (task + Task.userStackBase))
  taskFreeImage task
  pageFreeIf (← loadWord (task + Task.kernelStackBase))
  pgtableFreeWalkIf (← loadWord (task + Task.pagetable))
  kfree task

/-- The body of the loop of `task_reap_zombies`. -/
def taskReap (task : Nat) : K Unit := do
  let state ← loadState task
  if state ≠ TaskState.zombie.code ∨ task = (← get).current then
    pure ()
  else
    modifyMem (listDel · (task + Task.taskNode))
    taskFree task

/-- The loop of `task_reap_zombies`, `list_for_each_safe`. -/
def taskReapLoop : (fuel pos next : Nat) → K Unit
  | 0, _, _ => throw .hang
  | fuel + 1, pos, next =>
      if pos = Layout.allTasks then
        pure ()
      else do
        taskReap (wsub pos Task.taskNode)
        let after := nextOf (← get).mem next
        taskReapLoop fuel next after

/-- `task_reap_zombies`. -/
def taskReapZombies : K Unit := do
  let mem := (← get).mem
  let pos := nextOf mem Layout.allTasks
  taskReapLoop loopBound pos (nextOf mem pos)

/-- The clean-up that the error exits of `task_create_user` and `task_fork` end
with, once both stacks and the page table exist. -/
def taskAbandon (userStack kernelStack pagetable task : Nat) : K Unit := do
  pageFree userStack
  pageFree kernelStack
  pgtableFreeWalk pagetable
  kfree task

/-- The stacks and the page table of a new task, with the kernel mapped:
`task_create_user` and `task_fork` both start so. After `none` they return 0,
with everything cleaned up. -/
def taskPages (task : Nat) : K (Option (Nat × Nat × Nat)) := do
  let userStack ← pageAlloc
  let kernelStack ← pageAlloc
  let pagetable ← pgtableCreate
  if userStack = 0 ∨ kernelStack = 0 ∨ pagetable = 0 then
    pageFreeIf userStack
    pageFreeIf kernelStack
    pgtableFreeWalkIf pagetable
    kfree task
    return none
  else if (← vmMapKernel pagetable) ≠ 0 then
    taskAbandon userStack kernelStack pagetable task
    return none
  else
    return some (userStack, kernelStack, pagetable)

/-- The fields that `task_create_user` and `task_fork` both set in this order,
with their own values for some. -/
def taskFill (task kernelStack userStack imageSize userSp entry pagetable : Nat) : K Unit := do
  let s ← get
  modify fun s => { s with nextPid := wadd s.nextPid 1 }
  storeWord (task + Task.pid) s.nextPid
  storeState task .ready
  storeWord (task + Task.kernelStackBase) kernelStack
  storeWord (task + Task.userStackBase) userStack
  storeWord (task + Task.stackSize) pageSize
  storeWord (task + Task.userImageSize) imageSize
  storeWord (task + Task.kernelSp) (wadd kernelStack pageSize)
  storeWord (task + Task.userSp) userSp
  storeWord (task + Task.entry) entry
  storeWord (task + Task.exitCode) 0
  storeWord (task + Task.pagetable) pagetable

/-- The two `list_add_tail` calls and the count that make a task known. -/
def taskEnqueue (task : Nat) : K Unit := do
  modifyMem (listAddTail · (task + Task.taskNode) Layout.allTasks)
  modifyMem (listAddTail · (task + Task.runNode) Layout.runQueue)
  modify fun s => { s with nrRunnableTasks := wadd s.nrRunnableTasks 1 }

/-- The image loop of `task_create_user`; `false` is its `return 0`. -/
def taskCreateImage (task userStack kernelStack pagetable imageStart imageSize imagePages : Nat) :
    (fuel off : Nat) → K Bool
  | 0, _ => throw .hang
  | fuel + 1, off =>
      if off < imagePages then do
        let page ← pageAlloc
        if page = 0 then
          taskFreeUserPages pagetable userTextBase off
          taskAbandon userStack kernelStack pagetable task
          return false
        else
          modifyMem (memZero · page pageSize)
          let copySize := if wadd off pageSize > imageSize then wsub imageSize off else pageSize
          modifyMem (memCopy · page (wadd imageStart off) copySize)
          if (← pgtableMap pagetable (wadd userTextBase off) page pageSize pageUser) ≠ 0 then
            pageFree page
            taskFreeUserPages pagetable userTextBase off
            taskAbandon userStack kernelStack pagetable task
            return false
          else
            taskCreateImage task userStack kernelStack pagetable imageStart imageSize imagePages
              fuel (wadd off pageSize)
      else
        return true

/-- `task_create`. -/
def taskCreate (entry : Nat) : K Nat := do
  taskReapZombies
  let task ← taskAlloc
  if task = 0 then
    return 0
  else
    let userStack ← pageAlloc
    let kernelStack ← pageAlloc
    let pagetable ← pgtableCreate
    if userStack = 0 ∨ kernelStack = 0 ∨ pagetable = 0 then
      pageFreeIf userStack
      pageFreeIf kernelStack
      pgtableFreeWalkIf pagetable
      kfree task
      return 0
    else
      taskFill task kernelStack userStack 0 (wadd userStack pageSize) entry pagetable
      vmAllowUserIdentity userStack pageSize
      taskInitFrame task
      taskEnqueue task
      return task

/-- `task_create_user`. -/
def taskCreateUser (imageStart imageEnd entry : Nat) : K Nat := do
  taskReapZombies
  let task ← taskAlloc
  if task = 0 then
    return 0
  else
    let imageSize := wsub imageEnd imageStart
    let imagePages := alignUp imageSize pageSize
    let entryOffset := wsub entry imageStart
    match ← taskPages task with
    | none => return 0
    | some (userStack, kernelStack, pagetable) =>
        if (← taskCreateImage task userStack kernelStack pagetable imageStart imageSize imagePages
            loopBound 0) = false then
          return 0
        else
          modifyMem (memZero · userStack pageSize)
          if (← pgtableMap pagetable (userStackTop - pageSize) userStack pageSize pageUser) ≠ 0 then
            taskFreeUserPages pagetable userTextBase imagePages
            taskAbandon userStack kernelStack pagetable task
            return 0
          else
            taskFill task kernelStack userStack imagePages userStackTop
              (wadd userTextBase entryOffset) pagetable
            taskInitFrame task
            taskEnqueue task
            return task

/-- `task_destroy`. -/
def taskDestroy (task : Nat) : K Unit := do
  kassert (task ≠ 0) "task != 0"
  kassert (task ≠ (← get).current) "task != current"
  modifyMem (listDel · (task + Task.taskNode))
  modifyMem (listDel · (task + Task.runNode))
  kassert ((← get).nrRunnableTasks > 0) "nr_runnable_tasks > 0"
  modify fun s => { s with nrRunnableTasks := wsub s.nrRunnableTasks 1 }
  taskFree task

/-- `task_set_current`. -/
def taskSetCurrent (task : Nat) : K Unit := do
  kassert (task ≠ 0) "task != 0"
  modify fun s => { s with current := task }
  storeState task .running
  vmSwitch (← loadWord (task + Task.pagetable))

/-- The loop of `task_pick_next`. -/
def taskPickLoop : (fuel pos scanned : Nat) → K Nat
  | 0, _, _ => throw .hang
  | fuel + 1, pos, scanned => do
      let s ← get
      if scanned < s.nrRunnableTasks then
        let pos := if pos = Layout.runQueue then nextOf s.mem Layout.runQueue else pos
        let task := wsub pos Task.runNode
        let state ← loadState task
        if state = TaskState.ready.code ∨ state = TaskState.running.code then
          return task
        else
          taskPickLoop fuel (nextOf s.mem pos) (wadd scanned 1)
      else
        return 0

/-- `task_pick_next`. -/
def taskPickNext : K Nat := do
  let s ← get
  if listEmpty s.mem Layout.runQueue ∨ s.nrRunnableTasks = 0 then
    return 0
  else
    let pos := if s.current ≠ 0 then nextOf s.mem (s.current + Task.runNode)
      else nextOf s.mem Layout.runQueue
    taskPickLoop loopBound pos 0

/-- `task_exit_current`. -/
def taskExitCurrent (tf code : Nat) : K Nat := do
  kassert ((← get).current ≠ 0) "current != 0"
  let dead := (← get).current
  storeWord (dead + Task.tf) tf
  storeWord (dead + Task.exitCode) code
  storeState dead .zombie
  modifyMem (listDel · (dead + Task.runNode))
  kassert ((← get).nrRunnableTasks > 0) "nr_runnable_tasks > 0"
  modify fun s => { s with nrRunnableTasks := wsub s.nrRunnableTasks 1 }
  modify fun s => { s with current := 0 }
  if (← get).nrRunnableTasks = 0 then
    return 0
  else
    let next ← taskPickNext
    kassert (next ≠ 0) "next != 0"
    taskSetCurrent next
    loadWord (next + Task.tf)

/-- The first statement of `task_schedule`: the running task becomes ready. -/
def taskPark (prev tf : Nat) : K Unit :=
  if prev ≠ 0 then do
    storeWord (prev + Task.tf) tf
    if (← loadState prev) = TaskState.running.code then
      storeState prev .ready
    else
      pure ()
  else
    pure ()

/-- `!next || next == prev || !next->tf`. -/
def taskStays (prev next : Nat) : K Bool :=
  if next = 0 ∨ next = prev then
    return true
  else do
    return (← loadWord (next + Task.tf)) == 0

/-- `task_schedule`. -/
def taskSchedule (tf : Nat) : K Nat := do
  let prev := (← get).current
  taskPark prev tf
  taskReapZombies
  let next ← taskPickNext
  if ← taskStays prev next then
    if prev ≠ 0 then
      storeState prev .running
      return tf
    else
      return tf
  else
    taskSetCurrent next
    loadWord (next + Task.tf)

/-- The image loop of `task_fork`; `false` is its `return 0`. -/
def taskForkImage (parent child userStack kernelStack pagetable imagePages : Nat) :
    (fuel off : Nat) → K Bool
  | 0, _ => throw .hang
  | fuel + 1, off =>
      if off < imagePages then do
        match ← leafLookup (← loadWord (parent + Task.pagetable)) (wadd userTextBase off) with
        | none =>
            taskForkImage parent child userStack kernelStack pagetable imagePages fuel
              (wadd off pageSize)
        | some (_, value) =>
            let page ← pageAlloc
            if page = 0 then
              taskFreeUserPages pagetable userTextBase off
              taskAbandon userStack kernelStack pagetable child
              return false
            else
              modifyMem (memCopy · page (pteToPa value) pageSize)
              if (← pgtableMap pagetable (wadd userTextBase off) page pageSize pageUser) ≠ 0 then
                pageFree page
                taskFreeUserPages pagetable userTextBase off
                taskAbandon userStack kernelStack pagetable child
                return false
              else
                taskForkImage parent child userStack kernelStack pagetable imagePages fuel
                  (wadd off pageSize)
      else
        return true

/-- `task_fork`'s copy of the user stack page. -/
def taskForkStack (parent userStack : Nat) : K Unit := do
  let userSp ← loadWord (parent + Task.userSp)
  match ← leafLookup (← loadWord (parent + Task.pagetable)) (userSp &&& wnot (pageSize - 1)) with
  | some (_, value) => modifyMem (memCopy · userStack (pteToPa value) pageSize)
  | none => modifyMem (memZero · userStack pageSize)

/-- `task_fork`'s copy of the trap frame, and the two return values. -/
def taskForkFrame (child tf : Nat) : K Unit := do
  let frame := wsub (← loadWord (child + Task.kernelSp)) trapFrameSize
  storeWord (child + Task.tf) frame
  modifyMem (memCopy · frame tf trapFrameSize)
  storeWord (frame + TrapFrame.a0) 0
  storeWord (tf + TrapFrame.a0) (← loadWord (child + Task.pid))

/-- `task_fork`. -/
def taskFork (tf : Nat) : K Nat := do
  let parent := (← get).current
  if parent = 0 then
    return 0
  else
    taskReapZombies
    let child ← taskAlloc
    if child = 0 then
      return 0
    else
      match ← taskPages child with
      | none => return 0
      | some (userStack, kernelStack, pagetable) =>
          let imagePages ← loadWord (parent + Task.userImageSize)
          if (← taskForkImage parent child userStack kernelStack pagetable imagePages loopBound 0) =
              false then
            return 0
          else
            taskForkStack parent userStack
            if (← pgtableMap pagetable (userStackTop - pageSize) userStack pageSize pageUser) ≠ 0 then
              taskFreeUserPages pagetable userTextBase imagePages
              taskAbandon userStack kernelStack pagetable child
              return 0
            else
              taskFill child kernelStack userStack imagePages (← loadWord (parent + Task.userSp))
                (← loadWord (parent + Task.entry)) pagetable
              taskForkFrame child tf
              taskEnqueue child
              return child

end

end KuroOS
