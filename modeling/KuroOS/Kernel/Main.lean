import KuroOS.Kernel.Exec

/-!
# Boot: `main.c`, `user.c` and the tests that run on the way

`list_test` is left out: it works on nodes of its own stack frame. Starting the
timer changes no memory.
-/

namespace KuroOS

open Base

variable [Layout]

/-- `page_test`. -/
def pageTest : K Unit := do
  let before := pageFreeCount (← get)
  let a ← pageAlloc
  let b ← pageAlloc
  kassert (before ≥ 2) "before >= 2"
  kassert (a ≠ 0) "a != 0"
  kassert (b ≠ 0) "b != 0"
  kassert (a ≠ b) "a != b"
  kassert (pageFreeCount (← get) = wsub before 2) "page_free_count() == before - 2"
  kassert (pageUsedCount (← get) = 2) "page_used_count() == 2"
  pageFree a
  pageFree b
  kassert (pageFreeCount (← get) = before) "page_free_count() == before"
  kassert (pageUsedCount (← get) = 0) "page_used_count() == 0"

/-- `kmalloc_test`. -/
def kmallocTest : K Unit := do
  let a ← kmalloc 24
  let b ← kmalloc 128
  let c ← kmalloc 512
  kassert (a ≠ 0) "a != 0"
  kassert (b ≠ 0) "b != 0"
  kassert (c ≠ 0) "c != 0"
  kassert (a &&& (kmallocAlign - 1) = 0) "((unsigned long)a & (KMALLOC_ALIGN - 1)) == 0"
  kassert (b &&& (kmallocAlign - 1) = 0) "((unsigned long)b & (KMALLOC_ALIGN - 1)) == 0"
  kassert (c &&& (kmallocAlign - 1) = 0) "((unsigned long)c & (KMALLOC_ALIGN - 1)) == 0"
  kfree b
  let d ← kmalloc 64
  kassert (d = b) "d == b"
  kfree a
  kfree c
  kfree d
  let e ← kmalloc 600
  kassert (e ≠ 0) "e != 0"
  kfree e

/-- `pgtable_test`. -/
def pgtableTest : K Unit := do
  let va := 0x400000
  let root ← pgtableCreate
  let page ← pageAlloc
  kassert (root ≠ 0) "root != 0"
  kassert (page ≠ 0) "page != 0"
  kassert ((← pgtableMap root va page pageSize pageUser) = 0)
    "pgtable_map(root, va, (unsigned long)page, PAGE_SIZE, PAGE_USER) == 0"
  let pte ← pgtableWalk root va false
  kassert (pte ≠ 0) "pte != 0"
  let value ← loadWord pte
  kassert (ptePresent value) "pte_present(*pte)"
  kassert (pteLeaf value) "pte_leaf(*pte)"
  kassert (pteToPa value = page) "pte_to_pa(*pte) == (unsigned long)page"
  kassert (pteFlags value &&& pteU ≠ 0) "pte_flags(*pte) & PTE_U"
  pgtableUnmap root va pageSize
  kassert (pteNone (← loadWord (← pgtableWalk root va false)))
    "pte_none(*pgtable_walk(root, va, 0))"
  pageFree page
  pgtableFreeWalk root

/-- The assertions of `task_create_user_test` on an entry. -/
def entryTest (root va wanted : Nat) (text : String) : K Unit := do
  let pte ← pgtableWalk root va false
  kassert (pte ≠ 0) "pte != 0"
  let value ← loadWord pte
  kassert (ptePresent value) "pte_present(*pte)"
  kassert (pteLeaf value) "pte_leaf(*pte)"
  kassert (pteFlags value &&& pteU ≠ 0) "pte_flags(*pte) & PTE_U"
  kassert (pteFlags value &&& wanted ≠ 0) text

/-- `task_create_user_test`. -/
def taskCreateUserTest : K Unit := do
  let entryOffset := wsub Layout.userMain Layout.userStart
  let task ← taskCreateUser Layout.userStart Layout.userEnd Layout.userMain
  kassert (task ≠ 0) "task != 0"
  kassert ((← loadState task) = TaskState.ready.code) "task->state == TASK_READY"
  kassert ((← loadWord (task + Task.entry)) = wadd userTextBase entryOffset)
    "task->entry == USER_TEXT_BASE + entry_offset"
  kassert ((← loadWord (task + Task.userSp)) = userStackTop) "task->user_sp == USER_STACK_TOP"
  kassert ((← loadWord (task + Task.pagetable)) ≠ 0) "task->pagetable != 0"
  entryTest (← loadWord (task + Task.pagetable)) (← loadWord (task + Task.entry)) pteX
    "pte_flags(*entry_pte) & PTE_X"
  entryTest (← loadWord (task + Task.pagetable)) (userStackTop - pageSize) pteW
    "pte_flags(*stack_pte) & PTE_W"
  taskDestroy task

/-- `user_init`, up to the jump to user mode. -/
def userInit : K Unit := do
  let init ← taskCreateUser Layout.userStart Layout.userEnd Layout.userMain
  let demo ← taskCreateUser Layout.userStart Layout.userEnd Layout.userDemo
  kassert (init ≠ 0) "init != 0"
  kassert (demo ≠ 0) "demo != 0"
  taskSetCurrent init

/-- `kernel_main` up to `vm_init`. -/
def kernelStart : K Unit := do
  pageInit
  pageTest
  kmallocTest
  pgtableTest
  vmInit

/-- `kernel_main` from the test after `vm_init` to `timer_init`. -/
def kernelTestAndInitrd : K Unit := do
  taskCreateUserTest
  if Layout.initrdEnd - Layout.initrdStart > 0 then
    initrdInit Layout.initrdStart (Layout.initrdEnd - Layout.initrdStart)
  else
    pure ()

/-- `kernel_main`, up to the jump to user mode. -/
def kernelMain : K Unit := do
  kernelStart
  kernelTestAndInitrd
  userInit

end KuroOS
