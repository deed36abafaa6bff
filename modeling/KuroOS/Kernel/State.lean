import KuroOS.Base.Program
import KuroOS.Base.Bytes
import KuroOS.Base.Word

/-!
# The state of the machine

Physical memory is one array of bytes: page tables, user pages, trap frames,
the list nodes stored in free pages, the kmalloc heap with its headers and the
task structures in it all live there, at the addresses the code gives them. The
scalar globals of each C file are fields beside it. The kernel runs on the
identity mapping, so a kernel pointer is a physical address; pointers that come
from a user task's registers go through the active page table instead.

`Layout` holds what the linker decides: the symbols the C code takes addresses
of, and the order of the sections in `linker.ld`.
-/

namespace KuroOS

open Base

/-- `PAGE_SIZE`. -/
@[simp] abbrev pageSize : Nat := 4096

/-- `QEMU_RAM_BASE`. -/
@[simp] abbrev ramBase : Nat := 0x80000000

/-- `QEMU_RAM_END` of `vm.c` and `QEMU_VIRT_RAM_END` of `page.c`. -/
@[simp] abbrev ramEnd : Nat := 0x88000000

/-- `UART0_BASE`. -/
@[simp] abbrev uartBase : Nat := 0x10000000

/-- The base address of the page that contains an address. -/
def pageOf (x : Nat) : Nat := x / 4096 * 4096

/-- The linker's symbols. The three list heads are static variables of the
kernel image; the user image and the embedded initrd are sections of it. -/
class Layout where
  /-- `__kernel_end` -/
  kernelEnd : Nat
  /-- `__user_start`, `__user_end`, `user_main`, `user_demo` -/
  userStart : Nat
  userEnd : Nat
  userMain : Nat
  userDemo : Nat
  /-- `_binary_rootfs_cpio_start`, `_binary_rootfs_cpio_end` -/
  initrdStart : Nat
  initrdEnd : Nat
  /-- `&free_page_list`, `&run_queue`, `&all_tasks` -/
  freePageList : Nat
  runQueue : Nat
  allTasks : Nat
  kernelEnd_aligned : kernelEnd % 4096 = 0
  kernelEnd_le : kernelEnd ≤ ramEnd
  heads_in_image : ∀ head ∈ [freePageList, runQueue, allTasks],
    ramBase ≤ head ∧ head + 16 ≤ kernelEnd ∧ head % 8 = 0
  heads_apart : [freePageList, runQueue, allTasks].Pairwise fun a b => a + 16 ≤ b ∨ b + 16 ≤ a
  user_section : ramBase ≤ userStart ∧ userStart ≤ userEnd ∧ userEnd ≤ kernelEnd
  initrd_section : ramBase ≤ initrdStart ∧ initrdStart ≤ initrdEnd ∧ initrdEnd ≤ kernelEnd
  heads_outside : ∀ head ∈ [freePageList, runQueue, allTasks],
    (head + 16 ≤ userStart ∨ userEnd ≤ head) ∧ (head + 16 ≤ initrdStart ∨ initrdEnd ≤ head)

/-- A layout that the linker script allows, for concrete runs. -/
@[reducible] def Layout.sample : Layout where
  kernelEnd := 0x80400000
  userStart := 0x80210000
  userEnd := 0x80211000
  userMain := 0x80210000
  userDemo := 0x80210100
  initrdStart := 0x80220000
  initrdEnd := 0x80221000
  freePageList := 0x80200000
  runQueue := 0x80200010
  allTasks := 0x80200020
  kernelEnd_aligned := by decide
  kernelEnd_le := by decide
  heads_in_image := by decide
  heads_apart := by decide
  user_section := by decide
  initrd_section := by decide
  heads_outside := by decide

/-- The UART: bytes received and waiting, bytes the line will still deliver,
and bytes sent. -/
structure Uart where
  waiting : List UInt8
  coming : List UInt8
  sent : List UInt8

/-- How the kernel dereferences a pointer that a user task passed in. -/
inductive Access where
  | read
  | write
deriving DecidableEq, Repr

/-- One dereference of a user pointer: the virtual address, and the root of the
page table that was active. -/
structure Deref where
  access : Access
  address : Nat
  root : Nat
deriving DecidableEq, Repr

/-- Why the kernel stopped. -/
inductive Halt where
  /-- `panic_at`, reached through `assert` with the given condition -/
  | assertion (condition : String)
  /-- `panic` -/
  | panic (message : String)
  /-- the power is off -/
  | shutdown
  /-- the kernel touched an address that the active page table does not map -/
  | fault (address : Nat)
  /-- a loop that never ends -/
  | hang
deriving DecidableEq, Repr

/-- The machine state the kernel reads and writes. `derefs` records, newest
first, each dereference of a user pointer. -/
structure Kernel where
  mem : Mem
  -- page.c
  nrTotalPages : Nat
  nrFreePages : Nat
  -- kmalloc.c
  heapHead : Nat
  heapTail : Nat
  -- vm.c; `satpRoot` is the table that satp points at
  kernelPagetable : Nat
  satpRoot : Nat
  -- task.c
  current : Nat
  nextPid : Nat
  nrRunnableTasks : Nat
  -- initrd.c
  fileList : Nat
  uart : Uart
  derefs : List Deref

/-- Cleared memory and globals, for concrete runs. -/
def Kernel.blank : Kernel where
  mem := fun _ => 0
  nrTotalPages := 0
  nrFreePages := 0
  heapHead := 0
  heapTail := 0
  kernelPagetable := 0
  satpRoot := 0
  current := 0
  nextPid := 1
  nrRunnableTasks := 0
  fileList := 0
  uart := { waiting := [], coming := [], sent := [] }
  derefs := []

/-- Kernel code: it changes the machine state and returns, or stops. -/
abbrev K := EStateM Halt Kernel

/-- `assert`: panic when the condition is false. -/
def kassert (condition : Prop) [Decidable condition] (text : String) : K Unit :=
  if condition then pure () else throw (.assertion text)

/-- An assertion that holds is no assertion. -/
theorem kassert_bind {condition : Prop} [Decidable condition] {text : String} {α : Type} (holds : condition) (next : K α) :
    (do kassert condition text; next) = next := by
  rw [kassert, if_pos holds]
  rfl

/-- The `unsigned long` at an address. -/
def loadWord (address : Nat) : K Nat := do
  return (← get).mem.load address 8

/-- Change memory. -/
def modifyMem (change : Mem → Mem) : K Unit :=
  modify fun s => { s with mem := change s.mem }

theorem modifyMem_ok (change : Mem → Mem) (s : Kernel) : modifyMem change s = .ok () { s with mem := change s.mem } := rfl

/-- Store an `unsigned long`. -/
def storeWord (address value : Nat) : K Unit :=
  modifyMem fun mem => mem.store address 8 value

/-- The bound that stands for "no bound": a walk over memory that takes more
steps than there are addresses has met some address twice and never ends. -/
def loopBound : Nat := 2 ^ 64

section

variable {post : Unit → Kernel → Prop} {halt : Halt → Kernel → Prop} {s : Kernel}

@[simp] theorem wp_kassert {condition : Prop} [Decidable condition] {text : String} :
    wp (kassert condition text) s post halt ↔
      if condition then post () s else halt (.assertion text) s := by
  unfold kassert
  split <;> simp

@[simp] theorem wp_loadWord {post : Nat → Kernel → Prop} {address : Nat} :
    wp (loadWord address) s post halt ↔ post (s.mem.load address 8) s := by
  simp only [loadWord, wp_bind, wp_get, wp_pure]

@[simp] theorem wp_modifyMem {change : Mem → Mem} :
    wp (modifyMem change) s post halt ↔ post () { s with mem := change s.mem } := by
  simp [modifyMem]

@[simp] theorem wp_storeWord {address value : Nat} :
    wp (storeWord address value) s post halt ↔
      post () { s with mem := s.mem.store address 8 value } := by
  simp [storeWord]

end

end KuroOS
