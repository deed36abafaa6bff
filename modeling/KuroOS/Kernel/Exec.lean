import KuroOS.Kernel.Initrd

/-!
# Loading programs: `exec.c`

The file is read through virtual addresses: the offsets in its headers are the
file's own, so the reads may go anywhere. Sums wrap at 64 bits; the product
`i * e_phentsize`, an `int` in the source, is taken without overflow.
-/

namespace KuroOS

open Base

namespace Ehdr

/-! ### The fields of `Elf64_Ehdr` -/

@[simp] abbrev eType : Nat := 16
@[simp] abbrev eMachine : Nat := 18
@[simp] abbrev eEntry : Nat := 24
@[simp] abbrev ePhoff : Nat := 32
@[simp] abbrev ePhentsize : Nat := 54
@[simp] abbrev ePhnum : Nat := 56

end Ehdr

/-- `sizeof(Elf64_Ehdr)`. -/
@[simp] abbrev ehdrSize : Nat := 64

namespace Phdr

/-! ### The fields of `Elf64_Phdr` -/

@[simp] abbrev pType : Nat := 0
@[simp] abbrev pFlags : Nat := 4
@[simp] abbrev pOffset : Nat := 8
@[simp] abbrev pVaddr : Nat := 16
@[simp] abbrev pFilesz : Nat := 32
@[simp] abbrev pMemsz : Nat := 40

end Phdr

@[simp] abbrev etExec : Nat := 2
@[simp] abbrev emRiscv : Nat := 243
@[simp] abbrev ptLoad : Nat := 1
@[simp] abbrev pfX : Nat := 1
@[simp] abbrev pfW : Nat := 2

/-- `ELFMAG0` to `ELFMAG3`. -/
def elfMagic : List UInt8 := [0x7f, ascii 'E', ascii 'L', ascii 'F']

/-- The bytes at a virtual address are those given, compared one by one. -/
def bytesMatch (va : Nat) : List UInt8 → K Bool
  | [] => return true
  | byte :: rest => do
      if (← readVirtual va) ≠ byte then
        return false
      else
        bytesMatch (wadd va 1) rest

/-- `elf_verify`; `true` is its 0. -/
def elfVerify (ehdr size : Nat) : K Bool := do
  if size < ehdrSize then
    return false
  else if (← bytesMatch ehdr elfMagic) = false then
    return false
  else if (← loadVirtual (wadd ehdr Ehdr.eType) 2) ≠ etExec then
    return false
  else if (← loadVirtual (wadd ehdr Ehdr.eMachine) 2) ≠ emRiscv then
    return false
  else
    return true

/-- `mem_copy` to kernel memory from an address that a file determines. -/
def copyFromVirtual (dst src : Nat) : (size : Nat) → K Unit :=
  countUp fun i => do
    let byte ← readVirtual (wadd src i)
    modifyMem (Function.update · (wadd dst i) byte)

/-- `copy_start`, `copy_end` and `seg_off` of a page, if the page has file
data. -/
def elfCopyRange (phdr pageVa copyStart : Nat) : K (Option (Nat × Nat × Nat)) := do
  let vaddr ← loadVirtual (wadd phdr Phdr.pVaddr) 8
  if wadd pageVa pageSize > vaddr then
    let fileEnd := wadd vaddr (← loadVirtual (wadd phdr Phdr.pFilesz) 8)
    if pageVa < fileEnd then
      let segOff := if pageVa > vaddr then wsub pageVa vaddr else 0
      let segEnd := if wadd pageVa pageSize < fileEnd then pageSize else wsub fileEnd pageVa
      return some (copyStart, segEnd, segOff)
    else
      return none
  else
    return none

/-- "Copy file data" of `elf_load`, into a page that has been cleared. -/
def elfCopyPage (phdr elfData fileOff pageVa copyStart page : Nat) : K Unit := do
  match ← elfCopyRange phdr pageVa copyStart with
  | none => pure ()
  | some (copyStart, copyEnd, segOff) =>
      if copyEnd > copyStart then
        copyFromVirtual (page + copyStart) (wadd (wadd elfData fileOff) segOff) (copyEnd - copyStart)
      else
        pure ()

/-- `flags` of `elf_load`. -/
def elfFlags (pFlags : Nat) : Nat :=
  let flags := pageUser
  let flags := if pFlags &&& pfW ≠ 0 then flags ||| pageWrite else flags
  if pFlags &&& pfX ≠ 0 then flags ||| pageExec else flags

section

variable [Layout]

/-- The body of the page loop of `elf_load`; `false` is its `return 0`. -/
def elfLoadPage (pagetable phdr elfData fileOff vaStart memOff j : Nat) : K Bool := do
  let page ← pageAlloc
  if page = 0 then
    return false
  else
    modifyMem (memZero · page pageSize)
    let pageVa := wadd vaStart (j * pageSize)
    elfCopyPage phdr elfData fileOff pageVa (if j = 0 then memOff else 0) page
    let flags := elfFlags (← loadVirtual (wadd phdr Phdr.pFlags) 4)
    if (← pgtableMap pagetable pageVa page pageSize flags) ≠ 0 then
      pageFree page
      return false
    else
      return true

/-- The page loop of `elf_load`, with the pages that are left. -/
def elfLoadPages (pagetable phdr elfData fileOff vaStart memOff : Nat) : (pages j : Nat) → K Bool
  | 0, _ => return true
  | pages + 1, j => do
      if ← elfLoadPage pagetable phdr elfData fileOff vaStart memOff j then
        elfLoadPages pagetable phdr elfData fileOff vaStart memOff pages (j + 1)
      else
        return false

/-- The body of the segment loop of `elf_load`; `false` is its `return 0`. -/
def elfLoadSegment (pagetable elfData i : Nat) : K Bool := do
  let phoff ← loadVirtual (wadd elfData Ehdr.ePhoff) 8
  let phentsize ← loadVirtual (wadd elfData Ehdr.ePhentsize) 2
  let phdr := wadd (wadd elfData phoff) (i * phentsize)
  if (← loadVirtual (wadd phdr Phdr.pType) 4) ≠ ptLoad then
    return true
  else
    let vaddr ← loadVirtual (wadd phdr Phdr.pVaddr) 8
    let memsz ← loadVirtual (wadd phdr Phdr.pMemsz) 8
    let fileOff ← loadVirtual (wadd phdr Phdr.pOffset) 8
    let vaStart := alignDown vaddr pageSize
    let vaEnd := alignUp (wadd vaddr memsz) pageSize
    elfLoadPages pagetable phdr elfData fileOff vaStart (wsub vaddr vaStart)
      (wsub vaEnd vaStart / pageSize) 0

/-- The segment loop of `elf_load`. `e_phnum` has 16 bits. -/
def elfLoadSegments (pagetable elfData : Nat) : (fuel i : Nat) → K Bool
  | 0, _ => throw .hang
  | fuel + 1, i => do
      if i < (← loadVirtual (wadd elfData Ehdr.ePhnum) 2) then
        if ← elfLoadSegment pagetable elfData i then
          elfLoadSegments pagetable elfData fuel (i + 1)
        else
          return false
      else
        return true

/-- `elf_load`. -/
def elfLoad (pagetable elfData : Nat) : K Nat := do
  let entry ← loadVirtual (wadd elfData Ehdr.eEntry) 8
  if ← elfLoadSegments pagetable elfData (2 ^ 16) 0 then
    return entry
  else
    return 0

end

/-- `uart_puts` of a string that a user points at. -/
def uartPutsUser : (fuel s : Nat) → K Unit
  | 0, _ => throw .hang
  | fuel + 1, s => do
      let byte ← readUser s
      if byte = 0 then
        pure ()
      else
        if byte = ascii '\n' then uartWrite uartData (ascii '\r') else pure ()
        uartWrite uartData byte
        uartPutsUser fuel (wadd s 1)

/-- `printk` of a `%s` that a user points at; the text around it is left out. -/
def printkUser (s : Nat) : K Unit :=
  if s ≠ 0 then uartPutsUser loopBound s else pure ()

/-- The last part of `sys_exec`: the calling task gets its new address space. -/
def execCommit (task newPagetable entry tf : Nat) : K Unit := do
  storeWord (task + Task.pagetable) newPagetable
  storeWord (task + Task.entry) entry
  storeWord (task + Task.userSp) userStackTop
  storeWord (task + Task.userImageSize) 0
  storeWord (tf + TrapFrame.sepc) entry
  storeWord (tf + TrapFrame.sp) userStackTop
  storeWord (tf + TrapFrame.a0) 0
  storeWord (tf + TrapFrame.a1) 0
  storeWord (tf + TrapFrame.a2) 0

section

variable [Layout]

/-- `sys_exec` from the user stack on, for a page table with the program in
it. -/
def execStack (filename tf newPagetable entry : Nat) : K Int := do
  let newStack ← pageAlloc
  if newStack = 0 then
    pgtableFreeWalk newPagetable
    return -1
  else
    modifyMem (memZero · newStack pageSize)
    if (← pgtableMap newPagetable (userStackTop - pageSize) newStack pageSize
        (pageUser ||| pageWrite)) ≠ 0 then
      pageFree newStack
      pgtableFreeWalk newPagetable
      return -1
    else
      let task := (← get).current
      if task = 0 then
        pageFree newStack
        pgtableFreeWalk newPagetable
        return -1
      else
        execCommit task newPagetable entry tf
        vmSwitch newPagetable
        printkUser filename
        return 0

/-- `sys_exec` from the page table on, for a file that has been found and
verified. -/
def execLoad (filename tf elfData : Nat) : K Int := do
  let newPagetable ← pgtableCreate
  if newPagetable = 0 then
    return -1
  else if (← vmMapKernel newPagetable) ≠ 0 then
    pgtableFreeWalk newPagetable
    return -1
  else
    let entry ← elfLoad newPagetable elfData
    if entry = 0 then
      pgtableFreeWalk newPagetable
      return -1
    else
      execStack filename tf newPagetable entry

/-- `sys_exec`. -/
def sysExec (filename tf : Nat) : K Int := do
  let (elfData, elfSize) ← initrdFind filename
  if elfData = 0 then
    printkUser filename
    return -1
  else if (← elfVerify elfData elfSize) = false then
    return -1
  else
    execLoad filename tf elfData

end

end KuroOS
