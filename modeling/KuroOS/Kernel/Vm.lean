import KuroOS.Kernel.Pgtable

/-!
# Address spaces: `vm.c`, and the hardware that walks the tables

`csr_write_satp` is recorded as the root it selects. The kernel's own pointers
lie in the identity mapping and are used as physical addresses; a pointer that
comes from a user's registers, or from a file, is translated by `sv39` under the
root that is active, as the hardware does for a supervisor with SUM set.
-/

namespace KuroOS

open Base

section

variable [Layout]

/-- `vm_switch`. -/
def vmSwitch (root : Nat) : K Unit := do
  kassert (root ≠ 0) "root != 0"
  kassert (pageAligned root) "((unsigned long)root & PAGE_MASK) == 0"
  modify fun s => { s with satpRoot := root }

/-- `vm_map_kernel`. -/
def vmMapKernel (root : Nat) : K Int := do
  kassert (root ≠ 0) "root != 0"
  if (← pgtableMap root ramBase ramBase (ramEnd - ramBase) pageKernel) ≠ 0 then
    return -1
  else if (← pgtableMap root uartBase uartBase pageSize pageDevice) ≠ 0 then
    return -1
  else
    return 0

/-- The loop of `vm_allow_user_identity`, with the pages that are left. -/
def vmAllowUserIdentityLoop (root : Nat) : (pages va : Nat) → K Unit
  | 0, _ => pure ()
  | pages + 1, va => do
      let pte ← pgtableWalk root va false
      kassert (pte ≠ 0) "pte != 0"
      let value ← loadWord pte
      kassert (ptePresent value) "pte_present(*pte)"
      kassert (pteLeaf value) "pte_leaf(*pte)"
      storeWord pte (mkPte (pteToPa value) (pageUser ||| pteV))
      vmAllowUserIdentityLoop root pages (wadd va pageSize)

/-- `vm_allow_user_identity`. Both ends of its loop are page-aligned. -/
def vmAllowUserIdentity (addr size : Nat) : K Unit := do
  let start := alignDown addr pageSize
  let last := alignDown (wadd (wadd addr size) (pageSize - 1)) pageSize
  let root := (← get).kernelPagetable
  kassert (root ≠ 0) "kernel_pagetable != 0"
  vmAllowUserIdentityLoop root ((last - start) / pageSize) start

/-- `vm_init`. The store to `sstatus` sets SUM, which `sv39` takes as set. -/
def vmInit : K Unit := do
  let root ← pgtableCreate
  modify fun s => { s with kernelPagetable := root }
  kassert (root ≠ 0) "kernel_pagetable != 0"
  kassert ((← vmMapKernel root) = 0) "vm_map_kernel(kernel_pagetable) == 0"
  vmSwitch root

end

/-- What a leaf entry must grant to an access. -/
def Access.grants (pte : Nat) : Access → Bool
  | .read => pte &&& pteR != 0
  | .write => pte &&& pteR != 0 && pte &&& pteW != 0

/-- The hardware's walk from a table of a level down: an entry that is not
valid, or a leaf that does not grant the access, is a page fault; so is a large
page whose address is not a multiple of its size. -/
def sv39From (mem : Mem) (va : Nat) (access : Access) : (level table : Nat) → Option Nat
  | 0, table =>
      let pte := mem.load (table + 8 * vpnIndex 0 va) 8
      if ptePresent pte && pteLeaf pte && access.grants pte then
        some (pteToPa pte + va % 4096)
      else
        none
  | level + 1, table =>
      let pte := mem.load (table + 8 * vpnIndex (level + 1) va) 8
      if ptePresent pte = false then
        none
      else if pteLeaf pte then
        if access.grants pte && pteToPa pte % 2 ^ (12 + 9 * (level + 1)) == 0 then
          some (pteToPa pte + va % 2 ^ (12 + 9 * (level + 1)))
        else
          none
      else
        sv39From mem va access level (pteToPa pte)

/-- Sv39 translation. Bits 39 to 63 of an address repeat bit 38. -/
def sv39 (mem : Mem) (root va : Nat) (access : Access) : Option Nat :=
  if va < 2 ^ 38 ∨ 2 ^ 64 - 2 ^ 38 ≤ va then
    sv39From mem va access (sv39Levels - 1) root
  else
    none

/-- The entry that the hardware's walk ends at, from a table of a level down. -/
def sv39EntryFrom (mem : Mem) (va : Nat) : (level table : Nat) → Nat
  | 0, table => mem.load (table + 8 * vpnIndex 0 va) 8
  | level + 1, table =>
      let pte := mem.load (table + 8 * vpnIndex (level + 1) va) 8
      if ptePresent pte && !pteLeaf pte then sv39EntryFrom mem va level (pteToPa pte) else pte

/-- Translation for user code: the entry must have `PTE_U` too. -/
def sv39User (mem : Mem) (root va : Nat) (access : Access) : Option Nat :=
  if sv39EntryFrom mem va (sv39Levels - 1) root &&& pteU ≠ 0 then sv39 mem root va access else none

/-- The UART's data register, `UART_RBR` for reads and `UART_THR` for writes. -/
def uartData : Nat := 0

/-- The UART's line status register, `UART_LSR`. -/
def uartLsr : Nat := 5

/-- A read of a UART register: the data register gives up the oldest byte
received, and the line status register tells whether there is one. -/
def uartRead (register : Nat) : K UInt8 := do
  let s ← get
  match s.uart.waiting with
  | [] => return 0
  | byte :: rest =>
      if register = uartData then
        set { s with uart := { s.uart with waiting := rest } }
        return byte
      else if register = uartLsr then
        return 1
      else
        return 0

/-- A write of a UART register: the data register sends the byte. -/
def uartWrite (register : Nat) (byte : UInt8) : K Unit :=
  if register = uartData then
    modify fun s => { s with uart := { s.uart with sent := s.uart.sent ++ [byte] } }
  else
    pure ()

/-- Whether a physical address is a UART register. -/
def isUart (pa : Nat) : Bool := uartBase ≤ pa && pa < uartBase + pageSize

/-- The byte at a virtual address, under the active page table. -/
def readVirtual (va : Nat) : K UInt8 := do
  let s ← get
  match sv39 s.mem s.satpRoot va .read with
  | none => throw (.fault va)
  | some pa => if isUart pa then uartRead (pa - uartBase) else return s.mem pa

/-- Store a byte at a virtual address, under the active page table. -/
def writeVirtual (va : Nat) (byte : UInt8) : K Unit := do
  let s ← get
  match sv39 s.mem s.satpRoot va .write with
  | none => throw (.fault va)
  | some pa =>
      if isUart pa then uartWrite (pa - uartBase) byte
      else modifyMem (Function.update · pa byte)

/-- The little-endian value of the `width` bytes at a virtual address. -/
def loadVirtual (va : Nat) : (width : Nat) → K Nat
  | 0 => return 0
  | width + 1 => do
      let byte ← readVirtual va
      let rest ← loadVirtual (wadd va 1) width
      return byte.toNat + 256 * rest

/-- Record a dereference of a pointer that came from a user. -/
def recordDeref (access : Access) (va : Nat) : K Unit :=
  modify fun s => { s with derefs := ⟨access, va, s.satpRoot⟩ :: s.derefs }

/-- `*va`, for a pointer that came from a user. -/
def readUser (va : Nat) : K UInt8 := do
  recordDeref .read va
  readVirtual va

/-- `*va = byte`, for a pointer that came from a user. -/
def writeUser (va : Nat) (byte : UInt8) : K Unit := do
  recordDeref .write va
  writeVirtual va byte

end KuroOS
