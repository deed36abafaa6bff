import KuroOS.Kernel.Page

/-!
# The kernel heap of `kmalloc.c`

A block is a header of 48 bytes followed by its payload. The words of the
header are `size`, `free`, `magic`, `prev`, `next` and `reserved`, in this
order; a block is named by the address of its header.
-/

namespace KuroOS

open Base

/-- `KMALLOC_ALIGN`. -/
@[simp] abbrev kmallocAlign : Nat := 16

/-- `KMALLOC_MAGIC`. -/
@[simp] abbrev kmallocMagic : Nat := 0x4b4d414c4c4f4301

/-- `sizeof(struct kmem_block)`. -/
@[simp] abbrev blockSize : Nat := 48

/-- `block_adjacent`. -/
def blockAdjacent (left right : Nat) : K Bool := do
  let size ← loadWord left
  return wadd (left + blockSize) size == right

/-- The branch of `split_block` and `merge_with_next` on a following block:
`if (a) a->prev = block; else heap_tail = block;`. -/
def setPrev (a block : Nat) : K Unit :=
  if a ≠ 0 then storeWord (a + 24) block
  else modify fun s => { s with heapTail := block }

/-- The branch of `heap_append` on a preceding block:
`if (a) a->next = block; else heap_head = block;`. -/
def setNext (a block : Nat) : K Unit :=
  if a ≠ 0 then storeWord (a + 32) block
  else modify fun s => { s with heapHead := block }

/-- `heap_append`. -/
def heapAppend (block : Nat) : K Unit := do
  let tail := (← get).heapTail
  storeWord (block + 24) tail
  storeWord (block + 32) 0
  setNext tail block
  modify fun s => { s with heapTail := block }

/-- `split_block`. -/
def splitBlock (block size : Nat) : K Unit := do
  let blockBytes ← loadWord block
  if blockBytes < wadd (wadd size blockSize) kmallocAlign then
    return ()
  else
    let remaining := wsub (wsub blockBytes size) blockSize
    let newBlock := wadd (block + blockSize) size
    storeWord newBlock remaining
    storeWord (newBlock + 8) 1
    storeWord (newBlock + 16) kmallocMagic
    storeWord (newBlock + 40) 0
    storeWord (newBlock + 24) block
    let next ← loadWord (block + 32)
    storeWord (newBlock + 32) next
    setPrev next newBlock
    storeWord (block + 32) newBlock
    storeWord block size

/-- `merge_with_next`. -/
def mergeWithNext (block : Nat) : K Unit := do
  let next ← loadWord (block + 32)
  if next = 0 then
    return ()
  else
    let nextFree ← loadWord (next + 8)
    let adjacent ← blockAdjacent block next
    if nextFree = 0 ∨ adjacent = false then
      return ()
    else
      let size ← loadWord block
      let nextSize ← loadWord next
      storeWord block (wadd size (wadd blockSize nextSize))
      let after ← loadWord (next + 32)
      storeWord (block + 32) after
      setPrev after block

/-- The inner loop of `kmalloc`, from a block on: the payload of the first
block that is free and large enough, split and taken. -/
def kmallocFind (size : Nat) : (fuel block : Nat) → K (Option Nat)
  | 0, _ => throw .hang
  | fuel + 1, block =>
      if block = 0 then
        return none
      else do
        let free ← loadWord (block + 8)
        let blockBytes ← loadWord block
        if free ≠ 0 ∧ blockBytes ≥ size then
          splitBlock block size
          storeWord (block + 8) 0
          return some (block + blockSize)
        else
          kmallocFind size fuel (← loadWord (block + 32))

/-- `kfree`. -/
def kfree (ptr : Nat) : K Unit :=
  if ptr = 0 then
    return ()
  else do
    let block := ptr - blockSize
    kassert ((← loadWord (block + 16)) = kmallocMagic) "block->magic == KMALLOC_MAGIC"
    kassert ((← loadWord (block + 8)) = 0) "block->free == 0"
    storeWord (block + 8) 1
    mergeWithNext block
    let prev ← loadWord (block + 24)
    if prev = 0 then
      return ()
    else
      let prevFree ← loadWord (prev + 8)
      if prevFree = 0 then
        return ()
      else
        mergeWithNext prev

variable [Layout]

/-- `heap_grow`. -/
def heapGrow : K Nat := do
  let block ← pageAlloc
  if block = 0 then
    return 0
  else
    storeWord block (pageSize - blockSize)
    storeWord (block + 8) 1
    storeWord (block + 16) kmallocMagic
    storeWord (block + 40) 0
    heapAppend block
    return block

/-- The outer loop of `kmalloc`. -/
def kmallocLoop (size : Nat) : (fuel : Nat) → K Nat
  | 0 => throw .hang
  | fuel + 1 => do
      match ← kmallocFind size loopBound (← get).heapHead with
      | some payload => return payload
      | none =>
          let block ← heapGrow
          if block = 0 then
            return 0
          else
            kmallocLoop size fuel

/-- `kmalloc`. -/
def kmalloc (size : Nat) : K Nat :=
  if size = 0 then
    return 0
  else
    let size := alignUp size kmallocAlign
    if size > pageSize - blockSize then
      return 0
    else
      kmallocLoop size loopBound

end KuroOS
