import KuroOS.Kernel.State
import KuroOS.Kernel.List

/-!
# The page allocator of `page.c`

A free page stores its own list node in its first sixteen bytes, so freeing a
page overwrites part of it and allocating one overwrites part of its
neighbours on the free list.
-/

namespace KuroOS

open Base

/-- `align_up` of `page.c`, `pgtable.c`, `kmalloc.c`, `task.c` and `exec.c`. -/
def alignUp (value align : Nat) : Nat :=
  wsub (wadd value align) 1 &&& wnot (align - 1)

/-- `align_down` of `pgtable.c` and `exec.c`. -/
def alignDown (value align : Nat) : Nat :=
  value &&& wnot (align - 1)

/-- `page_aligned`. -/
def pageAligned (value : Nat) : Bool :=
  value &&& (pageSize - 1) == 0

theorem alignDown_page {value : Nat} (fits : value < 2 ^ 64) :
    alignDown value pageSize = value / 4096 * 4096 :=
  and_wnot_low (k := 12) fits (by decide)

theorem alignUp_page {value : Nat} (fits : value + 4096 ≤ 2 ^ 64) :
    alignUp value pageSize = (value + 4095) / 4096 * 4096 := by
  have sum : wsub (wadd value pageSize) 1 = value + 4095 := by
    unfold wsub wadd
    simp only [pageSize]
    omega
  unfold alignUp
  rw [sum]
  exact and_wnot_low (k := 12) (by omega) (by decide)

@[simp] theorem pageAligned_iff {value : Nat} : pageAligned value = true ↔ value % 4096 = 0 := by
  unfold pageAligned
  rw [beq_iff_eq]
  exact iff_of_eq (congrArg (· = 0) (and_low value 12))

variable [Layout]

/-- `page_free`. -/
def pageFree (addr : Nat) : K Unit := do
  kassert (addr ≠ 0) "addr != 0"
  kassert (pageAligned addr) "page_aligned((unsigned long)addr)"
  modifyMem (initListHead · addr)
  modifyMem (listAdd · addr Layout.freePageList)
  modify fun s => { s with nrFreePages := wadd s.nrFreePages 1 }

/-- `page_alloc`. -/
def pageAlloc : K Nat := do
  let s ← get
  if listEmpty s.mem Layout.freePageList then
    return 0
  else
    let page := nextOf s.mem Layout.freePageList
    modifyMem (listDel · page)
    modify fun s => { s with nrFreePages := wsub s.nrFreePages 1 }
    return page

/-- The loop of `page_init_range`. -/
def pageInitLoop (last : Nat) : (fuel p : Nat) → K Unit
  | 0, _ => throw .hang
  | fuel + 1, p =>
      if wadd p pageSize ≤ last then do
        modify fun s => { s with nrTotalPages := wadd s.nrTotalPages 1 }
        pageFree p
        pageInitLoop last fuel (wadd p pageSize)
      else
        pure ()

/-- `page_init_range`. -/
def pageInitRange (start last : Nat) : K Unit := do
  let p := alignUp start pageSize
  kassert (pageAligned last) "page_aligned(end)"
  modifyMem (initListHead · Layout.freePageList)
  modify fun s => { s with nrTotalPages := 0, nrFreePages := 0 }
  pageInitLoop last loopBound p

/-- `page_init`. -/
def pageInit : K Unit :=
  pageInitRange Layout.kernelEnd ramEnd

/-- `page_free_count`. -/
def pageFreeCount (s : Kernel) : Nat := s.nrFreePages

/-- `page_used_count`. -/
def pageUsedCount (s : Kernel) : Nat := wsub s.nrTotalPages s.nrFreePages

end KuroOS
