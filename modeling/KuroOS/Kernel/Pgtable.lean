import KuroOS.Kernel.Page

/-!
# Sv39 page tables: `pgtable.h` and `pgtable.c`

A table is a page of 512 entries of eight bytes. An entry is a number; the
macros that take it apart keep their shifts and masks, and each has a lemma
that gives it as a quotient or a remainder.
-/

namespace KuroOS

open Base

@[simp] abbrev ptrsPerPt : Nat := 512
@[simp] abbrev sv39Levels : Nat := 3

@[simp] abbrev pteV : Nat := 1
@[simp] abbrev pteR : Nat := 2
@[simp] abbrev pteW : Nat := 4
@[simp] abbrev pteX : Nat := 8
@[simp] abbrev pteU : Nat := 16
@[simp] abbrev pteA : Nat := 64
@[simp] abbrev pteD : Nat := 128

/-- `PTE_FLAGS_MASK`. -/
def pteFlagsMask : Nat := 2 ^ 10 - 1

/-- `PTE_PPN_MASK`. -/
def ptePpnMask : Nat := (2 ^ 44 - 1) <<< 10

/-- `pte_none`. -/
def pteNone (pte : Nat) : Bool := pte == 0

/-- `pte_present`. -/
def ptePresent (pte : Nat) : Bool := pte &&& pteV != 0

/-- `pte_flags`. -/
def pteFlags (pte : Nat) : Nat := pte &&& pteFlagsMask

/-- `pte_pfn`. -/
def ptePfn (pte : Nat) : Nat := (pte &&& ptePpnMask) >>> 10

/-- `pa_to_pte`. -/
def paToPte (pa : Nat) : Nat := (pa >>> 12) <<< 10

/-- `pte_to_pa`. -/
def pteToPa (pte : Nat) : Nat := ptePfn pte <<< 12

/-- `mk_pte`. -/
def mkPte (pa flags : Nat) : Nat := paToPte pa ||| flags

/-- `pte_leaf`. -/
def pteLeaf (pte : Nat) : Bool := pte &&& (pteR ||| pteW ||| pteX) != 0

/-- `MAXVA`. -/
@[simp] abbrev maxVa : Nat := 2 ^ 38

/-- `vpn_index`. -/
def vpnIndex (level va : Nat) : Nat := (va >>> (12 + 9 * level)) &&& 0x1ff

@[simp] abbrev pageKernel : Nat := pteR ||| pteW ||| pteX ||| pteA ||| pteD
@[simp] abbrev pageDevice : Nat := pteR ||| pteW ||| pteA ||| pteD
@[simp] abbrev pageUser : Nat := pteR ||| pteW ||| pteX ||| pteU ||| pteA ||| pteD
@[simp] abbrev pageWrite : Nat := pteR ||| pteW ||| pteA ||| pteD
@[simp] abbrev pageExec : Nat := pteR ||| pteX ||| pteA ||| pteD

/-- The first `count` rounds of the loop of `page_zero`. -/
def zeroWords (mem : Mem) (page : Nat) : (count : Nat) → Mem
  | 0 => mem
  | count + 1 => (zeroWords mem page count).store (page + 8 * count) 8 0

/-- `page_zero` of `pgtable.c`. -/
def pageZero (mem : Mem) (page : Nat) : Mem :=
  zeroWords mem page (pageSize / 8)

section

variable [Layout]

/-- `pgtable_create`. -/
def pgtableCreate : K Nat := do
  let root ← pageAlloc
  if root = 0 then
    return 0
  else
    modifyMem (pageZero · root)
    return root

/-- One round of the loop of `pgtable_walk`: from an entry to the table it
points at, which is allocated if `alloc` asks for it. `none` is the early
`return 0`. -/
def pgtableDescend (alloc : Bool) (pte : Nat) : K (Option Nat) := do
  let value ← loadWord pte
  if ptePresent value then
    kassert (pteLeaf value = false) "!pte_leaf(*pte)"
    return some (pteToPa value)
  else if alloc = false then
    return none
  else
    let table ← pgtableCreate
    if table = 0 then
      return none
    else
      storeWord pte (mkPte table pteV)
      return some table

/-- The loop of `pgtable_walk`, from the table of a level down. -/
def pgtableWalkFrom (va : Nat) (alloc : Bool) : (level table : Nat) → K Nat
  | 0, table => return table + 8 * vpnIndex 0 va
  | level + 1, table => do
      match ← pgtableDescend alloc (table + 8 * vpnIndex (level + 1) va) with
      | none => return 0
      | some next => pgtableWalkFrom va alloc level next

/-- `pgtable_walk`. -/
def pgtableWalk (root va : Nat) (alloc : Bool) : K Nat := do
  kassert (root ≠ 0) "root != 0"
  kassert (va < maxVa) "va < MAXVA"
  pgtableWalkFrom va alloc (sv39Levels - 1) root

/-- The loop of `pgtable_map`, with the pages that are left. -/
def pgtableMapLoop (root flags : Nat) : (pages addr pa : Nat) → K Int
  | 0, _, _ => return 0
  | pages + 1, addr, pa => do
      let pte ← pgtableWalk root addr true
      if pte = 0 then
        return -1
      else
        let value ← loadWord pte
        if ptePresent value then
          return -1
        else
          storeWord pte (mkPte pa (flags ||| pteV))
          pgtableMapLoop root flags pages (wadd addr pageSize) (wadd pa pageSize)

/-- `pgtable_map`. Both ends of the loop are page-aligned, so it makes one
round for each page between them, and none when `va + size` has wrapped. -/
def pgtableMap (root va pa size flags : Nat) : K Int := do
  let start := alignDown va pageSize
  let last := alignUp (wadd va size) pageSize
  kassert (root ≠ 0) "root != 0"
  kassert (size ≠ 0) "size != 0"
  kassert (pageAligned pa) "(pa & PAGE_MASK) == 0"
  pgtableMapLoop root flags ((last - start) / pageSize) start pa

/-- The loop of `pgtable_unmap`, with the pages that are left. -/
def pgtableUnmapLoop (root : Nat) : (pages addr : Nat) → K Unit
  | 0, _ => pure ()
  | pages + 1, addr => do
      let pte ← pgtableWalk root addr false
      kassert (pte ≠ 0) "pte != 0"
      let value ← loadWord pte
      kassert (ptePresent value) "pte_present(*pte)"
      kassert (pteLeaf value) "pte_leaf(*pte)"
      storeWord pte 0
      pgtableUnmapLoop root pages (wadd addr pageSize)

/-- `pgtable_unmap`. -/
def pgtableUnmap (root va size : Nat) : K Unit := do
  let start := alignDown va pageSize
  let last := alignUp (wadd va size) pageSize
  kassert (root ≠ 0) "root != 0"
  kassert (size ≠ 0) "size != 0"
  pgtableUnmapLoop root ((last - start) / pageSize) start

/-- `pgtable_free_walk`, down to a depth of recursion. -/
def pgtableFreeFrom : (depth root : Nat) → K Unit
  | 0, _ => throw .hang
  | depth + 1, root => do
      kassert (root ≠ 0) "root != 0"
      countUp (fun i => do
        let pte ← loadWord (root + 8 * i)
        if ptePresent pte = false then
          pure ()
        else if pteLeaf pte then
          storeWord (root + 8 * i) 0
        else
          pgtableFreeFrom depth (pteToPa pte)
          storeWord (root + 8 * i) 0) ptrsPerPt
      pageFree root

/-- `pgtable_free_walk`. -/
def pgtableFreeWalk (root : Nat) : K Unit :=
  pgtableFreeFrom loopBound root

end

theorem vpnIndex_eq (level va : Nat) : vpnIndex level va = va / 2 ^ (12 + 9 * level) % 512 := by
  unfold vpnIndex
  rw [Nat.shiftRight_eq_div_pow]
  exact and_low _ 9

theorem ptePresent_iff {pte : Nat} : ptePresent pte = true ↔ pte % 2 = 1 := by
  unfold ptePresent
  rw [bne_iff_ne, pteV, Nat.and_one_is_mod]
  omega

@[simp] theorem ptePresent_zero : ptePresent 0 = false := rfl

theorem mkPte_eq {pa flags : Nat} (small : flags < 1024) :
    mkPte pa flags = pa / 4096 * 1024 + flags := by
  unfold mkPte paToPte
  rw [shiftLeft_or_low (k := 10) small, Nat.shiftRight_eq_div_pow]
  rfl

theorem pteFlags_eq (pte : Nat) : pteFlags pte = pte % 1024 := and_low pte 10

theorem pteToPa_eq (pte : Nat) : pteToPa pte = pte / 1024 % 2 ^ 44 * 4096 := by
  have field : ptePfn pte = pte / 1024 % 2 ^ 44 := by
    refine Nat.eq_of_testBit_eq fun i => ?_
    unfold ptePfn ptePpnMask
    rw [show pte / 1024 = pte >>> 10 by rw [Nat.shiftRight_eq_div_pow]]
    simp only [Nat.testBit_shiftRight, Nat.testBit_and, Nat.testBit_shiftLeft,
      Nat.testBit_two_pow_sub_one, Nat.testBit_mod_two_pow]
    rw [show 10 + i - 10 = i by omega]
    simp [Bool.and_comm]
  unfold pteToPa
  rw [field, Nat.shiftLeft_eq]

/-- The low bits of an entry do not depend on the page number it carries. -/
theorem pteLeaf_eq (pte : Nat) : pteLeaf pte = pteLeaf (pte % 1024) := by
  unfold pteLeaf
  congr 1
  refine Nat.eq_of_testBit_eq fun i => ?_
  rw [show pte % 1024 = pte % 2 ^ 10 from rfl]
  simp only [Nat.testBit_and, Nat.testBit_mod_two_pow]
  by_cases low : i < 10
  · simp [low]
  · have high : (14 : Nat).testBit i = false :=
      Nat.testBit_lt_two_pow (Nat.lt_of_lt_of_le (by decide : 14 < 2 ^ 10)
        (Nat.pow_le_pow_right (by decide) (by omega)))
    simp [low, high]

section

variable {pa flags : Nat}

theorem mkPte_lt (small : flags < 1024) (low : pa < 2 ^ 64) : mkPte pa flags < 2 ^ 64 := by
  rw [mkPte_eq small]
  omega

theorem mkPte_present (small : flags < 1024) (valid : flags % 2 = 1) :
    ptePresent (mkPte pa flags) = true := by
  rw [ptePresent_iff, mkPte_eq small]
  omega

theorem mkPte_flags (small : flags < 1024) : pteFlags (mkPte pa flags) = flags := by
  rw [pteFlags_eq, mkPte_eq small]
  omega

/-- A flag is in an entry when it is among the flags that the entry was made of. -/
theorem mkPte_and {flag : Nat} (small : flags < 1024) (low : flag < 1024) :
    mkPte pa flags &&& flag = flags &&& flag := by
  have flags' : mkPte pa flags % 1024 = flags := by
    rw [mkPte_eq small]
    omega
  have cut := Nat.and_mod_two_pow (a := mkPte pa flags) (b := flag) (n := 10)
  rw [show (2 : Nat) ^ 10 = 1024 from rfl, flags', Nat.mod_eq_of_lt low,
    Nat.mod_eq_of_lt (lt_of_le_of_lt Nat.and_le_right low)] at cut
  exact cut

theorem mkPte_leaf (small : flags < 1024) : pteLeaf (mkPte pa flags) = pteLeaf flags := by
  rw [pteLeaf_eq, mkPte_eq small]
  congr 1
  omega

theorem mkPte_pa (small : flags < 1024) (aligned : pa % 4096 = 0) :
    pteToPa (mkPte pa flags) = pa % 2 ^ 56 := by
  rw [pteToPa_eq, mkPte_eq small]
  omega

end

theorem zeroWords_apply (mem : Mem) (page count x : Nat) :
    zeroWords mem page count x = if page ≤ x ∧ x < page + 8 * count then 0 else mem x := by
  induction count with
  | zero => simp [zeroWords]
  | succ count ih =>
      unfold zeroWords
      simp only [Mem.store, ih]
      split
      · rw [if_pos (by omega)]
        simp
      · split
        · rw [if_pos (by omega)]
        · rw [if_neg (by omega)]

/-- `page_zero` clears one page. -/
theorem pageZero_apply (mem : Mem) (page x : Nat) :
    pageZero mem page x = if page ≤ x ∧ x < page + 4096 then 0 else mem x :=
  zeroWords_apply mem page 512 x

end KuroOS
