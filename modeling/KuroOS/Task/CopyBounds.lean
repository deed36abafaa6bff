import KuroOS.Task.Load

/-!
# Where the loader copies to

`elf_load` computes the part of a page that gets file data from sums that may
wrap. Here it is run with a copy that asserts that the part lies in the page, and
nothing changes.
-/

namespace KuroOS

open Base

/-- "Copy file data" of `elf_load`, with an assertion before `mem_copy`. -/
def elfCopyChecked (phdr elfData fileOff pageVa copyStart page : Nat) : K Unit := do
  match ← elfCopyRange phdr pageVa copyStart with
  | none => pure ()
  | some (copyStart, copyEnd, segOff) =>
      if copyEnd > copyStart then
        kassert (copyStart < copyEnd ∧ copyEnd ≤ pageSize) "copy_start < copy_end && copy_end <= PAGE_SIZE"
        copyFromVirtual (page + copyStart) (wadd (wadd elfData fileOff) segOff) (copyEnd - copyStart)
      else
        pure ()

/-- The assertion never fails. -/
theorem elfCopyChecked_eq {phdr elfData fileOff pageVa copyStart page : Nat} (fits : pageVa < 2 ^ 64) :
    elfCopyChecked phdr elfData fileOff pageVa copyStart page = elfCopyPage phdr elfData fileOff pageVa copyStart page := by
  funext s
  have range : wp (elfCopyRange phdr pageVa copyStart) s _ fun _ _ => True := elfCopyRange_spec fits s
  unfold elfCopyChecked elfCopyPage
  change EStateM.bind _ _ s = EStateM.bind _ _ s
  unfold EStateM.bind
  cases outcome : elfCopyRange phdr pageVa copyStart s with
  | error reason s₁ => rfl
  | ok range' s₁ =>
      have bound := (wp_returned range outcome).2
      cases range' with
      | none => rfl
      | some found =>
          obtain ⟨start, stop, off⟩ := found
          have inPage := (bound start stop off rfl).2
          dsimp only
          by_cases some : stop > start
          · rw [if_pos some, if_pos some, kassert, if_pos ⟨some, inPage⟩]
            rfl
          · rw [if_neg some, if_neg some]

/-- The copy stores into its page only. -/
theorem elfCopyPage_stores {phdr elfData fileOff pageVa copyStart page : Nat} (fits : pageVa < 2 ^ 64)
    (room : page + pageSize ≤ 2 ^ 64) (s : Kernel) :
    wp (elfCopyPage phdr elfData fileOff pageVa copyStart page) s
      (fun _ s' => ∀ x, x < page ∨ page + pageSize ≤ x → s'.mem x = s.mem x) fun _ _ => True := by
  unfold elfCopyPage
  refine wp_bind_of (elfCopyRange_spec fits s) ?_
  rintro range s₁ ⟨looked, inPage⟩
  cases range with
  | none =>
      rw [wp_pure]
      exact fun x _ => by rw [looked.mem]
  | some range =>
      obtain ⟨start, stop, off⟩ := range
      obtain ⟨_, small⟩ := inPage start stop off rfl
      simp only [pageSize] at room ⊢
      by_cases some : stop > start
      · rw [if_pos some]
        refine wp_mono (copyFromVirtual_spec (by omega) s₁) ?_ fun _ _ => id
        rintro _ s₂ ⟨_, same⟩ x outside
        rw [same x (by omega), looked.mem]
      · rw [if_neg some, wp_pure]
        exact fun x _ => by rw [looked.mem]

/-- How `elf_load` copies file data into a page. -/
abbrev ElfCopy := (phdr elfData fileOff pageVa copyStart page : Nat) → K Unit

section

variable [Layout] (copy : ElfCopy)

/-! ### `elf_load` with a copy of choice -/

def elfLoadPageWith (pagetable phdr elfData fileOff vaStart memOff j : Nat) : K Bool := do
  let page ← pageAlloc
  if page = 0 then
    return false
  else
    modifyMem (memZero · page pageSize)
    let pageVa := wadd vaStart (j * pageSize)
    copy phdr elfData fileOff pageVa (if j = 0 then memOff else 0) page
    let flags := elfFlags (← loadVirtual (wadd phdr Phdr.pFlags) 4)
    if (← pgtableMap pagetable pageVa page pageSize flags) ≠ 0 then
      pageFree page
      return false
    else
      return true

def elfLoadPagesWith (pagetable phdr elfData fileOff vaStart memOff : Nat) : (pages j : Nat) → K Bool
  | 0, _ => return true
  | pages + 1, j => do
      if ← elfLoadPageWith copy pagetable phdr elfData fileOff vaStart memOff j then
        elfLoadPagesWith pagetable phdr elfData fileOff vaStart memOff pages (j + 1)
      else
        return false

def elfLoadSegmentWith (pagetable elfData i : Nat) : K Bool := do
  let phoff ← loadVirtual (wadd elfData Ehdr.ePhoff) 8
  let phentsize ← loadVirtual (wadd elfData Ehdr.ePhentsize) 2
  let phdr := wadd (wadd elfData phoff) (i * phentsize)
  if (← loadVirtual (wadd phdr Phdr.pType) 4) ≠ ptLoad then
    return true
  else
    let vaddr ← loadVirtual (wadd phdr Phdr.pVaddr) 8
    let memsz ← loadVirtual (wadd phdr Phdr.pMemsz) 8
    let fileOff ← loadVirtual (wadd phdr Phdr.pOffset) 8
    let vaStart := alignDown vaddr pageSize
    let vaEnd := alignUp (wadd vaddr memsz) pageSize
    elfLoadPagesWith copy pagetable phdr elfData fileOff vaStart (wsub vaddr vaStart)
      (wsub vaEnd vaStart / pageSize) 0

def elfLoadSegmentsWith (pagetable elfData : Nat) : (fuel i : Nat) → K Bool
  | 0, _ => throw .hang
  | fuel + 1, i => do
      if i < (← loadVirtual (wadd elfData Ehdr.ePhnum) 2) then
        if ← elfLoadSegmentWith copy pagetable elfData i then
          elfLoadSegmentsWith pagetable elfData fuel (i + 1)
        else
          return false
      else
        return true

def elfLoadWith (pagetable elfData : Nat) : K Nat := do
  let entry ← loadVirtual (wadd elfData Ehdr.eEntry) 8
  if ← elfLoadSegmentsWith copy pagetable elfData (2 ^ 16) 0 then
    return entry
  else
    return 0

variable {copy} (same : ∀ phdr elfData fileOff pageVa copyStart page, pageVa < 2 ^ 64 →
  copy phdr elfData fileOff pageVa copyStart page = elfCopyPage phdr elfData fileOff pageVa copyStart page)

include same

theorem elfLoadPageWith_eq : elfLoadPageWith copy = elfLoadPage := by
  funext pagetable phdr elfData fileOff vaStart memOff j
  unfold elfLoadPageWith elfLoadPage
  simp only [same _ _ _ _ _ _ (wadd_lt vaStart (j * pageSize))]

theorem elfLoadPagesWith_eq (pagetable phdr elfData fileOff vaStart memOff pages j : Nat) :
    elfLoadPagesWith copy pagetable phdr elfData fileOff vaStart memOff pages j =
      elfLoadPages pagetable phdr elfData fileOff vaStart memOff pages j := by
  induction pages generalizing j with
  | zero => rfl
  | succ pages ih => simp only [elfLoadPagesWith, elfLoadPages, elfLoadPageWith_eq same, ih]

theorem elfLoadSegmentsWith_eq (pagetable elfData fuel i : Nat) :
    elfLoadSegmentsWith copy pagetable elfData fuel i = elfLoadSegments pagetable elfData fuel i := by
  induction fuel generalizing i with
  | zero => rfl
  | succ fuel ih =>
      simp only [elfLoadSegmentsWith, elfLoadSegments, elfLoadSegmentWith, elfLoadSegment, elfLoadPagesWith_eq same, ih]

/-- A copy that does the same makes a loader that does the same. -/
theorem elfLoadWith_eq : elfLoadWith copy = elfLoad := by
  funext pagetable elfData
  simp only [elfLoadWith, elfLoad, elfLoadSegmentsWith_eq same]

end

/-- Whatever the file holds, each `mem_copy` of `elf_load` has
`copy_start < copy_end <= PAGE_SIZE`: asserting so changes nothing. The copy stores
into its page only. -/
theorem elf_copies_in_page [Layout] :
    elfLoadWith elfCopyChecked = elfLoad ∧
      ∀ (phdr elfData fileOff vaStart memOff j page : Nat) (s s' : Kernel), page + pageSize ≤ 2 ^ 64 →
        elfCopyPage phdr elfData fileOff (wadd vaStart (j * pageSize)) (if j = 0 then memOff else 0) page s = .ok () s' →
        ∀ x, x < page ∨ page + pageSize ≤ x → s'.mem x = s.mem x := by
  refine ⟨elfLoadWith_eq fun _ _ _ _ _ _ fits => elfCopyChecked_eq fits, ?_⟩
  intro phdr elfData fileOff vaStart memOff j page s s' room returned
  exact wp_returned (elfCopyPage_stores (wadd_lt _ _) room s) returned

end KuroOS
