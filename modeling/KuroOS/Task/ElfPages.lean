import KuroOS.Task.ElfPlaces

/-!
# Which programs load, and with what rights

`elf_load` maps whole pages, one segment after the other, and gives every page
the flags of `PAGE_USER`. So segments that share a page do not load, and no page
is read-only; and nothing ties the entry to the pages.
-/

namespace KuroOS

open Base

section

variable [Layout]

variable {s : Kernel} {root size : Nat} {file : Mem}

/-! ### Segments that share a page -/

/-- Every segment is in user space: below the stack, and clear of the UART. -/
def InUserSpace (file : Mem) : Prop :=
  ∀ k < elfPhnum file, (elfSegment file k).type = ptLoad →
    (elfSegment file k).vaddr + (elfSegment file k).memsz ≤ userStackTop - pageSize ∧
    ((elfSegment file k).vaddr + (elfSegment file k).memsz ≤ uartBase ∨ uartBase + pageSize ≤ (elfSegment file k).vaddr)

/-- No two segments have a page in common. -/
def PagesApart (file : Mem) : Prop :=
  ∀ k l, k < l → l < elfPhnum file → (elfSegment file k).type = ptLoad → (elfSegment file l).type = ptLoad →
    ∀ n, ¬ (((elfSegment file k).firstVpn ≤ n ∧ n < (elfSegment file k).endVpn) ∧
      (elfSegment file l).firstVpn ≤ n ∧ n < (elfSegment file l).endVpn)

omit [Layout] in
/-- In an empty space, segments of user space may be mapped unless they share pages. -/
theorem InUserSpace.fits (inUser : InUserSpace file) : Fits (fun _ => none) file 0 ↔ PagesApart file := by
  constructor
  · intro fits k l less inside isLoad isLoad' n ⟨first, second⟩
    exact (fits k (Nat.zero_le _) (by omega)).2 l less inside n ⟨isLoad, first⟩ ⟨isLoad', second⟩
  · intro apart k _ inside
    refine ⟨fun n ⟨isLoad, low, high⟩ => ⟨rfl, fun kernel => ?_⟩, fun l less inside' n ⟨isLoad, first⟩ ⟨isLoad', second⟩ =>
      apart k l less inside' isLoad isLoad' n ⟨first, second⟩⟩
    obtain ⟨below, clear⟩ := inUser k inside isLoad
    simp only [userStackTop, uartBase, pageSize] at below clear
    unfold Segment.firstVpn at low
    unfold Segment.endVpn at high
    unfold KernelVpn at kernel
    omega

omit [Layout] in
/-- The stack's page is above the segments of user space. -/
theorem InUserSpace.below_stack (inUser : InUserSpace file) : stackVpn ∉ elfVpns file 0 := by
  rintro ⟨k, _, inside, isLoad, _, high⟩
  have below := (inUser k inside isLoad).1
  simp only [userStackTop, pageSize, stackVpn] at below high
  unfold Segment.endVpn at high
  omega

/-! ### The rights of a page -/

end

section

attribute [local instance] Layout.sample

/-- The segment of the sample program is in user space. -/
theorem hello_user : InUserSpace (fileOf helloBytes) := fun i inside _ => by
  have one : elfPhnum (fileOf helloBytes) = 1 := by decide
  obtain rfl : i = 0 := by omega
  decide

end

end KuroOS
