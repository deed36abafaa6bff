import KuroOS.Memory.Sv39
import KuroOS.Task.Load

/-!
# What a program file says

The headers and segments of a file as functions of its bytes, what the ELF
specification asks of them, and the file in the kernel's memory: the loader reads
it through the page table that is active, in which the kernel is mapped to itself.
-/

namespace KuroOS

open Base

/-! ### The fields of a file -/

/-- `e_entry`. -/
def elfEntry (file : Mem) : Nat := file.load Ehdr.eEntry 8

/-- `e_phoff`. -/
def elfPhoff (file : Mem) : Nat := file.load Ehdr.ePhoff 8

/-- `e_phentsize`. -/
def elfPhentsize (file : Mem) : Nat := file.load Ehdr.ePhentsize 2

/-- `e_phnum`. -/
def elfPhnum (file : Mem) : Nat := file.load Ehdr.ePhnum 2

/-- `sizeof(Elf64_Phdr)`. -/
@[simp] abbrev phdrSize : Nat := 56

/-- A program header. -/
structure Segment where
  type : Nat
  flags : Nat
  offset : Nat
  vaddr : Nat
  filesz : Nat
  memsz : Nat

/-- The program header at an index. -/
def elfSegment (file : Mem) (i : Nat) : Segment :=
  let phdr := elfPhoff file + i * elfPhentsize file
  { type := file.load (phdr + Phdr.pType) 4
    flags := file.load (phdr + Phdr.pFlags) 4
    offset := file.load (phdr + Phdr.pOffset) 8
    vaddr := file.load (phdr + Phdr.pVaddr) 8
    filesz := file.load (phdr + Phdr.pFilesz) 8
    memsz := file.load (phdr + Phdr.pMemsz) 8 }

namespace Segment

/-- The first page of a segment. -/
def firstVpn (seg : Segment) : Nat := seg.vaddr / 4096

/-- The page after the last one of a segment. -/
def endVpn (seg : Segment) : Nat := (seg.vaddr + seg.memsz + 4095) / 4096

/-- The byte of a segment at an address: the file's, or 0. -/
def byte (seg : Segment) (file : Mem) (va : Nat) : UInt8 :=
  if seg.vaddr ≤ va ∧ va < seg.vaddr + seg.filesz then file (seg.offset + (va - seg.vaddr)) else 0

/-- What the ELF specification asks of a segment in a file of a size, for addresses
that the page tables can translate. -/
structure WellFormed (seg : Segment) (size : Nat) : Prop where
  file : seg.offset + seg.filesz ≤ size
  memory : seg.filesz ≤ seg.memsz
  address : seg.vaddr + seg.memsz ≤ maxVa

end Segment

/-- A file that is well formed in the sense of the ELF specification. -/
structure ElfFile (file : Mem) (size : Nat) : Prop where
  header : ehdrSize ≤ size
  entries : elfPhentsize file = phdrSize
  table : elfPhoff file + elfPhnum file * phdrSize ≤ size
  segments : ∀ i < elfPhnum file, (elfSegment file i).type = ptLoad → (elfSegment file i).WellFormed size

/-- The little-endian bytes of a number. -/
def leBytes : (width n : Nat) → List UInt8
  | 0, _ => []
  | width + 1, n => UInt8.ofNat n :: leBytes width (n / 256)

/-- The bytes of a program header. -/
def Segment.bytes (seg : Segment) : List UInt8 :=
  leBytes 4 seg.type ++ leBytes 4 seg.flags ++ leBytes 8 seg.offset ++ leBytes 8 seg.vaddr ++ leBytes 8 seg.vaddr ++
    leBytes 8 seg.filesz ++ leBytes 8 seg.memsz ++ leBytes 8 4096

/-- The bytes of an executable: its header, its program headers, its contents. -/
def elfBytes (entry : Nat) (segments : List Segment) (contents : List UInt8) : List UInt8 :=
  elfMagic ++ List.replicate 12 0 ++ leBytes 2 etExec ++ leBytes 2 emRiscv ++ leBytes 4 1 ++ leBytes 8 entry ++
    leBytes 8 64 ++ leBytes 8 0 ++ leBytes 4 0 ++ leBytes 2 64 ++ leBytes 2 56 ++ leBytes 2 segments.length ++
    List.replicate 6 0 ++ segments.flatMap Segment.bytes ++ contents

/-- A file with given bytes. -/
def fileOf (bytes : List UInt8) : Mem := fun x => bytes.getD x 0

variable [Layout]

variable {own own' : Nat → Owner} {free : List Nat} {s s' : Kernel} {space : Space} {root : Nat} {dir : Directory}
  {user : UserMap} {file : Mem} {elfData size : Nat} {halt : Halt → Kernel → Prop}

/-- Pages of RAM are mapped to themselves for the kernel. -/
theorem SpaceTables.sv39_ram (tables : SpaceTables own s.mem space root dir) (pool : Pool own free s)
    (leaves : ∀ n, dir.leafAt s.mem n = spaceEntry user n) (plain : ∀ n, KernelVpn n → user n = none) {va : Nat}
    (low : ramBase ≤ va) (high : va < ramEnd) : sv39 s.mem root va .read = some va := by
  simp only [ramBase, ramEnd] at low high
  have vpn : sv39Vpn va = va / 4096 := by
    unfold sv39Vpn
    omega
  have entry : dir.leafAt s.mem (va / 4096) = mkPte (4096 * (va / 4096)) (pageKernel ||| pteV) := by
    rw [leaves, spaceEntry, plain _ (.inl (by omega)), kernelEntry, if_pos (by omega)]
  have present : ptePresent (mkPte (4096 * (va / 4096)) (pageKernel ||| pteV)) = true := mkPte_present (by decide) (by decide)
  have leaf : pteLeaf (mkPte (4096 * (va / 4096)) (pageKernel ||| pteV)) = true := (mkPte_leaf (by decide)).trans (by decide)
  have grants : Access.read.grants (mkPte (4096 * (va / 4096)) (pageKernel ||| pteV)) = true := by
    rw [Access.grants, mkPte_and (by decide) (by decide)]
    decide
  unfold sv39
  rw [if_pos (by omega), show sv39Levels - 1 = 2 from rfl, tables.sv39From pool, vpn, entry, present, leaf, grants,
    mkPte_pa (by decide) (by omega)]
  simp only [Bool.and_self, if_true, Option.some.injEq]
  omega

/-- The active page table maps the kernel, and is not being built. -/
structure ActiveKernel (own : Nat → Owner) (s : Kernel) : Prop where
  tables : ∃ space dir user, space ≠ .pending ∧ SpaceTables own s.mem space s.satpRoot dir ∧
    (∀ n, dir.leafAt s.mem n = spaceEntry user n) ∧ ∀ n, KernelVpn n → user n = none

/-- A file in the kernel's memory, outside the page pool. -/
structure FileAt (own : Nat → Owner) (elfData size : Nat) (file : Mem) (s : Kernel) : Prop where
  active : ActiveKernel own s
  ram : ∀ i < size, ramBase ≤ elfData + i ∧ elfData + i < ramEnd
  bytes : ∀ i < size, s.mem (elfData + i) = file i
  outside : ∀ i < size, own (pageOf (elfData + i)) = .outside ∧ elfData + i ∉ node Layout.freePageList

namespace FileAt

/-- Loading leaves the file alone. -/
theorem loads (at_ : FileAt own elfData size file s) (pool : Pool own free s) (loads : Loads own s own' s') :
    FileAt own' elfData size file s' := by
  obtain ⟨space, dir, user, other, tables, leaves, plain⟩ := at_.active.tables
  have foreign : Owner.table space ∉ loading := by simp [loading, other]
  have same : ∀ x, own (pageOf x) = .table space → s'.mem x = s.mem x := fun x inTable =>
    loads.bytes (by rw [inTable]; exact foreign) (pool.not_head (by simp [inTable]))
  have root : s'.satpRoot = s.satpRoot := by rw [loads.globals]
  refine ⟨⟨space, dir, user, other, ?_, fun n => (tables.leafAt_congr pool same n).trans (leaves n), plain⟩, at_.ram,
    fun i low => ?_, fun i low => ?_⟩
  · rw [root]
    exact tables.congr pool (loads.own_iff foreign) same
  · obtain ⟨here, noHead⟩ := at_.outside i low
    exact (loads.bytes (by simp [here, loading]) noHead).trans (at_.bytes i low)
  · obtain ⟨here, noHead⟩ := at_.outside i low
    exact ⟨(loads.own_iff (by simp [loading]) _).mpr here, noHead⟩

/-- A byte of the file is read. -/
theorem read (at_ : FileAt own elfData size file s) (pool : Pool own free s) {i : Nat} (inside : i < size) :
    wp (readVirtual (elfData + i)) s (fun byte s' => byte = file i ∧ s' = s) halt := by
  obtain ⟨space, dir, user, _, tables, leaves, plain⟩ := at_.active.tables
  obtain ⟨low, high⟩ := at_.ram i inside
  have notUart : isUart (elfData + i) = false := by
    simp only [isUart, uartBase, pageSize, ramBase] at *
    simp only [Bool.and_eq_false_iff, decide_eq_false_iff_not]
    omega
  unfold readVirtual
  rw [wp_bind, wp_get, tables.sv39_ram pool leaves plain low high]
  dsimp only
  rw [notUart, if_neg (by decide), wp_pure]
  exact ⟨at_.bytes i inside, rfl⟩

/-- A field of the file is read. -/
theorem field (at_ : FileAt own elfData size file s) (pool : Pool own free s) {offset width : Nat}
    (inside : offset + width ≤ size) :
    wp (loadVirtual (elfData + offset) width) s (fun value s' => value = file.load offset width ∧ s' = s) halt := by
  induction width generalizing offset with
  | zero =>
      rw [loadVirtual, wp_pure]
      exact ⟨rfl, rfl⟩
  | succ width ih =>
      have high := (at_.ram offset (by omega)).2
      simp only [ramEnd] at high
      rw [loadVirtual]
      refine wp_bind_of (at_.read pool (show offset < size by omega)) ?_
      rintro _ _ ⟨rfl, rfl⟩
      rw [wadd_of_lt (by omega), Nat.add_assoc]
      refine wp_bind_of (ih (by omega)) ?_
      rintro _ _ ⟨rfl, rfl⟩
      rw [wp_pure]
      exact ⟨rfl, rfl⟩

end FileAt

end KuroOS
