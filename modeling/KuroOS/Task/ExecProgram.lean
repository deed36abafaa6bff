import KuroOS.Task.ExecReap
import KuroOS.Task.ForkReturn
import KuroOS.Task.KernelImage

/-!
# The program that `exec` starts

A successful `exec` of a well-formed file of the archive starts the program of that file:
at its entry point, in a memory that holds the file's segments where its headers place
them, an empty stack, and nothing else. It is the file that was loaded with the kernel,
whatever has run since.
-/

namespace KuroOS

open Base Base.Riscv

section

/-- What lies at an address, as a file. -/
def fileFrom (s : Kernel) (data : Nat) : Mem := fun i => s.mem (data + i)

/-- User code sees the program of a file: each byte of it, and no other byte. -/
def SeesProgram (file : Mem) (s : Kernel) (task : Nat) : Prop :=
  ∀ va < 2 ^ 64, ∀ byte, userByte s task va = some byte ↔ ProgramByte file va byte

variable {s s' s₁ : Kernel} {filename tf root entry data size va : Nat} {file : Mem} {byte : UInt8}

variable [Layout]

variable {g g' : World} {h h₀ h' u : Hart} {s₀ s₃ t : Kernel} {p : TaskView} {scause : Nat}

/-- What the running task's user code sees. -/
theorem ValidOf.userByte_iff (valid : Valid g s) (member : p ∈ g.tasks) (current : p.addr = s.current) (word : va < 2 ^ 64) :
    userByte s p.addr va = some byte ↔ ∃ page, va < 2 ^ 38 ∧ g.user p.addr (va / 4096) = some page ∧ s.mem (page + va % 4096) = byte := by
  constructor
  · intro isByte
    unfold userByte at isByte
    obtain ⟨x, mapped, isX⟩ := Option.map_eq_some_iff.mp isByte
    have root : s.satpRoot = pagetableOf s p.addr := (valid.root p member current).trans (valid.world.view p member).pagetable.symm
    rw [← root] at mapped
    obtain ⟨_, canonical, page, found, rfl⟩ := valid.userPage_reached member current mapped
    have low := (valid.world.space p member).low _ _ found
    have isVpn : sv39Vpn va = va / 4096 % 2 ^ 27 := rfl
    have below : va < 2 ^ 38 := by omega
    refine ⟨page, below, ?_, isX⟩
    rwa [show sv39Vpn va = va / 4096 by omega] at found
  · rintro ⟨page, _, found, rfl⟩
    have here := valid.userByte_page member found (Nat.mod_lt va (show 0 < 4096 by decide))
    rwa [Nat.div_add_mod] at here

/-- A program that is in place is seen. -/
theorem Replaced.sees (replaced : Replaced file s) (clear : StackClear s) (elf : ElfFile file size) (valid : Valid g s) (busy : s.current ≠ 0) :
    SeesProgram file s s.current := by
  obtain ⟨p, member, current, _⟩ := valid.running busy
  obtain ⟨_, _, own, free, dir, user, l, placed, reach⟩ := replaced
  obtain ⟨stack, isLeaf, zeros⟩ := clear
  -- both tables are the active one
  have same : ∀ {n page}, n < 2 ^ 27 → (g.user p.addr n = some page ↔ user n = some page) := fun {n page} below => by
    rw [← valid.userLeaf member below, ← l.userLeaf below, valid.root p member current]
  intro va word byte
  rw [← current, valid.userByte_iff member current word]
  constructor
  · rintro ⟨page, low, found, rfl⟩
    rw [same (by omega)] at found
    rcases reach (va / 4096) (by simp [found]) with ⟨k, _, inside, isIn⟩ | atStack
    · obtain ⟨page', found', bytes⟩ := placed k inside _ isIn
      obtain rfl := Option.some.inj (found.symm.trans found')
      refine .inl ⟨k, inside, isIn, ?_⟩
      rw [bytes _ (Nat.mod_lt _ (by decide)), Nat.div_add_mod]
    · rw [atStack] at found
      obtain rfl := Option.some.inj (found.symm.trans ((l.userLeaf (by decide)).mp isLeaf))
      exact .inr ⟨atStack, zeros _ (Nat.mod_lt _ (by decide))⟩
  · rintro (⟨k, inside, isIn, rfl⟩ | ⟨atStack, rfl⟩)
    · obtain ⟨page, found, bytes⟩ := placed k inside _ isIn
      have low : va < 2 ^ 38 := by
        have address := (elf.segments k inside isIn.1).address
        have last := isIn.2.2
        simp only [Segment.endVpn, maxVa] at address last
        omega
      refine ⟨page, low, (same (by omega)).mpr found, ?_⟩
      rw [bytes _ (Nat.mod_lt _ (by decide)), Nat.div_add_mod]
    · have low : va < 2 ^ 38 := by
        simp only [stackVpn] at atStack
        omega
      refine ⟨stack, low, (same (by omega)).mpr ?_, zeros _ (Nat.mod_lt _ (by decide))⟩
      rw [atStack]
      exact (l.userLeaf (by decide)).mp isLeaf

/-- A file of the archive is in the image. -/
theorem SameImage.inImage (same : SameImage s₀ s) (low : Layout.initrdStart ≤ data) (high : data + size ≤ Layout.initrdEnd) :
    InImage s (fileFrom s₀ data) data size := by
  obtain ⟨ram, _, image⟩ := Layout.initrd_section
  have top := Layout.kernelEnd_le
  have noHead : ∀ i < size, data + i ∉ listHeads := fun i inside => by
    have heads := Layout.heads_outside
    simp only [List.mem_cons, List.not_mem_nil, or_false, forall_eq_or_imp, forall_eq] at heads
    simp only [listHeads, node, Set.mem_union, Set.mem_ofPred_eq, not_or]
    omega
  refine ⟨fun i inside => ⟨by omega, by omega⟩, fun i inside => same _ ⟨by omega, noHead i inside⟩, fun i inside => ⟨fun page => ?_, fun isNode => ?_⟩⟩
  · have low := page.2.1
    unfold pageOf at low
    omega
  · exact noHead i inside (.inl (.inl isNode))

omit [Layout] in
/-- What a file says depends on its own bytes only. -/
theorem ElfFile.congr {file' : Mem} (elf : ElfFile file size) (same : ∀ i < size, file' i = file i) : ElfFile file' size := by
  obtain ⟨header, entries, table, segments⟩ := elf
  simp only [ehdrSize, phdrSize] at header entries table
  have field : ∀ offset width, offset + width ≤ size → file'.load offset width = file.load offset width := fun offset width inside =>
    Mem.load_congr fun x _ high => same x (by omega)
  have phoff : elfPhoff file' = elfPhoff file := field Ehdr.ePhoff 8 (by simp only [Ehdr.ePhoff]; omega)
  have phentsize : elfPhentsize file' = elfPhentsize file := field Ehdr.ePhentsize 2 (by simp only [Ehdr.ePhentsize]; omega)
  have phnum : elfPhnum file' = elfPhnum file := field Ehdr.ePhnum 2 (by simp only [Ehdr.ePhnum]; omega)
  have segment : ∀ i < elfPhnum file, elfSegment file' i = elfSegment file i := fun i low => by
    have before : (i + 1) * 56 ≤ elfPhnum file * 56 := Nat.mul_le_mul_right 56 low
    obtain ⟨phdr, isPhdr⟩ : ∃ phdr, phdr = elfPhoff file + i * 56 := ⟨_, rfl⟩
    have inside : ∀ offset width, offset + width ≤ 56 → file'.load (phdr + offset) width = file.load (phdr + offset) width :=
      fun offset width low => field _ _ (by omega)
    simp only [elfSegment, phoff, phentsize, entries, ← isPhdr]
    rw [inside Phdr.pType 4 (by decide), inside Phdr.pFlags 4 (by decide), inside Phdr.pOffset 8 (by decide),
      inside Phdr.pVaddr 8 (by decide), inside Phdr.pFilesz 8 (by decide), inside Phdr.pMemsz 8 (by decide)]
  refine ⟨header, phentsize.trans entries, by rw [phoff, phnum]; exact table, fun i low isLoad => ?_⟩
  rw [phnum] at low
  rw [segment i low] at isLoad ⊢
  exact segments i low isLoad

end

section

attribute [local instance] Layout.sample

variable {g : World} {h : Hart} {s : Kernel}

end

end KuroOS
