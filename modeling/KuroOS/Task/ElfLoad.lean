import KuroOS.Task.ElfFile

/-!
# Loading a well-formed program

`elf_load` on a file that is well formed: every page of every segment is mapped,
and holds what the segment says.
-/

namespace KuroOS

open Base

/-- A page number is mapped to a page of a segment. -/
def Placed (seg : Segment) (file : Mem) (user : UserMap) (mem : Mem) (n : Nat) : Prop :=
  ∃ p, user n = some p ∧ ∀ k < 4096, mem (p + k) = seg.byte file (4096 * n + k)

/-- Mapped pages stay mapped, with their bytes. -/
def Grows (user : UserMap) (mem : Mem) (user' : UserMap) (mem' : Mem) : Prop :=
  ∀ n p, user n = some p → user' n = some p ∧ ∀ k < 4096, mem' (p + k) = mem (p + k)

section

variable {user user' user'' : UserMap} {mem mem' mem'' : Mem} {seg : Segment} {file : Mem} {n : Nat}

theorem Grows.refl : Grows user mem user mem := fun _ _ found => ⟨found, fun _ _ => rfl⟩

theorem Grows.trans (first : Grows user mem user' mem') (later : Grows user' mem' user'' mem'') :
    Grows user mem user'' mem'' := fun n p found =>
  have one := first n p found
  have two := later n p one.1
  ⟨two.1, fun k low => (two.2 k low).trans (one.2 k low)⟩

theorem Placed.grows (placed : Placed seg file user mem n) (grows : Grows user mem user' mem') :
    Placed seg file user' mem' n := by
  obtain ⟨p, found, holds⟩ := placed
  obtain ⟨found', same⟩ := grows n p found
  exact ⟨p, found', fun k low => (same k low).trans (holds k low)⟩

end

variable [Layout]

variable {own own' : Nat → Owner} {free : List Nat} {s s' : Kernel} {root page : Nat} {dir : Directory}
  {user : UserMap} {file : Mem} {elfData size : Nat} {halt : Halt → Kernel → Prop}

/-- Writing into the page in hand leaves the file alone. -/
theorem FileAt.fill (at_ : FileAt own elfData size file s) (pool : Pool own free s) (isData : own page = .data .pending)
    (globals : s' = { s with mem := s'.mem }) (same : ∀ x, pageOf x ≠ page → s'.mem x = s.mem x) :
    FileAt own elfData size file s' ∧ Pool own free s' ∧ Loads own s own s' := by
  have loads : Loads own s own s' := ⟨.of_bytes fun x foreign _ => same x (by
    rintro rfl
    simp [isData, loading] at foreign), by
      generalize s'.mem = m at *
      rw [globals]⟩
  refine ⟨at_.loads pool loads, pool.congr (fun x inside => same x ?_) (by rw [globals]), loads⟩
  rintro rfl
  rcases inside with isFree | isHead
  · simp [isData] at isFree
  · exact pool.not_head (by simp [isData]) isHead

/-- `mem_copy` of bytes of the file into the page in hand. -/
theorem copyFromVirtual_fills (at_ : FileAt own elfData size file s) (pool : Pool own free s) (isData : own page = .data .pending)
    {start offset length : Nat} (inPage : start + length ≤ 4096) (inFile : offset + length ≤ size) :
    wp (copyFromVirtual (page + start) (elfData + offset) length) s (fun _ s' => s' = { s with mem := s'.mem } ∧
      ∀ x, s'.mem x = if page + start ≤ x ∧ x < page + start + length then file (offset + (x - (page + start))) else s.mem x)
      halt := by
  have bounds := (pool.pages page (by simp [isData])).bounds
  unfold copyFromVirtual
  refine wp_countUp (fun i (s' : Kernel) => s' = { s with mem := s'.mem } ∧
    ∀ x, s'.mem x = if page + start ≤ x ∧ x < page + start + i then file (offset + (x - (page + start))) else s.mem x)
    ⟨rfl, fun x => by rw [if_neg (by omega)]⟩ ?_
  rintro i low s₁ ⟨globals, bytes⟩
  obtain ⟨at₁, pool₁, _⟩ := at_.fill pool isData globals fun x other => by
    rw [bytes, if_neg fun inside => other (pageOf_of_mem bounds.1 (by omega) (by omega))]
  have high := (at_.ram (offset + i) (by omega)).2
  simp only [ramEnd] at high
  rw [wadd_of_lt (show elfData + offset + i < 2 ^ 64 by omega), Nat.add_assoc elfData]
  refine wp_bind_of (at₁.read pool₁ (show offset + i < size by omega)) ?_
  rintro _ s₂ ⟨rfl, rfl⟩
  rw [wp_modifyMem, wadd_of_lt (by omega)]
  refine ⟨?_, fun x => ?_⟩
  · generalize s₂.mem = m at *
    rw [globals]
  · change Function.update s₂.mem (page + start + i) (file (offset + i)) x = _
    by_cases here : x = page + start + i
    · subst here
      rw [Function.update_self, if_pos (by omega), show page + start + i - (page + start) = i by omega]
    · rw [Function.update_of_ne here, bytes]
      by_cases before : page + start ≤ x ∧ x < page + start + i
      · rw [if_pos before, if_pos (by omega)]
      · rw [if_neg before, if_neg (by omega)]

/-- A segment of the file, at its header. -/
structure SegmentAt (file : Mem) (size : Nat) (phoff : Nat) (seg : Segment) : Prop where
  inFile : phoff + phdrSize ≤ size
  type : file.load (phoff + Phdr.pType) 4 = seg.type
  flags : file.load (phoff + Phdr.pFlags) 4 = seg.flags
  offset : file.load (phoff + Phdr.pOffset) 8 = seg.offset
  vaddr : file.load (phoff + Phdr.pVaddr) 8 = seg.vaddr
  filesz : file.load (phoff + Phdr.pFilesz) 8 = seg.filesz
  memsz : file.load (phoff + Phdr.pMemsz) 8 = seg.memsz
  wellFormed : seg.WellFormed size

variable {seg : Segment} {phoff : Nat}

/-- The part of a page that gets file data. -/
theorem elfCopyRange_of (at_ : FileAt own elfData size file s) (pool : Pool own free s) (segment : SegmentAt file size phoff seg)
    {pageVa copyStart : Nat} (reaches : seg.vaddr < pageVa + 4096) (low : pageVa < 2 ^ 38) :
    wp (elfCopyRange (elfData + phoff) pageVa copyStart) s (fun range s' => s' = s ∧
      range = if pageVa < seg.vaddr + seg.filesz then
        some (copyStart, if pageVa + 4096 < seg.vaddr + seg.filesz then 4096 else seg.vaddr + seg.filesz - pageVa,
          pageVa - seg.vaddr)
      else none) halt := by
  have inFile := segment.inFile
  have high := (at_.ram phoff (by simp only [phdrSize] at inFile; omega)).2
  obtain ⟨_, memory, address⟩ := segment.wellFormed
  simp only [ramEnd, maxVa, phdrSize] at high address inFile
  unfold elfCopyRange
  rw [wadd_of_lt (show elfData + phoff + Phdr.pVaddr < 2 ^ 64 by simp only [Phdr.pVaddr]; omega), Nat.add_assoc]
  refine wp_bind_of (at_.field pool (by simp only [Phdr.pVaddr]; omega)) ?_
  rintro _ _ ⟨rfl, rfl⟩
  rw [segment.vaddr, wadd_of_lt (show pageVa + pageSize < 2 ^ 64 by simp only [pageSize]; omega),
    if_pos (show pageVa + pageSize > seg.vaddr by simp only [pageSize]; omega),
    wadd_of_lt (show elfData + phoff + Phdr.pFilesz < 2 ^ 64 by simp only [Phdr.pFilesz]; omega), Nat.add_assoc]
  refine wp_bind_of (at_.field pool (by simp only [Phdr.pFilesz]; omega)) ?_
  rintro _ _ ⟨rfl, rfl⟩
  rw [segment.filesz, wadd_of_lt (by omega)]
  dsimp only
  by_cases some : pageVa < seg.vaddr + seg.filesz
  · rw [if_pos some, if_pos some, wp_pure, wsub_of_le (by omega) (by omega)]
    refine ⟨rfl, ?_⟩
    have offset : (if pageVa > seg.vaddr then wsub pageVa seg.vaddr else 0) = pageVa - seg.vaddr := by
      split
      · exact wsub_of_le (by omega) (by omega)
      · omega
    rw [offset]
  · rw [if_neg some, if_neg some, wp_pure]
    exact ⟨rfl, rfl⟩

/-- "Copy file data" fills a cleared page with the bytes of its segment. -/
theorem elfCopyPage_fills (at_ : FileAt own elfData size file s) (pool : Pool own free s) (segment : SegmentAt file size phoff seg)
    (isData : own page = .data .pending) (cleared : ∀ k < 4096, s.mem (page + k) = 0) {j : Nat}
    (inside : seg.firstVpn + j < 2 ^ 26) :
    wp (elfCopyPage (elfData + phoff) elfData seg.offset (4096 * (seg.firstVpn + j))
      (if j = 0 then seg.vaddr - 4096 * seg.firstVpn else 0) page) s (fun _ s' => s' = { s with mem := s'.mem } ∧
      (∀ x, pageOf x ≠ page → s'.mem x = s.mem x) ∧
      ∀ k < 4096, s'.mem (page + k) = seg.byte file (4096 * (seg.firstVpn + j) + k)) halt := by
  obtain ⟨inFile, memory, address⟩ := segment.wellFormed
  have bounds := (pool.pages page (by simp [isData])).bounds
  have first : 4096 * seg.firstVpn ≤ seg.vaddr ∧ seg.vaddr < 4096 * seg.firstVpn + 4096 := by
    unfold Segment.firstVpn
    omega
  simp only [maxVa] at address
  obtain ⟨pageVa, isVa⟩ : ∃ pageVa, pageVa = 4096 * (seg.firstVpn + j) := ⟨_, rfl⟩
  obtain ⟨copyStart, isStart⟩ : ∃ copyStart, copyStart = if j = 0 then seg.vaddr - 4096 * seg.firstVpn else 0 := ⟨_, rfl⟩
  have starts : pageVa + copyStart = max pageVa seg.vaddr := by
    rw [isStart]
    split <;> omega
  rw [← isVa, ← isStart]
  unfold elfCopyPage
  refine wp_bind_of (elfCopyRange_of at_ pool segment (by omega) (by omega)) ?_
  rintro _ _ ⟨rfl, rfl⟩
  have nothing : ∀ k < 4096, ¬ (seg.vaddr ≤ pageVa + k ∧ pageVa + k < seg.vaddr + seg.filesz) →
      seg.byte file (pageVa + k) = 0 := fun k _ none => by rw [Segment.byte, if_neg none]
  by_cases some : pageVa < seg.vaddr + seg.filesz
  · rw [if_pos some]
    obtain ⟨stop, isStop⟩ : ∃ stop, stop = if pageVa + 4096 < seg.vaddr + seg.filesz then 4096 else
      seg.vaddr + seg.filesz - pageVa := ⟨_, rfl⟩
    have stops : pageVa + stop = min (pageVa + 4096) (seg.vaddr + seg.filesz) := by
      rw [isStop]
      split <;> omega
    rw [← isStop]
    dsimp only
    by_cases more : stop > copyStart
    · have high := (at_.ram seg.offset (by omega)).2
      have few := (at_.ram (size - 1) (by omega)).2
      simp only [ramEnd] at high few
      rw [if_pos more, wadd_of_lt (show elfData + seg.offset < 2 ^ 64 by omega), wadd_of_lt (by omega), Nat.add_assoc elfData]
      refine wp_mono (copyFromVirtual_fills at_ pool isData (by omega) (by omega)) ?_ fun _ _ => id
      rintro _ s₁ ⟨globals, bytes⟩
      refine ⟨globals, fun x other => ?_, fun k low => ?_⟩
      · rw [bytes, if_neg fun touch => other (pageOf_of_mem bounds.1 (by omega) (by omega))]
      · rw [bytes]
        by_cases data : seg.vaddr ≤ pageVa + k ∧ pageVa + k < seg.vaddr + seg.filesz
        · rw [if_pos (by omega), Segment.byte, if_pos data]
          congr 1
          omega
        · rw [if_neg (by omega), cleared k low, nothing k low data]
    · rw [if_neg more, wp_pure]
      refine ⟨rfl, fun _ _ => rfl, fun k low => ?_⟩
      rw [cleared k low, nothing k low (by omega)]
  · rw [if_neg some]
    dsimp only
    rw [wp_pure]
    refine ⟨rfl, fun _ _ => rfl, fun k low => ?_⟩
    rw [cleared k low, nothing k low (by omega)]

/-- What a part of `elf_load` leaves behind: pages that were mapped stay, and those
that it maps have their numbers among `reached`. -/
structure Step (reached : Set Nat) (own : Nat → Owner) (user : UserMap) (s : Kernel) (own' : Nat → Owner)
    (user' : UserMap) (s' : Kernel) : Prop where
  loads : Loads own s own' s'
  grows : Grows user s.mem user' s'.mem
  reach : ∀ n, user' n ≠ none → user n ≠ none ∨ n ∈ reached

/-- The body of the page loop, for a page of a segment. -/
theorem elfLoadPage_of (l : Loading root own free dir user s) (at_ : FileAt own elfData size file s)
    (segment : SegmentAt file size phoff seg) {j n : Nat} (isVpn : n = seg.firstVpn + j) (inside : n < 2 ^ 26) :
    wp (elfLoadPage root (elfData + phoff) elfData seg.offset (4096 * seg.firstVpn) (seg.vaddr - 4096 * seg.firstVpn) j) s
      (fun more s' => ∃ own' free' dir' user', Loading root own' free' dir' user' s' ∧ Step {n} own user s own' user' s' ∧
        (more = true → user n = none ∧ ¬ KernelVpn n ∧ Placed seg file user' s'.mem n ∧ free.length ≤ free'.length + 3) ∧
        (more = false → user n ≠ none ∨ KernelVpn n ∨ free.length < 3)) halt := by
  unfold elfLoadPage
  refine wp_bind_of l.alloc ?_
  rintro page s₁ (⟨empty, rfl, rfl⟩ | ⟨own₁, free₁, shape, valid, l₁, loads₁, wasFree, isData, unmapped, keeps₁⟩)
  · rw [if_pos rfl, wp_pure]
    exact ⟨own, free, dir, user, l, ⟨.refl, .refl, fun _ => .inl⟩, by simp, fun _ => .inr (.inr (by simp [empty]))⟩
  have bounds := valid.bounds
  have inFile := segment.inFile
  simp only [phdrSize] at inFile
  have high := (at_.ram phoff (by omega)).2
  simp only [ramEnd] at high
  have isVa : wadd (4096 * seg.firstVpn) (j * pageSize) = 4096 * n := by
    simp only [pageSize]
    rw [wadd_of_lt (by omega)]
    omega
  rw [if_neg (by omega), wp_bind, wp_modifyMem]
  dsimp only
  rw [isVa]
  obtain ⟨s₂, is₂⟩ : ∃ s₂ : Kernel, s₂ = { s₁ with mem := memZero s₁.mem page pageSize } := ⟨_, rfl⟩
  have zero : ∀ x, s₂.mem x = if page ≤ x ∧ x < page + 4096 then 0 else s₁.mem x := fun x => by
    rw [is₂]
    exact memZero_apply (by simp only [pageSize]; omega)
  have zeroed : ∀ x, pageOf x ≠ page → s₂.mem x = s₁.mem x := fun x other => by
    rw [zero, if_neg fun touch => other (pageOf_of_mem bounds.1 touch.1 touch.2)]
  have globals₂ : s₂ = { s₁ with mem := s₂.mem } := by rw [is₂]
  obtain ⟨at₂, pool₂, loads₂⟩ := (at_.loads l.space.table.pool loads₁).fill l₁.space.table.pool isData globals₂ zeroed
  rw [← is₂, isVpn]
  refine wp_bind_of (elfCopyPage_fills at₂ pool₂ segment isData (fun k low => by rw [zero, if_pos (by omega)])
    (isVpn ▸ inside)) ?_
  rintro _ s₃ ⟨globals₃, same₃, holds₃⟩
  rw [← isVpn] at holds₃ ⊢
  obtain ⟨at₃, pool₃, loads₃⟩ := at₂.fill pool₂ isData globals₃ same₃
  rw [wadd_of_lt (show elfData + phoff + Phdr.pFlags < 2 ^ 64 by simp only [Phdr.pFlags]; omega), Nat.add_assoc]
  refine wp_bind_of (at₃.field pool₃ (show phoff + Phdr.pFlags + 4 ≤ size by simp only [Phdr.pFlags]; omega)) ?_
  rintro _ s₄ ⟨rfl, rfl⟩
  have total₄ : Loads own s own₁ s₄ := (loads₁.trans loads₂).trans loads₃
  have count₄ : s₄.nrFreePages = s₁.nrFreePages := by rw [globals₃, is₂]
  have l₄ : Loading root own₁ free₁ dir user s₄ := l₁.write count₄ fun x other =>
    have ne : pageOf x ≠ page := by
      rintro rfl
      exact other isData
    (same₃ x ne).trans (zeroed x ne)
  have inPage : ∀ m p, user m = some p → ∀ k < 4096, pageOf (p + k) = p := fun m p found k low =>
    pageOf_of_mem (l.space.table.pool.pages p (by simp [l.mapped m p found])).1 (by omega) (by omega)
  have kept : ∀ m p, user m = some p → ∀ k < 4096, s₄.mem (p + k) = s.mem (p + k) := fun m p found k low => by
    have here := inPage m p found k low
    have ne : pageOf (p + k) ≠ page := by
      rw [here]
      rintro rfl
      exact unmapped m found
    rw [same₃ _ ne, zeroed _ ne]
    exact keeps₁ _ (by rw [here]; exact l.mapped m p found)
  rw [elfFlags_eq]
  refine wp_bind_of (l₄.map inside rfl isData unmapped) ?_
  rintro r s₅ ⟨own₅, free₅, dir₅, loads₅, isData₅, keeps₅, ⟨rfl, l₅, absent, plain, used⟩ | ⟨refused, l₅, why⟩⟩
  · rw [if_neg (by simp), wp_pure]
    refine ⟨own₅, free₅, dir₅, user.add n page, l₅, ⟨total₄.trans loads₅, fun m p found => ⟨?_, fun k low => ?_⟩, fun m some => ?_⟩,
      fun _ => ⟨absent, plain, ⟨page, by simp [UserMap.add], fun k low => ?_⟩, ?_⟩, by simp⟩
    · have other : m ≠ n := by
        rintro rfl
        simp [absent] at found
      rwa [UserMap.add, Function.update_of_ne other]
    · rw [keeps₅ _ (by rw [inPage m p found k low]; exact l₁.mapped m p found)]
      exact kept m p found k low
    · by_cases here : m = n
      · exact .inr here
      · rw [UserMap.add, Function.update_of_ne here] at some
        exact .inl some
    · rw [keeps₅ _ (by rw [pageOf_of_mem bounds.1 (by omega) (by omega)]; exact isData)]
      exact holds₃ k low
    · rw [shape, List.length_cons]
      omega
  · rw [if_pos refused]
    refine wp_bind_of (l₅.release isData₅ unmapped) ?_
    rintro _ s₆ ⟨own₆, l₆, loads₆, _, _, keeps₆⟩
    rw [wp_pure]
    refine ⟨own₆, _, dir₅, user, l₆, ⟨(total₄.trans loads₅).trans loads₆, fun m p found => ⟨found, fun k low => ?_⟩, fun _ => .inl⟩,
      by simp, fun _ => why.imp id (.imp id fun short => by rw [shape, List.length_cons]; omega)⟩
    have here := inPage m p found k low
    rw [keeps₆ _ (by rw [here]; exact l₅.mapped m p found) (by rw [here]; rintro rfl; exact unmapped m found),
      keeps₅ _ (by rw [here]; exact l₁.mapped m p found)]
    exact kept m p found k low

namespace Step

variable {own'' : Nat → Owner} {s'' : Kernel} {user' user'' : UserMap} {A B : Set Nat}

theorem refl : Step A own user s own user s := ⟨.refl, .refl, fun _ => .inl⟩

theorem trans (first : Step A own user s own' user' s') (later : Step B own' user' s' own'' user'' s'') :
    Step (A ∪ B) own user s own'' user'' s'' where
  loads := first.loads.trans later.loads
  grows := first.grows.trans later.grows
  reach n some := by
    rcases later.reach n some with some | inside
    · exact (first.reach n some).imp id .inl
    · exact .inr (.inr inside)

theorem mono (step : Step A own user s own' user' s') (sub : A ⊆ B) : Step B own user s own' user' s' :=
  ⟨step.loads, step.grows, fun n some => (step.reach n some).imp id (sub ·)⟩

/-- A number that is not mapped afterwards was not mapped before. -/
theorem absent (step : Step A own user s own' user' s') {n : Nat} (later : user' n = none) : user n = none := by
  cases found : user n with
  | none => rfl
  | some p => simp [(step.grows n p found).1] at later

end Step

/-- Page numbers that may be mapped: they are not mapped yet, nor the kernel's. -/
def Vacant (user : UserMap) (A : Set Nat) : Prop := ∀ n ∈ A, user n = none ∧ ¬ KernelVpn n

/-- The page loop, from a page of a segment on. -/
theorem elfLoadPages_of (l : Loading root own free dir user s) (at_ : FileAt own elfData size file s)
    (segment : SegmentAt file size phoff seg) (pages j : Nat) (inside : seg.firstVpn + j + pages ≤ 2 ^ 26) :
    wp (elfLoadPages root (elfData + phoff) elfData seg.offset (4096 * seg.firstVpn) (seg.vaddr - 4096 * seg.firstVpn) pages j) s
      (fun more s' => ∃ own' free' dir' user', Loading root own' free' dir' user' s' ∧
        Step (Set.Ico (seg.firstVpn + j) (seg.firstVpn + j + pages)) own user s own' user' s' ∧
        (more = true → Vacant user (Set.Ico (seg.firstVpn + j) (seg.firstVpn + j + pages)) ∧
          (∀ n ∈ Set.Ico (seg.firstVpn + j) (seg.firstVpn + j + pages), Placed seg file user' s'.mem n) ∧
          free.length ≤ free'.length + 3 * pages) ∧
        (more = false → ¬ Vacant user (Set.Ico (seg.firstVpn + j) (seg.firstVpn + j + pages)) ∨ free.length < 3 * pages)) halt := by
  induction pages generalizing own free dir user s j with
  | zero =>
      rw [elfLoadPages, wp_pure]
      exact ⟨own, free, dir, user, l, .refl, fun _ => ⟨fun n inside => by simp at inside, fun n inside => by simp at inside,
        by omega⟩, by simp⟩
  | succ pages ih =>
      rw [elfLoadPages]
      refine wp_bind_of (elfLoadPage_of l at_ segment rfl (by omega)) ?_
      rintro more s₁ ⟨own₁, free₁, dir₁, user₁, l₁, step₁, yes₁, no₁⟩
      have here : seg.firstVpn + j ∈ Set.Ico (seg.firstVpn + j) (seg.firstVpn + j + (pages + 1)) := ⟨le_refl _, by omega⟩
      have sub : {seg.firstVpn + j} ⊆ Set.Ico (seg.firstVpn + j) (seg.firstVpn + j + (pages + 1)) := by
        rintro n rfl
        exact here
      cases more with
      | false =>
          rw [if_neg (by simp), wp_pure]
          refine ⟨own₁, free₁, dir₁, user₁, l₁, step₁.mono sub, by simp, fun _ => ?_⟩
          rcases no₁ rfl with present | kernel | short
          · exact .inl fun vacant => present (vacant _ here).1
          · exact .inl fun vacant => (vacant _ here).2 kernel
          · exact .inr (by omega)
      | true =>
          obtain ⟨absent, plain, placed, used⟩ := yes₁ rfl
          rw [if_pos rfl]
          refine wp_mono (ih l₁ (at_.loads l.space.table.pool step₁.loads) (j + 1) (by omega)) ?_ fun _ _ => id
          rintro more s₂ ⟨own₂, free₂, dir₂, user₂, l₂, step₂, yes₂, no₂⟩
          have rest : ∀ n, n ∈ Set.Ico (seg.firstVpn + j) (seg.firstVpn + j + (pages + 1)) ↔
              n = seg.firstVpn + j ∨ n ∈ Set.Ico (seg.firstVpn + (j + 1)) (seg.firstVpn + (j + 1) + pages) := fun n => by
            simp only [Set.mem_Ico]
            omega
          refine ⟨own₂, free₂, dir₂, user₂, l₂, (step₁.trans step₂).mono ?_, fun is => ?_, fun is => ?_⟩
          · rintro n (rfl | inside)
            · exact here
            · exact (rest n).mpr (.inr inside)
          · obtain ⟨vacant, placed₂, used₂⟩ := yes₂ is
            refine ⟨fun n inside => ?_, fun n inside => ?_, by omega⟩
            · rcases (rest n).mp inside with rfl | inside
              · exact ⟨absent, plain⟩
              · exact ⟨step₁.absent (vacant n inside).1, (vacant n inside).2⟩
            · rcases (rest n).mp inside with rfl | inside
              · exact placed.grows step₂.grows
              · exact placed₂ n inside
          · rcases no₂ is with taken | short
            · refine .inl fun vacant => taken fun n inside => ?_
              obtain ⟨none, foreign⟩ := vacant n ((rest n).mpr (.inr inside))
              refine ⟨?_, foreign⟩
              by_contra some
              rcases step₁.reach n some with some | same
              · exact some none
              · have : n = seg.firstVpn + j := same
                simp only [Set.mem_Ico] at inside
                omega
            · exact .inr (by omega)

omit [Layout] in
/-- The pages of a segment, and of a file up to a program header. -/
theorem Segment.vpn_bounds {seg : Segment} (wellFormed : seg.WellFormed size) :
    seg.firstVpn ≤ seg.endVpn ∧ seg.endVpn ≤ 2 ^ 26 := by
  have address := wellFormed.address
  simp only [maxVa] at address
  unfold Segment.firstVpn Segment.endVpn
  omega

/-- The page numbers of a program header. -/
def Segment.vpns (seg : Segment) : Set Nat := {n | seg.type = ptLoad ∧ n ∈ Set.Ico seg.firstVpn seg.endVpn}

/-- How many pages a program header has. -/
def Segment.pages (seg : Segment) : Nat := if seg.type = ptLoad then seg.endVpn - seg.firstVpn else 0

/-- A part of `elf_load` that is to map the pages of a segment. -/
def Maps (root : Nat) (file : Mem) (seg : Segment) (own : Nat → Owner) (free : List Nat) (user : UserMap) (s : Kernel)
    (more : Bool) (s' : Kernel) : Prop :=
  ∃ own' free' dir' user', Loading root own' free' dir' user' s' ∧ Step seg.vpns own user s own' user' s' ∧
    (more = true → Vacant user seg.vpns ∧ (∀ n ∈ seg.vpns, Placed seg file user' s'.mem n) ∧
      free.length ≤ free'.length + 3 * seg.pages) ∧
    (more = false → ¬ Vacant user seg.vpns ∨ free.length < 3 * seg.pages)

/-- The body of the segment loop. -/
theorem elfLoadSegment_of (l : Loading root own free dir user s) (at_ : FileAt own elfData size file s)
    (elf : ElfFile file size) {i : Nat} (inside : i < elfPhnum file) :
    wp (elfLoadSegment root elfData i) s (Maps root file (elfSegment file i) own free user s) halt := by
  have pool := l.space.table.pool
  obtain ⟨header, entries, table, segments⟩ := elf
  obtain ⟨phoff, isPhoff⟩ : ∃ phoff, phoff = elfPhoff file + i * elfPhentsize file := ⟨_, rfl⟩
  have inFile : phoff + phdrSize ≤ size := by
    have : i * phdrSize + phdrSize ≤ elfPhnum file * phdrSize := by
      rw [← Nat.succ_mul]
      exact Nat.mul_le_mul_right _ inside
    rw [isPhoff, entries]
    omega
  simp only [phdrSize, ehdrSize] at inFile header
  have high := (at_.ram phoff (by omega)).2
  simp only [ramEnd] at high
  have phdrAt : wadd (wadd elfData (elfPhoff file)) (i * elfPhentsize file) = elfData + phoff := by
    rw [wadd_of_lt (show elfData + elfPhoff file < 2 ^ 64 by omega), wadd_of_lt (by omega), isPhoff, Nat.add_assoc]
  have word : ∀ offset, offset + 8 ≤ 56 → wadd (elfData + phoff) offset = elfData + (phoff + offset) := fun offset low => by
    rw [wadd_of_lt (by omega), Nat.add_assoc]
  unfold elfLoadSegment
  rw [wadd_of_lt (show elfData + Ehdr.ePhoff < 2 ^ 64 by simp only [Ehdr.ePhoff]; omega)]
  refine wp_bind_of (at_.field pool (by simp only [Ehdr.ePhoff]; omega)) ?_
  rintro _ s₁ ⟨rfl, rfl⟩
  rw [wadd_of_lt (show elfData + Ehdr.ePhentsize < 2 ^ 64 by simp only [Ehdr.ePhentsize]; omega)]
  refine wp_bind_of (at_.field pool (by simp only [Ehdr.ePhentsize]; omega)) ?_
  rintro _ s₂ ⟨rfl, rfl⟩
  dsimp only
  rw [show wadd (wadd elfData (file.load Ehdr.ePhoff 8)) (i * file.load Ehdr.ePhentsize 2) = elfData + phoff from phdrAt,
    word _ (by decide)]
  refine wp_bind_of (at_.field pool (by simp only [Phdr.pType]; omega)) ?_
  rintro _ s₃ ⟨rfl, rfl⟩
  obtain ⟨seg, isSeg⟩ : ∃ seg, seg = elfSegment file i := ⟨_, rfl⟩
  have fields := segments i inside
  rw [← isSeg] at fields ⊢
  by_cases other : file.load (phoff + Phdr.pType) 4 ≠ ptLoad
  · have notLoad : seg.type ≠ ptLoad := by
      rw [isSeg]
      simpa only [elfSegment, ← isPhoff] using other
    rw [if_pos other, wp_pure]
    refine ⟨own, free, dir, user, l, .refl, fun _ => ⟨fun n member => absurd member.1 notLoad, fun n member =>
      absurd member.1 notLoad, by omega⟩, by simp⟩
  have isLoad : seg.type = ptLoad := by
    rw [isSeg]
    simpa only [elfSegment, ← isPhoff, not_not] using other
  have wellFormed := fields isLoad
  have segment : SegmentAt file size phoff seg := by
    refine ⟨inFile, ?_, ?_, ?_, ?_, ?_, ?_, wellFormed⟩ <;> rw [isSeg] <;> simp only [elfSegment, ← isPhoff]
  rw [if_neg other, word _ (by decide)]
  refine wp_bind_of (at_.field pool (by simp only [Phdr.pVaddr]; omega)) ?_
  rintro _ s₄ ⟨rfl, rfl⟩
  rw [word _ (by decide)]
  refine wp_bind_of (at_.field pool (by simp only [Phdr.pMemsz]; omega)) ?_
  rintro _ s₅ ⟨rfl, rfl⟩
  rw [word _ (by decide)]
  refine wp_bind_of (at_.field pool (by simp only [Phdr.pOffset]; omega)) ?_
  rintro _ s₆ ⟨rfl, rfl⟩
  obtain ⟨ordered, few⟩ := Segment.vpn_bounds wellFormed
  have address := wellFormed.address
  simp only [maxVa] at address
  have vaStart : alignDown seg.vaddr pageSize = 4096 * seg.firstVpn := by
    rw [alignDown_page (by omega)]
    unfold Segment.firstVpn
    omega
  have vaEnd : alignUp (wadd seg.vaddr seg.memsz) pageSize = 4096 * seg.endVpn := by
    rw [wadd_of_lt (by omega), alignUp_page (by omega)]
    unfold Segment.endVpn
    omega
  have first : 4096 * seg.firstVpn ≤ seg.vaddr := by
    unfold Segment.firstVpn
    omega
  rw [segment.vaddr, segment.memsz, segment.offset, vaStart, vaEnd, wsub_of_le first (by omega),
    wsub_of_le (by omega) (by omega),
    show (4096 * seg.endVpn - 4096 * seg.firstVpn) / pageSize = seg.endVpn - seg.firstVpn by simp only [pageSize]; omega]
  have isVpns : Set.Ico (seg.firstVpn + 0) (seg.firstVpn + 0 + (seg.endVpn - seg.firstVpn)) = seg.vpns := by
    ext n
    simp only [Segment.vpns, isLoad, true_and, Set.mem_Ico, Set.mem_ofPred_eq]
    omega
  have isPages : seg.pages = seg.endVpn - seg.firstVpn := if_pos isLoad
  refine wp_mono (elfLoadPages_of l at_ segment (seg.endVpn - seg.firstVpn) 0 (by omega)) ?_ fun _ _ => id
  rintro more s' ⟨own', free', dir', user', l', step, yes, no⟩
  rw [isVpns] at step yes no
  rw [← isPages] at yes no
  exact ⟨own', free', dir', user', l', step, yes, no⟩

/-- The page numbers of the segments from a program header on. -/
def elfVpns (file : Mem) (i : Nat) : Set Nat := {n | ∃ k, i ≤ k ∧ k < elfPhnum file ∧ n ∈ (elfSegment file k).vpns}

/-- How many pages these segments have. -/
def elfPages (file : Mem) (i : Nat) : Nat :=
  ((List.range' i (elfPhnum file - i)).map fun k => (elfSegment file k).pages).sum

/-- The segments from a program header on may be mapped: no page number twice. -/
def Fits (user : UserMap) (file : Mem) (i : Nat) : Prop :=
  ∀ k, i ≤ k → k < elfPhnum file → Vacant user (elfSegment file k).vpns ∧
    ∀ l, k < l → l < elfPhnum file → ∀ n ∈ (elfSegment file k).vpns, n ∉ (elfSegment file l).vpns

namespace Fits

variable {user' : UserMap} {i : Nat}

/-- Once a segment is mapped, the ones after it still may be. -/
theorem next (fits : Fits user file i) (inside : i < elfPhnum file)
    (step : Step (elfSegment file i).vpns own user s own' user' s') : Fits user' file (i + 1) := by
  intro k above below
  obtain ⟨vacant, apart⟩ := fits k (by omega) below
  refine ⟨fun n member => ⟨?_, (vacant n member).2⟩, apart⟩
  by_contra some
  rcases step.reach n some with some | inOther
  · exact some (vacant n member).1
  · exact (fits i (le_refl _) inside).2 k (by omega) below n inOther member

/-- A segment that has been mapped, before others that may be. -/
theorem prev (vacant : Vacant user (elfSegment file i).vpns) (later : Fits user' file (i + 1))
    (step : Step (elfSegment file i).vpns own user s own' user' s')
    (placed : ∀ n ∈ (elfSegment file i).vpns, Placed (elfSegment file i) file user' s'.mem n) : Fits user file i := by
  intro k above below
  by_cases here : k = i
  · subst here
    refine ⟨vacant, fun l above below n member inOther => ?_⟩
    obtain ⟨p, found, _⟩ := placed n member
    simp [((later l (by omega) below).1 n inOther).1] at found
  · obtain ⟨vacant, apart⟩ := later k (by omega) below
    exact ⟨fun n member => ⟨step.absent (vacant n member).1, (vacant n member).2⟩, apart⟩

end Fits

/-- The segment loop, from a program header on. -/
theorem elfLoadSegments_of (l : Loading root own free dir user s) (at_ : FileAt own elfData size file s)
    (elf : ElfFile file size) {fuel i : Nat} (low : i ≤ elfPhnum file) (enough : elfPhnum file < fuel + i) :
    wp (elfLoadSegments root elfData fuel i) s (fun more s' => ∃ own' free' dir' user',
      Loading root own' free' dir' user' s' ∧ Step (elfVpns file i) own user s own' user' s' ∧
      (more = true → Fits user file i ∧ (∀ k, i ≤ k → k < elfPhnum file → ∀ n ∈ (elfSegment file k).vpns,
        Placed (elfSegment file k) file user' s'.mem n) ∧ free.length ≤ free'.length + 3 * elfPages file i) ∧
      (more = false → ¬ Fits user file i ∨ free.length < 3 * elfPages file i)) halt := by
  induction fuel generalizing own free dir user s i with
  | zero => omega
  | succ fuel ih =>
      have pool := l.space.table.pool
      have header := elf.header
      simp only [ehdrSize] at header
      have high := (at_.ram 0 (by omega)).2
      simp only [ramEnd] at high
      rw [elfLoadSegments, wadd_of_lt (show elfData + Ehdr.ePhnum < 2 ^ 64 by simp only [Ehdr.ePhnum]; omega)]
      refine wp_bind_of (at_.field pool (by simp only [Ehdr.ePhnum]; omega)) ?_
      rintro _ s₀ ⟨rfl, rfl⟩
      change wp (if i < elfPhnum file then _ else _) _ _ _
      by_cases inside : i < elfPhnum file
      · rw [if_pos inside]
        have split : elfPages file i = (elfSegment file i).pages + elfPages file (i + 1) := by
          rw [elfPages, show elfPhnum file - i = elfPhnum file - (i + 1) + 1 by omega, List.range'_succ, List.map_cons, List.sum_cons]
          rfl
        have sub : (elfSegment file i).vpns ⊆ elfVpns file i := fun n member => ⟨i, le_refl _, inside, member⟩
        have later : elfVpns file (i + 1) ⊆ elfVpns file i := by
          rintro n ⟨k, above, below, member⟩
          exact ⟨k, by omega, below, member⟩
        refine wp_bind_of (elfLoadSegment_of l at_ elf inside) ?_
        rintro more s₁ ⟨own₁, free₁, dir₁, user₁, l₁, step₁, yes₁, no₁⟩
        cases more with
        | false =>
            rw [if_neg (by simp), wp_pure]
            refine ⟨own₁, free₁, dir₁, user₁, l₁, step₁.mono sub, by simp, fun _ => ?_⟩
            rcases no₁ rfl with taken | short
            · exact .inl fun fits => taken (fits i (le_refl _) inside).1
            · exact .inr (by omega)
        | true =>
            obtain ⟨vacant, placed₁, used⟩ := yes₁ rfl
            rw [if_pos rfl]
            refine wp_mono (ih l₁ (at_.loads pool step₁.loads) (by omega) (by omega)) ?_ fun _ _ => id
            rintro more s₂ ⟨own₂, free₂, dir₂, user₂, l₂, step₂, yes₂, no₂⟩
            refine ⟨own₂, free₂, dir₂, user₂, l₂, (step₁.trans step₂).mono (Set.union_subset sub later), fun is => ?_,
              fun is => ?_⟩
            · obtain ⟨fits, placed₂, used₂⟩ := yes₂ is
              refine ⟨fits.prev vacant step₁ placed₁, fun k above below n member => ?_, by omega⟩
              by_cases here : k = i
              · subst here
                exact (placed₁ n member).grows step₂.grows
              · exact placed₂ k (by omega) below n member
            · rcases no₂ is with clash | short
              · exact .inl fun fits => clash (fits.next inside step₁)
              · exact .inr (by omega)
      · rw [if_neg inside, wp_pure]
        exact ⟨own, free, dir, user, l, .refl, fun _ => ⟨fun k above below => absurd below (by omega),
          fun k above below => absurd below (by omega), by omega⟩, by simp⟩

/-- `elf_load` of a well-formed file. -/
theorem elfLoad_of (l : Loading root own free dir user s) (at_ : FileAt own elfData size file s) (elf : ElfFile file size) :
    wp (elfLoad root elfData) s (fun entry s' => ∃ own' free' dir' user', Loading root own' free' dir' user' s' ∧
      Step (elfVpns file 0) own user s own' user' s' ∧
      ((entry = elfEntry file ∧ Fits user file 0 ∧ (∀ k < elfPhnum file, ∀ n ∈ (elfSegment file k).vpns,
        Placed (elfSegment file k) file user' s'.mem n) ∧ free.length ≤ free'.length + 3 * elfPages file 0) ∨
      entry = 0 ∧ (¬ Fits user file 0 ∨ free.length < 3 * elfPages file 0))) halt := by
  have pool := l.space.table.pool
  have header := elf.header
  simp only [ehdrSize] at header
  have high := (at_.ram 0 (by omega)).2
  simp only [ramEnd] at high
  unfold elfLoad
  rw [wadd_of_lt (show elfData + Ehdr.eEntry < 2 ^ 64 by simp only [Ehdr.eEntry]; omega)]
  refine wp_bind_of (at_.field pool (by simp only [Ehdr.eEntry]; omega)) ?_
  rintro _ s₀ ⟨rfl, rfl⟩
  have few : elfPhnum file < 2 ^ 16 := Mem.load_lt file Ehdr.ePhnum 2
  refine wp_bind_of (elfLoadSegments_of l at_ elf (Nat.zero_le _) (by omega)) ?_
  rintro more s₁ ⟨own₁, free₁, dir₁, user₁, l₁, step₁, yes, no⟩
  cases more with
  | false =>
      rw [if_neg (by simp), wp_pure]
      exact ⟨own₁, free₁, dir₁, user₁, l₁, step₁, .inr ⟨rfl, no rfl⟩⟩
  | true =>
      obtain ⟨fits, placed, used⟩ := yes rfl
      rw [if_pos rfl, wp_pure]
      exact ⟨own₁, free₁, dir₁, user₁, l₁, step₁, .inl ⟨rfl, fits, fun k below => placed k (Nat.zero_le _) below, used⟩⟩

end KuroOS
