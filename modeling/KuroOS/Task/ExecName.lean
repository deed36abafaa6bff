import KuroOS.Base.Along
import KuroOS.Task.ExecFile
import KuroOS.Task.ReadLine

/-!
# The name of the program

`sys_exec` reads its file name while it searches the archive, and once more in its
last log line, when the page table of the new program is already active. What that
line sees is decided by the file: the pages of the caller are no longer mapped.
-/

namespace KuroOS

open Base

/-- The byte that the kernel reads at a virtual address under a page table. -/
def ByteAt (mem : Mem) (root va : Nat) (byte : UInt8) : Prop :=
  ∃ pa, sv39 mem root va .read = some pa ∧ isUart pa = false ∧ mem pa = byte

/-- A dereference made when memory was `mem` saw the byte that the address had for the
caller, in `s`. -/
def SeesOriginal (s : Kernel) (mem : Mem) (d : Deref) : Prop :=
  ∃ byte, UserByte s d.address byte ∧ ByteAt mem d.root d.address byte

/-- A byte of the program in a file: a segment's, or a zero of the stack. -/
def ProgramByte (file : Mem) (va : Nat) (byte : UInt8) : Prop :=
  (∃ k < elfPhnum file, va / 4096 ∈ (elfSegment file k).vpns ∧ (elfSegment file k).byte file va = byte) ∨
    (va / 4096 = stackVpn ∧ byte = 0)

/-- The program has the same string at the same address. -/
def NameKept (file : Mem) (filename : Nat) (text : List UInt8) : Prop :=
  ∀ i ≤ text.length, ProgramByte file (wadd filename i) (text.getD i 0)

/-! ### Programs that dereference no user's pointer -/

/-- No dereference is recorded. -/
def SameDerefs (s s' : Kernel) : Prop := s'.derefs = s.derefs

instance : IsPreorder Kernel SameDerefs where
  refl _ := rfl
  trans _ _ _ first later := later.trans first

namespace SameDerefs

theorem modifyMem (change : Mem → Mem) : Along SameDerefs (KuroOS.modifyMem change) := .modify fun _ => rfl

theorem storeWord (address value : Nat) : Along SameDerefs (KuroOS.storeWord address value) := modifyMem _

theorem loadWord (address : Nat) : Along SameDerefs (KuroOS.loadWord address) := .bind .get fun _ => .pure _

theorem kassert (condition : Prop) [Decidable condition] (text : String) : Along SameDerefs (KuroOS.kassert condition text) :=
  .ite (.pure _) (.throw _)

theorem uartRead (register : Nat) : Along SameDerefs (KuroOS.uartRead register) := fun s => by
  unfold KuroOS.uartRead
  rw [wp_bind, wp_get]
  split
  · exact Along.pure (R := SameDerefs) _ s
  · split
    · rw [wp_bind, wp_set, wp_pure]
      rfl
    · exact Along.ite (.pure _) (.pure _) s

theorem readVirtual (va : Nat) : Along SameDerefs (KuroOS.readVirtual va) := .bind .get fun s => by
  cases sv39 s.mem s.satpRoot va .read with
  | none => exact .throw _
  | some pa => exact .ite (uartRead _) (.pure _)

theorem loadVirtual (va width : Nat) : Along SameDerefs (KuroOS.loadVirtual va width) := by
  induction width generalizing va with
  | zero => exact .pure 0
  | succ width ih => exact .bind (readVirtual va) fun _ => .bind (ih _) fun _ => .pure _

theorem bytesMatch (va : Nat) (bytes : List UInt8) : Along SameDerefs (KuroOS.bytesMatch va bytes) := by
  induction bytes generalizing va with
  | nil => exact .pure true
  | cons byte rest ih => exact .bind (readVirtual va) fun _ => .ite (.pure _) (ih _)

theorem elfVerify (ehdr size : Nat) : Along SameDerefs (KuroOS.elfVerify ehdr size) :=
  .ite (.pure _) (.bind (bytesMatch _ _) fun _ => .ite (.pure _) (.bind (loadVirtual _ _) fun _ =>
    .ite (.pure _) (.bind (loadVirtual _ _) fun _ => .ite (.pure _) (.pure _))))

theorem copyFromVirtual (dst src size : Nat) : Along SameDerefs (KuroOS.copyFromVirtual dst src size) :=
  .countUp (fun _ => .bind (readVirtual _) fun _ => modifyMem _) size

theorem elfCopyRange (phdr pageVa copyStart : Nat) : Along SameDerefs (KuroOS.elfCopyRange phdr pageVa copyStart) :=
  .bind (loadVirtual _ _) fun _ => .ite (.bind (loadVirtual _ _) fun _ => .ite (.pure _) (.pure _)) (.pure _)

theorem elfCopyPage (phdr elfData fileOff pageVa copyStart page : Nat) :
    Along SameDerefs (KuroOS.elfCopyPage phdr elfData fileOff pageVa copyStart page) :=
  .bind (elfCopyRange _ _ _) fun range => by
    match range with
    | none => exact .pure _
    | some (_, _, _) => exact .ite (copyFromVirtual _ _ _) (.pure _)

section

variable [Layout]

theorem pageAlloc : Along SameDerefs KuroOS.pageAlloc :=
  .bind .get fun _ => .ite (.pure _) (.bind (modifyMem _) fun _ => .bind (.modify fun _ => rfl) fun _ => .pure _)

theorem pageFree (page : Nat) : Along SameDerefs (KuroOS.pageFree page) :=
  .bind (kassert _ _) fun _ => .bind (kassert _ _) fun _ => .bind (modifyMem _) fun _ => .bind (modifyMem _) fun _ =>
    .modify fun _ => rfl

theorem pgtableCreate : Along SameDerefs KuroOS.pgtableCreate :=
  .bind pageAlloc fun _ => .ite (.pure _) (.bind (modifyMem _) fun _ => .pure _)

theorem pgtableWalkFrom (va : Nat) (alloc : Bool) (level table : Nat) :
    Along SameDerefs (KuroOS.pgtableWalkFrom va alloc level table) := by
  have descend (pte : Nat) : Along SameDerefs (KuroOS.pgtableDescend alloc pte) :=
    .bind (loadWord _) fun _ => .ite (.bind (kassert _ _) fun _ => .pure _) (.ite (.pure _)
      (.bind pgtableCreate fun _ => .ite (.pure _) (.bind (storeWord _ _) fun _ => .pure _)))
  induction level generalizing table with
  | zero => exact .pure _
  | succ level ih =>
      refine .bind (descend _) fun next => ?_
      match next with
      | none => exact .pure _
      | some next => exact ih next

theorem pgtableMap (root va pa size flags : Nat) : Along SameDerefs (KuroOS.pgtableMap root va pa size flags) := by
  have loop (pages addr pa : Nat) : Along SameDerefs (KuroOS.pgtableMapLoop root flags pages addr pa) := by
    induction pages generalizing addr pa with
    | zero => exact .pure _
    | succ pages ih =>
        have walk : Along SameDerefs (KuroOS.pgtableWalk root addr true) :=
          .bind (kassert _ _) fun _ => .bind (kassert _ _) fun _ => pgtableWalkFrom _ _ _ _
        exact .bind walk fun _ => .ite (.pure _) (.bind (loadWord _) fun _ => .ite (.pure _)
          (.bind (storeWord _ _) fun _ => ih _ _))
  exact .bind (kassert _ _) fun _ => .bind (kassert _ _) fun _ => .bind (kassert _ _) fun _ => loop _ _ _

theorem vmMapKernel (root : Nat) : Along SameDerefs (KuroOS.vmMapKernel root) :=
  .bind (kassert _ _) fun _ => .bind (pgtableMap _ _ _ _ _) fun _ => .ite (.pure _)
    (.bind (pgtableMap _ _ _ _ _) fun _ => .ite (.pure _) (.pure _))

theorem pgtableFreeWalk (root : Nat) : Along SameDerefs (KuroOS.pgtableFreeWalk root) := by
  have walk (depth root : Nat) : Along SameDerefs (KuroOS.pgtableFreeFrom depth root) := by
    induction depth generalizing root with
    | zero => exact .throw _
    | succ depth ih =>
        refine .bind (kassert _ _) fun _ => .bind (.countUp (fun i => ?_) _) fun _ => pageFree root
        exact .bind (loadWord _) fun _ => .ite (.pure _) (.ite (storeWord _ _) (.bind (ih _) fun _ => storeWord _ _))
  exact walk loopBound root

theorem elfLoad (pagetable elfData : Nat) : Along SameDerefs (KuroOS.elfLoad pagetable elfData) := by
  have page (phdr fileOff vaStart memOff j : Nat) :
      Along SameDerefs (KuroOS.elfLoadPage pagetable phdr elfData fileOff vaStart memOff j) :=
    .bind pageAlloc fun _ => .ite (.pure _) (.bind (modifyMem _) fun _ => .bind (elfCopyPage _ _ _ _ _ _) fun _ =>
      .bind (loadVirtual _ _) fun _ => .bind (pgtableMap _ _ _ _ _) fun _ => .ite (.bind (pageFree _) fun _ => .pure _) (.pure _))
  have pages (phdr fileOff vaStart memOff count j : Nat) :
      Along SameDerefs (KuroOS.elfLoadPages pagetable phdr elfData fileOff vaStart memOff count j) := by
    induction count generalizing j with
    | zero => exact .pure _
    | succ count ih => exact .bind (page _ _ _ _ _) fun _ => .ite (ih _) (.pure _)
  have segment (i : Nat) : Along SameDerefs (KuroOS.elfLoadSegment pagetable elfData i) :=
    .bind (loadVirtual _ _) fun _ => .bind (loadVirtual _ _) fun _ => .bind (loadVirtual _ _) fun _ => .ite (.pure _)
      (.bind (loadVirtual _ _) fun _ => .bind (loadVirtual _ _) fun _ => .bind (loadVirtual _ _) fun _ => pages _ _ _ _ _ _)
  have segments (fuel i : Nat) : Along SameDerefs (KuroOS.elfLoadSegments pagetable elfData fuel i) := by
    induction fuel generalizing i with
    | zero => exact .throw _
    | succ fuel ih => exact .bind (loadVirtual _ _) fun _ => .ite (.bind (segment _) fun _ => .ite (ih _) (.pure _)) (.pure _)
  exact .bind (loadVirtual _ _) fun _ => .bind (segments _ _) fun _ => .ite (.pure _) (.pure _)

/-- `sys_exec` dereferences nothing from the page table to its last line. -/
theorem execLoadCommit (tf elfData : Nat) : Along SameDerefs (KuroOS.execLoadCommit tf elfData) := by
  have release (root : Nat) : Along SameDerefs (do KuroOS.pgtableFreeWalk root; return false) :=
    .bind (pgtableFreeWalk root) fun _ => .pure _
  have commit (task root entry : Nat) : Along SameDerefs (execCommit task root entry tf) :=
    .bind (storeWord _ _) fun _ => .bind (storeWord _ _) fun _ => .bind (storeWord _ _) fun _ => .bind (storeWord _ _) fun _ =>
      .bind (storeWord _ _) fun _ => .bind (storeWord _ _) fun _ => .bind (storeWord _ _) fun _ =>
        .bind (storeWord _ _) fun _ => storeWord _ _
  have switch (root : Nat) : Along SameDerefs (vmSwitch root) :=
    .bind (kassert _ _) fun _ => .bind (kassert _ _) fun _ => .modify fun _ => rfl
  have stack (root entry : Nat) : Along SameDerefs (execStackCommit tf root entry) :=
    .bind pageAlloc fun _ => .ite (release _) (.bind (modifyMem _) fun _ => .bind (pgtableMap _ _ _ _ _) fun _ =>
      .ite (.bind (pageFree _) fun _ => release _) (.bind .get fun _ => .ite (.bind (pageFree _) fun _ => release _)
        (.bind (commit _ _ _) fun _ => .bind (switch _) fun _ => .pure _)))
  exact .bind pgtableCreate fun _ => .ite (.pure _) (.bind (vmMapKernel _) fun _ => .ite (release _)
    (.bind (elfLoad _ _) fun _ => .ite (release _) (stack _ _)))

end

end SameDerefs

/-- Dereferences are added. -/
def MoreDerefs (s s' : Kernel) : Prop := s.derefs <:+ s'.derefs

instance : IsPreorder Kernel MoreDerefs where
  refl _ := List.suffix_rfl
  trans _ _ _ := List.IsSuffix.trans

theorem SameDerefs.more {s s' : Kernel} (same : SameDerefs s s') : MoreDerefs s s' := ⟨[], Eq.symm same⟩

/-! ### Strings -/

section

variable {s s' s₁ s₂ : Kernel} {text : List UInt8} {p i : Nat} {d : Deref}

/-- The bytes of a C string by their indices, the 0 included. -/
structure StringAt (s : Kernel) (p : Nat) (text : List UInt8) : Prop where
  bytes : ∀ i ≤ text.length, UserByte s (wadd p i) (text.getD i 0)
  plain : ∀ i < text.length, text.getD i 0 ≠ 0

theorem wadd_succ (p i : Nat) : wadd (wadd p i) 1 = wadd p (i + 1) := by
  unfold wadd
  omega

theorem UserByte.looked {byte : UInt8} {va : Nat} (holds : UserByte s va byte) (looked : Looked s s') : UserByte s' va byte := by
  unfold Looked at looked
  rw [looked]
  exact holds

/-- Since `s` a program has only looked, and has dereferenced the string alone. -/
def ReadsString (s : Kernel) (p n : Nat) (s' : Kernel) : Prop :=
  Looked s s' ∧ ∃ log, s'.derefs = log ++ s.derefs ∧ ∀ d ∈ log, d.root = s.satpRoot ∧ ∃ i ≤ n, d.address = wadd p i

theorem ReadsString.refl (s : Kernel) (p n : Nat) : ReadsString s p n s := ⟨.refl s, [], rfl, by simp⟩

theorem ReadsString.uartWrite (reads : ReadsString s p text.length s₁) (register : Nat) (byte : UInt8) {halt : Halt → Kernel → Prop} :
    wp (uartWrite register byte) s₁ (fun _ s' => ReadsString s p text.length s') halt := by
  unfold KuroOS.uartWrite
  split
  · rw [wp_modify]
    exact ⟨reads.1.trans rfl, reads.2⟩
  · rw [wp_pure]
    exact reads

namespace StringAt

/-- A read of the string. -/
theorem readUser (string : StringAt s p text) (reads : ReadsString s p text.length s₁) (inside : i ≤ text.length)
    {halt : Halt → Kernel → Prop} :
    wp (readUser (wadd p i)) s₁ (fun byte s' => byte = text.getD i 0 ∧ ReadsString s p text.length s') halt := by
  obtain ⟨looked, log, records, all⟩ := reads
  have root := looked.root
  obtain ⟨pa, translated, notUart, here⟩ := (string.bytes i inside).looked looked
  unfold KuroOS.readUser recordDeref readVirtual
  simp only [wp_bind, wp_modify, wp_get, translated, notUart, Bool.false_eq_true, if_false, wp_pure]
  refine ⟨here, looked.trans rfl, ⟨.read, wadd p i, s₁.satpRoot⟩ :: log, ?_, List.forall_mem_cons.mpr ⟨⟨root, i, inside, rfl⟩, all⟩⟩
  rw [List.cons_append, ← records]

/-- A byte of the string that is not its 0 is followed by another. -/
theorem lt_length (inside : i ≤ text.length) (nonzero : text.getD i 0 ≠ 0) : i < text.length := by
  refine Nat.lt_of_le_of_ne inside fun last => nonzero ?_
  rw [last]
  simp

/-- The comparison of `initrd_find`. -/
theorem initrdMatch (string : StringAt s p text) (reads : ReadsString s p text.length s₁) (inside : i ≤ text.length) (fuel a : Nat) :
    wp (initrdMatch fuel a (wadd p i)) s₁ (fun _ s' => ReadsString s p text.length s') fun _ s' => ReadsString s p text.length s' := by
  induction fuel generalizing a i s₁ with
  | zero =>
      rw [KuroOS.initrdMatch, wp_throw]
      exact reads
  | succ fuel ih =>
      rw [KuroOS.initrdMatch, wp_bind, wp_get]
      refine wp_bind_of (string.readUser reads inside) ?_
      rintro byte s₂ ⟨rfl, reads₂⟩
      split
      · next same =>
          rw [wadd_succ]
          exact ih reads₂ (lt_length inside same.2.1) _
      · rw [wp_pure]
        exact reads₂

/-- `initrd_find` dereferences nothing but the name. -/
theorem initrdFind (string : StringAt s p text) (word : p < 2 ^ 64) :
    wp (initrdFind p) s (fun _ s' => ReadsString s p text.length s') fun _ s' => ReadsString s p text.length s' := by
  have loop : ∀ fuel entry s₁, ReadsString s p text.length s₁ → wp (initrdFindLoop p fuel entry) s₁
      (fun _ s' => ReadsString s p text.length s') fun _ s' => ReadsString s p text.length s' := by
    intro fuel
    induction fuel with
    | zero =>
        intro entry s₁ reads
        rw [initrdFindLoop, wp_throw]
        exact reads
    | succ fuel ih =>
        intro entry s₁ reads
        rw [initrdFindLoop]
        split
        · rw [wp_pure]
          exact reads
        · have compared := string.initrdMatch reads (Nat.zero_le _) loopBound (entry + InitrdEntry.name)
          rw [wadd_zero word] at compared
          refine wp_bind_of compared fun same s₂ reads₂ => ?_
          split
          · simp only [wp_bind, wp_loadWord, wp_pure]
            exact reads₂
          · rw [wp_bind, wp_loadWord]
            exact ih _ s₂ reads₂
  unfold KuroOS.initrdFind
  rw [wp_bind, wp_get]
  exact loop _ _ s (.refl s p _)

/-- `uart_puts` dereferences nothing but its string. -/
theorem uartPutsUser (string : StringAt s p text) (reads : ReadsString s p text.length s₁) (inside : i ≤ text.length) (fuel : Nat) :
    wp (uartPutsUser fuel (wadd p i)) s₁ (fun _ s' => ReadsString s p text.length s') fun _ s' => ReadsString s p text.length s' := by
  induction fuel generalizing i s₁ with
  | zero =>
      rw [KuroOS.uartPutsUser, wp_throw]
      exact reads
  | succ fuel ih =>
      rw [KuroOS.uartPutsUser]
      refine wp_bind_of (string.readUser reads inside) ?_
      rintro byte s₂ ⟨rfl, reads₂⟩
      split
      · rw [wp_pure]
        exact reads₂
      · next nonzero =>
          have rest : ∀ s₃, ReadsString s p text.length s₃ →
              wp (uartWrite uartData (text.getD i 0) >>= fun _ => KuroOS.uartPutsUser fuel (wadd (wadd p i) 1)) s₃
                (fun _ s' => ReadsString s p text.length s') fun _ s' => ReadsString s p text.length s' := fun s₃ reads₃ => by
            refine wp_bind_of (reads₃.uartWrite _ _) fun _ s₄ reads₄ => ?_
            rw [wadd_succ]
            exact ih reads₄ (lt_length inside nonzero)
          dsimp only
          split
          · exact wp_bind_of (reads₂.uartWrite _ _) fun _ => rest
          · exact rest s₂ reads₂

end StringAt

/-- A dereference was made between two states. -/
def Recorded (d : Deref) (s s' : Kernel) : Prop := ∃ s₁, MoreDerefs s s₁ ∧ d :: s₁.derefs <:+ s'.derefs

theorem Recorded.mem (recorded : Recorded d s s') {log : List Deref} (records : s'.derefs = log ++ s.derefs) : d ∈ log := by
  obtain ⟨s₁, ⟨earlier, first⟩, later, last⟩ := recorded
  rw [← first, records, ← List.cons_append, ← List.append_assoc] at last
  rw [← List.append_cancel_right last]
  simp

theorem Recorded.after (more : MoreDerefs s s₁) (recorded : Recorded d s₁ s') : Recorded d s s' := by
  obtain ⟨s₂, between, last⟩ := recorded
  exact ⟨s₂, trans_of MoreDerefs more between, last⟩

/-- An address has one byte. -/
theorem UserByte.unique {va : Nat} {byte other : UInt8} (left : UserByte s va byte) (right : UserByte s va other) : byte = other := by
  obtain ⟨pa, translated, _, rfl⟩ := left
  obtain ⟨pa', translated', _, rfl⟩ := right
  rw [Option.some.inj (translated.symm.trans translated')]

variable {elfData size va filename : Nat} {byte : UInt8}

/-- The search dereferences nothing but the name, in the caller's address space. -/
theorem Found.searched (found : Found s filename elfData size s₁) (string : StringAt s filename text) (word : filename < 2 ^ 64) :
    ∃ log, s₁.derefs = log ++ s.derefs ∧ ∀ d ∈ log, d.root = s.satpRoot ∧ ∃ i ≤ text.length, d.address = wadd filename i := by
  obtain ⟨⟨s₂, searched, verified⟩, _⟩ := found
  have reads := wp_ok (string.initrdFind word) searched
  have verifies : wp (elfVerify elfData size) s₂ (fun _ s' => SameDerefs s₂ s') _ := SameDerefs.elfVerify _ _ s₂
  have same := wp_ok verifies verified
  obtain ⟨_, log, records, all⟩ := reads
  exact ⟨log, Eq.trans same records, all⟩

/-- A string that `uart_puts` finds byte for byte is all that the last line sees. -/
theorem StringAt.printkUser (string : StringAt s p text) (word : p < 2 ^ 64) (ends : Ends (printkUser p) s s') :
    ReadsString s p text.length s' := by
  refine ends.elim ?_
  unfold KuroOS.printkUser
  split
  · have prints := string.uartPutsUser (.refl s p _) (Nat.zero_le _) loopBound
    rw [wadd_zero word] at prints
    exact prints
  · rw [wp_pure]
    exact .refl s p _

variable [Layout] {g : World} {own : Nat → Owner} {free : List Nat} {dir : Directory} {user : UserMap} {file : Mem} {root : Nat}

/-- What the kernel reads in a new space, away from its own pages. -/
theorem Loading.byteAt_iff (l : Loading root own free dir user s) (low : va < 2 ^ 38) (plain : ¬ KernelVpn (va / 4096)) :
    ByteAt s.mem root va byte ↔ ∃ q, user (va / 4096) = some q ∧ s.mem (q + va % 4096) = byte := by
  have isVpn : sv39Vpn va = va / 4096 := by
    unfold sv39Vpn
    omega
  unfold ByteAt sv39
  rw [if_pos (.inl low), show sv39Levels - 1 = 2 from rfl, l.space.table.tables.sv39From l.space.table.pool, l.space.leaves, isVpn]
  cases found : user (va / 4096) with
  | none => simp [spaceEntry, found, kernelEntry_eq_zero plain]
  | some q =>
      have isPage := l.space.table.pool.pages q (by simp [l.mapped _ _ found])
      have bounds := isPage.bounds
      have notUart : isUart (q + va % 4096) = false := by
        unfold isUart
        simp only [Bool.and_eq_false_iff, decide_eq_false_iff_not, uartBase, pageSize]
        omega
      have entry : spaceEntry user (va / 4096) = mkPte q userFlags := by simp [spaceEntry, found]
      rw [entry, if_pos (userPte_grants q .read), pteToPa_user isPage]
      constructor
      · rintro ⟨pa, is, _, here⟩
        obtain rfl := Option.some.inj is
        exact ⟨q, rfl, here⟩
      · rintro ⟨q', is, here⟩
        obtain rfl := Option.some.inj is
        exact ⟨_, rfl, notUart, here⟩

/-- What the kernel reads in the space of a program that is in place. -/
theorem Replaced.byteAt_iff (replaced : Replaced file s) (clear : StackClear s) (low : va < 2 ^ 38)
    (plain : ¬ KernelVpn (va / 4096)) : ByteAt s.mem s.satpRoot va byte ↔ ProgramByte file va byte := by
  obtain ⟨_, _, own, free, dir, user, l, placed, reach⟩ := replaced
  obtain ⟨stack, isLeaf, zeros⟩ := clear
  have isStack := (l.userLeaf (by decide)).mp isLeaf
  rw [l.byteAt_iff low plain]
  constructor
  · rintro ⟨q, found, rfl⟩
    rcases reach (va / 4096) (by simp [found]) with ⟨k, _, inside, member⟩ | atStack
    · obtain ⟨q', found', bytes⟩ := placed k inside _ member
      obtain rfl := Option.some.inj (found.symm.trans found')
      refine .inl ⟨k, inside, member, ?_⟩
      rw [bytes _ (by omega), Nat.div_add_mod]
    · rw [atStack] at found
      obtain rfl := Option.some.inj (found.symm.trans isStack)
      exact .inr ⟨atStack, zeros _ (by omega)⟩
  · rintro (⟨k, inside, member, rfl⟩ | ⟨atStack, rfl⟩)
    · obtain ⟨q, found, bytes⟩ := placed k inside _ member
      refine ⟨q, found, ?_⟩
      rw [bytes _ (by omega), Nat.div_add_mod]
    · exact ⟨stack, atStack ▸ isStack, zeros _ (by omega)⟩

omit [Layout] in
/-- A new program that has the name is all that the last line sees. -/
theorem NameKept.sees (kept : NameKept file p text) (original : StringAt s p text) (word : p < 2 ^ 64)
    (inFile : ∀ i ≤ text.length, ∀ byte, UserByte s₂ (wadd p i) byte ↔ ProgramByte file (wadd p i) byte)
    (ends : Ends (printkUser p) s₂ s') :
    ∃ printed, s'.derefs = printed ++ s₂.derefs ∧ ∀ d ∈ printed, SeesOriginal s s'.mem d := by
  have string : StringAt s₂ p text := ⟨fun i inside => (inFile i inside _).mpr (kept i inside), original.plain⟩
  obtain ⟨looked, printed, records, all⟩ := string.printkUser word ends
  refine ⟨printed, records, fun d member => ?_⟩
  obtain ⟨root, i, inside, address⟩ := all d member
  refine ⟨_, address ▸ original.bytes i inside, ?_⟩
  rw [looked.mem, root, address]
  exact string.bytes i inside

end

section

attribute [local instance] Layout.sample

/-- The current task may have the string `a` at the start of its stack page. -/
theorem ValidOf.stackString {g : World} {s : Kernel} (valid : Valid g s) (busy : s.current ≠ 0) :
    ∃ page, PoolPage page ∧ ∀ s', s' = { s with mem := KuroOS.putBytes s.mem page [97, 0], uart := s.uart } →
      Valid g s' ∧ UserString s' (4096 * stackVpn) [97] ∧
      ∀ i ≤ 1, sv39User s'.mem s'.satpRoot (wadd (4096 * stackVpn) i) .read ≠ none := by
  obtain ⟨p, member, current, _⟩ := valid.running busy
  obtain ⟨page, found⟩ := valid.stackPage member
  refine ⟨page, valid.userPage member found, fun s' is => ?_⟩
  have valid' : Valid g s' := is ▸ valid.user_step busy s.uart fun x changed => by
    have touch : page ≤ x ∧ x < page + 2 := by
      by_contra outside
      exact changed (if_neg outside)
    refine .inl ⟨4096 * stackVpn + (x - page), ?_⟩
    rw [valid.sv39User_of_mapped member current found (by omega) .write, Nat.add_sub_cancel' touch.1]
  have current' : p.addr = s'.current := by rw [current, is]
  have onStack : ∀ i ≤ 1, ∀ access, sv39User s'.mem s'.satpRoot (wadd (4096 * stackVpn) i) access = some (page + i) :=
    fun i low access => by
      rw [wadd_of_lt (by simp only [stackVpn]; omega)]
      exact valid'.sv39User_of_mapped member current' found (by omega) access
  have array : UserArray s' (4096 * stackVpn) 2 (page + ·) :=
    valid'.userArray (by rwa [is]) (by decide) fun i low => onStack i (by omega) .write
  have holds : ArrayHolds s' 2 (page + ·) [97, 0] s' := ⟨rfl, fun _ _ => rfl, fun i inside => by
    rw [is]
    unfold KuroOS.putBytes
    dsimp only
    rw [if_pos ⟨by omega, by simp only [List.length_cons, List.length_nil] at *; omega⟩, Nat.add_sub_cancel_left]
    exact List.getD_eq_getElem _ _ inside⟩
  refine ⟨valid', ⟨by decide, ?_, ?_⟩, fun i low => Option.ne_none_iff_exists'.mpr ⟨_, onStack i low .read⟩⟩
  · have first := array.userByte holds (by decide) (show 0 < 2 by decide)
    rwa [wadd_zero (by decide)] at first
  · have second := array.userByte holds (by decide) (show 1 < 2 by decide)
    exact second

/-- A running machine whose archive holds a file under the name `a`, which stands on the
stack of the current task. -/
theorem named_sample {bytes : List UInt8} (executable : Executable bytes) : ∃ s g s', Valid g s ∧ s.current ≠ 0 ∧
    InImage s (fileOf bytes) Layout.initrdStart bytes.length ∧ UserString s (4096 * stackVpn) [97] ∧
    (∀ i ≤ 1, sv39User s.mem s.satpRoot (wadd (4096 * stackVpn) i) .read ≠ none) ∧
    Found s (4096 * stackVpn) Layout.initrdStart bytes.length s' ∧ 2 ≤ g.queue.length ∧ 31000 ≤ g.free.length := by
  obtain ⟨s₀, g, valid₀, busy, image, two, room, list, entryByte⟩ := archive_sample executable.1
  have small := executable.1
  have isStart : Layout.initrdStart = 0x80220000 := rfl
  obtain ⟨entry, isEntry⟩ : ∃ entry, entry = Layout.initrdStart + 2048 := ⟨_, rfl⟩
  -- the entry gets its name, and so does the stack
  obtain ⟨s₁, is₁⟩ : ∃ s₁ : Kernel, s₁ = { s₀ with mem := putBytes s₀.mem entry [97] } := ⟨_, rfl⟩
  have valid₁ : Valid g s₁ := is₁ ▸ valid₀.putBytes fun i low => by
    rw [isEntry]
    rw [List.length_singleton] at low
    exact entry_outside (by omega)
  obtain ⟨page, isPage, stored⟩ := valid₁.stackString (by rwa [is₁])
  obtain ⟨s, is⟩ : ∃ s : Kernel, s = { s₁ with mem := putBytes s₁.mem page [97, 0], uart := s₁.uart } := ⟨_, rfl⟩
  obtain ⟨valid, string, mapped⟩ := stored s is
  have bounds := isPage.bounds
  have busy' : s.current ≠ 0 := by rwa [is, is₁]
  have outside : ∀ x, ¬ PoolPage (pageOf x) → s.mem x = putBytes s₀.mem entry [97] x := fun x other => by
    rw [is, is₁]
    refine if_neg fun touch => other ?_
    rw [pageOf_of_mem bounds.1 touch.1 (Nat.lt_trans touch.2 (by simp))]
    exact isPage
  have image' : InImage s (fileOf bytes) Layout.initrdStart bytes.length := initrd_image (by omega) fun i low => by
    rw [outside _ (image.outside i low).1]
    exact (if_neg (by omega)).trans (image.bytes i low)
  have inEntry : ∀ i < 88, s.mem (entry + i) = if i = 0 then 97 else fileOf (entryBytes bytes.length) i := fun i low => by
    rw [outside _ (isEntry ▸ (entry_outside low).1)]
    unfold putBytes
    by_cases first : i = 0
    · subst first
      simp
    · rw [if_neg (by simp only [List.length_singleton]; omega), if_neg first, isEntry]
      exact entryByte i low
  have named : CString s.mem entry [97] := ⟨by decide, inEntry 0 (by decide), inEntry 1 (by decide), trivial⟩
  obtain ⟨s', found⟩ := archive_found executable valid busy' image' (by rw [is, is₁]; exact list) (isEntry ▸ named) (by decide)
    (fun i low after => by
      have here := inEntry i low
      rw [if_neg (by omega)] at here
      rwa [← isEntry]) string
  exact ⟨s, g, s', valid, busy', image', string, mapped, found, two, room⟩

end

end KuroOS
