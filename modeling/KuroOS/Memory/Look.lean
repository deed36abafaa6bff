import KuroOS.Kernel.Exec

/-!
# Reading through virtual addresses

The loader reads its file, and the kernel reads strings of its callers, through
the page table that is active. Such a read may fault or meet the UART, so it may
halt or take a byte from it; memory and the other globals stay as they are,
whatever the address is.
-/

namespace KuroOS

open Base

/-- Two states that differ in the UART and in the record of dereferences only. -/
def Looked (s s' : Kernel) : Prop := s' = { s with uart := s'.uart, derefs := s'.derefs }

namespace Looked

variable {s s' s'' : Kernel}

theorem refl (s : Kernel) : Looked s s := rfl

theorem trans (first : Looked s s') (later : Looked s' s'') : Looked s s'' := by
  unfold Looked at *
  rw [later]
  generalize s''.uart = u, s''.derefs = d
  rw [first]

theorem mem (looked : Looked s s') : s'.mem = s.mem := by
  unfold Looked at looked
  rw [looked]

theorem root (looked : Looked s s') : s'.satpRoot = s.satpRoot := by
  unfold Looked at looked
  rw [looked]

theorem current (looked : Looked s s') : s'.current = s.current := by
  unfold Looked at looked
  rw [looked]

end Looked

/-- A program that only looks. -/
def Looks {α : Type} (program : K α) : Prop := ∀ s, wp program s (fun _ s' => Looked s s') fun _ _ => True

namespace Looks

variable {α β : Type} {program : K α}

theorem pure (value : α) : Looks (Pure.pure value : K α) := fun s => by
  rw [wp_pure]
  exact .refl s

theorem throw (reason : Halt) : Looks (throw reason : K α) := fun _ => by
  rw [wp_throw]
  trivial

theorem bind {next : α → K β} (first : Looks program) (rest : ∀ value, Looks (next value)) :
    Looks (program >>= next) := fun s =>
  wp_bind_of (first s) fun value _ looked =>
    wp_mono (rest value _) (fun _ _ later => looked.trans later) fun _ _ => id

/-- What follows a look. -/
theorem before {next : α → K β} {post : β → Kernel → Prop} {s : Kernel} (looks : Looks program)
    (rest : ∀ value s', Looked s s' → wp (next value) s' post fun _ _ => True) :
    wp (program >>= next) s post fun _ _ => True :=
  wp_bind_of (looks s) rest

theorem ite {condition : Prop} [Decidable condition] {yes no : K α} (left : Looks yes) (right : Looks no) :
    Looks (if condition then yes else no) := by
  split
  · exact left
  · exact right

theorem get : Looks (MonadState.get : K Kernel) := fun s => by
  rw [wp_get]
  exact .refl s

theorem loadWord (address : Nat) : Looks (KuroOS.loadWord address) := .bind .get fun _ => .pure _

theorem uartRead (register : Nat) : Looks (KuroOS.uartRead register) := fun s => by
  unfold KuroOS.uartRead
  rw [wp_bind, wp_get]
  split
  · exact Looks.pure _ s
  · split
    · rw [wp_bind, wp_set, wp_pure]
      rfl
    · exact Looks.ite (.pure _) (.pure _) s

theorem uartWrite (register : Nat) (byte : UInt8) : Looks (KuroOS.uartWrite register byte) :=
  .ite (fun s => by
    rw [wp_modify]
    exact rfl) (.pure _)

theorem readVirtual (va : Nat) : Looks (KuroOS.readVirtual va) := .bind .get fun s => by
  cases sv39 s.mem s.satpRoot va .read with
  | none => exact .throw _
  | some pa => exact .ite (uartRead _) (.pure _)

theorem loadVirtual (va width : Nat) : Looks (KuroOS.loadVirtual va width) := by
  induction width generalizing va with
  | zero => exact .pure 0
  | succ width ih => exact .bind (readVirtual va) fun _ => .bind (ih _) fun _ => .pure _

theorem readUser (va : Nat) : Looks (KuroOS.readUser va) :=
  .bind (fun s => by
    unfold recordDeref
    rw [wp_modify]
    exact rfl) fun _ => readVirtual va

/-- `uart_puts`. -/
theorem uartPutsUser (fuel va : Nat) : Looks (KuroOS.uartPutsUser fuel va) := by
  induction fuel generalizing va with
  | zero => exact .throw _
  | succ fuel ih =>
      have rest (byte : UInt8) : Looks (do KuroOS.uartWrite uartData byte; KuroOS.uartPutsUser fuel (wadd va 1)) :=
        .bind (uartWrite _ _) fun _ => ih _
      exact .bind (readUser va) fun byte => .ite (.pure _) (.ite (.bind (uartWrite _ _) fun _ => rest byte) (rest byte))

theorem printkUser (va : Nat) : Looks (KuroOS.printkUser va) := .ite (uartPutsUser _ va) (.pure _)

theorem bytesMatch (va : Nat) (bytes : List UInt8) : Looks (KuroOS.bytesMatch va bytes) := by
  induction bytes generalizing va with
  | nil => exact .pure true
  | cons byte rest ih => exact .bind (readVirtual va) fun _ => .ite (.pure _) (ih _)

/-- `elf_verify`. -/
theorem elfVerify (ehdr size : Nat) : Looks (KuroOS.elfVerify ehdr size) :=
  .ite (.pure _) (.bind (bytesMatch _ _) fun _ => .ite (.pure _) (.bind (loadVirtual _ _) fun _ =>
    .ite (.pure _) (.bind (loadVirtual _ _) fun _ => .ite (.pure _) (.pure _))))

theorem initrdMatch (fuel a b : Nat) : Looks (KuroOS.initrdMatch fuel a b) := by
  induction fuel generalizing a b with
  | zero => exact .throw _
  | succ fuel ih => exact .bind .get fun _ => .bind (readUser b) fun _ => .ite (ih _ _) (.pure _)

theorem initrdFindLoop (name fuel entry : Nat) : Looks (KuroOS.initrdFindLoop name fuel entry) := by
  induction fuel generalizing entry with
  | zero => exact .throw _
  | succ fuel ih =>
      exact .ite (.pure _) (.bind (initrdMatch _ _ _) fun _ =>
        .ite (.bind (loadWord _) fun _ => .bind (loadWord _) fun _ => .pure _)
          (.bind (loadWord _) fun _ => ih _))

/-- `initrd_find`. -/
theorem initrdFind (name : Nat) : Looks (KuroOS.initrdFind name) := .bind .get fun _ => initrdFindLoop _ _ _

end Looks

/-- The value of `width` bytes. -/
theorem loadVirtual_lt (va width : Nat) (s : Kernel) :
    wp (loadVirtual va width) s (fun value _ => value < 256 ^ width) fun _ _ => True := by
  induction width generalizing va s with
  | zero =>
      rw [loadVirtual, wp_pure]
      decide
  | succ width ih =>
      rw [loadVirtual]
      refine (Looks.readVirtual va).before fun byte s₁ _ => ?_
      refine wp_bind_of (ih _ s₁) fun rest s₂ small => ?_
      rw [wp_pure]
      have := byte.toNat_lt
      rw [Nat.pow_succ]
      omega

/-- The part of a page that gets file data lies in the page. -/
theorem elfCopyRange_spec {phdr pageVa copyStart : Nat} (fits : pageVa < 2 ^ 64) (s : Kernel) :
    wp (elfCopyRange phdr pageVa copyStart) s (fun r s' => Looked s s' ∧
      ∀ start stop off, r = some (start, stop, off) → start = copyStart ∧ stop ≤ 4096) fun _ _ => True := by
  unfold elfCopyRange
  refine (Looks.loadVirtual _ _).before fun vaddr s₁ looked₁ => ?_
  by_cases above : wadd pageVa pageSize > vaddr
  · rw [if_pos above]
    refine (Looks.loadVirtual _ _).before fun filesz s₂ looked₂ => ?_
    dsimp only
    by_cases before : pageVa < wadd vaddr filesz
    · rw [if_pos before, wp_pure]
      refine ⟨looked₁.trans looked₂, fun start stop off found => ?_⟩
      simp only [Option.some.injEq, Prod.mk.injEq] at found
      obtain ⟨rfl, rfl, _⟩ := found
      have small := wadd_lt vaddr filesz
      refine ⟨rfl, ?_⟩
      by_cases whole : wadd pageVa pageSize < wadd vaddr filesz
      · rw [if_pos whole]
      · rw [if_neg whole, wsub_of_le (by omega) small]
        unfold wadd at *
        simp only [pageSize] at *
        omega
    · rw [if_neg before, wp_pure]
      exact ⟨looked₁.trans looked₂, by simp⟩
  · rw [if_neg above, wp_pure]
    exact ⟨looked₁, by simp⟩

/-- Copying from a virtual address writes its destination only. -/
theorem copyFromVirtual_spec {dst src size : Nat} (fits : dst + size ≤ 2 ^ 64) (s : Kernel) :
    wp (copyFromVirtual dst src size) s (fun _ s' => Looked { s with mem := s'.mem } s' ∧
      ∀ x, x < dst ∨ dst + size ≤ x → s'.mem x = s.mem x) fun _ _ => True := by
  unfold copyFromVirtual
  refine wp_countUp (fun i s' => Looked { s with mem := s'.mem } s' ∧
    ∀ x, x < dst ∨ dst + size ≤ x → s'.mem x = s.mem x) ⟨.refl s, fun _ _ => rfl⟩ ?_
  rintro i low s₁ ⟨looked₁, same₁⟩
  refine (Looks.readVirtual _).before fun byte s₂ looked₂ => ?_
  rw [wp_modifyMem]
  refine ⟨?_, fun x outside => ?_⟩
  · unfold Looked at *
    rw [looked₂]
    generalize s₂.uart = u, s₂.derefs = d, s₂.mem = m
    rw [looked₁]
  · rw [wadd_of_lt (by omega)]
    change Function.update s₂.mem (dst + i) byte x = s.mem x
    rw [Function.update_of_ne (by omega), looked₂.mem]
    exact same₁ x outside

end KuroOS
