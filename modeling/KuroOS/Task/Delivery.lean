import KuroOS.Task.UserPointers

/-!
# What `sys_read` delivers

A `sys_read` whose buffer is in user pages of the caller writes into these pages alone:
neither its frame nor anything else of the kernel's changes. All that may keep it from returning is
that the line delivers no more bytes.
-/

namespace KuroOS

open Base

section

/-- The kernel has written where user code may. -/
structure Delivered (s s' : Kernel) : Prop where
  rest : s' = { s with mem := s'.mem, uart := s'.uart, derefs := s'.derefs }
  writes : ∀ x, s'.mem x ≠ s.mem x → ∃ va, sv39User s.mem s.satpRoot va .write = some x

variable [Layout] {g : World} {s s₁ s' : Kernel} {buf len va : Nat}

namespace Delivered

omit [Layout] in
theorem refl (s : Kernel) : Delivered s s := ⟨rfl, fun _ changed => absurd rfl changed⟩

omit [Layout] in
theorem looked (delivered : Delivered s s₁) (looked : Looked s₁ s') : Delivered s s' := by
  have mem := looked.mem
  refine ⟨?_, fun x changed => delivered.writes x (by rwa [mem] at changed)⟩
  unfold Looked at looked
  rw [looked, delivered.rest]

omit [Layout] in
theorem current (delivered : Delivered s s') : s'.current = s.current := by rw [delivered.rest]

theorem valid (delivered : Delivered s s') (valid : Valid g s) (busy : s.current ≠ 0) : Valid g s' := by
  have looked : Looked { s with mem := s'.mem, uart := s'.uart } s' := by
    unfold Looked
    rw [delivered.rest]
  exact (valid.user_step busy s'.uart fun x changed => .inl (delivered.writes x changed)).looked looked

omit [Layout] in
theorem sent (delivered : Delivered s s₁) (uart : Uart) : Delivered s { s₁ with uart } := delivered.looked rfl

omit [Layout] in
theorem uartGetc (delivered : Delivered s s₁) : wp uartGetc s₁ (fun _ s' => Delivered s s') fun reason _ => reason = .hang := by
  unfold KuroOS.uartGetc
  rw [wp_bind, wp_get]
  split
  · simp only [wp_bind, wp_set, wp_pure]
    exact delivered.sent _
  · simp only [wp_bind, wp_set, wp_pure]
    exact delivered.sent _
  · exact (wp_throw _).mpr rfl

/-- A store through a pointer. -/
theorem writeUser (delivered : Delivered s s₁) (valid : Valid g s) (busy : s.current ≠ 0) (inUser : InUser s va) (c : UInt8) :
    wp (writeUser va c) s₁ (fun _ s' => Delivered s s') fun _ _ => False := by
  obtain ⟨p, member, current, _⟩ := valid.running busy
  have valid₁ := delivered.valid valid busy
  have current₁ := current.trans delivered.current.symm
  have same := valid.sv39User_congr valid₁ member current current₁ va .write
  obtain ⟨_, x, allowed⟩ := inUser
  have mapped := valid.sv39User_any member current allowed .write
  obtain ⟨walk, _⟩ := valid₁.userPage_reached member current₁ (same.trans mapped)
  have records : Delivered s { s₁ with derefs := ⟨.write, va, s₁.satpRoot⟩ :: s₁.derefs } := delivered.looked rfl
  unfold KuroOS.writeUser recordDeref writeVirtual
  simp only [wp_bind, wp_modify, wp_get, walk]
  split
  · unfold uartWrite
    split
    · exact (wp_modify _).mpr (records.sent _)
    · exact (wp_pure ()).mpr records
  · refine wp_modifyMem.mpr ⟨by rw [records.rest], fun y changed => ?_⟩
    by_cases here : y = x
    · exact here ▸ ⟨va, mapped⟩
    · exact delivered.writes y fun same => changed ((Function.update_of_ne here c s₁.mem).trans same)

theorem sysReadLoop (valid : Valid g s) (busy : s.current ≠ 0) (word : len < 2 ^ 64) (named : ∀ i < len, InUser s (wadd buf i))
    {i : Nat} (low : i < len) (fuel : Nat) (delivered : Delivered s s₁) :
    wp (sysReadLoop buf len fuel i) s₁ (fun j s' => j < len ∧ Delivered s s') fun reason _ => reason = .hang := by
  induction fuel generalizing i s₁ with
  | zero => exact (wp_throw _).mpr rfl
  | succ fuel ih =>
      rw [KuroOS.sysReadLoop, wadd_of_lt (by omega)]
      split
      swap
      · exact (wp_pure _).mpr ⟨low, delivered⟩
      refine wp_bind_of delivered.uartGetc fun c s₂ delivered => ?_
      generalize (if c = ascii '\r' then ascii '\n' else c) = c
      dsimp only
      split
      · split
        · simp only [wp_bind, wp_uartPutc]
          exact ih (by omega) (((delivered.sent _).sent _).sent _)
        · exact ih low delivered
      · rw [wp_bind, wp_uartPutc]
        split
        · exact (wp_pure _).mpr ⟨low, delivered.sent _⟩
        · have writes := (delivered.sent { s₂.uart with sent := s₂.uart.sent ++ [c] }).writeUser valid busy (named i low) c
          exact wp_bind_of (wp_mono writes (fun _ _ => id) fun _ _ never => never.elim) fun _ _ delivered => ih (by omega) delivered

/-- `sys_read` into a buffer. -/
theorem sysRead (valid : Valid g s) (busy : s.current ≠ 0) (word : len < 2 ^ 64) (named : ∀ i < len, InUser s (wadd buf i)) (fd : Nat) :
    wp (sysRead fd buf len) s (fun _ s' => Delivered s s') fun reason _ => reason = .hang := by
  unfold KuroOS.sysRead
  split
  · exact (wp_pure _).mpr (.refl s)
  split
  · exact (wp_pure _).mpr (.refl s)
  rw [wp_bind, wp_get]
  refine wp_bind_of (sysReadLoop valid busy word named (by omega) _ (.refl s)) ?_
  rintro i s₂ ⟨low, delivered⟩
  have writes := delivered.writeUser valid busy (named i low) 0
  exact wp_bind_of (wp_mono writes (fun _ _ => id) fun _ _ never => never.elim) fun _ _ delivered => (wp_pure _).mpr delivered

end Delivered

end

end KuroOS
