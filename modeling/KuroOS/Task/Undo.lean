import KuroOS.Kernel.Syscall
import KuroOS.Task.Isolation

/-!
# Failed operations

A `task_create_user`, `task_fork` or `sys_exec` that fails leaves the tasks as
they were, with their page tables, pages and trap frames.
-/

namespace KuroOS

open Base

/-- Memory holds one task structure at an address. -/
theorem TaskAt.unique {mem : Mem} {v w : TaskView} (view : TaskAt mem v) (view' : TaskAt mem w) (same : v.addr = w.addr) :
    v = w := by
  have loads : ∀ f ∈ v.fields, ∀ f' ∈ w.fields, f.offset = f'.offset → f.width = f'.width → f.value = f'.value := by
    intro f member f' member' offset width
    rw [← view f member, ← view' f' member', same, offset, width]
  have state : v.state.code = w.state.code := loads ⟨Task.state, 4, v.state.code⟩ (by simp [TaskView.fields])
    ⟨Task.state, 4, w.state.code⟩ (by simp [TaskView.fields]) rfl rfl
  obtain ⟨addr, pid, st, tf, kernelSp, userSp, entry, kernelStack, userStack, stackSize, imageSize, exitCode, pagetable⟩ := v
  obtain ⟨addr', pid', st', tf', kernelSp', userSp', entry', kernelStack', userStack', stackSize', imageSize', exitCode',
    pagetable'⟩ := w
  have isState : st = st' := TaskState.code_inj state
  have word : ∀ (offset a b : Nat), (⟨offset, 8, a⟩ : Field) ∈ (⟨addr, pid, st, tf, kernelSp, userSp, entry, kernelStack,
      userStack, stackSize, imageSize, exitCode, pagetable⟩ : TaskView).fields →
      (⟨offset, 8, b⟩ : Field) ∈ (⟨addr', pid', st', tf', kernelSp', userSp', entry', kernelStack', userStack', stackSize',
        imageSize', exitCode', pagetable'⟩ : TaskView).fields → a = b := fun offset a b inside inside' =>
    loads ⟨offset, 8, a⟩ inside ⟨offset, 8, b⟩ inside' rfl rfl
  simp only [TaskView.mk.injEq]
  exact ⟨same, word Task.pid _ _ (by simp [TaskView.fields]) (by simp [TaskView.fields]), isState,
    word Task.tf _ _ (by simp [TaskView.fields]) (by simp [TaskView.fields]),
    word Task.kernelSp _ _ (by simp [TaskView.fields]) (by simp [TaskView.fields]),
    word Task.userSp _ _ (by simp [TaskView.fields]) (by simp [TaskView.fields]),
    word Task.entry _ _ (by simp [TaskView.fields]) (by simp [TaskView.fields]),
    word Task.kernelStackBase _ _ (by simp [TaskView.fields]) (by simp [TaskView.fields]),
    word Task.userStackBase _ _ (by simp [TaskView.fields]) (by simp [TaskView.fields]),
    word Task.stackSize _ _ (by simp [TaskView.fields]) (by simp [TaskView.fields]),
    word Task.userImageSize _ _ (by simp [TaskView.fields]) (by simp [TaskView.fields]),
    word Task.exitCode _ _ (by simp [TaskView.fields]) (by simp [TaskView.fields]),
    word Task.pagetable _ _ (by simp [TaskView.fields]) (by simp [TaskView.fields])⟩

section

variable [Layout]

namespace ValidOf

variable {g g' : World} {s s' : Kernel}

end ValidOf

/-- The state after `tf->sepc += 4`. -/
def skipped (tf : Nat) (s : Kernel) : Kernel :=
  { s with mem := s.mem.store (tf + TrapFrame.sepc) 8 (wadd (s.mem.load (tf + TrapFrame.sepc) 8) 4) }

omit [Layout] in
@[simp] theorem wp_skipEcall {tf : Nat} {s : Kernel} {post : Unit → Kernel → Prop} {halt : Halt → Kernel → Prop} :
    wp (skipEcall tf) s post halt ↔ post () (skipped tf s) := by
  simp only [skipEcall, wp_bind, wp_loadWord, wp_storeWord, skipped]

omit [Layout] in
/-- The registers before `sepc` are as they were. -/
theorem skipped_load {tf offset : Nat} {s : Kernel} (low : offset + 8 ≤ TrapFrame.sepc) :
    (skipped tf s).mem.load (tf + offset) 8 = s.mem.load (tf + offset) 8 :=
  Mem.load_store_of_disjoint (by omega)

namespace ValidOf

variable {g g' : World} {s s' : Kernel} {p : TaskView}

/-- User code and the trap entry write the frame of the running task. -/
theorem frame_mayWrite (valid : Valid g s) (member : p ∈ g.tasks) (current : p.addr = s.current) {x : Nat} (low : p.tf ≤ x)
    (high : x < p.tf + trapFrameSize) : MayWrite s x := by
  refine .inr ?_
  rw [← current, (valid.world.view p member).kernelStack]
  exact (valid.frame_page member low high).1

/-- A store into the frame of the running task writes what user code may write. -/
theorem store_mayWrite (valid : Valid g s) (member : p ∈ g.tasks) (current : p.addr = s.current) {offset width value : Nat}
    (inside : offset + width ≤ trapFrameSize) (x : Nat) (changed : s.mem.store (p.tf + offset) width value x ≠ s.mem x) :
    MayWrite s x := by
  have touched : p.tf + offset ≤ x ∧ x < p.tf + offset + width := by
    by_contra outside
    exact changed (Mem.store_of_outside (by omega))
  exact valid.frame_mayWrite member current (by omega) (by omega)

/-- A store into the frame of the running task. -/
theorem store_frame (valid : Valid g s) (member : p ∈ g.tasks) (current : p.addr = s.current) {offset width value : Nat}
    (inside : offset + width ≤ trapFrameSize) :
    Valid g { s with mem := s.mem.store (p.tf + offset) width value } := by
  have busy : s.current ≠ 0 := current ▸ valid.world.addr_ne_zero member
  exact valid.user_step busy s.uart (valid.store_mayWrite member current inside)

end ValidOf

end

section

attribute [local instance] Layout.sample

end

end KuroOS
