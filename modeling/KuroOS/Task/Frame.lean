import KuroOS.Task.Create

/-!
# The structure and the frame of a new task

What `task_create_user` and `task_fork` write once the pages of a task are in
place: the fields of its structure, and the trap frame at the top of its kernel
stack. Both end with the same structure; the frames differ.
-/

namespace KuroOS

open Base

/-- The fields that `taskFill` sets, in its order. -/
def TaskView.filled (v : TaskView) : List Field :=
  [⟨Task.pid, 8, v.pid⟩, ⟨Task.state, 4, v.state.code⟩, ⟨Task.kernelStackBase, 8, v.kernelStack⟩,
   ⟨Task.userStackBase, 8, v.userStack⟩, ⟨Task.stackSize, 8, v.stackSize⟩,
   ⟨Task.userImageSize, 8, v.imageSize⟩, ⟨Task.kernelSp, 8, v.kernelSp⟩, ⟨Task.userSp, 8, v.userSp⟩,
   ⟨Task.entry, 8, v.entry⟩, ⟨Task.exitCode, 8, v.exitCode⟩, ⟨Task.pagetable, 8, v.pagetable⟩]

/-- All fields of a new task, in the order in which the code sets them. -/
def TaskView.fillOrder (v : TaskView) : List Field := v.filled ++ [⟨Task.tf, 8, v.tf⟩]

/-- The structure of a new task. -/
def TaskView.new (t pid us ks imageSize userSp entry root : Nat) : TaskView where
  addr := t
  pid := pid
  state := .ready
  tf := ks + pageSize - trapFrameSize
  kernelSp := ks + pageSize
  userSp := userSp
  entry := entry
  kernelStack := ks
  userStack := us
  stackSize := pageSize
  imageSize := imageSize
  exitCode := 0
  pagetable := root

/-- The fields of a task fit. -/
structure TaskView.Fits (v : TaskView) : Prop where
  words : ∀ f ∈ v.fillOrder, f.value < 256 ^ f.width

/-- Memory with the structure of a task written. -/
def TaskView.put (v : TaskView) (mem : Mem) : Mem := storeFields mem v.addr v.fillOrder

variable {v : TaskView} {mem : Mem} {t pid us ks imageSize userSp entry root tf : Nat}

/-- A structure that is written can be read. -/
theorem TaskView.put_taskAt (fits : v.Fits) : TaskAt (v.put mem) v := by
  have all : FieldsAt (v.put mem) v.addr v.fillOrder :=
    FieldsAt.storeFields (by simp [fillOrder, filled, Field.Apart]) fits.words
  intro f member
  refine all f ?_
  simp only [TaskView.fields, fillOrder, filled, List.mem_cons, List.cons_append, List.nil_append] at member ⊢
  tauto

/-- Writing a structure writes the structure only. -/
theorem TaskView.put_of_outside {x : Nat} (outside : x < v.addr ∨ v.addr + taskSize ≤ x) :
    v.put mem x = mem x := by
  simp only [taskSize] at outside
  exact storeFields_of_outside 96 (by simp [fillOrder, filled]) (by omega)

/-- The fields of a new task fit when its parts do. -/
theorem TaskView.new_fits (low : pid < 2 ^ 64) (stack : us < 2 ^ 63) (kernel : ks < 2 ^ 63)
    (image : imageSize < 2 ^ 64) (user : userSp < 2 ^ 64) (start : entry < 2 ^ 64) (table : root < 2 ^ 64) :
    (TaskView.new t pid us ks imageSize userSp entry root).Fits where
  words := by
    have word : (256 : Nat) ^ 8 = 2 ^ 64 := by decide
    have top : ks + pageSize < 2 ^ 64 := by
      simp only [pageSize]
      omega
    simp only [TaskView.new, TaskView.fillOrder, TaskView.filled, List.cons_append, List.nil_append,
      List.forall_mem_cons, List.not_mem_nil, word]
    exact ⟨low, TaskState.ready.code_lt, by omega, by omega, by decide, image, top, user, start, by omega,
      table, by omega, by simp⟩

/-- A frame as `task_init_frame` writes it. -/
def freshFrame (mem : Mem) (tf userSp entry : Nat) : Mem :=
  (((zeroWords mem tf (trapFrameSize / 8)).store (tf + TrapFrame.sp) 8 userSp).store (tf + TrapFrame.sepc) 8
    entry).store (tf + TrapFrame.sstatus) 8 (sstatusSpie ||| sstatusSum)

theorem freshFrame_of_outside {x : Nat} (outside : x < tf ∨ tf + trapFrameSize ≤ x) :
    freshFrame mem tf userSp entry x = mem x := by
  simp only [trapFrameSize] at outside
  unfold freshFrame
  rw [Mem.store_of_outside (by simp only [TrapFrame.sstatus]; omega),
    Mem.store_of_outside (by simp only [TrapFrame.sepc]; omega),
    Mem.store_of_outside (by simp only [TrapFrame.sp]; omega), zeroWords_apply,
    if_neg (by simp only [trapFrameSize]; omega)]

/-- The frame of a task that has not run: it starts at its entry with its stack
pointer, and every other register is 0. -/
structure FreshFrame (tf userSp entry : Nat) (mem : Mem) : Prop where
  sp : mem.load (tf + TrapFrame.sp) 8 = userSp
  sepc : mem.load (tf + TrapFrame.sepc) 8 = entry
  others : ∀ i < trapFrameSize, i < TrapFrame.sp ∨ TrapFrame.sstatus + 8 ≤ i → mem (tf + i) = 0

/-- What `task_init_frame` writes is such a frame. -/
theorem freshFrame_holds {mem' : Mem} (sp : userSp < 2 ^ 64) (start : entry < 2 ^ 64)
    (same : ∀ i < trapFrameSize, mem' (tf + i) = freshFrame mem tf userSp entry (tf + i)) : FreshFrame tf userSp entry mem' := by
  have field : ∀ offset, offset + 8 ≤ trapFrameSize →
      mem'.load (tf + offset) 8 = (freshFrame mem tf userSp entry).load (tf + offset) 8 := fun offset inside =>
    Mem.load_congr fun x low high => by
      have := same (x - tf) (by omega)
      rwa [Nat.add_sub_cancel' (by omega)] at this
  refine ⟨?_, ?_, fun i low other => ?_⟩
  · rw [field _ (by decide), freshFrame, Mem.load_store_of_disjoint (by simp only [TrapFrame.sp, TrapFrame.sstatus]; omega),
      Mem.load_store_of_disjoint (by simp only [TrapFrame.sp, TrapFrame.sepc]; omega)]
    exact Mem.load_store_same sp
  · rw [field _ (by decide), freshFrame, Mem.load_store_of_disjoint (by simp only [TrapFrame.sepc, TrapFrame.sstatus]; omega)]
    exact Mem.load_store_same start
  · rw [same i low, freshFrame]
    simp only [TrapFrame.sp, TrapFrame.sstatus] at other
    rw [Mem.store_of_outside (by simp only [TrapFrame.sstatus]; omega),
      Mem.store_of_outside (by simp only [TrapFrame.sepc]; omega), Mem.store_of_outside (by simp only [TrapFrame.sp]; omega),
      zeroWords_apply, if_pos (by simp only [trapFrameSize] at *; omega)]

/-- A frame as `task_fork` writes it: a copy with a result of 0, and the result of
the original. -/
def forkedFrame (mem : Mem) (frame tf pid : Nat) : Mem :=
  ((memCopy mem frame tf trapFrameSize).store (frame + TrapFrame.a0) 8 0).store (tf + TrapFrame.a0) 8 pid

theorem forkedFrame_of_outside {frame x : Nat} (fits : frame + trapFrameSize ≤ 2 ^ 64)
    (outside : x < frame ∨ frame + trapFrameSize ≤ x)
    (outside' : x < tf + TrapFrame.a0 ∨ tf + TrapFrame.a0 + 8 ≤ x) :
    forkedFrame mem frame tf pid x = mem x := by
  simp only [trapFrameSize, TrapFrame.a0] at *
  unfold forkedFrame
  rw [Mem.store_of_outside outside', Mem.store_of_outside (by simp only [TrapFrame.a0]; omega),
    memCopy_of_outside fits outside]

/-- The child's frame is the parent's, apart from the result. -/
theorem forkedFrame_copy {frame i : Nat} (fits : frame + trapFrameSize ≤ 2 ^ 64)
    (tfFits : tf + trapFrameSize ≤ 2 ^ 64) (apart : tf + trapFrameSize ≤ frame ∨ frame + trapFrameSize ≤ tf)
    (inside : i < trapFrameSize) (other : i < TrapFrame.a0 ∨ TrapFrame.a0 + 8 ≤ i) :
    forkedFrame mem frame tf pid (frame + i) = mem (tf + i) := by
  simp only [trapFrameSize, TrapFrame.a0] at *
  unfold forkedFrame
  rw [Mem.store_of_outside (by simp only [TrapFrame.a0]; omega),
    Mem.store_of_outside (by simp only [TrapFrame.a0]; omega), memCopy_of_inside fits tfFits apart inside]

section

variable {s : Kernel} {post : Unit → Kernel → Prop} {halt : Halt → Kernel → Prop}

/-- The fields that `task_create_user` and `task_fork` both set. -/
theorem taskFill_spec (fits : (TaskView.new t s.nextPid us ks imageSize userSp entry root).Fits)
    (kernel : ks + 4096 < 2 ^ 64) {α : Type} {rest : K α} {post : α → Kernel → Prop}
    (done : ∀ mem', mem' = storeFields s.mem t (TaskView.new t s.nextPid us ks imageSize userSp entry root).filled →
      FieldsAt mem' t (TaskView.new t s.nextPid us ks imageSize userSp entry root).filled →
      wp rest { s with nextPid := wadd s.nextPid 1, mem := mem' } post halt) :
    wp (do taskFill t ks us imageSize userSp entry root; rest) s post halt := by
  have stored : FieldsAt (storeFields s.mem t (TaskView.new t s.nextPid us ks imageSize userSp entry root).filled) t
      (TaskView.new t s.nextPid us ks imageSize userSp entry root).filled :=
    .storeFields (by simp [TaskView.filled, Field.Apart]) fun f member =>
      fits.words f (List.mem_append_left _ member)
  have top : wadd ks pageSize = ks + pageSize := wadd_of_lt (by simp only [pageSize]; omega)
  have reached := done _ rfl stored
  unfold taskFill
  simp only [wp_bind, wp_get, wp_modify, wp_storeWord, wp_storeState, top]
  exact reached

/-- The frame that `task_init_frame` writes for a structure that wants `tf` only. -/
theorem taskInitFrame_spec (put : TaskAt (s.mem.store (v.addr + Task.tf) 8 v.tf) v) (kernelSp : v.kernelSp = ks + pageSize)
    (frame : v.tf = ks + pageSize - trapFrameSize) (kernel : ks + 4096 < 2 ^ 63)
    (apart : v.addr + taskSize ≤ ks ∨ ks + 4096 ≤ v.addr) :
    wp (taskInitFrame v.addr) s (fun _ s' => s' = { s with
      mem := freshFrame (s.mem.store (v.addr + Task.tf) 8 v.tf) v.tf v.userSp v.entry }) halt := by
  have top : wsub (ks + pageSize) trapFrameSize = v.tf :=
    frame ▸ wsub_of_le (by simp only [pageSize, trapFrameSize]; omega) (by simp only [pageSize]; omega)
  have loaded : s.mem.load (v.addr + Task.kernelSp) 8 = ks + pageSize := by
    rw [← kernelSp, ← put.kernelSp]
    exact (Mem.load_store_of_disjoint (by simp only [Task.kernelSp, Task.tf]; omega)).symm
  obtain ⟨mem', is⟩ : ∃ mem', mem' = s.mem.store (v.addr + Task.tf) 8 v.tf := ⟨_, rfl⟩
  rw [← is] at put ⊢
  -- the frame is not in the structure
  have view : ∀ mem₁ : Mem, (∀ x, x < v.tf ∨ v.tf + trapFrameSize ≤ x → mem₁ x = mem' x) → TaskAt mem₁ v :=
    fun mem₁ same => put.congr fun x low high => same x (by
      simp only [taskSize, trapFrameSize, pageSize] at *
      omega)
  unfold taskInitFrame
  simp only [wp_bind, wp_loadWord, wp_storeWord, wp_modifyMem, loaded, top, ← is]
  have zeroed : TaskAt (zeroWords mem' v.tf (trapFrameSize / 8)) v := view _ fun x outside => by
    rw [zeroWords_apply, if_neg (by simp only [trapFrameSize] at *; omega)]
  rw [zeroed.userSp]
  have withSp : TaskAt ((zeroWords mem' v.tf (trapFrameSize / 8)).store (v.tf + TrapFrame.sp) 8 v.userSp) v :=
    view _ fun x outside => by
      rw [Mem.store_of_outside (by simp only [TrapFrame.sp, trapFrameSize] at *; omega), zeroWords_apply,
        if_neg (by simp only [trapFrameSize] at *; omega)]
  rw [withSp.entry]
  rfl

/-- The fields and the frame that `task_create_user` writes. -/
theorem taskInit_spec (fits : (TaskView.new t s.nextPid us ks imageSize userSp entry root).Fits)
    (kernel : ks + 4096 < 2 ^ 63) (apart : t + taskSize ≤ ks ∨ ks + 4096 ≤ t)
    (done : post () { s with
      nextPid := wadd s.nextPid 1,
      mem := freshFrame ((TaskView.new t s.nextPid us ks imageSize userSp entry root).put s.mem)
        (ks + pageSize - trapFrameSize) userSp entry }) :
    wp (do taskFill t ks us imageSize userSp entry root; taskInitFrame t) s post halt := by
  obtain ⟨v, is⟩ : ∃ v, v = TaskView.new t s.nextPid us ks imageSize userSp entry root := ⟨_, rfl⟩
  rw [← is] at fits done
  have here : v.addr = t ∧ v.kernelSp = ks + pageSize ∧ v.tf = ks + pageSize - trapFrameSize ∧
      v.userSp = userSp ∧ v.entry = entry := by simp [is, TaskView.new]
  obtain ⟨addr, kernelSp, frame, user, start⟩ := here
  subst addr user start
  refine taskFill_spec (is ▸ fits) (by omega) fun mem' filled _ => ?_
  rw [← is] at filled
  have put : mem'.store (v.addr + Task.tf) 8 v.tf = v.put s.mem := by
    rw [filled, TaskView.put, TaskView.fillOrder, storeFields_append]
    rfl
  refine wp_mono (taskInitFrame_spec (put ▸ TaskView.put_taskAt fits) kernelSp frame kernel apart) ?_ fun _ _ => id
  rintro _ _ rfl
  rw [put, frame]
  exact done

/-- The fields and the frame that `task_fork` writes. -/
theorem taskForkFrame_spec (fits : (TaskView.new t s.nextPid us ks imageSize userSp entry root).Fits)
    (kernel : ks + 4096 < 2 ^ 63) (apart : t + taskSize ≤ ks ∨ ks + 4096 ≤ t)
    (done : post () { s with
      nextPid := wadd s.nextPid 1,
      mem := forkedFrame ((TaskView.new t s.nextPid us ks imageSize userSp entry root).put s.mem)
        (ks + pageSize - trapFrameSize) tf s.nextPid }) :
    wp (do taskFill t ks us imageSize userSp entry root; taskForkFrame t tf) s post halt := by
  obtain ⟨v, is⟩ : ∃ v, v = TaskView.new t s.nextPid us ks imageSize userSp entry root := ⟨_, rfl⟩
  rw [← is] at fits done
  have here : v.addr = t ∧ v.kernelSp = ks + pageSize ∧ v.tf = ks + pageSize - trapFrameSize ∧
      v.pid = s.nextPid := by simp [is, TaskView.new]
  obtain ⟨addr, kernelSp, frame, pid⟩ := here
  subst addr
  refine taskFill_spec (is ▸ fits) (by omega) fun mem' filled stored => ?_
  rw [← is] at filled stored
  have top : wsub (ks + pageSize) trapFrameSize = v.tf :=
    frame ▸ wsub_of_le (by simp only [pageSize, trapFrameSize]; omega) (by simp only [pageSize]; omega)
  have loaded : mem'.load (v.addr + Task.kernelSp) 8 = ks + pageSize :=
    kernelSp ▸ stored ⟨Task.kernelSp, 8, v.kernelSp⟩ (by simp [TaskView.filled])
  have put : mem'.store (v.addr + Task.tf) 8 v.tf = v.put s.mem := by
    rw [filled, TaskView.put, TaskView.fillOrder, storeFields_append]
    rfl
  have copied : TaskAt ((memCopy (v.put s.mem) v.tf tf trapFrameSize).store (v.tf + TrapFrame.a0) 8 0) v :=
    (TaskView.put_taskAt fits).congr fun x low high => by
      simp only [taskSize, trapFrameSize, pageSize] at *
      rw [Mem.store_of_outside (by simp only [TrapFrame.a0]; omega), memCopy_of_outside (by omega) (by omega)]
  unfold taskForkFrame
  simp only [wp_bind, wp_loadWord, wp_storeWord, wp_modifyMem, loaded, top, put]
  rw [copied.pid, frame, pid]
  exact done

end

end KuroOS
