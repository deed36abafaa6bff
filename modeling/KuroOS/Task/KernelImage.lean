import KuroOS.Task.ElfPlaces
import KuroOS.Task.ExecReturn

/-!
# The kernel image

RAM is the kernel image and, above it, the pool of pages. Whatever runs, what is written
is in the pool, but for the heads of the kernel's lists. So the image stays in memory as
it was loaded: the code and the constants of the kernel, the archive, and the first user
program.
-/

namespace KuroOS

open Base Base.Riscv

section

variable [Layout]

/-- A byte of the kernel image that is not of a list head. The kernel's other variables are
fields of the state, not bytes of its memory. -/
def ImageByte (x : Nat) : Prop := x < Layout.kernelEnd ∧ x ∉ listHeads

/-- The image is what it was. -/
def SameImage (s s' : Kernel) : Prop := ∀ x, ImageByte x → s'.mem x = s.mem x

/-- Traps that follow one another, of any tasks. -/
inductive Later (h : Hart) (s : Kernel) : Hart → Kernel → Prop
  | refl : Later h s h s
  | trap {h₁ u h₂ : Hart} {s₁ t s₂ : Kernel} {scause : Nat} (before : Later h s h₁ s₁) (trap : Trap h₁ s₁ u t scause h₂ s₂) :
      Later h s h₂ s₂

variable {X : Set Nat} {g g₁ g' : World} {h h' u : Hart} {s s₁ s' t : Kernel} {p : TaskView} {tf scause r x : Nat}

/-- A run that goes on. -/
theorem Later.inUserMode (later : Later h s h' s') (mode : InUserMode g h s) : ∃ g', InUserMode g' h' s' := by
  induction later with
  | refl => exact ⟨g, mode⟩
  | trap before trap ih =>
      obtain ⟨g₁, mode₁⟩ := ih
      exact trap.inUserMode mode₁

namespace SameImage

theorem refl (s : Kernel) : SameImage s s := fun _ _ => rfl

theorem trans (first : SameImage s s₁) (later : SameImage s₁ s') : SameImage s s' := fun x image =>
  (later x image).trans (first x image)

theorem of_owned (valid : Valid g s) (owned : ∀ x, s'.mem x ≠ s.mem x → x ∈ listHeads ∨ g.own (pageOf x) ≠ .outside) :
    SameImage s s' := by
  rintro x ⟨low, noHead⟩
  by_contra changed
  rcases owned x changed with isHead | other
  · exact noHead isHead
  · exact other (valid.world.heap.pool.image_outside low)

/-- What an operation changes in pages of the pool. -/
theorem of_moves (valid : Valid g s) {C : Set Owner} (moves : Moves pageOf (listHeads ∪ X) C C g.own s.mem g'.own s'.mem)
    (apart : .outside ∉ C) (owned : ∀ x ∈ X, g.own (pageOf x) ≠ .outside) : SameImage s s' := by
  refine .of_owned valid fun x changed => ?_
  by_contra neither
  obtain ⟨noHead, outside⟩ := not_or.mp neither
  rw [not_not] at outside
  refine changed (moves.bytes x (by rwa [outside]) ?_)
  rintro (isHead | inX)
  · exact noHead isHead
  · exact owned x inX outside

theorem of_effect (valid : Valid g s) {C : Set Owner} (effect : Effect C g.own s g'.own s') (apart : .outside ∉ C) : SameImage s s' :=
  .of_moves (X := ∅) valid (effect.extend Set.subset_union_left) apart fun _ none => none.elim

end SameImage

omit [Layout] in
/-- Freeing tasks gives back pages of the pool. -/
theorem outside_not_freed (gone : List TaskView) : .outside ∉ freed gone := by
  rintro (isCommon | ⟨v, _, label⟩)
  · simp at isCommon
  · simp [labels] at label

namespace ValidOf

/-- Making a task. -/
theorem image_made (valid : Valid g s) (made : Made X g s r g' s') (owned : ∀ x ∈ X, g.own (pageOf x) ≠ .outside) : SameImage s s' := by
  obtain ⟨g₁, s₁, reaping, outcome⟩ := made
  have valid₁ := valid.reaping reaping
  have apart : .outside ∉ freed (zombies s.current g.tasks) := outside_not_freed _
  refine (SameImage.of_effect valid reaping.reaped.effect apart).trans ?_
  rcases outcome with ⟨_, aborted⟩ | ⟨_, w, pages, _, created⟩
  · exact .of_effect valid₁ aborted.effect (by simp)
  · refine .of_moves valid₁ created.born.effect (by simp [labels]) fun x inX => ?_
    exact (reaping.reaped.effect.own_iff apart _).not.mpr (owned x inX)

/-- What user code and the trap entry write. -/
theorem image_writes (valid : Valid g s) (busy : s.current ≠ 0) (writes : ∀ x, s'.mem x ≠ s.mem x → MayWrite s x) : SameImage s s' := by
  obtain ⟨p, member, current, _⟩ := valid.running busy
  refine .of_owned valid fun x changed => .inr ?_
  rcases valid.mayWrite member current (writes x changed) with here | here | here <;> simp [here]

/-- A failed `sys_exec`, and a page that is taken. -/
theorem image_execFailed (valid : Valid g s) (failed : ExecFailed g s g' s') : SameImage s s' := by
  refine .of_owned valid fun x changed => ?_
  by_contra neither
  obtain ⟨noHead, outside⟩ := not_or.mp neither
  rw [not_not] at outside
  exact changed (failed.bytes x (by simp [outside]) fun isNode => noHead (.inl (.inl isNode)))

/-- A `sys_exec` that succeeds. -/
theorem image_execed {root entry : Nat} (valid : Valid g s) (member : p ∈ g.tasks) (execed : Execed g s p root entry g' s') :
    SameImage s s' := by
  refine .of_owned valid fun x changed => ?_
  by_contra neither
  obtain ⟨noHead, outside⟩ := not_or.mp neither
  rw [not_not] at outside
  refine changed (execed.bytes x (by simp [outside]) (by simp [outside]) (fun isNode => noHead (.inl (.inl isNode))) ?_)
  by_contra inFrame
  have isStack := (valid.frame_page member (x := x) (by omega) (by omega)).2
  simp [outside] at isStack

/-- No operation writes in the image. -/
theorem image_step (valid : Valid g s) (op : Op) (called : op.Called s) (outcome : op.Outcome g s r g' s') : SameImage s s' := by
  cases op with
  | createUser start stop entry => exact valid.image_made outcome fun _ none => none.elim
  | fork =>
      rcases outcome with ⟨_, rfl⟩ | ⟨p, member, current, made⟩
      · exact .refl _
      · refine valid.image_made made fun x inResult => ?_
        simp only [resultBytes, Set.mem_ofPred_eq, TrapFrame.a0] at inResult
        rw [(valid.frame_page member (x := x) (by omega) (by simp only [trapFrameSize]; omega)).2]
        simp
  | schedule => exact .of_effect valid outcome.effect (outside_not_freed _)
  | exit code => exact .of_effect valid outcome.effect (outside_not_freed _)
  | reap => exact .of_effect valid outcome.reaped.effect (outside_not_freed _)
  | exec filename =>
      rcases outcome with failed | ⟨p, member, _, root, entry, execed⟩
      · exact valid.image_execFailed failed
      · exact valid.image_execed member execed
  | destroy task =>
      obtain ⟨v, _, _, destroyed⟩ := outcome
      exact .of_effect valid destroyed.effect (outside_not_freed _)
  | take => exact valid.image_execFailed outcome
  | user mem uart =>
      obtain ⟨_, writes, rfl⟩ := outcome
      exact valid.image_writes called writes

end ValidOf

/-- What the kernel writes for the current task. -/
theorem Touched.sameImage (touched : Touched s s') (resumes : Resumes tf s) : SameImage s s' := by
  obtain ⟨⟨g, valid⟩, busy, _⟩ := resumes
  exact valid.image_writes busy touched.writes

/-- `trap_handler` does not write in the image. -/
theorem Resumes.imageRule (resumes : Resumes tf s) : TrapRule scause s tf (SameImage s) fun _ => SameImage s where
  skip := (resumes.store_touched (by decide)).sameImage resumes
  result resumes same := same.trans ((resumes.store_touched (by decide)).sameImage resumes)
  looked resumes same looked := same.trans ((Touched.of_looked looked).sameImage resumes)
  delivered := by
    intro s₁ s' _ resumes same delivered
    have touched : Touched s₁ s' := ⟨delivered.rest, fun x changed => .inl (delivered.writes x changed)⟩
    exact same.trans (touched.sameImage resumes)
  fork := by
    rintro s₁ ⟨⟨g, valid⟩, _, isTf⟩ same
    rw [isTf]
    refine wp_mono valid.fork_step ?_ fun _ _ => id
    rintro r s' ⟨g', _, outcome⟩
    exact same.trans (valid.image_step .fork trivial outcome)
  exec := by
    rintro s₁ filename _ ⟨⟨g, valid⟩, busy, isTf⟩ same
    rw [isTf]
    refine wp_mono (valid.exec_step busy filename 0) ?_ fun _ _ => id
    rintro r s' ⟨g', _, outcome⟩
    exact same.trans (valid.image_step (.exec filename) busy outcome)
  preempt _ := by
    obtain ⟨⟨g, valid⟩, _, isTf⟩ := resumes
    rw [isTf]
    refine wp_mono valid.schedule_step ?_ fun _ _ => id
    rintro f s' ⟨g', _, outcome⟩
    exact valid.image_step .schedule trivial outcome
  yield := by
    rintro s₁ _ ⟨⟨g, valid⟩, _, isTf⟩ same
    rw [isTf]
    refine wp_mono valid.schedule_step ?_ fun _ _ => id
    rintro f s' ⟨g', _, outcome⟩
    exact same.trans (valid.image_step .schedule trivial outcome)
  exit := by
    rintro s₁ code _ word ⟨⟨g, valid⟩, _, isTf⟩ same
    rw [isTf]
    have steps := valid.exit_step (UInt64.ofNat code)
    rw [UInt64.toNat_ofNat_of_lt' word] at steps
    refine wp_mono steps ?_ fun _ _ => id
    rintro f s' ⟨g', _, outcome⟩
    exact .inr (same.trans (valid.image_step (.exit (UInt64.ofNat code)) trivial outcome))

/-- Up to `trap_handler`, user code and `trap_entry` have written in pages of their task. -/
theorem Entered.sameImage (entered : Entered g u t p s₁) (mode : InUserMode g h s)
    (user : ∀ x, t.mem x ≠ s.mem x → ∃ va, sv39User s.mem s.satpRoot va .write = some x) : SameImage s s₁ := by
  refine (mode.valid.image_writes mode.busy fun x changed => .inl (user x changed)).trans ?_
  refine .of_owned entered.before fun x changed => .inr ?_
  have inFrame : p.tf ≤ x ∧ x < p.tf + 8 * trapWords := by
    by_contra outside
    exact changed (entered.bytes x (by omega))
  simp [(entered.before.frame_page entered.member (x := x) inFrame.1 (by simp only [trapWords, trapFrameSize] at *; omega)).2]

/-- No trap changes the image, nor does the user code before it. -/
theorem Trap.sameImage (mode : InUserMode g h s) (trap : Trap h s u t scause h' s') : SameImage s s' := by
  obtain ⟨p, s₁, f, entered, handles, reads, _⟩ := trap.spec mode
  have resumes : Resumes p.tf s₁ := entered.valid.resumes_same entered.member entered.here
  refine (entered.sameImage mode trap.user).trans ?_
  rcases wp_returned (resumes.imageRule.handler resumes reads) handles with ⟨_, _, same⟩ | ⟨_, same⟩
  · exact same
  · exact same

/-- The kernel image is never overwritten. -/
theorem Later.sameImage (later : Later h s h' s') (mode : InUserMode g h s) : SameImage s s' := by
  induction later with
  | refl => exact .refl s
  | trap before trap ih =>
      obtain ⟨g₁, mode₁⟩ := before.inUserMode mode
      exact ih.trans (trap.sameImage mode₁)

end

section

attribute [local instance] Layout.sample

end

end KuroOS
