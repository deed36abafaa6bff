import KuroOS.Task.ExecReap
import KuroOS.Task.RoundRobin

/-!
# Tasks that wait

While one task runs, and the kernel works for it, every other task on the run queue is a
bystander: its structure keeps its fields, its page table its entries, and its pages,
with the saved frame among them, their bytes.
-/

namespace KuroOS

open Base

section

variable [Layout]

/-- A task is as it was, but for its place in the schedule and the bytes in `X`. -/
structure SparedBut (X : Set Nat) (t : Nat) (g : World) (s : Kernel) (g' : World) (s' : Kernel) : Prop where
  view : ∀ v ∈ g.tasks, v.addr = t → ∃ w ∈ g'.tasks, w.core = v.core
  user : g'.user t = g.user t
  owner : ∀ o ∈ labels t, ∀ p, g'.own p = o ↔ g.own p = o
  bytes : ∀ x ∉ X, g.own (pageOf x) ∈ labels t → s'.mem x = s.mem x

/-- A task is as it was, but for its place in the schedule. -/
abbrev Spared : Nat → World → Kernel → World → Kernel → Prop := SparedBut ∅

variable {X Y : Set Nat} {g g₁ g' : World} {s s₁ s' : Kernel} {t r : Nat} {v : TaskView}

namespace SparedBut

omit [Layout] in
theorem refl (t : Nat) (g : World) (s : Kernel) : SparedBut X t g s g s :=
  ⟨fun v member _ => ⟨v, member, rfl⟩, rfl, fun _ _ _ => .rfl, fun _ _ _ => rfl⟩

omit [Layout] in
theorem trans (first : SparedBut X t g s g₁ s₁) (second : SparedBut X t g₁ s₁ g' s') : SparedBut X t g s g' s' where
  view v member here := by
    obtain ⟨w, inside, core⟩ := first.view v member here
    obtain ⟨u, inside', core'⟩ := second.view w inside ((TaskView.core_fields core).1.trans here)
    exact ⟨u, inside', core'.trans core⟩
  user := second.user.trans first.user
  owner o label p := (second.owner o label p).trans (first.owner o label p)
  bytes x outside label := by
    have label' : g₁.own (pageOf x) ∈ labels t := by rwa [(first.owner _ label _).mpr rfl]
    exact (second.bytes x outside label').trans (first.bytes x outside label)

omit [Layout] in
theorem mono (spared : SparedBut X t g s g' s') (sub : ∀ x ∈ X, x ∉ Y → g.own (pageOf x) ∉ labels t) : SparedBut Y t g s g' s' :=
  { spared with bytes := fun x outside label => spared.bytes x (fun inside => sub x inside outside label) label }

/-- What changes pages of others alone. -/
theorem of_moves (valid : Valid g s) {C : Set Owner} (moves : Moves pageOf (listHeads ∪ X) C C g.own s.mem g'.own s'.mem)
    (apart : ∀ o ∈ labels t, o ∉ C) (view : ∀ v ∈ g.tasks, v.addr = t → ∃ w ∈ g'.tasks, w.core = v.core)
    (user : g'.user t = g.user t) : SparedBut X t g s g' s' := by
  refine ⟨view, user, fun o label p => moves.own_iff (apart o label) p, fun x outside label => ?_⟩
  refine moves.bytes x (apart _ label) ?_
  rintro (isHead | inX)
  · exact valid.world.heap.pool.not_listHeads (fun outside => by simp [outside, labels] at label) isHead
  · exact outside inX

end SparedBut

omit [Layout] in
/-- A task's own labels are not those of the free list, the heap and the lost pages. -/
theorem label_apart {o : Owner} (label : o ∈ labels t) : o ≠ .free ∧ o ≠ .heap ∧ o ≠ .lost := by
  simp only [labels, Set.mem_insert_iff, Set.mem_singleton_iff] at label
  rcases label with rfl | rfl | rfl | rfl <;> simp

omit [Layout] in
/-- The labels of a task that is not freed. -/
theorem label_not_freed {gone : List TaskView} (alive : ∀ v ∈ gone, v.addr ≠ t) : ∀ o ∈ labels t, o ∉ freed gone := by
  rintro o label (isCommon | ⟨v, member, label'⟩)
  · have apart := label_apart label
    simp only [Set.mem_insert_iff, Set.mem_singleton_iff] at isCommon
    tauto
  · exact labels_disjoint (alive v member).symm label label'

namespace ValidOf

/-- A queued task is no zombie. -/
theorem queued_alive (valid : Valid g s) (queued : t ∈ g.queue) : ∀ v ∈ zombies s.current g.tasks, v.addr ≠ t := by
  rintro v member rfl
  obtain ⟨inside, isZombie, _⟩ := mem_zombies.mp member
  exact (valid.sched.books.queued v inside).mp queued isZombie

theorem queued_survives (valid : Valid g s) (queued : t ∈ g.queue) (member : v ∈ g.tasks) (here : v.addr = t) :
    v ∈ survivors s.current g.tasks := by
  refine mem_survivors.mpr ⟨member, fun isZombie => ?_⟩
  exact absurd isZombie ((valid.sched.books.queued v member).mp (here ▸ queued))

theorem spared_reaping (valid : Valid g s) (queued : t ∈ g.queue) (reaping : Reaping g s g' s') : SparedBut X t g s g' s' := by
  refine .of_moves valid (reaping.reaped.effect.extend Set.subset_union_left) (label_not_freed (valid.queued_alive queued))
    (fun v member here => ⟨v, ?_, rfl⟩) (by rw [reaping.reaped.user])
  rw [reaping.tasks]
  exact valid.queued_survives queued member here

/-- Making a task, whatever its outcome. -/
theorem spared_made (valid : Valid g s) (queued : t ∈ g.queue) (made : Made X g s r g' s') : SparedBut X t g s g' s' := by
  obtain ⟨g₁, s₁, reaping, outcome⟩ := made
  have valid₁ := valid.reaping reaping
  refine (valid.spared_reaping queued reaping).trans ?_
  rcases outcome with ⟨_, aborted⟩ | ⟨_, w, pages, _, created⟩
  · refine .of_moves valid₁ (aborted.effect.extend Set.subset_union_left) (fun o label => ?_)
      (fun v member _ => ⟨v, aborted.same.tasks ▸ member, rfl⟩) (by rw [aborted.same.user])
    have apart := label_apart label
    simp only [Set.mem_insert_iff, Set.mem_singleton_iff]
    tauto
  · have queued₁ : t ∈ g₁.queue := reaping.reaped.queue ▸ queued
    have other : t ≠ w.addr := fun equal => created.born.fresh (List.mem_append_right _ (equal ▸ queued₁))
    refine .of_moves valid₁ created.born.effect (fun o label inside => ?_) (fun v member _ => ⟨v, ?_, rfl⟩) (created.born.user _ other)
    · rcases inside with isCommon | label'
      · have apart := label_apart label
        simp only [Set.mem_insert_iff, Set.mem_singleton_iff] at isCommon
        tauto
      · exact labels_disjoint other label label'
    · rw [created.born.tasks]
      exact List.mem_append_left _ member

theorem spared_switched {gone kept : List TaskView} (valid : Valid g s) (alive : ∀ v ∈ gone, v.addr ≠ t)
    (stays : ∀ v ∈ g.tasks, v.addr = t → v ∈ kept) (switched : Switched gone kept g s g' s') : SparedBut X t g s g' s' := by
  refine .of_moves valid (switched.effect.extend Set.subset_union_left) (label_not_freed alive)
    (fun v member here => ?_) (by rw [switched.user])
  have inside : v.core ∈ kept.map TaskView.core := List.mem_map_of_mem (stays v member here)
  rw [← switched.tasks] at inside
  obtain ⟨w, member', core⟩ := List.mem_map.mp inside
  exact ⟨w, member', core⟩

theorem spared_execFailed (valid : Valid g s) (failed : ExecFailed g s g' s') : SparedBut X t g s g' s' := by
  refine ⟨fun v member _ => ⟨v, failed.same.tasks ▸ member, rfl⟩, by rw [failed.same.user], fun o label p => ?_, fun x _ label => ?_⟩
  · have apart := label_apart label
    rcases failed.owner p with same | ⟨before, after⟩
    · rw [same]
    · rw [before, after]
      exact iff_of_false apart.2.2.symm apart.1.symm
  · refine failed.bytes x (label_apart label).1 fun isNode => ?_
    exact valid.world.heap.pool.not_listHeads (fun outside => by simp [outside, labels] at label) (.inl (.inl isNode))

theorem spared_execed {p : TaskView} {root entry : Nat} (valid : Valid g s) (member : p ∈ g.tasks) (other : t ≠ p.addr)
    (execed : Execed g s p root entry g' s') : Spared t g s g' s' := by
  refine ⟨fun v inside here => ⟨v, ?_, rfl⟩, execed.user _ other, fun o label q => ?_, fun x _ label => ?_⟩
  · rw [execed.tasks]
    exact mem_modify.mpr ⟨v, inside, (if_neg (here ▸ other)).symm⟩
  · have apart := label_apart label
    have foreign := labels_disjoint other label
    rcases execed.owner q with same | ⟨before, after⟩ | ⟨before, after⟩
    · rw [same]
    · rw [before]
      refine iff_of_false (fun isO => ?_) apart.1.symm
      rcases after with after | after
      · exact apart.2.2 (isO.symm.trans after)
      · exact foreign (isO ▸ after)
    · rw [after]
      refine iff_of_false apart.2.2.symm fun isO => foreign ?_
      rw [← isO]
      rcases before with before | before <;> simp [before, labels]
  · have apart := label_apart label
    refine execed.bytes x apart.1 apart.2.1 (fun isNode => ?_) ?_
    · exact valid.world.heap.pool.not_listHeads (fun outside => by simp [outside, labels] at label) (.inl (.inl isNode))
    · by_contra inFrame
      have isStack := (valid.frame_page member (x := x) (by omega) (by omega)).2
      rw [isStack] at label
      simp [labels, other.symm] at label

/-- What user code writes is its own. -/
theorem spared_writes (valid : Valid g s) (busy : s.current ≠ 0) (other : t ≠ s.current) (writes : ∀ x, s'.mem x ≠ s.mem x → MayWrite s x) :
    Spared t g s g s' := by
  obtain ⟨p, member, current, _⟩ := valid.running busy
  refine ⟨fun v member _ => ⟨v, member, rfl⟩, rfl, fun _ _ _ => .rfl, fun x _ label => ?_⟩
  by_contra changed
  have notP : t ≠ p.addr := current ▸ other
  rcases valid.mayWrite member current (writes x changed) with here | here | here <;> rw [here] at label <;>
    simp [labels, notP.symm] at label

end ValidOf

end

end KuroOS
