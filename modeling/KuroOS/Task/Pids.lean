import KuroOS.Task.Ops

/-!
# Process numbers

The tasks on `all_tasks` stand in the order in which they were made, so their
numbers increase along the list and stay below the next one, as long as the
counter has not wrapped.
-/

namespace KuroOS

open Base

/-- The numbers of the tasks increase along `all_tasks`, up to the next one. -/
structure Pids (g : World) (s : Kernel) : Prop where
  increasing : (g.tasks.map TaskView.pid).Pairwise (· < ·)
  below : ∀ v ∈ g.tasks, v.pid < s.nextPid

/-- The same numbers, or some of them, and the same counter. -/
def FewerPids (g : World) (s : Kernel) (g' : World) (s' : Kernel) : Prop :=
  (g'.tasks.map TaskView.pid).Sublist (g.tasks.map TaskView.pid) ∧ s'.nextPid = s.nextPid

variable {g g' g'' : World} {s s' s'' : Kernel} {v : TaskView}

theorem FewerPids.trans (first : FewerPids g s g' s') (later : FewerPids g' s' g'' s'') : FewerPids g s g'' s'' :=
  ⟨later.1.trans first.1, later.2.trans first.2⟩

theorem Pids.fewer (pids : Pids g s) (fewer : FewerPids g s g' s') : Pids g' s' := by
  refine ⟨pids.increasing.sublist fewer.1, fun v member => ?_⟩
  obtain ⟨w, old, same⟩ := List.mem_map.mp (fewer.1.subset (List.mem_map_of_mem member))
  rw [fewer.2, ← same]
  exact pids.below w old

/-- A new task gets the next number. -/
theorem Pids.append (pids : Pids g s) (tasks : g'.tasks = g.tasks ++ [v]) (pid : v.pid = s.nextPid)
    (next : s'.nextPid = s.nextPid + 1) : Pids g' s' := by
  refine ⟨?_, fun w member => ?_⟩
  · rw [tasks, List.map_append, List.pairwise_append]
    refine ⟨pids.increasing, List.pairwise_singleton _ _, fun a old b new => ?_⟩
    obtain ⟨w, member, rfl⟩ := List.mem_map.mp old
    obtain rfl : b = v.pid := by simpa using new
    rw [pid]
    exact pids.below w member
  · rw [tasks, List.mem_append, List.mem_singleton] at member
    rcases member with old | rfl
    · have := pids.below w old
      omega
    · omega

variable [Layout]

theorem ReapingOf.fewerPids (reaping : Reaping g s g' s') : FewerPids g s g' s' := by
  refine ⟨?_, by rw [reaping.reaped.globals]⟩
  rw [reaping.tasks]
  exact List.filter_sublist.map _

omit [Layout] in
theorem SameTasks.fewerPids (same : SameTasks g g') (next : s'.nextPid = s.nextPid) : FewerPids g s g' s' :=
  ⟨by rw [same.tasks], next⟩

theorem Switched.fewerPids {gone kept : List TaskView} (switched : Switched gone kept g s g' s') (sub : kept.Sublist g.tasks) :
    FewerPids g s g' s' := by
  have byCore : ∀ l : List TaskView, l.map TaskView.pid = (l.map TaskView.core).map TaskView.pid := fun l => by
    rw [List.map_map]
    rfl
  refine ⟨?_, by rw [switched.globals]⟩
  rw [byCore g'.tasks, switched.tasks, ← byCore]
  exact sub.map _

theorem Execed.fewerPids {p : TaskView} {root entry : Nat} (execed : Execed g s p root entry g' s') : FewerPids g s g' s' := by
  refine ⟨?_, by rw [execed.globals]⟩
  have same : g'.tasks.map TaskView.pid = g.tasks.map TaskView.pid := by
    rw [execed.tasks, World.modify, List.map_map]
    refine List.map_congr_left fun v _ => ?_
    simp only [Function.comp_apply]
    split
    · rfl
    · rfl
  rw [same]

theorem Destroyed.fewerPids (destroyed : Destroyed v g s g' s') : FewerPids g s g' s' := by
  refine ⟨?_, by rw [destroyed.globals]⟩
  rw [destroyed.same.tasks]
  exact List.erase_sublist.map _

/-- What an attempt to make a task does to the numbers. -/
theorem MadeOf.pids {X : Set Nat} {r : Nat} (made : Made X g s r g' s') :
    (r = 0 ∧ FewerPids g s g' s') ∨ (r ≠ 0 ∧ ∃ g₁ s₁ v, FewerPids g s g₁ s₁ ∧ g'.tasks = g₁.tasks ++ [v] ∧
      v.pid = s₁.nextPid ∧ s'.nextPid = wadd s₁.nextPid 1) := by
  obtain ⟨g₁, s₁, reaping, ⟨zero, aborted⟩ | ⟨nonzero, v, pages, _, created⟩⟩ := made
  · exact .inl ⟨zero, reaping.fewerPids.trans (aborted.same.fewerPids (by rw [aborted.globals]))⟩
  · refine .inr ⟨nonzero, g₁, s₁, v, reaping.fewerPids, created.born.tasks, ?_, by rw [created.born.globals]⟩
    rw [created.view]
    rfl

/-- What an operation does to the numbers. -/
theorem Op.Outcome.pids {op : Op} {r : Nat} (outcome : op.Outcome g s r g' s') :
    (FewerPids g s g' s') ∨ (op.creations r = 1 ∧ ∃ g₁ s₁ v, FewerPids g s g₁ s₁ ∧ g'.tasks = g₁.tasks ++ [v] ∧
      v.pid = s₁.nextPid ∧ s'.nextPid = wadd s₁.nextPid 1) := by
  cases op with
  | createUser start stop entry =>
      rcases MadeOf.pids outcome with ⟨_, fewer⟩ | ⟨nonzero, created⟩
      · exact .inl fewer
      · exact .inr ⟨if_neg nonzero, created⟩
  | fork =>
      rcases outcome with ⟨rfl, rfl⟩ | ⟨p, _, _, made⟩
      · exact .inl ⟨.refl _, rfl⟩
      · rcases made.pids with ⟨_, fewer⟩ | ⟨nonzero, created⟩
        · exact .inl fewer
        · exact .inr ⟨if_neg nonzero, created⟩
  | schedule => exact .inl (Switched.fewerPids outcome List.filter_sublist)
  | exit code => exact .inl (Switched.fewerPids outcome (.refl _))
  | reap => exact .inl (ReapingOf.fewerPids outcome)
  | exec filename =>
      rcases outcome with failed | ⟨p, _, _, root, entry, execed⟩
      · exact .inl (failed.same.fewerPids (by rw [failed.globals]))
      · exact .inl execed.fewerPids
  | destroy task =>
      obtain ⟨v, _, _, destroyed⟩ := outcome
      exact .inl destroyed.fewerPids
  | take => exact .inl (outcome.same.fewerPids (by rw [outcome.globals]))
  | user mem uart =>
      obtain ⟨rfl, _, rfl⟩ := outcome
      exact .inl ⟨.refl _, rfl⟩

/-- Operations keep the numbers in order until the counter wraps. -/
theorem Pids.step {op : Op} {r : Nat} (pids : Pids g s) (outcome : op.Outcome g s r g' s')
    (room : s.nextPid + op.creations r < 2 ^ 64) : Pids g' s' ∧ s'.nextPid ≤ s.nextPid + op.creations r := by
  rcases outcome.pids with fewer | ⟨one, g₁, s₁, v, fewer, tasks, pid, next⟩
  · exact ⟨pids.fewer fewer, by rw [fewer.2]; omega⟩
  · have same := fewer.2
    rw [wadd_of_lt (by omega)] at next
    exact ⟨(pids.fewer fewer).append tasks pid next, by omega⟩

end KuroOS
