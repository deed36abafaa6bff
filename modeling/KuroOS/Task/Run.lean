import KuroOS.Task.Boot
import KuroOS.Task.Observe

/-!
# Runs of the kernel

A run starts where `vm_init` or `user_init` leaves a machine, with whatever its
memory held at power on, and goes on by operations of any kind, in any order.
What holds between operations holds at the end of every run.
-/

namespace KuroOS

open Base

section

variable [Layout]

/-- The states that `kernel_main` is in after `vm_init`. -/
def AfterVmInit (s : Kernel) : Prop := ∃ s₀, PowerOn s₀ ∧ kernelStart s₀ = .ok () s

/-- The states that `user_init` leaves, after `task_set_current` of the first
task. -/
def AfterUserInit (s : Kernel) : Prop := ∃ s₀, PowerOn s₀ ∧ kernelMain s₀ = .ok () s

/-- The operations of a machine that runs: there is a current task. -/
def Running (s : Kernel) (op : Op) : Prop := s.current ≠ 0 ∧ op.Called s

/-- The states of a machine that has come to user mode; the number counts the tasks
made since. -/
abbrev Reachable : Nat → Kernel → Prop := OpRun AfterUserInit Running

variable {start : Kernel → Prop} {allowed : Kernel → Op → Prop} {n : Nat} {s : Kernel}

/-- What holds at the start, and what every operation keeps, holds at the end of
every run. -/
theorem OpRun.holds (Inv : Nat → World → Kernel → Prop) (initially : ∀ s, start s → ∃ g, Valid g s ∧ Inv 0 g s)
    (calls : ∀ s op, allowed s op → op.Called s)
    (keeps : ∀ {n r g s op g' s'}, Valid g s → Inv n g s → allowed s op → op.Outcome g s r g' s' → Valid g' s' →
      Inv (n + op.creations r) g' s')
    (run : OpRun start allowed n s) : ∃ g, Valid g s ∧ Inv n g s := by
  induction run with
  | start starts => exact initially _ starts
  | step before called steps ih =>
      obtain ⟨g, valid, inv⟩ := ih
      obtain ⟨g', valid', outcome⟩ := valid.step (calls _ _ called) steps
      exact ⟨g', valid', keeps valid inv called outcome valid'⟩

/-- A machine in user mode is in order, and so are the numbers of its tasks. -/
theorem Reachable.valid (run : Reachable n s) :
    ∃ g, Valid g s ∧ (n < 2 ^ 63 → Pids g s ∧ s.nextPid ≤ n + 4) := by
  refine run.holds (fun n g s => n < 2 ^ 63 → Pids g s ∧ s.nextPid ≤ n + 4) (fun s starts => ?_)
    (fun _ _ called => called.2) fun {n r g s op g' s'} _ inv _ outcome _ few => ?_
  · obtain ⟨s₀, power, returned⟩ := starts
    obtain ⟨g, valid, _, pids, next⟩ := wp_returned (kernelMain_spec power) returned
    exact ⟨g, valid, fun _ => ⟨pids, by omega⟩⟩
  · obtain ⟨pids, next⟩ := inv (by omega)
    obtain ⟨pids', next'⟩ := pids.step outcome (by omega)
    exact ⟨pids', by omega⟩

namespace ValidOf

variable {g : World} {v : TaskView}

/-- The nodes on `all_tasks`. -/
theorem allTasks (valid : Valid g s) : AllTasks s (g.tasks.map TaskView.addr) := by
  unfold AllTasks
  rw [List.map_map]
  exact valid.world.allTasks

/-- The nodes on `run_queue`. -/
theorem runQueue (valid : Valid g s) : RunQueue s g.queue := valid.world.runQueue

/-- A list of the queued tasks is the world's. -/
theorem runQueue_eq (valid : Valid g s) {queue : List Nat} (isQueue : RunQueue s queue) : queue = g.queue := by
  refine List.map_injective_iff.mpr (fun a b equal => ?_) (isQueue.cycle.unique valid.runQueue.cycle)
  exact Nat.add_right_cancel equal

/-- The kernel is mapped in every task's page table. -/
theorem kernelMapped (valid : Valid g s) (member : v ∈ g.tasks) : KernelMapped s.mem v.pagetable :=
  have space := valid.world.space v member
  KuroOS.kernelMapped space.tables valid.world.heap.pool space.leaves space.plain

/-- The user leaves of a task. -/
theorem userLeaf (valid : Valid g s) (member : v ∈ g.tasks) {vpn page : Nat} (below : vpn < 2 ^ 27) :
    UserLeaf s.mem v.pagetable vpn page ↔ g.user v.addr vpn = some page :=
  have space := valid.world.space v member
  KuroOS.userLeaf space.tables valid.world.heap.pool space.leaves (fun _ _ found => valid.userPage member found) below

/-- The user leaves of a task, from the root that its structure names. -/
theorem taskLeaf (valid : Valid g s) (member : v ∈ g.tasks) {vpn page : Nat} (below : vpn < 2 ^ 27) :
    UserLeaf s.mem (pagetableOf s v.addr) vpn page ↔ g.user v.addr vpn = some page := by
  rw [pagetableOf, (valid.world.view v member).pagetable]
  exact valid.userLeaf member below

/-- The table pages of a task. -/
theorem tablePage (valid : Valid g s) (member : v ∈ g.tasks) {page : Nat} :
    TablePage s.mem v.pagetable page ↔ g.own page = .table (.task v.addr) :=
  (valid.world.space v member).tables.tablePage valid.world.heap.pool

/-- A task's frame is at the top of its kernel stack. -/
theorem frame_page (valid : Valid g s) (member : v ∈ g.tasks) {x : Nat} (low : v.tf ≤ x) (high : x < v.tf + trapFrameSize) :
    pageOf x = v.kernelStack ∧ g.own (pageOf x) = .kstack v.addr := by
  have space := valid.world.space v member
  have here : g.own v.kernelStack = .kstack v.addr := (space.kstack _).mpr rfl
  have bounds := (valid.world.heap.pool.pages v.kernelStack (by simp [here])).bounds
  have top := space.tf
  have inPage : pageOf x = v.kernelStack := by
    simp only [trapFrameSize, pageSize] at *
    exact pageOf_of_mem bounds.1 (by omega) (by omega)
  exact ⟨inPage, inPage ▸ here⟩

/-- A task that an operation keeps, with its frame's bytes, keeps its frame. -/
theorem sameFrame {g' : World} {s' : Kernel} {w : TaskView} (valid : Valid g s) (world' : WorldAt ∅ g' s') (member : v ∈ g.tasks)
    (member' : w ∈ g'.tasks) (addr : w.addr = v.addr) (tf : w.tf = v.tf)
    (bytes : ∀ x, g.own (pageOf x) = .kstack v.addr → x ∉ listHeads → s'.mem x = s.mem x) : SameFrame v.addr s s' := by
  have here : tfOf s v.addr = v.tf := (valid.world.view v member).tf
  have here' : tfOf s' v.addr = v.tf := by
    rw [← addr, ← tf]
    exact (world'.view w member').tf
  refine ⟨here'.trans here.symm, fun i low => ?_⟩
  have owner := (valid.frame_page member (x := v.tf + i) (by omega) (by omega)).2
  rw [here]
  exact bytes _ owner (valid.world.heap.pool.not_listHeads (by simp [owner]))

end ValidOf

end

section

attribute [local instance] Layout.sample

/-- A machine in user mode. -/
theorem reachable_sample : ∃ s g, Reachable 0 s ∧ Valid g s ∧ s.current ≠ 0 ∧ 2 ≤ g.queue.length ∧ 31000 ≤ g.free.length := by
  obtain ⟨s, g, returned, rest⟩ := kernelMain_sample
  exact ⟨s, g, .start ⟨_, powerOn_sample, returned⟩, rest⟩

/-- The state that `vm_init` leaves. -/
theorem afterVmInit_sample : ∃ s, AfterVmInit s := by
  obtain ⟨s, returned⟩ := kernelStart_sample
  exact ⟨s, _, powerOn_sample, returned⟩

end

end KuroOS
