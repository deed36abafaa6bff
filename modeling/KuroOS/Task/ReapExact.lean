import KuroOS.Task.Accounts
import KuroOS.Task.NewImage

/-!
# Reaping is a filter

`task_reap_zombies` walks a list that it takes nodes out of, and gives their memory
back on the way. Here it is compared with the calls it should amount to, and run in
a version that remembers which structures it has freed and asserts that it reads
and links none of them again.
-/

namespace KuroOS

open Base

/-- The tasks that `task_reap_zombies` is there for. -/
def Reapable (s : Kernel) (t : Nat) : Prop := stateOf s t = TaskState.zombie.code ∧ t ≠ s.current

instance (s : Kernel) : DecidablePred (Reapable s) := fun _ => instDecidableAnd

/-- No byte of a range belongs to a freed structure. -/
def Unfreed (gone : List Nat) (x width : Nat) : Prop := ∀ t ∈ gone, x + width ≤ t ∨ t + taskSize ≤ x

instance (gone : List Nat) (x width : Nat) : Decidable (Unfreed gone x width) := List.decidableBAll _ _

/-- A read of a word that must not be freed. -/
def loadWordChecked (gone : List Nat) (address : Nat) : K Nat := do
  kassert (Unfreed gone address 8) "not freed"
  loadWord address

/-- `task->state`, which must not be freed. -/
def loadStateChecked (gone : List Nat) (task : Nat) : K Nat := do
  kassert (Unfreed gone (task + Task.state) 4) "not freed"
  loadState task

/-- `list_del`, where neither the node nor its neighbours are freed. -/
def listDelChecked (gone : List Nat) (entry : Nat) : K Unit := do
  kassert (Unfreed gone entry 16) "not freed"
  let mem := (← get).mem
  kassert (Unfreed gone (prevOf mem entry) 16 ∧ Unfreed gone (nextOf mem entry) 16) "neighbours not freed"
  modifyMem (listDel · entry)

section

variable [Layout]

/-- The second statement of `task_free`. -/
def taskFreeImageChecked (gone : List Nat) (task : Nat) : K Unit := do
  let pagetable ← loadWordChecked gone (task + Task.pagetable)
  let imageSize ← loadWordChecked gone (task + Task.userImageSize)
  if pagetable ≠ 0 ∧ imageSize ≠ 0 then
    taskFreeUserPages pagetable userTextBase imageSize
  else
    pure ()

/-- `task_free`. -/
def taskFreeChecked (gone : List Nat) (task : Nat) : K Unit := do
  pageFreeIf (← loadWordChecked gone (task + Task.userStackBase))
  taskFreeImageChecked gone task
  pageFreeIf (← loadWordChecked gone (task + Task.kernelStackBase))
  pgtableFreeWalkIf (← loadWordChecked gone (task + Task.pagetable))
  kfree task

/-- The body of the loop of `task_reap_zombies`, with the reads that its `printk`
makes. It returns the structures that are freed now. -/
def taskReapChecked (gone : List Nat) (task : Nat) : K (List Nat) := do
  let state ← loadStateChecked gone task
  if state ≠ TaskState.zombie.code ∨ task = (← get).current then
    return gone
  else
    let _ ← loadWordChecked gone (task + Task.pid)
    let _ ← loadWordChecked gone (task + Task.exitCode)
    listDelChecked gone (task + Task.taskNode)
    taskFreeChecked gone task
    return task :: gone

/-- The loop of `task_reap_zombies`. -/
def taskReapLoopChecked : (fuel pos next : Nat) → (gone : List Nat) → K Unit
  | 0, _, _, _ => throw .hang
  | fuel + 1, pos, next, gone =>
      if pos = Layout.allTasks then
        pure ()
      else do
        let gone ← taskReapChecked gone (wsub pos Task.taskNode)
        kassert (Unfreed gone next 16) "next is not freed"
        let after := nextOf (← get).mem next
        taskReapLoopChecked fuel next after gone

/-- `task_reap_zombies`, which asserts that it reads no task structure and no list
node that it has freed. -/
def taskReapZombiesChecked : K Unit := do
  let mem := (← get).mem
  let pos := nextOf mem Layout.allTasks
  taskReapLoopChecked loopBound pos (nextOf mem pos) []

/-- What `task_reap_zombies` does to a zombie. -/
def taskRemove (task : Nat) : K Unit := do
  modifyMem (listDel · (task + Task.taskNode))
  taskFree task

variable {wip : Set Owner} {g : World} {s : Kernel} {v : TaskView} {gone : List Nat}

omit [Layout] in
theorem Unfreed.mono {x width y width' : Nat} (outer : Unfreed gone x width) (low : x ≤ y) (high : y + width' ≤ x + width) :
    Unfreed gone y width' := fun t member => by
  have := outer t member
  omega

/-- Freeing a structure that is not freed yet. -/
theorem taskFreeChecked_eq {task : Nat} (outside : Unfreed gone task taskSize) : taskFreeChecked gone task = taskFree task := by
  have word : ∀ offset, offset + 8 ≤ taskSize → loadWordChecked gone (task + offset) = loadWord (task + offset) :=
    fun offset inside => kassert_bind (outside.mono (by omega) (by omega)) _
  unfold taskFreeChecked taskFree taskFreeImageChecked taskFreeImage
  rw [word _ (by decide), word _ (by decide), word _ (by decide), word _ (by decide)]

/-- The freed structures lie behind the kernel image, and overlap no structure of a
task. -/
def Buried (gone : List Nat) (g : World) : Prop :=
  ∀ t ∈ gone, Layout.kernelEnd ≤ t ∧ ∀ v ∈ g.tasks, t + taskSize ≤ v.addr ∨ v.addr + taskSize ≤ t

namespace Buried

theorem struct (buried : Buried gone g) (member : v ∈ g.tasks) : Unfreed gone v.addr taskSize := fun t isGone => by
  have := (buried t isGone).2 v member
  omega

theorem node (buried : Buried gone g) (member : v ∈ g.tasks) : Unfreed gone v.taskNode 16 :=
  (buried.struct member).mono (by simp only [TaskView.taskNode]; omega)
    (by simp only [TaskView.taskNode, Task.taskNode, taskSize]; omega)

theorem head (buried : Buried gone g) : Unfreed gone Layout.allTasks 16 := fun t isGone => by
  have image := Layout.heads_in_image Layout.allTasks (by simp)
  have := (buried t isGone).1
  omega

/-- The nodes on `all_tasks` and its head. -/
theorem link (buried : Buried gone g) {a : Nat} (member : a ∈ Layout.allTasks :: g.tasks.map TaskView.taskNode) :
    Unfreed gone a 16 := by
  rcases List.mem_cons.mp member with rfl | inside
  · exact buried.head
  · obtain ⟨w, isTask, rfl⟩ := List.mem_map.mp inside
    exact buried.node isTask

/-- The node before the tasks that are left. -/
theorem before (buried : Buried gone g) {xs ys : List TaskView} (split : g.tasks = xs ++ ys) :
    Unfreed gone ((Layout.allTasks :: xs.map TaskView.taskNode).getLast (by simp)) 16 := by
  have last := List.getLast_mem (l := Layout.allTasks :: xs.map TaskView.taskNode) (by simp)
  refine buried.link ?_
  rw [split, List.map_append]
  rcases List.mem_cons.mp last with isHead | inside
  · rw [isHead]
    exact List.mem_cons_self
  · exact List.mem_cons_of_mem _ (List.mem_append_left _ inside)

/-- The node that they begin with. -/
theorem after (buried : Buried gone g) {xs ys : List TaskView} (split : g.tasks = xs ++ ys) : Unfreed gone (walkNode ys) 16 := by
  have first : walkNode ys ∈ ys.map TaskView.taskNode ++ [Layout.allTasks] := List.head_mem _
  refine buried.link ?_
  rw [split, List.map_append]
  rcases List.mem_append.mp first with inside | isHead
  · exact List.mem_cons_of_mem _ (List.mem_append_right _ inside)
  · rw [List.mem_singleton.mp isHead]
    exact List.mem_cons_self

/-- The structure of a task that is taken off the list and freed. -/
theorem bury (buried : Buried gone g) (world : WorldAt wip g s) {g' : World} {before rest : List TaskView}
    (split : g.tasks = before ++ v :: rest) (tasks : g'.tasks = before ++ rest) : Buried (v.addr :: gone) g' := by
  have member : v ∈ g.tasks := by simp [split]
  have others : ∀ w ∈ g'.tasks, w ∈ g.tasks ∧ w.addr ≠ v.addr := fun w inside => by
    rw [tasks] at inside
    refine ⟨?_, world.others_ne split inside⟩
    rw [split]
    simp only [List.mem_append, List.mem_cons] at inside ⊢
    tauto
  intro t isGone
  rcases List.mem_cons.mp isGone with rfl | isGone
  · refine ⟨Nat.le_of_lt ((world.task_home member).bounds world.heap).1, fun w inside => ?_⟩
    obtain ⟨old, other⟩ := others w inside
    exact (world.task_home member).apart world.heap.heap (world.task_home old) other.symm
  · exact ⟨(buried t isGone).1, fun w inside => (buried t isGone).2 w (others w inside).1⟩

end Buried

/-- `list_del` of a task's node reads and links nodes that are not freed. -/
theorem listDelChecked_eq (world : WorldAt wip g s) (buried : Buried gone g) (member : v ∈ g.tasks) :
    listDelChecked gone v.taskNode s = .ok () { s with mem := listDel s.mem v.taskNode } := by
  obtain ⟨before, rest, split⟩ := List.append_of_mem member
  have ring := world.allTasks
  rw [split, List.map_append, List.map_cons] at ring
  obtain ⟨prev, next⟩ := ring.cycle.around (before.map TaskView.taskNode) (rest.map TaskView.taskNode)
  have prevUnfreed : Unfreed gone (prevOf s.mem v.taskNode) 16 := by
    rw [prev]
    exact buried.before split
  have nextUnfreed : Unfreed gone (nextOf s.mem v.taskNode) 16 := by
    rw [next]
    exact buried.after (show g.tasks = (before ++ [v]) ++ rest by simp [split])
  unfold listDelChecked
  rw [kassert_bind (buried.node member), bind_ok (get_ok s), kassert_bind ⟨prevUnfreed, nextUnfreed⟩]
  rfl

/-- The calls that a walk from a node of `all_tasks` on amounts to. -/
structure ReapRuns (fuel node next : Nat) (gone : List Nat) (tasks : List TaskView) (s s' : Kernel) : Prop where
  loop : taskReapLoop fuel node next s = .ok () s'
  checked : taskReapLoopChecked fuel node next gone s = .ok () s'
  visits : forM (tasks.map TaskView.addr) taskReap s = .ok () s'
  removes : forM ((zombies s.current tasks).map TaskView.addr) taskRemove s = .ok () s'

/-- A round for a zombie, in the three programs. -/
theorem taskReap_runs (world : WorldAt wip g s) (buried : Buried gone g) {before rest : List TaskView}
    (split : g.tasks = before ++ v :: rest) (reaped : v.reapable s.current = true) (unqueued : v.addr ∉ g.queue) :
    ∃ s', taskReap v.addr s = .ok () s' ∧ taskReapChecked gone v.addr s = .ok (v.addr :: gone) s' ∧
      taskRemove v.addr s = .ok () s' ∧
      ∃ g', WorldAt wip g' s' ∧ g'.tasks = before ++ rest ∧ Reaped g s [v] g' s' := by
  have member : v ∈ g.tasks := by simp [split]
  obtain ⟨⟨⟩, s', returned, g', world', tasks', first⟩ := wp_total (world.taskReap_zombie split reaped unqueued)
  have isZombie : loadState v.addr s = .ok TaskState.zombie.code s := by
    simp only [TaskView.reapable, Bool.and_eq_true, beq_iff_eq] at reaped
    have code : s.mem.load (v.addr + Task.state) 4 = TaskState.zombie.code := by
      rw [(world.view v member).state, reaped.1]
    change EStateM.Result.ok (s.mem.load (v.addr + Task.state) 4) s = _
    rw [code]
  have notCurrent : ¬ (TaskState.zombie.code ≠ TaskState.zombie.code ∨ v.addr = s.current) := by
    simp only [TaskView.reapable, Bool.and_eq_true, bne_iff_ne] at reaped
    exact fun either => either.elim (fun other => other rfl) reaped.2
  have removes : taskRemove v.addr s = .ok () s' := by
    unfold taskReap at returned
    rw [bind_ok isZombie, bind_ok (get_ok s), if_neg notCurrent] at returned
    unfold taskRemove
    exact returned
  have struct := buried.struct member
  have word : ∀ offset, offset + 8 ≤ taskSize →
      loadWordChecked gone (v.addr + offset) s = .ok (s.mem.load (v.addr + offset) 8) s := fun offset inside => by
    unfold loadWordChecked
    rw [kassert_bind (struct.mono (by omega) (by omega))]
    rfl
  have state : loadStateChecked gone v.addr s = .ok TaskState.zombie.code s := by
    unfold loadStateChecked
    rw [kassert_bind (struct.mono (by omega) (by simp only [Task.state, taskSize]; omega))]
    exact isZombie
  refine ⟨s', returned, ?_, removes, g', world', tasks', first⟩
  have unlinked : listDelChecked gone (v.addr + Task.taskNode) s = .ok () { s with mem := listDel s.mem v.taskNode } :=
    listDelChecked_eq world buried member
  unfold taskReapChecked
  rw [bind_ok state, bind_ok (get_ok s), if_neg notCurrent, bind_ok (word _ (by decide)), bind_ok (word _ (by decide)),
    bind_ok unlinked, taskFreeChecked_eq struct]
  have freed : taskFree v.addr { s with mem := listDel s.mem v.taskNode } = .ok () s' := by
    unfold taskRemove at removes
    rw [bind_ok (modifyMem_ok _ s)] at removes
    exact removes
  rw [bind_ok freed]
  rfl

/-- A round for a task that stays. -/
theorem taskReap_stays (world : WorldAt wip g s) (buried : Buried gone g) (member : v ∈ g.tasks)
    (kept : v.reapable s.current = false) : taskReap v.addr s = .ok () s ∧ taskReapChecked gone v.addr s = .ok gone s := by
  have stays : v.state.code ≠ TaskState.zombie.code ∨ v.addr = s.current := by
    simp only [TaskView.reapable, Bool.and_eq_false_iff, beq_eq_false_iff_ne, bne_eq_false_iff_eq] at kept
    exact kept.imp (fun other equal => other (TaskState.code_inj equal)) id
  have isState : loadState v.addr s = .ok v.state.code s := by
    change EStateM.Result.ok (s.mem.load (v.addr + Task.state) 4) s = _
    rw [(world.view v member).state]
  constructor
  · unfold taskReap
    rw [bind_ok isState, bind_ok (get_ok s), if_pos stays]
    rfl
  · have state : loadStateChecked gone v.addr s = .ok v.state.code s := by
      unfold loadStateChecked
      rw [kassert_bind ((buried.struct member).mono (by omega) (by simp only [Task.state, taskSize]; omega))]
      exact isState
    unfold taskReapChecked
    rw [bind_ok state, bind_ok (get_ok s), if_pos stays]
    rfl

/-- A round, and the rounds after it. -/
theorem ReapRuns.cons {fuel : Nat} {ys : List TaskView} {gone' : List Nat} {s₁ s' : Kernel}
    (notHead : walkNode (v :: ys) ≠ Layout.allTasks) (here : wsub (walkNode (v :: ys)) Task.taskNode = v.addr)
    (returned : taskReap v.addr s = .ok () s₁) (checked : taskReapChecked gone v.addr s = .ok gone' s₁)
    (apart : Unfreed gone' (walkNode ys) 16)
    (removes : forM ((zombies s.current (v :: ys)).map TaskView.addr) taskRemove s =
      forM ((zombies s₁.current ys).map TaskView.addr) taskRemove s₁)
    (runs : ReapRuns fuel (walkNode ys) (nextOf s₁.mem (walkNode ys)) gone' ys s₁ s') :
    ReapRuns (fuel + 1) (walkNode (v :: ys)) (walkNode ys) gone (v :: ys) s s' where
  loop := by
    rw [taskReapLoop, if_neg notHead, here, bind_ok returned, bind_ok (get_ok s₁)]
    exact runs.loop
  checked := by
    rw [taskReapLoopChecked, if_neg notHead, here, bind_ok checked, kassert_bind apart, bind_ok (get_ok s₁)]
    exact runs.checked
  visits := by
    rw [List.map_cons, List.forM_cons, bind_ok returned]
    exact runs.visits
  removes := removes.trans runs.removes

/-- The loop of `task_reap_zombies`, from a task on. -/
theorem taskReapLoop_runs {fuel next : Nat} (before rest : List TaskView) (world : WorldAt wip g s) (buried : Buried gone g)
    (split : g.tasks = before ++ rest) (enough : rest.length < fuel) (atNext : ∀ v ys, rest = v :: ys → next = walkNode ys)
    (unqueued : ∀ v ∈ rest, v.reapable s.current = true → v.addr ∉ g.queue) :
    ∃ s', ReapRuns fuel (walkNode rest) next gone rest s s' ∧ ∃ g', WorldAt wip g' s' ∧
      g'.tasks = before ++ survivors s.current rest ∧ Reaped g s (zombies s.current rest) g' s' := by
  induction rest generalizing fuel next before g s gone with
  | nil =>
      obtain ⟨fuel, rfl⟩ := Nat.exists_eq_succ_of_ne_zero (n := fuel) (by omega)
      refine ⟨s, ⟨?_, ?_, rfl, rfl⟩, g, world, split, .refl g s⟩
      · rw [taskReapLoop, if_pos (by simp [walkNode])]
        rfl
      · rw [taskReapLoopChecked, if_pos (by simp [walkNode])]
        rfl
  | cons v ys ih =>
      obtain ⟨fuel, rfl⟩ := Nat.exists_eq_succ_of_ne_zero (n := fuel) (by omega)
      have member : v ∈ g.tasks := by simp [split]
      have bounds := (world.task_home member).bounds world.heap
      have notHead : walkNode (v :: ys) ≠ Layout.allTasks := by
        have := (List.nodup_cons.mp world.allTasks.nodup).1
        exact fun equal => this (equal ▸ List.mem_map_of_mem member)
      have here : wsub (walkNode (v :: ys)) Task.taskNode = v.addr := by
        change wsub v.taskNode Task.taskNode = v.addr
        rw [TaskView.taskNode, wsub_of_le] <;> simp only [Task.taskNode, taskSize] at * <;> omega
      obtain rfl := atNext v ys rfl
      cases reaped : v.reapable s.current with
      | true =>
          obtain ⟨s₁, returned, checked, removes, g₁, world₁, tasks₁, first⟩ :=
            taskReap_runs world buried split reaped (unqueued v (by simp) reaped)
          have buried₁ := buried.bury world split tasks₁
          have current₁ : s₁.current = s.current := by rw [first.globals]
          have atNext : ∀ w zs, ys = w :: zs → nextOf s₁.mem (walkNode ys) = walkNode zs := fun w zs rest => by
            subst rest
            exact world₁.next_task before tasks₁
          have unqueued₁ : ∀ w ∈ ys, w.reapable s₁.current = true → w.addr ∉ g₁.queue := fun w inRest isZombie => by
            rw [first.queue]
            exact unqueued w (by simp [inRest]) (current₁ ▸ isZombie)
          obtain ⟨s', runs, g', world', tasks', later⟩ := ih before world₁ buried₁ tasks₁
            (show ys.length < fuel by simpa using enough) atNext unqueued₁
          rw [current₁] at tasks' later
          refine ⟨s', .cons notHead here returned checked (buried₁.after tasks₁) ?_ runs, g', world', ?_, ?_⟩
          · rw [zombies_cons_reaped reaped, List.map_cons, List.forM_cons, bind_ok removes, current₁]
          · rw [survivors_cons_reaped reaped]
            exact tasks'
          · rw [zombies_cons_reaped reaped]
            exact first.cons later fun w gone => world.others_ne split (List.mem_append_right _ (mem_zombies.mp gone).1)
      | false =>
          obtain ⟨returned, checked⟩ := taskReap_stays world buried member reaped
          have split' : g.tasks = (before ++ [v]) ++ ys := by simp [split]
          have atNext : ∀ w zs, ys = w :: zs → nextOf s.mem (walkNode ys) = walkNode zs := fun w zs rest => by
            subst rest
            exact world.next_task (before ++ [v]) split'
          obtain ⟨s', runs, g', world', tasks', later⟩ := ih (before ++ [v]) world buried split'
            (show ys.length < fuel by simpa using enough) atNext fun w inRest => unqueued w (by simp [inRest])
          refine ⟨s', .cons notHead here returned checked (buried.after split') ?_ runs, g', world', ?_, ?_⟩
          · rw [zombies_cons_kept reaped]
          · rw [survivors_cons_kept reaped, tasks', List.append_assoc]
            rfl
          · rw [zombies_cons_kept reaped]
            exact later

/-- What a task keeps: its fields, its place on the run queue, its page table and
the bytes of its pages. -/
structure Survives (s s' : Kernel) (t : Nat) : Prop where
  fields : ∀ v : TaskView, v.addr = t → (TaskAt s'.mem v ↔ TaskAt s.mem v)
  links : nextOf s'.mem (runNode t) = nextOf s.mem (runNode t) ∧ prevOf s'.mem (runNode t) = prevOf s.mem (runNode t)
  tables : ∀ page, TablePage s.mem (pagetableOf s t) page → ∀ i < pageSize, s'.mem (page + i) = s.mem (page + i)
  entries : ∀ vpn < 2 ^ 27, entryAt s'.mem (pagetableOf s t) vpn = entryAt s.mem (pagetableOf s t) vpn
  pages : ∀ vpn < 2 ^ 27, ∀ page, UserLeaf s.mem (pagetableOf s t) vpn page → ∀ i < pageSize,
    s'.mem (page + i) = s.mem (page + i)
  kernelStack : ∀ i < pageSize, s'.mem (kernelStackOf s t + i) = s.mem (kernelStackOf s t + i)
  userStack : ∀ i < pageSize, s'.mem (userStackOf s t + i) = s.mem (userStackOf s t + i)

/-- What freeing other tasks leaves of a task. -/
theorem Reaped.survives (world : WorldAt ∅ g s) {g' : World} {s' : Kernel} (world' : WorldAt ∅ g' s') {removed : List TaskView}
    (reaped : Reaped g s removed g' s') (member : v ∈ g.tasks) (member' : v ∈ g'.tasks) (others : ∀ w ∈ removed, w.addr ≠ v.addr)
    (idle : v.addr ∉ g.queue → v.state = .zombie) : Survives s s' v.addr := by
  have pool := world.heap.pool
  have space := world.space v member
  have space' := world'.space v member'
  have root : pagetableOf s v.addr = v.pagetable := (world.view v member).pagetable
  have kernelStack : kernelStackOf s v.addr = v.kernelStack := (world.view v member).kernelStack
  have userStack : userStackOf s v.addr = v.userStack := (world.view v member).userStack
  have user : g'.user v.addr = g.user v.addr := by rw [reaped.user]
  have whole : ∀ page, g.own page ∈ labels v.addr → ∀ i < pageSize, s'.mem (page + i) = s.mem (page + i) := by
    intro page label i low
    have owned : g.own page ≠ .outside := fun outside => by simp [outside, labels] at label
    have here : pageOf (page + i) = page := (pool.pages page owned).pageOf_add low
    refine reaped.effect.bytes _ (fun inside => ?_) (pool.not_listHeads (here.symm ▸ owned))
    rw [here] at inside
    rcases inside with isCommon | ⟨w, isGone, isLabel⟩
    · simp only [Set.mem_insert_iff, Set.mem_singleton_iff] at isCommon
      rcases isCommon with isCommon | isCommon | isCommon <;> simp [isCommon, labels] at label
    · exact labels_disjoint (others w isGone) isLabel label
  refine ⟨fun u addr => ?_, ?_, fun page isTable => ?_, fun vpn below => ?_, fun vpn below page leaf => ?_, ?_, ?_⟩
  · have old := world.view v member
    have new := world'.view v member'
    constructor
    · intro view
      rwa [view.unique new addr]
    · intro view
      rwa [view.unique old addr]
  · by_cases queued : v.addr ∈ g.queue
    · have ring' := world'.runQueue
      rw [reaped.queue] at ring'
      exact world.runQueue.same_links ring' (List.mem_cons_of_mem _ (List.mem_map_of_mem queued))
    · have alone := world.idle v member (idle queued) queued
      have alone' := world'.idle v member' (idle queued) (reaped.queue ▸ queued)
      exact alone.same_links alone' List.mem_cons_self
  · rw [root] at isTable
    have here := (space.tables.tablePage pool).mp isTable
    exact whole page (by simp [here, labels])
  · rw [root, space.tables.entryAt pool below, space'.tables.entryAt world'.heap.pool below, space.leaves, space'.leaves, user]
  · rw [root] at leaf
    have valid : ∀ n p, g.user v.addr n = some p → PoolPage p := fun n p found => by
      rcases space.mapped n p found with here | here <;> exact pool.pages p (by simp [here])
    have found := (userLeaf space.tables pool space.leaves valid below).mp leaf
    rcases space.mapped vpn page found with here | here
    · exact whole page (by simp [here, labels])
    · exact whole page (by simp [here, labels])
  · rw [kernelStack]
    have here : g.own v.kernelStack = .kstack v.addr := (space.kstack _).mpr rfl
    exact whole _ (by simp [here, labels])
  · rw [userStack]
    have here : g.own v.userStack = .ustack v.addr := (space.ustack _).mpr rfl
    exact whole _ (by simp [here, labels])

/-- The states in which the kernel calls `task_reap_zombies`: before it makes a task,
and in `task_schedule`, once the current task is parked. -/
def ReapCalled (n : Nat) (s : Kernel) : Prop :=
  Between n s ∨ ∃ s₀, Between n s₀ ∧ taskPark s₀.current (currentFrame s₀) s₀ = .ok () s

/-- A run in user mode is a run. -/
theorem Reachable.between {n : Nat} {s : Kernel} (run : Reachable n s) : Between n s := by
  induction run with
  | start starts => exact .start (.inr starts)
  | step before called steps ih => exact .step ih called.2 steps

/-- In such a state the machine holds a world, and the books are in order. -/
theorem ReapCalled.books {n : Nat} (called : ReapCalled n s) : ∃ g running, WorldAt ∅ g s ∧ Books running g s := by
  rcases called with run | ⟨s₀, run, parked⟩
  · obtain ⟨g, valid⟩ := run.valid
    exact ⟨g, _, valid.world, valid.sched.books⟩
  obtain ⟨g, valid⟩ := run.valid
  by_cases idle : s₀.current = 0
  · rw [taskPark, if_neg (not_not.mpr idle)] at parked
    obtain rfl : s₀ = s := by
      injection parked
    exact ⟨g, _, valid.world, valid.sched.books⟩
  obtain ⟨v, member, here, isFrame⟩ := valid.running idle
  have queued : v.addr ∈ g.queue := here ▸ valid.sched.current.resolve_left idle
  have isRunning : v.state = .running := (valid.sched.books.running v member).mpr here
  have spec : wp (taskPark s₀.current (currentFrame s₀)) s₀
      (fun _ s' => ∃ g running, WorldAt ∅ g s' ∧ Books running g s') fun _ _ => True := by
    rw [taskPark, if_pos idle, ← here, isFrame]
    refine wp_bind_of (valid.world.storeFrame_spec member) ?_
    rintro _ s₁ ⟨world₁, _, same₁⟩
    rw [wp_bind, wp_loadState, (world₁.view v member).state, isRunning, if_pos rfl]
    refine wp_mono (world₁.storeState_spec member .ready (by simp)) ?_ fun _ _ => id
    rintro _ s₂ ⟨world₂, _, same₂⟩
    have books : Books v.addr g s₀ := here ▸ valid.sched.books
    exact ⟨_, 0, world₂, books.park queued (fun w inside => valid.world.addr_ne_zero inside) (fun _ => rfl) (fun _ => rfl)
      (by rw [same₂, same₁])⟩
  exact wp_returned spec parked

/-- `task_reap_zombies`, wherever it is called: it visits each task once, takes the
zombies other than the current task off the list and frees them, and reads nothing
that it has freed. The other tasks stay in their order and as they were, and so do
the run queue and the kernel's variables, but for those of the two allocators. -/
theorem reap_is_filter {n : Nat} (called : ReapCalled n s) : ∃ tasks queue s', AllTasks s tasks ∧ RunQueue s queue ∧
    taskReapZombies s = .ok () s' ∧ forM tasks taskReap s = .ok () s' ∧
    forM (tasks.filter fun t => Reapable s t) taskRemove s = .ok () s' ∧ taskReapZombiesChecked s = .ok () s' ∧
    AllTasks s' (tasks.filter fun t => ¬ Reapable s t) ∧ RunQueue s' queue ∧
    s' = { s with mem := s'.mem, nrFreePages := s'.nrFreePages, heapHead := s'.heapHead, heapTail := s'.heapTail } ∧
    ∀ t ∈ tasks, ¬ Reapable s t → Survives s s' t := by
  obtain ⟨g, running, world, books⟩ := called.books
  have first : nextOf s.mem Layout.allTasks = walkNode g.tasks := world.allTasks.cycle.next_head
  have none : Buried [] g := fun t isGone => absurd isGone List.not_mem_nil
  have atNext : ∀ v ys, g.tasks = v :: ys → nextOf s.mem (walkNode g.tasks) = walkNode ys := fun v ys split => by
    rw [split]
    exact world.next_task [] split
  obtain ⟨s', runs, g', world', tasks', reaped⟩ := taskReapLoop_runs [] g.tasks world none rfl world.tasks_length atNext
    fun v member reaped => books.unqueued v member reaped
  have reapable : ∀ v ∈ g.tasks, Reapable s v.addr ↔ v.reapable s.current = true := fun v member => by
    have state : stateOf s v.addr = v.state.code := (world.view v member).state
    unfold Reapable
    rw [state]
    simp only [TaskView.reapable, Bool.and_eq_true, beq_iff_eq, bne_iff_ne]
    exact and_congr_left fun _ => ⟨TaskState.code_inj, congrArg _⟩
  have isTasks : ∀ (mem : Mem) (tasks : List TaskView), Ring mem Layout.allTasks (tasks.map TaskView.taskNode) →
      Ring mem Layout.allTasks ((tasks.map TaskView.addr).map (· + Task.taskNode)) := fun mem tasks ring => by
    rw [List.map_map]
    exact ring
  have removed : (g.tasks.map TaskView.addr).filter (fun t => Reapable s t) = (zombies s.current g.tasks).map TaskView.addr := by
    rw [List.filter_map]
    refine congrArg (List.map TaskView.addr) (List.filter_congr fun v member => ?_)
    simp [reapable v member]
  have kept : (g.tasks.map TaskView.addr).filter (fun t => ¬ Reapable s t) = (survivors s.current g.tasks).map TaskView.addr := by
    rw [List.filter_map]
    refine congrArg (List.map TaskView.addr) (List.filter_congr fun v member => ?_)
    simp [reapable v member]
  refine ⟨g.tasks.map TaskView.addr, g.queue, s', isTasks _ _ world.allTasks, world.runQueue, ?_, runs.visits, ?_, ?_, ?_, ?_,
    reaped.globals, fun t member stays => ?_⟩
  · unfold taskReapZombies
    rw [bind_ok (get_ok s), first]
    exact runs.loop
  · rw [removed]
    exact runs.removes
  · unfold taskReapZombiesChecked
    rw [bind_ok (get_ok s), first]
    exact runs.checked
  · rw [kept]
    have ring := world'.allTasks
    rw [tasks'] at ring
    exact isTasks _ _ ring
  · have ring := world'.runQueue
    rwa [reaped.queue] at ring
  · obtain ⟨v, inside, rfl⟩ := List.mem_map.mp member
    rw [reapable v inside] at stays
    have survives : v ∈ survivors s.current g.tasks := by
      simp [survivors, inside, stays]
    refine reaped.survives world world' inside (by rw [tasks']; exact survives) (fun w isGone equal => ?_) fun off => ?_
    · obtain ⟨wInside, wReaped⟩ := List.mem_filter.mp isGone
      rw [world.eq_of_addr wInside inside equal] at wReaped
      exact stays wReaped
    · by_contra alive
      exact off ((books.queued v inside).mpr alive)

end

section

attribute [local instance] Layout.sample

/-- The first task has exited, and is reaped. -/
theorem reap_is_filter_sample : ∃ s t tasks s', ReapCalled 0 s ∧ AllTasks s tasks ∧ t ∈ tasks ∧ Reapable s t ∧
    taskReapZombies s = .ok () s' ∧ AllTasks s' (tasks.filter fun t => ¬ Reapable s t) := by
  obtain ⟨s, t, run, _, ⟨nodes, ring, onList⟩, other, zombie⟩ := exited_sample
  have called : ReapCalled 0 s := .inl run.between
  obtain ⟨tasks, queue, s', isTasks, _, returned, _, _, _, isTasks', _⟩ := reap_is_filter called
  have member : t ∈ tasks := by
    rw [ring.cycle.unique isTasks.cycle] at onList
    obtain ⟨u, inside, equal⟩ := List.mem_map.mp onList
    exact Nat.add_right_cancel equal ▸ inside
  exact ⟨s, t, tasks, s', called, isTasks, member, ⟨zombie, other⟩, returned, isTasks'⟩

end

end KuroOS
