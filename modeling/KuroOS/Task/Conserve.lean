import KuroOS.Task.Isolation

/-!
# Page conservation

Without `sys_exec`, every page of the allocator is in exactly one place at every
point of a run: none is lost, and none is used twice.
-/

namespace KuroOS

open Base

section

variable [Layout]

/-- The operations of a run without `sys_exec`. -/
def Conserving (s : Kernel) (op : Op) : Prop :=
  op.Called s ∧ match op with
    | .exec _ | .take => False
    | _ => True

/-- No page is lost, and every task has the address space that it was made with. -/
structure Kept (g : World) : Prop where
  pages : ∀ q, g.own q ≠ .lost ∧ (PoolPage q → g.own q ≠ .outside)
  fresh : ∀ v ∈ g.tasks, ∃ pages ≤ 0x8000, v.imageSize = 4096 * pages ∧ FreshMap (g.user v.addr) pages v.userStack

variable {g g' : World} {s s' : Kernel} {v : TaskView}

/-- Freeing a task that has its first address space loses no page. -/
theorem Kept.frees {wip : Set Owner} {gone : List TaskView} {own' : Nat → Owner} (kept : Kept g) (world : WorldAt wip g s)
    (sub : ∀ v ∈ gone, v ∈ g.tasks) (frees : Frees gone g.own own') (q : Nat) :
    own' q ≠ .lost ∧ (PoolPage q → own' q ≠ .outside) := by
  by_cases labelled : ∃ v ∈ gone, g.own q ∈ labels v.addr
  · obtain ⟨v, inside, label⟩ := labelled
    by_cases isData : g.own q = .data (.task v.addr)
    · have member := sub v inside
      have space := world.space v member
      obtain ⟨pages, _, size, fresh⟩ := kept.fresh v member
      obtain ⟨n, found⟩ := space.data q isData
      have image : v.imageSize ≠ 0 := by
        rcases (fresh.mapped n).mp (by simp [found]) with inImage | rfl
        · omega
        · obtain rfl : v.userStack = q := by simpa [fresh.stack] using found
          simp [(space.ustack _).mpr rfl] at isData
      rw [frees.data v inside q isData, if_neg image]
      simp
    · rw [frees.rest v inside q label isData]
      simp
  · rw [frees.others q fun v inside label => labelled ⟨v, inside, label⟩]
    exact kept.pages q

/-- Tasks whose address spaces are as they were. -/
theorem Kept.sub (kept : Kept g) (pages : ∀ q, g'.own q ≠ .lost ∧ (PoolPage q → g'.own q ≠ .outside))
    (tasks : ∀ v ∈ g'.tasks, ∃ u ∈ g.tasks, u.addr = v.addr ∧ u.imageSize = v.imageSize ∧ u.userStack = v.userStack)
    (user : g'.user = g.user) : Kept g' := by
  refine ⟨pages, fun v member => ?_⟩
  obtain ⟨u, old, addr, size, stack⟩ := tasks v member
  rw [user, ← addr, ← size, ← stack]
  exact kept.fresh u old

/-- Reaping keeps the pages. -/
theorem Kept.reaping (kept : Kept g) (world : WorldAt ∅ g s) (reaping : Reaping g s g' s') : Kept g' := by
  refine kept.sub (kept.frees world (fun v inside => (mem_zombies.mp inside).1) reaping.reaped.frees) (fun v member => ?_)
    reaping.reaped.user
  rw [reaping.tasks] at member
  exact ⟨v, (mem_survivors.mp member).1, rfl, rfl, rfl⟩

/-- So does switching between tasks. -/
theorem Kept.switched {gone kept' : List TaskView} (kept : Kept g) (world : WorldAt ∅ g s)
    (switched : Switched gone kept' g s g' s') (subGone : ∀ v ∈ gone, v ∈ g.tasks) (subKept : ∀ v ∈ kept', v ∈ g.tasks) :
    Kept g' := by
  refine kept.sub (kept.frees world subGone switched.frees) (fun v member => ?_) switched.user
  obtain ⟨u, inside, core⟩ := switched.core_mem member
  have fields := TaskView.core_fields core
  exact ⟨u, subKept u inside, fields.1, fields.2.2.2.2.2.2.1, fields.2.2.2.2.2.1⟩

/-- So does an attempt to make a task. -/
theorem Kept.made {X : Set Nat} {r : Nat} (kept : Kept g) (world : WorldAt ∅ g s) (made : Made X g s r g' s') : Kept g' := by
  obtain ⟨g₁, s₁, reaping, outcome⟩ := made
  have kept₁ := kept.reaping world reaping
  rcases outcome with ⟨_, aborted⟩ | ⟨_, v, pages, _, created⟩
  · refine kept₁.sub (fun q => ?_) (fun v member => ?_) aborted.same.user
    · rcases aborted.owner q with same | ⟨_, here⟩
      · rw [same]
        exact kept₁.pages q
      · simp [here]
    · rw [aborted.same.tasks] at member
      exact ⟨v, member, rfl, rfl, rfl⟩
  · refine ⟨fun q => ?_, fun w member => ?_⟩
    · rcases created.born.effect.owner q with same | ⟨_, here⟩
      · rw [same]
        exact kept₁.pages q
      · refine ⟨?_, fun _ => ?_⟩ <;>
        · rintro is
          simp [is, labels] at here
    · rw [created.born.tasks, List.mem_append, List.mem_singleton] at member
      rcases member with old | rfl
      · have other : w.addr ≠ v.addr := fun equal =>
          created.born.fresh (List.mem_append_left _ (equal ▸ List.mem_map_of_mem old))
        rw [created.born.user _ other]
        exact kept₁.fresh w old
      · refine ⟨pages, created.small, ?_, created.fresh⟩
        rw [created.view]
        rfl

/-- The operations of a run without `sys_exec` keep the pages. -/
theorem Kept.step {op : Op} {r : Nat} (kept : Kept g) (world : WorldAt ∅ g s) (allowed : Conserving s op)
    (outcome : op.Outcome g s r g' s') : Kept g' := by
  cases op with
  | createUser start stop entry => exact kept.made world outcome
  | fork =>
      rcases outcome with ⟨rfl, rfl⟩ | ⟨p, _, _, made⟩
      · exact kept
      · exact kept.made world made
  | schedule =>
      exact kept.switched world outcome (fun v inside => (mem_zombies.mp inside).1) fun v inside => (mem_survivors.mp inside).1
  | exit code => exact kept.switched world outcome (by simp) fun _ inside => inside
  | reap => exact kept.reaping world outcome
  | exec filename => exact allowed.2.elim
  | destroy task =>
      obtain ⟨v, member, _, destroyed⟩ := outcome
      refine kept.sub (kept.frees world (fun w inside => ?_) destroyed.frees) (fun w inside => ?_) destroyed.same.user
      · obtain rfl := List.mem_singleton.mp inside
        exact member
      · rw [destroyed.same.tasks] at inside
        exact ⟨w, List.mem_of_mem_erase inside, rfl, rfl, rfl⟩
  | take => exact allowed.2.elim
  | user mem uart =>
      obtain ⟨rfl, _, _⟩ := outcome
      exact kept

/-- The places where a page can be. -/
inductive Place where
  | free
  | heap
  | kernelTable (depth key : Nat)
  | kernelStack (task : Nat)
  | userStack (task : Nat)
  | image (task vpn : Nat)
  | table (task depth key : Nat)

/-- A page is in a place. -/
def Place.Holds (s : Kernel) (tasks : List Nat) (page : Nat) : Place → Prop
  | .free => page ∈ freePages s
  | .heap => HeapPage s page
  | .kernelTable depth key => depth < sv39Levels ∧ tableAt s.mem s.kernelPagetable depth key = some page
  | .kernelStack t => t ∈ tasks ∧ page = kernelStackOf s t
  | .userStack t => t ∈ tasks ∧ page = userStackOf s t
  | .image t vpn => t ∈ tasks ∧ userTextBase ≤ 4096 * vpn ∧ 4096 * vpn < userTextBase + imageSizeOf s t ∧
      UserLeaf s.mem (pagetableOf s t) vpn page
  | .table t depth key => t ∈ tasks ∧ depth < sv39Levels ∧ tableAt s.mem (pagetableOf s t) depth key = some page

omit [Layout] in
/-- The owner of the pages in a place. -/
def Place.owner : Place → Owner
  | .free => .free
  | .heap => .heap
  | .kernelTable .. => .table .kernel
  | .kernelStack t => .kstack t
  | .userStack t => .ustack t
  | .image t _ => .data (.task t)
  | .table t .. => .table (.task t)

namespace ValidOf

variable {page : Nat} {place : Place}

/-- The tables of a task, one by one. -/
theorem tableAt (valid : Valid g s) (member : v ∈ g.tasks) {depth key : Nat} (deep : depth < sv39Levels) :
    KuroOS.tableAt s.mem v.pagetable depth key = g.dir v.addr (2 - depth) key :=
  (valid.world.space v member).tables.tableAt valid.world.heap.pool (by simp only [sv39Levels] at deep; omega) key

/-- The fields that the places speak of. -/
theorem placeFields (valid : Valid g s) (member : v ∈ g.tasks) : kernelStackOf s v.addr = v.kernelStack ∧
    userStackOf s v.addr = v.userStack ∧ imageSizeOf s v.addr = v.imageSize ∧ pagetableOf s v.addr = v.pagetable :=
  have view := valid.world.view v member
  ⟨view.kernelStack, view.userStack, view.imageSize, view.pagetable⟩

/-- A page in a place has the place's owner. -/
theorem holds_owner (valid : Valid g s) (kept : Kept g) (aligned : page % 4096 = 0)
    (holds : place.Holds s (g.tasks.map TaskView.addr) page) : g.own page = place.owner := by
  have pool := valid.world.heap.pool
  cases place with
  | free => exact pool.mem_freePages.mp holds
  | heap => exact (valid.world.heap.heapPage aligned).mp holds
  | kernelTable depth key => exact (valid.world.kernel.tablePage pool).mp ⟨depth, holds.1, key, holds.2⟩
  | kernelStack t =>
      obtain ⟨inside, here⟩ := holds
      obtain ⟨v, member, rfl⟩ := List.mem_map.mp inside
      exact ((valid.world.space v member).kstack page).mpr (here.trans (valid.placeFields member).1)
  | userStack t =>
      obtain ⟨inside, here⟩ := holds
      obtain ⟨v, member, rfl⟩ := List.mem_map.mp inside
      exact ((valid.world.space v member).ustack page).mpr (here.trans (valid.placeFields member).2.1)
  | image t vpn =>
      obtain ⟨inside, low, high, leaf⟩ := holds
      obtain ⟨v, member, rfl⟩ := List.mem_map.mp inside
      obtain ⟨_, _, size, root⟩ := valid.placeFields member
      obtain ⟨pages, small, isSize, fresh⟩ := kept.fresh v member
      rw [size, isSize] at high
      rw [root] at leaf
      simp only [userTextBase] at low high
      have found := (valid.userLeaf member (by omega)).mp leaf
      refine ((valid.world.space v member).mapped vpn page found).resolve_right fun isStack => ?_
      have space := valid.world.space v member
      have := space.inj vpn stackVpn page found (by rw [fresh.stack, (space.ustack page).mp isStack])
      simp only [stackVpn] at this
      omega
  | table t depth key =>
      obtain ⟨inside, deep, found⟩ := holds
      obtain ⟨v, member, rfl⟩ := List.mem_map.mp inside
      rw [(valid.placeFields member).2.2.2] at found
      exact (valid.tablePage member).mp ⟨depth, deep, key, found⟩

/-- Every page of the allocator is in a place. -/
theorem place_exists (valid : Valid g s) (kept : Kept g) (isPage : PoolPage page) :
    ∃ place : Place, place.Holds s (g.tasks.map TaskView.addr) page := by
  have pool := valid.world.heap.pool
  obtain ⟨notLost, inside⟩ := kept.pages page
  rcases valid.world.owners page with isCommon | ⟨v, member, label⟩ | none
  · rcases isCommon with outside | isFree | isHeap | lost | isTable
    · exact absurd outside (inside isPage)
    · exact ⟨.free, pool.mem_freePages.mpr isFree⟩
    · exact ⟨.heap, (valid.world.heap.heapPage isPage.bounds.1).mpr isHeap⟩
    · exact absurd lost notLost
    · obtain ⟨depth, deep, key, found⟩ := (valid.world.kernel.tablePage pool).mpr isTable
      exact ⟨.kernelTable depth key, deep, found⟩
  · have space := valid.world.space v member
    obtain ⟨kstack, ustack, size, root⟩ := valid.placeFields member
    have isTask : v.addr ∈ g.tasks.map TaskView.addr := List.mem_map_of_mem member
    rcases label with isTable | isData | isStack | isStack
    · obtain ⟨depth, deep, key, found⟩ := (valid.tablePage member).mpr isTable
      exact ⟨.table v.addr depth key, isTask, deep, root ▸ found⟩
    · obtain ⟨vpn, found⟩ := space.data page isData
      obtain ⟨pages, small, isSize, fresh⟩ := kept.fresh v member
      have inImage : 16 ≤ vpn ∧ vpn < 16 + pages := by
        refine ((fresh.mapped vpn).mp (by simp [found])).resolve_right fun isTop => ?_
        obtain rfl : v.userStack = page := by simpa [isTop, fresh.stack] using found
        simp [(space.ustack _).mpr rfl] at isData
      refine ⟨.image v.addr vpn, isTask, ?_, ?_, ?_⟩
      · simp only [userTextBase]
        omega
      · rw [size, isSize]
        simp only [userTextBase]
        omega
      · rw [root]
        exact (valid.userLeaf member (by omega)).mpr found
    · exact ⟨.kernelStack v.addr, isTask, ((space.kstack page).mp isStack).trans kstack.symm⟩
    · exact ⟨.userStack v.addr, isTask, ((space.ustack page).mp isStack).trans ustack.symm⟩
  · exact absurd none (by simp)

/-- Two places of one page are one. -/
theorem place_unique (valid : Valid g s) (kept : Kept g) (isPage : PoolPage page) {place' : Place}
    (holds : place.Holds s (g.tasks.map TaskView.addr) page) (holds' : place'.Holds s (g.tasks.map TaskView.addr) page) :
    place' = place := by
  have same := (valid.holds_owner kept isPage.bounds.1 holds').symm.trans (valid.holds_owner kept isPage.bounds.1 holds)
  have pool := valid.world.heap.pool
  cases place with
  | free => cases place' <;> simp [Place.owner] at same ⊢
  | heap => cases place' <;> simp [Place.owner] at same ⊢
  | kernelStack t => cases place' <;> simp_all [Place.owner]
  | userStack t => cases place' <;> simp_all [Place.owner]
  | kernelTable depth key =>
      cases place' <;> simp [Place.owner] at same
      case kernelTable depth' key' =>
        have tables := valid.world.kernel
        obtain ⟨deep, found⟩ := holds
        obtain ⟨deep', found'⟩ := holds'
        simp only [sv39Levels] at deep deep'
        rw [tables.tableAt pool (by omega)] at found found'
        obtain ⟨level, rfl⟩ := tables.tree.inj _ _ _ _ page found' found
        rw [show depth' = depth by omega]
  | image t vpn =>
      cases place' <;> simp [Place.owner] at same
      case image t' vpn' =>
        subst same
        obtain ⟨inside, _, high, leaf⟩ := holds
        obtain ⟨_, _, high', leaf'⟩ := holds'
        obtain ⟨v, member, rfl⟩ := List.mem_map.mp inside
        obtain ⟨_, _, size, root⟩ := valid.placeFields member
        obtain ⟨pages, small, isSize, _⟩ := kept.fresh v member
        rw [size, isSize] at high high'
        rw [root] at leaf leaf'
        simp only [userTextBase] at high high'
        rw [(valid.world.space v member).inj _ _ page ((valid.userLeaf member (by omega)).mp leaf')
          ((valid.userLeaf member (by omega)).mp leaf)]
  | table t depth key =>
      cases place' <;> simp [Place.owner] at same
      case table t' depth' key' =>
        subst same
        obtain ⟨inside, deep, found⟩ := holds
        obtain ⟨_, deep', found'⟩ := holds'
        obtain ⟨v, member, rfl⟩ := List.mem_map.mp inside
        rw [(valid.placeFields member).2.2.2, valid.tableAt member deep] at found
        rw [(valid.placeFields member).2.2.2, valid.tableAt member deep'] at found'
        obtain ⟨level, rfl⟩ := (valid.world.space v member).tables.tree.inj _ _ _ _ page found' found
        simp only [sv39Levels] at deep deep'
        rw [show depth' = depth by omega]

end ValidOf

/-- At every point of every run without `sys_exec`, every page of the allocator is
in exactly one place. -/
theorem pages_conserved {n : Nat} {s : Kernel} (run : OpRun AfterVmInit Conserving n s) :
    ∃ tasks free, AllTasks s tasks ∧ tasks.Nodup ∧ Ring s.mem Layout.freePageList free ∧ free.Nodup ∧
      s.nrFreePages = free.length ∧ ∀ page, PoolPage page → ∃! place : Place, place.Holds s tasks page := by
  obtain ⟨g, valid, kept⟩ := run.holds (fun _ g _ => Kept g) (fun s starts => by
      obtain ⟨s₀, power, returned⟩ := starts
      obtain ⟨g, started, _⟩ := wp_ok (kernelStart_spec power fun none : False => none.elim) returned
      exact ⟨g, started.valid, started.kept, by simp [started.tasks]⟩)
    (fun _ _ allowed => allowed.1) fun valid kept allowed outcome _ => kept.step valid.world allowed outcome
  have pool := valid.world.heap.pool
  refine ⟨_, g.free, valid.allTasks, ?_, pool.ring, pool.nodup, pool.count, fun page isPage => ?_⟩
  · have distinct : (g.tasks.map TaskView.taskNode).Nodup := (List.nodup_cons.mp valid.world.allTasks.nodup).2
    have nodes : g.tasks.map TaskView.taskNode = (g.tasks.map TaskView.addr).map (· + Task.taskNode) := by
      rw [List.map_map]
      rfl
    rw [nodes] at distinct
    exact distinct.of_map _
  · obtain ⟨place, holds⟩ := valid.place_exists kept isPage
    exact ⟨place, holds, fun place' holds' => valid.place_unique kept isPage holds holds'⟩

end

section

attribute [local instance] Layout.sample

/-- The pages of a machine after `vm_init`. -/
theorem pages_conserved_sample : ∃ s tasks free, AfterVmInit s ∧ AllTasks s tasks ∧ tasks.Nodup ∧
    Ring s.mem Layout.freePageList free ∧ free.Nodup ∧ s.nrFreePages = free.length ∧
    ∀ page, PoolPage page → ∃! place : Place, place.Holds s tasks page := by
  obtain ⟨s, start⟩ := afterVmInit_sample
  obtain ⟨tasks, free, rest⟩ := pages_conserved (.start start)
  exact ⟨s, tasks, free, start, rest⟩

end

end KuroOS
