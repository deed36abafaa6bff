import KuroOS.Memory.PageFree
import KuroOS.Task.Links

/-!
# Freeing a task

`task_free` gives back the page that the task structure calls its user stack,
the mapped pages of the image, the kernel stack, the tables and the structure.
For a task that `sys_exec` has given a new address space the image size is 0,
so that the pages its tables map go to nobody: they become `lost`.
-/

namespace KuroOS

open Base

/-- What freeing tasks does to the owners of pages. -/
structure Frees (vs : List TaskView) (own own' : Nat → Owner) : Prop where
  data : ∀ v ∈ vs, ∀ q, own q = .data (.task v.addr) → own' q = if v.imageSize = 0 then .lost else .free
  rest : ∀ v ∈ vs, ∀ q, own q ∈ labels v.addr → own q ≠ .data (.task v.addr) → own' q = .free
  others : ∀ q, (∀ v ∈ vs, own q ∉ labels v.addr) → own' q = own q

/-- The owners whose pages freeing tasks may change. -/
def freed (vs : List TaskView) : Set Owner :=
  {.free, .heap, .lost} ∪ {o | ∃ v ∈ vs, o ∈ labels v.addr}

namespace Frees

variable {own own' own'' : Nat → Owner} {v : TaskView} {vs : List TaskView}

theorem nil : Frees [] own own := ⟨by simp, by simp, fun _ _ => rfl⟩

/-- Freed pages have no label. -/
theorem unlabelled (frees : Frees [v] own own') {q : Nat} (inside : own q ∈ labels v.addr) :
    own' q = .free ∨ own' q = .lost := by
  by_cases isData : own q = .data (.task v.addr)
  · rw [frees.data v (by simp) q isData]
    split <;> simp
  · exact .inl (frees.rest v (by simp) q inside isData)

theorem cons (first : Frees [v] own own') (later : Frees vs own' own'')
    (distinct : ∀ w ∈ vs, w.addr ≠ v.addr) : Frees (v :: vs) own own'' := by
  have stays : ∀ q, own q ∈ labels v.addr → own'' q = own' q := by
    intro q inside
    refine later.others q fun w _ labelled => ?_
    rcases first.unlabelled inside with here | here <;>
    · rw [here] at labelled
      simp [labels] at labelled
  have before : ∀ w ∈ vs, ∀ q, own q ∈ labels w.addr → own' q = own q := by
    intro w member q inside
    refine first.others q ?_
    simpa using labels_disjoint (distinct w member) inside
  have dataLabel : ∀ {w : TaskView} {q}, own q = .data (.task w.addr) → own q ∈ labels w.addr :=
    fun here => by simp [here, labels]
  refine ⟨fun w member q isData => ?_, fun w member q inside notData => ?_, fun q outside => ?_⟩
  · rcases List.mem_cons.mp member with rfl | member
    · rw [stays q (dataLabel isData), first.data w (by simp) q isData]
    · exact later.data w member q ((before w member q (dataLabel isData)).trans isData)
  · rcases List.mem_cons.mp member with rfl | member
    · rw [stays q inside, first.rest w (by simp) q inside notData]
    · have same := before w member q inside
      exact later.rest w member q (same ▸ inside) (same ▸ notData)
  · have same := first.others q fun w member => by
      obtain rfl := List.mem_singleton.mp member
      exact outside w (by simp)
    rw [later.others q fun w member => same ▸ outside w (by simp [member]), same]

end Frees

theorem freed_mono {vs ws : List TaskView} (sub : ∀ v ∈ vs, v ∈ ws) : freed vs ⊆ freed ws := by
  rintro o (isCommon | ⟨v, member, inside⟩)
  · exact .inl isCommon
  · exact .inr ⟨v, sub v member, inside⟩

/-- The pages that `task_free` gives back. -/
def TaskView.returned (v : TaskView) (own : Nat → Owner) : Set Nat :=
  {q | own q ∈ labels v.addr ∧ (own q = .data (.task v.addr) → v.imageSize ≠ 0)}

/-- A fresh task's data pages are the image pages that its tables map. -/
theorem TaskSpace.data_pages {own : Nat → Owner} {mem : Mem} {dir : Directory} {user : UserMap}
    {v : TaskView} {pages : Nat} (space : TaskSpace own mem dir user v) (small : pages ≤ 0x8000)
    (fresh : FreshMap user pages v.userStack) :
    user.pages 16 pages = {q | own q = .data (.task v.addr)} := by
  ext p
  constructor
  · rintro ⟨n, low, high, found⟩
    refine (space.mapped n p found).resolve_right fun isStack => ?_
    have := space.inj n stackVpn p found ((space.ustack p).mp isStack ▸ fresh.stack)
    simp only [stackVpn] at this
    omega
  · intro isData
    obtain ⟨n, found⟩ := space.data p isData
    rcases (fresh.mapped n).mp (by simp [found]) with ⟨low, high⟩ | rfl
    · exact ⟨n, low, high, found⟩
    · obtain rfl := Option.some.inj (fresh.stack.symm.trans found)
      simp [(space.ustack _).mpr rfl] at isData

variable [Layout]

/-- The bytes of the three list heads. -/
def listHeads : Set Nat := node Layout.freePageList ∪ node Layout.runQueue ∪ node Layout.allTasks

/-- What an operation does to memory: pages pass between the owners in `C`, and
bytes change in their pages and in the list heads only. -/
abbrev Effect (C : Set Owner) (own : Nat → Owner) (s : Kernel) (own' : Nat → Owner) (s' : Kernel) : Prop :=
  Moves pageOf listHeads C C own s.mem own' s'.mem

variable {own own₁ : Nat → Owner} {free free₁ : List Nat} {s s₁ : Kernel} {dir : Directory}
  {user : UserMap} {v : TaskView} {halt : Halt → Kernel → Prop}

/-- Page operations are an operation's effect. -/
theorem PageMoves.effect {C W D : Set Owner} {own' : Nat → Owner} {s' : Kernel}
    (moves : PageMoves C W own s own' s') (subC : C ⊆ D) (subW : W ⊆ D) : Effect D own s own' s' where
  owner q := (moves.moves.owner q).imp id fun both => ⟨subC both.1, subC both.2⟩
  closed q outside := by
    rcases moves.moves.owner q with same | ⟨before, _⟩
    · rwa [same]
    · exact absurd (subC before) outside
  bytes x outside plain := moves.moves.bytes x (fun inside => outside (subW inside)) fun isHead =>
    plain (.inl (.inl isHead))

/-- `page_free` of a page in use, guarded by a test for 0. -/
theorem pageFreeIf_spec (pool : Pool own free s) {p : Nat} (inUse : own p ≠ .free) (owned : own p ≠ .outside) :
    wp (pageFreeIf p) s (fun _ s' => ∃ own', Pool own' (p :: free) s' ∧ Releases {.free} {p} own s own' s')
      halt := by
  have nonzero : p ≠ 0 := by
    have := (pool.pages p owned).bounds
    omega
  unfold pageFreeIf
  rw [if_pos nonzero]
  exact pool.release inUse owned

/-- The second statement of `task_free`, after the first has freed the page that
the structure calls the user stack. -/
theorem TaskSpace.freeImage_spec (space : TaskSpace own s.mem dir user v) (pool : Pool own free s)
    (stack : Releases {.free} {v.userStack} own s own₁ s₁) (pool₁ : Pool own₁ free₁ s₁)
    (view : TaskAt s₁.mem v) :
    wp (taskFreeImage v.addr) s₁ (fun _ s' => ∃ own' free', Pool own' free' s' ∧
      SpaceTables own' s'.mem (.task v.addr) v.pagetable dir ∧
      Releases {.free, .table (.task v.addr)}
        ({v.userStack} ∪ {q | own q = .data (.task v.addr) ∧ v.imageSize ≠ 0}) own s own' s') halt := by
  have isStack : own v.userStack = .ustack v.addr := (space.ustack _).mpr rfl
  have rootPage := (space.tables.page pool space.tables.tree.root_mem).bounds
  have st₁ : SpaceState (.task v.addr) v.pagetable own₁ free₁ dir user s₁ :=
    SpaceState.releases ⟨⟨space.tables, pool⟩, space.leaves, space.plain⟩ stack pool₁
      (fun q inside => by
        obtain rfl : q = v.userStack := inside
        simp [isStack]) (by simp)
  have stack' : Releases {.free, .table (.task v.addr)} {v.userStack} own s own₁ s₁ :=
    stack.mono (by simp)
  unfold taskFreeImage
  simp only [wp_bind, wp_loadWord, view.pagetable, view.imageSize, wp_ite, wp_pure]
  by_cases zero : v.imageSize = 0
  · have none : {q | own q = .data (.task v.addr) ∧ v.imageSize ≠ 0} = ∅ := by
      simp [zero]
    rw [if_neg (by simp [zero]), none, Set.union_empty]
    exact ⟨own₁, free₁, pool₁, st₁.table.tables, stack'⟩
  · rw [if_pos ⟨by omega, zero⟩]
    obtain ⟨pages, small, size, fresh⟩ := space.shape.resolve_right fun loaded => zero loaded.1
    have isData : ∀ p, p ∈ user.pages 16 pages → own p = .data (.task v.addr) := fun p inside => by
      rwa [space.data_pages small fresh] at inside
    have kept : ∀ p, own p = .data (.task v.addr) → own₁ p = .data (.task v.addr) := fun p here => by
      rw [(stack.owner p).2 ?_, here]
      rintro rfl
      simp [isStack] at here
    rw [size]
    refine wp_mono (taskFreeUserPages_spec (by omega) st₁ (fun n p low high found => ?_) space.inj) ?_
      fun _ _ => id
    · simp [kept p (isData p ⟨n, low, high, found⟩)]
    · rintro _ s' ⟨own', free', st', image⟩
      have releases := stack'.trans image
      rw [space.data_pages small fresh] at releases
      have same : {q | own q = .data (.task v.addr) ∧ 4096 * pages ≠ 0} =
          {q | own q = .data (.task v.addr)} := by
        rw [← size]
        simp [zero]
      rw [show pageSize * pages = 4096 * pages from rfl, same]
      exact ⟨own', free', st'.table.pool, st'.table.tables, releases⟩

/-- `task_free` up to `kfree`, for a task whose image its second statement gives back. -/
theorem taskFree_image (kstack : ∀ q, own q = .kstack v.addr ↔ q = v.kernelStack)
    (ustack : ∀ q, own q = .ustack v.addr ↔ q = v.userStack) (pool : Pool own free s)
    (view : TaskAt s.mem v) (inHeap : ∀ x, v.addr ≤ x → x < v.addr + 96 → own (pageOf x) = .heap)
    (image : ∀ own₁ free₁ s₁, Releases {.free} {v.userStack} own s own₁ s₁ → Pool own₁ free₁ s₁ → TaskAt s₁.mem v →
      wp (taskFreeImage v.addr) s₁ (fun _ s' => ∃ own' free', Pool own' free' s' ∧
        SpaceTables own' s'.mem (.task v.addr) v.pagetable dir ∧
        Releases {.free, .table (.task v.addr)}
          ({v.userStack} ∪ {q | own q = .data (.task v.addr) ∧ v.imageSize ≠ 0}) own s own' s') halt)
    {post : Unit → Kernel → Prop}
    (rest : ∀ own' free' s', Pool own' free' s' →
      Releases {.free, .table (.task v.addr)} (v.returned own) own s own' s' →
        wp (kfree v.addr) s' post halt) : wp (taskFree v.addr) s post halt := by
  have isStack : own v.userStack = .ustack v.addr := (ustack _).mpr rfl
  have isKernelStack : own v.kernelStack = .kstack v.addr := (kstack _).mpr rfl
  -- the structure is in the heap, out of reach of what is freed
  have viewOf : ∀ {A own₁ s₁}, Releases {.free, .table (.task v.addr)} A own s own₁ s₁ →
      (∀ q ∈ A, own q ≠ .heap) → TaskAt s₁.mem v := fun {A own₁ s₁} releases notHeap =>
    view.congr fun x low high => by
      have here := inHeap x low high
      exact releases.bytes x (by simp [here]) (fun inside => notHeap _ inside here)
        (pool.not_head (by simp [here]))
  unfold taskFree
  simp only [wp_bind, wp_loadWord, view.userStack]
  refine wp_mono (pageFreeIf_spec pool (by simp [isStack]) (by simp [isStack])) ?_ fun _ _ => id
  rintro _ s₁ ⟨own₁, pool₁, releases₁⟩
  have view₁ : TaskAt s₁.mem v := viewOf (releases₁.mono (by simp)) (by simp [isStack])
  refine wp_mono (image own₁ _ s₁ releases₁ pool₁ view₁) ?_ fun _ _ => id
  rintro _ s₂ ⟨own₂, free₂, pool₂, tables₂, releases₂⟩
  have view₂ : TaskAt s₂.mem v := viewOf releases₂ (by
    rintro q (rfl | ⟨isData, _⟩)
    · simp [isStack]
    · simp [isData])
  have kernelStack₂ : own₂ v.kernelStack = .kstack v.addr := by
    rw [(releases₂.owner _).2 ?_, isKernelStack]
    rintro (equal | ⟨isData, _⟩)
    · rw [Set.mem_singleton_iff] at equal
      simp [← equal, isKernelStack] at isStack
    · simp [isKernelStack] at isData
  rw [view₂.kernelStack]
  refine wp_mono (pageFreeIf_spec pool₂ (by simp [kernelStack₂]) (by simp [kernelStack₂])) ?_ fun _ _ => id
  rintro _ s₃ ⟨own₃, pool₃, single₃⟩
  have releases₃ := releases₂.trans (single₃.mono (by simp))
  have view₃ : TaskAt s₃.mem v := viewOf releases₃ (by
    rintro q ((rfl | ⟨isData, _⟩) | rfl)
    · simp [isStack]
    · simp [isData]
    · simp [isKernelStack])
  have rootPage := (tables₂.page pool₂ tables₂.tree.root_mem).bounds
  have tables₃ : SpaceTables own₃ s₃.mem (.task v.addr) v.pagetable dir := by
    refine tables₂.congr pool₂ (fun q => ?_) fun x owned => ?_
    · by_cases equal : q = v.kernelStack
      · subst equal
        simp [(single₃.owner _).1 rfl, kernelStack₂]
      · rw [(single₃.owner q).2 equal]
    · refine single₃.bytes x (by simp [owned]) (fun equal => ?_) (pool₂.not_head (by simp [owned]))
      rw [Set.mem_singleton_iff] at equal
      simp [equal, kernelStack₂] at owned
  rw [view₃.pagetable, pgtableFreeWalkIf, if_pos (by omega)]
  refine wp_mono (pgtableFreeWalk_spec tables₃ pool₃) ?_ fun _ _ => id
  rintro _ s₄ ⟨own₄, free₄, pool₄, walk₄⟩
  have releases := releases₃.trans (walk₄.mono (by simp))
  have all : {v.userStack} ∪ {q | own q = .data (.task v.addr) ∧ v.imageSize ≠ 0} ∪ {v.kernelStack} ∪
      {q | own₃ q = .table (.task v.addr)} = v.returned own := by
    have tables : ∀ q, own₃ q = .table (.task v.addr) ↔ own q = .table (.task v.addr) := by
      intro q
      by_cases gone : q ∈ {v.userStack} ∪ {q | own q = .data (.task v.addr) ∧ v.imageSize ≠ 0} ∪ {v.kernelStack}
      · rw [(releases₃.owner q).1 gone]
        rcases gone with (rfl | ⟨isData, _⟩) | rfl
        · simp [isStack]
        · simp [isData]
        · simp [isKernelStack]
      · rw [(releases₃.owner q).2 gone]
    ext q
    simp only [Set.mem_union, Set.mem_singleton_iff, Set.mem_ofPred_eq, tables, TaskView.returned,
      labels, Set.mem_insert_iff, ← ustack q, ← kstack q]
    by_cases isData : own q = .data (.task v.addr)
    · simp [isData]
    · simp [isData]
      tauto
  rw [all] at releases
  exact rest own₄ free₄ s₄ pool₄ releases

/-- `task_free` up to `kfree`: it gives back the task's pages. -/
theorem TaskSpace.free_spec (space : TaskSpace own s.mem dir user v) (pool : Pool own free s)
    (view : TaskAt s.mem v) (inHeap : ∀ x, v.addr ≤ x → x < v.addr + 96 → own (pageOf x) = .heap)
    {post : Unit → Kernel → Prop}
    (rest : ∀ own' free' s', Pool own' free' s' →
      Releases {.free, .table (.task v.addr)} (v.returned own) own s own' s' →
        wp (kfree v.addr) s' post halt) : wp (taskFree v.addr) s post halt :=
  taskFree_image space.kstack space.ustack pool view inHeap
    (fun _ _ _ stack pool₁ view₁ => space.freeImage_spec pool stack pool₁ view₁) rest

/-- Spaces that `task_free` knows how to give back. -/
class FreeSpaces (Kind : SpaceKind) : Prop extends Spaces Kind where
  free_spec : ∀ {own : Nat → Owner} {free : List Nat} {s : Kernel} {dir : Directory} {user : UserMap} {v : TaskView}
    {halt : Halt → Kernel → Prop} {post : Unit → Kernel → Prop}, Kind own s.mem dir user v → Pool own free s →
    TaskAt s.mem v → (∀ x, v.addr ≤ x → x < v.addr + 96 → own (pageOf x) = .heap) →
    (∀ own' free' s', Pool own' free' s' → Releases {.free, .table (.task v.addr)} (v.returned own) own s own' s' →
      wp (kfree v.addr) s' post halt) →
    wp (taskFree v.addr) s post halt

instance : FreeSpaces TaskSpace where
  free_spec space pool view inHeap rest := space.free_spec pool view inHeap rest

namespace WorldOf

variable {Kind : SpaceKind} {wip L : Set Owner} {g : World}

/-- Work in progress ends when its labels are gone, its pages freed or lost. -/
theorem settle [Spaces Kind] (world : WorldOf Kind (wip ∪ L) g s) (own' : Nat → Owner)
    (owner : ∀ q, own' q = g.own q ∨ (g.own q ∈ L ∧ own' q = .lost)) (gone : ∀ q, own' q ∉ L) :
    ∃ g', WorldOf Kind wip g' s ∧ SameTasks g g' ∧ g'.own = own' ∧ g'.free = g.free ∧ g'.blocks = g.blocks := by
  have notCommon : ∀ o ∈ common, o ∉ L := fun o isCommon inL =>
    (world.foreign o (.inr inL)).1 isCommon
  have kept : ∀ o, o ≠ .lost → o ∉ L → ∀ q, own' q = o ↔ g.own q = o := by
    intro o notLost outside q
    rcases owner q with equal | ⟨before, after⟩
    · rw [equal]
    · rw [after]
      exact iff_of_false notLost.symm fun here => outside (here ▸ before)
  have pool := world.heap.pool.relabel (kept .free (by simp) (notCommon _ (by simp [common])))
    fun p owned => fun isOutside => owned ((kept .outside (by simp) (notCommon _ (by simp [common])) p).mpr
      isOutside)
  have heap := world.heap.heap.congr (fun _ _ _ _ _ => rfl) rfl rfl
    (kept .heap (by simp) (notCommon _ (by simp [common])))
  have after := world.carry ⟨pool, heap, world.heap.coalesced⟩ (fun q => ?_) world.home
    (fun _ _ => rfl) rfl
  · refine ⟨{ g with own := own' }, ?_, ⟨rfl, rfl, rfl, rfl, rfl⟩, rfl, rfl, rfl⟩
    refine { after with owners := fun q => ?_, foreign := fun o inWip => world.foreign o (.inl inWip) }
    rcases after.owners q with isCommon | isTask | inWip | inL
    · exact .inl isCommon
    · exact .inr (.inl isTask)
    · exact .inr (.inr inWip)
    · exact absurd inL (gone q)
  · exact (owner q).imp id fun both => ⟨.inr (.inr (.inr both.1)), .inr (.inr (.inl both.2))⟩

/-- `task_free` of a task that is on neither list. -/
theorem taskFree_spec [FreeSpaces Kind] (world : WorldOf Kind (wip ∪ labels v.addr) g s) (view : TaskAt s.mem v)
    (space : Kind g.own s.mem dir user v) (home : Home g.blocks v.addr) (fresh : v.addr ∉ g.structs) :
    wp (taskFree v.addr) s (fun _ s' => ∃ g', WorldOf Kind wip g' s' ∧ SameTasks g g' ∧
      Frees [v] g.own g'.own ∧ Effect (freed [v]) g.own s g'.own s' ∧
      s' = { s with
        mem := s'.mem, nrFreePages := s'.nrFreePages, heapHead := s'.heapHead, heapTail := s'.heapTail })
      halt := by
  refine FreeSpaces.free_spec space world.heap.pool view (fun x low high =>
    (home.payload world.heap.heap low (by simp only [taskSize]; omega)).2) fun own₁ free₁ s₁ pool₁ releases => ?_
  have moves : PageMoves ({.free} ∪ labels v.addr) ({.free} ∪ labels v.addr) g.own s own₁ s₁ :=
    releases.pageMoves (fun q inside => .inr inside.1) (.inl rfl) (fun o inside => by
      rcases inside with rfl | rfl <;> simp [labels]) (fun _ => id)
  have cells : ∀ o ∈ ({.free} ∪ labels v.addr : Set Owner), o = .free ∨ o ∈ wip ∪ labels v.addr :=
    fun o inside => inside.imp id .inr
  obtain ⟨g₁, world₁, same₁, owners₁, _, blocks₁⟩ := world.pageMoves moves pool₁ cells cells
  -- what is left of the task's pages is lost
  obtain ⟨own₂, lost⟩ : ∃ own₂ : Nat → Owner, ∀ q, own₂ q =
      if own₁ q = .data (.task v.addr) then .lost else own₁ q := ⟨_, fun _ => rfl⟩
  have left : ∀ q, own₁ q ∈ labels v.addr → own₁ q = .data (.task v.addr) := by
    intro q inside
    by_cases gone : q ∈ v.returned g.own
    · rw [(releases.owner q).1 gone] at inside
      simp [labels] at inside
    · rw [(releases.owner q).2 gone] at inside ⊢
      by_contra other
      exact gone ⟨inside, fun isData => absurd isData other⟩
  have frees : Frees [v] g.own own₂ := by
    refine ⟨fun w member q isData => ?_, fun w member q inside notData => ?_, fun q outside => ?_⟩
    · obtain rfl := List.mem_singleton.mp member
      rw [lost]
      by_cases zero : w.imageSize = 0
      · rw [(releases.owner q).2 fun inside => inside.2 isData zero, isData, if_pos rfl, if_pos zero]
      · rw [(releases.owner q).1 ⟨by simp [isData, labels], fun _ => zero⟩, if_neg zero, if_neg (by simp)]
    · obtain rfl := List.mem_singleton.mp member
      rw [lost, (releases.owner q).1 ⟨inside, fun isData => absurd isData notData⟩, if_neg (by simp)]
    · have outside := outside v (by simp)
      rw [lost, (releases.owner q).2 fun inside => outside inside.1, if_neg fun isData =>
        outside (by simp [isData, labels])]
  obtain ⟨g₂, world₂, same₂, owners₂, _, blocks₂⟩ := world₁.settle own₂
    (fun q => by
      rw [lost, owners₁]
      split
      · next isData => exact .inr ⟨by simp [isData, labels], rfl⟩
      · exact .inl rfl)
    (fun q inside => by
      by_cases isData : own₁ q = .data (.task v.addr)
      · rw [lost, if_pos isData] at inside
        simp [labels] at inside
      · rw [lost, if_neg isData] at inside
        exact isData (left q inside))
  have same := same₁.trans same₂
  refine wp_mono (world₂.kfree_spec (p := v.addr) (by rwa [blocks₂, blocks₁])
    (by rwa [same.structs])) ?_ fun _ _ => id
  rintro _ s₃ ⟨g₃, world₃, same₃, owners₃, _, bytes, globals⟩
  rw [owners₂] at owners₃ bytes
  refine ⟨g₃, world₃, same.trans same₃, owners₃ ▸ frees, ?_, ?_⟩
  · have subset : ({.free} ∪ labels v.addr : Set Owner) ⊆ freed [v] := by
      rintro o (rfl | inside)
      · simp [freed]
      · exact .inr ⟨v, by simp, inside⟩
    have losing : Effect (freed [v]) own₁ s₁ own₂ s₁ := .of_owner fun q => by
      rw [lost]
      split
      · next isData => exact .inr ⟨by simp [isData, freed, labels], by simp [freed]⟩
      · exact .inl rfl
    rw [owners₃]
    refine ((moves.effect subset subset).trans losing).trans (.of_bytes fun x outside _ => ?_)
    exact bytes x fun inHeap => outside (by simp [inHeap, freed])
  · have := releases.globals
    rw [globals]
    generalize s₃.mem = m, s₃.heapHead = h, s₃.heapTail = t
    rw [this]

end WorldOf

end KuroOS
