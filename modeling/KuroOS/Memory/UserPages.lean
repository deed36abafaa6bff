import KuroOS.Memory.KernelMap
import KuroOS.Kernel.Task

/-!
# Filling and freeing user pages

`mem_zero` and `mem_copy` as functions of the address, the look-up that
`task.c` makes in a page table, and `task_free_user_pages`, which frees the
pages of a range that are mapped and clears their entries.
-/

namespace KuroOS

open Base

section

variable {mem : Mem} {dst src size x : Nat}

theorem memZero_apply (fits : dst + size ≤ 2 ^ 64) :
    memZero mem dst size x = if dst ≤ x ∧ x < dst + size then 0 else mem x := by
  induction size with
  | zero => rw [memZero, if_neg (by omega)]
  | succ size ih =>
      rw [memZero, wadd_of_lt (by omega)]
      by_cases here : x = dst + size
      · subst here
        rw [Function.update_self, if_pos (by omega)]
      · rw [Function.update_of_ne here, ih (by omega)]
        by_cases inside : dst ≤ x ∧ x < dst + size
        · rw [if_pos inside, if_pos (by omega)]
        · rw [if_neg inside, if_neg (by omega)]

/-- `mem_copy` changes its destination only. -/
theorem memCopy_of_outside (fits : dst + size ≤ 2 ^ 64) (outside : x < dst ∨ dst + size ≤ x) :
    memCopy mem dst src size x = mem x := by
  induction size with
  | zero => rfl
  | succ size ih =>
      rw [memCopy, wadd_of_lt (by omega), Function.update_of_ne (by omega)]
      exact ih (by omega) (by omega)

/-- `mem_copy` between regions that do not overlap. -/
theorem memCopy_of_inside (fits : dst + size ≤ 2 ^ 64) (srcFits : src + size ≤ 2 ^ 64)
    (apart : src + size ≤ dst ∨ dst + size ≤ src) {i : Nat} (inside : i < size) :
    memCopy mem dst src size (dst + i) = mem (src + i) := by
  induction size with
  | zero => omega
  | succ size ih =>
      rw [memCopy, wadd_of_lt (by omega), wadd_of_lt (by omega)]
      by_cases last : i = size
      · subst last
        rw [Function.update_self]
        exact memCopy_of_outside (by omega) (by omega)
      · rw [Function.update_of_ne (by omega)]
        exact ih (by omega) (by omega) (by omega) (by omega)

end

/-- The pages that a range of a space maps. -/
def UserMap.pages (user : UserMap) (vpn count : Nat) : Set Nat :=
  {p | ∃ v, vpn ≤ v ∧ v < vpn + count ∧ user v = some p}

theorem UserMap.remove_remove (user : UserMap) (vpn count : Nat) :
    (user.remove vpn 1).remove (vpn + 1) count = user.remove vpn (count + 1) := by
  funext v
  unfold remove
  by_cases first : v = vpn
  · subst first
    rw [if_neg (by omega), if_pos (by omega), if_pos (by omega)]
  · by_cases rest : vpn + 1 ≤ v ∧ v < vpn + 1 + count
    · rw [if_pos rest, if_pos (by omega)]
    · rw [if_neg rest, if_neg (by omega), if_neg (by omega)]

theorem UserMap.remove_none {user : UserMap} {vpn : Nat} (absent : user vpn = none) :
    user.remove vpn 1 = user := by
  funext v
  unfold remove
  split
  · next inside =>
      rw [show v = vpn by omega, absent]
  · rfl

variable [Layout]

variable {own : Nat → Owner} {free : List Nat} {s : Kernel} {space : Space} {root : Nat}
  {dir : Directory} {user : UserMap} {halt : Halt → Kernel → Prop}

/-- The entry of a user page names it. -/
theorem pteToPa_user {p : Nat} (page : PoolPage p) : pteToPa (mkPte p userFlags) = p := by
  have bounds := page.bounds
  rw [mkPte_pa (by decide) bounds.1]
  omega

/-- Looking up an entry changes nothing and finds what the space maps. -/
theorem SpaceState.lookup (st : SpaceState space root own free dir user s) {vpn : Nat}
    (below : vpn < 2 ^ 26) :
    wp (leafLookup root (4096 * vpn)) s (fun r s' => s' = s ∧
      ((spaceEntry user vpn = 0 ∧ r = none) ∨
        (spaceEntry user vpn ≠ 0 ∧ dir.slot vpn ≠ 0 ∧
          r = some (dir.slot vpn, spaceEntry user vpn)))) halt := by
  have vpnOf : 4096 * vpn / 4096 = vpn := by omega
  unfold leafLookup
  refine wp_bind_of (pgtableWalk_lookup st.table (by omega)) ?_
  rw [vpnOf]
  rintro pte s' ⟨rfl, rfl⟩
  by_cases zero : dir.slot vpn = 0
  · simp only [zero, if_true, wp_pure, true_and]
    exact .inl ⟨(st.leaves vpn).symm.trans (st.table.leafAt_of_slot_zero zero), trivial⟩
  · have value := SpaceTables.leafAt_of_slot s'.mem zero
    have entry := st.table.tables.leafEntry vpn
    simp only [zero, if_false, wp_bind, wp_loadWord, value, wp_ite, wp_pure, true_and]
    rw [st.leaves vpn] at entry ⊢
    rcases entry with clear | ⟨present, leaf⟩
    · rw [clear]
      exact .inl ⟨rfl, trivial⟩
    · rw [present, leaf]
      have nonzero : spaceEntry user vpn ≠ 0 := by
        intro clear
        rw [clear] at present
        exact absurd present (by decide)
      exact .inr ⟨nonzero, zero, rfl⟩

/-- Looking up the entry of a user page. -/
theorem SpaceState.lookup_page (st : SpaceState space root own free dir user s) {vpn p : Nat}
    (below : vpn < 2 ^ 26) (found : user vpn = some p) :
    wp (leafLookup root (4096 * vpn)) s (fun r s' => s' = s ∧ dir.slot vpn ≠ 0 ∧
      r = some (dir.slot vpn, mkPte p userFlags)) halt := by
  have entry : spaceEntry user vpn = mkPte p userFlags := by simp [spaceEntry, found]
  refine wp_mono (st.lookup below) ?_ fun _ _ => id
  rintro r s' ⟨same, ⟨zero, _⟩ | ⟨_, slot, result⟩⟩
  · rw [entry] at zero
    exact absurd zero (mkPte_ne_zero (by decide) (by decide))
  · exact ⟨same, slot, entry ▸ result⟩

/-- Looking up the entry of a page number that nothing is mapped at. -/
theorem SpaceState.lookup_none (st : SpaceState space root own free dir user s) {vpn : Nat}
    (below : vpn < 2 ^ 26) (absent : user vpn = none) (foreign : ¬ KernelVpn vpn) :
    wp (leafLookup root (4096 * vpn)) s (fun r s' => s' = s ∧ r = none) halt := by
  refine wp_mono (st.lookup below) ?_ fun _ _ => id
  rintro r s' ⟨same, ⟨_, result⟩ | ⟨nonzero, _⟩⟩
  · exact ⟨same, result⟩
  · exact absurd (spaceEntry_eq_zero.mpr ⟨absent, foreign⟩) nonzero

/-- A space survives the freeing of pages that are not its tables. -/
theorem SpaceState.releases (st : SpaceState space root own free dir user s) {A : Set Nat}
    {own' : Nat → Owner} {free' : List Nat} {s' : Kernel} {W : Set Owner}
    (releases : Releases W A own s own' s') (pool : Pool own' free' s')
    (tables : ∀ q ∈ A, own q ≠ .table space) (foreign : .table space ∉ W) :
    SpaceState space root own' free' dir user s' := by
  have same : ∀ x, own (pageOf x) = .table space → s'.mem x = s.mem x := fun x owned =>
    releases.bytes x (owned ▸ foreign) (fun inside => tables _ inside owned)
      (st.table.pool.not_head (by simp [owned]))
  refine ⟨⟨st.table.tables.congr st.table.pool (fun q => ?_) same, pool⟩, fun v => ?_, st.plain⟩
  · by_cases inside : q ∈ A
    · rw [(releases.owner q).1 inside]
      exact iff_of_false (by simp) (tables q inside)
    · rw [(releases.owner q).2 inside]
  · rw [st.table.tables.leafAt_congr st.table.pool same]
    exact st.leaves v

/-- Clearing the entry of a user page. -/
theorem SpaceState.clear (st : SpaceState space root own free dir user s) {vpn : Nat}
    (reached : dir.slot vpn ≠ 0) (foreign : ¬ KernelVpn vpn) :
    SpaceState space root own free dir (user.remove vpn 1)
        { s with mem := s.mem.store (dir.slot vpn) 8 0 } ∧
      TableMoves space own s own { s with mem := s.mem.store (dir.slot vpn) 8 0 } := by
  obtain ⟨table, moves, leaves⟩ := st.table.setLeaf 0 reached (.inl rfl) (by decide)
  refine ⟨⟨table, fun v => ?_, fun v inside => ?_⟩, moves⟩
  · rw [leaves v, st.leaves v]
    by_cases here : v = vpn
    · subst here
      rw [if_pos rfl, spaceEntry_eq_zero.mpr ⟨if_pos (by omega), foreign⟩]
    · rw [if_neg here, spaceEntry, spaceEntry, UserMap.remove, if_neg (by omega)]
  · have kept := st.plain v inside
    unfold UserMap.remove
    split
    · rfl
    · exact kept

/-- One round of `task_free_user_pages`. -/
theorem taskFreeUserPage_spec (st : SpaceState space root own free dir user s) {vpn : Nat}
    (below : vpn < 2 ^ 26) (foreign : ¬ KernelVpn vpn)
    (inUse : ∀ p, user vpn = some p → own p ≠ .free ∧ own p ≠ .outside ∧ own p ≠ .table space) :
    wp (taskFreeUserPage root (4096 * vpn)) s (fun _ s' => ∃ own' free',
      SpaceState space root own' free' dir (user.remove vpn 1) s' ∧
      Releases {.free, .table space} (user.pages vpn 1) own s own' s') halt := by
  unfold taskFreeUserPage
  cases found : user vpn with
  | none =>
      refine wp_bind_of (st.lookup_none below found foreign) ?_
      rintro _ _ ⟨rfl, rfl⟩
      have none : user.pages vpn 1 = ∅ := by
        refine Set.eq_empty_of_forall_notMem ?_
        rintro p ⟨v, low, high, here⟩
        rw [show v = vpn by omega, found] at here
        exact absurd here (by simp)
      rw [wp_pure, UserMap.remove_none found, none]
      exact ⟨own, free, st, .refl⟩
  | some p =>
      obtain ⟨notFree, owned, notTable⟩ := inUse p found
      have page := st.table.pool.pages p owned
      refine wp_bind_of (st.lookup_page below found) ?_
      rintro _ _ ⟨rfl, slot, rfl⟩
      simp only [pteToPa_user page]
      refine wp_bind_of (st.table.pool.release notFree owned) ?_
      rintro _ s₁ ⟨own₁, pool₁, releases⟩
      have st₁ := st.releases releases pool₁ (fun q inside => by
        obtain rfl : q = p := inside
        exact notTable) (by simp)
      obtain ⟨st₂, moves⟩ := st₁.clear slot foreign
      have only : user.pages vpn 1 = {p} := by
        ext q
        constructor
        · rintro ⟨v, low, high, here⟩
          rw [show v = vpn by omega, found] at here
          exact (Option.some.inj here).symm
        · rintro rfl
          exact ⟨vpn, Nat.le_refl _, by omega, found⟩
      rw [wp_storeWord, only]
      refine ⟨own₁, _, st₂, releases.owner, fun x outside other plain => ?_, ?_⟩
      · simp only [Set.mem_insert_iff, Set.mem_singleton_iff, not_or] at outside
        rw [moves.moves.bytes x ?_ plain, releases.bytes x outside.1 other plain]
        rw [(releases.owner _).2 other]
        simpa using outside
      · have := releases.globals
        rw [moves.globals]
        generalize s₁.nrFreePages = n at *
        rw [this]

/-- The loop of `task_free_user_pages`. -/
theorem taskFreeUserPagesLoop_spec {pages vpn fuel : Nat} (enough : pages < fuel)
    (below : vpn + pages ≤ 0x10000) (st : SpaceState space root own free dir user s)
    (inUse : ∀ v p, vpn ≤ v → v < vpn + pages → user v = some p →
      own p ≠ .free ∧ own p ≠ .outside ∧ own p ≠ .table space)
    (inj : ∀ v w p, vpn ≤ v → v < vpn + pages → vpn ≤ w → w < vpn + pages → user v = some p →
      user w = some p → v = w) :
    wp (taskFreeUserPagesLoop root (4096 * (vpn + pages)) fuel (4096 * vpn)) s
      (fun _ s' => ∃ own' free',
        SpaceState space root own' free' dir (user.remove vpn pages) s' ∧
        Releases {.free, .table space} (user.pages vpn pages) own s own' s') halt := by
  induction pages generalizing vpn fuel own free user s with
  | zero =>
      obtain ⟨fuel, rfl⟩ := Nat.exists_eq_succ_of_ne_zero (n := fuel) (by omega)
      rw [taskFreeUserPagesLoop, if_neg (by omega), wp_pure]
      have none : user.pages vpn 0 = ∅ := by
        refine Set.eq_empty_of_forall_notMem ?_
        rintro p ⟨v, low, high, _⟩
        omega
      have same : user.remove vpn 0 = user := by
        funext v
        exact if_neg (by omega)
      rw [none, same]
      exact ⟨own, free, st, .refl⟩
  | succ pages ih =>
      obtain ⟨fuel, rfl⟩ := Nat.exists_eq_succ_of_ne_zero (n := fuel) (by omega)
      have foreign : ¬ KernelVpn vpn := by
        unfold KernelVpn
        omega
      rw [taskFreeUserPagesLoop, if_pos (by omega)]
      refine wp_bind_of (taskFreeUserPage_spec st (by omega) foreign fun p found =>
        inUse vpn p (Nat.le_refl _) (by omega) found) ?_
      rintro _ s₁ ⟨own₁, free₁, st₁, releases₁⟩
      rw [show wadd (4096 * vpn) pageSize = 4096 * (vpn + 1) by
          rw [wadd_of_lt] <;> simp only [pageSize] <;> omega,
        show vpn + (pages + 1) = vpn + 1 + pages by omega]
      have later : ∀ {v p}, vpn + 1 ≤ v → v < vpn + 1 + pages → user.remove vpn 1 v = some p →
          user v = some p := fun low _ found => by
        rwa [UserMap.remove, if_neg (by omega)] at found
      refine wp_mono (ih (by omega) (by omega) st₁ (fun v p low high found => ?_)
        fun v w p low high low' high' found found' => ?_) ?_ fun _ _ => id
      · have found := later low high found
        -- the page freed first is not the page of a later address
        have other : p ∉ user.pages vpn 1 := by
          rintro ⟨w, low', high', found'⟩
          have := inj v w p (by omega) (by omega) (by omega) (by omega) found found'
          omega
        rw [(releases₁.owner p).2 other]
        exact inUse v p (by omega) (by omega) found
      · exact inj v w p (by omega) (by omega) (by omega) (by omega) (later low high found)
          (later low' high' found')
      · rintro _ s' ⟨own', free', st', releases'⟩
        have union : user.pages vpn 1 ∪ (user.remove vpn 1).pages (vpn + 1) pages =
            user.pages vpn (pages + 1) := by
          ext p
          constructor
          · rintro (⟨v, low, high, found⟩ | ⟨v, low, high, found⟩)
            · exact ⟨v, low, by omega, found⟩
            · exact ⟨v, by omega, by omega, later low high found⟩
          · rintro ⟨v, low, high, found⟩
            by_cases first : v = vpn
            · exact .inl ⟨v, by omega, by omega, found⟩
            · refine .inr ⟨v, by omega, by omega, ?_⟩
              rwa [UserMap.remove, if_neg (by omega)]
        have releases := releases₁.trans releases'
        rw [union] at releases
        rw [UserMap.remove_remove] at st'
        exact ⟨own', free', st', releases⟩

/-- `task_free_user_pages` on the first pages of the image. -/
theorem taskFreeUserPages_spec {pages : Nat} (below : pages ≤ 0xfff0)
    (st : SpaceState space root own free dir user s)
    (inUse : ∀ v p, 16 ≤ v → v < 16 + pages → user v = some p →
      own p ≠ .free ∧ own p ≠ .outside ∧ own p ≠ .table space)
    (inj : ∀ v w p, user v = some p → user w = some p → v = w) :
    wp (taskFreeUserPages root userTextBase (4096 * pages)) s (fun _ s' => ∃ own' free',
      SpaceState space root own' free' dir (user.remove 16 pages) s' ∧
      Releases {.free, .table space} (user.pages 16 pages) own s own' s') halt := by
  unfold taskFreeUserPages
  rw [show wadd userTextBase (4096 * pages) = 4096 * (16 + pages) by
    rw [wadd_of_lt] <;> simp only [userTextBase] <;> omega]
  exact taskFreeUserPagesLoop_spec (by unfold loopBound; omega) (by omega) st inUse
    fun v w p _ _ _ _ => inj v w p

end KuroOS
