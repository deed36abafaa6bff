import KuroOS.Memory.PageMap
import KuroOS.Kernel.Vm

/-!
# Address spaces

An address space is the kernel's identity mapping of RAM and of the UART,
with user pages beside it. `SpaceState` says that a tree of tables holds exactly
that. `vm_map_kernel` builds the space without user pages, for which it takes 67
tables besides the root, and `pgtable_map` adds user pages to it one by one.
-/

namespace KuroOS

open Base

namespace Reach

variable {has : Reach} {vpn : Nat}

/-- What the paths to consecutive page numbers add. -/
theorem paths_apply (has : Reach) (pages vpn l k : Nat) : has.paths pages vpn l k = true ↔
    has l k = true ∨ ∃ v, vpn ≤ v ∧ v < vpn + pages ∧
      (l = 1 ∧ k = v / 512 / 512 ∨ l = 0 ∧ k = v / 512) := by
  induction pages generalizing has vpn with
  | zero =>
      simp only [paths, iff_self_or]
      rintro ⟨v, low, high, _⟩
      omega
  | succ pages ih =>
      rw [paths, ih]
      simp only [path, Bool.or_eq_true, Bool.and_eq_true, beq_iff_eq]
      constructor
      · rintro (((here | here) | here) | ⟨v, low, high, here⟩)
        · exact .inl here
        · exact .inr ⟨vpn, by omega, by omega, .inl here⟩
        · exact .inr ⟨vpn, by omega, by omega, .inr here⟩
        · exact .inr ⟨v, by omega, by omega, here⟩
      · rintro (here | ⟨v, low, high, here⟩)
        · exact .inl (.inl (.inl here))
        · by_cases first : v = vpn
          · subst first
            rcases here with here | here
            · exact .inl (.inl (.inr here))
            · exact .inl (.inr here)
          · exact .inr ⟨v, by omega, by omega, here⟩

theorem need_add (has : Reach) (m n vpn : Nat) :
    has.need (m + n) vpn = has.need m vpn + (has.paths m vpn).need n (vpn + m) := by
  induction m generalizing has vpn with
  | zero => simp [need, paths]
  | succ m ih =>
      rw [show m + 1 + n = m + n + 1 by omega, need, ih, need, paths,
        show vpn + 1 + m = vpn + (m + 1) by omega, Nat.add_assoc]

theorem need_mono (has : Reach) (vpn : Nat) {m n : Nat} (le : m ≤ n) : has.need m vpn ≤ has.need n vpn := by
  obtain ⟨k, rfl⟩ := Nat.exists_eq_add_of_le le
  rw [need_add]
  omega

/-- Pages whose tables are all there need none. -/
theorem need_zero {pages : Nat} (there : ∀ v, vpn ≤ v → v < vpn + pages →
    has 1 (v / 512 / 512) = true ∧ has 0 (v / 512) = true) : has.need pages vpn = 0 := by
  induction pages generalizing has vpn with
  | zero => rfl
  | succ pages ih =>
      obtain ⟨upper, lower⟩ := there vpn (by omega) (by omega)
      have rest : (has.path vpn).need pages (vpn + 1) = 0 := ih fun v low high => by
        obtain ⟨upper, lower⟩ := there v (by omega) (by omega)
        exact ⟨by simp [path, upper], by simp [path, lower]⟩
      rw [need, rest, missing, if_pos upper, if_pos lower]

/-- The 512 pages of one level-0 table need what the first of them lacks. -/
theorem need_chunk (has : Reach) (aligned : vpn % 512 = 0) : has.need 512 vpn = has.missing vpn := by
  have rest : (has.path vpn).need 511 (vpn + 1) = 0 := need_zero fun v low high => by
    have lower : v / 512 = vpn / 512 := by omega
    simp [path, lower]
  rw [show 512 = 511 + 1 from rfl, need, rest, Nat.add_zero]

/-- Consecutive level-0 tables under one level-1 table: each is needed. -/
theorem need_chunks (has : Reach) {chunks : Nat} (aligned : vpn % 512 = 0)
    (oneGiB : vpn / 512 % 512 + chunks ≤ 512) (upper : has 1 (vpn / 512 / 512) = true)
    (lower : ∀ k, vpn / 512 ≤ k → has 0 k = false) : has.need (512 * chunks) vpn = chunks := by
  induction chunks generalizing has vpn with
  | zero => rfl
  | succ chunks ih =>
      rw [show 512 * (chunks + 1) = 512 + 512 * chunks by omega, need_add, need_chunk has aligned]
      have first : has.missing vpn = 1 := by
        rw [missing, if_pos upper, lower _ (Nat.le_refl _)]
        rfl
      have rest : (has.paths 512 vpn).need (512 * chunks) (vpn + 512) = chunks := by
        by_cases none : chunks = 0
        · subst none
          rfl
        refine ih _ (by omega) (by omega) ?_ fun k above => ?_
        · rw [show (vpn + 512) / 512 / 512 = vpn / 512 / 512 by omega]
          exact (paths_apply has 512 vpn _ _).mpr (.inl upper)
        · rw [← Bool.not_eq_true, paths_apply]
          rintro (here | ⟨v, low, high, here⟩)
          · rw [lower k (by omega)] at here
            exact Bool.false_ne_true here
          · omega
      rw [first, rest]
      omega

end Reach

/-- The tables of a directory with the kernel mapped. -/
def kernelReach (root : Nat) : Reach :=
  ((Directory.single root).reach.paths 32768 0x80000).path 0x10000

/-- A root alone reaches no table below it. -/
theorem single_reach (root : Nat) {l k : Nat} (lower : l < 2) :
    (Directory.single root).reach l k = false := by
  unfold Directory.reach Directory.single
  rw [if_neg (by omega)]
  rfl

/-- RAM takes one level-1 table and 64 level-0 tables. -/
theorem need_ram (root : Nat) : (Directory.single root).reach.need 32768 0x80000 = 65 := by
  rw [show 32768 = 512 + 512 * 63 from rfl, Reach.need_add, Reach.need_chunk _ (by decide)]
  have first : (Directory.single root).reach.missing 0x80000 = 2 := by
    rw [Reach.missing, single_reach root (by omega), single_reach root (by omega)]
    rfl
  rw [first, Reach.need_chunks _ (by decide) (by decide) ?_ fun k above => ?_]
  · exact (Reach.paths_apply _ _ _ _ _).mpr (.inr ⟨0x80000, by omega, by omega, .inl ⟨rfl, rfl⟩⟩)
  · rw [← Bool.not_eq_true, Reach.paths_apply]
    rintro (here | ⟨v, low, high, here⟩)
    · rw [single_reach root (by omega)] at here
      exact Bool.false_ne_true here
    · omega

/-- The UART takes one table of each level. -/
theorem need_uart (root : Nat) :
    ((Directory.single root).reach.paths 32768 0x80000).missing 0x10000 = 2 := by
  have absent : ∀ l < 2, ∀ k < 1024, (l = 1 → k < 2) →
      ((Directory.single root).reach.paths 32768 0x80000) l k = false := fun l low k small upper => by
    rw [← Bool.not_eq_true, Reach.paths_apply]
    rintro (here | ⟨v, _, _, here⟩)
    · rw [single_reach root low] at here
      exact Bool.false_ne_true here
    · omega
  rw [Reach.missing, absent 1 (by omega) _ (by omega) (by omega),
    absent 0 (by omega) _ (by omega) (by omega)]
  rfl

/-- The page numbers that the kernel maps to themselves. -/
def KernelVpn (v : Nat) : Prop := (0x80000 ≤ v ∧ v < 0x88000) ∨ v = 0x10000

instance (v : Nat) : Decidable (KernelVpn v) := inferInstanceAs (Decidable (_ ∨ _))

/-- The entry of a page number in a space without user pages. -/
def kernelEntry (v : Nat) : Nat :=
  if 0x80000 ≤ v ∧ v < 0x88000 then mkPte (4096 * v) (pageKernel ||| pteV)
  else if v = 0x10000 then mkPte (4096 * v) (pageDevice ||| pteV)
  else 0

/-- The user pages of a space: page numbers to physical pages. -/
abbrev UserMap := Nat → Option Nat

/-- The flags of every user page. -/
@[simp] abbrev userFlags : Nat := pageUser ||| pteV

/-- The entry of a page number in a space. -/
def spaceEntry (user : UserMap) (v : Nat) : Nat :=
  match user v with
  | some p => mkPte p userFlags
  | none => kernelEntry v

/-- Add a user page. -/
def UserMap.add (user : UserMap) (vpn page : Nat) : UserMap := Function.update user vpn (some page)

/-- Remove the user pages of a range. -/
def UserMap.remove (user : UserMap) (vpn pages : Nat) : UserMap := fun v =>
  if vpn ≤ v ∧ v < vpn + pages then none else user v

theorem kernelEntry_eq_zero {v : Nat} (outside : ¬ KernelVpn v) : kernelEntry v = 0 := by
  unfold KernelVpn at outside
  unfold kernelEntry
  rw [if_neg (by omega), if_neg (by omega)]

theorem mkPte_ne_zero {pa flags : Nat} (small : flags < 1024) (nonzero : flags ≠ 0) :
    mkPte pa flags ≠ 0 := by
  rw [mkPte_eq small]
  omega

theorem kernelEntry_ne_zero {v : Nat} (inside : KernelVpn v) : kernelEntry v ≠ 0 := by
  unfold KernelVpn at inside
  unfold kernelEntry
  split
  · exact mkPte_ne_zero (by decide) (by decide)
  · rw [if_pos (by omega)]
    exact mkPte_ne_zero (by decide) (by decide)

theorem spaceEntry_eq_zero {user : UserMap} {v : Nat} :
    spaceEntry user v = 0 ↔ user v = none ∧ ¬ KernelVpn v := by
  unfold spaceEntry
  cases user v with
  | some p => simpa using mkPte_ne_zero (by decide) (by decide)
  | none =>
      simp only [true_and]
      exact ⟨fun zero inside => kernelEntry_ne_zero inside zero, kernelEntry_eq_zero⟩

theorem rangePages_page {vpn : Nat} : rangePages (4096 * vpn) 4096 = 1 := by
  unfold rangePages
  omega

/-- A root that has just been cleared maps nothing. -/
theorem Directory.leafAt_single (root : Nat) (mem : Mem) (v : Nat) :
    (Directory.single root).leafAt mem v = 0 := by
  unfold leafAt single
  rw [if_neg (by omega)]

variable [Layout]

/-- Tables that hold an address space. -/
structure SpaceState (space : Space) (root : Nat) (own : Nat → Owner) (free : List Nat)
    (dir : Directory) (user : UserMap) (s : Kernel) : Prop where
  table : TableState space root own free dir s
  leaves : ∀ v, dir.leafAt s.mem v = spaceEntry user v
  plain : ∀ v, KernelVpn v → user v = none

variable {own : Nat → Owner} {free : List Nat} {s : Kernel} {space : Space} {root : Nat}
  {dir : Directory} {user : UserMap} {halt : Halt → Kernel → Prop}

/-- `vm_map_kernel` on a fresh root. -/
theorem vmMapKernel_spec (st : TableState space root own free (.single root) s) :
    wp (vmMapKernel root) s (fun r s' => ∃ own' free' dir', TableState space root own' free' dir' s' ∧
      TableMoves space own s own' s' ∧
      ((r = 0 ∧ SpaceState space root own' free' dir' (fun _ => none) s' ∧
          dir'.reach = kernelReach root ∧ free.length = free'.length + 67) ∨
        (r ≠ 0 ∧ free.length < 67))) halt := by
  have rootPage := (st.tables.page st.pool st.tables.tree.root_mem).bounds
  have rootNonzero : root ≠ 0 := by omega
  have ramPages : rangePages ramBase (ramEnd - ramBase) = 32768 := by decide
  have ramVpn : ramBase / 4096 = 0x80000 := by decide
  have uartPages : rangePages uartBase pageSize = 1 := by decide
  have uartVpn : uartBase / 4096 = 0x10000 := by decide
  have ram := need_ram root
  have uart := need_uart root
  unfold vmMapKernel
  simp only [wp_bind, wp_kassert, ne_eq, rootNonzero, not_false_eq_true, if_true, wp_ite, wp_pure]
  refine wp_mono (pgtableMap_spec (by decide) (by decide) (by decide) (by decide) (by decide)
    (by decide) st) ?_ fun _ _ => id
  rw [ramPages, ramVpn]
  -- the number of pages stays a name, so that nothing computes with it
  obtain ⟨pages, count⟩ : ∃ pages, pages = 32768 := ⟨_, rfl⟩
  rw [← count] at ram uart ⊢
  rintro r s₁ ⟨own₁, free₁, dir₁, done, st₁, moves₁, leaves₁, _, outcome⟩
  rcases outcome with ⟨rfl, rfl, reach₁, count₁⟩ | ⟨rfl, proper, stopped⟩
  · simp only [not_true_eq_false, if_false]
    refine wp_mono (pgtableMap_spec (by decide) (by decide) (by decide) (by decide) (by decide)
      (by decide) st₁) ?_ fun _ _ => id
    rw [uartPages, uartVpn]
    rintro r s₂ ⟨own₂, free₂, dir₂, done, st₂, moves₂, leaves₂, _, outcome⟩
    have need : dir₁.reach.need 1 0x10000 = 2 := by
      rw [reach₁, Reach.need, Reach.need, Nat.add_zero]
      exact uart
    rcases outcome with ⟨rfl, rfl, reach₂, count₂⟩ | ⟨rfl, proper, stopped⟩
    · simp only [not_true_eq_false, if_false]
      refine ⟨own₂, free₂, dir₂, st₂, moves₁.trans moves₂,
        .inl ⟨trivial, ⟨st₂, fun v => ?_, fun _ _ => rfl⟩, ?_, by omega⟩⟩
      · rw [leaves₂ v, leaves₁ v, Directory.leafAt_single, spaceEntry, kernelEntry]
        by_cases inRam : 0x80000 ≤ v ∧ v < 0x88000
        · rw [if_neg (by omega), if_pos (by omega), if_pos inRam, wadd_of_lt (by omega)]
          refine congrArg (mkPte · (pageKernel ||| pteV)) ?_
          simp only [ramBase]
          omega
        · rw [if_neg inRam]
          by_cases isUart : v = 0x10000
          · subst isUart
            rfl
          · rw [if_neg (by omega), if_neg (by omega), if_neg isUart]
      · rw [reach₂, Reach.paths, Reach.paths, reach₁, count, kernelReach]
    · obtain rfl : done = 0 := by omega
      have exhausted : free₁.length < dir₁.reach.need 1 0x10000 := by
        refine stopped.resolve_left fun present => present ?_
        rw [leaves₁, Directory.leafAt_single, if_neg (by omega)]
      exact ⟨own₂, free₂, dir₂, st₂, moves₁.trans moves₂, .inr ⟨by simp, by omega⟩⟩
  · have exhausted : free.length < (Directory.single root).reach.need (done + 1) 0x80000 :=
      stopped.resolve_left fun present => present (Directory.leafAt_single _ _ _)
    have below := Reach.need_mono (Directory.single root).reach 0x80000
      (show done + 1 ≤ pages by omega)
    simp only [Int.reduceNeg, Int.reduceEq, not_false_eq_true, if_true]
    exact ⟨own₁, free₁, dir₁, st₁, moves₁, .inr ⟨by simp, by omega⟩⟩

/-- `pgtable_map` of one user page. -/
theorem SpaceState.map (st : SpaceState space root own free dir user s) {vpn page flags : Nat}
    (below : vpn < 2 ^ 26) (isUser : flags = pageUser) (valid : PoolPage page) :
    wp (pgtableMap root (4096 * vpn) page pageSize flags) s (fun r s' => ∃ own' free' dir',
      TableMoves space own s own' s' ∧
      ((r = 0 ∧ user vpn = none ∧ ¬ KernelVpn vpn ∧
          SpaceState space root own' free' dir' (user.add vpn page) s' ∧
          dir'.reach = dir.reach.path vpn ∧ free.length = free'.length + dir.reach.missing vpn) ∨
        (r ≠ 0 ∧ SpaceState space root own' free' dir' user s' ∧
          (user vpn ≠ none ∨ KernelVpn vpn ∨ free.length < dir.reach.missing vpn)))) halt := by
  subst isUser
  have bounds := valid.bounds
  refine wp_mono (pgtableMap_spec (by decide) (by decide) (by simp only [pageSize]; omega) (by decide)
    bounds.1 (by omega) st.table) ?_ fun _ _ => id
  have vpnOf : 4096 * vpn / 4096 = vpn := by omega
  rw [show rangePages (4096 * vpn) pageSize = 1 from rangePages_page, vpnOf]
  rintro r s' ⟨own', free', dir', done, st', moves, leaves, clear, outcome⟩
  refine ⟨own', free', dir', moves, ?_⟩
  rcases outcome with ⟨rfl, rfl, reach, count⟩ | ⟨rfl, proper, stopped⟩
  · obtain ⟨absent, foreign⟩ := spaceEntry_eq_zero.mp
      ((st.leaves vpn).symm.trans (clear vpn (by omega) (by omega)))
    refine .inl ⟨rfl, absent, foreign, ⟨st', fun v => ?_, fun v inside => ?_⟩, reach, by simpa [Reach.need] using count⟩
    · rw [leaves v, st.leaves v]
      by_cases here : v = vpn
      · subst here
        rw [if_pos (by omega), Nat.sub_self, Nat.mul_zero, wadd_zero (by omega)]
        simp [spaceEntry, UserMap.add]
      · rw [if_neg (by omega)]
        simp [spaceEntry, UserMap.add, here]
    · have other : v ≠ vpn := fun equal => foreign (equal ▸ inside)
      rw [UserMap.add, Function.update_of_ne other]
      exact st.plain v inside
  · obtain rfl : done = 0 := by omega
    refine .inr ⟨by decide, ⟨st', fun v => ?_, st.plain⟩, ?_⟩
    · rw [leaves v, if_neg (by omega)]
      exact st.leaves v
    · rcases stopped with present | exhausted
      · rw [Nat.add_zero, st.leaves vpn, ne_eq, spaceEntry_eq_zero] at present
        by_cases absent : user vpn = none
        · exact .inr (.inl (by simpa [absent] using present))
        · exact .inl absent
      · exact .inr (.inr (by simpa [Reach.need] using exhausted))

end KuroOS
