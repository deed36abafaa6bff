import KuroOS.Memory.PageWalk

/-!
# Mapping and unmapping ranges

`pgtable_map` writes the entries of its range from the front until an entry is
present or a table is missing for which there is no page. The specification
says how many it wrote, that they were clear, why it stopped, and how many
pages the tables took.
-/

namespace KuroOS

open Base

/-- `flags | PTE_V` is the flags of a present entry. -/
theorem flags_valid {flags : Nat} (small : flags < 1024) :
    (flags ||| pteV) < 1024 ∧ (flags ||| pteV) % 2 = 1 := by
  refine ⟨Nat.or_lt_two_pow (n := 10) small (by decide), ?_⟩
  have bit : (flags ||| pteV).testBit 0 = true := by simp
  simpa only [Nat.testBit_zero, decide_eq_true_eq] using bit

/-- The entry of a page number is clear or a present leaf. -/
theorem SpaceTables.leafEntry {own : Nat → Owner} {mem : Mem} {space : Space} {root : Nat}
    {dir : Directory} (tables : SpaceTables own mem space root dir) (vpn : Nat) :
    LeafEntry (dir.leafAt mem vpn) := by
  unfold Directory.leafAt
  cases found : dir 0 (vpn / 512) with
  | none => exact .inl rfl
  | some p => exact tables.tree.leaf vpn p found

theorem LeafEntry.present_iff {pte : Nat} (entry : LeafEntry pte) : ptePresent pte = true ↔ pte ≠ 0 := by
  rcases entry with rfl | ⟨present, _⟩
  · simp
  · refine iff_of_true present ?_
    rintro rfl
    simp at present

/-- How many pages `[va, va + size)` touches. -/
def rangePages (va size : Nat) : Nat := (va + size + 4095) / 4096 - va / 4096

/-- The bounds that `pgtable_map` and `pgtable_unmap` compute. -/
theorem range_bounds {va size : Nat} (below : va + size ≤ 2 ^ 38) :
    alignDown va pageSize = 4096 * (va / 4096) ∧
      (alignUp (wadd va size) pageSize - alignDown va pageSize) / pageSize = rangePages va size := by
  rw [wadd_of_lt (by omega), alignDown_page (by omega), alignUp_page (by omega)]
  unfold rangePages
  simp only [pageSize]
  omega

variable [Layout]

variable {own : Nat → Owner} {free : List Nat} {s : Kernel} {space : Space} {root : Nat}
  {dir : Directory} {halt : Halt → Kernel → Prop}

/-- A missing slot has no entry. -/
theorem TableState.leafAt_of_slot_zero (st : TableState space root own free dir s) {vpn : Nat}
    (zero : dir.slot vpn = 0) : dir.leafAt s.mem vpn = 0 := by
  unfold Directory.slot at zero
  unfold Directory.leafAt
  split at zero
  · next q found =>
      have := (st.tables.page st.pool found).bounds
      omega
  · next found => rfl

/-- Rewriting the level-0 entry of one page number. -/
theorem TableState.setLeaf (st : TableState space root own free dir s) {vpn : Nat} (pte : Nat)
    (reached : dir.slot vpn ≠ 0) (entry : LeafEntry pte) (fits : pte < 2 ^ 64) :
    TableState space root own free dir { s with mem := s.mem.store (dir.slot vpn) 8 pte } ∧
      TableMoves space own s own { s with mem := s.mem.store (dir.slot vpn) 8 pte } ∧
      ∀ v, dir.leafAt (s.mem.store (dir.slot vpn) 8 pte) v =
        if v = vpn then pte else dir.leafAt s.mem v := by
  cases found : dir 0 (vpn / 512) with
  | none => simp [Directory.slot, found] at reached
  | some p =>
      have page := (st.tables.page st.pool found).bounds
      have ownP := st.tables.own_table found
      have slot : dir.slot vpn = p + 8 * (vpn % 512) := by simp [Directory.slot, found]
      rw [slot]
      have stored : ∀ x, pageOf x ≠ p → s.mem.store (p + 8 * (vpn % 512)) 8 pte x = s.mem x :=
        fun x other => Mem.store_of_outside (by
          by_contra touch
          exact other (pageOf_of_mem page.1 (by omega) (by omega)))
      have entries : ∀ {l k q : Nat}, dir l k = some q → ∀ i < 512,
          ¬ (l = 0 ∧ k = vpn / 512 ∧ i = vpn % 512) →
          (s.mem.store (p + 8 * (vpn % 512)) 8 pte).load (q + 8 * i) 8 = s.mem.load (q + 8 * i) 8 := by
        intro l k q here i low other
        refine Mem.load_store_of_disjoint ?_
        by_contra touch
        exact other (st.tables.tree.table_unique here found (st.tables.page st.pool here).1 page.1
          low (by omega) (by omega))
      have target : (s.mem.store (p + 8 * (vpn % 512)) 8 pte).load (p + 8 * (vpn % 512)) 8 = pte :=
        Mem.load_store_same fits
      refine ⟨⟨⟨⟨st.tables.tree.root_mem, st.tables.tree.shape, fun l k q low here => ?_,
        fun k q here => ?_, st.tables.tree.inj⟩, st.tables.owned⟩, ?_⟩, ⟨?_, rfl⟩, fun v => ?_⟩
      · rw [entries here (k % 512) (by omega) (by omega)]
        exact st.tables.tree.inner l k q low here
      · by_cases same : k = vpn
        · subst same
          rw [found] at here
          obtain rfl : p = q := by simpa using here
          rw [target]
          exact entry
        · rw [entries here (k % 512) (by omega) (by omega)]
          exact st.tables.tree.leaf k q here
      · refine st.pool.congr (fun x inside => stored x ?_) rfl
        rintro rfl
        rcases inside with isFree | ⟨low, high⟩
        · simp [ownP] at isFree
        · unfold pageOf at page
          omega
      · refine Moves.of_bytes fun x foreign _ => stored x ?_
        rintro rfl
        simp [ownP] at foreign
      · by_cases equal : v = vpn
        · subst equal
          rw [if_pos rfl, Directory.leafAt, found]
          exact target
        · rw [if_neg equal, Directory.leafAt, Directory.leafAt]
          cases here : dir 0 (v / 512) with
          | none => rfl
          | some q => exact entries here (v % 512) (by omega) (by omega)

/-- What `pgtable_map` has done when it returns `r`: the first `done` pages of
the range are mapped, nothing else has changed, and `r` tells why it stopped. -/
def MapOutcome (space : Space) (root flags pages vpn pa : Nat) (own : Nat → Owner)
    (free : List Nat) (dir : Directory) (s : Kernel) (r : Int) (s' : Kernel) : Prop :=
  ∃ own' free' dir' done, TableState space root own' free' dir' s' ∧
    TableMoves space own s own' s' ∧
    (∀ v, dir'.leafAt s'.mem v =
      if vpn ≤ v ∧ v < vpn + done then mkPte (wadd pa (4096 * (v - vpn))) (flags ||| pteV)
      else dir.leafAt s.mem v) ∧
    (∀ v, vpn ≤ v → v < vpn + done → dir.leafAt s.mem v = 0) ∧
    ((r = 0 ∧ done = pages ∧ dir'.reach = dir.reach.paths pages vpn ∧
        free.length = free'.length + dir.reach.need pages vpn) ∨
      (r = -1 ∧ done < pages ∧
        (dir.leafAt s.mem (vpn + done) ≠ 0 ∨ free.length < dir.reach.need (done + 1) vpn)))

/-- The loop of `pgtable_map` runs until its range is mapped, an entry is
present or a table is missing. -/
theorem pgtableMapLoop_spec {flags : Nat} (small : flags < 1024)
    (isLeaf : pteLeaf (flags ||| pteV) = true) {pages vpn pa : Nat} (below : vpn + pages ≤ 2 ^ 26)
    (fits : pa < 2 ^ 64) (st : TableState space root own free dir s) :
    wp (pgtableMapLoop root flags pages (4096 * vpn) pa) s
      (MapOutcome space root flags pages vpn pa own free dir s) halt := by
  obtain ⟨smallV, validV⟩ := flags_valid small
  induction pages generalizing vpn pa own free dir s with
  | zero =>
      rw [pgtableMapLoop, wp_pure]
      exact ⟨own, free, dir, 0, st, .refl, fun v => by rw [if_neg (by omega)], fun v _ _ => by omega,
        .inl ⟨rfl, rfl, rfl, rfl⟩⟩
  | succ pages ih =>
      have page : 4096 * vpn / 4096 = vpn := by omega
      rw [pgtableMapLoop]
      refine wp_bind_of (pgtableWalk_alloc st (by omega)) ?_
      rw [page]
      rintro pte s₁ ⟨own₁, free₁, dir₁, st₁, moves₁, leaves₁, reached | ⟨rfl, short⟩⟩
      · obtain ⟨nonzero, rfl, reach₁, count₁⟩ := reached
        have entry := st₁.tables.leafEntry vpn
        have value : s₁.mem.load (dir₁.slot vpn) 8 = dir.leafAt s.mem vpn :=
          (SpaceTables.leafAt_of_slot _ nonzero).trans (leaves₁ vpn)
        rw [leaves₁] at entry
        simp only [nonzero, if_false, wp_bind, wp_loadWord, wp_ite, value, wp_pure, wp_storeWord]
        split
        · next present =>
            refine ⟨own₁, free₁, dir₁, 0, st₁, moves₁, fun v => ?_, fun v _ _ => by omega,
              .inr ⟨rfl, by omega, .inl (by simpa using entry.present_iff.mp present)⟩⟩
            rw [if_neg (by omega)]
            exact leaves₁ v
        · next absent =>
            have clear : dir.leafAt s.mem vpn = 0 := by
              by_contra some
              exact absent (entry.present_iff.mpr some)
            obtain ⟨st₂, moves₂, leaves₂⟩ := st₁.setLeaf (mkPte pa (flags ||| pteV)) nonzero
              (.inr ⟨mkPte_present smallV validV, (mkPte_leaf smallV).trans isLeaf⟩)
              (mkPte_lt smallV fits)
            rw [show wadd (4096 * vpn) pageSize = 4096 * (vpn + 1) by
              rw [wadd_of_lt] <;> simp only [pageSize] <;> omega]
            refine wp_mono (ih (by omega) (wadd_lt _ _) st₂) ?_ fun _ _ => id
            rintro r s' ⟨own', free', dir', done, st', moves', leaves', clear', why⟩
            have before : ∀ v, dir₁.leafAt (s₁.mem.store (dir₁.slot vpn) 8
                (mkPte pa (flags ||| pteV))) v =
                if v = vpn then mkPte pa (flags ||| pteV) else dir.leafAt s.mem v := fun v => by
              rw [leaves₂ v, leaves₁ v]
            refine ⟨own', free', dir', done + 1, st', (moves₁.trans moves₂).trans moves',
              fun v => ?_, fun v low high => ?_, ?_⟩
            · rw [leaves' v, before v]
              rcases Nat.lt_trichotomy v vpn with lower | rfl | higher
              · rw [if_neg (by omega), if_neg (by omega), if_neg (by omega)]
              · rw [if_neg (by omega), if_pos rfl, if_pos (by omega), Nat.sub_self]
                rw [Nat.mul_zero, wadd_zero fits]
              · by_cases inside : v < vpn + 1 + done
                · rw [if_pos (by omega), if_pos (by omega)]
                  refine congrArg (mkPte · (flags ||| pteV)) ?_
                  simp only [wadd, pageSize]
                  omega
                · rw [if_neg (by omega), if_neg (by omega), if_neg (by omega)]
            · rcases Nat.eq_or_lt_of_le low with rfl | higher
              · exact clear
              · have := clear' v (by omega) (by omega)
                rwa [before v, if_neg (by omega)] at this
            · rcases why with ⟨rfl, rfl, reach', count'⟩ | ⟨rfl, short, stopped⟩
              · refine .inl ⟨rfl, rfl, ?_, ?_⟩
                · rw [reach', reach₁, Reach.paths]
                · rw [reach₁] at count'
                  rw [Reach.need]
                  omega
              · refine .inr ⟨rfl, by omega, ?_⟩
                rcases stopped with present | exhausted
                · left
                  rw [before, if_neg (by omega)] at present
                  rwa [show vpn + (done + 1) = vpn + 1 + done by omega]
                · right
                  rw [reach₁] at exhausted
                  rw [Reach.need]
                  omega
      · simp only [if_true, wp_pure]
        refine ⟨own₁, free₁, dir₁, 0, st₁, moves₁, fun v => ?_, fun v _ _ => by omega,
          .inr ⟨rfl, by omega, .inr ?_⟩⟩
        · rw [if_neg (by omega)]
          exact leaves₁ v
        · simpa [Reach.need] using short

/-- `pgtable_map` on a range below `MAXVA`. -/
theorem pgtableMap_spec {va pa size flags : Nat} (small : flags < 1024)
    (isLeaf : pteLeaf (flags ||| pteV) = true) (below : va + size ≤ 2 ^ 38) (nonempty : size ≠ 0)
    (aligned : pa % 4096 = 0) (fits : pa < 2 ^ 64) (st : TableState space root own free dir s) :
    wp (pgtableMap root va pa size flags) s
      (MapOutcome space root flags (rangePages va size) (va / 4096) pa own free dir s) halt := by
  have rootPage := (st.tables.page st.pool st.tables.tree.root_mem).bounds
  have rootNonzero : root ≠ 0 := by omega
  have paAligned : pageAligned pa = true := pageAligned_iff.mpr aligned
  obtain ⟨start, pages⟩ := range_bounds below
  unfold pgtableMap
  simp only [wp_bind, wp_kassert, ne_eq, rootNonzero, nonempty, not_false_eq_true, paAligned,
    if_true]
  rw [pages, start]
  refine pgtableMapLoop_spec small isLeaf ?_ fits st
  unfold rangePages
  omega

/-- The loop of `pgtable_unmap` clears its entries. -/
theorem pgtableUnmapLoop_spec {pages vpn : Nat} (below : vpn + pages ≤ 2 ^ 26)
    (mapped : ∀ v, vpn ≤ v → v < vpn + pages → dir.leafAt s.mem v ≠ 0)
    (st : TableState space root own free dir s) :
    wp (pgtableUnmapLoop root pages (4096 * vpn)) s (fun _ s' =>
      TableState space root own free dir s' ∧ TableMoves space own s own s' ∧
        ∀ v, dir.leafAt s'.mem v =
          if vpn ≤ v ∧ v < vpn + pages then 0 else dir.leafAt s.mem v) halt := by
  induction pages generalizing vpn s with
  | zero =>
      rw [pgtableUnmapLoop, wp_pure]
      exact ⟨st, .refl, fun v => by rw [if_neg (by omega)]⟩
  | succ pages ih =>
      have page : 4096 * vpn / 4096 = vpn := by omega
      have present := mapped vpn (by omega) (by omega)
      have nonzero : dir.slot vpn ≠ 0 := fun zero => present (st.leafAt_of_slot_zero zero)
      have value : s.mem.load (dir.slot vpn) 8 = dir.leafAt s.mem vpn :=
        SpaceTables.leafAt_of_slot _ nonzero
      rw [pgtableUnmapLoop]
      refine wp_bind_of (pgtableWalk_lookup st (by omega)) ?_
      rw [page]
      rintro pte s₁ ⟨rfl, rfl⟩
      obtain ⟨st', moves, leaves⟩ := st.setLeaf 0 nonzero (.inl rfl) (by decide)
      rcases st.tables.leafEntry vpn with zero | ⟨isPresent, isLeaf⟩
      · exact absurd zero present
      rw [← value] at isPresent isLeaf
      simp only [wp_bind, wp_kassert, ne_eq, nonzero, not_false_eq_true, if_true, wp_loadWord,
        isPresent, isLeaf, wp_storeWord]
      rw [show wadd (4096 * vpn) pageSize = 4096 * (vpn + 1) by
        rw [wadd_of_lt] <;> simp only [pageSize] <;> omega]
      refine wp_mono (ih (by omega) (fun v low high => ?_) st') ?_ fun _ _ => id
      · rw [leaves v, if_neg (by omega)]
        exact mapped v (by omega) (by omega)
      · rintro _ s' ⟨st'', moves', leaves'⟩
        refine ⟨st'', moves.trans moves', fun v => ?_⟩
        rw [leaves' v, leaves v]
        by_cases first : v = vpn
        · rw [if_neg (by omega), if_pos first, if_pos (by omega)]
        · by_cases inside : vpn + 1 ≤ v ∧ v < vpn + 1 + pages
          · rw [if_pos inside, if_pos (by omega)]
          · rw [if_neg inside, if_neg first, if_neg (by omega)]

/-- `pgtable_unmap` on a fully mapped range below `MAXVA`. -/
theorem pgtableUnmap_spec {va size : Nat} (below : va + size ≤ 2 ^ 38) (nonempty : size ≠ 0)
    (mapped : ∀ v, va / 4096 ≤ v → v < va / 4096 + rangePages va size → dir.leafAt s.mem v ≠ 0)
    (st : TableState space root own free dir s) :
    wp (pgtableUnmap root va size) s (fun _ s' =>
      TableState space root own free dir s' ∧ TableMoves space own s own s' ∧
        ∀ v, dir.leafAt s'.mem v =
          if va / 4096 ≤ v ∧ v < va / 4096 + rangePages va size then 0
          else dir.leafAt s.mem v) halt := by
  have rootPage := (st.tables.page st.pool st.tables.tree.root_mem).bounds
  have rootNonzero : root ≠ 0 := by omega
  obtain ⟨start, pages⟩ := range_bounds below
  unfold pgtableUnmap
  simp only [wp_bind, wp_kassert, ne_eq, rootNonzero, nonempty, not_false_eq_true, if_true]
  rw [pages, start]
  refine pgtableUnmapLoop_spec ?_ mapped st
  unfold rangePages
  omega

end KuroOS
