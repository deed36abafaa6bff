import KuroOS.Memory.PageFree
import KuroOS.Memory.PageUse

/-!
# A page table refines a flat map

The flat map takes a virtual page number to a physical address and flags.
`FlatStep` says how the calls of `pgtable.c` change it, with the one freedom
that the code leaves: how much of its range a failed `pgtable_map` has added.
`TableRun` is a run of the code, in which other kernel code takes pages, writes
in them and gives them back between the calls, so that a call may run out of
pages at any of its allocations.
-/

namespace KuroOS

open Base

/-- Virtual page numbers to physical address and flags. -/
abbrev FlatMap := Nat → Option (Nat × Nat)

namespace FlatMap

/-- Map `pages` consecutive pages. A table entry keeps 44 bits of page number,
which is where the remainder comes from. -/
def add (flat : FlatMap) (vpn pages pa flags : Nat) : FlatMap := fun v =>
  if vpn ≤ v ∧ v < vpn + pages then some ((pa + pageSize * (v - vpn)) % 2 ^ 56, flags ||| pteV)
  else flat v

/-- Unmap `pages` consecutive pages. -/
def remove (flat : FlatMap) (vpn pages : Nat) : FlatMap := fun v =>
  if vpn ≤ v ∧ v < vpn + pages then none else flat v

end FlatMap

/-- A call on the page table, with what it returned, or a step of other code. -/
inductive TableEvent where
  | map (va pa size flags : Nat) (result : Int)
  | unmap (va size : Nat)
  | other
deriving DecidableEq, Repr

/-- The arguments of `pgtable_map` in question. -/
structure MapArgs (va pa size flags : Nat) : Prop where
  nonempty : size ≠ 0
  below : va + size ≤ maxVa
  aligned : pa % pageSize = 0
  physical : pa < 2 ^ 56
  small : flags < 2 ^ 10
  leaf : pteLeaf flags = true

/-- How a call changes the flat map. -/
inductive FlatStep (flat : FlatMap) : TableEvent → FlatMap → Prop where
  | mapped {va pa size flags : Nat}
      (clear : ∀ v, va / pageSize ≤ v → v < va / pageSize + rangePages va size → flat v = none) :
      FlatStep flat (.map va pa size flags 0)
        (flat.add (va / pageSize) (rangePages va size) pa flags)
  | failed {va pa size flags done : Nat} (proper : done < rangePages va size)
      (clear : ∀ v, va / pageSize ≤ v → v < va / pageSize + done → flat v = none) :
      FlatStep flat (.map va pa size flags (-1)) (flat.add (va / pageSize) done pa flags)
  | unmapped {va size : Nat} :
      FlatStep flat (.unmap va size) (flat.remove (va / pageSize) (rangePages va size))
  | other : FlatStep flat .other flat

/-- The flat maps that a list of calls, newest first, can lead to. -/
inductive FlatRun : List TableEvent → FlatMap → Prop where
  | start : FlatRun [] fun _ => none
  | step {events : List TableEvent} {event : TableEvent} {flat flat' : FlatMap}
      (before : FlatRun events flat) (change : FlatStep flat event flat') :
      FlatRun (event :: events) flat'

/-- What an entry translates to. -/
def entryOf (pte : Nat) : Option (Nat × Nat) :=
  if ptePresent pte then some (pteToPa pte, pteFlags pte) else none

/-- The flat map that a directory and its tables stand for. -/
def Directory.flat (dir : Directory) (mem : Mem) : FlatMap := fun v => entryOf (dir.leafAt mem v)

/-- The entries `pgtable_map` writes are those the flat map adds. -/
theorem Directory.flat_add {dir dir' : Directory} {mem mem' : Mem} {va pa size flags done : Nat}
    (args : MapArgs va pa size flags)
    (leaves : ∀ v, dir'.leafAt mem' v =
      if va / 4096 ≤ v ∧ v < va / 4096 + done then
        mkPte (wadd pa (4096 * (v - va / 4096))) (flags ||| pteV)
      else dir.leafAt mem v) :
    dir'.flat mem' = (dir.flat mem).add (va / pageSize) done pa flags := by
  obtain ⟨small, valid⟩ := flags_valid args.small
  funext v
  simp only [Directory.flat, FlatMap.add, leaves v]
  by_cases inside : va / 4096 ≤ v ∧ v < va / 4096 + done
  · rw [if_pos inside, if_pos inside]
    have aligned := args.aligned
    simp only [pageSize] at aligned
    have remainder : wadd pa (4096 * (v - va / 4096)) % 2 ^ 56 =
        (pa + 4096 * (v - va / 4096)) % 2 ^ 56 := by
      unfold wadd
      omega
    rw [entryOf, if_pos (mkPte_present small valid), mkPte_flags small, mkPte_pa small, remainder]
    unfold wadd
    omega
  · rw [if_neg inside, if_neg inside]

/-- The entries `pgtable_unmap` clears are those the flat map removes. -/
theorem Directory.flat_remove {dir : Directory} {mem mem' : Mem} {va size : Nat}
    (leaves : ∀ v, dir.leafAt mem' v =
      if va / 4096 ≤ v ∧ v < va / 4096 + rangePages va size then 0 else dir.leafAt mem v) :
    dir.flat mem' = (dir.flat mem).remove (va / pageSize) (rangePages va size) := by
  funext v
  simp only [Directory.flat, FlatMap.remove, leaves v]
  by_cases inside : va / 4096 ≤ v ∧ v < va / 4096 + rangePages va size
  · rw [if_pos inside, if_pos inside]
    rfl
  · rw [if_neg inside, if_neg inside]

/-- A page without translation has a clear entry. -/
theorem Directory.flat_none {own : Nat → Owner} {mem : Mem} {root : Nat} {dir : Directory}
    (tables : SpaceTables own mem .kernel root dir) {v : Nat} :
    dir.flat mem v = none ↔ dir.leafAt mem v = 0 := by
  have present := (tables.leafEntry v).present_iff
  unfold Directory.flat entryOf
  by_cases zero : dir.leafAt mem v = 0
  · simp [zero]
  · simp [zero, present]

section

variable [Layout]

/-- `pgtable_walk(root, va, 0)` followed by `pte_to_pa` and `pte_flags`. -/
def translate (root va : Nat) : K (Option (Nat × Nat)) := do
  let pte ← pgtableWalk root va false
  if pte = 0 then
    return none
  else
    let value ← loadWord pte
    if ptePresent value then
      return some (pteToPa value, pteFlags value)
    else
      return none

/-- Every lookup gives what the flat map says. -/
def Agrees (root : Nat) (flat : FlatMap) (s : Kernel) : Prop :=
  ∀ va < maxVa, translate root va s = .ok (flat (va / pageSize)) s

/-- Runs of the calls on one page table, newest call first. -/
inductive TableRun (root : Nat) : List TableEvent → List Nat → Kernel → Prop where
  | create {held : List Nat} {s s' : Kernel} (before : PageRun held s)
      (returned : pgtableCreate s = .ok root s') (success : root ≠ 0) : TableRun root [] held s'
  | map {events : List TableEvent} {held : List Nat} {s s' : Kernel} {va pa size flags : Nat}
      {result : Int} (before : TableRun root events held s) (args : MapArgs va pa size flags)
      (returned : pgtableMap root va pa size flags s = .ok result s') :
      TableRun root (.map va pa size flags result :: events) held s'
  | unmap {events : List TableEvent} {held : List Nat} {s s' : Kernel} {va size : Nat}
      (before : TableRun root events held s) (nonempty : size ≠ 0) (below : va + size ≤ maxVa)
      (mapped : ∀ v, va / pageSize ≤ v → v < va / pageSize + rangePages va size →
        ∃ entry, translate root (pageSize * v) s = .ok (some entry) s)
      (returned : pgtableUnmap root va size s = .ok () s') :
      TableRun root (.unmap va size :: events) held s'
  | other {events : List TableEvent} {held held' : List Nat} {s s' : Kernel}
      (before : TableRun root events held s) (change : PageStep held s held' s') :
      TableRun root (.other :: events) held' s'

/-- The invariant of `TableRun`. -/
structure TableInv (root : Nat) (flat : FlatMap) (held : List Nat) (own : Nat → Owner)
    (free : List Nat) (dir : Directory) (s : Kernel) : Prop where
  tables : SpaceTables own s.mem .kernel root dir
  holds : HeldPages own free held s
  map : flat = dir.flat s.mem

variable {own : Nat → Owner} {free held held' : List Nat} {s s' : Kernel} {root : Nat}
  {dir : Directory} {flat : FlatMap} {halt : Halt → Kernel → Prop}

/-- Page tables and held pages are apart. -/
theorem HeldPages.tableMoves {own' : Nat → Owner} {free' : List Nat}
    (holds : HeldPages own free held s) (pool : Pool own' free' s')
    (moves : TableMoves .kernel own s own' s') : HeldPages own' free' held s' where
  pool := pool
  distinct := holds.distinct
  owned p member := (moves.moves.own_iff (by simp) p).mpr (holds.owned p member)

/-- `translate` computes the flat map of the directory. -/
theorem translate_spec (st : TableState .kernel root own free dir s) : Agrees root (dir.flat s.mem) s := by
  intro va below
  have total : wp (translate root va) s
      (fun r s' => r = dir.flat s.mem (va / 4096) ∧ s' = s) fun _ _ => False := by
    unfold translate
    refine wp_bind_of (pgtableWalk_lookup st below) ?_
    rintro pte t ⟨rfl, rfl⟩
    by_cases zero : dir.slot (va / 4096) = 0
    · have missing : dir.leafAt t.mem (va / 4096) = 0 := st.leafAt_of_slot_zero zero
      simp [zero, Directory.flat, missing, entryOf]
    · have value := SpaceTables.leafAt_of_slot t.mem zero
      simp only [zero, if_false, wp_bind, wp_loadWord, value, wp_ite, wp_pure, Directory.flat,
        entryOf]
      split <;> exact ⟨rfl, trivial⟩
  obtain ⟨r, s', returned, rfl, rfl⟩ := wp_total total
  exact returned

/-- `pgtable_map` returns, and changes the flat map by a step. -/
theorem TableInv.map_spec (inv : TableInv root flat held own free dir s) {va pa size flags : Nat}
    (args : MapArgs va pa size flags) :
    wp (pgtableMap root va pa size flags) s (fun r s' => (r = 0 ∨ r = -1) ∧
      ∃ flat' own' free' dir', FlatStep flat (.map va pa size flags r) flat' ∧
        TableInv root flat' held own' free' dir' s') halt := by
  have isLeaf : pteLeaf (flags ||| pteV) = true := by
    have := args.leaf
    simp only [pteLeaf, bne_iff_ne, ne_eq] at this ⊢
    rw [Nat.and_or_distrib_right]
    simpa using this
  have fits : pa < 2 ^ 64 := Nat.lt_trans args.physical (by decide)
  refine wp_mono (pgtableMap_spec args.small isLeaf args.below args.nonempty args.aligned fits
    ⟨inv.tables, inv.holds.pool⟩) ?_ fun _ _ => id
  rintro r s' ⟨own', free', dir', done, st, moves, leaves, clear, why⟩
  have clear' : ∀ v, va / pageSize ≤ v → v < va / pageSize + done → flat v = none :=
    fun v low high => by
      rw [inv.map, Directory.flat_none inv.tables]
      exact clear v low high
  have after : TableInv root (flat.add (va / pageSize) done pa flags) held own' free' dir' s' :=
    ⟨st.tables, inv.holds.tableMoves st.pool moves, by
      rw [inv.map, Directory.flat_add args leaves]⟩
  rcases why with ⟨rfl, rfl, _⟩ | ⟨rfl, proper, _⟩
  · exact ⟨.inl rfl, _, own', free', dir', .mapped clear', after⟩
  · exact ⟨.inr rfl, _, own', free', dir', .failed proper clear', after⟩

/-- `pgtable_unmap` on mapped pages returns, and changes the flat map by a step. -/
theorem TableInv.unmap_spec (inv : TableInv root flat held own free dir s) {va size : Nat}
    (nonempty : size ≠ 0) (below : va + size ≤ maxVa)
    (mapped : ∀ v, va / pageSize ≤ v → v < va / pageSize + rangePages va size → flat v ≠ none) :
    wp (pgtableUnmap root va size) s (fun _ s' =>
      TableInv root (flat.remove (va / pageSize) (rangePages va size)) held own free dir s')
      halt := by
  refine wp_mono (pgtableUnmap_spec below nonempty (fun v low high => ?_)
    ⟨inv.tables, inv.holds.pool⟩) ?_ fun _ _ => id
  · have := mapped v low high
    rwa [inv.map, ne_eq, Directory.flat_none inv.tables] at this
  · rintro _ s' ⟨st, moves, leaves⟩
    exact ⟨st.tables, inv.holds.tableMoves st.pool moves, by
      rw [inv.map, Directory.flat_remove leaves]⟩

/-- Lookups in a state of the invariant. -/
theorem TableInv.agrees (inv : TableInv root flat held own free dir s) : Agrees root flat s :=
  inv.map ▸ translate_spec ⟨inv.tables, inv.holds.pool⟩

/-- `pgtable_create` makes a page table without translations. -/
theorem HeldPages.create_spec (holds : HeldPages own free held s)
    (noTable : ∀ q, own q ≠ .table .kernel) :
    wp pgtableCreate s (fun root s' => (free = [] ∧ root = 0) ∨ ∃ rest, free = root :: rest ∧
      ∃ own', TableInv root (fun _ => none) held own' rest (.single root) s') halt := by
  refine wp_mono (pgtableCreate_spec holds.pool (o := .table .kernel) (by simp)) ?_ fun _ _ => id
  rintro root s' (⟨empty, zero, _⟩ | ⟨rest, shape, page, wasFree, pool, moves, clear⟩)
  · exact .inl ⟨empty, zero⟩
  have clearEntries : ∀ i < 512, s'.mem.load (root + 8 * i) 8 = 0 := fun i low =>
    Mem.load_zero fun x first last => clear x (by omega) (by omega)
  refine .inr ⟨rest, shape, _, .single (fun q => ?_) clearEntries,
    ⟨pool, holds.distinct, fun p member => ?_⟩, ?_⟩
  · by_cases equal : q = root
    · simp [equal]
    · simp [equal, noTable q]
  · rw [Function.update_of_ne, holds.owned p member]
    rintro rfl
    simp [holds.owned p member] at wasFree
  · funext v
    simp [Directory.flat, Directory.leafAt, Directory.single, entryOf]

/-- Every run of the code is a run of the flat map, and they agree. -/
theorem TableRun.inv {events : List TableEvent} (run : TableRun root events held s) :
    ∃ flat own free dir, FlatRun events flat ∧ TableInv root flat held own free dir s := by
  induction run with
  | create before returned success =>
      obtain ⟨own, free, holds, uses⟩ := before.inv
      have noTable : ∀ q, own q ≠ .table .kernel := fun q => by
        rcases uses q with here | here | here <;> simp [here]
      rcases wp_returned (holds.create_spec noTable) returned with
        ⟨_, zero⟩ | ⟨rest, _, own', inv⟩
      · exact absurd zero success
      · exact ⟨_, own', rest, _, .start, inv⟩
  | map before args returned ih =>
      obtain ⟨flat, own, free, dir, flatRun, inv⟩ := ih
      obtain ⟨_, flat', own', free', dir', change, inv'⟩ :=
        wp_returned (inv.map_spec args) returned
      exact ⟨flat', own', free', dir', flatRun.step change, inv'⟩
  | unmap before nonempty below mapped returned ih =>
      obtain ⟨flat, own, free, dir, flatRun, inv⟩ := ih
      have isMapped : ∀ v, _ → _ → flat v ≠ none := fun v low high => by
        obtain ⟨entry, found⟩ := mapped v low high
        have inRange : pageSize * v < maxVa := by
          unfold rangePages at high
          simp only [pageSize, maxVa] at *
          omega
        have agreed := inv.agrees (pageSize * v) inRange
        rw [found, show pageSize * v / pageSize = v by simp only [pageSize]; omega] at agreed
        simp only [EStateM.Result.ok.injEq, and_true] at agreed
        simp [← agreed]
      have inv' := wp_returned (inv.unmap_spec nonempty below isMapped) returned
      exact ⟨_, own, free, dir, flatRun.step .unmapped, inv'⟩
  | other before change ih =>
      obtain ⟨flat, own, free, dir, flatRun, inv⟩ := ih
      obtain ⟨own', free', holds', moves⟩ := inv.holds.step change
      obtain ⟨tables, leaves⟩ := inv.tables.moves inv.holds.pool moves (by simp) (by simp)
      refine ⟨flat, own', free', dir, flatRun.step .other, tables, holds', ?_⟩
      rw [inv.map]
      funext v
      simp only [Directory.flat, leaves v]

/-- The page table refines the flat map: after any run, every lookup returns
what the map has, a further call returns without a failed assertion and changes
the map as its result says, and a range that is mapped and unmapped again
leaves the map as it was. -/
theorem pgtable_refines_flat_map {events : List TableEvent} (run : TableRun root events held s) :
    ∃ flat, FlatRun events flat ∧ Agrees root flat s ∧
      (∀ va pa size flags, MapArgs va pa size flags →
        ∃ result s' flat', pgtableMap root va pa size flags s = .ok result s' ∧
          (result = 0 ∨ result = -1) ∧ FlatStep flat (.map va pa size flags result) flat' ∧
          Agrees root flat' s' ∧
          (result = 0 → ∃ s'', pgtableUnmap root va size s' = .ok () s'' ∧ Agrees root flat s'')) ∧
      (∀ va size, size ≠ 0 → va + size ≤ maxVa →
        (∀ v, va / pageSize ≤ v → v < va / pageSize + rangePages va size → flat v ≠ none) →
        ∃ s', pgtableUnmap root va size s = .ok () s' ∧
          Agrees root (flat.remove (va / pageSize) (rangePages va size)) s') := by
  obtain ⟨flat, own, free, dir, flatRun, inv⟩ := run.inv
  refine ⟨flat, flatRun, inv.agrees, fun va pa size flags args => ?_,
    fun va size nonempty below mapped => ?_⟩
  · obtain ⟨result, s', returned, either, flat', own', free', dir', change, inv'⟩ :=
      wp_total (inv.map_spec args)
    refine ⟨result, s', flat', returned, either, change, inv'.agrees, ?_⟩
    rintro rfl
    cases change with
    | mapped clear =>
        have added : ∀ v, va / pageSize ≤ v → v < va / pageSize + rangePages va size →
            flat.add (va / pageSize) (rangePages va size) pa flags v ≠ none :=
          fun v low high => by
            rw [FlatMap.add, if_pos ⟨low, high⟩]
            simp
        obtain ⟨_, s'', unmapped, inv''⟩ := wp_total
          (inv'.unmap_spec args.nonempty args.below added)
        have restored : (flat.add (va / pageSize) (rangePages va size) pa flags).remove
            (va / pageSize) (rangePages va size) = flat := by
          funext v
          unfold FlatMap.remove FlatMap.add
          split
          · next inside => exact (clear v inside.1 inside.2).symm
          · rfl
        exact ⟨s'', unmapped, restored ▸ inv''.agrees⟩
  · obtain ⟨_, s', returned, inv'⟩ :=
      wp_total (inv.unmap_spec nonempty below mapped)
    exact ⟨s', returned, inv'.agrees⟩

end

section

attribute [local instance] Layout.sample

/-- A run that maps two pages, the second past the end of physical memory. -/
theorem wrapping_run :
    ∃ root s, TableRun root [.map 0 (2 ^ 56 - 4096) 8192 pteR 0] [] s := by
  obtain ⟨_, s₁, init, free, pool, count, _⟩ := wp_total (pageInit_spec (s := .blank)
   )
  have many : free.length = 31744 := by
    rw [count]
    rfl
  have holds : HeldPages startOwner free [] s₁ := ⟨pool, List.nodup_nil, by simp⟩
  have noTable : ∀ q, startOwner q ≠ .table .kernel := fun q => by
    rcases startOwner_or q with here | here <;> simp [here]
  obtain ⟨root, s₂, created, ⟨rfl, _⟩ | ⟨rest, shape, own, inv⟩⟩ := wp_total
    (holds.create_spec noTable)
  · simp at many
  have nonzero : root ≠ 0 := by
    have := (pool.page_of_mem (p := root) (by simp [shape])).bounds
    omega
  have args : MapArgs 0 (2 ^ 56 - 4096) 8192 pteR := by
    constructor <;> decide
  obtain ⟨result, s₃, mapped, own', free', dir', done, _, _, _, _, why⟩ := wp_total
    (pgtableMap_spec args.small (by decide) args.below args.nonempty
      args.aligned (by decide) ⟨inv.tables, inv.holds.pool⟩)
  rcases why with ⟨rfl, _⟩ | ⟨_, short, present | starved⟩
  · exact ⟨root, s₃, .map (.create (.start init) created nonzero) args mapped⟩
  · refine absurd ?_ present
    rw [← Directory.flat_none inv.tables, ← inv.map]
  · have bound := Reach.need_le (Directory.single root).reach (done + 1) (0 / 4096)
    have short : done < 2 := short
    simp only [shape, List.length_cons] at many
    omega

/-- Past the end of physical memory a page translates to `pa + k * PAGE_SIZE`
without its high bits. -/
theorem pgtable_map_wraps :
    ∃ root s, TableRun root [.map 0 (2 ^ 56 - 4096) 8192 pteR 0] [] s ∧
      translate root 4096 s = .ok (some (0, pteR ||| pteV)) s ∧ 0 ≠ 2 ^ 56 - 4096 + 1 * pageSize := by
  obtain ⟨root, s, run⟩ := wrapping_run
  obtain ⟨flat, own, free, dir, flatRun, inv⟩ := run.inv
  refine ⟨root, s, run, ?_, by decide⟩
  cases flatRun with
  | step before change =>
      cases change with
      | mapped clear => exact inv.agrees 4096 (by decide)

/-- The refinement at the wrapping run. -/
theorem pgtable_refines_flat_map_wrapping :
    ∃ root s flat, FlatRun [.map 0 (2 ^ 56 - 4096) 8192 pteR 0] flat ∧ Agrees root flat s := by
  obtain ⟨root, s, run⟩ := wrapping_run
  obtain ⟨flat, flatRun, agrees, _⟩ := pgtable_refines_flat_map run
  exact ⟨root, s, flat, flatRun, agrees⟩

end

end KuroOS
