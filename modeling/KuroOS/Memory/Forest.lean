import KuroOS.Memory.PageFree
import KuroOS.Memory.PageUse
import Mathlib.Data.Set.Lattice
import Mathlib.Order.CompletePartialOrder

/-!
# Page tables side by side

Any number of page tables are built and freed in one machine, next to other code
that takes pages. A forest records, for each root, the pages that left the free
list in the calls on it; the invariant says that these are the tables of its tree,
whatever was mapped and wherever a call ran out of pages. So `pgtable_free_walk`
gives back each of them once, and no other page.
-/

namespace KuroOS

open Base

/-- The entries that `pgtable_map` writes are present, whatever its flags are. -/
theorem mkPte_valid (pa flags : Nat) : ptePresent (mkPte pa (flags ||| pteV)) = true := by
  have bit : (mkPte pa (flags ||| pteV)).testBit 0 = true := by simp [mkPte]
  rw [ptePresent_iff]
  simpa only [Nat.testBit_zero, decide_eq_true_eq] using bit

/-- Such an entry is a leaf where the flags have one of R, W and X. -/
theorem mkPte_valid_leaf {pa flags : Nat} (leaf : pteLeaf flags = true) : pteLeaf (mkPte pa (flags ||| pteV)) = true := by
  unfold pteLeaf at *
  rw [bne_iff_ne] at *
  obtain ⟨i, bit⟩ := Nat.exists_testBit_of_ne_zero leaf
  intro zero
  have clear : (mkPte pa (flags ||| pteV) &&& (pteR ||| pteW ||| pteX)).testBit i = false := by
    rw [zero]
    exact Nat.zero_testBit i
  simp only [mkPte, Nat.testBit_and, Nat.testBit_or, Bool.and_eq_true, Bool.and_eq_false_iff] at bit clear
  rcases clear with clear | clear
  · simp [bit.1] at clear
  · simp [clear] at bit

/-- And it is a word. -/
theorem mkPte_word {pa flags : Nat} (fits : pa < 2 ^ 64) (word : flags < 2 ^ 64) : mkPte pa (flags ||| pteV) < 2 ^ 64 := by
  unfold mkPte paToPte
  refine Nat.or_lt_two_pow ?_ (Nat.or_lt_two_pow word (by decide))
  rw [Nat.shiftLeft_eq, Nat.shiftRight_eq_div_pow]
  omega

/-- Every table of one directory serves the same addresses in the other. -/
def Directory.Within (dir dir' : Directory) : Prop := ∀ l k p, dir l k = some p → dir' l k = some p

section

variable [Layout]

variable {own own' : Nat → Owner} {free free' : List Nat} {s s' : Kernel} {space : Space} {root : Nat}
  {dir dir' : Directory} {halt : Halt → Kernel → Prop}

/-- What a call on a page table may do, as far as the tree goes: add tables out
of free pages. -/
structure TreeGrown (space : Space) (root : Nat) (dir : Directory) (own : Nat → Owner) (s : Kernel)
    (dir' : Directory) (own' : Nat → Owner) (free' : List Nat) (s' : Kernel) : Prop where
  state : TableState space root own' free' dir' s'
  moves : TableMoves space own s own' s'
  within : dir.Within dir'

namespace TreeGrown

theorem refl (st : TableState space root own free dir s) : TreeGrown space root dir own s dir own free s :=
  ⟨st, .refl, fun _ _ _ => id⟩

theorem trans {dir'' : Directory} {own'' : Nat → Owner} {free'' : List Nat} {s'' : Kernel}
    (first : TreeGrown space root dir own s dir' own' free' s')
    (second : TreeGrown space root dir' own' s' dir'' own'' free'' s'') :
    TreeGrown space root dir own s dir'' own'' free'' s'' :=
  ⟨second.state, first.moves.trans second.moves, fun l k p found => second.within l k p (first.within l k p found)⟩

end TreeGrown

/-- Some tree and owners that a call may lead to. -/
def TreeGrows (space : Space) (root : Nat) (dir : Directory) (own : Nat → Owner) (s s' : Kernel) : Prop :=
  ∃ dir' own' free', TreeGrown space root dir own s dir' own' free' s'

/-- Following an entry with allocation keeps the tables there are. -/
theorem descend_grows (st : TableState space root own free dir s) {l k p : Nat} (level : l < 2)
    (parent : dir (l + 1) (k / 512) = some p) :
    wp (pgtableDescend true (p + 8 * (k % 512))) s (fun r s' =>
      (∃ q dir' own' free', r = some q ∧ dir' l k = some q ∧ TreeGrown space root dir own s dir' own' free' s') ∨
        (r = none ∧ s' = s)) halt := by
  cases here : dir l k with
  | some q =>
      refine wp_mono (descend_found st level parent here true) ?_ fun _ _ => id
      rintro _ _ ⟨rfl, rfl⟩
      exact .inl ⟨q, dir, own, free, rfl, here, .refl st⟩
  | none =>
      refine wp_mono (descend_alloc st level parent) ?_ fun _ _ => id
      rintro r s' (⟨q, own', free', rfl, st', moves, _⟩ | ⟨rfl, _, _, rfl⟩)
      · refine .inl ⟨q, _, own', free', rfl, by simp [Directory.insert], st', moves, fun l' k' p found => ?_⟩
        unfold Directory.insert
        rw [if_neg, found]
        rintro ⟨rfl, rfl⟩
        simp [here] at found
      · exact .inr ⟨rfl, rfl⟩

/-- `pgtable_walk` with allocation keeps the tables there are, and finds the slot
of its address in the tables there are then. -/
theorem pgtableWalk_grows (st : TableState space root own free dir s) {va : Nat} (below : va < 2 ^ 38) :
    wp (pgtableWalk root va true) s (fun r s' => ∃ dir' own' free', TreeGrown space root dir own s dir' own' free' s' ∧
      (r ≠ 0 → r = dir'.slot (va / 4096))) halt := by
  have rootPage := (st.tables.page st.pool st.tables.tree.root_mem).bounds
  obtain ⟨top, middle, bottom⟩ := vpnIndex_key va
  have rootKey : dir (1 + 1) (va / 4096 / 512 / 512 / 512) = some root := by
    rw [show va / 4096 / 512 / 512 / 512 = 0 by omega]
    exact st.tables.tree.root_mem
  refine pgtableWalk_enter (by omega) below ?_
  rw [pgtableWalkFrom, top, wp_bind]
  refine wp_mono (descend_grows st (by omega) rootKey) ?_ fun _ _ => id
  rintro _ s₁ (⟨p, dir₁, own₁, free₁, rfl, upper, grown₁⟩ | ⟨rfl, rfl⟩)
  · simp only
    rw [pgtableWalkFrom, middle, wp_bind]
    refine wp_mono (descend_grows grown₁.state (by omega) upper) ?_ fun _ _ => id
    rintro _ s₂ (⟨q, dir₂, own₂, free₂, rfl, lower, grown₂⟩ | ⟨rfl, rfl⟩)
    · simp only [pgtableWalkFrom, wp_pure, bottom]
      exact ⟨dir₂, own₂, free₂, grown₁.trans grown₂, fun _ => by simp [Directory.slot, lower]⟩
    · simp only [wp_pure]
      exact ⟨dir₁, own₁, free₁, grown₁, fun nonzero => absurd rfl nonzero⟩
  · simp only [wp_pure]
    exact ⟨dir, own, free, .refl st, fun nonzero => absurd rfl nonzero⟩

/-- From `MAXVA` on, `pgtable_walk` stops at its assertion. -/
theorem pgtableWalk_beyond {va : Nat} {alloc : Bool} {post : Nat → Kernel → Prop} (beyond : ¬ va < 2 ^ 38) :
    wp (pgtableWalk root va alloc) s post fun _ _ => True := by
  have outside : ¬ va < maxVa := beyond
  unfold pgtableWalk
  simp only [wp_bind, wp_kassert, outside, if_false]
  split <;> trivial

/-- `pgtable_map` on any range, as far as it returns. -/
theorem pgtableMapLoop_grows {flags : Nat} (leaf : pteLeaf flags = true) (word : flags < 2 ^ 64) {pages addr pa : Nat}
    (fits : pa < 2 ^ 64) (st : TableState space root own free dir s) :
    wp (pgtableMapLoop root flags pages addr pa) s (fun _ s' => TreeGrows space root dir own s s') fun _ _ => True := by
  induction pages generalizing addr pa own free dir s with
  | zero =>
      rw [pgtableMapLoop, wp_pure]
      exact ⟨dir, own, free, .refl st⟩
  | succ pages ih =>
      rw [pgtableMapLoop]
      by_cases below : addr < 2 ^ 38
      · refine wp_bind_of (pgtableWalk_grows st below) ?_
        rintro pte s₁ ⟨dir₁, own₁, free₁, grown₁, reached⟩
        have stopped : TreeGrows space root dir own s s₁ := ⟨dir₁, own₁, free₁, grown₁⟩
        by_cases zero : pte = 0
        · simp only [zero, if_true, wp_pure]
          exact stopped
        have slot := reached zero
        simp only [zero, if_false, wp_bind, wp_loadWord, wp_ite, wp_pure, wp_storeWord]
        split
        · exact stopped
        · -- the one entry that is written is a leaf of the tree
          obtain ⟨st₂, moves₂, _⟩ := grown₁.state.setLeaf (mkPte pa (flags ||| pteV)) (slot ▸ zero)
            (.inr ⟨mkPte_valid pa flags, mkPte_valid_leaf leaf⟩) (mkPte_word fits word)
          rw [← slot] at st₂ moves₂
          refine wp_mono (ih (wadd_lt _ _) st₂) ?_ fun _ _ => id
          rintro _ s' ⟨dir', own', free', grown'⟩
          exact ⟨dir', own', free', grown₁.trans (.trans ⟨st₂, moves₂, fun _ _ _ => id⟩ grown')⟩
      · exact (wp_bind _ _).mpr (pgtableWalk_beyond below)

theorem pgtableMap_grows {va pa size flags : Nat} (leaf : pteLeaf flags = true) (word : flags < 2 ^ 64)
    (fits : pa < 2 ^ 64) (st : TableState space root own free dir s) :
    wp (pgtableMap root va pa size flags) s (fun _ s' => TreeGrows space root dir own s s') fun _ _ => True := by
  have rest : ∀ pages addr, wp (pgtableMapLoop root flags pages addr pa) s
      (fun _ s' => TreeGrows space root dir own s s') fun _ _ => True :=
    fun _ _ => pgtableMapLoop_grows leaf word fits st
  unfold pgtableMap
  simp only [wp_bind, wp_kassert]
  split
  · split
    · split
      · exact rest _ _
      · trivial
    · trivial
  · trivial

/-- `pgtable_unmap` on any range, as far as it returns. -/
theorem pgtableUnmapLoop_grows {pages addr : Nat} (st : TableState space root own free dir s) :
    wp (pgtableUnmapLoop root pages addr) s (fun _ s' => TreeGrows space root dir own s s') fun _ _ => True := by
  induction pages generalizing addr s with
  | zero =>
      rw [pgtableUnmapLoop, wp_pure]
      exact ⟨dir, own, free, .refl st⟩
  | succ pages ih =>
      rw [pgtableUnmapLoop]
      by_cases below : addr < 2 ^ 38
      · refine wp_bind_of (pgtableWalk_lookup st below) ?_
        rintro pte s₁ ⟨rfl, rfl⟩
        simp only [wp_bind, wp_kassert, wp_loadWord, wp_storeWord]
        split
        · next nonzero =>
            obtain ⟨st₂, moves₂, _⟩ := st.setLeaf 0 nonzero (.inl rfl) (by decide)
            split
            · split
              · refine wp_mono (ih st₂) ?_ fun _ _ => id
                rintro _ s' ⟨dir', own', free', grown'⟩
                exact ⟨dir', own', free', .trans ⟨st₂, moves₂, fun _ _ _ => id⟩ grown'⟩
              · trivial
            · trivial
        · trivial
      · exact (wp_bind _ _).mpr (pgtableWalk_beyond below)

theorem pgtableUnmap_grows {va size : Nat} (st : TableState space root own free dir s) :
    wp (pgtableUnmap root va size) s (fun _ s' => TreeGrows space root dir own s s') fun _ _ => True := by
  unfold pgtableUnmap
  simp only [wp_bind, wp_kassert]
  split
  · split
    · exact pgtableUnmapLoop_grows st
    · trivial
  · trivial

/-- The pages that left the free list between two states. -/
def pagesTaken (s s' : Kernel) : Set Nat := freePages s \ freePages s'

/-- The pages that the calls on each page table took, by root. A root without
pages is not in use. -/
abbrev Forest := Nat → Set Nat

/-- Code that builds and frees page tables, next to code that uses pages for
something else, from `page_init` on. A call that stopped at an assertion ends its
run. -/
inductive ForestRun : Forest → List Nat → Kernel → Prop where
  | start {s₀ s : Kernel} (init : pageInit s₀ = .ok () s) : ForestRun (fun _ => ∅) [] s
  | create {forest : Forest} {held : List Nat} {s s' : Kernel} {root : Nat} (before : ForestRun forest held s)
      (returned : pgtableCreate s = .ok root s') (success : root ≠ 0) :
      ForestRun (Function.update forest root (pagesTaken s s')) held s'
  | map {forest : Forest} {held : List Nat} {s s' : Kernel} {root va pa size flags : Nat} {result : Int}
      (before : ForestRun forest held s) (live : (forest root).Nonempty) (leaf : pteLeaf flags = true)
      (fits : pa < 2 ^ 64) (word : flags < 2 ^ 64) (returned : pgtableMap root va pa size flags s = .ok result s') :
      ForestRun (Function.update forest root (forest root ∪ pagesTaken s s')) held s'
  | unmap {forest : Forest} {held : List Nat} {s s' : Kernel} {root va size : Nat}
      (before : ForestRun forest held s) (live : (forest root).Nonempty)
      (returned : pgtableUnmap root va size s = .ok () s') :
      ForestRun (Function.update forest root (forest root ∪ pagesTaken s s')) held s'
  | free {forest : Forest} {held : List Nat} {s s' : Kernel} {root : Nat} (before : ForestRun forest held s)
      (live : (forest root).Nonempty) (returned : pgtableFreeWalk root s = .ok () s') :
      ForestRun (Function.update forest root ∅) held s'
  | other {forest : Forest} {held held' : List Nat} {s s' : Kernel} (before : ForestRun forest held s)
      (change : PageStep held s held' s') : ForestRun forest held' s'

/-- The invariant of `ForestRun`. -/
structure ForestInv (forest : Forest) (held : List Nat) (own : Nat → Owner) (free : List Nat) (s : Kernel) : Prop where
  holds : HeldPages own free held s
  pages : ∀ root q, q ∈ forest root ↔ own q = .table (.task root)
  trees : ∀ root, (forest root).Nonempty → ∃ dir, SpaceTables own s.mem (.task root) root dir

namespace ForestInv

variable {forest : Forest} {held held' : List Nat}

/-- The free pages are those of the pool. -/
theorem mem_pagesTaken (pool : Pool own free s) (pool' : Pool own' free' s') {q : Nat} :
    q ∈ pagesTaken s s' ↔ own q = .free ∧ own' q ≠ .free := by
  unfold pagesTaken
  rw [Set.mem_sdiff, pool.mem_freePages, pool'.mem_freePages]

/-- A root heads its own tree. -/
theorem root_mem (inv : ForestInv forest held own free s) (live : (forest root).Nonempty) : root ∈ forest root := by
  obtain ⟨dir, tables⟩ := inv.trees root live
  exact (inv.pages root root).mpr (tables.own_table tables.tree.root_mem)

/-- Code that leaves the tables alone keeps the trees. -/
theorem foreign {C W : Set Owner} (inv : ForestInv forest held own free s) (moves : PageMoves C W own s own' s')
    {r : Nat} (foreignC : .table (.task r) ∉ C) (foreignW : .table (.task r) ∉ W) :
    (∀ q, q ∈ forest r ↔ own' q = .table (.task r)) ∧
      ((forest r).Nonempty → ∃ dir, SpaceTables own' s'.mem (.task r) r dir) := by
  refine ⟨fun q => (inv.pages r q).trans (moves.moves.own_iff foreignC q).symm, fun live => ?_⟩
  obtain ⟨dir, tables⟩ := inv.trees r live
  exact ⟨dir, (tables.moves inv.holds.pool moves foreignC foreignW).1⟩

/-- A call on one tree keeps the invariant: what it took has become tables. -/
theorem build (inv : ForestInv forest held own free s) (tables : SpaceTables own s.mem (.task root) root dir)
    (grows : TreeGrows (.task root) root dir own s s') :
    ∃ own' free', ForestInv (Function.update forest root (forest root ∪ pagesTaken s s')) held own' free' s' ∧
      freePages s' ⊆ freePages s := by
  obtain ⟨dir', own', free', grown⟩ := grows
  have pool' := grown.state.pool
  have moves := grown.moves
  have kept : ∀ q, own q = .table (.task root) → own' q = .table (.task root) := fun q old => by
    obtain ⟨l, k, found⟩ := (tables.owned q).mp old
    exact grown.state.tables.own_table (grown.within l k q found)
  refine ⟨own', free', ⟨⟨pool', inv.holds.distinct, fun p member => ?_⟩, fun r q => ?_, fun r live => ?_⟩, fun q isFree => ?_⟩
  · exact (moves.moves.own_iff (by simp) p).mpr (inv.holds.owned p member)
  · by_cases same : r = root
    · subst same
      rw [Function.update_self, Set.mem_union, inv.pages, mem_pagesTaken inv.holds.pool pool']
      constructor
      · rintro (old | ⟨wasFree, notFree⟩)
        · exact kept q old
        · rcases moves.moves.owner q with still | ⟨_, now⟩
          · exact absurd (still.trans wasFree) notFree
          · simpa [notFree] using now
      · intro now
        rcases moves.moves.owner q with still | ⟨before, _⟩
        · exact .inl (still.symm.trans now)
        · rcases before with wasFree | old
          · exact .inr ⟨wasFree, by simp [now]⟩
          · exact .inl old
    · rw [Function.update_of_ne same]
      exact (inv.foreign moves (by simp [same]) (by simp [same])).1 q
  · by_cases same : r = root
    · exact ⟨dir', same ▸ grown.state.tables⟩
    · rw [Function.update_of_ne same] at live
      exact (inv.foreign moves (by simp [same]) (by simp [same])).2 live
  · rw [pool'.mem_freePages] at isFree
    rw [inv.holds.pool.mem_freePages]
    rcases moves.moves.owner q with still | ⟨wasFree | old, _⟩
    · exact still.symm.trans isFree
    · exact wasFree
    · rw [kept q old] at isFree
      simp at isFree

/-- A new root is a tree of one table. -/
theorem create (inv : ForestInv forest held own free s) (returned : pgtableCreate s = .ok root s') (success : root ≠ 0) :
    ∃ own' free', ForestInv (Function.update forest root (pagesTaken s s')) held own' free' s' ∧
      SpaceTables own' s'.mem (.task root) root (.single root) ∧ freePages s' ⊆ freePages s := by
  have spec := wp_returned (pgtableCreate_spec inv.holds.pool (o := .table (.task root)) (by simp)) returned
  rcases spec with ⟨_, zero, _⟩ | ⟨rest, _, page, wasFree, pool', moves, clear⟩
  · exact absurd zero success
  have unused : ∀ q, own q ≠ .table (.task root) := fun q old => by
    obtain ⟨dir, tables⟩ := inv.trees root ⟨q, (inv.pages root q).mpr old⟩
    have := tables.own_table tables.tree.root_mem
    simp [wasFree] at this
  have owned : ∀ q, Function.update own root (.table (.task root)) q = .table (.task root) ↔ q = root := fun q => by
    by_cases same : q = root
    · simp [same]
    · simp [same, unused q]
  have tables : SpaceTables (Function.update own root (.table (.task root))) s'.mem (.task root) root (.single root) :=
    .single owned fun i low => Mem.load_zero fun x first last => clear x (by omega) (by omega)
  refine ⟨_, rest, ⟨⟨pool', inv.holds.distinct, fun p member => ?_⟩, fun r q => ?_, fun r live => ?_⟩, tables,
    fun q isFree => ?_⟩
  · exact (moves.moves.own_iff (by simp) p).mpr (inv.holds.owned p member)
  · by_cases same : r = root
    · subst same
      rw [Function.update_self, mem_pagesTaken inv.holds.pool pool', owned]
      constructor
      · rintro ⟨isFree, changed⟩
        by_contra other
        rw [Function.update_of_ne other] at changed
        exact changed isFree
      · rintro rfl
        exact ⟨wasFree, by simp⟩
    · rw [Function.update_of_ne same]
      exact (inv.foreign moves (by simp [same]) (by simp)).1 q
  · by_cases same : r = root
    · subst same
      exact ⟨_, tables⟩
    · rw [Function.update_of_ne same] at live
      exact (inv.foreign moves (by simp [same]) (by simp)).2 live
  · rw [pool'.mem_freePages] at isFree
    rw [inv.holds.pool.mem_freePages]
    by_cases same : q = root
    · exact same ▸ wasFree
    · rwa [Function.update_of_ne same] at isFree

/-- `pgtable_free_walk` returns, and releases what the calls on its tree took. -/
theorem walk (inv : ForestInv forest held own free s) (live : (forest root).Nonempty) :
    wp (pgtableFreeWalk root) s (fun _ s' => ∃ own' free', Releases {.free} (forest root) own s own' s' ∧
      ForestInv (Function.update forest root ∅) held own' free' s') halt := by
  obtain ⟨dir, tables⟩ := inv.trees root live
  have same : {q | own q = .table (.task root)} = forest root := by
    ext q
    exact (inv.pages root q).symm
  refine wp_mono (pgtableFreeWalk_spec tables inv.holds.pool) ?_ fun _ _ => id
  rintro _ s' ⟨own', free', pool', releases⟩
  rw [same] at releases
  have moves : PageMoves {.free, .table (.task root)} {.free, .table (.task root)} own s own' s' :=
    releases.pageMoves (fun q member => .inr ((inv.pages root q).mp member)) (by simp) (by simp) (by simp)
  refine ⟨own', free', releases, ⟨pool', inv.holds.distinct, fun p member => ?_⟩, fun r q => ?_, fun r other => ?_⟩
  · exact (moves.moves.own_iff (by simp) p).mpr (inv.holds.owned p member)
  · by_cases same : r = root
    · subst same
      rw [Function.update_self]
      refine iff_of_false id fun now => ?_
      by_cases member : q ∈ forest r
      · simp [(releases.owner q).1 member] at now
      · exact member ((inv.pages r q).mpr ((releases.owner q).2 member ▸ now))
    · rw [Function.update_of_ne same]
      exact (inv.foreign moves (by simp [same]) (by simp [same])).1 q
  · by_cases same : r = root
    · subst same
      simp at other
    · rw [Function.update_of_ne same] at other
      exact (inv.foreign moves (by simp [same]) (by simp [same])).2 other

/-- Other code keeps all trees. -/
theorem other (inv : ForestInv forest held own free s) (change : PageStep held s held' s') :
    ∃ own' free', ForestInv forest held' own' free' s' := by
  obtain ⟨own', free', holds', moves⟩ := inv.holds.step change
  exact ⟨own', free', holds', fun r q => (inv.foreign moves (by simp) (by simp)).1 q,
    fun r live => (inv.foreign moves (by simp) (by simp)).2 live⟩

end ForestInv

/-- In every run, what the calls on a tree took are its tables. -/
theorem ForestRun.inv {forest : Forest} {held : List Nat} (run : ForestRun forest held s) :
    ∃ own free, ForestInv forest held own free s := by
  induction run with
  | start init =>
      obtain ⟨free, pool, _⟩ := wp_returned pageInit_spec init
      refine ⟨startOwner, free, ⟨pool, List.nodup_nil, by simp⟩, fun r q => iff_of_false id ?_, fun r live => ?_⟩
      · rcases startOwner_or q with here | here <;> simp [here]
      · simp at live
  | create before returned success ih =>
      obtain ⟨own, free, inv⟩ := ih
      obtain ⟨own', free', inv', _⟩ := inv.create returned success
      exact ⟨own', free', inv'⟩
  | map before live leaf fits word returned ih =>
      obtain ⟨own, free, inv⟩ := ih
      obtain ⟨dir, tables⟩ := inv.trees _ live
      have grows := wp_returned (pgtableMap_grows leaf word fits ⟨tables, inv.holds.pool⟩) returned
      obtain ⟨own', free', inv', _⟩ := inv.build tables grows
      exact ⟨own', free', inv'⟩
  | unmap before live returned ih =>
      obtain ⟨own, free, inv⟩ := ih
      obtain ⟨dir, tables⟩ := inv.trees _ live
      have grows := wp_returned (pgtableUnmap_grows ⟨tables, inv.holds.pool⟩) returned
      obtain ⟨own', free', inv', _⟩ := inv.build tables grows
      exact ⟨own', free', inv'⟩
  | free before live returned ih =>
      obtain ⟨own, free, inv⟩ := ih
      obtain ⟨own', free', _, inv'⟩ := wp_returned (inv.walk live) returned
      exact ⟨own', free', inv'⟩
  | other before change ih =>
      obtain ⟨own, free, inv⟩ := ih
      exact inv.other change

/-- Calls on one page table, one after the other. -/
inductive TreeCalls (root : Nat) (s : Kernel) : Kernel → Prop where
  | start : TreeCalls root s s
  | map {s₁ s₂ : Kernel} {va pa size flags : Nat} {result : Int} (before : TreeCalls root s s₁)
      (leaf : pteLeaf flags = true) (fits : pa < 2 ^ 64) (word : flags < 2 ^ 64)
      (returned : pgtableMap root va pa size flags s₁ = .ok result s₂) : TreeCalls root s s₂
  | unmap {s₁ s₂ : Kernel} {va size : Nat} (before : TreeCalls root s s₁)
      (returned : pgtableUnmap root va size s₁ = .ok () s₂) : TreeCalls root s s₂

/-- They divide the pages that were free or in the tree between the two. -/
theorem TreeCalls.inv {forest : Forest} {held : List Nat} (inv : ForestInv forest held own free s)
    (live : (forest root).Nonempty) (calls : TreeCalls root s s') :
    ∃ forest' own' free', ForestInv forest' held own' free' s' ∧ (forest' root).Nonempty ∧
      freePages s' ∪ forest' root = freePages s ∪ forest root := by
  have next : ∀ {s₁ s₂ : Kernel} {forest₁ : Forest} {own₁ free₁ dir₁}, ForestInv forest₁ held own₁ free₁ s₁ →
      (forest₁ root).Nonempty → freePages s₁ ∪ forest₁ root = freePages s ∪ forest root →
      SpaceTables own₁ s₁.mem (.task root) root dir₁ → TreeGrows (.task root) root dir₁ own₁ s₁ s₂ →
      ∃ forest' own' free', ForestInv forest' held own' free' s₂ ∧ (forest' root).Nonempty ∧
        freePages s₂ ∪ forest' root = freePages s ∪ forest root := by
    intro s₁ s₂ forest₁ own₁ free₁ dir₁ inv₁ live₁ same tables grows
    obtain ⟨own', free', inv', fewer⟩ := inv₁.build tables grows
    refine ⟨_, own', free', inv', ?_, ?_⟩
    · rw [Function.update_self]
      exact live₁.mono Set.subset_union_left
    · rw [Function.update_self, ← same, Set.union_comm (forest₁ root), ← Set.union_assoc, pagesTaken, Set.union_sdiff_cancel fewer]
  induction calls with
  | start => exact ⟨forest, own, free, inv, live, rfl⟩
  | map before leaf fits word returned ih =>
      obtain ⟨forest₁, own₁, free₁, inv₁, live₁, same⟩ := ih
      obtain ⟨dir, tables⟩ := inv₁.trees root live₁
      have grows := wp_returned (pgtableMap_grows leaf word fits ⟨tables, inv₁.holds.pool⟩) returned
      exact next inv₁ live₁ same tables grows
  | unmap before returned ih =>
      obtain ⟨forest₁, own₁, free₁, inv₁, live₁, same⟩ := ih
      obtain ⟨dir, tables⟩ := inv₁.trees root live₁
      have grows := wp_returned (pgtableUnmap_grows ⟨tables, inv₁.holds.pool⟩) returned
      exact next inv₁ live₁ same tables grows

/-- After `pgtable_free_walk` the free pages are those there were and the tree's,
each of them once, and no byte has changed but in these pages and in the head of
their list. -/
structure GivesBack (tree : Set Nat) (s s' : Kernel) : Prop where
  once : ∃ free : List Nat, Ring s'.mem Layout.freePageList free ∧ free.Nodup ∧ s'.nrFreePages = free.length ∧
    ∀ q, q ∈ free ↔ q ∈ freePages s ∨ q ∈ tree
  apart : Disjoint (freePages s) tree
  bytes : ∀ x, pageOf x ∉ freePages s → pageOf x ∉ tree → x ∉ node Layout.freePageList → s'.mem x = s.mem x
  globals : s' = { s with mem := s'.mem, nrFreePages := s'.nrFreePages }

namespace ForestInv

variable {forest : Forest} {held : List Nat}

/-- What `pgtable_free_walk` gives back. -/
theorem givesBack (inv : ForestInv forest held own free s) (pool' : Pool own' free' s')
    (releases : Releases {.free} (forest root) own s own' s') : GivesBack (forest root) s s' where
  once := by
    refine ⟨free', pool'.ring, pool'.nodup, pool'.count, fun q => ?_⟩
    rw [pool'.mem_iff, inv.holds.pool.mem_freePages]
    by_cases member : q ∈ forest root
    · simp [member, (releases.owner q).1 member]
    · simp [member, (releases.owner q).2 member]
  apart := Set.disjoint_left.mpr fun q isFree member => by
    rw [inv.holds.pool.mem_freePages, (inv.pages root q).mp member] at isFree
    simp at isFree
  bytes x notFree outside plain := by
    rw [inv.holds.pool.mem_freePages] at notFree
    exact releases.bytes x notFree outside plain
  globals := releases.globals

end ForestInv

/-- The free pages after `pgtable_free_walk`. -/
theorem GivesBack.freePages {tree : Set Nat} (gives : GivesBack tree s s') : freePages s' = freePages s ∪ tree := by
  obtain ⟨free, ring, _, _, members⟩ := gives.once
  ext q
  rw [Set.mem_union, ← members q]
  constructor
  · rintro ⟨free', ring', member⟩
    rwa [ring.cycle.unique ring'.cycle]
  · exact fun member => ⟨free, ring, member⟩

/-- `pgtable_free_walk` on any page table of any run returns and gives back the
tables that the calls on it took: the tables of the other trees and the pages that
other code holds are neither freed nor touched. A page table that is created, built
and freed leaves the free pages as they were. -/
theorem pgtable_free_walk_exact {forest : Forest} {held : List Nat} (run : ForestRun forest held s) :
    (∀ root, (forest root).Nonempty → ∃ s', pgtableFreeWalk root s = .ok () s' ∧ GivesBack (forest root) s s' ∧
      (∀ other, other ≠ root → ∀ q ∈ forest other, q ∉ freePages s' ∧ ∀ x, pageOf x = q → s'.mem x = s.mem x) ∧
      (∀ q ∈ held, q ∉ freePages s' ∧ ∀ x, pageOf x = q → s'.mem x = s.mem x)) ∧
    ∀ root s₁ s₂, pgtableCreate s = .ok root s₁ → root ≠ 0 → TreeCalls root s₁ s₂ →
      ∃ s₃, pgtableFreeWalk root s₂ = .ok () s₃ ∧ freePages s₃ = freePages s := by
  obtain ⟨own, free, inv⟩ := run.inv
  refine ⟨fun root live => ?_, fun root s₁ s₂ created success calls => ?_⟩
  · obtain ⟨_, s', returned, own', free', releases, inv'⟩ := wp_total (inv.walk live)
    have gives := inv.givesBack inv'.holds.pool releases
    have kept : ∀ q, own q ≠ .free → own q ≠ .outside → q ∉ forest root →
        q ∉ freePages s' ∧ ∀ x, pageOf x = q → s'.mem x = s.mem x := by
      intro q notFree owned outside
      rw [inv'.holds.pool.mem_freePages, (releases.owner q).2 outside]
      refine ⟨notFree, ?_⟩
      rintro x rfl
      exact releases.bytes x notFree outside (inv.holds.pool.not_head owned)
    refine ⟨s', returned, gives, fun other different q member => ?_, fun q member => ?_⟩
    · have here := (inv.pages other q).mp member
      refine kept q (by simp [here]) (by simp [here]) fun again => different ?_
      rw [inv.pages, here] at again
      simpa using again
    · have here := inv.holds.owned q member
      refine kept q (by simp [here]) (by simp [here]) fun again => ?_
      rw [inv.pages, here] at again
      simp at again
  · obtain ⟨own₁, free₁, inv₁, tables, fewer⟩ := inv.create created success
    have live : ((Function.update forest root (pagesTaken s s₁)) root).Nonempty :=
      ⟨root, (inv₁.pages root root).mpr (tables.own_table tables.tree.root_mem)⟩
    obtain ⟨forest₂, own₂, free₂, inv₂, live₂, same⟩ := calls.inv inv₁ live
    obtain ⟨_, s₃, returned, own₃, free₃, releases, inv₃⟩ := wp_total (inv₂.walk live₂)
    refine ⟨s₃, returned, ?_⟩
    rw [(inv₂.givesBack inv₃.holds.pool releases).freePages, same, Function.update_self, pagesTaken, Set.union_sdiff_cancel fewer]

end

section

attribute [local instance] Layout.sample

/-- The root of a table with one mapping, whose leaf points at the root's own page. -/
theorem pgtable_free_walk_exact_sample : ∃ (forest : Forest) (held : List Nat) (s s' : Kernel) (root : Nat),
    ForestRun forest held s ∧ (forest root).Nonempty ∧ pgtableFreeWalk root s = .ok () s' ∧ GivesBack (forest root) s s' := by
  obtain ⟨_, s₁, init, free, pool, count, _⟩ := wp_total (pageInit_spec (s := .blank))
  obtain ⟨root, s₂, created, ⟨rfl, _⟩ | ⟨rest, _, page, _⟩⟩ := wp_total
    (pgtableCreate_spec pool (o := .held) (by simp))
  · simp at count
  have nonzero : root ≠ 0 := by
    have := page.bounds
    omega
  have start := ForestRun.start init
  obtain ⟨_, _, inv⟩ := start.inv
  obtain ⟨own₂, free₂, inv₂, tables, _⟩ := inv.create created nonzero
  have aligned := page.bounds
  have total : wp (pgtableMap root 0 root 4096 pteR) s₂ (MapOutcome (.task root) root pteR (rangePages 0 4096) (0 / 4096)
      root own₂ free₂ (.single root) s₂) fun _ _ => False :=
    pgtableMap_spec (by decide) (by decide) (by decide) (by decide) aligned.1 (by omega) ⟨tables, inv₂.holds.pool⟩
  obtain ⟨result, s₃, mapped, _⟩ := wp_total total
  have live : ((Function.update (fun _ => ∅) root (pagesTaken s₁ s₂) : Forest) root).Nonempty :=
    ⟨root, (inv₂.pages root root).mpr (tables.own_table tables.tree.root_mem)⟩
  obtain ⟨forest, run, live'⟩ : ∃ forest : Forest, ForestRun forest [] s₃ ∧ (forest root).Nonempty := by
    refine ⟨_, (start.create created nonzero).map live (by decide) (by omega) (by decide) mapped, ?_⟩
    rw [Function.update_self]
    exact live.mono Set.subset_union_left
  obtain ⟨s', returned, gives, _⟩ := (pgtable_free_walk_exact run).1 root live'
  exact ⟨forest, [], s₃, s', root, run, live', returned, gives⟩

end

end KuroOS
