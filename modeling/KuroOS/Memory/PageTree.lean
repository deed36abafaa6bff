import KuroOS.Memory.PagePool
import KuroOS.Kernel.Pgtable

/-!
# Page tables as trees of owned pages

A directory says which table serves which addresses: `dir l k` is the table of
level `l` for the addresses whose page number is `k` once its low
`9 * (l + 1)` bits are dropped. `PageTree` states that memory holds exactly
this tree under a root: each inner entry points at the directory's table or is
zero, no table is reached twice, and a level-0 entry is zero or a leaf.
`SpaceTables` adds that the tables are the pages an address space owns.
-/

namespace KuroOS

open Base

/-- Which table serves which addresses, by level and page number prefix. -/
abbrev Directory := Nat → Nat → Option Nat

namespace Directory

/-- The tables of a directory that has none but its root. -/
def single (root : Nat) : Directory := fun l k => if l = 2 ∧ k = 0 then some root else none

/-- Add a table. -/
def insert (dir : Directory) (l k p : Nat) : Directory := fun l' k' =>
  if l' = l ∧ k' = k then some p else dir l' k'

/-- The address of the level-0 entry of a page number, 0 when a table is
missing. -/
def slot (dir : Directory) (vpn : Nat) : Nat :=
  match dir 0 (vpn / 512) with
  | some p => p + 8 * (vpn % 512)
  | none => 0

/-- The level-0 entry of a page number, 0 when a table is missing. -/
def leafAt (dir : Directory) (mem : Mem) (vpn : Nat) : Nat :=
  match dir 0 (vpn / 512) with
  | some p => mem.load (p + 8 * (vpn % 512)) 8
  | none => 0

end Directory

/-- The value of the inner entry for a table that may be missing. -/
def innerEntry : Option Nat → Nat
  | some q => mkPte q pteV
  | none => 0

/-- A level-0 entry is clear, or a present leaf. -/
def LeafEntry (pte : Nat) : Prop := pte = 0 ∨ ptePresent pte = true ∧ pteLeaf pte = true

/-- Memory holds the tree of tables that `dir` describes. -/
structure PageTree (mem : Mem) (root : Nat) (dir : Directory) : Prop where
  root_mem : dir 2 0 = some root
  shape : ∀ l k p, dir l k = some p →
    (l = 2 ∧ k = 0) ∨ (l < 2 ∧ (dir (l + 1) (k / 512)).isSome)
  inner : ∀ l k p, l < 2 → dir (l + 1) (k / 512) = some p →
    mem.load (p + 8 * (k % 512)) 8 = innerEntry (dir l k)
  leaf : ∀ k p, dir 0 (k / 512) = some p → LeafEntry (mem.load (p + 8 * (k % 512)) 8)
  inj : ∀ l k l' k' p, dir l k = some p → dir l' k' = some p → l = l' ∧ k = k'

/-- The tree's tables are exactly the table pages that `space` owns. -/
structure SpaceTables (own : Nat → Owner) (mem : Mem) (space : Space) (root : Nat)
    (dir : Directory) : Prop where
  tree : PageTree mem root dir
  owned : ∀ p, own p = .table space ↔ ∃ l k, dir l k = some p

namespace PageTree

variable {mem mem' : Mem} {root : Nat} {dir : Directory}

/-- A tree depends on the bytes of its tables only. -/
theorem congr (tree : PageTree mem root dir)
    (same : ∀ l k p, dir l k = some p → ∀ x, p ≤ x → x < p + 4096 → mem' x = mem x) :
    PageTree mem' root dir where
  root_mem := tree.root_mem
  shape := tree.shape
  inner l k p low found := by
    rw [← tree.inner l k p low found]
    exact Mem.load_congr fun x _ _ => same _ _ p found x (by omega) (by omega)
  leaf k p found := by
    have unchanged : mem'.load (p + 8 * (k % 512)) 8 = mem.load (p + 8 * (k % 512)) 8 :=
      Mem.load_congr fun x _ _ => same _ _ p found x (by omega) (by omega)
    rw [unchanged]
    exact tree.leaf k p found
  inj := tree.inj

/-- Two tables of a tree with a byte in common are one. -/
theorem table_unique (tree : PageTree mem root dir)
    {l k p l' k' p' : Nat} (found : dir l k = some p) (found' : dir l' k' = some p')
    (aligned : p % 4096 = 0) (aligned' : p' % 4096 = 0) {i i' : Nat} (low : i < 512) (low' : i' < 512)
    (touch : p + 8 * i < p' + 8 * i' + 8 ∧ p' + 8 * i' < p + 8 * i + 8) :
    l = l' ∧ k = k' ∧ i = i' := by
  have equal : p = p' := by omega
  subst equal
  obtain ⟨sameLevel, sameKey⟩ := tree.inj _ _ _ _ _ found found'
  exact ⟨sameLevel, sameKey, by omega⟩

end PageTree

namespace SpaceTables

variable {own own' : Nat → Owner} {mem mem' : Mem} {space : Space} {root : Nat} {dir : Directory}

theorem own_table (tables : SpaceTables own mem space root dir) {l k p : Nat}
    (found : dir l k = some p) : own p = .table space :=
  (tables.owned p).mpr ⟨l, k, found⟩

/-- An entry of a table is the entry of its page number. -/
theorem leafAt_of_slot (mem : Mem) {vpn : Nat} (nonzero : dir.slot vpn ≠ 0) :
    mem.load (dir.slot vpn) 8 = dir.leafAt mem vpn := by
  unfold Directory.slot Directory.leafAt at *
  cases found : dir 0 (vpn / 512) with
  | none => simp [found] at nonzero
  | some p => rfl

/-- The tree of a fresh, cleared root. -/
theorem single {p : Nat} (owned : ∀ q, own q = .table space ↔ q = p)
    (clear : ∀ i < 512, mem.load (p + 8 * i) 8 = 0) :
    SpaceTables own mem space p (.single p) where
  tree :=
    { root_mem := by simp [Directory.single]
      shape := fun l k q found => by
        simp only [Directory.single] at found
        split at found
        · next here => exact .inl here
        · simp at found
      inner := fun l k q low found => by
        simp only [Directory.single] at found ⊢
        split at found
        · have : ¬ (l = 2 ∧ k = 0) := by omega
          simp only [Option.some.injEq] at found
          subst found
          simp [this, innerEntry, clear (k % 512) (by omega)]
        · simp at found
      leaf := fun k q found => by
        simp [Directory.single] at found
      inj := fun l k l' k' q found found' => by
        simp only [Directory.single] at found found'
        split at found <;> split at found' <;> simp_all }
  owned q := by
    rw [owned]
    constructor
    · rintro rfl
      exact ⟨2, 0, by simp [Directory.single]⟩
    · rintro ⟨l, k, found⟩
      simp only [Directory.single] at found
      split at found <;> simp_all

variable [Layout] {free : List Nat} {s : Kernel}

theorem page (tables : SpaceTables own mem space root dir) (pool : Pool own free s) {l k p : Nat}
    (found : dir l k = some p) : PoolPage p :=
  pool.pages p (by simp [tables.own_table found])

/-- Tables survive whatever leaves their owner's pages alone. -/
theorem congr (tables : SpaceTables own mem space root dir) (pool : Pool own free s)
    (owner : ∀ p, own' p = .table space ↔ own p = .table space)
    (same : ∀ x, own (pageOf x) = .table space → mem' x = mem x) :
    SpaceTables own' mem' space root dir where
  tree := tables.tree.congr fun l k p found x low high => by
    refine same x ?_
    rw [pageOf_of_mem (tables.page pool found).1 low (by omega)]
    exact tables.own_table found
  owned p := (owner p).trans (tables.owned p)

/-- Entries of a tree are unchanged wherever its pages are. -/
theorem leafAt_congr (tables : SpaceTables own mem space root dir) (pool : Pool own free s)
    (same : ∀ x, own (pageOf x) = .table space → mem' x = mem x) (vpn : Nat) :
    dir.leafAt mem' vpn = dir.leafAt mem vpn := by
  unfold Directory.leafAt
  cases found : dir 0 (vpn / 512) with
  | none => rfl
  | some p =>
      refine Mem.load_congr fun x low high => same x ?_
      rw [pageOf_of_mem (tables.page pool found).1 (by omega) (by omega)]
      exact tables.own_table found

/-- Tables survive page operations of other owners. -/
theorem moves {C W : Set Owner} {s' : Kernel} (tables : SpaceTables own s.mem space root dir)
    (pool : Pool own free s) (moves : PageMoves C W own s own' s') (foreignC : .table space ∉ C)
    (foreignW : .table space ∉ W) :
    SpaceTables own' s'.mem space root dir ∧
      ∀ vpn, dir.leafAt s'.mem vpn = dir.leafAt s.mem vpn := by
  have same : ∀ x, own (pageOf x) = .table space → s'.mem x = s.mem x := fun x owned =>
    moves.moves.bytes x (owned ▸ foreignW) (pool.not_head (by simp [owned]))
  exact ⟨tables.congr pool (moves.moves.own_iff foreignC) same, tables.leafAt_congr pool same⟩

/-- Hang a fresh, cleared table under an entry that was zero. -/
theorem insert (tables : SpaceTables own mem space root dir) (pool : Pool own free s)
    {l k parent q : Nat} (level : l < 2) (found : dir (l + 1) (k / 512) = some parent)
    (absent : dir l k = none) (fresh : own q = .free) (page : PoolPage q)
    (clear : ∀ i < 512, mem'.load (q + 8 * i) 8 = 0)
    (entry : mem'.load (parent + 8 * (k % 512)) 8 = mkPte q pteV)
    (same : ∀ x, own (pageOf x) = .table space →
      ¬ (parent + 8 * (k % 512) ≤ x ∧ x < parent + 8 * (k % 512) + 8) → mem' x = mem x) :
    SpaceTables (Function.update own q (.table space)) mem' space root (dir.insert l k q) := by
  have new : ∀ l' k', dir l' k' ≠ some q := fun l' k' here => by
    have := tables.own_table here
    simp [fresh] at this
  have entries : ∀ {l' k' p : Nat}, dir l' k' = some p → ∀ i < 512, ¬ (l' = l + 1 ∧ k' = k / 512 ∧ i = k % 512) →
      mem'.load (p + 8 * i) 8 = mem.load (p + 8 * i) 8 := by
    intro l' k' p here i low other
    refine Mem.load_congr fun x first last => same x ?_ fun touch => other ?_
    · rw [pageOf_of_mem (tables.page pool here).1 (by omega) (by omega)]
      exact tables.own_table here
    · exact tables.tree.table_unique here found (tables.page pool here).1
        (tables.page pool found).1 low (by omega) (by omega)
  refine ⟨⟨?_, fun l' k' p here => ?_, fun l' k' p low here => ?_, fun k' p here => ?_,
    fun l₁ k₁ l₂ k₂ p here there => ?_⟩, fun p => ?_⟩
  · have : ¬ (2 = l ∧ 0 = k) := by omega
    simp [Directory.insert, this, tables.tree.root_mem]
  · simp only [Directory.insert] at here ⊢
    split at here
    · next equal =>
        obtain ⟨rfl, rfl⟩ := equal
        right
        refine ⟨level, ?_⟩
        rw [if_neg (by omega), found]
        rfl
    · rcases tables.tree.shape l' k' p here with top | ⟨low, parentSome⟩
      · exact .inl top
      · refine .inr ⟨low, ?_⟩
        split
        · rfl
        · exact parentSome
  · simp only [Directory.insert] at here ⊢
    split at here
    · next equal =>
        obtain ⟨rfl, rfl⟩ := equal
        obtain rfl : q = p := by simpa using here
        have orphan : dir l' k' = none := by
          cases below : dir l' k' with
          | none => rfl
          | some r =>
              rcases tables.tree.shape l' k' r below with ⟨top, _⟩ | ⟨_, parentSome⟩
              · omega
              · rw [absent] at parentSome
                simp at parentSome
        rw [clear (k' % 512) (by omega), if_neg (by omega), orphan]
        rfl
    · by_cases target : l' = l ∧ k' = k
      · obtain ⟨rfl, rfl⟩ := target
        rw [found] at here
        obtain rfl : parent = p := by simpa using here
        rw [entry, if_pos ⟨rfl, rfl⟩]
        rfl
      · rw [if_neg target, entries here (k' % 512) (by omega) (by omega)]
        exact tables.tree.inner l' k' p low here
  · simp only [Directory.insert] at here
    split at here
    · obtain rfl : q = p := by simpa using here
      exact .inl (clear (k' % 512) (by omega))
    · rw [entries here (k' % 512) (by omega) (by omega)]
      exact tables.tree.leaf k' p here
  · simp only [Directory.insert] at here there
    split at here <;> split at there
    · next equal equal' => omega
    · next equal _ =>
        obtain rfl : q = p := by simpa using here
        exact absurd there (new _ _)
    · next _ equal =>
        obtain rfl : q = p := by simpa using there
        exact absurd here (new _ _)
    · exact tables.tree.inj _ _ _ _ _ here there
  · by_cases equal : p = q
    · subst equal
      simp only [Function.update_self, true_iff]
      exact ⟨l, k, by simp [Directory.insert]⟩
    · rw [Function.update_of_ne equal, tables.owned]
      constructor
      · rintro ⟨l', k', here⟩
        refine ⟨l', k', ?_⟩
        simp only [Directory.insert]
        rw [if_neg, here]
        rintro ⟨rfl, rfl⟩
        rw [absent] at here
        simp at here
      · rintro ⟨l', k', here⟩
        simp only [Directory.insert] at here
        split at here
        · simp only [Option.some.injEq] at here
          exact absurd here.symm equal
        · exact ⟨l', k', here⟩

end SpaceTables

end KuroOS
