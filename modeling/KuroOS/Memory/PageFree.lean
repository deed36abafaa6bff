import KuroOS.Memory.PageMap

/-!
# Freeing a tree of tables

`pgtable_free_walk` frees the tables bottom up, in place: a table whose page is
already on the free list is still named by its parent's entry until the entry
is cleared. The induction is therefore on subtrees, whose pages are disjoint,
and says exactly which bytes a call leaves alone.
-/

namespace KuroOS

open Base

/-- The tables at and under an entry of a directory. -/
def Directory.below (dir : Directory) : (l k : Nat) → Set Nat
  | 0, k => {q | dir 0 k = some q}
  | l + 1, k => {q | ∃ p, dir (l + 1) k = some p ∧
      (q = p ∨ ∃ i < 512, q ∈ Directory.below dir l (512 * k + i))}

/-- Memory holds the subtree of a table of level `l`. -/
def SubTree (mem : Mem) (dir : Directory) : (l k p : Nat) → Prop
  | 0, _, p => ∀ i < 512, LeafEntry (mem.load (p + 8 * i) 8)
  | l + 1, k, p => ∀ i < 512,
      (dir l (512 * k + i) = none ∧ mem.load (p + 8 * i) 8 = 0) ∨
      ∃ q, dir l (512 * k + i) = some q ∧ mem.load (p + 8 * i) 8 = mkPte q pteV ∧
        SubTree mem dir l (512 * k + i) q

variable {mem mem' : Mem} {root : Nat} {dir : Directory} {l k : Nat}

namespace Directory

theorem self_mem_below {p : Nat} (found : dir l k = some p) : p ∈ dir.below l k := by
  cases l with
  | zero => exact found
  | succ l => exact ⟨p, found, .inl rfl⟩

/-- A page below an entry is a table whose key has the entry's as prefix. -/
theorem mem_below {q : Nat} (member : q ∈ dir.below l k) :
    ∃ l' k', l' ≤ l ∧ k' / 512 ^ (l - l') = k ∧ dir l' k' = some q := by
  induction l generalizing k with
  | zero => exact ⟨0, k, Nat.le_refl 0, by simp, member⟩
  | succ l ih =>
      obtain ⟨p, found, rfl | ⟨i, low, deeper⟩⟩ := member
      · exact ⟨l + 1, k, Nat.le_refl _, by simp, found⟩
      · obtain ⟨l', k', level, key, here⟩ := ih deeper
        refine ⟨l', k', by omega, ?_, here⟩
        rw [show l + 1 - l' = l - l' + 1 by omega, Nat.pow_succ, ← Nat.div_div_eq_div_mul, key]
        omega

theorem below_of_none (absent : dir l k = none) {q : Nat} : q ∉ dir.below l k := by
  cases l with
  | zero => simp [below, absent]
  | succ l => simp [below, absent]

end Directory

namespace PageTree

/-- Subtrees of different entries of one level share no table. -/
theorem below_disjoint (tree : PageTree mem root dir) {k' q : Nat} (member : q ∈ dir.below l k)
    (member' : q ∈ dir.below l k') : k = k' := by
  obtain ⟨m, j, _, key, found⟩ := Directory.mem_below member
  obtain ⟨m', j', _, key', found'⟩ := Directory.mem_below member'
  obtain ⟨rfl, rfl⟩ := tree.inj _ _ _ _ _ found found'
  exact key.symm.trans key'

/-- A table is not in the subtrees under it. -/
theorem not_mem_below (tree : PageTree mem root dir) {p k' : Nat} (found : dir (l + 1) k = some p) :
    p ∉ dir.below l k' := by
  intro member
  obtain ⟨m, j, low, _, found'⟩ := Directory.mem_below member
  have := tree.inj _ _ _ _ _ found found'
  omega

/-- Every table of a tree heads a subtree. -/
theorem subTree (tree : PageTree mem root dir) {p : Nat} (level : l ≤ 2)
    (found : dir l k = some p) : SubTree mem dir l k p := by
  induction l generalizing k p with
  | zero =>
      intro i low
      have := tree.leaf (512 * k + i) p (by rw [show (512 * k + i) / 512 = k by omega, found])
      rwa [show (512 * k + i) % 512 = i by omega] at this
  | succ l ih =>
      intro i low
      have entry := tree.inner l (512 * k + i) p (by omega)
        (by rw [show (512 * k + i) / 512 = k by omega, found])
      rw [show (512 * k + i) % 512 = i by omega] at entry
      cases child : dir l (512 * k + i) with
      | none => exact .inl ⟨rfl, by simpa [child, innerEntry] using entry⟩
      | some q => exact .inr ⟨q, rfl, by simpa [child, innerEntry] using entry, ih (by omega) child⟩

/-- The tables of a tree are those below its root. -/
theorem mem_below_root (tree : PageTree mem root dir) {q : Nat} :
    q ∈ dir.below 2 0 ↔ ∃ l k, dir l k = some q := by
  constructor
  · intro member
    obtain ⟨l, k, _, _, found⟩ := Directory.mem_below member
    exact ⟨l, k, found⟩
  -- climb from a table to the root, one level at a time
  · rintro ⟨l, k, found⟩
    have up : ∀ l k q, dir l k = some q → l < 2 → ∀ x ∈ dir.below l k,
        ∃ p, dir (l + 1) (k / 512) = some p ∧ x ∈ dir.below (l + 1) (k / 512) := by
      intro l k q found low x member
      rcases tree.shape l k q found with ⟨top, _⟩ | ⟨_, parent⟩
      · omega
      obtain ⟨p, parent⟩ := Option.isSome_iff_exists.mp parent
      refine ⟨p, parent, p, parent, .inr ⟨k % 512, by omega, ?_⟩⟩
      rwa [show 512 * (k / 512) + k % 512 = k by omega]
    have member := Directory.self_mem_below found
    have shape := tree.shape l k q found
    rcases shape with ⟨rfl, rfl⟩ | ⟨low, _⟩
    · exact member
    obtain ⟨p, found₁, member₁⟩ := up l k q found low q member
    rcases tree.shape _ _ p found₁ with ⟨level, key⟩ | ⟨low₁, _⟩
    · rwa [level, key] at member₁
    obtain ⟨p', found₂, member₂⟩ := up _ _ p found₁ low₁ q member₁
    rcases tree.shape _ _ p' found₂ with ⟨level, key⟩ | ⟨low₂, _⟩
    · rwa [level, key] at member₂
    · omega

end PageTree

/-- A subtree depends on the bytes of its tables only. -/
theorem SubTree.congr {p : Nat} (sub : SubTree mem dir l k p) (found : dir l k = some p)
    (same : ∀ q ∈ dir.below l k, ∀ x, q ≤ x → x < q + 4096 → mem' x = mem x) :
    SubTree mem' dir l k p := by
  have entries : ∀ i < 512, mem'.load (p + 8 * i) 8 = mem.load (p + 8 * i) 8 := fun i low =>
    Mem.load_congr fun x _ _ => same p (Directory.self_mem_below found) x (by omega) (by omega)
  induction l generalizing k p with
  | zero =>
      intro i low
      rw [entries i low]
      exact sub i low
  | succ l ih =>
      intro i low
      rw [entries i low]
      rcases sub i low with absent | ⟨q, child, entry, deeper⟩
      · exact .inl absent
      have inside : ∀ r ∈ dir.below l (512 * k + i), ∀ x, r ≤ x → x < r + 4096 → mem' x = mem x :=
        fun r member => same r ⟨p, found, .inr ⟨i, low, member⟩⟩
      refine .inr ⟨q, child, entry, ih deeper child inside fun j small => ?_⟩
      exact Mem.load_congr fun x _ _ =>
        inside q (Directory.self_mem_below child) x (by omega) (by omega)

variable [Layout] {own own₁ own₂ : Nat → Owner} {free free' : List Nat} {s t t' : Kernel} {p i : Nat}
  {child : Nat → Set Nat} {halt : Halt → Kernel → Prop}

/-- Where `pgtable_free_walk` stands before entry `i` of the table `p`: the
pages under the entries before it are free, and the rest of `p` is unread. -/
structure FreeLoop (child : Nat → Set Nat) (p i : Nat) (own : Nat → Owner) (s : Kernel)
    (own' : Nat → Owner) (t : Kernel) : Prop where
  owner : ∀ q, ((∃ j < i, q ∈ child j) → own' q = .free) ∧ ((∀ j < i, q ∉ child j) → own' q = own q)
  bytes : ∀ x, own (pageOf x) ≠ .free → (∀ j < i, pageOf x ∉ child j) → pageOf x ≠ p →
    x ∉ node Layout.freePageList → t.mem x = s.mem x
  unread : ∀ x, p + 8 * i ≤ x → x < p + 4096 → t.mem x = s.mem x
  globals : t = { s with mem := t.mem, nrFreePages := t.nrFreePages }

namespace FreeLoop

theorem start : FreeLoop child p 0 own s own s where
  owner q := ⟨fun ⟨j, low, _⟩ => absurd low (by omega), fun _ => rfl⟩
  bytes _ _ _ _ _ := rfl
  unread _ _ _ := rfl
  globals := rfl

/-- A round that releases the pages under entry `i`. -/
theorem release (loop : FreeLoop child p i own s own₁ t) (inUse : own p ≠ .free)
    (page : PoolPage p) (apart : ∀ j, p ∉ child j)
    (releases : Releases {.free} (child i) own₁ t own₂ t') : FreeLoop child p (i + 1) own s own₂ t' where
  owner q := by
    constructor
    · rintro ⟨j, low, member⟩
      by_cases now : q ∈ child i
      · exact (releases.owner q).1 now
      · rw [(releases.owner q).2 now]
        refine (loop.owner q).1 ⟨j, ?_, member⟩
        rcases Nat.lt_succ_iff_lt_or_eq.mp low with low | rfl
        · exact low
        · exact absurd member now
    · intro outside
      rw [(releases.owner q).2 (outside i (by omega))]
      exact (loop.owner q).2 fun j low => outside j (by omega)
  bytes x used outside other plain := by
    have before := (loop.owner (pageOf x)).2 fun j low => outside j (by omega)
    rw [releases.bytes x (before ▸ used) (outside i (by omega)) plain]
    exact loop.bytes x used (fun j low => outside j (by omega)) other plain
  unread x low high := by
    have bounds := page.bounds
    have inPage : pageOf x = p := pageOf_of_mem bounds.1 (by omega) high
    have before := (loop.owner p).2 fun j _ => apart j
    rw [releases.bytes x (by rw [inPage, before]; exact inUse) (by rw [inPage]; exact apart i)
      (fun ⟨_, below⟩ => by omega)]
    exact loop.unread x (by omega) high
  globals := by
    have := loop.globals
    rw [releases.globals]
    generalize t'.mem = m, t'.nrFreePages = n
    rw [this]

/-- The round's last store, which clears the entry it has dealt with. -/
theorem clear (loop : FreeLoop child p (i + 1) own s own₁ t) (low : i < 512) (page : PoolPage p) :
    FreeLoop child p (i + 1) own s own₁ { t with mem := t.mem.store (p + 8 * i) 8 0 } where
  owner := loop.owner
  bytes x used outside other plain := by
    refine (Mem.store_of_outside ?_).trans (loop.bytes x used outside other plain)
    by_contra touch
    exact other (pageOf_of_mem page.1 (by omega) (by omega))
  unread x first last := (Mem.store_of_outside (by omega)).trans (loop.unread x first last)
  globals := by
    have := loop.globals
    generalize t.mem.store (p + 8 * i) 8 0 = m
    rw [this]

/-- Clearing an entry of a page in use leaves the pool alone. -/
theorem pool_clear (pool : Pool own free t) (inUse : own p ≠ .free) (low : i < 512)
    (page : PoolPage p) : Pool own free { t with mem := t.mem.store (p + 8 * i) 8 0 } := by
  have bounds := page.bounds
  refine pool.congr (fun x inside => Mem.store_of_outside ?_) rfl
  by_contra touch
  rcases inside with isFree | ⟨_, below⟩
  · rw [pageOf_of_mem bounds.1 (by omega) (by omega)] at isFree
    exact inUse isFree
  · omega

end FreeLoop

/-- `pgtable_free_walk` on a subtree frees exactly its tables. -/
theorem pgtableFreeFrom_spec (tree : PageTree mem root dir) {depth : Nat} (deep : l < depth)
    (level : l ≤ 2) (found : dir l k = some p) (sub : SubTree s.mem dir l k p)
    (pool : Pool own free s)
    (inUse : ∀ q ∈ dir.below l k, own q ≠ .free ∧ own q ≠ .outside) :
    wp (pgtableFreeFrom depth p) s (fun _ s' => ∃ own' free', Pool own' free' s' ∧
      Releases {.free} (dir.below l k) own s own' s') halt := by
  induction l generalizing k p own free s depth with
  | zero =>
      obtain ⟨depth, rfl⟩ : ∃ d, depth = d + 1 := ⟨depth - 1, by omega⟩
      have self := inUse p found
      have page := pool.pages p self.2
      have bounds := page.bounds
      have nonzero : p ≠ 0 := by omega
      have only : dir.below 0 k = {p} := by
        ext q
        simp [Directory.below, found, eq_comm]
      rw [pgtableFreeFrom, wp_bind, wp_kassert, if_pos nonzero, wp_bind]
      refine wp_mono (wp_countUp (fun i t => Pool own free t ∧ FreeLoop (fun _ => ∅) p i own s own t)
        ⟨pool, .start⟩ ?_) ?_ fun _ _ => id
      · rintro i (low : i < 512) t ⟨pool', loop⟩
        have value : t.mem.load (p + 8 * i) 8 = s.mem.load (p + 8 * i) 8 :=
          Mem.load_congr fun x _ _ => loop.unread x (by omega) (by omega)
        have next := loop.release self.1 page (fun _ => id) .refl
        simp only [wp_bind, wp_loadWord, value, wp_ite, wp_pure, wp_storeWord]
        rcases sub i low with zero | ⟨present, isLeaf⟩
        · rw [zero]
          simpa using ⟨pool', next⟩
        · simp only [present, isLeaf, Bool.true_eq_false, if_false, if_true]
          exact ⟨FreeLoop.pool_clear pool' self.1 low page, next.clear low page⟩
      · rintro _ t ⟨pool', loop⟩
        refine wp_mono (pool'.release self.1 self.2) ?_ fun _ _ => id
        rintro _ s' ⟨own', pool'', releases⟩
        refine ⟨own', _, pool'', only ▸ ⟨releases.owner, fun x used other plain => ?_, ?_⟩⟩
        · exact (releases.bytes x used other plain).trans
            (loop.bytes x used (fun _ _ => id) other plain)
        · have := loop.globals
          rw [releases.globals]
          generalize s'.mem = m, s'.nrFreePages = n
          rw [this]
  | succ l ih =>
      obtain ⟨depth, rfl⟩ : ∃ d, depth = d + 1 := ⟨depth - 1, by omega⟩
      have self := inUse p (Directory.self_mem_below found)
      have page := pool.pages p self.2
      have bounds := page.bounds
      have nonzero : p ≠ 0 := by omega
      have apart : ∀ j, p ∉ dir.below l (512 * k + j) := fun j => tree.not_mem_below found
      have inside : ∀ i < 512, ∀ q ∈ dir.below l (512 * k + i), q ∈ dir.below (l + 1) k :=
        fun i low q member => ⟨p, found, .inr ⟨i, low, member⟩⟩
      rw [pgtableFreeFrom, wp_bind, wp_kassert, if_pos nonzero, wp_bind]
      refine wp_mono (wp_countUp (fun i t => ∃ own' free', Pool own' free' t ∧
        FreeLoop (fun j => dir.below l (512 * k + j)) p i own s own' t)
        ⟨own, free, pool, .start⟩ ?_) ?_ fun _ _ => id
      · rintro i (low : i < 512) t ⟨own₁, free₁, pool₁, loop⟩
        have value : t.mem.load (p + 8 * i) 8 = s.mem.load (p + 8 * i) 8 :=
          Mem.load_congr fun x _ _ => loop.unread x (by omega) (by omega)
        have ownP : own₁ p = own p := (loop.owner p).2 fun j _ => apart j
        simp only [wp_bind, wp_loadWord, value, wp_ite, wp_pure, wp_storeWord]
        rcases sub i low with ⟨absent, zero⟩ | ⟨q, here, entry, deeper⟩
        · have none : dir.below l (512 * k + i) = ∅ :=
            Set.eq_empty_of_forall_notMem fun q => Directory.below_of_none absent
          have next := loop.release self.1 page apart (none ▸ Releases.refl (s := t))
          rw [zero]
          simpa using ⟨own₁, ⟨free₁, pool₁⟩, next⟩
        · -- the subtree under this entry is as it was: nothing freed so far is in it
          have fresh : ∀ r ∈ dir.below l (512 * k + i), own₁ r = own r := fun r member =>
            (loop.owner r).2 fun j small member' => by
              have := tree.below_disjoint member member'
              omega
          have still : SubTree t.mem dir l (512 * k + i) q := by
            refine deeper.congr here fun r member x first last => ?_
            have used := inUse r (inside i low r member)
            have valid := (pool.pages r used.2).bounds
            have inPage : pageOf x = r := pageOf_of_mem valid.1 first last
            refine loop.bytes x (inPage ▸ used.1) (fun j small member' => ?_) ?_
              (by
                rintro ⟨_, below⟩
                omega)
            · have := tree.below_disjoint member (inPage ▸ member')
              omega
            · rintro rfl
              exact apart i (inPage ▸ member)
          have child := (pool.pages q (inUse q (inside i low q
            (Directory.self_mem_below here))).2).bounds
          have present : ptePresent (mkPte q pteV) = true := mkPte_present (by decide) (by decide)
          have notLeaf : pteLeaf (mkPte q pteV) = false := by
            rw [mkPte_leaf (by decide)]
            rfl
          have target : pteToPa (mkPte q pteV) = q := by
            rw [mkPte_pa (by decide) child.1]
            omega
          simp only [entry, present, notLeaf, target, Bool.true_eq_false, Bool.false_eq_true, if_false]
          refine wp_mono (ih (by omega) (by omega) here still pool₁ fun r member => ?_) ?_
            fun _ _ => id
          · rw [fresh r member]
            exact inUse r (inside i low r member)
          rintro _ t' ⟨own₂, free₂, pool₂, releases⟩
          have next := loop.release self.1 page apart releases
          have ownP' : own₂ p = own p := ((releases.owner p).2 (apart i)).trans ownP
          exact ⟨own₂, free₂, FreeLoop.pool_clear pool₂ (ownP' ▸ self.1) low page,
            next.clear low page⟩
      · rintro _ t ⟨own₁, free₁, pool₁, loop⟩
        have ownP : own₁ p = own p := (loop.owner p).2 fun j _ => apart j
        refine wp_mono (pool₁.release (ownP ▸ self.1) (ownP ▸ self.2)) ?_ fun _ _ => id
        rintro _ s' ⟨own₂, pool₂, releases⟩
        refine ⟨own₂, _, pool₂, fun q => ⟨?_, fun outside => ?_⟩, fun x used outside plain => ?_, ?_⟩
        · rintro ⟨p', here, rfl | ⟨i, low, member⟩⟩
          · rw [found] at here
            exact (releases.owner q).1 (by simpa using here.symm)
          · rw [(releases.owner q).2 fun equal => apart i (equal ▸ member)]
            exact (loop.owner q).1 ⟨i, low, member⟩
        · rw [(releases.owner q).2 fun equal => outside ⟨p, found, .inl equal⟩]
          exact (loop.owner q).2 fun i low member => outside (inside i low q member)
        · have other : pageOf x ≠ p := fun equal => outside ⟨p, found, .inl equal⟩
          have kept := (loop.owner (pageOf x)).2 fun i low member =>
            outside (inside i low _ member)
          rw [releases.bytes x (kept ▸ used) other plain]
          exact loop.bytes x used (fun i low member => outside (inside i low _ member)) other plain
        · have := loop.globals
          rw [releases.globals]
          generalize s'.mem = m, s'.nrFreePages = n
          rw [this]

/-- `pgtable_free_walk` frees exactly the tables of the tree, and leaves the
pages that its leaves point at to their owners. -/
theorem pgtableFreeWalk_spec {space : Space} (tables : SpaceTables own s.mem space root dir)
    (pool : Pool own free s) :
    wp (pgtableFreeWalk root) s (fun _ s' => ∃ own' free', Pool own' free' s' ∧
      Releases {.free} {q | own q = .table space} own s own' s') halt := by
  have members : dir.below 2 0 = {q | own q = .table space} := by
    ext q
    rw [tables.tree.mem_below_root, ← tables.owned]
    rfl
  rw [← members]
  refine pgtableFreeFrom_spec tables.tree (by decide) (by omega) tables.tree.root_mem
    (tables.tree.subTree (by omega) tables.tree.root_mem) pool fun q member => ?_
  have : own q = .table space := by
    rw [members] at member
    exact member
  simp [this]

end KuroOS
