import KuroOS.Memory.PageTree

/-!
# Looking an address up, and building the path to it

`pgtable_walk` without allocation computes the directory's slot and changes
nothing. With allocation it adds the missing tables of one path, each cleared,
so that no translation changes; it stops half way when the pages run out, and
what it built by then is still a tree.
-/

namespace KuroOS

open Base

/-- Which tables a directory has, by level and page number prefix. -/
abbrev Reach := Nat → Nat → Bool

namespace Reach

/-- How many tables the path to a page number lacks. -/
def missing (has : Reach) (vpn : Nat) : Nat :=
  (if has 1 (vpn / 512 / 512) then 0 else 1) + (if has 0 (vpn / 512) then 0 else 1)

/-- The path to a page number, added. -/
def path (has : Reach) (vpn : Nat) : Reach := fun l k =>
  has l k || (l == 1 && k == vpn / 512 / 512) || (l == 0 && k == vpn / 512)

/-- The paths to consecutive page numbers, added. -/
def paths (has : Reach) : (pages vpn : Nat) → Reach
  | 0, _ => has
  | pages + 1, vpn => (has.path vpn).paths pages (vpn + 1)

/-- How many tables the paths to consecutive page numbers lack. -/
def need (has : Reach) : (pages vpn : Nat) → Nat
  | 0, _ => 0
  | pages + 1, vpn => has.missing vpn + (has.path vpn).need pages (vpn + 1)

theorem missing_le (has : Reach) (vpn : Nat) : has.missing vpn ≤ 2 := by
  unfold missing
  split <;> split <;> omega

theorem need_le (has : Reach) (pages vpn : Nat) : has.need pages vpn ≤ 2 * pages := by
  induction pages generalizing has vpn with
  | zero => simp [need]
  | succ pages ih =>
      have rest := ih (has.path vpn) (vpn + 1)
      have first := has.missing_le vpn
      rw [need]
      omega

end Reach

namespace Directory

/-- The tables there are. -/
def reach (dir : Directory) : Reach := fun l k => (dir l k).isSome

theorem insert_same {dir : Directory} {l k p : Nat} (found : dir l k = some p) :
    dir.insert l k p = dir := by
  funext l' k'
  unfold insert
  split
  · next equal => rw [equal.1, equal.2, found]
  · rfl

end Directory

/-- The table index of a level is the key of that level modulo 512. -/
theorem vpnIndex_key (va : Nat) :
    vpnIndex 2 va = va / 4096 / 512 / 512 % 512 ∧ vpnIndex 1 va = va / 4096 / 512 % 512 ∧
      vpnIndex 0 va = va / 4096 % 512 := by
  simp only [vpnIndex_eq]
  omega

variable [Layout]

/-- What page-table code may touch: free pages and the tables of its space. -/
abbrev TableMoves (space : Space) : (Nat → Owner) → Kernel → (Nat → Owner) → Kernel → Prop :=
  PageMoves {.free, .table space} {.free, .table space}

/-- A space's tables and the page pool, in one machine state. -/
structure TableState (space : Space) (root : Nat) (own : Nat → Owner) (free : List Nat)
    (dir : Directory) (s : Kernel) : Prop where
  tables : SpaceTables own s.mem space root dir
  pool : Pool own free s

variable {own : Nat → Owner} {free : List Nat} {s : Kernel} {space : Space} {root : Nat}
  {dir : Directory} {halt : Halt → Kernel → Prop}

/-- `pgtable_create` takes a page for the given owner and clears it. -/
theorem pgtableCreate_spec (pool : Pool own free s) {o : Owner} (notFree : o ≠ .free) :
    wp pgtableCreate s (fun page s' =>
      (free = [] ∧ page = 0 ∧ s' = s) ∨
      ∃ rest, free = page :: rest ∧ PoolPage page ∧ own page = .free ∧
        Pool (Function.update own page o) rest s' ∧
        PageMoves {.free, o} {.free} own s (Function.update own page o) s' ∧
        ∀ x, page ≤ x → x < page + 4096 → s'.mem x = 0) halt := by
  unfold pgtableCreate
  refine wp_bind_of (pool.alloc notFree) fun page s' => ?_
  rintro (⟨empty, rfl, rfl⟩ | ⟨rest, shape, valid, wasFree, pool', moves⟩)
  · simp [empty]
  · have bounds := valid.bounds
    have nonzero : page ≠ 0 := by omega
    simp only [nonzero, if_false, wp_bind, wp_modifyMem, wp_pure]
    have elsewhere : ∀ x, pageOf x ≠ page → pageZero s'.mem page x = s'.mem x := fun x other => by
      rw [pageZero_apply, if_neg]
      rintro ⟨low, high⟩
      exact other (pageOf_of_mem bounds.1 low high)
    refine .inr ⟨rest, shape, valid, wasFree, ?_, ⟨?_, ?_⟩, fun x low high => ?_⟩
    · refine pool'.congr (fun x inside => elsewhere x ?_) rfl
      rintro rfl
      rcases inside with isFree | ⟨low, high⟩
      · simp [notFree] at isFree
      · have : x / 4096 * 4096 ≤ x := by omega
        unfold pageOf at bounds
        omega
    · refine moves.moves.write fun x foreign _ => elsewhere x ?_
      rintro rfl
      exact foreign wasFree
    · exact congrArg (fun t : Kernel => { t with mem := pageZero s'.mem page }) moves.globals
    · rw [pageZero_apply, if_pos ⟨low, high⟩]

/-- Following an entry whose table is in the directory. -/
theorem descend_found (st : TableState space root own free dir s) {l k p q : Nat} (level : l < 2)
    (parent : dir (l + 1) (k / 512) = some p) (found : dir l k = some q) (alloc : Bool) :
    wp (pgtableDescend alloc (p + 8 * (k % 512))) s (fun r s' => r = some q ∧ s' = s) halt := by
  have entry := st.tables.tree.inner l k p level parent
  have page := (st.tables.page st.pool found).bounds
  have present : ptePresent (mkPte q pteV) = true := mkPte_present (by decide) (by decide)
  have notLeaf : pteLeaf (mkPte q pteV) = false := by
    rw [mkPte_leaf (by decide)]
    rfl
  have target : pteToPa (mkPte q pteV) = q := by
    rw [mkPte_pa (by decide) page.1]
    omega
  rw [found] at entry
  unfold pgtableDescend
  simp only [wp_bind, wp_loadWord, entry, innerEntry, wp_ite, present, if_true, wp_kassert, notLeaf,
    wp_pure, target, and_self]

/-- Following an entry whose table is missing, without allocation. -/
theorem descend_absent (st : TableState space root own free dir s) {l k p : Nat} (level : l < 2)
    (parent : dir (l + 1) (k / 512) = some p) (absent : dir l k = none) :
    wp (pgtableDescend false (p + 8 * (k % 512))) s (fun r s' => r = none ∧ s' = s) halt := by
  have entry := st.tables.tree.inner l k p level parent
  rw [absent] at entry
  unfold pgtableDescend
  simp only [wp_bind, wp_loadWord, entry, innerEntry, wp_ite, ptePresent_zero, Bool.false_eq_true,
    if_false, if_true, wp_pure, and_self]

/-- `pgtable_walk` past its assertions. -/
theorem pgtableWalk_enter {va : Nat} {alloc : Bool} {post : Nat → Kernel → Prop} (nonzero : root ≠ 0)
    (below : va < 2 ^ 38) (holds : wp (pgtableWalkFrom va alloc 2 root) s post halt) :
    wp (pgtableWalk root va alloc) s post halt := by
  have inRange : va < maxVa := below
  unfold pgtableWalk
  simp only [wp_bind, wp_kassert, ne_eq, nonzero, not_false_eq_true, if_true, inRange]
  exact holds

/-- `pgtable_walk` without allocation finds the directory's slot and changes
nothing. -/
theorem pgtableWalk_lookup (st : TableState space root own free dir s) {va : Nat}
    (below : va < 2 ^ 38) :
    wp (pgtableWalk root va false) s (fun r s' => r = dir.slot (va / 4096) ∧ s' = s) halt := by
  have rootPage := (st.tables.page st.pool st.tables.tree.root_mem).bounds
  obtain ⟨top, middle, bottom⟩ := vpnIndex_key va
  have rootKey : dir (1 + 1) (va / 4096 / 512 / 512 / 512) = some root := by
    rw [show va / 4096 / 512 / 512 / 512 = 0 by omega]
    exact st.tables.tree.root_mem
  refine pgtableWalk_enter (by omega) below ?_
  rw [pgtableWalkFrom, top, wp_bind]
  cases upper : dir 1 (va / 4096 / 512 / 512) with
  | none =>
      refine wp_mono (descend_absent st (by omega) rootKey upper) ?_ fun _ _ => id
      rintro _ _ ⟨rfl, rfl⟩
      have lower : dir 0 (va / 4096 / 512) = none := by
        cases found : dir 0 (va / 4096 / 512) with
        | none => rfl
        | some q =>
            rcases st.tables.tree.shape _ _ _ found with ⟨impossible, _⟩ | ⟨_, parent⟩
            · omega
            · simp [upper] at parent
      simp [Directory.slot, lower]
  | some p =>
      refine wp_mono (descend_found st (by omega) rootKey upper false) ?_ fun _ _ => id
      rintro _ _ ⟨rfl, rfl⟩
      simp only
      rw [pgtableWalkFrom, middle, wp_bind]
      cases lower : dir 0 (va / 4096 / 512) with
      | none =>
          refine wp_mono (descend_absent st (by omega) upper lower) ?_ fun _ _ => id
          rintro _ _ ⟨rfl, rfl⟩
          simp [Directory.slot, lower]
      | some q =>
          refine wp_mono (descend_found st (by omega) upper lower false) ?_ fun _ _ => id
          rintro _ _ ⟨rfl, rfl⟩
          simp [pgtableWalkFrom, Directory.slot, lower, bottom]

/-- Following an entry with allocation: afterwards the directory has its table,
or the pages have run out and nothing has changed. -/
theorem descend_alloc (st : TableState space root own free dir s) {l k p : Nat} (level : l < 2)
    (parent : dir (l + 1) (k / 512) = some p) :
    wp (pgtableDescend true (p + 8 * (k % 512))) s (fun r s' =>
      (∃ q own' free', r = some q ∧ TableState space root own' free' (dir.insert l k q) s' ∧
        TableMoves space own s own' s' ∧
        (∀ vpn, (dir.insert l k q).leafAt s'.mem vpn = dir.leafAt s.mem vpn) ∧
        free.length = free'.length + if (dir l k).isSome then 0 else 1) ∨
      r = none ∧ dir l k = none ∧ free = [] ∧ s' = s) halt := by
  cases here : dir l k with
  | some q =>
      refine wp_mono (descend_found st level parent here true) ?_ fun _ _ => id
      rintro _ _ ⟨rfl, rfl⟩
      refine .inl ⟨q, own, free, rfl, ?_, .refl, ?_, by simp⟩ <;> rw [Directory.insert_same here]
      · exact st
      · exact fun _ => rfl
  | none =>
      have entry := st.tables.tree.inner l k p level parent
      have parentPage := (st.tables.page st.pool parent).bounds
      have parentOwn := st.tables.own_table parent
      rw [here] at entry
      unfold pgtableDescend
      simp only [wp_bind, wp_loadWord, entry, innerEntry, wp_ite, ptePresent_zero, Bool.false_eq_true,
        if_false, reduceCtorEq]
      refine wp_mono (pgtableCreate_spec st.pool (o := .table space) (by simp)) ?_ fun _ _ => id
      rintro q s' (⟨empty, rfl, rfl⟩ | ⟨rest, shape, page, wasFree, pool, moves, clear⟩)
      · simp [empty]
      have bounds := page.bounds
      have nonzero : q ≠ 0 := by omega
      have different : q ≠ p := by
        rintro rfl
        simp [wasFree] at parentOwn
      simp only [nonzero, if_false, wp_storeWord, wp_pure]
      -- the store into the parent's entry is the only change since the page was cleared
      have stored : ∀ x, ¬ (p + 8 * (k % 512) ≤ x ∧ x < p + 8 * (k % 512) + 8) →
          s'.mem.store (p + 8 * (k % 512)) 8 (mkPte q pteV) x = s'.mem x :=
        fun x outside => Mem.store_of_outside (by omega)
      have unmoved : ∀ x, own (pageOf x) = .table space → s'.mem x = s.mem x := fun x owned => by
        refine moves.moves.bytes x (by simp [owned]) fun ⟨low, high⟩ => ?_
        have := (st.pool.pages (pageOf x) (by simp [owned])).bounds
        unfold pageOf at this
        omega
      have outsideQ : ∀ x, pageOf x ≠ p → ¬ (p + 8 * (k % 512) ≤ x ∧ x < p + 8 * (k % 512) + 8) :=
        fun x other touch => other (pageOf_of_mem parentPage.1 (by omega) (by omega))
      refine .inl ⟨q, Function.update own q (.table space), rest, rfl, ⟨?_, ?_⟩, ⟨?_, ?_⟩,
        fun vpn => ?_, by simp [shape]⟩
      · refine st.tables.insert st.pool level parent here wasFree page (fun i low => ?_) ?_
          fun x owned outside => ?_
        · refine Mem.load_zero fun x first last => ?_
          refine (stored x (outsideQ x ?_)).trans (clear x (by omega) (by omega))
          rw [pageOf_of_mem bounds.1 (by omega) (by omega)]
          exact different
        · exact Mem.load_store_same (mkPte_lt (by decide) (by omega))
        · exact (stored x outside).trans (unmoved x owned)
      · refine pool.congr (fun x inside => stored x (outsideQ x ?_)) rfl
        rintro rfl
        rcases inside with isFree | ⟨low, high⟩
        · rw [Function.update_of_ne different.symm] at isFree
          simp [parentOwn] at isFree
        · unfold pageOf at parentPage
          omega
      · refine (moves.mono (by simp) (by simp) (by simp)).moves.write fun x foreign _ =>
          stored x (outsideQ x ?_)
        rintro rfl
        simp [parentOwn] at foreign
      · exact congrArg (fun t : Kernel =>
          { t with mem := s'.mem.store (p + 8 * (k % 512)) 8 (mkPte q pteV) }) moves.globals
      · -- the new table is clear, and a level-0 table that was there kept its bytes
        unfold Directory.leafAt
        by_cases target : 0 = l ∧ vpn / 512 = k
        · obtain ⟨rfl, rfl⟩ := target
          simp only [Directory.insert, and_self, if_true, here]
          refine Mem.load_zero fun x first last => ?_
          refine (stored x (outsideQ x ?_)).trans (clear x (by omega) (by omega))
          rw [pageOf_of_mem bounds.1 (by omega) (by omega)]
          exact different
        · simp only [Directory.insert, target, if_false]
          cases found : dir 0 (vpn / 512) with
          | none => rfl
          | some r =>
              have page := (st.tables.page st.pool found).bounds
              refine Mem.load_congr fun x first last => ?_
              have inTable : pageOf x = r := pageOf_of_mem page.1 (by omega) (by omega)
              have other : r ≠ p := by
                rintro rfl
                have := st.tables.tree.inj _ _ _ _ _ found parent
                omega
              exact (stored x (outsideQ x (inTable ▸ other))).trans
                (unmoved x (inTable ▸ st.tables.own_table found))

/-- `pgtable_walk` with allocation reaches the slot of the address, building
the path to it; short of pages, it stops with a tree all the same. No
translation changes either way. -/
theorem pgtableWalk_alloc (st : TableState space root own free dir s) {va : Nat}
    (below : va < 2 ^ 38) :
    wp (pgtableWalk root va true) s (fun r s' => ∃ own' free' dir',
      TableState space root own' free' dir' s' ∧ TableMoves space own s own' s' ∧
      (∀ vpn, dir'.leafAt s'.mem vpn = dir.leafAt s.mem vpn) ∧
      ((r ≠ 0 ∧ r = dir'.slot (va / 4096) ∧ dir'.reach = dir.reach.path (va / 4096) ∧
          free.length = free'.length + dir.reach.missing (va / 4096)) ∨
        (r = 0 ∧ free.length < dir.reach.missing (va / 4096)))) halt := by
  have rootPage := (st.tables.page st.pool st.tables.tree.root_mem).bounds
  obtain ⟨top, middle, bottom⟩ := vpnIndex_key va
  have rootKey : dir (1 + 1) (va / 4096 / 512 / 512 / 512) = some root := by
    rw [show va / 4096 / 512 / 512 / 512 = 0 by omega]
    exact st.tables.tree.root_mem
  refine pgtableWalk_enter (by omega) below ?_
  rw [pgtableWalkFrom, top, wp_bind]
  refine wp_mono (descend_alloc st (by omega) rootKey) ?_ fun _ _ => id
  rintro _ s₁ (⟨p, own₁, free₁, rfl, st₁, moves₁, leaves₁, count₁⟩ | ⟨rfl, absent, rfl, rfl⟩)
  · have upper : dir.insert 1 (va / 4096 / 512 / 512) p (0 + 1) (va / 4096 / 512 / 512) = some p := by
      simp [Directory.insert]
    simp only
    rw [pgtableWalkFrom, middle, wp_bind]
    refine wp_mono (descend_alloc st₁ (by omega) upper) ?_ fun _ _ => id
    have lowerSame : dir.insert 1 (va / 4096 / 512 / 512) p 0 (va / 4096 / 512) =
        dir 0 (va / 4096 / 512) := by
      simp [Directory.insert]
    rintro _ s₂ (⟨q, own₂, free₂, rfl, st₂, moves₂, leaves₂, count₂⟩ | ⟨rfl, absent, rfl, rfl⟩)
    · rw [lowerSame] at count₂
      have found : (dir.insert 1 (va / 4096 / 512 / 512) p).insert 0 (va / 4096 / 512) q 0
          (va / 4096 / 512) = some q := by
        simp [Directory.insert]
      have page := (st₂.tables.page st₂.pool found).bounds
      simp only [pgtableWalkFrom, wp_pure, bottom]
      refine ⟨own₂, free₂, _, st₂, moves₁.trans moves₂,
        fun vpn => (leaves₂ vpn).trans (leaves₁ vpn), .inl ⟨by omega, ?_, ?_, ?_⟩⟩
      · simp [Directory.slot, found]
      · funext l k
        simp only [Directory.reach, Directory.insert, Reach.path]
        split
        · next here => simp [here]
        · next other =>
            split
            · next here => simp [here]
            · next other' =>
                have offMiddle : (l == 1 && k == va / 4096 / 512 / 512) = false := by
                  simpa using other'
                have offBottom : (l == 0 && k == va / 4096 / 512) = false := by
                  simpa using other
                rw [offMiddle, offBottom, Bool.or_false, Bool.or_false]
      · unfold Reach.missing Directory.reach
        omega
    · rw [lowerSame] at absent
      simp only [wp_pure]
      refine ⟨own₁, [], _, st₁, moves₁, leaves₁, .inr ⟨trivial, ?_⟩⟩
      unfold Reach.missing Directory.reach
      simp only [absent, Option.isSome_none, Bool.false_eq_true, if_false, List.length_nil] at count₁ ⊢
      omega
  · simp only [wp_pure]
    refine ⟨own, [], dir, st, .refl, fun _ => rfl, .inr ⟨trivial, ?_⟩⟩
    unfold Reach.missing Directory.reach
    simp only [absent, Option.isSome_none, Bool.false_eq_true, if_false, List.length_nil]
    omega

end KuroOS
