import KuroOS.Memory.KernelMap

/-!
# What the hardware translates

The walk that the hardware makes through a tree of tables ends at the entry that
`pgtable_walk` finds. So an address space of the kernel translates the kernel's
own addresses to themselves, and user code reaches the user pages alone.
-/

namespace KuroOS

open Base

/-- The page number that Sv39 takes from an address: bits 12 to 38. -/
def sv39Vpn (va : Nat) : Nat := va / 4096 % 2 ^ 27

/-- The tables on the walk of an address. -/
theorem vpnIndex_sv39 (va : Nat) : vpnIndex 2 va = sv39Vpn va / 512 / 512 % 512 ∧
    vpnIndex 1 va = sv39Vpn va / 512 % 512 ∧ vpnIndex 0 va = sv39Vpn va % 512 ∧ sv39Vpn va / 512 / 512 / 512 = 0 := by
  simp only [vpnIndex_eq, sv39Vpn]
  refine ⟨?_, ?_, ?_, ?_⟩ <;> omega

/-- The entry of an inner table is not valid, or points at the next table. -/
theorem innerEntry_some {q : Nat} (aligned : q % 4096 = 0) (small : q < 2 ^ 56) :
    ptePresent (innerEntry (some q)) = true ∧ pteLeaf (innerEntry (some q)) = false ∧
      pteToPa (innerEntry (some q)) = q := by
  refine ⟨mkPte_present (by decide) (by decide), (mkPte_leaf (by decide)).trans (by decide), ?_⟩
  rw [innerEntry, mkPte_pa (by decide) aligned]
  omega

variable [Layout]

variable {own : Nat → Owner} {free : List Nat} {s : Kernel} {space : Space} {root : Nat} {dir : Directory}
  {user : UserMap}

namespace SpaceTables

/-- The entries on the walk of an address: it ends early at an entry that is zero,
or at the entry of the page number. -/
theorem walk (tables : SpaceTables own s.mem space root dir) (pool : Pool own free s) (va : Nat) :
    (s.mem.load (root + 8 * vpnIndex 2 va) 8 = 0 ∧ dir.leafAt s.mem (sv39Vpn va) = 0) ∨
    ∃ p, s.mem.load (root + 8 * vpnIndex 2 va) 8 = innerEntry (some p) ∧ PoolPage p ∧
      ((s.mem.load (p + 8 * vpnIndex 1 va) 8 = 0 ∧ dir.leafAt s.mem (sv39Vpn va) = 0) ∨
        ∃ q, s.mem.load (p + 8 * vpnIndex 1 va) 8 = innerEntry (some q) ∧ PoolPage q ∧
          s.mem.load (q + 8 * vpnIndex 0 va) 8 = dir.leafAt s.mem (sv39Vpn va)) := by
  obtain ⟨index₂, index₁, index₀, zero⟩ := vpnIndex_sv39 va
  rw [index₂, index₁, index₀]
  generalize sv39Vpn va = n at *
  have top := tables.tree.inner 1 (n / 512 / 512) root (by omega) (by rw [zero]; exact tables.tree.root_mem)
  rw [top]
  cases upper : dir 1 (n / 512 / 512) with
  | none =>
      have orphan : dir 0 (n / 512) = none := by
        by_contra some
        obtain ⟨p, found⟩ := Option.ne_none_iff_exists'.mp some
        rcases tables.tree.shape 0 (n / 512) p found with ⟨level, _⟩ | ⟨_, parent⟩
        · omega
        · simp [upper] at parent
      exact .inl ⟨rfl, by rw [Directory.leafAt, orphan]⟩
  | some p =>
      refine .inr ⟨p, rfl, tables.page pool upper, ?_⟩
      rw [tables.tree.inner 0 (n / 512) p (by omega) upper]
      cases lower : dir 0 (n / 512) with
      | none => exact .inl ⟨rfl, by rw [Directory.leafAt, lower]⟩
      | some q => exact .inr ⟨q, rfl, tables.page pool lower, by rw [Directory.leafAt, lower]⟩

/-- The entry at the end of the walk. -/
theorem sv39Entry (tables : SpaceTables own s.mem space root dir) (pool : Pool own free s) (va : Nat) :
    sv39EntryFrom s.mem va 2 root = dir.leafAt s.mem (sv39Vpn va) := by
  rw [sv39EntryFrom]
  rcases tables.walk pool va with ⟨zero, leaf⟩ | ⟨p, upper, page, lower⟩
  · simp [zero, leaf]
  have bounds := page.bounds
  obtain ⟨present, inner, here⟩ := innerEntry_some bounds.1 (by omega)
  simp only [upper, present, inner, here, Bool.not_false, Bool.and_self, if_true]
  rw [sv39EntryFrom]
  rcases lower with ⟨zero, leaf⟩ | ⟨q, lower, page', leaf⟩
  · simp [zero, leaf]
  have bounds' := page'.bounds
  obtain ⟨present', inner', here'⟩ := innerEntry_some bounds'.1 (by omega)
  simp only [lower, present', inner', here', Bool.not_false, Bool.and_self, if_true]
  exact leaf

/-- Translation from the root. -/
theorem sv39From (tables : SpaceTables own s.mem space root dir) (pool : Pool own free s) (va : Nat) (access : Access) :
    sv39From s.mem va access 2 root =
      if ptePresent (dir.leafAt s.mem (sv39Vpn va)) && pteLeaf (dir.leafAt s.mem (sv39Vpn va)) &&
          access.grants (dir.leafAt s.mem (sv39Vpn va)) then
        some (pteToPa (dir.leafAt s.mem (sv39Vpn va)) + va % 4096)
      else none := by
  rw [KuroOS.sv39From]
  rcases tables.walk pool va with ⟨zero, leaf⟩ | ⟨p, upper, page, lower⟩
  · simp [zero, leaf]
  have bounds := page.bounds
  obtain ⟨present, inner, here⟩ := innerEntry_some bounds.1 (by omega)
  simp only [upper, present, inner, here, Bool.true_eq_false, Bool.false_eq_true, if_false]
  rw [KuroOS.sv39From]
  rcases lower with ⟨zero, leaf⟩ | ⟨q, lower, page', leaf⟩
  · simp [zero, leaf]
  have bounds' := page'.bounds
  obtain ⟨present', inner', here'⟩ := innerEntry_some bounds'.1 (by omega)
  simp only [lower, present', inner', here', Bool.true_eq_false, Bool.false_eq_true, if_false]
  rw [KuroOS.sv39From, leaf]

end SpaceTables

omit [Layout] in
/-- No kernel entry has `PTE_U`. -/
theorem kernelEntry_user (n : Nat) : kernelEntry n &&& pteU = 0 := by
  unfold kernelEntry
  split
  · rw [mkPte_and (by decide) (by decide)]
    decide
  · split
    · rw [mkPte_and (by decide) (by decide)]
      decide
    · rfl

namespace SpaceState

/-- User code reaches user pages alone. -/
theorem sv39User (leaves : ∀ v, dir.leafAt s.mem v = spaceEntry user v)
    (tables : SpaceTables own s.mem space root dir) (pool : Pool own free s)
    (valid : ∀ n p, user n = some p → PoolPage p) {va x : Nat} {access : Access}
    (reached : KuroOS.sv39User s.mem root va access = some x) :
    ∃ p, user (sv39Vpn va) = some p ∧ pageOf x = p := by
  unfold KuroOS.sv39User at reached
  rw [show sv39Levels - 1 = 2 from rfl, tables.sv39Entry pool, leaves] at reached
  split at reached
  · next isUser =>
      cases found : user (sv39Vpn va) with
      | none =>
          rw [spaceEntry, found] at isUser
          exact absurd (kernelEntry_user _) isUser
      | some p =>
          refine ⟨p, rfl, ?_⟩
          have bounds := (valid _ p found).bounds
          have entry : spaceEntry user (sv39Vpn va) = mkPte p userFlags := by simp [spaceEntry, found]
          have here : pteToPa (mkPte p userFlags) = p := by
            rw [mkPte_pa (by decide) bounds.1]
            omega
          unfold sv39 at reached
          rw [show sv39Levels - 1 = 2 from rfl, tables.sv39From pool, leaves, entry, here] at reached
          split at reached
          · split at reached
            · simp only [Option.some.injEq] at reached
              exact pageOf_of_mem bounds.1 (by omega) (by omega)
            · simp at reached
          · simp at reached
  · simp at reached

end SpaceState

end KuroOS
