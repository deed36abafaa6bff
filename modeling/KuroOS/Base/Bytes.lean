import Mathlib.Algebra.Group.Nat.Defs
import Mathlib.Data.Set.Function
import Mathlib.Order.Interval.Set.Basic

/-!
# Byte-addressed memory

A memory gives a byte to every address. Wider values are little-endian.
Everything later proofs need of a load is that it reads exactly its own bytes,
and of a store that it changes exactly its own bytes.
-/

namespace KuroOS.Base

/-- Memory contents by address. -/
abbrev Mem := Nat → UInt8

namespace Mem

/-- The little-endian value of the `width` bytes at `address`. -/
def load (mem : Mem) (address : Nat) : (width : Nat) → Nat
  | 0 => 0
  | width + 1 => (mem address).toNat + 256 * load mem (address + 1) width

/-- Store the low `width` bytes of `value` at `address`, little-endian. -/
def store (mem : Mem) (address width value : Nat) : Mem := fun x =>
  if address ≤ x ∧ x < address + width then UInt8.ofNat (value / 256 ^ (x - address)) else mem x

theorem load_lt (mem : Mem) (address width : Nat) : mem.load address width < 256 ^ width := by
  induction width generalizing address with
  | zero => simp [load]
  | succ width ih =>
      have tail := ih (address + 1)
      have head := (mem address).toNat_lt
      simp only [load, Nat.pow_succ]
      omega

/-- A load depends on its own bytes only. -/
theorem load_congr {mem mem' : Mem} {address width : Nat}
    (same : ∀ x, address ≤ x → x < address + width → mem' x = mem x) :
    mem'.load address width = mem.load address width := by
  induction width generalizing address with
  | zero => rfl
  | succ width ih =>
      have tail := @ih (address + 1) fun x low high => same x (by omega) (by omega)
      simp only [load, tail, same address (by omega) (by omega)]

/-- A load of copied bytes. -/
theorem load_shift {mem mem' : Mem} {address address' width : Nat}
    (same : ∀ i < width, mem' (address' + i) = mem (address + i)) : mem'.load address' width = mem.load address width := by
  induction width generalizing address address' with
  | zero => rfl
  | succ width ih =>
      have tail : mem'.load (address' + 1) width = mem.load (address + 1) width := ih fun i low => by
        rw [Nat.add_assoc, Nat.add_assoc, Nat.add_comm 1 i]
        exact same (i + 1) (by omega)
      have head : mem' address' = mem address := same 0 (by omega)
      simp only [load, tail, head]

/-- Cleared bytes load as zero. -/
theorem load_zero {mem : Mem} {address width : Nat}
    (clear : ∀ x, address ≤ x → x < address + width → mem x = 0) : mem.load address width = 0 := by
  induction width generalizing address with
  | zero => rfl
  | succ width ih =>
      have tail := @ih (address + 1) fun x low high => clear x (by omega) (by omega)
      simp [load, tail, clear address (by omega) (by omega)]

theorem store_of_outside {mem : Mem} {address width value x : Nat}
    (outside : x < address ∨ address + width ≤ x) :
    mem.store address width value x = mem x :=
  if_neg (by omega)

/-- A store does to a byte what it does to it in other memory. -/
theorem store_congr {mem mem' : Mem} {address width value x : Nat} (same : mem' x = mem x) :
    mem'.store address width value x = mem.store address width value x := by
  unfold store
  rw [same]

/-- A store is invisible to a load of other bytes. -/
theorem load_store_of_disjoint {mem : Mem} {address width value other width' : Nat}
    (apart : other + width' ≤ address ∨ address + width ≤ other) :
    (mem.store address width value).load other width' = mem.load other width' :=
  load_congr fun _ _ _ => store_of_outside (by omega)

/-- A load returns what was stored at the same address and width. -/
theorem load_store_same {mem : Mem} {address width value : Nat} (fits : value < 256 ^ width) :
    (mem.store address width value).load address width = value := by
  induction width generalizing mem address value with
  | zero => simp only [Nat.pow_zero] at fits; simp only [load]; omega
  | succ width ih =>
      have tail : (mem.store address (width + 1) value).load (address + 1) width = value / 256 := by
        have small : value / 256 < 256 ^ width := by
          rw [Nat.pow_succ] at fits
          omega
        rw [← @ih mem (address + 1) _ small]
        refine load_congr fun x low high => ?_
        have index : x - address = x - (address + 1) + 1 := by omega
        simp only [store, low, high, and_self, if_true]
        rw [if_pos ⟨by omega, by omega⟩, index, Nat.pow_succ', Nat.div_div_eq_div_mul]
      have head : (mem.store address (width + 1) value address).toNat = value % 256 := by
        simp [store]
      simp only [load, tail, head]
      omega

/-- The bytes of a loaded value are the bytes that were loaded. -/
theorem load_digit {mem : Mem} {address width k : Nat} (inside : k < width) :
    UInt8.ofNat (mem.load address width / 256 ^ k) = mem (address + k) := by
  induction width generalizing address k with
  | zero => omega
  | succ width ih =>
      have head := (mem address).toNat_lt
      refine UInt8.toNat_inj.mp ?_
      cases k with
      | zero =>
          simp only [load, Nat.pow_zero, Nat.div_one, UInt8.toNat_ofNat', Nat.add_zero]
          omega
      | succ k =>
          have tail := congrArg UInt8.toNat (@ih (address + 1) k (by omega))
          rw [show address + (k + 1) = address + 1 + k by omega, ← tail, load, Nat.pow_succ', ← Nat.div_div_eq_div_mul,
            show ((mem address).toNat + 256 * mem.load (address + 1) width) / 256 = mem.load (address + 1) width by omega]

/-- Storing what is there changes nothing. -/
theorem store_load {mem : Mem} {address width : Nat} : mem.store address width (mem.load address width) = mem := by
  funext x
  by_cases inside : address ≤ x ∧ x < address + width
  · rw [store, if_pos inside, load_digit (by omega), Nat.add_sub_cancel' inside.1]
  · exact store_of_outside (by omega)

end Mem

/-- Two memories agree away from a set of addresses. -/
def SameOff (region : Set Nat) (before after : Mem) : Prop :=
  ∀ x, x ∉ region → after x = before x

namespace SameOff

variable {region region' : Set Nat} {mem mem' mem'' : Mem}

theorem refl (region : Set Nat) (mem : Mem) : SameOff region mem mem :=
  fun _ _ => rfl

theorem trans (first : SameOff region mem mem') (second : SameOff region mem' mem'') :
    SameOff region mem mem'' :=
  fun x outside => (second x outside).trans (first x outside)

theorem mono (same : SameOff region mem mem') (subset : region ⊆ region') :
    SameOff region' mem mem' :=
  fun x outside => same x fun inside => outside (subset inside)

theorem store {address width value : Nat} (inside : ∀ x, address ≤ x → x < address + width → x ∈ region) :
    SameOff region mem (mem.store address width value) := fun x outside =>
  Mem.store_of_outside (by
    by_contra within
    exact outside (inside x (by omega) (by omega)))

theorem load (same : SameOff region mem mem') {address width : Nat}
    (outside : ∀ x, address ≤ x → x < address + width → x ∉ region) :
    mem'.load address width = mem.load address width :=
  Mem.load_congr fun x low high => same x (outside x low high)

end SameOff

end KuroOS.Base
