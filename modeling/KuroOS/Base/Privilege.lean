import Mathlib.Data.Nat.Notation

/-!
# Privilege modes

The bits of `sstatus` that say which mode `sret` goes to and whether interrupts are
taken there. `sret` and the trap that follows it move these bits aside and back, so a
trap handler finds them as the code before it left them.
-/

namespace KuroOS.Base.Riscv

/-- The modes from which supervisor mode takes traps. -/
inductive Mode where
  | user
  | supervisor
deriving DecidableEq, Repr

/-- `SIE`, `SPIE`, `SPP` and `SUM` of the status. -/
@[simp] abbrev sieBit : Nat := 1
@[simp] abbrev spieBit : Nat := 5
@[simp] abbrev sppBit : Nat := 8
@[simp] abbrev sumBit : Nat := 18

/-- A bit of a register. -/
def bit (value : UInt64) (i : Nat) : Bool := value.toBitVec.getLsbD i

/-- Set or clear a bit of a register. -/
def setBit (value : UInt64) (i : Nat) (b : Bool) : UInt64 :=
  .ofBitVec (if b then value.toBitVec ||| BitVec.twoPow 64 i else value.toBitVec &&& ~~~ BitVec.twoPow 64 i)

theorem bit_setBit (value : UInt64) {i j : Nat} (small : j < 64) (b : Bool) : bit (setBit value i b) j = if i = j then b else bit value j := by
  unfold bit setBit
  by_cases same : i = j
  · cases b <;> simp [same, small]
  · cases b <;> simp [same, Ne.symm same, small]

/-- The mode that `sret` goes to. -/
def sretMode (status : UInt64) : Mode := if bit status sppBit then .supervisor else .user

/-- The status after `sret`. -/
def sretStatus (status : UInt64) : UInt64 := setBit (setBit (setBit status sieBit (bit status spieBit)) spieBit true) sppBit false

/-- The status after a trap from a mode. -/
def trapStatus (mode : Mode) (status : UInt64) : UInt64 :=
  setBit (setBit (setBit status sppBit (mode = .supervisor)) spieBit (bit status sieBit)) sieBit false

/-- What the code between a `sret` and the next trap cannot change of the status. -/
structure StatusKept (status status' : UInt64) : Prop where
  sie : bit status' sieBit = bit status sieBit
  sum : bit status' sumBit = bit status sumBit

variable {status status' : UInt64}

theorem trapStatus_spp (mode : Mode) (status : UInt64) : bit (trapStatus mode status) sppBit = decide (mode = .supervisor) := by
  simp [trapStatus, bit_setBit]

theorem trapStatus_spie (mode : Mode) (status : UInt64) : bit (trapStatus mode status) spieBit = bit status sieBit := by
  simp [trapStatus, bit_setBit]

theorem trapStatus_sum (mode : Mode) (status : UInt64) : bit (trapStatus mode status) sumBit = bit status sumBit := by
  simp [trapStatus, bit_setBit]

/-- A trap after `sret` finds the bits that `sret` was given. -/
theorem trapStatus_sretStatus (kept : StatusKept (sretStatus status) status') :
    ∀ i ∈ [spieBit, sppBit, sumBit], bit (trapStatus (sretMode status) status') i = bit status i := by
  intro i known
  simp only [List.mem_cons, List.not_mem_nil, or_false] at known
  rcases known with rfl | rfl | rfl
  · rw [trapStatus_spie, kept.sie]
    simp [sretStatus, bit_setBit]
  · rw [trapStatus_spp, sretMode]
    split <;> simp_all
  · rw [trapStatus_sum, kept.sum]
    simp [sretStatus, bit_setBit]

end KuroOS.Base.Riscv
