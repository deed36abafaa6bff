import Mathlib.Data.Nat.Bitwise

/-!
# Unsigned 64-bit arithmetic on natural numbers

A machine word is a natural number below `2 ^ 64`. The operators here wrap as
the C operators on `unsigned long` do; the lemmas give each masking idiom its
quotient or remainder, which is the form linear arithmetic can use.
-/

namespace KuroOS.Base

/-- `a + b` on `unsigned long`. -/
def wadd (a b : Nat) : Nat := (a + b) % 2 ^ 64

/-- `a - b` on `unsigned long`. -/
def wsub (a b : Nat) : Nat := (a + (2 ^ 64 - b % 2 ^ 64)) % 2 ^ 64

/-- `~a` on `unsigned long`. -/
def wnot (a : Nat) : Nat := 2 ^ 64 - 1 - a % 2 ^ 64

theorem wadd_of_lt {a b : Nat} (fits : a + b < 2 ^ 64) : wadd a b = a + b :=
  Nat.mod_eq_of_lt fits

theorem wadd_zero {a : Nat} (fits : a < 2 ^ 64) : wadd a 0 = a :=
  Nat.mod_eq_of_lt fits

theorem wadd_lt (a b : Nat) : wadd a b < 2 ^ 64 :=
  Nat.mod_lt _ (by decide)

theorem wsub_lt (a b : Nat) : wsub a b < 2 ^ 64 :=
  Nat.mod_lt _ (by decide)

theorem wsub_of_le {a b : Nat} (le : b ≤ a) (fits : a < 2 ^ 64) : wsub a b = a - b := by
  unfold wsub
  omega

/-- Clearing the low `k` bits rounds down to a multiple of `2 ^ k`. -/
theorem and_wnot_low {value k : Nat} (fits : value < 2 ^ 64) (small : k ≤ 64) :
    value &&& wnot (2 ^ k - 1) = value / 2 ^ k * 2 ^ k := by
  have power : 2 ^ k ≤ 2 ^ 64 := Nat.pow_le_pow_right (by decide) small
  have positive : 0 < 2 ^ k := Nat.two_pow_pos k
  have mask : wnot (2 ^ k - 1) = (2 ^ (64 - k) - 1) <<< k := by
    have split : 2 ^ 64 = 2 ^ (64 - k) * 2 ^ k := by
      rw [← Nat.pow_add]
      congr 1
      omega
    rw [Nat.shiftLeft_eq, Nat.sub_mul, ← split, wnot, Nat.mod_eq_of_lt (by omega)]
    omega
  have high : ∀ i, value.testBit i = true → i < 64 := fun i bit => by
    by_contra above
    have := Nat.testBit_lt_two_pow (Nat.lt_of_lt_of_le fits
      (Nat.pow_le_pow_right (by decide) (Nat.le_of_not_lt above)))
    simp_all
  rw [mask, ← Nat.shiftLeft_eq, ← Nat.shiftRight_eq_div_pow]
  refine Nat.eq_of_testBit_eq fun i => ?_
  simp only [Nat.testBit_and, Nat.testBit_shiftLeft, Nat.testBit_two_pow_sub_one,
    Nat.testBit_shiftRight]
  by_cases above : k ≤ i
  · rw [show k + (i - k) = i by omega]
    cases bit : value.testBit i with
    | false => simp
    | true =>
        have := high i bit
        simp [above]
        omega
  · simp [above]

/-- The low `k` bits are the remainder. -/
theorem and_low (value k : Nat) : value &&& (2 ^ k - 1) = value % 2 ^ k :=
  Nat.and_two_pow_sub_one_eq_mod value k

/-- Joining a multiple of `2 ^ k` with fewer than `k` low bits is addition. -/
theorem shiftLeft_or_low {high low k : Nat} (small : low < 2 ^ k) :
    (high <<< k) ||| low = high * 2 ^ k + low := by
  rw [← Nat.shiftLeft_add_eq_or_of_lt small, Nat.shiftLeft_eq]

end KuroOS.Base
