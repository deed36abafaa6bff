import KuroOS.Initrd.Member
import KuroOS.Kernel.Printk
import Mathlib.Tactic.IntervalCases

/-!
# The numerals that are printed

The digits are produced from the last one on, into a buffer whose 20 bytes are just
enough for a 64-bit value, and emitted from its end. Both bases are compared with
the language's own numerals.
-/

namespace KuroOS

open Base

/-- The numeral of a value in a base, most significant digit first. -/
def numeral (base n : Nat) : List UInt8 := (Nat.toDigits base n).map ascii

/-- A run that has emitted some more characters. -/
def Printing.put (s : Printing) (device : PutDevice) (text : List UInt8) : Printing :=
  { s with calls := s.calls ++ text.map device.putc }

/-- The digits in a buffer, the last one that was written first. -/
def written (buf : Nat → UInt8) : (i : Nat) → List UInt8
  | 0 => []
  | i + 1 => buf i :: written buf i

variable {device : PutDevice} {s : Printing} {base n : Nat} {text text' : List UInt8}

@[simp] theorem Printing.put_nil : s.put device [] = s := by simp [Printing.put]

@[simp] theorem Printing.put_put : (s.put device text).put device text' = s.put device (text ++ text') := by
  simp [Printing.put]

@[simp] theorem Printing.put_args : (s.put device text).args = s.args := rfl

@[simp] theorem Printing.put_reads : (s.put device text).reads = s.reads := rfl

/-- A numeral ends in its last digit. -/
theorem numeral_of_le (many : 1 < base) (le : base ≤ n) :
    numeral base n = numeral base (n / base) ++ [ascii (n % base).digitChar] := by
  unfold numeral
  rw [Nat.toDigits_of_base_le many le, List.map_append, List.map_singleton]

theorem numeral_of_lt (lt : n < base) : numeral base n = [ascii n.digitChar] := by
  unfold numeral
  rw [Nat.toDigits_of_lt_base lt, List.map_singleton]

theorem written_congr {buf buf' : Nat → UInt8} {i : Nat} (same : ∀ j < i, buf' j = buf j) : written buf' i = written buf i := by
  induction i with
  | zero => rfl
  | succ i ih =>
      rw [written, written, same i (by omega), ih fun j low => same j (by omega)]

/-- The character of a decimal digit. -/
theorem decimal_digit (low : n < 10) : ascii '0' + UInt8.ofNat n = ascii n.digitChar := by
  interval_cases n <;> decide

/-- The character of a hexadecimal digit. -/
theorem hexDigits_digit (low : n < 16) : hexDigits.getD n 0 = ascii n.digitChar := by
  interval_cases n <;> decide

/-- A digit is read back. -/
theorem hexDigit_digit (low : n < 16) : hexDigit (ascii n.digitChar) = some n := by
  interval_cases n <;> decide

/-- The first digit of a value that is not 0 is not 0. -/
theorem numeral_head (many : 1 < base) (small : base ≤ 16) (nonzero : n ≠ 0) : (numeral base n).head? ≠ some (ascii '0') := by
  induction n using Nat.strongRecOn with
  | _ n ih =>
    by_cases le : base ≤ n
    · have rest := ih (n / base) (Nat.div_lt_self (by omega) many) (Nat.div_pos le (by omega)).ne'
      rw [numeral_of_le many le, List.head?_append]
      cases first : (numeral base (n / base)).head? with
      | none =>
          have empty := List.head?_eq_none_iff.mp first
          simp [numeral] at empty
      | some c => simpa [first] using rest
    · have low : n < 16 := by omega
      rw [numeral_of_lt (by omega)]
      interval_cases n <;> first | exact absurd rfl nonzero | decide

/-- A hexadecimal numeral is read back. -/
theorem hexValue_numeral (n : Nat) : hexValue (numeral 16 n) = some n := by
  induction n using Nat.strongRecOn with
  | _ n ih =>
    by_cases le : 16 ≤ n
    · rw [numeral_of_le (by decide) le]
      exact hexValue_append.mpr ⟨n / 16, ih _ (by omega), n % 16, hexDigit_digit (by omega), by omega⟩
    · rw [numeral_of_lt (by omega), ← List.nil_append [_]]
      exact hexValue_append.mpr ⟨0, rfl, n, hexDigit_digit (by omega), by omega⟩

theorem length_numeral_le_iff {k : Nat} (many : 1 < base) (positive : 0 < k) : (numeral base n).length ≤ k ↔ n < base ^ k := by
  unfold numeral
  rw [List.length_map, Nat.length_toDigits_le_iff many positive]

variable {halt : Undefined → Printing → Prop}

theorem wp_putc {c : UInt8} {post : Unit → Printing → Prop} : wp (emit (device.putc c)) s post halt ↔ post () (s.put device [c]) :=
  wp_modify _

theorem wp_inBuffer {i : Nat} (inside : i < 20) {post : Unit → Printing → Prop} : wp (inBuffer i) s post halt ↔ post () s := by
  unfold inBuffer
  rw [if_pos inside, wp_pure]

/-- The digits of a value of at most `k` digits, in a buffer that has room for them. -/
theorem fillDigits_spec {k fuel x i : Nat} {buf : Nat → UInt8} (positive : 0 < x) (below : x < 10 ^ k) (room : i + k ≤ 20) (enough : k < fuel) :
    wp (fillDigits fuel x i buf) s (fun r s' => s' = s ∧ r.1 ≤ 20 ∧ written r.2 r.1 = numeral 10 x ++ written buf i) halt := by
  induction k generalizing x i buf fuel with
  | zero => simp at below; omega
  | succ k ih =>
      obtain ⟨fuel, rfl⟩ : ∃ n, fuel = n + 1 := ⟨fuel - 1, by omega⟩
      rw [fillDigits, if_pos positive, wp_bind, wp_inBuffer (by omega), decimal_digit (Nat.mod_lt x (by decide))]
      -- the digits below are not touched
      have kept : written (Function.update buf i (ascii (x % 10).digitChar)) (i + 1) = ascii (x % 10).digitChar :: written buf i := by
        rw [written, Function.update_self, written_congr fun j low => Function.update_of_ne (by omega) _ _]
      by_cases last : x < 10
      · obtain ⟨fuel, rfl⟩ : ∃ n, fuel = n + 1 := ⟨fuel - 1, by omega⟩
        rw [fillDigits, if_neg (by omega), wp_pure, kept, numeral_of_lt last, Nat.mod_eq_of_lt last]
        exact ⟨rfl, by omega, rfl⟩
      · refine wp_mono (ih (by omega) (by rw [Nat.pow_succ] at below; omega) (by omega) (by omega)) ?_ fun _ _ => id
        rintro r s' ⟨same, bound, digits⟩
        refine ⟨same, bound, ?_⟩
        rw [digits, kept, numeral_of_le (n := x) (by decide) (by omega), List.append_assoc, List.singleton_append]

theorem emitDigits_spec {buf : Nat → UInt8} {i : Nat} (inside : i ≤ 20) :
    wp (emitDigits device buf i) s (fun _ s' => s' = s.put device (written buf i)) halt := by
  induction i generalizing s with
  | zero =>
      rw [emitDigits, wp_pure]
      simp [written]
  | succ i ih =>
      rw [emitDigits, wp_bind, wp_inBuffer (by omega), wp_bind, wp_putc]
      refine wp_mono (ih (by omega)) ?_ fun _ _ => id
      rintro _ _ rfl
      exact Printing.put_put

/-- A magnitude is printed in decimal. -/
theorem printMagnitude_spec {x : Nat} (word : x < 2 ^ 64) :
    wp (printMagnitude device x) s (fun _ s' => s' = s.put device (numeral 10 x)) halt := by
  unfold printMagnitude
  split
  · next zero =>
      rw [wp_putc, zero]
      rfl
  · next nonzero =>
      refine wp_bind_of (fillDigits_spec (k := 20) (by omega) (by omega) (by decide) (by decide)) ?_
      rintro ⟨i, buf⟩ s₁ ⟨rfl, bound, digits⟩
      have all : written buf i = numeral 10 x := by simpa [written] using digits
      exact all ▸ emitDigits_spec bound

/-- `print_udec`. -/
theorem printUdec_spec (x : BitVec 64) :
    wp (printUdec device x) s (fun _ s' => s' = s.put device (numeral 10 x.toNat)) halt :=
  printMagnitude_spec x.isLt

/-- `print_dec`. -/
theorem printDec_spec (x : BitVec 64) : wp (printDec device x) s
    (fun _ s' => s' = s.put device ((if x.toInt < 0 then [ascii '-'] else []) ++ numeral 10 x.toInt.natAbs)) halt := by
  unfold printDec
  split
  · next negative =>
      -- also for the least value, which has no positive counterpart
      have magnitude : (-x).toNat = x.toInt.natAbs := by
        have small := x.isLt
        rw [BitVec.toInt_eq_toNat_cond] at negative ⊢
        rw [BitVec.toNat_neg]
        split at negative <;> split <;> omega
      rw [wp_bind, wp_putc, magnitude]
      refine wp_mono (printMagnitude_spec (by rw [← magnitude]; exact (-x).isLt)) ?_ fun _ _ => id
      rintro _ _ rfl
      exact Printing.put_put
  · next positive =>
      have magnitude : x.toNat = x.toInt.natAbs := by
        have small := x.isLt
        rw [BitVec.toInt_eq_toNat_cond] at positive ⊢
        split at positive <;> split <;> omega
      rw [magnitude, List.nil_append]
      exact printMagnitude_spec (by rw [← magnitude]; exact x.isLt)

/-- The digits of a value from its first one that is not 0. -/
def significant (base n : Nat) : List UInt8 := if n = 0 then [] else numeral base n

/-- A numeral is a digit behind the significant ones. -/
theorem significant_append (many : 1 < base) (n : Nat) :
    significant base (n / base) ++ [ascii (n % base).digitChar] = numeral base n := by
  unfold significant
  by_cases le : base ≤ n
  · rw [if_neg (Nat.div_pos le (by omega)).ne', numeral_of_le many le]
  · rw [if_pos (Nat.div_eq_of_lt (by omega)), numeral_of_lt (by omega), Nat.mod_eq_of_lt (by omega), List.nil_append]

/-- The nibble at a position. -/
theorem nibble_eq (x i : Nat) : x >>> (i * 4) &&& 0xf = x / 16 ^ i % 16 := by
  have power : 2 ^ (i * 4) = 16 ^ i := by rw [Nat.mul_comm, Nat.pow_mul]
  rw [Nat.shiftRight_eq_div_pow, power]
  exact Nat.and_two_pow_sub_one_eq_mod _ 4

/-- The loop of `print_hex`: the flag says whether a nibble above was not 0. -/
theorem printHexLoop_spec {x i : Nat} : wp (printHexLoop device x (i + 1) (decide (x / 16 ^ (i + 1) ≠ 0)))
    (s.put device (significant 16 (x / 16 ^ (i + 1)))) (fun _ s' => s' = s.put device (numeral 16 x)) halt := by
  induction i with
  | zero =>
      rw [printHexLoop, wp_ite, if_pos (.inr (.inr rfl)), wp_bind, wp_putc, nibble_eq, hexDigits_digit (Nat.mod_lt _ (by decide)), printHexLoop,
        wp_pure, Printing.put_put, Nat.pow_zero, Nat.div_one, Nat.pow_one, significant_append (by decide) x]
  | succ i ih =>
      have high : x / 16 ^ (i + 1 + 1) = x / 16 ^ (i + 1) / 16 := by rw [Nat.div_div_eq_div_mul, Nat.pow_succ 16 (i + 1)]
      rw [printHexLoop, wp_ite, nibble_eq, hexDigits_digit (Nat.mod_lt _ (by decide)), high]
      by_cases zero : x / 16 ^ (i + 1) = 0
      · -- nothing but zeros so far
        rw [zero, if_neg (by simp)]
        simpa only [zero] using ih
      · have shown : x / 16 ^ (i + 1) % 16 ≠ 0 ∨ decide (x / 16 ^ (i + 1) / 16 ≠ 0) = true ∨ i + 1 = 0 := by
          simp only [decide_eq_true_eq]
          omega
        have text : significant 16 (x / 16 ^ (i + 1)) =
            significant 16 (x / 16 ^ (i + 1) / 16) ++ [ascii (x / 16 ^ (i + 1) % 16).digitChar] := by
          rw [significant_append (by decide)]
          exact if_neg zero
        rw [if_pos shown, wp_bind, wp_putc, Printing.put_put, ← text]
        rw [decide_eq_true zero] at ih
        exact ih

/-- `print_hex`. -/
theorem printHex_spec (x : BitVec 64) : wp (printHex device x) s (fun _ s' => s' = s.put device (numeral 16 x.toNat)) halt := by
  have none : x.toNat / 16 ^ (15 + 1) = 0 := Nat.div_eq_of_lt x.isLt
  have loop : wp (printHexLoop device x.toNat (15 + 1) (decide (x.toNat / 16 ^ (15 + 1) ≠ 0)))
      (s.put device (significant 16 (x.toNat / 16 ^ (15 + 1)))) (fun _ s' => s' = s.put device (numeral 16 x.toNat)) halt :=
    printHexLoop_spec
  rw [none, show significant 16 0 = [] from rfl, Printing.put_nil] at loop
  exact loop

/-- Numbers are printed as numerals: in decimal, with a sign exactly for negative
values, and in hexadecimal. Numerals have no leading zero, a hexadecimal one is the
shortest of its value, and `parse_hex` reads it back. The buffer is never overrun:
the runs return. -/
theorem number_output_exact (device : PutDevice) (x : BitVec 64) (s : Printing) :
    printUdec device x s = .ok () (s.put device (numeral 10 x.toNat)) ∧
    printDec device x s = .ok () (s.put device ((if x.toInt < 0 then [ascii '-'] else []) ++ numeral 10 x.toInt.natAbs)) ∧
    printHex device x s = .ok () (s.put device (numeral 16 x.toNat)) ∧
    (∀ base, base = 10 ∨ base = 16 → ∀ n, n ≠ 0 → (numeral base n).head? ≠ some (ascii '0')) ∧
    (∀ digits, digits ≠ [] → hexValue digits = some x.toNat → (numeral 16 x.toNat).length ≤ digits.length) ∧
    ∀ mem a, Holds mem a (numeral 16 x.toNat) → parseHex mem a (numeral 16 x.toNat).length = x.toNat := by
  refine ⟨?_, ?_, ?_, fun base isBase n nonzero => ?_, fun digits some value => ?_, fun mem a holds => ?_⟩
  · obtain ⟨_, _, returned, rfl⟩ := wp_total (printUdec_spec x)
    exact returned
  · obtain ⟨_, _, returned, rfl⟩ := wp_total (printDec_spec x)
    exact returned
  · obtain ⟨_, _, returned, rfl⟩ := wp_total (printHex_spec x)
    exact returned
  · exact numeral_head (by omega) (by omega) nonzero
  · exact (length_numeral_le_iff (by decide) (List.length_pos_iff.mpr some)).mpr (hexValue_lt value)
  · refine parseHex_eq holds (hexValue_numeral _) ?_
    exact (length_numeral_le_iff (by decide) (by decide)).mpr x.isLt

/-- The least value is printed, and 255 is read back. -/
theorem number_output_exact_sample : printDec uartDevice (-(2 ^ 63 : Nat) : BitVec 64) ⟨[], [], []⟩ =
    .ok () (Printing.put ⟨[], [], []⟩ uartDevice ("-9223372036854775808".toList.map ascii)) ∧
    parseHex (lay (fun _ => 0) 0 (numeral 16 255)) 0 2 = 255 := by
  obtain ⟨_, least, _⟩ := number_output_exact uartDevice (-(2 ^ 63 : Nat) : BitVec 64) ⟨[], [], []⟩
  obtain ⟨_, _, _, _, _, reads⟩ := number_output_exact uartDevice (255 : BitVec 64) ⟨[], [], []⟩
  exact ⟨least, reads _ 0 holds_lay⟩

end KuroOS
