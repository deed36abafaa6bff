import KuroOS.Base.Bytes
import Mathlib.Data.List.Basic

/-!
# Byte strings in memory

`Holds mem a bytes` says what lies at an address; `CString mem a text` that a
C string does. A C string is determined by its address.
-/

namespace KuroOS.Base

/-- Memory holds these bytes from an address on. -/
def Holds (mem : Mem) : (address : Nat) → List UInt8 → Prop
  | _, [] => True
  | address, byte :: rest => mem address = byte ∧ Holds mem (address + 1) rest

variable {mem mem' : Mem} {a : Nat} {xs ys text : List UInt8}

/-- Consecutive strings lie behind each other. -/
theorem holds_append : Holds mem a (xs ++ ys) ↔ Holds mem a xs ∧ Holds mem (a + xs.length) ys := by
  induction xs generalizing a with
  | nil => simp [Holds]
  | cons x xs ih =>
      have shift : a + 1 + xs.length = a + (xs.length + 1) := by omega
      simp only [List.cons_append, Holds, ih, List.length_cons, shift, and_assoc]

/-- Each byte by its index. -/
theorem holds_iff : Holds mem a xs ↔ ∀ i (inside : i < xs.length), mem (a + i) = xs[i] := by
  induction xs generalizing a with
  | nil => simp [Holds]
  | cons x xs ih =>
      rw [Holds, ih]
      constructor
      · rintro ⟨head, tail⟩ (_ | i) inside
        · exact head
        · have shift : a + (i + 1) = a + 1 + i := by omega
          rw [shift]
          exact tail i (by simpa using inside)
      · intro all
        refine ⟨all 0 (by simp), fun i inside => ?_⟩
        have shift : a + 1 + i = a + (i + 1) := by omega
        rw [shift]
        exact all (i + 1) (by simpa using inside)

/-- A string survives a change elsewhere. -/
theorem Holds.congr (holds : Holds mem a xs)
    (same : ∀ x, a ≤ x → x < a + xs.length → mem' x = mem x) : Holds mem' a xs :=
  holds_iff.mpr fun i inside => (same _ (by omega) (by omega)).trans (holds_iff.mp holds i inside)

/-- A part of a string. -/
theorem Holds.slice (holds : Holds mem a xs) (from' count : Nat) :
    Holds mem (a + from') ((xs.drop from').take count) := by
  refine holds_iff.mpr fun i inside => ?_
  rw [List.length_take, List.length_drop] at inside
  rw [Nat.add_assoc, holds_iff.mp holds _ (by omega)]
  simp

/-- Memory with a string put at an address. -/
def lay (mem : Mem) (a : Nat) (bytes : List UInt8) : Mem := fun x =>
  if a ≤ x ∧ x < a + bytes.length then bytes.getD (x - a) 0 else mem x

theorem holds_lay : Holds (lay mem a xs) a xs := by
  refine holds_iff.mpr fun i inside => ?_
  rw [lay, if_pos ⟨by omega, by omega⟩, Nat.add_sub_cancel_left]
  simp [inside]

theorem lay_of_outside {x : Nat} (outside : x < a ∨ a + xs.length ≤ x) : lay mem a xs x = mem x :=
  if_neg (by omega)

/-- Memory holds a C string at an address. -/
structure CString (mem : Mem) (a : Nat) (text : List UInt8) : Prop where
  plain : 0 ∉ text
  holds : Holds mem a (text ++ [0])

namespace CString

/-- The characters. -/
theorem char (string : CString mem a text) {i : Nat} (inside : i < text.length) :
    mem (a + i) = text[i] := by
  have whole := holds_iff.mp string.holds i (by rw [List.length_append]; omega)
  rwa [List.getElem_append_left inside] at whole

/-- The terminator. -/
theorem stop (string : CString mem a text) : mem (a + text.length) = 0 :=
  (holds_append.mp string.holds).2.1

/-- No character is the terminator. -/
theorem char_ne (string : CString mem a text) {i : Nat} (inside : i < text.length) :
    mem (a + i) ≠ 0 := by
  rw [string.char inside]
  exact fun zero => string.plain (zero ▸ List.getElem_mem inside)

/-- A nonempty C string: its first character, and the string behind it. -/
theorem cons {char : UInt8} (string : CString mem a (char :: text)) : mem a = char ∧ char ≠ 0 ∧ CString mem (a + 1) text :=
  ⟨string.holds.1, fun zero => string.plain (zero ▸ List.mem_cons_self),
    ⟨fun member => string.plain (List.mem_cons_of_mem _ member), string.holds.2⟩⟩

theorem congr (string : CString mem a text)
    (same : ∀ x, a ≤ x → x ≤ a + text.length → mem' x = mem x) : CString mem' a text :=
  ⟨string.plain, string.holds.congr fun x low high => same x low (by
    rw [List.length_append, List.length_singleton] at high
    omega)⟩

/-- An address has at most one string. -/
theorem unique {text' : List UInt8} (string : CString mem a text) (string' : CString mem a text') :
    text = text' := by
  have same : text.length = text'.length := by
    rcases Nat.lt_trichotomy text.length text'.length with short | same | long
    · exact absurd string.stop (string'.char_ne short)
    · exact same
    · exact absurd string'.stop (string.char_ne long)
  exact List.ext_getElem same fun i inside inside' =>
    (string.char inside).symm.trans (string'.char inside')

end CString

/-- The characters of a buffer, up to its first NUL. -/
def untilNul : List UInt8 → List UInt8
  | [] => []
  | byte :: rest => if byte = 0 then [] else byte :: untilNul rest

theorem untilNul_plain (bytes : List UInt8) : 0 ∉ untilNul bytes := by
  induction bytes with
  | nil => simp [untilNul]
  | cons byte rest ih =>
      unfold untilNul
      split
      · simp
      · next nonzero => simpa [ih] using Ne.symm nonzero

theorem untilNul_append_nul (plain : 0 ∉ xs) : untilNul (xs ++ [0]) = xs := by
  induction xs with
  | nil => rfl
  | cons x xs ih =>
      obtain ⟨nonzero, rest⟩ : x ≠ 0 ∧ 0 ∉ xs := by simpa [eq_comm] using plain
      simp [untilNul, nonzero, ih rest]

/-- What stands in a buffer up to the first NUL, with one NUL behind the buffer,
is a prefix of both. -/
theorem untilNul_prefix (bytes : List UInt8) : ∃ rest, bytes ++ [0] = untilNul bytes ++ 0 :: rest := by
  induction bytes with
  | nil => exact ⟨[], rfl⟩
  | cons byte rest ih =>
      by_cases zero : byte = 0
      · exact ⟨rest ++ [0], by simp [untilNul, zero]⟩
      · obtain ⟨behind, split⟩ := ih
        exact ⟨behind, by simp [untilNul, zero, split]⟩

theorem untilNul_length_le (bytes : List UInt8) : (untilNul bytes).length ≤ bytes.length := by
  obtain ⟨rest, split⟩ := untilNul_prefix bytes
  have := congrArg List.length split
  simp only [List.length_append, List.length_cons, List.length_nil] at this
  omega

/-- A buffer that is followed by a NUL holds the string up to its first NUL. -/
theorem cString_untilNul (holds : Holds mem a (xs ++ [0])) : CString mem a (untilNul xs) where
  plain := untilNul_plain xs
  holds := by
    obtain ⟨rest, split⟩ := untilNul_prefix xs
    rw [split, List.append_cons] at holds
    exact (holds_append.mp holds).1

end KuroOS.Base
