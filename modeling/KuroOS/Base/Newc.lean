import KuroOS.Base.Text
import Mathlib.Data.List.Induction

/-!
# The newc archive format

A newc cpio archive is a sequence of members, each a header of 110 characters,
a name with its NUL and the contents, the last two padded with NULs to a
multiple of 4 from the start of the archive. The header opens with a magic
number; its other fields are hexadecimal numerals of 8 digits, of which a reader
of names and contents needs two. A member with an agreed name closes the
archive.
-/

namespace KuroOS.Base

/-- The value of a hexadecimal digit. -/
def hexDigit (digit : UInt8) : Option Nat :=
  if 48 ≤ digit ∧ digit ≤ 57 then some (digit.toNat - 48)
  else if 97 ≤ digit ∧ digit ≤ 102 then some (digit.toNat - 87)
  else if 65 ≤ digit ∧ digit ≤ 70 then some (digit.toNat - 55)
  else none

/-- The value of a hexadecimal numeral, most significant digit first. -/
def hexValue (digits : List UInt8) : Option Nat :=
  digits.foldlM (fun value digit => (hexDigit digit).map (16 * value + ·)) 0

theorem hexDigit_lt {digit : UInt8} {d : Nat} (value : hexDigit digit = some d) : d < 16 := by
  unfold hexDigit at value
  split_ifs at value with decimal lower upper
  all_goals
    simp only [UInt8.le_iff_toNat_le, Option.some.injEq] at *
    simp at *
    omega

/-- A numeral ends in its last digit. -/
theorem hexValue_append {digits : List UInt8} {digit : UInt8} {n : Nat} :
    hexValue (digits ++ [digit]) = some n ↔
      ∃ high, hexValue digits = some high ∧ ∃ d, hexDigit digit = some d ∧ 16 * high + d = n := by
  simp [hexValue, List.foldlM_append, Option.bind_eq_some_iff]

/-- A numeral of `k` digits is below `16 ^ k`. -/
theorem hexValue_lt {digits : List UInt8} {n : Nat} (value : hexValue digits = some n) :
    n < 16 ^ digits.length := by
  induction digits using List.reverseRecOn generalizing n with
  | nil =>
      obtain rfl : 0 = n := by simpa [hexValue] using value
      decide
  | append_singleton digits digit ih =>
      obtain ⟨high, front, d, last, rfl⟩ := hexValue_append.mp value
      have small := hexDigit_lt last
      have below := ih front
      rw [List.length_append, List.length_singleton, Nat.pow_succ]
      omega

namespace Newc

/-- The number of characters in a header. -/
@[simp] abbrev headerSize : Nat := 110

/-- The number that opens a header: `070701`. -/
def magic : List UInt8 := [48, 55, 48, 55, 48, 49]

/-- The name of the member that closes an archive: `TRAILER!!!`. -/
def endName : List UInt8 := [84, 82, 65, 73, 76, 69, 82, 33, 33, 33]

/-- The NULs that fill up to a multiple of 4. -/
def pad (length : Nat) : List UInt8 := List.replicate ((4 - length % 4) % 4) 0

/-- A member: a header that fits its name and its contents. -/
structure Member where
  header : List UInt8
  name : List UInt8
  contents : List UInt8
  header_length : header.length = headerSize
  header_magic : header.take 6 = magic
  filesize : hexValue ((header.drop 54).take 8) = some contents.length
  namesize : hexValue ((header.drop 94).take 8) = some (name.length + 1)
  name_plain : 0 ∉ name
  name_nonempty : name ≠ []

/-- A header with the two numerals given, all other fields 0. -/
def plainHeader (filesize namesize : List UInt8) : List UInt8 :=
  magic ++ List.replicate 48 48 ++ filesize ++ List.replicate 32 48 ++ namesize ++ List.replicate 8 48

namespace Member

/-- The name as it stands in the archive: with its NUL, and padded. -/
def nameField (m : Member) : List UInt8 := m.name ++ [0] ++ pad (headerSize + m.name.length + 1)

/-- The bytes of a member. -/
def encode (m : Member) : List UInt8 :=
  m.header ++ (m.nameField ++ (m.contents ++ pad m.contents.length))

/-- Where the contents begin, from the start of the member. -/
def dataOffset (m : Member) : Nat := headerSize + m.nameField.length

theorem dataOffset_eq (m : Member) : m.dataOffset = (headerSize + m.name.length + 1 + 3) / 4 * 4 := by
  simp only [dataOffset, nameField, pad, List.length_append, List.length_replicate,
    List.length_singleton]
  omega

theorem encode_length (m : Member) : m.encode.length = m.dataOffset + (m.contents.length + 3) / 4 * 4 := by
  simp only [encode, dataOffset, pad, List.length_append, List.length_replicate, m.header_length]
  omega

/-- Members keep the alignment. -/
theorem encode_length_mod (m : Member) : m.encode.length % 4 = 0 := by
  have := m.dataOffset_eq
  have := m.encode_length
  omega

theorem headerSize_lt (m : Member) : headerSize < m.encode.length := by
  have := m.dataOffset_eq
  have := m.encode_length
  omega

variable {mem : Mem} {a : Nat} {m : Member}

/-- A member in memory: its header, name and contents. -/
theorem holds_encode (holds : Holds mem a m.encode) :
    Holds mem a m.header ∧ CString mem (a + headerSize) m.name ∧
      Holds mem (a + m.dataOffset) m.contents := by
  obtain ⟨header, rest⟩ := holds_append.mp holds
  obtain ⟨nameField, rest⟩ := holds_append.mp rest
  rw [m.header_length] at nameField rest
  refine ⟨header, ⟨m.name_plain, (holds_append.mp nameField).1⟩, ?_⟩
  rw [Nat.add_assoc] at rest
  exact (holds_append.mp rest).1

end Member

/-- The bytes of consecutive members. -/
def encodeAll (members : List Member) : List UInt8 := members.flatMap Member.encode

theorem encodeAll_length_mod (members : List Member) : (encodeAll members).length % 4 = 0 := by
  induction members with
  | nil => rfl
  | cons m rest ih =>
      have := m.encode_length_mod
      simp only [encodeAll, List.flatMap_cons, List.length_append] at ih ⊢
      omega

/-- Each member takes up more than a header. -/
theorem length_le_encodeAll (members : List Member) : members.length ≤ (encodeAll members).length := by
  induction members with
  | nil => simp
  | cons m rest ih =>
      have := m.headerSize_lt
      simp only [encodeAll, List.flatMap_cons, List.length_append, List.length_cons] at ih ⊢
      omega

/-- An archive: files, the closing member, and any number of NULs behind. -/
structure Archive where
  files : List Member
  last : Member
  trailing : Nat
  last_name : last.name = endName
  last_empty : last.contents = []

namespace Archive

/-- The members, the closing one included. -/
def members (archive : Archive) : List Member := archive.files ++ [archive.last]

/-- The bytes of an archive. -/
def encode (archive : Archive) : List UInt8 :=
  encodeAll archive.members ++ List.replicate archive.trailing 0

end Archive

end Newc

end KuroOS.Base
