import KuroOS.Initrd.Files
import KuroOS.Base.Newc

/-!
# One member of an archive

What `initrd_init` makes of the bytes of one archive member: the loop reads the
fields of the header, registers the file or skips it, and goes on behind the
contents, both positions rounded up to a multiple of 4.
-/

namespace KuroOS

open Base Newc

/-- The codes of the characters of a text. -/
def codes (text : List Char) : List UInt8 := text.map ascii

variable {mem : Mem} {a : Nat}

/-- The text comparison of the loop. -/
theorem hasText_iff {text : List Char} : hasText mem a text = true ↔ Holds mem a (codes text) := by
  induction text generalizing a with
  | nil => simp [hasText, codes, Holds]
  | cons c rest ih =>
      have tail : hasText mem (a + 1) rest = true ↔ Holds mem (a + 1) (codes rest) := ih
      simp only [hasText, Bool.and_eq_true, beq_iff_eq, tail, codes, List.map_cons, Holds]

/-- A digit is shifted in behind the digits before it; any other character
counts as 0. -/
theorem parseHexDigit_eq {value : Nat} {digit : UInt8} (small : value < 2 ^ 60) :
    parseHexDigit value digit = 16 * value + (hexDigit digit).getD 0 := by
  have shifted : value <<< 4 % 2 ^ 64 = value <<< 4 := by
    rw [Nat.shiftLeft_eq]
    exact Nat.mod_eq_of_lt (by omega)
  have join : ∀ low, low < 16 → value <<< 4 ||| low = 16 * value + low := fun low below => by
    rw [shiftLeft_or_low (k := 4) below]
    omega
  have digits : ascii '0' = 48 ∧ ascii '9' = 57 ∧ ascii 'a' = 97 ∧ ascii 'f' = 102 ∧ ascii 'A' = 65 ∧
      ascii 'F' = 70 := by decide
  obtain ⟨zero, nine, la, lf, ua, uf⟩ := digits
  unfold parseHexDigit hexDigit
  simp only [shifted, zero, nine, la, lf, ua, uf]
  split_ifs with decimal lower upper
  · simp only [UInt8.le_iff_toNat_le, UInt8.toNat_ofNat] at decimal
    rw [UInt8.toNat_sub_of_le _ _ (by simp [UInt8.le_iff_toNat_le]; omega), join _ (by simp; omega)]
    simp
  · simp only [UInt8.le_iff_toNat_le, UInt8.toNat_ofNat] at lower
    rw [UInt8.toNat_sub_of_le _ _ (by simp [UInt8.le_iff_toNat_le]; omega), join _ (by simp; omega)]
    simp
    omega
  · simp only [UInt8.le_iff_toNat_le, UInt8.toNat_ofNat] at upper
    rw [UInt8.toNat_sub_of_le _ _ (by simp [UInt8.le_iff_toNat_le]; omega), join _ (by simp; omega)]
    simp
    omega
  · rw [Nat.shiftLeft_eq]
    simp [Nat.mul_comm]

/-- A field of `len` characters is below `16 ^ len`. -/
theorem parseHex_lt (mem : Mem) (a : Nat) {len : Nat} (short : len ≤ 15) : parseHex mem a len < 16 ^ len := by
  induction len with
  | zero => simp [parseHex]
  | succ len ih =>
      have before := ih (by omega)
      have small : parseHex mem a len < 2 ^ 60 := calc
        parseHex mem a len < 16 ^ len := before
        _ ≤ 16 ^ 15 := Nat.pow_le_pow_right (by decide) (by omega)
        _ = 2 ^ 60 := by decide
      have digit : (hexDigit (mem (a + len))).getD 0 < 16 := by
        cases value : hexDigit (mem (a + len)) with
        | none => decide
        | some d => exact hexDigit_lt value
      rw [parseHex, parseHexDigit_eq small, Nat.pow_succ]
      omega

/-- `parse_hex` reads a numeral of at most 16 digits. -/
theorem parseHex_eq {digits : List UInt8} {n : Nat} (holds : Holds mem a digits)
    (value : hexValue digits = some n) (short : digits.length ≤ 16) :
    parseHex mem a digits.length = n := by
  induction digits using List.reverseRecOn generalizing n with
  | nil => simpa [hexValue, parseHex] using value
  | append_singleton digits digit ih =>
      obtain ⟨high, front, d, last, rfl⟩ := hexValue_append.mp value
      obtain ⟨before, here⟩ := holds_append.mp holds
      rw [List.length_append, List.length_singleton] at short ⊢
      have small : high < 2 ^ 60 := calc
        high < 16 ^ digits.length := hexValue_lt front
        _ ≤ 16 ^ 15 := Nat.pow_le_pow_right (by decide) (by omega)
        _ = 2 ^ 60 := by decide
      rw [parseHex, ih before front (by omega), here.1, parseHexDigit_eq small, last]
      rfl

/-- Rounding up to a multiple of 4. -/
def roundUp (value : Nat) : Nat := (value + 3) / 4 * 4

theorem align4_eq {value : Nat} (fits : value + 3 < 2 ^ 64) : align4 value = roundUp value := by
  unfold align4
  rw [wadd_of_lt fits, show (3 : Nat) = 2 ^ 2 - 1 from rfl, and_wnot_low (by omega) (by decide)]
  rfl

/-- Members that the loop registers nothing for: the directory itself, and
names that do not fit. -/
def Skipped (m : Member) : Prop := m.name = codes ['.'] ∨ 64 ≤ m.name.length + 1

instance (m : Member) : Decidable (Skipped m) := inferInstanceAs (Decidable (_ ∨ _))

/-- Where the loop looks for the contents of a member at `pos`. -/
def dataPos (pos : Nat) (m : Member) : Nat := roundUp (pos + headerSize + (m.name.length + 1))

/-- Where the loop goes on behind a member at `pos`. -/
def nextPos (pos : Nat) (m : Member) : Nat := roundUp (dataPos pos m + m.contents.length)

/-- What the loop registers for a member at `pos`. -/
def memberFile (pos : Nat) (m : Member) : InitrdFile := ⟨m.name, dataPos pos m, m.contents.length⟩

variable {m : Member} {pos : Nat}

/-- The loop recognizes a header. -/
theorem header_texts (holds : Holds mem pos m.header) :
    hasText mem pos ['T', 'R', 'A', 'I', 'L'] = false ∧
      hasText mem pos ['0', '7', '0', '7', '0', '1'] = true := by
  have start := holds.slice 0 6
  rw [List.drop_zero, m.header_magic, Nat.add_zero] at start
  refine ⟨?_, hasText_iff.mpr start⟩
  have first : mem pos = 48 := start.1
  simp only [hasText, first]
  rfl

/-- The loop reads the two lengths. -/
theorem header_sizes (holds : Holds mem pos m.header) :
    parseHex mem (pos + 94) 8 = m.name.length + 1 ∧ parseHex mem (pos + 54) 8 = m.contents.length := by
  have eight : ∀ k, k + 8 ≤ 110 → ((m.header.drop k).take 8).length = 8 := fun k inside => by
    rw [List.length_take, List.length_drop, m.header_length]
    exact Nat.min_eq_left (by simp only [headerSize]; omega)
  constructor
  · have := parseHex_eq (holds.slice 94 8) m.namesize (by rw [eight 94 (by omega)]; omega)
    rwa [eight 94 (by omega)] at this
  · have := parseHex_eq (holds.slice 54 8) m.filesize (by rw [eight 54 (by omega)]; omega)
    rwa [eight 54 (by omega)] at this

/-- The loop recognizes the directory itself. -/
theorem name_dot {name : Nat} (string : CString mem name m.name) :
    (mem name = ascii '.' ∧ mem (name + 1) = 0) ↔ m.name = codes ['.'] := by
  obtain ⟨c, rest, shape⟩ := List.exists_cons_of_ne_nil m.name_nonempty
  have holds := string.holds
  rw [shape] at holds
  have second : mem (name + 1) = 0 ↔ rest = [] := by
    cases rest with
    | nil => simp [holds.2.1]
    | cons d rest =>
        have plain := m.name_plain
        rw [shape] at plain
        have nonzero : d ≠ 0 := fun zero => plain (by simp [zero])
        simp [holds.2.1, nonzero]
  rw [holds.1, second, shape]
  simp [codes]

/-- The name that the loop copies is the member's. -/
theorem name_copied {name : Nat} (string : CString mem name m.name) (short : m.name.length + 1 < 64) :
    untilNul (nameBytes mem name (m.name.length + 1)) = m.name := by
  have copied : nameBytes mem name (m.name.length + 1) = m.name ++ [0] := by
    refine List.ext_getElem (by simp [nameBytes]; omega) fun i inside inside' => ?_
    rw [← holds_iff.mp string.holds i inside']
    simp [nameBytes]
  rw [copied, untilNul_append_nul m.name_plain]

section

variable [Layout] {s : Kernel} {stop fuel : Nat} {post : Unit → Kernel → Prop} {halt : Halt → Kernel → Prop}

/-- Bytes that are no header end the loop. -/
theorem initrdLoop_end (ended : ¬ wadd pos cpioHeaderSize ≤ stop ∨
    hasText s.mem pos ['0', '7', '0', '7', '0', '1'] = false) (done : post () s) :
    wp (initrdLoop stop (fuel + 1) pos) s post halt := by
  rw [initrdLoop]
  simp only [wp_bind, wp_get, wp_ite]
  split
  · next inside =>
      rw [if_pos (.inr (ended.resolve_left (not_not_intro inside)))]
      exact (wp_pure _).mpr done
  · exact (wp_pure _).mpr done

/-- One round of the loop at a member. -/
theorem initrdLoop_member (holds : Holds s.mem pos m.encode) (inside : pos + m.encode.length ≤ stop)
    (dataFits : pos + headerSize + (m.name.length + 1) + 3 < 2 ^ 64)
    (nextFits : dataPos pos m + m.contents.length + 3 < 2 ^ 64)
    (round : wp (if Skipped m then initrdLoop stop fuel (nextPos pos m) else do
        if ← initrdAdd (pos + headerSize) (m.name.length + 1) m.contents.length (dataPos pos m) then
          initrdLoop stop fuel (nextPos pos m)
        else
          pure ()) s post halt) :
    wp (initrdLoop stop (fuel + 1) pos) s post halt := by
  obtain ⟨header, name, _⟩ := Member.holds_encode holds
  obtain ⟨notTrailer, magic⟩ := header_texts header
  obtain ⟨namesize, filesize⟩ := header_sizes header
  have large := m.headerSize_lt
  simp only [headerSize] at *
  have headerEnd : wadd pos cpioHeaderSize = pos + 110 := wadd_of_lt (by simp only [cpioHeaderSize]; omega)
  have nameEnd : wadd (pos + 110) (m.name.length + 1) = pos + 110 + (m.name.length + 1) :=
    wadd_of_lt (by omega)
  have data : align4 (pos + 110 + (m.name.length + 1)) = dataPos pos m := align4_eq (by omega)
  have after : align4 (wadd (dataPos pos m) m.contents.length) = nextPos pos m := by
    rw [wadd_of_lt (by omega), align4_eq (by omega)]
    rfl
  rw [initrdLoop]
  simp only [wp_bind, wp_get, headerEnd, wp_ite, namesize, filesize, nameEnd, data, after, notTrailer, magic,
    Bool.false_eq_true, Bool.true_eq_false, or_self, if_false]
  rw [if_pos (by omega)]
  have skip : ((s.mem (pos + 110) = ascii '.' ∧ s.mem (pos + 110 + 1) = 0) ∨ m.name.length + 1 ≥ 64) ↔
      Skipped m := or_congr (name_dot name) Iff.rfl
  simp only [skip]
  simpa only [wp_ite, wp_bind] using round

end

end KuroOS
