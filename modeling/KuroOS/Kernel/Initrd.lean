import KuroOS.Kernel.Task

/-!
# The embedded archive: `initrd.c`

The archive is a cpio file in the kernel image. `initrd_init` makes one heap
entry for each file; `initrd_find` compares the entries' names with a string
that a user task points at.
-/

namespace KuroOS

open Base

/-- The code of an ASCII character. -/
def ascii (c : Char) : UInt8 := UInt8.ofNat c.toNat

/-- `CPIO_HEADER_SIZE`. -/
@[simp] abbrev cpioHeaderSize : Nat := 110

namespace InitrdEntry

/-! ### The fields of `struct initrd_entry` -/

@[simp] abbrev name : Nat := 0
@[simp] abbrev data : Nat := 64
@[simp] abbrev size : Nat := 72
@[simp] abbrev next : Nat := 80

end InitrdEntry

/-- `sizeof(struct initrd_entry)`. -/
@[simp] abbrev initrdEntrySize : Nat := 88

/-- The body of the loop of `parse_hex`. -/
def parseHexDigit (val : Nat) (c : UInt8) : Nat :=
  let val := val <<< 4 % 2 ^ 64
  if ascii '0' ≤ c ∧ c ≤ ascii '9' then val ||| (c - ascii '0').toNat
  else if ascii 'a' ≤ c ∧ c ≤ ascii 'f' then val ||| ((c - ascii 'a').toNat + 10)
  else if ascii 'A' ≤ c ∧ c ≤ ascii 'F' then val ||| ((c - ascii 'A').toNat + 10)
  else val

/-- `parse_hex`. -/
def parseHex (mem : Mem) (s : Nat) : (len : Nat) → Nat
  | 0 => 0
  | len + 1 => parseHexDigit (parseHex mem s len) (mem (s + len))

/-- `align4`. -/
def align4 (val : Nat) : Nat := wadd val 3 &&& wnot 3

/-- The bytes at an address are those of a text. -/
def hasText (mem : Mem) (address : Nat) : List Char → Bool
  | [] => true
  | c :: rest => mem address == ascii c && hasText mem (address + 1) rest

section

variable [Layout]

/-- `initrd_init` from the allocation of an entry on; `false` when there was no
memory for it. -/
def initrdAdd (name namesize filesize data : Nat) : K Bool := do
  let entry ← kmalloc initrdEntrySize
  if entry = 0 then
    return false
  else
    modifyMem (memCopy · (entry + InitrdEntry.name) name (min namesize 63))
    modifyMem (Function.update · (entry + InitrdEntry.name + if namesize < 64 then namesize else 63) 0)
    storeWord (entry + InitrdEntry.data) data
    storeWord (entry + InitrdEntry.size) filesize
    storeWord (entry + InitrdEntry.next) (← get).fileList
    modify fun s => { s with fileList := entry }
    return true

/-- The loop of `initrd_init`. -/
def initrdLoop (initrdEnd : Nat) : (fuel pos : Nat) → K Unit
  | 0, _ => throw .hang
  | fuel + 1, pos => do
      let mem := (← get).mem
      if wadd pos cpioHeaderSize ≤ initrdEnd then
        if hasText mem pos ['T', 'R', 'A', 'I', 'L'] ∨
            hasText mem pos ['0', '7', '0', '7', '0', '1'] = false then
          pure ()
        else
          let namesize := parseHex mem (pos + 94) 8
          let filesize := parseHex mem (pos + 54) 8
          let name := wadd pos cpioHeaderSize
          let data := align4 (wadd (wadd pos cpioHeaderSize) namesize)
          let after := align4 (wadd data filesize)
          if (mem name = ascii '.' ∧ mem (name + 1) = 0) ∨ namesize ≥ 64 then
            initrdLoop initrdEnd fuel after
          else if ← initrdAdd name namesize filesize data then
            initrdLoop initrdEnd fuel after
          else
            pure ()
      else
        pure ()

/-- `initrd_init`. -/
def initrdInit (start size : Nat) : K Unit := do
  modify fun s => { s with fileList := 0 }
  initrdLoop (wadd start size) loopBound start

end

/-- The comparison of `initrd_find`: the strings match when they agree up to the
first NUL of either. -/
def initrdMatch : (fuel a b : Nat) → K Bool
  | 0, _, _ => throw .hang
  | fuel + 1, a, b => do
      let x := (← get).mem a
      let y ← readUser b
      if x ≠ 0 ∧ y ≠ 0 ∧ x = y then
        initrdMatch fuel (wadd a 1) (wadd b 1)
      else
        return x == y

/-- The loop of `initrd_find`. -/
def initrdFindLoop (name : Nat) : (fuel entry : Nat) → K (Nat × Nat)
  | 0, _ => throw .hang
  | fuel + 1, entry =>
      if entry = 0 then
        return (0, 0)
      else do
        if ← initrdMatch loopBound (entry + InitrdEntry.name) name then
          let size ← loadWord (entry + InitrdEntry.size)
          let data ← loadWord (entry + InitrdEntry.data)
          return (data, size)
        else
          initrdFindLoop name fuel (← loadWord (entry + InitrdEntry.next))

/-- `initrd_find`: the result, and what it stores in `*size`. -/
def initrdFind (name : Nat) : K (Nat × Nat) := do
  initrdFindLoop name loopBound (← get).fileList

end KuroOS
