import KuroOS.Kernel.Initrd

/-!
# Formatted output: `printk.c` and the user's `printf.c`

The two files are the same code over two devices: `printk` calls `uart_putc` and
`uart_puts`, `printf` the user's `putc` and `puts`. A run records the calls that it
makes and the bytes of the format that it reads, in their order.
-/

namespace KuroOS

open Base

/-- An argument of a variadic call: the bits that are passed for its type. -/
inductive Arg where
  | int (bits : BitVec 32)
  | long (bits : BitVec 64)
  | pointer (address : Nat)
deriving DecidableEq, Repr

/-- A string that is put: one that a caller points at, or a literal of the code. -/
inductive PutString where
  | caller (address : Nat)
  | literal (text : String)
deriving DecidableEq, Repr

/-- A call of the output device. -/
inductive PutCall where
  | putc (c : UInt8)
  | puts (s : PutString)
  | uartPutc (c : UInt8)
  | uartPuts (s : PutString)
deriving DecidableEq, Repr

/-- The two functions that a file prints with. -/
structure PutDevice where
  putc : UInt8 → PutCall
  puts : PutString → PutCall

/-- `putc` and `puts` of `printf.c`. -/
def userDevice : PutDevice := ⟨.putc, .puts⟩

/-- `uart_putc` and `uart_puts`. -/
def uartDevice : PutDevice := ⟨.uartPutc, .uartPuts⟩

/-- Why a run has no defined end. -/
inductive Undefined where
  /-- an access behind the end of `buf` -/
  | overrun
  /-- `va_arg` without an argument of its type -/
  | argument
  /-- a loop that never ends -/
  | hang
deriving DecidableEq, Repr

/-- A run of the formatter: the arguments to come, the calls made, and the addresses
of the format's bytes that were read. -/
structure Printing where
  args : List Arg
  calls : List PutCall
  reads : List Nat
deriving DecidableEq, Repr

/-- Programs that print. -/
abbrev Prints (α : Type) := EStateM Undefined Printing α

/-- A call of the device. -/
def emit (call : PutCall) : Prints Unit :=
  modify fun s => { s with calls := s.calls ++ [call] }

/-- An access to `buf[i]`, which has 20 bytes. -/
def inBuffer (i : Nat) : Prints Unit :=
  if i < 20 then pure () else throw .overrun

/-- `while (x > 0) { buf[i++] = '0' + x % 10; x /= 10; }`: the last `i`, and the buffer. -/
def fillDigits : (fuel x i : Nat) → (buf : Nat → UInt8) → Prints (Nat × (Nat → UInt8))
  | 0, _, _, _ => throw .hang
  | fuel + 1, x, i, buf =>
      if x > 0 then do
        inBuffer i
        fillDigits fuel (x / 10) (i + 1) (Function.update buf i (ascii '0' + UInt8.ofNat (x % 10)))
      else
        return (i, buf)

/-- `while (i > 0) { putc(buf[--i]); }`. -/
def emitDigits (device : PutDevice) (buf : Nat → UInt8) : (i : Nat) → Prints Unit
  | 0 => pure ()
  | i + 1 => do
      inBuffer i
      emit (device.putc (buf i))
      emitDigits device buf i

/-- What `print_udec` and `print_dec` do with the magnitude. -/
def printMagnitude (device : PutDevice) (x : Nat) : Prints Unit :=
  if x = 0 then
    emit (device.putc (ascii '0'))
  else do
    let (i, buf) ← fillDigits loopBound x 0 fun _ => 0
    emitDigits device buf i

/-- `print_udec`. -/
def printUdec (device : PutDevice) (x : BitVec 64) : Prints Unit :=
  printMagnitude device x.toNat

/-- `print_dec`; the negation wraps. -/
def printDec (device : PutDevice) (value : BitVec 64) : Prints Unit :=
  if value.toInt < 0 then do
    emit (device.putc (ascii '-'))
    printMagnitude device (-value).toNat
  else
    printMagnitude device value.toNat

/-- The string `digits` of `print_hex`. -/
def hexDigits : List UInt8 := "0123456789abcdef".toList.map ascii

/-- The loop of `print_hex`, for the nibbles below `i`. -/
def printHexLoop (device : PutDevice) (x : Nat) : (i : Nat) → (started : Bool) → Prints Unit
  | 0, _ => pure ()
  | i + 1, started => do
      let nibble := x >>> (i * 4) &&& 0xf
      if nibble ≠ 0 ∨ started ∨ i = 0 then
        emit (device.putc (hexDigits.getD nibble 0))
        printHexLoop device x i true
      else
        printHexLoop device x i started

/-- `print_hex`. -/
def printHex (device : PutDevice) (x : BitVec 64) : Prints Unit :=
  printHexLoop device x.toNat 16 false

/-- `va_arg(args, int)` and `va_arg(args, unsigned int)`. -/
def vaInt : Prints (BitVec 32) := do
  match (← get).args with
  | .int bits :: rest =>
      modify fun s => { s with args := rest }
      return bits
  | _ => throw .argument

/-- `va_arg(args, long)` and `va_arg(args, unsigned long)`. -/
def vaLong : Prints (BitVec 64) := do
  match (← get).args with
  | .long bits :: rest =>
      modify fun s => { s with args := rest }
      return bits
  | _ => throw .argument

/-- `va_arg` of a pointer. -/
def vaPointer : Prints Nat := do
  match (← get).args with
  | .pointer address :: rest =>
      modify fun s => { s with args := rest }
      return address
  | _ => throw .argument

/-- `*fmt`. -/
def readFormat (mem : Mem) (fmt : Nat) : Prints UInt8 := do
  modify fun s => { s with reads := s.reads ++ [fmt] }
  return mem fmt

/-- The switch after `%l`; the pointer that it leaves is the one it gets. -/
def printLong (device : PutDevice) (mem : Mem) (fmt : Nat) : Prints Unit := do
  let c ← readFormat mem fmt
  if c = ascii 'd' then
    printDec device (← vaLong)
  else if c = ascii 'u' then
    printUdec device (← vaLong)
  else if c = ascii 'x' then
    printHex device (← vaLong)
  else
    emit (device.putc (ascii '%'))
    emit (device.putc (ascii 'l'))
    emit (device.putc (← readFormat mem fmt))

/-- The switch after `%`, for a character `c` that is not the terminator; the result is
the pointer that it leaves. -/
def printConversion (device : PutDevice) (mem : Mem) (fmt : Nat) (c : UInt8) : Prints Nat := do
  if c = ascii '%' then
    emit (device.putc (ascii '%'))
    return fmt
  else if c = ascii 'c' then
    emit (device.putc (UInt8.ofNat (← vaInt).toNat))
    return fmt
  else if c = ascii 's' then
    let s ← vaPointer
    emit (device.puts (if s ≠ 0 then .caller s else .literal "(null)"))
    return fmt
  else if c = ascii 'd' then
    printDec device ((← vaInt).signExtend 64)
    return fmt
  else if c = ascii 'u' then
    printUdec device ((← vaInt).zeroExtend 64)
    return fmt
  else if c = ascii 'x' then
    printHex device ((← vaInt).zeroExtend 64)
    return fmt
  else if c = ascii 'l' then
    printLong device mem (fmt + 1)
    return fmt + 1
  else if c = ascii 'p' then
    emit (device.puts (.literal "0x"))
    printHex device (BitVec.ofNat 64 (← vaPointer))
    return fmt
  else
    emit (device.putc (ascii '%'))
    emit (device.putc (← readFormat mem fmt))
    return fmt

/-- The loop over the format. -/
def formatLoop (device : PutDevice) (mem : Mem) : (fuel fmt : Nat) → Prints Unit
  | 0, _ => throw .hang
  | fuel + 1, fmt => do
      if (← readFormat mem fmt) = 0 then
        pure ()
      else if (← readFormat mem fmt) ≠ ascii '%' then
        emit (device.putc (← readFormat mem fmt))
        formatLoop device mem fuel (fmt + 1)
      else
        let c ← readFormat mem (fmt + 1)
        if c = 0 then
          emit (device.putc (ascii '%'))
        else
          let fmt ← printConversion device mem (fmt + 1) c
          formatLoop device mem fuel (fmt + 1)

/-- `printf`. -/
def printf (mem : Mem) (fmt : Nat) : Prints Unit := formatLoop userDevice mem loopBound fmt

/-- `printk`. -/
def printk (mem : Mem) (fmt : Nat) : Prints Unit := formatLoop uartDevice mem loopBound fmt

end KuroOS
