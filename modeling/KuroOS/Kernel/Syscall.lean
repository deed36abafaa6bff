import KuroOS.Kernel.Exec

/-!
# System calls: `syscall.c` and the UART calls it makes

A register of the trap frame is a word of memory. Results of type `long` are
stored in it as unsigned words.
-/

namespace KuroOS

open Base

@[simp] abbrev sysWriteNr : Nat := 1
@[simp] abbrev sysExitNr : Nat := 2
@[simp] abbrev sysReadNr : Nat := 3
@[simp] abbrev sysYieldNr : Nat := 4
@[simp] abbrev sysGetpidNr : Nat := 5
@[simp] abbrev sysForkNr : Nat := 6
@[simp] abbrev sysPsNr : Nat := 7
@[simp] abbrev sysExecNr : Nat := 8

/-- The `long` -1 in a register. -/
@[simp] abbrev minusOne : Nat := 2 ^ 64 - 1

/-- `uart_putc`. -/
def uartPutc (c : UInt8) : K Unit :=
  uartWrite uartData c

/-- `uart_has_data`. -/
def uartHasData : K Bool := do
  return !(← get).uart.waiting.isEmpty

/-- `uart_getc`: with no byte waiting it spins until the line delivers one. -/
def uartGetc : K UInt8 := do
  let s ← get
  match s.uart.waiting, s.uart.coming with
  | byte :: rest, _ =>
      set { s with uart := { s.uart with waiting := rest } }
      return byte
  | [], byte :: rest =>
      set { s with uart := { s.uart with coming := rest } }
      return byte
  | [], [] => throw .hang

/-- `sys_write`. -/
def sysWrite (fd buf len : Nat) : K Nat := do
  if fd ≠ 1 ∧ fd ≠ 2 then
    return minusOne
  else
    countUp (fun i => do uartPutc (← readUser (wadd buf i))) len
    return len

/-- The loop of `sys_read`, down to a number of bytes to come; the result is
`i`. -/
def sysReadLoop (buf len : Nat) : (fuel i : Nat) → K Nat
  | 0, _ => throw .hang
  | fuel + 1, i =>
      if wadd i 1 < len then do
        let c ← uartGetc
        let c := if c = ascii '\r' then ascii '\n' else c
        if c = 0x7f ∨ c = 0x08 then
          if i > 0 then
            uartPutc 0x08
            uartPutc (ascii ' ')
            uartPutc 0x08
            sysReadLoop buf len fuel (i - 1)
          else
            sysReadLoop buf len fuel i
        else
          uartPutc c
          if c = ascii '\n' then
            return i
          else
            writeUser (wadd buf i) c
            sysReadLoop buf len fuel (i + 1)
      else
        return i

/-- `sys_read`. Each round of its loop takes a byte, so there are no more
rounds than bytes, and one that finds none never ends. -/
def sysRead (fd buf len : Nat) : K Nat := do
  if fd ≠ 0 then
    return minusOne
  else if len = 0 then
    return 0
  else
    let s ← get
    let i ← sysReadLoop buf len (s.uart.waiting.length + s.uart.coming.length + 1) 0
    writeUser (wadd buf i) 0
    return i

/-- `sys_getpid`. -/
def sysGetpid : K Nat := do
  let task := (← get).current
  if task ≠ 0 then loadWord (task + Task.pid) else return minusOne

section

variable [Layout]

/-- `sys_exit`. -/
def sysExit (tf code : Nat) : K Nat := do
  let next ← taskExitCurrent tf code
  if next = 0 then throw .shutdown else return next

/-- `sys_yield`. -/
def sysYield (tf : Nat) : K Nat := do
  storeWord (tf + TrapFrame.a0) 0
  taskSchedule tf

/-- `sys_fork`. -/
def sysFork (tf : Nat) : K Nat := do
  if (← taskFork tf) = 0 then
    return minusOne
  else
    loadWord (tf + TrapFrame.a0)

/-- `tf->sepc += 4`. -/
def skipEcall (tf : Nat) : K Unit := do
  storeWord (tf + TrapFrame.sepc) (wadd (← loadWord (tf + TrapFrame.sepc)) 4)

/-- `syscall_dispatch`. `sys_ps` only logs. -/
def syscallDispatch (tf : Nat) : K Nat := do
  let a7 ← loadWord (tf + TrapFrame.a7)
  if a7 = sysWriteNr then
    skipEcall tf
    let result ← sysWrite (← loadWord (tf + TrapFrame.a0)) (← loadWord (tf + TrapFrame.a1))
      (← loadWord (tf + TrapFrame.a2))
    storeWord (tf + TrapFrame.a0) result
    return tf
  else if a7 = sysReadNr then
    if (← uartHasData) = false then
      taskSchedule tf
    else
      skipEcall tf
      let result ← sysRead (← loadWord (tf + TrapFrame.a0)) (← loadWord (tf + TrapFrame.a1))
        (← loadWord (tf + TrapFrame.a2))
      storeWord (tf + TrapFrame.a0) result
      return tf
  else if a7 = sysExitNr then
    skipEcall tf
    sysExit tf (← loadWord (tf + TrapFrame.a0))
  else if a7 = sysYieldNr then
    skipEcall tf
    sysYield tf
  else if a7 = sysGetpidNr then
    skipEcall tf
    storeWord (tf + TrapFrame.a0) (← sysGetpid)
    return tf
  else if a7 = sysForkNr then
    skipEcall tf
    storeWord (tf + TrapFrame.a0) (← sysFork tf)
    return tf
  else if a7 = sysPsNr then
    skipEcall tf
    storeWord (tf + TrapFrame.a0) 0
    return tf
  else if a7 = sysExecNr then
    skipEcall tf
    let result ← sysExec (← loadWord (tf + TrapFrame.a0)) tf
    storeWord (tf + TrapFrame.a0) (if result = 0 then 0 else minusOne)
    return tf
  else
    throw (.panic "unknown syscall")

end

end KuroOS
