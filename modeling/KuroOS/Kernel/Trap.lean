import KuroOS.Kernel.Syscall

/-!
# Traps: `trap.c` and `trap.S`

`trap_entry` stores the interrupted registers in a frame and calls `trap_handler` with
it. What a register holds is any word; the order of the words is that of the stores.
-/

namespace KuroOS

open Base

/-- `SCAUSE_USER_ECALL`. -/
def scauseUserEcall : Nat := 8

/-- `SCAUSE_INTERRUPT | SCAUSE_SUPERVISOR_TIMER`. -/
def scauseTimer : Nat := 2 ^ 63 ||| 5

/-- The words that `trap_entry` stores: `ra`, `gp`, `tp` and the others up to `t6`, then
`sp`, `sepc` and `sstatus`. -/
def trapWords : Nat := 33

/-- The stores of `trap_entry`. -/
def trapSave (tf : Nat) (words : Nat → Nat) : K Unit :=
  countUp (fun i => storeWord (tf + 8 * i) (words i)) trapWords

/-- `trap_handler`. The ticks that `timer_tick` counts are read nowhere. -/
def trapHandler [Layout] (scause tf : Nat) : K Nat :=
  if scause = scauseUserEcall then syscallDispatch tf
  else if scause = scauseTimer then taskSchedule tf
  else throw (.panic "unhandled trap")

end KuroOS
