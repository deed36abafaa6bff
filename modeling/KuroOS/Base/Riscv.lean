import KuroOS.Base.Bytes
import Mathlib.Logic.Function.Basic

/-!
# Straight-line RV64 code

A hart holds its general registers and three control registers of supervisor mode.
The instructions are those that code around a trap is made of; none of them branches,
so a program is a list. A list of slots places registers in a frame, and storing the
slots and loading them again are each one lemma, whatever the slots are.
-/

namespace KuroOS.Base.Riscv

/-- The general registers but for `zero`, under their ABI names. -/
inductive Reg where
  | ra | sp | gp | tp
  | t0 | t1 | t2
  | s0 | s1
  | a0 | a1 | a2 | a3 | a4 | a5 | a6 | a7
  | s2 | s3 | s4 | s5 | s6 | s7 | s8 | s9 | s10 | s11
  | t3 | t4 | t5 | t6
deriving DecidableEq, Repr

/-- The control registers. -/
inductive Csr where
  | sscratch | sepc | sstatus
deriving DecidableEq, Repr

/-- What a hart holds. -/
@[ext] structure Hart where
  regs : Reg → UInt64
  csrs : Csr → UInt64

/-- The instructions, with their operands in the order of the assembler. -/
inductive Instr where
  | csrrw (rd : Reg) (csr : Csr) (rs : Reg)
  | csrr (rd : Reg) (csr : Csr)
  | csrw (csr : Csr) (rs : Reg)
  | mv (rd rs : Reg)
  | li (rd : Reg) (imm : UInt64)
  | addi (rd rs : Reg) (imm : Int)
  | slli (rd rs : Reg) (amount : UInt64)
  | not (rd rs : Reg)
  | and (rd rs rs' : Reg)
  | or (rd rs rs' : Reg)
  | sd (rs : Reg) (offset : Nat) (base : Reg)
  | ld (rd : Reg) (offset : Nat) (base : Reg)
deriving DecidableEq, Repr

namespace Hart

/-- Write a register. -/
def write (h : Hart) (r : Reg) (value : UInt64) : Hart := { h with regs := Function.update h.regs r value }

/-- Write a control register. -/
def writeCsr (h : Hart) (c : Csr) (value : UInt64) : Hart := { h with csrs := Function.update h.csrs c value }

variable {h : Hart} {r r' : Reg} {c c' : Csr} {value : UInt64}

@[simp] theorem write_csrs : (h.write r value).csrs = h.csrs := rfl

@[simp] theorem writeCsr_regs : (h.writeCsr c value).regs = h.regs := rfl

@[simp] theorem write_same : (h.write r value).regs r = value := Function.update_self ..

@[simp] theorem writeCsr_same : (h.writeCsr c value).csrs c = value := Function.update_self ..

theorem write_other (other : r' ≠ r) : (h.write r value).regs r' = h.regs r' := Function.update_of_ne other ..

theorem writeCsr_other (other : c' ≠ c) : (h.writeCsr c value).csrs c' = h.csrs c' := Function.update_of_ne other ..

end Hart

/-- The address of a slot of a frame. -/
def slotAddress (base : UInt64) (offset : Nat) : Nat := (base + UInt64.ofNat offset).toNat

/-- One instruction. -/
def exec : Instr → Hart × Mem → Hart × Mem
  | .csrrw rd csr rs, (h, mem) => ((h.writeCsr csr (h.regs rs)).write rd (h.csrs csr), mem)
  | .csrr rd csr, (h, mem) => (h.write rd (h.csrs csr), mem)
  | .csrw csr rs, (h, mem) => (h.writeCsr csr (h.regs rs), mem)
  | .mv rd rs, (h, mem) => (h.write rd (h.regs rs), mem)
  | .li rd imm, (h, mem) => (h.write rd imm, mem)
  | .addi rd rs imm, (h, mem) => (h.write rd (h.regs rs + UInt64.ofInt imm), mem)
  | .slli rd rs amount, (h, mem) => (h.write rd (h.regs rs <<< amount), mem)
  | .not rd rs, (h, mem) => (h.write rd (~~~ h.regs rs), mem)
  | .and rd rs rs', (h, mem) => (h.write rd (h.regs rs &&& h.regs rs'), mem)
  | .or rd rs rs', (h, mem) => (h.write rd (h.regs rs ||| h.regs rs'), mem)
  | .sd rs offset base, (h, mem) => (h, mem.store (slotAddress (h.regs base) offset) 8 (h.regs rs).toNat)
  | .ld rd offset base, (h, mem) => (h.write rd (UInt64.ofNat (mem.load (slotAddress (h.regs base) offset) 8)), mem)

/-- A straight-line program. -/
def run (program : List Instr) (state : Hart × Mem) : Hart × Mem := program.foldl (fun state instr => exec instr state) state

variable {h : Hart} {m : Mem} {b : Reg} {slots : List (Reg × Nat)} {n : Nat}

@[simp] theorem run_nil (state : Hart × Mem) : run [] state = state := rfl

@[simp] theorem run_cons (instr : Instr) (program : List Instr) (state : Hart × Mem) :
    run (instr :: program) state = run program (exec instr state) := rfl

theorem run_append (first second : List Instr) (state : Hart × Mem) : run (first ++ second) state = run second (run first state) :=
  List.foldl_append ..

/-- Store registers in the slots of a frame. -/
def stores (base : Reg) (slots : List (Reg × Nat)) : List Instr := slots.map fun slot => .sd slot.1 slot.2 base

/-- Load registers from the slots of a frame. -/
def loads (base : Reg) (slots : List (Reg × Nat)) : List Instr := slots.map fun slot => .ld slot.1 slot.2 base

theorem slotAddress_of_le {frame : UInt64} {offset : Nat} (fits : frame.toNat + offset < 2 ^ 64) :
    slotAddress frame offset = frame.toNat + offset := by
  rw [slotAddress, UInt64.toNat_add, UInt64.toNat_ofNat_of_lt' (show offset < UInt64.size by simp only [UInt64.size]; omega)]
  exact Nat.mod_eq_of_lt fits

/-- Storing the slots changes their bytes alone, and each slot then holds its register. -/
theorem run_stores (room : (h.regs b).toNat + n ≤ 2 ^ 64) (inside : ∀ slot ∈ slots, slot.2 + 8 ≤ n)
    (apart : slots.Pairwise fun a b => a.2 + 8 ≤ b.2 ∨ b.2 + 8 ≤ a.2) :
    ∃ m', run (stores b slots) (h, m) = (h, m') ∧
      (∀ x, (∀ slot ∈ slots, x < (h.regs b).toNat + slot.2 ∨ (h.regs b).toNat + slot.2 + 8 ≤ x) → m' x = m x) ∧
      ∀ slot ∈ slots, m'.load ((h.regs b).toNat + slot.2) 8 = (h.regs slot.1).toNat := by
  induction slots generalizing m with
  | nil => exact ⟨m, rfl, fun _ _ => rfl, by simp⟩
  | cons slot slots ih =>
      obtain ⟨away, rest⟩ := List.pairwise_cons.mp apart
      have here := inside slot List.mem_cons_self
      have address : slotAddress (h.regs b) slot.2 = (h.regs b).toNat + slot.2 := slotAddress_of_le (by omega)
      obtain ⟨m', runs, outside, holds⟩ := ih (m := m.store ((h.regs b).toNat + slot.2) 8 (h.regs slot.1).toNat)
        (fun other member => inside other (List.mem_cons_of_mem _ member)) rest
      refine ⟨m', ?_, fun x clear => ?_, fun other member => ?_⟩
      · rw [stores, List.map_cons, run_cons, exec, address]
        exact runs
      · rw [outside x fun other member => clear other (List.mem_cons_of_mem _ member)]
        exact Mem.store_of_outside (clear slot List.mem_cons_self)
      · rcases List.mem_cons.mp member with rfl | later
        · -- the slots that follow are apart from this one
          rw [Mem.load_congr fun x low high => outside x fun next after => by have := away next after; omega]
          exact Mem.load_store_same (h.regs other.1).toNat_lt
        · exact holds other later

/-- Loading the slots changes their registers alone. -/
theorem run_loads (fits : ∀ slot ∈ slots, (h.regs b).toNat + slot.2 < 2 ^ 64) (distinct : (slots.map Prod.fst).Nodup)
    (spared : b ∉ slots.map Prod.fst) :
    ∃ h', run (loads b slots) (h, m) = (h', m) ∧ h'.csrs = h.csrs ∧
      (∀ r, r ∉ slots.map Prod.fst → h'.regs r = h.regs r) ∧
      ∀ slot ∈ slots, h'.regs slot.1 = UInt64.ofNat (m.load ((h.regs b).toNat + slot.2) 8) := by
  induction slots generalizing h with
  | nil => exact ⟨h, rfl, rfl, fun _ _ => rfl, by simp⟩
  | cons slot slots ih =>
      rw [List.map_cons] at distinct spared
      obtain ⟨fresh, rest⟩ := List.nodup_cons.mp distinct
      obtain ⟨other, spared⟩ := not_or.mp (List.mem_cons.not.mp spared)
      have address := slotAddress_of_le (fits slot List.mem_cons_self)
      obtain ⟨value, isValue⟩ : ∃ value, value = UInt64.ofNat (m.load ((h.regs b).toNat + slot.2) 8) := ⟨_, rfl⟩
      have kept : (h.write slot.1 value).regs b = h.regs b := Hart.write_other other
      obtain ⟨h', runs, csrs, outside, holds⟩ := ih (h := h.write slot.1 value)
        (fun next member => by rw [kept]; exact fits next (List.mem_cons_of_mem _ member)) rest spared
      refine ⟨h', ?_, csrs, fun r clear => ?_, fun next member => ?_⟩
      · rw [loads, List.map_cons, run_cons, exec, address, ← isValue]
        exact runs
      · rw [List.map_cons, List.mem_cons, not_or] at clear
        obtain ⟨apart, clear⟩ := clear
        rw [outside r clear, Hart.write_other apart]
      · rcases List.mem_cons.mp member with rfl | later
        · rw [outside next.1 fresh, Hart.write_same, isValue]
        · rw [holds next later, kept]

end KuroOS.Base.Riscv
