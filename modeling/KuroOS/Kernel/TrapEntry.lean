import KuroOS.Base.Riscv
import KuroOS.Kernel.Trap

/-!
# The way in and out of the kernel: `trap.S` and `user.S`

The instructions stand in the order of the source. `trap_entry` is cut in two at its
call of `trap_handler`; the `sret` that ends a way out changes neither registers nor
memory.
-/

namespace KuroOS

open Base.Riscv

/-- `trap_entry`, up to the call of `trap_handler`. -/
def trapEntry : List Instr := [
  .csrrw .sp .sscratch .sp,
  .addi .sp .sp (-272),
  .sd .ra 0 .sp,
  .sd .gp 8 .sp,
  .sd .tp 16 .sp,
  .sd .t0 24 .sp,
  .sd .t1 32 .sp,
  .sd .t2 40 .sp,
  .sd .s0 48 .sp,
  .sd .s1 56 .sp,
  .sd .a0 64 .sp,
  .sd .a1 72 .sp,
  .sd .a2 80 .sp,
  .sd .a3 88 .sp,
  .sd .a4 96 .sp,
  .sd .a5 104 .sp,
  .sd .a6 112 .sp,
  .sd .a7 120 .sp,
  .sd .s2 128 .sp,
  .sd .s3 136 .sp,
  .sd .s4 144 .sp,
  .sd .s5 152 .sp,
  .sd .s6 160 .sp,
  .sd .s7 168 .sp,
  .sd .s8 176 .sp,
  .sd .s9 184 .sp,
  .sd .s10 192 .sp,
  .sd .s11 200 .sp,
  .sd .t3 208 .sp,
  .sd .t4 216 .sp,
  .sd .t5 224 .sp,
  .sd .t6 232 .sp,
  .csrr .t0 .sscratch,
  .sd .t0 240 .sp,
  .csrr .t0 .sepc,
  .sd .t0 248 .sp,
  .csrr .t0 .sstatus,
  .sd .t0 256 .sp,
  .mv .a0 .sp]

/-- `trap_entry`, after the call of `trap_handler`. -/
def trapReturn : List Instr := [
  .mv .sp .a0,
  .addi .t0 .sp 272,
  .csrw .sscratch .t0,
  .ld .t0 248 .sp,
  .csrw .sepc .t0,
  .ld .t0 256 .sp,
  .csrw .sstatus .t0,
  .ld .ra 0 .sp,
  .ld .gp 8 .sp,
  .ld .tp 16 .sp,
  .ld .t0 24 .sp,
  .ld .t1 32 .sp,
  .ld .t2 40 .sp,
  .ld .s0 48 .sp,
  .ld .s1 56 .sp,
  .ld .a0 64 .sp,
  .ld .a1 72 .sp,
  .ld .a2 80 .sp,
  .ld .a3 88 .sp,
  .ld .a4 96 .sp,
  .ld .a5 104 .sp,
  .ld .a6 112 .sp,
  .ld .a7 120 .sp,
  .ld .s2 128 .sp,
  .ld .s3 136 .sp,
  .ld .s4 144 .sp,
  .ld .s5 152 .sp,
  .ld .s6 160 .sp,
  .ld .s7 168 .sp,
  .ld .s8 176 .sp,
  .ld .s9 184 .sp,
  .ld .s10 192 .sp,
  .ld .s11 200 .sp,
  .ld .t3 208 .sp,
  .ld .t4 216 .sp,
  .ld .t5 224 .sp,
  .ld .t6 232 .sp,
  .ld .sp 240 .sp]

/-- `enter_user`. -/
def enterUser : List Instr := [
  .csrw .sscratch .a2,
  .mv .sp .a0,
  .csrw .sepc .a1,
  .csrr .t0 .sstatus,
  .li .t1 1,
  .slli .t1 .t1 8,
  .not .t1 .t1,
  .and .t0 .t0 .t1,
  .li .t1 1,
  .slli .t1 .t1 5,
  .or .t0 .t0 .t1,
  .csrw .sstatus .t0]

/-- A field of `struct trap_frame`. -/
inductive TrapField where
  | reg (r : Reg)
  | sepc
  | sstatus
  | reserved
deriving DecidableEq, Repr

/-- The fields of `struct trap_frame`, in order. -/
def trapFields : List TrapField := [
  .reg .ra, .reg .gp, .reg .tp, .reg .t0, .reg .t1, .reg .t2, .reg .s0, .reg .s1,
  .reg .a0, .reg .a1, .reg .a2, .reg .a3, .reg .a4, .reg .a5, .reg .a6, .reg .a7,
  .reg .s2, .reg .s3, .reg .s4, .reg .s5, .reg .s6, .reg .s7, .reg .s8, .reg .s9, .reg .s10, .reg .s11,
  .reg .t3, .reg .t4, .reg .t5, .reg .t6, .reg .sp, .sepc, .sstatus, .reserved]

/-- The offset of a field. -/
def TrapField.offset (field : TrapField) : Nat := 8 * trapFields.idxOf field

/-- Every register has a field, and the fields fill the frame. -/
theorem trapFields_complete : (∀ r, TrapField.reg r ∈ trapFields) ∧ trapFields.Nodup ∧ 8 * trapFields.length = trapFrameSize :=
  ⟨fun r => by cases r <;> decide, by decide, by decide⟩

end KuroOS
