import KuroOS.Kernel.Syscall
import KuroOS.Task.Run
import KuroOS.Initrd.Find

/-!
# Reading a line

`sys_read` edits a line in the buffer while it takes bytes from the UART. The
line is a fold of the bytes that were taken, and they are the shortest part of
the input that ends the line or fills the buffer. `Edits` is the loop on lists;
what the loop does to the machine is said once for anything that the editing
steps keep, and used for the bounds and for the contents of the buffer.
-/

namespace KuroOS

open Base

/-- The byte ends the line. -/
def isEol (c : UInt8) : Bool := c = ascii '\r' || c = ascii '\n'

/-- The byte takes back the last one. -/
def isErase (c : UInt8) : Bool := c = 0x7f || c = 0x08

/-- What a byte of input does to the line. -/
def editByte (line : List UInt8) (c : UInt8) : List UInt8 :=
  if isEol c then line else if isErase c then line.dropLast else line ++ [c]

/-- The line after some input. -/
def editLine (input : List UInt8) : List UInt8 := input.foldl editByte []

/-- The input ends the line, or leaves no room in the buffer but for the 0. -/
def Finishes (len : Nat) (input : List UInt8) : Prop :=
  (∃ c ∈ input.getLast?, isEol c = true) ∨ (editLine input).length + 1 = len

/-- The shortest part of the input that finishes the line. -/
structure Consumes (len : Nat) (input consumed rest : List UInt8) : Prop where
  split : input = consumed ++ rest
  finishes : Finishes len consumed
  shortest : ∀ part, part <+: consumed → Finishes len part → part = consumed

/-- The loop of `sys_read` on lists: from a line, over the bytes it takes, to the
line it leaves. No line on the way is as long as `cap`. -/
inductive Edits (len cap : Nat) : (line todo final : List UInt8) → Prop
  | full {line : List UInt8} (fills : line.length + 1 = len) : Edits len cap line [] line
  | eol {line : List UInt8} {c : UInt8} (room : line.length + 1 < len) (ends : isEol c = true) :
      Edits len cap line [c] line
  | erase {line todo final : List UInt8} {c : UInt8} (room : line.length + 1 < len) (goes : isEol c = false)
      (erases : isErase c = true) (rest : Edits len cap line.dropLast todo final) : Edits len cap line (c :: todo) final
  | store {line todo final : List UInt8} {c : UInt8} (room : line.length + 1 < len) (goes : isEol c = false)
      (stores : isErase c = false) (slot : line.length + 1 < cap) (rest : Edits len cap (line ++ [c]) todo final) :
      Edits len cap line (c :: todo) final

variable {len cap : Nat} {bytes consumed rest done line todo final : List UInt8}

theorem editLine_append (c : UInt8) : editLine (done ++ [c]) = editByte (editLine done) c := List.foldl_concat ..

/-- A line is not longer than the input. -/
theorem length_editLine_le (consumed : List UInt8) : (editLine consumed).length ≤ consumed.length := by
  induction consumed using List.reverseRecOn with
  | nil => exact Nat.le_refl 0
  | append_singleton done c ih =>
      rw [editLine_append, editByte, List.length_append, List.length_singleton]
      split
      · omega
      · split
        · rw [List.length_dropLast]
          omega
        · rw [List.length_append, List.length_singleton]
          omega

/-- Input that finishes the line has a shortest part that does. -/
theorem shortest_part (finishes : Finishes len consumed) : ∃ part, part <+: consumed ∧ Finishes len part ∧
    ∀ p, p <+: part → Finishes len p → p = part := by
  induction size : consumed.length using Nat.strongRecOn generalizing consumed with
  | _ n ih =>
      by_cases shorter : ∃ p, p <+: consumed ∧ Finishes len p ∧ p ≠ consumed
      · obtain ⟨p, isPart, finishes', ne⟩ := shorter
        have less : p.length < n := by
          rw [← size]
          exact Nat.lt_of_le_of_ne isPart.length_le fun same => ne (isPart.eq_of_length same)
        obtain ⟨part, within, rest⟩ := ih p.length less finishes' rfl
        exact ⟨part, within.trans isPart, rest⟩
      · refine ⟨consumed, List.prefix_refl _, finishes, fun p isPart finishes' => ?_⟩
        by_contra ne
        exact shorter ⟨p, isPart, finishes', ne⟩

/-- Input that is long enough is consumed up to some byte. -/
theorem Consumes.exists (enough : ∃ part, part <+: bytes ∧ Finishes len part) :
    ∃ consumed rest, Consumes len bytes consumed rest := by
  obtain ⟨part, isPart, finishes⟩ := enough
  obtain ⟨consumed, within, finishes', shortest⟩ := shortest_part finishes
  obtain ⟨rest, whole⟩ := within.trans isPart
  exact ⟨consumed, rest, whole.symm, finishes', shortest⟩

/-- The shortest part is what the loop goes over. -/
theorem edits_of_shortest (finishes : Finishes len (done ++ todo))
    (shortest : ∀ part, part <+: done ++ todo → Finishes len part → part = done ++ todo)
    (slots : ∀ part, part <+: done ++ todo → (editLine part).length < cap)
    (goes : ∀ c ∈ done.getLast?, isEol c = false) (room : (editLine done).length + 1 ≤ len) :
    Edits len cap (editLine done) todo (editLine (done ++ todo)) := by
  induction todo generalizing done with
  | nil =>
      rw [List.append_nil] at finishes ⊢
      refine .full (finishes.resolve_left ?_)
      rintro ⟨c, last, ends⟩
      simp [goes c last] at ends
  | cons c todo ih =>
      have regroup : done ++ c :: todo = (done ++ [c]) ++ todo := by simp
      have unfinished : ¬ Finishes len done := fun early => by
        have := congrArg List.length (shortest done (List.prefix_append ..) early)
        simp at this
      have room : (editLine done).length + 1 < len := Nat.lt_of_le_of_ne room fun full => unfinished (.inr full)
      by_cases ends : isEol c = true
      · have whole := shortest (done ++ [c]) (by simp) (.inl ⟨c, by simp, ends⟩)
        obtain rfl : todo = [] := by simpa using whole
        rw [editLine_append, editByte, if_pos ends]
        exact .eol room ends
      have goes' : isEol c = false := by simpa using ends
      rw [regroup] at finishes shortest slots ⊢
      have next : Edits len cap (editLine (done ++ [c])) todo (editLine (done ++ [c] ++ todo)) := by
        refine ih finishes shortest slots (fun d last => ?_) ?_
        · obtain rfl : c = d := by simpa using last
          exact goes'
        · rw [editLine_append, editByte, if_neg ends]
          split
          · rw [List.length_dropLast]
            omega
          · rw [List.length_append, List.length_singleton]
            omega
      rw [editLine_append, editByte, if_neg ends] at next
      by_cases erases : isErase c = true
      · rw [if_pos erases] at next
        exact .erase room goes' erases next
      · rw [if_neg erases] at next
        have stores : isErase c = false := by simpa using erases
        have slot := slots (done ++ [c]) (List.prefix_append ..)
        rw [editLine_append, editByte, if_neg ends, if_neg erases, List.length_append, List.length_singleton] at slot
        exact .store room goes' stores slot next

theorem Consumes.edits (consumes : Consumes len bytes consumed rest) (positive : 1 ≤ len)
    (slots : ∀ part, part <+: consumed → (editLine part).length < cap) : Edits len cap [] consumed (editLine consumed) :=
  have fromStart : Edits len cap (editLine []) consumed (editLine ([] ++ consumed)) :=
    edits_of_shortest consumes.finishes consumes.shortest slots (by simp) positive
  fromStart

/-- No line on the way is as long as the buffer. -/
theorem Edits.slots (edits : Edits len cap line todo final) : line.length < len ∧ final.length < len := by
  induction edits with
  | full | eol => omega
  | erase room _ _ _ ih | store room _ _ _ _ ih => omega

/-- The bytes that the UART has received and will receive. -/
def Kernel.input (s : Kernel) : List UInt8 := s.uart.waiting ++ s.uart.coming

section

variable {s : Kernel} {halt : Halt → Kernel → Prop} {buf : Nat}

@[simp] theorem wp_uartPutc {c : UInt8} {post : Unit → Kernel → Prop} :
    wp (uartPutc c) s post halt ↔ post () { s with uart := { s.uart with sent := s.uart.sent ++ [c] } } := by
  unfold uartPutc uartWrite
  rw [if_pos rfl, wp_modify]

/-- `uart_getc` takes the next byte. -/
theorem uartGetc_spec {c : UInt8} (next : s.input = c :: rest) :
    wp uartGetc s (fun r s' => r = c ∧ ∃ uart, s' = { s with uart } ∧ s'.input = rest) halt := by
  unfold uartGetc
  rw [wp_bind, wp_get]
  unfold Kernel.input at next
  rcases waits : s.uart.waiting with _ | ⟨byte, waiting⟩
  · rw [waits, List.nil_append] at next
    simp only [next, wp_bind, wp_set, wp_pure]
    exact ⟨trivial, _, rfl, by simp [Kernel.input, waits]⟩
  · rw [waits, List.cons_append] at next
    obtain ⟨rfl, tail⟩ := List.cons.inj next
    simp only [wp_bind, wp_set, wp_pure]
    exact ⟨trivial, _, rfl, by simp [Kernel.input, tail]⟩

/-- A store through a user's pointer takes no input; it can only fail by a page fault. -/
theorem writeUser_input {va : Nat} {c : UInt8} :
    wp (writeUser va c) s (fun _ s' => s'.input = s.input) fun reason _ => reason = .fault va := by
  unfold writeUser recordDeref writeVirtual
  simp only [wp_bind, wp_modify, wp_get]
  split
  · exact (wp_throw _).mpr rfl
  · split
    · unfold uartWrite
      split
      · simp [Kernel.input]
      · exact (wp_pure ()).mpr rfl
    · exact wp_modifyMem.mpr rfl

/-- What the editing steps keep: a fact about the machine for each line. -/
structure EditKeeps (Shows : List UInt8 → Kernel → Prop) (buf len cap : Nat) (halt : Halt → Kernel → Prop) : Prop where
  uart : ∀ {line s} (uart : Uart), Shows line s → Shows line { s with uart }
  erase : ∀ {line s}, Shows line s → Shows line.dropLast s
  store : ∀ {line s} (c : UInt8), line.length + 1 < len → line.length + 1 < cap → Shows line s →
    wp (writeUser (wadd buf line.length) c) s (fun _ s' => Shows (line ++ [c]) s') halt

/-- The byte that the loop looks at. -/
theorem eol_iff {c : UInt8} : (if c = ascii '\r' then ascii '\n' else c) = ascii '\n' ↔ isEol c = true := by
  unfold isEol
  by_cases isCr : c = ascii '\r' <;> simp [isCr]

theorem erase_iff {c : UInt8} (goes : isEol c = false) :
    (if c = ascii '\r' then ascii '\n' else c) = c ∧ ((c = 0x7f ∨ c = 0x08) ↔ isErase c = true) := by
  unfold isEol at goes
  unfold isErase
  by_cases isCr : c = ascii '\r'
  · simp [isCr] at goes
  · simp [isCr]

/-- The loop of `sys_read` does what `Edits` says. -/
theorem sysReadLoop_spec {Shows : List UInt8 → Kernel → Prop} (keeps : EditKeeps Shows buf len cap halt) (word : len < 2 ^ 64)
    {fuel : Nat} (edits : Edits len cap line todo final) (shows : Shows line s) (next : s.input = todo ++ rest)
    (enough : todo.length < fuel) :
    wp (sysReadLoop buf len fuel line.length) s (fun i s' => i = final.length ∧ Shows final s' ∧ s'.input = rest) halt := by
  induction edits generalizing s fuel with
  | full fills =>
      obtain ⟨fuel, rfl⟩ : ∃ f, fuel = f + 1 := ⟨fuel - 1, by omega⟩
      rw [sysReadLoop, wadd_of_lt (by omega), if_neg (by omega), wp_pure]
      exact ⟨rfl, shows, next⟩
  | @eol line c room ends =>
      obtain ⟨fuel, rfl⟩ : ∃ f, fuel = f + 1 := ⟨fuel - 1, by omega⟩
      rw [sysReadLoop, wadd_of_lt (by omega), if_pos room]
      refine wp_bind_of (uartGetc_spec next) ?_
      rintro r _ ⟨is, uart, rfl, after⟩
      subst r
      have taken := keeps.uart uart shows
      dsimp only
      have isNewline := eol_iff.mpr ends
      rw [isNewline, if_neg (by decide), wp_bind, wp_uartPutc, if_pos rfl, wp_pure]
      exact ⟨rfl, keeps.uart _ taken, after⟩
  | @erase line todo final c room goes erases more ih =>
      obtain ⟨fuel, rfl⟩ : ∃ f, fuel = f + 1 := ⟨fuel - 1, by omega⟩
      rw [sysReadLoop, wadd_of_lt (by omega), if_pos room]
      refine wp_bind_of (uartGetc_spec next) ?_
      rintro r _ ⟨is, uart, rfl, after⟩
      subst r
      have taken := keeps.uart uart shows
      obtain ⟨same, isErase⟩ := erase_iff goes
      have enough : todo.length < fuel := by simpa using enough
      dsimp only
      rw [same, if_pos (isErase.mpr erases)]
      split
      · next some =>
          simp only [wp_bind, wp_uartPutc]
          rw [← List.length_dropLast]
          exact ih (keeps.erase (keeps.uart _ shows)) after enough
      · next empty =>
          have none : line = [] := List.eq_nil_of_length_eq_zero (by omega)
          subst none
          exact ih (keeps.erase taken) after enough
  | @store line todo final c room goes stores slot more ih =>
      obtain ⟨fuel, rfl⟩ : ∃ f, fuel = f + 1 := ⟨fuel - 1, by omega⟩
      rw [sysReadLoop, wadd_of_lt (by omega), if_pos room]
      refine wp_bind_of (uartGetc_spec next) ?_
      rintro r _ ⟨is, uart, rfl, after⟩
      subst r
      have taken := keeps.uart uart shows
      obtain ⟨same, isErase⟩ := erase_iff goes
      have notNewline : c ≠ ascii '\n' := fun is => by
        rw [← same] at is
        simp [eol_iff.mp is] at goes
      have enough : todo.length < fuel := by simpa using enough
      dsimp only
      have kept : ¬ (c = 0x7f ∨ c = 0x08) := fun erases => by simp [isErase.mp erases] at stores
      rw [same, if_neg kept, wp_bind, wp_uartPutc, if_neg notNewline]
      have stored := keeps.store c room slot (keeps.uart { uart with sent := uart.sent ++ [c] } taken)
      refine wp_bind_of (wp_mono (wp_and stored (wp_mono writeUser_input (fun _ _ => id) fun _ _ _ => trivial)) (fun _ _ => id)
        fun _ _ => And.left) ?_
      rintro _ s₂ ⟨shows₂, same₂⟩
      have length : line.length + 1 = (line ++ [c]).length := by simp
      rw [length]
      exact ih shows₂ (same₂.trans after) enough

/-- `sys_read` from the standard input: the loop, and the 0 after the line. -/
theorem sysRead_spec {Shows : List UInt8 → Kernel → Prop} (keeps : EditKeeps Shows buf len cap halt) (positive : 1 ≤ len)
    (word : len < 2 ^ 64) (edits : Edits len cap [] consumed final) (shows : Shows [] s) (next : s.input = consumed ++ rest)
    {Done : Kernel → Prop}
    (closes : ∀ s', Shows final s' → wp (writeUser (wadd buf final.length) 0) s' (fun _ s'' => Done s'') halt) :
    wp (sysRead 0 buf len) s (fun n s' => n = final.length ∧ Done s' ∧ s'.input = rest) halt := by
  have enough : consumed.length < s.uart.waiting.length + s.uart.coming.length + 1 := by
    have := congrArg List.length next
    rw [Kernel.input, List.length_append, List.length_append] at this
    omega
  unfold sysRead
  rw [if_neg (by simp), if_neg (by omega), wp_bind, wp_get]
  refine wp_bind_of (sysReadLoop_spec keeps word edits shows next enough) ?_
  rintro _ s₁ ⟨rfl, shows₁, input₁⟩
  refine wp_bind_of (wp_mono (wp_and (closes s₁ shows₁) (wp_mono writeUser_input (fun _ _ => id) fun _ _ _ => trivial))
    (fun _ _ => id) fun _ _ => And.left) ?_
  rintro _ s₂ ⟨done, same⟩
  exact (wp_pure _).mpr ⟨rfl, done, same.trans input₁⟩

/-- Every dereference since `s` is a write in the buffer. -/
def WritesInside (buf len : Nat) (s s' : Kernel) : Prop :=
  ∃ log, s'.derefs = log ++ s.derefs ∧ ∀ d ∈ log, d.access = .write ∧ ∃ i < len, d.address = wadd buf i

/-- A store in the buffer. -/
theorem WritesInside.write {s₁ : Kernel} (inside : WritesInside buf len s s₁) {i : Nat} (low : i < len) (c : UInt8) :
    wp (writeUser (wadd buf i) c) s₁ (fun _ s' => WritesInside buf len s s')
      fun reason s' => WritesInside buf len s s' ∧ ∃ i < len, reason = .fault (wadd buf i) := by
  obtain ⟨log, records, all⟩ := inside
  obtain ⟨d, isD⟩ : ∃ d : Deref, d = ⟨.write, wadd buf i, s₁.satpRoot⟩ := ⟨_, rfl⟩
  have recorded : ∀ {s' : Kernel}, s'.derefs = d :: s₁.derefs → WritesInside buf len s s' := fun after => by
    refine ⟨d :: log, by rw [after, records, List.cons_append], List.forall_mem_cons.mpr ⟨?_, all⟩⟩
    rw [isD]
    exact ⟨rfl, i, low, rfl⟩
  unfold writeUser recordDeref writeVirtual
  simp only [wp_bind, wp_modify, wp_get, ← isD]
  split
  · exact (wp_throw _).mpr ⟨recorded rfl, i, low, rfl⟩
  · split
    · unfold uartWrite
      split
      · exact (wp_modify _).mpr (recorded rfl)
      · exact (wp_pure ()).mpr (recorded rfl)
    · exact wp_modifyMem.mpr (recorded rfl)

/-- The editing steps write in the buffer alone. -/
theorem writesInside_keeps (s : Kernel) (buf len cap : Nat) :
    EditKeeps (fun _ s' => WritesInside buf len s s') buf len cap
      fun reason s' => WritesInside buf len s s' ∧ ∃ i < len, reason = .fault (wadd buf i) where
  uart _ inside := inside
  erase inside := inside
  store c room _ inside := inside.write (by omega) c

/-- An entry that may be written through may be read through. -/
theorem sv39_read_of_write {mem : Mem} {root va x : Nat} (written : sv39 mem root va .write = some x) :
    sv39 mem root va .read = some x := by
  have grants : ∀ pte, Access.grants pte .write = true → Access.grants pte .read = true := fun pte both => by
    simp only [Access.grants, Bool.and_eq_true] at both
    exact both.1
  have walk : ∀ level table, sv39From mem va .write level table = some x → sv39From mem va .read level table = some x := by
    intro level
    induction level with
    | zero =>
        intro table found
        simp only [sv39From] at found ⊢
        split at found
        · next leaf =>
            simp only [Bool.and_eq_true] at leaf
            rw [if_pos (by simp [leaf.1.1, leaf.1.2, grants _ leaf.2])]
            exact found
        · simp at found
    | succ level ih =>
        intro table found
        simp only [sv39From] at found ⊢
        split at found
        · simp at found
        · next present =>
            rw [if_neg present]
            split at found
            · next leaf =>
                rw [if_pos leaf]
                split at found
                · next both =>
                    simp only [Bool.and_eq_true] at both
                    rw [if_pos (by simp only [Bool.and_eq_true]; exact ⟨grants _ both.1, both.2⟩)]
                    exact found
                · simp at found
            · next inner =>
                rw [if_neg inner]
                exact ih _ found
  unfold sv39 at written ⊢
  split at written
  · next canonical =>
      rw [if_pos canonical]
      exact walk _ _ written
  · simp at written

/-- The `count` bytes behind a user's pointer are an array in memory: they are at
places of their own, and stores in them move none of them. -/
structure UserArray (s : Kernel) (buf count : Nat) (place : Nat → Nat) : Prop where
  translated : ∀ mem : Mem, (∀ x, (∀ i < count, x ≠ place i) → mem x = s.mem x) →
    ∀ i < count, sv39 mem s.satpRoot (wadd buf i) .write = some (place i)
  memory : ∀ i < count, isUart (place i) = false
  distinct : ∀ i < count, ∀ j < count, place i = place j → i = j

/-- The array starts with some bytes, and nothing else has changed. -/
structure ArrayHolds (s : Kernel) (count : Nat) (place : Nat → Nat) (bytes : List UInt8) (s' : Kernel) : Prop where
  root : s'.satpRoot = s.satpRoot
  outside : ∀ x, (∀ i < count, x ≠ place i) → s'.mem x = s.mem x
  bytes : ∀ i (inside : i < bytes.length), s'.mem (place i) = bytes[i]

namespace UserArray

variable {place : Nat → Nat} {s' : Kernel}

/-- A store in the array. -/
theorem write (array : UserArray s buf cap place) (holds : ArrayHolds s cap place line s') (low : line.length < cap)
    (c : UInt8) : wp (writeUser (wadd buf line.length) c) s' (fun _ s'' => ArrayHolds s cap place (line ++ [c]) s'') halt := by
  have translated := array.translated s'.mem holds.outside line.length low
  unfold writeUser recordDeref writeVirtual
  simp only [wp_bind, wp_modify, wp_get, holds.root, translated, array.memory _ low, Bool.false_eq_true, if_false, wp_modifyMem]
  refine ⟨rfl, fun x outside => ?_, fun i inside => ?_⟩
  · exact (Function.update_of_ne (outside _ low) _ _).trans (holds.outside x outside)
  · rw [List.length_append, List.length_singleton] at inside
    by_cases last : i = line.length
    · subst last
      simp
    · have other : place i ≠ place line.length := fun same => last (array.distinct i (by omega) _ low same)
      rw [List.getElem_append_left (by omega)]
      exact (Function.update_of_ne other _ _).trans (holds.bytes i (by omega))

/-- The editing steps keep the line at the start of the array. -/
theorem keeps (array : UserArray s buf cap place) : EditKeeps (ArrayHolds s cap place) buf len cap halt where
  uart _ holds := ⟨holds.root, holds.outside, holds.bytes⟩
  erase holds := ⟨holds.root, holds.outside, fun i inside => by
    rw [List.length_dropLast] at inside
    rw [List.getElem_dropLast]
    exact holds.bytes i (by omega)⟩
  store c _ slot holds := array.write holds (by omega) c

/-- The bytes of the array are read back through the pointer. -/
theorem userByte (array : UserArray s buf cap place) (holds : ArrayHolds s cap place line s') (fits : line.length ≤ cap)
    {i : Nat} (inside : i < line.length) : UserByte s' (wadd buf i) (line)[i] := by
  refine ⟨place i, sv39_read_of_write ?_, array.memory i (by omega), holds.bytes i inside⟩
  rw [holds.root]
  exact array.translated s'.mem holds.outside i (by omega)

end UserArray

/-- `sys_read` reads a line, from any state with enough input: it takes the shortest
part of the input that finishes the line, returns the length of the line, and only
writes in the buffer. Where the slots that the line reaches are an array of bytes,
nothing stops it, and the line and a 0 stand in them. -/
theorem sys_read_line (positive : 1 ≤ len) (word : len < 2 ^ 64) (enough : ∃ part, part <+: s.input ∧ Finishes len part) :
    ∃ consumed rest, Consumes len s.input consumed rest ∧ (editLine consumed).length < len ∧
      (∀ n s', sysRead 0 buf len s = .ok n s' →
        n = (editLine consumed).length ∧ s'.input = rest ∧ WritesInside buf len s s') ∧
      (∀ reason s', sysRead 0 buf len s = .error reason s' →
        WritesInside buf len s s' ∧ ∃ i < len, reason = .fault (wadd buf i)) ∧
      ∀ cap place, (∀ part, part <+: consumed → (editLine part).length < cap) → UserArray s buf cap place →
        ∃ s', sysRead 0 buf len s = .ok (editLine consumed).length s' ∧
          (∀ i (inside : i < (editLine consumed ++ [0]).length), UserByte s' (wadd buf i) (editLine consumed ++ [0])[i]) ∧
          ∀ x, (∀ i < cap, x ≠ place i) → s'.mem x = s.mem x := by
  obtain ⟨consumed, rest, consumes⟩ := Consumes.exists enough
  have short : ∀ part, part <+: consumed → (editLine part).length < consumed.length + 1 := fun part isPart =>
    Nat.lt_succ_of_le ((length_editLine_le part).trans isPart.length_le)
  have edits := consumes.edits positive short
  have room := edits.slots.2
  have bounds := sysRead_spec (writesInside_keeps s buf len (consumed.length + 1)) positive word edits
    (show WritesInside buf len s s from ⟨[], rfl, by simp⟩) consumes.split fun _ inside => inside.write room 0
  refine ⟨consumed, rest, consumes, room, fun n s' returned => ?_, fun reason s' halted => ?_, fun cap place slots array => ?_⟩
  · obtain ⟨length, inside, after⟩ := wp_ok bounds returned
    exact ⟨length, after, inside⟩
  · have stopped := wp_error bounds halted
    exact stopped
  · have slot := slots consumed (List.prefix_refl _)
    have start : ArrayHolds s cap place [] s := ⟨rfl, fun _ _ => rfl, by simp⟩
    obtain ⟨_, s', returned, rfl, holds, _⟩ := wp_total (sysRead_spec array.keeps positive word (consumes.edits positive slots)
      start consumes.split fun _ holds => array.write holds slot 0)
    refine ⟨s', returned, fun i inside => array.userByte holds ?_ inside, holds.outside⟩
    rw [List.length_append, List.length_singleton]
    omega

end

section

variable [Layout] {g : World} {s : Kernel} {p : TaskView}

omit [Layout] in
/-- The entry of a user page grants every access. -/
theorem userPte_grants (page : Nat) (access : Access) : (ptePresent (mkPte page userFlags) && pteLeaf (mkPte page userFlags) &&
    access.grants (mkPte page userFlags)) = true := by
  have present : ptePresent (mkPte page userFlags) = true := mkPte_present (by decide) (by decide)
  have leaf : pteLeaf (mkPte page userFlags) = true := (mkPte_leaf (by decide)).trans (by decide)
  have grants : access.grants (mkPte page userFlags) = true := by
    cases access <;>
    · simp only [Access.grants, mkPte_and (show userFlags < 1024 by decide) (show pteR < 1024 by decide),
        mkPte_and (show userFlags < 1024 by decide) (show pteW < 1024 by decide)]
      decide
  rw [present, leaf, grants]
  rfl

namespace ValidOf

/-- What the current task's user pages translate to, for any access. -/
theorem sv39_eq (valid : Valid g s) (member : p ∈ g.tasks) (current : p.addr = s.current) (va : Nat) (access : Access) :
    sv39 s.mem s.satpRoot va access =
      if va < 2 ^ 38 ∨ 2 ^ 64 - 2 ^ 38 ≤ va then
        if ptePresent (spaceEntry (g.user p.addr) (sv39Vpn va)) && pteLeaf (spaceEntry (g.user p.addr) (sv39Vpn va)) &&
            access.grants (spaceEntry (g.user p.addr) (sv39Vpn va)) then
          some (pteToPa (spaceEntry (g.user p.addr) (sv39Vpn va)) + va % 4096)
        else none
      else none := by
  have space := valid.world.space p member
  unfold sv39
  rw [valid.root p member current, show sv39Levels - 1 = 2 from rfl, space.tables.sv39From valid.world.heap.pool, space.leaves]

/-- Every task has a stack page. -/
theorem stackPage (valid : Valid g s) (member : p ∈ g.tasks) : ∃ page, g.user p.addr stackVpn = some page := by
  refine Option.isSome_iff_exists.mp ?_
  rcases (valid.world.space p member).shape with ⟨_, _, _, fresh⟩ | ⟨_, loaded⟩
  · simp [fresh.stack]
  · exact loaded.stack

/-- A user page is reached at its page number. -/
theorem sv39User_of_mapped (valid : Valid g s) (member : p ∈ g.tasks) (current : p.addr = s.current) {vpn page offset : Nat}
    (found : g.user p.addr vpn = some page) (inPage : offset < 4096) (access : Access) :
    sv39User s.mem s.satpRoot (4096 * vpn + offset) access = some (page + offset) := by
  have space := valid.world.space p member
  have low := space.low vpn page found
  have bounds := (valid.userPage member found).bounds
  have isVpn : sv39Vpn (4096 * vpn + offset) = vpn := by
    unfold sv39Vpn
    omega
  have entry : spaceEntry (g.user p.addr) vpn = mkPte page userFlags := by simp [spaceEntry, found]
  have isUser : mkPte page userFlags &&& pteU ≠ 0 := by
    rw [mkPte_and (by decide) (by decide)]
    decide
  have walk : sv39 s.mem s.satpRoot (4096 * vpn + offset) access = some (page + offset) := by
    rw [valid.sv39_eq member current, if_pos (.inl (by omega)), isVpn, entry, if_pos (userPte_grants page access),
      pteToPa_user (valid.userPage member found), show (4096 * vpn + offset) % 4096 = offset by omega]
  unfold sv39User
  rw [walk, valid.root p member current, show sv39Levels - 1 = 2 from rfl, space.tables.sv39Entry valid.world.heap.pool,
    space.leaves, isVpn, entry, if_pos isUser]

/-- What user code reaches is in a user page. -/
theorem userPage_reached (valid : Valid g s) (member : p ∈ g.tasks) (current : p.addr = s.current) {va x : Nat} {access : Access}
    (mapped : sv39User s.mem s.satpRoot va access = some x) : sv39 s.mem s.satpRoot va access = some x ∧
      (va < 2 ^ 38 ∨ 2 ^ 64 - 2 ^ 38 ≤ va) ∧ ∃ q, g.user p.addr (sv39Vpn va) = some q ∧ x = q + va % 4096 := by
  have space := valid.world.space p member
  have walk : sv39 s.mem s.satpRoot va access = some x := by
    unfold sv39User at mapped
    split at mapped
    · exact mapped
    · simp at mapped
  refine ⟨walk, ?_⟩
  rw [valid.root p member current] at mapped
  obtain ⟨q, found, _⟩ := SpaceState.sv39User space.leaves space.tables valid.world.heap.pool
    (fun n q found => valid.userPage member found) mapped
  have entry : spaceEntry (g.user p.addr) (sv39Vpn va) = mkPte q userFlags := by simp [spaceEntry, found]
  rw [valid.sv39_eq member current, entry, if_pos (userPte_grants q access), pteToPa_user (valid.userPage member found)] at walk
  split at walk
  · next canonical => exact ⟨canonical, q, found, (Option.some.inj walk).symm⟩
  · simp at walk

/-- A buffer in the user pages of the current task is an array. -/
theorem userArray (valid : Valid g s) (busy : s.current ≠ 0) {buf count : Nat} {place : Nat → Nat} (few : count ≤ 2 ^ 64)
    (mapped : ∀ i < count, sv39User s.mem s.satpRoot (wadd buf i) .write = some (place i)) : UserArray s buf count place := by
  obtain ⟨p, member, current, _⟩ := valid.running busy
  have space := valid.world.space p member
  have reached := fun i low => valid.userPage_reached member current (mapped i low)
  refine ⟨fun mem same i low => ?_, fun i low => ?_, fun i low j low' equal => ?_⟩
  · -- stores in user pages leave the tables alone
    have valid' : Valid g { s with mem, uart := s.uart } := valid.user_step busy s.uart fun x changed => by
      by_contra never
      refine changed (same x fun j low equal => never (.inl ⟨wadd buf j, ?_⟩))
      rw [equal]
      exact mapped j low
    have after := valid'.sv39_eq member current (wadd buf i) .write
    rw [← valid.sv39_eq member current] at after
    exact after.trans (reached i low).1
  · obtain ⟨_, _, q, found, here⟩ := reached i low
    have bounds := (valid.userPage member found).bounds
    unfold isUart
    simp only [Bool.and_eq_false_iff, decide_eq_false_iff_not, uartBase, pageSize]
    omega
  · obtain ⟨_, canonical, q, found, here⟩ := reached i low
    obtain ⟨_, canonical', r, found', here'⟩ := reached j low'
    have bounds := (valid.userPage member found).bounds
    have bounds' := (valid.userPage member found').bounds
    obtain rfl : q = r := by omega
    have sameVpn := space.inj _ _ _ found found'
    unfold sv39Vpn at sameVpn
    unfold wadd at *
    omega

end ValidOf

end

section

attribute [local instance] Layout.sample

/-- The current task reads a line into its stack page. -/
theorem sys_read_line_sample : ∃ s buf consumed rest s', s.input = [104, 105, 13, 120] ∧ Consumes 8 s.input consumed rest ∧
    sysRead 0 buf 8 s = .ok (editLine consumed).length s' ∧
    ∀ i (inside : i < (editLine consumed ++ [0]).length), UserByte s' (wadd buf i) (editLine consumed ++ [0])[i] := by
  obtain ⟨s₀, g, _, valid₀, busy, _⟩ := reachable_sample
  obtain ⟨uart, isUart⟩ : ∃ uart : Uart, uart = { waiting := [104, 105, 13, 120], coming := [], sent := [] } := ⟨_, rfl⟩
  obtain ⟨s, isS⟩ : ∃ s : Kernel, s = { s₀ with mem := s₀.mem, uart } := ⟨_, rfl⟩
  have valid : Valid g s := isS ▸ valid₀.user_step busy uart fun _ changed => absurd rfl changed
  have busy : s.current ≠ 0 := by rwa [isS]
  have input : s.input = [104, 105, 13, 120] := by simp [isS, isUart, Kernel.input]
  obtain ⟨p, member, current, _⟩ := valid.running busy
  obtain ⟨page, found⟩ := valid.stackPage member
  have array : UserArray s (4096 * stackVpn) 8 (page + ·) := by
    refine valid.userArray busy (by decide) fun i low => ?_
    rw [wadd_of_lt (by simp only [stackVpn]; omega)]
    exact valid.sv39User_of_mapped member current found (by omega) .write
  have enough : ∃ part, part <+: s.input ∧ Finishes 8 part :=
    ⟨[104, 105, 13], by rw [input]; decide, .inl ⟨13, rfl, by decide⟩⟩
  obtain ⟨consumed, rest, consumes, _, _, _, returns⟩ := sys_read_line (show 1 ≤ 8 by decide) (by decide) enough
  have slots : ∀ part, part <+: consumed → (editLine part).length < 8 := by
    intro part isPart
    have whole := congrArg List.length consumes.split
    rw [input, List.length_append] at whole
    have := (length_editLine_le part).trans isPart.length_le
    simp only [List.length_cons, List.length_nil] at whole
    omega
  obtain ⟨s', returned, bytes, _⟩ := returns 8 _ slots array
  exact ⟨s, _, consumed, rest, s', input, consumes, returned, bytes⟩

end

end KuroOS
