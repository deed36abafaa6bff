import KuroOS.Print.Render

/-!
# What reaches the console

The user's `putc` and `puts` are `write`s: of one character, and of a string up to its
terminator. `uart_putc` and `uart_puts` store characters into the transmitter, and
`uart_puts` a carriage return before each newline. So `printf` and `printk` send the
same bytes, but for the newlines in the strings that they are given.
-/

namespace KuroOS

open Base

/-- `s[i]`. -/
def PutString.char (mem : Mem) : PutString → Nat → UInt8
  | .caller address, i => mem (address + i)
  | .literal text, i => (text.toList.map ascii).getD i 0

/-- The loop of `strlen`. -/
def strlenLoop (s : Nat → UInt8) : (fuel len : Nat) → Option Nat
  | 0, _ => none
  | fuel + 1, len => if s len = 0 then some len else strlenLoop s fuel (len + 1)

/-- `strlen`. -/
def strlen (s : Nat → UInt8) : Option Nat := strlenLoop s loopBound 0

/-- The bytes that `write(1, buf, len)` sends. -/
def writeBytes (buf : Nat → UInt8) (len : Nat) : List UInt8 := (List.range len).map buf

/-- The loop of `uart_puts`, and the bytes that it sends. -/
def uartPutsLoop (s : Nat → UInt8) : (fuel i : Nat) → Option (List UInt8)
  | 0, _ => none
  | fuel + 1, i =>
      if s i = 0 then
        some []
      else do
        let rest ← uartPutsLoop s fuel (i + 1)
        return (if s i = ascii '\n' then [ascii '\r'] else []) ++ s i :: rest

/-- The bytes that a call sends. -/
def PutCall.sends (mem : Mem) : PutCall → Option (List UInt8)
  | .putc c => some (writeBytes (fun _ => c) 1)
  | .puts s => do return writeBytes (s.char mem) (← strlen (s.char mem))
  | .uartPutc c => some [c]
  | .uartPuts s => uartPutsLoop (s.char mem) loopBound 0

/-- The bytes that some calls send, one after the other. -/
def console (mem : Mem) : List PutCall → Option (List UInt8)
  | [] => some []
  | call :: rest => do return (← call.sends mem) ++ (← console mem rest)

/-- A text with a carriage return before each newline. -/
def withReturns (text : List UInt8) : List UInt8 := text.flatMap fun c => if c = ascii '\n' then [ascii '\r', c] else [c]

/-- The characters of a string that is put, when those of the callers' strings are known. -/
def PutString.text (strings : Nat → List UInt8) : PutString → List UInt8
  | .caller address => strings address
  | .literal text => text.toList.map ascii

/-- The characters that a call of the user's functions puts. -/
def PutCall.text (strings : Nat → List UInt8) : PutCall → List UInt8
  | .puts s | .uartPuts s => s.text strings
  | .putc c | .uartPutc c => [c]

/-- The same with a carriage return before each newline of a string. -/
def PutCall.textWithReturns (strings : Nat → List UInt8) : PutCall → List UInt8
  | .puts s | .uartPuts s => withReturns (s.text strings)
  | .putc c | .uartPutc c => [c]

/-- The kernel's call in the place of the user's. -/
def PutCall.onUart : PutCall → PutCall
  | .putc c => .uartPutc c
  | .puts s => .uartPuts s
  | call => call

/-- A call of the user's functions, whose string is one of the code's two or is in memory. -/
def Sendable (mem : Mem) (strings : Nat → List UInt8) : PutCall → Prop
  | .putc _ => True
  | .puts (.caller address) => CString mem address (strings address) ∧ address + (strings address).length < 2 ^ 64
  | .puts (.literal text) => text = "(null)" ∨ text = "0x"
  | _ => False

variable {mem : Mem} {strings : Nat → List UInt8} {s : Nat → UInt8} {text : List UInt8} {call : PutCall} {calls : List PutCall}
  {fmt fuel i : Nat} {format : List UInt8} {args : List Arg} {token : Token}

/-- An array begins with the characters of a text and a terminator. -/
structure Spells (s : Nat → UInt8) (text : List UInt8) : Prop where
  char : ∀ i (inside : i < text.length), s i = text[i]
  stop : s text.length = 0
  plain : 0 ∉ text

namespace Spells

theorem ne_zero (spells : Spells s text) (inside : i < text.length) : s i ≠ 0 := fun zero =>
  spells.plain (zero ▸ spells.char i inside ▸ List.getElem_mem inside)

theorem strlenLoop (spells : Spells s text) (before : i ≤ text.length) (enough : text.length - i < fuel) :
    KuroOS.strlenLoop s fuel i = some text.length := by
  induction fuel generalizing i with
  | zero => omega
  | succ fuel ih =>
      rw [KuroOS.strlenLoop]
      by_cases last : i = text.length
      · rw [last, if_pos spells.stop]
      · rw [if_neg (spells.ne_zero (by omega))]
        exact ih (by omega) (by omega)

/-- `uart_puts`, from one of the characters on. -/
theorem uartPutsLoop (spells : Spells s text) (before : i ≤ text.length) (enough : text.length - i < fuel) :
    KuroOS.uartPutsLoop s fuel i = some (withReturns (text.drop i)) := by
  induction fuel generalizing i with
  | zero => omega
  | succ fuel ih =>
      rw [KuroOS.uartPutsLoop]
      by_cases last : i = text.length
      · rw [last, if_pos spells.stop, List.drop_length]
        rfl
      · have inside : i < text.length := by omega
        rw [if_neg (spells.ne_zero inside), ih (by omega) (by omega), List.drop_eq_getElem_cons inside, spells.char i inside]
        simp only [withReturns, List.flatMap_cons, Option.pure_def, Option.bind_eq_bind, Option.bind_some, Option.some.injEq]
        split <;> rfl

theorem writeBytes (spells : Spells s text) : KuroOS.writeBytes s text.length = text := by
  refine List.ext_getElem (by simp [KuroOS.writeBytes]) fun i inside inText => ?_
  simp only [KuroOS.writeBytes, List.getElem_map, List.getElem_range]
  exact spells.char i inText

end Spells

/-- A string in memory. -/
theorem spells_string {a : Nat} (string : CString mem a text) : Spells (PutString.char mem (.caller a)) text :=
  ⟨fun _ inside => string.char inside, string.stop, string.plain⟩

/-- A literal of the code. -/
theorem literal_spells {literal : String} (plain : 0 ∉ literal.toList.map ascii) :
    Spells (PutString.char mem (.literal literal)) (literal.toList.map ascii) :=
  ⟨fun _ inside => List.getD_eq_getElem _ _ inside, List.getD_eq_default _ _ (Nat.le_refl _), plain⟩

/-- The string of a call that can be sent. -/
theorem Sendable.spells {string : PutString} (sendable : Sendable mem strings (.puts string)) :
    Spells (string.char mem) (string.text strings) ∧ (string.text strings).length < loopBound := by
  cases string with
  | caller address =>
      obtain ⟨here, fits⟩ := sendable
      refine ⟨spells_string here, ?_⟩
      simp only [PutString.text, loopBound]
      omega
  | literal text =>
      rcases sendable with rfl | rfl
      · exact ⟨literal_spells (by decide), show ("(null)".toList.map ascii).length < loopBound by decide⟩
      · exact ⟨literal_spells (by decide), show ("0x".toList.map ascii).length < loopBound by decide⟩

/-- What a call sends, from user code and from the kernel. -/
theorem Sendable.sends (sendable : Sendable mem strings call) : call.sends mem = some (call.text strings) ∧
    call.onUart.sends mem = some (call.textWithReturns strings) := by
  cases call with
  | putc c => exact ⟨rfl, rfl⟩
  | puts string =>
      obtain ⟨spells, short⟩ := sendable.spells
      refine ⟨?_, spells.uartPutsLoop (Nat.zero_le _) short⟩
      simp only [PutCall.sends, strlen, spells.strlenLoop (Nat.zero_le _) short, Option.pure_def, Option.bind_eq_bind, Option.bind_some,
        spells.writeBytes, PutCall.text]
  | uartPutc c => exact sendable.elim
  | uartPuts string => exact sendable.elim

/-- What some calls send. -/
theorem console_sends (sendable : ∀ call ∈ calls, Sendable mem strings call) : console mem calls = some (calls.flatMap (PutCall.text strings)) ∧
    console mem (calls.map PutCall.onUart) = some (calls.flatMap (PutCall.textWithReturns strings)) := by
  induction calls with
  | nil => exact ⟨rfl, rfl⟩
  | cons call rest ih =>
      obtain ⟨user, kernel⟩ := ih fun call inside => sendable call (List.mem_cons_of_mem _ inside)
      obtain ⟨one, oneKernel⟩ := (sendable call List.mem_cons_self).sends
      constructor
      · simp [console, one, user]
      · simp [console, oneKernel, kernel]

/-- The kernel's output of a token is the user's on the other device. -/
theorem Token.output_onUart (token : Token) (taken : List Arg) :
    token.output uartDevice taken = (token.output userDevice taken).map PutCall.onUart := by
  unfold Token.output
  split
  all_goals
    repeat' split
    all_goals simp [uartDevice, userDevice, PutCall.onUart]

theorem render_onUart (list : List Token) (args : List Arg) : render uartDevice list args = (render userDevice list args).map PutCall.onUart := by
  induction list generalizing args with
  | nil => rfl
  | cons token rest ih => rw [render, render, ih, Token.output_onUart, List.map_append]

/-- A token puts characters, and strings of a caller or of the code. -/
theorem Token.output_calls {taken : List Arg} (inside : call ∈ token.output userDevice taken) :
    (∃ c, call = .putc c) ∨ (∃ address, call = .puts (.caller address)) ∨ call = .puts (.literal "(null)") ∨ call = .puts (.literal "0x") := by
  unfold Token.output at inside
  repeat' split at inside
  all_goals simp only [userDevice, List.mem_cons, List.mem_map, List.not_mem_nil, or_false] at inside <;> grind

theorem render_calls {list : List Token} (inside : call ∈ render userDevice list args) :
    (∃ c, call = .putc c) ∨ (∃ address, call = .puts (.caller address)) ∨ call = .puts (.literal "(null)") ∨ call = .puts (.literal "0x") := by
  induction list generalizing args with
  | nil => simp [render] at inside
  | cons token rest ih =>
      rw [render] at inside
      rcases List.mem_append.mp inside with here | later
      · exact Token.output_calls here
      · exact ih later

/-- Carriage returns come with newlines. -/
theorem withReturns_eq_iff (text : List UInt8) : withReturns text = text ↔ ascii '\n' ∉ text := by
  induction text with
  | nil => simp [withReturns]
  | cons c rest ih =>
      unfold withReturns at ih ⊢
      rw [List.flatMap_cons, List.mem_cons, not_or, ← ih]
      by_cases newline : c = ascii '\n'
      · rw [if_pos newline]
        exact iff_of_false (fun same => absurd ((List.cons.inj same).1.trans newline) (by decide)) fun both => both.1 newline.symm
      · rw [if_neg newline]
        simp [Ne.symm newline]

theorem length_withReturns (text : List UInt8) : text.length ≤ (withReturns text).length := by
  induction text with
  | nil => simp [withReturns]
  | cons c rest ih =>
      unfold withReturns at ih ⊢
      rw [List.flatMap_cons, List.length_append, List.length_cons]
      split <;>
      · simp only [List.length_cons, List.length_nil]
        omega

/-- A call of the kernel sends no less. -/
theorem PutCall.length_text (call : PutCall) : (call.text strings).length ≤ (call.textWithReturns strings).length := by
  cases call with
  | putc c => exact Nat.le_refl _
  | puts string => exact length_withReturns _
  | uartPutc c => exact Nat.le_refl _
  | uartPuts string => exact length_withReturns _

theorem length_flatMap_text (calls : List PutCall) :
    (calls.flatMap (PutCall.text strings)).length ≤ (calls.flatMap (PutCall.textWithReturns strings)).length := by
  induction calls with
  | nil => exact Nat.le_refl _
  | cons call rest ih =>
      have here : (call.text strings).length ≤ (call.textWithReturns strings).length := call.length_text
      rw [List.flatMap_cons, List.flatMap_cons, List.length_append, List.length_append]
      omega

/-- The same is sent only if every call sends the same. -/
theorem flatMap_text_iff (calls : List PutCall) : calls.flatMap (PutCall.textWithReturns strings) = calls.flatMap (PutCall.text strings) ↔
    ∀ call ∈ calls, call.textWithReturns strings = call.text strings := by
  induction calls with
  | nil => simp
  | cons call rest ih =>
      rw [List.flatMap_cons, List.flatMap_cons, List.forall_mem_cons, ← ih]
      constructor
      · intro same
        have here : (call.text strings).length ≤ (call.textWithReturns strings).length := call.length_text
        have later : (rest.flatMap (PutCall.text strings)).length ≤ (rest.flatMap (PutCall.textWithReturns strings)).length :=
          length_flatMap_text rest
        have total := congrArg List.length same
        rw [List.length_append, List.length_append] at total
        exact List.append_inj same (by omega)
      · rintro ⟨here, later⟩
        rw [here, later]

/-- `printf` sends the text of its format and arguments; `printk` sends it with a carriage
return before each newline of the strings among the arguments, and of no other newline. So
both send the same just when no such string has a newline. -/
theorem console_text (string : CString mem fmt format) (bounded : fmt + format.length < 2 ^ 64) (arguments : Matches args format)
    (whole : ¬ EndsInLong format) (readable : ∀ address, .puts (.caller address) ∈ render userDevice (tokens format) args →
      CString mem address (strings address) ∧ address + (strings address).length < 2 ^ 64) :
    (∃ s, printf mem fmt ⟨args, [], []⟩ = .ok () s ∧
      console mem s.calls = some ((render userDevice (tokens format) args).flatMap (PutCall.text strings))) ∧
    (∃ s, printk mem fmt ⟨args, [], []⟩ = .ok () s ∧
      console mem s.calls = some ((render userDevice (tokens format) args).flatMap (PutCall.textWithReturns strings))) ∧
    ((render userDevice (tokens format) args).flatMap (PutCall.textWithReturns strings) =
        (render userDevice (tokens format) args).flatMap (PutCall.text strings) ↔
      ∀ address, .puts (.caller address) ∈ render userDevice (tokens format) args → ascii '\n' ∉ strings address) := by
  have sendable : ∀ call ∈ render userDevice (tokens format) args, Sendable mem strings call := by
    intro call inside
    rcases render_calls inside with ⟨c, rfl⟩ | ⟨address, rfl⟩ | rfl | rfl
    · trivial
    · exact readable address inside
    · exact .inl rfl
    · exact .inr rfl
  obtain ⟨user, kernel⟩ := console_sends sendable
  obtain ⟨s, returned, _, calls⟩ := format_calls userDevice string bounded arguments whole
  obtain ⟨s', returned', _, calls'⟩ := format_calls uartDevice string bounded arguments whole
  rw [← render_onUart] at kernel
  refine ⟨⟨s, returned, by rw [calls, user]⟩, ⟨s', returned', by rw [calls', kernel]⟩, ?_⟩
  rw [flatMap_text_iff]
  constructor
  · intro same address inside
    exact (withReturns_eq_iff _).mp (same _ inside)
  · intro plain call inside
    rcases render_calls inside with ⟨c, rfl⟩ | ⟨address, rfl⟩ | rfl | rfl
    · rfl
    · exact (withReturns_eq_iff _).mpr (plain address inside)
    · exact (withReturns_eq_iff _).mpr (show ascii '\n' ∉ "(null)".toList.map ascii by decide)
    · exact (withReturns_eq_iff _).mpr (show ascii '\n' ∉ "0x".toList.map ascii by decide)

/-- A line of two lines. -/
theorem console_text_sample : ∃ mem s s', printf mem 4096 ⟨[.pointer 8192], [], []⟩ = .ok () s ∧
    printk mem 4096 ⟨[.pointer 8192], [], []⟩ = .ok () s' ∧ console mem s.calls = some ("a\nb\n".toList.map ascii) ∧
    console mem s'.calls = some ("a\r\nb\n".toList.map ascii) := by
  obtain ⟨text, isText⟩ : ∃ text, text = "a\nb".toList.map ascii := ⟨_, rfl⟩
  obtain ⟨strings, isStrings⟩ : ∃ strings : Nat → List UInt8, strings = fun _ => text := ⟨_, rfl⟩
  obtain ⟨mem, isMem⟩ : ∃ mem, mem = lay (formatAt "%s\n") 8192 (text ++ [0]) := ⟨_, rfl⟩
  have length : ("%s\n".toList.map ascii).length = 3 := rfl
  have plain : 0 ∉ text := isText ▸ by decide
  have format : CString mem 4096 ("%s\n".toList.map ascii) := by
    refine (formatAt_string (by decide)).congr fun x low high => ?_
    rw [isMem]
    exact lay_of_outside (.inl (by omega))
  have readable : ∀ address, .puts (.caller address) ∈ render userDevice (tokens ("%s\n".toList.map ascii)) [.pointer 8192] →
      CString mem address (strings address) ∧ address + (strings address).length < 2 ^ 64 := by
    intro address inside
    have calls : render userDevice (tokens ("%s\n".toList.map ascii)) [.pointer 8192] = [.puts (.caller 8192), .putc (ascii '\n')] := by decide
    rw [calls] at inside
    obtain rfl : address = 8192 := by simpa using inside
    rw [isStrings, isText]
    exact ⟨⟨by decide, isText ▸ isMem ▸ holds_lay⟩, by decide⟩
  obtain ⟨⟨s, returned, user⟩, ⟨s', returned', kernel⟩, _⟩ := console_text format (by decide) (by decide) (by decide) readable
  refine ⟨mem, s, s', returned, returned', user.trans ?_, kernel.trans ?_⟩ <;> rw [isStrings, isText] <;> decide

end KuroOS
