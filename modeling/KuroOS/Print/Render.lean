import KuroOS.Print.Format

/-!
# What is printed

A format is a text with holes: its tokens spell it, and a run puts each token's output
in the place of the token, with the arguments that are its own. `printf` and `printk`
differ in the functions they put characters with, and in nothing else.
-/

namespace KuroOS

open Base

/-- How a token is spelled. -/
def Token.text : Token → List UInt8
  | .plain c => [c]
  | .conversion c => [ascii '%', c]
  | .long c => [ascii '%', ascii 'l', c]
  | .percent => [ascii '%']
  | .percentLong => [ascii '%', ascii 'l']

/-- A signed number in decimal. -/
def signedNumeral (x : Int) : List UInt8 := (if x < 0 then [ascii '-'] else []) ++ numeral 10 x.natAbs

/-- What is put for a token, with the arguments that it takes. -/
def Token.output (device : PutDevice) : Token → List Arg → List PutCall
  | .plain c, _ => [device.putc c]
  | .conversion c, [.int bits] =>
      if c = ascii 'c' then [device.putc (UInt8.ofNat bits.toNat)]
      else if c = ascii 'd' then (signedNumeral bits.toInt).map device.putc
      else if c = ascii 'u' then (numeral 10 bits.toNat).map device.putc
      else (numeral 16 bits.toNat).map device.putc
  | .conversion c, [.pointer address] =>
      if c = ascii 's' then [device.puts (if address ≠ 0 then .caller address else .literal "(null)")]
      else device.puts (.literal "0x") :: (numeral 16 (address % 2 ^ 64)).map device.putc
  | .conversion c, _ => if c = ascii '%' then [device.putc c] else [device.putc (ascii '%'), device.putc c]
  | .long c, [.long bits] =>
      if c = ascii 'd' then (signedNumeral bits.toInt).map device.putc
      else if c = ascii 'u' then (numeral 10 bits.toNat).map device.putc
      else (numeral 16 bits.toNat).map device.putc
  | .long c, _ => [device.putc (ascii '%'), device.putc (ascii 'l'), device.putc c]
  | .percent, _ => [device.putc (ascii '%')]
  | .percentLong, _ => []

/-- What is put for some tokens, in their order: each takes its arguments from the front. -/
def render (device : PutDevice) : List Token → List Arg → List PutCall
  | [], _ => []
  | token :: rest, args =>
      token.output device (args.take token.takes.length) ++ render device rest (args.drop token.takes.length)

/-- The tokens of a format spell it. -/
theorem tokens_text (format : List UInt8) : (tokens format).flatMap Token.text = format := by
  fun_induction tokens format with
  | case1 => rfl
  | case2 => rfl
  | case3 => rfl
  | case4 c rest ih => rw [List.flatMap_cons, ih]; rfl
  | case5 c rest short ih => rw [List.flatMap_cons, ih]; rfl
  | case6 c rest other ih => rw [List.flatMap_cons, ih]; rfl

variable {device : PutDevice} {mem : Mem} {s s' s₁ : Printing} {fmt fuel : Nat} {format : List UInt8} {args taken : List Arg}
  {calls : List PutCall} {halt : Undefined → Printing → Prop}

/-- These calls were made, and these arguments are to come. -/
def Printed (s : Printing) (args : List Arg) (calls : List PutCall) (s' : Printing) : Prop :=
  s'.args = args ∧ s'.calls = s.calls ++ calls

namespace Printed

theorem emit {call : PutCall} (printed : Printed s args calls s₁) :
    wp (KuroOS.emit call) s₁ (fun _ s' => Printed s args (calls ++ [call]) s') halt :=
  (wp_modify _).mpr ⟨printed.1, by rw [printed.2, List.append_assoc]⟩

theorem readFormat (printed : Printed s args calls s₁) :
    wp (readFormat mem fmt) s₁ (fun c s' => c = mem fmt ∧ Printed s args calls s') halt := by
  unfold KuroOS.readFormat
  rw [wp_bind, wp_modify, wp_pure]
  exact ⟨rfl, printed⟩

theorem vaInt {bits : BitVec 32} (printed : Printed s (.int bits :: args) calls s₁) :
    wp vaInt s₁ (fun b s' => b = bits ∧ Printed s args calls s') halt := by
  unfold KuroOS.vaInt
  rw [wp_bind, wp_get, printed.1, wp_bind, wp_modify, wp_pure]
  exact ⟨rfl, rfl, printed.2⟩

theorem vaLong {bits : BitVec 64} (printed : Printed s (.long bits :: args) calls s₁) :
    wp vaLong s₁ (fun b s' => b = bits ∧ Printed s args calls s') halt := by
  unfold KuroOS.vaLong
  rw [wp_bind, wp_get, printed.1, wp_bind, wp_modify, wp_pure]
  exact ⟨rfl, rfl, printed.2⟩

theorem vaPointer {address : Nat} (printed : Printed s (.pointer address :: args) calls s₁) :
    wp vaPointer s₁ (fun a s' => a = address ∧ Printed s args calls s') halt := by
  unfold KuroOS.vaPointer
  rw [wp_bind, wp_get, printed.1, wp_bind, wp_modify, wp_pure]
  exact ⟨rfl, rfl, printed.2⟩

/-- A number. -/
theorem number {program : Prints Unit} {text : List UInt8} (printed : Printed s args calls s₁)
    (spec : wp program s₁ (fun _ s' => s' = s₁.put device text) halt) :
    wp program s₁ (fun _ s' => Printed s args (calls ++ text.map device.putc) s') halt := by
  refine wp_mono spec ?_ fun _ _ => id
  rintro _ _ rfl
  exact ⟨printed.1, by rw [Printing.put, printed.2, List.append_assoc]⟩

theorem printDec {x : BitVec 64} (printed : Printed s args calls s₁) :
    wp (printDec device x) s₁ (fun _ s' => Printed s args (calls ++ (signedNumeral x.toInt).map device.putc) s') halt :=
  printed.number (printDec_spec x)

theorem printUdec {x : BitVec 64} (printed : Printed s args calls s₁) :
    wp (printUdec device x) s₁ (fun _ s' => Printed s args (calls ++ (numeral 10 x.toNat).map device.putc) s') halt :=
  printed.number (printUdec_spec x)

theorem printHex {x : BitVec 64} (printed : Printed s args calls s₁) :
    wp (printHex device x) s₁ (fun _ s' => Printed s args (calls ++ (numeral 16 x.toNat).map device.putc) s') halt :=
  printed.number (printHex_spec x)

/-- The switch after `%l`. -/
theorem printLong (printed : Printed s (taken ++ args) calls s₁) (types : taken.map Arg.type = Token.takes (.long (mem fmt))) :
    wp (printLong device mem fmt) s₁ (fun _ s' => Printed s args (calls ++ Token.output device (.long (mem fmt)) taken) s') halt := by
  unfold KuroOS.printLong
  refine wp_bind_of printed.readFormat ?_
  rintro c s₂ ⟨rfl, printed⟩
  by_cases number : mem fmt = ascii 'd' ∨ mem fmt = ascii 'u' ∨ mem fmt = ascii 'x'
  · rw [Token.takes, if_pos number] at types
    obtain ⟨arg, rfl⟩ : ∃ arg, taken = [arg] := List.length_eq_one_iff.mp (by simpa using congrArg List.length types)
    cases arg with
    | long bits =>
        rcases number with d | u | x
        · rw [if_pos d]
          refine wp_bind_of printed.vaLong ?_
          rintro _ s₃ ⟨rfl, after⟩
          simpa [Token.output, d] using after.printDec
        · rw [u, if_neg (by decide), if_pos rfl]
          refine wp_bind_of printed.vaLong ?_
          rintro _ s₃ ⟨rfl, after⟩
          simpa [Token.output, ascii] using after.printUdec
        · rw [x, if_neg (by decide), if_neg (by decide), if_pos rfl]
          refine wp_bind_of printed.vaLong ?_
          rintro _ s₃ ⟨rfl, after⟩
          simpa [Token.output, ascii] using after.printHex
    | _ => simp [Arg.type] at types
  · rw [Token.takes, if_neg number] at types
    obtain rfl : taken = [] := List.map_eq_nil_iff.mp types
    obtain ⟨d, other⟩ := not_or.mp number
    obtain ⟨u, x⟩ := not_or.mp other
    rw [if_neg d, if_neg u, if_neg x]
    refine wp_bind_of printed.emit fun _ _ printed => wp_bind_of printed.emit fun _ _ printed => wp_bind_of printed.readFormat ?_
    rintro _ s₃ ⟨rfl, printed⟩
    simpa [Token.output] using printed.emit

/-- The switch after `%`, for a character that is not `l`; what the pointer is then. -/
theorem printConversion (printed : Printed s (taken ++ args) calls s₁) (types : taken.map Arg.type = Token.takes (.conversion (mem fmt)))
    (short : mem fmt ≠ ascii 'l') : wp (printConversion device mem fmt (mem fmt)) s₁ (fun next s' => next = fmt ∧
      Printed s args (calls ++ Token.output device (.conversion (mem fmt)) taken) s') halt := by
  have wide : ∀ bits : BitVec 32, (bits.zeroExtend 64).toNat = bits.toNat := fun bits => by
    have small := bits.isLt
    simp only [BitVec.zeroExtend, BitVec.toNat_setWidth]
    omega
  unfold KuroOS.printConversion
  by_cases integer : mem fmt = ascii 'c' ∨ mem fmt = ascii 'd' ∨ mem fmt = ascii 'u' ∨ mem fmt = ascii 'x'
  · rw [Token.takes, if_pos integer] at types
    obtain ⟨arg, rfl⟩ : ∃ arg, taken = [arg] := List.length_eq_one_iff.mp (by simpa using congrArg List.length types)
    cases arg with
    | int bits =>
        rcases integer with c | d | u | x
        · rw [c, if_neg (by decide), if_pos rfl]
          refine wp_bind_of printed.vaInt ?_
          rintro _ s₂ ⟨rfl, after⟩
          refine wp_bind_of after.emit fun _ _ after => (wp_pure _).mpr ⟨rfl, ?_⟩
          simpa [Token.output] using after
        · rw [d, if_neg (by decide), if_neg (by decide), if_neg (by decide), if_pos rfl]
          refine wp_bind_of printed.vaInt ?_
          rintro bits s₂ ⟨rfl, after⟩
          refine wp_bind_of after.printDec fun _ _ after => (wp_pure _).mpr ⟨rfl, ?_⟩
          simpa [Token.output, ascii, BitVec.toInt_signExtend_of_le] using after
        · rw [u, if_neg (by decide), if_neg (by decide), if_neg (by decide), if_neg (by decide), if_pos rfl]
          refine wp_bind_of printed.vaInt ?_
          rintro bits s₂ ⟨rfl, after⟩
          refine wp_bind_of after.printUdec fun _ _ after => (wp_pure _).mpr ⟨rfl, ?_⟩
          rw [wide bits] at after
          simpa [Token.output, ascii] using after
        · rw [x, if_neg (by decide), if_neg (by decide), if_neg (by decide), if_neg (by decide), if_neg (by decide), if_pos rfl]
          refine wp_bind_of printed.vaInt ?_
          rintro bits s₂ ⟨rfl, after⟩
          refine wp_bind_of after.printHex fun _ _ after => (wp_pure _).mpr ⟨rfl, ?_⟩
          rw [wide bits] at after
          simpa [Token.output, ascii] using after
    | _ => simp [Arg.type] at types
  rw [Token.takes, if_neg integer] at types
  obtain ⟨c, other⟩ := not_or.mp integer
  obtain ⟨d, other⟩ := not_or.mp other
  obtain ⟨u, x⟩ := not_or.mp other
  by_cases pointer : mem fmt = ascii 's' ∨ mem fmt = ascii 'p'
  · rw [if_pos pointer] at types
    obtain ⟨arg, rfl⟩ : ∃ arg, taken = [arg] := List.length_eq_one_iff.mp (by simpa using congrArg List.length types)
    cases arg with
    | pointer address =>
        rcases pointer with string | p
        · rw [string, if_neg (by decide), if_neg (by decide), if_pos rfl]
          refine wp_bind_of printed.vaPointer ?_
          rintro address s₂ ⟨rfl, after⟩
          refine wp_bind_of after.emit fun _ _ after => (wp_pure _).mpr ⟨rfl, ?_⟩
          simpa [Token.output] using after
        · rw [p, if_neg (by decide), if_neg (by decide), if_neg (by decide), if_neg (by decide), if_neg (by decide), if_neg (by decide),
            if_neg (by decide), if_pos rfl]
          refine wp_bind_of printed.emit fun _ _ zeroX => wp_bind_of zeroX.vaPointer ?_
          rintro address s₂ ⟨rfl, after⟩
          refine wp_bind_of after.printHex fun _ _ after => (wp_pure _).mpr ⟨rfl, ?_⟩
          simpa [Token.output, ascii] using after
    | _ => simp [Arg.type] at types
  rw [if_neg pointer] at types
  obtain rfl : taken = [] := List.map_eq_nil_iff.mp types
  obtain ⟨string, p⟩ := not_or.mp pointer
  by_cases percent : mem fmt = ascii '%'
  · rw [if_pos percent]
    refine wp_bind_of printed.emit fun _ _ after => (wp_pure _).mpr ⟨rfl, ?_⟩
    simpa [Token.output, percent] using after
  · rw [if_neg percent, if_neg c, if_neg string, if_neg d, if_neg u, if_neg x, if_neg short, if_neg p]
    refine wp_bind_of printed.emit fun _ _ after => wp_bind_of after.readFormat ?_
    rintro _ s₂ ⟨rfl, after⟩
    refine wp_bind_of after.emit fun _ _ after => (wp_pure _).mpr ⟨rfl, ?_⟩
    simpa [Token.output, percent] using after

/-- The switch after `%`, for `l`. -/
theorem printConversion_long (printed : Printed s (taken ++ args) calls s₁)
    (types : taken.map Arg.type = Token.takes (.long (mem (fmt + 1)))) (long : mem fmt = ascii 'l') :
    wp (KuroOS.printConversion device mem fmt (mem fmt)) s₁ (fun next s' => next = fmt + 1 ∧
      Printed s args (calls ++ Token.output device (.long (mem (fmt + 1))) taken) s') halt := by
  unfold KuroOS.printConversion
  rw [long, if_neg (by decide), if_neg (by decide), if_neg (by decide), if_neg (by decide), if_neg (by decide), if_neg (by decide),
    if_pos rfl]
  refine wp_bind_of (printed.printLong types) fun _ _ after => ?_
  rw [wp_pure]
  exact ⟨rfl, after⟩

end Printed

/-- The arguments of the first token, and those of the rest. -/
theorem split_arguments {token : Token} {rest : List Token} (types : args.map Arg.type = (token :: rest).flatMap Token.takes) :
    (args.take token.takes.length).map Arg.type = token.takes ∧
      (args.drop token.takes.length).map Arg.type = rest.flatMap Token.takes := by
  rw [List.flatMap_cons] at types
  constructor
  · rw [List.map_take, types, List.take_left]
  · rw [List.map_drop, types, List.drop_left]

/-- A round that finds a `%`. -/
theorem round_percent {post : Unit → Printing → Prop} (printed : Printed s args calls s₁) (percent : mem fmt = ascii '%')
    (later : ∀ s₂, Printed s args calls s₂ → wp (if mem (fmt + 1) = 0 then
        emit (device.putc (ascii '%'))
      else do
        let next ← printConversion device mem (fmt + 1) (mem (fmt + 1))
        formatLoop device mem fuel (next + 1)) s₂ post halt) :
    wp (formatLoop device mem (fuel + 1) fmt) s₁ post halt := by
  rw [formatLoop]
  refine wp_bind_of printed.readFormat ?_
  rintro _ s₂ ⟨rfl, first⟩
  rw [if_neg (by rw [percent]; decide)]
  refine wp_bind_of first.readFormat ?_
  rintro _ s₃ ⟨rfl, second⟩
  rw [if_neg (not_not.mpr percent)]
  refine wp_bind_of second.readFormat ?_
  rintro _ s₄ ⟨rfl, third⟩
  exact later s₄ third

/-- The loop over a format, from one of its tokens on. -/
theorem formatLoop_renders (string : CString mem fmt format) (whole : .percentLong ∉ tokens format)
    (types : args.map Arg.type = (tokens format).flatMap Token.takes) (printed : Printed s args calls s₁) (enough : format.length < fuel) :
    wp (formatLoop device mem fuel fmt) s₁ (fun _ s' => Printed s [] (calls ++ render device (tokens format) args) s') halt := by
  fun_induction tokens format generalizing fmt fuel s₁ args calls with
  | case1 =>
      obtain ⟨fuel, rfl⟩ : ∃ n, fuel = n + 1 := ⟨fuel - 1, by omega⟩
      have stop : mem fmt = 0 := string.stop
      obtain rfl : args = [] := List.map_eq_nil_iff.mp types
      rw [formatLoop]
      refine wp_bind_of printed.readFormat ?_
      rintro _ s₂ ⟨rfl, after⟩
      rw [if_pos stop, wp_pure]
      simpa [render] using after
  | case2 =>
      obtain ⟨fuel, rfl⟩ : ∃ n, fuel = n + 1 := ⟨fuel - 1, by omega⟩
      obtain ⟨here, _, string⟩ := string.cons
      have stop : mem (fmt + 1) = 0 := string.stop
      obtain rfl : args = [] := by simpa [Token.takes] using types
      refine round_percent printed here fun s₂ after => ?_
      rw [if_pos stop]
      simpa [render, Token.output] using after.emit
  | case3 => exact absurd List.mem_cons_self whole
  | case4 c rest ih =>
      simp only [List.length_cons] at enough
      obtain ⟨fuel, rfl⟩ : ∃ n, fuel = n + 1 := ⟨fuel - 1, by omega⟩
      obtain ⟨here, _, string⟩ := string.cons
      obtain ⟨isLong, nonzero, string⟩ := string.cons
      obtain ⟨rfl, _, string⟩ := string.cons
      obtain ⟨first, later⟩ := split_arguments types
      have more : rest.length < fuel := by omega
      rw [← List.take_append_drop (Token.takes (.long (mem (fmt + 1 + 1)))).length args] at printed
      refine round_percent printed here fun s₂ after => ?_
      rw [if_neg (isLong ▸ nonzero)]
      refine wp_bind_of (after.printConversion_long first isLong) ?_
      rintro _ s₃ ⟨rfl, put⟩
      rw [render, ← List.append_assoc]
      exact ih string (List.not_mem_of_not_mem_cons whole) later put more
  | case5 c rest short ih =>
      simp only [List.length_cons] at enough
      obtain ⟨fuel, rfl⟩ : ∃ n, fuel = n + 1 := ⟨fuel - 1, by omega⟩
      obtain ⟨here, _, string⟩ := string.cons
      obtain ⟨rfl, nonzero, string⟩ := string.cons
      obtain ⟨first, later⟩ := split_arguments types
      have more : rest.length < fuel := by omega
      rw [← List.take_append_drop (Token.takes (.conversion (mem (fmt + 1)))).length args] at printed
      refine round_percent printed here fun s₂ after => ?_
      rw [if_neg nonzero]
      refine wp_bind_of (after.printConversion first short) ?_
      rintro _ s₃ ⟨rfl, put⟩
      rw [render, ← List.append_assoc]
      exact ih string (List.not_mem_of_not_mem_cons whole) later put more
  | case6 c rest other ih =>
      simp only [List.length_cons] at enough
      obtain ⟨fuel, rfl⟩ : ∃ n, fuel = n + 1 := ⟨fuel - 1, by omega⟩
      obtain ⟨here, nonzero, string⟩ := string.cons
      rw [formatLoop]
      refine wp_bind_of printed.readFormat ?_
      rintro _ s₂ ⟨rfl, first⟩
      rw [if_neg (here ▸ nonzero)]
      refine wp_bind_of first.readFormat ?_
      rintro _ s₃ ⟨rfl, second⟩
      rw [if_pos (here ▸ other)]
      refine wp_bind_of second.readFormat ?_
      rintro _ s₄ ⟨rfl, third⟩
      refine wp_bind_of third.emit fun _ s₅ put => ?_
      rw [here] at put
      rw [render, ← List.append_assoc]
      exact ih string (List.not_mem_of_not_mem_cons whole) (by simpa [Token.takes] using types) put (by omega)

/-- A run over a whole format that does not end in `%l`. -/
theorem format_calls (device : PutDevice) (string : CString mem fmt format) (bounded : fmt + format.length < 2 ^ 64) (arguments : Matches args format)
    (whole : ¬ EndsInLong format) : ∃ s, formatLoop device mem loopBound fmt ⟨args, [], []⟩ = .ok () s ∧ s.args = [] ∧
      s.calls = render device (tokens format) args := by
  have enough : format.length < loopBound := by
    unfold loopBound
    omega
  have start : Printed ⟨args, [], []⟩ args [] ⟨args, [], []⟩ := ⟨rfl, rfl⟩
  obtain ⟨_, s, returned, none, calls⟩ := wp_total (formatLoop_renders string whole arguments start enough)
  exact ⟨s, returned, none, by simpa using calls⟩

/-- `printf` and `printk` print the same thing, and it is the format with each conversion
replaced by its argument: what is not a conversion is put as it stands, and a number is
put as its numeral. The format ends after a token, so not in `%l`. -/
theorem format_renders (string : CString mem fmt format) (bounded : fmt + format.length < 2 ^ 64) (arguments : Matches args format)
    (whole : ¬ EndsInLong format) : (tokens format).flatMap Token.text = format ∧
      (∃ s, printf mem fmt ⟨args, [], []⟩ = .ok () s ∧ s.args = [] ∧ s.calls = render userDevice (tokens format) args) ∧
      ∃ s, printk mem fmt ⟨args, [], []⟩ = .ok () s ∧ s.args = [] ∧ s.calls = render uartDevice (tokens format) args :=
  ⟨tokens_text format, format_calls userDevice string bounded arguments whole, format_calls uartDevice string bounded arguments whole⟩

/-- A line of the log. -/
theorem format_renders_sample : ∃ s, printk (formatAt "%x=%d\n") 4096 ⟨[.int 255, .int (-7)], [], []⟩ = .ok () s ∧ s.args = [] ∧
    s.calls = ("ff=-7\n".toList.map ascii).map uartDevice.putc := by
  obtain ⟨_, _, s, returned, none, calls⟩ := format_renders (formatAt_string (show 0 ∉ "%x=%d\n".toList.map ascii by decide)) (by decide)
    (show Matches [.int 255, .int (-7)] _ by decide) (by decide)
  exact ⟨s, returned, none, calls.trans (by decide)⟩

end KuroOS
