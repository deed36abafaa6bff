import KuroOS.Base.Along
import KuroOS.Print.Numeral

/-!
# Reading a format

The scanner's pointer goes through the tokens of the format. It stays in the string
unless the last token is `%l`: the switch after `l` then takes the terminator for an
unknown conversion, and the pointer is moved past it.
-/

namespace KuroOS

open Base

/-- A token of a format. -/
inductive Token where
  | plain (c : UInt8)
  /-- `%` and a character other than `l` -/
  | conversion (c : UInt8)
  /-- `%l` and a character -/
  | long (c : UInt8)
  /-- `%` at the end of the format -/
  | percent
  /-- `%l` at the end of the format -/
  | percentLong
deriving DecidableEq, Repr

/-- The tokens of a format. -/
def tokens : List UInt8 → List Token
  | [] => []
  | c :: rest =>
      if c = ascii '%' then
        match rest with
        | [] => [.percent]
        | c :: rest =>
            if c = ascii 'l' then
              match rest with
              | [] => [.percentLong]
              | c :: rest => .long c :: tokens rest
            else
              .conversion c :: tokens rest
      else
        .plain c :: tokens rest

/-- The types of arguments. -/
inductive ArgType where
  | int
  | long
  | pointer
deriving DecidableEq, Repr

/-- The type of an argument. -/
def Arg.type : Arg → ArgType
  | .int _ => .int
  | .long _ => .long
  | .pointer _ => .pointer

/-- The arguments that a token takes. -/
def Token.takes : Token → List ArgType
  | .conversion c =>
      if c = ascii 'c' ∨ c = ascii 'd' ∨ c = ascii 'u' ∨ c = ascii 'x' then [.int]
      else if c = ascii 's' ∨ c = ascii 'p' then [.pointer]
      else []
  | .long c => if c = ascii 'd' ∨ c = ascii 'u' ∨ c = ascii 'x' then [.long] else []
  | _ => []

/-- A list of arguments matches the conversions of a format. -/
def Matches (args : List Arg) (format : List UInt8) : Prop := args.map Arg.type = (tokens format).flatMap Token.takes

instance (args : List Arg) (format : List UInt8) : Decidable (Matches args format) := inferInstanceAs (Decidable (_ = _))

/-- The end of a format is inside `%l`. -/
def EndsInLong (format : List UInt8) : Prop := .percentLong ∈ tokens format

instance (format : List UInt8) : Decidable (EndsInLong format) := inferInstanceAs (Decidable (_ ∈ _))

/-- A run returns, and has read no byte behind the terminator of its format, nor one
before the format. -/
def StopsAtNul (program : Prints Unit) (args : List Arg) (fmt : Nat) (format : List UInt8) : Prop :=
  ∃ s, program ⟨args, [], []⟩ = .ok () s ∧ ∀ a ∈ s.reads, fmt ≤ a ∧ a ≤ fmt + format.length

variable {device : PutDevice} {mem : Mem} {s s' s₁ : Printing} {fmt low high : Nat} {format : List UInt8} {types types' : List ArgType}
  {a : Nat} {c : UInt8} {halt : Undefined → Printing → Prop}

/-- Some of the format was read, and the arguments to come have these types. -/
def Scanned (low high : Nat) (types : List ArgType) (s s' : Printing) : Prop :=
  s'.args.map Arg.type = types ∧ ∀ a ∈ s'.reads, a ∈ s.reads ∨ (low ≤ a ∧ a ≤ high)

namespace Scanned

theorem refl (args : s.args.map Arg.type = types) : Scanned low high types s s := ⟨args, fun _ => .inl⟩

theorem trans (first : Scanned low high types s s₁) (later : Scanned low high types' s₁ s') : Scanned low high types' s s' :=
  ⟨later.1, fun a read => (later.2 a read).elim (first.2 a) .inr⟩

theorem put {text : List UInt8} (scanned : Scanned low high types s s') : Scanned low high types s (s'.put device text) := scanned

theorem emit {call : PutCall} (scanned : Scanned low high types s s₁) :
    wp (KuroOS.emit call) s₁ (fun _ s' => Scanned low high types s s') halt :=
  (wp_modify _).mpr scanned

theorem readFormat (scanned : Scanned low high types s s₁) (inside : low ≤ fmt ∧ fmt ≤ high) :
    wp (readFormat mem fmt) s₁ (fun c s' => c = mem fmt ∧ Scanned low high types s s') halt := by
  unfold KuroOS.readFormat
  rw [wp_bind, wp_modify, wp_pure]
  refine ⟨rfl, scanned.1, fun a read => ?_⟩
  rcases List.mem_append.mp read with before | now
  · exact scanned.2 a before
  · exact .inr (List.mem_singleton.mp now ▸ inside)

/-- The next argument has the type that the format asks for. -/
theorem next {type : ArgType} (scanned : Scanned low high (type :: types) s s₁) : ∃ arg rest, s₁.args = arg :: rest ∧
    arg.type = type ∧ Scanned low high types s { s₁ with args := rest } := by
  obtain ⟨args, reads⟩ := scanned
  cases isArgs : s₁.args with
  | nil => simp [isArgs] at args
  | cons arg rest =>
      rw [isArgs, List.map_cons, List.cons.injEq] at args
      exact ⟨arg, rest, rfl, args.1, args.2, reads⟩

theorem vaInt (scanned : Scanned low high (.int :: types) s s₁) : wp vaInt s₁ (fun _ s' => Scanned low high types s s') halt := by
  obtain ⟨arg, rest, isArgs, isInt, after⟩ := scanned.next
  unfold KuroOS.vaInt
  rw [wp_bind, wp_get, isArgs]
  cases arg with
  | int bits =>
      rw [wp_bind, wp_modify, wp_pure]
      exact after
  | _ => simp [Arg.type] at isInt

theorem vaLong (scanned : Scanned low high (.long :: types) s s₁) : wp vaLong s₁ (fun _ s' => Scanned low high types s s') halt := by
  obtain ⟨arg, rest, isArgs, isLong, after⟩ := scanned.next
  unfold KuroOS.vaLong
  rw [wp_bind, wp_get, isArgs]
  cases arg with
  | long bits =>
      rw [wp_bind, wp_modify, wp_pure]
      exact after
  | _ => simp [Arg.type] at isLong

theorem vaPointer (scanned : Scanned low high (.pointer :: types) s s₁) :
    wp vaPointer s₁ (fun _ s' => Scanned low high types s s') halt := by
  obtain ⟨arg, rest, isArgs, isPointer, after⟩ := scanned.next
  unfold KuroOS.vaPointer
  rw [wp_bind, wp_get, isArgs]
  cases arg with
  | pointer address =>
      rw [wp_bind, wp_modify, wp_pure]
      exact after
  | _ => simp [Arg.type] at isPointer

theorem printUdec {x : BitVec 64} (scanned : Scanned low high types s s₁) :
    wp (printUdec device x) s₁ (fun _ s' => Scanned low high types s s') halt :=
  wp_mono (printUdec_spec x) (fun _ _ is => is ▸ scanned.put) fun _ _ => id

theorem printDec {x : BitVec 64} (scanned : Scanned low high types s s₁) :
    wp (printDec device x) s₁ (fun _ s' => Scanned low high types s s') halt :=
  wp_mono (printDec_spec x) (fun _ _ is => is ▸ scanned.put) fun _ _ => id

theorem printHex {x : BitVec 64} (scanned : Scanned low high types s s₁) :
    wp (printHex device x) s₁ (fun _ s' => Scanned low high types s s') halt :=
  wp_mono (printHex_spec x) (fun _ _ is => is ▸ scanned.put) fun _ _ => id

/-- The switch after `%l`, also when it finds the terminator there. -/
theorem printLong (scanned : Scanned low high (Token.takes (.long (mem fmt)) ++ types) s s₁) (inside : low ≤ fmt ∧ fmt ≤ high) :
    wp (printLong device mem fmt) s₁ (fun _ s' => Scanned low high types s s') halt := by
  unfold KuroOS.printLong
  refine wp_bind_of (scanned.readFormat inside) ?_
  rintro c s₂ ⟨rfl, scanned⟩
  split
  · next d =>
      have scanned : Scanned low high (.long :: types) s s₂ := by simpa [Token.takes, d] using scanned
      exact wp_bind_of scanned.vaLong fun _ _ scanned => scanned.printDec
  split
  · next u =>
      have scanned : Scanned low high (.long :: types) s s₂ := by simpa [Token.takes, u] using scanned
      exact wp_bind_of scanned.vaLong fun _ _ scanned => scanned.printUdec
  split
  · next x =>
      have scanned : Scanned low high (.long :: types) s s₂ := by simpa [Token.takes, x] using scanned
      exact wp_bind_of scanned.vaLong fun _ _ scanned => scanned.printHex
  · next d u x =>
      have scanned : Scanned low high types s s₂ := by simpa [Token.takes, d, u, x] using scanned
      refine wp_bind_of scanned.emit fun _ _ scanned => wp_bind_of scanned.emit fun _ _ scanned => ?_
      exact wp_bind_of (scanned.readFormat inside) fun _ _ read => read.2.emit

/-- A conversion that leaves the pointer where it is. -/
theorem keeps {α : Type} {program : Prints α} {next : α → Prints Unit}
    (first : wp program s₁ (fun _ s' => Scanned low high types' s s') halt)
    (rest : ∀ value s₂, Scanned low high types' s s₂ → wp (next value) s₂ (fun _ s' => Scanned low high types s s') halt) :
    wp (program >>= fun value => next value >>= fun _ => pure fmt) s₁ (fun q s' => q = fmt ∧ Scanned low high types s s') halt := by
  refine wp_bind_of first fun value s₂ scanned => wp_bind_of (rest value s₂ scanned) fun _ s₃ scanned => ?_
  rw [wp_pure]
  exact ⟨rfl, scanned⟩

/-- The switch after `%`, for a character that is not `l`. -/
theorem printConversion (scanned : Scanned low high (Token.takes (.conversion (mem fmt)) ++ types) s s₁)
    (inside : low ≤ fmt ∧ fmt ≤ high) (short : mem fmt ≠ ascii 'l') :
    wp (printConversion device mem fmt (mem fmt)) s₁ (fun next s' => next = fmt ∧ Scanned low high types s s') halt := by
  have done : ∀ s₂, Scanned low high types s s₂ → wp (pure fmt : Prints Nat) s₂ (fun next s' => next = fmt ∧ Scanned low high types s s') halt :=
    fun s₂ scanned => (wp_pure _).mpr ⟨rfl, scanned⟩
  unfold KuroOS.printConversion
  split
  · next percent =>
      have scanned : Scanned low high types s s₁ := by simpa [Token.takes, percent, ascii] using scanned
      exact wp_bind_of scanned.emit fun _ => done
  split
  · next char =>
      have scanned : Scanned low high (.int :: types) s s₁ := by simpa [Token.takes, char] using scanned
      exact keeps scanned.vaInt fun _ _ scanned => scanned.emit
  split
  · next string =>
      have scanned : Scanned low high (.pointer :: types) s s₁ := by simpa [Token.takes, string, ascii] using scanned
      exact keeps scanned.vaPointer fun _ _ scanned => scanned.emit
  split
  · next d =>
      have scanned : Scanned low high (.int :: types) s s₁ := by simpa [Token.takes, d] using scanned
      exact keeps scanned.vaInt fun _ _ scanned => scanned.printDec
  split
  · next u =>
      have scanned : Scanned low high (.int :: types) s s₁ := by simpa [Token.takes, u] using scanned
      exact keeps scanned.vaInt fun _ _ scanned => scanned.printUdec
  split
  · next x =>
      have scanned : Scanned low high (.int :: types) s s₁ := by simpa [Token.takes, x] using scanned
      exact keeps scanned.vaInt fun _ _ scanned => scanned.printHex
  split
  · next pointer =>
      have scanned : Scanned low high (.pointer :: types) s s₁ := by simpa [Token.takes, pointer, ascii] using scanned
      refine wp_bind_of scanned.emit fun _ _ scanned => keeps scanned.vaPointer fun _ _ scanned => scanned.printHex
  · next char string d u x pointer =>
      have scanned : Scanned low high types s s₁ := by simpa [Token.takes, char, string, d, u, x, pointer] using scanned
      refine wp_bind_of scanned.emit fun _ _ scanned => wp_bind_of (scanned.readFormat inside) fun _ _ read => ?_
      exact wp_bind_of read.2.emit fun _ => done

/-- The switch after `%`, for `l`. -/
theorem printConversion_long (scanned : Scanned low high (Token.takes (.long (mem (fmt + 1))) ++ types) s s₁)
    (inside : low ≤ fmt + 1 ∧ fmt + 1 ≤ high) (long : mem fmt = ascii 'l') :
    wp (KuroOS.printConversion device mem fmt (mem fmt)) s₁ (fun next s' => next = fmt + 1 ∧ Scanned low high types s s') halt := by
  unfold KuroOS.printConversion
  rw [long, if_neg (by decide), if_neg (by decide), if_neg (by decide), if_neg (by decide), if_neg (by decide), if_neg (by decide),
    if_pos rfl]
  refine wp_bind_of (scanned.printLong inside) fun _ s₂ scanned => ?_
  rw [wp_pure]
  exact ⟨rfl, scanned⟩

end Scanned

/-- What a run over some tokens leaves: it has read up to `high`, or also the byte
behind it. -/
def Ended (ts : List Token) (low high : Nat) (s s' : Printing) : Prop :=
  (.percentLong ∈ ts ∧ high + 1 ∈ s'.reads) ∨ (.percentLong ∉ ts ∧ Scanned low high [] s s')

/-- A run that has no defined end has read that byte. -/
def Escaped (ts : List Token) (high : Nat) (s' : Printing) : Prop := .percentLong ∈ ts ∧ high + 1 ∈ s'.reads

theorem Ended.cons {token : Token} {ts : List Token} (ended : Ended ts low high s s') (other : token ≠ .percentLong) :
    Ended (token :: ts) low high s s' := by
  simpa [Ended, other.symm] using ended

theorem Escaped.cons {token : Token} {ts : List Token} (escaped : Escaped ts high s') : Escaped (token :: ts) high s' :=
  ⟨List.mem_cons_of_mem _ escaped.1, escaped.2⟩

variable {fuel : Nat} {rest : List UInt8} {post : Unit → Printing → Prop}

/-- A round that finds a plain character. -/
theorem formatLoop_plain (scanned : Scanned low high types s s₁) (inside : low ≤ fmt ∧ fmt ≤ high) (nonzero : mem fmt ≠ 0)
    (plain : mem fmt ≠ ascii '%')
    (later : ∀ s₂, Scanned low high types s s₂ → wp (formatLoop device mem fuel (fmt + 1)) s₂ post halt) :
    wp (formatLoop device mem (fuel + 1) fmt) s₁ post halt := by
  rw [formatLoop]
  refine wp_bind_of (scanned.readFormat inside) ?_
  rintro _ s₂ ⟨rfl, scanned⟩
  rw [if_neg nonzero]
  refine wp_bind_of (scanned.readFormat inside) ?_
  rintro _ s₃ ⟨rfl, scanned⟩
  rw [if_pos plain]
  refine wp_bind_of (scanned.readFormat inside) fun _ s₄ read => ?_
  exact wp_bind_of read.2.emit fun _ => later

/-- A round that finds a `%` and looks at the character behind it. -/
theorem formatLoop_percent (scanned : Scanned low high types s s₁) (inside : low ≤ fmt ∧ fmt + 1 ≤ high) (percent : mem fmt = ascii '%')
    (later : ∀ s₂, Scanned low high types s s₂ → wp (if mem (fmt + 1) = 0 then
        emit (device.putc (ascii '%'))
      else do
        let next ← printConversion device mem (fmt + 1) (mem (fmt + 1))
        formatLoop device mem fuel (next + 1)) s₂ post halt) :
    wp (formatLoop device mem (fuel + 1) fmt) s₁ post halt := by
  rw [formatLoop]
  refine wp_bind_of (scanned.readFormat ⟨inside.1, by omega⟩) ?_
  rintro _ s₂ ⟨rfl, scanned⟩
  rw [if_neg (by rw [percent]; decide)]
  refine wp_bind_of (scanned.readFormat ⟨inside.1, by omega⟩) ?_
  rintro _ s₃ ⟨rfl, scanned⟩
  rw [if_neg (not_not.mpr percent)]
  refine wp_bind_of (scanned.readFormat ⟨by omega, inside.2⟩) ?_
  rintro _ s₄ ⟨rfl, scanned⟩
  exact later s₄ scanned

/-- Nothing that was read is forgotten. -/
def MoreReads (s s' : Printing) : Prop := s.reads <+: s'.reads

instance : IsPreorder Printing MoreReads where
  refl _ := List.prefix_rfl
  trans _ _ _ := List.IsPrefix.trans

namespace MoreReads

theorem emit (call : PutCall) : Along MoreReads (KuroOS.emit call) := .modify fun _ => List.prefix_rfl

theorem readFormat (mem : Mem) (fmt : Nat) : Along MoreReads (KuroOS.readFormat mem fmt) :=
  .bind (.modify fun s => List.prefix_append s.reads _) fun _ => .pure _

theorem vaInt : Along MoreReads KuroOS.vaInt := .bind .get fun s => by
  split
  · exact .bind (.modify fun _ => List.prefix_rfl) fun _ => .pure _
  · exact .throw _

theorem vaLong : Along MoreReads KuroOS.vaLong := .bind .get fun s => by
  split
  · exact .bind (.modify fun _ => List.prefix_rfl) fun _ => .pure _
  · exact .throw _

theorem vaPointer : Along MoreReads KuroOS.vaPointer := .bind .get fun s => by
  split
  · exact .bind (.modify fun _ => List.prefix_rfl) fun _ => .pure _
  · exact .throw _

theorem of_put {program : Prints Unit} {text : List UInt8}
    (spec : ∀ s, wp program s (fun _ s' => s' = s.put device text) fun _ _ => False) : Along MoreReads program := fun s =>
  wp_mono (spec s) (fun _ _ is => is ▸ List.prefix_rfl) fun _ _ => False.elim

theorem printUdec (x : BitVec 64) : Along MoreReads (KuroOS.printUdec device x) := of_put fun _ => printUdec_spec x

theorem printDec (x : BitVec 64) : Along MoreReads (KuroOS.printDec device x) := of_put fun _ => printDec_spec x

theorem printHex (x : BitVec 64) : Along MoreReads (KuroOS.printHex device x) := of_put fun _ => printHex_spec x

theorem printLong (fmt : Nat) : Along MoreReads (KuroOS.printLong device mem fmt) :=
  .bind (readFormat _ _) fun _ => .ite (.bind vaLong fun _ => printDec _) (.ite (.bind vaLong fun _ => printUdec _)
    (.ite (.bind vaLong fun _ => printHex _) (.bind (emit _) fun _ => .bind (emit _) fun _ => .bind (readFormat _ _) fun _ => emit _)))

theorem printConversion (fmt : Nat) (c : UInt8) : Along MoreReads (KuroOS.printConversion device mem fmt c) := by
  have print (x : BitVec 32 → Prints Unit) (prints : ∀ bits, Along MoreReads (x bits)) :
      Along MoreReads (do x (← KuroOS.vaInt); return fmt) := .bind vaInt fun _ => .bind (prints _) fun _ => .pure _
  refine .ite (.bind (emit _) fun _ => .pure _) (.ite (print _ fun _ => emit _) (.ite ?_ (.ite (print _ fun _ => printDec _)
    (.ite (print _ fun _ => printUdec _) (.ite (print _ fun _ => printHex _) (.ite ?_ (.ite ?_ ?_)))))))
  · exact .bind vaPointer fun _ => .bind (emit _) fun _ => .pure _
  · exact .bind (printLong _) fun _ => .pure _
  · exact .bind (emit _) fun _ => .bind vaPointer fun _ => .bind (printHex _) fun _ => .pure _
  · exact .bind (emit _) fun _ => .bind (readFormat _ _) fun _ => .bind (emit _) fun _ => .pure _

theorem formatLoop (fuel fmt : Nat) : Along MoreReads (KuroOS.formatLoop device mem fuel fmt) := by
  induction fuel generalizing fmt with
  | zero => exact .throw _
  | succ fuel ih =>
      refine .bind (readFormat _ _) fun _ => .ite (.pure _) (.bind (readFormat _ _) fun _ => .ite ?_ ?_)
      · exact .bind (readFormat _ _) fun _ => .bind (emit _) fun _ => ih _
      · exact .bind (readFormat _ _) fun _ => .ite (emit _) (.bind (printConversion _ _) fun _ => ih _)

end MoreReads

/-- A round begins with a read. -/
theorem formatLoop_reads (fuel fmt : Nat) (s : Printing) :
    wp (formatLoop device mem (fuel + 1) fmt) s (fun _ s' => fmt ∈ s'.reads) fun _ s' => fmt ∈ s'.reads := by
  have rest : ∀ c : UInt8, Along MoreReads (if c = 0 then pure () else do
      if (← readFormat mem fmt) ≠ ascii '%' then
        emit (device.putc (← readFormat mem fmt))
        formatLoop device mem fuel (fmt + 1)
      else
        let c ← readFormat mem (fmt + 1)
        if c = 0 then
          emit (device.putc (ascii '%'))
        else
          let fmt ← printConversion device mem (fmt + 1) c
          formatLoop device mem fuel (fmt + 1)) := fun c => by
    refine .ite (.pure _) (.bind (MoreReads.readFormat _ _) fun _ => .ite ?_ ?_)
    · exact .bind (MoreReads.readFormat _ _) fun _ => .bind (MoreReads.emit _) fun _ => MoreReads.formatLoop _ _
    · exact .bind (MoreReads.readFormat _ _) fun _ => .ite (MoreReads.emit _) (.bind (MoreReads.printConversion _ _) fun _ => MoreReads.formatLoop _ _)
  have now : ∀ s', MoreReads { s with reads := s.reads ++ [fmt] } s' → fmt ∈ s'.reads := fun s' more =>
    more.subset (by simp)
  rw [formatLoop]
  have first : wp (readFormat mem fmt) s (fun _ s₁ => s₁ = { s with reads := s.reads ++ [fmt] })
      fun _ s' => fmt ∈ s'.reads := by
    unfold readFormat
    rw [wp_bind, wp_modify, wp_pure]
  refine wp_bind_of first ?_
  rintro c _ rfl
  exact wp_mono (rest c _) (fun _ => now) fun _ => now

/-- The loop over a format, from one of its tokens on. -/
theorem formatLoop_spec (string : CString mem fmt format) (scanned : Scanned low high ((tokens format).flatMap Token.takes) s s₁)
    (inside : low ≤ fmt) (last : high = fmt + format.length) (enough : format.length < fuel) :
    wp (formatLoop device mem fuel fmt) s₁ (fun _ s' => Ended (tokens format) low high s s') fun _ s' => Escaped (tokens format) high s' := by
  fun_induction tokens format generalizing fmt fuel s₁ with
  | case1 =>
      obtain ⟨fuel, rfl⟩ : ∃ n, fuel = n + 1 := ⟨fuel - 1, by omega⟩
      have stop : mem fmt = 0 := string.stop
      rw [formatLoop]
      refine wp_bind_of (scanned.readFormat ⟨inside, by omega⟩) ?_
      rintro _ s₂ ⟨rfl, scanned⟩
      rw [if_pos stop, wp_pure]
      exact .inr ⟨by simp, scanned⟩
  | case2 =>
      obtain ⟨fuel, rfl⟩ : ∃ n, fuel = n + 1 := ⟨fuel - 1, by omega⟩
      obtain ⟨here, _, string⟩ := string.cons
      have stop : mem (fmt + 1) = 0 := string.stop
      refine formatLoop_percent scanned ⟨inside, by simp at last; omega⟩ here fun s₂ scanned => ?_
      rw [if_pos stop]
      exact wp_mono scanned.emit (fun _ _ scanned => .inr ⟨by simp, scanned⟩) fun _ _ => id
  | case3 =>
      simp only [List.length_cons, List.length_nil] at last enough
      obtain ⟨fuel, rfl⟩ : ∃ n, fuel = n + 1 + 1 := ⟨fuel - 2, by omega⟩
      obtain ⟨here, _, string⟩ := string.cons
      obtain ⟨isLong, nonzero, string⟩ := string.cons
      have stop : mem (fmt + 1 + 1) = 0 := string.stop
      refine formatLoop_percent scanned ⟨inside, by omega⟩ here fun s₂ scanned => ?_
      -- the terminator is taken for a conversion, and the pointer goes behind it
      have taken : Scanned low high (Token.takes (.long (mem (fmt + 1 + 1))) ++ []) s s₂ := by simpa [stop, Token.takes, ascii] using scanned
      rw [if_neg (isLong ▸ nonzero)]
      refine wp_bind_of (taken.printConversion_long ⟨by omega, by omega⟩ isLong) ?_
      rintro _ s₃ ⟨rfl, _⟩
      have behind : fmt + 1 + 1 + 1 = high + 1 := by omega
      rw [behind]
      exact wp_mono (formatLoop_reads fuel (high + 1) s₃) (fun _ _ read => .inl ⟨by simp, read⟩) fun _ _ read => ⟨by simp, read⟩
  | case4 c rest ih =>
      simp only [List.length_cons] at last enough
      obtain ⟨fuel, rfl⟩ : ∃ n, fuel = n + 1 := ⟨fuel - 1, by omega⟩
      obtain ⟨here, _, string⟩ := string.cons
      obtain ⟨isLong, nonzero, string⟩ := string.cons
      obtain ⟨isChar, _, string⟩ := string.cons
      refine formatLoop_percent scanned ⟨inside, by omega⟩ here fun s₂ scanned => ?_
      rw [if_neg (isLong ▸ nonzero)]
      rw [List.flatMap_cons, ← isChar] at scanned
      refine wp_bind_of (scanned.printConversion_long ⟨by omega, by omega⟩ isLong) ?_
      rintro _ s₃ ⟨rfl, scanned⟩
      exact wp_mono (ih string scanned (by omega) (by omega) (by omega)) (fun _ _ ended => ended.cons (by simp)) fun _ _ => Escaped.cons
  | case5 c rest short ih =>
      simp only [List.length_cons] at last enough
      obtain ⟨fuel, rfl⟩ : ∃ n, fuel = n + 1 := ⟨fuel - 1, by omega⟩
      obtain ⟨here, _, string⟩ := string.cons
      obtain ⟨isChar, nonzero, string⟩ := string.cons
      refine formatLoop_percent scanned ⟨inside, by omega⟩ here fun s₂ scanned => ?_
      rw [if_neg (isChar ▸ nonzero)]
      rw [List.flatMap_cons, ← isChar] at scanned
      refine wp_bind_of (scanned.printConversion ⟨by omega, by omega⟩ (isChar ▸ short)) ?_
      rintro _ s₃ ⟨rfl, scanned⟩
      exact wp_mono (ih string scanned (by omega) (by omega) (by omega)) (fun _ _ ended => ended.cons (by simp)) fun _ _ => Escaped.cons
  | case6 c rest other ih =>
      simp only [List.length_cons] at last enough
      obtain ⟨fuel, rfl⟩ : ∃ n, fuel = n + 1 := ⟨fuel - 1, by omega⟩
      obtain ⟨here, nonzero, string⟩ := string.cons
      refine formatLoop_plain scanned ⟨inside, by omega⟩ (here ▸ nonzero) (here ▸ other) fun s₂ scanned => ?_
      exact wp_mono (ih string scanned (by omega) (by omega) (by omega)) (fun _ _ ended => ended.cons (by simp)) fun _ _ => Escaped.cons

/-- A scan of a format stops at the terminator unless the format ends in `%l`. -/
theorem formatLoop_stops_iff {args : List Arg} (string : CString mem fmt format) (bounded : fmt + format.length < 2 ^ 64)
    (arguments : Matches args format) : StopsAtNul (formatLoop device mem loopBound fmt) args fmt format ↔ ¬ EndsInLong format := by
  have start : Scanned fmt (fmt + format.length) ((tokens format).flatMap Token.takes) ⟨args, [], []⟩ ⟨args, [], []⟩ := .refl arguments
  have enough : format.length < loopBound := by
    unfold loopBound
    omega
  have spec : wp (formatLoop device mem loopBound fmt) ⟨args, [], []⟩ _ _ := formatLoop_spec string start (Nat.le_refl fmt) rfl enough
  constructor
  · rintro ⟨s', returned, inside⟩ long
    rcases wp_ok spec returned with ⟨_, read⟩ | ⟨whole, _⟩
    · have := (inside _ read).2
      omega
    · exact whole long
  · intro whole
    obtain ⟨_, s', returned, ended⟩ := wp_total (wp_mono spec (fun _ _ => id) fun _ _ escaped => whole escaped.1)
    refine ⟨s', returned, fun a read => ?_⟩
    rcases ended with ⟨long, _⟩ | ⟨_, _, reads⟩
    · exact absurd long whole
    · exact (reads a read).resolve_left (by simp)

/-- `printf` and `printk` read their format up to its terminator, and not behind it,
just when it does not end in `%l`. -/
theorem format_read_to_nul_iff {args : List Arg} (string : CString mem fmt format) (bounded : fmt + format.length < 2 ^ 64)
    (arguments : Matches args format) :
    (StopsAtNul (printf mem fmt) args fmt format ↔ ¬ EndsInLong format) ∧
      (StopsAtNul (printk mem fmt) args fmt format ↔ ¬ EndsInLong format) :=
  ⟨formatLoop_stops_iff string bounded arguments, formatLoop_stops_iff string bounded arguments⟩

/-- Memory with a format at an address. -/
def formatAt (text : String) : Mem := lay (fun _ => 0) 4096 (text.toList.map ascii)

theorem formatAt_string {text : String} (plain : 0 ∉ text.toList.map ascii) : CString (formatAt text) 4096 (text.toList.map ascii) :=
  ⟨plain, holds_append.mpr ⟨holds_lay, lay_of_outside (.inr (Nat.le_refl _)), trivial⟩⟩

/-- A format with one conversion. -/
theorem format_read_to_nul_sample : StopsAtNul (printf (formatAt "%d\n") 4096) [.int 7] 4096 ("%d\n".toList.map ascii) ∧
    StopsAtNul (printk (formatAt "%d\n") 4096) [.int 7] 4096 ("%d\n".toList.map ascii) := by
  obtain ⟨user, kernel⟩ := format_read_to_nul_iff (formatAt_string (show 0 ∉ "%d\n".toList.map ascii by decide)) (by decide)
    (show Matches [.int 7] _ by decide)
  exact ⟨user.mpr (by decide), kernel.mpr (by decide)⟩

/-- The format `%l` is read behind its terminator. -/
theorem format_read_behind_nul : ∃ mem fmt args format, CString mem fmt format ∧ fmt + format.length < 2 ^ 64 ∧ Matches args format ∧
    ¬ StopsAtNul (printf mem fmt) args fmt format ∧ ¬ StopsAtNul (printk mem fmt) args fmt format := by
  have string : CString (formatAt "%l") 4096 ("%l".toList.map ascii) := formatAt_string (by decide)
  have matching : Matches [] ("%l".toList.map ascii) := by decide
  refine ⟨formatAt "%l", 4096, [], _, string, by decide, matching, fun stops => ?_, fun stops => ?_⟩
  · exact (formatLoop_stops_iff string (by decide) matching).mp stops (by decide)
  · exact (formatLoop_stops_iff string (by decide) matching).mp stops (by decide)

end KuroOS
