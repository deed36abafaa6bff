import KuroOS.Initrd.Bounds

/-!
# The files of a scan do not overlap

`initrdInitVisits` is `initrd_init` with a record of the headers that it registers a
file for. On any bytes, with what the header fields say when they are read, the scan
only moves upwards: behind the contents of each file that it registers lie the headers,
names and contents of those that it registers later.
-/

namespace KuroOS

open Base Newc

/-- A header that the scan registers a file for, with the lengths it gives. -/
structure Visit where
  pos : Nat
  namesize : Nat
  filesize : Nat
deriving DecidableEq, Repr

/-- Where the contents of its file are taken to lie. -/
def Visit.data (v : Visit) : Nat := align4 (wadd (wadd v.pos cpioHeaderSize) v.namesize)

/-- The bytes of its file's contents. -/
def Visit.contents (v : Visit) : Set Nat := {x | v.data ≤ x ∧ x < v.data + v.filesize}

/-- The bytes of the header, and of the name behind it. -/
def Visit.header (v : Visit) : Set Nat := {x | v.pos ≤ x ∧ x < v.pos + cpioHeaderSize + v.namesize}

/-- A registered file is the one of a header. -/
def Visit.Registers (v : Visit) (f : InitrdFile) : Prop := f.data = v.data ∧ f.size = v.filesize ∧ f.name.length < 64

section

variable [Layout]

/-- `initrdLoop`, with the headers that it registers files for. -/
def initrdLoopVisits (initrdEnd : Nat) : (fuel pos : Nat) → K (List Visit)
  | 0, _ => throw .hang
  | fuel + 1, pos => do
      let mem := (← get).mem
      if wadd pos cpioHeaderSize ≤ initrdEnd then
        if hasText mem pos ['T', 'R', 'A', 'I', 'L'] ∨
            hasText mem pos ['0', '7', '0', '7', '0', '1'] = false then
          return []
        else
          let namesize := parseHex mem (pos + 94) 8
          let filesize := parseHex mem (pos + 54) 8
          let name := wadd pos cpioHeaderSize
          let data := align4 (wadd (wadd pos cpioHeaderSize) namesize)
          let after := align4 (wadd data filesize)
          if (mem name = ascii '.' ∧ mem (name + 1) = 0) ∨ namesize ≥ 64 then
            initrdLoopVisits initrdEnd fuel after
          else if ← initrdAdd name namesize filesize data then
            return ⟨pos, namesize, filesize⟩ :: (← initrdLoopVisits initrdEnd fuel after)
          else
            return []
      else
        return []

/-- `initrdInit` with at most `rounds` tests of the loop's condition, and the headers
that it registers files for. -/
def initrdInitVisits (rounds start size : Nat) : K (List Visit) := do
  modify fun s => { s with fileList := 0 }
  initrdLoopVisits (wadd start size) rounds start

/-- The record is the only difference. -/
theorem initrdLoop_visits (initrdEnd fuel pos : Nat) :
    initrdLoop initrdEnd fuel pos = do
      let _ ← initrdLoopVisits initrdEnd fuel pos
      return () := by
  induction fuel generalizing pos with
  | zero => rfl
  | succ fuel ih =>
      rw [initrdLoop, initrdLoopVisits]
      simp only [bind_assoc]
      refine congrArg _ (funext fun s => ?_)
      split
      · split
        · simp
        · split
          · simp [ih]
          · simp only [bind_assoc]
            refine congrArg _ (funext fun ok => ?_)
            cases ok <;> simp [ih]
      · simp

/-- The record and the number of rounds are the only differences. -/
theorem initrdInit_visits (start size : Nat) :
    initrdInit start size = do
      let _ ← initrdInitVisits loopBound start size
      return () := by
  unfold initrdInit initrdInitVisits
  rw [bind_assoc]
  exact congrArg _ (funext fun _ => initrdLoop_visits _ _ _)

end

/-- Headers that a scan reaches from `pos` on: each lies inside, and begins behind the
contents of those before it. -/
structure Upwards (stop pos : Nat) (visits : List Visit) : Prop where
  inside : ∀ v ∈ visits, pos ≤ v.pos ∧ v.pos + headerSize ≤ stop ∧ v.namesize < 64
  behind : visits.Pairwise fun v w => v.data + v.filesize ≤ w.pos

variable {stop pos pos' : Nat} {visits : List Visit} {v w : Visit}

/-- The contents lie behind the name, at a multiple of 4. -/
theorem Visit.data_eq (small : v.pos < 2 ^ 63) (short : v.namesize < 64) :
    v.data = roundUp (v.pos + headerSize + v.namesize) := by
  have size : headerSize = 110 := rfl
  unfold Visit.data
  rw [show wadd v.pos cpioHeaderSize = v.pos + headerSize from wadd_of_lt (by simp only [cpioHeaderSize]; omega),
    wadd_of_lt (by omega), align4_eq (by omega)]

namespace Upwards

theorem nil : Upwards stop pos [] := ⟨by simp, .nil⟩

theorem mono (upwards : Upwards stop pos' visits) (le : pos ≤ pos') : Upwards stop pos visits :=
  ⟨fun v member => ⟨Nat.le_trans le (upwards.inside v member).1, (upwards.inside v member).2⟩, upwards.behind⟩

theorem cons (upwards : Upwards stop pos' visits) (inside : v.pos + headerSize ≤ stop) (short : v.namesize < 64)
    (after : v.data + v.filesize ≤ pos') (le : v.pos ≤ pos') : Upwards stop v.pos (v :: visits) where
  inside := List.forall_mem_cons.mpr ⟨⟨Nat.le_refl _, inside, short⟩, (upwards.mono le).inside⟩
  behind := List.pairwise_cons.mpr ⟨fun w member => Nat.le_trans after (upwards.inside w member).1, upwards.behind⟩

end Upwards

section

variable [Layout] {own : Nat → Owner} {free : List Nat} {blocks : List Block}
  {entries : List (Nat × InitrdFile)} {s : Kernel} {fuel start : Nat} {halt : Halt → Kernel → Prop}

/-- What the loop leaves: it has registered a file for each header that it records. -/
def Visited (stop pos : Nat) (entries : List (Nat × InitrdFile)) (visits : List Visit) (s' : Kernel) : Prop :=
  Upwards stop pos visits ∧ ∃ own' free' blocks' new, InitrdState own' free' blocks' (new ++ entries) s' ∧
    List.Forall₂ Visit.Registers visits (new.map Prod.snd).reverse

/-- Nothing registered. -/
theorem Visited.nil (state : InitrdState own free blocks entries s) : Visited stop pos entries [] s :=
  ⟨.nil, own, free, blocks, [], state, .nil⟩

/-- One file registered, and then the rest. -/
theorem Visited.cons {entry : Nat} {file : InitrdFile} {s' : Kernel} (rest : Visited stop pos' ((entry, file) :: entries) visits s')
    (registers : v.Registers file) (inside : v.pos + headerSize ≤ stop) (short : v.namesize < 64)
    (after : v.data + v.filesize ≤ pos') (le : v.pos ≤ pos') : Visited stop v.pos entries (v :: visits) s' := by
  obtain ⟨upwards, own', free', blocks', new, state, all⟩ := rest
  refine ⟨upwards.cons inside short after le, own', free', blocks', new ++ [(entry, file)], by simpa using state, ?_⟩
  rw [List.map_append, List.map_singleton, List.reverse_append, List.reverse_singleton, List.singleton_append]
  exact .cons registers all

/-- The loop, on any bytes. Each round moves on by a header at least. -/
theorem InitrdState.initrdLoopVisits (state : InitrdState own free blocks entries s) (near : pos < 2 ^ 63 + 2 ^ 35) (small : stop < 2 ^ 63)
    (enough : stop < pos + 110 * (fuel + 1)) :
    wp (initrdLoopVisits stop (fuel + 1) pos) s (Visited stop pos entries) halt := by
  have size : headerSize = 110 := rfl
  induction fuel generalizing own free blocks entries s pos with
  | zero =>
      rw [KuroOS.initrdLoopVisits]
      simp only [wp_bind, wp_get, wp_ite, cpioHeaderSize]
      rw [wadd_of_lt (by omega), if_neg (by omega), wp_pure]
      exact .nil state
  | succ fuel ih =>
      rw [KuroOS.initrdLoopVisits]
      simp only [wp_bind, wp_get, wp_ite]
      by_cases past : wadd pos cpioHeaderSize ≤ stop
      case neg =>
        rw [if_neg past, wp_pure]
        exact .nil state
      rw [if_pos past]
      by_cases ends : hasText s.mem pos ['T', 'R', 'A', 'I', 'L'] = true ∨ hasText s.mem pos ['0', '7', '0', '7', '0', '1'] = false
      case pos =>
        rw [if_pos ends, wp_pure]
        exact .nil state
      rw [if_neg ends]
      have name : wadd pos cpioHeaderSize = pos + headerSize := wadd_of_lt (by simp only [cpioHeaderSize]; omega)
      rw [name] at past
      have names : scanNamesize s.mem pos < 2 ^ 32 := parseHex_lt s.mem (pos + 94) (show 8 ≤ 15 by omega)
      have files : scanFilesize s.mem pos < 2 ^ 32 := parseHex_lt s.mem (pos + 54) (show 8 ≤ 15 by omega)
      have onward := scanNext_bounds s.mem pos
      have data : align4 (wadd (pos + headerSize) (scanNamesize s.mem pos)) = scanData s.mem pos := by
        rw [wadd_of_lt (by omega), align4_eq (by omega)]
        rfl
      have after : align4 (wadd (scanData s.mem pos) (scanFilesize s.mem pos)) = scanNext s.mem pos := by
        rw [wadd_of_lt (by omega), align4_eq (by omega)]
        rfl
      have namesize : parseHex s.mem (pos + 94) 8 = scanNamesize s.mem pos := rfl
      have filesize : parseHex s.mem (pos + 54) 8 = scanFilesize s.mem pos := rfl
      simp only [name, namesize, filesize, data, after]
      by_cases skips : ScanSkips s.mem pos
      · rw [if_pos (show _ ∨ _ from skips)]
        refine wp_mono (ih state (by omega) (by omega)) ?_ fun _ _ => id
        rintro visits s' ⟨upwards, rest⟩
        exact ⟨upwards.mono (by omega), rest⟩
      · rw [if_neg (show ¬ (_ ∨ _) from skips)]
        have short : scanNamesize s.mem pos < 64 := by
          by_contra long
          exact skips (.inr (Nat.le_of_not_lt long))
        refine wp_mono (state.add_any short (by omega) (by omega)) ?_ fun _ _ => id
        rintro _ s₁ (⟨rfl, rfl, _⟩ | ⟨rfl, own₁, free₁, blocks₁, entry, text, state₁, _⟩)
        · simp only [Bool.false_eq_true, if_false, wp_pure]
          exact .nil state
        · simp only [if_true, wp_pure]
          obtain ⟨v, isVisit⟩ : ∃ v : Visit, v = ⟨pos, scanNamesize s.mem pos, scanFilesize s.mem pos⟩ := ⟨_, rfl⟩
          have here : v.pos = pos := by rw [isVisit]
          have sizeAt : v.filesize = scanFilesize s.mem pos := by rw [isVisit]
          have dataAt : v.data = scanData s.mem pos := by
            rw [isVisit, ← data, ← name]
            rfl
          refine wp_mono (ih state₁ (by omega) (by omega)) (fun visits s' rest => ?_) fun _ _ => id
          rw [← isVisit]
          exact here ▸ rest.cons ⟨dataAt.symm, sizeAt.symm, state₁.chain.2.2.2.1.short⟩ (here ▸ past)
            (by rw [isVisit]; exact short) (by omega) (by omega)

/-- The contents of a file lie before the header, the name and the contents of a
later one. -/
structure Visit.Precedes (v w : Visit) : Prop where
  increasing : v.data < w.data
  header : ∀ x ∈ v.contents, x ∉ w.header
  contents : ∀ x ∈ v.contents, x ∉ w.contents

omit [Layout] in
theorem Upwards.precedes (upwards : Upwards stop pos visits) (small : stop < 2 ^ 63) :
    visits.Pairwise Visit.Precedes := by
  refine upwards.behind.imp_of_mem fun {v w} _ member behind => ?_
  obtain ⟨_, inside, short⟩ := upwards.inside w member
  have size : headerSize = 110 := rfl
  have data := w.data_eq (by omega) short
  have onward : w.pos + headerSize + w.namesize ≤ w.data := by
    unfold roundUp at data
    omega
  exact ⟨by omega, fun x within later => by have := within.2; have := later.1; omega,
    fun x within later => by have := within.2; have := later.1; omega⟩

/-- `initrd_init` ends on any bytes, after `size / 110` rounds at most, and has then
registered a file for each of some headers, with the contents of each before all that
belongs to a later one. -/
theorem initrd_scan_disjoint (state : HeapState own free blocks s) {size rounds : Nat} (fits : start + size < 2 ^ 63)
    (enough : size / 110 < rounds) :
    wp (initrdInitVisits rounds start size) s (fun visits s' =>
      visits.Pairwise Visit.Precedes ∧ (∀ v ∈ visits, v.data % 4 = 0) ∧
        ∃ files, Registered s' files.reverse ∧ List.Forall₂ Visit.Registers visits files) (fun _ _ => False) := by
  unfold initrdInitVisits
  simp only [wp_bind, wp_modify]
  rw [wadd_of_lt (by omega)]
  have empty : InitrdState own free blocks [] { s with fileList := 0 } := state.initrd
  obtain ⟨fuel, rfl⟩ : ∃ f, rounds = f + 1 := ⟨rounds - 1, by omega⟩
  refine wp_mono (empty.initrdLoopVisits (by omega) fits (by omega)) ?_ fun _ _ => id
  rintro visits s' ⟨upwards, _, _, _, new, state', all⟩
  refine ⟨upwards.precedes fits, fun v member => ?_, (new.map Prod.snd).reverse, ?_, all⟩
  · obtain ⟨_, inside, short⟩ := upwards.inside v member
    have data := v.data_eq (by omega) short
    unfold roundUp at data
    omega
  · rw [List.reverse_reverse]
    exact ⟨new, by simpa using state'.chain, rfl⟩

end

section

attribute [local instance] Layout.sample

/-- The scan of the sample, in three rounds. -/
theorem initrd_scan_disjoint_sample : ∃ s visits s' files, initrdInitVisits 3 0x80220000 240 s = .ok visits s' ∧
    visits.Pairwise Visit.Precedes ∧ Registered s' files.reverse ∧ List.Forall₂ Visit.Registers visits files := by
  obtain ⟨free, s, state, _⟩ := sample_start 0x80220000 (by decide) (by decide)
  obtain ⟨visits, s', returned, precede, _, files, registered, all⟩ := wp_total
    (initrd_scan_disjoint state (show 0x80220000 + 240 < 2 ^ 63 by decide) (show 240 / 110 < 3 by decide))
  exact ⟨s, visits, s', files, returned, precede, registered, all⟩

end

end KuroOS
