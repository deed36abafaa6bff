import KuroOS.Initrd.Archive

/-!
# Bounds of the scan

`initrdInitReads` is `initrd_init` with a record of the addresses it reads
through pointers into the archive. The scan compares only the end of a header
with the end of the archive; `InBounds` is the check that is missing: each
member that it reaches has a name inside, and contents inside if the scan is to
register it.
-/

namespace KuroOS

open Base Newc

/-! ### The addresses read -/

/-- The characters that a comparison with a text looks at: up to the first that
differs. -/
def textReads (mem : Mem) (address : Nat) : List Char → List Nat
  | [] => []
  | c :: rest => address :: if mem address = ascii c then textReads mem (address + 1) rest else []

/-- What a round of the loop reads before it may allocate an entry. -/
def roundReads (mem : Mem) (pos : Nat) : List Nat :=
  let name := wadd pos cpioHeaderSize
  textReads mem pos ['T', 'R', 'A', 'I', 'L'] ++
    if hasText mem pos ['T', 'R', 'A', 'I', 'L'] then []
    else textReads mem pos ['0', '7', '0', '7', '0', '1'] ++
      if hasText mem pos ['0', '7', '0', '7', '0', '1'] = false then []
      else List.range' (pos + 94) 8 ++ List.range' (pos + 54) 8 ++
        name :: if mem name = ascii '.' then [name + 1] else []

/-- What the copy of a name reads. -/
def copyReads (name namesize : Nat) : List Nat := (List.range (min namesize 63)).map (wadd name)

section

variable [Layout]

/-- `initrdLoop`, with the addresses it reads in the archive. -/
def initrdLoopReads (initrdEnd : Nat) : (fuel pos : Nat) → K (List Nat)
  | 0, _ => throw .hang
  | fuel + 1, pos => do
      let mem := (← get).mem
      if wadd pos cpioHeaderSize ≤ initrdEnd then
        if hasText mem pos ['T', 'R', 'A', 'I', 'L'] ∨
            hasText mem pos ['0', '7', '0', '7', '0', '1'] = false then
          return roundReads mem pos
        else
          let namesize := parseHex mem (pos + 94) 8
          let filesize := parseHex mem (pos + 54) 8
          let name := wadd pos cpioHeaderSize
          let data := align4 (wadd (wadd pos cpioHeaderSize) namesize)
          let after := align4 (wadd data filesize)
          if (mem name = ascii '.' ∧ mem (name + 1) = 0) ∨ namesize ≥ 64 then
            return roundReads mem pos ++ (← initrdLoopReads initrdEnd fuel after)
          else if ← initrdAdd name namesize filesize data then
            return roundReads mem pos ++ copyReads name namesize ++ (← initrdLoopReads initrdEnd fuel after)
          else
            return roundReads mem pos
      else
        return []

/-- `initrdInit`, with the addresses it reads in the archive. -/
def initrdInitReads (start size : Nat) : K (List Nat) := do
  modify fun s => { s with fileList := 0 }
  initrdLoopReads (wadd start size) loopBound start

/-- The record is the only difference. -/
theorem initrdLoop_reads (initrdEnd fuel pos : Nat) :
    initrdLoop initrdEnd fuel pos = do
      let _ ← initrdLoopReads initrdEnd fuel pos
      return () := by
  induction fuel generalizing pos with
  | zero => rfl
  | succ fuel ih =>
      rw [initrdLoop, initrdLoopReads]
      simp only [bind_assoc]
      refine congrArg _ (funext fun s => ?_)
      split
      · split
        · simp
        · split
          · simp [ih]
          · simp only [bind_assoc]
            refine congrArg _ (funext fun ok => ?_)
            cases ok <;> simp [ih]
      · simp

/-- The record is the only difference. -/
theorem initrdInit_reads (start size : Nat) :
    initrdInit start size = do
      let _ ← initrdInitReads start size
      return () := by
  unfold initrdInit initrdInitReads
  rw [bind_assoc]
  exact congrArg _ (funext fun _ => initrdLoop_reads _ _ _)

end

/-! ### The missing check -/

/-- The lengths that a header at `pos` gives, and the positions that follow. -/
def scanNamesize (mem : Mem) (pos : Nat) : Nat := parseHex mem (pos + 94) 8
def scanFilesize (mem : Mem) (pos : Nat) : Nat := parseHex mem (pos + 54) 8
def scanData (mem : Mem) (pos : Nat) : Nat := roundUp (pos + headerSize + scanNamesize mem pos)
def scanNext (mem : Mem) (pos : Nat) : Nat := roundUp (scanData mem pos + scanFilesize mem pos)

/-- The scan registers nothing for a header at `pos`. -/
def ScanSkips (mem : Mem) (pos : Nat) : Prop :=
  (mem (pos + headerSize) = ascii '.' ∧ mem (pos + headerSize + 1) = 0) ∨ 64 ≤ scanNamesize mem pos

/-- There is a header at `pos`. -/
def IsHeader (mem : Mem) (pos : Nat) : Prop := hasText mem pos ['0', '7', '0', '7', '0', '1'] = true

/-- The first character of the name lies inside, and so does the second behind a
full stop. -/
def NameBegins (mem : Mem) (stop pos : Nat) : Prop :=
  pos + headerSize < stop ∧ (mem (pos + headerSize) = ascii '.' → pos + headerSize + 1 < stop)

/-- From `pos` on, the members that the scan reaches lie inside: with room for
`room` entries, each has its name inside, and its contents if it is registered. -/
inductive InBounds (mem : Mem) (stop : Nat) : (room pos : Nat) → Prop where
  | past {room pos : Nat} (ended : stop < pos + headerSize) : InBounds mem stop room pos
  | noHeader {room pos : Nat} (ended : ¬ IsHeader mem pos) : InBounds mem stop room pos
  | skip {room pos : Nat} (header : IsHeader mem pos) (name : NameBegins mem stop pos)
      (skips : ScanSkips mem pos) (rest : InBounds mem stop room (scanNext mem pos)) :
      InBounds mem stop room pos
  | full {pos : Nat} (header : IsHeader mem pos) (name : NameBegins mem stop pos)
      (registers : ¬ ScanSkips mem pos) : InBounds mem stop 0 pos
  | file {room pos : Nat} (header : IsHeader mem pos) (name : NameBegins mem stop pos)
      (registers : ¬ ScanSkips mem pos)
      (whole : pos + headerSize + scanNamesize mem pos ≤ stop)
      (contents : scanData mem pos + scanFilesize mem pos ≤ stop)
      (rest : InBounds mem stop room (scanNext mem pos)) : InBounds mem stop (room + 1) pos

variable {mem mem' : Mem} {start stop room pos : Nat}

/-- The scan moves on by a header at least, and by less than 2 ^ 34. -/
theorem scanNext_bounds (mem : Mem) (pos : Nat) :
    pos + headerSize + scanNamesize mem pos ≤ scanData mem pos ∧
      scanData mem pos + scanFilesize mem pos ≤ scanNext mem pos ∧
      scanNext mem pos < pos + 2 ^ 34 := by
  have names := parseHex_lt mem (pos + 94) (show 8 ≤ 15 by omega)
  have files := parseHex_lt mem (pos + 54) (show 8 ≤ 15 by omega)
  have header : headerSize = 110 := rfl
  unfold scanNext scanData roundUp scanNamesize scanFilesize
  omega

/-- The magic number rules the end marker out. -/
theorem not_trailer (header : IsHeader mem pos) : hasText mem pos ['T', 'R', 'A', 'I', 'L'] = false := by
  have first : mem pos = 48 := (hasText_iff.mp header).1
  simp only [hasText, first]
  rfl

/-- Equal bytes of a text are recognized equally. -/
theorem hasText_congr {text : List Char} (same : ∀ x, pos ≤ x → x < pos + text.length → mem' x = mem x) :
    hasText mem' pos text = hasText mem pos text := by
  induction text generalizing pos with
  | nil => rfl
  | cons c rest ih =>
      rw [List.length_cons] at same
      simp only [hasText, same pos (by omega) (by omega)]
      rw [ih fun x low high => same x (by omega) (by omega)]

/-- Equal digits have equal values. -/
theorem parseHex_congr {a len : Nat} (same : ∀ x, a ≤ x → x < a + len → mem' x = mem x) :
    parseHex mem' a len = parseHex mem a len := by
  induction len with
  | zero => rfl
  | succ len ih =>
      rw [parseHex, parseHex, ih fun x low high => same x low (by omega), same _ (by omega) (by omega)]

/-- The condition is one on the bytes inside. -/
theorem InBounds.congr (holds : InBounds mem stop room pos) (low : start ≤ pos)
    (same : ∀ x, start ≤ x → x < stop → mem' x = mem x) : InBounds mem' stop room pos := by
  have header : headerSize = 110 := rfl
  -- the fields of a header that lies inside
  have fields : ∀ pos, start ≤ pos → pos + 110 ≤ stop → (IsHeader mem' pos ↔ IsHeader mem pos) ∧
      scanNamesize mem' pos = scanNamesize mem pos ∧ scanFilesize mem' pos = scanFilesize mem pos := by
    intro pos low high
    refine ⟨?_, parseHex_congr fun x above below => same x (by omega) (by omega),
      parseHex_congr fun x above below => same x (by omega) (by omega)⟩
    unfold IsHeader
    rw [hasText_congr fun x above below => same x (by omega) (by
      simp only [List.length_cons, List.length_nil] at below
      omega)]
  have begins : ∀ pos, start ≤ pos → NameBegins mem stop pos → NameBegins mem' stop pos := by
    rintro pos low ⟨inside, dot⟩
    refine ⟨inside, ?_⟩
    rw [same _ (by omega) inside]
    exact dot
  have skips : ∀ pos, start ≤ pos → NameBegins mem stop pos → (ScanSkips mem' pos ↔ ScanSkips mem pos) := by
    rintro pos low ⟨inside, dot⟩
    unfold ScanSkips
    rw [(fields pos low (by omega)).2.1, same _ (by omega) inside]
    refine or_congr_left (and_congr_right fun isDot => ?_)
    rw [same _ (by omega) (dot isDot)]
  have next : ∀ pos, start ≤ pos → pos + 110 ≤ stop → scanData mem' pos = scanData mem pos ∧
      scanNext mem' pos = scanNext mem pos := by
    intro pos low high
    obtain ⟨_, names, files⟩ := fields pos low high
    unfold scanNext scanData
    simp only [names, files, and_self]
  induction holds with
  | past ended => exact .past ended
  | @noHeader room pos ended =>
      by_cases inside : pos + 110 ≤ stop
      · exact .noHeader fun here => ended ((fields pos low inside).1.mp here)
      · exact .past (by omega)
  | @skip room pos isHeader name skipped rest ih =>
      have inside : pos + 110 ≤ stop := by have := name.1; omega
      have onward := scanNext_bounds mem pos
      refine .skip ((fields pos low inside).1.mpr isHeader) (begins pos low name)
        ((skips pos low name).mpr skipped) ?_
      rw [(next pos low inside).2]
      exact ih (by omega)
  | @full pos isHeader name registers =>
      have inside : pos + 110 ≤ stop := by have := name.1; omega
      exact .full ((fields pos low inside).1.mpr isHeader) (begins pos low name)
        (mt (skips pos low name).mp registers)
  | @file room pos isHeader name registers whole contents rest ih =>
      have inside : pos + 110 ≤ stop := by have := name.1; omega
      have onward := scanNext_bounds mem pos
      refine .file ((fields pos low inside).1.mpr isHeader) (begins pos low name)
        (mt (skips pos low name).mp registers) ?_ ?_ ?_
      · rw [(fields pos low inside).2.1]
        exact whole
      · rw [(next pos low inside).1, (fields pos low inside).2.2]
        exact contents
      · rw [(next pos low inside).2]
        exact ih (by omega)

/-- The condition at a header. -/
theorem inBounds_header (header : IsHeader mem pos) (inside : pos + headerSize ≤ stop) :
    InBounds mem stop room pos ↔ NameBegins mem stop pos ∧
      (ScanSkips mem pos → InBounds mem stop room (scanNext mem pos)) ∧
      (¬ ScanSkips mem pos → room ≠ 0 → pos + headerSize + scanNamesize mem pos ≤ stop ∧
        scanData mem pos + scanFilesize mem pos ≤ stop ∧
        InBounds mem stop (room - 1) (scanNext mem pos)) := by
  constructor
  · intro holds
    cases holds with
    | past ended => exact absurd ended (Nat.not_lt.mpr inside)
    | noHeader ended => exact absurd header ended
    | skip _ name skips rest => exact ⟨name, fun _ => rest, fun registers => absurd skips registers⟩
    | full _ name registers => exact ⟨name, fun skips => absurd skips registers, fun _ some' => absurd rfl some'⟩
    | file _ name registers whole contents rest =>
        exact ⟨name, fun skips => absurd skips registers, fun _ _ => ⟨whole, contents, rest⟩⟩
  · rintro ⟨name, skipped, registered⟩
    by_cases skips : ScanSkips mem pos
    · exact .skip header name skips (skipped skips)
    · rcases room with _ | room
      · exact .full header name skips
      · obtain ⟨whole, contents, rest⟩ := registered skips (by omega)
        exact .file header name skips whole contents rest

/-- A comparison looks at the bytes of the text at most. -/
theorem textReads_bounds {text : List Char} {x : Nat} (member : x ∈ textReads mem pos text) :
    pos ≤ x ∧ x < pos + text.length := by
  induction text generalizing pos with
  | nil => simp [textReads] at member
  | cons c rest ih =>
      rw [List.length_cons]
      rcases List.mem_cons.mp member with rfl | later
      · omega
      · split at later
        · have := ih later
          omega
        · simp at later

/-- What a round reads lies inside exactly when the name begins inside. -/
theorem roundReads_header (low : start ≤ pos) (high : pos + headerSize ≤ stop) (small : stop < 2 ^ 63)
    (header : IsHeader mem pos) :
    (∀ x ∈ roundReads mem pos, start ≤ x ∧ x < stop) ↔ NameBegins mem stop pos := by
  have size : headerSize = 110 := rfl
  have name : wadd pos cpioHeaderSize = pos + headerSize := wadd_of_lt (by simp only [cpioHeaderSize]; omega)
  have magic : hasText mem pos ['0', '7', '0', '7', '0', '1'] = true := header
  have texts : ∀ (text : List Char), text.length ≤ 110 → ∀ x ∈ textReads mem pos text, start ≤ x ∧ x < stop :=
    fun text short x member => by
      have := textReads_bounds member
      omega
  have digits : ∀ k, k + 8 ≤ 110 → ∀ x ∈ List.range' (pos + k) 8, start ≤ x ∧ x < stop := fun k inside x member => by
    have := List.mem_range'_1.mp member
    omega
  unfold roundReads
  simp only [not_trailer header, magic, name, Bool.false_eq_true, Bool.true_eq_false, if_false]
  constructor
  · intro all
    have first := all (pos + headerSize) (by simp)
    refine ⟨first.2, fun dot => ?_⟩
    exact (all (pos + headerSize + 1) (by simp [dot])).2
  · rintro ⟨inside, dot⟩
    simp only [List.forall_mem_append, List.forall_mem_cons]
    refine ⟨texts _ (by decide), texts _ (by decide), ⟨digits 94 (by omega), digits 54 (by omega)⟩, by omega, ?_⟩
    split
    · next isDot =>
        have := dot isDot
        simp only [List.mem_singleton, forall_eq]
        omega
    · simp

/-- What a round reads where there is no header lies inside. -/
theorem roundReads_noHeader (low : start ≤ pos) (high : pos + headerSize ≤ stop)
    (noHeader : ¬ IsHeader mem pos) : ∀ x ∈ roundReads mem pos, start ≤ x ∧ x < stop := by
  have size : headerSize = 110 := rfl
  have magic : hasText mem pos ['0', '7', '0', '7', '0', '1'] = false := Bool.eq_false_iff.mpr noHeader
  have texts : ∀ (text : List Char), text.length ≤ 110 → ∀ x ∈ textReads mem pos text, start ≤ x ∧ x < stop :=
    fun text short x member => by
      have := textReads_bounds member
      omega
  unfold roundReads
  simp only [magic, if_true, List.append_nil]
  rw [List.forall_mem_append]
  refine ⟨texts _ (by decide), ?_⟩
  split
  · simp
  · exact texts _ (by decide)

/-- The contents of a file lie inside. -/
def InitrdFile.Inside (start stop : Nat) (f : InitrdFile) : Prop := start ≤ f.data ∧ f.data + f.size ≤ stop

/-- The scan read inside only, and registered files whose contents lie inside. -/
def StaysInside (start stop : Nat) (reads : List Nat) (s : Kernel) : Prop :=
  (∀ x ∈ reads, start ≤ x ∧ x < stop) ∧
    ∃ files, Registered s files ∧ ∀ f ∈ files, f.Inside start stop

/-- Reads that lie inside can be left out. -/
theorem StaysInside.append_iff {first rest : List Nat} {s : Kernel}
    (inside : ∀ x ∈ first, start ≤ x ∧ x < stop) :
    StaysInside start stop (first ++ rest) s ↔ StaysInside start stop rest s := by
  unfold StaysInside
  rw [List.forall_mem_append]
  exact and_congr_left' (and_iff_right inside)

section

variable [Layout] {own : Nat → Owner} {free : List Nat} {blocks : List Block}
  {entries : List (Nat × InitrdFile)} {s : Kernel} {fuel : Nat}

omit [Layout] in
/-- A run whose reads begin with one outside does not stay inside. -/
theorem not_staysInside {first : List Nat} (outside : ¬ ∀ x ∈ first, start ≤ x ∧ x < stop)
    {program : K (List Nat)} (begins : wp program s (fun reads _ => ∃ rest, reads = first ++ rest) fun _ _ => True) :
    ¬ wp program s (StaysInside start stop) fun _ _ => False := by
  intro stays
  obtain ⟨_, _, _, holds, rest, rfl⟩ := wp_total
    (wp_mono (wp_and stays begins) (fun _ _ => id) fun _ _ => And.left)
  exact outside fun x member => holds.1 x (List.mem_append_left _ member)

/-- The scan from a position behind the end registers nothing more. -/
theorem initrdLoopReads_past {post : List Nat → Kernel → Prop} {halt : Halt → Kernel → Prop}
    (past : stop < pos + headerSize) (fits : pos + headerSize < 2 ^ 64) :
    wp (initrdLoopReads stop (fuel + 1) pos) s post halt ↔ post [] s := by
  rw [initrdLoopReads]
  simp only [wp_bind, wp_get, wp_ite, cpioHeaderSize]
  rw [wadd_of_lt fits, if_neg (Nat.not_le.mpr past), wp_pure]

/-- One round of the scan at a header. -/
theorem initrdLoopReads_header {post : List Nat → Kernel → Prop} {halt : Halt → Kernel → Prop}
    (header : IsHeader s.mem pos) (inside : pos + headerSize ≤ stop) (small : stop < 2 ^ 63) :
    wp (initrdLoopReads stop (fuel + 1) pos) s post halt ↔
      wp (if (s.mem (pos + headerSize) = ascii '.' ∧ s.mem (pos + headerSize + 1) = 0) ∨
          scanNamesize s.mem pos ≥ 64 then do
          let rest ← initrdLoopReads stop fuel (scanNext s.mem pos)
          return roundReads s.mem pos ++ rest
        else do
          if ← initrdAdd (pos + headerSize) (scanNamesize s.mem pos) (scanFilesize s.mem pos)
              (scanData s.mem pos) then
            let rest ← initrdLoopReads stop fuel (scanNext s.mem pos)
            return roundReads s.mem pos ++ copyReads (pos + headerSize) (scanNamesize s.mem pos) ++ rest
          else
            return roundReads s.mem pos) s post halt := by
  have size : headerSize = 110 := rfl
  have magic : hasText s.mem pos ['0', '7', '0', '7', '0', '1'] = true := header
  have names : scanNamesize s.mem pos < 2 ^ 32 := parseHex_lt s.mem (pos + 94) (show 8 ≤ 15 by omega)
  have files : scanFilesize s.mem pos < 2 ^ 32 := parseHex_lt s.mem (pos + 54) (show 8 ≤ 15 by omega)
  have onward := scanNext_bounds s.mem pos
  have name : wadd pos cpioHeaderSize = pos + headerSize := wadd_of_lt (by simp only [cpioHeaderSize]; omega)
  have data : align4 (wadd (pos + headerSize) (scanNamesize s.mem pos)) = scanData s.mem pos := by
    rw [wadd_of_lt (by omega), align4_eq (by omega)]
    rfl
  have after : align4 (wadd (scanData s.mem pos) (scanFilesize s.mem pos)) = scanNext s.mem pos := by
    rw [wadd_of_lt (by omega), align4_eq (by omega)]
    rfl
  have namesize : parseHex s.mem (pos + 94) 8 = scanNamesize s.mem pos := rfl
  have filesize : parseHex s.mem (pos + 54) 8 = scanFilesize s.mem pos := rfl
  rw [initrdLoopReads]
  simp only [wp_bind, wp_get, wp_ite, name, not_trailer header, magic, namesize, filesize, data, after,
    Bool.false_eq_true, Bool.true_eq_false, or_self, if_false, if_pos inside]

/-- The scan ends where there is no header. -/
theorem initrdLoopReads_noHeader {post : List Nat → Kernel → Prop} {halt : Halt → Kernel → Prop}
    (noHeader : ¬ IsHeader s.mem pos) (inside : pos + headerSize ≤ stop) (fits : pos + headerSize < 2 ^ 64) :
    wp (initrdLoopReads stop (fuel + 1) pos) s post halt ↔ post (roundReads s.mem pos) s := by
  have magic : hasText s.mem pos ['0', '7', '0', '7', '0', '1'] = false := Bool.eq_false_iff.mpr noHeader
  rw [initrdLoopReads]
  simp only [wp_bind, wp_get, wp_ite, cpioHeaderSize, magic, or_true, if_true]
  rw [wadd_of_lt fits, if_pos inside, wp_pure]

omit [Layout] in
/-- The copy of a name reads inside exactly when the name ends inside. -/
theorem copyReads_inside {name namesize : Nat} (low : start ≤ name) (begins : name ≤ stop) (short : namesize < 64)
    (small : stop < 2 ^ 63) :
    (∀ x ∈ copyReads name namesize, start ≤ x ∧ x < stop) ↔ name + namesize ≤ stop := by
  have count : min namesize 63 = namesize := by omega
  unfold copyReads
  rw [count, List.forall_mem_map]
  constructor
  · intro all
    by_contra long
    have last := all (stop - name) (List.mem_range.mpr (by omega))
    rw [wadd_of_lt (by omega)] at last
    omega
  · intro fits i member
    have := List.mem_range.mp member
    rw [wadd_of_lt (by omega)]
    omega

/-- Whether an entry is made depends on the room only. -/
theorem InitrdState.add_room (state : InitrdState own free blocks entries s) {name namesize filesize data : Nat}
    {halt : Halt → Kernel → Prop} :
    wp (initrdAdd name namesize filesize data) s (fun ok s' =>
      (ok = false ∧ s' = s ∧ initrdRoom free blocks = 0) ∨ (ok = true ∧ initrdRoom free blocks ≠ 0)) halt := by
  unfold initrdAdd
  refine wp_bind_of (kmalloc_room state.heap (by decide) (by decide)) ?_
  rintro _ s₁ (⟨rfl, rfl, full⟩ | ⟨own', free', blocks', b, heap', moves, rfl, used, large, perm, room⟩)
  · rw [if_pos rfl]
    exact (wp_pure _).mpr (.inl ⟨rfl, rfl, full⟩)
  · rw [if_neg (by omega)]
    simp only [wp_bind, wp_modifyMem, wp_storeWord, wp_get, wp_modify, wp_pure]
    exact .inr ⟨trivial, by unfold initrdRoom; omega⟩

/-- A scan that reads nothing and registers nothing. -/
theorem InitrdState.nothing (state : InitrdState own free blocks entries s)
    (earlier : ∀ e ∈ entries, e.2.Inside start stop) : StaysInside start stop [] s := by
  refine ⟨by simp, _, ⟨entries, state.chain, rfl⟩, fun f member => ?_⟩
  obtain ⟨e, inside, rfl⟩ := List.mem_map.mp member
  exact earlier e inside

/-- The scan stays inside exactly when the members that it reaches do. -/
theorem InitrdState.inBounds_iff (state : InitrdState own free blocks entries s)
    (earlier : ∀ e ∈ entries, e.2.Inside start stop) (low : start ≤ pos) (near : pos < 2 ^ 63 + 2 ^ 35)
    (small : stop < 2 ^ 63) (quiet : ∀ x, start ≤ x → x < stop → Quiet own x)
    (enough : stop < pos + 110 * (fuel + 1)) :
    wp (initrdLoopReads stop (fuel + 1) pos) s (StaysInside start stop) (fun _ _ => False) ↔
      InBounds s.mem stop (initrdRoom free blocks) pos := by
  have size : headerSize = 110 := rfl
  induction fuel generalizing own free blocks entries s pos with
  | zero =>
      rw [initrdLoopReads_past (by omega) (by omega)]
      exact iff_of_true (state.nothing earlier) (.past (by omega))
  | succ fuel ih =>
      have nothing := state.nothing earlier
      by_cases past : stop < pos + headerSize
      · rw [initrdLoopReads_past past (by omega)]
        exact iff_of_true nothing (.past past)
      have inside : pos + headerSize ≤ stop := Nat.le_of_not_lt past
      by_cases header : IsHeader s.mem pos
      case neg =>
        rw [initrdLoopReads_noHeader header inside (by omega)]
        exact iff_of_true ⟨roundReads_noHeader low inside header, nothing.2⟩ (.noHeader header)
      have onward := scanNext_bounds s.mem pos
      rw [initrdLoopReads_header header inside small]
      by_cases name : NameBegins s.mem stop pos
      case neg =>
        refine iff_of_false (not_staysInside (mt (roundReads_header low inside small header).mp name) ?_) ?_
        · split
          · rw [wp_bind]
            exact wp_mono wp_any (fun rest _ _ => (wp_pure _).mpr ⟨rest, rfl⟩) fun _ _ => id
          · rw [wp_bind]
            refine wp_mono wp_any (fun ok _ _ => ?_) fun _ _ => id
            split
            · rw [wp_bind]
              exact wp_mono wp_any (fun rest _ _ => (wp_pure _).mpr ⟨_ ++ rest, List.append_assoc ..⟩) fun _ _ => id
            · exact (wp_pure _).mpr ⟨[], (List.append_nil _).symm⟩
        · exact fun holds => name ((inBounds_header header inside).mp holds).1
      have readsInside := (roundReads_header low inside small header).mpr name
      rw [inBounds_header header inside, and_iff_right name]
      by_cases skips : ScanSkips s.mem pos
      · rw [if_pos (show _ ∨ _ from skips), wp_bind]
        simp only [wp_pure, StaysInside.append_iff readsInside]
        have later := ih state earlier (by omega : start ≤ scanNext s.mem pos) (by omega) quiet (by omega)
        exact later.trans ⟨fun rest => ⟨fun _ => rest, fun registers => absurd skips registers⟩,
          fun both => both.1 skips⟩
      · rw [if_neg (show ¬ (_ ∨ _) from skips), and_iff_right fun here => absurd here skips]
        have short : scanNamesize s.mem pos < 64 := by
          by_contra long
          exact skips (.inr (Nat.le_of_not_lt long))
        by_cases full : initrdRoom free blocks = 0
        · refine iff_of_true ?_ fun _ some' => absurd full some'
          refine wp_bind_of state.add_room ?_
          rintro _ s₁ (⟨rfl, rfl, _⟩ | ⟨_, more⟩)
          · simp only [Bool.false_eq_true, if_false, wp_pure]
            exact ⟨readsInside, nothing.2⟩
          · exact absurd full more
        rw [imp_iff_right skips, imp_iff_right full]
        have copied : (∀ x ∈ copyReads (pos + headerSize) (scanNamesize s.mem pos), start ≤ x ∧ x < stop) ↔ _ :=
          copyReads_inside (by omega) inside short small
        by_cases whole : pos + headerSize + scanNamesize s.mem pos ≤ stop
        case neg =>
          have outside : ¬ ∀ x ∈ roundReads s.mem pos ++ copyReads (pos + headerSize) (scanNamesize s.mem pos),
              start ≤ x ∧ x < stop := fun both => whole (copied.mp (List.forall_mem_append.mp both).2)
          refine iff_of_false (not_staysInside outside ?_) fun all => whole all.1
          rw [wp_bind]
          refine wp_mono state.add_room ?_ fun _ _ => id
          rintro _ s₁ (⟨_, _, none⟩ | ⟨rfl, _⟩)
          · exact absurd none full
          · simp only [if_true, wp_bind, wp_pure]
            exact wp_mono wp_any (fun rest _ _ => ⟨rest, rfl⟩) fun _ _ => id
        have bothInside := List.forall_mem_append.mpr ⟨readsInside, copied.mpr whole⟩
        rw [and_iff_right whole, wp_bind]
        -- the entry is made: what the rest of the scan does decides
        refine wp_iff_of (state.add short (fun x above below => quiet x (by omega) (by omega)) (by omega)
          (by omega) (by omega)) ?_
        rintro _ s₁ (⟨_, _, none⟩ | ⟨rfl, own₁, free₁, blocks₁, entry, state₁, room, moves⟩)
        · exact absurd none full
        simp only [if_true, wp_bind, wp_pure, StaysInside.append_iff bothInside]
        by_cases contents : scanData s.mem pos + scanFilesize s.mem pos ≤ stop
        · rw [and_iff_right contents]
          have insides : ∀ e ∈ (entry, (⟨untilNul (nameBytes s.mem (pos + headerSize) (scanNamesize s.mem pos)),
              scanData s.mem pos, scanFilesize s.mem pos⟩ : InitrdFile)) :: entries, e.2.Inside start stop := by
            rw [List.forall_mem_cons]
            exact ⟨⟨by simp only; omega, contents⟩, earlier⟩
          have later := ih state₁ insides (by omega : start ≤ scanNext s.mem pos) (by omega)
            (fun x above below => moves.quiet (quiet x above below)) (by omega)
          have less : initrdRoom free blocks - 1 = initrdRoom free₁ blocks₁ := by omega
          have same : ∀ x, start ≤ x → x < stop → s₁.mem x = s.mem x := fun x above below =>
            moves.bytes x (quiet x above below)
          rw [less]
          refine later.trans ⟨fun holds => ?_, fun holds => ?_⟩
          · exact holds.congr (by omega) fun x above below => (same x above below).symm
          · exact holds.congr (by omega) same
        · refine iff_of_false ?_ fun all => contents all.1
          rw [initrdLoopReads_past (by omega) (by omega)]
          rintro ⟨_, files, registered, insides⟩
          obtain rfl := registered.unique ⟨_, state₁.chain, rfl⟩
          exact contents (insides _ (List.mem_map_of_mem List.mem_cons_self)).2

/-- `initrd_init` on any bytes reads inside the archive only, and registers
only files inside it, exactly when the members that it reaches lie inside. -/
theorem initrd_in_bounds_iff (state : HeapState own free blocks s) {size : Nat} (fits : start + size < 2 ^ 63)
    (quiet : ∀ x, start ≤ x → x < start + size → Quiet own x) :
    wp (initrdInitReads start size) s (StaysInside start (start + size)) (fun _ _ => False) ↔
      InBounds s.mem (start + size) (initrdRoom free blocks) start := by
  unfold initrdInitReads
  simp only [wp_bind, wp_modify]
  rw [wadd_of_lt (by omega)]
  have empty : InitrdState own free blocks [] { s with fileList := 0 } := state.initrd
  obtain ⟨fuel, bound⟩ : ∃ f, loopBound = f + 1 := ⟨loopBound - 1, rfl⟩
  rw [bound]
  exact empty.inBounds_iff (by simp) (Nat.le_refl _) (by omega) fits quiet (by unfold loopBound at bound; omega)

omit [Layout] in
/-- A standard archive at an aligned address meets the condition. -/
theorem inBounds_archive {members : List Member} {count : Nat} (aligned : pos % 4 = 0)
    (holds : Holds mem pos (encodeAll members ++ List.replicate count 0))
    (ends : stop = pos + (encodeAll members).length + count) : InBounds mem stop room pos := by
  have size : headerSize = 110 := rfl
  induction members generalizing pos room with
  | nil =>
      simp only [encodeAll, List.flatMap_nil, List.nil_append, List.length_nil] at holds ends
      by_cases more : 0 < count
      · exact .noHeader (Bool.eq_false_iff.mp (hasText_nuls holds more))
      · exact .past (by omega)
  | cons m rest ih =>
      have split : encodeAll (m :: rest) = m.encode ++ encodeAll rest := by simp [encodeAll]
      rw [split, List.append_assoc] at holds
      rw [split, List.length_append] at ends
      obtain ⟨here, later⟩ := holds_append.mp holds
      obtain ⟨header, name, _⟩ := Member.holds_encode here
      obtain ⟨namesize, filesize⟩ := header_sizes header
      have length := m.encode_length
      have dataAt := m.dataOffset_eq
      have mod := m.encode_length_mod
      have data : scanData mem pos = pos + m.dataOffset := by
        rw [← dataPos_aligned aligned, scanData, scanNamesize, namesize]
        rfl
      have next : scanNext mem pos = pos + m.encode.length := by
        rw [← nextPos_aligned aligned, scanNext, data, ← dataPos_aligned aligned, scanFilesize, filesize]
        rfl
      have onward := fun room' => @ih room' (pos + m.encode.length) (by omega) later (by omega)
      rw [inBounds_header (header_texts header).2 (by omega)]
      refine ⟨⟨by omega, fun _ => by omega⟩, fun _ => next ▸ onward room, fun _ _ => ⟨?_, ?_, next ▸ onward _⟩⟩
      · rw [scanNamesize, namesize]
        omega
      · rw [data, scanFilesize, filesize]
        omega

end

section

attribute [local instance] Layout.sample

/-- The scan of the sample stays inside. -/
theorem initrd_in_bounds_sample : ∃ s reads s', initrdInitReads 0x80220000 240 s = .ok reads s' ∧
    StaysInside 0x80220000 (0x80220000 + 240) reads s' := by
  obtain ⟨free, s, state, room, placed, fits, quiet, _⟩ := sample_start 0x80220000 (by decide) (by decide)
  have length := sampleArchive_length
  have inside : InBounds s.mem (0x80220000 + sampleArchive.encode.length) (initrdRoom free []) 0x80220000 :=
    inBounds_archive (by decide) placed (by simp [Archive.encode]; omega)
  obtain ⟨reads, s', returned, stays⟩ := wp_total ((initrd_in_bounds_iff state fits quiet).mpr inside)
  rw [length] at returned stays
  exact ⟨s, reads, s', returned, stays⟩

/-- A header alone, with a name of 64 bytes that the archive does not hold: the
scan reads the byte behind the archive. -/
theorem initrd_reads_behind : ∃ free s reads s', HeapState startOwner free [] s ∧
    initrdInitReads 0x80220000 110 s = .ok reads s' ∧ 0x80220000 + 110 ∈ reads := by
  obtain ⟨header, is⟩ : ∃ h, h = plainHeader [48, 48, 48, 48, 48, 48, 48, 48] [48, 48, 48, 48, 48, 48, 52, 48] :=
    ⟨_, rfl⟩
  have length : header.length = 110 := by rw [is]; rfl
  obtain ⟨free, s, state, count, root, bytes⟩ := sample_boot 0x80220000 header
  have holds : Holds s.mem 0x80220000 header := holds_lay.congr fun x low high => bytes x (by omega) (by omega)
  have isHeader : IsHeader s.mem 0x80220000 := by
    have start := holds.slice 0 6
    rw [is] at start
    exact hasText_iff.mpr start
  have namesize : scanNamesize s.mem 0x80220000 = 64 := by
    have digits := holds.slice 94 8
    rw [is] at digits
    exact parseHex_eq digits (by decide) (by decide)
  have onward := scanNext_bounds s.mem 0x80220000
  have size : headerSize = 110 := rfl
  have reads : wp (initrdInitReads 0x80220000 110) s (fun reads _ => 0x80220000 + 110 ∈ reads) fun _ _ => False := by
    obtain ⟨fuel, bound⟩ : ∃ f, loopBound = f + 1 + 1 := ⟨loopBound - 2, rfl⟩
    unfold initrdInitReads
    simp only [wp_bind, wp_modify, bound]
    obtain ⟨t, is⟩ : ∃ t, t = { s with fileList := 0 } := ⟨_, rfl⟩
    have same : s.mem = t.mem := by rw [is]
    rw [← is, wadd_of_lt (by omega)]
    rw [same] at isHeader namesize onward
    rw [initrdLoopReads_header isHeader (by omega) (by omega), if_pos (.inr (by omega)), wp_bind,
      initrdLoopReads_past (by omega) (by omega), wp_pure, List.append_nil]
    have magic : hasText t.mem 0x80220000 ['0', '7', '0', '7', '0', '1'] = true := isHeader
    have name : wadd 0x80220000 cpioHeaderSize = 0x80220000 + 110 := rfl
    simp only [roundReads, not_trailer isHeader, magic, name, Bool.false_eq_true, Bool.true_eq_false, if_false]
    simp
  obtain ⟨reads, s', returned, member⟩ := wp_total reads
  exact ⟨free, s, reads, s', state, returned, member⟩

end

end KuroOS
