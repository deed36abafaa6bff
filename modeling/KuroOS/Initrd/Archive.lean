import KuroOS.Initrd.Member
import KuroOS.Initrd.Find
import KuroOS.Memory.HeapRun

/-!
# An archive at an aligned address

From a multiple of 4 on, the positions that `initrd_init` computes are those of
the format, so the loop visits the members in order and registers each that it
does not skip, the closing one included, while there is room for entries.
-/

namespace KuroOS

open Base Newc

/-- The files that the loop registers for consecutive members, in their order. -/
def scanFiles : (pos : Nat) → List Member → List InitrdFile
  | _, [] => []
  | pos, m :: rest =>
      (if Skipped m then [] else [memberFile pos m]) ++ scanFiles (pos + m.encode.length) rest

theorem scanFiles_append (pos : Nat) (xs ys : List Member) :
    scanFiles pos (xs ++ ys) = scanFiles pos xs ++ scanFiles (pos + (encodeAll xs).length) ys := by
  induction xs generalizing pos with
  | nil => simp [scanFiles, encodeAll]
  | cons x xs ih =>
      have shift : pos + x.encode.length + (encodeAll xs).length = pos + (encodeAll (x :: xs)).length := by
        simp only [encodeAll, List.flatMap_cons, List.length_append]
        omega
      rw [List.cons_append, scanFiles, ih, scanFiles, List.append_assoc, shift]

/-- The loop registers one file for each member that it does not skip. -/
theorem scanFiles_length (pos : Nat) (members : List Member) :
    (scanFiles pos members).length = (members.filter (¬ Skipped ·)).length := by
  induction members generalizing pos with
  | nil => rfl
  | cons m rest ih =>
      rw [scanFiles, List.length_append, ih]
      by_cases skip : Skipped m
      · simp [skip]
      · simp [skip]
        omega

theorem scanFiles_length_le (pos : Nat) (members : List Member) :
    (scanFiles pos members).length ≤ members.length := by
  rw [scanFiles_length]
  exact List.length_filter_le _ _

/-- A registered name is a member's name. -/
theorem scanFiles_name {pos : Nat} {members : List Member} {f : InitrdFile}
    (member : f ∈ scanFiles pos members) : ∃ m ∈ members, f.name = m.name := by
  induction members generalizing pos with
  | nil => simp [scanFiles] at member
  | cons m rest ih =>
      rcases List.mem_append.mp member with here | later
      · refine ⟨m, List.mem_cons_self, ?_⟩
        split at here
        · simp at here
        · rw [List.mem_singleton.mp here]
          rfl
      · obtain ⟨m', inside, same⟩ := ih later
        exact ⟨m', List.mem_cons_of_mem _ inside, same⟩

/-- The closing member is registered like a file. -/
theorem last_notSkipped (archive : Archive) : ¬ Skipped archive.last := by
  unfold Skipped
  rw [archive.last_name]
  decide

variable {pos : Nat} {m : Member}

/-- From an aligned position the contents are where the format puts them. -/
theorem dataPos_aligned (aligned : pos % 4 = 0) : dataPos pos m = pos + m.dataOffset := by
  have := m.dataOffset_eq
  unfold dataPos roundUp
  omega

/-- From an aligned position the next member is where the format puts it. -/
theorem nextPos_aligned (aligned : pos % 4 = 0) : nextPos pos m = pos + m.encode.length := by
  have := m.dataOffset_eq
  have := m.encode_length
  unfold nextPos
  rw [dataPos_aligned aligned]
  unfold roundUp
  omega

/-- NULs are no header. -/
theorem hasText_nuls {mem : Mem} {count : Nat} (holds : Holds mem pos (List.replicate count 0))
    (some' : 0 < count) : hasText mem pos ['0', '7', '0', '7', '0', '1'] = false := by
  have first : mem pos = 0 := by
    obtain ⟨count, rfl⟩ : ∃ c, count = c + 1 := ⟨count - 1, by omega⟩
    exact holds.1
  simp only [hasText, first]
  rfl

section

variable [Layout] {own : Nat → Owner} {free : List Nat} {blocks : List Block}
  {entries : List (Nat × InitrdFile)} {s : Kernel} {stop fuel : Nat} {halt : Halt → Kernel → Prop}

/-- What a run of the loop that registers `found`, as far as there is room for
entries, leaves behind. -/
def Walked (own : Nat → Owner) (free : List Nat) (blocks : List Block) (entries : List (Nat × InitrdFile))
    (s : Kernel) (found : List InitrdFile) (s' : Kernel) : Prop :=
  ∃ own' free' blocks' entries', InitrdState own' free' blocks' (entries' ++ entries) s' ∧
    entries'.map Prod.snd = (found.take (initrdRoom free blocks)).reverse ∧ InitrdMoves own s own' s'

/-- Nothing registered. -/
theorem Walked.none (state : InitrdState own free blocks entries s) {found : List InitrdFile}
    (nothing : found = [] ∨ initrdRoom free blocks = 0) : Walked own free blocks entries s found s :=
  ⟨own, free, blocks, [], state, by rcases nothing with none | full <;> simp [*], .refl⟩

/-- One file registered, and then the rest. -/
theorem Walked.cons {own₁ : Nat → Owner} {free₁ : List Nat} {blocks₁ : List Block} {s₁ s' : Kernel}
    {entry : Nat} {file : InitrdFile} {found : List InitrdFile} (moves : InitrdMoves own s own₁ s₁)
    (room : initrdRoom free₁ blocks₁ + 1 = initrdRoom free blocks)
    (rest : Walked own₁ free₁ blocks₁ ((entry, file) :: entries) s₁ found s') :
    Walked own free blocks entries s (file :: found) s' := by
  obtain ⟨own', free', blocks', entries', state, same, moves'⟩ := rest
  refine ⟨own', free', blocks', entries' ++ [(entry, file)], by simpa using state, ?_, moves.trans moves'⟩
  rw [← room, List.take_succ_cons, List.reverse_cons, ← same, List.map_append, List.map_cons, List.map_nil]

/-- One round of the loop at a member, up to what the rest of the loop does. -/
theorem InitrdState.round (state : InitrdState own free blocks entries s) (holds : Holds s.mem pos m.encode)
    (inside : pos + m.encode.length ≤ stop) (quiet : ∀ x, pos ≤ x → x < stop → Quiet own x)
    (dataFits : pos + headerSize + (m.name.length + 1) + 3 < 2 ^ 64)
    (nextFits : dataPos pos m + m.contents.length + 3 < 2 ^ 64) (found : List InitrdFile)
    (rest : ∀ own₁ free₁ blocks₁ entries₁ s₁, InitrdState own₁ free₁ blocks₁ entries₁ s₁ →
      InitrdMoves own s own₁ s₁ →
      wp (initrdLoop stop fuel (nextPos pos m)) s₁ (fun _ => Walked own₁ free₁ blocks₁ entries₁ s₁ found) halt) :
    wp (initrdLoop stop (fuel + 1) pos) s (fun _ => Walked own free blocks entries s
      ((if Skipped m then [] else [memberFile pos m]) ++ found)) halt := by
  refine initrdLoop_member holds inside dataFits nextFits ?_
  obtain ⟨_, name, _⟩ := Member.holds_encode holds
  have length := m.encode_length
  have dataAt := m.dataOffset_eq
  have header : headerSize = 110 := rfl
  by_cases skip : Skipped m
  · simpa only [skip, if_true, List.nil_append] using rest own free blocks entries s state .refl
  · have short : m.name.length + 1 < 64 := by
      by_contra long
      exact skip (.inr (Nat.le_of_not_lt long))
    have dataSmall : dataPos pos m < 2 ^ 64 := by omega
    simp only [skip, if_false, List.singleton_append]
    refine wp_bind_of (state.add short (fun x low high => quiet x (by omega) (by omega)) (by omega) dataSmall
      (by omega)) ?_
    rintro _ s₁ (⟨rfl, rfl, full⟩ | ⟨rfl, own₁, free₁, blocks₁, entry, state₁, room, moves⟩)
    · simp only [Bool.false_eq_true, if_false, wp_pure]
      exact .none state (.inr full)
    · simp only [if_true]
      rw [name_copied name short] at state₁
      exact wp_mono (rest own₁ free₁ blocks₁ _ s₁ state₁ moves) (fun _ _ => .cons moves room) fun _ _ => id

/-- The loop over consecutive members at an aligned position. -/
theorem InitrdState.walk (state : InitrdState own free blocks entries s) {members : List Member} {count : Nat}
    (aligned : pos % 4 = 0) (holds : Holds s.mem pos (encodeAll members ++ List.replicate count 0))
    (ends : stop = pos + (encodeAll members).length + count) (fits : stop < 2 ^ 63)
    (quiet : ∀ x, pos ≤ x → x < stop → Quiet own x) (enough : members.length < fuel) :
    wp (initrdLoop stop fuel pos) s (fun _ => Walked own free blocks entries s (scanFiles pos members)) halt := by
  induction members generalizing own free blocks entries s pos fuel with
  | nil =>
      obtain ⟨fuel, rfl⟩ : ∃ f, fuel = f + 1 := ⟨fuel - 1, by simp at enough; omega⟩
      refine initrdLoop_end ?_ (.none state (.inl rfl))
      simp only [encodeAll, List.flatMap_nil, List.nil_append, List.length_nil] at holds ends
      by_cases more : 0 < count
      · exact .inr (hasText_nuls holds more)
      · simp only [cpioHeaderSize]
        rw [wadd_of_lt (by omega)]
        exact .inl (by omega)
  | cons m rest ih =>
      obtain ⟨fuel, rfl⟩ : ∃ f, fuel = f + 1 := ⟨fuel - 1, by omega⟩
      have split : encodeAll (m :: rest) = m.encode ++ encodeAll rest := by simp [encodeAll]
      rw [split, List.append_assoc] at holds
      obtain ⟨here, later⟩ := holds_append.mp holds
      rw [split, List.length_append] at ends
      rw [List.length_cons] at enough
      have length := m.encode_length
      have dataAt := m.dataOffset_eq
      have mod := m.encode_length_mod
      have header : headerSize = 110 := rfl
      refine state.round here (by omega) quiet (by omega)
        (by rw [dataPos_aligned aligned]; omega) (scanFiles (pos + m.encode.length) rest) ?_
      intro own₁ free₁ blocks₁ entries₁ s₁ state₁ moves
      rw [nextPos_aligned aligned]
      refine ih state₁ (by omega) (later.congr fun x low high => moves.bytes x (quiet x (by omega) ?_))
        (by omega) (fun x low high => moves.quiet (quiet x (by omega) high)) (by omega)
      simp only [List.length_append, List.length_replicate] at high
      omega

/-- Bytes of the kernel image outside the head of the free list are quiet. -/
theorem quiet_of_image (pool : Pool own free s) {x : Nat} (image : x < Layout.kernelEnd)
    (away : x < Layout.freePageList ∨ Layout.freePageList + 16 ≤ x) : Quiet own x := by
  have outside : own (pageOf x) = .outside := by
    by_contra owned
    have page := (pool.pages _ owned).2.1
    unfold pageOf at page
    omega
  refine ⟨by simp [outside], by simp [outside], fun inside => ?_⟩
  simp only [node, Set.mem_ofPred_eq] at inside
  omega

/-- `initrd_init` on an archive at an aligned address. -/
theorem initrdInit_archive (state : HeapState own free blocks s) {archive : Archive} {start : Nat}
    (aligned : start % 4 = 0) (placed : Holds s.mem start archive.encode)
    (fits : start + archive.encode.length < 2 ^ 63)
    (quiet : ∀ x, start ≤ x → x < start + archive.encode.length → Quiet own x) :
    wp (initrdInit start archive.encode.length) s (fun _ s' =>
      Registered s' ((scanFiles start archive.members).take (initrdRoom free blocks)).reverse ∧
        Holds s'.mem start archive.encode ∧ ∃ own', InitrdMoves own s own' s') halt := by
  have length : archive.encode.length = (encodeAll archive.members).length + archive.trailing := by
    simp [Archive.encode]
  have few := length_le_encodeAll archive.members
  unfold initrdInit
  simp only [wp_bind, wp_modify]
  rw [wadd_of_lt (by omega)]
  have empty : InitrdState own free blocks [] { s with fileList := 0 } := state.initrd
  refine wp_mono (empty.walk aligned placed (by omega) fits quiet (by unfold loopBound; omega)) ?_ fun _ _ => id
  rintro _ s' ⟨own', free', blocks', entries, state', files, moves⟩
  exact ⟨⟨entries, by simpa using state'.chain, files⟩,
    placed.congr fun x low high => moves.bytes x (quiet x low high), own', moves.owner, moves.bytes, moves.globals⟩

/-- `initrd_init` of a standard archive, and then `initrd_find` of a file's
name: the contents of the last file with that name. -/
theorem initrd_round_trip (state : HeapState own free blocks s) {archive : Archive} {start : Nat}
    (names : ∀ m ∈ archive.files, m.name.length ≤ 62 ∧ m.name ≠ codes ['.'] ∧ m.name ≠ endName)
    (aligned : start % 4 = 0) (placed : Holds s.mem start archive.encode)
    (fits : start + archive.encode.length < 2 ^ 63)
    (quiet : ∀ x, start ≤ x → x < start + archive.encode.length → Quiet own x)
    (room : archive.files.length ≤ initrdRoom free blocks) :
    wp (initrdInit start archive.encode.length) s (fun _ s' =>
      ∀ before m after, archive.files = before ++ m :: after → (∀ m' ∈ after, m'.name ≠ m.name) →
        ∀ name, UserString s' name m.name → wp (initrdFind name) s' (fun found s'' =>
          found.1 = start + (encodeAll before).length + m.dataOffset ∧ found.2 = m.contents.length ∧
            Holds s''.mem found.1 m.contents) fun _ _ => False) fun _ _ => False := by
  refine wp_mono (initrdInit_archive state aligned placed fits quiet) ?_ fun _ _ => id
  rintro _ s' ⟨registered, still, _⟩ before m after split last name string
  have members : archive.members = before ++ (m :: (after ++ [archive.last])) := by
    simp [Archive.members, split]
  have few := length_le_encodeAll archive.members
  have count := scanFiles_length_le start archive.members
  have length : archive.encode.length = (encodeAll archive.members).length + archive.trailing := by
    simp [Archive.encode]
  refine wp_mono (initrdFind_spec registered (by
    rw [List.length_reverse, List.length_take]
    unfold loopBound
    omega) string) ?_ fun _ _ => id
  rintro _ s'' ⟨rfl, d, rfl⟩
  -- the newest entries are the closing member's and those of later files
  have notSkipped : ¬ Skipped m := by
    obtain ⟨short, notDot, _⟩ := names m (by simp [split])
    rintro (dot | long)
    · exact notDot dot
    · omega
  obtain ⟨pos, posIs⟩ : ∃ p, p = start + (encodeAll before).length := ⟨_, rfl⟩
  have posAligned : pos % 4 = 0 := by
    have := encodeAll_length_mod before
    omega
  have scanned : scanFiles start archive.members = (scanFiles start before ++ [memberFile pos m]) ++
      (scanFiles (pos + m.encode.length) after ++
        scanFiles (pos + m.encode.length + (encodeAll after).length) [archive.last]) := by
    rw [members, scanFiles_append, ← posIs, scanFiles, scanFiles_append, if_neg notSkipped]
    simp
  have kept : ∃ rest, (scanFiles start archive.members).take (initrdRoom free blocks) =
      (scanFiles start before ++ [memberFile pos m]) ++ rest ∧ ∀ f ∈ rest, f.name ≠ m.name := by
    have early := scanFiles_length_le start before
    have files : before.length + 1 + after.length = archive.files.length := by simp [split]; omega
    rw [scanned, List.take_append, List.take_of_length_le (by simp; omega)]
    refine ⟨_, rfl, fun f member same => ?_⟩
    rcases List.mem_append.mp (List.mem_of_mem_take member) with later | closing
    · obtain ⟨m', inside, is⟩ := scanFiles_name later
      exact last m' inside (is.symm.trans same)
    · obtain ⟨m', inside, is⟩ := scanFiles_name closing
      rw [List.mem_singleton.mp inside, archive.last_name] at is
      exact (names m (by simp [split])).2.2 (same.symm.trans is)
  obtain ⟨rest, shape, others⟩ := kept
  have found : lookup ((scanFiles start archive.members).take (initrdRoom free blocks)).reverse m.name =
      (pos + m.dataOffset, m.contents.length) := by
    rw [shape, List.reverse_append, lookup_append fun f member => others f (List.mem_reverse.mp member),
      List.reverse_append, List.reverse_singleton, List.singleton_append]
    exact lookup_cons_self.trans (Prod.ext (dataPos_aligned posAligned) rfl)
  rw [found]
  refine ⟨by rw [posIs], rfl, ?_⟩
  -- the contents lie there in the archive, which nothing has written to
  have parts : archive.encode = encodeAll before ++ (m.encode ++ (encodeAll after ++
      (archive.last.encode ++ List.replicate archive.trailing 0))) := by
    simp [Archive.encode, members, encodeAll]
  rw [parts] at still
  have here := (holds_append.mp (holds_append.mp still).2).1
  rw [← posIs] at here
  exact (Member.holds_encode here).2.2

end

/-! ### A concrete archive -/

section

attribute [local instance] Layout.sample

/-- One file, `a`, with two bytes, and the closing member. -/
def sampleArchive : Archive where
  files := [{
    header := plainHeader [48, 48, 48, 48, 48, 48, 48, 50] [48, 48, 48, 48, 48, 48, 48, 50]
    name := [97]
    contents := [104, 105]
    header_length := by decide
    header_magic := by decide
    filesize := by decide
    namesize := by decide
    name_plain := by decide
    name_nonempty := by decide }]
  last := {
    header := plainHeader [48, 48, 48, 48, 48, 48, 48, 48] [48, 48, 48, 48, 48, 48, 48, 66]
    name := endName
    contents := []
    header_length := by decide
    header_magic := by decide
    filesize := by decide
    namesize := by decide
    name_plain := by decide
    name_nonempty := by decide }
  trailing := 0
  last_name := rfl
  last_empty := rfl

theorem sampleArchive_length : sampleArchive.encode.length = 240 := by decide +kernel

/-- A page table with one entry, which maps the gigabyte of RAM to itself, and
three strings. -/
def sampleMem : Mem :=
  lay (lay (lay (lay (fun _ => 0) 0x80230010 [0x0f, 0, 0, 0x20, 0, 0, 0, 0]) 0x80240000 [97, 0])
    0x80240010 (endName ++ [0])) 0x80240020 [98, 0]

/-- A gigabyte entry for RAM translates its addresses to themselves. -/
theorem sv39_ram {mem : Mem} {root va : Nat} (entry : mem.load (root + 16) 8 = 0x2000000f)
    (ram : 0x80000000 ≤ va ∧ va < 0xc0000000) : sv39 mem root va .read = some va := by
  have index : vpnIndex 2 va = 2 := by
    unfold vpnIndex
    rw [show (0x1ff : Nat) = 2 ^ 9 - 1 from rfl, and_low, Nat.shiftRight_eq_div_pow]
    omega
  have walk : sv39From mem va .read 2 root = some (0x80000000 + va % 2 ^ 30) := by
    rw [sv39From]
    simp only [Nat.reduceAdd, index, Nat.reduceMul, entry]
    have flags : ptePresent 0x2000000f = true ∧ pteLeaf 0x2000000f = true ∧
        Access.read.grants 0x2000000f = true ∧ pteToPa 0x2000000f = 0x80000000 := by decide
    simp [flags]
  unfold sv39
  rw [if_pos (.inl (by omega))]
  refine walk.trans (congrArg some ?_)
  omega

/-- A C string in RAM is readable there. -/
theorem userString_ram {s : Kernel} {a : Nat} {text : List UInt8}
    (entry : s.mem.load (s.satpRoot + 16) 8 = 0x2000000f) (string : CString s.mem a text)
    (ram : 0x80000000 ≤ a ∧ a + text.length < 0x88000000) : UserString s a text := by
  have plain : ∀ x, 0x80000000 ≤ x → isUart x = false := fun x above => by
    simp only [isUart, uartBase, pageSize, Bool.and_eq_false_iff, decide_eq_false_iff_not]
    omega
  induction text generalizing a with
  | nil => exact ⟨a, sv39_ram entry (by omega), plain a ram.1, string.stop⟩
  | cons char rest ih =>
      obtain ⟨here, nonzero, later⟩ := string.cons
      rw [List.length_cons] at ram
      refine ⟨nonzero, ⟨a, sv39_ram entry (by omega), plain a ram.1, here⟩, ?_⟩
      rw [wadd_of_lt (by omega)]
      exact ih later (by omega)

/-- After `page_init` on memory with bytes put where the linker puts the
archive. -/
theorem sample_boot (start : Nat) (bytes : List UInt8) : ∃ free s, HeapState startOwner free [] s ∧
    free.length = 31744 ∧ s.satpRoot = 0x80230000 ∧
      ∀ x, 0x80210000 ≤ x → x < 0x80400000 → s.mem x = lay sampleMem start bytes x := by
  obtain ⟨_, s, _, free, state, count, moves, _⟩ := wp_total (pageInit_heapState
    (s := { Kernel.blank with mem := lay sampleMem start bytes, satpRoot := 0x80230000 }) rfl rfl)
  refine ⟨free, s, state, count, by rw [moves.globals], fun x low high => moves.bytes x (fun page => ?_) fun inside => ?_⟩
  · have := page.2.1
    unfold pageOf at this
    simp only [Layout.kernelEnd] at this
    omega
  · simp only [node, Set.mem_ofPred_eq, Layout.freePageList] at inside
    omega

/-- A start with the sample at an address. -/
theorem sample_start (start : Nat) (low : 0x80220000 ≤ start) (high : start ≤ 0x80220100) :
    ∃ free s, HeapState startOwner free [] s ∧ initrdRoom free [] = 888832 ∧
      Holds s.mem start sampleArchive.encode ∧ start + sampleArchive.encode.length < 2 ^ 63 ∧
      (∀ x, start ≤ x → x < start + sampleArchive.encode.length → Quiet startOwner x) ∧
      ∀ own' s', InitrdMoves startOwner s own' s' →
        UserString s' 0x80240000 [97] ∧ UserString s' 0x80240010 endName ∧ UserString s' 0x80240020 [98] := by
  obtain ⟨free, s, state, count, root, bytes⟩ := sample_boot start sampleArchive.encode
  have length := sampleArchive_length
  have quiet : ∀ x, 0x80210000 ≤ x → x < 0x80400000 → Quiet startOwner x := fun x low high =>
    quiet_of_image state.pool high (.inr (by simp only [Layout.freePageList]; omega))
  refine ⟨free, s, state, ?_, ?_, by omega, fun x above below => quiet x (by omega) (by omega),
    fun own' s' moves => ?_⟩
  · simp [initrdRoom, heapRoom, count]
    decide
  · exact holds_lay.congr fun x low high => bytes x (by omega) (by omega)
  · have same : ∀ x, 0x80230000 ≤ x → x < 0x80400000 → s'.mem x = sampleMem x := fun x low high => by
      rw [moves.bytes x (quiet x (by omega) high), bytes x (by omega) high]
      exact lay_of_outside (.inr (by omega))
    have entry : s'.mem.load (s'.satpRoot + 16) 8 = 0x2000000f := by
      have here : s'.satpRoot = 0x80230000 := by rw [moves.globals]; exact root
      rw [here, Mem.load_congr fun x low high => same x (by omega) (by omega)]
      decide
    have string : ∀ a text, 0x80240000 ≤ a → a + text.length < 0x80300000 → 0 ∉ text →
        Holds sampleMem a (text ++ [0]) → UserString s' a text := fun a text low high plain holds =>
      userString_ram entry ⟨plain, holds.congr fun x above below => same x (by omega) (by
        rw [List.length_append, List.length_singleton] at below
        omega)⟩ (by omega)
    exact ⟨string _ _ (by omega) (by decide) (by decide) (holds_iff.mpr (by decide)),
      string _ _ (by omega) (by decide) (by decide) (holds_iff.mpr (by decide)),
      string _ _ (by omega) (by decide) (by decide) (holds_iff.mpr (by decide))⟩

/-- The file of the sample is found. -/
theorem initrd_round_trip_sample : ∃ s s' found s'',
    initrdInit 0x80220000 240 s = .ok () s' ∧ initrdFind 0x80240000 s' = .ok found s'' ∧
      found = (0x80220070, 2) ∧ Holds s''.mem found.1 [104, 105] := by
  obtain ⟨free, s, state, room, placed, fits, quiet, strings⟩ := sample_start 0x80220000 (by decide) (by decide)
  have length := sampleArchive_length
  obtain ⟨_, s', init, find, _, _, own', moves⟩ := wp_total (wp_mono (wp_and
    (initrd_round_trip state (by decide) (by decide) placed fits quiet
      (show 1 ≤ initrdRoom free [] by omega))
    (initrdInit_archive state (by decide) placed fits quiet))
    (fun _ _ => id) fun _ _ (both : False ∧ False) => both.1)
  rw [length] at init
  obtain ⟨found, s'', returned, address, size, contents⟩ := wp_total
    (find [] _ [] rfl (by simp) 0x80240000 (strings own' s' moves).1)
  exact ⟨s, s', found, s'', init, returned, Prod.ext (address.trans (by decide)) (size.trans (by decide)), contents⟩

end

section

variable [Layout] {own : Nat → Owner} {free : List Nat} {blocks : List Block} {s : Kernel}

/-- `initrd_init` of a standard archive, and then `initrd_find` of a name that
no file in it has: the search fails exactly when the name is not that of the
closing member, or there was no room for an entry of it. -/
theorem initrd_finds_unarchived_iff (state : HeapState own free blocks s) {archive : Archive} {start : Nat}
    (aligned : start % 4 = 0) (placed : Holds s.mem start archive.encode)
    (fits : start + archive.encode.length < 2 ^ 63)
    (quiet : ∀ x, start ≤ x → x < start + archive.encode.length → Quiet own x) :
    wp (initrdInit start archive.encode.length) s (fun _ s' =>
      ∀ text, (∀ m ∈ archive.files, m.name ≠ text) → ∀ name, UserString s' name text →
        (wp (initrdFind name) s' (fun found _ => found.1 = 0) (fun _ _ => False) ↔
          text ≠ endName ∨ initrdRoom free blocks ≤ (archive.files.filter (¬ Skipped ·)).length))
      fun _ _ => False := by
  refine wp_mono (initrdInit_archive state aligned placed fits quiet) ?_ fun _ _ => id
  rintro _ s' ⟨registered, _⟩ text unarchived name string
  have few := length_le_encodeAll archive.members
  have count := scanFiles_length_le start archive.members
  have length : archive.encode.length = (encodeAll archive.members).length + archive.trailing := by
    simp [Archive.encode]
  have search : wp (initrdFind name) _ _ fun _ _ => False := initrdFind_spec registered (by
    rw [List.length_reverse, List.length_take]
    unfold loopBound
    omega) string
  refine (wp_result_iff search).trans ?_
  obtain ⟨pos, posIs⟩ : ∃ p, p = start + (encodeAll archive.files).length := ⟨_, rfl⟩
  have scanned : scanFiles start archive.members =
      scanFiles start archive.files ++ [memberFile pos archive.last] := by
    rw [Archive.members, scanFiles_append, ← posIs, scanFiles, if_neg (last_notSkipped archive)]
    rfl
  have others : ∀ f ∈ scanFiles start archive.files, f.name ≠ text := fun f member same => by
    obtain ⟨m, inside, is⟩ := scanFiles_name member
    exact unarchived m inside (is.symm.trans same)
  have none : ∀ xs : List InitrdFile, (∀ f ∈ xs, f.name ≠ text) → lookup xs text = (0, 0) := fun xs away => by
    rw [← List.append_nil xs, lookup_append away]
    rfl
  rw [scanned, ← scanFiles_length start archive.files]
  by_cases full : initrdRoom free blocks ≤ (scanFiles start archive.files).length
  · rw [List.take_append_of_le_length full, none _ fun f member =>
      others f (List.mem_of_mem_take (List.mem_reverse.mp member))]
    simp [full]
  · rw [List.take_of_length_le (by simp; omega), List.reverse_append, List.reverse_singleton,
      List.singleton_append]
    by_cases isEnd : text = endName
    · have here : (memberFile pos archive.last).name = text := archive.last_name.trans isEnd.symm
      have found := @lookup_cons_self (memberFile pos archive.last) (scanFiles start archive.files).reverse
      rw [here] at found
      have nonzero : (memberFile pos archive.last).data ≠ 0 := by
        simp only [memberFile, dataPos, roundUp, headerSize]
        omega
      rw [found]
      simp [full, isEnd, nonzero]
    · have away : ∀ f ∈ memberFile pos archive.last :: (scanFiles start archive.files).reverse, f.name ≠ text := by
        intro f member
        rcases List.mem_cons.mp member with rfl | earlier
        · exact fun same => isEnd (same.symm.trans archive.last_name)
        · exact others f (List.mem_reverse.mp earlier)
      rw [none _ away]
      simp [isEnd]

end

section

attribute [local instance] Layout.sample

/-- A name that no file of the sample has is not found. -/
theorem initrd_finds_unarchived_sample : ∃ s s' found s'',
    initrdInit 0x80220000 240 s = .ok () s' ∧ initrdFind 0x80240020 s' = .ok found s'' ∧ found.1 = 0 := by
  obtain ⟨free, s, state, room, placed, fits, quiet, strings⟩ := sample_start 0x80220000 (by decide) (by decide)
  have length := sampleArchive_length
  obtain ⟨_, s', init, find, _, _, own', moves⟩ := wp_total (wp_mono (wp_and
    (initrd_finds_unarchived_iff state (by decide) placed fits quiet)
    (initrdInit_archive state (by decide) placed fits quiet))
    (fun _ _ => id) fun _ _ (both : False ∧ False) => both.1)
  rw [length] at init
  obtain ⟨found, s'', returned, none⟩ := wp_total
    ((find [98] (by decide) 0x80240020 (strings own' s' moves).2.2).mpr (.inl (by decide)))
  exact ⟨s, s', found, s'', init, returned, none⟩

/-- The name of the closing member of the sample is found, though no file has
it. -/
theorem initrd_finds_closing_member : ∃ free s s' found s'', HeapState startOwner free [] s ∧
    Holds s.mem 0x80220000 sampleArchive.encode ∧ initrdInit 0x80220000 240 s = .ok () s' ∧ (∀ m ∈ sampleArchive.files, m.name ≠ endName) ∧
      UserString s' 0x80240010 endName ∧ initrdFind 0x80240010 s' = .ok found s'' ∧ found.1 ≠ 0 := by
  obtain ⟨free, s, state, room, placed, fits, quiet, strings⟩ := sample_start 0x80220000 (by decide) (by decide)
  have length := sampleArchive_length
  obtain ⟨_, s', init, registered, _, own', moves⟩ := wp_total
    (initrdInit_archive state (by decide) placed fits quiet)
  rw [length] at init
  have all : (scanFiles 0x80220000 sampleArchive.members).take (initrdRoom free []) =
      scanFiles 0x80220000 sampleArchive.members :=
    List.take_of_length_le (by rw [room]; decide)
  rw [all] at registered
  obtain ⟨found, s'', returned, is, _⟩ := wp_total (initrdFind_spec registered
    (by decide) (strings own' s' moves).2.1)
  refine ⟨free, s, s', found, s'', state, placed, init, by decide, (strings own' s' moves).2.1, returned, ?_⟩
  rw [is]
  decide +kernel

end

end KuroOS
