import KuroOS.Initrd.Archive

/-!
# Where the archive is placed

`initrd_init` rounds addresses, the format pads offsets. At an address that is
no multiple of 4 the two disagree: behind the first member the loop looks
between the bytes of a header or in the padding before it, finds no header
there, and stops. So what is registered depends on the address modulo 4, and
agrees for different remainders only when nothing is registered.
-/

namespace KuroOS

open Base Newc

variable {mem : Mem} {pos : Nat} {m : Member} {rest : List Member} {count : Nat}

/-- Behind a member comes another header, or NULs up to the end. -/
theorem behind_member (holds : Holds mem pos (m.encode ++ (encodeAll rest ++ List.replicate count 0))) :
    Holds mem (pos + m.encode.length) magic ∨ ∀ x, pos + m.encode.length ≤ x →
      x < pos + m.encode.length + (encodeAll rest).length + count → mem x = 0 := by
  have later := (holds_append.mp holds).2
  cases rest with
  | nil =>
      refine .inr fun x low high => ?_
      simp only [encodeAll, List.flatMap_nil, List.nil_append, List.length_nil] at later high
      have here := holds_iff.mp later (x - (pos + m.encode.length)) (by rw [List.length_replicate]; omega)
      rw [List.getElem_replicate] at here
      rwa [show pos + m.encode.length + (x - (pos + m.encode.length)) = x by omega] at here
  | cons next rest =>
      rw [encodeAll, List.flatMap_cons, List.append_assoc] at later
      have header := (Member.holds_encode (holds_append.mp later).1).1.slice 0 6
      rw [List.drop_zero, next.header_magic] at header
      exact .inl header

/-- The last byte of a member whose contents are padded is a NUL. -/
theorem padded_end (holds : Holds mem pos m.encode) (padded : m.contents.length % 4 ≠ 0) :
    mem (pos + m.encode.length - 1) = 0 := by
  have length := m.encode_length
  obtain ⟨_, inner⟩ := holds_append.mp holds
  obtain ⟨_, inner⟩ := holds_append.mp inner
  obtain ⟨_, pads⟩ := holds_append.mp inner
  unfold Member.dataOffset at length
  rw [← m.header_length] at length
  have here := holds_iff.mp pads ((4 - m.contents.length % 4) % 4 - 1) (by
    simp only [pad, List.length_replicate]
    omega)
  simp only [pad, List.getElem_replicate] at here
  rwa [show pos + m.header.length + m.nameField.length + m.contents.length +
    ((4 - m.contents.length % 4) % 4 - 1) = pos + m.encode.length - 1 by omega] at here

/-- From a position that is no multiple of 4, the loop finds no header behind a
member. -/
theorem stray_header (holds : Holds mem pos (m.encode ++ (encodeAll rest ++ List.replicate count 0)))
    (stray : pos % 4 ≠ 0)
    (inside : nextPos pos m + 110 ≤ pos + m.encode.length + (encodeAll rest).length + count) :
    hasText mem (nextPos pos m) ['0', '7', '0', '7', '0', '1'] = false := by
  rw [Bool.eq_false_iff]
  intro found
  obtain ⟨n, next⟩ : ∃ n, n = nextPos pos m := ⟨_, rfl⟩
  obtain ⟨N, true'⟩ : ∃ N, N = pos + m.encode.length := ⟨_, rfl⟩
  obtain ⟨m0, m1, m2, m3, m4, m5, _⟩ : Holds mem n [48, 55, 48, 55, 48, 49] := next ▸ hasText_iff.mp found
  have padding := padded_end (holds_append.mp holds).1
  have behind := behind_member holds
  rw [← next] at inside
  rw [← true'] at padding behind inside
  have clash : ∀ {x y : Nat} {a b : UInt8}, mem x = a → mem y = b → x = y → a = b :=
    fun first second same => first.symm.trans (same ▸ second)
  -- the two positions are at most 6 apart, and not congruent
  have length := m.encode_length
  have dataAt := m.dataOffset_eq
  have header : headerSize = 110 := rfl
  have cases : n = N + 1 ∨ n = N + 2 ∨ n = N + 3 ∨ n = N + 5 ∨ (m.contents.length % 4 ≠ 0 ∧ n < N ∧ N ≤ n + 6) ∨
      N = n + 1 ∨ N = n + 2 ∨ N = n + 3 := by
    unfold nextPos dataPos roundUp at next
    omega
  -- no character of the magic number is a NUL, so none stands in the padding
  have noPadding : m.contents.length % 4 ≠ 0 → n < N → N ≤ n + 6 → False := by
    intro padded low high
    have zero := padding padded
    rcases (by omega : N - 1 = n ∨ N - 1 = n + 1 ∨ N - 1 = n + 1 + 1 ∨ N - 1 = n + 1 + 1 + 1 ∨
      N - 1 = n + 1 + 1 + 1 + 1 ∨ N - 1 = n + 1 + 1 + 1 + 1 + 1) with at' | at' | at' | at' | at' | at'
    · exact absurd (clash zero m0 at') (by decide)
    · exact absurd (clash zero m1 at') (by decide)
    · exact absurd (clash zero m2 at') (by decide)
    · exact absurd (clash zero m3 at') (by decide)
    · exact absurd (clash zero m4 at') (by decide)
    · exact absurd (clash zero m5 at') (by decide)
  rcases behind with ⟨h0, h1, h2, h3, h4, h5, _⟩ | zeros
  · rcases cases with at' | at' | at' | at' | ⟨padded, low, high⟩ | at' | at' | at'
    · exact absurd (clash m0 h1 (by omega)) (by decide)
    · exact absurd (clash m3 h5 (by omega)) (by decide)
    · exact absurd (clash m0 h3 (by omega)) (by decide)
    · exact absurd (clash m0 h5 (by omega)) (by decide)
    · exact noPadding padded low high
    · exact absurd (clash m1 h0 (by omega)) (by decide)
    · exact absurd (clash m5 h3 (by omega)) (by decide)
    · exact absurd (clash m3 h0 (by omega)) (by decide)
  · have noHeader : ∀ {x : Nat} {a : UInt8}, mem x = a → N ≤ x → x < n + 110 → a = 0 := fun here low high =>
      here.symm.trans (zeros _ low (by omega))
    rcases Nat.lt_or_ge n N with before | behind
    · rcases (by omega : N ≤ n + 1 + 1 + 1 ∨ m.contents.length % 4 ≠ 0) with near | padded
      · exact absurd (noHeader m3 near (by omega)) (by decide)
      · exact noPadding padded before (by omega)
    · exact absurd (noHeader m0 behind (by omega)) (by decide)

/-- The files that `initrd_init` registers for an archive, in their order. -/
def placedFiles (start : Nat) (archive : Archive) : List InitrdFile :=
  if start % 4 = 0 then scanFiles start archive.members
  else (archive.members.head?.toList.filter (¬ Skipped ·)).map (memberFile start)

/-- A file as seen from the start of the archive: name, size, and where the
contents lie. -/
def InitrdFile.relative (start : Nat) (f : InitrdFile) : List UInt8 × Nat × Int :=
  (f.name, f.size, (f.data : Int) - start)

/-- Contents are always looked for at a multiple of 4. -/
theorem placedFiles_data {start : Nat} {archive : Archive} {f : InitrdFile}
    (member : f ∈ placedFiles start archive) : f.data % 4 = 0 := by
  have rounded : ∀ pos m, (memberFile pos m).data % 4 = 0 := fun pos m => Nat.mul_mod_left _ 4
  unfold placedFiles at member
  split at member
  · generalize start = pos, archive.members = members at member
    induction members generalizing pos with
    | nil => simp [scanFiles] at member
    | cons m rest ih =>
        rcases List.mem_append.mp member with here | later
        · split at here
          · simp at here
          · rw [List.mem_singleton.mp here]
            exact rounded _ _
        · exact ih _ later
  · obtain ⟨m, _, rfl⟩ := List.mem_map.mp member
    exact rounded _ _

/-- Nothing is registered when the address is no multiple of 4 and the first
member is skipped. -/
theorem placedFiles_nil {start : Nat} {archive : Archive} :
    placedFiles start archive = [] ↔ start % 4 ≠ 0 ∧ ∃ m, archive.members.head? = some m ∧ Skipped m := by
  obtain ⟨first, rest, shape⟩ : ∃ first rest, archive.members = first :: rest := by
    cases files : archive.files with
    | nil => exact ⟨_, [], by rw [Archive.members, files]; rfl⟩
    | cons m rest => exact ⟨m, rest ++ [archive.last], by rw [Archive.members, files]; rfl⟩
  unfold placedFiles
  split
  · next aligned =>
      have last := last_notSkipped archive
      simp [aligned, Archive.members, scanFiles_append, scanFiles, last]
  · next stray => simp [stray, shape]

/-- Two addresses that agree modulo 4 give the same files. -/
theorem placedFiles_relative {a b : Nat} (same : a % 4 = b % 4) (archive : Archive) :
    (placedFiles a archive).map (InitrdFile.relative a) = (placedFiles b archive).map (InitrdFile.relative b) := by
  unfold placedFiles
  rw [same]
  split
  · next aligned =>
      have shifted : ∀ members offset, offset % 4 = 0 →
          (scanFiles (a + offset) members).map (InitrdFile.relative a) =
            (scanFiles (b + offset) members).map (InitrdFile.relative b) := by
        intro members
        induction members with
        | nil => intro _ _; rfl
        | cons m rest ih =>
            intro offset multiple
            have mod := m.encode_length_mod
            have later := ih (offset + m.encode.length) (by omega)
            rw [← Nat.add_assoc, ← Nat.add_assoc] at later
            rw [scanFiles, scanFiles, List.map_append, List.map_append, later]
            split
            · rfl
            · simp only [List.map_cons, List.map_nil, InitrdFile.relative, memberFile]
              rw [dataPos_aligned (by omega), dataPos_aligned (by omega)]
              have offsets : ((a + offset + m.dataOffset : Nat) : Int) - a =
                  ((b + offset + m.dataOffset : Nat) : Int) - b := by omega
              rw [offsets]
      exact shifted archive.members 0 rfl
  · rw [List.map_map, List.map_map]
    refine List.map_congr_left fun m _ => ?_
    have offsets : ((dataPos a m : Nat) : Int) - a = ((dataPos b m : Nat) : Int) - b := by
      unfold dataPos roundUp
      omega
    simp only [Function.comp_apply, InitrdFile.relative, memberFile, offsets]

section

variable [Layout] {own₁ own₂ : Nat → Owner} {free₁ free₂ : List Nat} {blocks₁ blocks₂ : List Block}
  {s₁ s₂ : Kernel} {halt : Halt → Kernel → Prop}

/-- `initrd_init` on an archive at any address. -/
theorem initrdInit_placed (state : HeapState own₁ free₁ blocks₁ s₁) {archive : Archive} {start : Nat}
    (placed : Holds s₁.mem start archive.encode) (fits : start + archive.encode.length < 2 ^ 63)
    (quiet : ∀ x, start ≤ x → x < start + archive.encode.length → Quiet own₁ x) :
    wp (initrdInit start archive.encode.length) s₁ (fun _ s' =>
      Registered s' ((placedFiles start archive).take (initrdRoom free₁ blocks₁)).reverse) halt := by
  by_cases aligned : start % 4 = 0
  · unfold placedFiles
    rw [if_pos aligned]
    exact wp_mono (initrdInit_archive state aligned placed fits quiet) (fun _ _ => And.left) fun _ _ => id
  have length : archive.encode.length = (encodeAll archive.members).length + archive.trailing := by
    simp [Archive.encode]
  obtain ⟨m, rest, shape⟩ : ∃ first rest, archive.members = first :: rest := by
    cases files : archive.files with
    | nil => exact ⟨_, [], by rw [Archive.members, files]; rfl⟩
    | cons m rest => exact ⟨m, rest ++ [archive.last], by rw [Archive.members, files]; rfl⟩
  have split : (encodeAll archive.members).length = m.encode.length + (encodeAll rest).length := by
    rw [shape, encodeAll, List.flatMap_cons, List.length_append]
    rfl
  rw [Archive.encode, shape, encodeAll, List.flatMap_cons, List.append_assoc] at placed
  have here := (holds_append.mp placed).1
  have encoded := m.encode_length
  have dataAt := m.dataOffset_eq
  have header : headerSize = 110 := rfl
  have near : nextPos start m < start + m.encode.length + 7 := by
    unfold nextPos dataPos roundUp
    omega
  unfold initrdInit
  simp only [wp_bind, wp_modify]
  rw [wadd_of_lt (by omega)]
  have empty : InitrdState own₁ free₁ blocks₁ [] { s₁ with fileList := 0 } := state.initrd
  obtain ⟨fuel, bound⟩ : ∃ f, loopBound = f + 1 + 1 := ⟨loopBound - 2, rfl⟩
  rw [bound]
  refine wp_mono (empty.round here (by omega) quiet (by omega) (by unfold dataPos roundUp; omega) [] ?_) ?_
    fun _ _ => id
  · intro own' free' blocks' entries' s' state' moves
    refine initrdLoop_end ?_ (.none state' (.inl rfl))
    by_cases past : nextPos start m + 110 ≤ start + archive.encode.length
    · have still : Holds s'.mem start (m.encode ++ (encodeAll rest ++ List.replicate archive.trailing 0)) :=
        placed.congr fun x low high => moves.bytes x (quiet x low (by
          simp only [List.length_append, List.length_replicate] at high
          have total : (List.flatMap Member.encode rest).length = (encodeAll rest).length := rfl
          omega))
      exact .inr (stray_header still aligned (by omega))
    · left
      simp only [cpioHeaderSize]
      rw [wadd_of_lt (by omega)]
      omega
  · rintro _ s' ⟨own', free', blocks', entries, state', files, _⟩
    refine ⟨entries, by simpa using state'.chain, files.trans ?_⟩
    unfold placedFiles
    rw [if_neg aligned, shape]
    by_cases skip : Skipped m <;> simp [skip]

/-- `initrd_init` on the same archive at two addresses, with room for as many
entries: it registers the same names, sizes and offsets exactly when the
addresses agree modulo 4, or nothing is registered at either. -/
theorem initrd_placement_iff {archive : Archive} {a b : Nat}
    (state₁ : HeapState own₁ free₁ blocks₁ s₁) (placed₁ : Holds s₁.mem a archive.encode)
    (fits₁ : a + archive.encode.length < 2 ^ 63)
    (quiet₁ : ∀ x, a ≤ x → x < a + archive.encode.length → Quiet own₁ x)
    (state₂ : HeapState own₂ free₂ blocks₂ s₂) (placed₂ : Holds s₂.mem b archive.encode)
    (fits₂ : b + archive.encode.length < 2 ^ 63)
    (quiet₂ : ∀ x, b ≤ x → x < b + archive.encode.length → Quiet own₂ x)
    (room : initrdRoom free₁ blocks₁ = initrdRoom free₂ blocks₂) :
    wp (initrdInit a archive.encode.length) s₁ (fun _ t₁ => wp (initrdInit b archive.encode.length) s₂
      (fun _ t₂ => ∃ files₁ files₂, Registered t₁ files₁ ∧ Registered t₂ files₂ ∧
        (files₁.map (InitrdFile.relative a) = files₂.map (InitrdFile.relative b) ↔
          a % 4 = b % 4 ∨ initrdRoom free₁ blocks₁ = 0 ∨
            (a % 4 ≠ 0 ∧ b % 4 ≠ 0 ∧ ∃ m, archive.members.head? = some m ∧ Skipped m)))
      fun _ _ => False) fun _ _ => False := by
  refine wp_mono (initrdInit_placed state₁ placed₁ fits₁ quiet₁) ?_ fun _ _ => id
  intro _ t₁ registered₁
  refine wp_mono (initrdInit_placed state₂ placed₂ fits₂ quiet₂) ?_ fun _ _ => id
  intro _ t₂ registered₂
  refine ⟨_, _, registered₁, registered₂, ?_⟩
  rw [← room]
  generalize initrdRoom free₁ blocks₁ = count
  rw [List.map_reverse, List.map_reverse, List.reverse_inj, List.map_take, List.map_take]
  constructor
  · intro same
    rcases count with _ | count
    · exact .inr (.inl rfl)
    cases files₁ : placedFiles a archive with
    | nil =>
        cases files₂ : placedFiles b archive with
        | nil =>
            obtain ⟨strayA, skipped⟩ := placedFiles_nil.mp files₁
            exact .inr (.inr ⟨strayA, (placedFiles_nil.mp files₂).1, skipped⟩)
        | cons g rest => simp [files₁, files₂] at same
    | cons f rest =>
        cases files₂ : placedFiles b archive with
        | nil => simp [files₁, files₂] at same
        | cons g rest' =>
            -- both first files lie at multiples of 4
            have first := placedFiles_data (files₁ ▸ List.mem_cons_self : f ∈ placedFiles a archive)
            have second := placedFiles_data (files₂ ▸ List.mem_cons_self : g ∈ placedFiles b archive)
            rw [files₁, files₂] at same
            simp only [List.map_cons, List.take_succ_cons, List.cons.injEq, InitrdFile.relative,
              Prod.mk.injEq] at same
            omega
  · rintro (congruent | rfl | ⟨strayA, strayB, skipped⟩)
    · rw [placedFiles_relative congruent]
    · rfl
    · rw [placedFiles_nil.mpr ⟨strayA, skipped⟩, placedFiles_nil.mpr ⟨strayB, skipped⟩]
      rfl

end

section

attribute [local instance] Layout.sample

/-- The sample at two addresses that agree modulo 4. -/
theorem initrd_placement_sample : ∃ s₁ t₁ s₂ t₂ files₁ files₂,
    initrdInit 0x80220000 240 s₁ = .ok () t₁ ∧ initrdInit 0x80220004 240 s₂ = .ok () t₂ ∧
      Registered t₁ files₁ ∧ Registered t₂ files₂ ∧
      files₁.map (InitrdFile.relative 0x80220000) = files₂.map (InitrdFile.relative 0x80220004) := by
  obtain ⟨_, s₁, state₁, room₁, placed₁, fits₁, quiet₁, _⟩ := sample_start 0x80220000 (by decide) (by decide)
  obtain ⟨_, s₂, state₂, room₂, placed₂, fits₂, quiet₂, _⟩ := sample_start 0x80220004 (by decide) (by decide)
  obtain ⟨_, t₁, init₁, second⟩ := wp_total (initrd_placement_iff state₁ placed₁ fits₁ quiet₁ state₂ placed₂
    fits₂ quiet₂ (room₁.trans room₂.symm))
  obtain ⟨_, t₂, init₂, files₁, files₂, registered₁, registered₂, same⟩ := wp_total second
  rw [sampleArchive_length] at init₁ init₂
  exact ⟨s₁, t₁, s₂, t₂, files₁, files₂, init₁, init₂, registered₁, registered₂, same.mpr (.inl rfl)⟩

/-- The sample at two neighbouring addresses: at the second, the file is
registered three bytes further from the start and the closing member not at all. -/
theorem initrd_placement_differs : ∃ free₁ s₁ t₁ free₂ s₂ t₂ files₁ files₂,
    HeapState startOwner free₁ [] s₁ ∧ HeapState startOwner free₂ [] s₂ ∧
    initrdInit 0x80220000 240 s₁ = .ok () t₁ ∧ initrdInit 0x80220001 240 s₂ = .ok () t₂ ∧
      Holds s₁.mem 0x80220000 sampleArchive.encode ∧ Holds s₂.mem 0x80220001 sampleArchive.encode ∧
      Registered t₁ files₁ ∧ Registered t₂ files₂ ∧
      files₁.map (InitrdFile.relative 0x80220000) ≠ files₂.map (InitrdFile.relative 0x80220001) := by
  obtain ⟨free₁, s₁, state₁, room₁, placed₁, fits₁, quiet₁, _⟩ := sample_start 0x80220000 (by decide) (by decide)
  obtain ⟨free₂, s₂, state₂, room₂, placed₂, fits₂, quiet₂, _⟩ := sample_start 0x80220001 (by decide) (by decide)
  obtain ⟨_, t₁, init₁, registered₁⟩ := wp_total
    (initrdInit_placed state₁ placed₁ fits₁ quiet₁)
  obtain ⟨_, t₂, init₂, registered₂⟩ := wp_total
    (initrdInit_placed state₂ placed₂ fits₂ quiet₂)
  rw [sampleArchive_length] at init₁ init₂
  rw [room₁, List.take_of_length_le (by decide +kernel)] at registered₁
  rw [room₂, List.take_of_length_le (by decide +kernel)] at registered₂
  exact ⟨free₁, s₁, t₁, free₂, s₂, t₂, _, _, state₁, state₂, init₁, init₂, placed₁, placed₂, registered₁,
    registered₂, by decide +kernel⟩

end

end KuroOS
