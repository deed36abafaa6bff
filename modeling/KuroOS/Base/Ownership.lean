import KuroOS.Base.Bytes

/-!
# Ownership of memory cells

Memory is divided into cells, and every cell has one owner. `Moves` is what a
run of a program may do to both: cells pass only between the owners in `C`, and
bytes change only in cells whose owner is in `W`, or in a fixed `extra` region.
It is reflexive and transitive, so a program made of many small steps needs no
account of their order. What belongs to an owner outside `C` and `W` is
untouched by all of them.
-/

namespace KuroOS.Base

variable {κ ω : Type}

/-- Cells pass between owners in `C`; bytes change in cells owned by `W`, or in
`extra`. -/
structure Moves (cell : Nat → κ) (extra : Set Nat) (C W : Set ω) (own : κ → ω) (mem : Mem)
    (own' : κ → ω) (mem' : Mem) : Prop where
  owner : ∀ p, own' p = own p ∨ (own p ∈ C ∧ own' p ∈ C)
  closed : ∀ p, own p ∉ W → own' p ∉ W
  bytes : ∀ x, own (cell x) ∉ W → x ∉ extra → mem' x = mem x

namespace Moves

variable {cell : Nat → κ} {extra : Set Nat} {C C' W W' : Set ω}
  {own own' own'' : κ → ω} {mem mem' mem'' : Mem}

theorem refl : Moves cell extra C W own mem own mem :=
  ⟨fun _ => .inl rfl, fun _ h => h, fun _ _ _ => rfl⟩

theorem trans (first : Moves cell extra C W own mem own' mem')
    (second : Moves cell extra C W own' mem' own'' mem'') :
    Moves cell extra C W own mem own'' mem'' where
  owner p := by
    rcases first.owner p with same | ⟨here, there⟩
    · rw [← same]
      exact second.owner p
    · rcases second.owner p with same | ⟨_, later⟩
      · exact .inr ⟨here, same ▸ there⟩
      · exact .inr ⟨here, later⟩
  closed p outside := second.closed p (first.closed p outside)
  bytes x outside plain :=
    (second.bytes x (first.closed _ outside) plain).trans (first.bytes x outside plain)

/-- Enlarging both sets, when every owner that may change hands may be written. -/
theorem mono (moves : Moves cell extra C W own mem own' mem') (subC : C ⊆ C') (subW : W ⊆ W')
    (covered : C ⊆ W') : Moves cell extra C' W' own mem own' mem' where
  owner p := (moves.owner p).imp id fun both => ⟨subC both.1, subC both.2⟩
  closed p outside := by
    rcases moves.owner p with same | ⟨here, _⟩
    · rwa [same]
    · exact absurd (covered here) outside
  bytes x outside plain := moves.bytes x (fun inside => outside (subW inside)) plain

/-- Enlarging the owners whose cells may change hands. -/
theorem mono_owner (moves : Moves cell extra C W own mem own' mem') (subC : C ⊆ C') :
    Moves cell extra C' W own mem own' mem' where
  owner p := (moves.owner p).imp id fun both => ⟨subC both.1, subC both.2⟩
  closed := moves.closed
  bytes := moves.bytes

/-- An owner outside `C` keeps exactly its cells. -/
theorem own_iff (moves : Moves cell extra C W own mem own' mem') {o : ω} (outside : o ∉ C) (p : κ) :
    own' p = o ↔ own p = o := by
  rcases moves.owner p with same | ⟨here, there⟩
  · rw [same]
  · constructor
    · rintro rfl
      exact absurd there outside
    · rintro rfl
      exact absurd here outside

/-- A further change to bytes that were free to change at the start. -/
theorem write (moves : Moves cell extra C W own mem own' mem')
    (same : ∀ x, own (cell x) ∉ W → x ∉ extra → mem'' x = mem' x) :
    Moves cell extra C W own mem own' mem'' where
  owner := moves.owner
  closed := moves.closed
  bytes x outside plain := (same x outside plain).trans (moves.bytes x outside plain)

/-- Writing bytes of cells that `W` owns. -/
theorem of_bytes (same : ∀ x, own (cell x) ∉ W → x ∉ extra → mem' x = mem x) :
    Moves cell extra C W own mem own mem' :=
  ⟨fun _ => .inl rfl, fun _ h => h, same⟩

/-- Handing one cell over, bytes unchanged. -/
theorem of_update [DecidableEq κ] {p : κ} {o : ω} (here : own p ∈ C) (there : o ∈ C)
    (closed : own p ∉ W → o ∉ W) : Moves cell extra C W own mem (Function.update own p o) mem where
  owner q := by
    by_cases equal : q = p
    · subst equal
      exact .inr ⟨here, by simpa using there⟩
    · exact .inl (Function.update_of_ne equal _ _)
  closed q outside := by
    by_cases equal : q = p
    · subst equal
      simpa using closed outside
    · rwa [Function.update_of_ne equal]
  bytes _ _ _ := rfl

/-- Allowing more bytes to change. -/
theorem extend {extra' : Set Nat} (moves : Moves cell extra C W own mem own' mem') (sub : extra ⊆ extra') :
    Moves cell extra' C W own mem own' mem' :=
  ⟨moves.owner, moves.closed, fun x outside plain => moves.bytes x outside fun inside => plain (sub inside)⟩

/-- Handing cells over between owners that may be written, bytes unchanged. -/
theorem of_owner (owner : ∀ p, own' p = own p ∨ (own p ∈ C ∧ own' p ∈ C)) :
    Moves cell extra C C own mem own' mem where
  owner := owner
  closed p outside := by
    rcases owner p with same | ⟨before, _⟩
    · rwa [same]
    · exact absurd before outside
  bytes _ _ _ := rfl

end Moves

end KuroOS.Base
