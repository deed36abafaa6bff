import KuroOS.Base.Bytes

/-!
# Records in memory

A record is a list of fields at offsets from its address. `FieldsAt` says what
the fields hold. It depends on the bytes of the record only, and a store to one
field leaves the others alone.
-/

namespace KuroOS.Base

/-- A field of a record, and what it holds. -/
structure Field where
  offset : Nat
  width : Nat
  value : Nat
deriving DecidableEq, Repr

/-- Two fields do not overlap. -/
def Field.Apart (f g : Field) : Prop := f.offset + f.width ≤ g.offset ∨ g.offset + g.width ≤ f.offset

instance (f g : Field) : Decidable (f.Apart g) := inferInstanceAs (Decidable (_ ∨ _))

/-- The record at an address holds the fields. -/
def FieldsAt (mem : Mem) (address : Nat) (fields : List Field) : Prop :=
  ∀ f ∈ fields, mem.load (address + f.offset) f.width = f.value

namespace FieldsAt

variable {mem mem' : Mem} {address size : Nat} {fields fields' : List Field}

/-- A record depends on its own bytes only. -/
theorem congr (holds : FieldsAt mem address fields) (inside : ∀ f ∈ fields, f.offset + f.width ≤ size)
    (same : ∀ x, address ≤ x → x < address + size → mem' x = mem x) :
    FieldsAt mem' address fields := fun f member => by
  have fits := inside f member
  exact (Mem.load_congr fun x _ _ => same x (by omega) (by omega)).trans (holds f member)

/-- Storing a field: it holds the value, and fields apart from it are kept. -/
theorem store (holds : FieldsAt mem address fields) (f : Field) (fits : f.value < 256 ^ f.width)
    (kept : ∀ g ∈ fields', g = f ∨ (g ∈ fields ∧ g.Apart f)) :
    FieldsAt (mem.store (address + f.offset) f.width f.value) address fields' := by
  intro g member
  rcases kept g member with rfl | ⟨old, apart⟩
  · exact Mem.load_store_same fits
  · unfold Field.Apart at apart
    rw [Mem.load_store_of_disjoint (by omega)]
    exact holds g old

end FieldsAt

/-- Store the fields of a record one after the other. -/
def storeFields (mem : Mem) (address : Nat) : List Field → Mem
  | [] => mem
  | f :: fields => storeFields (mem.store (address + f.offset) f.width f.value) address fields

theorem storeFields_append {mem : Mem} {address : Nat} (fields fields' : List Field) :
    storeFields mem address (fields ++ fields') = storeFields (storeFields mem address fields) address fields' := by
  induction fields generalizing mem with
  | nil => rfl
  | cons f fields ih => exact ih

/-- A field that is apart from those stored keeps its value. -/
theorem storeFields_load {mem : Mem} {address : Nat} {fields : List Field} {f : Field}
    (apart : ∀ g ∈ fields, f.Apart g) :
    (storeFields mem address fields).load (address + f.offset) f.width =
      mem.load (address + f.offset) f.width := by
  induction fields generalizing mem with
  | nil => rfl
  | cons g fields ih =>
      have first := apart g (by simp)
      unfold Field.Apart at first
      rw [storeFields, ih fun h member => apart h (by simp [member]), Mem.load_store_of_disjoint (by omega)]

/-- Fields that are stored can be read back. -/
theorem FieldsAt.storeFields {mem : Mem} {address : Nat} {fields : List Field}
    (apart : fields.Pairwise Field.Apart) (fits : ∀ f ∈ fields, f.value < 256 ^ f.width) :
    FieldsAt (storeFields mem address fields) address fields := by
  induction fields generalizing mem with
  | nil => simp [FieldsAt]
  | cons f fields ih =>
      obtain ⟨first, rest⟩ := List.pairwise_cons.mp apart
      intro g member
      rcases List.mem_cons.mp member with rfl | member
      · rw [Base.storeFields, storeFields_load first, Mem.load_store_same (fits g (by simp))]
      · exact ih rest (fun h inside => fits h (by simp [inside])) g member

/-- Storing some fields of a record keeps the others. -/
theorem FieldsAt.overwrite {mem : Mem} {address : Nat} {fields fields' stored : List Field}
    (holds : FieldsAt mem address fields) (apart : stored.Pairwise Field.Apart)
    (fits : ∀ f ∈ stored, f.value < 256 ^ f.width)
    (kept : ∀ g ∈ fields', g ∈ stored ∨ (g ∈ fields ∧ ∀ f ∈ stored, g.Apart f)) :
    FieldsAt (Base.storeFields mem address stored) address fields' := by
  intro g member
  rcases kept g member with inside | ⟨old, clear⟩
  · exact FieldsAt.storeFields apart fits g inside
  · rw [storeFields_load clear]
    exact holds g old

/-- Storing fields writes the record only. -/
theorem storeFields_of_outside {mem : Mem} {address x : Nat} {fields : List Field} (size : Nat)
    (inside : ∀ f ∈ fields, f.offset + f.width ≤ size) (outside : x < address ∨ address + size ≤ x) :
    storeFields mem address fields x = mem x := by
  induction fields generalizing mem with
  | nil => rfl
  | cons f fields ih =>
      have first := inside f (by simp)
      rw [storeFields, ih fun h member => inside h (by simp [member]), Mem.store_of_outside (by omega)]

/-- What storing fields leaves at an address depends on what was there. -/
theorem storeFields_congr {mem mem' : Mem} {address x : Nat} (fields : List Field) (same : mem' x = mem x) :
    storeFields mem' address fields x = storeFields mem address fields x := by
  induction fields generalizing mem mem' with
  | nil => exact same
  | cons f fields ih =>
      refine ih ?_
      simp only [Mem.store]
      split
      · rfl
      · exact same

end KuroOS.Base
