import KuroOS.Initrd.Files

/-!
# Finding a file

`initrd_find` compares the names of the entries, newest first, with a string in
the address space of the caller. It returns what the first entry of that name
records, and changes nothing.
-/

namespace KuroOS

open Base

/-- The byte that the kernel reads through a user's pointer. -/
def UserByte (s : Kernel) (va : Nat) (byte : UInt8) : Prop :=
  ∃ pa, sv39 s.mem s.satpRoot va .read = some pa ∧ isUart pa = false ∧ s.mem pa = byte

/-- The C string behind a user's pointer. -/
def UserString (s : Kernel) : (pointer : Nat) → List UInt8 → Prop
  | pointer, [] => UserByte s pointer 0
  | pointer, char :: rest => char ≠ 0 ∧ UserByte s pointer char ∧ UserString s (wadd pointer 1) rest

/-- What a search finds: the contents' address and length. -/
def lookup (files : List InitrdFile) (name : List UInt8) : Nat × Nat :=
  match files.find? (·.name = name) with
  | some file => (file.data, file.size)
  | none => (0, 0)

variable {s : Kernel} {halt : Halt → Kernel → Prop} {text name : List UInt8} {a p : Nat}

/-- A search passes over files of other names. -/
theorem lookup_append {xs ys : List InitrdFile} {name : List UInt8} (others : ∀ f ∈ xs, f.name ≠ name) :
    lookup (xs ++ ys) name = lookup ys name := by
  have none : xs.find? (·.name = name) = none := List.find?_eq_none.mpr (by simpa using others)
  simp [lookup, List.find?_append, none]

/-- A search stops at the name. -/
theorem lookup_cons_self {f : InitrdFile} {ys : List InitrdFile} : lookup (f :: ys) f.name = (f.data, f.size) := by
  simp [lookup]

/-- Translation does not see the record of dereferences. -/
theorem UserByte.derefs {byte : UInt8} (holds : UserByte s p byte) (d : List Deref) :
    UserByte { s with derefs := d } p byte := holds

theorem UserString.derefs (string : UserString s p text) (d : List Deref) :
    UserString { s with derefs := d } p text := by
  induction text generalizing p with
  | nil => exact UserByte.derefs string d
  | cons char rest ih => exact ⟨string.1, string.2.1.derefs d, ih string.2.2⟩

/-- A read through a user's pointer is recorded and changes nothing else. -/
theorem readUser_spec {byte : UInt8} (holds : UserByte s p byte) :
    wp (readUser p) s (fun r s' => r = byte ∧ ∃ d, s' = { s with derefs := d }) halt := by
  obtain ⟨pa, translated, notUart, here⟩ := holds
  unfold readUser recordDeref readVirtual
  simp only [wp_bind, wp_modify, wp_get, translated, notUart, Bool.false_eq_true, if_false, wp_pure]
  exact ⟨here, _, rfl⟩

/-- The comparison of `initrd_find` decides equality. -/
theorem initrdMatch_spec {fuel : Nat} (entry : CString s.mem a name) (fits : a + name.length < 2 ^ 64)
    (string : UserString s p text) (enough : name.length < fuel) :
    wp (initrdMatch fuel a p) s (fun r s' => r = decide (name = text) ∧ ∃ d, s' = { s with derefs := d })
      halt := by
  induction name generalizing fuel a p text s with
  | nil =>
      obtain ⟨fuel, rfl⟩ : ∃ f, fuel = f + 1 := ⟨fuel - 1, by omega⟩
      have here : s.mem a = 0 := entry.stop
      obtain ⟨y, read, isEnd⟩ : ∃ y, UserByte s p y ∧ (y = 0 ↔ text = []) := by
        cases text with
        | nil => exact ⟨0, string, by simp⟩
        | cons char rest => exact ⟨char, string.2.1, by simp [string.1]⟩
      rw [initrdMatch]
      simp only [wp_bind, wp_get]
      refine wp_mono (readUser_spec read) ?_ fun _ _ => id
      rintro y _ ⟨rfl, d, rfl⟩
      simp only [here, ne_eq, not_true_eq_false, false_and, if_false, wp_pure]
      refine ⟨?_, d, rfl⟩
      by_cases zero : y = 0
      · simp [zero, isEnd.mp zero]
      · have nonempty : ¬ [] = text := fun equal => zero (isEnd.mpr equal.symm)
        simp [nonempty, Ne.symm zero]
  | cons char name ih =>
      obtain ⟨fuel, rfl⟩ : ∃ f, fuel = f + 1 := ⟨fuel - 1, by omega⟩
      obtain ⟨here, nonzero, rest⟩ := entry.cons
      rw [List.length_cons] at fits enough
      rw [initrdMatch]
      simp only [wp_bind, wp_get]
      cases text with
      | nil =>
          refine wp_mono (readUser_spec string) ?_ fun _ _ => id
          rintro _ _ ⟨rfl, d, rfl⟩
          simp [here, nonzero]
      | cons other text =>
          refine wp_mono (readUser_spec string.2.1) ?_ fun _ _ => id
          rintro other _ ⟨rfl, d, rfl⟩
          by_cases equal : char = other
          · subst equal
            simp only [here, ne_eq, nonzero, not_false_eq_true, true_and, if_true]
            rw [wadd_of_lt (by omega)]
            refine wp_mono (ih (s := { s with derefs := d }) rest (by omega) (string.2.2.derefs d) (by omega)) ?_
              fun _ _ => id
            rintro r _ ⟨is, d', rfl⟩
            exact ⟨by simp [is], d', rfl⟩
          · simp [here, equal]

/-- The loop of `initrd_find` takes the first entry with the name. -/
theorem initrdFindLoop_spec {entries : List (Nat × InitrdFile)} {entry fuel : Nat}
    (chain : FileChain s.mem entry entries) (string : UserString s p text) (enough : entries.length < fuel) :
    wp (initrdFindLoop p fuel entry) s (fun r s' =>
      r = lookup (entries.map Prod.snd) text ∧ ∃ d, s' = { s with derefs := d }) halt := by
  induction entries generalizing fuel entry s with
  | nil =>
      obtain ⟨fuel, rfl⟩ : ∃ f, fuel = f + 1 := ⟨fuel - 1, by omega⟩
      rw [initrdFindLoop, if_pos (show entry = 0 from chain), wp_pure]
      exact ⟨rfl, _, rfl⟩
  | cons e rest ih =>
      obtain ⟨fuel, rfl⟩ : ∃ f, fuel = f + 1 := ⟨fuel - 1, by omega⟩
      obtain ⟨here, file⟩ := e
      obtain ⟨rfl, nonzero, fits, holds, tail⟩ := chain
      have short := holds.short
      simp only [initrdEntrySize, List.length_cons] at fits enough
      rw [initrdFindLoop, if_neg nonzero]
      refine wp_bind_of (initrdMatch_spec holds.name (by simp only [InitrdEntry.name]; omega) string
        (by unfold loopBound; omega)) ?_
      rintro _ _ ⟨rfl, d, rfl⟩
      by_cases found : file.name = text
      · simp only [found, decide_true, if_true, wp_bind, wp_loadWord, wp_pure, holds.data, holds.size]
        exact ⟨by simp [lookup, found], _, rfl⟩
      · simp only [found, decide_false, Bool.false_eq_true, if_false, wp_bind, wp_loadWord]
        refine wp_mono (ih (s := { s with derefs := d }) tail (string.derefs d) (by omega)) ?_ fun _ _ => id
        rintro r _ ⟨rfl, d', rfl⟩
        exact ⟨by simp [lookup, found], d', rfl⟩

/-- `initrd_find` looks the name up among the registered files. -/
theorem initrdFind_spec {files : List InitrdFile} (registered : Registered s files)
    (few : files.length < loopBound) (string : UserString s p text) :
    wp (initrdFind p) s (fun r s' => r = lookup files text ∧ ∃ d, s' = { s with derefs := d }) halt := by
  obtain ⟨entries, chain, rfl⟩ := registered
  unfold initrdFind
  simp only [wp_bind, wp_get]
  exact initrdFindLoop_spec chain string (by simpa using few)

end KuroOS
