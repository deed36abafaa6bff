import KuroOS.Kernel.List

/-!
# The intrusive list as a sequence

`Ring mem head xs` says that `head` stands for the sequence `xs`. The operations of
`list.h` push and remove, they spare every node that is not in the sequence, and
`list_for_each_safe` survives a body that deletes the current node.
-/

namespace KuroOS

open Base

/-- The loop of `list_for_each_safe`: the nodes that it visits, and the memory that it
leaves; `none` when it does not come to its end. -/
def listForEachSafeLoop (body : Nat → Mem → Mem) (head : Nat) : (fuel pos next : Nat) → Mem → Option (List Nat × Mem)
  | 0, _, _, _ => none
  | fuel + 1, pos, next, mem =>
      if pos ≠ head then
        let mem := body pos mem
        (listForEachSafeLoop body head fuel next (nextOf mem next) mem).map fun (visited, mem) => (pos :: visited, mem)
      else
        some ([], mem)

/-- `list_for_each_safe`. -/
def listForEachSafe (body : Nat → Mem → Mem) (head fuel : Nat) (mem : Mem) : Option (List Nat × Mem) :=
  let pos := nextOf mem head
  listForEachSafeLoop body head fuel pos (nextOf mem pos) mem

/-- A change of some nodes spares the bytes of the others, their links, and the lists
that have only others. -/
structure Spares (changed : List Nat) (mem mem' : Mem) : Prop where
  bytes : SameOff (nodes changed) mem mem'
  links : ∀ b, (∀ a ∈ changed, Apart b a) → nextOf mem' b = nextOf mem b ∧ prevOf mem' b = prevOf mem b
  lists : ∀ head xs, Ring mem head xs → (∀ b ∈ head :: xs, ∀ a ∈ changed, Apart b a) → Ring mem' head xs

variable {mem mem' : Mem} {head a : Nat} {xs ys changed : List Nat}

/-- A byte of a node that is apart from some others is not among theirs. -/
theorem Apart.not_mem_nodes {b x : Nat} (apart : ∀ a ∈ changed, Apart b a) (inside : x ∈ node b) : x ∉ nodes changed := by
  rintro ⟨a, member, within⟩
  have := apart a member
  simp only [mem_node] at inside within
  unfold Apart at this
  omega

/-- What changes the bytes of some nodes only spares the others. -/
theorem Spares.of_sameOff (same : SameOff (nodes changed) mem mem') : Spares changed mem mem' where
  bytes := same
  links _ apart :=
    ⟨nextOf_congr fun x inside => same x (Apart.not_mem_nodes apart inside),
      prevOf_congr fun x inside => same x (Apart.not_mem_nodes apart inside)⟩
  lists head xs ring apart := ring.congr fun x inside => by
    obtain ⟨b, member, within⟩ := inside
    exact same x (Apart.not_mem_nodes (apart b member) within)

/-- Deleting a node that is linked to itself changes nothing. -/
theorem listDel_of_self (ring : Ring mem a []) : listDel mem a = mem := by
  obtain ⟨next, prev, _⟩ := Ring.nil_iff.mp ring
  have storePrev : mem.store a 8 a = mem := by
    have same : mem.store a 8 (mem.load a 8) = mem := Mem.store_load
    rwa [show mem.load a 8 = a from prev] at same
  have storeNext : mem.store (a + 8) 8 a = mem := by
    have same : mem.store (a + 8) 8 (mem.load (a + 8) 8) = mem := Mem.store_load
    rwa [show mem.load (a + 8) 8 = a from next] at same
  unfold listDel listJoin
  rw [next, prev]
  simp only [storePrev, storeNext]

/-- Deleting a member removes it from the sequence. -/
theorem listDel_member (ring : Ring mem head xs) (member : a ∈ xs) :
    Ring (listDel mem a) head (xs.erase a) ∧ Ring (listDel mem a) a [] ∧ Spares (head :: xs) mem (listDel mem a) := by
  obtain ⟨before, after, rfl⟩ := List.append_of_mem member
  have fresh : a ∉ before := by
    have distinct := (List.nodup_cons.mp ring.nodup).2
    exact fun inside => (List.nodup_append.mp distinct).2.2 a inside a (by simp) rfl
  rw [List.erase_append_right _ fresh, List.erase_cons_head]
  obtain ⟨removed, self⟩ := listDel_ring before ring
  exact ⟨removed, self, .of_sameOff (listDel_sameOff before ring)⟩

/-- A loop whose body deletes the current node visits the members in their order. -/
theorem listForEachSafeLoop_deletes {rest : Nat → Mem → Mem} (ring : Ring mem head xs)
    (spares : ∀ x ys, x :: ys <:+ xs → ∀ mem, Ring mem head ys → Ring (rest x mem) head ys) {fuel : Nat} (enough : xs.length < fuel) :
    ∃ mem', listForEachSafeLoop (fun x mem => rest x (listDel mem x)) head fuel (nextOf mem head) (nextOf mem (nextOf mem head)) mem =
      some (xs, mem') ∧ Ring mem' head [] := by
  induction xs generalizing mem fuel with
  | nil =>
      obtain ⟨fuel, rfl⟩ := Nat.exists_eq_add_of_lt enough
      have first : nextOf mem head = head := ring.cycle.next_head
      exact ⟨mem, by simp [listForEachSafeLoop, first], ring⟩
  | cons x xs ih =>
      obtain ⟨fuel, rfl⟩ : ∃ n, fuel = n + 1 := ⟨fuel - 1, by omega⟩
      have first : nextOf mem head = x := ring.cycle.next_head
      have second : nextOf mem x = (xs ++ [head]).head (by simp) := (ring.cycle.around [] xs).2
      have other : x ≠ head := fun equal => (List.nodup_cons.mp ring.nodup).1 (by simp [equal])
      -- the next node was read before the body ran, and is the first one after it
      obtain ⟨after, isAfter⟩ : ∃ after, after = rest x (listDel mem x) := ⟨_, rfl⟩
      have ring' : Ring after head xs := isAfter ▸ spares x xs List.suffix_rfl _ (listDel_ring [] ring).1
      have next : nextOf after head = nextOf mem x := ring'.cycle.next_head.trans second.symm
      obtain ⟨mem', visits, empty⟩ := ih ring' (fun y ys suffix => spares y ys (suffix.trans (List.suffix_cons x xs)))
        (show xs.length < fuel by simpa using enough)
      refine ⟨mem', ?_, empty⟩
      rw [next] at visits
      simp only [listForEachSafeLoop, first, other, ne_eq, not_false_eq_true, if_true, ← isAfter, visits, Option.map_some]

/-- The list operations are those of a sequence. Nodes on no list are pushed at either
end, members are removed and left linked to themselves, and a traversal may delete
each node that it visits; nodes outside the sequence, and other lists, are spared. -/
theorem list_implements_sequence (ring : Ring mem head xs) :
    (∀ a < 2 ^ 64, (∀ b ∈ head :: xs, Apart a b) →
      (Ring (listAdd mem a head) head (a :: xs) ∧ Spares (a :: head :: xs) mem (listAdd mem a head)) ∧
      Ring (listAddTail mem a head) head (xs ++ [a]) ∧ Spares (a :: head :: xs) mem (listAddTail mem a head)) ∧
    (∀ a ∈ xs, Ring (listDel mem a) head (xs.erase a) ∧ Ring (listDel mem a) a [] ∧ Spares (head :: xs) mem (listDel mem a) ∧
      listDel (listDel mem a) a = listDel mem a) ∧
    ∀ rest : Nat → Mem → Mem, (∀ x ys, x :: ys <:+ xs → ∀ mem, Ring mem head ys → Ring (rest x mem) head ys) →
      ∀ fuel > xs.length, ∃ mem', listForEachSafe (fun x mem => rest x (listDel mem x)) head fuel mem = some (xs, mem') ∧
        Ring mem' head [] := by
  refine ⟨fun a fits fresh => ⟨⟨?_, ?_⟩, ?_, ?_⟩, fun a member => ?_, fun rest spares fuel enough => ?_⟩
  · exact listAdd_ring ring fresh fits
  · exact .of_sameOff (listAdd_sameOff ring)
  · exact listAddTail_ring ring fresh fits
  · exact .of_sameOff (listAddTail_sameOff ring)
  · obtain ⟨removed, self, spares⟩ := listDel_member ring member
    exact ⟨removed, self, spares, listDel_of_self self⟩
  · exact listForEachSafeLoop_deletes ring spares enough

/-- A list of two nodes. -/
def twoNodes : Mem := listAddTail (listAddTail (initListHead (fun _ => 0) 4096) 4112 4096) 4128 4096

theorem twoNodes_ring : Ring twoNodes 4096 [4112, 4128] := by
  have empty : Ring (initListHead (fun _ => 0) 4096) 4096 [] := initListHead_ring (by decide)
  have one := listAddTail_ring (a := 4112) empty (by simp [Apart]) (by decide)
  exact listAddTail_ring one (by simp [Apart]) (by decide)

/-- One of them is deleted, or both in a traversal. -/
theorem list_implements_sequence_two : Ring (listDel twoNodes 4112) 4096 [4128] ∧
    ∃ mem', listForEachSafe (fun x mem => listDel mem x) 4096 3 twoNodes = some ([4112, 4128], mem') ∧ Ring mem' 4096 [] := by
  obtain ⟨_, deletes, visits⟩ := list_implements_sequence twoNodes_ring
  exact ⟨(deletes 4112 (by simp)).1, visits (fun _ mem => mem) (fun _ _ _ _ ring => ring) 3 (by decide)⟩

end KuroOS
