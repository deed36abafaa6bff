import KuroOS.Base.Ring

/-!
# The intrusive list of `list.h`

Each operation is the sequence of stores that the inline function makes. Their
specifications are stated on rings: which ring results, and that no byte
outside the nodes the operation touches has changed.
-/

namespace KuroOS

open Base

/-- `INIT_LIST_HEAD`. -/
def initListHead (mem : Mem) (list : Nat) : Mem :=
  (mem.store (list + 8) 8 list).store list 8 list

/-- `__list_add`. -/
def listInsert (mem : Mem) (node prev next : Nat) : Mem :=
  let mem := mem.store next 8 node
  let mem := mem.store (node + 8) 8 next
  let mem := mem.store node 8 prev
  mem.store (prev + 8) 8 node

/-- `list_add`. -/
def listAdd (mem : Mem) (node head : Nat) : Mem :=
  listInsert mem node head (nextOf mem head)

/-- `list_add_tail`. -/
def listAddTail (mem : Mem) (node head : Nat) : Mem :=
  listInsert mem node (prevOf mem head) head

/-- `__list_del`. -/
def listJoin (mem : Mem) (prev next : Nat) : Mem :=
  let mem := mem.store next 8 prev
  mem.store (prev + 8) 8 next

/-- `list_del`. -/
def listDel (mem : Mem) (entry : Nat) : Mem :=
  let mem := listJoin mem (prevOf mem entry) (nextOf mem entry)
  let mem := mem.store (entry + 8) 8 entry
  mem.store entry 8 entry

/-- `list_empty`. -/
def listEmpty (mem : Mem) (head : Nat) : Bool :=
  nextOf mem head == head

variable {mem : Mem} {head a : Nat} {xs ys : List Nat}

/-- `INIT_LIST_HEAD` makes the empty ring and writes one node. -/
theorem initListHead_ring (bounded : head < 2 ^ 64) : Ring (initListHead mem head) head [] := by
  refine Ring.nil_iff.mpr ⟨?_, ?_, bounded⟩
  · unfold initListHead nextOf
    rw [Mem.load_store_of_disjoint (by omega), Mem.load_store_same bounded]
  · exact Mem.load_store_same bounded

theorem initListHead_sameOff : SameOff (node a) mem (initListHead mem a) := by
  refine (SameOff.store fun x low high => ?_).trans (SameOff.store fun x low high => ?_) <;>
  · simp only [mem_node]
    omega

/-- `list_empty` tells whether the ring has no member. -/
theorem listEmpty_iff (ring : Ring mem head xs) : listEmpty mem head = true ↔ xs = [] := by
  unfold listEmpty
  rw [ring.cycle.next_head, beq_iff_eq]
  cases xs with
  | nil => simp
  | cons x rest =>
      have := ring.nodup
      simp only [List.nodup_cons, List.mem_cons, not_or] at this
      simp only [List.cons_append, List.head_cons, reduceCtorEq, iff_false]
      exact fun equal => this.1.1 equal.symm

/-- The words `__list_add` leaves behind. -/
theorem listInsert_words (mem : Mem) {prev next : Nat} (prevApart : Apart a prev) (nextApart : Apart a next)
    (seam : prev = next ∨ Apart prev next) (fits : a < 2 ^ 64) (prevFits : prev < 2 ^ 64)
    (nextFits : next < 2 ^ 64) :
    Linked (listInsert mem a prev next) prev a ∧ Linked (listInsert mem a prev next) a next := by
  unfold Apart at prevApart nextApart seam
  refine ⟨⟨?_, ?_⟩, ⟨?_, ?_⟩⟩ <;> simp only [listInsert, nextOf, prevOf]
  · exact Mem.load_store_same fits
  · rw [Mem.load_store_of_disjoint (by omega), Mem.load_store_same prevFits]
  · rw [Mem.load_store_of_disjoint (by omega), Mem.load_store_of_disjoint (by omega),
      Mem.load_store_same nextFits]
  · rw [Mem.load_store_of_disjoint (by omega), Mem.load_store_of_disjoint (by omega),
      Mem.load_store_of_disjoint (by omega), Mem.load_store_same fits]

/-- `__list_add` writes its three nodes only. -/
theorem listInsert_sameOff {prev next : Nat} :
    SameOff (nodes [a, prev, next]) mem (listInsert mem a prev next) := by
  unfold listInsert
  refine ((SameOff.store ?_).trans (SameOff.store ?_)).trans
    ((SameOff.store ?_).trans (SameOff.store ?_)) <;>
  · intro x low high
    simp only [mem_nodes, List.mem_cons, List.not_mem_nil, or_false, exists_eq_or_imp,
      exists_eq_left]
    omega

/-- `__list_add` between two neighbours of a ring. -/
theorem listInsert_ring (xs ys : List Nat) (ring : Ring mem head (xs ++ ys))
    (fresh : ∀ b ∈ head :: (xs ++ ys), Apart a b) (fits : a < 2 ^ 64) :
    Ring (listInsert mem a ((head :: xs).getLast (by simp)) ((ys ++ [head]).head (by simp)))
      head (xs ++ a :: ys) := by
  have prevMem : (head :: xs).getLast (by simp) ∈ head :: (xs ++ ys) := by
    have := List.getLast_mem (l := head :: xs) (by simp)
    simp only [List.mem_cons, List.mem_append] at this ⊢
    tauto
  have nextMem : (ys ++ [head]).head (by simp) ∈ head :: (xs ++ ys) := by
    have := List.head_mem (l := ys ++ [head]) (by simp)
    simp only [List.mem_cons, List.mem_append, List.not_mem_nil, or_false] at this ⊢
    tauto
  have apart : ∀ {b c}, b ∈ head :: (xs ++ ys) → c ∈ head :: (xs ++ ys) → b = c ∨ Apart b c :=
    fun hb hc => or_iff_not_imp_left.mpr (ring.apart_of_ne hb hc)
  obtain ⟨before, after⟩ := listInsert_words mem (fresh _ prevMem) (fresh _ nextMem)
    (apart prevMem nextMem) fits (ring.bounded _ prevMem) (ring.bounded _ nextMem)
  refine ring.link fresh fits (ring.cycle.link _ _ (fun again => (fresh a again).ne rfl) before after
    (fun b hb ne => ?_) (fun b hb ne => ?_))
  · have onSeam := ring.apart_of_ne hb prevMem ne
    have offSeam := apart hb nextMem
    have offNode := fresh b hb
    unfold Apart at onSeam offSeam offNode
    unfold listInsert nextOf
    rw [Mem.load_store_of_disjoint (by omega), Mem.load_store_of_disjoint (by omega),
      Mem.load_store_of_disjoint (by omega), Mem.load_store_of_disjoint (by omega)]
  · have onSeam := ring.apart_of_ne hb nextMem ne
    have offSeam := apart hb prevMem
    have offNode := fresh b hb
    unfold Apart at onSeam offSeam offNode
    unfold listInsert prevOf
    rw [Mem.load_store_of_disjoint (by omega), Mem.load_store_of_disjoint (by omega),
      Mem.load_store_of_disjoint (by omega), Mem.load_store_of_disjoint (by omega)]

/-- `list_add` pushes at the front. -/
theorem listAdd_ring (ring : Ring mem head ys) (fresh : ∀ b ∈ head :: ys, Apart a b)
    (fits : a < 2 ^ 64) : Ring (listAdd mem a head) head (a :: ys) := by
  have inserted := listInsert_ring [] ys ring fresh fits
  unfold listAdd
  rw [ring.cycle.next_head]
  exact inserted

/-- `list_add` writes the node, the head and the old first member only. -/
theorem listAdd_sameOff (ring : Ring mem head ys) :
    SameOff (nodes (a :: head :: ys)) mem (listAdd mem a head) := by
  refine listInsert_sameOff.mono ?_
  rw [ring.cycle.next_head]
  have := List.head_mem (l := ys ++ [head]) (by simp)
  rintro x ⟨b, hb, hx⟩
  refine ⟨b, ?_, hx⟩
  simp only [List.mem_cons, List.mem_append, List.not_mem_nil, or_false] at this hb ⊢
  rcases hb with rfl | rfl | rfl
  · simp
  · simp
  · tauto

/-- `list_add_tail` pushes at the back. -/
theorem listAddTail_ring (ring : Ring mem head xs) (fresh : ∀ b ∈ head :: xs, Apart a b)
    (fits : a < 2 ^ 64) : Ring (listAddTail mem a head) head (xs ++ [a]) := by
  have inserted := listInsert_ring xs [] (by simpa using ring)
    (by simpa using fresh) fits
  unfold listAddTail
  rw [ring.cycle.prev_head]
  exact inserted

/-- `list_add_tail` writes the node, the head and the old last member only. -/
theorem listAddTail_sameOff (ring : Ring mem head xs) :
    SameOff (nodes (a :: head :: xs)) mem (listAddTail mem a head) := by
  refine listInsert_sameOff.mono ?_
  rw [ring.cycle.prev_head]
  have := List.getLast_mem (l := head :: xs) (by simp)
  rintro x ⟨b, hb, hx⟩
  refine ⟨b, ?_, hx⟩
  simp only [List.mem_cons, List.not_mem_nil, or_false] at this hb ⊢
  rcases hb with rfl | rfl | rfl
  · simp
  · tauto
  · simp

/-- `list_del` removes a member and leaves it linked to itself. -/
theorem listDel_ring (xs : List Nat) (ring : Ring mem head (xs ++ a :: ys)) :
    Ring (listDel mem a) head (xs ++ ys) ∧ Ring (listDel mem a) a [] := by
  have aMem : a ∈ head :: (xs ++ a :: ys) := by simp
  have inside : ∀ {b}, b ∈ head :: (xs ++ ys) → b ∈ head :: (xs ++ a :: ys) := by
    intro b hb
    simp only [List.mem_cons, List.mem_append] at hb ⊢
    tauto
  have offA : ∀ {b}, b ∈ head :: (xs ++ ys) → Apart a b := by
    intro b hb
    refine ring.apart_of_ne aMem (inside hb) ?_
    rintro rfl
    have distinct := ring.nodup
    simp only [List.nodup_cons, List.nodup_append, List.mem_append, List.mem_cons] at distinct hb
    rcases hb with rfl | hb | hb
    · exact distinct.1 (.inr (.inl rfl))
    · exact distinct.2.2.2 _ hb _ (.inl rfl) rfl
    · exact distinct.2.2.1.1 hb
  have prevMem : (head :: xs).getLast (by simp) ∈ head :: (xs ++ ys) := by
    have := List.getLast_mem (l := head :: xs) (by simp)
    simp only [List.mem_cons, List.mem_append] at this ⊢
    tauto
  have nextMem : (ys ++ [head]).head (by simp) ∈ head :: (xs ++ ys) := by
    have := List.head_mem (l := ys ++ [head]) (by simp)
    simp only [List.mem_cons, List.mem_append, List.not_mem_nil, or_false] at this ⊢
    tauto
  have apart : ∀ {b c}, b ∈ head :: (xs ++ ys) → c ∈ head :: (xs ++ ys) → b = c ∨ Apart b c :=
    fun hb hc => or_iff_not_imp_left.mpr (ring.apart_of_ne (inside hb) (inside hc))
  have seam := apart prevMem nextMem
  have offPrev := offA prevMem
  have offNext := offA nextMem
  unfold Apart at seam offPrev offNext
  unfold listDel listJoin
  rw [(ring.cycle.around _ _).1, (ring.cycle.around _ _).2]
  refine ⟨ring.unlink (ring.cycle.unlink _ _ ⟨?_, ?_⟩ (fun b hb ne => ?_) (fun b hb ne => ?_)),
    Ring.nil_iff.mpr ⟨?_, ?_, ring.bounded _ aMem⟩⟩
  · unfold nextOf
    rw [Mem.load_store_of_disjoint (by omega), Mem.load_store_of_disjoint (by omega),
      Mem.load_store_same (ring.bounded _ (inside nextMem))]
  · unfold prevOf
    rw [Mem.load_store_of_disjoint (by omega), Mem.load_store_of_disjoint (by omega),
      Mem.load_store_of_disjoint (by omega), Mem.load_store_same (ring.bounded _ (inside prevMem))]
  · have onSeam := ring.apart_of_ne (inside hb) (inside prevMem) ne
    have offSeam := apart hb nextMem
    have offNode := offA hb
    unfold Apart at onSeam offSeam offNode
    unfold nextOf
    rw [Mem.load_store_of_disjoint (by omega), Mem.load_store_of_disjoint (by omega),
      Mem.load_store_of_disjoint (by omega), Mem.load_store_of_disjoint (by omega)]
  · have onSeam := ring.apart_of_ne (inside hb) (inside nextMem) ne
    have offSeam := apart hb prevMem
    have offNode := offA hb
    unfold Apart at onSeam offSeam offNode
    unfold prevOf
    rw [Mem.load_store_of_disjoint (by omega), Mem.load_store_of_disjoint (by omega),
      Mem.load_store_of_disjoint (by omega), Mem.load_store_of_disjoint (by omega)]
  · unfold nextOf
    rw [Mem.load_store_of_disjoint (by omega), Mem.load_store_same (ring.bounded _ aMem)]
  · exact Mem.load_store_same (ring.bounded _ aMem)

/-- `list_del` writes the member and its two neighbours only. -/
theorem listDel_sameOff (xs : List Nat) (ring : Ring mem head (xs ++ a :: ys)) :
    SameOff (nodes (head :: (xs ++ a :: ys))) mem (listDel mem a) := by
  have prevMem := List.getLast_mem (l := head :: xs) (by simp)
  have nextMem := List.head_mem (l := ys ++ [head]) (by simp)
  have inside : ∀ {b x}, b = (head :: xs).getLast (by simp) ∨ b = (ys ++ [head]).head (by simp) ∨
      b = a → x ∈ node b → x ∈ nodes (head :: (xs ++ a :: ys)) := by
    intro b x hb hx
    refine ⟨b, ?_, hx⟩
    simp only [List.mem_cons, List.mem_append, List.not_mem_nil, or_false] at prevMem nextMem ⊢
    rcases hb with rfl | rfl | rfl <;> tauto
  unfold listDel listJoin
  rw [(ring.cycle.around _ _).1, (ring.cycle.around _ _).2]
  refine ((SameOff.store fun x low high => inside (.inr (.inl rfl)) ⟨low, by omega⟩).trans
    (SameOff.store fun x low high => inside (.inl rfl) ⟨by omega, by omega⟩)).trans
    ((SameOff.store fun x low high => inside (.inr (.inr rfl)) ⟨by omega, by omega⟩).trans
    (SameOff.store fun x low high => inside (.inr (.inr rfl)) ⟨low, by omega⟩))

/-- Deleting a self-linked node changes nothing but rewrites its own links. -/
theorem listDel_self (ring : Ring mem a []) :
    Ring (listDel mem a) a [] ∧ SameOff (node a) mem (listDel mem a) := by
  obtain ⟨next, prev, bounded⟩ := Ring.nil_iff.mp ring
  unfold listDel listJoin
  rw [next, prev]
  refine ⟨Ring.nil_iff.mpr ⟨?_, ?_, bounded⟩, ?_⟩
  · unfold nextOf
    rw [Mem.load_store_of_disjoint (by omega), Mem.load_store_same bounded]
  · exact Mem.load_store_same bounded
  · refine ((SameOff.store ?_).trans (SameOff.store ?_)).trans
      ((SameOff.store ?_).trans (SameOff.store ?_)) <;>
    · intro x low high
      simp only [mem_node]
      omega

end KuroOS
