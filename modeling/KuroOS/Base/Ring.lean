import KuroOS.Base.Bytes
import KuroOS.Base.Cycle

/-!
# Circular doubly linked lists in memory

A node at `a` occupies sixteen bytes: its `prev` word at `a` and its `next`
word at `a + 8`. `Ring mem head xs` says that the nodes `xs` form a cycle
through `head` and that no two nodes overlap. It depends on the bytes of its
nodes only, and is otherwise edited by the rules of `Cycle`.
-/

namespace KuroOS.Base

/-- The `prev` word of the node at `a`. -/
def prevOf (mem : Mem) (a : Nat) : Nat := mem.load a 8

/-- The `next` word of the node at `a`. -/
def nextOf (mem : Mem) (a : Nat) : Nat := mem.load (a + 8) 8

/-- The bytes of the node at `a`. -/
def node (a : Nat) : Set Nat := {x | a ≤ x ∧ x < a + 16}

/-- The bytes of a list of nodes. -/
def nodes (xs : List Nat) : Set Nat := {x | ∃ a ∈ xs, x ∈ node a}

/-- Two nodes do not overlap. -/
def Apart (a b : Nat) : Prop := a + 16 ≤ b ∨ b + 16 ≤ a

/-- `y` follows `x` in memory. -/
abbrev Linked (mem : Mem) (x y : Nat) : Prop := Adjacent (nextOf mem) (prevOf mem) x y

/-- The nodes `xs` form a cycle through `head`. -/
structure Ring (mem : Mem) (head : Nat) (xs : List Nat) : Prop where
  cycle : Cycle (nextOf mem) (prevOf mem) head xs
  apart : (head :: xs).Pairwise Apart
  bounded : ∀ a ∈ head :: xs, a < 2 ^ 64

theorem Apart.symm {a b : Nat} (h : Apart a b) : Apart b a := Or.symm h

instance : Std.Symm Apart := ⟨fun _ _ => Apart.symm⟩

theorem Apart.ne {a b : Nat} (h : Apart a b) : a ≠ b := by
  unfold Apart at h
  omega

@[simp] theorem mem_node {a x : Nat} : x ∈ node a ↔ a ≤ x ∧ x < a + 16 := Iff.rfl

@[simp] theorem mem_nodes {xs : List Nat} {x : Nat} : x ∈ nodes xs ↔ ∃ a ∈ xs, a ≤ x ∧ x < a + 16 :=
  Iff.rfl

variable {mem mem' : Mem} {head : Nat} {xs ys : List Nat}

theorem prevOf_congr {a : Nat} (same : ∀ x ∈ node a, mem' x = mem x) :
    prevOf mem' a = prevOf mem a :=
  Mem.load_congr fun x low high => same x ⟨low, by omega⟩

theorem nextOf_congr {a : Nat} (same : ∀ x ∈ node a, mem' x = mem x) :
    nextOf mem' a = nextOf mem a :=
  Mem.load_congr fun x low high => same x ⟨by omega, by omega⟩

namespace Ring

/-- The nodes of a ring are distinct. -/
theorem nodup (ring : Ring mem head xs) : (head :: xs).Nodup := ring.cycle.nodup

theorem apart_of_ne (ring : Ring mem head xs) {a b : Nat} (ha : a ∈ head :: xs)
    (hb : b ∈ head :: xs) (ne : a ≠ b) : Apart a b :=
  ring.apart.forall ha hb ne

/-- A ring depends on the bytes of its own nodes only. -/
theorem congr (ring : Ring mem head xs) (same : ∀ x ∈ nodes (head :: xs), mem' x = mem x) :
    Ring mem' head xs where
  cycle := ring.cycle.congr (fun a ha => nextOf_congr fun x hx => same x ⟨a, ha, hx⟩)
    (fun a ha => prevOf_congr fun x hx => same x ⟨a, ha, hx⟩)
  apart := ring.apart
  bounded := ring.bounded

/-- A self-linked node is the empty ring. -/
theorem nil_iff : Ring mem head [] ↔ nextOf mem head = head ∧ prevOf mem head = head ∧ head < 2 ^ 64 := by
  constructor
  · intro ring
    obtain ⟨next, prev⟩ := Cycle.nil_iff.mp ring.cycle
    exact ⟨next, prev, ring.bounded head (by simp)⟩
  · rintro ⟨next, prev, bounded⟩
    exact ⟨Cycle.nil_iff.mpr ⟨next, prev⟩, by simp, by simpa using bounded⟩

/-- Link a node into a ring. -/
theorem link {a : Nat} (ring : Ring mem head (xs ++ ys))
    (fresh : ∀ b ∈ head :: (xs ++ ys), Apart a b) (bounded : a < 2 ^ 64)
    (cycle : Cycle (nextOf mem') (prevOf mem') head (xs ++ a :: ys)) :
    Ring mem' head (xs ++ a :: ys) where
  cycle := cycle
  apart := by
    have perm : (a :: head :: (xs ++ ys)).Perm (head :: (xs ++ a :: ys)) :=
      (List.Perm.swap head a _).trans (List.Perm.cons head List.perm_middle.symm)
    refine (perm.pairwise_iff Apart.symm).mp ?_
    exact List.pairwise_cons.mpr ⟨fresh, ring.apart⟩
  bounded := by
    intro b hb
    have known := ring.bounded b
    simp only [List.mem_cons, List.mem_append] at hb known
    rcases hb with rfl | hb | rfl | hb
    · exact known (.inl rfl)
    · exact known (.inr (.inl hb))
    · exact bounded
    · exact known (.inr (.inr hb))

/-- Unlink a member of a ring. -/
theorem unlink {a : Nat} (ring : Ring mem head (xs ++ a :: ys))
    (cycle : Cycle (nextOf mem') (prevOf mem') head (xs ++ ys)) : Ring mem' head (xs ++ ys) where
  cycle := cycle
  apart := ring.apart.sublist (List.Sublist.cons_cons head
    (List.Sublist.append_left (List.sublist_cons_self a ys) xs))
  bounded := by
    intro b hb
    refine ring.bounded b ?_
    simp only [List.mem_cons, List.mem_append] at hb ⊢
    tauto

/-- Two rings of the same nodes have the same links. -/
theorem same_links {a : Nat} {nodes : List Nat} (ring : Ring mem head nodes) (ring' : Ring mem' head nodes)
    (member : a ∈ head :: nodes) : nextOf mem' a = nextOf mem a ∧ prevOf mem' a = prevOf mem a := by
  rcases List.mem_cons.mp member with rfl | inside
  · exact ⟨ring'.cycle.next_head.trans ring.cycle.next_head.symm, ring'.cycle.prev_head.trans ring.cycle.prev_head.symm⟩
  · obtain ⟨xs, ys, rfl⟩ := List.append_of_mem inside
    obtain ⟨prev, next⟩ := ring.cycle.around xs ys
    obtain ⟨prev', next'⟩ := ring'.cycle.around xs ys
    exact ⟨next'.trans next.symm, prev'.trans prev.symm⟩

end Ring

end KuroOS.Base
