import Mathlib.Data.List.Chain
import Mathlib.Data.List.Nodup

/-!
# Doubly linked cycles

A doubly linked list is a pair of functions, `next` and `prev`, that invert
each other along a cycle of nodes through a head. A list with null-terminated
ends is such a cycle too, through the null pointer, whose `next` is the first
node and whose `prev` is the last. The two edits are `link` and `unlink`; both
are local, and neither mentions how the functions are stored.
-/

namespace KuroOS.Base

variable {α : Type}

/-- `y` follows `x`, in both directions. -/
def Adjacent (next prev : α → α) (x y : α) : Prop := next x = y ∧ prev y = x

/-- The nodes `xs`, in `next` order, form a cycle through `head`. -/
structure Cycle (next prev : α → α) (head : α) (xs : List α) : Prop where
  chain : List.IsChain (Adjacent next prev) (head :: (xs ++ [head]))
  nodup : (head :: xs).Nodup

/-- Following `next` from `start` visits the nodes `xs` and then meets `stop`
for the first time. -/
def Follows (next : α → α) (stop : α) : (start : α) → List α → Prop
  | start, [] => start = stop
  | start, x :: rest => start = x ∧ x ≠ stop ∧ Follows next stop (next x) rest

variable {next prev next' prev' : α → α} {head a : α} {xs ys : List α}

theorem Follows.congr {start : α} (follows : Follows next head start xs)
    (same : ∀ x ∈ xs, next' x = next x) : Follows next' head start xs := by
  induction xs generalizing start with
  | nil => exact follows
  | cons x xs ih =>
      obtain ⟨here, other, rest⟩ := follows
      refine ⟨here, other, ?_⟩
      rw [same x (by simp)]
      exact ih rest fun y member => same y (by simp [member])

/-- Following `next` to its end visits one list of nodes. -/
theorem Follows.unique {start : α} (follows : Follows next head start xs)
    (follows' : Follows next head start ys) : xs = ys := by
  induction xs generalizing start ys with
  | nil =>
      cases ys with
      | nil => rfl
      | cons y ys => exact absurd (follows'.1.symm.trans follows) follows'.2.1
  | cons x xs ih =>
      obtain ⟨rfl, other, rest⟩ := follows
      cases ys with
      | nil => exact absurd follows' other
      | cons y ys =>
          obtain ⟨rfl, _, rest'⟩ := follows'
          rw [ih rest rest']

/-- A chain reads `next` of every node but its last and `prev` of every node
but its first. -/
theorem isChain_adjacent_congr {l : List α} (chain : List.IsChain (Adjacent next prev) l)
    (forward : ∀ x ∈ l.dropLast, next' x = next x) (backward : ∀ y ∈ l.tail, prev' y = prev y) :
    List.IsChain (Adjacent next' prev') l := by
  induction l with
  | nil => exact .nil
  | cons x rest ih =>
      cases rest with
      | nil => exact .singleton x
      | cons y rest =>
          rw [List.isChain_cons_cons] at chain ⊢
          obtain ⟨⟨after, before⟩, tail⟩ := chain
          refine ⟨⟨?_, ?_⟩, ih tail (fun z hz => forward z ?_) (fun z hz => backward z ?_)⟩
          · rw [forward x (by simp), after]
          · rw [backward y (by simp), before]
          · simp only [List.dropLast_cons_cons]
            exact List.mem_cons_of_mem _ hz
          · exact List.mem_of_mem_tail hz

namespace Cycle

/-- A cycle depends on the links of its own nodes only. -/
theorem congr (cycle : Cycle next prev head xs) (forward : ∀ x ∈ head :: xs, next' x = next x)
    (backward : ∀ x ∈ head :: xs, prev' x = prev x) : Cycle next' prev' head xs where
  chain := by
    have inside : ∀ x ∈ head :: (xs ++ [head]), x ∈ head :: xs := by
      intro x hx
      simp only [List.mem_cons, List.mem_append, List.not_mem_nil, or_false] at hx ⊢
      tauto
    exact isChain_adjacent_congr cycle.chain
      (fun x hx => forward x (inside x (List.dropLast_subset _ hx)))
      (fun x hx => backward x (inside x (List.mem_of_mem_tail hx)))
  nodup := cycle.nodup

/-- A self-linked node is the empty cycle. -/
theorem nil_iff : Cycle next prev head [] ↔ next head = head ∧ prev head = head := by
  constructor
  · intro cycle
    have chain := cycle.chain
    simp only [List.nil_append, List.isChain_cons_cons, List.isChain_singleton, and_true] at chain
    exact chain
  · rintro ⟨after, before⟩
    exact ⟨by simp [Adjacent, after, before], by simp⟩

/-- The node after the head is the first member, or the head itself. -/
theorem next_head (cycle : Cycle next prev head xs) : next head = (xs ++ [head]).head (by simp) := by
  have chain := cycle.chain
  cases xs with
  | nil => simpa [Adjacent] using (List.isChain_cons_cons.mp chain).1.1
  | cons x rest => exact (List.isChain_cons_cons.mp chain).1.1

/-- The last member precedes the head. -/
theorem prev_head (cycle : Cycle next prev head xs) : prev head = (head :: xs).getLast (by simp) := by
  have chain := cycle.chain
  rw [show head :: (xs ++ [head]) = (head :: xs) ++ [head] by simp, List.isChain_append] at chain
  exact (chain.2.2 _ (List.getLast?_eq_some_getLast (by simp)) head (by simp)).2

/-- The neighbours of a member. -/
theorem around (xs ys : List α) (cycle : Cycle next prev head (xs ++ a :: ys)) :
    prev a = (head :: xs).getLast (by simp) ∧ next a = (ys ++ [head]).head (by simp) := by
  have chain := cycle.chain
  rw [show head :: (xs ++ a :: ys ++ [head]) = (head :: xs) ++ (a :: (ys ++ [head])) by simp,
    List.isChain_append] at chain
  obtain ⟨_, after, between⟩ := chain
  constructor
  · exact (between _ (List.getLast?_eq_some_getLast (by simp)) a (by simp)).2
  · cases ys with
    | nil => exact (List.isChain_cons_cons.mp after).1.1
    | cons y rest => exact (List.isChain_cons_cons.mp after).1.1

/-- What lies between a node and the head is determined by `next`. -/
theorem chain_unique (chain : List.IsChain (Adjacent next prev) (a :: (xs ++ [head])))
    (chain' : List.IsChain (Adjacent next prev) (a :: (ys ++ [head]))) (fresh : head ∉ xs)
    (fresh' : head ∉ ys) : xs = ys := by
  induction xs generalizing a ys with
  | nil =>
      cases ys with
      | nil => rfl
      | cons y ys =>
          have here := (List.isChain_cons_cons.mp chain).1.1
          have there := (List.isChain_cons_cons.mp chain').1.1
          exact absurd (by simp [← there, here]) fresh'
  | cons x xs ih =>
      obtain ⟨here, rest⟩ := List.isChain_cons_cons.mp chain
      cases ys with
      | nil =>
          have there := (List.isChain_cons_cons.mp chain').1.1
          exact absurd (by simp [← there, here.1]) fresh
      | cons y ys =>
          obtain ⟨there, rest'⟩ := List.isChain_cons_cons.mp chain'
          obtain rfl : x = y := here.1.symm.trans there.1
          rw [ih rest rest' (fun member => fresh (.tail _ member))
            fun member => fresh' (.tail _ member)]

/-- The members of a cycle are determined by its links. -/
theorem unique (cycle : Cycle next prev head xs) (cycle' : Cycle next prev head ys) : xs = ys :=
  chain_unique cycle.chain cycle'.chain (List.nodup_cons.mp cycle.nodup).1
    (List.nodup_cons.mp cycle'.nodup).1

/-- The members of a cycle are met by following `next`. -/
theorem follows (cycle : Cycle next prev head xs) : Follows next head (next head) xs := by
  have walk : ∀ {a : α} {zs : List α}, head ∉ zs →
      List.IsChain (Adjacent next prev) (a :: (zs ++ [head])) → Follows next head (next a) zs := by
    intro a zs fresh chain
    induction zs generalizing a with
    | nil => exact (List.isChain_cons_cons.mp chain).1.1
    | cons x zs ih =>
        obtain ⟨⟨here, _⟩, rest⟩ := List.isChain_cons_cons.mp chain
        refine ⟨here, fun equal => fresh (by simp [equal]), ?_⟩
        exact ih (fun member => fresh (.tail _ member)) rest
  exact walk (List.nodup_cons.mp cycle.nodup).1 cycle.chain

/-- A cycle read backwards. -/
theorem reverse (cycle : Cycle next prev head xs) : Cycle prev next head xs.reverse where
  chain := by
    have flipped : List.IsChain (fun x y => Adjacent next prev y x)
        (head :: (xs ++ [head])).reverse := List.isChain_reverse.mpr cycle.chain
    have shape : (head :: (xs ++ [head])).reverse = head :: (xs.reverse ++ [head]) := by simp
    rw [shape] at flipped
    exact flipped.imp fun x y both => ⟨both.2, both.1⟩
  nodup := by
    have := cycle.nodup
    simpa using this

/-- Cutting a cycle at a seam leaves two chains, and they survive any change
that spares every link but the ones at the seam. -/
theorem halves (distinct : (head :: (xs ++ ys)).Nodup)
    (first : List.IsChain (Adjacent next prev) (head :: xs))
    (second : List.IsChain (Adjacent next prev) (ys ++ [head]))
    (forward : ∀ b ∈ head :: (xs ++ ys), b ≠ (head :: xs).getLast (by simp) → next' b = next b)
    (backward : ∀ b ∈ head :: (xs ++ ys), b ≠ (ys ++ [head]).head (by simp) → prev' b = prev b) :
    List.IsChain (Adjacent next' prev') (head :: xs) ∧
      List.IsChain (Adjacent next' prev') (ys ++ [head]) := by
  have last := List.getLast_mem (l := head :: xs) (by simp)
  have front := List.head_mem (l := ys ++ [head]) (by simp)
  obtain ⟨headFresh, split⟩ := List.nodup_cons.mp distinct
  obtain ⟨xsNodup, ysNodup, disjoint⟩ := List.nodup_append.mp split
  simp only [List.mem_append, not_or] at headFresh
  simp only [List.mem_append, List.mem_cons, List.not_mem_nil, or_false] at last front
  constructor
  · have short : (head :: xs).Nodup := List.nodup_cons.mpr ⟨headFresh.1, xsNodup⟩
    rw [← List.dropLast_append_getLast (l := head :: xs) (by simp)] at short
    refine isChain_adjacent_congr first (fun b hb => forward b ?_ ?_) (fun b hb => backward b ?_ ?_)
    · have := List.dropLast_subset _ hb
      simp only [List.mem_cons, List.mem_append] at this ⊢
      tauto
    · exact fun equal => (List.nodup_append.mp short).2.2 b hb _ (by simp) equal
    · exact List.mem_cons_of_mem _ (List.mem_append_left _ hb)
    · intro equal
      rw [List.tail_cons, equal] at hb
      rcases front with front | front
      · exact disjoint _ hb _ front rfl
      · exact headFresh.1 (front ▸ hb)
  · have short : (ys ++ [head]).Nodup :=
      List.nodup_append.mpr ⟨ysNodup, by simp, by
        rintro b hb c hc rfl
        exact headFresh.2 (List.mem_singleton.mp hc ▸ hb)⟩
    rw [← List.cons_head_tail (l := ys ++ [head]) (by simp)] at short
    refine isChain_adjacent_congr second (fun b hb => forward b ?_ ?_) (fun b hb => backward b ?_ ?_)
    · rw [List.dropLast_concat] at hb
      exact List.mem_cons_of_mem _ (List.mem_append_right _ hb)
    · intro equal
      rw [List.dropLast_concat, equal] at hb
      rcases last with last | last
      · exact headFresh.2 (last ▸ hb)
      · exact disjoint _ last _ hb rfl
    · have := List.mem_of_mem_tail hb
      simp only [List.mem_cons, List.mem_append, List.not_mem_nil, or_false] at this ⊢
      tauto
    · intro equal
      exact (List.nodup_cons.mp short).1 (equal ▸ hb)

/-- Link a node in between the last of `head :: xs` and the first of
`ys ++ [head]`. -/
theorem link (xs ys : List α) (cycle : Cycle next prev head (xs ++ ys)) (fresh : a ∉ head :: (xs ++ ys))
    (before : Adjacent next' prev' ((head :: xs).getLast (by simp)) a)
    (after : Adjacent next' prev' a ((ys ++ [head]).head (by simp)))
    (forward : ∀ b ∈ head :: (xs ++ ys), b ≠ (head :: xs).getLast (by simp) → next' b = next b)
    (backward : ∀ b ∈ head :: (xs ++ ys), b ≠ (ys ++ [head]).head (by simp) → prev' b = prev b) :
    Cycle next' prev' head (xs ++ a :: ys) where
  chain := by
    have chain := cycle.chain
    rw [show head :: (xs ++ ys ++ [head]) = (head :: xs) ++ (ys ++ [head]) by simp,
      List.isChain_append] at chain
    obtain ⟨first, second⟩ := halves cycle.nodup chain.1 chain.2.1 forward backward
    rw [show head :: (xs ++ a :: ys ++ [head]) = (head :: xs) ++ ([a] ++ (ys ++ [head])) by simp,
      List.isChain_append, List.isChain_append]
    refine ⟨first, ⟨.singleton a, second, ?_⟩, ?_⟩
    · intro x hx y hy
      rw [List.head?_eq_some_head (by simp), Option.mem_some] at hy
      simp only [List.getLast?_singleton, Option.mem_some] at hx
      subst hx hy
      exact after
    · intro x hx y hy
      rw [List.getLast?_eq_some_getLast (by simp), Option.mem_some] at hx
      simp only [List.cons_append, List.head?_cons, Option.mem_some] at hy
      subst hx hy
      exact before
  nodup := by
    have perm : (a :: head :: (xs ++ ys)).Perm (head :: (xs ++ a :: ys)) :=
      (List.Perm.swap head a _).trans (List.Perm.cons head List.perm_middle.symm)
    exact perm.nodup (List.nodup_cons.mpr ⟨fresh, cycle.nodup⟩)

/-- Unlink a member by linking its neighbours to each other. -/
theorem unlink (xs ys : List α) (cycle : Cycle next prev head (xs ++ a :: ys))
    (joined : Adjacent next' prev' ((head :: xs).getLast (by simp)) ((ys ++ [head]).head (by simp)))
    (forward : ∀ b ∈ head :: (xs ++ ys), b ≠ (head :: xs).getLast (by simp) → next' b = next b)
    (backward : ∀ b ∈ head :: (xs ++ ys), b ≠ (ys ++ [head]).head (by simp) → prev' b = prev b) :
    Cycle next' prev' head (xs ++ ys) := by
  have distinct : (head :: (xs ++ ys)).Nodup :=
    cycle.nodup.sublist (List.Sublist.cons_cons head
      (List.Sublist.append_left (List.sublist_cons_self a ys) xs))
  refine ⟨?_, distinct⟩
  have chain := cycle.chain
  rw [show head :: (xs ++ a :: ys ++ [head]) = (head :: xs) ++ (a :: (ys ++ [head])) by simp,
    List.isChain_append] at chain
  obtain ⟨first, second⟩ := halves distinct chain.1 (List.IsChain.tail chain.2.1) forward backward
  rw [show head :: (xs ++ ys ++ [head]) = (head :: xs) ++ (ys ++ [head]) by simp,
    List.isChain_append]
  refine ⟨first, second, ?_⟩
  intro x hx y hy
  rw [List.getLast?_eq_some_getLast (by simp), Option.mem_some] at hx
  rw [List.head?_eq_some_head (by simp), Option.mem_some] at hy
  subst hx hy
  exact joined

/-- Link a node in after a member. -/
theorem linkAfter {p : α} (xs ys : List α) (cycle : Cycle next prev head (xs ++ p :: ys))
    (fresh : a ∉ head :: (xs ++ p :: ys)) (before : Adjacent next' prev' p a)
    (after : Adjacent next' prev' a ((ys ++ [head]).head (by simp)))
    (forward : ∀ b ∈ head :: (xs ++ p :: ys), b ≠ p → next' b = next b)
    (backward : ∀ b ∈ head :: (xs ++ p :: ys), b ≠ (ys ++ [head]).head (by simp) →
      prev' b = prev b) : Cycle next' prev' head (xs ++ p :: a :: ys) := by
  have linked : Cycle next' prev' head ((xs ++ [p]) ++ a :: ys) :=
    link (xs ++ [p]) ys (by simpa using cycle) (by simpa using fresh) (by simpa using before) after
      (by simpa using forward) (by simpa using backward)
  simpa using linked

/-- Unlink the node after a member. -/
theorem unlinkAfter {p : α} (xs ys : List α) (cycle : Cycle next prev head (xs ++ p :: a :: ys))
    (joined : Adjacent next' prev' p ((ys ++ [head]).head (by simp)))
    (forward : ∀ b ∈ head :: (xs ++ p :: ys), b ≠ p → next' b = next b)
    (backward : ∀ b ∈ head :: (xs ++ p :: ys), b ≠ (ys ++ [head]).head (by simp) →
      prev' b = prev b) : Cycle next' prev' head (xs ++ p :: ys) := by
  have shifted : Cycle next prev head ((xs ++ [p]) ++ a :: ys) := by simpa using cycle
  have unlinked : Cycle next' prev' head ((xs ++ [p]) ++ ys) :=
    unlink (xs ++ [p]) ys shifted (by simpa using joined) (by simpa using forward)
      (by simpa using backward)
  simpa using unlinked

end Cycle

end KuroOS.Base
