import Mathlib.Data.List.Nodup
import Mathlib.Tactic.Ring

/-!
# Queues that are gone around

Members of a queue take turns. The member whose turn it is passes it to the next one, or
leaves, and then the turn starts again at the front; members that join do so at the
back. So whoever waits sees the number of members before it only go down, and between
two of these losses each turn brings it nearer: a rank goes down at every turn, and a
member of a queue that never grows beyond a bound waits for a bounded number of turns.
-/

namespace KuroOS.Base

variable {α : Type} [DecidableEq α]

/-- A turn: from the member `c` of a queue to the next one, around its end, or to the front of
the queue that `c` has left. -/
inductive Rotates : List α → α → List α → α → Prop
  | next {before after : List α} {c d : α} : Rotates (before ++ c :: d :: after) c (before ++ c :: d :: after) d
  | around {rest : List α} {c d : α} : Rotates (d :: (rest ++ [c])) c (d :: (rest ++ [c])) d
  | alone {c : α} : Rotates [c] c [c] c
  | leaves {before after rest : List α} {c d : α} (front : before ++ after = d :: rest) :
      Rotates (before ++ c :: after) c (before ++ after) d

/-- How far a member is from its turn, in a queue of at most `bound` members: those that stand
before it count most. -/
def waitRank (bound : Nat) (queue : List α) (c x : α) : Nat :=
  queue.idxOf x * bound + if queue.idxOf c < queue.idxOf x then queue.idxOf x - queue.idxOf c else bound + queue.idxOf x - queue.idxOf c

variable {bound : Nat} {queue queue' before after : List α} {c d x : α}

theorem idxOf_here (distinct : (before ++ c :: after).Nodup) : (before ++ c :: after).idxOf c = before.length := by
  have fresh : c ∉ before := fun inside => (List.nodup_append.mp distinct).2.2 c inside c List.mem_cons_self rfl
  rw [List.idxOf_append_of_notMem fresh, List.idxOf_cons_self, Nat.add_zero]

theorem idxOf_next (distinct : (before ++ c :: d :: after).Nodup) : (before ++ c :: d :: after).idxOf d = before.length + 1 := by
  have here : (before ++ [c] ++ d :: after).idxOf d = (before ++ [c]).length := idxOf_here (by simpa using distinct)
  simpa using here

/-- Joining at the back moves no one. -/
theorem waitRank_append (insideC : c ∈ queue) (insideX : x ∈ queue) (joined : List α) :
    waitRank bound (queue ++ joined) c x = waitRank bound queue c x := by
  simp only [waitRank, List.idxOf_append_of_mem insideC, List.idxOf_append_of_mem insideX]

/-- Every turn brings a waiting member nearer, unless it is its own. -/
theorem Rotates.rank (turn : Rotates queue c queue' d) (distinct : queue.Nodup) (short : queue.length ≤ bound) (inside : x ∈ queue)
    (waits : c ≠ x) (still : d ≠ x) : waitRank bound queue' d x < waitRank bound queue c x := by
  cases turn with
  | @next before after c d =>
      have here := idxOf_here distinct
      have next := idxOf_next distinct
      have small := List.idxOf_lt_length_of_mem inside
      have other : (before ++ c :: d :: after).idxOf x ≠ before.length := fun equal =>
        waits (List.idxOf_inj (by simp) |>.mp (here.trans equal.symm))
      have other' : (before ++ c :: d :: after).idxOf x ≠ before.length + 1 := fun equal =>
        still (List.idxOf_inj (by simp) |>.mp (next.trans equal.symm))
      simp only [List.length_append, List.length_cons] at small short
      unfold waitRank
      rw [here, next]
      split <;> split <;> omega
  | @around rest c d =>
      have here : (d :: rest ++ [c]).idxOf c = (d :: rest).length := idxOf_here distinct
      rw [List.cons_append] at here
      have small := List.idxOf_lt_length_of_mem inside
      have other : (d :: (rest ++ [c])).idxOf x ≠ 0 := fun zero =>
        still (List.idxOf_inj (by simp) |>.mp (List.idxOf_cons_self.trans zero.symm))
      have other' : (d :: (rest ++ [c])).idxOf x ≠ (d :: rest).length := fun equal =>
        waits (List.idxOf_inj (by simp) |>.mp (here.trans equal.symm))
      simp only [List.length_append, List.length_cons, List.length_nil] at small short other'
      unfold waitRank
      rw [here, List.idxOf_cons_self, List.length_cons]
      split <;> split <;> omega
  | alone => exact absurd (List.mem_singleton.mp inside).symm waits
  | @leaves before after rest c d front =>
      have here := idxOf_here distinct
      have zero : (before ++ after).idxOf d = 0 := by rw [front, List.idxOf_cons_self]
      have inside' : x ∈ before ++ after := by
        simp only [List.mem_append, List.mem_cons] at inside ⊢
        tauto
      have other : (before ++ after).idxOf x ≠ 0 := fun equal =>
        still (List.idxOf_inj (by rw [front]; simp) |>.mp (zero.trans equal.symm))
      simp only [List.length_append, List.length_cons] at short
      unfold waitRank
      rw [here, zero]
      by_cases first : x ∈ before
      · have low := List.idxOf_lt_length_of_mem first
        rw [List.idxOf_append_of_mem first] at other ⊢
        rw [List.idxOf_append_of_mem first, if_pos (by omega), if_neg (by omega)]
        omega
      · have later : x ∈ after := (List.mem_append.mp inside').resolve_left first
        have low := List.idxOf_lt_length_of_mem later
        rw [List.idxOf_append_of_notMem first] at other ⊢
        rw [List.idxOf_append_of_notMem first, List.idxOf_cons_ne _ waits, if_pos (by omega), if_pos (by omega),
          show before.length + (after.idxOf x + 1) = before.length + after.idxOf x + 1 by omega, Nat.succ_mul]
        omega

/-- A rank is bounded by the place in the queue. -/
theorem waitRank_lt (short : queue.length ≤ bound) (inside : x ∈ queue) (waits : c ≠ x) (insideC : c ∈ queue) :
    waitRank bound queue c x < bound * (queue.idxOf x + 1) := by
  have small := List.idxOf_lt_length_of_mem inside
  have other : queue.idxOf c ≠ queue.idxOf x := fun equal => waits (List.idxOf_inj insideC |>.mp equal)
  unfold waitRank
  rw [Nat.mul_add, Nat.mul_one, Nat.mul_comm bound]
  split <;> omega

end KuroOS.Base
