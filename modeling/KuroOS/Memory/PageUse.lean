import KuroOS.Memory.PagePool

/-!
# Other users of pages

A module that takes pages from the allocator shares it with all the others.
`PageStep` is what the others do between two of its calls: they allocate pages,
write in them and free them, in any order. It is how a run below meets every
order of free pages, adjacent or not, and every moment of exhaustion.
-/

namespace KuroOS

open Base

variable [Layout]

/-- What other kernel code does with pages: `held` are the ones it has. -/
inductive PageStep (held : List Nat) (s : Kernel) : List Nat → Kernel → Prop where
  | alloc {page : Nat} {s' : Kernel} (returned : pageAlloc s = .ok page s') (success : page ≠ 0) :
      PageStep held s (page :: held) s'
  | free {page : Nat} {s' : Kernel} (holds : page ∈ held) (returned : pageFree page s = .ok () s') :
      PageStep held s (held.erase page) s'
  | write {x : Nat} {value : UInt8} (holds : pageOf x ∈ held) :
      PageStep held s held { s with mem := Function.update s.mem x value }

/-- Code that uses pages, from `page_init` on. -/
inductive PageRun : List Nat → Kernel → Prop where
  | start {s₀ s : Kernel} (init : pageInit s₀ = .ok () s) : PageRun [] s
  | step {held held' : List Nat} {s s' : Kernel} (before : PageRun held s)
      (change : PageStep held s held' s') : PageRun held' s'

/-- The pages that other code holds, and the page pool. -/
structure HeldPages (own : Nat → Owner) (free held : List Nat) (s : Kernel) : Prop where
  pool : Pool own free s
  distinct : held.Nodup
  owned : ∀ p ∈ held, own p = .held

variable {own : Nat → Owner} {free held held' : List Nat} {s s' : Kernel}

/-- A step of other code stays within free and held pages. -/
theorem HeldPages.step (holds : HeldPages own free held s) (change : PageStep held s held' s') :
    ∃ own' free', HeldPages own' free' held' s' ∧
      PageMoves {.free, .held} {.free, .held} own s own' s' := by
  have pool := holds.pool
  cases change with
  | @alloc page _ returned success =>
      rcases wp_returned (pool.alloc (o := .held) (by simp)) returned with
        ⟨_, zero, _⟩ | ⟨rest, _, _, wasFree, pool', moves⟩
      · exact absurd zero success
      refine ⟨_, rest, ⟨pool', List.nodup_cons.mpr ⟨fun again => ?_, holds.distinct⟩, ?_⟩,
        moves.mono (by simp) (by simp) (by simp)⟩
      · have := holds.owned page again
        simp [wasFree] at this
      · intro p member
        by_cases equal : p = page
        · simp [equal]
        · rw [Function.update_of_ne equal]
          exact holds.owned p ((List.mem_cons.mp member).resolve_left equal)
  | @free page _ member returned =>
      have here := holds.owned page member
      obtain ⟨own', pool', releases⟩ := wp_returned
        (pool.release (p := page) (by simp [here]) (by simp [here])) returned
      refine ⟨own', _, ⟨pool', holds.distinct.erase page, fun p left => ?_⟩,
        releases.pageMoves (by simp [here]) (by simp) (by simp) (by simp)⟩
      obtain ⟨other, inHeld⟩ := (holds.distinct.mem_erase_iff).mp left
      rw [(releases.owner p).2 other]
      exact holds.owned p inHeld
  | @write x value inside =>
      have here := holds.owned _ inside
      have elsewhere : ∀ y, y ≠ x → Function.update s.mem x value y = s.mem y :=
        fun y other => Function.update_of_ne other _ _
      refine ⟨own, free, ⟨pool.congr (fun y inPool => elsewhere y ?_) rfl, holds.distinct,
        holds.owned⟩, Moves.of_bytes fun y foreign _ => elsewhere y ?_, rfl⟩
      · rintro rfl
        rcases inPool with isFree | isHead
        · simp [here] at isFree
        · exact pool.not_head (by simp [here]) isHead
      · rintro rfl
        simp [here] at foreign

/-- A run of page users leaves every page with the allocator or with them. -/
theorem PageRun.inv (run : PageRun held s) : ∃ own free, HeldPages own free held s ∧
    ∀ q, own q = .free ∨ own q = .held ∨ own q = .outside := by
  induction run with
  | start init =>
      obtain ⟨free, pool, _⟩ := wp_returned pageInit_spec init
      exact ⟨startOwner, free, ⟨pool, List.nodup_nil, by simp⟩,
        fun q => (startOwner_or q).imp id .inr⟩
  | step before change ih =>
      obtain ⟨own, free, holds, uses⟩ := ih
      obtain ⟨own', free', holds', moves⟩ := holds.step change
      refine ⟨own', free', holds', fun q => ?_⟩
      rcases moves.moves.owner q with same | ⟨_, now⟩
      · rw [same]
        exact uses q
      · simp only [Set.mem_insert_iff, Set.mem_singleton_iff] at now
        exact now.imp id .inl

end KuroOS
