import KuroOS.Base.Program
import Mathlib.Order.Defs.Unbundled

/-!
# Programs along a preorder

Every run of such a program ends in a state that is related to its first one, also
when it halts. For a preorder of states this is checked line by line, so it serves
for what a program never does, whatever its state is.
-/

namespace KuroOS.Base

universe u

variable {ε σ α β : Type u}

/-- Every run of the program ends in a related state, whether it returns or halts. -/
def Along (R : σ → σ → Prop) (program : EStateM ε σ α) : Prop :=
  ∀ state, wp program state (fun _ next => R state next) fun _ next => R state next

/-- A run of the program ends in a state, by a return or a halt. -/
def Ends (program : EStateM ε σ α) (state next : σ) : Prop :=
  (∃ value, program state = .ok value next) ∨ ∃ reason, program state = .error reason next

/-- What holds wherever the program ends. -/
theorem Ends.elim {program : EStateM ε σ α} {state next : σ} {P : σ → Prop} (ends : Ends program state next)
    (spec : wp program state (fun _ next => P next) fun _ next => P next) : P next := by
  rcases ends with ⟨value, returned⟩ | ⟨reason, halted⟩
  · have holds := wp_ok spec returned
    exact holds
  · have holds := wp_error spec halted
    exact holds

namespace Along

variable {R : σ → σ → Prop} {program : EStateM ε σ α}

variable [IsPreorder σ R]

theorem pure (value : α) : Along R (Pure.pure value : EStateM ε σ α) := fun state => (wp_pure value).mpr (refl_of R state)

theorem throw (reason : ε) : Along R (MonadExceptOf.throw reason : EStateM ε σ α) := fun state =>
  (wp_throw reason).mpr (refl_of R state)

theorem get : Along R (MonadState.get : EStateM ε σ σ) := fun state => wp_get.mpr (refl_of R state)

theorem bind {next : α → EStateM ε σ β} (first : Along R program) (rest : ∀ value, Along R (next value)) :
    Along R (program >>= next) := fun state => by
  rw [wp_bind]
  refine wp_mono (first state) (fun value reached before => ?_) fun _ _ => id
  exact wp_mono (rest value reached) (fun _ _ => trans_of R before) fun _ _ => trans_of R before

omit [IsPreorder σ R] in
theorem ite {condition : Prop} [Decidable condition] {yes no : EStateM ε σ α} (left : Along R yes) (right : Along R no) :
    Along R (if condition then yes else no) := by
  split
  · exact left
  · exact right

omit [IsPreorder σ R] in
theorem modify {change : σ → σ} (related : ∀ state, R state (change state)) :
    Along R (modify change : EStateM ε σ PUnit) := fun state => (wp_modify change).mpr (related state)

/-- Rounds along the preorder make a loop along it. -/
theorem countUp {body : Nat → EStateM ε σ PUnit} (round : ∀ i, Along R (body i)) (count : Nat) :
    Along R (countUp body count) := by
  induction count with
  | zero => exact pure _
  | succ count ih => exact bind ih fun _ => round count

end Along

end KuroOS.Base
