/-!
# Weakest preconditions for stateful programs that may halt

Programs are `EStateM ε σ` computations: they return a value and a state, or
halt with a reason and the state reached. `wp` relates a program and a starting
state to two postconditions, one for a return and one for a halt. With
`fun _ _ => False` as the halting postcondition it is total correctness; with
`fun _ _ => True` it is partial correctness; anything between names the halts
that are allowed.
-/

namespace KuroOS.Base

universe u

variable {ε σ α β : Type u}

/-- The program returns into `post` or halts into `halt`. -/
def wp (program : EStateM ε σ α) (state : σ) (post : α → σ → Prop) (halt : ε → σ → Prop) : Prop :=
  match program state with
  | .ok value next => post value next
  | .error reason next => halt reason next

variable {program : EStateM ε σ α} {state : σ} {post : α → σ → Prop} {halt : ε → σ → Prop}

@[simp] theorem wp_pure (value : α) :
    wp (pure value : EStateM ε σ α) state post halt ↔ post value state :=
  Iff.rfl

@[simp] theorem wp_throw (reason : ε) :
    wp (throw reason : EStateM ε σ α) state post halt ↔ halt reason state :=
  Iff.rfl

@[simp] theorem wp_get {post : σ → σ → Prop} :
    wp (get : EStateM ε σ σ) state post halt ↔ post state state :=
  Iff.rfl

@[simp] theorem wp_set {post : PUnit → σ → Prop} (next : σ) :
    wp (set next : EStateM ε σ PUnit) state post halt ↔ post ⟨⟩ next :=
  Iff.rfl

@[simp] theorem wp_modify {post : PUnit → σ → Prop} (change : σ → σ) :
    wp (modify change : EStateM ε σ PUnit) state post halt ↔ post ⟨⟩ (change state) :=
  Iff.rfl

/-- Sequencing: the second program starts where the first returned, and a halt
of the first is a halt of the whole. -/
theorem wp_bind (program : EStateM ε σ α) (next : α → EStateM ε σ β) {post : β → σ → Prop} :
    wp (program >>= next) state post halt ↔
      wp program state (fun value reached => wp (next value) reached post halt) halt := by
  have runs : (program >>= next) state = match program state with
      | .ok value reached => next value reached
      | .error reason reached => .error reason reached := rfl
  unfold wp
  rw [runs]
  cases program state <;> rfl

@[simp] theorem wp_ite (condition : Prop) [Decidable condition]
    (yes no : EStateM ε σ α) :
    wp (if condition then yes else no) state post halt ↔
      if condition then wp yes state post halt else wp no state post halt := by
  split <;> rfl

/-- Weakening either postcondition. -/
theorem wp_mono {post' : α → σ → Prop} {halt' : ε → σ → Prop}
    (holds : wp program state post halt)
    (returns : ∀ value next, post value next → post' value next)
    (halts : ∀ reason next, halt reason next → halt' reason next) :
    wp program state post' halt' := by
  unfold wp at *
  cases outcome : program state with
  | ok value next => exact returns value next (by simpa [outcome] using holds)
  | error reason next => exact halts reason next (by simpa [outcome] using holds)

/-- Sequencing through a specification of the first program. -/
theorem wp_bind_of {mid : α → σ → Prop} {next : α → EStateM ε σ β} {post : β → σ → Prop}
    (first : wp program state mid halt)
    (rest : ∀ value reached, mid value reached → wp (next value) reached post halt) :
    wp (program >>= next) state post halt :=
  (wp_bind program next).mpr (wp_mono first rest fun _ _ => id)

/-- What `wp` says of a run that returned. -/
theorem wp_ok {value : α} {next : σ} (holds : wp program state post halt)
    (returned : program state = .ok value next) : post value next := by
  unfold wp at holds
  simpa [returned] using holds

/-- A run that returned, through a specification that allows every halt. -/
theorem wp_returned {value : α} {next : σ} (holds : wp program state post fun _ _ => True)
    (returned : program state = .ok value next) : post value next :=
  wp_ok holds returned

/-- What `wp` says of a run that halted. -/
theorem wp_error {reason : ε} {next : σ} (holds : wp program state post halt)
    (halted : program state = .error reason next) : halt reason next := by
  unfold wp at holds
  simpa [halted] using holds

/-- `wp` from the two possible outcomes. -/
theorem wp_intro (returns : ∀ value next, program state = .ok value next → post value next)
    (halts : ∀ reason next, program state = .error reason next → halt reason next) :
    wp program state post halt := by
  unfold wp
  cases outcome : program state with
  | ok value next => exact returns value next outcome
  | error reason next => exact halts reason next outcome

/-- A program with no allowed halt returns. -/
theorem wp_of_ok {value : α} {next : σ} (returned : program state = .ok value next) :
    wp program state (fun result after => result = value ∧ after = next) halt :=
  wp_intro (fun result after other => by
      rw [returned] at other
      cases other
      exact ⟨rfl, rfl⟩)
    fun _ _ halted => by
      rw [returned] at halted
      cases halted

/-- The rest of a program starts where its first part has returned. -/
theorem bind_ok {next : α → EStateM ε σ β} {value : α} {reached : σ} (returned : program state = .ok value reached) :
    (program >>= next) state = next value reached := by
  change EStateM.bind program next state = next value reached
  unfold EStateM.bind
  rw [returned]

theorem get_ok (state : σ) : (get : EStateM ε σ σ) state = .ok state state := rfl

theorem wp_total (holds : wp program state post fun _ _ => False) :
    ∃ value next, program state = .ok value next ∧ post value next := by
  unfold wp at holds
  cases outcome : program state with
  | ok value next => exact ⟨value, next, rfl, by simpa [outcome] using holds⟩
  | error reason next => simp [outcome] at holds

/-- A run that returns, with what it returned. -/
theorem wp_returns (holds : wp program state post fun _ _ => False) :
    wp program state (fun value next => post value next ∧ program state = .ok value next) halt := by
  obtain ⟨value, next, returned, after⟩ := wp_total holds
  refine wp_mono (wp_of_ok returned) ?_ fun _ _ => id
  rintro _ _ ⟨rfl, rfl⟩
  exact ⟨after, returned⟩

/-- Two facts about one run hold together. -/
theorem wp_and {post' : α → σ → Prop} {halt' : ε → σ → Prop}
    (left : wp program state post halt) (right : wp program state post' halt') :
    wp program state (fun value next => post value next ∧ post' value next)
      (fun reason next => halt reason next ∧ halt' reason next) :=
  wp_intro (fun _ _ returned => ⟨wp_ok left returned, wp_ok right returned⟩)
    (fun _ _ halted => ⟨wp_error left halted, wp_error right halted⟩)

/-- Every run returns or halts. -/
theorem wp_any : wp program state (fun _ _ => True) fun _ _ => True :=
  wp_intro (fun _ _ _ => trivial) fun _ _ _ => trivial

/-- A total specification, one of whose outcomes occurs: what decides the
condition in each outcome decides it for the program. -/
theorem wp_iff_of {mid : α → σ → Prop} {condition : Prop} (holds : wp program state mid fun _ _ => False)
    (decides : ∀ value next, mid value next → (post value next ↔ condition)) :
    wp program state post (fun _ _ => False) ↔ condition := by
  obtain ⟨value, next, _, reached⟩ := wp_total holds
  constructor
  · intro wanted
    obtain ⟨value, next, _, both⟩ := wp_total
      (wp_mono (wp_and wanted holds) (fun _ _ => id) fun _ _ => And.left)
    exact (decides value next both.2).mp both.1
  · intro true'
    exact wp_mono holds (fun value next reached => (decides value next reached).mpr true') fun _ _ => id

/-- A program that returns a known value: what holds of its result holds of the
value. -/
theorem wp_result_iff {value : α} {extra : σ → Prop} {P : α → Prop}
    (holds : wp program state (fun result next => result = value ∧ extra next) fun _ _ => False) :
    wp program state (fun result _ => P result) (fun _ _ => False) ↔ P value := by
  constructor
  · intro wanted
    obtain ⟨_, _, _, true', rfl, _⟩ := wp_total (wp_mono (wp_and wanted holds) (fun _ _ => id) fun _ _ => And.left)
    exact true'
  · intro wanted
    exact wp_mono holds (fun _ _ both => both.1 ▸ wanted) fun _ _ => id

-- Unfolding `wp` would run the program, so the rules above are its interface.
attribute [irreducible] wp

/-- Run `body 0`, ..., `body (count - 1)` in order: a C `for` loop with a fixed
number of rounds. -/
def countUp (body : Nat → EStateM ε σ PUnit) : Nat → EStateM ε σ PUnit
  | 0 => pure ⟨⟩
  | count + 1 => do
      countUp body count
      body count

/-- The loop rule: an invariant that each round carries forward. -/
theorem wp_countUp {body : Nat → EStateM ε σ PUnit} {count : Nat} (inv : Nat → σ → Prop)
    (start : inv 0 state)
    (round : ∀ i < count, ∀ reached, inv i reached →
      wp (body i) reached (fun _ next => inv (i + 1) next) halt) :
    wp (countUp body count) state (fun _ next => inv count next) halt := by
  induction count with
  | zero => exact (wp_pure _).mpr start
  | succ count ih =>
      refine wp_bind_of (ih fun i below => round i (by omega)) fun _ reached holds => ?_
      exact round count (by omega) reached holds

end KuroOS.Base
