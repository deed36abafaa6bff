import Mathlib.Logic.Basic

/-!
# Programs that make calls

A program is a tree of its calls: each goes on with the reply, and the program returns or
ends for good. A monitor follows the calls and says which ones it allows. That a program
keeps to a monitor is proved along its text, and holds of all its runs.
-/

namespace KuroOS.Base

/-- A program that makes calls `C`, gets replies `R`, and returns or ends for good. -/
inductive Calls (C R E α : Type) where
  | done (value : α)
  | ended (how : E)
  | call (c : C) (next : R → Calls C R E α)

variable {C R E α β σ : Type}

namespace Calls

/-- One program after another. -/
def bind : Calls C R E α → (α → Calls C R E β) → Calls C R E β
  | .done value, f => f value
  | .ended how, _ => .ended how
  | .call c next, f => .call c fun r => (next r).bind f

instance : Monad (Calls C R E) where
  pure := .done
  bind := .bind

end Calls

/-- What the environment does with a call: it replies, or ends the program. -/
structure Environment (C R E : Type) where
  replies : C → R → Prop
  ends : C → E → Prop

/-- How far a run has come. -/
inductive Progress (E α : Type) where
  | running
  | returned (value : α)
  | ended (how : E)

/-- The runs of a program, finished or not, with their calls and replies. -/
inductive Runs (env : Environment C R E) : Calls C R E α → List (C × R) → Progress E α → Prop
  | done (value : α) : Runs env (.done value) [] (.returned value)
  | ended (how : E) : Runs env (.ended how) [] (.ended how)
  | running (c : C) (next : R → Calls C R E α) : Runs env (.call c next) [] .running
  | taken {c : C} {next : R → Calls C R E α} {how : E} (ends : env.ends c how) : Runs env (.call c next) [] (.ended how)
  | call {c : C} {next : R → Calls C R E α} {r : R} {log : List (C × R)} {progress : Progress E α} (replies : env.replies c r)
      (rest : Runs env (next r) log progress) : Runs env (.call c next) ((c, r) :: log) progress

/-- The runs of a program that is followed by a loop without an end. -/
inductive Forever (env : Environment C R E) (body : Calls C R E Unit) : Calls C R E Unit → List (C × R) → Option E → Prop
  | running {first : Calls C R E Unit} {log : List (C × R)} (runs : Runs env first log .running) : Forever env body first log none
  | ended {first : Calls C R E Unit} {log : List (C × R)} {how : E} (runs : Runs env first log (.ended how)) :
      Forever env body first log (some how)
  | again {first : Calls C R E Unit} {log later : List (C × R)} {how : Option E} (runs : Runs env first log (.returned ()))
      (rest : Forever env body body later how) : Forever env body first (log ++ later) how

/-- What follows the calls of a program. -/
structure Monitor (C R E σ : Type) where
  step : σ → C × R → σ
  allows : σ → C → Prop
  ends : σ → E → Prop

/-- The state of a monitor after some calls. -/
def Monitor.after (monitor : Monitor C R E σ) (m : σ) (log : List (C × R)) : σ := log.foldl monitor.step m

/-- The monitor allows every call. -/
def Monitor.Allows (monitor : Monitor C R E σ) (m : σ) (log : List (C × R)) : Prop :=
  ∀ before c r later, log = before ++ (c, r) :: later → monitor.allows (monitor.after m before) c

/-- The program keeps to the monitor, and what it returns satisfies a postcondition. -/
def KeepsTo (env : Environment C R E) (monitor : Monitor C R E σ) : Calls C R E α → (α → σ → Prop) → σ → Prop
  | .done value, post, m => post value m
  | .ended how, _, m => monitor.ends m how
  | .call c next, post, m => monitor.allows m c ∧ (∀ how, env.ends c how → monitor.ends m how) ∧
      ∀ r, env.replies c r → KeepsTo env monitor (next r) post (monitor.step m (c, r))

variable {env : Environment C R E} {monitor : Monitor C R E σ} {program body first : Calls C R E α} {post : α → σ → Prop} {m : σ}
  {log : List (C × R)}

theorem Monitor.allows_nil : monitor.Allows m [] := fun _ _ _ _ split => by simp at split

namespace KeepsTo

theorem bind_iff {f : α → Calls C R E β} {post : β → σ → Prop} :
    KeepsTo env monitor (program >>= f) post m ↔ KeepsTo env monitor program (fun value => KeepsTo env monitor (f value) post) m := by
  induction program generalizing m with
  | done value => exact .rfl
  | ended how => exact .rfl
  | call c next ih => exact and_congr_right fun _ => and_congr_right fun _ => forall_congr' fun r => imp_congr_right fun _ => ih r

theorem mono {post' : α → σ → Prop} (keeps : KeepsTo env monitor program post m) (weaker : ∀ value m, post value m → post' value m) :
    KeepsTo env monitor program post' m := by
  induction program generalizing m with
  | done value => exact weaker value m keeps
  | ended how => exact keeps
  | call c next ih =>
      obtain ⟨allows, ends, replies⟩ := keeps
      exact ⟨allows, ends, fun r reply => ih r (replies r reply)⟩

/-- Every run keeps to the monitor. -/
theorem runs {progress : Progress E α} (keeps : KeepsTo env monitor program post m) (runs : Runs env program log progress) :
    monitor.Allows m log ∧ (∀ value, progress = .returned value → post value (monitor.after m log)) ∧
      ∀ how, progress = .ended how → monitor.ends (monitor.after m log) how := by
  induction runs generalizing m with
  | done value =>
      refine ⟨Monitor.allows_nil, fun _ is => ?_, nofun⟩
      cases is
      exact keeps
  | ended how =>
      refine ⟨Monitor.allows_nil, nofun, fun _ is => ?_⟩
      cases is
      exact keeps
  | running c next => exact ⟨Monitor.allows_nil, nofun, nofun⟩
  | taken ends =>
      refine ⟨Monitor.allows_nil, nofun, fun _ is => ?_⟩
      cases is
      exact keeps.2.1 _ ends
  | call replies rest ih =>
      obtain ⟨allows, _, next⟩ := keeps
      obtain ⟨later, returned, ended⟩ := ih (next _ replies)
      refine ⟨fun before c r after split => ?_, returned, ended⟩
      cases before with
      | nil =>
          obtain ⟨⟨rfl, rfl⟩, rfl⟩ : (_ = c ∧ _ = r) ∧ _ = after := by simpa using split
          exact allows
      | cons event before =>
          obtain ⟨rfl, isLog⟩ := List.cons.inj split
          exact later before c r after isLog

end KeepsTo

/-- A call after others. -/
theorem Monitor.Allows.append {later : List (C × R)} (allows : monitor.Allows m log) (more : monitor.Allows (monitor.after m log) later) :
    monitor.Allows m (log ++ later) := by
  intro before c r rest split
  rcases List.append_eq_append_iff.mp split with ⟨middle, isBefore, isLater⟩ | ⟨middle, isLog, isRest⟩
  · rw [isBefore, Monitor.after, List.foldl_append]
    exact more middle c r rest isLater
  · cases middle with
    | nil =>
        rw [List.append_nil] at isLog
        rw [← isLog]
        exact more [] c r rest isRest.symm
    | cons event middle =>
        obtain ⟨rfl, rfl⟩ := List.cons.inj isRest
        exact allows before c r middle isLog

/-- A loop keeps to a monitor if its body keeps an invariant of the monitor's states. -/
theorem KeepsTo.forever {body first : Calls C R E Unit} {Inv : σ → Prop} {how : Option E} (start : KeepsTo env monitor first (fun _ => Inv) m)
    (round : ∀ m, Inv m → KeepsTo env monitor body (fun _ => Inv) m) (runs : Forever env body first log how) :
    monitor.Allows m log ∧ ∀ e, how = some e → monitor.ends (monitor.after m log) e := by
  induction runs generalizing m with
  | running runs => exact ⟨(start.runs runs).1, nofun⟩
  | ended runs =>
      obtain ⟨allows, _, ends⟩ := start.runs runs
      refine ⟨allows, fun _ is => ?_⟩
      cases is
      exact ends _ rfl
  | again runs _ ih =>
      obtain ⟨allows, returned, _⟩ := start.runs runs
      obtain ⟨later, ends⟩ := ih (round _ (returned () rfl))
      refine ⟨allows.append later, fun e is => ?_⟩
      rw [Monitor.after, List.foldl_append]
      exact ends e is

end KuroOS.Base
