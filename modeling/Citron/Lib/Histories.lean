/-
# Histories

A system takes a step at an event, unless it refuses to, and gives something back. The history of a run
is the list of its events with what they gave; each step of the run meets a condition on the state and
the event.
-/
import Mathlib

namespace Citron
namespace Lib

variable {σ ε ο : Type*}

/-- A run from one state to another, with its history. -/
inductive History (step : σ → ε → Option (σ × ο)) (condition : σ → ε → Prop) (start : σ) : σ → List (ε × ο) → Prop
  | start : History step condition start start []
  | step {s s' : σ} {history : List (ε × ο)} {event : ε} {output : ο} (hrun : History step condition start s history)
      (hmeets : condition s event) (hstep : step s event = some (s', output)) :
      History step condition start s' (history ++ [(event, output)])

variable {step : σ → ε → Option (σ × ο)} {condition : σ → ε → Prop} {start s s' : σ} {history : List (ε × ο)}

/-- What holds at the start and is kept by every step holds at the end of every run. -/
theorem History.invariant {P : σ → List (ε × ο) → Prop} (h : History step condition start s history) (hstart : P start [])
    (hkeep : ∀ s history event s' output, P s history → condition s event → step s event = some (s', output) →
      P s' (history ++ [(event, output)])) : P s history := by
  induction h with
  | start => exact hstart
  | step _ hmeets hstep ih => exact hkeep _ _ _ _ _ ih hmeets hstep

/-- A step that is not refused. -/
theorem step_get {o : Option (σ × ο)} (h : o.isSome = true) : o = some ((o.get h).1, (o.get h).2) := (Option.some_get h).symm

/-- The events one after the other. -/
def replay (step : σ → ε → Option (σ × ο)) : List ε → σ × List (ε × ο) → Option (σ × List (ε × ο))
  | [], r => some r
  | event :: events, (s, history) =>
    match step s event with
    | none => none
    | some (s', output) => replay step events (s', history ++ [(event, output)])

/-- Events that are not refused make a run. -/
theorem history_of_replay {events : List ε} {r : σ × List (ε × ο)} (h : History step (fun _ _ => True) start s history)
    (hreplay : replay step events (s, history) = some r) : History step (fun _ _ => True) start r.1 r.2 := by
  induction events generalizing s history with
  | nil =>
    rw [replay, Option.some.injEq] at hreplay
    rw [← hreplay]
    exact h
  | cons event events ih =>
    rw [replay] at hreplay
    split at hreplay
    · cases hreplay
    · rename_i s' output hstep
      exact ih (h.step trivial hstep) hreplay

end Lib
end Citron
