import ForkChoice.Fault

/-!
# Loops

A loop takes one step after another until a step tells the result. Nothing bounds the number of
steps from outside, so a loop may also go on for ever.

* `Computation`: what a computation comes to: a result, a fault, or nothing at all.
* `loop`: the steps from a state on.
-/

namespace ForkChoice

/-- A result or a fault, or `none` for a computation that never ends. -/
abbrev Computation : Type → Type := ExceptT Fault Option

variable {σ ρ : Type}

/-- Repeats a step that leads to the next state or to a result. -/
def loop (step : σ → Except Fault (σ ⊕ ρ)) (s : σ) : Computation ρ := do
  -- there may be no result of type `ρ` to begin with, so it is sought as an optional one
  let result ← repeatM (fun s => do
    match ← step s with
    | .inl next => return .inl next
    | .inr result => return .inr (some result)) s
  match result with
  | some result => pure result
  | none => ExceptT.mk none

variable {step : σ → Except Fault (σ ⊕ ρ)} {s next : σ} {result : ρ} {fault : Fault}

theorem loop_eq (step : σ → Except Fault (σ ⊕ ρ)) (s : σ) : loop step s =
    match step s with
    | .error fault => throw fault
    | .ok (.inl next) => loop step next
    | .ok (.inr result) => pure result := by
  rw [loop, repeatM_eq_of_monadTail]
  dsimp only [repeatM.body]
  rcases step s with fault | next | result
  · rfl
  · rfl
  · rfl

theorem loop_next (h : step s = .ok (.inl next)) : loop step s = loop step next := by
  rw [loop_eq, h]

theorem loop_done (h : step s = .ok (.inr result)) : loop step s = pure result := by
  rw [loop_eq, h]

end ForkChoice
