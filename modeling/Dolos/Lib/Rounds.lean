import Mathlib.Data.Nat.Notation
import Mathlib.Tactic.Common

/-!
# Rounds

A step that says whether it is the last one, repeated until it does or until a budget of
rounds is spent. Where every step but the last lowers a measure, the loop ends.
-/

namespace Dolos.Rounds

variable {σ : Type*}

/-- The rounds made and the state they leave; nothing when the fuel ends first. -/
def repeatUntil (step : σ → Bool × σ) (budget : Option ℕ) : ℕ → ℕ → σ → Option (ℕ × σ)
  | 0, _, _ => none
  | fuel + 1, rounds, state =>
      if budget.any fun most => most ≤ rounds then some (rounds, state)
      else if (step state).1 then some (rounds + 1, (step state).2)
      else repeatUntil step budget fuel (rounds + 1) (step state).2

variable {step : σ → Bool × σ} {budget : Option ℕ}

theorem exists_repeatUntil (measure : σ → ℕ)
    (falls : ∀ state, (step state).1 = false → measure (step state).2 < measure state)
    {fuel : ℕ} (rounds : ℕ) {state : σ} (enough : measure state < fuel) :
    ∃ outcome, repeatUntil step budget fuel rounds state = some outcome := by
  induction fuel generalizing rounds state with
  | zero => exact absurd enough (Nat.not_lt_zero _)
  | succ fuel ih =>
      rw [repeatUntil]
      split_ifs with spent last
      · exact ⟨_, rfl⟩
      · exact ⟨_, rfl⟩
      · have lower := falls state (Bool.eq_false_iff.mpr last)
        exact ih (rounds + 1) (by omega)

/-- What no step breaks holds where the loop ends. -/
theorem repeatUntil_keeps (invariant : σ → Prop)
    (keeps : ∀ state, invariant state → invariant (step state).2) {fuel rounds : ℕ}
    {state : σ} {outcome : ℕ × σ} (holds : invariant state)
    (ended : repeatUntil step budget fuel rounds state = some outcome) :
    invariant outcome.2 := by
  induction fuel generalizing rounds state with
  | zero => cases ended
  | succ fuel ih =>
      rw [repeatUntil] at ended
      split_ifs at ended with spent last
      · cases ended
        exact holds
      · cases ended
        exact keeps state holds
      · exact ih (keeps state holds) ended

/-- Without a budget the loop ends with a step that said it was the last one. -/
theorem repeatUntil_last {fuel rounds : ℕ} {state : σ} {outcome : ℕ × σ}
    (ended : repeatUntil step none fuel rounds state = some outcome) :
    ∃ before, step before = (true, outcome.2) := by
  induction fuel generalizing rounds state with
  | zero => cases ended
  | succ fuel ih =>
      rw [repeatUntil] at ended
      split_ifs at ended with spent last
      · cases spent
      · cases ended
        exact ⟨state, Prod.ext last rfl⟩
      · exact ih ended

end Dolos.Rounds
