import Mathlib.Algebra.BigOperators.Group.List.Basic
import Mathlib.Tactic.Ring

/-!
# Saturating accounts

A balance in a bounded range and the amounts added to it and taken from it one
after another, each step saturating. While no step saturates, the balance is the
exact sum of its steps.
-/

namespace Dolos.Saturating

/-- A change of a balance. -/
inductive Step where
  | add (amount : ℕ)
  | sub (amount : ℕ)
  deriving DecidableEq, Repr

variable (limit : ℕ)

/-- The balance after a step, never above the limit. -/
def apply (balance : ℕ) : Step → ℕ
  | .add amount => min (balance + amount) limit
  | .sub amount => balance - amount

def run (balance : ℕ) (steps : List Step) : ℕ := steps.foldl (apply limit) balance

/-- A step that does not saturate. -/
def Exact (balance : ℕ) : Step → Prop
  | .add amount => balance + amount ≤ limit
  | .sub amount => amount ≤ balance

/-- No step of a list saturates. -/
def AllExact : ℕ → List Step → Prop
  | _, [] => True
  | balance, step :: rest => Exact limit balance step ∧ AllExact (apply limit balance step) rest

def signed : Step → ℤ
  | .add amount => amount
  | .sub amount => -amount

variable {limit} {balance : ℕ}

theorem apply_exact {step : Step} (exact : Exact limit balance step) :
    (apply limit balance step : ℤ) = balance + signed step := by
  cases step with
  | add amount =>
      simp only [Exact] at exact
      simp only [apply, signed]
      omega
  | sub amount =>
      simp only [Exact] at exact
      simp only [apply, signed]
      omega

@[simp]
theorem allExact_nil : AllExact limit balance [] := trivial

@[simp]
theorem allExact_add {amount : ℕ} {steps : List Step} :
    AllExact limit balance (.add amount :: steps) ↔
      balance + amount ≤ limit ∧ AllExact limit (balance + amount) steps := by
  constructor
  · intro ⟨fits, later⟩
    simp only [Exact] at fits
    simp only [apply, Nat.min_eq_left fits] at later
    exact ⟨fits, later⟩
  · intro ⟨fits, later⟩
    refine ⟨fits, ?_⟩
    simp only [apply, Nat.min_eq_left fits]
    exact later

@[simp]
theorem allExact_sub {amount : ℕ} {steps : List Step} :
    AllExact limit balance (.sub amount :: steps) ↔
      amount ≤ balance ∧ AllExact limit (balance - amount) steps :=
  Iff.rfl

theorem run_exact {steps : List Step} (exact : AllExact limit balance steps) :
    (run limit balance steps : ℤ) = balance + (steps.map signed).sum := by
  induction steps generalizing balance with
  | nil => simp [run]
  | cons step rest ih =>
      have later := ih exact.2
      have first := apply_exact exact.1
      rw [run, List.foldl_cons, ← run, later, first, List.map_cons, List.sum_cons]
      ring

end Dolos.Saturating
