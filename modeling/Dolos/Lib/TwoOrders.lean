import Mathlib.Order.Lattice
import Mathlib.Data.List.Pairwise

/-!
# Two orders of one list

A list that ascends by one key is in the order of another exactly when the two keys never
disagree.
-/

namespace Dolos

variable {α κ τ : Type*} [LinearOrder κ] [LinearOrder τ]

/-- Among the pairs that a relation compares, a list ascending by one key ascends by another
exactly when no pair has the two keys the other way round. -/
theorem pairwise_iff_agree (key : α → κ) (wanted : α → τ) {compared : α → α → Prop}
    {sorted : List α} (symmetric : ∀ a b, compared a b → compared b a)
    (ascending : sorted.Pairwise fun a b => compared a b → key a ≤ key b)
    (determined : ∀ a ∈ sorted, ∀ b ∈ sorted, key a = key b → wanted a = wanted b) :
    (sorted.Pairwise fun a b => compared a b → wanted a ≤ wanted b) ↔
      ∀ a ∈ sorted, ∀ b ∈ sorted, compared a b → wanted a < wanted b → key a < key b := by
  constructor
  · intro inOrder a isA b isB isCompared less
    have both := List.Pairwise.and ascending inOrder
    have either := List.Pairwise.forall_of_forall_of_flip
      (R := fun a b =>
        ((compared a b → key a ≤ key b) ∧ (compared a b → wanted a ≤ wanted b)) ∨
          ((compared b a → key b ≤ key a) ∧ (compared b a → wanted b ≤ wanted a)))
      (fun a _ => Or.inl ⟨fun _ => le_rfl, fun _ => le_rfl⟩) (both.imp fun held => Or.inl held)
      (both.imp fun held => Or.inr held)
    rcases either isA isB with ⟨keyLe, -⟩ | ⟨-, wantedLe⟩
    · refine (keyLe isCompared).lt_of_ne fun same => ?_
      exact less.ne (determined a isA b isB same)
    · exact absurd (wantedLe (symmetric a b isCompared)) less.not_ge
  · intro agree
    refine ascending.imp_of_mem ?_
    intro a b isA isB keyLe isCompared
    refine le_of_not_gt fun later => ?_
    have back := agree b isB a isA (symmetric a b isCompared) later
    exact absurd (keyLe isCompared) back.not_ge

end Dolos
