import Mathlib.Data.List.Basic
import Mathlib.Logic.Function.Basic

/-!
# Writes that may be done again

What a store reads after a write is, under each key, either one value whatever was there
before or what was there before. Such a write does nothing to a store that reads like one
it has been done to, and neither does a list of such writes.
-/

namespace Dolos

variable {σ κ β α : Type*} {read : σ → κ → β} {first second : σ → σ}

/-- Each reading is set, or kept. -/
def Redoable (read : σ → κ → β) (write : σ → σ) : Prop :=
  ∀ key, (∃ value, ∀ store, read (write store) key = value) ∨
    ∀ store, read (write store) key = read store key

namespace Redoable

theorem comp (before : Redoable read first) (after : Redoable read second) :
    Redoable read (second ∘ first) := by
  intro key
  rcases after key with ⟨value, isSet⟩ | kept
  · exact Or.inl ⟨value, fun store => isSet (first store)⟩
  · rcases before key with ⟨value, isSet⟩ | keptBefore
    · refine Or.inl ⟨value, ?_⟩
      intro store
      rw [Function.comp_apply, kept, isSet]
    · refine Or.inr ?_
      intro store
      rw [Function.comp_apply, kept, keptBefore]

theorem foldl {write : σ → α → σ} {items : List α}
    (each : ∀ item ∈ items, Redoable read fun store => write store item) :
    Redoable read fun store => items.foldl write store := by
  induction items with
  | nil => exact fun _ => Or.inr fun _ => rfl
  | cons item rest ih =>
      have later := ih fun other member => each other (List.mem_cons_of_mem item member)
      exact (each item List.mem_cons_self).comp later

/-- A store that reads like the outcome reads like it after the write. -/
theorem again (redoable : Redoable read first) (store other : σ)
    (same : read other = read (first store)) : read (first other) = read (first store) := by
  funext key
  rcases redoable key with ⟨value, isSet⟩ | kept
  · rw [isSet, isSet]
  · rw [kept, same]

end Redoable

end Dolos
