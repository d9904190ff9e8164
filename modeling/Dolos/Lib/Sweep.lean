import Mathlib.Data.List.Basic
import Dolos.Lib.OrderedMap

/-!
# Sweeping a table

One pass over keys of a table: each entry met stays under its key, changed or not,
or leaves the table and is handed over. Over distinct keys the pass decides every
entry by its own value, whatever the order of the keys; only the order of what is
handed over depends on it.
-/

namespace Dolos

/-- What becomes of an entry. -/
inductive Fate (α β : Type*) where
  | stay (value : α)
  | leave (handed : β)

namespace Fate

variable {α β γ δ : Type*}

def map (onKept : α → γ) (onHanded : β → δ) : Fate α β → Fate γ δ
  | stay value => stay (onKept value)
  | leave handed => leave (onHanded handed)

def kept : Fate α β → Option α
  | stay value => some value
  | leave _ => none

def handed : Fate α β → Option β
  | stay _ => none
  | leave handed => some handed

@[simp]
theorem kept_map (onKept : α → γ) (onHanded : β → δ) (fate : Fate α β) :
    (fate.map onKept onHanded).kept = fate.kept.map onKept := by
  cases fate with
  | stay value => rfl
  | leave handed => rfl

@[simp]
theorem handed_map (onKept : α → γ) (onHanded : β → δ) (fate : Fate α β) :
    (fate.map onKept onHanded).handed = fate.handed.map onHanded := by
  cases fate with
  | stay value => rfl
  | leave handed => rfl

end Fate

namespace OrderedMap

variable {κ : Type*} [LinearOrder κ] {α β : Type*} (fate : κ → α → Fate α β)

def sweepOne (state : OrderedMap κ α × List β) (key : κ) : OrderedMap κ α × List β :=
  match state.1.get? key with
  | none => state
  | some value =>
      match fate key value with
      | .stay changed => (state.1.insert key changed, state.2)
      | .leave handed => (state.1.erase key, state.2 ++ [handed])

def sweep (keys : List κ) (state : OrderedMap κ α × List β) : OrderedMap κ α × List β :=
  keys.foldl (sweepOne fate) state

variable {fate}

theorem get?_sweepOne_self (state : OrderedMap κ α × List β) (key : κ) :
    (sweepOne fate state key).1.get? key =
      (state.1.get? key).bind fun value => (fate key value).kept := by
  unfold sweepOne
  cases held : state.1.get? key with
  | none => exact held
  | some value =>
      cases fated : fate key value with
      | stay changed => simp [fated, Fate.kept]
      | leave handed => simp [fated, Fate.kept, get?_erase]

theorem get?_sweepOne_of_ne (state : OrderedMap κ α × List β) {key other : κ}
    (different : other ≠ key) : (sweepOne fate state key).1.get? other = state.1.get? other := by
  unfold sweepOne
  cases held : state.1.get? key with
  | none => rfl
  | some value =>
      cases fated : fate key value with
      | stay changed => simp [fated, get?_insert, different]
      | leave handed => simp [fated, get?_erase, different]

theorem handed_sweepOne (state : OrderedMap κ α × List β) (key : κ) :
    (sweepOne fate state key).2 =
      state.2 ++ ((state.1.get? key).bind fun value => (fate key value).handed).toList := by
  unfold sweepOne
  cases held : state.1.get? key with
  | none => simp
  | some value =>
      cases fated : fate key value with
      | stay changed => simp [fated, Fate.handed]
      | leave handed => simp [fated, Fate.handed]

theorem get?_sweep (fate : κ → α → Fate α β) {keys : List κ} (nodup : keys.Nodup)
    (state : OrderedMap κ α × List β) (key : κ) :
    (sweep fate keys state).1.get? key =
      if key ∈ keys then (state.1.get? key).bind fun value => (fate key value).kept
      else state.1.get? key := by
  induction keys generalizing state with
  | nil => rfl
  | cons head rest ih =>
      rcases List.nodup_cons.mp nodup with ⟨fresh, restNodup⟩
      have step := ih restNodup (sweepOne fate state head)
      change (sweep fate rest (sweepOne fate state head)).1.get? key = _
      rw [step]
      by_cases same : key = head
      · subst same
        simp [fresh, get?_sweepOne_self]
      · simp [same, get?_sweepOne_of_ne]

theorem handed_sweep (fate : κ → α → Fate α β) {keys : List κ} (nodup : keys.Nodup)
    (state : OrderedMap κ α × List β) :
    (sweep fate keys state).2 = state.2 ++ keys.filterMap fun key =>
      (state.1.get? key).bind fun value => (fate key value).handed := by
  induction keys generalizing state with
  | nil => simp [sweep]
  | cons head rest ih =>
      rcases List.nodup_cons.mp nodup with ⟨fresh, restNodup⟩
      have step := ih restNodup (sweepOne fate state head)
      change (sweep fate rest (sweepOne fate state head)).2 = _
      have untouched : rest.filterMap (fun key =>
          ((sweepOne fate state head).1.get? key).bind fun value => (fate key value).handed) =
          rest.filterMap fun key =>
            (state.1.get? key).bind fun value => (fate key value).handed := by
        apply List.filterMap_congr
        intro key member
        have different : key ≠ head := by
          intro same
          exact fresh (same ▸ member)
        rw [get?_sweepOne_of_ne state different]
      rw [step, untouched, handed_sweepOne, List.append_assoc, List.filterMap_cons]
      cases (state.1.get? head).bind fun value => (fate head value).handed with
      | none => rfl
      | some handed => rfl

end OrderedMap

end Dolos
