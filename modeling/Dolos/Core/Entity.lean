import Mathlib.Data.Prod.Lex
import Mathlib.Order.Fin.Basic
import Dolos.Core.Point
import Dolos.Lib.Outcome

/-!
# Entities and deltas

The entity half of `core/src/state.rs`: everything the ledger keeps besides the
UTxO set is an entity under a namespaced key, and every change to it is a delta.
Applying a delta fills the fields its undo needs; the log keeps deltas in that
filled form.
-/

namespace Dolos

/-- A 28-byte hash, ordered as its bytes are. -/
abbrev Hash28 := Fin (2 ^ 224)

/-- The tables of the state store, in the order of their names. -/
inductive Namespace where
  | accounts
  | assets
  | datums
  | dreps
  | epochs
  | gov
  | pendingMirs
  | pendingRewards
  | pools
  | proposals
  deriving DecidableEq, Repr

namespace Namespace

def rank : Namespace → ℕ
  | accounts => 0
  | assets => 1
  | datums => 2
  | dreps => 3
  | epochs => 4
  | gov => 5
  | pendingMirs => 6
  | pendingRewards => 7
  | pools => 8
  | proposals => 9

theorem rank_injective : Function.Injective rank := by
  intro left right same
  cases left <;> cases right <;> first | rfl | simp [rank] at same

instance : LinearOrder Namespace := LinearOrder.lift' rank rank_injective

end Namespace

/-- The 32 bytes of an entity key: shorter keys are padded with zeros on the
right, longer ones cut. -/
abbrev EntityKey := Fin (2 ^ 256)

abbrev NsKey := Namespace ×ₗ EntityKey

namespace EntityKey

/-- A key of 28 bytes, padded. -/
def ofHash28 (hash : Hash28) : EntityKey :=
  ⟨hash.val * 2 ^ 32, by
    have bound := hash.isLt
    omega⟩

/-- Four leading bytes before a 28-byte hash. -/
def ofHead (head : Fin (2 ^ 32)) (hash : Hash28) : EntityKey :=
  ⟨head.val * 2 ^ 224 + hash.val, by
    have headBound := head.isLt
    have hashBound := hash.isLt
    omega⟩

/-- The fixed key of a singleton: the byte `0`, padded. -/
def singleton : EntityKey := ⟨0x30 * 2 ^ 248, by omega⟩

end EntityKey

/-- `u64` addition of the `add!` macro: it saturates. -/
def saturatingAdd (a b : ℕ) : ℕ := min (a + b) (2 ^ 64 - 1)

/-- `Option::expect`. -/
def expect {α : Type*} (value : Option α) (message : String) : Except Panic α :=
  match value with
  | some value => .ok value
  | none => .error (.expectFailed message)

@[simp]
theorem expect_some {α : Type*} (value : α) (message : String) :
    expect (some value) message = .ok value := rfl

@[simp]
theorem expect_none {α : Type*} (message : String) :
    expect (none : Option α) message = .error (.expectFailed message) := rfl

/-- `EntityDelta`: the key of the entity a delta changes, its application, which
also fills the delta's undo fields, and its undo. -/
class EntityDelta (D : Type*) (E : outParam (Type*)) where
  key : D → NsKey
  apply : D → Option E → Except Panic (D × Option E)
  undo : D → Option E → Except Panic (Option E)

namespace EntityDelta

variable {D E : Type*} [EntityDelta D E]

/-- A delta and what became of it when it was applied: it still names its entity,
undoing it restores the value it was applied to, absence included, and applying it
once more to that value gives the same result. -/
structure Faithful (delta applied : D) (before after : Option E) : Prop where
  keyed : key applied = key delta
  undone : undo applied after = .ok before
  replayed : ∃ again, apply applied before = .ok (again, after)

end EntityDelta

end Dolos
