import Dolos.Core.Entity
import Dolos.Lib.OrderedMap

/-!
# The log tables of the archive

Beside the blocks an archive keeps a table of log rows for each namespace, under keys that
begin with a slot. `truncate_front` drops the rows of the slot it is given along with the
later ones, where the blocks of that slot stay.
-/

namespace Dolos

inductive LogNs where
  | accountEpochs
  | epochs
  | stakes
  deriving DecidableEq, Repr

def LogNs.all : List LogNs := [accountEpochs, epochs, stakes]

/-- A slot before an entity key. -/
abbrev LogKey := ℕ ×ₗ EntityKey

/-- A log key with nothing after its slot. -/
def logKeyOf (slot : ℕ) : LogKey := toLex (slot, 0)

@[ext]
structure LogTables (V : Type) where
  rows : LogNs → OrderedMap LogKey V

namespace LogTables

variable {V : Type}

def empty : LogTables V := ⟨fun _ => ∅⟩

def writeLog (tables : LogTables V) (ns : LogNs) (key : LogKey) (value : V) : LogTables V :=
  ⟨fun other => if other = ns then (tables.rows other).insert key value else tables.rows other⟩

/-- The rows of one writer, all under one slot. -/
def writeRows (tables : LogTables V) (ns : LogNs) (slot : ℕ) (rows : List (EntityKey × V)) :
    LogTables V :=
  rows.foldl (fun tables row => tables.writeLog ns (toLex (slot, row.1)) row.2) tables

/-- `remove_after`, over all the tables. -/
def removeAfter (tables : LogTables V) (slot : ℕ) : LogTables V :=
  ⟨fun ns => (tables.rows ns).filter fun key _ => key < logKeyOf slot⟩

theorem get?_writeLog (tables : LogTables V) (ns other : LogNs) (key otherKey : LogKey)
    (value : V) :
    ((tables.writeLog ns key value).rows other).get? otherKey =
      if other = ns ∧ otherKey = key then some value else (tables.rows other).get? otherKey := by
  by_cases sameNs : other = ns
  · simp only [writeLog, sameNs, if_true, true_and, OrderedMap.get?_insert]
  · simp only [writeLog, sameNs, if_false, false_and]

/-- Rows go under their slot in their table. -/
theorem get?_writeRows_of_ne (tables : LogTables V) {ns other : LogNs} {slot : ℕ} {key : LogKey}
    (rows : List (EntityKey × V)) (elsewhere : other = ns → (ofLex key).1 ≠ slot) :
    ((tables.writeRows ns slot rows).rows other).get? key = (tables.rows other).get? key := by
  induction rows generalizing tables with
  | nil => rfl
  | cons row rest ih =>
      refine (ih (tables.writeLog ns (toLex (slot, row.1)) row.2)).trans ?_
      rw [get?_writeLog, if_neg]
      rintro ⟨sameNs, rfl⟩
      exact elsewhere sameNs rfl

/-- Rows that are there already change nothing. -/
theorem writeRows_of_held {tables : LogTables V} {ns : LogNs} {slot : ℕ}
    {rows : List (EntityKey × V)}
    (held : ∀ row ∈ rows, (tables.rows ns).get? (toLex (slot, row.1)) = some row.2) :
    tables.writeRows ns slot rows = tables := by
  induction rows with
  | nil => rfl
  | cons row rest ih =>
      have same : tables.writeLog ns (toLex (slot, row.1)) row.2 = tables := by
        apply LogTables.ext
        funext other
        apply OrderedMap.ext
        intro key
        rw [get?_writeLog]
        split_ifs with isRow
        · rw [isRow.1, isRow.2, held row List.mem_cons_self]
        · rfl
      have rest := ih fun later isLater => held later (List.mem_cons_of_mem row isLater)
      rw [writeRows, List.foldl_cons, same]
      exact rest

theorem lt_logKeyOf {key : LogKey} {slot : ℕ} : key < logKeyOf slot ↔ (ofLex key).1 < slot := by
  rw [logKeyOf, Prod.Lex.lt_iff]
  simp

theorem get?_removeAfter (tables : LogTables V) (slot : ℕ) (ns : LogNs) (key : LogKey) :
    ((tables.removeAfter slot).rows ns).get? key =
      if (ofLex key).1 < slot then (tables.rows ns).get? key else none := by
  rw [removeAfter, OrderedMap.get?_filter]
  by_cases early : (ofLex key).1 < slot
  · cases (tables.rows ns).get? key <;> simp [lt_logKeyOf, early]
  · cases (tables.rows ns).get? key <;> simp [lt_logKeyOf, early]

/-- Every row is under an earlier slot. -/
def Before (tables : LogTables V) (slot : ℕ) : Prop :=
  ∀ ns key, ((tables.rows ns).get? key).isSome → (ofLex key).1 < slot

theorem before_empty (slot : ℕ) : (empty : LogTables V).Before slot := by
  intro ns key held
  rw [empty, OrderedMap.get?_empty] at held
  cases held

theorem Before.mono {tables : LogTables V} {first second : ℕ} (before : tables.Before first)
    (le : first ≤ second) : tables.Before second :=
  fun ns key held => Nat.lt_of_lt_of_le (before ns key held) le

theorem Before.writeLog {tables : LogTables V} {slot : ℕ} (before : tables.Before slot)
    (ns : LogNs) {key : LogKey} (value : V) (early : (ofLex key).1 < slot) :
    (tables.writeLog ns key value).Before slot := by
  intro other otherKey held
  simp only [LogTables.writeLog] at held
  split at held
  · rw [OrderedMap.get?_insert] at held
    split at held
    · rename_i same
      rw [same]
      exact early
    · exact before other otherKey held
  · exact before other otherKey held

theorem Before.writeRows {tables : LogTables V} {slot rowSlot : ℕ} (before : tables.Before slot)
    (ns : LogNs) (rows : List (EntityKey × V)) (early : rowSlot < slot) :
    (tables.writeRows ns rowSlot rows).Before slot := by
  induction rows generalizing tables with
  | nil => exact before
  | cons row rest ih => exact ih (before.writeLog ns row.2 early)

/-- A cut above every row takes nothing away. -/
theorem removeAfter_of_before {tables : LogTables V} {slot : ℕ} (before : tables.Before slot) :
    tables.removeAfter slot = tables := by
  apply LogTables.ext
  funext ns
  apply OrderedMap.ext
  intro key
  rw [get?_removeAfter]
  split_ifs with early
  · rfl
  · cases found : (tables.rows ns).get? key with
    | none => rfl
    | some value => exact absurd (before ns key (by rw [found]; rfl)) early

end LogTables

end Dolos
