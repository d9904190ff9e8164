import Mathlib.Algebra.BigOperators.Group.List.Basic
import Mathlib.Algebra.Order.BigOperators.Group.List
import Mathlib.Algebra.Group.Defs

/-!
# A quantity and what is scheduled to replace it

A cell with a live amount and, once something was scheduled, the amount that takes its
place. What is scheduled starts as a copy of the live amount, so that later additions to the
live amount are lost when the scheduled one takes over. Credits that reach the live amount
before anything is scheduled add up, whatever the two kinds are otherwise.
-/

namespace Dolos

structure TwoSlot (M : Type*) where
  live : M
  next : Option M
  deriving DecidableEq, Repr

inductive SlotCredit (M : Type*) where
  | live (amount : M)
  | next (amount : M)
  deriving DecidableEq, Repr

namespace SlotCredit

variable {M : Type*}

def amount : SlotCredit M → M
  | live amount => amount
  | next amount => amount

end SlotCredit

namespace TwoSlot

variable {M : Type*} [AddCommMonoid M]

def credit (slots : TwoSlot M) : SlotCredit M → TwoSlot M
  | .live amount => { slots with live := slots.live + amount }
  | .next amount => { slots with next := some (slots.next.getD slots.live + amount) }

/-- The amount that is live once the scheduled one took its place. -/
def promote (slots : TwoSlot M) : M := slots.next.getD slots.live

def total (credits : List (SlotCredit M)) : M := (credits.map SlotCredit.amount).sum

def scheduledOf : SlotCredit M → M
  | .live _ => 0
  | .next amount => amount

def liveOf : SlotCredit M → M
  | .live amount => amount
  | .next _ => 0

/-- What goes to the live amount after something was scheduled. -/
def lost : List (SlotCredit M) → M
  | [] => 0
  | .live _ :: rest => lost rest
  | .next _ :: rest => (rest.map liveOf).sum

def landed : List (SlotCredit M) → M
  | [] => 0
  | .live amount :: rest => amount + landed rest
  | .next amount :: rest => amount + (rest.map scheduledOf).sum

theorem amount_eq (credit : SlotCredit M) : credit.amount = scheduledOf credit + liveOf credit := by
  cases credit <;> simp [SlotCredit.amount, scheduledOf, liveOf]

theorem total_eq (credits : List (SlotCredit M)) :
    total credits = (credits.map scheduledOf).sum + (credits.map liveOf).sum := by
  rw [total, ← List.sum_map_add]
  exact congrArg List.sum (List.map_congr_left fun credit _ => amount_eq credit)

theorem landed_add_lost (credits : List (SlotCredit M)) :
    landed credits + lost credits = total credits := by
  induction credits with
  | nil => simp [landed, lost, total]
  | cons credit rest ih =>
      cases credit with
      | live amount =>
          simp only [landed, lost, total, List.map_cons, List.sum_cons, SlotCredit.amount]
          rw [add_assoc, ih, total]
      | next amount =>
          simp only [landed, lost]
          rw [add_assoc, ← total_eq, total, total, List.map_cons, List.sum_cons]
          rfl

theorem promote_scheduled {live next : M} (credits : List (SlotCredit M)) :
    (credits.foldl credit ⟨live, some next⟩).promote =
      next + (credits.map scheduledOf).sum := by
  induction credits generalizing live next with
  | nil => simp [promote]
  | cons head rest ih =>
      cases head with
      | live amount => simp [credit, ih, scheduledOf]
      | next amount => simp [credit, ih, scheduledOf, add_assoc]

/-- From a cell with nothing scheduled, what lands is what comes in before the first
scheduling and what is scheduled. -/
theorem promote_credits {live : M} (credits : List (SlotCredit M)) :
    (credits.foldl credit ⟨live, none⟩).promote = live + landed credits := by
  induction credits generalizing live with
  | nil => simp [promote, landed]
  | cons head rest ih =>
      cases head with
      | live amount => simp [credit, ih, landed, add_assoc]
      | next amount => simp [credit, promote_scheduled, landed, add_assoc]

@[simp]
theorem total_append (first second : List (SlotCredit M)) :
    total (first ++ second) = total first + total second := by
  rw [total, List.map_append, List.sum_append]
  rfl

theorem total_lives (amounts : List M) : total (amounts.map SlotCredit.live) = amounts.sum := by
  simp [total, SlotCredit.amount, Function.comp_def]

theorem total_nexts (amounts : List M) : total (amounts.map SlotCredit.next) = amounts.sum := by
  simp [total, SlotCredit.amount, Function.comp_def]

theorem foldl_lives (amounts : List M) (slots : TwoSlot M) :
    (amounts.map SlotCredit.live).foldl credit slots =
      { slots with live := slots.live + amounts.sum } := by
  induction amounts generalizing slots with
  | nil => simp
  | cons amount rest ih => simp [ih, credit, add_assoc]

theorem lost_of_ordered (lives nexts : List M) :
    lost (lives.map SlotCredit.live ++ nexts.map SlotCredit.next) = 0 := by
  induction lives with
  | nil =>
      cases nexts with
      | nil => rfl
      | cons first rest =>
          simp only [List.map_nil, List.nil_append, List.map_cons, lost, List.map_map]
          exact List.sum_eq_zero fun amount member => by
            rcases List.mem_map.mp member with ⟨_, -, rfl⟩
            rfl
  | cons amount rest ih => exact ih

/-- Nothing is lost when what goes to the live amount after a scheduling is nothing. -/
theorem lost_eq_zero_iff [PartialOrder M] [IsOrderedAddMonoid M] [CanonicallyOrderedAdd M]
    {credits : List (SlotCredit M)} :
    lost credits = 0 ↔ ∀ before scheduled after amount,
      credits = before ++ .next scheduled :: after → .live amount ∈ after → amount = 0 := by
  induction credits with
  | nil => simp [lost]
  | cons head rest ih =>
      cases head with
      | live first =>
          rw [lost, ih]
          constructor
          · intro nothing before scheduled after amount split
            cases before with
            | nil => cases split
            | cons _ before => exact nothing before scheduled after amount (List.cons.inj split).2
          · intro nothing before scheduled after amount split
            exact nothing (.live first :: before) scheduled after amount
              (congrArg (List.cons _) split)
      | next first =>
          rw [lost, List.sum_eq_zero_iff]
          constructor
          · intro nothing before scheduled after amount split member
            have inRest : SlotCredit.live amount ∈ rest := by
              cases before with
              | nil =>
                  rcases (List.cons.inj split).2 with rfl
                  exact member
              | cons _ before =>
                  rw [(List.cons.inj split).2]
                  exact List.mem_append_right _ (List.mem_cons_of_mem _ member)
            exact nothing amount (List.mem_map.mpr ⟨_, inRest, rfl⟩)
          · intro nothing amount member
            rcases List.mem_map.mp member with ⟨credit, isLater, rfl⟩
            cases credit with
            | live later => exact nothing [] first rest later rfl isLater
            | next later => rfl

/-- Everything lands exactly when nothing is lost. -/
theorem promote_eq_total_iff [IsLeftCancelAdd M] {live : M} {credits : List (SlotCredit M)} :
    (credits.foldl credit ⟨live, none⟩).promote = live + total credits ↔ lost credits = 0 := by
  rw [promote_credits, ← landed_add_lost, add_left_cancel_iff]
  constructor
  · intro same
    exact (add_left_cancel (same.symm.trans (add_zero _).symm))
  · intro nothing
    rw [nothing, add_zero]

end TwoSlot

end Dolos
