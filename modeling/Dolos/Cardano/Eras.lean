import Mathlib.Data.List.Basic
import Dolos.Core.Point
import Dolos.Lib.Outcome

/-!
# Era summaries and boundaries

The slot arithmetic of `cardano/src/eras.rs` and the two boundary tests of
`cardano/src/pallas_extras.rs`. Every `unwrap` and explicit `panic!` of the
source is an error here. A `ChainSummary.Continuous` summary is what
`load_era_summary` builds from a healthy state: eras that follow each other
without gaps from slot zero, each ending on an epoch boundary. On such a summary
none of the panics is reachable.
-/

namespace Dolos

open Outcome

structure EraBoundary where
  epoch : ℕ
  slot : ℕ
  timestamp : ℕ
  deriving DecidableEq, Repr

structure EraSummary where
  start : EraBoundary
  «end» : Option EraBoundary
  epochLength : ℕ
  slotLength : ℕ
  protocol : ℕ
  deriving DecidableEq, Repr

namespace EraSummary

/-- Epoch and sub-epoch slot of a slot of this era. -/
def slotEpoch (era : EraSummary) (slot : ℕ) : Except Panic (ℕ × ℕ) :=
  if slot < era.start.slot then
    .error (.explicit s!"can't compute epoch for slot {slot} since it's prior to this era")
  else if era.epochLength = 0 then
    .error .divisionByZero
  else
    let eraSlot := slot - era.start.slot
    let eraEpoch := eraSlot / era.epochLength
    let epoch := era.start.epoch + eraEpoch
    let epochSlot := eraSlot - eraEpoch * era.epochLength
    .ok (epoch, epochSlot % 2 ^ 32)

def epochStart (era : EraSummary) (epoch : ℕ) : ℕ :=
  era.start.slot + (epoch - era.start.epoch) * era.epochLength

/-- The epoch alone. -/
def epochAt (era : EraSummary) (slot : ℕ) : ℕ :=
  era.start.epoch + (slot - era.start.slot) / era.epochLength

theorem epochAt_mono (era : EraSummary) {first second : ℕ} (le : first ≤ second) :
    era.epochAt first ≤ era.epochAt second := by
  apply Nat.add_le_add_left
  apply Nat.div_le_div_right
  omega

/-- Slots before the start of an epoch are in earlier ones. -/
theorem epochAt_lt (era : EraSummary) {slot epoch : ℕ} (starts : era.start.slot ≤ slot)
    (before : slot < era.epochStart epoch) : era.epochAt slot < epoch := by
  have inside : slot - era.start.slot < era.epochLength * (epoch - era.start.epoch) := by
    rw [Nat.mul_comm]
    rw [epochStart] at before
    omega
  have quotient := Nat.div_lt_of_lt_mul inside
  rw [epochAt]
  generalize (slot - era.start.slot) / era.epochLength = passed at *
  omega

/-- A slot of an era lies between the starts of its epoch and the next. -/
theorem epochStart_epochAt (era : EraSummary) (positive : 0 < era.epochLength) {slot : ℕ}
    (starts : era.start.slot ≤ slot) :
    era.epochStart (era.epochAt slot) ≤ slot ∧ slot < era.epochStart (era.epochAt slot + 1) := by
  have whole := Nat.div_mul_le_self (slot - era.start.slot) era.epochLength
  have rest := Nat.lt_div_mul_add (a := slot - era.start.slot) positive
  rw [epochStart, epochStart, epochAt, Nat.add_assoc, Nat.add_sub_cancel_left,
    Nat.add_sub_cancel_left, Nat.add_mul, Nat.one_mul]
  omega

theorem epochStart_lt_succ (era : EraSummary) (positive : 0 < era.epochLength) {epoch : ℕ}
    (starts : era.start.epoch ≤ epoch) : era.epochStart epoch < era.epochStart (epoch + 1) := by
  have next : epoch + 1 - era.start.epoch = epoch - era.start.epoch + 1 := by omega
  rw [epochStart, epochStart, next, Nat.add_mul, Nat.one_mul]
  omega

theorem fst_slotEpoch {era : EraSummary} {slot : ℕ} {found : ℕ × ℕ}
    (foundEq : era.slotEpoch slot = .ok found) : found.1 = era.epochAt slot := by
  rw [slotEpoch] at foundEq
  split_ifs at foundEq
  rcases Except.ok.inj foundEq with rfl
  rfl

end EraSummary

structure ChainSummary where
  past : List EraSummary
  protocols : List ℕ
  edge : Option EraSummary
  deriving DecidableEq, Repr

/-- The past eras and the edge follow each other without gaps from the given
epoch and slot on, and every past era is closed on one of its own epoch starts. -/
def EraSummary.Chained (epoch : ℕ) (slot : ℕ) :
    List EraSummary → EraSummary → Prop
  | [], edge => edge.start.epoch = epoch ∧ edge.start.slot = slot ∧ 0 < edge.epochLength
  | era :: rest, edge =>
      era.start.epoch = epoch ∧ era.start.slot = slot ∧ 0 < era.epochLength ∧
        ∃ boundary, era.end = some boundary ∧ epoch ≤ boundary.epoch ∧
          boundary.slot = era.epochStart boundary.epoch ∧
          EraSummary.Chained boundary.epoch boundary.slot rest edge

namespace ChainSummary

/-- A gapless summary from slot zero up to an open edge era. -/
def Continuous (summary : ChainSummary) : Prop :=
  ∃ edge, summary.edge = some edge ∧ EraSummary.Chained 0 0 summary.past edge

def default : ChainSummary := ⟨[], [], none⟩

def appendEra (summary : ChainSummary) (protocol : ℕ) (era : EraSummary) : ChainSummary :=
  { past := summary.past ++ summary.edge.toList
    protocols := summary.protocols ++ [protocol]
    edge := some era }

/-- `self.edge.as_ref().unwrap()`. -/
def getEdge (summary : ChainSummary) : Except Panic EraSummary :=
  match summary.edge with
  | some era => .ok era
  | none => .error .unwrapNone

/-- `find` over the past eras. Evaluating the predicate unwraps the end of each
era that starts early enough, so an open past era is a panic. -/
def findPast (past : List EraSummary) (starts ends : EraBoundary → ℕ) (position : ℕ) :
    Except Panic EraSummary :=
  match past with
  | [] => .error .unwrapNone
  | era :: rest =>
      if starts era.start ≤ position then
        match era.end with
        | none => .error .unwrapNone
        | some boundary =>
            if position < ends boundary then .ok era else findPast rest starts ends position
      else findPast rest starts ends position

def eraForEpoch (summary : ChainSummary) (epoch : ℕ) : Except Panic EraSummary := do
  let edge ← summary.getEdge
  if edge.start.epoch ≤ epoch then .ok edge
  else findPast summary.past EraBoundary.epoch EraBoundary.epoch epoch

def eraForSlot (summary : ChainSummary) (slot : ℕ) : Except Panic EraSummary := do
  let edge ← summary.getEdge
  if edge.start.slot ≤ slot then .ok edge
  else findPast summary.past EraBoundary.slot EraBoundary.slot slot

def slotEpoch (summary : ChainSummary) (slot : ℕ) :
    Except Panic (ℕ × ℕ) := do
  let era ← summary.eraForSlot slot
  era.slotEpoch slot

def epochStart (summary : ChainSummary) (epoch : ℕ) : Except Panic ℕ := do
  let era ← summary.eraForEpoch epoch
  .ok (era.epochStart epoch)

theorem exists_findPast_slot {epoch : ℕ} {slot position : ℕ}
    {past : List EraSummary} {edge : EraSummary}
    (chained : EraSummary.Chained epoch slot past edge) (after : slot ≤ position)
    (beforeEdge : position < edge.start.slot) :
    ∃ era, findPast past EraBoundary.slot EraBoundary.slot position = .ok era ∧
      era.start.slot ≤ position ∧ 0 < era.epochLength := by
  induction past generalizing epoch slot with
  | nil =>
      rcases chained with ⟨_, startSlot, _⟩
      omega
  | cons era rest ih =>
      rcases chained with ⟨_, startSlot, positive, boundary, hasEnd, _, _, restChained⟩
      have starts : era.start.slot ≤ position := by omega
      simp only [findPast, starts, if_true, hasEnd]
      by_cases inside : position < boundary.slot
      · exact ⟨era, by simp [inside], starts, positive⟩
      · rcases ih restChained (by omega) with ⟨found, foundEq, found_le, found_pos⟩
        exact ⟨found, by simp [inside, foundEq], found_le, found_pos⟩

theorem exists_findPast_epoch {epoch position : ℕ} {slot : ℕ}
    {past : List EraSummary} {edge : EraSummary}
    (chained : EraSummary.Chained epoch slot past edge) (after : epoch ≤ position)
    (beforeEdge : position < edge.start.epoch) :
    ∃ era, findPast past EraBoundary.epoch EraBoundary.epoch position = .ok era := by
  induction past generalizing epoch slot with
  | nil =>
      rcases chained with ⟨startEpoch, _, _⟩
      omega
  | cons era rest ih =>
      rcases chained with ⟨startEpoch, _, _, boundary, hasEnd, _, _, restChained⟩
      have starts : era.start.epoch ≤ position := by omega
      simp only [findPast, starts, if_true, hasEnd]
      by_cases inside : position < boundary.epoch
      · exact ⟨era, by simp [inside]⟩
      · rcases ih restChained (by omega) with ⟨found, foundEq⟩
        exact ⟨found, by simp [inside, foundEq]⟩

theorem edge_start_of_chained {epoch : ℕ} {slot : ℕ} {past : List EraSummary}
    {edge : EraSummary} (chained : EraSummary.Chained epoch slot past edge) :
    0 < edge.epochLength := by
  induction past generalizing epoch slot with
  | nil => exact chained.2.2
  | cons era rest ih =>
      rcases chained with ⟨_, _, _, _, _, _, _, restChained⟩
      exact ih restChained

/-- On a continuous summary every slot has an epoch. -/
theorem exists_slotEpoch {summary : ChainSummary} (continuous : summary.Continuous)
    (slot : ℕ) : ∃ epoch, summary.slotEpoch slot = .ok epoch := by
  rcases continuous with ⟨edge, hasEdge, chained⟩
  have found : ∃ era, summary.eraForSlot slot = .ok era ∧
      era.start.slot ≤ slot ∧ 0 < era.epochLength := by
    simp only [eraForSlot, getEdge, hasEdge]
    by_cases atEdge : edge.start.slot ≤ slot
    · exact ⟨edge, by simp [bind, Except.bind, atEdge], atEdge, edge_start_of_chained chained⟩
    · rcases exists_findPast_slot chained (Nat.zero_le _)
          (Nat.lt_of_not_le atEdge) with
        ⟨era, eraEq, era_le, era_pos⟩
      exact ⟨era, by simp [bind, Except.bind, atEdge, eraEq], era_le, era_pos⟩
  rcases found with ⟨era, eraEq, era_le, era_pos⟩
  simp [slotEpoch, eraEq, bind, Except.bind, EraSummary.slotEpoch, Nat.not_lt.mpr era_le,
    Nat.pos_iff_ne_zero.mp era_pos]

/-- The epochs of a chain of eras as one function of the slot, which never falls. -/
theorem exists_epochs {epoch slot : ℕ} {past : List EraSummary} {edge : EraSummary}
    (chained : EraSummary.Chained epoch slot past edge) :
    ∃ epochs : ℕ → ℕ,
      (∀ first second, slot ≤ first → first ≤ second → epochs first ≤ epochs second) ∧
      (∀ position, slot ≤ position → epoch ≤ epochs position) ∧
      (∀ position era, slot ≤ position → position < edge.start.slot →
        findPast past EraBoundary.slot EraBoundary.slot position = .ok era →
          era.epochAt position = epochs position) ∧
      slot ≤ edge.start.slot ∧
      ∀ position, edge.start.slot ≤ position → edge.epochAt position = epochs position := by
  induction past generalizing epoch slot with
  | nil =>
      rcases chained with ⟨startEpoch, startSlot, -⟩
      refine ⟨edge.epochAt, fun _ _ _ => edge.epochAt_mono, ?_, ?_, by omega, fun _ _ => rfl⟩
      · intro position _
        rw [EraSummary.epochAt, startEpoch]
        exact Nat.le_add_right _ _
      · intro position era after beforeEdge
        omega
  | cons era rest ih =>
      rcases chained with
        ⟨startEpoch, startSlot, positive, boundary, hasEnd, later, boundaryEq, restChained⟩
      rcases ih restChained with ⟨epochs, mono, above, found, endLe, atEdge⟩
      have slotLe : slot ≤ boundary.slot := by
        rw [boundaryEq, EraSummary.epochStart, startSlot]
        omega
      refine ⟨fun position =>
        if position < boundary.slot then era.epochAt position else epochs position,
        ?_, ?_, ?_, by omega, ?_⟩
      · intro first second after le
        by_cases secondInside : second < boundary.slot
        · simp only [secondInside, if_true, Nat.lt_of_le_of_lt le secondInside]
          exact era.epochAt_mono le
        · by_cases firstInside : first < boundary.slot
          · simp only [firstInside, secondInside, if_true, if_false]
            have below := era.epochAt_lt (by omega) (boundaryEq ▸ firstInside)
            have := above second (by omega)
            omega
          · simp only [firstInside, secondInside, if_false]
            exact mono first second (by omega) le
      · intro position after
        by_cases inside : position < boundary.slot
        · simp only [inside, if_true]
          rw [EraSummary.epochAt, startEpoch]
          exact Nat.le_add_right _ _
        · simp only [inside, if_false]
          have := above position (by omega)
          omega
      · intro position other after beforeEdge otherEq
        have starts : era.start.slot ≤ position := by omega
        simp only [findPast, starts, if_true, hasEnd] at otherEq
        by_cases inside : position < boundary.slot
        · simp only [inside, if_true, Except.ok.injEq] at otherEq ⊢
          rw [otherEq]
        · simp only [inside, if_false] at otherEq ⊢
          exact found position other (by omega) beforeEdge otherEq
      · intro position after
        have outside : ¬ position < boundary.slot := by omega
        simp only [outside, if_false]
        exact atEdge position after

/-- On a continuous summary later slots are in later epochs. -/
theorem slotEpoch_mono {summary : ChainSummary} (continuous : summary.Continuous)
    {first second : ℕ} (le : first ≤ second) {left right : ℕ × ℕ}
    (leftEq : summary.slotEpoch first = .ok left)
    (rightEq : summary.slotEpoch second = .ok right) : left.1 ≤ right.1 := by
  rcases continuous with ⟨edge, hasEdge, chained⟩
  rcases exists_epochs chained with ⟨epochs, mono, -, found, -, atEdge⟩
  have same : ∀ {slot : ℕ} {at_ : ℕ × ℕ}, summary.slotEpoch slot = .ok at_ →
      at_.1 = epochs slot := by
    intro slot at_ atEq
    rcases bind_eq_ok.mp atEq with ⟨era, eraEq, inEra⟩
    rw [EraSummary.fst_slotEpoch inEra]
    simp only [eraForSlot, getEdge, hasEdge, ok_bind] at eraEq
    split_ifs at eraEq with isEdge
    · rcases Except.ok.inj eraEq with rfl
      exact atEdge slot isEdge
    · exact found slot era (Nat.zero_le _) (by omega) eraEq
  rw [same leftEq, same rightEq]
  exact mono first second (Nat.zero_le _) le

/-- The first slots of the epochs of a chain of eras as one function, which always rises,
and where the slots lie between them. -/
theorem exists_starts {epoch slot : ℕ} {past : List EraSummary} {edge : EraSummary}
    (chained : EraSummary.Chained epoch slot past edge) :
    ∃ starts : ℕ → ℕ,
      starts epoch = slot ∧ (∀ number, epoch ≤ number → starts number < starts (number + 1)) ∧
      epoch ≤ edge.start.epoch ∧
      (∀ number era, epoch ≤ number → number < edge.start.epoch →
        findPast past EraBoundary.epoch EraBoundary.epoch number = .ok era →
          era.epochStart number = starts number) ∧
      (∀ number, edge.start.epoch ≤ number → edge.epochStart number = starts number) ∧
      (∀ position era, slot ≤ position → position < edge.start.slot →
        findPast past EraBoundary.slot EraBoundary.slot position = .ok era →
          epoch ≤ era.epochAt position ∧ starts (era.epochAt position) ≤ position ∧
            position < starts (era.epochAt position + 1)) ∧
      ∀ position, edge.start.slot ≤ position →
        starts (edge.epochAt position) ≤ position ∧
          position < starts (edge.epochAt position + 1) := by
  induction past generalizing epoch slot with
  | nil =>
      rcases chained with ⟨startEpoch, startSlot, positive⟩
      refine ⟨edge.epochStart, ?_, ?_, Nat.le_of_eq startEpoch.symm, ?_, fun _ _ => rfl, ?_, ?_⟩
      · rw [EraSummary.epochStart, startEpoch, startSlot, Nat.sub_self, Nat.zero_mul, Nat.add_zero]
      · intro number after
        exact edge.epochStart_lt_succ positive (startEpoch ▸ after)
      · intro number era after beforeEdge
        omega
      · intro position era after beforeEdge
        omega
      · intro position after
        exact edge.epochStart_epochAt positive after
  | cons era rest ih =>
      rcases chained with
        ⟨startEpoch, startSlot, positive, boundary, hasEnd, later, boundaryEq, restChained⟩
      rcases ih restChained with ⟨starts, first, rises, before, found, atEdge, slots, edgeSlots⟩
      have joint : starts boundary.epoch = era.epochStart boundary.epoch := by
        rw [first, boundaryEq]
      have startLe : era.start.epoch ≤ boundary.epoch := startEpoch ▸ later
      refine ⟨fun number =>
        if number < boundary.epoch then era.epochStart number else starts number,
        ?_, ?_, by omega, ?_, ?_, ?_, ?_⟩
      · by_cases inside : epoch < boundary.epoch
        · simp only [inside, if_true]
          rw [EraSummary.epochStart, startEpoch, startSlot, Nat.sub_self, Nat.zero_mul,
            Nat.add_zero]
        · have same : epoch = boundary.epoch := by omega
          simp only [inside, if_false]
          rw [same, joint, EraSummary.epochStart, startEpoch, startSlot, ← same, Nat.sub_self,
            Nat.zero_mul, Nat.add_zero]
      · intro number after
        by_cases nextInside : number + 1 < boundary.epoch
        · have inside : number < boundary.epoch := by omega
          simp only [inside, nextInside, if_true]
          exact era.epochStart_lt_succ positive (by omega)
        · by_cases inside : number < boundary.epoch
          · have isLast : number + 1 = boundary.epoch := by omega
            simp only [inside, nextInside, if_true, if_false]
            rw [isLast, joint, ← isLast]
            exact era.epochStart_lt_succ positive (by omega)
          · simp only [inside, nextInside, if_false]
            exact rises number (by omega)
      · intro number other after beforeEdge otherEq
        have isAfter : era.start.epoch ≤ number := by omega
        simp only [findPast, isAfter, if_true, hasEnd] at otherEq
        by_cases inside : number < boundary.epoch
        · simp only [inside, if_true, Except.ok.injEq] at otherEq ⊢
          rw [otherEq]
        · simp only [inside, if_false] at otherEq ⊢
          exact found number other (by omega) beforeEdge otherEq
      · intro number after
        have outside : ¬ number < boundary.epoch := by omega
        simp only [outside, if_false]
        exact atEdge number after
      · intro position other after beforeEdge otherEq
        have isAfter : era.start.slot ≤ position := by omega
        simp only [findPast, isAfter, if_true, hasEnd] at otherEq
        by_cases inside : position < boundary.slot
        · simp only [inside, if_true, Except.ok.injEq] at otherEq
          subst otherEq
          have below := era.epochAt_lt isAfter (boundaryEq ▸ inside)
          rcases era.epochStart_epochAt positive isAfter with ⟨startsBefore, endsAfter⟩
          simp only [below, if_true]
          have after : epoch ≤ era.epochAt position := by
            rw [← startEpoch]
            exact Nat.le_add_right _ _
          refine ⟨after, startsBefore, ?_⟩
          by_cases nextInside : era.epochAt position + 1 < boundary.epoch
          · simp only [nextInside, if_true]
            exact endsAfter
          · have isLast : era.epochAt position + 1 = boundary.epoch := by omega
            simp only [nextInside, if_false]
            rw [isLast, joint, ← isLast]
            exact endsAfter
        · simp only [inside, if_false] at otherEq
          rcases slots position other (by omega) beforeEdge otherEq with
            ⟨epochLe, startsBefore, endsAfter⟩
          have outside : ¬ other.epochAt position < boundary.epoch := by omega
          have outsideNext : ¬ other.epochAt position + 1 < boundary.epoch := by omega
          simp only [outside, outsideNext, if_false]
          exact ⟨le_trans later epochLe, startsBefore, endsAfter⟩
      · intro position after
        have epochLe : boundary.epoch ≤ edge.epochAt position :=
          le_trans before (Nat.le_add_right _ _)
        have outside : ¬ edge.epochAt position < boundary.epoch := by omega
        have outsideNext : ¬ edge.epochAt position + 1 < boundary.epoch := by omega
        simp only [outside, outsideNext, if_false]
        exact edgeSlots position after

/-- The first slot of every epoch of a continuous summary. -/
structure Starts (summary : ChainSummary) (starts : ℕ → ℕ) : Prop where
  zero : starts 0 = 0
  rises : ∀ epoch, starts epoch < starts (epoch + 1)
  epochStart : ∀ epoch, summary.epochStart epoch = .ok (starts epoch)
  slotEpoch : ∀ slot found, summary.slotEpoch slot = .ok found →
    starts found.1 ≤ slot ∧ slot < starts (found.1 + 1)

/-- On a continuous summary every epoch has a first slot. -/
theorem exists_epochStart {summary : ChainSummary} (continuous : summary.Continuous)
    (epoch : ℕ) : ∃ slot, summary.epochStart epoch = .ok slot := by
  rcases continuous with ⟨edge, hasEdge, chained⟩
  have found : ∃ era, summary.eraForEpoch epoch = .ok era := by
    simp only [eraForEpoch, getEdge, hasEdge]
    by_cases atEdge : edge.start.epoch ≤ epoch
    · exact ⟨edge, by simp [bind, Except.bind, atEdge]⟩
    · rcases exists_findPast_epoch chained (Nat.zero_le _)
          (Nat.lt_of_not_le atEdge) with ⟨era, eraEq⟩
      exact ⟨era, by simp [bind, Except.bind, atEdge, eraEq]⟩
  rcases found with ⟨era, eraEq⟩
  exact ⟨era.epochStart epoch, by simp [epochStart, eraEq, bind, Except.bind]⟩

theorem exists_starts_of_continuous {summary : ChainSummary} (continuous : summary.Continuous) :
    ∃ starts, summary.Starts starts := by
  have everyEpoch := exists_epochStart continuous
  rcases continuous with ⟨edge, hasEdge, chained⟩
  rcases exists_starts chained with ⟨starts, first, rises, -, found, atEdge, slots, edgeSlots⟩
  refine ⟨starts, first, fun epoch => rises epoch (Nat.zero_le _), ?_, ?_⟩
  · intro epoch
    rcases everyEpoch epoch with ⟨start, startEq⟩
    rcases bind_eq_ok.mp startEq with ⟨era, eraEq, startIs⟩
    rw [startEq, ← Except.ok.inj startIs]
    simp only [eraForEpoch, getEdge, hasEdge, ok_bind] at eraEq
    split_ifs at eraEq with isEdge
    · rcases Except.ok.inj eraEq with rfl
      rw [atEdge epoch isEdge]
    · rw [found epoch era (Nat.zero_le _) (by omega) eraEq]
  · intro slot at_ atEq
    rcases bind_eq_ok.mp atEq with ⟨era, eraEq, inEra⟩
    rw [EraSummary.fst_slotEpoch inEra]
    simp only [eraForSlot, getEdge, hasEdge, ok_bind] at eraEq
    split_ifs at eraEq with isEdge
    · rcases Except.ok.inj eraEq with rfl
      exact edgeSlots slot isEdge
    · exact (slots slot era (Nat.zero_le _) (by omega) eraEq).2

/-- One open era of epochs of a hundred slots. -/
def oneEra : ChainSummary := ⟨[], [], some ⟨⟨0, 0, 0⟩, none, 100, 1, 1⟩⟩

theorem oneEra_continuous : oneEra.Continuous :=
  ⟨_, rfl, rfl, rfl, by decide⟩

theorem oneEra_starts : oneEra.Starts (· * 100) := by
  rcases exists_starts_of_continuous oneEra_continuous with ⟨starts, isStart⟩
  have startsEq : starts = (· * 100) := by
    funext epoch
    have found : oneEra.epochStart epoch = .ok (0 + (epoch - 0) * 100) := rfl
    rw [isStart.epochStart] at found
    have same := Except.ok.inj found
    omega
  rw [← startsEq]
  exact isStart

end ChainSummary

/-- The epochs and boundary slot crossed between two slots, if they differ. -/
def epochBoundary (summary : ChainSummary) (prevSlot nextSlot : ℕ) :
    Except Panic (Option (ℕ × ℕ × ℕ)) := do
  let (prevEpoch, _) ← summary.slotEpoch prevSlot
  let (nextEpoch, _) ← summary.slotEpoch nextSlot
  if prevEpoch ≠ nextEpoch then
    let boundary ← summary.epochStart nextEpoch
    .ok (some (prevEpoch, boundary, nextEpoch))
  else
    .ok none

/-- The reward-update boundary of the previous slot's epoch, if it lies between
the two slots. -/
def rupdBoundary (stabilityWindow : ℕ) (summary : ChainSummary)
    (prevSlot nextSlot : ℕ) : Except Panic (Option ℕ) := do
  let (prevEpoch, _) ← summary.slotEpoch prevSlot
  let epochStart ← summary.epochStart prevEpoch
  let boundary := epochStart + stabilityWindow
  if prevSlot ≤ boundary ∧ boundary < nextSlot then
    .ok (some boundary)
  else
    .ok none

theorem exists_epochBoundary {summary : ChainSummary} (continuous : summary.Continuous)
    (prevSlot nextSlot : ℕ) :
    ∃ crossed, epochBoundary summary prevSlot nextSlot = .ok crossed := by
  rcases ChainSummary.exists_slotEpoch continuous prevSlot with ⟨prev, prevEq⟩
  rcases ChainSummary.exists_slotEpoch continuous nextSlot with ⟨next, nextEq⟩
  rcases ChainSummary.exists_epochStart continuous next.1 with ⟨start, startEq⟩
  simp only [epochBoundary, prevEq, nextEq, startEq, bind, Except.bind]
  split
  · exact ⟨_, rfl⟩
  · exact ⟨_, rfl⟩

theorem exists_rupdBoundary {summary : ChainSummary} (continuous : summary.Continuous)
    (stabilityWindow : ℕ) (prevSlot nextSlot : ℕ) :
    ∃ crossed, rupdBoundary stabilityWindow summary prevSlot nextSlot = .ok crossed := by
  rcases ChainSummary.exists_slotEpoch continuous prevSlot with ⟨prev, prevEq⟩
  rcases ChainSummary.exists_epochStart continuous prev.1 with ⟨start, startEq⟩
  simp only [rupdBoundary, prevEq, startEq, bind, Except.bind]
  split
  · exact ⟨_, rfl⟩
  · exact ⟨_, rfl⟩

/-- Two slots cross an epoch boundary exactly when their epochs differ. -/
theorem epochBoundary_isSome_iff {summary : ChainSummary} {prevSlot nextSlot : ℕ}
    {crossed : Option (ℕ × ℕ × ℕ)}
    {prev next : ℕ × ℕ}
    (prevEq : summary.slotEpoch prevSlot = .ok prev)
    (nextEq : summary.slotEpoch nextSlot = .ok next)
    (crossedEq : epochBoundary summary prevSlot nextSlot = .ok crossed) :
    crossed.isSome ↔ prev.1 ≠ next.1 := by
  simp only [epochBoundary, prevEq, nextEq, bind, Except.bind] at crossedEq
  split at crossedEq
  · rename_i different
    cases start : summary.epochStart next.1 with
    | error panic => simp [start] at crossedEq
    | ok boundary =>
        simp only [start, Except.ok.injEq] at crossedEq
        subst crossed
        simpa using different
  · rename_i same
    simp only [Except.ok.injEq] at crossedEq
    subst crossed
    simpa using same

/-- No boundary of either kind lies between a slot and itself. -/
theorem epochBoundary_self {summary : ChainSummary} {slot : ℕ}
    {crossed : Option (ℕ × ℕ × ℕ)}
    (crossedEq : epochBoundary summary slot slot = .ok crossed) : crossed = none := by
  simp only [epochBoundary, bind, Except.bind] at crossedEq
  cases epochEq : summary.slotEpoch slot with
  | error panic => simp [epochEq] at crossedEq
  | ok epoch => simpa [epochEq, eq_comm] using crossedEq

theorem rupdBoundary_self {summary : ChainSummary} {stabilityWindow : ℕ} {slot : ℕ}
    {crossed : Option ℕ}
    (crossedEq : rupdBoundary stabilityWindow summary slot slot = .ok crossed) :
    crossed = none := by
  simp only [rupdBoundary, bind, Except.bind] at crossedEq
  cases epochEq : summary.slotEpoch slot with
  | error panic => simp [epochEq] at crossedEq
  | ok epoch =>
      simp only [epochEq] at crossedEq
      cases startEq : summary.epochStart epoch.1 with
      | error panic => simp [startEq] at crossedEq
      | ok start =>
          simp only [startEq] at crossedEq
          rw [if_neg (by omega)] at crossedEq
          simpa [eq_comm] using crossedEq

end Dolos
