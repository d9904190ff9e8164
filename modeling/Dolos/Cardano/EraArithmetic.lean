import Mathlib.Order.WellFounded
import Dolos.Cardano.EraTransitions

/-!
# Slots, epochs and times over all eras

Boundaries add eras to the table one after the other. Whatever transitions were recorded, the
summary loaded from the table answers for every slot and epoch, its two lookups agree, and
neither epochs nor times go back where an era ends. The only limit is the machine word: an
epoch whose first slot, or a slot whose time, does not fit is out of range.
-/

namespace Dolos

open Outcome

namespace EraSummary

/-- Epochs and slots of the era have a length. -/
structure Measured (era : EraSummary) : Prop where
  epochLength : 0 < era.epochLength
  slotLength : 0 < era.slotLength

/-- Eras that follow each other from a boundary on. All but the last are closed on the first
slot of an epoch of their own. -/
def Linked (start : EraBoundary) : List EraSummary → EraSummary → Prop
  | [], edge => edge.start = start ∧ edge.Measured ∧ edge.end = none
  | era :: rest, edge =>
      era.start = start ∧ era.Measured ∧ ∃ atEpoch, era.end = some (era.boundaryAt atEpoch) ∧
        start.epoch < atEpoch ∧ Linked (era.boundaryAt atEpoch) rest edge

variable {start : EraBoundary} {past : List EraSummary} {edge : EraSummary}

theorem Linked.chained (linked : Linked start past edge) :
    Chained start.epoch start.slot past edge := by
  induction past generalizing start with
  | nil =>
      rcases linked with ⟨rfl, measured, -⟩
      exact ⟨rfl, rfl, measured.epochLength⟩
  | cons era rest ih =>
      rcases linked with ⟨rfl, measured, atEpoch, isEnd, later, restLinked⟩
      exact ⟨rfl, rfl, measured.epochLength, _, isEnd, Nat.le_of_lt later, rfl, ih restLinked⟩

/-- Closing the last era and opening another one after it. -/
theorem Linked.concat {atEpoch : ℕ} {opened : EraSummary} (linked : Linked start past edge)
    (later : edge.start.epoch < atEpoch) (isStart : opened.start = edge.boundaryAt atEpoch)
    (measured : opened.Measured) (isOpen : opened.end = none) :
    Linked start (past ++ [{ edge with «end» := some (edge.boundaryAt atEpoch) }]) opened := by
  induction past generalizing start with
  | nil =>
      rcases linked with ⟨rfl, edgeMeasured, -⟩
      exact ⟨rfl, ⟨edgeMeasured.epochLength, edgeMeasured.slotLength⟩, atEpoch, rfl, later,
        isStart, measured, isOpen⟩
  | cons era rest ih =>
      rcases linked with ⟨isFirst, eraMeasured, until_, isEnd, rising, restLinked⟩
      exact ⟨isFirst, eraMeasured, until_, isEnd, rising, ih restLinked⟩

theorem Chained.start_le {epoch slot : ℕ} (chained : Chained epoch slot past edge) :
    epoch ≤ edge.start.epoch := by
  induction past generalizing epoch slot with
  | nil => exact Nat.le_of_eq chained.1.symm
  | cons era rest ih =>
      rcases chained with ⟨-, -, -, boundary, -, later, -, restChained⟩
      exact le_trans later (ih restChained)

theorem Chained.slot_le {epoch slot : ℕ} (chained : Chained epoch slot past edge) :
    slot ≤ edge.start.slot := by
  induction past generalizing epoch slot with
  | nil => exact Nat.le_of_eq chained.2.1.symm
  | cons era rest ih =>
      rcases chained with ⟨-, startSlot, -, boundary, -, -, boundaryEq, restChained⟩
      have upToEnd : slot ≤ boundary.slot := by
        rw [boundaryEq, epochStart, startSlot]
        exact Nat.le_add_right _ _
      exact le_trans upToEnd (ih restChained)

theorem slotTime_mono (era : EraSummary) {first second : ℕ} (le : first ≤ second) :
    era.slotTime first ≤ era.slotTime second := by
  apply Nat.add_le_add_left
  apply Nat.mul_le_mul_right
  omega

/-- The sub-epoch slot counts from the first slot of the epoch. -/
theorem snd_slotEpoch {era : EraSummary} {slot : ℕ} {found : ℕ × ℕ}
    (foundEq : era.slotEpoch slot = .ok found) :
    found.2 = (slot - era.epochStart (era.epochAt slot)) % 2 ^ 32 := by
  rw [slotEpoch] at foundEq
  split_ifs at foundEq with before
  rcases Except.ok.inj foundEq with rfl
  simp only [epochStart, epochAt, Nat.add_sub_cancel_left, Nat.sub_sub]

end EraSummary

namespace ChainSummary

open EraSummary

variable {start : EraBoundary} {past : List EraSummary} {edge : EraSummary}

/-- Among the closed eras, the one that has a slot is the one that has its epoch. -/
theorem findPast_epoch_of_slot {epoch slot position : ℕ} {era : EraSummary}
    (chained : Chained epoch slot past edge) (after : slot ≤ position)
    (found : findPast past EraBoundary.slot EraBoundary.slot position = .ok era) :
    findPast past EraBoundary.epoch EraBoundary.epoch (era.epochAt position) = .ok era ∧
      epoch ≤ era.epochAt position ∧ era.epochAt position < edge.start.epoch := by
  induction past generalizing epoch slot with
  | nil => cases found
  | cons first rest ih =>
      rcases chained with
        ⟨startEpoch, startSlot, positive, boundary, hasEnd, later, boundaryEq, restChained⟩
      have starts : first.start.slot ≤ position := by omega
      simp only [findPast, starts, if_true, hasEnd] at found ⊢
      by_cases inside : position < boundary.slot
      · simp only [inside, if_true, Except.ok.injEq] at found
        subst found
        have below := first.epochAt_lt starts (boundaryEq ▸ inside)
        have isAfter : first.start.epoch ≤ first.epochAt position := Nat.le_add_right _ _
        refine ⟨by simp [isAfter, below], startEpoch ▸ isAfter, ?_⟩
        exact lt_of_lt_of_le below restChained.start_le
      · simp only [inside, if_false] at found
        rcases ih restChained (by omega) found with ⟨foundEpoch, epochLe, beforeEdge⟩
        have isAfter : first.start.epoch ≤ era.epochAt position := by omega
        have outside : ¬ era.epochAt position < boundary.epoch := by omega
        refine ⟨by simp [isAfter, outside, foundEpoch], by omega, beforeEdge⟩

/-- An era that is found has begun. -/
theorem start_le_of_findPast {starts ends : EraBoundary → ℕ} {position : ℕ} {era : EraSummary}
    (found : findPast past starts ends position = .ok era) : starts era.start ≤ position := by
  induction past with
  | nil => cases found
  | cons first rest ih =>
      simp only [findPast] at found
      split_ifs at found with begun
      · cases isEnd : first.end with
        | none => simp [isEnd] at found
        | some boundary =>
            simp only [isEnd] at found
            split_ifs at found with inside
            · rcases Except.ok.inj found with rfl
              exact begun
            · exact ih found
      · exact ih found

/-- The times of the slots of all eras as one function, which never falls. -/
theorem exists_times (linked : Linked start past edge) :
    ∃ times : ℕ → ℕ,
      (∀ first second, start.slot ≤ first → first ≤ second → times first ≤ times second) ∧
      (∀ position, start.slot ≤ position → start.timestamp ≤ times position) ∧
      (∀ position era, start.slot ≤ position → position < edge.start.slot →
        findPast past EraBoundary.slot EraBoundary.slot position = .ok era →
          era.slotTime position = times position) ∧
      ∀ position, edge.start.slot ≤ position → edge.slotTime position = times position := by
  induction past generalizing start with
  | nil =>
      rcases linked with ⟨rfl, -, -⟩
      refine ⟨edge.slotTime, fun _ _ _ => edge.slotTime_mono, ?_, ?_, fun _ _ => rfl⟩
      · intro position _
        exact Nat.le_add_right _ _
      · intro position era _ _ found
        cases found
  | cons era rest ih =>
      rcases linked with ⟨rfl, measured, atEpoch, isEnd, later, restLinked⟩
      rcases ih restLinked with ⟨times, mono, above, found, atEdge⟩
      have slotLe : era.start.slot ≤ (era.boundaryAt atEpoch).slot := Nat.le_add_right _ _
      refine ⟨fun position =>
        if position < (era.boundaryAt atEpoch).slot then era.slotTime position
        else times position, ?_, ?_, ?_, ?_⟩
      · intro first second afterFirst le
        by_cases secondInside : second < (era.boundaryAt atEpoch).slot
        · have firstInside := lt_of_le_of_lt le secondInside
          simp only [firstInside, secondInside, if_true]
          exact era.slotTime_mono le
        · by_cases firstInside : first < (era.boundaryAt atEpoch).slot
          · simp only [firstInside, secondInside, if_true, if_false]
            have upToEnd : era.slotTime first ≤ (era.boundaryAt atEpoch).timestamp :=
              era.slotTime_mono (Nat.le_of_lt firstInside)
            exact le_trans upToEnd (above second (Nat.le_of_not_lt secondInside))
          · simp only [firstInside, secondInside, if_false]
            exact mono first second (Nat.le_of_not_lt firstInside) le
      · intro position after
        by_cases inside : position < (era.boundaryAt atEpoch).slot
        · simp only [inside, if_true]
          exact Nat.le_add_right _ _
        · simp only [inside, if_false]
          have fromStart : era.start.timestamp ≤ (era.boundaryAt atEpoch).timestamp :=
            Nat.le_add_right _ _
          exact le_trans fromStart (above position (Nat.le_of_not_lt inside))
      · intro position other after beforeEdge otherEq
        simp only [findPast, after, if_true, isEnd] at otherEq
        by_cases inside : position < (era.boundaryAt atEpoch).slot
        · simp only [inside, if_true, Except.ok.injEq] at otherEq ⊢
          rw [otherEq]
        · simp only [inside, if_false] at otherEq ⊢
          exact found position other (Nat.le_of_not_lt inside) beforeEdge otherEq
      · intro position after
        have upToEdge : (era.boundaryAt atEpoch).slot ≤ edge.start.slot :=
          restLinked.chained.slot_le
        have outside : ¬ position < (era.boundaryAt atEpoch).slot := by omega
        simp only [outside, if_false]
        exact atEdge position after

/-- Labels kept beside the eras do not change which era is found. -/
theorem findProtocol_of_findPast {entries : List (ℕ × EraSummary)} {epoch : ℕ} {era : EraSummary}
    (labelled : ∀ entry ∈ entries, entry.2.protocol = entry.1)
    (found : findPast (entries.map Prod.snd) EraBoundary.epoch EraBoundary.epoch epoch =
      .ok era) :
    findProtocol entries epoch = .ok (era.protocol, era) := by
  induction entries with
  | nil => cases found
  | cons entry rest ih =>
      have restFound := ih fun other member => labelled other (List.mem_cons_of_mem _ member)
      simp only [List.map_cons, findPast, findProtocol] at found ⊢
      split_ifs at found ⊢ with starts
      · cases isEnd : entry.2.end with
        | none => simp [isEnd] at found
        | some boundary =>
            simp only [isEnd] at found ⊢
            split_ifs at found ⊢ with inside
            · rcases Except.ok.inj found with rfl
              rw [labelled entry List.mem_cons_self]
            · exact restFound found
      · exact restFound found

/-- What a summary answers in the arithmetic of the source, where an answer fits a word. -/
structure Sound (summary : ChainSummary) : Prop where
  /-- Every slot has an era, by slot and by epoch the same, and a place in its epoch. -/
  slot : ∀ slot, slot < 2 ^ 64 → ∃ era found, summary.eraForSlot slot = .ok era ∧
    summary.slotEpochWord slot = .ok found ∧ summary.eraForEpoch found.1 = .ok era ∧
    found.2 < era.epochLength
  /-- Every epoch has an era and a first slot, which is at the start of the epoch. -/
  epoch : ∀ epoch, ∃ era start, summary.eraForEpoch epoch = .ok era ∧
    summary.protocolAndEraForEpoch epoch = .ok (era.protocol, era) ∧
    summary.epochStart epoch = .ok start ∧
    (∀ answer, summary.epochStartWord epoch = .ok answer ↔ start < 2 ^ 64 ∧ start = answer) ∧
    (start < 2 ^ 64 → summary.slotEpochWord start = .ok (epoch, 0))
  /-- The slots of an epoch are those from its first one up to the first one of the next. -/
  within : ∀ epoch start next slot, summary.epochStart epoch = .ok start →
    summary.epochStart (epoch + 1) = .ok next → start ≤ slot → slot < next → slot < 2 ^ 64 →
      summary.slotEpochWord slot = .ok (epoch, (slot - start) % 2 ^ 32)
  epochs_mono : ∀ first second earlier later, first ≤ second →
    summary.slotEpochWord first = .ok earlier → summary.slotEpochWord second = .ok later →
      earlier.1 ≤ later.1
  time : ∀ slot, ∃ time, summary.slotTime slot = .ok time ∧
    ∀ answer, summary.slotTimeWord slot = .ok answer ↔ time < 2 ^ 64 ∧ time = answer
  times_mono : ∀ first second earlier later, first ≤ second →
    summary.slotTimeWord first = .ok earlier → summary.slotTimeWord second = .ok later →
      earlier ≤ later

/-- A summary of eras linked from slot zero on, with the label of each. -/
def Recorded (summary : ChainSummary) : Prop :=
  ∃ (time : ℕ) (before : List (ℕ × EraSummary)) (edge : EraSummary),
    summary = ⟨before.map Prod.snd, before.map Prod.fst ++ [edge.protocol], some edge⟩ ∧
    Linked ⟨0, 0, time⟩ (before.map Prod.snd) edge ∧ ∀ entry ∈ before, entry.2.protocol = entry.1

namespace Recorded

variable {summary : ChainSummary}

theorem continuous (recorded : summary.Recorded) : summary.Continuous := by
  rcases recorded with ⟨time, before, edge, rfl, linked, -⟩
  exact ⟨edge, rfl, linked.chained⟩

theorem exists_eraForSlot (recorded : summary.Recorded) (slot : ℕ) :
    ∃ era, summary.eraForSlot slot = .ok era ∧ era.start.slot ≤ slot ∧ 0 < era.epochLength ∧
      summary.eraForEpoch (era.epochAt slot) = .ok era := by
  rcases recorded with ⟨time, before, edge, rfl, linked, -⟩
  have chained : Chained 0 0 (before.map Prod.snd) edge := linked.chained
  simp only [eraForSlot, eraForEpoch, getEdge, ok_bind]
  by_cases atEdge : edge.start.slot ≤ slot
  · have isAfter : edge.start.epoch ≤ edge.epochAt slot := Nat.le_add_right _ _
    exact ⟨edge, by rw [if_pos atEdge], atEdge, edge_start_of_chained chained,
      by rw [if_pos isAfter]⟩
  · rcases exists_findPast_slot chained (Nat.zero_le _) (Nat.lt_of_not_le atEdge) with
      ⟨era, found, starts, positive⟩
    rcases findPast_epoch_of_slot chained (Nat.zero_le _) found with ⟨foundEpoch, -, beforeEdge⟩
    exact ⟨era, by rw [if_neg atEdge, found], starts, positive,
      by rw [if_neg (Nat.not_le_of_lt beforeEdge), foundEpoch]⟩

theorem exists_eraForEpoch (recorded : summary.Recorded) (epoch : ℕ) :
    ∃ era, summary.eraForEpoch epoch = .ok era ∧ era.start.epoch ≤ epoch ∧
      summary.protocolAndEraForEpoch epoch = .ok (era.protocol, era) := by
  rcases recorded with ⟨time, before, edge, rfl, linked, labelled⟩
  have chained : Chained 0 0 (before.map Prod.snd) edge := linked.chained
  simp only [eraForEpoch, protocolAndEraForEpoch, getEdge, ok_bind]
  by_cases atEdge : edge.start.epoch ≤ epoch
  · exact ⟨edge, by rw [if_pos atEdge], atEdge, by simp [atEdge]⟩
  · rcases exists_findPast_epoch chained (Nat.zero_le _) (Nat.lt_of_not_le atEdge) with
      ⟨era, found⟩
    have paired : (before.map Prod.fst ++ [edge.protocol]).zip (before.map Prod.snd) = before := by
      rw [← List.append_nil (before.map Prod.snd), List.zip_append (by simp), List.zip_nil_right,
        List.append_nil]
      exact (List.zip_of_prod rfl rfl).symm
    refine ⟨era, by rw [if_neg atEdge, found], start_le_of_findPast found, ?_⟩
    rw [if_neg atEdge, paired]
    exact findProtocol_of_findPast labelled found

/-- The first slot of the epoch of an era that was found by slot. -/
theorem epochStart_eq {starts : ℕ → ℕ} (isStart : summary.Starts starts) {era : EraSummary}
    {epoch : ℕ} (found : summary.eraForEpoch epoch = .ok era) :
    era.epochStart epoch = starts epoch := by
  have answered := isStart.epochStart epoch
  rw [epochStart, found] at answered
  exact Except.ok.inj answered

/-- Where a slot is: in the epoch of its era, counted from its first slot. -/
theorem slotEpochWord_eq (recorded : summary.Recorded) {starts : ℕ → ℕ}
    (isStart : summary.Starts starts) {slot : ℕ} (fits : slot < 2 ^ 64) :
    ∃ era, summary.eraForSlot slot = .ok era ∧ 0 < era.epochLength ∧
      summary.eraForEpoch (era.epochAt slot) = .ok era ∧
      starts (era.epochAt slot) ≤ slot ∧ slot < starts (era.epochAt slot) + era.epochLength ∧
      slot < starts (era.epochAt slot + 1) ∧
      summary.slotEpochWord slot =
        .ok (era.epochAt slot, (slot - starts (era.epochAt slot)) % 2 ^ 32) := by
  rcases recorded.exists_eraForSlot slot with ⟨era, found, begun, positive, foundEpoch⟩
  have exact : ∃ answer, era.slotEpoch slot = .ok answer := by
    rw [EraSummary.slotEpoch, if_neg (Nat.not_lt.mpr begun), if_neg (Nat.ne_of_gt positive)]
    exact ⟨_, rfl⟩
  rcases exact with ⟨answer, answered⟩
  have isEpoch := fst_slotEpoch answered
  have isOffset := snd_slotEpoch answered
  have startEq := epochStart_eq isStart foundEpoch
  rw [startEq] at isOffset
  have inSummary : summary.slotEpoch slot = .ok answer := by
    rw [slotEpoch, found]
    exact answered
  rcases isStart.slotEpoch slot answer inSummary with ⟨after, before⟩
  rw [isEpoch] at after before
  rcases era.epochStart_epochAt positive begun with ⟨-, withinEra⟩
  have nextStart : era.epochStart (era.epochAt slot + 1) =
      era.epochStart (era.epochAt slot) + era.epochLength := by
    rw [EraSummary.epochStart, EraSummary.epochStart, epochAt, Nat.add_assoc,
      Nat.add_sub_cancel_left, Nat.add_sub_cancel_left, Nat.add_mul, Nat.one_mul, Nat.add_assoc]
  rw [nextStart, startEq] at withinEra
  have rising : StrictMono starts := strictMono_nat_of_lt_succ isStart.rises
  have epochLe : era.epochAt slot ≤ starts (era.epochAt slot) := rising.le_apply
  refine ⟨era, found, positive, foundEpoch, after, withinEra, before, ?_⟩
  rw [slotEpochWord, found, ok_bind, EraSummary.slotEpochWord_eq_ok]
  have answerEq : answer = (era.epochAt slot, (slot - starts (era.epochAt slot)) % 2 ^ 32) :=
    Prod.ext isEpoch isOffset
  rw [← answerEq]
  refine ⟨answered, ?_⟩
  rw [isEpoch]
  omega

/-- The slots between the first slots of an epoch and of the next are in the epoch. -/
theorem slotEpochWord_of_within (recorded : summary.Recorded) {starts : ℕ → ℕ}
    (isStart : summary.Starts starts) {epoch slot : ℕ} (after : starts epoch ≤ slot)
    (before : slot < starts (epoch + 1)) (fits : slot < 2 ^ 64) :
    summary.slotEpochWord slot = .ok (epoch, (slot - starts epoch) % 2 ^ 32) := by
  rcases recorded.slotEpochWord_eq isStart fits with
    ⟨era, -, -, -, startsBefore, -, endsAfter, answered⟩
  have rising := strictMono_nat_of_lt_succ isStart.rises
  have notLater : era.epochAt slot < epoch + 1 :=
    rising.lt_iff_lt.mp (lt_of_le_of_lt startsBefore before)
  have notEarlier : epoch < era.epochAt slot + 1 :=
    rising.lt_iff_lt.mp (lt_of_le_of_lt after endsAfter)
  have same : era.epochAt slot = epoch := by omega
  rw [answered, same]

theorem exists_slotTimes (recorded : summary.Recorded) :
    ∃ times : ℕ → ℕ, Monotone times ∧ ∀ slot, summary.slotTime slot = .ok (times slot) ∧
      ∀ answer, summary.slotTimeWord slot = .ok answer ↔
        times slot < 2 ^ 64 ∧ times slot = answer := by
  have lookup := recorded.exists_eraForSlot
  rcases recorded with ⟨time, before, edge, rfl, linked, -⟩
  rcases exists_times linked with ⟨times, mono, -, found, atEdge⟩
  refine ⟨times, fun first second le => mono first second (Nat.zero_le _) le, ?_⟩
  intro slot
  rcases lookup slot with ⟨era, eraEq, begun, -, -⟩
  have isTime : era.slotTime slot = times slot := by
    simp only [eraForSlot, getEdge, ok_bind] at eraEq
    split_ifs at eraEq with isEdge
    · rcases Except.ok.inj eraEq with rfl
      exact atEdge slot isEdge
    · exact found slot era (Nat.zero_le _) (Nat.lt_of_not_le isEdge) eraEq
  constructor
  · rw [slotTime, eraEq, ok_bind, isTime]
  · intro answer
    rw [slotTimeWord, eraEq, ok_bind, EraSummary.slotTimeWord_eq_ok begun, isTime]

theorem sound (recorded : summary.Recorded) : summary.Sound := by
  rcases exists_starts_of_continuous recorded.continuous with ⟨starts, isStart⟩
  rcases recorded.exists_slotTimes with ⟨times, timesMono, answers⟩
  refine ⟨?_, ?_, ?_, ?_, ?_, ?_⟩
  · intro slot fits
    rcases recorded.slotEpochWord_eq isStart fits with
      ⟨era, found, positive, foundEpoch, after, withinEra, -, answered⟩
    refine ⟨era, _, found, answered, foundEpoch, ?_⟩
    have small : slot - starts (era.epochAt slot) < era.epochLength := by omega
    exact lt_of_le_of_lt (Nat.mod_le _ _) small
  · intro epoch
    rcases recorded.exists_eraForEpoch epoch with ⟨era, found, begun, labelled⟩
    refine ⟨era, starts epoch, found, labelled, isStart.epochStart epoch, ?_, ?_⟩
    · intro answer
      rw [epochStartWord, found, ok_bind, EraSummary.epochStartWord_eq_ok begun,
        epochStart_eq isStart found]
    · intro fits
      have answered :=
        recorded.slotEpochWord_of_within isStart (le_refl _) (isStart.rises epoch) fits
      simpa only [Nat.sub_self, Nat.zero_mod] using answered
  · intro epoch start next slot startEq nextEq after before fits
    rw [isStart.epochStart] at startEq nextEq
    rcases Except.ok.inj startEq with rfl
    rcases Except.ok.inj nextEq with rfl
    exact recorded.slotEpochWord_of_within isStart after before fits
  · intro first second earlier later le earlierEq laterEq
    have exact : ∀ {slot : ℕ} {answer : ℕ × ℕ}, summary.slotEpochWord slot = .ok answer →
        summary.slotEpoch slot = .ok answer := by
      intro slot answer answered
      rcases bind_eq_ok.mp answered with ⟨era, eraEq, inEra⟩
      rw [slotEpoch, eraEq, ok_bind]
      exact (EraSummary.slotEpochWord_eq_ok.mp inEra).1
    exact slotEpoch_mono recorded.continuous le (exact earlierEq) (exact laterEq)
  · intro slot
    exact ⟨times slot, answers slot⟩
  · intro first second earlier later le earlierEq laterEq
    rcases ((answers first).2 earlier).mp earlierEq with ⟨-, rfl⟩
    rcases ((answers second).2 later).mp laterEq with ⟨-, rfl⟩
    exact timesMono le

end Recorded

end ChainSummary

/-- Appending the rows of a table one after the other. -/
theorem foldl_appendEra (entries : List (ℕ × EraSummary)) :
    (entries.foldl (fun chain entry => chain.appendEra entry.1 entry.2)
          ChainSummary.default).past ++
          (entries.foldl (fun chain entry => chain.appendEra entry.1 entry.2)
            ChainSummary.default).edge.toList = entries.map Prod.snd ∧
      (entries.foldl (fun chain entry => chain.appendEra entry.1 entry.2)
        ChainSummary.default).protocols = entries.map Prod.fst := by
  induction entries using List.reverseRecOn with
  | nil => exact ⟨rfl, rfl⟩
  | append_singleton before last ih =>
      rcases ih with ⟨eras, protocols⟩
      rw [List.foldl_concat, ChainSummary.appendEra, List.map_append, List.map_append, eras,
        protocols]
      exact ⟨rfl, rfl⟩

theorem loadEraSummary_eq {eras : OrderedMap ℕ EraSummary} {before : List (ℕ × EraSummary)}
    {last : ℕ × EraSummary} (entriesEq : eras.entries = before ++ [last]) :
    loadEraSummary eras =
      ⟨before.map Prod.snd, before.map Prod.fst ++ [last.1], some last.2⟩ := by
  rcases foldl_appendEra before with ⟨past, protocols⟩
  rw [loadEraSummary, entriesEq, List.foldl_concat, ChainSummary.appendEra, past, protocols]

/-- The tables that era transitions leave behind: the era of the genesis, and then one more
at a later epoch and for a later protocol each time. -/
inductive EraHistory (genesis : EraGenesis) : OrderedMap ℕ EraSummary → ℕ → ℕ → Prop
  | genesis {time : ℕ} {era : EraSummary} (isStart : era.start = ⟨0, 0, time⟩)
      (measured : era.Measured) (isOpen : era.end = none) :
      EraHistory genesis (OrderedMap.insert ∅ era.protocol era) era.protocol 0
  | transition {eras : OrderedMap ℕ EraSummary} {protocol epoch startingEpochNo : ℕ}
      {pparams : EpochValue PParamsSet} {transition : EraTransition} {consts : ProtocolConstants}
      {collected : Option EraTransitionData} (before : EraHistory genesis eras protocol epoch)
      (later : epoch < startingEpochNo)
      (isTransition : pparams.eraTransition = .ok (some transition))
      (follows : transition.prevVersion = protocol) (rising : protocol < transition.newVersion)
      (isConsts : protocolConstants transition.newVersion genesis = .ok consts)
      (epochLength : 1 ≤ consts.epochLength) (slotLength : 1 ≤ consts.slotLength)
      (recorded : collectEraTransition genesis eras pparams startingEpochNo = .ok collected) :
      EraHistory genesis (writeEraTransition eras collected) transition.newVersion startingEpochNo

namespace EraHistory

variable {genesis : EraGenesis} {eras : OrderedMap ℕ EraSummary} {protocol epoch : ℕ}

/-- The table ends with the open era, under its protocol. -/
structure Kept (eras : OrderedMap ℕ EraSummary) (protocol epoch time : ℕ)
    (before : List (ℕ × EraSummary)) (edge : EraSummary) : Prop where
  entries : eras.entries = before ++ [(protocol, edge)]
  linked : EraSummary.Linked ⟨0, 0, time⟩ (before.map Prod.snd) edge
  labelled : ∀ entry ∈ eras.entries, entry.2.protocol = entry.1
  edgeStart : edge.start.epoch ≤ epoch

theorem Kept.recorded {time : ℕ} {before : List (ℕ × EraSummary)} {edge : EraSummary}
    (kept : Kept eras protocol epoch time before edge) : (loadEraSummary eras).Recorded := by
  have isLabel : edge.protocol = protocol := kept.labelled (protocol, edge) (by
    rw [kept.entries]
    simp)
  refine ⟨time, before, edge, ?_, kept.linked, ?_⟩
  · rw [loadEraSummary_eq kept.entries, isLabel]
  · intro entry member
    exact kept.labelled entry (by
      rw [kept.entries]
      exact List.mem_append_left _ member)

/-- Replacing the last row and appending one under a greater key. -/
theorem entries_reopened {before : List (ℕ × EraSummary)} {edge : EraSummary} {newVersion : ℕ}
    (entriesEq : eras.entries = before ++ [(protocol, edge)]) (rising : protocol < newVersion)
    (closed opened : EraSummary) :
    ((eras.insert protocol closed).insert newVersion opened).entries =
      before ++ [(protocol, closed)] ++ [(newVersion, opened)] := by
  have closedEntries := OrderedMap.entries_insert_last entriesEq closed
  have below : ∀ entry ∈ (eras.insert protocol closed).entries, entry.1 ≤ protocol :=
    OrderedMap.le_of_getLast? (by rw [closedEntries, List.getLast?_concat])
  rw [OrderedMap.entries_insert_above fun entry member =>
    lt_of_le_of_lt (below entry member) rising, closedEntries]

/-- A transition closes the open era and appends the next one. -/
theorem Kept.transition {time startingEpochNo : ℕ} {before : List (ℕ × EraSummary)}
    {edge : EraSummary} {pparams : EpochValue PParamsSet} {transition : EraTransition}
    {consts : ProtocolConstants} {collected : Option EraTransitionData}
    (kept : Kept eras protocol epoch time before edge) (later : epoch < startingEpochNo)
    (isTransition : pparams.eraTransition = .ok (some transition))
    (follows : transition.prevVersion = protocol) (rising : protocol < transition.newVersion)
    (isConsts : protocolConstants transition.newVersion genesis = .ok consts)
    (epochLength : 1 ≤ consts.epochLength) (slotLength : 1 ≤ consts.slotLength)
    (recorded : collectEraTransition genesis eras pparams startingEpochNo = .ok collected) :
    Kept (writeEraTransition eras collected) transition.newVersion startingEpochNo time
      (before ++ [(protocol, { edge with «end» := some (edge.boundaryAt startingEpochNo) })])
      { start := edge.boundaryAt startingEpochNo
        «end» := none
        epochLength := consts.epochLength
        slotLength := consts.slotLength
        protocol := transition.newVersion } := by
  rcases collectEraTransition_eq_some recorded isTransition with
    ⟨previous, found, held, -, foundConsts, rfl⟩
  rw [follows] at held
  have isEdge : previous = edge := by
    have isHeld : eras.get? protocol = some edge :=
      OrderedMap.mem_entries_iff.mp (by rw [kept.entries]; simp)
    exact Option.some.inj (held.symm.trans isHeld)
  have sameConsts : found = consts := Except.ok.inj (foundConsts.symm.trans isConsts)
  subst isEdge sameConsts
  rw [writeEraTransition, follows]
  have openedEntries := entries_reopened kept.entries rising
    { previous with «end» := some (previous.boundaryAt startingEpochNo) }
    { start := previous.boundaryAt startingEpochNo
      «end» := none
      epochLength := found.epochLength
      slotLength := found.slotLength
      protocol := transition.newVersion }
  refine ⟨openedEntries, ?_, ?_, le_refl _⟩
  · rw [List.map_append]
    exact kept.linked.concat (lt_of_le_of_lt kept.edgeStart later) rfl
      ⟨epochLength, slotLength⟩ rfl
  · intro entry member
    rw [openedEntries] at member
    simp only [List.mem_append, List.mem_singleton] at member
    rcases member with (old | rfl) | rfl
    · exact kept.labelled entry (by rw [kept.entries]; simp [old])
    · exact kept.labelled (protocol, previous) (by rw [kept.entries]; simp)
    · rfl

theorem kept (history : EraHistory genesis eras protocol epoch) :
    ∃ time before edge, Kept eras protocol epoch time before edge := by
  induction history with
  | @genesis time era isStart measured isOpen =>
      refine ⟨time, [], era, rfl, ⟨isStart, measured, isOpen⟩, ?_, ?_⟩
      · intro entry member
        rcases List.mem_singleton.mp member with rfl
        rfl
      · rw [isStart]
  | transition _ later isTransition follows rising isConsts epochLength slotLength recorded ih =>
      rcases ih with ⟨time, before, edge, kept⟩
      exact ⟨time, _, _, kept.transition later isTransition follows rising isConsts epochLength
        slotLength recorded⟩

end EraHistory

/-- Slots, epochs and times after any sequence of era transitions. -/
theorem eraHistory_sound {genesis : EraGenesis} {eras : OrderedMap ℕ EraSummary}
    {protocol epoch : ℕ} (history : EraHistory genesis eras protocol epoch) :
    (loadEraSummary eras).Sound := by
  rcases history.kept with ⟨time, before, edge, kept⟩
  exact kept.recorded.sound

namespace ByronToShelley

/-- The lengths of the main network, which change where Byron ends. -/
def genesis : EraGenesis := ⟨20000, some 432000, some 1⟩

def byron : EraSummary := ⟨⟨0, 0, 1506203091⟩, none, 21600, 20, 1⟩

def byronOnly : OrderedMap ℕ EraSummary := OrderedMap.insert ∅ 1 byron

def pparams : EpochValue PParamsSet :=
  { EpochValue.withLive 207 ⟨[⟨.protocolVersion, .version 1 0⟩]⟩ with
    next := some ⟨[⟨.protocolVersion, .version 2 0⟩]⟩ }

def recorded : EraTransitionData where
  prevKey := 1
  prevSummary := { byron with «end» := some ⟨208, 4492800, 1596059091⟩ }
  newKey := 2
  newSummary := ⟨⟨208, 4492800, 1596059091⟩, none, 432000, 1, 2⟩

theorem history_byronOnly : EraHistory genesis byronOnly 1 0 := by
  have isStart : byron.start = ⟨0, 0, 1506203091⟩ := rfl
  exact .genesis isStart ⟨by decide, by decide⟩ rfl

theorem history : EraHistory genesis (writeEraTransition byronOnly (some recorded)) 2 208 := by
  have isTransition : pparams.eraTransition = .ok (some ⟨1, 2⟩) := rfl
  have isConsts : protocolConstants 2 genesis = .ok ⟨432000, 1⟩ := rfl
  have isRecorded : collectEraTransition genesis byronOnly pparams 208 = .ok (some recorded) := rfl
  exact .transition history_byronOnly (by decide) isTransition rfl (by decide) isConsts
    (by decide) (by decide) isRecorded

theorem eraHistory_sound_shelley :
    (loadEraSummary (writeEraTransition byronOnly (some recorded))).slotEpochWord 4492800 =
      .ok (208, 0) := by
  rcases (eraHistory_sound history).epoch 208 with ⟨era, start, -, -, startEq, -, atStart⟩
  have isStart : (loadEraSummary (writeEraTransition byronOnly (some recorded))).epochStart 208 =
      .ok 4492800 := by decide +kernel
  rcases Except.ok.inj (startEq.symm.trans isStart) with rfl
  exact atStart (by decide)

/-- The first slot of a late epoch does not fit a word. -/
theorem epochStart_overflows :
    EraHistory genesis byronOnly 1 0 ∧ 2 ^ 63 < 2 ^ 64 ∧
      (loadEraSummary byronOnly).epochStartWord (2 ^ 63) = .error .overflow :=
  ⟨history_byronOnly, by decide, by decide +kernel⟩

end ByronToShelley

end Dolos
