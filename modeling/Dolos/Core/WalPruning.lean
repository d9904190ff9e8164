import Dolos.Core.Archive
import Dolos.Core.Wal
import Dolos.Lib.Rounds

/-!
# Pruning and resetting the log

`prune_history` and `remove_before` of `redb3/src/wal/mod.rs`, with `housekeeping` and
`drain_housekeeping` of `core/src/lib.rs` over the log and the archive.

A round of pruning cuts at most so many slots past the first entry, and never into the
window that ends at the tip. `reset_to` clears what is strictly past the origin, so that an
entry at the origin's own key outlives it.
-/

namespace Dolos

open Rounds

variable {V : Type}

namespace Wal

/-- `find_start`. -/
def findStart (wal : Wal V) : Option (ChainPoint × V) := (wal.iterLogs none none).head?

/-- `min_bound`: the smallest key at a slot. -/
def minBound (slot : ℕ) : ℕ ×ₗ BlockHash := toLex (slot, 0)

def removeBefore (wal : Wal V) (slot : ℕ) : Wal V :=
  wal.filter fun key _ => minBound slot ≤ key

/-- `prune_history`: whether the log is within `maxSlots` now, and what is left of it. -/
def pruneHistory (wal : Wal V) (maxSlots : ℕ) (maxPrune : Option ℕ) : Bool × Wal V :=
  match wal.findStart, wal.findTip with
  | some (start, _), some (last, _) =>
      let excess := last.slot - start.slot - maxSlots
      if excess = 0 then (true, wal)
      else
        match maxPrune with
        | some most => (decide (excess ≤ most), wal.removeBefore (start.slot + min excess most))
        | none => (true, wal.removeBefore (start.slot + excess))
  | _, _ => (true, wal)

end Wal

/-- `sync_config`, as far as `housekeeping` reads it. -/
structure SyncConfig where
  maxHistory : Option ℕ
  maxRollback : Option ℕ
  deriving DecidableEq, Repr

def maxPruneSlotsPerHousekeeping : ℕ := 10000

/-- `housekeeping`, over the archive and the log. -/
def housekeeping (config : SyncConfig) (stores : ArchiveStore × Wal V) :
    Bool × (ArchiveStore × Wal V) :=
  let archive := match config.maxHistory with
    | some maxSlots => stores.1.pruneHistory maxSlots (some maxPruneSlotsPerHousekeeping)
    | none => (true, stores.1)
  let wal := match config.maxRollback with
    | some maxSlots => stores.2.pruneHistory maxSlots (some maxPruneSlotsPerHousekeeping)
    | none => (true, stores.2)
  (archive.1 && wal.1, archive.2, wal.2)

/-- `drain_housekeeping`: the rounds it ran and the stores it leaves. -/
def drainHousekeeping (config : SyncConfig) (maxRounds : Option ℕ) (fuel : ℕ)
    (stores : ArchiveStore × Wal V) : Option (ℕ × (ArchiveStore × Wal V)) :=
  repeatUntil (housekeeping config) maxRounds fuel 0 stores

namespace Wal

variable {wal : Wal V} {maxSlots : ℕ} {maxPrune : Option ℕ}

section Keys

theorem minBound_le_iff {slot : ℕ} {key : ℕ ×ₗ BlockHash} :
    minBound slot ≤ key ↔ slot ≤ (ofLex key).1 := by
  rw [minBound, Prod.Lex.le_iff]
  constructor
  · intro below
    rcases below with earlier | ⟨same, _⟩
    · exact le_of_lt earlier
    · exact le_of_eq same
  · intro below
    rcases lt_or_eq_of_le below with earlier | same
    · exact Or.inl earlier
    · exact Or.inr ⟨same, Fin.zero_le _⟩

theorem slot_le_of_le {key other : ℕ ×ₗ BlockHash} (below : key ≤ other) :
    (ofLex key).1 ≤ (ofLex other).1 := by
  rcases (Prod.Lex.le_iff ..).mp below with earlier | ⟨same, _⟩
  · exact le_of_lt earlier
  · exact le_of_eq same

theorem mem_removeBefore {slot : ℕ} {entry : (ℕ ×ₗ BlockHash) × V} :
    entry ∈ (wal.removeBefore slot).entries ↔
      entry ∈ wal.entries ∧ slot ≤ (ofLex entry.1).1 := by
  change entry ∈ wal.entries.filter _ ↔ _
  rw [List.mem_filter, decide_eq_true_eq, minBound_le_iff]

end Keys

section Ends

theorem findStart_eq :
    wal.findStart = wal.entries.head?.map fun entry => (.fromBytes entry.1, entry.2) := by
  simp only [findStart, iterLogs, List.filter_true, List.head?_map]

theorem findTip_eq :
    wal.findTip = wal.entries.getLast?.map fun entry => (.fromBytes entry.1, entry.2) := by
  simp only [findTip, iterLogs, List.filter_true, List.getLast?_map]

theorem slot_head_le {first : (ℕ ×ₗ BlockHash) × V} (isFirst : wal.entries.head? = some first)
    {entry : (ℕ ×ₗ BlockHash) × V} (member : entry ∈ wal.entries) :
    (ofLex first.1).1 ≤ (ofLex entry.1).1 := by
  have sorted := wal.sorted
  rcases List.head?_eq_some_iff.mp isFirst with ⟨rest, entriesEq⟩
  rw [entriesEq] at sorted member
  rcases List.mem_cons.mp member with rfl | later
  · exact le_refl _
  · exact slot_le_of_le (le_of_lt ((List.pairwise_cons.mp sorted).1 entry later))

theorem slot_le_getLast {last : (ℕ ×ₗ BlockHash) × V} (isLast : wal.entries.getLast? = some last)
    {entry : (ℕ ×ₗ BlockHash) × V} (member : entry ∈ wal.entries) :
    (ofLex entry.1).1 ≤ (ofLex last.1).1 :=
  slot_le_of_le (OrderedMap.le_of_getLast? isLast entry member)

/-- The tip is kept where the cut is not past it. -/
theorem findTip_removeBefore {last : (ℕ ×ₗ BlockHash) × V}
    (isLast : wal.entries.getLast? = some last) {slot : ℕ} (upTo : slot ≤ (ofLex last.1).1) :
    (wal.removeBefore slot).findTip = wal.findTip := by
  have kept : (wal.removeBefore slot).entries.getLast? = some last := by
    rcases List.getLast?_eq_some_iff.mp isLast with ⟨before, entriesEq⟩
    have passes : decide (minBound slot ≤ last.1) = true :=
      decide_eq_true (minBound_le_iff.mpr upTo)
    change (wal.entries.filter fun entry => decide (minBound slot ≤ entry.1)).getLast? = _
    rw [entriesEq, List.filter_append, List.filter_cons, if_pos passes, List.filter_nil,
      List.getLast?_concat]
  rw [findTip_eq, findTip_eq, kept, isLast]

end Ends

/-- The slots of a log lie no further apart than `maxSlots`. -/
def Within (wal : Wal V) (maxSlots : ℕ) : Prop :=
  ∀ first ∈ wal.entries, ∀ last ∈ wal.entries, (ofLex last.1).1 ≤ (ofLex first.1).1 + maxSlots

/-- What pruning to `maxSlots` may do to a log: the tip stays, and so does whatever is no
further from it than that. -/
structure Pruned (maxSlots : ℕ) (before after : Wal V) : Prop where
  tip : after.findTip = before.findTip
  removed : after.entries ⊆ before.entries
  kept : ∀ tip ∈ before.findTip, ∀ entry ∈ before.entries,
    tip.1.slot - maxSlots ≤ (ofLex entry.1).1 → entry ∈ after.entries

theorem Pruned.refl (maxSlots : ℕ) (wal : Wal V) : Pruned maxSlots wal wal :=
  ⟨rfl, List.Subset.refl _, fun _ _ _ member _ => member⟩

theorem Pruned.trans {before middle after : Wal V} (first : Pruned maxSlots before middle)
    (second : Pruned maxSlots middle after) : Pruned maxSlots before after := by
  refine ⟨second.tip.trans first.tip, List.Subset.trans second.removed first.removed, ?_⟩
  intro tip isTip entry member near
  exact second.kept tip (first.tip ▸ isTip) entry (first.kept tip isTip entry member near) near

/-- A cut that leaves the window before the tip alone. -/
theorem pruned_removeBefore {last : (ℕ ×ₗ BlockHash) × V}
    (isLast : wal.entries.getLast? = some last) {slot : ℕ}
    (outside : slot + maxSlots ≤ (ofLex last.1).1) :
    Pruned maxSlots wal (wal.removeBefore slot) := by
  refine ⟨findTip_removeBefore isLast (by omega), ?_, ?_⟩
  · intro entry member
    exact (mem_removeBefore.mp member).1
  · intro tip isTip entry member near
    rw [findTip_eq, isLast] at isTip
    have tipSlot : tip.1.slot = (ofLex last.1).1 := by
      rw [← Option.some.inj isTip]
      exact ChainPoint.slot_fromBytes last.1
    exact mem_removeBefore.mpr ⟨member, by omega⟩

section Rounds

/-- Either the log is within `maxSlots` and is left as it is, or it is cut at a slot past
its first entry and no further than the window before its tip. -/
theorem pruneHistory_cases (wal : Wal V) (maxSlots : ℕ) (maxPrune : Option ℕ) :
    wal.Within maxSlots ∧ wal.pruneHistory maxSlots maxPrune = (true, wal) ∨
      ∃ first last done slot, wal.entries.head? = some first ∧
        wal.entries.getLast? = some last ∧
        wal.pruneHistory maxSlots maxPrune = (done, wal.removeBefore slot) ∧
        slot + maxSlots ≤ (ofLex last.1).1 ∧
        (done = true → slot + maxSlots = (ofLex last.1).1) ∧
        ((∀ most ∈ maxPrune, 1 ≤ most) → (ofLex first.1).1 < slot) := by
  rw [pruneHistory, findStart_eq, findTip_eq]
  cases firstEq : wal.entries.head? with
  | none =>
      left
      refine ⟨?_, rfl⟩
      intro first member
      rw [List.head?_eq_none_iff.mp firstEq] at member
      cases member
  | some first =>
      cases lastEq : wal.entries.getLast? with
      | none =>
          rw [List.getLast?_eq_none_iff.mp lastEq] at firstEq
          cases firstEq
      | some last =>
          simp only [Option.map_some, ChainPoint.slot_fromBytes]
          split_ifs with enough
          · left
            refine ⟨?_, rfl⟩
            intro earlier isEarlier later isLater
            have low := slot_head_le firstEq isEarlier
            have high := slot_le_getLast lastEq isLater
            omega
          · right
            cases maxPrune with
            | none =>
                refine ⟨first, last, true, _, rfl, rfl, rfl, ?_, ?_, ?_⟩
                · omega
                · intro _
                  omega
                · intro _
                  omega
            | some most =>
                refine ⟨first, last, _, _, rfl, rfl, rfl, ?_, ?_, ?_⟩
                · omega
                · intro done
                  have covered := of_decide_eq_true done
                  omega
                · intro positive
                  have least := positive most rfl
                  omega

theorem pruned_pruneHistory (wal : Wal V) (maxSlots : ℕ) (maxPrune : Option ℕ) :
    Pruned maxSlots wal (wal.pruneHistory maxSlots maxPrune).2 := by
  rcases pruneHistory_cases wal maxSlots maxPrune with
    ⟨_, roundEq⟩ | ⟨first, last, done, slot, _, isLast, roundEq, outside, _, _⟩
  · rw [roundEq]
    exact .refl maxSlots wal
  · rw [roundEq]
    exact pruned_removeBefore isLast outside

theorem within_pruneHistory (done : (wal.pruneHistory maxSlots maxPrune).1 = true) :
    (wal.pruneHistory maxSlots maxPrune).2.Within maxSlots := by
  rcases pruneHistory_cases wal maxSlots maxPrune with
    ⟨within, roundEq⟩ | ⟨first, last, answer, slot, _, isLast, roundEq, _, atWindow, _⟩
  · rw [roundEq]
    exact within
  · rw [roundEq] at done ⊢
    have slotEq := atWindow done
    intro earlier isEarlier later isLater
    have low := (mem_removeBefore.mp isEarlier).2
    have high := slot_le_getLast isLast (mem_removeBefore.mp isLater).1
    omega

/-- A round that is not the last one removes the first entry at least. -/
theorem length_pruneHistory_lt (positive : ∀ most ∈ maxPrune, 1 ≤ most)
    (unfinished : (wal.pruneHistory maxSlots maxPrune).1 = false) :
    (wal.pruneHistory maxSlots maxPrune).2.entries.length < wal.entries.length := by
  rcases pruneHistory_cases wal maxSlots maxPrune with
    ⟨_, roundEq⟩ | ⟨first, last, done, slot, isFirst, _, roundEq, _, _, past⟩
  · rw [roundEq] at unfinished
    cases unfinished
  · have dropped : ¬ minBound slot ≤ first.1 := by
      intro below
      have later := past positive
      have earlier := minBound_le_iff.mp below
      omega
    rw [roundEq]
    exact List.length_filter_lt_length_iff_exists.mpr
      ⟨first, List.mem_of_head? isFirst, fun kept => dropped (of_decide_eq_true kept)⟩

theorem length_pruneHistory_le (wal : Wal V) (maxSlots : ℕ) (maxPrune : Option ℕ) :
    (wal.pruneHistory maxSlots maxPrune).2.entries.length ≤ wal.entries.length := by
  rcases pruneHistory_cases wal maxSlots maxPrune with
    ⟨_, roundEq⟩ | ⟨first, last, done, slot, _, _, roundEq, _, _, _⟩
  · rw [roundEq]
  · rw [roundEq]
    exact List.length_filter_le _ _

/-- Pruned round after round, a log comes within `maxSlots`. -/
theorem exists_pruned (positive : ∀ most ∈ maxPrune, 1 ≤ most) (wal : Wal V) :
    ∃ rounds pruned,
      repeatUntil (fun wal : Wal V => wal.pruneHistory maxSlots maxPrune) none
        (wal.entries.length + 1) 0 wal = some (rounds, pruned) ∧
      Pruned maxSlots wal pruned ∧ pruned.Within maxSlots := by
  rcases exists_repeatUntil (fun wal : Wal V => wal.entries.length)
    (fun wal unfinished => length_pruneHistory_lt positive unfinished) 0
    (Nat.lt_succ_self wal.entries.length) with ⟨⟨rounds, pruned⟩, ended⟩
  refine ⟨rounds, pruned, ended, ?_, ?_⟩
  · exact repeatUntil_keeps (Pruned maxSlots wal)
      (fun middle soFar => soFar.trans (pruned_pruneHistory middle maxSlots maxPrune))
      (.refl maxSlots wal) ended
  · rcases repeatUntil_last ended with ⟨before, lastEq⟩
    have within := within_pruneHistory (congrArg Prod.fst lastEq)
    rwa [lastEq] at within

end Rounds

section Reset

/-- What `reset_to` leaves: the new entry, and the one at the origin's key if there was one. -/
theorem get?_resetTo (wal : Wal V) (point : ChainPoint) (synthetic : V) (key : ℕ ×ₗ BlockHash) :
    (wal.resetTo point synthetic).get? key =
      if key = point.intoBytes then some synthetic
      else if key = ChainPoint.origin.intoBytes then wal.get? key else none := by
  change (OrderedMap.insert (wal.removeEntries .origin) point.intoBytes synthetic).get? key = _
  rw [OrderedMap.get?_insert]
  split_ifs with isPoint isOrigin
  · rfl
  · rw [removeEntries, OrderedMap.get?_filter, isOrigin, decide_eq_true (le_refl _)]
    cases wal.get? ChainPoint.origin.intoBytes with
    | none => rfl
    | some value => rfl
  · have above : ¬ key ≤ ChainPoint.origin.intoBytes := by
      intro below
      have least : ChainPoint.origin.intoBytes ≤ key := minBound_le_iff.mpr (Nat.zero_le _)
      exact isOrigin (le_antisymm below least)
    rw [removeEntries, OrderedMap.get?_filter]
    simp [above]

/-- `reset_to` leaves the entry at the point alone exactly when nothing else is at the
origin's key. -/
theorem entries_resetTo_iff {point : ChainPoint} {synthetic : V} :
    (wal.resetTo point synthetic).entries = [(point.intoBytes, synthetic)] ↔
      wal.get? ChainPoint.origin.intoBytes = none ∨
        point.intoBytes = ChainPoint.origin.intoBytes := by
  constructor
  · intro alone
    by_cases atOrigin : point.intoBytes = ChainPoint.origin.intoBytes
    · exact Or.inr atOrigin
    · left
      have answered := get?_resetTo wal point synthetic ChainPoint.origin.intoBytes
      rw [if_neg (Ne.symm atOrigin), if_pos rfl] at answered
      rw [← answered]
      exact OrderedMap.lookup_eq_none fun entry member => by
        rw [alone] at member
        rw [List.mem_singleton.mp member]
        exact atOrigin
  · intro clear
    have same : wal.resetTo point synthetic =
        OrderedMap.insert (∅ : Wal V) point.intoBytes synthetic := by
      refine OrderedMap.ext fun key => ?_
      rw [get?_resetTo, OrderedMap.get?_insert, OrderedMap.get?_empty]
      split_ifs with isPoint isOrigin
      · rfl
      · rcases clear with absent | atOrigin
        · rw [isOrigin, absent]
        · exact absurd (isOrigin.trans atOrigin.symm) isPoint
      · rfl
    rw [same]
    rfl

end Reset

end Wal

section Draining

variable {config : SyncConfig}

namespace ArchiveStore

variable {maxSlots : ℕ} {maxPrune : Option ℕ}

theorem pruneBefore_past {index : BlocksIndex} (positive : ∀ most ∈ maxPrune, 1 ≤ most)
    {cut : ℕ × Bool} (cutEq : pruneBefore index maxSlots maxPrune = some cut) :
    ∃ first, index.entries.head? = some first ∧ first.1 < cut.1 := by
  rw [pruneBefore] at cutEq
  cases firstEq : index.entries.head? with
  | none =>
      rw [firstEq] at cutEq
      cases cutEq
  | some first =>
      cases lastEq : index.entries.getLast? with
      | none =>
          rw [firstEq, lastEq] at cutEq
          cases cutEq
      | some last =>
          simp only [firstEq, lastEq] at cutEq
          split_ifs at cutEq with enough
          refine ⟨first, rfl, ?_⟩
          cases maxPrune with
          | none =>
              cases cutEq
              change first.1 < first.1 + (last.1 - first.1 - maxSlots)
              omega
          | some most =>
              have least := positive most rfl
              cases cutEq
              change first.1 < first.1 + min (last.1 - first.1 - maxSlots) most
              omega

theorem length_pruneHistory_le (archive : ArchiveStore) (maxSlots : ℕ) (maxPrune : Option ℕ) :
    (archive.pruneHistory maxSlots maxPrune).2.index.entries.length ≤
      archive.index.entries.length := by
  rw [pruneHistory]
  cases pruneBefore archive.index maxSlots maxPrune with
  | none => exact le_refl _
  | some cut => exact List.length_filter_le _ _

/-- A round over the archive that is not the last one removes its first slot at least. -/
theorem length_pruneHistory_lt {archive : ArchiveStore}
    (positive : ∀ most ∈ maxPrune, 1 ≤ most)
    (unfinished : (archive.pruneHistory maxSlots maxPrune).1 = false) :
    (archive.pruneHistory maxSlots maxPrune).2.index.entries.length <
      archive.index.entries.length := by
  rw [pruneHistory] at unfinished ⊢
  cases cutEq : pruneBefore archive.index maxSlots maxPrune with
  | none =>
      rw [cutEq] at unfinished
      cases unfinished
  | some cut =>
      rcases pruneBefore_past positive cutEq with ⟨first, isFirst, past⟩
      exact List.length_filter_lt_length_iff_exists.mpr
        ⟨first, List.mem_of_head? isFirst, fun kept => not_le_of_gt past (of_decide_eq_true kept)⟩

end ArchiveStore

/-- What is left to look at for `housekeeping`. -/
def backlog (stores : ArchiveStore × Wal V) : ℕ :=
  stores.1.index.entries.length + stores.2.entries.length

theorem backlog_housekeeping_lt (stores : ArchiveStore × Wal V)
    (unfinished : (housekeeping config stores).1 = false) :
    backlog (housekeeping config stores).2 < backlog stores := by
  have positive : ∀ most ∈ some maxPruneSlotsPerHousekeeping, 1 ≤ most := by
    intro most isMost
    cases isMost
    exact Nat.le_add_left 1 9999
  rcases stores with ⟨archive, wal⟩
  rcases config with ⟨maxHistory, maxRollback⟩
  rcases Bool.and_eq_false_iff.mp unfinished with archiveLeft | walLeft
  · cases maxHistory with
    | none => cases archiveLeft
    | some maxSlots =>
        have less := ArchiveStore.length_pruneHistory_lt positive archiveLeft
        refine Nat.add_lt_add_of_lt_of_le less ?_
        cases maxRollback with
        | none => exact le_refl _
        | some maxSlots => exact Wal.length_pruneHistory_le wal maxSlots _
  · cases maxRollback with
    | none => cases walLeft
    | some maxSlots =>
        have less := Wal.length_pruneHistory_lt positive walLeft
        refine Nat.add_lt_add_of_le_of_lt ?_ less
        cases maxHistory with
        | none => exact le_refl _
        | some maxSlots => exact ArchiveStore.length_pruneHistory_le archive maxSlots _

theorem exists_drained (config : SyncConfig) (maxRounds : Option ℕ)
    (stores : ArchiveStore × Wal V) :
    ∃ outcome, drainHousekeeping config maxRounds (backlog stores + 1) stores = some outcome :=
  exists_repeatUntil backlog backlog_housekeeping_lt 0 (Nat.lt_succ_self _)

end Draining

/-- Pruning keeps the tip and the window before it and says it is done only within that
window, its rounds come to an end, and `reset_to` leaves one entry, at the point. -/
structure Wal.PruningAndReset (wal : Wal V) (point : ChainPoint) (synthetic : V) : Prop where
  pruned : ∀ maxSlots maxPrune, Wal.Pruned maxSlots wal (wal.pruneHistory maxSlots maxPrune).2
  within : ∀ maxSlots maxPrune, (wal.pruneHistory maxSlots maxPrune).1 = true →
    (wal.pruneHistory maxSlots maxPrune).2.Within maxSlots
  rounds : ∀ maxSlots maxPrune, (∀ most ∈ maxPrune, 1 ≤ most) → ∃ rounds pruned,
    repeatUntil (fun wal : Wal V => wal.pruneHistory maxSlots maxPrune) none
      (wal.entries.length + 1) 0 wal = some (rounds, pruned) ∧
    Wal.Pruned maxSlots wal pruned ∧ pruned.Within maxSlots
  drained : ∀ (config : SyncConfig) maxRounds archive, ∃ outcome,
    drainHousekeeping config maxRounds (backlog (archive, wal) + 1) (archive, wal) = some outcome
  reset : (wal.resetTo point synthetic).entries = [(point.intoBytes, synthetic)]

/-- All of it holds of every log, but for an entry at the origin's key, which `reset_to`
leaves beside the new one. -/
theorem pruningAndReset_iff {wal : Wal V} {point : ChainPoint} {synthetic : V} :
    wal.PruningAndReset point synthetic ↔
      wal.get? ChainPoint.origin.intoBytes = none ∨
        point.intoBytes = ChainPoint.origin.intoBytes := by
  constructor
  · intro law
    exact Wal.entries_resetTo_iff.mp law.reset
  · intro clear
    refine ⟨?_, ?_, ?_, ?_, Wal.entries_resetTo_iff.mpr clear⟩
    · exact wal.pruned_pruneHistory
    · intro maxSlots maxPrune done
      exact Wal.within_pruneHistory done
    · intro maxSlots maxPrune positive
      exact Wal.exists_pruned positive wal
    · intro config maxRounds archive
      exact exists_drained config maxRounds (archive, wal)

/-- The log of a node started at the origin, reset to a block. -/
theorem reset_keeps_origin :
    ¬ (Wal.resetTo (∅ : Wal ℕ) .origin 0).PruningAndReset (.specific 5 7) 0 := by
  intro law
  have alone := congrArg List.length law.reset
  revert alone
  decide +kernel

end Dolos
