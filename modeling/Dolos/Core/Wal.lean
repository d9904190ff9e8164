import Mathlib.Data.List.MinMax
import Mathlib.Data.Int.Basic
import Dolos.Core.Point
import Dolos.Lib.OrderedMap

/-!
# The write-ahead log

`redb3/src/wal/mod.rs`: one table keyed by the forty bytes of a chain point, the
big-endian slot before the hash. Byte order on the keys is the order of the pair,
so a scan goes by slot first and by hash among blocks that share a slot, which
need not be the order the blocks were applied in.

The type of the logged values is a parameter here.
-/

namespace Dolos

namespace ChainPoint

/-- `from_bytes`. A bare slot does not survive the encoding: it comes back as a
specific point with a zero hash, and slot zero as the origin. -/
def fromBytes (bytes : ℕ ×ₗ BlockHash) : ChainPoint :=
  if bytes = toLex (0, 0) then origin else specific (ofLex bytes).1 (ofLex bytes).2

@[simp]
theorem intoBytes_fromBytes (bytes : ℕ ×ₗ BlockHash) : (fromBytes bytes).intoBytes = bytes := by
  rw [fromBytes]
  split_ifs with zero
  · rw [zero]
    rfl
  · rfl

theorem fromBytes_specific {s : ℕ} {h : BlockHash} (nonzero : toLex (s, h) ≠ toLex (0, 0)) :
    fromBytes (specific s h).intoBytes = specific s h := by
  rw [intoBytes_specific, fromBytes, if_neg nonzero]
  rfl

theorem slot_fromBytes (bytes : ℕ ×ₗ BlockHash) : (fromBytes bytes).slot = (ofLex bytes).1 := by
  rw [fromBytes]
  split_ifs with zero
  · rw [zero]
    rfl
  · rfl

/-- Among the points of the log, a block is met at its own key only. -/
theorem eq_fromBytes {s : ℕ} {h : BlockHash} (hashed : h ≠ 0) (bytes : ℕ ×ₗ BlockHash) :
    (fromBytes bytes).eq (specific s h) = decide (bytes = toLex (s, h)) := by
  rw [fromBytes]
  split_ifs with zero
  · have different : bytes ≠ toLex (s, h) := by
      intro same
      have hashEq := congrArg Prod.snd (toLex.injective (zero.symm.trans same))
      exact hashed hashEq.symm
    simp [eq, different]
  · rw [eq_specific]
    congr 1
    rw [← toLex_ofLex bytes, toLex_inj, Prod.ext_iff]
    rfl

end ChainPoint

/-- The log table. -/
abbrev Wal (V : Type) := OrderedMap (ℕ ×ₗ BlockHash) V

namespace Wal

variable {V : Type}

/-- `iter_logs`: the entries between two points, both included, in key order. -/
def iterLogs (wal : Wal V) (start stop : Option ChainPoint) : List (ChainPoint × V) :=
  let fromStart := wal.entries.filter fun entry =>
    match start with
    | some point => decide (point.intoBytes ≤ entry.1)
    | none => true
  let toStop := fromStart.filter fun entry =>
    match stop with
    | some point => decide (entry.1 ≤ point.intoBytes)
    | none => true
  toStop.map fun entry => (.fromBytes entry.1, entry.2)

theorem iterLogs_from (wal : Wal V) (start : ChainPoint) :
    wal.iterLogs (some start) none =
      (wal.entries.filter fun entry => start.intoBytes ≤ entry.1).map fun entry =>
        (.fromBytes entry.1, entry.2) := by
  simp only [iterLogs, List.filter_true]

def readEntry (wal : Wal V) (key : ChainPoint) : Option V := wal.get? key.intoBytes

def findTip (wal : Wal V) : Option (ChainPoint × V) := (wal.iterLogs none none).getLast?

def appendEntries (wal : Wal V) (logs : List (ChainPoint × V)) : Wal V :=
  wal.insertAll (logs.map fun log => (log.1.intoBytes, log.2))

/-- `remove_entries`: drop every entry strictly after a point. -/
def removeEntries (wal : Wal V) (after : ChainPoint) : Wal V :=
  wal.filter fun key _ => key ≤ after.intoBytes

def truncateFront (wal : Wal V) (after : ChainPoint) : Wal V := wal.removeEntries after

/-- `reset_to`: everything past the origin goes, and a synthetic entry takes the
place of the point. -/
def resetTo (wal : Wal V) (point : ChainPoint) (synthetic : V) : Wal V :=
  (wal.removeEntries .origin).appendEntries [(point, synthetic)]

/-- `approximate_slot`: the first entry of least distance among those of the slots
`lower` to `upper`. -/
def approximateSlot (wal : Wal V) (target lower upper : ℕ) : Option ChainPoint :=
  let points := (wal.entries.map fun entry => ChainPoint.fromBytes entry.1).filter
    fun point => lower ≤ point.slot ∧ point.slot ≤ upper
  points.argmin fun point => ((target : ℤ) - point.slot).natAbs

/-- `approximate_slot_with_retry`, over the retries still to be made. -/
def approximateSlotWithRetry (wal : Wal V) (target : ℕ) (range : ℕ → ℕ × ℕ) :
    List ℕ → Option ChainPoint
  | [] => none
  | retry :: rest =>
      match wal.approximateSlot target (range retry).1 (range retry).2 with
      | some point => some point
      | none => approximateSlotWithRetry wal target range rest

def locatePoint (wal : Wal V) (around : ℕ) : Option ChainPoint :=
  wal.approximateSlotWithRetry around
    (fun retry => (around - 20 * retry, min (around + 20 * retry) (2 ^ 64 - 1)))
    (List.range' 1 9)

section Appended

variable {wal : Wal V} {old : List ((ℕ ×ₗ BlockHash) × V)} {added : List (ChainPoint × V)}

theorem map_decoded (decoded : ∀ log ∈ added, ChainPoint.fromBytes log.1.intoBytes = log.1) :
    (added.map fun log => (log.1.intoBytes, log.2)).map
      (fun entry => (ChainPoint.fromBytes entry.1, entry.2)) = added := by
  rw [List.map_map]
  conv => rhs; rw [← List.map_id added]
  apply List.map_congr_left
  intro log member
  simp only [Function.comp, decoded log member, id]

/-- The tip of a log is what was added to it last. -/
theorem findTip_appended
    (entriesEq : wal.entries = old ++ added.map fun log => (log.1.intoBytes, log.2))
    (decoded : ∀ log ∈ added, ChainPoint.fromBytes log.1.intoBytes = log.1)
    {tip : ChainPoint × V} (lastEq : added.getLast? = some tip) : wal.findTip = some tip := by
  simp only [findTip, iterLogs, List.filter_true]
  rw [entriesEq, List.map_append, map_decoded decoded, List.getLast?_append, lastEq]
  rfl

/-- A scan from before what was added to the end of it: some older entries, then all
that was added. -/
theorem iterLogs_appended
    (entriesEq : wal.entries = old ++ added.map fun log => (log.1.intoBytes, log.2))
    (decoded : ∀ log ∈ added, ChainPoint.fromBytes log.1.intoBytes = log.1)
    {start : Option ChainPoint} {stop : ChainPoint}
    (fromStart : ∀ point ∈ start, ∀ log ∈ added, point.intoBytes ≤ log.1.intoBytes)
    (upToStop : ∀ log ∈ added, log.1.intoBytes ≤ stop.intoBytes) :
    ∃ older, wal.iterLogs start (some stop) = older ++ added ∧
      ∀ log ∈ older, ∃ entry ∈ old, log = (ChainPoint.fromBytes entry.1, entry.2) := by
  have keptStart : (added.map fun log => (log.1.intoBytes, log.2)).filter (fun entry =>
      match start with
      | some point => decide (point.intoBytes ≤ entry.1)
      | none => true) = added.map fun log => (log.1.intoBytes, log.2) := by
    apply List.filter_eq_self.mpr
    intro entry member
    rcases List.mem_map.mp member with ⟨log, isLog, rfl⟩
    cases start with
    | none => rfl
    | some point => exact decide_eq_true (fromStart point rfl log isLog)
  have keptStop : (added.map fun log => (log.1.intoBytes, log.2)).filter (fun entry =>
      decide (entry.1 ≤ stop.intoBytes)) = added.map fun log => (log.1.intoBytes, log.2) := by
    apply List.filter_eq_self.mpr
    intro entry member
    rcases List.mem_map.mp member with ⟨log, isLog, rfl⟩
    exact decide_eq_true (upToStop log isLog)
  simp only [iterLogs]
  rw [entriesEq, List.filter_append, List.filter_append, keptStart, keptStop, List.map_append,
    map_decoded decoded]
  refine ⟨_, rfl, ?_⟩
  intro log member
  rcases List.mem_map.mp member with ⟨entry, isEntry, rfl⟩
  exact ⟨entry, List.mem_of_mem_filter (List.mem_of_mem_filter isEntry), rfl⟩

end Appended

section Locating

variable {wal : Wal V} {target : ℕ} {point : ChainPoint}

/-- The entry found is no later than any entry past the target: among those, the
first one is the closest. -/
theorem approximateSlot_le {lower upper : ℕ} (below : lower ≤ target)
    (found : wal.approximateSlot target lower upper = some point)
    {entry : (ℕ ×ₗ BlockHash) × V} (member : entry ∈ wal.entries)
    (later : target < (ofLex entry.1).1) : point.intoBytes ≤ entry.1 := by
  have isCandidate := List.argmin_mem found
  have inRange := (List.mem_filter.mp isCandidate).2
  simp only [decide_eq_true_eq] at inRange
  have slotOf : ∀ bytes : ℕ ×ₗ BlockHash, (ofLex bytes).1 = (ChainPoint.fromBytes bytes).slot :=
    fun bytes => (ChainPoint.slot_fromBytes bytes).symm
  have pointSlot : (ofLex point.intoBytes).1 = point.slot := rfl
  by_cases before : point.slot < (ofLex entry.1).1
  · exact le_of_lt (Prod.Lex.lt_iff.mpr (Or.inl (by rw [pointSlot]; exact before)))
  have entryCandidate : ChainPoint.fromBytes entry.1 ∈
      (wal.entries.map fun entry => ChainPoint.fromBytes entry.1).filter
        fun point => lower ≤ point.slot ∧ point.slot ≤ upper := by
    refine List.mem_filter.mpr ⟨List.mem_map.mpr ⟨entry, member, rfl⟩, ?_⟩
    rw [slotOf] at later before
    simp only [decide_eq_true_eq]
    omega
  have closest := List.le_of_mem_argmin entryCandidate found
  have sameDistance : ((target : ℤ) - (ChainPoint.fromBytes entry.1).slot).natAbs ≤
      ((target : ℤ) - point.slot).natAbs := by
    rw [slotOf] at later before
    omega
  have first := List.index_of_argmin found entryCandidate sameDistance
  have sorted : ((wal.entries.map fun entry => ChainPoint.fromBytes entry.1).filter
      fun point => lower ≤ point.slot ∧ point.slot ≤ upper).Pairwise
        fun earlier later => earlier.intoBytes < later.intoBytes := by
    apply List.Pairwise.filter
    rw [List.pairwise_map]
    apply wal.sorted.imp
    intro earlier later less
    rw [ChainPoint.intoBytes_fromBytes, ChainPoint.intoBytes_fromBytes]
    exact less
  rw [← ChainPoint.intoBytes_fromBytes entry.1]
  rcases Nat.lt_or_eq_of_le first with less | same
  · have inOrder :=
      List.pairwise_iff_getElem.mp sorted _ _ (List.idxOf_lt_length_of_mem isCandidate)
      (List.idxOf_lt_length_of_mem entryCandidate) less
    rw [List.getElem_idxOf, List.getElem_idxOf] at inOrder
    exact le_of_lt inOrder
  · rw [(List.idxOf_inj isCandidate).mp same]

theorem approximateSlotWithRetry_le {range : ℕ → ℕ × ℕ} {retries : List ℕ}
    (below : ∀ retry ∈ retries, (range retry).1 ≤ target)
    (found : wal.approximateSlotWithRetry target range retries = some point)
    {entry : (ℕ ×ₗ BlockHash) × V} (member : entry ∈ wal.entries)
    (later : target < (ofLex entry.1).1) : point.intoBytes ≤ entry.1 := by
  induction retries with
  | nil => simp [approximateSlotWithRetry] at found
  | cons retry rest ih =>
      cases here : wal.approximateSlot target (range retry).1 (range retry).2 with
      | none =>
          simp only [approximateSlotWithRetry, here] at found
          apply ih _ found
          intro next isNext
          exact below next (List.mem_cons_of_mem retry isNext)
      | some located =>
          simp only [approximateSlotWithRetry, here, Option.some.injEq] at found
          subst found
          exact approximateSlot_le (below retry List.mem_cons_self) here member later

theorem locatePoint_le (found : wal.locatePoint target = some point)
    {entry : (ℕ ×ₗ BlockHash) × V} (member : entry ∈ wal.entries)
    (later : target < (ofLex entry.1).1) : point.intoBytes ≤ entry.1 := by
  apply approximateSlotWithRetry_le _ found member later
  intro retry _
  exact Nat.sub_le target (20 * retry)

end Locating

end Wal

end Dolos
