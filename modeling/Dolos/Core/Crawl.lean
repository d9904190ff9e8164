import Dolos.Core.State
import Dolos.Core.Wal
import Dolos.Lib.Outcome

/-!
# The chain crawler

`core/src/crawl.rs` serves the chain to followers. A crawl starts at the first of the
follower's points that the log has, or else at the first that the archive has, and then
goes by pages: of the archive up to its end, of the log up to its end, and from there on
the tip is awaited. Each page is read from the last point of the page before, and its
first entry, which is taken to be that point, is skipped.

The archive knows its blocks by slot only, so the points of its pages are bare slots.
-/

namespace Dolos

open Outcome

variable {B D O : Type}

/-- The blocks of the archive by slot, the newest of a slot first. -/
abbrev BlocksTable (B : Type) := OrderedMap ℕ (List B)

namespace BlocksTable

/-- `apply_batch` for one block: a block that the slot has already is not written again. -/
def apply [Block B] [DecidableEq B] (table : BlocksTable B) (block : B) : BlocksTable B :=
  match table.get? (Block.slot block) with
  | none => table.insert (Block.slot block) [block]
  | some existing =>
      if block ∈ existing then table else table.insert (Block.slot block) (block :: existing)

/-- `get_all_by_slot`, in chain order. -/
def getAllBySlot (table : BlocksTable B) (slot : ℕ) : List B := ((table.get? slot).getD []).reverse

/-- `get_range` from a slot to the end. -/
def getRange (table : BlocksTable B) (first : ℕ) : List (ℕ × B) :=
  (table.entries.filter fun entry => first ≤ entry.1).flatMap fun entry =>
    entry.2.reverse.map fun block => (entry.1, block)

def findIntersect [Block B] (table : BlocksTable B) : List ChainPoint → Option ChainPoint
  | [] => none
  | .specific slot hash :: rest =>
      match (table.getAllBySlot slot).find? fun block => Block.hash block = hash with
      | some block => some (Block.point block)
      | none => findIntersect table rest
  | _ :: _ => some .origin

/-- All blocks with their slots, in the order a scan gives them. -/
def scanned (table : BlocksTable B) : List (ℕ × B) :=
  table.entries.flatMap fun entry => entry.2.reverse.map fun block => (entry.1, block)

theorem getRange_eq (table : BlocksTable B) (first : ℕ) :
    table.getRange first = table.scanned.filter fun entry => first ≤ entry.1 := by
  rw [getRange, scanned]
  induction table.entries with
  | nil => rfl
  | cons head rest ih =>
      rw [List.flatMap_cons, List.filter_append, ← ih]
      have headKept : (head.2.reverse.map fun block => (head.1, block)).filter
          (fun entry => first ≤ entry.1) =
            if first ≤ head.1 then head.2.reverse.map fun block => (head.1, block) else [] := by
        rw [List.filter_map]
        by_cases kept : first ≤ head.1
        · simp [Function.comp_def, kept]
        · simp [Function.comp_def, kept]
      rw [headKept]
      by_cases kept : first ≤ head.1
      · rw [List.filter_cons_of_pos (by simpa using kept), List.flatMap_cons, if_pos kept]
      · rw [List.filter_cons_of_neg (by simpa using kept), if_neg kept, List.nil_append]

theorem mem_scanned {table : BlocksTable B} {slot : ℕ} {block : B} :
    (slot, block) ∈ table.scanned ↔ block ∈ table.getAllBySlot slot := by
  simp only [scanned, getAllBySlot, List.mem_flatMap, List.mem_map, List.mem_reverse,
    Prod.mk.injEq, Prod.exists]
  constructor
  · rintro ⟨key, blocks, isEntry, other, isBlock, rfl, rfl⟩
    rw [OrderedMap.mem_entries_iff.mp isEntry]
    exact isBlock
  · intro isBlock
    cases held : table.get? slot with
    | none => simp [held] at isBlock
    | some blocks =>
        rw [held] at isBlock
        exact ⟨slot, blocks, OrderedMap.mem_entries_iff.mpr held, block, isBlock, rfl, rfl⟩

variable [Block B] [DecidableEq B]

/-- A new block at the last slot, or past it, comes last. -/
theorem scanned_apply {table : BlocksTable B} {block : B}
    (last : ∀ entry ∈ table.entries, entry.1 ≤ Block.slot block)
    (new : (Block.slot block, block) ∉ table.scanned) :
    (table.apply block).scanned = table.scanned ++ [(Block.slot block, block)] := by
  rw [apply]
  cases held : table.get? (Block.slot block) with
  | none =>
      have above : ∀ entry ∈ table.entries, entry.1 < Block.slot block := by
        intro entry isEntry
        apply lt_of_le_of_ne (last entry isEntry)
        intro same
        have present := OrderedMap.mem_entries_iff.mp isEntry
        rw [same, held] at present
        cases present
      simp only [scanned, OrderedMap.entries_insert_above above, List.flatMap_append]
      rfl
  | some existing =>
      have unlisted : block ∉ existing := by
        intro listed
        apply new
        rw [mem_scanned, getAllBySlot, held]
        exact List.mem_reverse.mpr listed
      rcases OrderedMap.entries_of_greatest held last with ⟨before, entriesEq⟩
      simp only [unlisted, if_false, scanned, OrderedMap.entries_insert_last entriesEq, entriesEq,
        List.flatMap_append, List.flatMap_singleton, List.reverse_cons, List.map_append,
        List.append_assoc, List.map_cons, List.map_nil]

theorem mem_apply {table : BlocksTable B} {block : B} {entry : ℕ × List B}
    (isEntry : entry ∈ (table.apply block).entries) :
    entry.1 = Block.slot block ∨ entry ∈ table.entries := by
  have inserted : ∀ blocks, entry ∈ (table.insert (Block.slot block) blocks).entries →
      entry.1 = Block.slot block ∨ entry ∈ table.entries := by
    intro blocks isInserted
    have held := OrderedMap.mem_entries_iff.mp isInserted
    rw [OrderedMap.get?_insert] at held
    split_ifs at held with same
    · exact Or.inl same
    · exact Or.inr (OrderedMap.mem_entries_iff.mpr held)
  rw [apply] at isEntry
  split at isEntry
  · exact inserted _ isEntry
  · split_ifs at isEntry
    · exact Or.inr isEntry
    · exact inserted _ isEntry

/-- The archive of a chain gives the chain back. -/
theorem scanned_foldl {chain : List B} (nodup : chain.Nodup)
    (slots : chain.Pairwise fun earlier later => Block.slot earlier ≤ Block.slot later) :
    (chain.foldl apply ∅ : BlocksTable B).scanned =
        chain.map (fun block => (Block.slot block, block)) ∧
      ∀ entry ∈ (chain.foldl apply ∅ : BlocksTable B).entries,
        ∃ block ∈ chain, entry.1 = Block.slot block := by
  induction chain using List.reverseRecOn with
  | nil => exact ⟨rfl, fun entry member => by cases member⟩
  | append_singleton earlier block ih =>
      rcases List.nodup_append.mp nodup with ⟨earlierNodup, -, apart⟩
      rcases List.pairwise_append.mp slots with ⟨earlierSlots, -, across⟩
      rcases ih earlierNodup earlierSlots with ⟨scannedEq, keys⟩
      rw [List.foldl_append]
      change (apply _ block).scanned = _ ∧ ∀ entry ∈ (apply _ block).entries, _
      refine ⟨?_, ?_⟩
      · rw [scanned_apply, scannedEq, List.map_append]
        · rfl
        · intro entry isEntry
          rcases keys entry isEntry with ⟨other, isOther, keyEq⟩
          rw [keyEq]
          exact across other isOther block (List.mem_singleton_self block)
        · intro isScanned
          rw [scannedEq] at isScanned
          rcases List.mem_map.mp isScanned with ⟨other, isOther, same⟩
          exact apart other isOther block (List.mem_singleton_self block) (Prod.mk.inj same).2
      · intro entry isEntry
        rcases mem_apply isEntry with isNew | isOld
        · exact ⟨block, by simp, isNew⟩
        · rcases keys entry isOld with ⟨other, isOther, keyEq⟩
          exact ⟨other, List.mem_append_left _ isOther, keyEq⟩

end BlocksTable

namespace Wal

/-- `find_intersect`: the first candidate that has an entry. -/
def findIntersect {V : Type} (wal : Wal V) : List ChainPoint → Option (ChainPoint × V)
  | [] => none
  | candidate :: rest =>
      match wal.readEntry candidate with
      | some entry => some (candidate, entry)
      | none => findIntersect wal rest

theorem findIntersect_some {V : Type} {wal : Wal V} {points : List ChainPoint} {point : ChainPoint}
    {value : V} (found : wal.findIntersect points = some (point, value)) :
    point ∈ points ∧ wal.readEntry point = some value := by
  induction points with
  | nil => cases found
  | cons candidate rest ih =>
      rw [findIntersect] at found
      split at found
      · rename_i entry held
        cases found
        exact ⟨List.mem_cons_self, held⟩
      · rcases ih found with ⟨member, held⟩
        exact ⟨List.mem_cons_of_mem candidate member, held⟩

theorem findIntersect_none {V : Type} {wal : Wal V} {points : List ChainPoint}
    (absent : wal.findIntersect points = none) {point : ChainPoint} (member : point ∈ points) :
    wal.readEntry point = none := by
  induction points with
  | nil => cases member
  | cons candidate rest ih =>
      rw [findIntersect] at absent
      split at absent
      · cases absent
      · rename_i unheld
        rcases List.mem_cons.mp member with rfl | isLater
        · exact unheld
        · exact ih absent isLater

/-- `iter_blocks` from a point: synthetic entries are there with an empty block. -/
def iterBlocks (wal : Wal (LogValue B D O)) (start : ChainPoint) : List (ChainPoint × Option B) :=
  (wal.iterLogs (some start) none).map fun log => (log.1, log.2.block)

end Wal

/-- What a crawl reads of the domain. -/
structure ChainStores (B D O : Type) where
  archive : BlocksTable B
  wal : Wal (LogValue B D O)

inductive Batch (B : Type) where
  | tip (point : ChainPoint)
  | walPage (point : ChainPoint) (pending : List (ChainPoint × Option B))
  | archivePage (point : ChainPoint) (pending : List (ChainPoint × Option B))

def loadBatchSize : ℕ := 10

namespace ChainStores

variable (stores : ChainStores B D O)

def fromWal (point : ChainPoint) : Batch B :=
  match ((stores.wal.iterBlocks point).drop 1).take loadBatchSize with
  | [] => .tip point
  | page => .walPage point page

def archivePage (lastPoint : ChainPoint) : List (ChainPoint × Option B) :=
  (((stores.archive.getRange lastPoint.slot).drop 1).take loadBatchSize).map
    fun entry => (.slotOnly entry.1, some entry.2)

def fromArchive (lastPoint : ChainPoint) : Except Panic (Batch B) :=
  match stores.archivePage lastPoint with
  | [] =>
      match stores.wal.findIntersect [lastPoint] with
      | some (point, _) => .ok (stores.fromWal point)
      | none => .error (.explicit "no overlap between archive and wal")
  | page => .ok (.archivePage lastPoint page)

/-- `ChainCrawler::start`. -/
def start [Block B] (intersect : List ChainPoint) : Except Panic (Option (Batch B × ChainPoint)) :=
  if intersect.isEmpty then
    match stores.wal.findTip with
    | none => .error .unwrapNone
    | some (point, _) => .ok (some (.tip point, point))
  else
    match stores.wal.findIntersect intersect with
    | some (point, _) => .ok (some (stores.fromWal point, point))
    | none =>
        match stores.archive.findIntersect intersect with
        | some point => do
            let batch ← stores.fromArchive point
            .ok (some (batch, point))
        | none => .ok none

def isDrained : Batch B → Bool
  | .tip _ => false
  | .walPage _ pending => pending.isEmpty
  | .archivePage _ pending => pending.isEmpty

def loadNextBatch : Batch B → Except Panic (Batch B)
  | .walPage point _ => .ok (stores.fromWal point)
  | .archivePage point _ => stores.fromArchive point
  | .tip _ => .error .unreachable

def pop : Batch B → Except Panic (Option (ChainPoint × Option B) × Batch B)
  | .tip _ => .error .unreachable
  | .walPage _ [] => .error .unreachable
  | .walPage _ ((point, value) :: rest) => .ok (some (point, value), .walPage point rest)
  | .archivePage _ [] => .error .unreachable
  | .archivePage _ ((point, value) :: rest) => .ok (some (point, value), .archivePage point rest)

/-- At the tip there is nothing to give. -/
def popUnlessTip : Batch B → Except Panic (Option (ChainPoint × Option B) × Batch B)
  | .tip point => .ok (none, .tip point)
  | batch => pop batch

def nextBlock (batch : Batch B) : Except Panic (Option (ChainPoint × Option B) × Batch B) := do
  let batch ← if isDrained batch then stores.loadNextBatch batch else .ok batch
  popUnlessTip batch

/-- What a number of calls return, one after the other. -/
def calls : ℕ → Batch B → Except Panic (List (Option (ChainPoint × Option B)) × Batch B)
  | 0, batch => .ok ([], batch)
  | count + 1, batch => do
      let (answer, next) ← stores.nextBlock batch
      let (answers, last) ← calls count next
      .ok (answer :: answers, last)

/-- However often it is called, no call panics, and the calls return these blocks, each
once and in this order, and then none. -/
def Yields (batch : Batch B) (blocks : List (Option B)) : Prop :=
  ∀ count, ∃ answers last, stores.calls count batch = .ok (answers, last) ∧
    answers.map (Option.map Prod.snd) = (List.range count).map fun index => blocks[index]?

variable {stores}

theorem Yields.unique {batch : Batch B} {blocks others : List (Option B)}
    (yields : stores.Yields batch blocks) (yieldsOthers : stores.Yields batch others) :
    blocks = others := by
  apply List.ext_getElem?
  intro index
  rcases yields (index + 1) with ⟨answers, last, called, answersEq⟩
  rcases yieldsOthers (index + 1) with ⟨_, _, calledAgain, othersEq⟩
  rcases Except.ok.inj (called.symm.trans calledAgain) with ⟨rfl, rfl⟩
  have same := answersEq.symm.trans othersEq
  have atIndex := congrArg (fun list => list[index]?) same
  simpa using atIndex

/-- The first call, and the calls after it. -/
theorem Yields.step {batch : Batch B} {blocks : List (Option B)}
    (yields : stores.Yields batch blocks) :
    ∃ answer next, stores.nextBlock batch = .ok (answer, next) ∧
      answer.map Prod.snd = blocks.head? ∧ stores.Yields next blocks.tail := by
  rcases yields 1 with ⟨answers, last, called, answersEq⟩
  rcases bind_eq_ok.mp called with ⟨⟨answer, next⟩, calledOnce, calledEq⟩
  rcases Except.ok.inj calledEq with ⟨rfl, rfl⟩
  refine ⟨answer, _, calledOnce, ?_, ?_⟩
  · simpa [List.head?_eq_getElem?] using answersEq
  · intro count
    rcases yields (count + 1) with ⟨answers, last, calledAll, allEq⟩
    rcases bind_eq_ok.mp calledAll with ⟨first, calledFirst, rest⟩
    rcases Except.ok.inj (calledOnce.symm.trans calledFirst) with rfl
    rcases bind_eq_ok.mp rest with ⟨⟨later, lastBatch⟩, calledLater, restEq⟩
    rcases Except.ok.inj restEq with ⟨rfl, rfl⟩
    refine ⟨later, _, calledLater, ?_⟩
    rw [List.range_succ_eq_map, List.map_cons, List.map_cons, List.map_map] at allEq
    rw [(List.cons.inj allEq).2]
    apply List.map_congr_left
    intro index _
    simp [List.getElem?_tail]

/-- A call at a time. -/
theorem yields_of_step {batch : Batch B} {blocks : List (Option B)}
    {Remains : Batch B → List (Option B) → Prop}
    (step : ∀ batch blocks, Remains batch blocks → ∃ answer next,
      stores.nextBlock batch = .ok (answer, next) ∧ answer.map Prod.snd = blocks.head? ∧
        Remains next blocks.tail)
    (remains : Remains batch blocks) : stores.Yields batch blocks := by
  intro count
  induction count generalizing batch blocks with
  | zero => exact ⟨[], batch, rfl, rfl⟩
  | succ count ih =>
      rcases step batch blocks remains with ⟨answer, next, called, answerEq, nextRemains⟩
      rcases ih nextRemains with ⟨answers, last, calledLater, answersEq⟩
      refine ⟨answer :: answers, last, ?_, ?_⟩
      · simp only [calls, called, calledLater, ok_bind]
      · rw [List.range_succ_eq_map, List.map_cons, List.map_cons, List.map_map, answerEq, answersEq,
          List.head?_eq_getElem?]
        congr 1
        apply List.map_congr_left
        intro index _
        simp [List.getElem?_tail]

section WalPages

/-- What the log has past a point. -/
def logAfter (stores : ChainStores B D O) (point : ChainPoint) : List (ChainPoint × Option B) :=
  (stores.wal.entries.filter fun entry => point.intoBytes < entry.1).map fun entry =>
    (.fromBytes entry.1, entry.2.block)

variable {point : ChainPoint}

/-- A scan from a point of the log starts at the point. -/
theorem iterBlocks_drop (held : (stores.wal.readEntry point).isSome) :
    (stores.wal.iterBlocks point).drop 1 = stores.logAfter point := by
  rcases Option.isSome_iff_exists.mp held with ⟨value, valueEq⟩
  rw [Wal.iterBlocks, Wal.iterLogs_from, OrderedMap.filter_le_eq_cons valueEq]
  simp [logAfter, Function.comp_def]

theorem logAfter_cons {next : ChainPoint × Option B} {later : List (ChainPoint × Option B)}
    (after : stores.logAfter point = next :: later) :
    (stores.wal.readEntry next.1).isSome ∧ stores.logAfter next.1 = later := by
  rcases List.map_eq_cons_iff.mp after with ⟨entry, rest, filtered, rfl, rfl⟩
  have isEntry : entry ∈ stores.wal.entries := by
    apply List.mem_of_mem_filter
    rw [filtered]
    exact List.mem_cons_self
  have past : point.intoBytes < entry.1 := by
    have kept : entry ∈ stores.wal.entries.filter fun entry => point.intoBytes < entry.1 := by
      rw [filtered]
      exact List.mem_cons_self
    exact of_decide_eq_true (List.mem_filter.mp kept).2
  refine ⟨?_, ?_⟩
  · rw [Wal.readEntry, ChainPoint.intoBytes_fromBytes, OrderedMap.mem_entries_iff.mp isEntry]
    rfl
  · have sorted := stores.wal.sorted.filter fun entry => point.intoBytes < entry.1
    rw [filtered] at sorted
    have restEq : stores.wal.entries.filter (fun other => entry.1 < other.1) = rest := by
      have both : stores.wal.entries.filter (fun other => entry.1 < other.1) =
          (stores.wal.entries.filter fun other => point.intoBytes < other.1).filter
            fun other => entry.1 < other.1 := by
        rw [List.filter_filter]
        apply List.filter_congr
        intro other _
        by_cases above : entry.1 < other.1
        · simp [above, past.trans above]
        · simp [above]
      rw [both, filtered, List.filter_cons_of_neg (by simp)]
      apply List.filter_eq_self.mpr
      intro other isLater
      exact decide_eq_true ((List.pairwise_cons.mp sorted).1 other isLater)
    rw [logAfter, ChainPoint.intoBytes_fromBytes, restEq]

/-- What is left of a crawl on the log. -/
def WalRemains (stores : ChainStores B D O) : Batch B → List (ChainPoint × Option B) → Prop
  | .tip _, rest => rest = []
  | .walPage point pending, rest =>
      (stores.wal.readEntry point).isSome ∧ stores.logAfter point = rest ∧ pending <+: rest
  | .archivePage _ _, _ => False

theorem fromWal_remains (held : (stores.wal.readEntry point).isSome) :
    stores.WalRemains (stores.fromWal point) (stores.logAfter point) := by
  rw [fromWal, iterBlocks_drop held]
  have stretch : (stores.logAfter point).take loadBatchSize <+: stores.logAfter point :=
    List.take_prefix _ _
  split
  · rename_i empty
    rcases List.take_eq_nil_iff.mp empty with zero | noneLeft
    · cases zero
    · exact noneLeft
  · exact ⟨held, rfl, stretch⟩

/-- A page that is not empty gives its first block. -/
theorem pop_remains {pending rest : List (ChainPoint × Option B)}
    (remains : stores.WalRemains (.walPage point pending) rest) (nonempty : pending ≠ []) :
    ∃ answer next, pop (.walPage point pending) = .ok (answer, next) ∧ answer = rest.head? ∧
      stores.WalRemains next rest.tail := by
  rcases remains with ⟨-, after, later, rfl⟩
  cases pending with
  | nil => exact absurd rfl nonempty
  | cons first pending =>
      rcases logAfter_cons after with ⟨held, afterFirst⟩
      exact ⟨some first, .walPage first.1 pending, rfl, rfl, held, afterFirst, later, rfl⟩

/-- A page just loaded from the log gives the first block past its point. -/
theorem popUnlessTip_fromWal (held : (stores.wal.readEntry point).isSome) :
    ∃ answer next, popUnlessTip (stores.fromWal point) = .ok (answer, next) ∧
      answer = (stores.logAfter point).head? ∧
      stores.WalRemains next (stores.logAfter point).tail := by
  have loaded := fromWal_remains held
  cases next : stores.fromWal point with
  | tip last =>
      rw [next] at loaded
      rw [show stores.logAfter point = [] from loaded]
      exact ⟨none, .tip last, rfl, rfl, rfl⟩
  | archivePage last page =>
      rw [next] at loaded
      exact absurd loaded id
  | walPage last page =>
      rw [next] at loaded
      have nonempty : page ≠ [] := by
        intro empty
        rw [fromWal] at next
        split at next
        · cases next
        · rename_i unempty
          cases next
          exact unempty empty
      exact pop_remains loaded nonempty

theorem nextBlock_remains {batch : Batch B} {rest : List (ChainPoint × Option B)}
    (remains : stores.WalRemains batch rest) :
    ∃ answer next, stores.nextBlock batch = .ok (answer, next) ∧ answer = rest.head? ∧
      stores.WalRemains next rest.tail := by
  cases batch with
  | tip point =>
      rcases remains with rfl
      exact ⟨none, .tip point, rfl, rfl, rfl⟩
  | archivePage point pending => exact absurd remains id
  | walPage point pending =>
      by_cases drained : pending = []
      · subst drained
        rcases remains with ⟨held, rfl, -⟩
        exact popUnlessTip_fromWal held
      · have called : stores.nextBlock (.walPage point pending) = pop (.walPage point pending) := by
          simp [nextBlock, isDrained, drained, popUnlessTip]
        rw [called]
        exact pop_remains remains drained

theorem yields_of_walRemains {batch : Batch B} {rest : List (ChainPoint × Option B)}
    (remains : stores.WalRemains batch rest) : stores.Yields batch (rest.map Prod.snd) := by
  apply @yields_of_step _ _ _ stores _ _
    fun batch blocks => ∃ rest, stores.WalRemains batch rest ∧ rest.map Prod.snd = blocks
  · rintro batch blocks ⟨rest, remains, rfl⟩
    rcases nextBlock_remains remains with ⟨answer, next, called, rfl, nextRemains⟩
    refine ⟨_, next, called, ?_, rest.tail, nextRemains, ?_⟩
    · rw [List.head?_map]
    · rw [List.map_tail]
  · exact ⟨rest, remains, rfl⟩

end WalPages

end ChainStores

end Dolos
