import Dolos.Cardano.RollTrace

/-!
# Rolling back

`rollback` of `core/src/sync.rs` over the entities, the outputs, the cursor and the
log. The entries from the target on are undone from the last to the first, over
tracked entities that are written once at the end, until the target itself is met.

The walk goes by the order of the log, which is the order of the blocks only as
long as blocks that share a slot come in the order of their hashes.
-/

namespace Dolos

open Outcome Keyed EntityDelta CardanoDelta

variable {O : Type}

abbrev LedgerLog (O : Type) := LogValue (MultiEraBlock O) CardanoDelta O

/-- The outputs of `compute_undo`. An empty block does not decode. -/
def computeUndo (log : LedgerLog O) : Except DomainError (UtxoSetDelta O) :=
  match log.block with
  | none => .error (.other "block decoding error")
  | some block => computeUndoDelta block log.inputs

namespace LedgerStores

section Run

variable [NonceCrypto]

/-- A condition on every batch of a run, at the stores it is rolled on. -/
def EachBatch (condition : LedgerStores O → WorkBatch (WorkBlock O) → Prop) :
    LedgerStores O → List (WorkBatch (WorkBlock O)) → Prop
  | _, [] => True
  | stores, batch :: rest =>
      condition stores batch ∧
        ∀ rolled, stores.roll batch = .ok rolled → EachBatch condition rolled rest

/-- The loop of `rollback`. -/
def undoDownTo (store : OrderedMap NsKey CardanoEntity) (target : ChainPoint) :
    List (ChainPoint × LedgerLog O) → EntityMap CardanoEntity → UtxoMap O →
      Except DomainError (EntityMap CardanoEntity × UtxoMap O × Option ChainPoint)
  | [], entities, utxos => .ok (entities, utxos, none)
  | (point, log) :: rest, entities, utxos =>
      if point.eq target then .ok (entities, utxos, some point)
      else do
        let undone ← (undoDeltaChunk entities store log.delta).mapError .panic
        let delta ← computeUndo log
        undoDownTo store target rest undone (applyUtxoset utxos delta)

def rollback (stores : LedgerStores O) (target : ChainPoint) :
    Except DomainError (LedgerStores O) := do
  let entries := (stores.wal.iterLogs (some target) none).reverse
  let (entities, utxos, reached) ←
    undoDownTo stores.entities target entries ∅ stores.utxos
  .ok ⟨saveEntities stores.entities entities, utxos, reached <|> stores.cursor,
    stores.wal.truncateFront target⟩

end Run

/-- The blocks of a batch come in the order of the log, after everything in it. No
block has the zero hash, which stands for the origin. -/
structure Ordered (stores : LedgerStores O) (batch : WorkBatch (WorkBlock O)) : Prop where
  hashed : ∀ work ∈ batch.blocks, work.block.hash ≠ 0
  increasing : batch.blocks.Pairwise fun earlier later =>
    earlier.point.intoBytes < later.point.intoBytes
  above : ∀ entry ∈ stores.wal.entries, ∀ work ∈ batch.blocks, entry.1 < work.point.intoBytes

namespace Ordered

variable {stores : LedgerStores O} {batch : WorkBatch (WorkBlock O)}

theorem sortBySlot_eq (ordered : Ordered stores batch) :
    sortBySlot batch.blocks = batch.blocks := by
  apply List.mergeSort_of_pairwise
  apply ordered.increasing.imp
  intro earlier later below
  have slots : earlier.block.slot ≤ later.block.slot := by
    rcases Prod.Lex.lt_iff.mp below with less | ⟨same, -⟩
    · exact Nat.le_of_lt less
    · exact Nat.le_of_eq same
  simpa using slots

theorem fromBytes_point (ordered : Ordered stores batch) {work : WorkBlock O}
    (member : work ∈ batch.blocks) : ChainPoint.fromBytes work.point.intoBytes = work.point := by
  apply ChainPoint.fromBytes_specific
  intro zero
  have hashZero := congrArg Prod.snd (toLex.injective zero)
  exact ordered.hashed work member hashZero

variable [NonceCrypto]

omit [NonceCrypto] in
theorem le_last (ordered : Ordered stores batch) {last : WorkBlock O}
    (lastEq : batch.blocks.getLast? = some last) {work : WorkBlock O}
    (member : work ∈ batch.blocks) : work.point.intoBytes ≤ last.point.intoBytes := by
  rcases List.getLast?_eq_some_iff.mp lastEq with ⟨init, initEq⟩
  have increasing := ordered.increasing
  rw [initEq] at member increasing
  rcases List.mem_append.mp member with isInit | isEnd
  · exact le_of_lt ((List.pairwise_append.mp increasing).2.2 work isInit last (by simp))
  · rw [List.mem_singleton.mp isEnd]

omit [NonceCrypto] in
/-- The log entries of a batch. -/
structure Logged (stores logged : LedgerStores O) (batch : WorkBatch (WorkBlock O))
    (entries : List (ChainPoint × LedgerLog O)) : Prop where
  points : entries.map Prod.fst = batch.blocks.map WorkBlock.point
  walEq : logged.wal.entries = stores.wal.entries ++
    entries.map fun entry => (entry.1.intoBytes, entry.2)

/-- A batch in the order of the log is appended to it. -/
theorem logged (ordered : Ordered stores batch) {computed : RollBatch O}
    {logged : LedgerStores O} (done : stores.rollLogged batch = .ok (computed, logged)) :
    Logged stores logged batch (computed.blocks.map fun work => work.logEntry computed.utxos) := by
  rcases rollLogged_spec done with ⟨rfl, pairs, trace⟩
  have blocksEq := trace.map_block
  rw [ordered.sortBySlot_eq] at blocksEq
  have points : (computed.blocks.map fun work => work.logEntry computed.utxos).map Prod.fst =
      batch.blocks.map WorkBlock.point := by
    have pointsEq := congrArg (List.map Block.point) blocksEq
    rw [List.map_map, List.map_map] at pointsEq
    rw [List.map_map]
    exact pointsEq
  refine ⟨points, ?_⟩
  change (OrderedMap.insertAll _ _).entries = _
  rw [OrderedMap.entries_insertAll_above]
  · intro entry member later isLater
    rcases List.mem_map.mp isLater with ⟨log, isLog, rfl⟩
    have isPoint : log.1 ∈ batch.blocks.map WorkBlock.point := by
      rw [← points]
      exact List.mem_map.mpr ⟨log, isLog, rfl⟩
    rcases List.mem_map.mp isPoint with ⟨given, isGiven, pointEq⟩
    rw [← pointEq]
    exact ordered.above entry member given isGiven
  · have increasing : (batch.blocks.map WorkBlock.point).Pairwise
        fun earlier later => earlier.intoBytes < later.intoBytes := by
      rw [List.pairwise_map]
      exact ordered.increasing
    rw [← points, List.pairwise_map] at increasing
    rw [List.pairwise_map]
    exact increasing

namespace Logged

variable {logged : LedgerStores O} {entries : List (ChainPoint × LedgerLog O)}

omit [NonceCrypto] in
theorem exists_work (isLogged : Logged stores logged batch entries)
    {entry : ChainPoint × LedgerLog O} (member : entry ∈ entries) :
    ∃ work ∈ batch.blocks, entry.1 = work.point := by
  have isPoint : entry.1 ∈ batch.blocks.map WorkBlock.point := by
    rw [← isLogged.points]
    exact List.mem_map.mpr ⟨entry, member, rfl⟩
  rcases List.mem_map.mp isPoint with ⟨work, isWork, pointEq⟩
  exact ⟨work, isWork, pointEq.symm⟩

omit [NonceCrypto] in
theorem decoded (isLogged : Logged stores logged batch entries)
    (ordered : Ordered stores batch) :
    ∀ entry ∈ entries, ChainPoint.fromBytes entry.1.intoBytes = entry.1 := by
  intro entry member
  rcases isLogged.exists_work member with ⟨work, isWork, pointEq⟩
  rw [pointEq]
  exact ordered.fromBytes_point isWork

omit [NonceCrypto] in
/-- The last block has the last entry. -/
theorem getLast (isLogged : Logged stores logged batch entries) {last : WorkBlock O}
    (lastEq : batch.blocks.getLast? = some last) :
    ∃ log, entries.getLast? = some (last.point, log) := by
  have pointEq : (entries.map Prod.fst).getLast? = some last.point := by
    rw [isLogged.points, List.getLast?_map, lastEq]
    rfl
  rw [List.getLast?_map] at pointEq
  rcases Option.map_eq_some_iff.mp pointEq with ⟨⟨point, log⟩, entryEq, rfl⟩
  exact ⟨log, entryEq⟩

end Logged

end Ordered

/-- Blocks in the order of the log, with the deltas the visitors emit. -/
structure Rollable [NonceCrypto] (stores : LedgerStores O) (batch : WorkBatch (WorkBlock O)) :
    Prop extends Ordered stores batch where
  emitted : ∀ work ∈ batch.blocks, work.Emitted

/-- What a rollback takes for granted of a batch besides: the blocks were validated,
and no reference count stood at the top of its range. -/
structure Undoable [NonceCrypto] (stores : LedgerStores O) (batch : WorkBatch (WorkBlock O)) :
    Prop extends Rollable stores batch where
  valid : ValidChain stores.utxos (batch.blocks.map WorkBlock.block)
  unsaturated : ∀ index,
    Along Unsaturated (historyOf batch.blocks index) (stores.entities.get? index)

section Walk

variable [NonceCrypto]

/-- The part of the log a run has added, with the way back it keeps. -/
structure Added (stores after : LedgerStores O) (entries : List (ChainPoint × LedgerLog O)) :
    Prop where
  walEq : after.wal.entries = stores.wal.entries ++
    entries.map fun entry => (entry.1.intoBytes, entry.2)
  decoded : ∀ entry ∈ entries, ChainPoint.fromBytes entry.1.intoBytes = entry.1
  retraces : Path Retraces entries stores.view after.view
  typed : WellTyped after.entities.get?

theorem added_roll {stores rolled : LedgerStores O} {batch : WorkBatch (WorkBlock O)}
    (undoable : Undoable stores batch) (typed : WellTyped stores.entities.get?)
    (done : stores.roll batch = .ok rolled) : ∃ entries, Added stores rolled entries := by
  rcases bind_eq_ok.mp done with ⟨⟨computed, logged⟩, loggedDone, committed⟩
  have ordered := undoable.toOrdered
  have isLogged := ordered.logged loggedDone
  rcases rollLogged_spec loggedDone with ⟨loggedEq, pairs, trace⟩
  rw [ordered.sortBySlot_eq] at trace
  rcases trace.commitState_spec loggedEq committed with ⟨entitiesEq, utxosEq, walEq, -⟩
  have emitted := trace.emitted undoable.emitted
  have inputsEq : computed.utxos =
      loadUtxos ([] ++ pairs.map fun pair => pair.1.block) stores.utxos := by
    rw [trace.utxos, List.nil_append, trace.blocksEq]
  have valid : ValidChain stores.utxos ([] ++ pairs.map fun pair => pair.1.block) := by
    rw [List.nil_append, trace.blocksEq]
    exact undoable.valid
  have unsaturated : ∀ index, Along Unsaturated (historyOf (pairs.map Prod.fst) index)
      (stores.entities.get? index) := by
    intro index
    rw [trace.historyOf_eq]
    exact undoable.unsaturated index
  have path := retraces_of_path trace.path inputsEq valid trace.resolved emitted typed unsaturated
  rw [trace.logEntries_eq] at path
  refine ⟨computed.blocks.map fun work => work.logEntry computed.utxos, ?_, ?_, ?_, ?_⟩
  · rw [walEq]
    exact isLogged.walEq
  · exact isLogged.decoded ordered
  · have afterView : rolled.view = ⟨stores.entities.overlay computed.entities,
        advanceAll stores.utxos ([] ++ pairs.map fun pair => pair.1.block)⟩ := by
      rw [view, entitiesEq, utxosEq, List.nil_append, trace.blocksEq]
    rw [afterView]
    exact path
  · rw [entitiesEq]
    exact wellTyped_of_path trace.path emitted typed

theorem Added.append {stores middle after : LedgerStores O}
    {first second : List (ChainPoint × LedgerLog O)} (earlier : Added stores middle first)
    (later : Added middle after second) : Added stores after (first ++ second) := by
  refine ⟨?_, ?_, earlier.retraces.append later.retraces, later.typed⟩
  · rw [later.walEq, earlier.walEq, List.map_append, List.append_assoc]
  · intro entry member
    rcases List.mem_append.mp member with isEarlier | isLater
    · exact earlier.decoded entry isEarlier
    · exact later.decoded entry isLater

theorem added_rollAll {stores after : LedgerStores O} {batches : List (WorkBatch (WorkBlock O))}
    (undoable : EachBatch Undoable stores batches) (typed : WellTyped stores.entities.get?)
    (done : stores.rollAll batches = .ok after) : ∃ entries, Added stores after entries := by
  induction batches generalizing stores with
  | nil =>
      rcases Except.ok.inj done with rfl
      exact ⟨[], by simp, by simp, .nil _, typed⟩
  | cons batch rest ih =>
      rcases bind_eq_ok.mp done with ⟨rolled, rolledEq, restDone⟩
      rcases added_roll undoable.1 typed rolledEq with ⟨first, earlier⟩
      rcases ih (undoable.2 rolled rolledEq) earlier.typed restDone with ⟨second, later⟩
      exact ⟨first ++ second, earlier.append later⟩

/-- The loop of a rollback goes back along the path of the entries it meets. -/
theorem undoDownTo_of_path {store : OrderedMap NsKey CardanoEntity} {target : ChainPoint}
    {entries : List (ChainPoint × LedgerLog O)} {before after : LedgerView O}
    (path : Path Retraces entries before after)
    (missed : ∀ entry ∈ entries, entry.1.eq target = false)
    {tracked : EntityMap CardanoEntity} (seen : store.overlay tracked = after.entities)
    (rest : List (ChainPoint × LedgerLog O)) :
    ∃ undone, store.overlay undone = before.entities ∧
      undoDownTo store target (entries.reverse ++ rest) tracked after.utxos =
        undoDownTo store target rest undone before.utxos := by
  induction path generalizing rest with
  | nil => exact ⟨tracked, seen, rfl⟩
  | @cons entry later before next after retraces _ ih =>
      rcases entry with ⟨point, log⟩
      have missedLater : ∀ entry ∈ later, entry.1.eq target = false := by
        intro entry member
        exact missed entry (List.mem_cons_of_mem _ member)
      have missedHere : point.eq target = false := missed (point, log) List.mem_cons_self
      rcases ih missedLater seen ((point, log) :: rest) with ⟨reached, reachedSeen, walked⟩
      have ran := retraces.entities
      rw [← reachedSeen] at ran
      rcases undoDeltaChunk_of_runOn ran with ⟨undone, undoneEq, undoneSeen⟩
      rcases retraces.utxos with ⟨block, delta, blockEq, deltaEq, utxosEq⟩
      refine ⟨undone, undoneSeen, ?_⟩
      have computed : computeUndo log = .ok delta := by
        simp only [computeUndo]
        rw [show log.block = some block from blockEq]
        exact deltaEq
      have undoneOk := mapError_eq_ok (f := DomainError.panic).mpr undoneEq
      rw [List.reverse_cons, List.append_assoc, List.singleton_append, walked]
      rw [undoDownTo, missedHere, if_neg Bool.false_ne_true, undoneOk, ok_bind, computed, ok_bind,
        utxosEq]

/-- The cursor is at a block, the last one of the log. -/
structure AtTip (stores : LedgerStores O) (slot : ℕ) (hash : BlockHash) : Prop where
  cursor : stores.cursor = some (.specific slot hash)
  hashed : hash ≠ 0
  logged : (stores.wal.get? (toLex (slot, hash))).isSome
  highest : ∀ entry ∈ stores.wal.entries, entry.1 ≤ toLex (slot, hash)

/-- A batch leaves the cursor at its last block. -/
theorem atTip_roll {stores rolled : LedgerStores O} {batch : WorkBatch (WorkBlock O)}
    (rollable : Rollable stores batch) (typed : WellTyped stores.entities.get?)
    (done : stores.roll batch = .ok rolled) :
    WellTyped rolled.entities.get? ∧ ∃ slot hash, AtTip rolled slot hash := by
  rcases bind_eq_ok.mp done with ⟨⟨computed, logged⟩, loggedDone, committed⟩
  have ordered := rollable.toOrdered
  have isLogged := ordered.logged loggedDone
  rcases rollLogged_spec loggedDone with ⟨loggedEq, pairs, trace⟩
  rw [ordered.sortBySlot_eq] at trace
  rcases trace.commitState_spec loggedEq committed with
    ⟨entitiesEq, -, walEq, last, lastEq, cursorEq⟩
  have isLast : last ∈ batch.blocks := List.mem_of_getLast? lastEq
  constructor
  · rw [entitiesEq]
    exact wellTyped_of_path trace.path (trace.emitted rollable.emitted) typed
  refine ⟨last.block.slot, last.block.hash, cursorEq, ordered.hashed last isLast, ?_, ?_⟩
  · rcases isLogged.getLast lastEq with ⟨log, logEq⟩
    have isEntry : (last.point.intoBytes, log) ∈ rolled.wal.entries := by
      rw [walEq, isLogged.walEq]
      apply List.mem_append_right
      exact List.mem_map.mpr ⟨(last.point, log), List.mem_of_getLast? logEq, rfl⟩
    exact Option.isSome_of_eq_some (OrderedMap.mem_entries_iff.mp isEntry)
  · intro entry member
    rw [walEq, isLogged.walEq] at member
    rcases List.mem_append.mp member with isOld | isNew
    · exact le_of_lt (ordered.above entry isOld last isLast)
    · rcases List.mem_map.mp isNew with ⟨log, isLog, rfl⟩
      rcases isLogged.exists_work isLog with ⟨work, isWork, pointEq⟩
      rw [pointEq]
      exact ordered.le_last lastEq isWork

theorem atTip_rollAll {stores after : LedgerStores O} {batches : List (WorkBatch (WorkBlock O))}
    (rollable : EachBatch Rollable stores batches) (nonempty : batches ≠ [])
    (typed : WellTyped stores.entities.get?) (done : stores.rollAll batches = .ok after) :
    WellTyped after.entities.get? ∧ ∃ slot hash, AtTip after slot hash := by
  induction batches generalizing stores with
  | nil => exact absurd rfl nonempty
  | cons batch rest ih =>
      rcases bind_eq_ok.mp done with ⟨rolled, rolledEq, restDone⟩
      rcases atTip_roll rollable.1 typed rolledEq with ⟨rolledTyped, atTip⟩
      cases rest with
      | nil =>
          rcases Except.ok.inj restDone with rfl
          exact ⟨rolledTyped, atTip⟩
      | cons next later =>
          exact ih (rollable.2 rolled rolledEq) (by simp) rolledTyped restDone

/-- A rollback to the tip of some stores takes back whatever was added to them. -/
theorem rollback_added {stores after : LedgerStores O} {slot : ℕ} {hash : BlockHash}
    (atTip : AtTip stores slot hash) {entries : List (ChainPoint × LedgerLog O)}
    (added : Added stores after entries) :
    after.rollback (.specific slot hash) = .ok stores := by
  have sorted := after.wal.sorted
  rw [added.walEq, List.pairwise_append] at sorted
  rcases Option.isSome_iff_exists.mp atTip.logged with ⟨tipLog, tipLogEq⟩
  have tipEntry : (toLex (slot, hash), tipLog) ∈ stores.wal.entries :=
    OrderedMap.mem_entries_iff.mpr tipLogEq
  have above : ∀ entry ∈ entries, toLex (slot, hash) < entry.1.intoBytes := by
    intro entry member
    exact sorted.2.2 _ tipEntry (entry.1.intoBytes, entry.2) (List.mem_map.mpr ⟨entry, member, rfl⟩)
  have logs : after.wal.iterLogs (some (.specific slot hash)) none =
      (.specific slot hash, tipLog) :: entries := by
    have tipHeld : stores.wal.get? (ChainPoint.specific slot hash).intoBytes = some tipLog :=
      tipLogEq
    have kept : (entries.map fun entry => (entry.1.intoBytes, entry.2)).filter
        (fun entry => (ChainPoint.specific slot hash).intoBytes ≤ entry.1) =
          entries.map fun entry => (entry.1.intoBytes, entry.2) := by
      apply List.filter_eq_self.mpr
      intro entry member
      rcases List.mem_map.mp member with ⟨log, isLog, rfl⟩
      exact decide_eq_true (le_of_lt (above log isLog))
    have tipDecoded : ChainPoint.fromBytes (toLex (slot, hash)) = .specific slot hash := by
      apply ChainPoint.fromBytes_specific
      intro zero
      exact atTip.hashed (congrArg Prod.snd (toLex.injective zero))
    rw [Wal.iterLogs_from, added.walEq, List.filter_append,
      OrderedMap.entries_filter_greatest tipHeld atTip.highest, kept, List.singleton_append,
      List.map_cons, Wal.map_decoded added.decoded, ChainPoint.intoBytes_specific, tipDecoded]
  have missed : ∀ entry ∈ entries, entry.1.eq (.specific slot hash) = false := by
    intro entry member
    rw [← added.decoded entry member, ChainPoint.eq_fromBytes atTip.hashed]
    exact decide_eq_false (ne_of_gt (above entry member))
  have seen : after.entities.overlay ∅ = after.view.entities := OrderedMap.overlay_empty _
  rcases undoDownTo_of_path added.retraces missed seen [(.specific slot hash, tipLog)] with
    ⟨undone, undoneSeen, walked⟩
  have met : (ChainPoint.specific slot hash).eq (.specific slot hash) = true := by simp
  have entitiesEq : saveEntities after.entities undone = stores.entities := by
    ext1 index
    rw [saveEntities, OrderedMap.get?_setAll, undoneSeen]
    rfl
  have walEq : after.wal.truncateFront (.specific slot hash) = stores.wal := by
    apply OrderedMap.eq_of_entries
    change after.wal.entries.filter (fun entry => decide (entry.1 ≤ toLex (slot, hash))) = _
    rw [added.walEq, List.filter_append, List.filter_eq_self.mpr, List.filter_eq_nil_iff.mpr,
      List.append_nil]
    · intro entry member
      rcases List.mem_map.mp member with ⟨log, isLog, rfl⟩
      simpa using above log isLog
    · intro entry member
      exact decide_eq_true (atTip.highest entry member)
  have walkedEq : undoDownTo after.entities (.specific slot hash)
      (entries.reverse ++ [(.specific slot hash, tipLog)]) ∅ after.utxos =
        .ok (undone, stores.utxos, some (.specific slot hash)) := by
    refine walked.trans ?_
    rw [undoDownTo, met, if_pos rfl]
    rfl
  have cursorEq : (some (ChainPoint.specific slot hash) <|> after.cursor) = stores.cursor :=
    atTip.cursor.symm
  rw [rollback, logs, List.reverse_cons, walkedEq, ok_bind]
  simp only [entitiesEq, walEq, cursorEq]

/-- Rolling a prefix, then an extension of it, and rolling back to the tip of the
prefix leaves the stores as the prefix left them. -/
theorem rollback_rollAll {start afterBase afterExtension : LedgerStores O}
    {base extension : List (WorkBatch (WorkBlock O))}
    (typed : WellTyped start.entities.get?) (nonempty : base ≠ [])
    (rollable : EachBatch Rollable start base)
    (rolledBase : start.rollAll base = .ok afterBase)
    (undoable : EachBatch Undoable afterBase extension)
    (rolledExtension : afterBase.rollAll extension = .ok afterExtension) :
    ∃ tip, afterBase.cursor = some tip ∧ afterExtension.rollback tip = .ok afterBase := by
  rcases atTip_rollAll rollable nonempty typed rolledBase with
    ⟨baseTyped, slot, hash, atTip⟩
  rcases added_rollAll undoable baseTyped rolledExtension with ⟨entries, added⟩
  exact ⟨.specific slot hash, atTip.cursor, rollback_added atTip added⟩

end Walk

section Fork

theorem sortBySlot_singleton (work : WorkBlock O) : sortBySlot [work] = [work] :=
  List.mergeSort_singleton work

/-- Stores after genesis, with one output. -/
def oneOutput : LedgerStores ℕ where
  entities := ∅
  utxos := .ofList [(toLex (1, 0), 100)]
  cursor := some .origin
  wal := (∅ : Wal (LedgerLog ℕ)).appendEntries [(.origin, .origin)]

def boundaryBlock : WorkBlock ℕ := ⟨⟨5, 9, none, []⟩, .default, none⟩

/-- A child of the boundary block that spends the output and refers to a datum. -/
def spendingBlock : WorkBlock ℕ where
  block := ⟨6, 3, some 9, [⟨2, [(0, 60)], [toLex (1, 0)]⟩]⟩
  deltas := ⟨[(DatumState.nsKey 7, [datumRefIncrement (.new 7 [])])], by simp⟩
  utxoDelta := none

/-- A child of the boundary block in the same slot, as Byron has them. -/
def mainBlock : WorkBlock ℕ := ⟨⟨5, 3, some 9, [⟨2, [(0, 60)], [toLex (1, 0)]⟩]⟩, .default, none⟩

def afterBoundaryBlock : LedgerStores ℕ where
  entities := ∅
  utxos := .ofList [(toLex (1, 0), 100)]
  cursor := some (.specific 5 9)
  wal := oneOutput.wal.appendEntries [(.specific 5 9, ⟨some boundaryBlock.block, [], ∅⟩)]

def afterSpendingBlock : LedgerStores ℕ where
  entities := .ofList [(DatumState.nsKey 7, .datum ⟨1, []⟩)]
  utxos := .ofList [(toLex (2, 0), 60)]
  cursor := some (.specific 6 3)
  wal := afterBoundaryBlock.wal.appendEntries
    [(.specific 6 3, ⟨some spendingBlock.block, [datumRefIncrement ⟨7, [], true⟩],
      .ofList [(toLex (1, 0), 100), (toLex (2, 0), 60)]⟩)]

def afterMainBlock : LedgerStores ℕ where
  entities := ∅
  utxos := .ofList [(toLex (2, 0), 60)]
  cursor := some (.specific 5 3)
  wal := afterBoundaryBlock.wal.appendEntries
    [(.specific 5 3, ⟨some mainBlock.block, [],
      .ofList [(toLex (1, 0), 100), (toLex (2, 0), 60)]⟩)]

theorem rollAll_boundaryBlock :
    letI := NonceCrypto.still
    oneOutput.rollAll [.forSingleBlock boundaryBlock] = .ok afterBoundaryBlock := by
  let _ := NonceCrypto.still
  rw [rollAll, roll, rollLogged, RollBatch.load, WorkBatch.blocks_forSingleBlock,
    sortBySlot_singleton]
  rfl

theorem rollAll_spendingBlock :
    letI := NonceCrypto.still
    afterBoundaryBlock.rollAll [.forSingleBlock spendingBlock] = .ok afterSpendingBlock := by
  let _ := NonceCrypto.still
  rw [rollAll, roll, rollLogged, RollBatch.load, WorkBatch.blocks_forSingleBlock,
    sortBySlot_singleton]
  rfl

theorem rollAll_mainBlock :
    letI := NonceCrypto.still
    afterBoundaryBlock.rollAll [.forSingleBlock mainBlock] = .ok afterMainBlock := by
  let _ := NonceCrypto.still
  rw [rollAll, roll, rollLogged, RollBatch.load, WorkBatch.blocks_forSingleBlock,
    sortBySlot_singleton]
  rfl

theorem group_spendingBlock (index : NsKey) :
    spendingBlock.deltas.group index =
      if index = DatumState.nsKey 7 then [datumRefIncrement (.new 7 [])] else [] := by
  simp only [WorkDeltas.group, WorkDeltas.get?, spendingBlock, OrderedMap.lookup]
  split_ifs
  · rfl
  · rfl

theorem rollable_boundaryBlock :
    letI := NonceCrypto.still
    Rollable oneOutput (.forSingleBlock boundaryBlock) := by
  let _ := NonceCrypto.still
  refine ⟨⟨?_, ?_, ?_⟩, ?_⟩
  · intro work member
    rcases List.mem_singleton.mp member with rfl
    decide
  · simp
  · intro entry member work isWork
    rcases List.mem_singleton.mp isWork with rfl
    rcases List.mem_singleton.mp member with rfl
    decide
  · intro work member index delta inGroup
    rcases List.mem_singleton.mp member with rfl
    cases inGroup

theorem undoable_spendingBlock :
    letI := NonceCrypto.still
    Undoable afterBoundaryBlock (.forSingleBlock spendingBlock) := by
  let _ := NonceCrypto.still
  have produced : ∀ txo, (spendingBlock.block.produced.get? txo).isSome → txo = toLex (2, 0) := by
    intro txo made
    exact List.mem_singleton.mp (OrderedMap.mem_keys_iff.mpr made)
  refine ⟨⟨⟨?_, ?_, ?_⟩, ?_⟩, ⟨?_, ?_, ?_⟩, ?_⟩
  · intro work member
    rcases List.mem_singleton.mp member with rfl
    decide
  · simp
  · intro entry member work isWork
    rcases List.mem_singleton.mp isWork with rfl
    rcases List.mem_pair.mp member with rfl | rfl
    · decide
    · decide
  · intro work member index delta inGroup
    rcases List.mem_singleton.mp member with rfl
    rw [group_spendingBlock] at inGroup
    split_ifs at inGroup with isDatum
    · rcases List.mem_singleton.mp inGroup with rfl
      exact ⟨isDatum.symm, trivial⟩
    · cases inGroup
  · intro block member txo made
    rcases List.mem_singleton.mp member with rfl
    rw [produced txo made]
    rfl
  · simp
  · intro earlier block later split txo spent _
    have isFirst : earlier = [] ∧ block = spendingBlock.block := by
      rcases List.append_eq_singleton_iff.mp split.symm with ⟨isNil, tail⟩ | ⟨_, tail⟩
      · exact ⟨isNil, (List.cons.inj tail).1⟩
      · simp at tail
    rcases isFirst with ⟨rfl, rfl⟩
    rw [List.mem_singleton.mp spent]
    rfl
  · intro index
    change Along Unsaturated (spendingBlock.deltas.group index ++ []) none
    rw [group_spendingBlock]
    split_ifs
    · refine ⟨?_, fun _ _ _ => trivial⟩
      intro datum held
      cases held
    · trivial

/-- A spending block in a slot of its own is rolled back. -/
theorem rollback_spendingBlock :
    letI := NonceCrypto.still
    ∃ tip, afterBoundaryBlock.cursor = some tip ∧
      afterSpendingBlock.rollback tip = .ok afterBoundaryBlock := by
  let _ := NonceCrypto.still
  apply rollback_rollAll _ _ _ rollAll_boundaryBlock _ rollAll_spendingBlock
  · intro index entity held
    simp [oneOutput] at held
  · simp
  · exact ⟨rollable_boundaryBlock, fun _ _ => trivial⟩
  · exact ⟨undoable_spendingBlock, fun _ _ => trivial⟩

/-- In the slot of the boundary block, with a lesser hash, it stands before its
parent in the log: the rollback to the parent moves the cursor and leaves the
block's effects and its log entry where they are. -/
theorem rollback_misses_shared_slot :
    letI := NonceCrypto.still
    oneOutput.rollAll [.forSingleBlock boundaryBlock] = .ok afterBoundaryBlock ∧
      afterBoundaryBlock.rollAll [.forSingleBlock mainBlock] =
        .ok afterMainBlock ∧
      afterBoundaryBlock.cursor = some (.specific 5 9) ∧
      afterMainBlock.rollback (.specific 5 9) =
        .ok { afterMainBlock with cursor := some (.specific 5 9) } ∧
      afterMainBlock.rollback (.specific 5 9) ≠ .ok afterBoundaryBlock := by
  refine ⟨rollAll_boundaryBlock, rollAll_mainBlock, rfl, rfl, ?_⟩
  intro restored
  have utxosEq := congrArg LedgerStores.utxos (Except.ok.inj restored)
  have spent := congrArg (fun utxos => utxos.get? (toLex (1, 0))) utxosEq
  cases spent

end Fork

end LedgerStores

end Dolos
