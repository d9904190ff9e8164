import Dolos.Cardano.Rollback

/-!
# Recovering from a crash

`core/src/bootstrap.rs`: when the log was committed and the state was not, the
entries past the state cursor are applied again at the next start. Entries are told
apart by their slot alone, so the recovery is exact as long as every uncommitted
block is in a later slot than the cursor.

A boundary unit writes no log entry. What it makes of the entities and outputs is
arbitrary here, only the cursor it leaves matters.
-/

namespace Dolos

open Outcome Keyed EntityDelta CardanoDelta

variable {O : Type}

/-- The outputs of `compute_catchup`. -/
def computeCatchup (log : LedgerLog O) : Except DomainError (UtxoSetDelta O) :=
  match log.block with
  | none => .error (.other "block decoding error")
  | some block => computeApplyDelta block log.inputs

/-- The slot catching up starts from: none before anything was applied. -/
def stateSlot : Option ChainPoint → Option ℕ
  | none => none
  | some .origin => none
  | some point => some point.slot

/-- `verify_caught_up` with fatal severity. -/
def verifyCaughtUp (reached : Option ChainPoint) (target : ChainPoint) : Except DomainError Unit :=
  if reached.any fun point => target.slot ≤ point.slot then .ok ()
  else .error (.inconsistentState (some target) reached)

/-- The entries catching up passes over: at or before the cursor's slot, and those
without a block. -/
def isPassed (slot : Option ℕ) (entry : ChainPoint × LedgerLog O) : Bool :=
  slot.any (fun slot => entry.1.slot ≤ slot) || entry.2.block.isNone

namespace LedgerStores

def checkWalInSyncWithState (stores : LedgerStores O) : Except DomainError (LedgerStores O) :=
  match stores.wal.findTip.map Prod.fst, stores.cursor with
  | some tip, some state =>
      if state.slot ≤ tip.slot then .ok stores
      else .error (.inconsistentState (some tip) (some state))
  | none, some state =>
      if state.isFullyDefined then .ok { stores with wal := stores.wal.resetTo state .origin }
      else .error (.inconsistentState none (some state))
  | some tip, none =>
      if tip.eq .origin then .ok stores else .error (.inconsistentState (some tip) none)
  | none, none => .ok stores

section Run

variable [NonceCrypto]

/-- One entry of the loop of `catch_up_state`, committed on its own. -/
def replayEntry (stores : LedgerStores O) (entry : ChainPoint × LedgerLog O) :
    Except DomainError (LedgerStores O) := do
  let entities ← (applyDeltaChunk ∅ stores.entities entry.2.delta).mapError .panic
  let delta ← computeCatchup entry.2
  .ok { stores with
    entities := saveEntities stores.entities entities
    utxos := applyUtxoset stores.utxos delta
    cursor := some entry.1 }

def replayLogs (slot : Option ℕ) :
    List (ChainPoint × LedgerLog O) → LedgerStores O → Except DomainError (LedgerStores O)
  | [], stores => .ok stores
  | entry :: rest, stores =>
      if isPassed slot entry then replayLogs slot rest stores
      else do
        let next ← stores.replayEntry entry
        replayLogs slot rest next

def catchUpState (stores : LedgerStores O) (target : ChainPoint) :
    Except DomainError (LedgerStores O) :=
  if stores.cursor.any fun point => point.eq target then .ok stores
  else do
    let slot := stateSlot stores.cursor
    let start := slot.bind stores.wal.locatePoint
    let caughtUp ← replayLogs slot (stores.wal.iterLogs start (some target)) stores
    verifyCaughtUp caughtUp.cursor target
    .ok caughtUp

/-- `catch_up_stores`, as far as the state is concerned. -/
def catchUpStores (stores : LedgerStores O) : Except DomainError (LedgerStores O) :=
  match stores.wal.findTip with
  | none => .ok stores
  | some (.origin, _) => .ok stores
  | some (target, _) => stores.catchUpState target

/-- What a restart makes of the stores it finds. -/
def recover (stores : LedgerStores O) : Except DomainError (LedgerStores O) := do
  let checked ← stores.checkWalInSyncWithState
  checked.catchUpStores

/-- A unit of the ledger: a roll, or a boundary unit with the slot Estart leaves in
the cursor. -/
inductive LedgerUnit (O : Type) where
  | roll (batch : WorkBatch (WorkBlock O))
  | boundary (effect : OrderedMap NsKey CardanoEntity → UtxoMap O →
      Except DomainError (OrderedMap NsKey CardanoEntity × UtxoMap O)) (estart : Option ℕ)

def execute (stores : LedgerStores O) : LedgerUnit O → Except DomainError (LedgerStores O)
  | .roll batch => stores.roll batch
  | .boundary effect estart => do
      let (entities, utxos) ← effect stores.entities stores.utxos
      .ok { stores with
        entities := entities
        utxos := utxos
        cursor := estart.map ChainPoint.slotOnly <|> stores.cursor }

def executeAll (stores : LedgerStores O) :
    List (LedgerUnit O) → Except DomainError (LedgerStores O)
  | [] => .ok stores
  | unit :: rest => do
      let next ← stores.execute unit
      next.executeAll rest

/-- A condition on every unit of a run, at the stores it is executed on. -/
def EachUnit (condition : LedgerStores O → LedgerUnit O → Prop) :
    LedgerStores O → List (LedgerUnit O) → Prop
  | _, [] => True
  | stores, unit :: rest =>
      condition stores unit ∧
        ∀ next, stores.execute unit = .ok next → EachUnit condition next rest

/-- A batch the log can carry over a crash: every block is past the slot of the
cursor, and no delta needs the epoch its encoding skips. -/
structure RecoverableBatch (stores : LedgerStores O) (batch : WorkBatch (WorkBlock O)) : Prop
    extends Rollable stores batch where
  later : ∀ slot ∈ stateSlot stores.cursor, ∀ work ∈ batch.blocks, slot < work.block.slot
  epochFree : ∀ index, Along EpochFree (historyOf batch.blocks index) (stores.entities.get? index)

/-- A unit that leaves everything in the log applied: a batch in the order of the log, or a
boundary that keeps entities in their namespaces and does not move the cursor back. -/
def KeepsSettled (stores : LedgerStores O) : LedgerUnit O → Prop
  | .roll batch => Rollable stores batch
  | .boundary effect estart =>
      (∀ entities utxos, effect stores.entities stores.utxos = .ok (entities, utxos) →
        WellTyped stores.entities.get? → WellTyped entities.get?) ∧
      ∀ slot ∈ estart, ∀ point ∈ stores.cursor, point.slot ≤ slot

omit [NonceCrypto] in
/-- Everything in the log has been applied. -/
structure Settled (stores : LedgerStores O) : Prop where
  typed : WellTyped stores.entities.get?
  started : stores.cursor.isSome
  applied : ∀ point ∈ stores.cursor, ∀ entry ∈ stores.wal.entries, (ofLex entry.1).1 ≤ point.slot
  synthetic : stores.cursor = some .origin → ∀ entry ∈ stores.wal.entries, entry.2.block = none

section Replay

variable {stores : LedgerStores O} {slot : Option ℕ}

omit [NonceCrypto] in
theorem eq_of_view {left right : LedgerStores O} (views : left.view = right.view)
    (cursors : left.cursor = right.cursor) (wals : left.wal = right.wal) : left = right := by
  have entitiesEq : left.entities = right.entities := by
    apply OrderedMap.ext
    intro index
    exact congrFun (congrArg LedgerView.entities views) index
  have utxosEq : left.utxos = right.utxos := congrArg LedgerView.utxos views
  exact LedgerStores.ext entitiesEq utxosEq cursors wals

theorem replayLogs_passed {passed rest : List (ChainPoint × LedgerLog O)}
    (allPassed : ∀ entry ∈ passed, isPassed slot entry = true) :
    replayLogs slot (passed ++ rest) stores = replayLogs slot rest stores := by
  induction passed with
  | nil => rfl
  | cons entry later ih =>
      rw [List.cons_append, replayLogs, if_pos (allPassed entry List.mem_cons_self)]
      apply ih
      intro other member
      exact allPassed other (List.mem_cons_of_mem entry member)

/-- The loop of catching up goes along the path of the entries it does not pass. -/
theorem replayLogs_of_path {entries : List (ChainPoint × LedgerLog O)}
    {before after : LedgerView O} (path : Path Repeats entries before after)
    (unpassed : ∀ entry ∈ entries, isPassed slot entry = false) (viewEq : stores.view = before) :
    ∃ caughtUp, replayLogs slot entries stores = .ok caughtUp ∧ caughtUp.view = after ∧
      caughtUp.wal = stores.wal ∧
      caughtUp.cursor = (entries.map Prod.fst).getLast?.or stores.cursor := by
  induction path generalizing stores with
  | nil => exact ⟨stores, rfl, viewEq, rfl, rfl⟩
  | @cons entry rest before next after repeats _ ih =>
      have unpassedHere := unpassed entry List.mem_cons_self
      have unpassedRest : ∀ later ∈ rest, isPassed slot later = false := by
        intro later member
        exact unpassed later (List.mem_cons_of_mem entry member)
      have ran := repeats.entities
      rw [← viewEq] at ran
      have seen : stores.view.entities = stores.entities.overlay ∅ :=
        (OrderedMap.overlay_empty _).symm
      rw [seen] at ran
      rcases applyDeltaChunk_of_runOn ran with ⟨tracked, trackedEq, trackedSeen⟩
      rcases repeats.utxos with ⟨block, delta, blockEq, deltaEq, utxosEq⟩
      rw [← viewEq] at utxosEq
      have computed : computeCatchup entry.2 = .ok delta := by
        rw [computeCatchup, blockEq]
        exact deltaEq
      have trackedOk := mapError_eq_ok (f := DomainError.panic).mpr trackedEq
      have replayed : stores.replayEntry entry = .ok { stores with
          entities := saveEntities stores.entities tracked
          utxos := applyUtxoset stores.utxos delta
          cursor := some entry.1 } := by
        rw [replayEntry, trackedOk, ok_bind, computed, ok_bind]
      have nextView : LedgerStores.view { stores with
          entities := saveEntities stores.entities tracked
          utxos := applyUtxoset stores.utxos delta
          cursor := some entry.1 } = next := by
        have entitiesEq : (saveEntities stores.entities tracked).get? = next.entities := by
          rw [saveEntities, OrderedMap.get?_setAll, trackedSeen]
        rw [view, entitiesEq]
        exact congrArg (LedgerView.mk next.entities) utxosEq
      rcases ih unpassedRest nextView with ⟨caughtUp, restEq, afterEq, walEq, cursorEq⟩
      refine ⟨caughtUp, ?_, afterEq, walEq, ?_⟩
      · rw [replayLogs, unpassedHere, if_neg Bool.false_ne_true, replayed, ok_bind, restEq]
      · rw [cursorEq, List.map_cons, List.getLast?_cons]
        cases (rest.map Prod.fst).getLast? with
        | none => rfl
        | some last => rfl

end Replay

section Crash

variable {stores logged after : LedgerStores O} {batch : WorkBatch (WorkBlock O)}
variable {computed : RollBatch O}

theorem RecoverableBatch.isPassed_eq_false (recoverable : RecoverableBatch stores batch)
    {work : WorkBlock O} (member : work ∈ batch.blocks) {entry : ChainPoint × LedgerLog O}
    (pointEq : entry.1 = work.point) (hasBlock : entry.2.block.isSome) :
    isPassed (stateSlot stores.cursor) entry = false := by
  rw [isPassed, Bool.or_eq_false_iff]
  constructor
  · cases slotEq : stateSlot stores.cursor with
    | none => rfl
    | some slot =>
        have past := recoverable.later slot slotEq work member
        rw [pointEq]
        exact decide_eq_false (not_le_of_gt past)
  · rw [Option.isNone_eq_false_iff]
    exact hasBlock

/-- The cursor is not past the batch, and not at its last block. -/
theorem RecoverableBatch.cursor_before (recoverable : RecoverableBatch stores batch)
    {point : ChainPoint} (cursorEq : stores.cursor = some point) {work : WorkBlock O}
    (member : work ∈ batch.blocks) :
    point.slot ≤ work.block.slot ∧ point.eq work.point = false := by
  cases point with
  | origin => exact ⟨Nat.zero_le _, rfl⟩
  | slotOnly slot =>
      have past := recoverable.later slot (by rw [cursorEq]; rfl) work member
      exact ⟨le_of_lt past, rfl⟩
  | specific slot hash =>
      have past := recoverable.later slot (by rw [cursorEq]; rfl) work member
      refine ⟨le_of_lt past, ?_⟩
      have different : ¬ (slot = work.block.slot ∧ hash = work.block.hash) := by
        rintro ⟨same, -⟩
        exact (ne_of_lt past) same
      exact decide_eq_false different

omit [NonceCrypto] in
theorem Settled.isPassed_eq_true (settled : Settled stores)
    {entry : (ℕ ×ₗ BlockHash) × LedgerLog O} (member : entry ∈ stores.wal.entries) :
    isPassed (stateSlot stores.cursor) (ChainPoint.fromBytes entry.1, entry.2) = true := by
  rcases Option.isSome_iff_exists.mp settled.started with ⟨point, cursorEq⟩
  have applied := settled.applied point cursorEq entry member
  rw [← ChainPoint.slot_fromBytes] at applied
  rw [isPassed, Bool.or_eq_true]
  cases point with
  | origin =>
      right
      rw [settled.synthetic cursorEq entry member]
      rfl
  | slotOnly slot =>
      left
      rw [cursorEq]
      exact decide_eq_true applied
  | specific slot hash =>
      left
      rw [cursorEq]
      exact decide_eq_true applied

/-- After a crash between the two commits of a batch, a restart reaches the stores
that the state commit would have. -/
theorem recover_rollLogged (settled : Settled stores) (recoverable : RecoverableBatch stores batch)
    (loggedDone : stores.rollLogged batch = .ok (computed, logged))
    (committed : computed.commitState logged = .ok after) : logged.recover = .ok after := by
  have ordered := recoverable.toOrdered
  have isLogged := ordered.logged loggedDone
  rcases rollLogged_spec loggedDone with ⟨loggedEq, pairs, trace⟩
  rw [ordered.sortBySlot_eq] at trace
  rcases trace.commitState_spec loggedEq committed with
    ⟨entitiesEq, utxosEq, walEq, last, lastEq, cursorEq⟩
  have isLast : last ∈ batch.blocks := List.mem_of_getLast? lastEq
  have decoded := isLogged.decoded ordered
  rcases isLogged.getLast lastEq with ⟨lastLog, lastLogEq⟩
  rcases Option.isSome_iff_exists.mp settled.started with ⟨point, pointEq⟩
  rcases recoverable.cursor_before pointEq isLast with ⟨pointSlot, pointMissed⟩
  have cursorKept : logged.cursor = some point := by
    rw [loggedEq, ← pointEq]
    rfl
  have viewKept : logged.view = stores.view := by
    rw [loggedEq]
    rfl
  have tipEq : logged.wal.findTip = some (last.point, lastLog) :=
    Wal.findTip_appended isLogged.walEq decoded lastLogEq
  have checked : logged.checkWalInSyncWithState = .ok logged := by
    simp only [checkWalInSyncWithState, tipEq, Option.map_some, cursorKept]
    exact if_pos pointSlot
  have fromStart : ∀ start ∈ (stateSlot logged.cursor).bind logged.wal.locatePoint,
      ∀ entry ∈ computed.blocks.map (fun work => work.logEntry computed.utxos),
        start.intoBytes ≤ entry.1.intoBytes := by
    intro start located entry member
    rcases Option.bind_eq_some_iff.mp located with ⟨slot, slotEq, startEq⟩
    rcases isLogged.exists_work member with ⟨work, isWork, workPoint⟩
    have isEntry : (entry.1.intoBytes, entry.2) ∈ logged.wal.entries := by
      rw [isLogged.walEq]
      exact List.mem_append_right _ (List.mem_map.mpr ⟨entry, member, rfl⟩)
    apply Wal.locatePoint_le startEq isEntry
    rw [cursorKept, ← pointEq] at slotEq
    rw [workPoint]
    exact recoverable.later slot slotEq work isWork
  have upToStop : ∀ entry ∈ computed.blocks.map (fun work => work.logEntry computed.utxos),
      entry.1.intoBytes ≤ last.point.intoBytes := by
    intro entry member
    rcases isLogged.exists_work member with ⟨work, isWork, workPoint⟩
    rw [workPoint]
    exact ordered.le_last lastEq isWork
  rcases Wal.iterLogs_appended isLogged.walEq decoded fromStart upToStop with
    ⟨older, logsEq, olderPassed⟩
  have passed : ∀ entry ∈ older, isPassed (stateSlot logged.cursor) entry = true := by
    intro entry member
    rcases olderPassed entry member with ⟨old, isOld, rfl⟩
    rw [cursorKept, ← pointEq]
    exact settled.isPassed_eq_true isOld
  have unpassed : ∀ entry ∈ computed.blocks.map (fun work => work.logEntry computed.utxos),
      isPassed (stateSlot logged.cursor) entry = false := by
    intro entry member
    rcases isLogged.exists_work member with ⟨work, isWork, workPoint⟩
    rw [cursorKept, ← pointEq]
    apply recoverable.isPassed_eq_false isWork workPoint
    rcases List.mem_map.mp member with ⟨rolled, -, rfl⟩
    rfl
  have epochFree : ∀ index, Along EpochFree (historyOf (pairs.map Prod.fst) index)
      (stores.entities.get? index) := by
    intro index
    rw [trace.historyOf_eq]
    exact recoverable.epochFree index
  have path := repeats_of_path stores.utxos [] trace.path trace.resolved
    (trace.emitted recoverable.emitted) settled.typed epochFree
  rw [trace.logEntries_eq] at path
  rcases replayLogs_of_path path unpassed viewKept with
    ⟨caughtUp, replayed, caughtUpView, caughtUpWal, caughtUpCursor⟩
  have caughtUpEq : caughtUp = after := by
    apply eq_of_view
    · rw [caughtUpView, view, entitiesEq, utxosEq, List.nil_append, trace.blocksEq]
    · rw [caughtUpCursor, List.getLast?_map, lastLogEq, cursorEq]
      rfl
    · rw [caughtUpWal, walEq]
  have caught : logged.catchUpState last.point = .ok after := by
    rw [catchUpState, cursorKept, Option.any_some, pointMissed, if_neg Bool.false_ne_true,
      ← cursorKept]
    simp only [logsEq]
    rw [replayLogs_passed passed, replayed, ok_bind, caughtUpEq, verifyCaughtUp, cursorEq,
      Option.any_some, if_pos (decide_eq_true (le_refl _)), ok_bind]
  rw [recover, checked, ok_bind, catchUpStores, tipEq]
  exact caught

theorem settled_roll (settled : Settled stores) (rollable : Rollable stores batch)
    (done : stores.roll batch = .ok after) : Settled after := by
  rcases atTip_roll rollable settled.typed done with ⟨typed, slot, hash, atTip⟩
  refine ⟨typed, ?_, ?_, ?_⟩
  · rw [atTip.cursor]
    rfl
  · intro point cursorEq entry member
    rw [atTip.cursor] at cursorEq
    rw [← Option.some.inj cursorEq]
    exact Prod.Lex.monotone_fst _ _ (atTip.highest entry member)
  · intro isOrigin
    rw [atTip.cursor] at isOrigin
    cases isOrigin

theorem settled_execute {unit : LedgerUnit O} (settled : Settled stores)
    (keeps : KeepsSettled stores unit) (done : stores.execute unit = .ok after) :
    Settled after := by
  cases unit with
  | roll batch => exact settled_roll settled keeps done
  | boundary effect estart =>
      rcases bind_eq_ok.mp done with ⟨⟨entities, utxos⟩, effectEq, afterEq⟩
      rcases Except.ok.inj afterEq with rfl
      rcases keeps with ⟨keepsTyped, forward⟩
      have typed := keepsTyped entities utxos effectEq settled.typed
      rcases Option.isSome_iff_exists.mp settled.started with ⟨point, pointEq⟩
      cases estart with
      | none => exact ⟨typed, settled.started, settled.applied, settled.synthetic⟩
      | some slot =>
          refine ⟨typed, rfl, ?_, ?_⟩
          · intro reached cursorEq entry member
            rcases Option.some.inj cursorEq with rfl
            exact le_trans (settled.applied point pointEq entry member)
              (forward slot rfl point pointEq)
          · intro isOrigin
            cases isOrigin

theorem settled_executeAll {units : List (LedgerUnit O)} (settled : Settled stores)
    (keeps : EachUnit KeepsSettled stores units)
    (done : stores.executeAll units = .ok after) : Settled after := by
  induction units generalizing stores with
  | nil =>
      rcases Except.ok.inj done with rfl
      exact settled
  | cons unit later ih =>
      rcases bind_eq_ok.mp done with ⟨next, nextEq, laterDone⟩
      exact ih (settled_execute settled keeps.1 nextEq) (keeps.2 next nextEq) laterDone

/-- After every run of units that leave the log applied, a crash between the log and the
state commit of a recoverable batch is repaired by a restart. -/
theorem recover_of_run {start : LedgerStores O} {units : List (LedgerUnit O)}
    (settled : Settled start) (keeps : EachUnit KeepsSettled start units)
    (ran : start.executeAll units = .ok stores) (recoverable : RecoverableBatch stores batch)
    (loggedDone : stores.rollLogged batch = .ok (computed, logged))
    (committed : computed.commitState logged = .ok after) : logged.recover = .ok after := by
  have settledHere := settled_executeAll settled keeps ran
  exact recover_rollLogged settledHere recoverable loggedDone committed

end Crash

end Run

section Restart

theorem settled_oneOutput : Settled oneOutput := by
  refine ⟨?_, rfl, ?_, ?_⟩
  · intro index entity held
    simp [oneOutput] at held
  · intro point cursorEq entry member
    rcases List.mem_singleton.mp member with rfl
    exact Nat.zero_le _
  · intro _ entry member
    rcases List.mem_singleton.mp member with rfl
    rfl

theorem along_epochFree_of_noMint [NonceCrypto] {group : List CardanoDelta}
    {entity : Option CardanoEntity}
    (noMint : ∀ delta ∈ group, ∀ before, delta.EpochFree before) :
    Along EpochFree group entity := by
  induction group generalizing entity with
  | nil => trivial
  | cons delta rest ih =>
      refine ⟨noMint delta List.mem_cons_self entity, ?_⟩
      intro _ _ _
      apply ih
      intro later member
      exact noMint later (List.mem_cons_of_mem delta member)

/-- A crash before the state commit of the block after a boundary block. -/
theorem recover_spendingBlock :
    letI := NonceCrypto.still
    ∃ computed logged,
      afterBoundaryBlock.rollLogged (.forSingleBlock spendingBlock) = .ok (computed, logged) ∧
      computed.commitState logged = .ok afterSpendingBlock ∧
      logged.recover = .ok afterSpendingBlock := by
  let _ := NonceCrypto.still
  have rolled := rollAll_spendingBlock
  rcases bind_eq_ok.mp rolled with ⟨next, nextEq, doneEq⟩
  rcases Except.ok.inj doneEq with rfl
  rcases bind_eq_ok.mp nextEq with ⟨⟨computed, logged⟩, loggedDone, committed⟩
  have ran : oneOutput.executeAll [.roll (.forSingleBlock boundaryBlock)] =
      .ok afterBoundaryBlock := rollAll_boundaryBlock
  have noMint : ∀ index, ∀ delta ∈ historyOf [spendingBlock] index,
      ∀ before, delta.EpochFree before := by
    intro index delta member before
    rw [historyOf, List.flatMap_singleton, group_spendingBlock] at member
    split_ifs at member
    · rcases List.mem_singleton.mp member with rfl
      trivial
    · cases member
  have keeps : EachUnit KeepsSettled oneOutput [.roll (.forSingleBlock boundaryBlock)] :=
    ⟨rollable_boundaryBlock, fun _ _ => trivial⟩
  have recoverable : RecoverableBatch afterBoundaryBlock (.forSingleBlock spendingBlock) := by
    refine ⟨undoable_spendingBlock.toRollable, ?_, ?_⟩
    · intro slot slotEq work member
      rcases Option.some.inj slotEq with rfl
      rcases List.mem_singleton.mp member with rfl
      decide
    · intro index
      exact along_epochFree_of_noMint (noMint index)
  exact ⟨computed, logged, loggedDone, committed,
    recover_of_run settled_oneOutput keeps ran recoverable loggedDone committed⟩

/-- Stores whose cursor an epoch boundary has moved to the slot of the block to come. -/
def afterEstart : LedgerStores ℕ := { oneOutput with cursor := some (.slotOnly 5) }

def loggedMainBlock : LedgerStores ℕ :=
  { afterEstart with
    wal := afterEstart.wal.appendEntries [(.specific 5 3, ⟨some mainBlock.block, [],
      .ofList [(toLex (1, 0), 100), (toLex (2, 0), 60)]⟩)] }

def computedMainBlock : RollBatch ℕ where
  blocks := [⟨mainBlock.block, .default,
    some ⟨.ofList [(toLex (2, 0), 60)], .ofList [(toLex (1, 0), 100)], ∅, ∅⟩⟩]
  utxos := .ofList [(toLex (1, 0), 100), (toLex (2, 0), 60)]
  entities := ∅

def committedMainBlock : LedgerStores ℕ :=
  { loggedMainBlock with
    utxos := .ofList [(toLex (2, 0), 60)]
    cursor := some (.specific 5 3) }

/-- A crash before the state commit of the first block after Estart: the restart
takes the block for applied and is content with the cursor. -/
theorem recover_skips_boundary_block :
    letI := NonceCrypto.still
    oneOutput.executeAll [.boundary (fun entities utxos => .ok (entities, utxos)) (some 5)] =
        .ok afterEstart ∧
      afterEstart.rollLogged (.forSingleBlock mainBlock) =
        .ok (computedMainBlock, loggedMainBlock) ∧
      computedMainBlock.commitState loggedMainBlock = .ok committedMainBlock ∧
      loggedMainBlock.recover = .ok loggedMainBlock ∧
      loggedMainBlock.recover ≠ .ok committedMainBlock := by
  let _ := NonceCrypto.still
  refine ⟨rfl, ?_, rfl, rfl, ?_⟩
  · rw [rollLogged, RollBatch.load, WorkBatch.blocks_forSingleBlock, sortBySlot_singleton]
    rfl
  · intro recovered
    have utxosEq := congrArg LedgerStores.utxos (Except.ok.inj recovered)
    have spent := congrArg (fun utxos => utxos.get? (toLex (1, 0))) utxosEq
    cases spent

end Restart

end LedgerStores

end Dolos
