import Dolos.Cardano.CatchUpIndexes
import Dolos.Core.ArchiveCrash

/-!
# Four stores and a process that can stop

`run_lifecycle` and `rollback` of `core/src/sync.rs` write to the log, the state, the
archive and the indexes one after the other, each with a commit of its own. Here the process
may stop between any two commits, in the middle of what a batch appends to the archive, and
while `bootstrap` of `core/src/bootstrap.rs` catches the stores up; what it had in memory is
then lost.

A batch is a unit of the run from the moment it is in the log, a rollback from the moment it
is out of the log. Two commits are taken whole: a boundary, which writes no log entry, and
the cut of the archive, whose files and table a stop can leave apart (`crash_safe_iff`).
-/

namespace Dolos

open Outcome ArchiveStore

variable {O : Type}

/-- The bytes a block was decoded from. -/
class RawBlocks (O : Type) where
  raw : MultiEraBlock O → Bytes

inductive StoresError where
  | domain (error : DomainError)
  | archive (error : ArchiveError)

/-- A writer that is given some blocks and committed. -/
def ArchiveStore.commitBlocks (archive : ArchiveStore) (blocks : List (ℕ × Bytes)) :
    Except ArchiveError ArchiveStore :=
  let (outcome, committed) := (blocks.foldl RedbWriter.apply (.start archive)).commit
  outcome.map fun _ => committed

/-- The archive when a commit is cut after some of its bodies were appended. -/
def ArchiveStore.appending (archive : ArchiveStore) (blocks : List (ℕ × Bytes)) (count : ℕ) :
    ArchiveStore :=
  ⟨archive.index, (archive.files.appendBatch ((segmentItems blocks).take count)).2⟩

/-- The archive holds these blocks. -/
def ArchiveStore.Shows (archive : ArchiveStore) (blocks : List (ℕ × Bytes)) : Prop :=
  ∃ held, archive.Holds held ∧ held.map ArchivedBlock.block = blocks

section Archive

variable [RawBlocks O]

def archivedBlock (block : MultiEraBlock O) : ℕ × Bytes := (block.slot, RawBlocks.raw block)

def RollBatch.archivedBlocks (batch : RollBatch O) : List (ℕ × Bytes) :=
  batch.blocks.map fun work => archivedBlock work.block

def RollBatch.commitArchive (batch : RollBatch O) (archive : ArchiveStore) :
    Except ArchiveError ArchiveStore :=
  archive.commitBlocks batch.archivedBlocks

/-- The blocks `catch_up_archive` finds missing after a slot. -/
def missingBlocks (wal : Wal (LedgerLog O)) (slot : Option ℕ) (target : ChainPoint) :
    List (ℕ × Bytes) :=
  ((wal.iterLogs (slot.bind wal.locatePoint) (some target)).filter
    fun entry => ¬ isPassed slot entry).filterMap fun entry =>
      entry.2.block.map fun block => (entry.1.slot, RawBlocks.raw block)

/-- Nothing is committed when nothing is missing. What is left behind is only warned of. -/
def catchUpArchive (wal : Wal (LedgerLog O)) (archive : ArchiveStore) (target : ChainPoint) :
    Except ArchiveError ArchiveStore := do
  let tip ← archive.getTip
  let slot := tip.map Prod.fst
  if slot = some target.slot then .ok archive
  else do
    let blocks := missingBlocks wal slot target
    let caughtUp ← if blocks.isEmpty then .ok archive else archive.commitBlocks blocks
    let _ ← caughtUp.getTip
    .ok caughtUp

end Archive

/-- The stores of a node. -/
structure DomainStores (O : Type) extends IndexedStores O where
  archive : ArchiveStore

/-- What a run does, as far as the stores are concerned. -/
inductive DomainUnit (O : Type) where
  | roll (batch : WorkBatch (WorkBlock O))
  | boundary (effect : OrderedMap NsKey CardanoEntity → UtxoMap O →
      Except DomainError (OrderedMap NsKey CardanoEntity × UtxoMap O)) (estart : Option ℕ)
      (reclaimed : UtxoMap O)
  | rollback (target : ChainPoint)

namespace DomainStores

variable [BlockDecoding O] [NonceCrypto] [RawBlocks O]

/-- A unit that nothing interrupts. -/
def execute (stores : DomainStores O) : DomainUnit O → Except StoresError (DomainStores O)
  | .roll batch => do
      let (computed, logged) ← (stores.ledger.rollLogged batch).mapError .domain
      let ledger ← (computed.commitState logged).mapError .domain
      let archive ← (computed.commitArchive stores.archive).mapError .archive
      let indexes ← (computed.commitIndexes stores.indexes).mapError .domain
      .ok ⟨⟨ledger, indexes⟩, archive⟩
  | .boundary effect estart reclaimed => do
      let indexed ← (stores.toIndexedStores.execute
        (.boundary effect estart reclaimed)).mapError .domain
      .ok ⟨indexed, stores.archive⟩
  | .rollback target => do
      let indexed ← (stores.toIndexedStores.rollback target).mapError .domain
      .ok ⟨indexed, redbTruncateFront stores.archive target.slot⟩

def executeAll (stores : DomainStores O) :
    List (DomainUnit O) → Except StoresError (DomainStores O)
  | [] => .ok stores
  | unit :: rest => do
      let next ← stores.execute unit
      next.executeAll rest

/-- The state first, then the archive and the indexes. -/
def catchUpTo (stores : DomainStores O) (target : ChainPoint) :
    Except StoresError (DomainStores O) := do
  let ledger ← (stores.ledger.catchUpState target).mapError .domain
  let archive ← (catchUpArchive ledger.wal stores.archive target).mapError .archive
  let indexes ← (catchUpIndexes ledger.wal stores.indexes target).mapError .domain
  .ok ⟨⟨ledger, indexes⟩, archive⟩

/-- `catch_up_stores` -/
def catchUpStores (stores : DomainStores O) : Except StoresError (DomainStores O) :=
  match stores.ledger.wal.findTip with
  | none => .ok stores
  | some (.origin, _) => .ok stores
  | some (target, _) => stores.catchUpTo target

omit [BlockDecoding O] [NonceCrypto] [RawBlocks O] in
/-- The archive is compared with the state only to warn, but its tip is read. -/
def checkIntegrity (stores : DomainStores O) : Except StoresError (DomainStores O) := do
  let ledger ← stores.ledger.checkWalInSyncWithState.mapError .domain
  let _ ← stores.archive.getTip.mapError .archive
  .ok { stores with ledger := ledger }

/-- `bootstrap`, without the work that the chain logic has left. -/
def bootstrap (stores : DomainStores O) : Except StoresError (DomainStores O) := do
  let checked ← stores.checkIntegrity
  checked.catchUpStores

/-- The stores when `bootstrap` is cut: entries of the log were applied to the state one by
one, or the state was caught up and some bodies appended to the archive, or both were caught
up. The indexes have a single commit at the end. -/
inductive Interrupted (stores : DomainStores O) : DomainStores O → Prop
  | replaying {checked : DomainStores O} {target : ChainPoint} {log : LedgerLog O}
      {before after : List (ChainPoint × LedgerLog O)} {ledger : LedgerStores O} :
      stores.checkIntegrity = .ok checked →
      checked.ledger.wal.findTip = some (target, log) → target ≠ .origin →
      checked.ledger.cursor.any (fun point => point.eq target) = false →
      checked.ledger.wal.iterLogs ((stateSlot checked.ledger.cursor).bind
        checked.ledger.wal.locatePoint) (some target) = before ++ after →
      LedgerStores.replayLogs (stateSlot checked.ledger.cursor) before checked.ledger =
        .ok ledger →
      Interrupted stores { checked with ledger := ledger }
  | appending {checked : DomainStores O} {target : ChainPoint} {log : LedgerLog O}
      {ledger : LedgerStores O} {tip : Option (ℕ × Bytes)} (count : ℕ) :
      stores.checkIntegrity = .ok checked →
      checked.ledger.wal.findTip = some (target, log) → target ≠ .origin →
      checked.ledger.catchUpState target = .ok ledger →
      checked.archive.getTip = .ok tip →
      Interrupted stores { checked with
        ledger := ledger
        archive := checked.archive.appending
          (missingBlocks ledger.wal (tip.map Prod.fst) target) count }
  | archived {checked : DomainStores O} {target : ChainPoint} {log : LedgerLog O}
      {ledger : LedgerStores O} {archive : ArchiveStore} :
      stores.checkIntegrity = .ok checked →
      checked.ledger.wal.findTip = some (target, log) → target ≠ .origin →
      checked.ledger.catchUpState target = .ok ledger →
      catchUpArchive ledger.wal checked.archive target = .ok archive →
      Interrupted stores { checked with ledger := ledger, archive := archive }

end DomainStores

/-- Where a process stands, with what it holds in memory: between units, after each commit
of a batch, after each commit of a rollback, or stopped. -/
inductive LifecyclePhase (O : Type) where
  | idle
  | logged (computed : RollBatch O)
  | stated (computed : RollBatch O)
  | archived (computed : RollBatch O)
  | unwound (target : ChainPoint) (indexes : IndexStore)
  | unindexed (target : ChainPoint)
  | cut (target : ChainPoint)
  | down

structure DomainProcess (O : Type) where
  stores : DomainStores O
  phase : LifecyclePhase O

/-- What a commit does to the run: it makes a unit part of it, it starts a rollback that is
part of the run once the log is cut, or neither. -/
inductive DomainEvent (O : Type) where
  | unit (made : DomainUnit O)
  | undo (target : ChainPoint)
  | silent

def DomainEvent.unit? : DomainEvent O → Option (DomainUnit O)
  | .unit made => some made
  | .undo _ => none
  | .silent => none

namespace DomainProcess

variable [BlockDecoding O] [NonceCrypto] [RawBlocks O]

/-- One commit, or a stop. -/
inductive Step : DomainEvent O → DomainProcess O → DomainProcess O → Prop
  | commitWal {stores : DomainStores O} {batch : WorkBatch (WorkBlock O)}
      {computed : RollBatch O} {logged : LedgerStores O} :
      stores.ledger.rollLogged batch = .ok (computed, logged) →
      Step (.unit (.roll batch)) ⟨stores, .idle⟩
        ⟨{ stores with ledger := logged }, .logged computed⟩
  | commitState {stores : DomainStores O} {computed : RollBatch O} {ledger : LedgerStores O} :
      computed.commitState stores.ledger = .ok ledger →
      Step .silent ⟨stores, .logged computed⟩ ⟨{ stores with ledger := ledger }, .stated computed⟩
  | commitArchive {stores : DomainStores O} {computed : RollBatch O} {archive : ArchiveStore} :
      computed.commitArchive stores.archive = .ok archive →
      Step .silent ⟨stores, .stated computed⟩
        ⟨{ stores with archive := archive }, .archived computed⟩
  | commitIndexes {stores : DomainStores O} {computed : RollBatch O} {indexes : IndexStore} :
      computed.commitIndexes stores.indexes = .ok indexes →
      Step .silent ⟨stores, .archived computed⟩ ⟨{ stores with indexes := indexes }, .idle⟩
  | boundary {stores next : DomainStores O}
      {effect : OrderedMap NsKey CardanoEntity → UtxoMap O →
        Except DomainError (OrderedMap NsKey CardanoEntity × UtxoMap O)} {estart : Option ℕ}
      {reclaimed : UtxoMap O} :
      stores.execute (.boundary effect estart reclaimed) = .ok next →
      Step (.unit (.boundary effect estart reclaimed)) ⟨stores, .idle⟩ ⟨next, .idle⟩
  | undoState {stores : DomainStores O} {target : ChainPoint} {undone : IndexedStores O} :
      stores.toIndexedStores.rollback target = .ok undone →
      Step (.undo target) ⟨stores, .idle⟩
        ⟨{ stores with ledger := { undone.ledger with wal := stores.ledger.wal } },
          .unwound target undone.indexes⟩
  | undoIndexes {stores : DomainStores O} {target : ChainPoint} {indexes : IndexStore} :
      Step .silent ⟨stores, .unwound target indexes⟩
        ⟨{ stores with indexes := indexes }, .unindexed target⟩
  | truncateArchive {stores : DomainStores O} {target : ChainPoint} :
      Step .silent ⟨stores, .unindexed target⟩
        ⟨{ stores with archive := redbTruncateFront stores.archive target.slot }, .cut target⟩
  | truncateWal {stores : DomainStores O} {target : ChainPoint} :
      Step (.unit (.rollback target)) ⟨stores, .cut target⟩
        ⟨{ stores with ledger :=
            { stores.ledger with wal := stores.ledger.wal.truncateFront target } }, .idle⟩
  | crash {process : DomainProcess O} : Step .silent process ⟨process.stores, .down⟩
  | crashAppending {stores : DomainStores O} {computed : RollBatch O} (count : ℕ) :
      Step .silent ⟨stores, .stated computed⟩
        ⟨{ stores with archive := stores.archive.appending computed.archivedBlocks count },
          .down⟩
  | interrupted {stores cut : DomainStores O} :
      stores.Interrupted cut → Step .silent ⟨stores, .down⟩ ⟨cut, .down⟩
  | restarted {stores recovered : DomainStores O} :
      stores.bootstrap = .ok recovered → Step .silent ⟨stores, .down⟩ ⟨recovered, .idle⟩

end DomainProcess

section Conditions

variable [BlockDecoding O] [NonceCrypto] [RawBlocks O]

/-- A batch the four stores can carry over a crash: its blocks are in slots of their own,
past the slots where the state, the archive and the indexes stand, since a restart tells
blocks apart by their slots; they were validated and fit the archive. -/
structure SafeBatch (stores : DomainStores O) (batch : WorkBatch (WorkBlock O)) : Prop
    extends LedgerStores.Undoable stores.ledger batch where
  epochFree : ∀ index,
    CardanoDelta.Along CardanoDelta.EpochFree (historyOf batch.blocks index)
      (stores.ledger.entities.get? index)
  apart : batch.blocks.Pairwise fun earlier later => earlier.block.slot < later.block.slot
  unapplied : ∀ slot ∈ stateSlot stores.ledger.cursor, ∀ work ∈ batch.blocks,
    slot < work.block.slot
  unarchived : ∀ tip, stores.archive.getTip = .ok (some tip) → ∀ work ∈ batch.blocks,
    tip.1 < work.block.slot
  unindexed : ∀ point ∈ stores.indexes.cursor, ∀ work ∈ batch.blocks,
    point.slot < work.block.slot
  fits : ∀ work ∈ batch.blocks, FitsSegments (archivedBlock work.block)

namespace DomainUnit

/-- What a unit takes for granted of the stores it is executed on. -/
def Allowed (stores : DomainStores O) : DomainUnit O → Prop
  | roll batch => SafeBatch stores batch
  | boundary effect estart _ =>
      (∀ entities utxos, effect stores.ledger.entities stores.ledger.utxos =
          .ok (entities, utxos) →
        WellTyped stores.ledger.entities.get? → WellTyped entities.get?) ∧
      ∀ slot ∈ estart, ∀ point ∈ stores.ledger.cursor, point.slot ≤ slot
  | rollback _ => True

omit [BlockDecoding O] [NonceCrypto] [RawBlocks O] in
/-- The blocks a rollback can go to after a unit: those rolled since the last boundary and
not undone. -/
def reachAfter (reach : List ChainPoint) : DomainUnit O → List ChainPoint
  | roll batch => reach ++ batch.blocks.map WorkBlock.point
  | boundary _ _ _ => []
  | rollback target => reach.filter fun point => point.intoBytes ≤ target.intoBytes

omit [BlockDecoding O] [NonceCrypto] [RawBlocks O] in
/-- Those of them that no rollback has gone below. -/
def recentAfter (recent : List ChainPoint) : DomainUnit O → List ChainPoint
  | roll batch => recent ++ batch.blocks.map WorkBlock.point
  | boundary _ _ _ => []
  | rollback target => [target]

end DomainUnit

/-- Along the events of a run, every unit is allowed on the stores that the units before it
leave, and every rollback goes to a block within reach. -/
def AllAllowed : List ChainPoint → DomainStores O → List (DomainEvent O) → Prop
  | _, _, [] => True
  | reach, stores, .unit unit :: rest =>
      unit.Allowed stores ∧
        ∀ next, stores.execute unit = .ok next → AllAllowed (unit.reachAfter reach) next rest
  | reach, stores, .undo target :: rest => target ∈ reach ∧ AllAllowed reach stores rest
  | reach, stores, .silent :: rest => AllAllowed reach stores rest

omit [BlockDecoding O] [NonceCrypto] [RawBlocks O] in
/-- No rollback goes below an earlier one since the last boundary. -/
def NoneDeeper : List ChainPoint → List (DomainEvent O) → Prop
  | _, [] => True
  | recent, .unit unit :: rest => NoneDeeper (unit.recentAfter recent) rest
  | recent, .undo target :: rest => target ∈ recent ∧ NoneDeeper recent rest
  | recent, .silent :: rest => NoneDeeper recent rest

end Conditions

namespace DomainStores

/-- The state is past the log: Estart has moved its cursor and no block has come yet. -/
def AheadOfLog (stores : DomainStores O) : Prop :=
  ∃ tip ∈ stores.ledger.wal.findTip, ∃ point ∈ stores.ledger.cursor, tip.1.slot < point.slot

/-- All stores are at the tip of the log. The cursor that Estart leaves is a slot. -/
structure AtTip (stores : DomainStores O) (tip : ChainPoint) : Prop where
  logged : stores.ledger.wal.findTip.map Prod.fst = some tip
  state : ∃ point, stores.ledger.cursor = some point ∧ tip.slot ≤ point.slot ∧
    (point = tip ∨ point = .slotOnly point.slot)
  archived : stores.archive.getTip.map (fun held => held.map Prod.fst) =
    .ok (if tip = .origin then none else some tip.slot)
  indexed : stores.indexes.cursor = some tip

/-- Stores that start a run: what the log has is in the other three. -/
structure Level (stores : DomainStores O) : Prop where
  settled : LedgerStores.Settled stores.ledger
  logged : stores.ledger.wal.entries ≠ []
  indexed : IndexedStores.IndexSettled stores.toIndexedStores
  archived : ∃ blocks, stores.archive.Shows blocks ∧ ∀ entry ∈ stores.ledger.wal.entries,
    entry.2.block = none ∨ ∃ block ∈ blocks, (ofLex entry.1).1 ≤ block.1

end DomainStores

end Dolos
