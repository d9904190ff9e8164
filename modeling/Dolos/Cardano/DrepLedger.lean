import Dolos.Cardano.BlockRoll
import Dolos.Cardano.DrepRegistration
import Dolos.Cardano.GovBoundary

/-!
# The rows of the representatives through blocks and boundaries

The two tables the expiry of a representative rests on, its row and the governance
singleton, as the blocks of an epoch and the boundary that ends it change them. What
blocks do is what the visitor of `roll/dreps.rs` emits, with its dormancy context loaded
at the start of a batch and handed from block to block.
-/

namespace Dolos

open Outcome

structure DrepLedger where
  epoch : ℕ
  rows : OrderedMap EntityKey DRepState
  gov : GovState
  deriving DecidableEq

/-- The delta of a row among the deltas of a block. -/
def CardanoDelta.asDRep : CardanoDelta → Option DRepDelta
  | drepRegistration delta => some (.registration delta)
  | drepUnRegistration delta => some (.unRegistration delta)
  | drepActivity delta => some (.activity delta)
  | drepAnchorUpdate delta => some (.anchorUpdate delta)
  | drepExpiryUpdate delta => some (.expiryUpdate delta)
  | drepDormancyRelease delta => some (.dormancyRelease delta)
  | _ => none

/-- The transactions and certificates of a batch, in the order they are visited. -/
inductive DrepVisit where
  | tx (slot : ℕ) (body : MultiEraTx)
  | cert (slot order : ℕ) (body : MultiEraCert)

def DrepVisit.emits (context : RollContext) (dormancy : DormancyContext) :
    DrepVisit → List CardanoDelta × DormancyContext
  | tx slot body => DRepStateVisitor.visitTx context slot body dormancy
  | cert slot order body => DRepStateVisitor.visitCert context slot order body dormancy

structure DrepBatch where
  context : RollContext
  visits : List DrepVisit

/-- What a boundary reads besides the two tables: the eras, the rest of its work, the
ruling and what it enacts, the proposals, the shards of its scan and the credits. -/
structure DrepClose where
  chainSummary : ChainSummary
  work : BoundaryWork
  shards : List GovDistrAccumulate
  ratification : Ratification
  enactments : List EnactmentDelta
  proposals : OrderedMap EntityKey ProposalState
  credits : OrderedMap DRep ℕ

namespace DrepLedger

def onRow (ledger : DrepLedger) (delta : DRepDelta) : Except Panic DrepLedger := do
  let key := (ofLex delta.key).2
  let after ← delta.apply (ledger.rows.get? key)
  .ok { ledger with rows := ledger.rows.set key after }

def onGov {Δ : Type} [EntityDelta Δ GovState] (ledger : DrepLedger) (delta : Δ) :
    Except Panic DrepLedger := do
  let (_, after) ← EntityDelta.apply delta (some ledger.gov)
  .ok { ledger with gov := after.getD ledger.gov }

/-- The deltas for other tables are not seen here. -/
def applyDelta (ledger : DrepLedger) (delta : CardanoDelta) : Except Panic DrepLedger :=
  match delta.asDRep with
  | some rowDelta => ledger.onRow rowDelta
  | none =>
      match delta with
      | .committeeAuth auth => ledger.onGov auth
      | .committeeResign resign => ledger.onGov resign
      | .govDormancyReset reset => ledger.onGov reset
      | _ => .ok ledger

def visit (context : RollContext) (state : DrepLedger × DormancyContext) (visit : DrepVisit) :
    Except Panic (DrepLedger × DormancyContext) := do
  let (deltas, dormancy) := visit.emits context state.2
  let after ← deltas.foldlM applyDelta state.1
  .ok (after, dormancy)

/-- `load_dormancy`: the keys are only read while they may be needed. -/
def dormancy (ledger : DrepLedger) : DormancyContext where
  dormantEpochs := ledger.gov.numDormantEpochs
  drepKeys := if ledger.gov.numDormantEpochs > 0 then
    ledger.rows.keys.filter fun key => key < EntityKey.rangeEnd else []
  batchRegistrations := []

def rollBatch (ledger : DrepLedger) (batch : DrepBatch) : Except Panic DrepLedger := do
  let context := { batch.context with epoch := ledger.epoch }
  let (after, _) ← batch.visits.foldlM (visit context) (ledger, ledger.dormancy)
  .ok after

def rollAll (ledger : DrepLedger) (batches : List DrepBatch) : Except Panic DrepLedger :=
  batches.foldlM rollBatch ledger

/-- The boundary's work over the tables as they are when it comes to the ruling. -/
def workOf (ledger : DrepLedger) (close : DrepClose) : BoundaryWork :=
  { close.work with
    endingState := { close.work.endingState with number := ledger.epoch }
    gov := ledger.gov
    govActiveSince := ledger.gov.activeSince }

/-- What `load_drep_data` goes by at the boundary. -/
def boundaryOf (ledger : DrepLedger) (close : DrepClose) : DrepBoundary :=
  ⟨close.chainSummary, { close.work.endingState with number := ledger.epoch },
    ledger.gov.numDormantEpochs⟩

/-- The shards of the scan, which end before the ruling. -/
def scanned (ledger : DrepLedger) (shards : List GovDistrAccumulate) : Except Panic DrepLedger :=
  shards.foldlM onGov ledger

def closeRow (power : Option (OrderedMap DRep ℕ)) (expiring : List DRep)
    (rows : OrderedMap EntityKey DRepState) (entry : EntityKey × DRepState) :
    Except Panic (OrderedMap EntityKey DRepState) := do
  let deltas := BoundaryWork.drepDeltas power expiring entry.1 entry.2
  let after ← DRepDelta.applyAll (some entry.2) deltas
  .ok (rows.set entry.1 after)

def closeGov (gov : GovState) (enactments : List EnactmentDelta)
    (deltas : List GovBoundaryDelta) : Except Panic (Option GovState) := do
  let enacted ← enactments.foldlM EnactmentDelta.applyGov (some gov)
  deltas.foldlM (fun entity delta => Prod.snd <$> delta.apply entity) enacted

def crossBoundary (ledger : DrepLedger) (close : DrepClose) : Except ChainError DrepLedger := do
  let scanned ← (ledger.scanned close.shards).mapError .panicked
  let data ← (scanned.boundaryOf close).loadDrepData scanned.rows.entries
  let work := scanned.workOf close
  let rows ← (scanned.rows.entries.foldlM (closeRow (work.drepPower close.credits)
    data.expiringDreps) scanned.rows).mapError .panicked
  let gov ← (closeGov scanned.gov close.enactments (work.emitGovernanceBoundaryDeltas
    close.ratification close.proposals close.credits)).mapError .panicked
  .ok ⟨ledger.epoch + 1, rows, gov.getD scanned.gov⟩

end DrepLedger

inductive DrepEvent where
  | batch (batch : DrepBatch)
  | boundary (close : DrepClose)

namespace DrepLedger

def step (ledger : DrepLedger) : DrepEvent → Except ChainError DrepLedger
  | .batch batch => (ledger.rollBatch batch).mapError .panicked
  | .boundary close => ledger.crossBoundary close

def run (ledger : DrepLedger) (events : List DrepEvent) : Except ChainError DrepLedger :=
  events.foldlM step ledger

/-- Whether the boundary counts the epoch it ends as dormant. -/
def ticks (ledger : DrepLedger) (close : DrepClose) : Bool :=
  (ledger.workOf close).govActive &&
    !(ledger.workOf close).anyVotableSurvivor close.ratification close.proposals

end DrepLedger

end Dolos
