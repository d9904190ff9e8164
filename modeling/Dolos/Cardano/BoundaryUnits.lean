import Dolos.Cardano.EwrapShards
import Dolos.Cardano.Model.PoolBoundary

/-!
# The units of a boundary

`EwrapWorkUnit` and `EstartWorkUnit` of `cardano/src/ewrap/work_unit.rs` and
`cardano/src/estart/work_unit.rs` from their start to their end, over one store of entities:
the shards, and the finalize pass over the store the shards leave. The close retires pools,
expires representatives, resolves proposals, pays accounts, ends the epoch and hands its
distributions on; the open moves the pools on and begins the epoch. The logs of the archive
are left out.
-/

namespace Dolos

open Outcome

section Streams

variable {E δ : Type} [EntityVariant E]

/-- `stream_and_apply_namespace` on the rows of a namespace that were read: a row without a
delta is not written. -/
def streamNamespace (key : δ → NsKey) (apply : Option E → δ → Except Panic (Option E))
    (deltas : List δ) (rows : List (EntityKey × E)) (store : OrderedMap NsKey CardanoEntity) :
    Except Panic (OrderedMap NsKey CardanoEntity) :=
  rows.foldlM (fun written row =>
    let index : NsKey := toLex (EntityVariant.namespaceOf E, row.1)
    match deltas.filter fun delta => key delta = index with
    | [] => .ok written
    | first :: rest => do
        let entity ← (first :: rest).foldlM apply (some row.2)
        .ok (written.set index (entity.map EntityVariant.inject))) store

/-- The entity after a delta of its own. -/
def applyEntity [EntityDelta δ E] (entity : Option E) (delta : δ) : Except Panic (Option E) :=
  Prod.snd <$> EntityDelta.apply delta entity

theorem streamAndApply_eq (deltas : List AccountDelta) (rows : List (EntityKey × AccountState))
    (store : OrderedMap NsKey CardanoEntity) : streamAndApply deltas rows store =
      streamNamespace AccountDelta.key AccountDelta.apply deltas rows store := by
  rw [streamAndApply, streamNamespace]
  refine congrArg (fun round => rows.foldlM round store)
    (funext fun written => funext fun row => ?_)
  cases grouped : AccountDelta.groupOf deltas row.1 with
  | nil =>
      rw [AccountDelta.groupOf] at grouped
      simp only [EntityVariant.namespaceOf, grouped]
  | cons first rest =>
      rw [AccountDelta.groupOf] at grouped
      simp only [EntityVariant.namespaceOf, grouped]
      rfl

end Streams

namespace DistrScan

variable (scan : DistrScan)

/-- An amount the boundary pays to an account counts for its representative. -/
def creditDRep (amount : ℕ) (credits : OrderedMap DRep ℕ) (account : AccountState) :
    OrderedMap DRep ℕ :=
  match scan.snapshotDRepOf account with
  | some drep => credits.addWeight drep amount
  | none => credits

/-- `load_withdrawal_targets`, for the credits. -/
def creditWithdrawals (tables : BoundaryStore) (withdrawals : List (StakeCredential × ℕ))
    (credits : OrderedMap DRep ℕ) : OrderedMap DRep ℕ :=
  withdrawals.foldl
    (fun credits withdrawal =>
      match (tables.accounts.get? withdrawal.1.key).filter AccountState.isRegistered with
      | some account => scan.creditDRep withdrawal.2 credits account
      | none => credits)
    credits

/-- What `load_proposal_data` adds to the credits. -/
def creditEnacting (tables : BoundaryStore) (resolved : List ResolvedProposal)
    (credits : OrderedMap DRep ℕ) : OrderedMap DRep ℕ :=
  (enactingProposals resolved).foldl
    (fun credits held =>
      match held.state.action with
      | .treasuryWithdrawal withdrawals => scan.creditWithdrawals tables withdrawals credits
      | _ => credits)
    credits

end DistrScan

namespace BoundaryWork

variable (work : BoundaryWork)

/-- The pools of `load_pool_data` that are new. -/
def loadNewPools (tables : BoundaryStore) : Except DomainError (List Hash28) := do
  let loaded ← tables.pools.entries.mapM fun entry => do
    let live ← entry.2.snapshot.unwrapLive.mapError .panic
    .ok (if live.isNew then [entry.2.operator] else [])
  .ok loaded.flatten

def ensuredPoolDeposit : Except DomainError ℕ := do
  let params ← work.endingState.pparams.unwrapLive.mapError .panic
  params.ensurePoolDeposit

/-- `index_pool_refunds`: the deposit has to be there when a pool retires. -/
def indexPoolRefunds (retiring : List RetiringPool) : Except DomainError Unit :=
  if retiring.isEmpty then .ok () else (fun _ => ()) <$> work.ensuredPoolDeposit

/-- `load_pool_refund_credits` -/
def loadPoolRefundCredits (scan : DistrScan) (retiring : List RetiringPool) :
    Except DomainError (OrderedMap DRep ℕ) :=
  match work.distrSnapshotEpoch with
  | none => .ok ∅
  | some _ => do
      let refunded := (retiring.filterMap RetiringPool.account).filter AccountState.isRegistered
      if refunded.isEmpty then .ok ∅
      else
        let deposit ← work.ensuredPoolDeposit
        .ok (refunded.foldl (scan.creditDRep deposit) ∅)

end BoundaryWork

/-- What the finalize pass of the close has loaded when its visitors run. A pool is kept under
its operator, so that a list stands for the set and for the map of pools. -/
structure CloseWork where
  work : BoundaryWork
  tables : BoundaryStore
  newPools : List Hash28
  retiringPools : List RetiringPool
  dreps : DrepData
  ratification : Ratification
  resolved : List ResolvedProposal
  boundaryDRepCredits : OrderedMap DRep ℕ

namespace CloseWork

/-- `load_finalize`, up to `compute_ewrap_deltas`. -/
def load [AddressDecoding] (eras : BoundaryEras) (store : OrderedMap NsKey CardanoEntity) :
    Except ChainError CloseWork := do
  let endingState ← loadEpoch store
  let gov ← loadGov store
  let tables := boundaryStore store
  let empty := BoundaryWork.newEmpty eras endingState gov
  let newPools ← (BoundaryWork.loadNewPools tables).mapError .domain
  let retiringPools ← (empty.loadPoolData tables).mapError .domain
  let _ ← (empty.indexPoolRefunds retiringPools).mapError .domain
  let dreps ← DrepBoundary.loadDrepData ⟨eras.chainSummary, endingState, gov.numDormantEpochs⟩
    (iterEntityRows store DRepState none)
  let epochStart ← (eras.chainSummary.epochStart endingState.number).mapError .panicked
  let work := { empty with epochStart := epochStart, ratifyDReps := dreps.ratifyDReps }
  let scan : DistrScan :=
    ⟨work, eras.activeProtocol, tables.proposals, dreps.snapshotRegisteredDreps⟩
  let refunds ← (work.loadPoolRefundCredits scan retiringPools).mapError .domain
  let ratification ← (work.runRatification tables).mapError .panicked
  let resolved := resolvedProposals tables ratification.outcomes
  .ok
    { work := work
      tables := tables
      newPools := newPools
      retiringPools := retiringPools
      dreps := dreps
      ratification := ratification
      resolved := resolved
      boundaryDRepCredits := scan.creditEnacting tables resolved refunds }

variable (close : CloseWork)

/-- The accepted proposals, in enactment order. -/
def enacting : List ResolvedProposal :=
  close.ratification.enactmentOrder.filterMap
    (KeyedList.find ResolvedProposal.key (enactingProposals close.resolved))

def enactments : List EnactmentDelta :=
  orderedEnactments close.tables close.resolved close.ratification.enactmentOrder

def accountLoad : CloseLoad where
  retiringPools := close.retiringPools
  enacting := close.enacting
  dropping := droppingProposals close.resolved
  enactments := close.enactments

/-- The sums of the withdrawals of enacted proposals that `deliver` or do not. -/
def withdrawals (deliver : Bool) : ℕ :=
  (close.enacting.map fun held =>
    match held.state.action with
    | .treasuryWithdrawal withdrawals =>
        ((withdrawals.filter fun withdrawal => decide
          (withdrawal.1 ∈ deliverableTargets close.tables close.resolved) = deliver).map
            Prod.snd).sum
    | _ => 0).sum

/-- `define_end_stats` -/
def defineEndStats (mirs : MirTally) : Except Panic EndStats := do
  let ending := close.work.endingState
  let refundCount := (close.retiringPools.filter fun retiring =>
    retiring.account.any AccountState.isRegistered).length
  let _ ← ending.rolling.unwrapLive
  let accumulated ← expect ending.endStats "ESTART seeded EpochState.end before Ewraps"
  .ok
    { poolDepositCount := close.newPools.length
      poolRefundCount := refundCount
      poolInvalidRefundCount := close.retiringPools.length - refundCount
      epochIncentives := ending.incentives.getD .default
      effectiveRewards := accumulated.effectiveRewards
      unspendableToTreasury := accumulated.unspendableToTreasury
      unspendableToReserves := accumulated.unspendableToReserves
      treasuryMirs := mirs.effectiveTreasuryMirs.toNat
      reserveMirs := mirs.effectiveReserveMirs.toNat
      invalidTreasuryMirs := mirs.invalidTreasuryMirs.toNat
      invalidReserveMirs := mirs.invalidReserveMirs.toNat
      treasuryWithdrawals := close.withdrawals true
      invalidTreasuryWithdrawals := close.withdrawals false
      proposalInvalidRefunds :=
        proposalTotalRefunds close.resolved - proposalValidRefunds close.resolved
      proposalRefunds := proposalValidRefunds close.resolved }

/-- `visit_retiring_pool` of the wrap-up. -/
def poolDeltas : List PoolWrapUp :=
  close.retiringPools.map fun retiring => .new retiring.pool.operator

def drepDeltas (dreps : List (EntityKey × DRepState)) : List DRepDelta :=
  dreps.flatMap fun row =>
    BoundaryWork.drepDeltas (close.work.drepPower close.boundaryDRepCredits)
      close.dreps.expiringDreps row.1 row.2

def proposalDeltas : List ProposalResolved :=
  close.resolved.map fun held =>
    .new held.state.tx held.state.idx held.outcome close.work.closing

/-- The parameter updates among the enactments. -/
def paramUpdates : List PParamsUpdate :=
  close.enactments.filterMap fun
    | .pparamsUpdate delta => some delta
    | _ => none

/-- The bookkeeping comes after the enactments. -/
def closeGov : Except Panic (Option GovState) := do
  let enacted ← close.enactments.foldlM EnactmentDelta.applyGov (some close.work.gov)
  (close.work.emitGovernanceBoundaryDeltas close.ratification close.tables.proposals
    close.boundaryDRepCredits).foldlM
      (fun gov delta => Prod.snd <$> GovBoundaryDelta.apply gov delta) enacted

/-- `compute_ewrap_deltas` and `commit_finalize` -/
def commit [AddressDecoding] (store : OrderedMap NsKey CardanoEntity) :
    Except ChainError (OrderedMap NsKey CardanoEntity) := do
  let mirs := MirTally.processPendingMirs store
  let dreps := iterEntityRows store DRepState none
  let accounts ← (close.work.computeEwrapDeltas close.accountLoad mirs).mapError .domain
  let stats ← (close.defineEndStats mirs).mapError .panicked
  let pools ← (streamNamespace EntityDelta.key applyEntity close.poolDeltas
    (iterEntityRows store PoolState none) store).mapError .panicked
  let represented ← (streamNamespace DRepDelta.key DRepDelta.apply (close.drepDeltas dreps) dreps
    pools).mapError .panicked
  let resolved ← (streamNamespace EntityDelta.key applyEntity close.proposalDeltas
    (iterEntityRows store ProposalState none) represented).mapError .panicked
  let paid ← (streamAndApply accounts (iterEntityRows store AccountState none)
    resolved).mapError .panicked
  let epoch ← (closeEpoch close.work.endingState close.paramUpdates stats).mapError .panicked
  let gov ← close.closeGov.mapError .panicked
  .ok (mirs.deleteMirs ((paid.insert EpochState.nsKey (.epoch epoch)).set GovState.nsKey
    (gov.map CardanoEntity.gov)))

end CloseWork

section Close

variable [AddressDecoding] (eras : BoundaryEras)

/-- The finalize pass of the close. -/
def ewrapFinalize (store : OrderedMap NsKey CardanoEntity) :
    Except ChainError (OrderedMap NsKey CardanoEntity) := do
  let close ← CloseWork.load eras store
  close.commit store

/-- `EwrapWorkUnit`: a unit that finds its shards done does nothing. -/
def runEwrapUnit (accountShards : ℕ) (store : OrderedMap NsKey CardanoEntity) :
    Except ChainError (OrderedMap NsKey CardanoEntity) := do
  let epoch ← loadEpoch store
  let totalShards := ShardProgress.shardsOf accountShards epoch.ewrapProgress
  let startShard := ShardProgress.startOf epoch.ewrapProgress
  let sharded ← (List.range' startShard (totalShards - startShard)).foldlM
    (runEwrapShard eras totalShards) store
  if totalShards ≤ startShard then .ok sharded else ewrapFinalize eras sharded

end Close

/-- What the open reads of the genesis files, with the lovelace of the AVVM outputs that are
not redeemed: the census of the unspent outputs, which boundaries leave alone until then. -/
structure OpenGenesis where
  nonces : NonceGenesis
  conwayGov : Except ChainError (Constitution × Committee)
  unredeemed : Except ChainError ℕ

/-- The entities with the table of eras. -/
structure BoundaryLedger where
  entities : OrderedMap NsKey CardanoEntity
  eras : OrderedMap ℕ EraSummary

inductive BoundaryError where
  | chain (error : ChainError)
  | opening (error : OpenError)
  deriving DecidableEq

/-- A panic of the open. -/
def BoundaryError.panicked (panic : Panic) : BoundaryError := .chain (.panicked panic)

namespace OpenGenesis

variable (genesis : OpenGenesis)

/-- `AvvmReclamation::at_boundary` -/
def avvmAtBoundary (ended : EpochState) : Except ChainError ℕ := do
  let transition ← ended.pparams.eraTransition.mapError .panicked
  if transition.any EraTransition.enteringAllegra then genesis.unredeemed else .ok 0

/-- The activation of governance that `compute_global_deltas` emits. -/
def govInit (ended : EpochState) : Except ChainError (Option GovGenesisInit) := do
  let transition ← ended.pparams.eraTransition.mapError .panicked
  if transition.any EraTransition.enteringConway then
    let (constitution, committee) ← genesis.conwayGov
    .ok (some (.new constitution committee (ended.number + 1)))
  else .ok none

end OpenGenesis

/-- The governance singleton is only written when there is a delta for it. -/
def commitGovInit (init : Option GovGenesisInit) (store : OrderedMap NsKey CardanoEntity) :
    Except Panic (OrderedMap NsKey CardanoEntity) :=
  match init with
  | none => .ok store
  | some delta => do
      let gov ← applyEntity ((store.get? GovState.nsKey).bind EntityVariant.project) delta
      .ok (store.set GovState.nsKey (gov.map CardanoEntity.gov))

section Open

variable [NonceCrypto] (genesis : OpenGenesis)

/-- The finalize pass of the open. -/
def estartFinalize (ledger : BoundaryLedger) : Except BoundaryError BoundaryLedger := do
  let ended ← (loadEpoch ledger.entities).mapError .chain
  let avvm ← (genesis.avvmAtBoundary ended).mapError .chain
  let newPots ← (defineNewPots ended avvm).mapError .panicked
  let init ← (genesis.govInit ended).mapError .chain
  let opened ← (openEpoch genesis.nonces newPots ⟨ledger.eras, ended⟩).mapError .opening
  let rows := iterEntityRows ledger.entities PoolState none
  let pools ← (streamNamespace EntityDelta.key applyEntity
    (rows.map fun row => PoolTransition.new row.1 (ended.number + 1)) rows
    ledger.entities).mapError .panicked
  let entities ← (commitGovInit init (pools.insert EpochState.nsKey
    (.epoch opened.epoch))).mapError .panicked
  .ok ⟨entities, opened.eras⟩

/-- `EstartWorkUnit` -/
def runEstartUnit (accountShards : ℕ) (ledger : BoundaryLedger) :
    Except BoundaryError BoundaryLedger := do
  let epoch ← (loadEpoch ledger.entities).mapError .chain
  let totalShards := ShardProgress.shardsOf accountShards epoch.estartProgress
  let startShard := ShardProgress.startOf epoch.estartProgress
  let _ ← (genesis.avvmAtBoundary epoch).mapError .chain
  let sharded ← ((List.range' startShard (totalShards - startShard)).foldlM
    (runEstartShard totalShards) ledger.entities).mapError .chain
  estartFinalize genesis ⟨sharded, ledger.eras⟩

end Open

end Dolos
