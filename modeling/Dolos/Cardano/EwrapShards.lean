import Dolos.Cardano.BlockRoll
import Dolos.Cardano.BoundaryCredits
import Dolos.Cardano.BoundaryRestart
import Dolos.Cardano.GovScan

/-!
# The shards of a boundary as they run

`load_shard` and `commit_shard` of `cardano/src/ewrap` and `cardano/src/estart`, one after
another over one store. Every shard loads its classifications anew, the pools and the
representatives that retire, whether the boundary migrates to protocol 10, the deposits of
the live proposals, from the store that the shards before it have changed, and commits the
accounts of its ranges, the epoch, the distributions of governance and the deletions of its
rows of rewards.
-/

namespace Dolos

open Outcome

/-- What a boundary goes by besides its store: the eras, with the protocol of the last, and
the epochs assigned to legacy updates by hand. -/
structure BoundaryEras where
  chainSummary : ChainSummary
  activeProtocol : ℕ
  curatedUpdate : GovActionId → Option ℕ

/-- What `load_shard` of the close has read before it visits the accounts. -/
structure ShardLoad where
  work : BoundaryWork
  activeProtocol : ℕ
  proposals : OrderedMap EntityKey ProposalState
  retiringPools : List Hash28
  dreps : DrepData
  pv10Migration : Bool

def ProposalState.isPv10Fork (proposal : ProposalState) : Bool :=
  match proposal.action with
  | .hardFork version => version.1 = 10
  | _ => false

namespace BoundaryWork

/-- The sets of `new_empty` are not filled yet. -/
def newEmpty (eras : BoundaryEras) (endingState : EpochState) (gov : GovState) : BoundaryWork where
  endingState := endingState
  gov := gov
  govActiveSince := gov.activeSince
  epochStart := 0
  ratifyDReps := ∅
  curatedUpdate := eras.curatedUpdate

variable [AddressDecoding] (work : BoundaryWork)

/-- `load_pool_data` with `index_pool_refunds`, as far as the drops look at it. -/
def retiringPools (store : BoundaryStore) : Except DomainError (List Hash28) := do
  let retiring ← work.loadPoolData store
  if retiring.isEmpty then .ok []
  else
    let params ← work.endingState.pparams.unwrapLive.mapError .panic
    let _ ← params.ensurePoolDeposit
    .ok (retiring.map fun retiring => retiring.pool.operator)

/-- The ruling of a shard is not kept: only whether it enacts the fork. -/
def detectPv10Migration (store : BoundaryStore) : Except Panic Bool := do
  let pparams ← work.endingState.pparams.unwrapLive
  if pparams.protocolMajorOrDefault ≠ 9 then .ok false
  else if (store.proposals.entries.any fun entry =>
      entry.2.isUnresolvedAtClose work.closing && entry.2.isPv10Fork) = false then .ok false
  else
    let ruling ← work.runRatification store
    .ok (ruling.enactmentOrder.any fun id =>
      (store.proposals.get? id).any ProposalState.isPv10Fork)

end BoundaryWork

namespace ShardLoad

/-- `load_shard` of the close up to the rewards. -/
def ofStore [AddressDecoding] (eras : BoundaryEras) (store : OrderedMap NsKey CardanoEntity) :
    Except ChainError ShardLoad := do
  let endingState ← loadEpoch store
  let gov ← loadGov store
  let tables := boundaryStore store
  let empty := BoundaryWork.newEmpty eras endingState gov
  let retiringPools ← (empty.retiringPools tables).mapError .domain
  let dreps ← DrepBoundary.loadDrepData ⟨eras.chainSummary, endingState, gov.numDormantEpochs⟩
    (iterEntityRows store DRepState none)
  let epochStart ← (eras.chainSummary.epochStart endingState.number).mapError .panicked
  let work := { empty with epochStart := epochStart, ratifyDReps := dreps.ratifyDReps }
  let pv10Migration ← (work.detectPv10Migration tables).mapError .panicked
  .ok ⟨work, eras.activeProtocol, tables.proposals, retiringPools, dreps, pv10Migration⟩

variable (load : ShardLoad)

def scan : DistrScan :=
  ⟨load.work, load.activeProtocol, load.proposals, load.dreps.snapshotRegisteredDreps⟩

/-- `clears_drep_delegation`: the delegation was made before the last unregistration. -/
def clearsDRepDelegation (drep : DRep) (account : AccountState) : Bool :=
  match load.dreps.retiringDreps.find? fun retiring => retiring.1 = drep with
  | none => false
  | some retiring => account.voteDelegatedAt.any fun delegatedAt =>
      toLex delegatedAt < toLex retiring.2

/-- `visit_account` of the drops. -/
def visitDrops (row : EntityKey × AccountState) : List DelegationDrop :=
  (match row.2.delegatedPoolAt load.work.closing with
    | some pool =>
        if pool ∈ load.retiringPools then [.pool (.new row.1 load.work.closing)] else []
    | none => []) ++
  match row.2.delegatedDRepAt load.work.closing with
  | some drep =>
      if load.clearsDRepDelegation drep row.2 then [.drep (.new row.1 load.work.closing)] else []
  | none => []

/-- The migration drops what the visitor leaves of the delegations to nobody registered. -/
def migrationDrops (row : EntityKey × AccountState) : List DelegationDrop :=
  if load.pv10Migration = false then []
  else
    match row.2.delegatedDRepAt load.work.closing with
    | some drep =>
        if drep ≠ .abstain ∧ drep ≠ .noConfidence ∧
            drep.entityKey ∉ load.dreps.snapshotRegisteredDreps ∧
            load.clearsDRepDelegation drep row.2 = false then
          [.drep (.new row.1 load.work.closing)]
        else []
    | none => []

/-- What a shard queues for the delegations of an account, in the order it is applied. -/
def drops (row : EntityKey × AccountState) : List DelegationDrop :=
  load.visitDrops row ++ load.migrationDrops row

/-- The visit of an account, with the reward it was assigned beside it. -/
def visitPaid (visited : EwrapShard × List (AccountState × ℕ)) (row : EntityKey × AccountState) :
    EwrapShard × List (AccountState × ℕ) :=
  let work := visited.1.visitAccount row
  (work, visited.2 ++ [(row.2, ((work.deltas.drop visited.1.deltas.length).map
    AssignRewards.reward).sum)])

/-- The accounts of a shard with their rewards. -/
def paidAccounts (store : OrderedMap NsKey CardanoEntity) (ranges : List KeyRange) :
    List (AccountState × ℕ) :=
  ((accountRowsIn store ranges).foldl visitPaid
    (⟨.fromPending (loadPendingRewardsRanges store ranges), [], [], []⟩, [])).2

def commitGov (shardIndex totalShards : ℕ) (accounts : List (AccountState × ℕ)) (gov : GovState) :
    Except Panic GovState :=
  match load.scan.shardDelta shardIndex totalShards accounts with
  | none => .ok gov
  | some delta => do
      let (_, changed) ← EntityDelta.apply delta (some gov)
      .ok (changed.getD gov)

/-- `compute_shard_deltas` and `commit_shard` of the close. -/
def commit (totalShards : ℕ) (store : OrderedMap NsKey CardanoEntity) (gov : GovState)
    (shardIndex : ℕ) : Except Panic (OrderedMap NsKey CardanoEntity) := do
  let ranges ← shardKeyRanges shardIndex totalShards
  let work := EwrapShard.compute store load.work.endingState ranges
  let accounts ← ewrapShard load.drops load.work.endingState totalShards store shardIndex
  let (_, epoch) ←
    EntityDelta.apply (work.progress shardIndex totalShards) (some load.work.endingState)
  let gov ← load.commitGov shardIndex totalShards (paidAccounts store ranges) gov
  .ok ((accounts.set EpochState.nsKey (epoch.map CardanoEntity.epoch)).insert GovState.nsKey
    (.gov gov))

end ShardLoad

section Runs

variable [AddressDecoding] (eras : BoundaryEras)

/-- One shard of the close. -/
def runEwrapShard (totalShards : ℕ) (store : OrderedMap NsKey CardanoEntity) (shardIndex : ℕ) :
    Except ChainError (OrderedMap NsKey CardanoEntity) := do
  let load ← ShardLoad.ofStore eras store
  (load.commit totalShards store load.work.gov shardIndex).mapError .panicked

/-- All shards of the close, in order. -/
def runEwrapShards (totalShards : ℕ) (store : OrderedMap NsKey CardanoEntity) :
    Except ChainError (OrderedMap NsKey CardanoEntity) :=
  (List.range totalShards).foldlM (runEwrapShard eras totalShards) store

end Runs

/-- One shard of the open. -/
def runEstartShard (totalShards : ℕ) (store : OrderedMap NsKey CardanoEntity) (shardIndex : ℕ) :
    Except ChainError (OrderedMap NsKey CardanoEntity) := do
  let ended ← loadEpoch store
  let accounts ← (estartShard (ended.number + 1) totalShards store shardIndex).mapError .panicked
  let (_, epoch) ←
    (EntityDelta.apply (EStartProgress.new shardIndex totalShards) (some ended)).mapError .panicked
  .ok (accounts.set EpochState.nsKey (epoch.map CardanoEntity.epoch))

/-- All shards of the open, in order. -/
def runEstartShards (totalShards : ℕ) (store : OrderedMap NsKey CardanoEntity) :
    Except ChainError (OrderedMap NsKey CardanoEntity) :=
  (List.range totalShards).foldlM (runEstartShard totalShards) store

end Dolos
