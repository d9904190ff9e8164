import Dolos.Cardano.EwrapRewards
import Dolos.Cardano.PendingMirs
import Dolos.Cardano.ProposalClose

/-!
# The accounts over a boundary

What `cardano/src/ewrap` and `cardano/src/estart` queue for the accounts and apply to them,
from the first shard of the close to the last shard of the open: the rewards of each shard
with the delegations it drops, then in the finalize pass the instantaneous rewards, the
enacted withdrawals and the refunds of deposits, then the move to the next epoch. The rest
of what a boundary writes is left to the other modules.
-/

namespace Dolos

open Outcome

inductive AccountDelta where
  | assignRewards (delta : AssignRewards)
  | treasuryWithdrawal (delta : TreasuryWithdrawal)
  | poolDepositRefund (delta : PoolDepositRefund)
  | proposalDepositRefund (delta : ProposalDepositRefund)
  | poolDelegatorRetire (delta : PoolDelegatorRetire)
  | drepDelegatorDrop (delta : DRepDelegatorDrop)
  | accountTransition (delta : AccountTransition)
  deriving DecidableEq, Repr

namespace AccountDelta

def key : AccountDelta → NsKey
  | assignRewards delta => EntityDelta.key delta
  | treasuryWithdrawal delta => EntityDelta.key delta
  | poolDepositRefund delta => EntityDelta.key delta
  | proposalDepositRefund delta => EntityDelta.key delta
  | poolDelegatorRetire delta => EntityDelta.key delta
  | drepDelegatorDrop delta => EntityDelta.key delta
  | accountTransition delta => EntityDelta.key delta

/-- The row after the delta. -/
def apply (row : Option AccountState) : AccountDelta → Except Panic (Option AccountState)
  | assignRewards delta => Prod.snd <$> EntityDelta.apply delta row
  | treasuryWithdrawal delta => Prod.snd <$> EntityDelta.apply delta row
  | poolDepositRefund delta => Prod.snd <$> EntityDelta.apply delta row
  | proposalDepositRefund delta => Prod.snd <$> EntityDelta.apply delta row
  | poolDelegatorRetire delta => Prod.snd <$> EntityDelta.apply delta row
  | drepDelegatorDrop delta => Prod.snd <$> EntityDelta.apply delta row
  | accountTransition delta => Prod.snd <$> EntityDelta.apply delta row

def applyAll (row : Option AccountState) (deltas : List AccountDelta) :
    Except Panic (Option AccountState) :=
  deltas.foldlM apply row

/-- The deltas under the key of an account. -/
def groupOf (deltas : List AccountDelta) (key : EntityKey) : List AccountDelta :=
  deltas.filter fun delta => delta.key = toLex (.accounts, key)

end AccountDelta

/-- What a shard drops of the delegations of an account. -/
inductive DelegationDrop where
  | pool (delta : PoolDelegatorRetire)
  | drep (delta : DRepDelegatorDrop)
  deriving DecidableEq, Repr

def DelegationDrop.toDelta : DelegationDrop → AccountDelta
  | pool delta => .poolDelegatorRetire delta
  | drep delta => .drepDelegatorDrop delta

/-- `stream_and_apply_namespace` on the rows of accounts that were read: a row without a
delta is not written. -/
def streamAndApply (deltas : List AccountDelta) (rows : List (EntityKey × AccountState))
    (store : OrderedMap NsKey CardanoEntity) : Except Panic (OrderedMap NsKey CardanoEntity) :=
  rows.foldlM (fun written row =>
    match AccountDelta.groupOf deltas row.1 with
    | [] => .ok written
    | first :: rest => do
        let account ← AccountDelta.applyAll (some row.2) (first :: rest)
        .ok (written.set (toLex (.accounts, row.1)) (account.map CardanoEntity.account))) store

def accountRowsIn (store : OrderedMap NsKey CardanoEntity) (ranges : List KeyRange) :
    List (EntityKey × AccountState) :=
  ranges.flatMap fun range => iterEntityRows store AccountState (some range)

/-- A shard of the close. What it drops of the delegations does not concern the stake. -/
def ewrapShard (drops : EntityKey × AccountState → List DelegationDrop) (endingState : EpochState)
    (totalShards : ℕ) (store : OrderedMap NsKey CardanoEntity) (shardIndex : ℕ) :
    Except Panic (OrderedMap NsKey CardanoEntity) := do
  let ranges ← shardKeyRanges shardIndex totalShards
  let rows := accountRowsIn store ranges
  let work := EwrapShard.compute store endingState ranges
  let written ← streamAndApply (work.deltas.map AccountDelta.assignRewards ++
    (rows.flatMap drops).map DelegationDrop.toDelta) rows store
  .ok (work.deletePending written)

/-- A shard of the open. -/
def estartShard (startingEpoch totalShards : ℕ) (store : OrderedMap NsKey CardanoEntity)
    (shardIndex : ℕ) : Except Panic (OrderedMap NsKey CardanoEntity) := do
  let ranges ← shardKeyRanges shardIndex totalShards
  let rows := accountRowsIn store ranges
  streamAndApply (rows.map fun row => .accountTransition (.new row.1 startingEpoch)) rows store

/-- The tables the finalize pass reads. -/
def boundaryStore (store : OrderedMap NsKey CardanoEntity) : BoundaryStore where
  proposals := .ofList (iterEntityRows store ProposalState none)
  pools := .ofList (iterEntityRows store PoolState none)
  accounts := .ofList (iterEntityRows store AccountState none)

def PParamsSet.ensurePoolDeposit (params : PParamsSet) : Except DomainError ℕ :=
  match params.amount .poolDeposit with
  | some deposit => .ok deposit
  | none => .error (.pparamsNotFound "pool_deposit")

structure RetiringPool where
  pool : PoolState
  account : Option AccountState
  deriving DecidableEq

/-- What the finalize pass queues its refunds and withdrawals from. -/
structure CloseLoad where
  retiringPools : List RetiringPool
  enacting : List ResolvedProposal
  dropping : List ResolvedProposal
  enactments : List EnactmentDelta

structure AccountBoundary where
  load : CloseLoad
  store : OrderedMap NsKey CardanoEntity

namespace BoundaryWork

variable [AddressDecoding] (work : BoundaryWork)

/-- The credential in the parameters a pool has once the boundary is over. -/
def poolRewardAccount (pool : PoolState) (live : PoolSnapshot) : Option StakeCredential :=
  AddressDecoding.parseRewardAccount (pool.snapshot.next.getD live).params.rewardAccount

def loadPool (store : BoundaryStore) (pool : PoolState) :
    Except DomainError (List RetiringPool) := do
  let live ← pool.snapshot.unwrapLive.mapError .panic
  if live.isRetired = false ∧ pool.retiringEpoch = some (work.closing + 1) then
    match poolRewardAccount pool live with
    | none => .error (.other "invalid pool params")
    | some credential => .ok [⟨pool, store.accounts.get? credential.key⟩]
  else .ok []

/-- `load_pool_data` -/
def loadPoolData (store : BoundaryStore) : Except DomainError (List RetiringPool) := do
  let loaded ← store.pools.entries.mapM fun entry => work.loadPool store entry.2
  .ok loaded.flatten

def loadFinalize (store : BoundaryStore) : Except DomainError CloseLoad := do
  let retiringPools ← work.loadPoolData store
  let ruling ← (work.runRatification store).mapError .panic
  let resolved := resolvedProposals store ruling.outcomes
  .ok
    { retiringPools := retiringPools
      enacting := ruling.enactmentOrder.filterMap
        (KeyedList.find ResolvedProposal.key (enactingProposals resolved))
      dropping := droppingProposals resolved
      enactments := orderedEnactments store resolved ruling.enactmentOrder }

/-- `visit_retiring_pool` of the refunds. -/
def visitRetiringPool (retiring : RetiringPool) : Except DomainError (List AccountDelta) := do
  let params ← work.endingState.pparams.unwrapLive.mapError .panic
  let deposit ← params.ensurePoolDeposit
  .ok (match retiring.account with
    | none => []
    | some account =>
        if account.isRegistered then [.poolDepositRefund (.new deposit account.credential)] else [])

end BoundaryWork

/-- `visit_enacting_proposal` and `visit_dropping_proposal` of the refunds. -/
def ResolvedProposal.refund (held : ResolvedProposal) : List AccountDelta :=
  match held.state.deposit, held.account with
  | some deposit, some account =>
      if account.isRegistered then [.proposalDepositRefund (.new deposit account.credential)]
      else []
  | _, _ => []

/-- The enactments that are deltas of accounts. -/
def EnactmentDelta.onAccount : EnactmentDelta → Option AccountDelta
  | treasuryWithdrawal delta => some (.treasuryWithdrawal delta)
  | _ => none

namespace BoundaryWork

variable [AddressDecoding] (work : BoundaryWork)

/-- The deltas `compute_ewrap_deltas` queues for accounts: the enactments are flushed before
the refunds. -/
def computeEwrapDeltas (load : CloseLoad) (mirs : MirTally) :
    Except DomainError (List AccountDelta) := do
  let poolRefunds ← load.retiringPools.mapM work.visitRetiringPool
  .ok (mirs.deltas.map AccountDelta.assignRewards ++
    (load.enactments.filterMap EnactmentDelta.onAccount ++
      (poolRefunds.flatten ++ (load.enacting.flatMap ResolvedProposal.refund ++
        load.dropping.flatMap ResolvedProposal.refund))))

/-- The finalize pass of the close. -/
def ewrapFinalize (store : OrderedMap NsKey CardanoEntity) :
    Except DomainError AccountBoundary := do
  let load ← work.loadFinalize (boundaryStore store)
  let mirs := MirTally.processPendingMirs store
  let deltas ← work.computeEwrapDeltas load mirs
  let written ←
    (streamAndApply deltas (iterEntityRows store AccountState none) store).mapError .panic
  .ok ⟨load, mirs.deleteMirs written⟩

/-- The accounts over a whole boundary. -/
def runBoundary (drops : EntityKey × AccountState → List DelegationDrop) (totalShards : ℕ)
    (store : OrderedMap NsKey CardanoEntity) : Except DomainError AccountBoundary := do
  let rewarded ← ((List.range totalShards).foldlM (ewrapShard drops work.endingState totalShards)
    store).mapError .panic
  let closed ← work.ewrapFinalize rewarded
  let opened ← ((List.range totalShards).foldlM (estartShard (work.closing + 1) totalShards)
    closed.store).mapError .panic
  .ok { closed with store := opened }

end BoundaryWork

end Dolos
