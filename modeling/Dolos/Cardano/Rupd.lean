import Dolos.Cardano.Eras
import Dolos.Cardano.Model.Delta
import Dolos.Cardano.RewardsShards
import Dolos.Cardano.Shard

/-!
# The reward update

`cardano/src/rupd`: the stake snapshot is loaded in two legs. The globals, one pass
over all pools and accounts, have the stake, pledge and blocks of the pools; a
shard adds the delegators and registrations of the accounts in its key ranges, and
defines the rewards of these accounts only.

The era summary and the incentives of the epoch are given: the incentives rest on
an approximation of a floating-point coefficient, and both legs share them.
-/

namespace Dolos

open Outcome

/-- Who delegates to a pool, with how much. -/
abbrev DelegatorMap := OrderedMap Hash28 (OrderedMap StakeCredential ℕ)

namespace DelegatorMap

def ofPool (map : DelegatorMap) (pool : Hash28) : OrderedMap StakeCredential ℕ :=
  (map.get? pool).getD ∅

def insertStake (map : DelegatorMap) (pool : Hash28) (account : StakeCredential) (stake : ℕ) :
    DelegatorMap :=
  map.insert pool ((map.ofPool pool).insert account stake)

def getStake (map : DelegatorMap) (pool : Hash28) (account : StakeCredential) : ℕ :=
  ((map.ofPool pool).get? account).getD 0

end DelegatorMap

structure StakeSnapshot where
  activeStakeSum : ℕ
  accountsByPool : DelegatorMap
  registeredAccounts : OrderedMap StakeCredential Unit
  pools : OrderedMap Hash28 (EpochValue PoolSnapshot)
  poolStake : OrderedMap Hash28 ℕ
  poolDelegatorCounts : OrderedMap Hash28 ℕ
  poolLivePledges : OrderedMap Hash28 ℕ
  performanceEpochPoolBlocks : ℕ

/-- Adding to an entry of a map, from zero where there is none. -/
def OrderedMap.addTo {κ : Type} [LinearOrder κ] (map : OrderedMap κ ℕ) (key : κ) (amount : ℕ) :
    OrderedMap κ ℕ :=
  map.insert key ((map.get? key).getD 0 + amount)

section Store

variable (store : OrderedMap NsKey CardanoEntity)

/-- The entities of a namespace with keys in a range, in the order of their keys. -/
def iterEntitiesTyped (E : Type) [EntityVariant E] (range : Option KeyRange) : List E :=
  store.entries.filterMap fun entry =>
    if (ofLex entry.1).1 = EntityVariant.namespaceOf E ∧
        range.all (fun range => range.contains (ofLex entry.1).2) then
      EntityVariant.project entry.2
    else none

def readEpoch : Except DomainError EpochState :=
  match (store.get? EpochState.nsKey).bind EntityVariant.project with
  | some epoch => .ok epoch
  | none => .error .noActiveEpoch

end Store

namespace StakeSnapshot

def default : StakeSnapshot := ⟨0, ∅, ∅, ∅, ∅, ∅, ∅, 0⟩

def trackStake (snapshot : StakeSnapshot) (account : StakeCredential) (pool : Hash28) (stake : ℕ)
    (inShard : Bool) : StakeSnapshot :=
  { snapshot with
    poolStake := snapshot.poolStake.addTo pool stake
    poolDelegatorCounts := snapshot.poolDelegatorCounts.addTo pool 1
    activeStakeSum := snapshot.activeStakeSum + stake
    accountsByPool :=
      if inShard then snapshot.accountsByPool.insertStake pool account stake
      else snapshot.accountsByPool }

def ensurePoolAligned (operator : Hash28) (snapshot : EpochValue PoolSnapshot)
    (currentEpoch : ℕ) : Except DomainError Unit :=
  if snapshot.isAtEpoch currentEpoch then .ok ()
  else .error (.poolSnapshotLagging operator snapshot.epochNumber currentEpoch)

/-- The loop of `load_globals` over the pools. -/
def loadPools (currentEpoch stakeEpoch : ℕ) :
    List PoolState → StakeSnapshot → Except DomainError StakeSnapshot
  | [], snapshot => .ok snapshot
  | pool :: rest, snapshot => do
      ensurePoolAligned pool.operator pool.snapshot currentEpoch
      let minted := ((pool.snapshot.mark.map fun mark => mark.blocksMinted.toNat)).getD 0
      let counted := { snapshot with
        performanceEpochPoolBlocks := snapshot.performanceEpochPoolBlocks + minted }
      if (pool.snapshot.snapshotAt stakeEpoch).isSome then
        loadPools currentEpoch stakeEpoch rest
          { counted with pools := counted.pools.insert pool.operator pool.snapshot }
      else loadPools currentEpoch stakeEpoch rest counted

/-- The pool an account has its stake in at an epoch, and the stake: the pool has to
be in the snapshot and not retired. -/
def delegation (pools : OrderedMap Hash28 (EpochValue PoolSnapshot)) (stakeEpoch protocol : ℕ)
    (account : AccountState) : Option (Hash28 × ℕ) := do
  let pool ← account.delegatedPoolAt stakeEpoch
  let poolState ← pools.get? pool
  let snapshot ← poolState.snapshotAt stakeEpoch
  if snapshot.isRetired then none
  else
    let stake := (account.stake.snapshotAt stakeEpoch).map fun stake => stake.totalForEra protocol
    some (pool, stake.getD 0)

/-- Whether an account is a declared owner of a pool, which `load_globals` looks up in
an index of the owners. -/
def isOwner (pools : OrderedMap Hash28 (EpochValue PoolSnapshot)) (pool : Hash28)
    (account : StakeCredential) : Bool :=
  match (pools.get? pool).bind EpochValue.go with
  | some go => account ∈ go.params.owners
  | none => false

/-- One round of the loop of `load_globals` over the accounts. -/
def trackAccount (stakeEpoch protocol : ℕ) (snapshot : StakeSnapshot) (account : AccountState) :
    StakeSnapshot :=
  match delegation snapshot.pools stakeEpoch protocol account with
  | none => snapshot
  | some (pool, stake) =>
      let tracked := snapshot.trackStake account.credential pool stake false
      if isOwner snapshot.pools pool account.credential then
        { tracked with poolLivePledges := tracked.poolLivePledges.addTo pool stake }
      else tracked

def loadGlobals (store : OrderedMap NsKey CardanoEntity) (currentEpoch stakeEpoch protocol : ℕ) :
    Except DomainError StakeSnapshot := do
  let pools ← loadPools currentEpoch stakeEpoch (iterEntitiesTyped store PoolState none) default
  .ok ((iterEntitiesTyped store AccountState none).foldl (trackAccount stakeEpoch protocol) pools)

/-- One round of the loop of `merge_shard`. -/
def mergeAccount (stakeEpoch protocol : ℕ) (snapshot : StakeSnapshot) (account : AccountState) :
    StakeSnapshot :=
  { snapshot with
    registeredAccounts :=
      if account.isRegistered then snapshot.registeredAccounts.insert account.credential ()
      else snapshot.registeredAccounts
    accountsByPool :=
      match delegation snapshot.pools stakeEpoch protocol account with
      | none => snapshot.accountsByPool
      | some (pool, stake) =>
          snapshot.accountsByPool.insertStake pool account.credential stake }

def mergeShard (snapshot : StakeSnapshot) (store : OrderedMap NsKey CardanoEntity)
    (stakeEpoch protocol : ℕ) (ranges : List KeyRange) : StakeSnapshot :=
  (ranges.flatMap fun range => iterEntitiesTyped store AccountState (some range)).foldl
    (mergeAccount stakeEpoch protocol) snapshot

end StakeSnapshot

structure RupdWork where
  currentEpoch : ℕ
  snapshot : StakeSnapshot
  pots : Pots
  incentives : EpochIncentives
  blocksMadeTotal : ℕ
  chain : ChainSummary
  pparams : Option PParamsSet
  shardRanges : Option (List KeyRange)

def ChainSummary.firstShelleyEpoch (chain : ChainSummary) : Except Panic ℕ :=
  match (chain.protocols.zip chain.past).find? fun entry => entry.1 = 2 with
  | some (_, era) => .ok era.start.epoch
  | none =>
      if chain.protocols.getLast? = some 2 then do
        let edge ← chain.getEdge
        .ok edge.start.epoch
      else .ok 0

/-- The order in which the hash maps of a run are gone through. -/
structure VisitOrder where
  pools : List Hash28 → List Hash28
  delegators : Hash28 → List StakeCredential → List StakeCredential
  poolsPerm : ∀ keys, (pools keys).Perm keys
  delegatorsPerm : ∀ pool keys, (delegators pool keys).Perm keys

namespace RupdWork

/-- The epochs of the stake and of the blocks that are rewarded. -/
def relevantEpochs (work : RupdWork) : Except Panic (Option (ℕ × ℕ)) :=
  if work.currentEpoch < 4 then .ok none
  else do
    let firstShelley ← work.chain.firstShelleyEpoch
    if work.currentEpoch - 3 ≤ firstShelley then .ok none
    else .ok (some (work.currentEpoch - 3, work.currentEpoch - 1))

/-- Stake is taken under the rules of the epoch after its own. -/
def stakeProtocol (work : RupdWork) (snapshotEpoch : ℕ) : Except Panic ℕ := do
  let era ← work.chain.eraForEpoch (snapshotEpoch + 1)
  .ok era.protocol

def loadGlobals (chain : ChainSummary)
    (defineEpochIncentives : EpochState → ℕ → Option ℕ → Except DomainError EpochIncentives)
    (store : OrderedMap NsKey CardanoEntity) : Except DomainError RupdWork := do
  let epoch ← readEpoch store
  let pots := epoch.initialPots
  let blocksMadeTotal :=
    (epoch.rolling.mark.map fun mark => mark.nonOverlayBlocksMinted.toNat).getD 0
  let incentives ← defineEpochIncentives epoch pots.reserves
    (if 0 < blocksMadeTotal then some blocksMadeTotal else none)
  let work : RupdWork :=
    ⟨epoch.number, .default, pots, incentives, blocksMadeTotal, chain, epoch.pparams.mark, none⟩
  match ← work.relevantEpochs.mapError .panic with
  | none => .ok work
  | some (snapshotEpoch, _) => do
      let protocol ← (work.stakeProtocol snapshotEpoch).mapError .panic
      let snapshot ← StakeSnapshot.loadGlobals store work.currentEpoch snapshotEpoch protocol
      .ok { work with snapshot := snapshot }

def mergeShard (work : RupdWork) (store : OrderedMap NsKey CardanoEntity)
    (ranges : List KeyRange) : Except DomainError RupdWork := do
  match ← work.relevantEpochs.mapError .panic with
  | none => .ok { work with shardRanges := some ranges }
  | some (snapshotEpoch, _) => do
      let protocol ← (work.stakeProtocol snapshotEpoch).mapError .panic
      .ok { work with
        snapshot := work.snapshot.mergeShard store snapshotEpoch protocol ranges
        shardRanges := some ranges }

/-- The rest of `RupdWork::load`: all accounts at once. -/
def mergeAll (work : RupdWork) (store : OrderedMap NsKey CardanoEntity) :
    Except DomainError RupdWork := do
  match ← work.relevantEpochs.mapError .panic with
  | none => .ok work
  | some _ => work.mergeShard store [KeyRange.full]

def resetForNextShard (work : RupdWork) : RupdWork :=
  { work with
    snapshot := { work.snapshot with accountsByPool := ∅, registeredAccounts := ∅ }
    shardRanges := none }

def shouldInclude (work : RupdWork) (account : StakeCredential) : Bool :=
  match work.shardRanges with
  | none => true
  | some ranges => ranges.any fun range => range.contains account.key

def context (work : RupdWork) (order : VisitOrder) : RewardsContext where
  incentives := work.incentives
  pots := work.pots
  preAllegra :=
    (work.pparams.map fun pparams => decide (pparams.protocolMajorOrDefault < 3)).getD false
  activeStake := work.snapshot.activeStakeSum
  epochBlocks := work.blocksMadeTotal
  poolBlocks pool := do
    let found ← expect (work.snapshot.pools.get? pool) "pool missing from rewards snapshot"
    let mark ← expect found.mark "aligned pool must have a mark snapshot"
    .ok mark.blocksMinted.toNat
  poolStake pool := (work.snapshot.poolStake.get? pool).getD 0
  accountStake pool account := work.snapshot.accountsByPool.getStake pool account
  isAccountRegistered account := (work.snapshot.registeredAccounts.get? account).isSome
  iterAllPools := order.pools work.snapshot.pools.keys
  poolParams pool := do
    let found ← expect (work.snapshot.pools.get? pool) "pool missing from rewards snapshot"
    let go ← expect found.go "aligned pool must have a go snapshot"
    .ok go.params
  poolDelegators pool := order.delegators pool (work.snapshot.accountsByPool.ofPool pool).keys
  pparams := expect work.pparams "pparams not available for rewards"
  livePledge pool _ := (work.snapshot.poolLivePledges.get? pool).getD 0
  shouldInclude := work.shouldInclude

variable [AddressDecoding]

/-- The `compute` phase. -/
def computeRewards (work : RupdWork) (order : VisitOrder) : Except DomainError PendingRewards := do
  match ← work.relevantEpochs.mapError .panic with
  | some _ => (work.context order).defineRewards
  | none => .ok ∅

/-- What a shard works on: the globals and the accounts of its ranges. -/
def shardWork (work : RupdWork) (store : OrderedMap NsKey CardanoEntity)
    (shardIndex totalShards : ℕ) : Except DomainError RupdWork := do
  let ranges ← (shardKeyRanges shardIndex totalShards).mapError .panic
  work.resetForNextShard.mergeShard store ranges

end RupdWork

def PendingRewardState.ofReward (credential : StakeCredential) : Reward → PendingRewardState
  | .multiPool reward =>
      ⟨credential, reward.isSpendable, reward.asLeader.entries, reward.asDelegator.entries⟩
  | .preAllegra reward =>
      if reward.asLeader then ⟨credential, reward.isSpendable, [(reward.pool, reward.value)], []⟩
      else ⟨credential, reward.isSpendable, [], [(reward.pool, reward.value)]⟩

abbrev PendingRows := OrderedMap EntityKey PendingRewardState

/-- The rows of a map of rewards. The rewards of a row stand in the order of their
pools. -/
def pendingRows (pending : PendingRewards) : PendingRows :=
  .ofList (OrderedMap.rekeyed StakeCredential.key .ofReward pending)

structure RupdProgress where
  completedShardIndex : ℕ
  totalShards : ℕ
  applied : Bool
  prevRupdProgress : Option ShardProgress
  deriving DecidableEq, Repr

namespace RupdProgress

def new (completedShardIndex totalShards : ℕ) : RupdProgress :=
  ⟨completedShardIndex, totalShards, false, none⟩

instance : EntityDelta RupdProgress EpochState where
  key _ := EpochState.nsKey
  apply delta entity := do
    let epoch ← expect entity "existing epoch"
    match ShardProgress.advance epoch.rupdProgress delta.completedShardIndex delta.totalShards with
    | none => .ok (delta, some epoch)
    | some progress =>
        .ok ({ delta with applied := true, prevRupdProgress := epoch.rupdProgress },
          some { epoch with rupdProgress := some progress })
  undo delta entity :=
    if delta.applied then do
      let epoch ← expect entity "existing epoch"
      .ok (some { epoch with rupdProgress := delta.prevRupdProgress })
    else .ok entity

end RupdProgress

/-- The rows under the keys of their namespace. -/
def PendingRows.entities (rows : PendingRows) : List (NsKey × CardanoEntity) :=
  OrderedMap.rekeyed (fun key => toLex (.pendingRewards, key)) (fun _ row => .pendingReward row)
    rows

def RupdWork.commitShard (store : OrderedMap NsKey CardanoEntity) (rows : PendingRows)
    (shardIndex totalShards : ℕ) : Except DomainError (OrderedMap NsKey CardanoEntity) := do
  let held := (store.get? EpochState.nsKey).bind EntityVariant.project
  let (_, epoch) ←
    (EntityDelta.apply (RupdProgress.new shardIndex totalShards) held).mapError .panic
  match epoch with
  | none => .ok (store.insertAll rows.entities)
  | some epoch => .ok ((store.insertAll rows.entities).insert EpochState.nsKey (.epoch epoch))

namespace RupdWork

variable [AddressDecoding]

/-- The `load` and `compute` phases of a shard, as the rows they give. -/
def shardRows (work : RupdWork) (store : OrderedMap NsKey CardanoEntity)
    (shardIndex totalShards : ℕ) (order : VisitOrder) : Except DomainError PendingRows := do
  let merged ← work.shardWork store shardIndex totalShards
  let pending ← merged.computeRewards order
  .ok (pendingRows pending)

/-- The shard loop: the rows of each shard, and the store after the last one. -/
def runShards (work : RupdWork) (totalShards : ℕ) (orders : ℕ → VisitOrder) :
    List ℕ → OrderedMap NsKey CardanoEntity →
      Except DomainError (List PendingRows × OrderedMap NsKey CardanoEntity)
  | [], store => .ok ([], store)
  | shardIndex :: rest, store => do
      let rows ← work.shardRows store shardIndex totalShards (orders shardIndex)
      let committed ← commitShard store rows shardIndex totalShards
      let (later, final) ← work.runShards totalShards orders rest committed
      .ok (rows :: later, final)

/-- The single-range path: `load`, then `define_rewards`. -/
def unshardedRows (work : RupdWork) (store : OrderedMap NsKey CardanoEntity)
    (order : VisitOrder) : Except DomainError PendingRows := do
  let merged ← work.mergeAll store
  let pending ← (merged.context order).defineRewards
  .ok (pendingRows pending)

end RupdWork

end Dolos
