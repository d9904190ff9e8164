import Dolos.Cardano.Model.AccountBoundary
import Dolos.Cardano.RupdShards

/-!
# The rewards of a shard at a boundary

`cardano/src/ewrap/rewards.rs` with the map of rewards it works on and the deletions of
`commit_shard`. The rows of the shard are loaded into a map, each account of the shard takes
its own, what is left and not spendable is drained to a pot, and the commit deletes the rows
that were taken, the rows that were drained and the rows that are still left.
-/

namespace Dolos

open Outcome

namespace Reward

/-- A row as it is read back: it always is of the kind with several pools. -/
def fromPendingState (state : PendingRewardState) : Reward :=
  .multiPool ⟨state.isSpendable, .ofList state.asLeader, .ofList state.asDelegator⟩

def intoVec : Reward → List (Hash28 × ℕ × Bool)
  | multiPool reward =>
      (reward.asLeader.entries.map fun entry => (entry.1, entry.2, true)) ++
        reward.asDelegator.entries.map fun entry => (entry.1, entry.2, false)
  | preAllegra reward => [(reward.pool, reward.value, reward.asLeader)]

end Reward

def PendingRewardState.totalValue (state : PendingRewardState) : ℕ :=
  (state.asLeader.map Prod.snd).sum + (state.asDelegator.map Prod.snd).sum

/-- The rewards of a shard and what became of those already taken. -/
structure RewardMap where
  pending : PendingRewards
  appliedEffective : ℕ
  appliedUnspendableToTreasury : ℕ
  appliedUnspendableToReserves : ℕ
  deriving DecidableEq

namespace RewardMap

def fromPending (pending : PendingRewards) : RewardMap := ⟨pending, 0, 0, 0⟩

/-- What is taken counts as effective until it is returned. -/
def takeForApply (map : RewardMap) (account : StakeCredential) : Option (Reward × RewardMap) :=
  (map.pending.get? account).map fun reward =>
    (reward, { map with
      pending := map.pending.erase account
      appliedEffective := map.appliedEffective + reward.totalValue })

def returnRewardToTreasury (map : RewardMap) (amount : ℕ) : RewardMap :=
  { map with
    appliedEffective := map.appliedEffective - amount
    appliedUnspendableToTreasury := saturatingAdd map.appliedUnspendableToTreasury amount }

def unspendable (map : RewardMap) : PendingRewards :=
  map.pending.filter fun _ reward => !reward.isSpendable

/-- The credentials of what was drained come with the map. -/
def drainUnspendable (map : RewardMap) (toReserves : Bool) : RewardMap × List StakeCredential :=
  let drained := map.unspendable.sumBy Reward.totalValue
  ({ map with
      pending := map.pending.filter fun _ reward => reward.isSpendable
      appliedUnspendableToReserves :=
        if toReserves then map.appliedUnspendableToReserves + drained
        else map.appliedUnspendableToReserves
      appliedUnspendableToTreasury :=
        if toReserves then map.appliedUnspendableToTreasury
        else map.appliedUnspendableToTreasury + drained },
    map.unspendable.keys)

end RewardMap

structure AppliedReward where
  credential : StakeCredential
  pool : Hash28
  amount : ℕ
  asLeader : Bool
  deriving DecidableEq, Repr

/-- What the boundary work of a shard has of its rewards. -/
structure EwrapShard where
  rewards : RewardMap
  appliedRewardCredentials : List StakeCredential
  appliedRewards : List AppliedReward
  deltas : List AssignRewards
  deriving DecidableEq

/-- The rows of a namespace in a range, with their keys. -/
def iterEntityRows (store : OrderedMap NsKey CardanoEntity) (E : Type) [EntityVariant E]
    (range : Option KeyRange) : List (EntityKey × E) :=
  store.entries.filterMap fun entry =>
    if (ofLex entry.1).1 = EntityVariant.namespaceOf E ∧
        range.all (fun range => range.contains (ofLex entry.1).2) then
      (EntityVariant.project entry.2).map fun entity => ((ofLex entry.1).2, entity)
    else none

def pendingRowsIn (store : OrderedMap NsKey CardanoEntity) (ranges : List KeyRange) :
    List PendingRewardState :=
  ranges.flatMap fun range => iterEntitiesTyped store PendingRewardState (some range)

def loadPendingRewardsRanges (store : OrderedMap NsKey CardanoEntity) (ranges : List KeyRange) :
    PendingRewards :=
  .ofList ((pendingRowsIn store ranges).map fun row =>
    (row.credential, Reward.fromPendingState row))

/-- What a shard tells the epoch of its rewards, and how far the shards have come. -/
structure EWrapProgress where
  effectiveDelta : ℕ
  unspendableToTreasuryDelta : ℕ
  unspendableToReservesDelta : ℕ
  completedShardIndex : ℕ
  totalShards : ℕ
  applied : Bool
  prevEwrapProgress : Option ShardProgress
  deriving DecidableEq, Repr

namespace EWrapProgress

def new (effectiveDelta unspendableToTreasuryDelta unspendableToReservesDelta : ℕ)
    (completedShardIndex totalShards : ℕ) : EWrapProgress :=
  ⟨effectiveDelta, unspendableToTreasuryDelta, unspendableToReservesDelta, completedShardIndex,
    totalShards, false, none⟩

def added (delta : EWrapProgress) (stats : EndStats) : EndStats :=
  { stats with
    effectiveRewards := stats.effectiveRewards + delta.effectiveDelta
    unspendableToTreasury := stats.unspendableToTreasury + delta.unspendableToTreasuryDelta
    unspendableToReserves := stats.unspendableToReserves + delta.unspendableToReservesDelta }

def removed (delta : EWrapProgress) (stats : EndStats) : EndStats :=
  { stats with
    effectiveRewards := stats.effectiveRewards - delta.effectiveDelta
    unspendableToTreasury := stats.unspendableToTreasury - delta.unspendableToTreasuryDelta
    unspendableToReserves := stats.unspendableToReserves - delta.unspendableToReservesDelta }

instance : EntityDelta EWrapProgress EpochState where
  key _ := EpochState.nsKey
  apply delta entity := do
    let epoch ← expect entity "existing epoch"
    match ShardProgress.advance epoch.ewrapProgress delta.completedShardIndex delta.totalShards with
    | none => .ok (delta, some epoch)
    | some progress => do
        let stats ← expect epoch.endStats "ESTART seeded EpochState.end before shards run"
        .ok ({ delta with applied := true, prevEwrapProgress := epoch.ewrapProgress },
          some { epoch with endStats := some (delta.added stats), ewrapProgress := some progress })
  undo delta entity :=
    if delta.applied then do
      let epoch ← expect entity "existing epoch"
      let stats ← expect epoch.endStats "end present if accumulate was applied"
      .ok (some { epoch with
        endStats := some (delta.removed stats), ewrapProgress := delta.prevEwrapProgress })
    else .ok entity

end EWrapProgress

namespace EwrapShard

/-- A registered account gets its reward, any other leaves it to the treasury. -/
def visitAccount (work : EwrapShard) (row : EntityKey × AccountState) : EwrapShard :=
  match work.rewards.takeForApply row.2.credential with
  | none => work
  | some (reward, rewards) =>
      let taken := { work with
        rewards := rewards
        appliedRewardCredentials := work.appliedRewardCredentials ++ [row.2.credential] }
      if row.2.isRegistered = false then
        { taken with rewards := rewards.returnRewardToTreasury reward.totalValue }
      else
        { taken with
          deltas := work.deltas ++ [.new row.1 reward.totalValue]
          appliedRewards := work.appliedRewards ++ reward.intoVec.map fun leg =>
            ⟨row.2.credential, leg.1, leg.2.1, leg.2.2⟩ }

def flush (work : EwrapShard) (preBabbage : Bool) : EwrapShard :=
  let (rewards, drained) := work.rewards.drainUnspendable preBabbage
  { work with
    rewards := rewards
    appliedRewardCredentials := work.appliedRewardCredentials ++ drained }

/-- It goes by the parameters of the epoch before the one that ends. -/
def preBabbage (endingState : EpochState) : Bool :=
  (endingState.pparams.mark.bind PParamsSet.protocolMajor).getD 0 < 7

/-- The rewards of a shard after the visit of its accounts. -/
def compute (store : OrderedMap NsKey CardanoEntity) (endingState : EpochState)
    (ranges : List KeyRange) : EwrapShard :=
  let loaded : EwrapShard :=
    ⟨.fromPending (loadPendingRewardsRanges store ranges), [], [], []⟩
  ((ranges.flatMap fun range => iterEntityRows store AccountState (some range)).foldl visitAccount
    loaded).flush (preBabbage endingState)

def progress (work : EwrapShard) (shardIndex totalShards : ℕ) : EWrapProgress :=
  .new work.rewards.appliedEffective work.rewards.appliedUnspendableToTreasury
    work.rewards.appliedUnspendableToReserves shardIndex totalShards

/-- The rows `commit_shard` deletes: those that were applied, then those still left. -/
def deletions (work : EwrapShard) : List NsKey :=
  (work.appliedRewardCredentials ++ work.rewards.pending.keys).map PendingRewardState.nsKey

def deletePending (work : EwrapShard) (store : OrderedMap NsKey CardanoEntity) :
    OrderedMap NsKey CardanoEntity :=
  store.eraseAll work.deletions

end EwrapShard

end Dolos
