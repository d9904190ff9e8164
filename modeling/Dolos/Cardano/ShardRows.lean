import Dolos.Cardano.EwrapShards
import Dolos.Cardano.ShardCredits

/-!
# What a shard computes from its rows

The figures of a shard are sums over its accounts and its rows of rewards: what is paid to
the registered, what the others leave to the treasury, what is drained of the rows without
an account, and the stake behind each representative and each pool. So two shards together
have what one over the rows of both would have, in any order.
-/

namespace Dolos

open Outcome

namespace OrderedMap

variable {κ : Type*} [LinearOrder κ]

theorem get?_addWeight (map : OrderedMap κ ℕ) (key other : κ) (added : ℕ) :
    (map.addWeight key added).get? other =
      if other = key then some (map.weight key + added) else map.get? other := by
  rw [addWeight, get?_insert]
  rfl

theorem get?_addWeights (map added : OrderedMap κ ℕ) (key : κ) :
    (map.addWeights added).get? key =
      match added.get? key with
      | some weight => some (map.weight key + weight)
      | none => map.get? key := by
  have step : ∀ (entries : List (κ × ℕ)) (map : OrderedMap κ ℕ),
      (entries.map Prod.fst).Nodup →
      (entries.foldl (fun map entry => map.addWeight entry.1 entry.2) map).get? key =
        match lookup key entries with
        | some weight => some (map.weight key + weight)
        | none => map.get? key := by
    intro entries
    induction entries with
    | nil => intro map _; rfl
    | cons entry rest ih =>
        intro map distinct
        rw [List.map_cons, List.nodup_cons] at distinct
        rw [List.foldl_cons, ih _ distinct.2, lookup]
        by_cases same : key = entry.1
        · subst same
          have absent : lookup entry.1 rest = none := by
            apply lookup_eq_none
            intro other member isSame
            exact distinct.1 (List.mem_map.mpr ⟨other, member, isSame⟩)
          simp [absent, get?_addWeight]
        · simp [same, get?_addWeight, weight_addWeight]
  exact step added.entries map added.nodup_keys

/-- Merging a map that was added to is adding to the merged map. -/
theorem addWeights_addWeight (map added : OrderedMap κ ℕ) (key : κ) (weight : ℕ) :
    map.addWeights (added.addWeight key weight) = (map.addWeights added).addWeight key weight := by
  apply ext
  intro other
  rw [get?_addWeights, get?_addWeight, get?_addWeight, get?_addWeights]
  by_cases same : other = key
  · subst same
    simp only [if_true, weight_addWeights, Nat.add_assoc]
  · simp only [same, if_false]

theorem addWeight_comm (map : OrderedMap κ ℕ) (first second : κ) (one two : ℕ) :
    (map.addWeight first one).addWeight second two =
      (map.addWeight second two).addWeight first one := by
  apply ext
  intro other
  simp only [get?_addWeight, weight_addWeight]
  by_cases isFirst : other = first
  · by_cases isSecond : other = second
    · subst isFirst
      subst isSecond
      simp [Nat.add_right_comm]
    · subst isFirst
      simp [isSecond]
  · by_cases isSecond : other = second
    · subst isSecond
      simp [isFirst]
    · simp [isFirst, isSecond]

end OrderedMap

namespace DistrScan

variable {scan : DistrScan}

/-- The sums of two shards. -/
def mergeSums (first second : DistrSums) : DistrSums :=
  ⟨first.drepDistr.addWeights second.drepDistr, first.poolDistr.addWeights second.poolDistr,
    first.poolTotal + second.poolTotal⟩

theorem mergeSums_accumulate (snapshotEpoch : ℕ) (first second : DistrSums)
    (account : AccountState) (reward : ℕ) :
    mergeSums first (scan.accumulateGovDistr snapshotEpoch second account reward) =
      scan.accumulateGovDistr snapshotEpoch (mergeSums first second) account reward := by
  unfold accumulateGovDistr mergeSums
  cases account.stake.snapshotAt snapshotEpoch with
  | none => rfl
  | some stake =>
      dsimp only
      split_ifs
      · rfl
      · cases scan.snapshotDRepOf account <;>
          cases account.delegatedPoolAt snapshotEpoch <;>
          simp [OrderedMap.addWeights_addWeight, Nat.add_assoc]

theorem accumulate_comm (snapshotEpoch : ℕ) (sums : DistrSums) (first second : AccountState × ℕ) :
    scan.accumulateGovDistr snapshotEpoch
        (scan.accumulateGovDistr snapshotEpoch sums first.1 first.2) second.1 second.2 =
      scan.accumulateGovDistr snapshotEpoch
        (scan.accumulateGovDistr snapshotEpoch sums second.1 second.2) first.1 first.2 := by
  unfold accumulateGovDistr
  cases first.1.stake.snapshotAt snapshotEpoch with
  | none => rfl
  | some one =>
      cases second.1.stake.snapshotAt snapshotEpoch with
      | none => rfl
      | some two =>
          dsimp only
          split_ifs
          · rfl
          · rfl
          · rfl
          · cases scan.snapshotDRepOf first.1 <;>
              cases scan.snapshotDRepOf second.1 <;>
              cases first.1.delegatedPoolAt snapshotEpoch <;>
              cases second.1.delegatedPoolAt snapshotEpoch <;>
              simp [OrderedMap.addWeight_comm, Nat.add_right_comm]

theorem shardSums_append (snapshotEpoch : ℕ) (first second : List (AccountState × ℕ)) :
    scan.shardSums snapshotEpoch (first ++ second) =
      mergeSums (scan.shardSums snapshotEpoch first) (scan.shardSums snapshotEpoch second) := by
  induction second using List.reverseRecOn with
  | nil =>
      rw [List.append_nil]
      rfl
  | append_singleton rest last ih =>
      have concat : ∀ accounts, scan.shardSums snapshotEpoch (accounts ++ [last]) =
          scan.accumulateGovDistr snapshotEpoch (scan.shardSums snapshotEpoch accounts) last.1
            last.2 := fun accounts => List.foldl_concat ..
      rw [← List.append_assoc, concat, concat, ih, mergeSums_accumulate]

theorem shardSums_perm (snapshotEpoch : ℕ) {first second : List (AccountState × ℕ)}
    (perm : first.Perm second) :
    scan.shardSums snapshotEpoch first = scan.shardSums snapshotEpoch second := by
  apply perm.foldl_eq'
  intro one _ two _ sums
  exact accumulate_comm snapshotEpoch sums one two

end DistrScan

section Reads

variable {store other : OrderedMap NsKey CardanoEntity}

theorem iterEntitiesTyped_eq_map (E : Type) [EntityVariant E] (range : Option KeyRange) :
    iterEntitiesTyped store E range = (iterEntityRows store E range).map Prod.snd := by
  rw [iterEntitiesTyped, iterEntityRows, List.map_filterMap]
  refine List.filterMap_congr ?_
  intro entry _
  split_ifs
  · simp
  · rfl

end Reads

/-- What an account that is visited is owed. -/
def paidFor (owed : StakeCredential → Option Reward) (row : EntityKey × AccountState) : ℕ :=
  if row.2.isRegistered then (owed row.2.credential).elim 0 Reward.totalValue else 0

/-- What it leaves to the treasury. -/
def returnedBy (owed : StakeCredential → Option Reward) (row : EntityKey × AccountState) : ℕ :=
  if row.2.isRegistered then 0 else (owed row.2.credential).elim 0 Reward.totalValue

/-- The delta its visit queues. -/
def assignmentOf (owed : StakeCredential → Option Reward) (row : EntityKey × AccountState) :
    Option AssignRewards :=
  if row.2.isRegistered then
    (owed row.2.credential).map fun reward => .new row.1 reward.totalValue
  else none

namespace EwrapShard

variable {work : EwrapShard} {credentials : List StakeCredential} {total : ℕ}
  {owed : StakeCredential → Option Reward}

/-- What a visit did to a shard. -/
structure Visited (owed : StakeCredential → Option Reward) (rows : List (EntityKey × AccountState))
    (before after : EwrapShard) : Prop where
  deltas : after.deltas = before.deltas ++ rows.filterMap (assignmentOf owed)
  effective : after.rewards.appliedEffective =
    before.rewards.appliedEffective + (rows.map (paidFor owed)).sum
  treasury : after.rewards.appliedUnspendableToTreasury =
    before.rewards.appliedUnspendableToTreasury + (rows.map (returnedBy owed)).sum
  reserves : after.rewards.appliedUnspendableToReserves =
    before.rewards.appliedUnspendableToReserves

theorem visited_visitAccount (balanced : Balanced credentials total work)
    (fits : total < 2 ^ 64) {row : EntityKey × AccountState}
    (isOwed : work.rewards.pending.get? row.2.credential = owed row.2.credential) :
    Visited owed [row] work (work.visitAccount row) := by
  unfold visitAccount RewardMap.takeForApply
  rw [isOwed]
  cases found : owed row.2.credential with
  | none =>
      refine ⟨?_, ?_, ?_, rfl⟩
      · simp [assignmentOf, found]
      · simp [paidFor, found]
      · simp [returnedBy, found]
  | some reward =>
      have summed := OrderedMap.sumBy_erase Reward.totalValue (isOwed.trans found)
      have sum := balanced.sum
      simp only [Option.map_some]
      by_cases registered : row.2.isRegistered = true
      · rw [if_neg (by rw [registered]; decide)]
        refine ⟨?_, ?_, ?_, rfl⟩
        · simp [assignmentOf, found, registered]
        · simp [paidFor, found, registered]
        · simp [returnedBy, registered]
      · have word : saturatingAdd work.rewards.appliedUnspendableToTreasury reward.totalValue =
            work.rewards.appliedUnspendableToTreasury + reward.totalValue := by
          unfold saturatingAdd
          omega
        rw [if_pos (by simpa using registered)]
        refine ⟨?_, ?_, ?_, rfl⟩
        · simp [assignmentOf, registered]
        · simp [paidFor, registered, RewardMap.returnRewardToTreasury]
        · simp [returnedBy, found, registered, RewardMap.returnRewardToTreasury, word]

/-- The visits of accounts of credentials of their own, each with its reward beside it. -/
theorem visited_visitAll {rows : List (EntityKey × AccountState)}
    (distinct : (rows.map fun row => row.2.credential).Nodup)
    (balanced : Balanced credentials total work) (fits : total < 2 ^ 64)
    (isOwed : ∀ row ∈ rows, work.rewards.pending.get? row.2.credential = owed row.2.credential) :
    Visited owed rows work (rows.foldl visitAccount work) ∧
      ∀ paid, rows.foldl ShardLoad.visitPaid (work, paid) =
        (rows.foldl visitAccount work, paid ++ rows.map fun row => (row.2, paidFor owed row)) := by
  induction rows generalizing work with
  | nil =>
      refine ⟨⟨?_, rfl, rfl, rfl⟩, ?_⟩
      · simp
      · simp
  | cons row rest ih =>
      rcases List.nodup_cons.mp distinct with ⟨once, restDistinct⟩
      have first := visited_visitAccount balanced fits (isOwed row List.mem_cons_self)
      have stillOwed : ∀ other ∈ rest,
          (work.visitAccount row).rewards.pending.get? other.2.credential =
            owed other.2.credential := by
        intro other member
        have apart : other.2.credential ≠ row.2.credential := by
          intro same
          exact once (List.mem_map.mpr ⟨other, member, same⟩)
        rw [pending_visitAccount, if_neg apart]
        exact isOwed other (List.mem_cons_of_mem _ member)
      rcases ih restDistinct (balanced.visitAccount fits row) stillOwed with ⟨later, laterPaid⟩
      refine ⟨⟨?_, ?_, ?_, ?_⟩, ?_⟩
      · rw [List.foldl_cons, later.deltas, first.deltas, List.append_assoc,
          ← List.filterMap_append]
        rfl
      · rw [List.foldl_cons, later.effective, first.effective]
        simp [Nat.add_assoc]
      · rw [List.foldl_cons, later.treasury, first.treasury]
        simp [Nat.add_assoc]
      · rw [List.foldl_cons, later.reserves, first.reserves]
      · intro paid
        have reward : (((work.visitAccount row).deltas.drop work.deltas.length).map
            AssignRewards.reward).sum = paidFor owed row := by
          rw [first.deltas, List.drop_left]
          cases found : owed row.2.credential with
          | none => simp [assignmentOf, paidFor, found]
          | some reward =>
              by_cases registered : row.2.isRegistered = true
              · simp [assignmentOf, paidFor, found, registered, AssignRewards.new]
              · simp [assignmentOf, paidFor, registered]
        rw [List.foldl_cons, List.foldl_cons]
        have visited : ShardLoad.visitPaid (work, paid) row =
            (work.visitAccount row, paid ++ [(row.2, paidFor owed row)]) := by
          simp only [ShardLoad.visitPaid, reward]
        rw [visited, laterPaid, List.append_assoc]
        rfl

end EwrapShard

/-- The reward that the rows have for a credential. -/
def rewardRow (store : OrderedMap NsKey CardanoEntity) (credential : StakeCredential) :
    Option Reward :=
  ((store.get? (PendingRewardState.nsKey credential)).bind
    (EntityVariant.project (E := PendingRewardState))).map Reward.fromPendingState

def hasAccount (store : OrderedMap NsKey CardanoEntity) (credential : StakeCredential) : Bool :=
  ((store.get? (AccountState.nsKey credential)).bind
    (EntityVariant.project (E := AccountState))).isSome

/-- The row is drained: it is not spendable and nobody takes it. -/
def drains (store : OrderedMap NsKey CardanoEntity) (row : PendingRewardState) : Bool :=
  !row.isSpendable && !hasAccount store row.credential

/-- What is drained of rows of rewards. -/
def drainedOf (store : OrderedMap NsKey CardanoEntity) (rows : List PendingRewardState) : ℕ :=
  totalOf (rows.filter (drains store))

/-- The figures a shard hands to the epoch. -/
structure ShardFigures where
  effective : ℕ
  toTreasury : ℕ
  toReserves : ℕ

/-- The figures of the accounts and the rows of rewards of a shard. -/
def figuresOf (store : OrderedMap NsKey CardanoEntity) (preBabbage : Bool)
    (accounts : List (EntityKey × AccountState)) (rewards : List PendingRewardState) :
    ShardFigures where
  effective := (accounts.map (paidFor (rewardRow store))).sum
  toTreasury := (accounts.map (returnedBy (rewardRow store))).sum +
    if preBabbage then 0 else drainedOf store rewards
  toReserves := if preBabbage then drainedOf store rewards else 0

section Shard

open EwrapShard

variable {store : OrderedMap NsKey CardanoEntity} {ranges : List KeyRange}
  {shardIndex totalShards : ℕ}

theorem hasAccount_iff {credential : StakeCredential} : hasAccount store credential = true ↔
    ∃ account, store.get? (AccountState.nsKey credential) = some (.account account) := by
  unfold hasAccount
  constructor
  · intro isSome
    rcases Option.isSome_iff_exists.mp isSome with ⟨account, read⟩
    rcases Option.bind_eq_some_iff.mp read with ⟨entity, held, projected⟩
    have entityEq : entity = .account account := by
      cases entity <;> simp_all [EntityVariant.project]
    exact ⟨account, entityEq ▸ held⟩
  · rintro ⟨account, held⟩
    rw [held]
    rfl

theorem rewardRow_eq_some {credential : StakeCredential} {reward : Reward} :
    rewardRow store credential = some reward ↔ ∃ row,
      store.get? (PendingRewardState.nsKey credential) = some (.pendingReward row) ∧
        Reward.fromPendingState row = reward := by
  unfold rewardRow
  constructor
  · intro read
    rcases Option.map_eq_some_iff.mp read with ⟨row, found, rfl⟩
    rcases Option.bind_eq_some_iff.mp found with ⟨entity, held, projected⟩
    have entityEq : entity = .pendingReward row := by
      cases entity <;> simp_all [EntityVariant.project]
    exact ⟨row, entityEq ▸ held, rfl⟩
  · rintro ⟨row, held, rfl⟩
    rw [held]
    rfl

/-- A row is under the key of its own credential. -/
theorem RewardsWritten.own (written : RewardsWritten store) {credential : StakeCredential}
    {row : PendingRewardState}
    (held : store.get? (PendingRewardState.nsKey credential) = some (.pendingReward row)) :
    row.credential = credential := by
  rcases written credential.key row held with ⟨owner, reward, sameKey, rfl⟩
  rw [PendingRewardState.credential_ofReward]
  exact (StakeCredential.key_injective sameKey).symm

theorem RewardsWritten.loaded_eq (written : RewardsWritten store)
    (isRanges : shardKeyRanges shardIndex totalShards = .ok ranges) {credential : StakeCredential}
    (inShard : shardOf totalShards credential = shardIndex) :
    (loadPendingRewardsRanges store ranges).get? credential = rewardRow store credential := by
  have contained : (ranges.any fun range => range.contains credential.key) = true := by
    rw [any_contains isRanges]
    exact decide_eq_true inShard
  apply Option.ext
  intro reward
  rw [written.get?_loaded isRanges, rewardRow_eq_some]
  constructor
  · rintro ⟨row, member, rfl, rfl⟩
    exact ⟨row, (written.mem_rows.mp member).1, rfl⟩
  · rintro ⟨row, held, rfl⟩
    have own := written.own held
    refine ⟨row, written.mem_rows.mpr ⟨?_, ?_⟩, own, rfl⟩
    · rw [own]
      exact held
    · rw [own]
      exact contained

theorem AccountsKeyed.distinct_rows (keyed : AccountsKeyed store)
    (isRanges : shardKeyRanges shardIndex totalShards = .ok ranges) :
    ((accountRowsIn store ranges).map fun row => row.2.credential).Nodup := by
  have ownKeys : (accountRowsIn store ranges).map Prod.fst =
      ((accountRowsIn store ranges).map fun row => row.2.credential).map StakeCredential.key := by
    rw [List.map_map]
    exact List.map_congr_left fun row member => keyed _ _ (mem_accountRowsIn.mp member).1
  have nodup := keyed.nodup_rows isRanges
  rw [ownKeys] at nodup
  exact nodup.of_map _

/-- The accounts of a shard are in it. -/
theorem AccountsKeyed.shardOf_row (keyed : AccountsKeyed store)
    (isRanges : shardKeyRanges shardIndex totalShards = .ok ranges)
    {row : EntityKey × AccountState} (member : row ∈ accountRowsIn store ranges) :
    shardOf totalShards row.2.credential = shardIndex := by
  rcases mem_accountRowsIn.mp member with ⟨held, contained⟩
  rw [keyed _ _ held, any_contains isRanges, decide_eq_true_iff] at contained
  exact contained

/-- What the accounts of a shard leave behind is drained unless it is spendable. -/
theorem RewardsWritten.drained_visitAll (written : RewardsWritten store)
    (keyed : AccountsKeyed store)
    (isRanges : shardKeyRanges shardIndex totalShards = .ok ranges) :
    ((accountRowsIn store ranges).foldl visitAccount
        ⟨.fromPending (loadPendingRewardsRanges store ranges), [], [],
          []⟩).rewards.unspendable.sumBy Reward.totalValue =
      drainedOf store (pendingRowsIn store ranges) := by
  let visited := (accountRowsIn store ranges).map fun row => row.2.credential
  let leaves : StakeCredential × Reward → Bool := fun entry =>
    !entry.2.isSpendable && decide (entry.1 ∉ visited)
  have leftEq : ((accountRowsIn store ranges).foldl visitAccount
        ⟨.fromPending (loadPendingRewardsRanges store ranges), [], [], []⟩).rewards.pending =
      (loadPendingRewardsRanges store ranges).filter
        fun credential _ => decide (credential ∉ visited) := by
    apply OrderedMap.ext
    intro credential
    rw [pending_visitAll, OrderedMap.get?_filter]
    by_cases isVisited : credential ∈ visited
    · rw [if_pos isVisited]
      simp [isVisited]
    · rw [if_neg isVisited]
      simp only [isVisited, not_false_eq_true, decide_true, RewardMap.fromPending]
      cases (loadPendingRewardsRanges store ranges).get? credential <;> rfl
  have kept : ∀ row ∈ pendingRowsIn store ranges,
      (leaves ∘ fun row => (row.credential, Reward.fromPendingState row)) row =
        drains store row := by
    intro row member
    have visitedIff : row.credential ∈ visited ↔ hasAccount store row.credential = true := by
      rw [hasAccount_iff]
      exact keyed.mem_visited.trans (and_iff_left (written.mem_rows.mp member).2)
    simp only [leaves, drains, Function.comp_apply, (written.reads member).2, visitedIff,
      Bool.not_eq_true, Bool.decide_eq_false]
  have entriesEq : (RewardMap.unspendable _).entries =
      (loadPendingRewardsRanges store ranges).entries.filter leaves :=
    (congrArg (fun pending => (pending.filter fun _ reward => !reward.isSpendable).entries)
      leftEq).trans (List.filter_filter ..)
  have perm := ((written.entries_loaded isRanges).filter leaves).map fun entry =>
    entry.2.totalValue
  rw [OrderedMap.sumBy, entriesEq]
  refine perm.sum_nat.trans ?_
  rw [List.filter_map, List.map_map, List.filter_congr kept]
  refine congrArg List.sum (List.map_congr_left ?_)
  intro row member
  exact (written.reads (List.mem_of_mem_filter member)).1

variable (endingState : EpochState)

/-- What a shard computes, by its rows. -/
theorem compute_spec (written : RewardsWritten store) (keyed : AccountsKeyed store)
    (isRanges : shardKeyRanges shardIndex totalShards = .ok ranges)
    (fits : totalOf (pendingRowsIn store ranges) < 2 ^ 64) :
    (compute store endingState ranges).deltas =
        (accountRowsIn store ranges).filterMap (assignmentOf (rewardRow store)) ∧
      (compute store endingState ranges).progress shardIndex totalShards =
        (let figures := figuresOf store (preBabbage endingState) (accountRowsIn store ranges)
          (pendingRowsIn store ranges)
        .new figures.effective figures.toTreasury figures.toReserves shardIndex totalShards) ∧
      ShardLoad.paidAccounts store ranges =
        (accountRowsIn store ranges).map fun row => (row.2, paidFor (rewardRow store) row) := by
  let loaded : EwrapShard :=
    ⟨.fromPending (loadPendingRewardsRanges store ranges), [], [], []⟩
  let rows := accountRowsIn store ranges
  have begun : Balanced ((pendingRowsIn store ranges).map PendingRewardState.credential)
      (totalOf (pendingRowsIn store ranges)) loaded := by
    refine ⟨?_, rfl, written.keys_loaded isRanges⟩
    have summed := ((written.entries_loaded isRanges).map fun entry => entry.2.totalValue).sum_nat
    have read : ((pendingRowsIn store ranges).map fun row =>
        (Reward.fromPendingState row).totalValue) =
          (pendingRowsIn store ranges).map PendingRewardState.totalValue :=
      List.map_congr_left fun row member => (written.reads member).1
    rw [List.map_map] at summed
    simp only [loaded, RewardMap.fromPending, Nat.add_zero]
    exact summed.trans (congrArg List.sum read)
  have isOwed : ∀ row ∈ rows,
      loaded.rewards.pending.get? row.2.credential = rewardRow store row.2.credential :=
    fun row member => written.loaded_eq isRanges (keyed.shardOf_row isRanges member)
  rcases visited_visitAll (keyed.distinct_rows isRanges) begun fits isOwed with ⟨visited, paid⟩
  let last := rows.foldl visitAccount loaded
  have effective : last.rewards.appliedEffective = (rows.map (paidFor (rewardRow store))).sum :=
    visited.effective.trans (Nat.zero_add _)
  have treasury : last.rewards.appliedUnspendableToTreasury =
      (rows.map (returnedBy (rewardRow store))).sum := visited.treasury.trans (Nat.zero_add _)
  have reserves : last.rewards.appliedUnspendableToReserves = 0 := visited.reserves
  have drained : last.rewards.unspendable.sumBy Reward.totalValue =
      drainedOf store (pendingRowsIn store ranges) := written.drained_visitAll keyed isRanges
  have computeEq : compute store endingState ranges = last.flush (preBabbage endingState) := rfl
  refine ⟨?_, ?_, ?_⟩
  · rw [computeEq]
    exact visited.deltas
  · rw [computeEq]
    cases preBabbage endingState with
    | false =>
        have flushed : (last.flush false).progress shardIndex totalShards =
            .new last.rewards.appliedEffective (last.rewards.appliedUnspendableToTreasury +
              last.rewards.unspendable.sumBy Reward.totalValue)
              last.rewards.appliedUnspendableToReserves shardIndex totalShards := rfl
        rw [flushed, effective, treasury, reserves, drained]
        rfl
    | true =>
        have flushed : (last.flush true).progress shardIndex totalShards =
            .new last.rewards.appliedEffective last.rewards.appliedUnspendableToTreasury
              (last.rewards.appliedUnspendableToReserves +
                last.rewards.unspendable.sumBy Reward.totalValue) shardIndex totalShards := rfl
        rw [flushed, effective, treasury, reserves, drained, Nat.zero_add]
        rfl
  · exact congrArg Prod.snd (paid [])

/-- The rows a shard deletes are those of its credentials. -/
theorem mem_deletions (written : RewardsWritten store)
    (isRanges : shardKeyRanges shardIndex totalShards = .ok ranges) {index : NsKey} :
    index ∈ (compute store endingState ranges).deletions ↔
      ∃ row ∈ pendingRowsIn store ranges, PendingRewardState.nsKey row.credential = index := by
  have perm := (listed_compute endingState written isRanges).map PendingRewardState.nsKey
  rw [List.map_map] at perm
  exact perm.mem_iff.trans List.mem_map

end Shard

end Dolos
