import Dolos.Cardano.EwrapRewards

/-!
# The accounting of rewards at a boundary

A shard neither makes nor loses a reward while it visits its accounts and drains the rest:
what is still pending and what the totals have add up to what was loaded, and the credits
are the effective part. What decides the accounting is whether anything is left at the end.
-/

namespace Dolos

open Outcome

/-- Rows as the reward update writes them. -/
def RewardsWritten (store : OrderedMap NsKey CardanoEntity) : Prop :=
  ∀ key row, store.get? (toLex (.pendingRewards, key)) = some (.pendingReward row) →
    ∃ credential reward, key = credential.key ∧ row = .ofReward credential reward

namespace PendingRewardState

theorem credential_ofReward (credential : StakeCredential) (reward : Reward) :
    (ofReward credential reward).credential = credential := by
  cases reward with
  | multiPool reward => rfl
  | preAllegra reward =>
      rw [ofReward]
      split_ifs <;> rfl

/-- The row of a reward reads back with its total and its mark. -/
theorem fromPendingState_ofReward (credential : StakeCredential) (reward : Reward) :
    (Reward.fromPendingState (ofReward credential reward)).totalValue =
        (ofReward credential reward).totalValue ∧
      (Reward.fromPendingState (ofReward credential reward)).isSpendable =
        (ofReward credential reward).isSpendable := by
  refine ⟨?_, rfl⟩
  have summed : ∀ added : List (Hash28 × ℕ), (added.map Prod.fst).Nodup →
      (OrderedMap.ofList added).sumBy id = (added.map Prod.snd).sum := by
    intro added nodup
    exact ((OrderedMap.entries_ofList_perm nodup).map Prod.snd).sum_nat
  have distinct : ((ofReward credential reward).asLeader.map Prod.fst).Nodup ∧
      ((ofReward credential reward).asDelegator.map Prod.fst).Nodup := by
    cases reward with
    | multiPool reward => exact ⟨reward.asLeader.nodup_keys, reward.asDelegator.nodup_keys⟩
    | preAllegra reward =>
        rw [ofReward]
        split_ifs <;> simp
  change (OrderedMap.ofList _).sumBy id + (OrderedMap.ofList _).sumBy id = _
  rw [summed _ distinct.1, summed _ distinct.2]
  rfl

end PendingRewardState

section Rows

variable {store : OrderedMap NsKey CardanoEntity} {ranges : List KeyRange}

theorem mem_iterPending {range : KeyRange} {row : PendingRewardState} :
    row ∈ iterEntitiesTyped store PendingRewardState (some range) ↔
      ∃ key, store.get? (toLex (.pendingRewards, key)) = some (.pendingReward row) ∧
        range.contains key := by
  simp only [iterEntitiesTyped, List.mem_filterMap, Option.all_some]
  constructor
  · rintro ⟨⟨index, entity⟩, member, selected⟩
    split_ifs at selected with inRange
    · rcases inRange with ⟨isPending, contained⟩
      have entityEq : entity = .pendingReward row := by
        cases entity <;> simp_all [EntityVariant.project]
      refine ⟨(ofLex index).2, ?_, contained⟩
      rw [← OrderedMap.mem_entries_iff, ← entityEq]
      have indexEq : toLex (Namespace.pendingRewards, (ofLex index).2) = index := by
        have ns : (ofLex index).1 = Namespace.pendingRewards := isPending
        rw [← ns]
        rfl
      rw [indexEq]
      exact member
  · rintro ⟨key, held, contained⟩
    refine ⟨(toLex (.pendingRewards, key), .pendingReward row),
      OrderedMap.mem_entries_iff.mpr held, ?_⟩
    exact if_pos ⟨rfl, contained⟩

theorem mem_iterEntityRows {E : Type} [EntityVariant E] {range : Option KeyRange}
    {row : EntityKey × E}
    (projects : ∀ entity state, EntityVariant.project entity = some state →
      entity = (EntityVariant.inject : E → CardanoEntity) state) :
    row ∈ iterEntityRows store E range ↔
      store.get? (toLex (EntityVariant.namespaceOf E, row.1)) =
          some (EntityVariant.inject row.2) ∧
        range.all fun range => range.contains row.1 := by
  simp only [iterEntityRows, List.mem_filterMap]
  constructor
  · rintro ⟨⟨index, entity⟩, member, selected⟩
    split_ifs at selected with inRange
    · rcases inRange with ⟨isRow, contained⟩
      rcases Option.map_eq_some_iff.mp selected with ⟨state, projected, rfl⟩
      refine ⟨?_, contained⟩
      rw [← OrderedMap.mem_entries_iff, ← projects entity state projected]
      have indexEq : toLex (EntityVariant.namespaceOf E, (ofLex index).2) = index := by
        have ns : (ofLex index).1 = EntityVariant.namespaceOf E := isRow
        rw [← ns]
        rfl
      rw [indexEq]
      exact member
  · rintro ⟨held, contained⟩
    refine ⟨(toLex (EntityVariant.namespaceOf E, row.1), EntityVariant.inject row.2),
      OrderedMap.mem_entries_iff.mpr held, ?_⟩
    rw [if_pos ⟨rfl, contained⟩, EntityVariant.project_inject]
    rfl

theorem mem_iterAccountRows {range : Option KeyRange} {row : EntityKey × AccountState} :
    row ∈ iterEntityRows store AccountState range ↔
      store.get? (toLex (.accounts, row.1)) = some (.account row.2) ∧
        range.all fun range => range.contains row.1 :=
  mem_iterEntityRows fun entity _ projected => by
    cases entity <;> cases projected
    rfl

theorem RewardsWritten.mem_rows (written : RewardsWritten store) {row : PendingRewardState} :
    row ∈ pendingRowsIn store ranges ↔
      store.get? (PendingRewardState.nsKey row.credential) = some (.pendingReward row) ∧
        (ranges.any fun range => range.contains row.credential.key) := by
  simp only [pendingRowsIn, List.mem_flatMap, mem_iterPending, List.any_eq_true]
  constructor
  · rintro ⟨range, isRange, key, held, contained⟩
    rcases written key row held with ⟨credential, reward, rfl, rfl⟩
    rw [PendingRewardState.credential_ofReward]
    exact ⟨held, range, isRange, contained⟩
  · rintro ⟨held, range, isRange, contained⟩
    exact ⟨range, isRange, row.credential.key, held, contained⟩

/-- A row that is read is under the key of its credential. -/
theorem RewardsWritten.key_of_read (written : RewardsWritten store) {range : KeyRange}
    {entry : NsKey × CardanoEntity} {row : PendingRewardState} (member : entry ∈ store.entries)
    (read : (if (ofLex entry.1).1 = EntityVariant.namespaceOf PendingRewardState ∧
      (some range).all (fun range => range.contains (ofLex entry.1).2) then
        EntityVariant.project entry.2 else none) = some row) :
    entry.1 = PendingRewardState.nsKey row.credential := by
  rcases entry with ⟨index, entity⟩
  split_ifs at read with inRange
  have entityEq : entity = .pendingReward row := by
    cases entity <;> simp_all [EntityVariant.project]
  have indexEq : index = toLex (Namespace.pendingRewards, (ofLex index).2) := by
    have ns : (ofLex index).1 = Namespace.pendingRewards := inRange.1
    rw [← ns]
    rfl
  have held := OrderedMap.mem_entries_iff.mp member
  rw [entityEq, indexEq] at held
  rcases written _ row held with ⟨credential, reward, keyEq, rfl⟩
  rw [PendingRewardState.credential_ofReward, PendingRewardState.nsKey, ← keyEq]
  exact indexEq

/-- The rows of one range have credentials of their own. -/
theorem RewardsWritten.nodup_range (written : RewardsWritten store) (range : KeyRange) :
    ((iterEntitiesTyped store PendingRewardState (some range)).map
      PendingRewardState.credential).Nodup := by
  refine List.pairwise_map.mpr (List.pairwise_filterMap.mpr ?_)
  refine store.sorted.imp_of_mem ?_
  intro first second isFirst isSecond less row read other readOther same
  have firstKey := written.key_of_read isFirst read
  have secondKey := written.key_of_read isSecond readOther
  rw [firstKey, secondKey, same] at less
  exact absurd less (lt_irrefl _)

/-- And so have the rows of a shard. -/
theorem RewardsWritten.nodup_rows (written : RewardsWritten store) {shardIndex totalShards : ℕ}
    (isRanges : shardKeyRanges shardIndex totalShards = .ok ranges) :
    ((pendingRowsIn store ranges).map PendingRewardState.credential).Nodup := by
  rcases shardKeyRanges_eq_ok isRanges with ⟨valid, below, rfl⟩
  simp only [pendingRowsIn, List.flatMap_cons, List.flatMap_nil, List.append_nil, List.map_append]
  refine List.nodup_append.mpr ⟨written.nodup_range _, written.nodup_range _, ?_⟩
  intro credential isFirst other isSecond same
  rcases List.mem_map.mp isFirst with ⟨first, inFirst, rfl⟩
  rcases List.mem_map.mp isSecond with ⟨second, inSecond, rfl⟩
  rcases mem_iterPending.mp inFirst with ⟨firstKey, firstHeld, firstContained⟩
  rcases mem_iterPending.mp inSecond with ⟨secondKey, secondHeld, secondContained⟩
  rcases written firstKey first firstHeld with ⟨firstOwner, _, rfl, rfl⟩
  rcases written secondKey second secondHeld with ⟨secondOwner, _, rfl, rfl⟩
  rw [PendingRewardState.credential_ofReward, PendingRewardState.credential_ofReward] at same
  have isKey := ((contains_variantRange valid below 0 firstOwner).mp firstContained).1
  have isScript := ((contains_variantRange valid below 1 secondOwner).mp secondContained).1
  rw [same, isScript] at isKey
  cases isKey

end Rows

namespace EwrapShard

section Listed

variable {work : EwrapShard}

/-- The credentials that were loaded: those already applied and those still pending. -/
def listed (work : EwrapShard) : List StakeCredential :=
  work.appliedRewardCredentials ++ work.rewards.pending.keys

theorem listed_visitAccount (row : EntityKey × AccountState) :
    (work.visitAccount row).listed.Perm work.listed := by
  unfold visitAccount RewardMap.takeForApply
  cases found : work.rewards.pending.get? row.2.credential with
  | none => exact .refl _
  | some reward =>
      have moved : (work.appliedRewardCredentials ++ [row.2.credential] ++
          (work.rewards.pending.erase row.2.credential).keys).Perm work.listed := by
        rw [List.append_assoc]
        exact (OrderedMap.keys_erase_perm found).symm.append_left _
      simp only [Option.map_some]
      split_ifs with unregistered
      · exact moved
      · exact moved

theorem listed_visitAll (rows : List (EntityKey × AccountState)) :
    (rows.foldl visitAccount work).listed.Perm work.listed := by
  induction rows generalizing work with
  | nil => exact .refl _
  | cons row rest ih => exact ih.trans (listed_visitAccount row)

theorem listed_flush (preBabbage : Bool) : (work.flush preBabbage).listed.Perm work.listed := by
  have perm := (OrderedMap.entries_filter_perm Reward.isSpendable work.rewards.pending).map
    Prod.fst
  rw [List.map_append] at perm
  simp only [listed, flush, RewardMap.drainUnspendable, RewardMap.unspendable, List.append_assoc]
  exact (perm.trans List.perm_append_comm).symm.append_left _

end Listed

/-- What is pending and what was counted is what was loaded, credit by credit, and every
credential is either still pending or listed as applied. -/
structure Balanced (credentials : List StakeCredential) (total : ℕ) (work : EwrapShard) :
    Prop where
  sum : work.rewards.pending.sumBy Reward.totalValue + work.rewards.appliedEffective +
    work.rewards.appliedUnspendableToTreasury + work.rewards.appliedUnspendableToReserves = total
  credited : (work.deltas.map AssignRewards.reward).sum = work.rewards.appliedEffective
  listed : work.listed.Perm credentials

section Steps

variable {credentials : List StakeCredential} {total : ℕ} {work : EwrapShard}

theorem Balanced.visitAccount (balanced : Balanced credentials total work) (fits : total < 2 ^ 64)
    (row : EntityKey × AccountState) : Balanced credentials total (work.visitAccount row) := by
  have moved := (listed_visitAccount row).trans balanced.listed
  unfold EwrapShard.visitAccount RewardMap.takeForApply at moved ⊢
  cases found : work.rewards.pending.get? row.2.credential with
  | none => simpa using balanced
  | some reward =>
      have summed := OrderedMap.sumBy_erase Reward.totalValue found
      have sum := balanced.sum
      rw [found] at moved
      simp only [Option.map_some] at moved ⊢
      split_ifs at moved ⊢ with unregistered
      · refine ⟨?_, ?_, moved⟩
        · have word : saturatingAdd work.rewards.appliedUnspendableToTreasury reward.totalValue =
              work.rewards.appliedUnspendableToTreasury + reward.totalValue := by
            unfold saturatingAdd
            omega
          simp only [RewardMap.returnRewardToTreasury, word]
          omega
        · simp only [RewardMap.returnRewardToTreasury, balanced.credited]
          omega
      · refine ⟨?_, ?_, moved⟩
        · simp only
          omega
        · simp only [List.map_append, List.map_cons, List.map_nil, List.sum_append,
            List.sum_cons, List.sum_nil, balanced.credited]
          rfl

theorem Balanced.visitAll (balanced : Balanced credentials total work) (fits : total < 2 ^ 64)
    (rows : List (EntityKey × AccountState)) :
    Balanced credentials total (rows.foldl EwrapShard.visitAccount work) := by
  induction rows generalizing work with
  | nil => exact balanced
  | cons row rest ih => exact ih (balanced.visitAccount fits row)

theorem Balanced.flush (balanced : Balanced credentials total work) (preBabbage : Bool) :
    Balanced credentials total (work.flush preBabbage) := by
  have summed := OrderedMap.sumBy_filter_add Reward.totalValue Reward.isSpendable
    work.rewards.pending
  have sum := balanced.sum
  refine ⟨?_, balanced.credited, (listed_flush preBabbage).trans balanced.listed⟩
  simp only [EwrapShard.flush, RewardMap.drainUnspendable, RewardMap.unspendable]
  split_ifs
  · omega
  · omega

/-- An account that is visited has nothing pending any more, and nobody else loses it. -/
theorem pending_visitAccount (row : EntityKey × AccountState) (credential : StakeCredential) :
    (work.visitAccount row).rewards.pending.get? credential =
      if credential = row.2.credential then none
      else work.rewards.pending.get? credential := by
  unfold EwrapShard.visitAccount RewardMap.takeForApply
  cases found : work.rewards.pending.get? row.2.credential with
  | none =>
      simp only [Option.map_none]
      split_ifs with same
      · rw [same, found]
      · rfl
  | some reward =>
      simp only [Option.map_some]
      split_ifs with unregistered same same
      all_goals simp [RewardMap.returnRewardToTreasury, OrderedMap.get?_erase, same]

theorem pending_visitAll (rows : List (EntityKey × AccountState)) (credential : StakeCredential) :
    (rows.foldl EwrapShard.visitAccount work).rewards.pending.get? credential =
      if credential ∈ rows.map fun row => row.2.credential then none
      else work.rewards.pending.get? credential := by
  induction rows generalizing work with
  | nil => simp
  | cons row rest ih =>
      rw [List.foldl_cons, ih, pending_visitAccount]
      by_cases isLater : credential ∈ rest.map fun row => row.2.credential
      · simp [isLater]
      · by_cases isHead : credential = row.2.credential
        · simp [isHead]
        · simp [isLater, isHead]

/-- What is still pending after the drain is spendable and was not visited. -/
theorem pending_flush (preBabbage : Bool) (credential : StakeCredential) :
    (work.flush preBabbage).rewards.pending.get? credential =
      (work.rewards.pending.get? credential).filter Reward.isSpendable := by
  simp only [EwrapShard.flush, RewardMap.drainUnspendable]
  rw [OrderedMap.get?_filter]

end Steps

end EwrapShard

section Shards

open EwrapShard

variable {store : OrderedMap NsKey CardanoEntity} {ranges : List KeyRange}
  {shardIndex totalShards : ℕ}

def totalOf (rows : List PendingRewardState) : ℕ :=
  (rows.map PendingRewardState.totalValue).sum

theorem RewardsWritten.reads (written : RewardsWritten store) {row : PendingRewardState}
    (member : row ∈ pendingRowsIn store ranges) :
    (Reward.fromPendingState row).totalValue = row.totalValue ∧
      (Reward.fromPendingState row).isSpendable = row.isSpendable := by
  have held := (written.mem_rows.mp member).1
  rcases written _ row held with ⟨credential, reward, -, rfl⟩
  exact PendingRewardState.fromPendingState_ofReward credential reward

theorem RewardsWritten.entries_loaded (written : RewardsWritten store)
    (isRanges : shardKeyRanges shardIndex totalShards = .ok ranges) :
    (loadPendingRewardsRanges store ranges).entries.Perm
      ((pendingRowsIn store ranges).map fun row =>
        (row.credential, Reward.fromPendingState row)) := by
  apply OrderedMap.entries_ofList_perm
  rw [List.map_map]
  exact written.nodup_rows isRanges

theorem RewardsWritten.keys_loaded (written : RewardsWritten store)
    (isRanges : shardKeyRanges shardIndex totalShards = .ok ranges) :
    (loadPendingRewardsRanges store ranges).keys.Perm
      ((pendingRowsIn store ranges).map PendingRewardState.credential) := by
  have perm := (written.entries_loaded isRanges).map Prod.fst
  rw [List.map_map] at perm
  exact perm

theorem RewardsWritten.get?_loaded (written : RewardsWritten store)
    (isRanges : shardKeyRanges shardIndex totalShards = .ok ranges)
    {credential : StakeCredential} {reward : Reward} :
    (loadPendingRewardsRanges store ranges).get? credential = some reward ↔
      ∃ row ∈ pendingRowsIn store ranges,
        row.credential = credential ∧ Reward.fromPendingState row = reward := by
  rw [← OrderedMap.mem_entries_iff, (written.entries_loaded isRanges).mem_iff, List.mem_map]
  simp only [Prod.mk.injEq]

theorem AccountsKeyed.mem_visited (keyed : AccountsKeyed store) {credential : StakeCredential} :
    (credential ∈ (ranges.flatMap fun range =>
        iterEntityRows store AccountState (some range)).map fun row => row.2.credential) ↔
      (∃ account, store.get? (AccountState.nsKey credential) = some (.account account)) ∧
        ranges.any fun range => range.contains credential.key := by
  simp only [List.mem_map, List.mem_flatMap, mem_iterAccountRows, List.any_eq_true,
    Option.all_some]
  constructor
  · rintro ⟨⟨key, account⟩, ⟨range, isRange, held, contained⟩, rfl⟩
    have keyEq := keyed key account held
    subst keyEq
    exact ⟨⟨account, held⟩, range, isRange, contained⟩
  · rintro ⟨⟨account, held⟩, range, isRange, contained⟩
    have own := StakeCredential.key_injective (keyed _ account held)
    exact ⟨(credential.key, account), ⟨range, isRange, held, contained⟩, own.symm⟩

variable (endingState : EpochState)

theorem balanced_compute (written : RewardsWritten store)
    (isRanges : shardKeyRanges shardIndex totalShards = .ok ranges)
    (fits : totalOf (pendingRowsIn store ranges) < 2 ^ 64) :
    Balanced ((pendingRowsIn store ranges).map PendingRewardState.credential)
      (totalOf (pendingRowsIn store ranges)) (compute store endingState ranges) := by
  have loaded := written.entries_loaded isRanges
  have begun : Balanced ((pendingRowsIn store ranges).map PendingRewardState.credential)
      (totalOf (pendingRowsIn store ranges))
      ⟨.fromPending (loadPendingRewardsRanges store ranges), [], [], []⟩ := by
    refine ⟨?_, rfl, written.keys_loaded isRanges⟩
    have summed := (loaded.map fun entry => entry.2.totalValue).sum_nat
    have read : ((pendingRowsIn store ranges).map fun row =>
        (Reward.fromPendingState row).totalValue) =
          (pendingRowsIn store ranges).map PendingRewardState.totalValue :=
      List.map_congr_left fun row member => (written.reads member).1
    rw [List.map_map] at summed
    simp only [RewardMap.fromPending, Nat.add_zero]
    exact summed.trans (congrArg List.sum read)
  exact (begun.visitAll fits _).flush _

/-- A shard lists every row it loaded once, whatever the amounts are. -/
theorem listed_compute (written : RewardsWritten store)
    (isRanges : shardKeyRanges shardIndex totalShards = .ok ranges) :
    (compute store endingState ranges).listed.Perm
      ((pendingRowsIn store ranges).map PendingRewardState.credential) :=
  (listed_flush _).trans ((listed_visitAll _).trans (written.keys_loaded isRanges))

/-- What is left: the spendable rows without an account. -/
theorem pending_compute (written : RewardsWritten store) (keyed : AccountsKeyed store)
    (isRanges : shardKeyRanges shardIndex totalShards = .ok ranges)
    {credential : StakeCredential} :
    credential ∈ (compute store endingState ranges).rewards.pending.keys ↔
      ∃ row ∈ pendingRowsIn store ranges, row.credential = credential ∧
        row.isSpendable = true ∧
        ¬ ∃ account, store.get? (AccountState.nsKey credential) = some (.account account) := by
  have left : ∀ reward,
      (compute store endingState ranges).rewards.pending.get? credential = some reward ↔
        (loadPendingRewardsRanges store ranges).get? credential = some reward ∧
          reward.isSpendable = true ∧
            credential ∉ (ranges.flatMap fun range =>
              iterEntityRows store AccountState (some range)).map fun row => row.2.credential := by
    intro reward
    rw [compute, pending_flush, pending_visitAll]
    split_ifs with visited
    · simp [visited]
    · simp [visited, Option.filter_eq_some_iff, RewardMap.fromPending]
  rw [OrderedMap.mem_keys_iff, Option.isSome_iff_exists]
  constructor
  · rintro ⟨reward, held⟩
    rcases (left reward).mp held with ⟨loaded, spendable, unvisited⟩
    rcases (written.get?_loaded isRanges).mp loaded with ⟨row, member, rfl, rfl⟩
    refine ⟨row, member, rfl, (written.reads member).2 ▸ spendable, ?_⟩
    intro account
    exact unvisited (keyed.mem_visited.mpr ⟨account, (written.mem_rows.mp member).2⟩)
  · rintro ⟨row, member, rfl, spendable, absent⟩
    refine ⟨Reward.fromPendingState row, (left _).mpr ⟨?_, ?_, ?_⟩⟩
    · exact (written.get?_loaded isRanges).mpr ⟨row, member, rfl, rfl⟩
    · rw [(written.reads member).2]
      exact spendable
    · intro visited
      exact absent (keyed.mem_visited.mp visited).1

/-- The epoch takes the figures of a shard once: when it is the next one. -/
theorem EWrapProgress.apply_next {epoch : EpochState} {stats : EndStats} {next : ShardProgress}
    (delta : EWrapProgress) (seeded : epoch.endStats = some stats)
    (isNext : ShardProgress.advance epoch.ewrapProgress delta.completedShardIndex
      delta.totalShards = some next) :
    EntityDelta.apply delta (some epoch) =
      .ok ({ delta with applied := true, prevEwrapProgress := epoch.ewrapProgress },
        some { epoch with
          endStats := some { stats with
            effectiveRewards := stats.effectiveRewards + delta.effectiveDelta
            unspendableToTreasury :=
              stats.unspendableToTreasury + delta.unspendableToTreasuryDelta
            unspendableToReserves :=
              stats.unspendableToReserves + delta.unspendableToReservesDelta }
          ewrapProgress := some next }) := by
  simp only [EntityDelta.apply, expect_some, ok_bind, isNext, seeded]
  rfl

/-- The rows of a shard, against what it tells the epoch and what it deletes. -/
structure Accounted (rows : List PendingRewardState) (work : EwrapShard)
    (progress : EWrapProgress) : Prop where
  sum : totalOf rows = progress.effectiveDelta + progress.unspendableToTreasuryDelta +
    progress.unspendableToReservesDelta
  credited : progress.effectiveDelta = (work.deltas.map AssignRewards.reward).sum
  deleted : work.deletions.Perm (rows.map fun row => PendingRewardState.nsKey row.credential)
  once : work.deletions.Nodup
  counted : ∀ index ∈ work.deletions,
    index ∈ work.appliedRewardCredentials.map PendingRewardState.nsKey

/-- A shard accounts for its rows exactly when every spendable one has an account. -/
theorem reward_accounting_iff (written : RewardsWritten store) (keyed : AccountsKeyed store)
    (isRanges : shardKeyRanges shardIndex totalShards = .ok ranges)
    (fits : totalOf (pendingRowsIn store ranges) < 2 ^ 64) :
    Accounted (pendingRowsIn store ranges) (compute store endingState ranges)
        ((compute store endingState ranges).progress shardIndex totalShards) ↔
      ∀ row ∈ pendingRowsIn store ranges, row.isSpendable = true →
        ∃ account, store.get? (AccountState.nsKey row.credential) = some (.account account) := by
  have balanced := balanced_compute endingState written isRanges fits
  have injective : Function.Injective PendingRewardState.nsKey := fun first second same =>
    StakeCredential.key_injective (congrArg (fun index => (ofLex index).2) same)
  have nodup := balanced.listed.nodup_iff.mpr (written.nodup_rows isRanges)
  constructor
  · intro accounted row member spendable
    by_contra absent
    have isLeft := (pending_compute endingState written keyed isRanges).mpr
      ⟨row, member, rfl, spendable, absent⟩
    have counted := accounted.counted (PendingRewardState.nsKey row.credential)
      (List.mem_map_of_mem (List.mem_append_right _ isLeft))
    rcases List.mem_map.mp counted with ⟨credential, isApplied, same⟩
    rw [injective same] at isApplied
    exact (List.nodup_append.mp nodup).2.2 _ isApplied _ isLeft rfl
  · intro backed
    have noneLeft : (compute store endingState ranges).rewards.pending.keys = [] := by
      apply List.eq_nil_iff_forall_not_mem.mpr
      intro credential isLeft
      rcases (pending_compute endingState written keyed isRanges).mp isLeft with
        ⟨row, member, rfl, spendable, absent⟩
      exact absent (backed row member spendable)
    have emptied : (compute store endingState ranges).rewards.pending.sumBy
        Reward.totalValue = 0 := by
      have noEntries := List.map_eq_nil_iff.mp noneLeft
      rw [OrderedMap.sumBy, noEntries]
      rfl
    have sum := balanced.sum
    rw [emptied] at sum
    refine ⟨?_, balanced.credited.symm, ?_, nodup.map injective, ?_⟩
    · simp only [progress, EWrapProgress.new]
      omega
    · have perm := balanced.listed.map PendingRewardState.nsKey
      rw [List.map_map] at perm
      exact perm
    · intro index member
      rwa [deletions, noneLeft, List.append_nil] at member

end Shards

namespace OneShard

open EwrapShard

def credential : StakeCredential := .addrKeyhash 3

def reward : Reward := .multiPool ⟨true, .ofList [(7, 2)], .ofList [(7, 5)]⟩

def ranges : List KeyRange := [variantRange 0 0 1, variantRange 1 0 1]

def orphaned : OrderedMap NsKey CardanoEntity :=
  .ofList [(PendingRewardState.nsKey credential, .pendingReward (.ofReward credential reward))]

def ending : EpochState := RupdWork.epochFive

/-- A spendable row without an account is deleted and nobody counts it. -/
theorem orphan_lost :
    shardKeyRanges 0 1 = .ok ranges ∧
      totalOf (pendingRowsIn orphaned ranges) = 7 ∧
      (compute orphaned ending ranges).progress 0 1 = .new 0 0 0 0 1 ∧
      (compute orphaned ending ranges).deletions = [PendingRewardState.nsKey credential] ∧
      ¬ Accounted (pendingRowsIn orphaned ranges) (compute orphaned ending ranges)
        ((compute orphaned ending ranges).progress 0 1) := by
  have total : totalOf (pendingRowsIn orphaned ranges) = 7 := by decide +kernel
  have none : (compute orphaned ending ranges).progress 0 1 = .new 0 0 0 0 1 := by decide +kernel
  refine ⟨rfl, total, none, by decide +kernel, ?_⟩
  intro accounted
  have sum := accounted.sum
  rw [total, none] at sum
  cases sum

def left : StakeCredential := .addrKeyhash 4

def script : StakeCredential := .scriptHash 6

def absent : StakeCredential := .addrKeyhash 9

/-- The rewards of a registered key, of an account that is not registered, one that is not
spendable and has no account, and that of a registered script. -/
def earned : List (StakeCredential × Reward) :=
  [(credential, reward), (left, .preAllegra ⟨true, false, 7, 2⟩),
    (absent, .preAllegra ⟨false, false, 7, 5⟩), (script, .preAllegra ⟨true, true, 7, 3⟩)]

def registered (credential : StakeCredential) : AccountState :=
  { AccountState.new 5 credential with registeredAt := some 1 }

def accounts : List AccountState := [registered credential, .new 5 left, registered script]

def backed : OrderedMap NsKey CardanoEntity :=
  .ofList ((earned.map fun entry =>
      (PendingRewardState.nsKey entry.1, .pendingReward (.ofReward entry.1 entry.2))) ++
    accounts.map fun account => (AccountState.nsKey account.credential, .account account))

theorem get?_backed {index : NsKey} {entity : CardanoEntity}
    (held : backed.get? index = some entity) :
    (∃ account ∈ accounts, index = AccountState.nsKey account.credential ∧
        entity = .account account) ∨
      ∃ entry ∈ earned, index = PendingRewardState.nsKey entry.1 ∧
        entity = .pendingReward (.ofReward entry.1 entry.2) := by
  rcases List.mem_append.mp (OrderedMap.mem_of_get?_ofList held) with isRow | isAccount
  · rcases List.mem_map.mp isRow with ⟨entry, member, same⟩
    rcases Prod.mk.inj same with ⟨rfl, rfl⟩
    exact .inr ⟨entry, member, rfl, rfl⟩
  · rcases List.mem_map.mp isAccount with ⟨account, member, same⟩
    rcases Prod.mk.inj same with ⟨rfl, rfl⟩
    exact .inl ⟨account, member, rfl, rfl⟩

theorem written_backed : RewardsWritten backed := by
  intro key row held
  rcases get?_backed held with ⟨account, -, -, kind⟩ | ⟨entry, -, isPending, kind⟩
  · cases kind
  · exact ⟨entry.1, entry.2, congrArg (fun index : NsKey => (ofLex index).2) isPending,
      CardanoEntity.pendingReward.inj kind⟩

theorem keyed_backed : AccountsKeyed backed := by
  intro key account held
  rcases get?_backed held with ⟨found, -, isAccount, kind⟩ | ⟨entry, -, -, kind⟩
  · rcases CardanoEntity.account.inj kind with rfl
    exact congrArg (fun index : NsKey => (ofLex index).2) isAccount
  · cases kind

/-- Before Babbage, when what is not spendable goes to the reserves. -/
def early : EpochState :=
  { ending with
    pparams := { ending.pparams with mark := some ⟨[⟨.protocolVersion, .version 6 0⟩]⟩ } }

/-- All three pots take their share of the four rows. -/
theorem reward_accounting_iff_backed :
    Accounted (pendingRowsIn backed ranges) (compute backed early ranges)
        ((compute backed early ranges).progress 0 1) ∧
      totalOf (pendingRowsIn backed ranges) = 17 ∧
      (compute backed early ranges).progress 0 1 = .new 10 2 5 0 1 := by
  have rows : pendingRowsIn backed ranges =
      earned.map fun entry => .ofReward entry.1 entry.2 := by
    decide +kernel
  refine ⟨(@reward_accounting_iff backed ranges 0 1 early written_backed keyed_backed rfl
    ?_).mpr ?_, ?_, by decide +kernel⟩
  · rw [rows]
    decide +kernel
  · intro row member spendable
    rw [rows] at member
    simp only [earned, List.map_cons, List.map_nil, List.mem_cons, List.not_mem_nil,
      or_false] at member
    rcases member with rfl | rfl | rfl | rfl
    · exact ⟨registered credential, by decide +kernel⟩
    · exact ⟨.new 5 left, by decide +kernel⟩
    · cases spendable
    · exact ⟨registered script, by decide +kernel⟩
  · rw [rows]
    decide +kernel

end OneShard

end Dolos
