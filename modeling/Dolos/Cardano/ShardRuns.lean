import Dolos.Cardano.ShardLoads

/-!
# Runs of shards

The store after the first shards of a run, by the store the run began with: the accounts of
those shards have their deltas, their rows of rewards are gone, and the two singletons have
the figures of the rows so far. The state after all shards is the same for any number.
-/

namespace Dolos

open Outcome AccountDelta

/-- A store a boundary can begin to close. -/
structure ShardsReady (store : OrderedMap NsKey CardanoEntity) : Prop where
  keyed : AccountsKeyed store
  written : RewardsWritten store
  fits : totalOf (iterEntitiesTyped store PendingRewardState none) < 2 ^ 64
  unstarted : ∀ epoch, loadEpoch store = .ok epoch → epoch.ewrapProgress = none
  older : ∀ epoch gov distr, loadEpoch store = .ok epoch → loadGov store = .ok gov →
    gov.distr = some distr → distr.closingEpoch < epoch.number

section Rows

variable (store : OrderedMap NsKey CardanoEntity) (totalShards shardIndex : ℕ)

def shardRanges : List KeyRange :=
  [variantRange 0 shardIndex totalShards, variantRange 1 shardIndex totalShards]

/-- The accounts of the first shards. -/
def accountsBefore : List (EntityKey × AccountState) :=
  (List.range shardIndex).flatMap fun shard => accountRowsIn store (shardRanges totalShards shard)

/-- Their rows of rewards. -/
def rewardsBefore : List PendingRewardState :=
  (List.range shardIndex).flatMap fun shard => pendingRowsIn store (shardRanges totalShards shard)

/-- The accounts of the first shards, with what they are paid. -/
def paidBefore : List (AccountState × ℕ) :=
  (accountsBefore store totalShards shardIndex).map fun row =>
    (row.2, paidFor (rewardRow store) row)

theorem accountsBefore_succ : accountsBefore store totalShards (shardIndex + 1) =
    accountsBefore store totalShards shardIndex ++
      accountRowsIn store (shardRanges totalShards shardIndex) := by
  simp [accountsBefore, List.range_succ]

theorem rewardsBefore_succ : rewardsBefore store totalShards (shardIndex + 1) =
    rewardsBefore store totalShards shardIndex ++
      pendingRowsIn store (shardRanges totalShards shardIndex) := by
  simp [rewardsBefore, List.range_succ]

/-- A row that one of the first shards writes or deletes. -/
def Touched (index : NsKey) : Prop :=
  (∃ account, index = AccountState.nsKey account.credential ∧
    store.get? index = some (.account account) ∧
      shardOf totalShards account.credential < shardIndex) ∨
  ∃ row, index = PendingRewardState.nsKey row.credential ∧
    store.get? index = some (.pendingReward row) ∧ shardOf totalShards row.credential < shardIndex

end Rows

section Rows

variable {store : OrderedMap NsKey CardanoEntity} {totalShards other shardIndex : ℕ}

theorem shardRanges_ok (valid : ValidShards totalShards) (below : shardIndex < totalShards) :
    shardKeyRanges shardIndex totalShards = .ok (shardRanges totalShards shardIndex) := by
  rcases exists_shardKeyRanges valid below with ⟨ranges, isRanges, -⟩
  rcases shardKeyRanges_eq_ok isRanges with ⟨-, -, rfl⟩
  exact isRanges

/-- The rows of all shards are the rows of the store, each once. -/
theorem accountsBefore_all (keyed : AccountsKeyed store) (valid : ValidShards totalShards) :
    (accountsBefore store totalShards totalShards).Nodup ∧
      ∀ row, row ∈ accountsBefore store totalShards totalShards ↔
        store.get? (toLex (.accounts, row.1)) = some (.account row.2) := by
  have inShard : ∀ shard < totalShards, ∀ row,
      row ∈ accountRowsIn store (shardRanges totalShards shard) ↔
        store.get? (toLex (.accounts, row.1)) = some (.account row.2) ∧
          shardOf totalShards row.2.credential = shard := by
    intro shard below row
    rw [mem_accountRowsIn]
    refine and_congr_right fun held => ?_
    rw [keyed _ _ held, any_contains (shardRanges_ok valid below), decide_eq_true_iff]
  refine ⟨List.nodup_flatMap.mpr ⟨?_, ?_⟩, ?_⟩
  · intro shard isShard
    exact (keyed.nodup_rows (shardRanges_ok valid (List.mem_range.mp isShard))).of_map _
  · refine (@List.nodup_range totalShards).imp_of_mem ?_
    intro first second isFirst isSecond apart row inFirst inSecond
    have one := ((inShard first (List.mem_range.mp isFirst) row).mp inFirst).2
    have two := ((inShard second (List.mem_range.mp isSecond) row).mp inSecond).2
    exact apart (one.symm.trans two)
  · intro row
    rw [accountsBefore, List.mem_flatMap]
    constructor
    · rintro ⟨shard, isShard, member⟩
      exact ((inShard shard (List.mem_range.mp isShard) row).mp member).1
    · intro held
      have below := shardOf_lt valid row.2.credential
      exact ⟨_, List.mem_range.mpr below, (inShard _ below row).mpr ⟨held, rfl⟩⟩

theorem rewardsBefore_all (written : RewardsWritten store) (valid : ValidShards totalShards) :
    (rewardsBefore store totalShards totalShards).Nodup ∧
      ∀ row, row ∈ rewardsBefore store totalShards totalShards ↔
        store.get? (PendingRewardState.nsKey row.credential) = some (.pendingReward row) := by
  have inShard : ∀ shard < totalShards, ∀ row,
      row ∈ pendingRowsIn store (shardRanges totalShards shard) ↔
        store.get? (PendingRewardState.nsKey row.credential) = some (.pendingReward row) ∧
          shardOf totalShards row.credential = shard := by
    intro shard below row
    rw [written.mem_rows, any_contains (shardRanges_ok valid below), decide_eq_true_iff]
  refine ⟨List.nodup_flatMap.mpr ⟨?_, ?_⟩, ?_⟩
  · intro shard isShard
    exact (written.nodup_rows (shardRanges_ok valid (List.mem_range.mp isShard))).of_map _
  · refine (@List.nodup_range totalShards).imp_of_mem ?_
    intro first second isFirst isSecond apart row inFirst inSecond
    have one := ((inShard first (List.mem_range.mp isFirst) row).mp inFirst).2
    have two := ((inShard second (List.mem_range.mp isSecond) row).mp inSecond).2
    exact apart (one.symm.trans two)
  · intro row
    rw [rewardsBefore, List.mem_flatMap]
    constructor
    · rintro ⟨shard, isShard, member⟩
      exact ((inShard shard (List.mem_range.mp isShard) row).mp member).1
    · intro held
      have below := shardOf_lt valid row.credential
      exact ⟨_, List.mem_range.mpr below, (inShard _ below row).mpr ⟨held, rfl⟩⟩

theorem accounts_perm (keyed : AccountsKeyed store) (valid : ValidShards totalShards)
    (validOther : ValidShards other) :
    (accountsBefore store other other).Perm (accountsBefore store totalShards totalShards) := by
  rcases accountsBefore_all keyed valid with ⟨nodup, members⟩
  rcases accountsBefore_all keyed validOther with ⟨nodupOther, membersOther⟩
  exact (List.perm_ext_iff_of_nodup nodupOther nodup).mpr fun row =>
    (membersOther row).trans (members row).symm

theorem rewards_perm (written : RewardsWritten store) (valid : ValidShards totalShards)
    (validOther : ValidShards other) :
    (rewardsBefore store other other).Perm (rewardsBefore store totalShards totalShards) := by
  rcases rewardsBefore_all written valid with ⟨nodup, members⟩
  rcases rewardsBefore_all written validOther with ⟨nodupOther, membersOther⟩
  exact (List.perm_ext_iff_of_nodup nodupOther nodup).mpr fun row =>
    (membersOther row).trans (members row).symm

/-- A shard has a part of the rewards only. -/
theorem ShardsReady.fits_shard (ready : ShardsReady store) (valid : ValidShards totalShards)
    (below : shardIndex < totalShards) :
    totalOf (pendingRowsIn store (shardRanges totalShards shardIndex)) < 2 ^ 64 := by
  have nodup : (pendingRowsIn store (shardRanges totalShards shardIndex)).Nodup :=
    (ready.written.nodup_rows (shardRanges_ok valid below)).of_map _
  have subset : pendingRowsIn store (shardRanges totalShards shardIndex) ⊆
      iterEntitiesTyped store PendingRewardState none := by
    intro row member
    rcases List.mem_flatMap.mp member with ⟨range, -, inRange⟩
    rcases List.mem_filterMap.mp inRange with ⟨entry, isEntry, selected⟩
    refine List.mem_filterMap.mpr ⟨entry, isEntry, ?_⟩
    split_ifs at selected with contained
    rw [if_pos ⟨contained.1, rfl⟩]
    exact selected
  rcases List.subperm_of_subset nodup subset with ⟨listed, perm, sublist⟩
  have le := (sublist.map PendingRewardState.totalValue).sum_le_sum fun _ _ => Nat.zero_le _
  have same := (perm.map PendingRewardState.totalValue).sum_nat
  have fits := ready.fits
  simp only [totalOf] at fits ⊢
  omega

end Rows

/-- The distributions with no more of the count of shards than whether it is complete. -/
def GovDistr.withoutCursors (distr : GovDistr) : GovDistr :=
  { distr with
    committedShards := if distr.committedShards = distr.totalShards then 1 else 0
    totalShards := 1 }

/-- An entity without the cursors of the shards. -/
def CardanoEntity.withoutCursors : CardanoEntity → CardanoEntity
  | epoch state => .epoch { state with ewrapProgress := none, estartProgress := none }
  | gov state => .gov { state with distr := state.distr.map GovDistr.withoutCursors }
  | entity => entity

/-- Stores that differ in nothing but the cursors of their shards. -/
def SameButCursors (first second : OrderedMap NsKey CardanoEntity) : Prop :=
  ∀ index, (second.get? index).map CardanoEntity.withoutCursors =
    (first.get? index).map CardanoEntity.withoutCursors

namespace ShardFigures

/-- The end of the epoch with the figures of shards. -/
def addTo (figures : ShardFigures) (stats : EndStats) : EndStats :=
  { stats with
    effectiveRewards := stats.effectiveRewards + figures.effective
    unspendableToTreasury := stats.unspendableToTreasury + figures.toTreasury
    unspendableToReserves := stats.unspendableToReserves + figures.toReserves }

end ShardFigures

theorem figuresOf_append (store : OrderedMap NsKey CardanoEntity) (preBabbage : Bool)
    (accounts others : List (EntityKey × AccountState)) (rewards more : List PendingRewardState)
    (stats : EndStats) :
    (figuresOf store preBabbage (accounts ++ others) (rewards ++ more)).addTo stats =
      (figuresOf store preBabbage others more).addTo
        ((figuresOf store preBabbage accounts rewards).addTo stats) := by
  have drained : drainedOf store (rewards ++ more) =
      drainedOf store rewards + drainedOf store more := by
    simp [drainedOf, totalOf]
  cases preBabbage with
  | false =>
      simp only [ShardFigures.addTo, figuresOf, drained, List.map_append, List.sum_append,
        Bool.false_eq_true, if_false, Nat.add_zero, EndStats.mk.injEq, and_true, true_and]
      omega
  | true =>
      simp only [ShardFigures.addTo, figuresOf, drained, List.map_append, List.sum_append,
        if_true, Nat.add_zero, EndStats.mk.injEq, and_true, true_and]
      omega

theorem figuresOf_perm (store : OrderedMap NsKey CardanoEntity) (preBabbage : Bool)
    {accounts others : List (EntityKey × AccountState)} {rewards more : List PendingRewardState}
    (accountsPerm : accounts.Perm others) (rewardsPerm : rewards.Perm more) :
    figuresOf store preBabbage accounts rewards = figuresOf store preBabbage others more := by
  have drained : drainedOf store rewards = drainedOf store more :=
    ((rewardsPerm.filter _).map _).sum_nat
  have paid := (accountsPerm.map (paidFor (rewardRow store))).sum_nat
  have returned := (accountsPerm.map (returnedBy (rewardRow store))).sum_nat
  simp only [figuresOf, drained, paid, returned]

/-- The distributions of a boundary with the sums of its first shards. -/
def DistrSums.distrOf (sums : DistrSums) (closing committedShards totalShards : ℕ) : GovDistr :=
  ⟨closing, committedShards, totalShards, sums.drepDistr, sums.poolDistr, sums.poolTotal⟩

namespace ShardLoad

variable (load : ShardLoad) (store : OrderedMap NsKey CardanoEntity) (totalShards shardIndex : ℕ)

/-- The figures of the first shards. -/
def figuresBefore : ShardFigures :=
  figuresOf store (EwrapShard.preBabbage load.work.endingState)
    (accountsBefore store totalShards shardIndex) (rewardsBefore store totalShards shardIndex)

def statsAfter : Option EndStats :=
  load.work.endingState.endStats.map (load.figuresBefore store totalShards shardIndex).addTo

def progressAfter : Option ShardProgress :=
  if shardIndex = 0 then none else some ⟨shardIndex, totalShards⟩

/-- The distributions of the first shards. -/
def distrAfter : Option GovDistr :=
  if shardIndex = 0 then load.work.gov.distr
  else
    match load.work.distrSnapshotEpoch with
    | none => load.work.gov.distr
    | some snapshotEpoch =>
        some ((load.scan.shardSums snapshotEpoch
          (paidBefore store totalShards shardIndex)).distrOf load.work.closing shardIndex
            totalShards)

/-- The epoch and governance after the first shards. -/
def workAfter : BoundaryWork :=
  load.work.stirred (load.statsAfter store totalShards shardIndex)
    (progressAfter totalShards shardIndex) (load.distrAfter store totalShards shardIndex)

/-- What the accounts of a shard and the end of the epoch must be like for its commit. -/
structure ShardFits : Prop where
  settles : ∀ row ∈ accountRowsIn store (shardRanges totalShards shardIndex),
    ∃ after, applyAll (some row.2) (load.queued store row) = .ok after
  seeded : load.work.endingState.endStats.isSome

end ShardLoad

/-- The store after the first shards. -/
structure ClosedUpTo (load : ShardLoad) (store : OrderedMap NsKey CardanoEntity)
    (totalShards shardIndex : ℕ) (current : OrderedMap NsKey CardanoEntity) : Prop where
  kept : ∀ index, ¬ Touched store totalShards shardIndex index → index ≠ EpochState.nsKey →
    index ≠ GovState.nsKey → current.get? index = store.get? index
  settled : ∀ account,
    store.get? (AccountState.nsKey account.credential) = some (.account account) →
    shardOf totalShards account.credential < shardIndex →
    ∃ after, applyAll (some account) (load.queued store (account.credential.key, account)) =
        .ok (some after) ∧
      current.get? (AccountState.nsKey account.credential) = some (.account after)
  gone : ∀ row, store.get? (PendingRewardState.nsKey row.credential) = some (.pendingReward row) →
    shardOf totalShards row.credential < shardIndex →
    current.get? (PendingRewardState.nsKey row.credential) = none
  epoch : current.get? EpochState.nsKey =
    some (.epoch (load.workAfter store totalShards shardIndex).endingState)
  gov : current.get? GovState.nsKey =
    some (.gov (load.workAfter store totalShards shardIndex).gov)

section ClosedUpTo

variable {load : ShardLoad} {store current next : OrderedMap NsKey CardanoEntity}
  {totalShards shardIndex : ℕ}

theorem notTransition_queued {row : EntityKey × AccountState} {delta : AccountDelta}
    (member : delta ∈ load.queued store row) : delta.isTransition = false := by
  rcases List.mem_append.mp member with isReward | isDrop
  · rcases List.mem_map.mp isReward with ⟨assigned, -, rfl⟩
    rfl
  · rcases List.mem_map.mp isDrop with ⟨drop, -, rfl⟩
    cases drop <;> rfl

theorem touched_account {key : EntityKey}
    (touched : Touched store totalShards shardIndex (toLex (.accounts, key))) :
    ∃ account, key = account.credential.key ∧
      store.get? (toLex (.accounts, key)) = some (.account account) ∧
        shardOf totalShards account.credential < shardIndex := by
  rcases touched with ⟨account, isKey, held, below⟩ | ⟨row, isKey, -, -⟩
  · exact ⟨account, congrArg (fun index : NsKey => (ofLex index).2) isKey, held, below⟩
  · cases congrArg (fun index : NsKey => (ofLex index).1) isKey

theorem touched_reward {key : EntityKey}
    (touched : Touched store totalShards shardIndex (toLex (.pendingRewards, key))) :
    ∃ row, key = row.credential.key ∧
      store.get? (toLex (.pendingRewards, key)) = some (.pendingReward row) ∧
        shardOf totalShards row.credential < shardIndex := by
  rcases touched with ⟨account, isKey, -, -⟩ | ⟨row, isKey, held, below⟩
  · cases congrArg (fun index : NsKey => (ofLex index).1) isKey
  · exact ⟨row, congrArg (fun index : NsKey => (ofLex index).2) isKey, held, below⟩

theorem Touched.ns {index : NsKey} (touched : Touched store totalShards shardIndex index) :
    (ofLex index).1 = .accounts ∨ (ofLex index).1 = .pendingRewards := by
  rcases touched with ⟨account, rfl, -, -⟩ | ⟨row, rfl, -, -⟩
  · exact Or.inl rfl
  · exact Or.inr rfl

theorem ClosedUpTo.moved (closed : ClosedUpTo load store totalShards shardIndex current) :
    Moved store current := by
  refine ⟨?_, ?_⟩
  · intro index notAccount notReward notEpoch notGov
    apply closed.kept
    · intro touched
      rcases touched.ns with isAccount | isReward
      · exact notAccount isAccount
      · exact notReward isReward
    · rintro rfl
      exact notEpoch rfl
    · rintro rfl
      exact notGov rfl
  · intro key
    by_cases touched : Touched store totalShards shardIndex (toLex (.accounts, key))
    · rcases touched_account touched with ⟨account, rfl, held, below⟩
      rcases closed.settled account held below with ⟨after, applied, isAfter⟩
      exact Or.inr ⟨account, after, held, isAfter,
        delegated_applyAll (fun _ member => notTransition_queued member) applied⟩
    · exact Or.inl (closed.kept _ touched (by intro same; cases same) (by intro same; cases same))

/-- The rows of the next shard are as they were. -/
theorem ClosedUpTo.rows (closed : ClosedUpTo load store totalShards shardIndex current)
    (valid : ValidShards totalShards) (below : shardIndex < totalShards) :
    accountRowsIn current (shardRanges totalShards shardIndex) =
        accountRowsIn store (shardRanges totalShards shardIndex) ∧
      pendingRowsIn current (shardRanges totalShards shardIndex) =
        pendingRowsIn store (shardRanges totalShards shardIndex) := by
  have waits : ∀ range ∈ shardRanges totalShards shardIndex, ∀ credential : StakeCredential,
      range.contains credential.key = true → ¬ shardOf totalShards credential < shardIndex := by
    intro range isRange credential contained
    have inShard := any_contains (shardRanges_ok valid below) credential
    rw [List.any_eq_true.mpr ⟨range, isRange, contained⟩] at inShard
    rw [of_decide_eq_true inShard.symm]
    exact lt_irrefl _
  refine ⟨List.flatMap_congr ?_, List.flatMap_congr ?_⟩
  · intro range isRange
    apply iterEntityRows_congr
    intro key contained
    refine closed.kept _ ?_ (by intro same; cases same) (by intro same; cases same)
    intro touched
    rcases touched_account touched with ⟨account, rfl, -, early⟩
    exact waits range isRange _ contained early
  · intro range isRange
    rw [iterEntitiesTyped_eq_map, iterEntitiesTyped_eq_map]
    refine congrArg (List.map Prod.snd) (iterEntityRows_congr ?_)
    intro key contained
    refine closed.kept _ ?_ (by intro same; cases same) (by intro same; cases same)
    intro touched
    rcases touched_reward touched with ⟨row, rfl, -, early⟩
    exact waits range isRange _ contained early

theorem ClosedUpTo.start [AddressDecoding] {eras : BoundaryEras}
    (ready : ShardsReady store) (loaded : ShardLoad.ofStore eras store = .ok load) :
    ClosedUpTo load store totalShards 0 store ∧
      loadEpoch store = .ok load.work.endingState ∧ loadGov store = .ok load.work.gov := by
  rcases bind_eq_ok.mp loaded with ⟨ending, endingEq, withEnding⟩
  rcases bind_eq_ok.mp withEnding with ⟨gov, isGov, withGov⟩
  rcases bind_eq_ok.mp withGov with ⟨retiring, -, withRetiring⟩
  rcases bind_eq_ok.mp withRetiring with ⟨dreps, -, withDReps⟩
  rcases bind_eq_ok.mp withDReps with ⟨epochStart, -, withStart⟩
  rcases bind_eq_ok.mp withStart with ⟨migrates, -, loadEq⟩
  rcases Except.ok.inj loadEq with rfl
  have epochHeld : store.get? EpochState.nsKey = some (.epoch ending) := by
    unfold loadEpoch at endingEq
    split at endingEq
    · rename_i held
      rw [held, Except.ok.inj endingEq]
    · cases endingEq
    · cases endingEq
  have govHeld : store.get? GovState.nsKey = some (.gov gov) := by
    unfold loadGov at isGov
    split at isGov
    · rename_i held
      rw [held, Except.ok.inj isGov]
    · cases isGov
    · cases isGov
  have unstarted := ready.unstarted ending endingEq
  refine ⟨⟨fun _ _ _ _ => rfl, fun _ _ below => absurd below (Nat.not_lt_zero _),
    fun _ _ below => absurd below (Nat.not_lt_zero _), ?_, govHeld⟩, endingEq, isGov⟩
  rw [epochHeld]
  have noFigures : (fun stats : EndStats => (figuresOf store (EwrapShard.preBabbage ending) []
      []).addTo stats) = id := by
    funext stats
    cases EwrapShard.preBabbage ending <;> rfl
  have statsEq : ending.endStats.map (fun stats : EndStats =>
      (figuresOf store (EwrapShard.preBabbage ending) [] []).addTo stats) = ending.endStats := by
    rw [noFigures, Option.map_id_fun, id]
  have same : ending = { ending with
      endStats := ending.endStats.map (fun stats : EndStats =>
        (figuresOf store (EwrapShard.preBabbage ending) [] []).addTo stats)
      ewrapProgress := none } := by
    rw [statsEq, ← unstarted]
  exact congrArg (fun epoch => some (CardanoEntity.epoch epoch)) same

/-- The singletons are written once the accounts of a shard are. -/
def ShardLoad.written (load : ShardLoad) (store streamed : OrderedMap NsKey CardanoEntity)
    (totalShards shardIndex : ℕ) : OrderedMap NsKey CardanoEntity :=
  let work := EwrapShard.compute store load.work.endingState (shardRanges totalShards shardIndex)
  let after := load.workAfter store totalShards (shardIndex + 1)
  ((work.deletePending streamed).insert EpochState.nsKey (.epoch after.endingState)).insert
    GovState.nsKey (.gov after.gov)

/-- The deltas of a shard. -/
def ShardLoad.shardDeltas (load : ShardLoad) (store : OrderedMap NsKey CardanoEntity)
    (totalShards shardIndex : ℕ) : List AccountDelta :=
  let rows := accountRowsIn store (shardRanges totalShards shardIndex)
  (rows.filterMap (assignmentOf (rewardRow store))).map AccountDelta.assignRewards ++
    (rows.flatMap load.drops).map DelegationDrop.toDelta

theorem advance_progressAfter :
    ShardProgress.advance (ShardLoad.progressAfter totalShards shardIndex) shardIndex totalShards =
      ShardLoad.progressAfter totalShards (shardIndex + 1) := by
  unfold ShardProgress.advance ShardLoad.progressAfter
  by_cases first : shardIndex = 0
  · simp [first]
  · simp [first]

/-- Without an end the epoch takes no figures. -/
theorem EWrapProgress.apply_unseeded {epoch : EpochState} {delta : EWrapProgress}
    {advanced : ShardProgress} (unseeded : epoch.endStats = none)
    (isNext : ShardProgress.advance epoch.ewrapProgress delta.completedShardIndex
      delta.totalShards = some advanced) (result : EWrapProgress × Option EpochState) :
    EntityDelta.apply delta (some epoch) ≠ .ok result := by
  intro applied
  simp only [EntityDelta.apply, expect_some, ok_bind, isNext, unseeded] at applied
  cases applied

theorem GovDistrAccumulate.apply_merges {gov : GovState} {delta : GovDistrAccumulate}
    (counts : delta.skips gov.distr = false) :
    EntityDelta.apply delta (some gov) = .ok ({ delta with prev := gov.distr, applied := true },
      some { gov with distr := some (delta.merged (delta.target gov.distr)) }) := by
  simp only [EntityDelta.apply, expect_some, ok_bind, counts, Bool.false_eq_true, if_false]

/-- The epoch takes the figures of a shard when ESTART has seeded its end. -/
theorem apply_progress_iff {figures : ShardFigures} {result : Option EpochState}
    (figuresEq : figures = figuresOf store (EwrapShard.preBabbage load.work.endingState)
      (accountRowsIn store (shardRanges totalShards shardIndex))
      (pendingRowsIn store (shardRanges totalShards shardIndex))) :
    (∃ delta, EntityDelta.apply (EWrapProgress.new figures.effective figures.toTreasury
        figures.toReserves shardIndex totalShards)
        (some (load.workAfter store totalShards shardIndex).endingState) = .ok (delta, result)) ↔
      load.work.endingState.endStats.isSome ∧
        result = some (load.workAfter store totalShards (shardIndex + 1)).endingState := by
  have advanced := @advance_progressAfter totalShards shardIndex
  have progress : ShardLoad.progressAfter totalShards (shardIndex + 1) =
      some ⟨shardIndex + 1, totalShards⟩ := rfl
  cases seeded : load.work.endingState.endStats with
  | none =>
      have missing : (load.workAfter store totalShards shardIndex).endingState.endStats = none := by
        change load.work.endingState.endStats.map _ = none
        rw [seeded]
        rfl
      have refused := @EWrapProgress.apply_unseeded _ (.new figures.effective figures.toTreasury
        figures.toReserves shardIndex totalShards) _ missing (advanced.trans progress)
      constructor
      · rintro ⟨delta, applied⟩
        exact absurd applied (refused _)
      · rintro ⟨isSome, -⟩
        cases isSome
  | some stats =>
      have held : (load.workAfter store totalShards shardIndex).endingState.endStats =
          some ((load.figuresBefore store totalShards shardIndex).addTo stats) := by
        change load.work.endingState.endStats.map _ = _
        rw [seeded]
        rfl
      have added : (load.workAfter store totalShards (shardIndex + 1)).endingState.endStats =
          some (figures.addTo ((load.figuresBefore store totalShards shardIndex).addTo stats)) := by
        change load.work.endingState.endStats.map _ = _
        rw [seeded, Option.map_some, ShardLoad.figuresBefore, accountsBefore_succ,
          rewardsBefore_succ, figuresOf_append, figuresEq]
        rfl
      have applied := EWrapProgress.apply_next
        (EWrapProgress.new figures.effective figures.toTreasury figures.toReserves shardIndex
          totalShards) held (advanced.trans progress)
      have nextEq : { (load.workAfter store totalShards shardIndex).endingState with
            endStats := some (figures.addTo
              ((load.figuresBefore store totalShards shardIndex).addTo stats))
            ewrapProgress := some ⟨shardIndex + 1, totalShards⟩ } =
          (load.workAfter store totalShards (shardIndex + 1)).endingState := by
        rw [← added]
        rfl
      constructor
      · rintro ⟨delta, isApplied⟩
        rw [applied] at isApplied
        refine ⟨rfl, ?_⟩
        rw [← nextEq]
        exact (congrArg Prod.snd (Except.ok.inj isApplied)).symm
      · rintro ⟨-, rfl⟩
        rw [← nextEq]
        exact ⟨_, applied⟩

/-- The first shard of a boundary opens its distributions. -/
theorem merges_first {held : Option GovDistr} {closing : ℕ}
    (older : ∀ distr, held = some distr → distr.closingEpoch < closing) (sums : DistrSums) :
    let delta := GovDistrAccumulate.new closing 0 totalShards sums.drepDistr sums.poolDistr
      sums.poolTotal
    delta.skips held = false ∧ delta.merged (delta.target held) =
      (DistrScan.mergeSums .default sums).distrOf closing 1 totalShards := by
  intro delta
  cases held with
  | none => exact ⟨rfl, rfl⟩
  | some distr =>
      have isOlder := older distr rfl
      have apart : distr.closingEpoch ≠ delta.closingEpoch := Nat.ne_of_lt isOlder
      have notLater : ¬ distr.closingEpoch > delta.closingEpoch := Nat.not_lt.mpr isOlder.le
      refine ⟨?_, ?_⟩
      · rw [GovDistrAccumulate.skips, if_neg apart, if_neg notLater]
        rfl
      · rw [GovDistrAccumulate.target, if_neg apart]
        rfl

/-- Every other shard is merged into them. -/
theorem merges_later (closing : ℕ) (before sums : DistrSums) :
    let delta := GovDistrAccumulate.new closing shardIndex totalShards sums.drepDistr
      sums.poolDistr sums.poolTotal
    let held := before.distrOf closing shardIndex totalShards
    delta.skips (some held) = false ∧ delta.merged (delta.target (some held)) =
      (DistrScan.mergeSums before sums).distrOf closing (shardIndex + 1) totalShards := by
  intro delta held
  have same : held.closingEpoch = delta.closingEpoch := rfl
  refine ⟨?_, ?_⟩
  · rw [GovDistrAccumulate.skips, if_pos same]
    simp [held, delta, DistrSums.distrOf, GovDistrAccumulate.new]
  · rw [GovDistrAccumulate.target, if_pos same]
    rfl

theorem distrAfter_of {snapshotEpoch : ℕ}
    (snapshot : load.work.distrSnapshotEpoch = some snapshotEpoch) (later : shardIndex ≠ 0) :
    load.distrAfter store totalShards shardIndex =
      some ((load.scan.shardSums snapshotEpoch (paidBefore store totalShards shardIndex)).distrOf
        load.work.closing shardIndex totalShards) := by
  rw [ShardLoad.distrAfter, if_neg later, snapshot]

/-- Governance takes the distributions of a shard. -/
theorem commitGov_after (ready : ShardsReady store)
    (epochEq : loadEpoch store = .ok load.work.endingState)
    (govEq : loadGov store = .ok load.work.gov) :
    load.commitGov shardIndex totalShards
        ((accountRowsIn store (shardRanges totalShards shardIndex)).map fun row =>
          (row.2, paidFor (rewardRow store) row))
        (load.workAfter store totalShards shardIndex).gov =
      .ok (load.workAfter store totalShards (shardIndex + 1)).gov := by
  have distrEq : ∀ count, (load.workAfter store totalShards count).gov =
      { load.work.gov with distr := load.distrAfter store totalShards count } := fun _ => rfl
  unfold ShardLoad.commitGov DistrScan.shardDelta
  cases snapshot : load.work.distrSnapshotEpoch with
  | none =>
      have scanned : load.scan.work.distrSnapshotEpoch = none := snapshot
      rw [scanned, distrEq, distrEq]
      simp only [Option.map_none, ShardLoad.distrAfter, snapshot, ite_self]
  | some snapshotEpoch =>
      have scanned : load.scan.work.distrSnapshotEpoch = some snapshotEpoch := snapshot
      let added := load.scan.shardSums snapshotEpoch
        ((accountRowsIn store (shardRanges totalShards shardIndex)).map fun row =>
          (row.2, paidFor (rewardRow store) row))
      let before := load.scan.shardSums snapshotEpoch (paidBefore store totalShards shardIndex)
      have sums : load.scan.shardSums snapshotEpoch (paidBefore store totalShards
          (shardIndex + 1)) = DistrScan.mergeSums before added := by
        rw [paidBefore, accountsBefore_succ, List.map_append, DistrScan.shardSums_append]
        rfl
      have after := @distrAfter_of load store totalShards (shardIndex + 1) _ snapshot
        (Nat.succ_ne_zero shardIndex)
      have merges : (GovDistrAccumulate.new load.work.closing shardIndex totalShards
            added.drepDistr added.poolDistr added.poolTotal).skips
              (load.distrAfter store totalShards shardIndex) = false ∧
          some ((GovDistrAccumulate.new load.work.closing shardIndex totalShards
            added.drepDistr added.poolDistr added.poolTotal).merged
              ((GovDistrAccumulate.new load.work.closing shardIndex totalShards
                added.drepDistr added.poolDistr added.poolTotal).target
                  (load.distrAfter store totalShards shardIndex))) =
            load.distrAfter store totalShards (shardIndex + 1) := by
        rw [after, sums]
        by_cases first : shardIndex = 0
        · subst first
          have older : ∀ distr, load.distrAfter store totalShards 0 = some distr →
              distr.closingEpoch < load.work.closing := by
            intro distr held
            exact ready.older _ _ distr epochEq govEq held
          rcases @merges_first totalShards _ _ older added with ⟨counts, merged⟩
          exact ⟨counts, congrArg some merged⟩
        · rw [distrAfter_of snapshot first]
          rcases @merges_later totalShards shardIndex load.work.closing before added with
            ⟨counts, merged⟩
          exact ⟨counts, congrArg some merged⟩
      have applied := @GovDistrAccumulate.apply_merges
        (load.workAfter store totalShards shardIndex).gov _ merges.1
      rw [scanned]
      refine (bind_eq_ok.mpr ⟨_, applied, ?_⟩)
      rw [distrEq (shardIndex + 1), ← merges.2]
      rfl

/-- What a shard commits, by the store the run began with. -/
theorem runEwrapShard_iff [AddressDecoding] {eras : BoundaryEras} (ready : ShardsReady store)
    (loaded : ShardLoad.ofStore eras store = .ok load) (valid : ValidShards totalShards)
    (below : shardIndex < totalShards)
    (closed : ClosedUpTo load store totalShards shardIndex current) :
    runEwrapShard eras totalShards current shardIndex = .ok next ↔
      load.work.endingState.endStats.isSome ∧ ∃ streamed,
        streamAndApply (load.shardDeltas store totalShards shardIndex)
            (accountRowsIn store (shardRanges totalShards shardIndex)) current = .ok streamed ∧
          next = load.written store streamed totalShards shardIndex := by
  have start := @ClosedUpTo.start _ _ totalShards _ _ ready loaded
  have isRanges := shardRanges_ok valid below
  rcases closed.rows valid below with ⟨sameAccounts, sameRewards⟩
  let stirred := load.stirred (load.statsAfter store totalShards shardIndex)
    (ShardLoad.progressAfter totalShards shardIndex) (load.distrAfter store totalShards shardIndex)
  let work := EwrapShard.compute store load.work.endingState (shardRanges totalShards shardIndex)
  have epochEq : loadEpoch current = .ok stirred.work.endingState := by
    rw [loadEpoch, closed.epoch]
    rfl
  have govEq : loadGov current = .ok stirred.work.gov := by
    rw [loadGov, closed.gov]
    rfl
  have reloaded : ShardLoad.ofStore eras current = .ok stirred :=
    ShardLoad.ofStore_moved loaded closed.moved epochEq govEq
  have sameWork : EwrapShard.compute current stirred.work.endingState
      (shardRanges totalShards shardIndex) = work := by
    have unfolded : ∀ (table : OrderedMap NsKey CardanoEntity) (ending : EpochState),
        EwrapShard.compute table ending (shardRanges totalShards shardIndex) =
          ((accountRowsIn table (shardRanges totalShards shardIndex)).foldl
            EwrapShard.visitAccount ⟨.fromPending (.ofList
              ((pendingRowsIn table (shardRanges totalShards shardIndex)).map fun row =>
                (row.credential, Reward.fromPendingState row))), [], [], []⟩).flush
            (EwrapShard.preBabbage ending) := fun _ _ => rfl
    rw [unfolded, sameAccounts, sameRewards]
    exact (unfolded store load.work.endingState).symm
  have samePaid : ShardLoad.paidAccounts current (shardRanges totalShards shardIndex) =
      ShardLoad.paidAccounts store (shardRanges totalShards shardIndex) := by
    have unfolded : ∀ table : OrderedMap NsKey CardanoEntity,
        ShardLoad.paidAccounts table (shardRanges totalShards shardIndex) =
          ((accountRowsIn table (shardRanges totalShards shardIndex)).foldl ShardLoad.visitPaid
            (⟨.fromPending (.ofList
              ((pendingRowsIn table (shardRanges totalShards shardIndex)).map fun row =>
                (row.credential, Reward.fromPendingState row))), [], [], []⟩, [])).2 :=
      fun _ => rfl
    rw [unfolded, sameAccounts, sameRewards]
    exact (unfolded store).symm
  rcases compute_spec load.work.endingState ready.written ready.keyed isRanges
    (ready.fits_shard valid below) with ⟨deltasEq, progressEq, paidEq⟩
  have queueEq : work.deltas.map AccountDelta.assignRewards ++
      ((accountRowsIn store (shardRanges totalShards shardIndex)).flatMap load.drops).map
        DelegationDrop.toDelta = load.shardDeltas store totalShards shardIndex := by
    rw [show work.deltas = _ from deltasEq]
    rfl
  have govAfter := @commitGov_after load store totalShards shardIndex ready start.2.1 start.2.2
  have govDone : stirred.commitGov shardIndex totalShards
      (ShardLoad.paidAccounts current (shardRanges totalShards shardIndex)) stirred.work.gov =
        .ok (load.workAfter store totalShards (shardIndex + 1)).gov := by
    rw [samePaid, paidEq]
    exact govAfter
  have epochDone := fun result => @apply_progress_iff load store totalShards shardIndex _ result rfl
  have accountsDone : ∀ after, ewrapShard stirred.drops stirred.work.endingState totalShards
      current shardIndex = .ok after ↔ ∃ streamed,
        streamAndApply (load.shardDeltas store totalShards shardIndex)
            (accountRowsIn store (shardRanges totalShards shardIndex)) current = .ok streamed ∧
          after = work.deletePending streamed := by
    intro after
    have unfolded : ewrapShard stirred.drops stirred.work.endingState totalShards current
        shardIndex = (do
          let written ← streamAndApply (work.deltas.map AccountDelta.assignRewards ++
            ((accountRowsIn store (shardRanges totalShards shardIndex)).flatMap load.drops).map
              DelegationDrop.toDelta)
            (accountRowsIn store (shardRanges totalShards shardIndex)) current
          .ok (work.deletePending written)) := by
      rw [ewrapShard, isRanges, ok_bind, sameAccounts, sameWork]
      rfl
    rw [unfolded, queueEq, bind_eq_ok]
    constructor
    · rintro ⟨streamed, isStreamed, afterEq⟩
      exact ⟨streamed, isStreamed, (Except.ok.inj afterEq).symm⟩
    · rintro ⟨streamed, isStreamed, rfl⟩
      exact ⟨streamed, isStreamed, rfl⟩
  have progressDone : ∀ result, (∃ delta, EntityDelta.apply
      (work.progress shardIndex totalShards) (some stirred.work.endingState) =
        .ok (delta, result)) ↔ load.work.endingState.endStats.isSome ∧
          result = some (load.workAfter store totalShards (shardIndex + 1)).endingState := by
    intro result
    rw [show work.progress shardIndex totalShards = _ from progressEq]
    exact epochDone result
  rw [runEwrapShard, reloaded, ok_bind, mapError_eq_ok, ShardLoad.commit, isRanges, ok_bind,
    sameWork, bind_eq_ok]
  constructor
  · rintro ⟨after, isAfter, withAfter⟩
    rcases bind_eq_ok.mp withAfter with ⟨⟨delta, epoch⟩, isEpoch, withEpoch⟩
    rcases bind_eq_ok.mp withEpoch with ⟨gov, isGov, nextEq⟩
    rcases (accountsDone after).mp isAfter with ⟨streamed, isStreamed, rfl⟩
    rcases (progressDone epoch).mp ⟨delta, isEpoch⟩ with ⟨seeded, rfl⟩
    rcases Except.ok.inj (isGov.symm.trans govDone) with rfl
    exact ⟨seeded, streamed, isStreamed, (Except.ok.inj nextEq).symm⟩
  · rintro ⟨seeded, streamed, isStreamed, rfl⟩
    rcases (progressDone _).mpr ⟨seeded, rfl⟩ with ⟨delta, isEpoch⟩
    exact ⟨_, (accountsDone _).mpr ⟨streamed, isStreamed, rfl⟩,
      bind_eq_ok.mpr ⟨_, isEpoch, bind_eq_ok.mpr ⟨_, govDone, rfl⟩⟩⟩

theorem Touched.succ {index : NsKey} (touched : Touched store totalShards shardIndex index) :
    Touched store totalShards (shardIndex + 1) index := by
  rcases touched with ⟨account, isKey, held, below⟩ | ⟨row, isKey, held, below⟩
  · exact Or.inl ⟨account, isKey, held, Nat.lt_succ_of_lt below⟩
  · exact Or.inr ⟨row, isKey, held, Nat.lt_succ_of_lt below⟩

theorem get?_written {streamed : OrderedMap NsKey CardanoEntity} {index : NsKey}
    (notEpoch : index ≠ EpochState.nsKey) (notGov : index ≠ GovState.nsKey) :
    (load.written store streamed totalShards shardIndex).get? index =
      if index ∈ (EwrapShard.compute store load.work.endingState
          (shardRanges totalShards shardIndex)).deletions then none
      else streamed.get? index := by
  rw [ShardLoad.written, OrderedMap.get?_insert, if_neg notGov, OrderedMap.get?_insert,
    if_neg notEpoch, EwrapShard.deletePending, OrderedMap.get?_eraseAll]
  split_ifs <;> rfl

/-- One shard takes the store from the shards before it to the shards up to it. -/
theorem ClosedUpTo.step (ready : ShardsReady store) (valid : ValidShards totalShards)
    (below : shardIndex < totalShards)
    (closed : ClosedUpTo load store totalShards shardIndex current)
    {streamed : OrderedMap NsKey CardanoEntity}
    (isStreamed : streamAndApply (load.shardDeltas store totalShards shardIndex)
      (accountRowsIn store (shardRanges totalShards shardIndex)) current = .ok streamed) :
    (∀ row ∈ accountRowsIn store (shardRanges totalShards shardIndex),
      ∃ after, applyAll (some row.2) (load.queued store row) = .ok after) ∧
    ClosedUpTo load store totalShards (shardIndex + 1)
      (load.written store streamed totalShards shardIndex) := by
  have isRanges := shardRanges_ok valid below
  have nodup := ready.keyed.nodup_rows isRanges
  have rowsHeld : ∀ row ∈ accountRowsIn store (shardRanges totalShards shardIndex),
      current.get? (toLex (.accounts, row.1)) = some (.account row.2) := by
    intro row member
    rw [← (closed.rows valid below).1] at member
    exact (mem_accountRowsIn.mp member).1
  rcases get?_streamAndApply nodup rowsHeld isStreamed with ⟨inRows, outside⟩
  have deleted := @mem_deletions store _ shardIndex totalShards load.work.endingState ready.written
    isRanges
  have deletedNs : ∀ index ∈ (EwrapShard.compute store load.work.endingState
      (shardRanges totalShards shardIndex)).deletions, (ofLex index).1 = .pendingRewards := by
    intro index member
    rcases deleted.mp member with ⟨row, -, rfl⟩
    rfl
  have inShard : ∀ credential : StakeCredential,
      ((shardRanges totalShards shardIndex).any fun range => range.contains credential.key) =
        decide (shardOf totalShards credential = shardIndex) := any_contains isRanges
  refine ⟨?_, ⟨?_, ?_, ?_, ?_, ?_⟩⟩
  · intro row member
    rcases inRows row member with ⟨after, applied, -⟩
    rw [ShardLoad.shardDeltas, groupOf_shard nodup member] at applied
    exact ⟨after, applied⟩
  · intro index untouched notEpoch notGov
    have notDeleted : index ∉ (EwrapShard.compute store load.work.endingState
        (shardRanges totalShards shardIndex)).deletions := by
      intro member
      rcases deleted.mp member with ⟨row, isRow, rfl⟩
      rcases ready.written.mem_rows.mp isRow with ⟨held, contained⟩
      rw [inShard, decide_eq_true_iff] at contained
      exact untouched (Or.inr ⟨row, rfl, held, by omega⟩)
    have notRow : ∀ row ∈ accountRowsIn store (shardRanges totalShards shardIndex),
        index ≠ toLex (.accounts, row.1) := by
      rintro row member rfl
      rcases mem_accountRowsIn.mp member with ⟨held, -⟩
      have own := ready.keyed _ _ held
      have isShard := ready.keyed.shardOf_row isRanges member
      rw [own] at untouched held
      exact untouched (Or.inl ⟨row.2, rfl, held, by omega⟩)
    rw [get?_written notEpoch notGov, if_neg notDeleted, outside index notRow]
    exact closed.kept index (fun touched => untouched touched.succ) notEpoch notGov
  · intro account held early
    have notDeleted : AccountState.nsKey account.credential ∉ (EwrapShard.compute store
        load.work.endingState (shardRanges totalShards shardIndex)).deletions := by
      intro member
      cases deletedNs _ member
    rw [get?_written (by intro same; cases same) (by intro same; cases same), if_neg notDeleted]
    by_cases isShard : shardOf totalShards account.credential = shardIndex
    · have member : (account.credential.key, account) ∈
          accountRowsIn store (shardRanges totalShards shardIndex) := by
        refine mem_accountRowsIn.mpr ⟨held, ?_⟩
        rw [inShard]
        exact decide_eq_true isShard
      rcases inRows _ member with ⟨row, applied, finalEq⟩
      rw [ShardLoad.shardDeltas, groupOf_shard nodup member] at applied
      rcases SameOwner.applyAll applied with ⟨after, rfl, -⟩
      exact ⟨after, applied, finalEq⟩
    · rcases closed.settled account held (by omega) with ⟨after, applied, isAfter⟩
      refine ⟨after, applied, ?_⟩
      rw [outside _ ?_, isAfter]
      intro row member same
      have sameKey : account.credential.key = row.1 :=
        congrArg (fun index : NsKey => (ofLex index).2) same
      have contained := (mem_accountRowsIn.mp member).2
      rw [← sameKey, inShard, decide_eq_true_iff] at contained
      exact isShard contained
  · intro row held early
    rw [get?_written (by intro same; cases same) (by intro same; cases same)]
    split_ifs with isDeleted
    · rfl
    · by_cases isShard : shardOf totalShards row.credential = shardIndex
      · refine absurd (deleted.mpr ⟨row, ready.written.mem_rows.mpr ⟨held, ?_⟩, rfl⟩) isDeleted
        rw [inShard]
        exact decide_eq_true isShard
      · rw [outside _ (by intro other _ same; cases same)]
        exact closed.gone row held (by omega)
  · rw [ShardLoad.written, OrderedMap.get?_insert, if_neg (by intro same; cases same),
      OrderedMap.get?_insert_self]
  · rw [ShardLoad.written, OrderedMap.get?_insert_self]

theorem runEwrapShard_runs [AddressDecoding] {eras : BoundaryEras} (ready : ShardsReady store)
    (loaded : ShardLoad.ofStore eras store = .ok load) (valid : ValidShards totalShards)
    (below : shardIndex < totalShards)
    (closed : ClosedUpTo load store totalShards shardIndex current)
    (fits : load.ShardFits store totalShards shardIndex) :
    ∃ next, runEwrapShard eras totalShards current shardIndex = .ok next := by
  have nodup := ready.keyed.nodup_rows (shardRanges_ok valid below)
  have settle : ∀ row ∈ accountRowsIn store (shardRanges totalShards shardIndex), ∃ after,
      applyAll (some row.2) (groupOf (load.shardDeltas store totalShards shardIndex) row.1) =
        .ok after := by
    intro row member
    rw [ShardLoad.shardDeltas, groupOf_shard nodup member]
    exact fits.settles row member
  rcases streamAndApply_runs settle current with ⟨streamed, isStreamed⟩
  exact ⟨_, (runEwrapShard_iff ready loaded valid below closed).mpr
    ⟨fits.seeded, streamed, isStreamed, rfl⟩⟩

end ClosedUpTo

section Cuts

variable {load : ShardLoad} {store final last : OrderedMap NsKey CardanoEntity}
  {totalShards other : ℕ}

/-- Every shard of another cut fits when those of one cut do. -/
theorem fits_of_fits (keyed : AccountsKeyed store) (valid : ValidShards totalShards)
    (fits : ∀ shard < totalShards, load.ShardFits store totalShards shard) :
    ∀ shard < other, load.ShardFits store other shard := by
  intro shard below
  have seeded := (fits 0 valid.nonzero).seeded
  refine ⟨?_, seeded⟩
  intro row member
  have held := (mem_accountRowsIn.mp member).1
  have early := shardOf_lt valid row.2.credential
  refine (fits _ early).settles row (mem_accountRowsIn.mpr ⟨held, ?_⟩)
  rw [keyed _ _ held, any_contains (shardRanges_ok valid early)]
  exact decide_eq_true rfl

theorem touched_iff (valid : ValidShards totalShards) (validOther : ValidShards other)
    {index : NsKey} :
    Touched store totalShards totalShards index ↔ Touched store other other index := by
  have all : ∀ {count : ℕ}, ValidShards count → (Touched store count count index ↔
      (∃ account, index = AccountState.nsKey account.credential ∧
        store.get? index = some (.account account)) ∨
      ∃ row, index = PendingRewardState.nsKey row.credential ∧
        store.get? index = some (.pendingReward row)) := by
    intro count validCount
    simp only [Touched, shardOf_lt validCount, and_true]
  rw [all valid, all validOther]

/-- The figures of all rows do not depend on the cut. -/
theorem statsAfter_all (ready : ShardsReady store) (valid : ValidShards totalShards)
    (validOther : ValidShards other) :
    load.statsAfter store other other = load.statsAfter store totalShards totalShards := by
  have accounts := accounts_perm ready.keyed valid validOther
  have rewards := rewards_perm ready.written valid validOther
  rw [ShardLoad.statsAfter, ShardLoad.statsAfter, ShardLoad.figuresBefore,
    ShardLoad.figuresBefore, figuresOf_perm store _ accounts rewards]

/-- Nor do the distributions. -/
theorem distrAfter_all (ready : ShardsReady store) (valid : ValidShards totalShards)
    (validOther : ValidShards other) :
    (load.distrAfter store other other).map GovDistr.withoutCursors =
      (load.distrAfter store totalShards totalShards).map GovDistr.withoutCursors := by
  cases snapshot : load.work.distrSnapshotEpoch with
  | none => simp only [ShardLoad.distrAfter, snapshot, ite_self]
  | some snapshotEpoch =>
      have paid : (paidBefore store other other).Perm
          (paidBefore store totalShards totalShards) :=
        (accounts_perm ready.keyed valid validOther).map _
      rw [distrAfter_of snapshot (Nat.one_le_iff_ne_zero.mp valid.nonzero),
        distrAfter_of snapshot (Nat.one_le_iff_ne_zero.mp validOther.nonzero),
        DistrScan.shardSums_perm snapshotEpoch paid]
      simp [GovDistr.withoutCursors, DistrSums.distrOf]

theorem ClosedUpTo.sameElsewhere (valid : ValidShards totalShards)
    (validOther : ValidShards other)
    (closed : ClosedUpTo load store totalShards totalShards final)
    (closedOther : ClosedUpTo load store other other last) {index : NsKey}
    (notEpoch : index ≠ EpochState.nsKey) (notGov : index ≠ GovState.nsKey) :
    last.get? index = final.get? index := by
  by_cases touched : Touched store totalShards totalShards index
  · rcases touched with ⟨account, rfl, held, below⟩ | ⟨row, rfl, held, below⟩
    · rcases closed.settled account held below with ⟨after, applied, isAfter⟩
      rcases closedOther.settled account held (shardOf_lt validOther _) with
        ⟨afterOther, appliedOther, isAfterOther⟩
      rcases Except.ok.inj (applied.symm.trans appliedOther) with ⟨⟩
      rw [isAfter, isAfterOther]
    · rw [closed.gone row held below, closedOther.gone row held (shardOf_lt validOther _)]
  · have untouched := mt (touched_iff valid validOther).mpr touched
    rw [closed.kept index touched notEpoch notGov,
      closedOther.kept index untouched notEpoch notGov]

theorem ClosedUpTo.same (ready : ShardsReady store) (valid : ValidShards totalShards)
    (validOther : ValidShards other)
    (closed : ClosedUpTo load store totalShards totalShards final)
    (closedOther : ClosedUpTo load store other other last) : SameButCursors final last := by
  intro index
  by_cases isEpoch : index = EpochState.nsKey
  · rw [isEpoch, closed.epoch, closedOther.epoch]
    exact congrArg (fun ended => some (CardanoEntity.epoch { load.work.endingState with
      endStats := ended, ewrapProgress := none, estartProgress := none }))
      (statsAfter_all ready valid validOther)
  · by_cases isGov : index = GovState.nsKey
    · rw [isGov, closed.gov, closedOther.gov]
      exact congrArg (fun held => some (CardanoEntity.gov { load.work.gov with distr := held }))
        (distrAfter_all ready valid validOther)
    · exact congrArg (Option.map _)
        (closed.sameElsewhere valid validOther closedOther isEpoch isGov)

end Cuts

section Runs

variable [AddressDecoding] {eras : BoundaryEras} {load : ShardLoad}
  {store current final : OrderedMap NsKey CardanoEntity} {totalShards other shardIndex : ℕ}

/-- The first shards of a run, one after another. -/
theorem closedUpTo_of_runs (ready : ShardsReady store)
    (loaded : ShardLoad.ofStore eras store = .ok load) (valid : ValidShards totalShards)
    (below : shardIndex ≤ totalShards)
    (ran : (List.range shardIndex).foldlM (runEwrapShard eras totalShards) store = .ok current) :
    (∀ shard < shardIndex, load.ShardFits store totalShards shard) ∧
      ClosedUpTo load store totalShards shardIndex current := by
  induction shardIndex generalizing current with
  | zero =>
      rcases Except.ok.inj ran with rfl
      exact ⟨fun shard early => absurd early (Nat.not_lt_zero _),
        (ClosedUpTo.start ready loaded).1⟩
  | succ shard ih =>
      rw [List.range_succ, List.foldlM_append] at ran
      rcases bind_eq_ok.mp ran with ⟨middle, firsts, lastRan⟩
      rw [List.foldlM_cons] at lastRan
      rcases bind_eq_ok.mp lastRan with ⟨after, oneRan, afterEq⟩
      rcases Except.ok.inj afterEq with rfl
      rcases ih (by omega) firsts with ⟨fits, closed⟩
      rcases (runEwrapShard_iff ready loaded valid below closed).mp oneRan with
        ⟨seeded, streamed, isStreamed, rfl⟩
      rcases closed.step ready valid below isStreamed with ⟨settles, next⟩
      refine ⟨?_, next⟩
      intro earlier early
      rcases Nat.lt_succ_iff_lt_or_eq.mp early with isBefore | rfl
      · exact fits earlier isBefore
      · exact ⟨settles, seeded⟩

theorem runs_of_fits (ready : ShardsReady store)
    (loaded : ShardLoad.ofStore eras store = .ok load) (valid : ValidShards totalShards)
    (fits : ∀ shard < totalShards, load.ShardFits store totalShards shard)
    (below : shardIndex ≤ totalShards) :
    ∃ current, (List.range shardIndex).foldlM (runEwrapShard eras totalShards) store =
      .ok current := by
  induction shardIndex with
  | zero => exact ⟨store, rfl⟩
  | succ shard ih =>
      rcases ih (by omega) with ⟨middle, firsts⟩
      have closed := (closedUpTo_of_runs ready loaded valid (by omega) firsts).2
      rcases runEwrapShard_runs ready loaded valid below closed (fits shard below) with
        ⟨next, oneRan⟩
      refine ⟨next, ?_⟩
      rw [List.range_succ, List.foldlM_append]
      exact bind_eq_ok.mpr ⟨middle, firsts, bind_eq_ok.mpr ⟨next, oneRan, rfl⟩⟩

/-- A run that went through was loaded. -/
theorem loaded_of_runs (valid : ValidShards totalShards)
    (ran : runEwrapShards eras totalShards store = .ok final) :
    ∃ load, ShardLoad.ofStore eras store = .ok load := by
  rcases Nat.exists_eq_succ_of_ne_zero (Nat.one_le_iff_ne_zero.mp valid.nonzero) with ⟨shards, rfl⟩
  rw [runEwrapShards, List.range_succ_eq_map, List.foldlM_cons] at ran
  rcases bind_eq_ok.mp ran with ⟨middle, first, -⟩
  rcases bind_eq_ok.mp first with ⟨load, loaded, -⟩
  exact ⟨load, loaded⟩

/-- Cut into any other number of shards, a boundary that closes closes. -/
theorem closedUpTo_cuts (ready : ShardsReady store) (valid : ValidShards totalShards)
    (validOther : ValidShards other)
    (ran : runEwrapShards eras totalShards store = .ok final) :
    ∃ load last, loadEpoch store = .ok load.work.endingState ∧
      runEwrapShards eras other store = .ok last ∧
      ClosedUpTo load store totalShards totalShards final ∧
      ClosedUpTo load store other other last := by
  rcases loaded_of_runs valid ran with ⟨load, loaded⟩
  rcases closedUpTo_of_runs ready loaded valid (le_refl _) ran with ⟨fits, closed⟩
  rcases runs_of_fits ready loaded validOther (fits_of_fits ready.keyed valid fits)
    (le_refl _) with ⟨last, ranOther⟩
  exact ⟨load, last, (@ClosedUpTo.start load store totalShards _ eras ready loaded).2.1, ranOther,
    closed, (closedUpTo_of_runs ready loaded validOther (le_refl _) ranOther).2⟩

/-- And it closes the same store. -/
theorem ewrapShards_agree (ready : ShardsReady store) (valid : ValidShards totalShards)
    (validOther : ValidShards other)
    (ran : runEwrapShards eras totalShards store = .ok final) :
    ∃ last, runEwrapShards eras other store = .ok last ∧ SameButCursors final last := by
  rcases closedUpTo_cuts ready valid validOther ran with
    ⟨load, last, -, ranOther, closed, closedOther⟩
  exact ⟨last, ranOther, closed.same ready valid validOther closedOther⟩

end Runs

end Dolos
