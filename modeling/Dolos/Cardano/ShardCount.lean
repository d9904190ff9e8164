import Dolos.Cardano.ShardRuns

/-!
# The number of shards does not matter

The shards of the open move every account on once. With those of the close: however many
shards a boundary is cut into, it closes and opens the same store but for the cursors of its
shards, or fails.
-/

namespace Dolos

open Outcome AccountDelta

/-- A store a boundary can begin to open. -/
structure OpenReady (store : OrderedMap NsKey CardanoEntity) : Prop where
  keyed : AccountsKeyed store
  unstarted : ∀ epoch, loadEpoch store = .ok epoch → epoch.estartProgress = none

/-- An account that one of the first shards moves on. -/
def MovesOn (store : OrderedMap NsKey CardanoEntity) (totalShards shardIndex : ℕ) (index : NsKey) :
    Prop :=
  ∃ account, index = AccountState.nsKey account.credential ∧
    store.get? index = some (.account account) ∧ shardOf totalShards account.credential < shardIndex

/-- The store after the first shards of the open. -/
structure OpenedUpTo (ended : EpochState) (store : OrderedMap NsKey CardanoEntity)
    (totalShards shardIndex : ℕ) (current : OrderedMap NsKey CardanoEntity) : Prop where
  kept : ∀ index, ¬ MovesOn store totalShards shardIndex index → index ≠ EpochState.nsKey →
    current.get? index = store.get? index
  moved : ∀ account,
    store.get? (AccountState.nsKey account.credential) = some (.account account) →
    shardOf totalShards account.credential < shardIndex →
    ∃ after, AccountDelta.apply (some account)
        (.accountTransition (.new account.credential.key (ended.number + 1))) = .ok (some after) ∧
      current.get? (AccountState.nsKey account.credential) = some (.account after)
  epoch : current.get? EpochState.nsKey = some (.epoch
    { ended with estartProgress := ShardLoad.progressAfter totalShards shardIndex })

section OpenedUpTo

variable {ended : EpochState} {store current next final last : OrderedMap NsKey CardanoEntity}
  {totalShards other shardIndex : ℕ}

/-- What the shards of the open need of the accounts. -/
def Transitions (ended : EpochState) (rows : List (EntityKey × AccountState)) : Prop :=
  ∀ row ∈ rows, ∃ after, AccountDelta.apply (some row.2)
    (.accountTransition (.new row.1 (ended.number + 1))) = .ok after

theorem loadEpoch_iff {epoch : EpochState} :
    loadEpoch store = .ok epoch ↔ store.get? EpochState.nsKey = some (.epoch epoch) := by
  unfold loadEpoch
  constructor
  · intro loaded
    split at loaded
    · rename_i held
      rw [held, Except.ok.inj loaded]
    · cases loaded
    · cases loaded
  · intro held
    rw [held]

theorem OpenedUpTo.rows (opened : OpenedUpTo ended store totalShards shardIndex current)
    (valid : ValidShards totalShards) (below : shardIndex < totalShards) :
    accountRowsIn current (shardRanges totalShards shardIndex) =
      accountRowsIn store (shardRanges totalShards shardIndex) := by
  refine List.flatMap_congr ?_
  intro range isRange
  apply iterEntityRows_congr
  intro key contained
  refine opened.kept _ ?_ (by intro same; cases same)
  rintro ⟨account, isKey, -, early⟩
  have sameKey : key = account.credential.key :=
    congrArg (fun index : NsKey => (ofLex index).2) isKey
  have inShard := any_contains (shardRanges_ok valid below) account.credential
  rw [← sameKey, List.any_eq_true.mpr ⟨range, isRange, contained⟩] at inShard
  have isShard := of_decide_eq_true inShard.symm
  omega

/-- What a shard of the open commits. -/
theorem runEstartShard_iff (valid : ValidShards totalShards) (below : shardIndex < totalShards)
    (opened : OpenedUpTo ended store totalShards shardIndex current) :
    runEstartShard totalShards current shardIndex = .ok next ↔ ∃ streamed,
      streamAndApply ((accountRowsIn store (shardRanges totalShards shardIndex)).map fun row =>
          .accountTransition (.new row.1 (ended.number + 1)))
          (accountRowsIn store (shardRanges totalShards shardIndex)) current = .ok streamed ∧
        next = streamed.insert EpochState.nsKey (.epoch
          { ended with
            estartProgress := ShardLoad.progressAfter totalShards (shardIndex + 1) }) := by
  have epochEq := loadEpoch_iff.mpr opened.epoch
  have advanced := @advance_progressAfter totalShards shardIndex
  have applied : EntityDelta.apply (EStartProgress.new shardIndex totalShards)
      (some { ended with estartProgress := ShardLoad.progressAfter totalShards shardIndex }) =
        .ok ({ EStartProgress.new shardIndex totalShards with
          applied := true
          prevEstartProgress := ShardLoad.progressAfter totalShards shardIndex },
          some { ended with
            estartProgress := ShardLoad.progressAfter totalShards (shardIndex + 1) }) := by
    have isNext : ShardProgress.advance (ShardLoad.progressAfter totalShards shardIndex)
        (EStartProgress.new shardIndex totalShards).completedShardIndex
        (EStartProgress.new shardIndex totalShards).totalShards =
          some ⟨shardIndex + 1, totalShards⟩ := advanced
    simp only [EntityDelta.apply, expect_some, ok_bind, isNext]
    rfl
  rw [runEstartShard, epochEq, ok_bind, estartShard, shardRanges_ok valid below, ok_bind,
    opened.rows valid below, applied, bind_eq_ok]
  constructor
  · rintro ⟨streamed, isStreamed, nextEq⟩
    exact ⟨streamed, mapError_eq_ok.mp isStreamed, (Except.ok.inj nextEq).symm⟩
  · rintro ⟨streamed, isStreamed, rfl⟩
    exact ⟨streamed, mapError_eq_ok.mpr isStreamed, rfl⟩

theorem applyAll_singleton {account : AccountState} {delta : AccountDelta}
    {result : Option AccountState} : applyAll (some account) [delta] = .ok result ↔
      AccountDelta.apply (some account) delta = .ok result := by
  rw [applyAll, List.foldlM_cons, bind_eq_ok]
  constructor
  · rintro ⟨middle, one, same⟩
    rcases Except.ok.inj same with rfl
    exact one
  · intro one
    exact ⟨result, one, rfl⟩

theorem OpenedUpTo.step (keyed : AccountsKeyed store) (valid : ValidShards totalShards)
    (below : shardIndex < totalShards)
    (opened : OpenedUpTo ended store totalShards shardIndex current)
    {streamed : OrderedMap NsKey CardanoEntity}
    (isStreamed : streamAndApply
      ((accountRowsIn store (shardRanges totalShards shardIndex)).map fun row =>
        .accountTransition (.new row.1 (ended.number + 1)))
      (accountRowsIn store (shardRanges totalShards shardIndex)) current = .ok streamed) :
    Transitions ended (accountRowsIn store (shardRanges totalShards shardIndex)) ∧
    OpenedUpTo ended store totalShards (shardIndex + 1)
      (streamed.insert EpochState.nsKey (.epoch { ended with
        estartProgress := ShardLoad.progressAfter totalShards (shardIndex + 1) })) := by
  have isRanges := shardRanges_ok valid below
  have nodup := keyed.nodup_rows isRanges
  have rowsHeld : ∀ row ∈ accountRowsIn store (shardRanges totalShards shardIndex),
      current.get? (toLex (.accounts, row.1)) = some (.account row.2) := by
    intro row member
    rw [← opened.rows valid below] at member
    exact (mem_accountRowsIn.mp member).1
  rcases get?_streamAndApply nodup rowsHeld isStreamed with ⟨inRows, outside⟩
  have taken : ∀ row ∈ accountRowsIn store (shardRanges totalShards shardIndex), ∃ account,
      AccountDelta.apply (some row.2)
          (.accountTransition (.new row.1 (ended.number + 1))) = .ok account ∧
        streamed.get? (toLex (.accounts, row.1)) = account.map CardanoEntity.account := by
    intro row member
    rcases inRows row member with ⟨account, applied, finalEq⟩
    rw [groupOf_transitions nodup member, applyAll_singleton] at applied
    exact ⟨account, applied, finalEq⟩
  refine ⟨?_, ⟨?_, ?_, ?_⟩⟩
  · intro row member
    rcases taken row member with ⟨account, applied, -⟩
    exact ⟨account, applied⟩
  · intro index stays notEpoch
    rw [OrderedMap.get?_insert, if_neg notEpoch, outside index ?_]
    · refine opened.kept index ?_ notEpoch
      rintro ⟨account, isKey, held, early⟩
      exact stays ⟨account, isKey, held, Nat.lt_succ_of_lt early⟩
    · rintro row member rfl
      have held := (mem_accountRowsIn.mp member).1
      have own := keyed _ _ held
      have isShard := keyed.shardOf_row isRanges member
      rw [own] at stays held
      exact stays ⟨row.2, rfl, held, by omega⟩
  · intro account held early
    rw [OrderedMap.get?_insert, if_neg (by intro same; cases same)]
    by_cases isShard : shardOf totalShards account.credential = shardIndex
    · have member : (account.credential.key, account) ∈
          accountRowsIn store (shardRanges totalShards shardIndex) := by
        refine mem_accountRowsIn.mpr ⟨held, ?_⟩
        rw [any_contains isRanges]
        exact decide_eq_true isShard
      rcases taken _ member with ⟨row, applied, finalEq⟩
      rcases SameOwner.apply applied with ⟨after, rfl, -⟩
      exact ⟨after, applied, finalEq⟩
    · rcases opened.moved account held (by omega) with ⟨after, applied, isAfter⟩
      refine ⟨after, applied, ?_⟩
      rw [outside _ ?_, isAfter]
      intro row member same
      have sameKey : account.credential.key = row.1 :=
        congrArg (fun index : NsKey => (ofLex index).2) same
      have contained := (mem_accountRowsIn.mp member).2
      rw [← sameKey, any_contains isRanges, decide_eq_true_iff] at contained
      exact isShard contained
  · exact OrderedMap.get?_insert_self ..

theorem openedUpTo_of_runs (ready : OpenReady store) (epochEq : loadEpoch store = .ok ended)
    (valid : ValidShards totalShards) (below : shardIndex ≤ totalShards)
    (ran : (List.range shardIndex).foldlM (runEstartShard totalShards) store = .ok current) :
    (∀ shard < shardIndex,
        Transitions ended (accountRowsIn store (shardRanges totalShards shard))) ∧
      OpenedUpTo ended store totalShards shardIndex current := by
  induction shardIndex generalizing current with
  | zero =>
      rcases Except.ok.inj ran with rfl
      have unstarted := ready.unstarted ended epochEq
      refine ⟨fun shard early => absurd early (Nat.not_lt_zero _), fun _ _ _ => rfl,
        fun _ _ early => absurd early (Nat.not_lt_zero _), ?_⟩
      rw [loadEpoch_iff.mp epochEq]
      exact congrArg (fun progress => some (CardanoEntity.epoch
        { ended with estartProgress := progress })) unstarted
  | succ shard ih =>
      rw [List.range_succ, List.foldlM_append] at ran
      rcases bind_eq_ok.mp ran with ⟨middle, firsts, lastRan⟩
      rw [List.foldlM_cons] at lastRan
      rcases bind_eq_ok.mp lastRan with ⟨after, oneRan, afterEq⟩
      rcases Except.ok.inj afterEq with rfl
      rcases ih (by omega) firsts with ⟨fits, opened⟩
      rcases (runEstartShard_iff valid below opened).mp oneRan with ⟨streamed, isStreamed, rfl⟩
      rcases opened.step ready.keyed valid below isStreamed with ⟨transitions, next⟩
      refine ⟨?_, next⟩
      intro earlier early
      rcases Nat.lt_succ_iff_lt_or_eq.mp early with isBefore | rfl
      · exact fits earlier isBefore
      · exact transitions

theorem openRuns_of_fits (ready : OpenReady store) (epochEq : loadEpoch store = .ok ended)
    (valid : ValidShards totalShards)
    (fits : ∀ shard < totalShards,
      Transitions ended (accountRowsIn store (shardRanges totalShards shard)))
    (below : shardIndex ≤ totalShards) :
    ∃ current, (List.range shardIndex).foldlM (runEstartShard totalShards) store =
      .ok current := by
  induction shardIndex with
  | zero => exact ⟨store, rfl⟩
  | succ shard ih =>
      rcases ih (by omega) with ⟨middle, firsts⟩
      have opened := (openedUpTo_of_runs ready epochEq valid (by omega) firsts).2
      have nodup := ready.keyed.nodup_rows (shardRanges_ok valid below)
      have settle : ∀ row ∈ accountRowsIn store (shardRanges totalShards shard), ∃ after,
          applyAll (some row.2) (groupOf
            ((accountRowsIn store (shardRanges totalShards shard)).map fun row =>
              .accountTransition (.new row.1 (ended.number + 1))) row.1) = .ok after := by
        intro row member
        rcases fits shard below row member with ⟨after, applied⟩
        refine ⟨after, ?_⟩
        rw [groupOf_transitions nodup member, applyAll_singleton]
        exact applied
      rcases streamAndApply_runs settle middle with ⟨streamed, isStreamed⟩
      have runsOne : ∃ next, runEstartShard totalShards middle shard = .ok next :=
        ⟨_, (runEstartShard_iff valid below opened).mpr ⟨streamed, isStreamed, rfl⟩⟩
      rcases runsOne with ⟨next, oneRan⟩
      refine ⟨next, ?_⟩
      rw [List.range_succ, List.foldlM_append]
      exact bind_eq_ok.mpr ⟨middle, firsts, bind_eq_ok.mpr ⟨next, oneRan, rfl⟩⟩

theorem seeded_of_openRuns (valid : ValidShards totalShards)
    (ran : runEstartShards totalShards store = .ok final) :
    ∃ ended, loadEpoch store = .ok ended := by
  rcases Nat.exists_eq_succ_of_ne_zero (Nat.one_le_iff_ne_zero.mp valid.nonzero)
    with ⟨shards, rfl⟩
  rw [runEstartShards, List.range_succ_eq_map, List.foldlM_cons] at ran
  rcases bind_eq_ok.mp ran with ⟨middle, first, -⟩
  rcases bind_eq_ok.mp first with ⟨ended, loaded, -⟩
  exact ⟨ended, loaded⟩

/-- Cut into any other number of shards, a boundary that opens opens. -/
theorem openedUpTo_cuts (ready : OpenReady store) (valid : ValidShards totalShards)
    (validOther : ValidShards other) (ran : runEstartShards totalShards store = .ok final) :
    ∃ ended last, runEstartShards other store = .ok last ∧
      OpenedUpTo ended store totalShards totalShards final ∧
      OpenedUpTo ended store other other last := by
  rcases seeded_of_openRuns valid ran with ⟨ended, epochEq⟩
  rcases openedUpTo_of_runs ready epochEq valid (le_refl _) ran with ⟨fits, opened⟩
  have fitsOther : ∀ shard < other,
      Transitions ended (accountRowsIn store (shardRanges other shard)) := by
    intro shard _ row member
    have held := (mem_accountRowsIn.mp member).1
    have early := shardOf_lt valid row.2.credential
    refine fits _ early row (mem_accountRowsIn.mpr ⟨held, ?_⟩)
    rw [ready.keyed _ _ held, any_contains (shardRanges_ok valid early)]
    exact decide_eq_true rfl
  rcases openRuns_of_fits ready epochEq validOther fitsOther (le_refl _) with ⟨last, ranOther⟩
  exact ⟨ended, last, ranOther, opened,
    (openedUpTo_of_runs ready epochEq validOther (le_refl _) ranOther).2⟩

theorem OpenedUpTo.sameElsewhere (valid : ValidShards totalShards)
    (validOther : ValidShards other) (opened : OpenedUpTo ended store totalShards totalShards final)
    (openedOther : OpenedUpTo ended store other other last) {index : NsKey}
    (notEpoch : index ≠ EpochState.nsKey) : last.get? index = final.get? index := by
  by_cases moves : MovesOn store totalShards totalShards index
  · rcases moves with ⟨account, rfl, held, early⟩
    rcases opened.moved account held early with ⟨after, applied, isAfter⟩
    rcases openedOther.moved account held (shardOf_lt validOther _) with
      ⟨afterOther, appliedOther, isAfterOther⟩
    rcases Except.ok.inj (applied.symm.trans appliedOther) with ⟨⟩
    rw [isAfter, isAfterOther]
  · have stays : ¬ MovesOn store other other index := by
      rintro ⟨account, isKey, held, -⟩
      exact moves ⟨account, isKey, held, shardOf_lt valid _⟩
    rw [opened.kept index moves notEpoch, openedOther.kept index stays notEpoch]

/-- And it opens the same store. -/
theorem estartShards_agree (ready : OpenReady store) (valid : ValidShards totalShards)
    (validOther : ValidShards other) (ran : runEstartShards totalShards store = .ok final) :
    ∃ last, runEstartShards other store = .ok last ∧ SameButCursors final last := by
  rcases openedUpTo_cuts ready valid validOther ran with
    ⟨ended, last, ranOther, opened, openedOther⟩
  refine ⟨last, ranOther, ?_⟩
  intro index
  by_cases isEpoch : index = EpochState.nsKey
  · rw [isEpoch, opened.epoch, openedOther.epoch]
    rfl
  · exact congrArg (Option.map _) (opened.sameElsewhere valid validOther openedOther isEpoch)

end OpenedUpTo

/-- Cut into any two numbers of shards, a boundary closes the same store and opens the same
store, or neither. -/
theorem shards_agree [AddressDecoding] (eras : BoundaryEras)
    {store : OrderedMap NsKey CardanoEntity} {totalShards other : ℕ}
    (valid : ValidShards totalShards) (validOther : ValidShards other) :
    (ShardsReady store → ∀ final, runEwrapShards eras totalShards store = .ok final →
        ∃ last, runEwrapShards eras other store = .ok last ∧ SameButCursors final last) ∧
      (OpenReady store → ∀ final, runEstartShards totalShards store = .ok final →
        ∃ last, runEstartShards other store = .ok last ∧ SameButCursors final last) :=
  ⟨fun ready _ ran => ewrapShards_agree ready valid validOther ran,
    fun ready _ ran => estartShards_agree ready valid validOther ran⟩

namespace CutBoundary

attribute [local instance] RewardsContext.stakeAddresses

/-- An account that delegates to a representative that is not registered. -/
def holder (credential : StakeCredential) (stake : ℕ) : AccountState :=
  { AccountState.new 5 credential with
    registeredAt := some 0
    stake := .withLive 5 { Stake.default with utxoSum := stake }
    drep := .withLive 5 (.delegated .abstain) }

def early : StakeCredential := .addrKeyhash 3

/-- The hash starts with the byte 255. -/
def late : StakeCredential := .scriptHash (Fin.ofNat _ (255 * 2 ^ 216))

def ending : EpochState :=
  { RupdWork.epochFive with
    pparams := .withLive 5 ⟨[⟨.protocolVersion, .version 9 0⟩]⟩
    endStats := some EndStats.default }

def entries : List (NsKey × CardanoEntity) :=
  [(AccountState.nsKey early, .account (holder early 4)),
    (AccountState.nsKey late, .account (holder late 9)),
    (PendingRewardState.nsKey late, .pendingReward (.ofReward late OneShard.reward)),
    (EpochState.nsKey, .epoch ending), (GovState.nsKey, .gov changeGov)]

def store : OrderedMap NsKey CardanoEntity := .ofList entries

def eras : BoundaryEras := ⟨RupdWork.conwayEra, 9, fun _ => none⟩

theorem keyed : AccountsKeyed store := by
  intro key held isHeld
  have member := OrderedMap.mem_of_get?_ofList isHeld
  simp only [entries, List.mem_cons, Prod.mk.injEq, List.not_mem_nil, reduceCtorEq, and_false,
    or_false, CardanoEntity.account.injEq] at member
  rcases member with ⟨sameIndex, rfl⟩ | ⟨sameIndex, rfl⟩
  · exact congrArg (fun index : NsKey => (ofLex index).2) sameIndex
  · exact congrArg (fun index : NsKey => (ofLex index).2) sameIndex

theorem written : RewardsWritten store := by
  intro key row isHeld
  have member := OrderedMap.mem_of_get?_ofList isHeld
  simp only [entries, List.mem_cons, Prod.mk.injEq, List.not_mem_nil, reduceCtorEq, and_false,
    or_false, false_or, CardanoEntity.pendingReward.injEq] at member
  exact ⟨late, OneShard.reward,
    congrArg (fun index : NsKey => (ofLex index).2) member.1, member.2⟩

theorem loadEpoch_store : loadEpoch store = .ok ending := by decide +kernel

theorem shards_agree_cut :
    (∃ final last, runEwrapShards eras 2 store = .ok final ∧
        runEwrapShards eras 4 store = .ok last ∧ SameButCursors final last) ∧
      ∃ final last, runEstartShards 2 store = .ok final ∧
        runEstartShards 4 store = .ok last ∧ SameButCursors final last := by
  have agree := @shards_agree _ eras store 2 4 ⟨by decide, by decide⟩ ⟨by decide, by decide⟩
  have atEnding : ∀ epoch, loadEpoch store = .ok epoch → epoch = ending := by
    intro epoch loaded
    exact Except.ok.inj (loaded.symm.trans loadEpoch_store)
  have ready : ShardsReady store := by
    refine ⟨keyed, written, by decide +kernel, ?_, ?_⟩
    · rintro epoch loaded
      rw [atEnding epoch loaded]
      rfl
    · intro epoch gov distr loaded govLoaded held
      have isGov : loadGov store = .ok changeGov := by decide +kernel
      rcases Except.ok.inj (govLoaded.symm.trans isGov) with rfl
      cases held
  have openReady : OpenReady store := by
    refine ⟨keyed, ?_⟩
    intro epoch loaded
    rw [atEnding epoch loaded]
    rfl
  have closes : (runEwrapShards eras 2 store).isOk = true := by decide +kernel
  have opens : (runEstartShards 2 store).isOk = true := by decide +kernel
  refine ⟨?_, ?_⟩
  · cases ran : runEwrapShards eras 2 store with
    | error failure =>
        rw [ran] at closes
        cases closes
    | ok final =>
        rcases agree.1 ready final ran with ⟨last, ranOther, same⟩
        exact ⟨final, last, rfl, ranOther, same⟩
  · cases ran : runEstartShards 2 store with
    | error failure =>
        rw [ran] at opens
        cases opens
    | ok final =>
        rcases agree.2 openReady final ran with ⟨last, ranOther, same⟩
        exact ⟨final, last, rfl, ranOther, same⟩

end CutBoundary

end Dolos
