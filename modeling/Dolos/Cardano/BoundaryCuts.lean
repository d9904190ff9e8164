import Dolos.Cardano.BoundaryCounts
import Dolos.Cardano.CreditLaw

/-!
# A boundary in any number of shards

The close leaves a store that can be opened. Cut into any two numbers of shards, the units of
a boundary end on the same accounts, pools, representatives and proposals, on the same
distributions, the same end of the epoch and the same pots, or neither of them ends.
-/

namespace Dolos

open Outcome AccountDelta

section Relations

variable {first second : OrderedMap NsKey CardanoEntity}
  (opening : Option ShardProgress → Option ShardProgress)

theorem GovDistr.withoutCursors_withoutCursors (distr : GovDistr) :
    distr.withoutCursors.withoutCursors = distr.withoutCursors := by
  by_cases complete : distr.committedShards = distr.totalShards
  · simp [GovDistr.withoutCursors, complete]
  · simp [GovDistr.withoutCursors, complete]

/-- What is forgotten once is forgotten. -/
theorem uncount_uncount {other : Option ShardProgress → Option ShardProgress}
    (absorbs : ∀ progress, opening (other progress) = opening progress)
    (store : OrderedMap NsKey CardanoEntity) :
    uncount opening (uncount other store) = uncount opening store := by
  have sameDistr : ∀ distr : Option GovDistr, (distr.map GovDistr.withoutCursors).map
      GovDistr.withoutCursors = distr.map GovDistr.withoutCursors := by
    intro distr
    rw [Option.map_map]
    exact congrArg (fun change => distr.map change)
      (funext GovDistr.withoutCursors_withoutCursors)
  ext1 index
  rw [uncount, uncount, uncount, OrderedMap.get?_mapValues, OrderedMap.get?_mapValues,
    OrderedMap.get?_mapValues, Option.map_map]
  refine congrArg (fun change => (store.get? index).map change) (funext fun entity => ?_)
  cases entity with
  | epoch state =>
      simp only [Function.comp_apply, CardanoEntity.uncounted, EpochState.uncounted, absorbs]
  | gov state =>
      simp only [Function.comp_apply, CardanoEntity.uncounted, GovState.uncounted, sameDistr]
  | _ => rfl

theorem uncount_of_id (same : uncount id first = uncount id second) :
    uncount opening first = uncount opening second := by
  have absorbs : ∀ progress, opening (id progress) = opening progress := fun _ => rfl
  rw [← uncount_uncount opening absorbs first, same, uncount_uncount opening absorbs]

theorem sameButCounts_of_uncount (same : uncount opening first = uncount opening second) :
    SameButCounts first second := by
  have absorbs : ∀ progress,
      (fun _ => none : Option ShardProgress → Option ShardProgress) (opening progress) = none :=
    fun _ => rfl
  rw [SameButCounts, ← uncount_uncount _ absorbs first, same, uncount_uncount _ absorbs]

end Relations

section Close

variable {load : ShardLoad} {store final last : OrderedMap NsKey CardanoEntity}
  {totalShards other shardIndex : ℕ}

/-- The shards of the close do not look at the cursor of the open. -/
theorem ClosedUpTo.uncount_eq (ready : ShardsReady store) (valid : ValidShards totalShards)
    (validOther : ValidShards other)
    (closed : ClosedUpTo load store totalShards totalShards final)
    (closedOther : ClosedUpTo load store other other last) :
    uncount id last = uncount id final := by
  ext1 index
  rw [uncount, uncount, OrderedMap.get?_mapValues, OrderedMap.get?_mapValues]
  by_cases isEpoch : index = EpochState.nsKey
  · rw [isEpoch, closed.epoch, closedOther.epoch]
    exact congrArg (fun ended => some (CardanoEntity.epoch { load.work.endingState with
      endStats := ended, ewrapProgress := none })) (statsAfter_all ready valid validOther)
  · by_cases isGov : index = GovState.nsKey
    · rw [isGov, closed.gov, closedOther.gov]
      exact congrArg (fun held => some (CardanoEntity.gov { load.work.gov with
        distr := held, prevDistr := load.work.gov.prevDistr.map GovDistr.withoutCursors }))
        (distrAfter_all ready valid validOther)
    · rw [closed.sameElsewhere valid validOther closedOther isEpoch isGov]

theorem ClosedUpTo.keyed (keyed : AccountsKeyed store)
    (closed : ClosedUpTo load store totalShards shardIndex final) : AccountsKeyed final := by
  intro key account heldAfter
  by_cases touched : Touched store totalShards shardIndex (toLex (.accounts, key))
  · rcases touched_account touched with ⟨before, rfl, held, below⟩
    rcases closed.settled before held below with ⟨after, applied, isAfter⟩
    rcases SameOwner.applyAll applied with ⟨same, sameEq, owner⟩
    rcases Option.some.inj sameEq with rfl
    rcases CardanoEntity.account.inj (Option.some.inj (isAfter.symm.trans heldAfter)) with rfl
    rw [owner.credential]
  · rw [closed.kept _ touched (by intro same; cases same) (by intro same; cases same)] at heldAfter
    exact keyed _ _ heldAfter

theorem ClosedUpTo.openReady (ready : OpenReady store)
    (loaded : loadEpoch store = .ok load.work.endingState)
    (closed : ClosedUpTo load store totalShards shardIndex final) : OpenReady final := by
  refine ⟨closed.keyed ready.keyed, ?_⟩
  intro epoch isLoaded
  rcases Except.ok.inj ((loadEpoch_iff.mpr closed.epoch).symm.trans isLoaded) with rfl
  exact ready.unstarted load.work.endingState loaded

end Close

section Keeps

variable {store written : OrderedMap NsKey CardanoEntity}

/-- Rows of a namespace are written where they are. -/
theorem get?_streamNamespace {E δ : Type} [EntityVariant E] {key : δ → NsKey}
    {apply : Option E → δ → Except Panic (Option E)} {deltas : List δ}
    {rows : List (EntityKey × E)} {index : NsKey}
    (elsewhere : (ofLex index).1 ≠ EntityVariant.namespaceOf E)
    (ran : streamNamespace key apply deltas rows store = .ok written) :
    written.get? index = store.get? index := by
  refine @foldlM_keeps _ _ _ _ (fun written => written.get? index = store.get? index) ?_ _ _ _ rfl
    ran
  intro before row next kept isNext
  dsimp only at isNext
  split at isNext
  · rw [← Except.ok.inj isNext]
    exact kept
  · rcases bind_eq_ok.mp isNext with ⟨entity, -, nextEq⟩
    rw [← Except.ok.inj nextEq, OrderedMap.get?_set, if_neg]
    · exact kept
    · rintro rfl
      exact elsewhere rfl

/-- What ends an epoch leaves the cursor of the open. -/
theorem estartProgress_closeEpoch {epoch closed : EpochState} {updates : List PParamsUpdate}
    {stats : EndStats} (closes : closeEpoch epoch updates stats = .ok closed) :
    closed.estartProgress = epoch.estartProgress := by
  rcases bind_eq_ok.mp closes with ⟨updated, updatedEq, withUpdated⟩
  rcases bind_eq_ok.mp withUpdated with ⟨⟨delta, entity⟩, wrapped, closedEq⟩
  have kept : ∃ state, updated = some state ∧ state.estartProgress = epoch.estartProgress := by
    refine @foldlM_keeps _ _ _ _ (fun entity : Option EpochState =>
      ∃ state, entity = some state ∧ state.estartProgress = epoch.estartProgress)
      ?_ _ _ _ ⟨epoch, rfl, rfl⟩ updatedEq
    intro before update next keeps isNext
    rcases keeps with ⟨state, rfl, same⟩
    rcases map_eq_ok.mp isNext with ⟨⟨applied, _⟩, appliedEq, rfl⟩
    simp only [EntityDelta.apply, expect_some, ok_bind, bind_eq_ok] at appliedEq
    rcases appliedEq with ⟨scheduled, -, appliedEq⟩
    cases appliedEq
    exact ⟨_, rfl, same⟩
  rcases kept with ⟨state, rfl, same⟩
  simp only [EntityDelta.apply, expect_some, ok_bind, bind_eq_ok] at wrapped
  rcases wrapped with ⟨rolling, -, pparams, -, wrapped⟩
  cases wrapped
  rw [← Except.ok.inj closedEq]
  exact same

variable [AddressDecoding] {close : CloseWork} {after : OrderedMap NsKey CardanoEntity}

theorem commit_spec (committed : close.commit store = .ok after) :
    (AccountsKeyed store → AccountsKeyed after) ∧ ∃ updates stats closed,
      closeEpoch close.work.endingState updates stats = .ok closed ∧
        after.get? EpochState.nsKey = some (.epoch closed) := by
  simp only [CloseWork.commit, bind_eq_ok, mapError_eq_ok] at committed
  rcases committed with ⟨accounts, -, stats, -, pools, poolsEq, represented, representedEq,
    resolved, resolvedEq, paid, paidEq, epoch, epochEq, gov, -, afterEq⟩
  rcases Except.ok.inj afterEq with rfl
  refine ⟨?_, ?_⟩
  · intro keyed
    have accountsKept : ∀ key : EntityKey,
        resolved.get? (toLex (.accounts, key)) = store.get? (toLex (.accounts, key)) := by
      intro key
      rw [get?_streamNamespace (by intro same; cases same) resolvedEq,
        get?_streamNamespace (by intro same; cases same) representedEq,
        get?_streamNamespace (by intro same; cases same) poolsEq]
    have resolvedKeyed : AccountsKeyed resolved := by
      intro key account held
      rw [accountsKept] at held
      exact keyed key account held
    have paidKeyed : AccountsKeyed paid := by
      refine keyed_streamAndApply resolvedKeyed (nodup_iterEntityRows AccountState none) ?_ paidEq
      intro row member
      rw [accountsKept]
      exact (mem_iterAccountRows.mp member).1
    intro key account held
    rw [MirTally.deleteMirs, OrderedMap.get?_eraseAll] at held
    split_ifs at held
    rw [OrderedMap.get?_set, if_neg (by intro same; cases same), OrderedMap.get?_insert,
      if_neg (by intro same; cases same)] at held
    exact paidKeyed key account held
  · refine ⟨_, stats, epoch, epochEq, ?_⟩
    rw [MirTally.deleteMirs, OrderedMap.get?_eraseAll, if_neg, OrderedMap.get?_set,
      if_neg (by intro same; cases same), OrderedMap.get?_insert_self]
    intro member
    rcases List.mem_map.mp member with ⟨credential, -, same⟩
    cases congrArg (fun index : NsKey => (ofLex index).1) same

theorem endingState_of_load {eras : BoundaryEras} (loaded : CloseWork.load eras store = .ok close) :
    loadEpoch store = .ok close.work.endingState := by
  simp only [CloseWork.load, bind_eq_ok] at loaded
  rcases loaded with ⟨ending, endingEq, gov, -, newPools, -, retiringPools, -, _, -, dreps, -,
    epochStart, -, refunds, -, ratification, -, closeEq⟩
  rw [endingEq, ← Except.ok.inj closeEq]
  rfl

/-- The finalize pass of the close leaves a store that can be opened. -/
theorem openReady_of_close {eras : BoundaryEras} (ready : OpenReady store)
    (finalized : ewrapFinalize eras store = .ok after) : OpenReady after := by
  rcases bind_eq_ok.mp finalized with ⟨close, loaded, committed⟩
  rcases commit_spec committed with ⟨keyed, updates, stats, closed, closes, held⟩
  refine ⟨keyed ready.keyed, ?_⟩
  intro epoch isLoaded
  rcases Except.ok.inj ((loadEpoch_iff.mpr held).symm.trans isLoaded) with rfl
  rw [estartProgress_closeEpoch closes]
  exact ready.unstarted _ (endingState_of_load loaded)

/-- A unit that has not begun runs all of its shards, and the finalize pass. -/
theorem runEwrapUnit_iff {eras : BoundaryEras} {accountShards : ℕ} (ready : ShardsReady store)
    (valid : ValidShards accountShards) : runEwrapUnit eras accountShards store = .ok after ↔
      ∃ sharded, runEwrapShards eras accountShards store = .ok sharded ∧
        ewrapFinalize eras sharded = .ok after := by
  have atStart : ∀ epoch, loadEpoch store = .ok epoch →
      ShardProgress.shardsOf accountShards epoch.ewrapProgress = accountShards ∧
        ShardProgress.startOf epoch.ewrapProgress = 0 := by
    intro epoch loaded
    rw [ready.unstarted epoch loaded]
    exact ⟨rfl, rfl⟩
  have nonzero : ¬ accountShards ≤ 0 := Nat.not_le.mpr valid.nonzero
  constructor
  · intro ran
    rcases bind_eq_ok.mp ran with ⟨epoch, loaded, ran⟩
    rcases atStart epoch loaded with ⟨isTotal, isStart⟩
    dsimp only at ran
    rw [isTotal, isStart, Nat.sub_zero, ← List.range_eq_range'] at ran
    simp only [if_neg nonzero] at ran
    exact bind_eq_ok.mp ran
  · rintro ⟨sharded, shards, finalized⟩
    rcases loaded_of_runs valid shards with ⟨load, loaded⟩
    rcases bind_eq_ok.mp loaded with ⟨epoch, epochEq, -⟩
    rcases atStart epoch epochEq with ⟨isTotal, isStart⟩
    refine bind_eq_ok.mpr ⟨epoch, epochEq, ?_⟩
    dsimp only
    rw [isTotal, isStart, Nat.sub_zero, ← List.range_eq_range']
    simp only [if_neg nonzero]
    exact bind_eq_ok.mpr ⟨sharded, shards, finalized⟩

/-- However many shards the close has, it ends on the same store, which can be opened. -/
theorem ewrapUnits_agree {eras : BoundaryEras} {accountShards other : ℕ}
    (ready : ShardsReady store) (openReady : OpenReady store) (valid : ValidShards accountShards)
    (validOther : ValidShards other) (ran : runEwrapUnit eras accountShards store = .ok after) :
    OpenReady after ∧ ∃ afterOther, runEwrapUnit eras other store = .ok afterOther ∧
      OpenReady afterOther ∧ uncount id after = uncount id afterOther := by
  rcases (runEwrapUnit_iff ready valid).mp ran with ⟨sharded, shards, finalized⟩
  rcases closedUpTo_cuts ready valid validOther shards with
    ⟨load, shardedOther, loaded, shardsOther, closed, closedOther⟩
  have same := closed.uncount_eq ready valid validOther closedOther
  have finalizes := ewrapFinalize_uncount id eras sharded
  rw [← same, ewrapFinalize_uncount, finalized] at finalizes
  rcases map_eq_ok.mp finalizes with ⟨afterOther, finalizedOther, sameAfter⟩
  exact ⟨openReady_of_close (closed.openReady openReady loaded) finalized, afterOther,
    (runEwrapUnit_iff ready validOther).mpr ⟨shardedOther, shardsOther, finalizedOther⟩,
    openReady_of_close (closedOther.openReady openReady loaded) finalizedOther, sameAfter.symm⟩

end Keeps

section Open

variable {ended : EpochState} {store final last : OrderedMap NsKey CardanoEntity}
  {totalShards other : ℕ}

/-- The shards of the open are done, in either number. -/
theorem OpenedUpTo.uncount_eq (valid : ValidShards totalShards) (validOther : ValidShards other)
    (opened : OpenedUpTo ended store totalShards totalShards final)
    (openedOther : OpenedUpTo ended store other other last) :
    uncount openingDone last = uncount openingDone final := by
  have isDone : ∀ {count : ℕ}, ValidShards count →
      openingDone (ShardLoad.progressAfter count count) = some ⟨1, 1⟩ := by
    intro count validCount
    rw [ShardLoad.progressAfter, if_neg (Nat.one_le_iff_ne_zero.mp validCount.nonzero),
      openingDone, Option.map_some, ShardProgress.uncounted, if_pos rfl]
  ext1 index
  rw [uncount, uncount, OrderedMap.get?_mapValues, OrderedMap.get?_mapValues]
  by_cases isEpoch : index = EpochState.nsKey
  · rw [isEpoch, opened.epoch, openedOther.epoch]
    simp only [Option.map_some, CardanoEntity.uncounted, EpochState.uncounted, isDone valid,
      isDone validOther]
  · rw [opened.sameElsewhere valid validOther openedOther isEpoch]

theorem OpenedUpTo.complete (valid : ValidShards totalShards)
    (opened : OpenedUpTo ended store totalShards totalShards final) {epoch : EpochState}
    (loaded : loadEpoch final = .ok epoch) : epoch.opensComplete = true := by
  rcases Except.ok.inj ((loadEpoch_iff.mpr opened.epoch).symm.trans loaded) with rfl
  rw [EpochState.opensComplete, ShardLoad.progressAfter,
    if_neg (Nat.one_le_iff_ne_zero.mp valid.nonzero)]
  exact decide_eq_true rfl

variable [NonceCrypto] {genesis : OpenGenesis} {ledger second after : BoundaryLedger}
  {accountShards : ℕ}

theorem runEstartUnit_iff (ready : OpenReady ledger.entities) :
    runEstartUnit genesis accountShards ledger = .ok after ↔ ∃ epoch avvm sharded,
      loadEpoch ledger.entities = .ok epoch ∧ genesis.avvmAtBoundary epoch = .ok avvm ∧
        runEstartShards accountShards ledger.entities = .ok sharded ∧
          estartFinalize genesis ⟨sharded, ledger.eras⟩ = .ok after := by
  have atStart : ∀ epoch, loadEpoch ledger.entities = .ok epoch →
      ShardProgress.shardsOf accountShards epoch.estartProgress = accountShards ∧
        ShardProgress.startOf epoch.estartProgress = 0 := by
    intro epoch loaded
    rw [ready.unstarted epoch loaded]
    exact ⟨rfl, rfl⟩
  simp only [runEstartUnit, bind_eq_ok, mapError_eq_ok]
  constructor
  · rintro ⟨epoch, loaded, avvm, isAvvm, sharded, shards, finalized⟩
    rcases atStart epoch loaded with ⟨isTotal, isStart⟩
    rw [isTotal, isStart, Nat.sub_zero, ← List.range_eq_range'] at shards
    exact ⟨epoch, avvm, sharded, loaded, isAvvm, shards, finalized⟩
  · rintro ⟨epoch, avvm, sharded, loaded, isAvvm, shards, finalized⟩
    rcases atStart epoch loaded with ⟨isTotal, isStart⟩
    refine ⟨epoch, loaded, avvm, isAvvm, sharded, ?_, finalized⟩
    rw [isTotal, isStart, Nat.sub_zero, ← List.range_eq_range']
    exact shards

/-- From stores that are the same but for the counts of the close, the open ends on the same
store, however many shards it has. -/
theorem estartUnits_agree (ready : OpenReady ledger.entities)
    (readySecond : OpenReady second.entities)
    (same : uncount id ledger.entities = uncount id second.entities)
    (sameEras : ledger.eras = second.eras) (valid : ValidShards accountShards)
    (validOther : ValidShards other)
    (ran : runEstartUnit genesis accountShards ledger = .ok after) :
    ∃ afterSecond, runEstartUnit genesis other second = .ok afterSecond ∧
      SameButCounts after.entities afterSecond.entities ∧ after.eras = afterSecond.eras := by
  rcases (runEstartUnit_iff ready).mp ran with
    ⟨epoch, avvm, sharded, loaded, isAvvm, shards, finalized⟩
  -- the epoch of the other store, without the cursor of the close
  have loadedBoth := loadEpoch_uncount id ledger.entities
  rw [same, loadEpoch_uncount, loaded] at loadedBoth
  rcases map_eq_ok.mp loadedBoth with ⟨epochSecond, loadedSecond, sameEpoch⟩
  have sameAvvm : genesis.avvmAtBoundary (epochSecond.uncounted id) =
      genesis.avvmAtBoundary (epoch.uncounted id) := congrArg genesis.avvmAtBoundary sameEpoch
  -- the same shards over the other store, and then the other number of them
  have shardsBoth := runEstartShards_uncount ledger.entities accountShards
  rw [same, runEstartShards_uncount, shards] at shardsBoth
  rcases map_eq_ok.mp shardsBoth with ⟨middle, shardsMiddle, sameMiddle⟩
  rcases openedUpTo_cuts readySecond valid validOther shardsMiddle with
    ⟨ended, last, shardsLast, opened, openedLast⟩
  have openedFirst := (openedUpTo_of_runs ready loaded valid (le_refl _) shards).2
  have sameLast : uncount openingDone sharded = uncount openingDone last :=
    (uncount_of_id openingDone sameMiddle).symm.trans
      (opened.uncount_eq valid validOther openedLast).symm
  have sameLedger : (BoundaryLedger.mk sharded ledger.eras).uncounted =
      (BoundaryLedger.mk last second.eras).uncounted :=
    congrArg₂ BoundaryLedger.mk sameLast sameEras
  have finalizes := estartFinalize_uncounted genesis ⟨sharded, ledger.eras⟩
    fun _ => openedFirst.complete valid
  rw [sameLedger, estartFinalize_uncounted genesis ⟨last, second.eras⟩
    fun _ => openedLast.complete validOther, finalized] at finalizes
  rcases map_eq_ok.mp finalizes with ⟨afterSecond, finalizedSecond, sameAfter⟩
  refine ⟨afterSecond, (runEstartUnit_iff readySecond).mpr
    ⟨epochSecond, avvm, last, loadedSecond, sameAvvm.trans isAvvm, shardsLast, finalizedSecond⟩,
    ?_, (congrArg BoundaryLedger.eras sameAfter).symm⟩
  exact sameButCounts_of_uncount openingDone (congrArg BoundaryLedger.entities sameAfter).symm

end Open

/-- Cut into any two numbers of shards, a boundary closes the same store and opens the same
store and the same eras, but for the counts of the shards. -/
theorem boundary_counts_agree [AddressDecoding] [NonceCrypto] (eras : BoundaryEras)
    (genesis : OpenGenesis) {store closed : OrderedMap NsKey CardanoEntity}
    {accountShards other : ℕ} (ready : ShardsReady store) (openReady : OpenReady store)
    (valid : ValidShards accountShards) (validOther : ValidShards other)
    (closes : runEwrapUnit eras accountShards store = .ok closed) :
    ∃ closedOther, runEwrapUnit eras other store = .ok closedOther ∧
      SameButCounts closed closedOther ∧
      ∀ table opened, runEstartUnit genesis accountShards ⟨closed, table⟩ = .ok opened →
        ∃ openedOther, runEstartUnit genesis other ⟨closedOther, table⟩ = .ok openedOther ∧
          SameButCounts opened.entities openedOther.entities ∧ opened.eras = openedOther.eras := by
  rcases ewrapUnits_agree ready openReady valid validOther closes with
    ⟨canOpen, closedOther, closesOther, canOpenOther, same⟩
  refine ⟨closedOther, closesOther, sameButCounts_of_uncount id same, ?_⟩
  intro table opened opens
  have opensReady : OpenReady (BoundaryLedger.mk closed table).entities := canOpen
  have opensReadyOther : OpenReady (BoundaryLedger.mk closedOther table).entities := canOpenOther
  exact estartUnits_agree opensReady opensReadyOther same rfl valid validOther opens

namespace CutUnits

attribute [local instance] RewardsContext.stakeAddresses NonceCrypto.still

def delegate : DRep := .key 5

/-- An account of the last shard, which delegates to a representative that is registered. -/
def delegator : AccountState :=
  { CutBoundary.holder CutBoundary.late 9 with drep := .withLive 5 (.delegated delegate) }

def representative : DRepState :=
  { DRepState.new delegate with
    registeredAt := some (0, 0)
    expiry := some ⟨9, 0, none⟩ }

def ending : EpochState :=
  { PaidAccount.work.endingState with
    rolling := .withLive 5 .default
    pparams := .withLive 5 ⟨[⟨.poolDeposit, .amount 500⟩, ⟨.protocolVersion, .version 9 0⟩]⟩
    endStats := some EndStats.default }

/-- With two pools that retire, a withdrawal that enacts and a proposal that has expired. -/
def entries : List (NsKey × CardanoEntity) :=
  PaidAccount.entries ++
    [(AccountState.nsKey CutBoundary.late, .account delegator),
      (PendingRewardState.nsKey CutBoundary.late,
        .pendingReward (.ofReward CutBoundary.late OneShard.reward)),
      (DRepState.nsKey delegate, .drep representative),
      (EpochState.nsKey, .epoch ending), (GovState.nsKey, .gov PaidAccount.work.gov)]

def store : OrderedMap NsKey CardanoEntity := .ofList entries

def genesis : OpenGenesis := ⟨mainnetNonces, .error .missingGovState, .ok 0⟩

def table : OrderedMap ℕ EraSummary := OrderedMap.insert ∅ 9 ⟨⟨0, 0, 0⟩, none, 10, 1, 9⟩

theorem keyed : AccountsKeyed store := by
  intro key held isHeld
  have member := OrderedMap.mem_of_get?_ofList isHeld
  simp only [entries, PaidAccount.entries, List.cons_append, List.nil_append, List.mem_cons,
    Prod.mk.injEq, List.not_mem_nil, reduceCtorEq, and_false, or_false, false_or,
    CardanoEntity.account.injEq] at member
  rcases member with ⟨sameIndex, rfl⟩ | ⟨sameIndex, rfl⟩
  · exact congrArg (fun index : NsKey => (ofLex index).2) sameIndex
  · exact congrArg (fun index : NsKey => (ofLex index).2) sameIndex

theorem written : RewardsWritten store := by
  intro key row isHeld
  have member := OrderedMap.mem_of_get?_ofList isHeld
  simp only [entries, PaidAccount.entries, List.cons_append, List.nil_append, List.mem_cons,
    Prod.mk.injEq, List.not_mem_nil, reduceCtorEq, and_false, or_false, false_or,
    CardanoEntity.pendingReward.injEq] at member
  rcases member with ⟨sameIndex, sameRow⟩ | ⟨sameIndex, sameRow⟩
  · exact ⟨PaidAccount.credential, OneShard.reward,
      congrArg (fun index : NsKey => (ofLex index).2) sameIndex, sameRow⟩
  · exact ⟨CutBoundary.late, OneShard.reward,
      congrArg (fun index : NsKey => (ofLex index).2) sameIndex, sameRow⟩

theorem loadEpoch_store : loadEpoch store = .ok ending := by decide +kernel

theorem shardsReady : ShardsReady store := by
  refine ⟨keyed, written, by decide +kernel, ?_, ?_⟩
  · intro epoch loaded
    rcases Except.ok.inj (loaded.symm.trans loadEpoch_store) with rfl
    rfl
  · intro epoch gov distr _ govLoaded held
    have isGov : loadGov store = .ok PaidAccount.work.gov := by decide +kernel
    rcases Except.ok.inj (govLoaded.symm.trans isGov) with rfl
    cases held

theorem openReady : OpenReady store := by
  refine ⟨keyed, ?_⟩
  intro epoch loaded
  rcases Except.ok.inj (loaded.symm.trans loadEpoch_store) with rfl
  rfl

/-- In two shards and in four. -/
theorem boundary_counts_agree_paid :
    ∃ closed closedOther, runEwrapUnit CutBoundary.eras 2 store = .ok closed ∧
      runEwrapUnit CutBoundary.eras 4 store = .ok closedOther ∧
      SameButCounts closed closedOther ∧
      ∃ opened openedOther, runEstartUnit genesis 2 ⟨closed, table⟩ = .ok opened ∧
        runEstartUnit genesis 4 ⟨closedOther, table⟩ = .ok openedOther ∧
        SameButCounts opened.entities openedOther.entities := by
  have runs : ((runEwrapUnit CutBoundary.eras 2 store).mapError BoundaryError.chain >>=
      fun closed => (fun _ => ()) <$> runEstartUnit genesis 2 ⟨closed, table⟩) = .ok () := by
    decide +kernel
  rcases bind_eq_ok.mp runs with ⟨closed, closes, opens⟩
  rcases map_eq_ok.mp opens with ⟨opened, opens, -⟩
  rw [mapError_eq_ok] at closes
  have validTwo : ValidShards 2 := ⟨by decide, by decide⟩
  have validFour : ValidShards 4 := ⟨by decide, by decide⟩
  rcases boundary_counts_agree CutBoundary.eras genesis shardsReady openReady validTwo validFour
    closes with ⟨closedOther, closesOther, same, opensOther⟩
  rcases opensOther table opened opens with ⟨openedOther, opensEq, sameOpened, -⟩
  exact ⟨closed, closedOther, closes, closesOther, same, opened, openedOther, opens, opensEq,
    sameOpened⟩

end CutUnits

end Dolos
