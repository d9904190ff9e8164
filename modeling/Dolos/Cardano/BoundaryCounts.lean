import Dolos.Cardano.BoundaryUnits
import Dolos.Cardano.ShardCount

/-!
# The units of a boundary without the counts of their shards

The finalize passes look at no count of shards but for whether all are done, so they go along
with the change that forgets the counts: what they make of a store without them is what they
make of the store, without them. With the shards, a boundary that is cut into any number of
them closes and opens the same store.
-/

namespace Dolos

open Outcome

/-- What the open asks of its cursor. -/
def ShardProgress.uncounted (progress : ShardProgress) : ShardProgress :=
  ⟨if progress.committed = progress.total then 1 else 0, 1⟩

section Uncounted

variable (opening : Option ShardProgress → Option ShardProgress)

/-- The epoch without the cursor of the close, and with what is left of that of the open. -/
def EpochState.uncounted (state : EpochState) : EpochState :=
  { state with ewrapProgress := none, estartProgress := opening state.estartProgress }

def GovState.uncounted (state : GovState) : GovState :=
  { state with
    distr := state.distr.map GovDistr.withoutCursors
    prevDistr := state.prevDistr.map GovDistr.withoutCursors }

def CardanoEntity.uncounted : CardanoEntity → CardanoEntity
  | epoch state => .epoch (state.uncounted opening)
  | gov state => .gov state.uncounted
  | entity => entity

def uncount (store : OrderedMap NsKey CardanoEntity) : OrderedMap NsKey CardanoEntity :=
  store.mapValues (CardanoEntity.uncounted opening)

def BoundaryWork.uncounted (work : BoundaryWork) : BoundaryWork :=
  { work with endingState := work.endingState.uncounted opening, gov := work.gov.uncounted }

def CloseWork.uncounted (close : CloseWork) : CloseWork :=
  { close with work := close.work.uncounted opening }

end Uncounted

/-- Stores that differ in nothing but the counts of their shards, those of the distributions
that were handed on included. -/
def SameButCounts (first second : OrderedMap NsKey CardanoEntity) : Prop :=
  uncount (fun _ => none) first = uncount (fun _ => none) second

/-- Entities of a kind that holds no count of shards. -/
class CountFree (E : Type) [EntityVariant E] : Prop where
  project_uncounted : ∀ (opening : Option ShardProgress → Option ShardProgress)
    (entity : CardanoEntity), EntityVariant.project (entity.uncounted opening) =
      (EntityVariant.project entity : Option E)
  inject_uncounted : ∀ (opening : Option ShardProgress → Option ShardProgress) (state : E),
    (EntityVariant.inject state).uncounted opening = EntityVariant.inject state

instance : CountFree AccountState := ⟨fun _ entity => by cases entity <;> rfl, fun _ _ => rfl⟩

instance : CountFree PoolState := ⟨fun _ entity => by cases entity <;> rfl, fun _ _ => rfl⟩

instance : CountFree DRepState := ⟨fun _ entity => by cases entity <;> rfl, fun _ _ => rfl⟩

instance : CountFree ProposalState := ⟨fun _ entity => by cases entity <;> rfl, fun _ _ => rfl⟩

instance : CountFree PendingMirState := ⟨fun _ entity => by cases entity <;> rfl, fun _ _ => rfl⟩

section Rows

variable (opening : Option ShardProgress → Option ShardProgress)
  (store : OrderedMap NsKey CardanoEntity)

theorem iterEntityRows_uncount (E : Type) [EntityVariant E] [CountFree E]
    (range : Option KeyRange) :
    iterEntityRows (uncount opening store) E range = iterEntityRows store E range := by
  rw [iterEntityRows, uncount, OrderedMap.mapValues, List.filterMap_map]
  refine List.filterMap_congr fun entry _ => ?_
  simp only [Function.comp_apply, CountFree.project_uncounted]

theorem iterEntitiesTyped_uncount (E : Type) [EntityVariant E] [CountFree E]
    (range : Option KeyRange) :
    iterEntitiesTyped (uncount opening store) E range = iterEntitiesTyped store E range := by
  rw [iterEntitiesTyped, uncount, OrderedMap.mapValues, List.filterMap_map]
  refine List.filterMap_congr fun entry _ => ?_
  simp only [Function.comp_apply, CountFree.project_uncounted]

theorem boundaryStore_uncount : boundaryStore (uncount opening store) = boundaryStore store := by
  rw [boundaryStore, iterEntityRows_uncount, iterEntityRows_uncount, iterEntityRows_uncount]
  rfl

theorem readEntityTyped_uncount (E : Type) [EntityVariant E] [CountFree E] (key : EntityKey) :
    readEntityTyped (uncount opening store) E key = readEntityTyped store E key := by
  rw [readEntityTyped, uncount, OrderedMap.get?_mapValues, Option.bind_map]
  exact congrArg _ (funext (CountFree.project_uncounted opening))

theorem processPendingMirs_uncount :
    MirTally.processPendingMirs (uncount opening store) = MirTally.processPendingMirs store := by
  have sameStep : MirTally.processPendingMir (uncount opening store) =
      MirTally.processPendingMir store := by
    funext tally pending
    rw [MirTally.processPendingMir, MirTally.processPendingMir, readEntityTyped_uncount]
  rw [MirTally.processPendingMirs, MirTally.processPendingMirs, sameStep,
    iterEntitiesTyped_uncount]

theorem loadEpoch_uncount :
    loadEpoch (uncount opening store) = EpochState.uncounted opening <$> loadEpoch store := by
  rw [loadEpoch, loadEpoch, uncount, OrderedMap.get?_mapValues]
  rcases store.get? EpochState.nsKey with _ | entity
  · rfl
  · cases entity <;> rfl

theorem loadGov_uncount :
    loadGov (uncount opening store) = GovState.uncounted <$> loadGov store := by
  rw [loadGov, loadGov, uncount, OrderedMap.get?_mapValues]
  rcases store.get? GovState.nsKey with _ | entity
  · rfl
  · cases entity <;> rfl

end Rows

section Streams

variable (opening : Option ShardProgress → Option ShardProgress)

theorem uncount_set (store : OrderedMap NsKey CardanoEntity) (index : NsKey)
    (entity : Option CardanoEntity) :
    uncount opening (store.set index entity) =
      (uncount opening store).set index (entity.map (CardanoEntity.uncounted opening)) :=
  OrderedMap.mapValues_set ..

theorem map_inject_uncounted {E : Type} [EntityVariant E] [CountFree E] (entity : Option E) :
    (entity.map EntityVariant.inject).map (CardanoEntity.uncounted opening) =
      entity.map EntityVariant.inject := by
  rw [Option.map_map]
  exact congrArg (fun inject => entity.map inject)
    (funext (CountFree.inject_uncounted opening))

theorem streamNamespace_uncount {E δ : Type} [EntityVariant E] [CountFree E] {key : δ → NsKey}
    {apply : Option E → δ → Except Panic (Option E)} (deltas : List δ)
    (rows : List (EntityKey × E)) (store : OrderedMap NsKey CardanoEntity) :
    streamNamespace key apply deltas rows (uncount opening store) =
      uncount opening <$> streamNamespace key apply deltas rows store := by
  refine foldlM_along (fun row _ written => ?_) store
  dsimp only
  rcases deltas.filter _ with _ | ⟨first, rest⟩
  · rfl
  · dsimp only
    rcases (first :: rest).foldlM apply (some row.2) with failure | entity
    · rfl
    · change Except.ok _ = Except.ok (uncount opening _)
      rw [uncount_set, map_inject_uncounted]

theorem streamAndApply_uncount (deltas : List AccountDelta)
    (rows : List (EntityKey × AccountState)) (store : OrderedMap NsKey CardanoEntity) :
    streamAndApply deltas rows (uncount opening store) =
      uncount opening <$> streamAndApply deltas rows store := by
  rw [streamAndApply_eq, streamAndApply_eq, streamNamespace_uncount]

end Streams

section Loads

variable (opening : Option ShardProgress → Option ShardProgress)

/-- Distributions without their cursors are complete when they were. -/
theorem filter_withoutCursors (distr : Option GovDistr) (epoch : ℕ) :
    ((distr.map GovDistr.withoutCursors).filter fun distr => distr.isCompleteFor epoch) =
      (distr.filter fun distr => distr.isCompleteFor epoch).map GovDistr.withoutCursors := by
  have sameAnswer : ∀ distr : GovDistr,
      distr.withoutCursors.isCompleteFor epoch = distr.isCompleteFor epoch := by
    intro distr
    by_cases complete : distr.committedShards = distr.totalShards
    · simp [GovDistr.isCompleteFor, GovDistr.withoutCursors, complete]
    · simp [GovDistr.isCompleteFor, GovDistr.withoutCursors, complete]
  rcases distr with _ | distr
  · rfl
  · simp only [Option.map_some, Option.filter_some, sameAnswer]
    split_ifs
    · rfl
    · rfl

variable (work : BoundaryWork)

theorem buildRatifyInput_uncounted [AddressDecoding] (tables : BoundaryStore) :
    (work.uncounted opening).buildRatifyInput tables = work.buildRatifyInput tables := by
  have sameDistr : (work.uncounted opening).ratifyDistr =
      work.ratifyDistr.map GovDistr.withoutCursors := by
    have sameFilter := filter_withoutCursors work.gov.prevDistr (work.closing - 1)
    unfold BoundaryWork.ratifyDistr
    split_ifs
    · rfl
    · contradiction
    · contradiction
    · exact sameFilter
  rw [BoundaryWork.buildRatifyInput, BoundaryWork.buildRatifyInput, sameDistr]
  rcases work.ratifyDistr with _ | distr
  · rfl
  · rfl

theorem runRatification_uncounted [AddressDecoding] (tables : BoundaryStore) :
    (work.uncounted opening).runRatification tables = work.runRatification tables := by
  rw [BoundaryWork.runRatification, BoundaryWork.runRatification, buildRatifyInput_uncounted]
  rfl

theorem drepPower_uncounted (credits : OrderedMap DRep ℕ) :
    (work.uncounted opening).drepPower credits = work.drepPower credits := by
  have sameFilter := filter_withoutCursors work.gov.distr work.closing
  have sameEpoch : (work.uncounted opening).distrSnapshotEpoch = work.distrSnapshotEpoch := rfl
  have sameDistr : (work.uncounted opening).completedDRepDistr = work.completedDRepDistr := by
    rw [BoundaryWork.completedDRepDistr, BoundaryWork.completedDRepDistr, sameEpoch]
    rcases work.distrSnapshotEpoch with _ | snapshotEpoch
    · rfl
    · exact (congrArg (Option.map GovDistr.drepDistr) sameFilter).trans (Option.map_map ..)
  rw [BoundaryWork.drepPower, BoundaryWork.drepPower, sameDistr]

/-- The finalize pass of the close loads the same from a store without the counts. -/
theorem load_uncount [AddressDecoding] (eras : BoundaryEras)
    (store : OrderedMap NsKey CardanoEntity) :
    CloseWork.load eras (uncount opening store) =
      CloseWork.uncounted opening <$> CloseWork.load eras store := by
  rw [CloseWork.load, CloseWork.load, loadEpoch_uncount, loadGov_uncount, boundaryStore_uncount,
    iterEntityRows_uncount, bind_map_left]
  refine bind_along fun ending => ?_
  rw [bind_map_left]
  refine bind_along fun gov => bind_along fun newPools => bind_along fun retiringPools =>
    bind_along fun _ => bind_along fun dreps => bind_along fun epochStart =>
      bind_along fun refunds => ?_
  have sameRuling := runRatification_uncounted opening
    { BoundaryWork.newEmpty eras ending gov with
      epochStart := epochStart
      ratifyDReps := dreps.ratifyDReps } (boundaryStore store)
  exact (congrArg (fun ruling => Except.mapError ChainError.panicked ruling >>= _)
    sameRuling).trans (bind_along fun ruling => rfl)

end Loads

section Commits

variable (opening : Option ShardProgress → Option ShardProgress)

theorem pparamsUpdate_uncounted (entity : Option EpochState) (delta : PParamsUpdate) :
    applyEntity (entity.map (EpochState.uncounted opening)) delta =
      Option.map (EpochState.uncounted opening) <$> applyEntity entity delta := by
  rcases entity with _ | state
  · rfl
  · rcases scheduled : state.pparams.scheduledOrDefault with failure | next
    · simp only [applyEntity, EntityDelta.apply, Option.map_some, expect_some, ok_bind,
        EpochState.uncounted, scheduled]
      rfl
    · simp only [applyEntity, EntityDelta.apply, Option.map_some, expect_some, ok_bind,
        EpochState.uncounted, scheduled]
      rfl

theorem epochWrapUp_uncounted (entity : Option EpochState) (delta : EpochWrapUpV3) :
    applyEntity (entity.map (EpochState.uncounted opening)) delta =
      Option.map (EpochState.uncounted opening) <$> applyEntity entity delta := by
  rcases entity with _ | state
  · rfl
  · rcases rolled : state.rolling.scheduledOrDefault with failure | rolling
    · simp only [applyEntity, EntityDelta.apply, Option.map_some, expect_some, ok_bind,
        EpochState.uncounted, rolled]
      rfl
    · rcases scheduled : state.pparams.scheduledOrDefault with failure | next
      · simp only [applyEntity, EntityDelta.apply, Option.map_some, expect_some, ok_bind,
          EpochState.uncounted, rolled, scheduled]
        rfl
      · simp only [applyEntity, EntityDelta.apply, Option.map_some, expect_some, ok_bind,
          EpochState.uncounted, rolled, scheduled]
        rfl

theorem closeEpoch_eq (epoch : EpochState) (updates : List PParamsUpdate) (stats : EndStats) :
    closeEpoch epoch updates stats = updates.foldlM applyEntity (some epoch) >>= fun updated =>
      (fun closed => closed.getD epoch) <$> applyEntity updated (EpochWrapUpV3.new stats) := by
  refine bind_congr (m := Except Panic) fun updated => ?_
  rw [applyEntity]
  rcases EntityDelta.apply (EpochWrapUpV3.new stats) updated with failure | ⟨filled, closed⟩
  · rfl
  · rfl

theorem closeEpoch_uncounted (epoch : EpochState) (updates : List PParamsUpdate)
    (stats : EndStats) :
    closeEpoch (epoch.uncounted opening) updates stats =
      EpochState.uncounted opening <$> closeEpoch epoch updates stats := by
  have updated := foldlM_along
    (fun delta (_ : delta ∈ updates) entity => pparamsUpdate_uncounted opening entity delta)
    (some epoch)
  rw [Option.map_some] at updated
  rw [closeEpoch_eq, closeEpoch_eq, updated, bind_map_left]
  refine bind_along fun entity => ?_
  rw [epochWrapUp_uncounted, Functor.map_map, Functor.map_map]
  simp only [Option.getD_map]

theorem applyGov_uncounted (entity : Option GovState) (delta : EnactmentDelta) :
    EnactmentDelta.applyGov (entity.map GovState.uncounted) delta =
      Option.map GovState.uncounted <$> EnactmentDelta.applyGov entity delta := by
  rcases entity with _ | state
  · cases delta <;> rfl
  · cases delta <;> rfl

theorem govBoundary_uncounted (entity : Option GovState) {delta : GovBoundaryDelta}
    (unsharded : ∀ accumulate, delta ≠ .distrAccumulate accumulate) :
    Prod.snd <$> GovBoundaryDelta.apply (entity.map GovState.uncounted) delta =
      Option.map GovState.uncounted <$> Prod.snd <$> GovBoundaryDelta.apply entity delta := by
  rcases entity with _ | state
  · cases delta <;> rfl
  · cases delta with
    | distrAccumulate accumulate => exact absurd rfl (unsharded accumulate)
    | dormancyTick tick => rfl
    | committeeGc gc => rfl
    | distrRotate rotate =>
        have sameFilter := filter_withoutCursors state.distr rotate.closingEpoch
        exact congrArg (fun rotated => Except.ok (some { state with
          distr := state.distr.map GovDistr.withoutCursors, prevDistr := rotated })) sameFilter
    | distrBoundaryCredit credit =>
        have sameFilter := filter_withoutCursors state.distr credit.closingEpoch
        simp only [GovBoundaryDelta.apply, EntityDelta.apply, Option.map_some, expect_some, ok_bind,
          GovState.uncounted, sameFilter]
        rcases complete : state.distr.filter fun distr => distr.isCompleteFor credit.closingEpoch
          with _ | distr
        · simp only [complete, Option.map_none]
          rfl
        · simp only [complete, Option.map_some]
          rfl

theorem unsharded_of_emitted {work : BoundaryWork} {ratification : Ratification}
    {proposals : OrderedMap EntityKey ProposalState} {credits : OrderedMap DRep ℕ}
    {delta : GovBoundaryDelta}
    (emitted : delta ∈ work.emitGovernanceBoundaryDeltas ratification proposals credits)
    (accumulate : GovDistrAccumulate) : delta ≠ .distrAccumulate accumulate := by
  rintro rfl
  unfold BoundaryWork.emitGovernanceBoundaryDeltas at emitted
  split_ifs at emitted <;> simp at emitted

theorem closeGov_uncounted (close : CloseWork) :
    (close.uncounted opening).closeGov = Option.map GovState.uncounted <$> close.closeGov := by
  have enacted := foldlM_along
    (fun delta (_ : delta ∈ close.enactments) entity => applyGov_uncounted entity delta)
    (some close.work.gov)
  rw [Option.map_some] at enacted
  have sameEnacted : (close.uncounted opening).enactments.foldlM EnactmentDelta.applyGov
      (some (close.uncounted opening).work.gov) =
        Option.map GovState.uncounted <$>
          close.enactments.foldlM EnactmentDelta.applyGov (some close.work.gov) := enacted
  rw [CloseWork.closeGov, CloseWork.closeGov, sameEnacted, bind_map_left]
  refine bind_along fun entity => ?_
  exact foldlM_along (fun delta isEmitted entity =>
    govBoundary_uncounted entity (unsharded_of_emitted isEmitted)) entity

/-- The finalize pass of the close commits the same to a store without the counts. -/
theorem commit_uncounted [AddressDecoding] (close : CloseWork)
    (store : OrderedMap NsKey CardanoEntity) :
    (close.uncounted opening).commit (uncount opening store) =
      uncount opening <$> close.commit store := by
  have sameDreps : ∀ rows, (close.uncounted opening).drepDeltas rows = close.drepDeltas rows := by
    intro rows
    rw [CloseWork.drepDeltas, CloseWork.drepDeltas, CloseWork.uncounted, drepPower_uncounted]
  rw [CloseWork.commit, CloseWork.commit, processPendingMirs_uncount, iterEntityRows_uncount,
    iterEntityRows_uncount, iterEntityRows_uncount, iterEntityRows_uncount, sameDreps]
  refine bind_along fun accounts => bind_along fun stats => ?_
  rw [streamNamespace_uncount, mapError_map, bind_map_left]
  refine bind_along fun pools => ?_
  rw [streamNamespace_uncount, mapError_map, bind_map_left]
  refine bind_along fun represented => ?_
  rw [streamNamespace_uncount, mapError_map, bind_map_left]
  refine bind_along fun resolved => ?_
  rw [streamAndApply_uncount, mapError_map, bind_map_left]
  refine bind_along fun paid => ?_
  have sameEpoch : closeEpoch (close.uncounted opening).work.endingState
      (close.uncounted opening).paramUpdates stats = EpochState.uncounted opening <$>
        closeEpoch close.work.endingState close.paramUpdates stats :=
    closeEpoch_uncounted opening close.work.endingState close.paramUpdates stats
  rw [sameEpoch, mapError_map, bind_map_left]
  refine bind_along fun epoch => ?_
  rw [closeGov_uncounted, mapError_map, bind_map_left]
  refine bind_along fun gov => ?_
  change Except.ok _ = Except.ok (uncount opening _)
  rw [MirTally.deleteMirs, MirTally.deleteMirs, uncount, uncount, OrderedMap.mapValues_eraseAll,
    OrderedMap.mapValues_set, OrderedMap.mapValues_insert]
  rw [Option.map_map, Option.map_map]
  rfl

theorem ewrapFinalize_uncount [AddressDecoding] (eras : BoundaryEras)
    (store : OrderedMap NsKey CardanoEntity) :
    ewrapFinalize eras (uncount opening store) = uncount opening <$> ewrapFinalize eras store := by
  rw [ewrapFinalize, ewrapFinalize, load_uncount, bind_map_left]
  exact bind_along fun close => commit_uncounted opening close store

end Commits

section Open

variable (store : OrderedMap NsKey CardanoEntity)

theorem accountRowsIn_uncount (opening : Option ShardProgress → Option ShardProgress)
    (ranges : List KeyRange) :
    accountRowsIn (uncount opening store) ranges = accountRowsIn store ranges :=
  List.flatMap_congr fun _ _ => iterEntityRows_uncount ..

/-- A shard of the open looks at no count of the close. -/
theorem runEstartShard_uncount (totalShards shardIndex : ℕ) :
    runEstartShard totalShards (uncount id store) shardIndex =
      uncount id <$> runEstartShard totalShards store shardIndex := by
  have sameAccounts : ∀ startingEpoch, estartShard startingEpoch totalShards (uncount id store)
      shardIndex = uncount id <$> estartShard startingEpoch totalShards store shardIndex := by
    intro startingEpoch
    refine bind_along fun ranges => ?_
    rw [accountRowsIn_uncount]
    exact streamAndApply_uncount ..
  rw [runEstartShard, runEstartShard, loadEpoch_uncount, bind_map_left]
  refine bind_along fun ended => ?_
  rw [sameAccounts, mapError_map, bind_map_left]
  refine bind_along fun accounts => ?_
  rcases advanced : ShardProgress.advance ended.estartProgress shardIndex totalShards with
    _ | progress
  · simp only [EntityDelta.apply, expect_some, ok_bind, EpochState.uncounted, id_eq,
      EStartProgress.new, advanced, mapError_ok, Option.map_some]
    exact congrArg Except.ok
      (uncount_set id accounts EpochState.nsKey (some (.epoch ended))).symm
  · simp only [EntityDelta.apply, expect_some, ok_bind, EpochState.uncounted, id_eq,
      EStartProgress.new, advanced, mapError_ok, Option.map_some]
    exact congrArg Except.ok (uncount_set id accounts EpochState.nsKey
      (some (.epoch { ended with estartProgress := some progress }))).symm

theorem runEstartShards_uncount (totalShards : ℕ) :
    runEstartShards totalShards (uncount id store) =
      uncount id <$> runEstartShards totalShards store :=
  foldlM_along (fun shardIndex _ state => runEstartShard_uncount state totalShards shardIndex) store

/-- The activation of governance leaves the distributions. -/
theorem commitGovInit_uncount (opening : Option ShardProgress → Option ShardProgress)
    (init : Option GovGenesisInit) :
    commitGovInit init (uncount opening store) = uncount opening <$> commitGovInit init store := by
  rcases init with _ | delta
  · rfl
  · have sameGov : (((uncount opening store).get? GovState.nsKey).bind EntityVariant.project :
        Option GovState) =
          ((store.get? GovState.nsKey).bind EntityVariant.project).map GovState.uncounted := by
      rw [uncount, OrderedMap.get?_mapValues]
      rcases store.get? GovState.nsKey with _ | entity
      · rfl
      · cases entity <;> rfl
    rw [commitGovInit, commitGovInit, sameGov]
    rcases ((store.get? GovState.nsKey).bind EntityVariant.project : Option GovState) with _ | gov
    · rfl
    · exact congrArg Except.ok (uncount_set opening store GovState.nsKey (some (.gov { gov with
        constitution := some delta.constitution
        committee := some delta.committee
        activeSince := some delta.epoch }))).symm

/-- All that is left of the cursor of the open: whether it is done. -/
def openingDone : Option ShardProgress → Option ShardProgress := Option.map ShardProgress.uncounted

def EpochState.opensComplete (ended : EpochState) : Bool :=
  ended.estartProgress.any fun progress => progress.committed = progress.total

variable [NonceCrypto] (genesis : OpenGenesis)

theorem openEpoch_uncounted {ended : EpochState} (complete : ended.opensComplete = true)
    (nonces : NonceGenesis) (newPots : Pots) (eras : OrderedMap ℕ EraSummary) :
    openEpoch nonces newPots ⟨eras, ended.uncounted openingDone⟩ =
      openEpoch nonces newPots ⟨eras, ended⟩ := by
  have completeOther : (ended.uncounted openingDone).opensComplete = true := by
    rw [EpochState.opensComplete, EpochState.uncounted, openingDone]
    rcases progressEq : ended.estartProgress with _ | progress
    · rw [EpochState.opensComplete, progressEq] at complete
      cases complete
    · rw [EpochState.opensComplete, progressEq] at complete
      have isDone : progress.committed = progress.total := of_decide_eq_true complete
      rw [Option.map_some, ShardProgress.uncounted, if_pos isDone]
      rfl
  have completeRaw : (ended.estartProgress.any fun progress =>
      progress.committed = progress.total) = true := complete
  have completeOtherRaw : ((ended.uncounted openingDone).estartProgress.any fun progress =>
      progress.committed = progress.total) = true := completeOther
  simp only [openEpoch, completeRaw, completeOtherRaw, if_true]
  refine bind_congr (m := Except OpenError) fun edge => bind_congr (m := Except OpenError)
    fun nextSlot => bind_congr (m := Except OpenError) fun nonce =>
      bind_congr (m := Except OpenError) fun transition =>
        bind_congr (m := Except OpenError) fun collected => ?_
  simp only [EntityDelta.apply, expect_some, ok_bind, mapError_ok, EpochState.uncounted]
  rcases ended.rolling.defaultTransition with failure | rolling
  · rfl
  · rcases ended.pparams.defaultTransition with failure | pparams
    · rfl
    · simp only [ok_bind]
      rcases (EpochTransitionV2.new (ended.number + 1) newPots transition
        (some nonces.forks)).migrated pparams with failure | migrated
      · rfl
      · rfl

/-- The new epoch has no cursors. -/
theorem uncounted_of_openEpoch {nonces : NonceGenesis} {newPots : Pots} {state after : OpenState}
    (opens : openEpoch nonces newPots state = .ok after) :
    after.epoch.uncounted openingDone = after.epoch := by
  simp only [openEpoch, bind_eq_ok, mapError_eq_ok] at opens
  rcases opens with ⟨edge, -, nextSlot, -, nonce, -, transition, -, opens⟩
  split_ifs at opens
  simp only [bind_eq_ok, mapError_eq_ok] at opens
  rcases opens with ⟨collected, -, ⟨swept, sweptState⟩, -, ⟨opened, openedState⟩, openedEq, epoch,
    epochEq, afterEq⟩
  simp only [EntityDelta.apply, bind_eq_ok, Except.ok.injEq, Prod.mk.injEq] at openedEq
  rcases openedEq with ⟨_, -, _, -, _, -, _, -, -, rfl⟩
  rw [expect_some] at epochEq
  rcases Except.ok.inj epochEq with rfl
  rw [← Except.ok.inj afterEq]
  rfl

def BoundaryLedger.uncounted (ledger : BoundaryLedger) : BoundaryLedger :=
  { ledger with entities := uncount openingDone ledger.entities }

/-- The finalize pass of the open runs when its shards are done. -/
theorem estartFinalize_uncounted (ledger : BoundaryLedger)
    (complete : ∀ ended, loadEpoch ledger.entities = .ok ended → ended.opensComplete = true) :
    estartFinalize genesis ledger.uncounted =
      BoundaryLedger.uncounted <$> estartFinalize genesis ledger := by
  have sameEpoch : loadEpoch ledger.uncounted.entities =
      EpochState.uncounted openingDone <$> loadEpoch ledger.entities := loadEpoch_uncount ..
  rw [estartFinalize, estartFinalize, sameEpoch, mapError_map, bind_map_left]
  rcases loaded : loadEpoch ledger.entities with failure | ended
  · rfl
  · have isComplete := complete ended loaded
    rw [mapError_ok, ok_bind, ok_bind]
    refine bind_along fun avvm => bind_along fun newPots => bind_along fun init => ?_
    have sameOpened := openEpoch_uncounted isComplete genesis.nonces newPots ledger.eras
    have ledgerEras : ledger.uncounted.eras = ledger.eras := rfl
    rw [ledgerEras, sameOpened]
    rcases openedEq : openEpoch genesis.nonces newPots ⟨ledger.eras, ended⟩ with failure | opened
    · rfl
    · rw [mapError_ok, ok_bind, ok_bind]
      have samePools : iterEntityRows ledger.uncounted.entities PoolState none =
        iterEntityRows ledger.entities PoolState none := iterEntityRows_uncount ..
      have sameStream := @streamNamespace_uncount openingDone PoolState PoolTransition _ _
        EntityDelta.key applyEntity
        ((iterEntityRows ledger.entities PoolState none).map fun row =>
          PoolTransition.new row.1 (ended.number + 1))
        (iterEntityRows ledger.entities PoolState none) ledger.entities
      have uncountedRows : (ended.uncounted openingDone).number = ended.number := rfl
      have entitiesEq : ledger.uncounted.entities = uncount openingDone ledger.entities := rfl
      rw [samePools, uncountedRows, entitiesEq]
      dsimp only
      rw [sameStream, mapError_map, bind_map_left]
      refine bind_along fun pools => ?_
      have sameInsert : (uncount openingDone pools).insert EpochState.nsKey (.epoch opened.epoch) =
          uncount openingDone (pools.insert EpochState.nsKey (.epoch opened.epoch)) := by
        rw [uncount, uncount, OrderedMap.mapValues_insert, CardanoEntity.uncounted,
          uncounted_of_openEpoch openedEq]
      rw [sameInsert, commitGovInit_uncount, mapError_map, bind_map_left]
      exact bind_along fun entities => rfl

end Open

end Dolos
