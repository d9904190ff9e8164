import Dolos.Cardano.CloseCredits
import Dolos.Cardano.ShardRows

/-!
# What a shard loads

A shard loads its classifications from a store that the shards before it have changed. They
read nothing of an account but its delegation to a representative at an earlier epoch, which
rewards and drops leave alone, and nothing of the two singletons that a shard writes: so
each shard loads what the first one did, and queues for an account what it would in any
other cut.
-/

namespace Dolos

open Outcome AccountDelta

/-- Computations that agree once a function has been over what they give. -/
theorem Outcome.map_eq_map {ε α β : Type} {first second : Except ε α} {f : α → β}
    (same : f <$> second = f <$> first) :
    (∃ failure, second = .error failure ∧ first = .error failure) ∨
      ∃ value other, second = .ok value ∧ first = .ok other ∧ f value = f other := by
  cases second with
  | error failure =>
      cases first with
      | error otherFailure =>
          cases same
          exact Or.inl ⟨failure, rfl, rfl⟩
      | ok other => cases same
  | ok value =>
      cases first with
      | error failure => cases same
      | ok other => exact Or.inr ⟨value, other, rfl, rfl, Except.ok.inj same⟩

section Groups

/-- A queue that keys what it makes of a row by the row gives each row its own deltas. -/
theorem groupOf_flatMap_own {queue : EntityKey × AccountState → List AccountDelta}
    (own : ∀ row, ∀ delta ∈ queue row, delta.key = toLex (.accounts, row.1))
    {rows : List (EntityKey × AccountState)} (nodup : (rows.map Prod.fst).Nodup)
    {row : EntityKey × AccountState} (member : row ∈ rows) :
    groupOf (rows.flatMap queue) row.1 = queue row := by
  have others : ∀ other : EntityKey × AccountState, other.1 ≠ row.1 →
      groupOf (queue other) row.1 = [] := by
    intro other apart
    apply List.filter_eq_nil_iff.mpr
    intro delta isDelta same
    rw [decide_eq_true_eq, own other delta isDelta] at same
    exact apart (congrArg (fun index : NsKey => (ofLex index).2) same)
  induction rows with
  | nil => cases member
  | cons head rest ih =>
      rcases List.nodup_cons.mp nodup with ⟨headOnce, restNodup⟩
      rw [List.flatMap_cons, groupOf_append]
      rcases List.mem_cons.mp member with rfl | isLater
      · have noneLater : groupOf (rest.flatMap queue) row.1 = [] := by
          apply List.filter_eq_nil_iff.mpr
          intro delta isDelta same
          rcases List.mem_flatMap.mp isDelta with ⟨other, isOther, made⟩
          rw [decide_eq_true_eq, own other delta made] at same
          have sameKey : other.1 = row.1 := congrArg (fun index : NsKey => (ofLex index).2) same
          exact headOnce (List.mem_map.mpr ⟨other, isOther, sameKey⟩)
        rw [noneLater, List.append_nil]
        apply List.filter_eq_self.mpr
        intro delta isDelta
        exact decide_eq_true (own row delta isDelta)
      · have apart : head.1 ≠ row.1 := by
          intro same
          exact headOnce (List.mem_map.mpr ⟨row, isLater, same.symm⟩)
        rw [others head apart, List.nil_append]
        exact ih restNodup isLater

/-- A stream over rows that all take their deltas does not stop. -/
theorem streamAndApply_runs {deltas : List AccountDelta} {rows : List (EntityKey × AccountState)}
    (settle : ∀ row ∈ rows, ∃ after, applyAll (some row.2) (groupOf deltas row.1) = .ok after)
    (store : OrderedMap NsKey CardanoEntity) :
    ∃ written, streamAndApply deltas rows store = .ok written := by
  induction rows generalizing store with
  | nil => exact ⟨store, rfl⟩
  | cons head rest ih =>
      have settleRest : ∀ row ∈ rest,
          ∃ after, applyAll (some row.2) (groupOf deltas row.1) = .ok after := by
        intro row member
        exact settle row (List.mem_cons_of_mem _ member)
      rcases settle head List.mem_cons_self with ⟨after, applied⟩
      rw [streamAndApply, List.foldlM_cons]
      cases group : groupOf deltas head.1 with
      | nil => exact ih settleRest store
      | cons first others =>
          rw [group] at applied
          simp only [applied, ok_bind]
          exact ih settleRest _

end Groups

/-- What the close queues for an account. -/
def ShardLoad.queued (load : ShardLoad) (store : OrderedMap NsKey CardanoEntity)
    (row : EntityKey × AccountState) : List AccountDelta :=
  (assignmentOf (rewardRow store) row).toList.map AccountDelta.assignRewards ++
    (load.drops row).map DelegationDrop.toDelta

section Loads

variable {load : ShardLoad} {store : OrderedMap NsKey CardanoEntity}

theorem DelegationDrop.key_drops {row : EntityKey × AccountState} {drop : DelegationDrop}
    (member : drop ∈ load.drops row) : drop.toDelta.key = toLex (.accounts, row.1) := by
  have isNew : drop = .pool (.new row.1 load.work.closing) ∨
      drop = .drep (.new row.1 load.work.closing) := by
    rcases List.mem_append.mp member with visited | migrated
    · rcases List.mem_append.mp visited with isPool | isDRep
      · split at isPool
        · split_ifs at isPool with retiring
          · exact Or.inl (List.mem_singleton.mp isPool)
          · cases isPool
        · cases isPool
      · split at isDRep
        · split_ifs at isDRep with clears
          · exact Or.inr (List.mem_singleton.mp isDRep)
          · cases isDRep
        · cases isDRep
    · unfold ShardLoad.migrationDrops at migrated
      split_ifs at migrated with stays
      · cases migrated
      · split at migrated
        · split_ifs at migrated with dangling
          · exact Or.inr (List.mem_singleton.mp migrated)
          · cases migrated
        · cases migrated
  rcases isNew with rfl | rfl
  · rfl
  · rfl

theorem key_queued {row : EntityKey × AccountState} {delta : AccountDelta}
    (member : delta ∈ load.queued store row) : delta.key = toLex (.accounts, row.1) := by
  rcases List.mem_append.mp member with isReward | isDrop
  · rcases List.mem_map.mp isReward with ⟨assigned, isAssigned, rfl⟩
    unfold assignmentOf at isAssigned
    split_ifs at isAssigned with registered
    · rcases Option.map_eq_some_iff.mp (Option.mem_toList.mp isAssigned) with ⟨reward, -, rfl⟩
      rfl
    · cases isAssigned
  · rcases List.mem_map.mp isDrop with ⟨drop, isMade, rfl⟩
    exact DelegationDrop.key_drops isMade

/-- The deltas of a shard under the key of one of its accounts. -/
theorem groupOf_shard {rows : List (EntityKey × AccountState)}
    (nodup : (rows.map Prod.fst).Nodup) {row : EntityKey × AccountState} (member : row ∈ rows) :
    groupOf ((rows.filterMap (assignmentOf (rewardRow store))).map AccountDelta.assignRewards ++
        (rows.flatMap load.drops).map DelegationDrop.toDelta) row.1 =
      load.queued store row := by
  have asQueue : (rows.filterMap (assignmentOf (rewardRow store))).map AccountDelta.assignRewards =
      rows.flatMap fun row =>
        (assignmentOf (rewardRow store) row).toList.map AccountDelta.assignRewards := by
    rw [List.filterMap_eq_flatMap_toList, List.map_flatMap]
  have dropsQueue : (rows.flatMap load.drops).map DelegationDrop.toDelta =
      rows.flatMap fun row => (load.drops row).map DelegationDrop.toDelta := List.map_flatMap ..
  have rewardsOwn : ∀ row : EntityKey × AccountState, ∀ delta ∈
      (assignmentOf (rewardRow store) row).toList.map AccountDelta.assignRewards,
      delta.key = toLex (.accounts, row.1) := by
    intro row delta isReward
    exact @key_queued load store row delta (List.mem_append_left _ isReward)
  have dropsOwn : ∀ row : EntityKey × AccountState, ∀ delta ∈
      (load.drops row).map DelegationDrop.toDelta, delta.key = toLex (.accounts, row.1) := by
    intro row delta isDrop
    exact @key_queued load store row delta (List.mem_append_right _ isDrop)
  rw [groupOf_append, asQueue, dropsQueue, groupOf_flatMap_own rewardsOwn nodup member,
    groupOf_flatMap_own dropsOwn nodup member]
  rfl

end Loads

/-- Tables that a shard cannot tell apart: the accounts may differ but in the delegation that
the ruling looks at. -/
structure SameTables (closing : ℕ) (first second : BoundaryStore) : Prop where
  proposals : second.proposals = first.proposals
  pools : second.pools = first.pools
  delegations : ∀ key,
    (second.accounts.get? key).map (fun account => account.delegatedDRepAt (closing - 1)) =
      (first.accounts.get? key).map fun account => account.delegatedDRepAt (closing - 1)

section SameTables

variable [AddressDecoding] {work : BoundaryWork} {first second : BoundaryStore}

theorem operators_loadPool (pool : PoolState) :
    (List.map fun retiring : RetiringPool => retiring.pool.operator) <$>
        work.loadPool second pool =
      (List.map fun retiring : RetiringPool => retiring.pool.operator) <$>
        work.loadPool first pool := by
  unfold BoundaryWork.loadPool
  cases pool.snapshot.unwrapLive.mapError DomainError.panic with
  | error failure => rfl
  | ok live =>
      simp only [ok_bind]
      split_ifs with retires
      · cases BoundaryWork.poolRewardAccount pool live with
        | none => rfl
        | some credential => rfl
      · rfl

theorem operators_loadPools (entries : List (EntityKey × PoolState)) :
    (List.map (List.map fun retiring : RetiringPool => retiring.pool.operator)) <$>
        (entries.mapM fun entry => work.loadPool second entry.2) =
      (List.map (List.map fun retiring : RetiringPool => retiring.pool.operator)) <$>
        entries.mapM fun entry => work.loadPool first entry.2 := by
  induction entries with
  | nil => rfl
  | cons entry rest ih =>
      have head := @operators_loadPool _ work first second entry.2
      rw [List.mapM_cons, List.mapM_cons]
      rcases map_eq_map head with ⟨failure, one, other⟩ | ⟨loaded, held, one, other, sameHead⟩
      · rw [one, other]
        rfl
      · rw [one, other]
        simp only [ok_bind]
        rcases map_eq_map ih with ⟨failure, tail, otherTail⟩ | ⟨loadedRest, heldRest, tail,
          otherTail, sameTail⟩
        · rw [tail, otherTail]
          rfl
        · rw [tail, otherTail]
          exact congrArg Except.ok (congrArg₂ List.cons sameHead sameTail)

/-- Which pools retire does not depend on the accounts. -/
theorem SameTables.retiringPools {closing : ℕ} (same : SameTables closing first second) :
    work.retiringPools second = work.retiringPools first := by
  have operators := @operators_loadPools _ work first second first.pools.entries
  unfold BoundaryWork.retiringPools BoundaryWork.loadPoolData
  rw [same.pools]
  rcases map_eq_map operators with ⟨failure, one, other⟩ | ⟨loaded, held, one, other, sameLists⟩
  · rw [one, other]
  · have flattened := congrArg List.flatten sameLists
    rw [← List.map_flatten, ← List.map_flatten] at flattened
    have sameEmpty : loaded.flatten.isEmpty = held.flatten.isEmpty := by
      have mapped := congrArg List.isEmpty flattened
      rwa [List.isEmpty_map, List.isEmpty_map] at mapped
    rw [one, other]
    simp only [ok_bind, flattened, sameEmpty]

/-- The account a pool is paid to does not depend on the accounts. -/
theorem BoundaryWork.exists_loadPoolRewardAccount (state : PoolState) :
    ∃ chosen : Except Panic (Option StakeCredential), ∀ tables : BoundaryStore,
      BoundaryWork.loadPoolRewardAccount tables state =
        (fun account => account.bind fun account => tables.accounts.get? account.key) <$> chosen := by
  unfold BoundaryWork.loadPoolRewardAccount
  cases scheduled : state.snapshot.next with
  | some next =>
      exact ⟨.ok (AddressDecoding.parseRewardAccount next.params.rewardAccount), fun _ => rfl⟩
  | none =>
      cases live : state.snapshot.unwrapLive with
      | error failure => exact ⟨.error failure, fun _ => rfl⟩
      | ok snapshot =>
          exact ⟨.ok (AddressDecoding.parseRewardAccount snapshot.params.rewardAccount),
            fun _ => rfl⟩

theorem SameTables.poolDefaultVote (same : SameTables work.closing first second) (pool : Hash28) :
    work.poolDefaultVote second pool = work.poolDefaultVote first pool := by
  unfold BoundaryWork.poolDefaultVote
  rw [same.pools]
  cases first.pools.get? (.ofHash28 pool) with
  | none => rfl
  | some state =>
      rcases BoundaryWork.exists_loadPoolRewardAccount state with ⟨chosen, loads⟩
      simp only [loads]
      rcases chosen with failure | (_ | credential)
      · rfl
      · rfl
      · apply congrArg Except.ok
        have delegation := same.delegations credential.key
        simp only [Option.bind_some]
        cases held : first.accounts.get? credential.key with
        | none =>
            rw [held] at delegation
            rw [Option.map_eq_none_iff.mp delegation]
        | some account =>
            rw [held] at delegation
            rcases Option.map_eq_some_iff.mp delegation with ⟨moved, isMoved, delegated⟩
            rw [isMoved]
            simp only [Option.bind_some, delegated]

theorem SameTables.runRatification (same : SameTables work.closing first second) :
    work.runRatification second = work.runRatification first := by
  have votes : work.poolDefaultVote second = work.poolDefaultVote first :=
    funext same.poolDefaultVote
  simp only [BoundaryWork.runRatification, BoundaryWork.resolvePreConway,
    BoundaryWork.buildRatifyInput, BoundaryWork.poolDefaultVotes, BoundaryWork.snapshot,
    BoundaryWork.rule, BoundaryWork.liveForest, votes, same.proposals]

theorem SameTables.detectPv10Migration (same : SameTables work.closing first second) :
    work.detectPv10Migration second = work.detectPv10Migration first := by
  simp only [BoundaryWork.detectPv10Migration, same.proposals, same.runRatification]

end SameTables

/-- The work with what shards have written to the two singletons. -/
def BoundaryWork.stirred (work : BoundaryWork) (stats : Option EndStats)
    (progress : Option ShardProgress) (distr : Option GovDistr) : BoundaryWork :=
  { work with
    endingState := { work.endingState with endStats := stats, ewrapProgress := progress }
    gov := { work.gov with distr := distr } }

def ShardLoad.stirred (load : ShardLoad) (stats : Option EndStats)
    (progress : Option ShardProgress) (distr : Option GovDistr) : ShardLoad :=
  { load with work := load.work.stirred stats progress distr }

/-- The tables of a store that shards have gone over: an account they wrote has the
delegations to representatives it had. -/
structure Moved (store moved : OrderedMap NsKey CardanoEntity) : Prop where
  tables : ∀ index : NsKey, (ofLex index).1 ≠ .accounts → (ofLex index).1 ≠ .pendingRewards →
    (ofLex index).1 ≠ .epochs → (ofLex index).1 ≠ .gov → moved.get? index = store.get? index
  accounts : ∀ key, moved.get? (toLex (.accounts, key)) = store.get? (toLex (.accounts, key)) ∨
    ∃ account after, store.get? (toLex (.accounts, key)) = some (.account account) ∧
      moved.get? (toLex (.accounts, key)) = some (.account after) ∧
      ∀ epoch, after.delegatedDRepAt epoch = account.delegatedDRepAt epoch

section Moved

variable {store moved : OrderedMap NsKey CardanoEntity}

theorem delegated_apply {account after : AccountState} {delta : AccountDelta}
    (stays : delta.isTransition = false)
    (applied : delta.apply (some account) = .ok (some after)) (epoch : ℕ) :
    after.delegatedDRepAt epoch = account.delegatedDRepAt epoch := by
  cases delta with
  | assignRewards delta =>
      rcases map_eq_ok.mp applied with ⟨⟨filled, entity⟩, done, rfl⟩
      simp only [EntityDelta.apply, expect_some, ok_bind] at done
      rcases bind_eq_ok.mp done with ⟨⟨stake, changed⟩, one, last⟩
      rcases bind_eq_ok.mp one with ⟨live, -, changedEq⟩
      rcases Except.ok.inj last with ⟨⟩
      rcases Except.ok.inj changedEq with ⟨⟩
      rfl
  | treasuryWithdrawal delta =>
      rcases map_eq_ok.mp applied with ⟨⟨filled, entity⟩, done, rfl⟩
      simp only [EntityDelta.apply, expect_some, ok_bind] at done
      rcases bind_eq_ok.mp done with ⟨⟨stake, changed⟩, one, last⟩
      rcases bind_eq_ok.mp one with ⟨live, -, changedEq⟩
      rcases Except.ok.inj last with ⟨⟩
      rcases Except.ok.inj changedEq with ⟨⟩
      rfl
  | poolDepositRefund delta =>
      rcases map_eq_ok.mp applied with ⟨⟨filled, entity⟩, done, rfl⟩
      simp only [EntityDelta.apply, expect_some, ok_bind] at done
      rcases bind_eq_ok.mp done with ⟨changed, one, last⟩
      rcases bind_eq_ok.mp one with ⟨live, -, changedEq⟩
      rcases Except.ok.inj last with ⟨⟩
      rcases Except.ok.inj changedEq with rfl
      rfl
  | proposalDepositRefund delta =>
      rcases map_eq_ok.mp applied with ⟨⟨filled, entity⟩, done, rfl⟩
      simp only [EntityDelta.apply, expect_some, ok_bind] at done
      rcases bind_eq_ok.mp done with ⟨changed, one, last⟩
      rcases bind_eq_ok.mp one with ⟨live, -, changedEq⟩
      rcases Except.ok.inj last with ⟨⟩
      rcases Except.ok.inj changedEq with rfl
      rfl
  | poolDelegatorRetire delta =>
      simp only [AccountDelta.apply, EntityDelta.apply, expect_some, ok_bind] at applied
      split at applied
      · rcases Except.ok.inj applied with ⟨⟩
        rfl
      · cases applied
  | drepDelegatorDrop delta =>
      rcases Except.ok.inj applied with ⟨⟩
      rfl
  | accountTransition delta => cases stays

theorem delegated_applyAll {account after : AccountState} {deltas : List AccountDelta}
    (stays : ∀ delta ∈ deltas, delta.isTransition = false)
    (applied : applyAll (some account) deltas = .ok (some after)) (epoch : ℕ) :
    after.delegatedDRepAt epoch = account.delegatedDRepAt epoch := by
  induction deltas generalizing account with
  | nil =>
      rcases Except.ok.inj applied with ⟨⟩
      rfl
  | cons delta rest ih =>
      rw [applyAll, List.foldlM_cons] at applied
      rcases bind_eq_ok.mp applied with ⟨next, one, others⟩
      rcases SameOwner.apply one with ⟨middle, rfl, -⟩
      rw [ih (fun other member => stays other (List.mem_cons_of_mem _ member)) others]
      exact delegated_apply (stays delta List.mem_cons_self) one epoch

theorem Moved.sameTables (kept : Moved store moved) (closing : ℕ) :
    SameTables closing (boundaryStore store) (boundaryStore moved) := by
  refine ⟨?_, ?_, ?_⟩
  · refine congrArg OrderedMap.ofList (iterEntityRows_congr ?_)
    intro key _
    exact kept.tables _ (by intro same; cases same) (by intro same; cases same)
      (by intro same; cases same) (by intro same; cases same)
  · refine congrArg OrderedMap.ofList (iterEntityRows_congr ?_)
    intro key _
    exact kept.tables _ (by intro same; cases same) (by intro same; cases same)
      (by intro same; cases same) (by intro same; cases same)
  · intro key
    rcases kept.accounts key with same | ⟨account, after, held, isMoved, delegated⟩
    · have sameRow : (boundaryStore moved).accounts.get? key =
          (boundaryStore store).accounts.get? key := by
        apply Option.ext
        intro account
        rw [get?_accounts, get?_accounts, same]
      rw [sameRow]
    · rw [get?_accounts.mpr held, get?_accounts.mpr isMoved]
      exact congrArg some (delegated _)

/-- A shard loads from a store that others have gone over what it would have loaded before,
but for the two singletons. -/
theorem ShardLoad.ofStore_moved [AddressDecoding] {eras : BoundaryEras} {load : ShardLoad}
    (loaded : ShardLoad.ofStore eras store = .ok load) (kept : Moved store moved)
    {stats : Option EndStats} {progress : Option ShardProgress} {distr : Option GovDistr}
    (epochEq : loadEpoch moved =
      .ok { load.work.endingState with endStats := stats, ewrapProgress := progress })
    (govEq : loadGov moved = .ok { load.work.gov with distr := distr }) :
    ShardLoad.ofStore eras moved = .ok (load.stirred stats progress distr) := by
  rcases bind_eq_ok.mp loaded with ⟨ending, endingEq, withEnding⟩
  rcases bind_eq_ok.mp withEnding with ⟨gov, isGov, withGov⟩
  rcases bind_eq_ok.mp withGov with ⟨retiring, retiringEq, withRetiring⟩
  rcases bind_eq_ok.mp withRetiring with ⟨dreps, drepsEq, withDReps⟩
  rcases bind_eq_ok.mp withDReps with ⟨epochStart, startEq, withStart⟩
  rcases bind_eq_ok.mp withStart with ⟨migrates, migratesEq, loadEq⟩
  rcases Except.ok.inj loadEq with rfl
  have tables := kept.sameTables ending.number
  have sameRetiring : ((BoundaryWork.newEmpty eras ending gov).stirred stats progress
      distr).retiringPools (boundaryStore moved) =
        (BoundaryWork.newEmpty eras ending gov).retiringPools (boundaryStore store) :=
    tables.retiringPools
  have sameDReps : iterEntityRows moved DRepState none = iterEntityRows store DRepState none := by
    apply iterEntityRows_congr
    intro key _
    exact kept.tables _ (by intro same; cases same) (by intro same; cases same)
      (by intro same; cases same) (by intro same; cases same)
  have sameMigration : ({ BoundaryWork.newEmpty eras ending gov with
        epochStart := epochStart
        ratifyDReps := dreps.ratifyDReps }).detectPv10Migration (boundaryStore moved) =
      ({ BoundaryWork.newEmpty eras ending gov with
        epochStart := epochStart
        ratifyDReps := dreps.ratifyDReps }).detectPv10Migration (boundaryStore store) :=
    SameTables.detectPv10Migration tables
  refine bind_eq_ok.mpr ⟨_, epochEq, bind_eq_ok.mpr ⟨_, govEq, bind_eq_ok.mpr ⟨retiring, ?_,
    bind_eq_ok.mpr ⟨dreps, ?_, bind_eq_ok.mpr ⟨epochStart, startEq,
      bind_eq_ok.mpr ⟨migrates, ?_, ?_⟩⟩⟩⟩⟩⟩
  · rw [← retiringEq, ← sameRetiring]
    rfl
  · rw [sameDReps]
    exact drepsEq
  · rw [← migratesEq, ← sameMigration]
    rfl
  · rw [tables.proposals]
    rfl

end Moved

end Dolos
