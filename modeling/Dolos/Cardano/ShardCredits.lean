import Dolos.Cardano.AccountCredits
import Dolos.Cardano.RewardAccounting

/-!
# The shards of a boundary, account by account

The shards of the close assign to each account what its row of rewards holds, the shards of
the open move each account on once. An account is in the ranges of one shard, so whatever
the others do leaves its rows alone.
-/

namespace Dolos

open Outcome

namespace EwrapShard

variable {work : EwrapShard} {account : AccountState}

/-- What a visit of an account would assign to it. -/
def owedTo (work : EwrapShard) (account : AccountState) : ℕ :=
  if account.isRegistered then
    (work.rewards.pending.get? account.credential).elim 0 Reward.totalValue
  else 0

/-- Whoever is visited, an account has been assigned or is still owed the same in all. -/
theorem settled_visitAccount {row : EntityKey × AccountState}
    (keyed : row.1 = row.2.credential.key)
    (own : row.2.credential = account.credential → row.2 = account) :
    assignedTo (work.visitAccount row).deltas account.credential.key +
        (work.visitAccount row).owedTo account =
      assignedTo work.deltas account.credential.key + work.owedTo account := by
  have pending := @pending_visitAccount work row account.credential
  by_cases isOwn : row.2.credential = account.credential
  · rw [if_pos isOwn.symm] at pending
    simp only [owedTo, pending, Option.elim_none, ite_self, Nat.add_zero]
    unfold visitAccount RewardMap.takeForApply
    rw [isOwn]
    have same := own isOwn
    cases found : work.rewards.pending.get? account.credential with
    | none => simp
    | some reward =>
        simp only [Option.map_some, Option.elim_some, same]
        by_cases registered : account.isRegistered = true
        · have isKey : account.credential.key = row.1 := by rw [keyed, isOwn]
          simp [registered, assignedTo, isKey, AssignRewards.new]
        · simp [registered, assignedTo]
  · have apart : ¬ account.credential = row.2.credential := fun same => isOwn same.symm
    rw [if_neg apart] at pending
    have otherKey : row.1 ≠ account.credential.key := by
      intro same
      exact isOwn (StakeCredential.key_injective (keyed.symm.trans same))
    have credited : assignedTo (work.visitAccount row).deltas account.credential.key =
        assignedTo work.deltas account.credential.key := by
      unfold visitAccount RewardMap.takeForApply
      cases found : work.rewards.pending.get? row.2.credential with
      | none => rfl
      | some reward =>
          simp only [Option.map_some]
          split_ifs with unregistered
          · rfl
          · simp [assignedTo, AssignRewards.new, otherKey]
    rw [credited]
    simp only [owedTo, pending]

theorem settled_visitAll {rows : List (EntityKey × AccountState)}
    (keyed : ∀ row ∈ rows, row.1 = row.2.credential.key)
    (own : ∀ row ∈ rows, row.2.credential = account.credential → row.2 = account) :
    assignedTo (rows.foldl visitAccount work).deltas account.credential.key +
        (rows.foldl visitAccount work).owedTo account =
      assignedTo work.deltas account.credential.key + work.owedTo account := by
  induction rows generalizing work with
  | nil => rfl
  | cons row rest ih =>
      rw [List.foldl_cons,
        ih (fun other member => keyed other (List.mem_cons_of_mem _ member))
          (fun other member => own other (List.mem_cons_of_mem _ member))]
      exact settled_visitAccount (keyed row List.mem_cons_self) (own row List.mem_cons_self)

end EwrapShard

section AccountRows

variable {store : OrderedMap NsKey CardanoEntity} {ranges : List KeyRange}
  {shardIndex totalShards : ℕ}

theorem any_contains (isRanges : shardKeyRanges shardIndex totalShards = .ok ranges)
    (credential : StakeCredential) :
    (ranges.any fun range => range.contains credential.key) =
      decide (shardOf totalShards credential = shardIndex) := by
  rcases shardKeyRanges_eq_ok isRanges with ⟨valid, below, -⟩
  rcases exists_shardKeyRanges valid below with ⟨known, knownEq, contained⟩
  rw [isRanges] at knownEq
  rcases Except.ok.inj knownEq with rfl
  exact contained credential

theorem mem_accountRowsIn {row : EntityKey × AccountState} :
    row ∈ accountRowsIn store ranges ↔
      store.get? (toLex (.accounts, row.1)) = some (.account row.2) ∧
        ranges.any fun range => range.contains row.1 := by
  simp only [accountRowsIn, List.mem_flatMap, mem_iterAccountRows, Option.all_some,
    List.any_eq_true]
  constructor
  · rintro ⟨range, isRange, held, contained⟩
    exact ⟨held, range, isRange, contained⟩
  · rintro ⟨held, range, isRange, contained⟩
    exact ⟨range, isRange, held, contained⟩

theorem nodup_iterEntityRows (E : Type) [EntityVariant E] (range : Option KeyRange) :
    ((iterEntityRows store E range).map Prod.fst).Nodup := by
  refine List.pairwise_map.mpr (List.pairwise_filterMap.mpr ?_)
  refine store.sorted.imp ?_
  intro first second less row read other readOther same
  split_ifs at read readOther with inRange otherInRange
  rcases Option.map_eq_some_iff.mp read with ⟨entity, -, rfl⟩
  rcases Option.map_eq_some_iff.mp readOther with ⟨otherEntity, -, rfl⟩
  have sameIndex : first.1 = second.1 := by
    have sameNs := inRange.1.trans otherInRange.1.symm
    exact (Prod.ext sameNs same : ofLex first.1 = ofLex second.1)
  exact absurd sameIndex (ne_of_lt less)

/-- A scan of a range looks at the keys of its range only. -/
theorem iterEntityRows_congr {E : Type} [EntityVariant E] {range : Option KeyRange}
    {other : OrderedMap NsKey CardanoEntity}
    (same : ∀ key, (range.all fun range => range.contains key) = true →
      other.get? (toLex (EntityVariant.namespaceOf E, key)) =
        store.get? (toLex (EntityVariant.namespaceOf E, key))) :
    iterEntityRows other E range = iterEntityRows store E range := by
  have sameTable : other.filter (fun index _ =>
        decide ((ofLex index).1 = EntityVariant.namespaceOf E ∧
          range.all (fun range => range.contains (ofLex index).2))) =
      store.filter fun index _ => decide ((ofLex index).1 = EntityVariant.namespaceOf E ∧
          range.all (fun range => range.contains (ofLex index).2)) := by
    apply OrderedMap.ext
    intro index
    rw [OrderedMap.get?_filter, OrderedMap.get?_filter]
    by_cases inTable : (ofLex index).1 = EntityVariant.namespaceOf E ∧
        range.all (fun range => range.contains (ofLex index).2)
    · have isIndex : toLex (EntityVariant.namespaceOf E, (ofLex index).2) = index := by
        rw [← inTable.1]
        rfl
      rw [← isIndex, same _ inTable.2]
    · simp [inTable]
  have ofTable : ∀ table : OrderedMap NsKey CardanoEntity, iterEntityRows table E range =
      iterEntityRows (table.filter fun index _ =>
        decide ((ofLex index).1 = EntityVariant.namespaceOf E ∧
          range.all (fun range => range.contains (ofLex index).2))) E range := by
    intro table
    rw [iterEntityRows, iterEntityRows, OrderedMap.filter, List.filterMap_filter]
    refine List.filterMap_congr ?_
    intro entry _
    by_cases inTable : (ofLex entry.1).1 = EntityVariant.namespaceOf E ∧
        range.all (fun range => range.contains (ofLex entry.1).2)
    · simp [inTable]
    · simp [inTable]
  rw [ofTable other, ofTable store, sameTable]

theorem AccountsKeyed.nodup_rows (keyed : AccountsKeyed store)
    (isRanges : shardKeyRanges shardIndex totalShards = .ok ranges) :
    ((accountRowsIn store ranges).map Prod.fst).Nodup := by
  rcases shardKeyRanges_eq_ok isRanges with ⟨valid, below, rfl⟩
  simp only [accountRowsIn, List.flatMap_cons, List.flatMap_nil, List.append_nil, List.map_append]
  refine List.nodup_append.mpr
    ⟨nodup_iterEntityRows AccountState _, nodup_iterEntityRows AccountState _, ?_⟩
  intro key isFirst other isSecond same
  rcases List.mem_map.mp isFirst with ⟨first, inFirst, rfl⟩
  rcases List.mem_map.mp isSecond with ⟨second, inSecond, rfl⟩
  rcases mem_iterAccountRows.mp inFirst with ⟨firstHeld, firstContained⟩
  rcases mem_iterAccountRows.mp inSecond with ⟨secondHeld, secondContained⟩
  rw [Option.all_some, keyed _ _ firstHeld, contains_variantRange valid below] at firstContained
  rw [Option.all_some, keyed _ _ secondHeld, contains_variantRange valid below] at secondContained
  have sameOwner : first.2.credential = second.2.credential :=
    StakeCredential.key_injective
      ((keyed _ _ firstHeld).symm.trans (same.trans (keyed _ _ secondHeld)))
  rw [sameOwner, secondContained.1] at firstContained
  exact absurd firstContained.1 (by decide)

end AccountRows

/-- What the rows of a store hold for a credential. -/
def rewardsOf (store : OrderedMap NsKey CardanoEntity) (credential : StakeCredential) : ℕ :=
  ((store.get? (PendingRewardState.nsKey credential)).bind EntityVariant.project).elim 0
    PendingRewardState.totalValue

section EwrapShards

open AccountDelta

variable {store next : OrderedMap NsKey CardanoEntity} {ranges : List KeyRange}
  {shardIndex totalShards : ℕ} {endingState : EpochState}
  {drops : EntityKey × AccountState → List DelegationDrop}

theorem get?_loaded_eq_rewardsOf (written : RewardsWritten store)
    (isRanges : shardKeyRanges shardIndex totalShards = .ok ranges) {credential : StakeCredential}
    (inShard : shardOf totalShards credential = shardIndex) :
    ((loadPendingRewardsRanges store ranges).get? credential).elim 0 Reward.totalValue =
      rewardsOf store credential := by
  have contained : (ranges.any fun range => range.contains credential.key) = true := by
    rw [any_contains isRanges]
    exact decide_eq_true inShard
  unfold rewardsOf
  cases read : (store.get? (PendingRewardState.nsKey credential)).bind
      (EntityVariant.project (E := PendingRewardState)) with
  | none =>
      cases loaded : (loadPendingRewardsRanges store ranges).get? credential with
      | none => rfl
      | some reward =>
          rcases (written.get?_loaded isRanges).mp loaded with ⟨row, member, rfl, rfl⟩
          rw [(written.mem_rows.mp member).1] at read
          cases read
  | some row =>
      rcases Option.bind_eq_some_iff.mp read with ⟨entity, held, projected⟩
      have entityEq : entity = .pendingReward row := by
        cases entity <;> simp_all [EntityVariant.project]
      rw [entityEq] at held
      have own : row.credential = credential := by
        rcases written credential.key row held with ⟨owner, reward, sameKey, rfl⟩
        rw [PendingRewardState.credential_ofReward]
        exact (StakeCredential.key_injective sameKey).symm
      have member : row ∈ pendingRowsIn store ranges := by
        refine written.mem_rows.mpr ?_
        rw [own]
        exact ⟨held, contained⟩
      rw [(written.get?_loaded isRanges).mpr ⟨row, member, own, rfl⟩]
      exact (written.reads member).1

theorem assignedTo_compute (written : RewardsWritten store) (keyed : AccountsKeyed store)
    (isRanges : shardKeyRanges shardIndex totalShards = .ok ranges) {account : AccountState}
    (held : store.get? (AccountState.nsKey account.credential) = some (.account account))
    (inShard : shardOf totalShards account.credential = shardIndex) :
    assignedTo (EwrapShard.compute store endingState ranges).deltas account.credential.key =
      if account.isRegistered then rewardsOf store account.credential else 0 := by
  have contained : (ranges.any fun range => range.contains account.credential.key) = true := by
    rw [any_contains isRanges]
    exact decide_eq_true inShard
  have rowsKeyed : ∀ row ∈ accountRowsIn store ranges, row.1 = row.2.credential.key :=
    fun row member => keyed _ _ (mem_accountRowsIn.mp member).1
  have rowsOwn : ∀ row ∈ accountRowsIn store ranges,
      row.2.credential = account.credential → row.2 = account := by
    intro row member same
    have rowHeld := (mem_accountRowsIn.mp member).1
    rw [rowsKeyed row member, same] at rowHeld
    exact CardanoEntity.account.inj (Option.some.inj (rowHeld.symm.trans held))
  have settled := @EwrapShard.settled_visitAll
    ⟨.fromPending (loadPendingRewardsRanges store ranges), [], [], []⟩ account _ rowsKeyed rowsOwn
  have visited := @EwrapShard.pending_visitAll
    ⟨.fromPending (loadPendingRewardsRanges store ranges), [], [], []⟩
    (accountRowsIn store ranges) account.credential
  have isVisited : account.credential ∈ (accountRowsIn store ranges).map fun row =>
      row.2.credential := keyed.mem_visited.mpr ⟨⟨account, held⟩, contained⟩
  rw [if_pos isVisited] at visited
  have nothingOwed : ((accountRowsIn store ranges).foldl EwrapShard.visitAccount
      ⟨.fromPending (loadPendingRewardsRanges store ranges), [], [], []⟩).owedTo account = 0 := by
    simp [EwrapShard.owedTo, visited]
  rw [nothingOwed, Nat.add_zero] at settled
  refine settled.trans ?_
  simp only [assignedTo, EwrapShard.owedTo, List.filter_nil, List.map_nil, List.sum_nil,
    Nat.zero_add]
  rw [← get?_loaded_eq_rewardsOf written isRanges inShard]
  rfl

/-- What shards of the close do to the rows of an account. -/
structure EwrapShardSpec (totalShards : ℕ) (shards : List ℕ)
    (store next : OrderedMap NsKey CardanoEntity) : Prop where
  keyed : AccountsKeyed next
  written : RewardsWritten next
  elsewhere : ∀ index : NsKey, (ofLex index).1 ≠ .accounts → (ofLex index).1 ≠ .pendingRewards →
    next.get? index = store.get? index
  otherShard : ∀ credential, shardOf totalShards credential ∉ shards →
    next.get? (AccountState.nsKey credential) = store.get? (AccountState.nsKey credential) ∧
      next.get? (PendingRewardState.nsKey credential) =
        store.get? (PendingRewardState.nsKey credential)
  ownShard : ∀ account, shardOf totalShards account.credential ∈ shards →
    store.get? (AccountState.nsKey account.credential) = some (.account account) →
      ∃ group after, AccountDelta.applyAll (some account) group = .ok (some after) ∧
        next.get? (AccountState.nsKey account.credential) = some (.account after) ∧
        (∀ delta ∈ group, delta.isTransition = false) ∧
        AllOn .live (creditsOf group)
          (if account.isRegistered then rewardsOf store account.credential else 0)

theorem ewrapShard_spec (keyed : AccountsKeyed store) (written : RewardsWritten store)
    (ran : ewrapShard drops endingState totalShards store shardIndex = .ok next) :
    EwrapShardSpec totalShards [shardIndex] store next := by
  rcases bind_eq_ok.mp ran with ⟨ranges, isRanges, withRanges⟩
  rcases bind_eq_ok.mp withRanges with ⟨applied, streamed, nextEq⟩
  rcases Except.ok.inj nextEq with rfl
  have rowsHeld : ∀ row ∈ accountRowsIn store ranges,
      store.get? (toLex (.accounts, row.1)) = some (.account row.2) :=
    fun row member => (mem_accountRowsIn.mp member).1
  rcases get?_streamAndApply (keyed.nodup_rows isRanges) rowsHeld streamed with ⟨inRows, outside⟩
  set work := EwrapShard.compute store endingState ranges with workEq
  have deleted : ∀ index : NsKey, (work.deletePending applied).get? index =
      if index ∈ work.deletions then none else applied.get? index := by
    intro index
    rw [EwrapShard.deletePending, OrderedMap.get?_eraseAll]
    split_ifs <;> rfl
  have deletedNs : ∀ index ∈ work.deletions, (ofLex index).1 = .pendingRewards := by
    intro index member
    rcases List.mem_map.mp member with ⟨credential, -, rfl⟩
    rfl
  have keptAccount : ∀ key : EntityKey, (work.deletePending applied).get? (toLex (.accounts, key)) =
      applied.get? (toLex (.accounts, key)) := by
    intro key
    rw [deleted, if_neg]
    intro member
    cases deletedNs _ member
  have notAccount : ∀ index : NsKey, (ofLex index).1 ≠ .accounts →
      applied.get? index = store.get? index := by
    intro index otherNs
    refine outside index ?_
    rintro row - rfl
    exact otherNs rfl
  refine ⟨?_, ?_, ?_, ?_, ?_⟩
  · intro key account heldAfter
    rw [keptAccount] at heldAfter
    exact keyed_streamAndApply keyed (keyed.nodup_rows isRanges) rowsHeld streamed key account
      heldAfter
  · intro key row heldAfter
    rw [deleted] at heldAfter
    split_ifs at heldAfter with isDeleted
    rw [notAccount _ (by intro same; cases same)] at heldAfter
    exact written key row heldAfter
  · intro index otherNs notReward
    rw [deleted, if_neg fun member => notReward (deletedNs _ member)]
    exact notAccount index otherNs
  · intro credential otherShard
    have notContained : (ranges.any fun range => range.contains credential.key) = false := by
      rw [any_contains isRanges]
      exact decide_eq_false fun same => otherShard (List.mem_singleton.mpr same)
    refine ⟨?_, ?_⟩
    · refine (keptAccount _).trans (outside _ ?_)
      intro row member same
      have sameKey : credential.key = row.1 :=
        congrArg (fun index : NsKey => (ofLex index).2) same
      rw [sameKey, (mem_accountRowsIn.mp member).2] at notContained
      cases notContained
    · rw [deleted, if_neg]
      · exact notAccount _ (by intro same; cases same)
      · intro member
        rcases List.mem_map.mp member with ⟨listed, isListed, same⟩
        have sameOwner : listed = credential := StakeCredential.key_injective
          (congrArg (fun index : NsKey => (ofLex index).2) same)
        rw [sameOwner] at isListed
        rcases List.mem_map.mp ((listed_compute endingState written isRanges).mem_iff.mp
          isListed) with ⟨row, isRow, rfl⟩
        rw [(written.mem_rows.mp isRow).2] at notContained
        cases notContained
  · intro account isShard held
    have inShard := List.mem_singleton.mp isShard
    have contained : (ranges.any fun range => range.contains account.credential.key) = true := by
      rw [any_contains isRanges]
      exact decide_eq_true inShard
    have member : (account.credential.key, account) ∈ accountRowsIn store ranges :=
      mem_accountRowsIn.mpr ⟨held, contained⟩
    rcases inRows _ member with ⟨row, groupRan, finalEq⟩
    rcases SameOwner.applyAll groupRan with ⟨after, rfl, -⟩
    refine ⟨_, after, groupRan, (keptAccount _).trans finalEq, ?_, ?_⟩
    · intro delta isDelta
      rcases List.mem_append.mp (List.mem_of_mem_filter isDelta) with isReward | isDrop
      · rcases List.mem_map.mp isReward with ⟨_, -, rfl⟩
        rfl
      · rcases List.mem_map.mp isDrop with ⟨drop, -, rfl⟩
        cases drop <;> rfl
    · refine ⟨(work.deltas.filter fun delta : AssignRewards =>
        delta.account = account.credential.key).map AssignRewards.reward, ?_,
        assignedTo_compute written keyed isRanges held inShard⟩
      rw [groupOf_append, creditsOf_append, creditsOf_drops, List.append_nil,
        creditsOf_groupOf_map AccountDelta.assignRewards AssignRewards.account
          (fun delta => .live delta.reward) (fun _ => rfl) (fun _ => rfl), List.map_map]
      rfl

theorem EwrapShardSpec.cons {middle : OrderedMap NsKey CardanoEntity} {shards : List ℕ}
    (once : shardIndex ∉ shards) (first : EwrapShardSpec totalShards [shardIndex] store middle)
    (rest : EwrapShardSpec totalShards shards middle next) :
    EwrapShardSpec totalShards (shardIndex :: shards) store next := by
  refine ⟨rest.keyed, rest.written, ?_, ?_, ?_⟩
  · intro index notAccount notReward
    rw [rest.elsewhere index notAccount notReward, first.elsewhere index notAccount notReward]
  · intro credential absent
    rcases not_or.mp (mt List.mem_cons.mpr absent) with ⟨notFirst, notRest⟩
    rw [(rest.otherShard credential notRest).1, (rest.otherShard credential notRest).2]
    exact first.otherShard credential fun member => notFirst (List.mem_singleton.mp member)
  · intro account isShard held
    rcases List.mem_cons.mp isShard with isFirst | isRest
    · rcases first.ownShard account (List.mem_singleton.mpr isFirst) held with
        ⟨group, after, groupRan, middleEq, stays, landed⟩
      have notRest : shardOf totalShards account.credential ∉ shards := isFirst ▸ once
      exact ⟨group, after, groupRan,
        ((rest.otherShard account.credential notRest).1.trans middleEq), stays, landed⟩
    · have notFirst : shardOf totalShards account.credential ∉ [shardIndex] := by
        intro member
        exact once (List.mem_singleton.mp member ▸ isRest)
      have kept := first.otherShard account.credential notFirst
      have sameRewards : rewardsOf middle account.credential =
          rewardsOf store account.credential := by
        rw [rewardsOf, kept.2]
        rfl
      rw [← sameRewards]
      exact rest.ownShard account isRest (kept.1.trans held)

/-- All shards together assign to each account what its row holds. -/
theorem ewrapShards_spec {shards : List ℕ} (once : shards.Nodup) (keyed : AccountsKeyed store)
    (written : RewardsWritten store)
    (ran : shards.foldlM (ewrapShard drops endingState totalShards) store = .ok next) :
    EwrapShardSpec totalShards shards store next := by
  induction shards generalizing store with
  | nil =>
      rcases Except.ok.inj ran with rfl
      exact ⟨keyed, written, fun _ _ _ => rfl, fun _ _ => ⟨rfl, rfl⟩,
        fun _ absurdMember => absurd absurdMember List.not_mem_nil⟩
  | cons shard rest ih =>
      rcases List.nodup_cons.mp once with ⟨shardOnce, restOnce⟩
      rw [List.foldlM_cons] at ran
      rcases bind_eq_ok.mp ran with ⟨middle, one, others⟩
      have first := ewrapShard_spec keyed written one
      exact first.cons shardOnce (ih restOnce first.keyed first.written others)

end EwrapShards

section EstartShards

open AccountDelta

variable {store next : OrderedMap NsKey CardanoEntity} {shardIndex totalShards startingEpoch : ℕ}

theorem groupOf_transitions {rows : List (EntityKey × AccountState)}
    (nodup : (rows.map Prod.fst).Nodup) {row : EntityKey × AccountState} (member : row ∈ rows)
    (startingEpoch : ℕ) :
    groupOf (rows.map fun row => .accountTransition (.new row.1 startingEpoch)) row.1 =
      [.accountTransition (.new row.1 startingEpoch)] := by
  have sameKey : ∀ key : EntityKey, ((AccountDelta.accountTransition (.new key startingEpoch)).key =
      toLex (.accounts, row.1)) ↔ key = row.1 := by
    intro key
    constructor
    · intro same
      exact congrArg (fun index : NsKey => (ofLex index).2) same
    · rintro rfl
      rfl
  induction rows with
  | nil => cases member
  | cons head rest ih =>
      rcases List.nodup_cons.mp nodup with ⟨headOnce, restNodup⟩
      rw [List.map_cons, groupOf, List.filter_cons]
      rcases List.mem_cons.mp member with rfl | isLater
      · rw [if_pos (decide_eq_true ((sameKey row.1).mpr rfl))]
        refine congrArg (List.cons _) (List.filter_eq_nil_iff.mpr ?_)
        intro delta isDelta
        rcases List.mem_map.mp isDelta with ⟨other, isOther, rfl⟩
        intro same
        rw [decide_eq_true_eq, sameKey] at same
        exact headOnce (List.mem_map.mpr ⟨other, isOther, same⟩)
      · have apart : head.1 ≠ row.1 := by
          intro same
          exact headOnce (List.mem_map.mpr ⟨row, isLater, same.symm⟩)
        rw [if_neg (by rw [decide_eq_true_eq, sameKey]; exact apart)]
        exact ih restNodup isLater

/-- What shards of the open do to the rows of an account. -/
structure EstartShardSpec (totalShards : ℕ) (shards : List ℕ)
    (store next : OrderedMap NsKey CardanoEntity) : Prop where
  keyed : AccountsKeyed next
  otherShard : ∀ credential, shardOf totalShards credential ∉ shards →
    next.get? (AccountState.nsKey credential) = store.get? (AccountState.nsKey credential)
  ownShard : ∀ account, shardOf totalShards account.credential ∈ shards →
    store.get? (AccountState.nsKey account.credential) = some (.account account) →
      ∃ delta after, AccountDelta.apply (some account) (.accountTransition delta) =
          .ok (some after) ∧
        next.get? (AccountState.nsKey account.credential) = some (.account after)

theorem estartShard_spec (keyed : AccountsKeyed store)
    (ran : estartShard startingEpoch totalShards store shardIndex = .ok next) :
    EstartShardSpec totalShards [shardIndex] store next := by
  rcases bind_eq_ok.mp ran with ⟨ranges, isRanges, streamed⟩
  have rowsHeld : ∀ row ∈ accountRowsIn store ranges,
      store.get? (toLex (.accounts, row.1)) = some (.account row.2) :=
    fun row member => (mem_accountRowsIn.mp member).1
  have nodup := keyed.nodup_rows isRanges
  rcases get?_streamAndApply nodup rowsHeld streamed with ⟨inRows, outside⟩
  refine ⟨keyed_streamAndApply keyed nodup rowsHeld streamed, ?_, ?_⟩
  · intro credential otherShard
    refine outside _ ?_
    intro row member same
    have sameKey : credential.key = row.1 := congrArg (fun index : NsKey => (ofLex index).2) same
    have contained := (mem_accountRowsIn.mp member).2
    rw [← sameKey, any_contains isRanges, decide_eq_true_iff] at contained
    exact otherShard (List.mem_singleton.mpr contained)
  · intro account isShard held
    have contained : (ranges.any fun range => range.contains account.credential.key) = true := by
      rw [any_contains isRanges]
      exact decide_eq_true (List.mem_singleton.mp isShard)
    have member : (account.credential.key, account) ∈ accountRowsIn store ranges :=
      mem_accountRowsIn.mpr ⟨held, contained⟩
    rcases inRows _ member with ⟨row, groupRan, finalEq⟩
    rw [groupOf_transitions nodup member, applyAll, List.foldlM_cons] at groupRan
    rcases bind_eq_ok.mp groupRan with ⟨moved, one, last⟩
    rcases Except.ok.inj last with rfl
    rcases SameOwner.apply one with ⟨after, rfl, -⟩
    exact ⟨_, after, one, finalEq⟩

/-- All shards together move every account on once. -/
theorem estartShards_spec {shards : List ℕ} (once : shards.Nodup) (keyed : AccountsKeyed store)
    (ran : shards.foldlM (estartShard startingEpoch totalShards) store = .ok next) :
    EstartShardSpec totalShards shards store next := by
  induction shards generalizing store with
  | nil =>
      rcases Except.ok.inj ran with rfl
      exact ⟨keyed, fun _ _ => rfl, fun _ isShard => absurd isShard List.not_mem_nil⟩
  | cons shard rest ih =>
      rcases List.nodup_cons.mp once with ⟨shardOnce, restOnce⟩
      rw [List.foldlM_cons] at ran
      rcases bind_eq_ok.mp ran with ⟨middle, one, others⟩
      have first := estartShard_spec keyed one
      have later := ih restOnce first.keyed others
      refine ⟨later.keyed, ?_, ?_⟩
      · intro credential absent
        rcases not_or.mp (mt List.mem_cons.mpr absent) with ⟨notFirst, notRest⟩
        rw [later.otherShard credential notRest]
        exact first.otherShard credential fun member => notFirst (List.mem_singleton.mp member)
      · intro account isShard held
        rcases List.mem_cons.mp isShard with isFirst | isRest
        · rcases first.ownShard account (List.mem_singleton.mpr isFirst) held with
            ⟨delta, after, applied, middleEq⟩
          have notRest : shardOf totalShards account.credential ∉ rest := isFirst ▸ shardOnce
          exact ⟨delta, after, applied,
            (later.otherShard account.credential notRest).trans middleEq⟩
        · have notFirst : shardOf totalShards account.credential ∉ [shard] := by
            intro member
            exact shardOnce (List.mem_singleton.mp member ▸ isRest)
          exact later.ownShard account isRest ((first.otherShard _ notFirst).trans held)

end EstartShards

end Dolos
