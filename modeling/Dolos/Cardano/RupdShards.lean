import Dolos.Cardano.RewardsBound
import Dolos.Cardano.Rupd

/-!
# The reward update by shards

What a shard adds to the globals, account by account, and that the rows the shards
write are those of the single-range path: every row in exactly one shard.
-/

namespace Dolos

open Outcome

/-- Accounts are stored under the keys of their credentials. -/
def AccountsKeyed (store : OrderedMap NsKey CardanoEntity) : Prop :=
  ∀ key account, store.get? (toLex (.accounts, key)) = some (.account account) →
    key = account.credential.key

namespace StakeSnapshot

variable {stakeEpoch protocol : ℕ} {snapshot : StakeSnapshot} {accounts : List AccountState}

/-- The snapshot without what belongs to a shard. -/
def globals (snapshot : StakeSnapshot) : StakeSnapshot :=
  { snapshot with accountsByPool := ∅, registeredAccounts := ∅ }

theorem globals_merged (stakeEpoch protocol : ℕ) (snapshot : StakeSnapshot)
    (accounts : List AccountState) :
    (accounts.foldl (mergeAccount stakeEpoch protocol) snapshot).globals = snapshot.globals := by
  induction accounts generalizing snapshot with
  | nil => rfl
  | cons account rest ih =>
      exact ih (mergeAccount stakeEpoch protocol snapshot account)

theorem pools_merged (stakeEpoch protocol : ℕ) (snapshot : StakeSnapshot)
    (accounts : List AccountState) :
    (accounts.foldl (mergeAccount stakeEpoch protocol) snapshot).pools = snapshot.pools :=
  congrArg (fun globals => globals.pools) (globals_merged stakeEpoch protocol snapshot accounts)

theorem registered_mergeAccount (snapshot : StakeSnapshot) (account : AccountState)
    (credential : StakeCredential) :
    ((mergeAccount stakeEpoch protocol snapshot account).registeredAccounts.get?
        credential).isSome ↔
      (snapshot.registeredAccounts.get? credential).isSome ∨
        (account.credential = credential ∧ account.isRegistered) := by
  simp only [mergeAccount]
  cases registered : account.isRegistered with
  | false => simp
  | true =>
      simp only [if_true, OrderedMap.get?_insert]
      by_cases same : credential = account.credential
      · simp [same]
      · simp [same, Ne.symm same]

theorem registered_merged (snapshot : StakeSnapshot) (accounts : List AccountState)
    (credential : StakeCredential) :
    ((accounts.foldl (mergeAccount stakeEpoch protocol) snapshot).registeredAccounts.get?
        credential).isSome ↔
      (snapshot.registeredAccounts.get? credential).isSome ∨
        ∃ account ∈ accounts, account.credential = credential ∧ account.isRegistered := by
  induction accounts generalizing snapshot with
  | nil => simp
  | cons account rest ih =>
      rw [List.foldl_cons, ih, registered_mergeAccount]
      simp only [List.mem_cons, exists_eq_or_imp, or_assoc]

theorem ofPool_insertStake (map : DelegatorMap) (own pool : Hash28)
    (account credential : StakeCredential) (stake : ℕ) :
    ((map.insertStake own account stake).ofPool pool).get? credential =
      if pool = own ∧ credential = account then some stake
      else (map.ofPool pool).get? credential := by
  simp only [DelegatorMap.insertStake, DelegatorMap.ofPool, OrderedMap.get?_insert]
  by_cases samePool : pool = own
  · subst samePool
    simp [OrderedMap.get?_insert]
  · simp [samePool]

theorem ofPool_mergeAccount (snapshot : StakeSnapshot) (account : AccountState) (pool : Hash28)
    (credential : StakeCredential) :
    ((mergeAccount stakeEpoch protocol snapshot account).accountsByPool.ofPool pool).get?
        credential =
      match delegation snapshot.pools stakeEpoch protocol account with
      | some (own, stake) =>
          if pool = own ∧ credential = account.credential then some stake
          else (snapshot.accountsByPool.ofPool pool).get? credential
      | none => (snapshot.accountsByPool.ofPool pool).get? credential := by
  cases delegated : delegation snapshot.pools stakeEpoch protocol account with
  | none => simp only [mergeAccount, delegated]
  | some held =>
      simp only [mergeAccount, delegated]
      exact ofPool_insertStake _ held.1 pool account.credential credential held.2

/-- Each account of a shard has its stake in one pool. -/
theorem ofPool_merged {snapshot : StakeSnapshot} (empty : snapshot.accountsByPool = ∅)
    {accounts : List AccountState}
    (unique : ∀ first ∈ accounts, ∀ second ∈ accounts,
      first.credential = second.credential → first = second)
    {pool : Hash28} {credential : StakeCredential} {stake : ℕ} :
    ((accounts.foldl (mergeAccount stakeEpoch protocol) snapshot).accountsByPool.ofPool pool).get?
        credential = some stake ↔
      ∃ account ∈ accounts, account.credential = credential ∧
        delegation snapshot.pools stakeEpoch protocol account = some (pool, stake) := by
  induction accounts using List.reverseRecOn generalizing stake with
  | nil => simp [empty, DelegatorMap.ofPool]
  | append_singleton earlier last ih =>
      have uniqueEarlier : ∀ first ∈ earlier, ∀ second ∈ earlier,
          first.credential = second.credential → first = second := by
        intro first isFirst second isSecond
        exact unique first (List.mem_append_left _ isFirst) second (List.mem_append_left _ isSecond)
      have before := @ih uniqueEarlier stake
      rw [List.foldl_append, List.foldl_cons, List.foldl_nil, ofPool_mergeAccount, pools_merged]
      constructor
      · intro held
        split at held
        next own amount delegated =>
          split_ifs at held with isLast
          · rcases Option.some.inj held with rfl
            rcases isLast with ⟨rfl, rfl⟩
            exact ⟨last, by simp, rfl, delegated⟩
          · rcases before.mp held with ⟨account, member, facts⟩
            exact ⟨account, List.mem_append_left _ member, facts⟩
        next =>
          rcases before.mp held with ⟨account, member, facts⟩
          exact ⟨account, List.mem_append_left _ member, facts⟩
      · rintro ⟨account, member, same, delegated⟩
        by_cases isLast : credential = last.credential
        · have accountEq : account = last :=
            unique account member last (by simp) (same.trans isLast)
          subst accountEq
          simp [delegated, isLast]
        · have isEarlier : account ∈ earlier := by
            rcases List.mem_append.mp member with isEarlier | isEnd
            · exact isEarlier
            · rw [List.mem_singleton.mp isEnd] at same
              exact absurd same.symm isLast
          have held := before.mpr ⟨account, isEarlier, same, delegated⟩
          split
          · rw [if_neg (fun both => isLast both.2)]
            exact held
          · exact held

end StakeSnapshot

section Accounts

variable {store : OrderedMap NsKey CardanoEntity} {ranges : List KeyRange}

/-- The accounts whose keys are in some ranges, range by range. -/
def accountsIn (store : OrderedMap NsKey CardanoEntity) (ranges : List KeyRange) :
    List AccountState :=
  ranges.flatMap fun range => iterEntitiesTyped store AccountState (some range)

theorem mem_iterAccounts {range : KeyRange} {account : AccountState} :
    account ∈ iterEntitiesTyped store AccountState (some range) ↔
      ∃ key, store.get? (toLex (.accounts, key)) = some (.account account) ∧
        range.contains key := by
  simp only [iterEntitiesTyped, List.mem_filterMap, Option.all_some]
  constructor
  · rintro ⟨⟨index, entity⟩, member, selected⟩
    split_ifs at selected with inRange
    · rcases inRange with ⟨isAccounts, contained⟩
      have entityEq : entity = .account account := by
        cases entity <;> simp_all [EntityVariant.project]
      refine ⟨(ofLex index).2, ?_, contained⟩
      rw [← OrderedMap.mem_entries_iff, ← entityEq]
      have indexEq : toLex (Namespace.accounts, (ofLex index).2) = index := by
        have ns : (ofLex index).1 = Namespace.accounts := isAccounts
        rw [← ns]
        rfl
      rw [indexEq]
      exact member
  · rintro ⟨key, held, contained⟩
    refine ⟨(toLex (.accounts, key), .account account), OrderedMap.mem_entries_iff.mpr held, ?_⟩
    exact if_pos ⟨rfl, contained⟩

/-- With accounts under their own keys, an account is looked up by its credential. -/
theorem AccountsKeyed.mem_accountsIn (keyed : AccountsKeyed store) {account : AccountState} :
    account ∈ accountsIn store ranges ↔
      store.get? (AccountState.nsKey account.credential) = some (.account account) ∧
        (ranges.any fun range => range.contains account.credential.key) := by
  simp only [accountsIn, List.mem_flatMap, mem_iterAccounts, List.any_eq_true]
  constructor
  · rintro ⟨range, isRange, key, held, contained⟩
    have keyEq := keyed key account held
    subst keyEq
    exact ⟨held, range, isRange, contained⟩
  · rintro ⟨held, range, isRange, contained⟩
    exact ⟨range, isRange, account.credential.key, held, contained⟩

theorem AccountsKeyed.unique (keyed : AccountsKeyed store) :
    ∀ first ∈ accountsIn store ranges, ∀ second ∈ accountsIn store ranges,
      first.credential = second.credential → first = second := by
  intro first isFirst second isSecond same
  have firstHeld := (keyed.mem_accountsIn.mp isFirst).1
  have secondHeld := (keyed.mem_accountsIn.mp isSecond).1
  rw [same, secondHeld] at firstHeld
  exact (CardanoEntity.account.inj (Option.some.inj firstHeld)).symm

variable {snapshot : StakeSnapshot} {stakeEpoch protocol : ℕ}

theorem mergeShard_eq : snapshot.mergeShard store stakeEpoch protocol ranges =
    (accountsIn store ranges).foldl (StakeSnapshot.mergeAccount stakeEpoch protocol) snapshot := rfl

/-- Who is registered in the snapshot of some ranges. -/
theorem AccountsKeyed.registered_mergeShard (keyed : AccountsKeyed store)
    (empty : snapshot.registeredAccounts = ∅) (credential : StakeCredential) :
    ((snapshot.mergeShard store stakeEpoch protocol ranges).registeredAccounts.get?
        credential).isSome ↔
      (ranges.any fun range => range.contains credential.key) ∧
        ∃ account, store.get? (AccountState.nsKey credential) = some (.account account) ∧
          account.isRegistered := by
  rw [mergeShard_eq, StakeSnapshot.registered_merged, empty]
  constructor
  · rintro (isEmpty | ⟨account, member, rfl, isRegistered⟩)
    · cases isEmpty
    · rcases keyed.mem_accountsIn.mp member with ⟨held, contained⟩
      exact ⟨contained, account, held, isRegistered⟩
  · rintro ⟨contained, account, held, isRegistered⟩
    have own := StakeCredential.key_injective (keyed _ account held)
    subst own
    exact Or.inr ⟨account, keyed.mem_accountsIn.mpr ⟨held, contained⟩, rfl, isRegistered⟩

/-- Who delegates to a pool in the snapshot of some ranges. -/
theorem AccountsKeyed.ofPool_mergeShard (keyed : AccountsKeyed store)
    (empty : snapshot.accountsByPool = ∅) {pool : Hash28} {credential : StakeCredential}
    {stake : ℕ} :
    ((snapshot.mergeShard store stakeEpoch protocol ranges).accountsByPool.ofPool pool).get?
        credential = some stake ↔
      (ranges.any fun range => range.contains credential.key) ∧
        ∃ account, store.get? (AccountState.nsKey credential) = some (.account account) ∧
          StakeSnapshot.delegation snapshot.pools stakeEpoch protocol account =
            some (pool, stake) := by
  rw [mergeShard_eq, StakeSnapshot.ofPool_merged empty keyed.unique]
  constructor
  · rintro ⟨account, member, rfl, delegated⟩
    rcases keyed.mem_accountsIn.mp member with ⟨held, contained⟩
    exact ⟨contained, account, held, delegated⟩
  · rintro ⟨contained, account, held, delegated⟩
    have own := StakeCredential.key_injective (keyed _ account held)
    subst own
    exact ⟨account, keyed.mem_accountsIn.mpr ⟨held, contained⟩, rfl, delegated⟩

end Accounts

namespace RupdWork

/-- Work as `load_globals` leaves it: nothing of a shard, nothing at all in epochs
without rewards, and no panic ahead. -/
structure GlobalsOnly (work : RupdWork) : Prop where
  globals : work.snapshot.globals = work.snapshot
  unranged : work.shardRanges = none
  answers : (work.relevantEpochs = .ok none ∧ work.snapshot.pools = ∅) ∨
    ∃ epochs protocol, work.relevantEpochs = .ok (some epochs) ∧
      work.stakeProtocol epochs.1 = .ok protocol

section Loaded

open StakeSnapshot

theorem globals_loadPools {currentEpoch stakeEpoch : ℕ} {pools : List PoolState}
    {before after : StakeSnapshot} (globals : before.globals = before)
    (loaded : loadPools currentEpoch stakeEpoch pools before = .ok after) :
    after.globals = after := by
  induction pools generalizing before with
  | nil =>
      rcases Except.ok.inj loaded with rfl
      exact globals
  | cons pool rest ih =>
      rcases bind_eq_ok.mp loaded with ⟨-, -, loadedRest⟩
      have noAccounts : before.accountsByPool = ∅ := by
        rw [← globals]
        rfl
      have noneRegistered : before.registeredAccounts = ∅ := by
        rw [← globals]
        rfl
      split_ifs at loadedRest
      · exact ih (by simp [StakeSnapshot.globals, noAccounts, noneRegistered]) loadedRest
      · exact ih (by simp [StakeSnapshot.globals, noAccounts, noneRegistered]) loadedRest

theorem globals_trackAccounts (stakeEpoch protocol : ℕ) (accounts : List AccountState)
    {before : StakeSnapshot} (globals : before.globals = before) :
    (accounts.foldl (trackAccount stakeEpoch protocol) before).globals =
      accounts.foldl (trackAccount stakeEpoch protocol) before := by
  induction accounts generalizing before with
  | nil => exact globals
  | cons account rest ih =>
      apply ih
      have noAccounts : before.accountsByPool = ∅ := by
        rw [← globals]
        rfl
      have noneRegistered : before.registeredAccounts = ∅ := by
        rw [← globals]
        rfl
      simp only [trackAccount]
      split
      · exact globals
      · split_ifs <;> simp [trackStake, StakeSnapshot.globals, noAccounts, noneRegistered]

theorem globals_loadGlobals {store : OrderedMap NsKey CardanoEntity}
    {currentEpoch stakeEpoch protocol : ℕ} {snapshot : StakeSnapshot}
    (loaded : StakeSnapshot.loadGlobals store currentEpoch stakeEpoch protocol = .ok snapshot) :
    snapshot.globals = snapshot := by
  rcases bind_eq_ok.mp loaded with ⟨withPools, poolsEq, snapshotEq⟩
  rcases Except.ok.inj snapshotEq with rfl
  exact globals_trackAccounts stakeEpoch protocol _ (globals_loadPools rfl poolsEq)

theorem globalsOnly_of_loadGlobals {chain : ChainSummary}
    {defineEpochIncentives : EpochState → ℕ → Option ℕ → Except DomainError EpochIncentives}
    {store : OrderedMap NsKey CardanoEntity} {work : RupdWork}
    (loaded : loadGlobals chain defineEpochIncentives store = .ok work) : work.GlobalsOnly := by
  rcases bind_eq_ok.mp loaded with ⟨epoch, -, loadedEpoch⟩
  rcases bind_eq_ok.mp loadedEpoch with ⟨incentives, -, loadedIncentives⟩
  rcases bind_eq_ok.mp loadedIncentives with ⟨relevant, relevantEq, loadedSnapshot⟩
  rw [mapError_eq_ok] at relevantEq
  cases relevant with
  | none =>
      rcases Except.ok.inj loadedSnapshot with rfl
      exact ⟨rfl, rfl, Or.inl ⟨relevantEq, rfl⟩⟩
  | some epochs =>
      rcases bind_eq_ok.mp loadedSnapshot with ⟨protocol, protocolEq, loadedStake⟩
      rw [mapError_eq_ok] at protocolEq
      rcases bind_eq_ok.mp loadedStake with ⟨snapshot, snapshotEq, workEq⟩
      rcases Except.ok.inj workEq with rfl
      exact ⟨globals_loadGlobals snapshotEq, rfl, Or.inr ⟨epochs, protocol, relevantEq, protocolEq⟩⟩

end Loaded

section Parts

open RewardsContext

/-- Works that differ in what they know of accounts have contexts of which one is a
part of the other. -/
theorem partOf_context {full part : RupdWork} {owned : StakeCredential → Bool}
    (order partOrder : VisitOrder) (incentives : part.incentives = full.incentives)
    (pots : part.pots = full.pots) (blocks : part.blocksMadeTotal = full.blocksMadeTotal)
    (pparams : part.pparams = full.pparams)
    (globals : part.snapshot.globals = full.snapshot.globals)
    (delegations : ∀ pool account, (part.snapshot.accountsByPool.ofPool pool).get? account =
      if owned account then (full.snapshot.accountsByPool.ofPool pool).get? account else none)
    (registered : ∀ account, owned account →
      (part.snapshot.registeredAccounts.get? account).isSome =
        (full.snapshot.registeredAccounts.get? account).isSome)
    (includes : ∀ account, part.shouldInclude account = owned account) :
    PartOf (full.context order) (part.context partOrder) owned := by
  have pools : part.snapshot.pools = full.snapshot.pools :=
    congrArg (fun snapshot => snapshot.pools) globals
  have poolStake : part.snapshot.poolStake = full.snapshot.poolStake :=
    congrArg (fun snapshot => snapshot.poolStake) globals
  have activeStake : part.snapshot.activeStakeSum = full.snapshot.activeStakeSum :=
    congrArg (fun snapshot => snapshot.activeStakeSum) globals
  have livePledges : part.snapshot.poolLivePledges = full.snapshot.poolLivePledges :=
    congrArg (fun snapshot => snapshot.poolLivePledges) globals
  constructor
  · exact incentives
  · exact pots
  · simp only [context, pparams]
  · exact activeStake
  · exact blocks
  · simp only [context, pools]
  · simp only [context, poolStake]
  · simp only [context, pools]
  · simp only [context, pparams]
  · simp only [context, livePledges]
  · simp only [context, pools]
    exact (partOrder.poolsPerm _).trans (order.poolsPerm _).symm
  · intro pool account isOwned
    simp only [context, DelegatorMap.getStake, delegations, isOwned, if_true]
  · intro account isOwned
    exact registered account isOwned
  · intro pool
    simp only [context]
    apply (partOrder.delegatorsPerm pool _).trans
    refine List.Perm.trans ?_ ((order.delegatorsPerm pool _).filter owned).symm
    apply (List.perm_ext_iff_of_nodup (OrderedMap.nodup_keys _)
      ((OrderedMap.nodup_keys _).filter _)).mpr
    intro account
    simp only [List.mem_filter, OrderedMap.mem_keys_iff, delegations]
    cases owned account <;> simp
  · exact includes

/-- A store that shards of an update may have left: the accounts are as before, and
the epoch is there. -/
structure Beside (store later : OrderedMap NsKey CardanoEntity) : Prop where
  accounts : ∀ key, later.get? (toLex (.accounts, key)) = store.get? (toLex (.accounts, key))
  epoch : ∃ epoch, later.get? EpochState.nsKey = some (.epoch epoch)

variable {work : RupdWork} {store later : OrderedMap NsKey CardanoEntity}
  {totalShards shardIndex : ℕ}

theorem Beside.keyed (beside : Beside store later) (keyed : AccountsKeyed store) :
    AccountsKeyed later := by
  intro key account held
  rw [beside.accounts] at held
  exact keyed key account held

theorem GlobalsOnly.reset (globalsOnly : work.GlobalsOnly) : work.resetForNextShard = work := by
  have globals := globalsOnly.globals
  have unranged := globalsOnly.unranged
  cases work
  simp only [resetForNextShard, RupdWork.mk.injEq, true_and]
  exact ⟨globals, unranged.symm⟩

theorem GlobalsOnly.noAccounts (globalsOnly : work.GlobalsOnly) :
    work.snapshot.accountsByPool = ∅ := by
  rw [← globalsOnly.globals]
  rfl

theorem GlobalsOnly.noneRegistered (globalsOnly : work.GlobalsOnly) :
    work.snapshot.registeredAccounts = ∅ := by
  rw [← globalsOnly.globals]
  rfl

/-- The accounts a shard owns. -/
def owns (totalShards shardIndex : ℕ) (account : StakeCredential) : Bool :=
  shardOf totalShards account = shardIndex

section Ranges

variable {snapshot : StakeSnapshot} {stakeEpoch protocol : ℕ} {ranges all : List KeyRange}
  {owned : StakeCredential → Bool}

theorem Beside.delegations (beside : Beside store later) (keyed : AccountsKeyed store)
    (noAccounts : snapshot.accountsByPool = ∅)
    (contained : ∀ account : StakeCredential,
      (ranges.any fun range => range.contains account.key) = owned account)
    (everything : ∀ account : StakeCredential,
      (all.any fun range => range.contains account.key) = true)
    (pool : Hash28) (account : StakeCredential) :
    ((snapshot.mergeShard later stakeEpoch protocol ranges).accountsByPool.ofPool pool).get?
        account =
      if owned account then
        ((snapshot.mergeShard store stakeEpoch protocol all).accountsByPool.ofPool pool).get? account
      else none := by
  have sameAccount : later.get? (AccountState.nsKey account) =
      store.get? (AccountState.nsKey account) := beside.accounts account.key
  apply Option.ext
  intro stake
  rw [(beside.keyed keyed).ofPool_mergeShard noAccounts, contained, sameAccount]
  cases owned account with
  | false => simp
  | true =>
      simp only [true_and, if_true]
      rw [keyed.ofPool_mergeShard noAccounts, everything, eq_self_iff_true, true_and]

theorem Beside.registrations (beside : Beside store later) (keyed : AccountsKeyed store)
    (noneRegistered : snapshot.registeredAccounts = ∅)
    (contained : ∀ account : StakeCredential,
      (ranges.any fun range => range.contains account.key) = owned account)
    (everything : ∀ account : StakeCredential,
      (all.any fun range => range.contains account.key) = true)
    {account : StakeCredential} (isOwned : owned account) :
    ((snapshot.mergeShard later stakeEpoch protocol ranges).registeredAccounts.get?
        account).isSome =
      ((snapshot.mergeShard store stakeEpoch protocol all).registeredAccounts.get?
        account).isSome := by
  have sameAccount : later.get? (AccountState.nsKey account) =
      store.get? (AccountState.nsKey account) := beside.accounts account.key
  rw [Bool.eq_iff_iff, (beside.keyed keyed).registered_mergeShard noneRegistered,
    keyed.registered_mergeShard noneRegistered, contained, everything, isOwned, sameAccount]

end Ranges

variable [AddressDecoding]

/-- What a shard of the update sees, on whatever store the shards before it left, is
its part of what the single-range path sees. -/
theorem GlobalsOnly.shardWork_partOf (globalsOnly : work.GlobalsOnly)
    (valid : ValidShards totalShards) (keyed : AccountsKeyed store)
    (beside : Beside store later) (below : shardIndex < totalShards)
    (order partOrder : VisitOrder) :
    ∃ full part, work.mergeAll store = .ok full ∧
      work.shardWork later shardIndex totalShards = .ok part ∧
      PartOf (full.context order) (part.context partOrder) (owns totalShards shardIndex) ∧
      (∀ account, full.shouldInclude account = true) ∧
      part.computeRewards partOrder = (part.context partOrder).defineRewards := by
  rcases exists_shardKeyRanges valid below with ⟨ranges, rangesEq, contained⟩
  have everything : ∀ account : StakeCredential,
      ([KeyRange.full].any fun range => range.contains account.key) = true := by
    intro account
    simp [contains_full]
  have noAccounts := globalsOnly.noAccounts
  have noneRegistered := globalsOnly.noneRegistered
  rcases globalsOnly.answers with ⟨idle, noPools⟩ | ⟨epochs, protocol, relevant, protocolEq⟩
  · refine ⟨work, { work with shardRanges := some ranges }, ?_, ?_, ?_, ?_, ?_⟩
    · simp [mergeAll, idle]
    · simp [shardWork, rangesEq, globalsOnly.reset, mergeShard, idle]
    · refine partOf_context order partOrder rfl rfl rfl rfl rfl ?_ (fun _ _ => rfl) contained
      intro pool account
      simp [noAccounts, DelegatorMap.ofPool]
    · intro account
      simp [shouldInclude, globalsOnly.unranged]
    · have noPoolOrder : partOrder.pools [] = [] := List.Perm.eq_nil (partOrder.poolsPerm [])
      have relevantEq : relevantEpochs { work with shardRanges := some ranges } = .ok none := idle
      have noKeys : (∅ : OrderedMap Hash28 (EpochValue PoolSnapshot)).keys = [] := rfl
      simp only [computeRewards, relevantEq, mapError_ok, ok_bind, context, noPools, defineRewards,
        noKeys, noPoolOrder]
      rfl
  · refine ⟨{ work with
        snapshot := work.snapshot.mergeShard store epochs.1 protocol [KeyRange.full]
        shardRanges := some [KeyRange.full] }, { work with
        snapshot := work.snapshot.mergeShard later epochs.1 protocol ranges
        shardRanges := some ranges }, ?_, ?_, ?_, ?_, ?_⟩
    · simp [mergeAll, relevant, mergeShard, protocolEq]
    · simp [shardWork, rangesEq, globalsOnly.reset, mergeShard, relevant, protocolEq]
    · refine partOf_context order partOrder rfl rfl rfl rfl ?_ ?_ ?_ contained
      · simp only [mergeShard_eq, StakeSnapshot.globals_merged]
      · exact beside.delegations keyed noAccounts contained everything
      · intro account isOwned
        exact beside.registrations keyed noneRegistered contained everything isOwned
    · exact everything
    · have relevantEq : relevantEpochs { work with
          snapshot := work.snapshot.mergeShard later epochs.1 protocol ranges
          shardRanges := some ranges } = .ok (some epochs) := relevant
      simp only [computeRewards, relevantEq, mapError_ok, ok_bind]

end Parts

section Rows

theorem get?_of_readEpoch {store : OrderedMap NsKey CardanoEntity} {epoch : EpochState}
    (read : readEpoch store = .ok epoch) :
    ∃ epoch, store.get? EpochState.nsKey = some (.epoch epoch) := by
  rw [readEpoch] at read
  cases held : store.get? EpochState.nsKey with
  | none => simp [held] at read
  | some entity => cases entity <;> simp [held, EntityVariant.project] at read ⊢

variable {work : RupdWork} {store later : OrderedMap NsKey CardanoEntity}
  {totalShards shardIndex : ℕ}

theorem get?_pendingRows {pending : PendingRewards} {key : EntityKey} {row : PendingRewardState} :
    (pendingRows pending).get? key = some row ↔ ∃ account, account.key = key ∧
      (pending.get? account).map (.ofReward account) = some row := by
  by_cases isAccount : ∃ account : StakeCredential, account.key = key
  · rcases isAccount with ⟨account, rfl⟩
    have found := OrderedMap.get?_insertAll_rekeyed (∅ : PendingRows) pending
      StakeCredential.key_injective PendingRewardState.ofReward account
    rw [OrderedMap.get?_empty, Option.or_none] at found
    rw [pendingRows, OrderedMap.ofList]
    constructor
    · intro held
      exact ⟨account, rfl, found.symm.trans held⟩
    · rintro ⟨other, same, held⟩
      rcases StakeCredential.key_injective same with rfl
      exact found.trans held
  · have noRow : (pendingRows pending).get? key = none :=
      OrderedMap.get?_insertAll_rekeyed_of_ne ∅ pending _ fun account same =>
        isAccount ⟨account, same⟩
    rw [noRow]
    constructor
    · intro held
      cases held
    · rintro ⟨account, same, -⟩
      exact absurd ⟨account, same⟩ isAccount

/-- A shard commit writes its rows and the progress of the update. -/
theorem Beside.commitShard (beside : Beside store later) (rows : PendingRows)
    (shardIndex totalShards : ℕ) :
    ∃ committed, commitShard later rows shardIndex totalShards = .ok committed ∧
      Beside store committed ∧ ∀ key, committed.get? (toLex (.pendingRewards, key)) =
        ((rows.get? key).map .pendingReward).or (later.get? (toLex (.pendingRewards, key))) := by
  rcases beside.epoch with ⟨epoch, epochEq⟩
  have progressed : ∃ applied after, EntityDelta.apply (RupdProgress.new shardIndex totalShards)
      (some epoch) = .ok (applied, some after) := by
    simp only [EntityDelta.apply, expect_some, ok_bind]
    split
    · exact ⟨_, _, rfl⟩
    · exact ⟨_, _, rfl⟩
  rcases progressed with ⟨applied, after, appliedEq⟩
  refine ⟨(later.insertAll rows.entities).insert EpochState.nsKey (.epoch after), ?_, ⟨?_, ?_⟩, ?_⟩
  · simp [RupdWork.commitShard, epochEq, EntityVariant.project, appliedEq]
  · intro key
    have notEpoch : (toLex (Namespace.accounts, key) : NsKey) ≠ EpochState.nsKey := by
      intro same
      cases congrArg (fun index : NsKey => (ofLex index).1) same
    rw [OrderedMap.get?_insert, if_neg notEpoch, PendingRows.entities,
      OrderedMap.get?_insertAll_rekeyed_of_ne, beside.accounts]
    intro other same
    cases congrArg (fun index : NsKey => (ofLex index).1) same
  · exact ⟨after, OrderedMap.get?_insert_self _ _ _⟩
  · intro key
    have notEpoch : (toLex (Namespace.pendingRewards, key) : NsKey) ≠ EpochState.nsKey := by
      intro same
      cases congrArg (fun index : NsKey => (ofLex index).1) same
    have injective : Function.Injective
        fun key : EntityKey => (toLex (Namespace.pendingRewards, key) : NsKey) := by
      intro left right same
      exact congrArg (fun index : NsKey => (ofLex index).2) same
    rw [OrderedMap.get?_insert, if_neg notEpoch]
    exact OrderedMap.get?_insertAll_rekeyed later rows injective _ key

end Rows

section Run

open RewardsContext

variable [AddressDecoding] {work full : RupdWork} {store later : OrderedMap NsKey CardanoEntity}
  {totalShards shardIndex : ℕ} {order : VisitOrder} {pending : PendingRewards}

/-- The rows of a shard, out of the rewards of all accounts. -/
def rowsOf (totalShards : ℕ) (pending : PendingRewards) (shardIndex : ℕ) : PendingRows :=
  pendingRows (pending.filter fun account _ => owns totalShards shardIndex account)

omit [AddressDecoding] in
theorem get?_rowsOf {key : EntityKey} {row : PendingRewardState} :
    (rowsOf totalShards pending shardIndex).get? key = some row ↔
      (pendingRows pending).get? key = some row ∧
        ∃ account : StakeCredential, account.key = key ∧
          shardOf totalShards account = shardIndex := by
  simp only [rowsOf, get?_pendingRows, OrderedMap.get?_filter]
  constructor
  · rintro ⟨account, rfl, held⟩
    cases found : pending.get? account with
    | none => simp [found] at held
    | some reward =>
        cases isOwned : owns totalShards shardIndex account with
        | false => simp [found, isOwned] at held
        | true =>
            simp only [found, Option.filter_some, isOwned, if_true] at held
            exact ⟨⟨account, rfl, by rw [found]; exact held⟩, account, rfl,
              of_decide_eq_true isOwned⟩
  · rintro ⟨⟨account, rfl, held⟩, other, same, isOwned⟩
    rcases StakeCredential.key_injective same with rfl
    refine ⟨other, rfl, ?_⟩
    cases found : pending.get? other with
    | none => simp [found] at held
    | some reward =>
        rw [found] at held
        simpa [owns, isOwned] using held

omit [AddressDecoding] in
theorem nodup_iterAllPools (work : RupdWork) (order : VisitOrder) :
    (work.context order).iterAllPools.Nodup :=
  (order.poolsPerm _).nodup_iff.mpr (OrderedMap.nodup_keys _)

omit [AddressDecoding] in
theorem nodup_poolDelegators (work : RupdWork) (order : VisitOrder) (pool : Hash28) :
    ((work.context order).poolDelegators pool).Nodup :=
  (order.delegatorsPerm pool _).nodup_iff.mpr (OrderedMap.nodup_keys _)

theorem GlobalsOnly.shardRows_eq (globalsOnly : work.GlobalsOnly) (valid : ValidShards totalShards)
    (keyed : AccountsKeyed store) (beside : Beside store later) (below : shardIndex < totalShards)
    (partOrder : VisitOrder) (fullEq : work.mergeAll store = .ok full)
    (defined : (full.context order).defineRewards = .ok pending) :
    work.shardRows later shardIndex totalShards partOrder =
      .ok (rowsOf totalShards pending shardIndex) := by
  rcases globalsOnly.shardWork_partOf valid keyed beside below order partOrder with
    ⟨other, part, otherEq, partEq, isPart, everything, computed⟩
  rcases Except.ok.inj (otherEq.symm.trans fullEq) with rfl
  have partDefined := isPart.defineRewards_eq everything (nodup_iterAllPools _ order)
    (nodup_poolDelegators _ order) defined
  simp only [shardRows, partEq, ok_bind, computed, partDefined]
  rfl

/-- A run of shards gives the rows of each, whatever the shards before it wrote. -/
theorem GlobalsOnly.runShards_ok (globalsOnly : work.GlobalsOnly) (valid : ValidShards totalShards)
    (keyed : AccountsKeyed store) (orders : ℕ → VisitOrder)
    (fullEq : work.mergeAll store = .ok full)
    (defined : (full.context order).defineRewards = .ok pending) {indexes : List ℕ}
    (below : ∀ index ∈ indexes, index < totalShards) (beside : Beside store later) :
    ∃ final, work.runShards totalShards orders indexes later =
        .ok (indexes.map (rowsOf totalShards pending), final) ∧
      (∀ key row, (∃ index ∈ indexes, (rowsOf totalShards pending index).get? key = some row) →
        final.get? (toLex (.pendingRewards, key)) = some (.pendingReward row)) ∧
      ∀ key, (∀ index ∈ indexes, (rowsOf totalShards pending index).get? key = none) →
        final.get? (toLex (.pendingRewards, key)) = later.get? (toLex (.pendingRewards, key)) := by
  induction indexes generalizing later with
  | nil => exact ⟨later, rfl, by simp, fun _ _ => rfl⟩
  | cons first rest ih =>
      rw [List.forall_mem_cons] at below
      have rowsEq :=
        globalsOnly.shardRows_eq valid keyed beside below.1 (orders first) fullEq defined
      rcases beside.commitShard (rowsOf totalShards pending first) first totalShards with
        ⟨committed, committedEq, committedBeside, written⟩
      rcases ih below.2 committedBeside with ⟨final, finalEq, finalWritten, finalKept⟩
      refine ⟨final, ?_, ?_, ?_⟩
      · simp only [runShards, rowsEq, ok_bind, committedEq, finalEq, List.map_cons]
      · intro key row held
        by_cases later : ∃ index ∈ rest, ((rowsOf totalShards pending index).get? key).isSome
        · rcases later with ⟨index, isRest, isSome⟩
          rcases Option.isSome_iff_exists.mp isSome with ⟨other, otherEq⟩
          have sameRow : other = row := by
            rcases held with ⟨_, -, heldEq⟩
            have inAll := (get?_rowsOf.mp heldEq).1
            rw [(get?_rowsOf.mp otherEq).1] at inAll
            exact Option.some.inj inAll
          rw [← sameRow]
          exact finalWritten key other ⟨index, isRest, otherEq⟩
        · have noneLater : ∀ index ∈ rest, (rowsOf totalShards pending index).get? key = none := by
            intro index isRest
            exact Option.not_isSome_iff_eq_none.mp fun isSome => later ⟨index, isRest, isSome⟩
          rw [finalKept key noneLater, written]
          rcases held with ⟨index, isIndex, heldEq⟩
          rcases List.mem_cons.mp isIndex with rfl | isRest
          · simp [heldEq]
          · rw [noneLater index isRest] at heldEq
            cases heldEq
      · intro key absent
        rw [List.forall_mem_cons] at absent
        rw [finalKept key absent.2, written, absent.1]
        rfl

/-- Each shard of a run that came to its last one had rows. -/
theorem GlobalsOnly.shardRows_of_run (orders : ℕ → VisitOrder) {indexes : List ℕ}
    {parts : List PendingRows} {final : OrderedMap NsKey CardanoEntity}
    (beside : Beside store later)
    (ran : work.runShards totalShards orders indexes later = .ok (parts, final)) :
    ∀ index ∈ indexes, ∃ reached rows, Beside store reached ∧
      work.shardRows reached index totalShards (orders index) = .ok rows := by
  induction indexes generalizing later parts final with
  | nil => simp
  | cons first rest ih =>
      rcases bind_eq_ok.mp ran with ⟨rows, rowsEq, ranCommit⟩
      rcases bind_eq_ok.mp ranCommit with ⟨committed, committedEq, ranRest⟩
      rcases bind_eq_ok.mp ranRest with ⟨⟨laterRows, last⟩, restEq, -⟩
      rcases beside.commitShard rows first totalShards with ⟨other, otherEq, otherBeside, -⟩
      rcases Except.ok.inj (otherEq.symm.trans committedEq) with rfl
      rw [List.forall_mem_cons]
      exact ⟨⟨later, rows, beside, rowsEq⟩, ih otherBeside restEq⟩

/-- If every shard has rows, the single-range path has. -/
theorem GlobalsOnly.unsharded_ok (globalsOnly : work.GlobalsOnly) (valid : ValidShards totalShards)
    (keyed : AccountsKeyed store) (order : VisitOrder) (orders : ℕ → VisitOrder)
    (sharded : ∀ index < totalShards, ∃ reached rows, Beside store reached ∧
      work.shardRows reached index totalShards (orders index) = .ok rows) :
    ∃ full pending, work.mergeAll store = .ok full ∧
      (full.context order).defineRewards = .ok pending := by
  have parts : ∀ index : Fin totalShards, ∃ full part, work.mergeAll store = .ok full ∧
      PartOf (full.context order) part (owns totalShards index) ∧
      ∃ pending, part.defineRewards = .ok pending := by
    intro index
    rcases sharded index index.isLt with ⟨reached, rows, beside, rowsEq⟩
    rcases globalsOnly.shardWork_partOf valid keyed beside index.isLt order (orders index) with
      ⟨full, part, fullEq, partEq, isPart, -, computed⟩
    rcases bind_eq_ok.mp rowsEq with ⟨merged, mergedEq, rowsOfMerged⟩
    rcases Except.ok.inj (partEq.symm.trans mergedEq) with rfl
    rcases bind_eq_ok.mp rowsOfMerged with ⟨pending, pendingEq, -⟩
    exact ⟨full, _, fullEq, isPart, pending, computed.symm.trans pendingEq⟩
  have positive : 0 < totalShards := valid.nonzero
  rcases parts ⟨0, positive⟩ with ⟨full, -, fullEq, -, -⟩
  have sameFull : ∀ index : Fin totalShards, ∃ part,
      PartOf (full.context order) part (owns totalShards index) ∧
      ∃ pending, part.defineRewards = .ok pending := by
    intro index
    rcases parts index with ⟨other, part, otherEq, isPart, definedPart⟩
    rcases Except.ok.inj (otherEq.symm.trans fullEq) with rfl
    exact ⟨part, isPart, definedPart⟩
  choose partAt isPartAt definedAt using sameFull
  have covering : ∀ account, ∃ index : Fin totalShards, owns totalShards index account := by
    intro account
    exact ⟨⟨shardOf totalShards account, shardOf_lt valid account⟩, decide_eq_true rfl⟩
  rcases PartOf.defineRewards_ok isPartAt covering definedAt with ⟨pending, pendingEq⟩
  exact ⟨full, pending, fullEq, pendingEq⟩

/-- Rows of several maps, no two of which have a key in common. -/
structure DisjointUnion (parts : List PendingRows) (rows : PendingRows) : Prop where
  disjoint : parts.Pairwise fun left right => ∀ key, left.get? key = none ∨ right.get? key = none
  union : ∀ key row, rows.get? key = some row ↔ ∃ part ∈ parts, part.get? key = some row

omit [AddressDecoding] in
theorem disjointUnion_rowsOf (valid : ValidShards totalShards) (pending : PendingRewards) :
    DisjointUnion ((List.range totalShards).map (rowsOf totalShards pending))
      (pendingRows pending) := by
  constructor
  · rw [List.pairwise_map]
    refine List.nodup_range.imp ?_
    intro left right different key
    cases inLeft : (rowsOf totalShards pending left).get? key with
    | none => exact Or.inl rfl
    | some row =>
        cases inRight : (rowsOf totalShards pending right).get? key with
        | none => exact Or.inr rfl
        | some other =>
            rcases (get?_rowsOf.mp inLeft).2 with ⟨account, rfl, ofLeft⟩
            rcases (get?_rowsOf.mp inRight).2 with ⟨again, same, ofRight⟩
            rcases StakeCredential.key_injective same with rfl
            exact absurd (ofLeft.symm.trans ofRight) different
  · intro key row
    constructor
    · intro held
      rcases get?_pendingRows.mp held with ⟨account, rfl, -⟩
      refine ⟨rowsOf totalShards pending (shardOf totalShards account), ?_, ?_⟩
      · exact List.mem_map.mpr ⟨_, List.mem_range.mpr (shardOf_lt valid account), rfl⟩
      · exact get?_rowsOf.mpr ⟨held, account, rfl, rfl⟩
    · rintro ⟨part, isPart, held⟩
      rcases List.mem_map.mp isPart with ⟨index, -, rfl⟩
      exact (get?_rowsOf.mp held).1

/-- The sharded update is the single-range one: it comes through if that does, the
rows of its shards are disjoint, together they are the rows of the single-range
path, and so they end up in the store. Each shard sees the pools as the
single-range path does, and its own accounts. -/
theorem runShards_eq_unsharded {chain : ChainSummary}
    {defineEpochIncentives : EpochState → ℕ → Option ℕ → Except DomainError EpochIncentives}
    (valid : ValidShards totalShards) (keyed : AccountsKeyed store)
    (loaded : loadGlobals chain defineEpochIncentives store = .ok work) (order : VisitOrder)
    (orders : ℕ → VisitOrder) :
    ((∃ rows, work.unshardedRows store order = .ok rows) ↔
      ∃ result, work.runShards totalShards orders (List.range totalShards) store = .ok result) ∧
    (∀ rows parts final, work.unshardedRows store order = .ok rows →
      work.runShards totalShards orders (List.range totalShards) store = .ok (parts, final) →
        parts.length = totalShards ∧ DisjointUnion parts rows ∧
        ∀ key, final.get? (toLex (.pendingRewards, key)) =
          ((rows.get? key).map .pendingReward).or (store.get? (toLex (.pendingRewards, key)))) ∧
    ∀ shardIndex < totalShards, ∃ full part, work.mergeAll store = .ok full ∧
      work.shardWork store shardIndex totalShards = .ok part ∧
      PartOf (full.context order) (part.context (orders shardIndex))
        (owns totalShards shardIndex) := by
  have globalsOnly := globalsOnly_of_loadGlobals loaded
  have beside : Beside store store := by
    refine ⟨fun _ => rfl, ?_⟩
    rcases bind_eq_ok.mp loaded with ⟨epoch, epochEq, -⟩
    exact get?_of_readEpoch epochEq
  have below : ∀ index ∈ List.range totalShards, index < totalShards :=
    fun index => List.mem_range.mp
  refine ⟨⟨?_, ?_⟩, ?_, ?_⟩
  · rintro ⟨rows, rowsEq⟩
    rcases bind_eq_ok.mp rowsEq with ⟨full, fullEq, definedRows⟩
    rcases bind_eq_ok.mp definedRows with ⟨pending, defined, -⟩
    rcases globalsOnly.runShards_ok valid keyed orders fullEq defined below beside with
      ⟨final, finalEq, -⟩
    exact ⟨_, finalEq⟩
  · rintro ⟨⟨parts, final⟩, ran⟩
    have each := GlobalsOnly.shardRows_of_run orders beside ran
    rcases globalsOnly.unsharded_ok valid keyed order orders fun index isBelow =>
      each index (List.mem_range.mpr isBelow) with ⟨full, pending, fullEq, defined⟩
    exact ⟨pendingRows pending, by simp [unshardedRows, fullEq, defined]⟩
  · intro rows parts final rowsEq ran
    rcases bind_eq_ok.mp rowsEq with ⟨full, fullEq, definedRows⟩
    rcases bind_eq_ok.mp definedRows with ⟨pending, defined, pendingEq⟩
    rcases Except.ok.inj pendingEq with rfl
    rcases globalsOnly.runShards_ok valid keyed orders fullEq defined below beside with
      ⟨last, lastEq, written, kept⟩
    rcases Prod.mk.inj (Except.ok.inj (lastEq.symm.trans ran)) with ⟨rfl, rfl⟩
    have isUnion := disjointUnion_rowsOf valid pending
    refine ⟨by simp, isUnion, ?_⟩
    intro key
    cases held : (pendingRows pending).get? key with
    | none =>
        apply kept
        intro index isIndex
        cases inPart : (rowsOf totalShards pending index).get? key with
        | none => rfl
        | some row =>
            rw [(get?_rowsOf.mp inPart).1] at held
            cases held
    | some row =>
        rcases (isUnion.union key row).mp held with ⟨part, isPart, heldPart⟩
        rcases List.mem_map.mp isPart with ⟨index, isIndex, rfl⟩
        exact written key row ⟨index, isIndex, heldPart⟩
  · intro shardIndex isBelow
    rcases globalsOnly.shardWork_partOf valid keyed beside isBelow order (orders shardIndex) with
      ⟨full, part, fullEq, partEq, isPart, -⟩
    exact ⟨full, part, fullEq, partEq, isPart⟩

end Run

section Delegated

open RewardsContext

def inOrder : VisitOrder := ⟨id, fun _ => id, fun _ => .refl _, fun _ _ => .refl _⟩

/-- A pool with a block in the last epoch. -/
def mintingPool : PoolState where
  operator := 7
  snapshot :=
    let minted : PoolSnapshot :=
      ⟨false, 1, ⟨0, 0, 0, ⟨1, 2⟩, 0xe1 :: (List.replicate 27 0 ++ [1]), []⟩, false⟩
    ⟨.epoch 5, none, some minted, some minted, some minted, some minted⟩
  blocksMintedTotal := 1
  registerSlot := 0
  retiringEpoch := none
  deposit := 0

def delegating (credential : StakeCredential) : AccountState where
  registeredAt := some 0
  stake :=
    let held : Stake := ⟨10, 0, 0, 0⟩
    ⟨.epoch 5, none, some held, some held, some held, some held⟩
  pool := ⟨.epoch 5, none, some (.pool 7), some (.pool 7), some (.pool 7), some (.pool 7)⟩
  drep := .new 5
  voteDelegatedAt := none
  deregisteredAt := none
  credential := credential
  retiredPool := none

def epochFive : EpochState where
  number := 5
  initialPots := { Pots.default with utxos := 20 }
  rolling := { EpochValue.new 5 with
    mark := some { RollingStats.default with nonOverlayBlocksMinted := 1 } }
  pparams := { EpochValue.new 5 with
    mark := some ⟨[⟨.desiredNumberOfStakePools, .amount 1⟩, ⟨.poolPledgeInfluence, .ratio ⟨0, 1⟩⟩,
      ⟨.decentralizationConstant, .ratio ⟨0, 1⟩⟩, ⟨.protocolVersion, .version 9 0⟩]⟩ }
  largestStableSlot := 0
  previousNonceTail := none
  nonces := none
  endStats := none
  incentives := none
  ewrapProgress := none
  estartProgress := none
  rupdProgress := none

/-- The first and the last key credential, of two shards, both with the pool. -/
def delegated : OrderedMap NsKey CardanoEntity :=
  .ofList [(AccountState.nsKey (.addrKeyhash 0), .account (delegating (.addrKeyhash 0))),
    (AccountState.nsKey (.addrKeyhash (Fin.last _)),
      .account (delegating (.addrKeyhash (Fin.last _)))),
    (EpochState.nsKey, .epoch epochFive), (PoolState.nsKey 7, .pool mintingPool)]

def conwayEra : ChainSummary := ⟨[], [9], some ⟨⟨0, 0, 0⟩, none, 10, 1, 9⟩⟩

def fixedIncentives (_ : EpochState) (_ : ℕ) (_ : Option ℕ) : Except DomainError EpochIncentives :=
  .ok ⟨100, 0, 100, 0⟩

def loadedWork : RupdWork :=
  (loadGlobals conwayEra fixedIncentives delegated).toOption.getD
    ⟨0, .default, .default, .default, 0, conwayEra, none, none⟩

theorem loadGlobals_delegated :
    loadGlobals conwayEra fixedIncentives delegated = .ok loadedWork := rfl

theorem keyed_delegated : AccountsKeyed delegated := by
  intro key account held
  have notEpoch : (toLex (Namespace.accounts, key) : NsKey) ≠ EpochState.nsKey := by
    intro same
    cases congrArg (fun index : NsKey => (ofLex index).1) same
  have notPool : (toLex (Namespace.accounts, key) : NsKey) ≠ PoolState.nsKey 7 := by
    intro same
    cases congrArg (fun index : NsKey => (ofLex index).1) same
  simp only [delegated, OrderedMap.ofList, OrderedMap.insertAll, List.foldl_cons, List.foldl_nil,
    OrderedMap.get?_insert, if_neg notEpoch, if_neg notPool] at held
  split_ifs at held with isHigh isLow
  · rcases CardanoEntity.account.inj (Option.some.inj held) with rfl
    exact congrArg (fun index : NsKey => (ofLex index).2) isHigh
  · rcases CardanoEntity.account.inj (Option.some.inj held) with rfl
    exact congrArg (fun index : NsKey => (ofLex index).2) isLow
  · cases held

theorem runShards_eq_unsharded_delegated :
    letI := stakeAddresses
    ValidShards 2 ∧ AccountsKeyed delegated ∧
      loadGlobals conwayEra fixedIncentives delegated = .ok loadedWork ∧
      ((∃ rows, loadedWork.unshardedRows delegated inOrder = .ok rows) ↔
        ∃ result, loadedWork.runShards 2 (fun _ => inOrder) (List.range 2) delegated =
          .ok result) := by
  let _ := stakeAddresses
  have valid : ValidShards 2 := ⟨by decide, by decide⟩
  exact ⟨valid, keyed_delegated, loadGlobals_delegated,
    (runShards_eq_unsharded valid keyed_delegated loadGlobals_delegated inOrder
      fun _ => inOrder).1⟩

end Delegated

end RupdWork

end Dolos
