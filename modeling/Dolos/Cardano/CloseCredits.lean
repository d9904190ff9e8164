import Dolos.Cardano.ShardCredits

/-!
# The credits of the finalize pass

What the finalize pass queues for an account: its instantaneous rewards and the withdrawals
enacted in its favour, then the deposits of the retiring pools and of the resolved proposals
that name it. Each source is looked at through the account the pass loaded for it.
-/

namespace Dolos

open Outcome

def PendingMirState.amount (pending : PendingMirState) : ℕ :=
  pending.fromReserves.toNat + pending.fromTreasury.toNat

/-- What the instantaneous rewards of a store hold for a credential. -/
def mirsOf (store : OrderedMap NsKey CardanoEntity) (credential : StakeCredential) : ℕ :=
  (((iterEntitiesTyped store PendingMirState none).filter fun pending =>
    pending.credential = credential).map PendingMirState.amount).sum

section Mirs

variable {store : OrderedMap NsKey CardanoEntity} {account : AccountState}

theorem assignedTo_processPendingMir {tally : MirTally} {pending : PendingMirState}
    (held : readEntityTyped store AccountState account.credential.key = some account)
    (small : pending.credential = account.credential → account.isRegistered = true →
      pending.amount < 2 ^ 64) :
    assignedTo (tally.processPendingMir store pending).deltas account.credential.key =
      assignedTo tally.deltas account.credential.key +
        if pending.credential = account.credential ∧ account.isRegistered = true then pending.amount
        else 0 := by
  unfold MirTally.processPendingMir
  by_cases isOwn : pending.credential = account.credential
  · rw [isOwn, held]
    by_cases registered : account.isRegistered = true
    · have word : pending.totalValue.toNat = pending.amount := by
        rw [PendingMirState.totalValue, UInt64.toNat_add]
        exact Nat.mod_eq_of_lt (small isOwn registered)
      simp only [registered, if_true, and_self]
      split_ifs with positive
      · simp [assignedTo_concat, AssignRewards.new, word]
      · have zero : pending.totalValue.toNat = 0 := by
          have notAbove : ¬ (0 : UInt64).toNat < pending.totalValue.toNat := positive
          simpa using notAbove
        rw [← word, zero, Nat.add_zero]
    · simp [registered]
  · have otherKey : pending.credential.key ≠ account.credential.key :=
      fun same => isOwn (StakeCredential.key_injective same)
    simp only [isOwn, false_and, if_false, Nat.add_zero]
    split
    · split_ifs
      · rw [assignedTo_concat, AssignRewards.new, if_neg otherKey, Nat.add_zero]
      · rfl
      · rfl
    · rfl

/-- The pass over the pending rows assigns to a registered account what they hold for it. -/
theorem assignedTo_processPendingMirs
    (held : readEntityTyped store AccountState account.credential.key = some account)
    (small : account.isRegistered = true → mirsOf store account.credential < 2 ^ 64) :
    assignedTo (MirTally.processPendingMirs store).deltas account.credential.key =
      if account.isRegistered then mirsOf store account.credential else 0 := by
  have folded : ∀ (pendings : List PendingMirState) (tally : MirTally),
      (account.isRegistered = true → (((pendings.filter fun pending =>
        pending.credential = account.credential).map PendingMirState.amount).sum < 2 ^ 64)) →
      assignedTo (pendings.foldl (MirTally.processPendingMir store) tally).deltas
          account.credential.key =
        assignedTo tally.deltas account.credential.key +
          if account.isRegistered then ((pendings.filter fun pending =>
            pending.credential = account.credential).map PendingMirState.amount).sum else 0 := by
    intro pendings
    induction pendings with
    | nil => simp
    | cons pending rest ih =>
        intro tally bounded
        have headSmall : pending.credential = account.credential → account.isRegistered = true →
            pending.amount < 2 ^ 64 := by
          intro isOwn registered
          have sum := bounded registered
          rw [List.filter_cons, if_pos (decide_eq_true isOwn), List.map_cons, List.sum_cons] at sum
          omega
        have restSmall : account.isRegistered = true → ((rest.filter fun pending =>
            pending.credential = account.credential).map PendingMirState.amount).sum < 2 ^ 64 := by
          intro registered
          have sum := bounded registered
          rw [List.filter_cons] at sum
          split_ifs at sum
          · rw [List.map_cons, List.sum_cons] at sum
            omega
          · exact sum
        rw [List.foldl_cons, ih _ restSmall, assignedTo_processPendingMir held headSmall]
        by_cases registered : account.isRegistered = true
        · by_cases isOwn : pending.credential = account.credential
          · simp [registered, isOwn, Nat.add_assoc]
          · simp [registered, isOwn]
        · simp [registered]
  have all := folded (iterEntitiesTyped store PendingMirState none) .default small
  rw [MirTally.processPendingMirs, all]
  simp [assignedTo, MirTally.default, mirsOf]

end Mirs

/-- What an action withdraws for a credential. -/
def ProposalState.withdrawnFor (state : ProposalState) (credential : StakeCredential) : ℕ :=
  match state.action with
  | .treasuryWithdrawal withdrawals =>
      ((withdrawals.filter fun withdrawal => withdrawal.1 = credential).map Prod.snd).sum
  | _ => 0

/-- The credential a pool's deposit goes back to: the scheduled parameters name it, and the
live ones where none are scheduled. -/
def PoolState.refundAccount [AddressDecoding] (pool : PoolState) : Option StakeCredential :=
  (pool.snapshot.next.or pool.snapshot.live).bind fun snapshot =>
    AddressDecoding.parseRewardAccount snapshot.params.rewardAccount

theorem PoolState.refundAccount_eq [AddressDecoding] {pool : PoolState} {live : PoolSnapshot}
    (isLive : pool.snapshot.live = some live) :
    pool.refundAccount = BoundaryWork.poolRewardAccount pool live := by
  rw [refundAccount, isLive, BoundaryWork.poolRewardAccount]
  cases pool.snapshot.next <;> rfl

namespace CloseLoad

variable (load : CloseLoad) (credential : StakeCredential)

def withdrawalsOf : ℕ := (load.enacting.map fun held => held.state.withdrawnFor credential).sum

def poolRefundsOf [AddressDecoding] (deposit : ℕ) : ℕ :=
  (load.retiringPools.map fun retiring =>
    if retiring.pool.refundAccount = some credential then deposit else 0).sum

def proposalRefundsOf : ℕ :=
  ((load.enacting ++ load.dropping).map fun held =>
    if held.state.rewardAccount = some credential then held.deposit else 0).sum

end CloseLoad

/-- The deposit of a pool under the parameters of the epoch that ends. -/
def BoundaryWork.poolDeposit (work : BoundaryWork) : ℕ :=
  (work.endingState.pparams.live.bind fun params => params.amount .poolDeposit).getD 0

section Sources

open AccountDelta

variable {store : OrderedMap NsKey CardanoEntity} {account : AccountState}

theorem get?_accounts {key : EntityKey} {held : AccountState} :
    (boundaryStore store).accounts.get? key = some held ↔
      store.get? (toLex (.accounts, key)) = some (.account held) := by
  rw [boundaryStore, OrderedMap.get?_ofList_iff (nodup_iterEntityRows AccountState none),
    mem_iterAccountRows]
  simp

theorem readEntityTyped_account
    (held : store.get? (AccountState.nsKey account.credential) = some (.account account)) :
    readEntityTyped store AccountState account.credential.key = some account := by
  change (store.get? (AccountState.nsKey account.credential)).bind _ = _
  rw [held]
  rfl

/-- A refund to a credential reaches the account of the credential, if that is registered. -/
theorem allOn_refund {refund : StakeCredential → AccountDelta} {amount : ℕ}
    (isKey : ∀ owner, (refund owner).key = AccountState.nsKey owner)
    (isCredit : ∀ owner, (refund owner).credit? = some (.next amount))
    (keyed : AccountsKeyed store)
    (held : store.get? (AccountState.nsKey account.credential) = some (.account account))
    (owner : StakeCredential) :
    AllOn .next
      (creditsOf (groupOf
        (match (boundaryStore store).accounts.get? owner.key with
        | none => []
        | some loaded => if loaded.isRegistered then [refund loaded.credential] else [])
        account.credential.key))
      (if account.isRegistered then if owner = account.credential then amount else 0 else 0) := by
  have ownAccount := get?_accounts.mpr held
  cases loadedEq : (boundaryStore store).accounts.get? owner.key with
  | none =>
      have other : owner ≠ account.credential := by
        rintro rfl
        rw [ownAccount] at loadedEq
        cases loadedEq
      exact ⟨[], rfl, by simp [other]⟩
  | some loaded =>
      have sameOwner : loaded.credential = owner :=
        (StakeCredential.key_injective (keyed _ _ (get?_accounts.mp loadedEq))).symm
      by_cases isOwn : owner = account.credential
      · subst isOwn
        rw [ownAccount] at loadedEq
        rcases Option.some.inj loadedEq with rfl
        by_cases registered : account.isRegistered = true
        · simp only [registered, if_true]
          rw [creditsOf_singleton (isKey _) (isCredit _), if_pos rfl]
          exact ⟨[amount], rfl, rfl⟩
        · simp only [registered]
          exact ⟨[], rfl, rfl⟩
      · have nothing : (if account.isRegistered = true then
            if owner = account.credential then amount else 0 else 0) = 0 := by simp [isOwn]
        rw [nothing]
        by_cases registered : loaded.isRegistered = true
        · simp only [registered, if_true]
          rw [creditsOf_singleton (isKey _) (isCredit _), sameOwner, if_neg isOwn]
          exact ⟨[], rfl, rfl⟩
        · simp only [registered]
          exact ⟨[], rfl, rfl⟩

theorem allOn_proposalRefund (keyed : AccountsKeyed store)
    (held : store.get? (AccountState.nsKey account.credential) = some (.account account))
    {resolved : ResolvedProposal}
    (loaded : resolved.account = resolved.state.rewardAccount.bind fun owner =>
      (boundaryStore store).accounts.get? owner.key) :
    AllOn .next (creditsOf (groupOf resolved.refund account.credential.key))
      (if account.isRegistered then
        if resolved.state.rewardAccount = some account.credential then resolved.deposit else 0
      else 0) := by
  cases depositEq : resolved.state.deposit with
  | none => exact ⟨[], by simp [ResolvedProposal.refund, depositEq, groupOf, creditsOf],
      by simp [ResolvedProposal.deposit, depositEq]⟩
  | some deposit =>
      cases ownerEq : resolved.state.rewardAccount with
      | none =>
          rw [ownerEq, Option.bind_none] at loaded
          exact ⟨[], by simp [ResolvedProposal.refund, depositEq, loaded, groupOf, creditsOf],
            by simp⟩
      | some owner =>
          rw [ownerEq, Option.bind_some] at loaded
          have isKey : ∀ owner, AccountDelta.key (.proposalDepositRefund (.new deposit owner)) =
              AccountState.nsKey owner :=
            fun _ => rfl
          have refunded := allOn_refund isKey (fun _ => rfl) keyed held owner
          have sameQueue : resolved.refund =
              match (boundaryStore store).accounts.get? owner.key with
              | none => []
              | some loaded => if loaded.isRegistered then
                  [.proposalDepositRefund (.new deposit loaded.credential)] else [] := by
            rw [ResolvedProposal.refund, depositEq, loaded]
            cases (boundaryStore store).accounts.get? owner.key <;> rfl
          rw [sameQueue]
          simpa only [Option.some.injEq, ResolvedProposal.deposit, depositEq, Option.getD_some]
            using refunded

/-- What a pool that was loaded as retiring comes with. -/
theorem BoundaryWork.mem_loadPoolData [AddressDecoding] {work : BoundaryWork}
    {bounded : BoundaryStore} {loaded : List RetiringPool}
    (ran : work.loadPoolData bounded = .ok loaded) {retiring : RetiringPool}
    (member : retiring ∈ loaded) :
    ∃ owner, retiring.pool.refundAccount = some owner ∧
      retiring.account = bounded.accounts.get? owner.key := by
  rcases bind_eq_ok.mp ran with ⟨lists, each, flat⟩
  rcases Except.ok.inj flat with rfl
  rcases List.mem_flatten.mp member with ⟨list, isList, isPool⟩
  rcases mem_of_mapM_ok each isList with ⟨⟨key, pool⟩, -, one⟩
  rcases bind_eq_ok.mp one with ⟨live, liveEq, rest⟩
  rw [mapError_eq_ok, EpochValue.unwrapLive_eq_ok] at liveEq
  split_ifs at rest with retires
  · cases ownerEq : BoundaryWork.poolRewardAccount pool live with
    | none =>
        rw [ownerEq] at rest
        cases rest
    | some owner =>
        rw [ownerEq] at rest
        rcases Except.ok.inj rest with rfl
        rw [List.mem_singleton] at isPool
        subst isPool
        exact ⟨owner, (PoolState.refundAccount_eq liveEq).trans ownerEq, rfl⟩
  · rcases Except.ok.inj rest with rfl
    cases isPool

theorem allOn_poolRefund [AddressDecoding] {work : BoundaryWork} (keyed : AccountsKeyed store)
    (held : store.get? (AccountState.nsKey account.credential) = some (.account account))
    {retiring : RetiringPool} {owner : StakeCredential}
    (isOwner : retiring.pool.refundAccount = some owner)
    (loaded : retiring.account = (boundaryStore store).accounts.get? owner.key)
    {queue : List AccountDelta} (visited : work.visitRetiringPool retiring = .ok queue) :
    AllOn .next (creditsOf (groupOf queue account.credential.key))
      (if account.isRegistered then
        if retiring.pool.refundAccount = some account.credential then work.poolDeposit else 0
      else 0) := by
  rcases bind_eq_ok.mp visited with ⟨params, paramsEq, withParams⟩
  rcases bind_eq_ok.mp withParams with ⟨deposit, depositEq, queueEq⟩
  rcases Except.ok.inj queueEq with rfl
  rw [mapError_eq_ok, EpochValue.unwrapLive_eq_ok] at paramsEq
  have isDeposit : work.poolDeposit = deposit := by
    unfold PParamsSet.ensurePoolDeposit at depositEq
    cases amountEq : params.amount .poolDeposit with
    | none =>
        rw [amountEq] at depositEq
        cases depositEq
    | some amount =>
        rw [amountEq] at depositEq
        rcases Except.ok.inj depositEq with rfl
        simp [BoundaryWork.poolDeposit, paramsEq, amountEq]
  have isKey : ∀ owner, AccountDelta.key (.poolDepositRefund (.new deposit owner)) =
      AccountState.nsKey owner :=
    fun _ => rfl
  have refunded := allOn_refund isKey (fun _ => rfl) keyed held owner
  rw [isDeposit, isOwner, loaded]
  simp only [Option.some.injEq]
  exact refunded

theorem onAccount_enactmentDeltas (state : ProposalState) (targets : List StakeCredential) :
    (enactmentDeltas state targets).filterMap EnactmentDelta.onAccount =
      match state.action with
      | .treasuryWithdrawal withdrawals =>
          (withdrawals.filter fun withdrawal => withdrawal.1 ∈ targets).map fun withdrawal =>
            .treasuryWithdrawal (.new withdrawal.1 withdrawal.2)
      | _ => [] := by
  have onlyAction : (enactmentDeltas state targets).filterMap EnactmentDelta.onAccount =
      (actionDeltas targets state.action).filterMap EnactmentDelta.onAccount := by
    rw [enactmentDeltas, List.filterMap_append]
    cases state.purpose <;> simp [EnactmentDelta.onAccount]
  rw [onlyAction]
  cases actionEq : state.action with
  | treasuryWithdrawal withdrawals =>
      simp [actionDeltas, List.filterMap_map, EnactmentDelta.onAccount, Function.comp_def]
  | _ => rfl

theorem mem_deliverableTargets {bounded : BoundaryStore} {resolved : List ResolvedProposal}
    {credential : StakeCredential} (member : credential ∈ deliverableTargets bounded resolved) :
    (bounded.accounts.get? credential.key).any AccountState.isRegistered = true := by
  rcases List.mem_flatMap.mp member with ⟨held, -, listed⟩
  cases actionEq : held.state.action with
  | treasuryWithdrawal withdrawals =>
      rw [actionEq] at listed
      exact (List.mem_filter.mp listed).2
  | _ =>
      rw [actionEq] at listed
      cases listed

/-- The withdrawals of an enacted action reach a registered account in full. -/
theorem allOn_enactment
    (held : store.get? (AccountState.nsKey account.credential) = some (.account account))
    {resolved : List ResolvedProposal} {enacted : ResolvedProposal}
    (isEnacting : enacted ∈ enactingProposals resolved) :
    AllOn .live
      (creditsOf (groupOf
        ((enactmentDeltas enacted.state
          (deliverableTargets (boundaryStore store) resolved)).filterMap
            EnactmentDelta.onAccount) account.credential.key))
      (if account.isRegistered then enacted.state.withdrawnFor account.credential else 0) := by
  have ownAccount := get?_accounts.mpr held
  rw [onAccount_enactmentDeltas]
  cases actionEq : enacted.state.action with
  | treasuryWithdrawal withdrawals =>
      have delivers : ∀ withdrawal ∈ withdrawals, withdrawal.1 = account.credential →
          (withdrawal.1 ∈ deliverableTargets (boundaryStore store) resolved ↔
            account.isRegistered = true) := by
        intro withdrawal member same
        constructor
        · intro isTarget
          have registered := mem_deliverableTargets isTarget
          rw [same, ownAccount] at registered
          exact registered
        · intro registered
          refine List.mem_flatMap.mpr ⟨enacted, isEnacting, ?_⟩
          rw [actionEq]
          refine List.mem_filter.mpr ⟨List.mem_map_of_mem member, ?_⟩
          rw [same, ownAccount]
          exact registered
      refine ⟨(((withdrawals.filter fun withdrawal =>
        withdrawal.1 ∈ deliverableTargets (boundaryStore store) resolved).filter fun withdrawal =>
          withdrawal.1.key = account.credential.key).map Prod.snd), ?_, ?_⟩
      · rw [creditsOf_groupOf_map _ (fun withdrawal : StakeCredential × ℕ => withdrawal.1.key)
          (fun withdrawal => .live withdrawal.2) (fun _ => rfl) (fun _ => rfl), List.map_map]
        rfl
      · rw [List.filter_filter]
        by_cases registered : account.isRegistered = true
        · rw [if_pos registered, ProposalState.withdrawnFor, actionEq]
          refine congrArg (fun kept : List (StakeCredential × ℕ) => (kept.map Prod.snd).sum)
            (List.filter_congr ?_)
          intro withdrawal member
          by_cases same : withdrawal.1 = account.credential
          · have isTarget := (delivers withdrawal member same).mpr registered
            rw [same] at isTarget
            simp [same, isTarget]
          · have otherKey : withdrawal.1.key ≠ account.credential.key :=
              fun sameKey => same (StakeCredential.key_injective sameKey)
            simp [same, otherKey]
        · rw [if_neg registered]
          have nothing : (withdrawals.filter fun withdrawal =>
              decide (withdrawal.1.key = account.credential.key) &&
                decide (withdrawal.1 ∈ deliverableTargets (boundaryStore store) resolved)) =
                  [] := by
            refine List.filter_eq_nil_iff.mpr ?_
            intro withdrawal member both
            rw [Bool.and_eq_true, decide_eq_true_eq, decide_eq_true_eq] at both
            have same := StakeCredential.key_injective both.1
            exact registered ((delivers withdrawal member same).mp both.2)
          rw [nothing]
          rfl
  | _ =>
      refine ⟨[], rfl, ?_⟩
      simp [ProposalState.withdrawnFor, actionEq]

theorem orderedEnactments_eq (bounded : BoundaryStore) (resolved : List ResolvedProposal)
    (order : List EntityKey) :
    orderedEnactments bounded resolved order =
      (order.filterMap (KeyedList.find ResolvedProposal.key (enactingProposals resolved))).flatMap
        fun enacted => enactmentDeltas enacted.state (deliverableTargets bounded resolved) := by
  unfold orderedEnactments
  induction order with
  | nil => rfl
  | cons key rest ih =>
      rw [List.flatMap_cons, ih]
      cases found : KeyedList.find ResolvedProposal.key (enactingProposals resolved) key with
      | none => rw [List.filterMap_cons_none found, List.nil_append]
      | some enacted => rw [List.filterMap_cons_some found, List.flatMap_cons]

theorem isTransition_refund {resolved : ResolvedProposal} {delta : AccountDelta}
    (queued : delta ∈ resolved.refund) : delta.isTransition = false := by
  unfold ResolvedProposal.refund at queued
  split at queued
  · split_ifs at queued
    · rw [List.mem_singleton.mp queued]
      rfl
    · cases queued
  · cases queued

theorem isTransition_poolRefund [AddressDecoding] {work : BoundaryWork} {retiring : RetiringPool}
    {queue : List AccountDelta} (visited : work.visitRetiringPool retiring = .ok queue)
    {delta : AccountDelta} (queued : delta ∈ queue) : delta.isTransition = false := by
  rcases bind_eq_ok.mp visited with ⟨params, -, withParams⟩
  rcases bind_eq_ok.mp withParams with ⟨deposit, -, queueEq⟩
  rcases Except.ok.inj queueEq with rfl
  split at queued
  · cases queued
  · split_ifs at queued
    · rw [List.mem_singleton.mp queued]
      rfl
    · cases queued

theorem sum_ite_registered {D : Type} (sources : List D) (amount : D → ℕ) (registered : Bool) :
    (sources.map fun source => if registered = true then amount source else 0).sum =
      if registered = true then (sources.map amount).sum else 0 := by
  cases registered <;> simp

theorem allOn_poolRefunds [AddressDecoding] {work : BoundaryWork} (keyed : AccountsKeyed store)
    (held : store.get? (AccountState.nsKey account.credential) = some (.account account))
    {retiringPools : List RetiringPool} {queues : List (List AccountDelta)}
    (loaded : ∀ retiring ∈ retiringPools, ∃ owner, retiring.pool.refundAccount = some owner ∧
      retiring.account = (boundaryStore store).accounts.get? owner.key)
    (visited : retiringPools.mapM work.visitRetiringPool = .ok queues) :
    AllOn .next (creditsOf (groupOf queues.flatten account.credential.key))
      (if account.isRegistered then
        (retiringPools.map fun retiring =>
          if retiring.pool.refundAccount = some account.credential then work.poolDeposit else 0).sum
      else 0) := by
  rw [← sum_ite_registered]
  have each := mapM_eq_ok.mp visited
  clear visited
  induction each with
  | nil => exact ⟨[], rfl, rfl⟩
  | @cons retiring queue rest others one _ ih =>
      rcases loaded retiring List.mem_cons_self with ⟨owner, isOwner, isLoaded⟩
      rw [List.flatten_cons, groupOf_append, creditsOf_append, List.map_cons, List.sum_cons]
      exact (allOn_poolRefund keyed held isOwner isLoaded one).append
        (ih fun other member => loaded other (List.mem_cons_of_mem _ member))

/-- What the finalize pass queues for an account: credits of the live stake, then refunds. -/
theorem computeEwrapDeltas_spec [AddressDecoding] {work : BoundaryWork} {load : CloseLoad}
    {deltas : List AccountDelta} (keyed : AccountsKeyed store)
    (held : store.get? (AccountState.nsKey account.credential) = some (.account account))
    (loaded : work.loadFinalize (boundaryStore store) = .ok load)
    (small : account.isRegistered = true → mirsOf store account.credential < 2 ^ 64)
    (computed : work.computeEwrapDeltas load (MirTally.processPendingMirs store) = .ok deltas) :
    (∀ delta ∈ deltas, delta.isTransition = false) ∧ ∃ lives nexts,
      creditsOf (groupOf deltas account.credential.key) = lives ++ nexts ∧
        AllOn .live lives (if account.isRegistered then
          mirsOf store account.credential + load.withdrawalsOf account.credential else 0) ∧
        AllOn .next nexts (if account.isRegistered then
          load.poolRefundsOf account.credential work.poolDeposit +
            load.proposalRefundsOf account.credential else 0) := by
  rcases bind_eq_ok.mp loaded with ⟨retiringPools, poolsEq, withPools⟩
  rcases bind_eq_ok.mp withPools with ⟨ruling, -, loadEq⟩
  rcases Except.ok.inj loadEq with rfl
  rcases bind_eq_ok.mp computed with ⟨poolRefunds, refundsEq, deltasEq⟩
  rcases Except.ok.inj deltasEq with rfl
  set bounded := boundaryStore store with boundedEq
  set resolved := resolvedProposals bounded ruling.outcomes with resolvedEq
  set enacting := ruling.enactmentOrder.filterMap
    (KeyedList.find ResolvedProposal.key (enactingProposals resolved)) with enactingEq
  have enactments : (orderedEnactments bounded resolved ruling.enactmentOrder).filterMap
      EnactmentDelta.onAccount = enacting.flatMap fun enacted =>
        (enactmentDeltas enacted.state (deliverableTargets bounded resolved)).filterMap
          EnactmentDelta.onAccount := by
    rw [orderedEnactments_eq, List.filterMap_flatMap]
  have isEnacting : ∀ enacted ∈ enacting, enacted ∈ enactingProposals resolved := by
    intro enacted member
    rcases List.mem_filterMap.mp member with ⟨key, -, found⟩
    exact (KeyedList.mem_of_find found).1
  have accountOf : ∀ resolution ∈ resolved, resolution.account =
      resolution.state.rewardAccount.bind fun owner => bounded.accounts.get? owner.key :=
    fun resolution member => (mem_resolvedProposals.mp member).2.2
  refine ⟨?_, ?_⟩
  · intro delta isDelta
    simp only [List.mem_append, List.mem_map, List.mem_filterMap, List.mem_flatten,
      List.mem_flatMap] at isDelta
    rcases isDelta with ⟨assigned, -, rfl⟩ | ⟨enactment, -, onAccount⟩ | ⟨queue, isQueue, queued⟩ |
      ⟨resolution, -, queued⟩ | ⟨resolution, -, queued⟩
    · rfl
    · cases enactment <;> cases onAccount
      rfl
    · rcases mem_of_mapM_ok refundsEq isQueue with ⟨retiring, -, visited⟩
      exact isTransition_poolRefund visited queued
    · exact isTransition_refund queued
    · exact isTransition_refund queued
  · simp only [groupOf_append, creditsOf_append]
    have mirs : AllOn .live (creditsOf (groupOf ((MirTally.processPendingMirs store).deltas.map
        AccountDelta.assignRewards) account.credential.key))
        (if account.isRegistered then mirsOf store account.credential else 0) := by
      refine ⟨((MirTally.processPendingMirs store).deltas.filter fun delta =>
        delta.account = account.credential.key).map AssignRewards.reward, ?_, ?_⟩
      · rw [creditsOf_groupOf_map AccountDelta.assignRewards AssignRewards.account
          (fun delta => .live delta.reward) (fun _ => rfl) (fun _ => rfl), List.map_map]
        rfl
      · exact assignedTo_processPendingMirs (readEntityTyped_account held) small
    have withdrawals : AllOn .live (creditsOf (groupOf (enacting.flatMap fun enacted =>
        (enactmentDeltas enacted.state (deliverableTargets bounded resolved)).filterMap
          EnactmentDelta.onAccount) account.credential.key))
        (if account.isRegistered then
          (enacting.map fun enacted => enacted.state.withdrawnFor account.credential).sum
        else 0) := by
      rw [creditsOf_groupOf_flatMap, ← sum_ite_registered]
      exact AllOn.flatMap fun enacted member => allOn_enactment held (isEnacting enacted member)
    have refunds : ∀ resolutions : List ResolvedProposal, (∀ one ∈ resolutions, one ∈ resolved) →
        AllOn .next (creditsOf (groupOf (resolutions.flatMap ResolvedProposal.refund)
          account.credential.key))
          (if account.isRegistered then
            (resolutions.map fun one => if one.state.rewardAccount = some account.credential then
              one.deposit else 0).sum
          else 0) := by
      intro resolutions known
      rw [creditsOf_groupOf_flatMap, ← sum_ite_registered]
      exact AllOn.flatMap fun one member =>
        allOn_proposalRefund keyed held (accountOf one (known one member))
    have pools := allOn_poolRefunds keyed held
      (fun retiring member => BoundaryWork.mem_loadPoolData poolsEq member) refundsEq
    have enacted := refunds enacting fun one member =>
      (List.mem_filter.mp (isEnacting one member)).1
    have dropped := refunds (droppingProposals resolved) fun one member =>
      (List.mem_filter.mp member).1
    rw [← enactments] at withdrawals
    have joined : ∀ one two : ℕ, (if account.isRegistered = true then one else 0) +
        (if account.isRegistered = true then two else 0) =
          if account.isRegistered = true then one + two else 0 := by
      intro one two
      split_ifs <;> rfl
    refine ⟨_, _, (List.append_assoc ..).symm, ?_, ?_⟩
    · have both := mirs.append withdrawals
      rw [joined] at both
      exact both
    · have all := pools.append (enacted.append dropped)
      rw [joined, joined, ← List.sum_append, ← List.map_append] at all
      exact all

end Sources

end Dolos
