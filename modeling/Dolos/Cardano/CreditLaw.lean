import Dolos.Cardano.CreditSources

/-!
# Credits of a boundary add up

Over a whole boundary the live reward balance of an account grows by what is due to it: the
credits of the live stake all come before the first refund. In another order they add up
unless something goes to the live stake after a refund was scheduled.
-/

namespace Dolos

open Outcome

/-- Between boundaries an account has a live stake and nothing scheduled: only refunds schedule
one, and the move to the next epoch takes what is scheduled. -/
structure AccountState.Settled (account : AccountState) : Prop where
  live : account.stake.live.isSome
  next : account.stake.next = none

section Boundary

open AccountDelta

variable {store : OrderedMap NsKey CardanoEntity} {account : AccountState}

variable [AddressDecoding] {work : BoundaryWork}

/-- The ruling of a close, over the store its shards leave. -/
def BoundaryWork.closeRuling (work : BoundaryWork)
    (drops : EntityKey × AccountState → List DelegationDrop) (totalShards : ℕ)
    (store : OrderedMap NsKey CardanoEntity) : Except DomainError Ratification := do
  let rewarded ← ((List.range totalShards).foldlM (ewrapShard drops work.endingState totalShards)
    store).mapError .panic
  (work.runRatification (boundaryStore rewarded)).mapError .panic

/-- What is due to an account at a boundary, by the rows of the store and the ruling. -/
def deliverable (work : BoundaryWork) (store : OrderedMap NsKey CardanoEntity)
    (ruling : Ratification) (account : AccountState) : ℕ :=
  if account.isRegistered then
    rewardsOf store account.credential +
      (mirsOf store account.credential + withdrawalsDue store ruling account.credential +
        (poolRefundsDue work store account.credential +
          proposalRefundsDue store ruling account.credential))
  else 0

omit [AddressDecoding] in
/-- What the shards of the close leave as it is: the rows the other credits come from. -/
theorem EwrapShardSpec.sameRows {E : Type} [EntityVariant E] {totalShards : ℕ} {shards : List ℕ}
    {rewarded : OrderedMap NsKey CardanoEntity}
    (rewarding : EwrapShardSpec totalShards shards store rewarded)
    (notAccount : EntityVariant.namespaceOf E ≠ .accounts)
    (notReward : EntityVariant.namespaceOf E ≠ .pendingRewards) :
    iterEntityRows rewarded E none = iterEntityRows store E none := by
  refine iterEntityRows_congr ?_
  intro key _
  exact rewarding.elsewhere _ notAccount notReward

theorem ewrapFinalize_spec {closed : AccountBoundary} {ruling : Ratification}
    (keyed : AccountsKeyed store)
    (proposalsKeyed : BoundaryWork.ProposalsKeyed (boundaryStore store).proposals)
    (ruled : work.runRatification (boundaryStore store) = .ok ruling)
    (ran : work.ewrapFinalize store = .ok closed) :
    AccountsKeyed closed.store ∧ ∀ account,
      store.get? (AccountState.nsKey account.credential) = some (.account account) →
      (account.isRegistered = true → mirsOf store account.credential < 2 ^ 64) →
      ∃ group after, AccountDelta.applyAll (some account) group = .ok (some after) ∧
        closed.store.get? (AccountState.nsKey account.credential) = some (.account after) ∧
        (∀ delta ∈ group, delta.isTransition = false) ∧ ∃ lives nexts,
          creditsOf group = lives ++ nexts ∧
            AllOn .live lives (if account.isRegistered then
              mirsOf store account.credential + withdrawalsDue store ruling account.credential
            else 0) ∧
            AllOn .next nexts (if account.isRegistered then
              poolRefundsDue work store account.credential +
                proposalRefundsDue store ruling account.credential else 0) := by
  rcases bind_eq_ok.mp ran with ⟨load, loaded, withLoad⟩
  rcases bind_eq_ok.mp withLoad with ⟨deltas, computed, withDeltas⟩
  rcases bind_eq_ok.mp withDeltas with ⟨written, streamed, closedEq⟩
  rcases Except.ok.inj closedEq with rfl
  rw [mapError_eq_ok] at streamed
  have rowsHeld : ∀ row ∈ iterEntityRows store AccountState none,
      store.get? (toLex (.accounts, row.1)) = some (.account row.2) :=
    fun row member => (mem_iterAccountRows.mp member).1
  have nodup : ((iterEntityRows store AccountState none).map Prod.fst).Nodup :=
    nodup_iterEntityRows AccountState none
  have kept : ∀ key : EntityKey, ((MirTally.processPendingMirs store).deleteMirs written).get?
      (toLex (.accounts, key)) = written.get? (toLex (.accounts, key)) := by
    intro key
    rw [MirTally.deleteMirs, OrderedMap.get?_eraseAll, if_neg]
    intro member
    rcases List.mem_map.mp member with ⟨credential, -, same⟩
    cases congrArg (fun index : NsKey => (ofLex index).1) same
  refine ⟨?_, ?_⟩
  · intro key held heldAfter
    rw [kept] at heldAfter
    exact keyed_streamAndApply keyed nodup rowsHeld streamed key held heldAfter
  · intro account held small
    have member : (account.credential.key, account) ∈ iterEntityRows store AccountState none :=
      mem_iterAccountRows.mpr ⟨held, rfl⟩
    rcases (get?_streamAndApply nodup rowsHeld streamed).1 _ member with ⟨row, groupRan, finalEq⟩
    rcases SameOwner.applyAll groupRan with ⟨after, rfl, -⟩
    rcases computeEwrapDeltas_spec keyed held loaded small computed with ⟨stays, credited⟩
    rw [withdrawalsOf_eq_due proposalsKeyed ruled loaded, poolRefundsOf_eq_due loaded,
      proposalRefundsOf_eq_due proposalsKeyed ruled loaded] at credited
    exact ⟨_, after, groupRan, (kept _).trans finalEq,
      fun delta isDelta => stays delta (List.mem_of_mem_filter isDelta), credited⟩

/-- The order of a boundary: its credits all land. In any order of such deltas they do
unless something goes to the live stake after a refund was scheduled. -/
theorem boundary_credits_add_up {drops : EntityKey × AccountState → List DelegationDrop}
    {totalShards : ℕ} {ruling : Ratification} {run : AccountBoundary} {stake : Stake}
    (valid : ValidShards totalShards) (keyed : AccountsKeyed store)
    (written : RewardsWritten store)
    (proposalsKeyed : BoundaryWork.ProposalsKeyed (boundaryStore store).proposals)
    (held : store.get? (AccountState.nsKey account.credential) = some (.account account))
    (settled : account.Settled) (live : account.stake.live = some stake)
    (ran : work.runBoundary drops totalShards store = .ok run)
    (ruled : work.closeRuling drops totalShards store = .ok ruling)
    (fits : stake.rewardsSum + deliverable work store ruling account < 2 ^ 64) :
    (∃ after, run.store.get? (AccountState.nsKey account.credential) = some (.account after) ∧
      after.stake.live = some { stake with
        rewardsSum := stake.rewardsSum + deliverable work store ruling account } ∧
      after.Settled) ∧
      ∀ deltas transition after, (∀ delta ∈ deltas, delta.isTransition = false) →
        stake.rewardsSum + TwoSlot.total (creditsOf deltas) < 2 ^ 64 →
        applyAll (some account) (deltas ++ [.accountTransition transition]) = .ok (some after) →
        (after.stake.live = some { stake with
            rewardsSum := stake.rewardsSum + TwoSlot.total (creditsOf deltas) } ↔
          ∀ earlier refund later amount, creditsOf deltas = earlier ++ .next refund :: later →
            .live amount ∈ later → amount = 0) := by
  have carries : Carries stake ⟨stake.rewardsSum, none⟩ account.stake := ⟨live, settled.next⟩
  refine ⟨?_, ?_⟩
  · rcases bind_eq_ok.mp ran with ⟨rewarded, rewardedEq, withRewarded⟩
    rcases bind_eq_ok.mp withRewarded with ⟨closed, closedEq, withClosed⟩
    rcases bind_eq_ok.mp withClosed with ⟨opened, openedEq, runEq⟩
    rcases Except.ok.inj runEq with rfl
    rw [mapError_eq_ok] at rewardedEq openedEq
    have inShards := List.mem_range.mpr (shardOf_lt valid account.credential)
    -- the shards of the close: rewards, all on the live stake
    have rewarding := ewrapShards_spec List.nodup_range keyed written rewardedEq
    rcases rewarding.ownShard account inShards held with
      ⟨group, paid, groupRan, paidHeld, stays, rewards, rewardsEq, rewardsSum⟩
    rcases SameOwner.applyAll groupRan with ⟨_, ⟨⟩, owner⟩
    have samePools := rewarding.sameRows (E := PoolState) (by decide) (by decide)
    have sameProposals := rewarding.sameRows (E := ProposalState) (by decide) (by decide)
    have sameMirs : mirsOf rewarded account.credential = mirsOf store account.credential := by
      rw [mirsOf, mirsOf, iterEntitiesTyped_eq, iterEntitiesTyped_eq,
        rewarding.sameRows (by decide) (by decide)]
    have rewardedKeyed :
        BoundaryWork.ProposalsKeyed (boundaryStore rewarded).proposals := by
      rw [boundaryStore, sameProposals]
      exact proposalsKeyed
    rw [BoundaryWork.closeRuling, rewardedEq, mapError_ok, ok_bind, mapError_eq_ok] at ruled
    -- the finalize pass: the other credits of the live stake, then the refunds
    rcases ewrapFinalize_spec rewarding.keyed rewardedKeyed ruled closedEq with
      ⟨closedKeyed, closing⟩
    rw [← owner.credential] at paidHeld
    have small : paid.isRegistered = true → mirsOf rewarded paid.credential < 2 ^ 64 := by
      intro registered
      rw [owner.isRegistered] at registered
      rw [deliverable, if_pos registered] at fits
      rw [owner.credential, sameMirs]
      omega
    rcases closing paid paidHeld small with ⟨refunding, settled, refundingRan, settledHeld,
      refundingStays, lives, nexts, creditsEq, ⟨liveAmounts, livesEq, livesSum⟩,
      ⟨nextAmounts, nextsEq, nextsSum⟩⟩
    rw [owner.isRegistered, owner.credential, sameMirs, withdrawalsDue, sameProposals] at livesSum
    rw [owner.isRegistered, owner.credential, poolRefundsDue, samePools, proposalRefundsDue,
      sameProposals] at nextsSum
    rcases SameOwner.applyAll refundingRan with ⟨_, ⟨⟩, settledOwner⟩
    have dueEq : deliverable work store ruling account =
        rewards.sum + (liveAmounts.sum + nextAmounts.sum) := by
      rw [deliverable, rewardsSum, livesSum, nextsSum]
      split_ifs <;> rfl
    have due : stake.rewardsSum + deliverable work store ruling account < 2 ^ 64 := fits
    rw [dueEq] at due
    have rewardsTotal : TwoSlot.total (creditsOf group) = rewards.sum := by
      rw [rewardsEq, TwoSlot.total_lives]
    have refundingTotal : TwoSlot.total (creditsOf refunding) =
        liveAmounts.sum + nextAmounts.sum := by
      rw [creditsEq, livesEq, nextsEq, TwoSlot.total_append, TwoSlot.total_lives,
        TwoSlot.total_nexts]
    have firstRoom : Room ⟨stake.rewardsSum, none⟩ (TwoSlot.total (creditsOf group)) :=
      ⟨by simp only; omega, fun _ isNext => by cases isNext⟩
    rcases carries.applyAll stays groupRan firstRoom with ⟨_, ⟨⟩, paidCarries⟩
    rw [rewardsEq, TwoSlot.foldl_lives] at paidCarries
    have secondRoom : Room ⟨stake.rewardsSum + rewards.sum, none⟩
        (TwoSlot.total (creditsOf refunding)) :=
      ⟨by simp only; omega, fun _ isNext => by cases isNext⟩
    rcases paidCarries.applyAll refundingStays refundingRan secondRoom with
      ⟨_, ⟨⟩, settledCarries⟩
    have promoted : ((creditsOf refunding).foldl TwoSlot.credit
        ⟨stake.rewardsSum + rewards.sum, none⟩).promote =
          stake.rewardsSum + deliverable work store ruling account := by
      have nothingLost : TwoSlot.lost (creditsOf refunding) = 0 := by
        rw [creditsEq, livesEq, nextsEq]
        exact TwoSlot.lost_of_ordered _ _
      rw [TwoSlot.promote_eq_total_iff.mpr nothingLost,
        refundingTotal, dueEq, Nat.add_assoc]
    -- the shards of the open: the move to the next epoch
    have opening := estartShards_spec List.nodup_range closedKeyed openedEq
    have sameOwner : settled.credential = account.credential :=
      settledOwner.credential.trans owner.credential
    rw [← settledOwner.credential] at settledHeld
    rcases opening.ownShard settled (sameOwner ▸ inShards) settledHeld with
      ⟨transition, after, moved, afterHeld⟩
    rcases settledCarries.transition moved with ⟨_, ⟨⟩, final⟩
    rw [sameOwner] at afterHeld
    refine ⟨after, afterHeld, ?_, ?_, final.next⟩
    · rw [final.live, promoted]
    · rw [final.live]
      rfl
  · intro deltas transition after stays fitsAll applied
    rw [applyAll, List.foldlM_append] at applied
    rcases bind_eq_ok.mp applied with ⟨row, credited, moved⟩
    have room : Room ⟨stake.rewardsSum, none⟩ (TwoSlot.total (creditsOf deltas)) :=
      ⟨fitsAll, fun _ isNext => absurd isNext (by simp)⟩
    rcases carries.applyAll stays credited room with ⟨middle, rfl, carried⟩
    rw [List.foldlM_cons] at moved
    rcases bind_eq_ok.mp moved with ⟨last, one, lastEq⟩
    rcases Except.ok.inj lastEq with rfl
    rcases carried.transition one with ⟨_, ⟨⟩, final⟩
    have promoted := @TwoSlot.promote_eq_total_iff ℕ _ _ stake.rewardsSum (creditsOf deltas)
    rw [← TwoSlot.lost_eq_zero_iff, ← promoted, final.live, Option.some.injEq, Stake.mk.injEq]
    simp

end Boundary

namespace PaidAccount

open AccountDelta

attribute [local instance] RewardsContext.stakeAddresses

def credential : StakeCredential := .addrKeyhash 1

def account : AccountState := { AccountState.new 5 credential with registeredAt := some 0 }

def refund : AccountDelta := .poolDepositRefund (.new 5 credential)

def reward : AccountDelta := .assignRewards (.new credential.key 3)

def transition : AccountDelta := .accountTransition (.new credential.key 6)

/-- A reward after a refund is not there after the move to the next epoch. -/
theorem late_reward_lost :
    (applyAll (some account) [refund, reward, transition]).map
        (fun row => row.map fun after => after.stake.live.map Stake.rewardsSum) =
          .ok (some (some 5)) ∧
      (applyAll (some account) [reward, refund, transition]).map
        (fun row => row.map fun after => after.stake.live.map Stake.rewardsSum) =
          .ok (some (some 8)) ∧
      TwoSlot.total (creditsOf [refund, reward]) = 8 := by
  decide +kernel

def pool (operator : Hash28) : PoolState :=
  { RupdWork.mintingPool with operator := operator, retiringEpoch := some 6 }

/-- A proposal of the account, with a deposit of 50. -/
def proposal (idx : Fin (2 ^ 32)) (action : ProposalAction) (maxEpoch : ℕ) : ProposalState :=
  { slot := 2, tx := 1, idx := idx, action := action, maxEpoch := some maxEpoch,
    ratifiedEpoch := none, canceledEpoch := none, deposit := some 50,
    rewardAccount := some credential, proposedIn := some 3, parent := none, purpose := none,
    anchor := none, ccVotes := ∅, drepVotes := ∅, spoVotes := ∅ }

/-- A proposal that enacts at the boundary. -/
def withdrawal : ProposalState := proposal 0 (.treasuryWithdrawal [(credential, 40)]) 8

/-- A proposal that has expired. -/
def lapsed : ProposalState := proposal 1 (.treasuryWithdrawal [(credential, 80)]) 4

def entries : List (NsKey × CardanoEntity) :=
  [(AccountState.nsKey credential, .account account),
    (PendingRewardState.nsKey credential, .pendingReward (.ofReward credential OneShard.reward)),
    (PendingMirState.nsKey credential, .pendingMir ⟨credential, 4, 0⟩),
    (PoolState.nsKey 7, .pool (pool 7)), (PoolState.nsKey 8, .pool (pool 8)),
    (ProposalState.nsKey 1 0, .proposal withdrawal), (ProposalState.nsKey 1 1, .proposal lapsed)]

def store : OrderedMap NsKey CardanoEntity := .ofList entries

def work : BoundaryWork where
  endingState := { RupdWork.epochFive with
    initialPots := { Pots.default with treasury := 100 }
    pparams := { RupdWork.epochFive.pparams with live := some ⟨[⟨.poolDeposit, .amount 500⟩]⟩ } }
  gov := { changeGov with prevDistr := some (distrOf 4) }
  govActiveSince := some 0
  epochStart := 0
  ratifyDReps := ∅
  curatedUpdate _ := none

theorem keyed : AccountsKeyed store := by
  intro key held isHeld
  have member := OrderedMap.mem_of_get?_ofList isHeld
  simp only [entries, List.mem_cons, Prod.mk.injEq, List.not_mem_nil, reduceCtorEq, and_false,
    or_false, CardanoEntity.account.injEq] at member
  rcases member with ⟨sameIndex, rfl⟩
  exact congrArg (fun index : NsKey => (ofLex index).2) sameIndex

theorem written : RewardsWritten store := by
  intro key row isHeld
  have member := OrderedMap.mem_of_get?_ofList isHeld
  simp only [entries, List.mem_cons, Prod.mk.injEq, List.not_mem_nil, reduceCtorEq, and_false,
    or_false, false_or, CardanoEntity.pendingReward.injEq] at member
  exact ⟨credential, OneShard.reward,
    congrArg (fun index : NsKey => (ofLex index).2) member.1, member.2⟩

theorem proposalsKeyed : BoundaryWork.ProposalsKeyed (boundaryStore store).proposals := by
  intro key state isHeld
  have projects : ∀ entity state, EntityVariant.project entity = some state →
      entity = CardanoEntity.proposal state := by
    intro entity state projected
    cases entity <;> cases projected
    rfl
  have isRow : store.get? (toLex (.proposals, key)) = some (.proposal state) :=
    ((mem_iterEntityRows projects).mp (boundaryStore_proposals_get?.mp isHeld)).1
  have member := OrderedMap.mem_of_get?_ofList isRow
  simp only [entries, List.mem_cons, Prod.mk.injEq, List.not_mem_nil, reduceCtorEq, and_false,
    or_false, false_or, CardanoEntity.proposal.injEq] at member
  rcases member with ⟨sameIndex, rfl⟩ | ⟨sameIndex, rfl⟩
  · exact congrArg (fun index : NsKey => (ofLex index).2) sameIndex
  · exact congrArg (fun index : NsKey => (ofLex index).2) sameIndex

theorem boundary_credits_add_up_paid :
    ∃ run after, work.runBoundary (fun _ => []) 1 store = .ok run ∧
      run.store.get? (AccountState.nsKey credential) = some (.account after) ∧
      after.stake.live = some { Stake.default with rewardsSum := 1151 } := by
  have judged : (fun ruling => deliverable work store ruling account) <$>
      work.closeRuling (fun _ => []) 1 store = .ok 1151 := by
    decide +kernel
  have evaluated : (fun _ => ()) <$> work.runBoundary (fun _ => []) 1 store = .ok () := by
    decide +kernel
  rcases map_eq_ok.mp judged with ⟨ruling, ruled, due⟩
  rcases map_eq_ok.mp evaluated with ⟨run, ran, -⟩
  have valid : ValidShards 1 := ⟨by decide, by decide⟩
  have isHeld : store.get? (AccountState.nsKey account.credential) = some (.account account) := rfl
  have isLive : account.stake.live = some .default := rfl
  have paid := boundary_credits_add_up valid keyed written proposalsKeyed isHeld ⟨rfl, rfl⟩ isLive
    ran ruled (by rw [due]; decide)
  rcases paid.1 with ⟨after, held, live, -⟩
  rw [due] at live
  exact ⟨run, after, ran, held, live⟩

end PaidAccount

end Dolos
