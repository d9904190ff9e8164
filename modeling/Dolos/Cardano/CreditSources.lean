import Dolos.Cardano.CloseCredits
import Dolos.Cardano.Forest

/-!
# Where the credits of the finalize pass come from

The refunds and withdrawals the finalize pass loads are those the rows of the store call for:
the pools that retire with the epoch, and the proposals that have an outcome in the ruling.
The ruling lists each enacted proposal once, so none is missed and none is counted twice.
-/

namespace Dolos

open Outcome

/-- A pool whose deposit goes back at the boundary. -/
def BoundaryWork.retires (work : BoundaryWork) (pool : PoolState) : Bool :=
  (pool.snapshot.live.any fun live => !live.isRetired) &&
    decide (pool.retiringEpoch = some (work.closing + 1))

/-- What the pools of a store that retire owe a credential. -/
def poolRefundsDue [AddressDecoding] (work : BoundaryWork) (store : OrderedMap NsKey CardanoEntity)
    (credential : StakeCredential) : ℕ :=
  ((iterEntityRows store PoolState none).map fun row =>
    if work.retires row.2 = true ∧ row.2.refundAccount = some credential then work.poolDeposit
    else 0).sum

/-- What the proposals that a ruling enacts withdraw for a credential. -/
def withdrawalsDue (store : OrderedMap NsKey CardanoEntity) (ruling : Ratification)
    (credential : StakeCredential) : ℕ :=
  ((iterEntityRows store ProposalState none).map fun row =>
    if ruling.outcomes.get? row.1 = some .enacted then row.2.withdrawnFor credential else 0).sum

/-- The deposits of the proposals that a ruling removes, as far as they are a credential's. -/
def proposalRefundsDue (store : OrderedMap NsKey CardanoEntity) (ruling : Ratification)
    (credential : StakeCredential) : ℕ :=
  ((iterEntityRows store ProposalState none).map fun row =>
    if (ruling.outcomes.get? row.1).isSome = true ∧ row.2.rewardAccount = some credential then
      row.2.deposit.getD 0
    else 0).sum

section Rows

variable {store : OrderedMap NsKey CardanoEntity}

theorem iterEntitiesTyped_eq {E : Type} [EntityVariant E] (range : Option KeyRange) :
    iterEntitiesTyped store E range = (iterEntityRows store E range).map Prod.snd := by
  rw [iterEntitiesTyped, iterEntityRows, List.map_filterMap]
  refine List.filterMap_congr ?_
  intro entry _
  split_ifs
  · rw [Option.map_map]
    exact (Option.map_id_apply ..).symm
  · rfl

theorem boundaryStore_proposals_get? {key : EntityKey} {state : ProposalState} :
    (boundaryStore store).proposals.get? key = some state ↔
      (key, state) ∈ iterEntityRows store ProposalState none :=
  OrderedMap.get?_ofList_iff (nodup_iterEntityRows ProposalState none)

end Rows

section Ruling

variable [AddressDecoding] {work : BoundaryWork} {bounded : BoundaryStore} {ruling : Ratification}

omit [AddressDecoding] in
theorem resolvePreConway_enacts :
    (work.resolvePreConway bounded).enactmentOrder.Nodup ∧
      ∀ key, (work.resolvePreConway bounded).outcomes.get? key = some .enacted →
        key ∈ (work.resolvePreConway bounded).enactmentOrder := by
  rw [BoundaryWork.resolvePreConway]
  set live := bounded.proposals.entries.filter fun entry =>
    entry.2.isUnresolvedAtClose work.closing &&
      decide ((work.curatedUpdate entry.2.govActionId).or entry.2.proposedIn = some work.closing)
    with liveEq
  set sorted := live.insertionSort fun a b =>
    toLex (a.2.slot, a.2.idx) ≤ (toLex (b.2.slot, b.2.idx) : ℕ ×ₗ Fin (2 ^ 32)) with sortedEq
  have nodup : (sorted.map Prod.fst).Nodup := by
    have perm : (sorted.map Prod.fst).Perm (live.map Prod.fst) :=
      (List.perm_insertionSort _ live).map _
    exact perm.nodup_iff.mpr (bounded.proposals.nodup_keys.sublist (List.filter_sublist.map _))
  refine ⟨nodup, ?_⟩
  intro key enacted
  have ownKeys : ((sorted.map fun entry => (entry.1, ProposalOutcome.enacted)).map
      Prod.fst).Nodup := by
    rw [List.map_map]
    exact nodup
  rcases List.mem_map.mp ((OrderedMap.get?_ofList_iff ownKeys).mp enacted) with
    ⟨entry, member, entryEq⟩
  cases entryEq
  exact List.mem_map_of_mem member

/-- A ruling orders the proposals it enacts: each of them once. -/
theorem runRatification_enacts (keyed : BoundaryWork.ProposalsKeyed bounded.proposals)
    (ruled : work.runRatification bounded = .ok ruling) :
    ruling.enactmentOrder.Nodup ∧
      ∀ key, ruling.outcomes.get? key = some .enacted → key ∈ ruling.enactmentOrder := by
  cases active : work.govActive with
  | false =>
      rw [BoundaryWork.runRatification, if_pos active] at ruled
      rcases Except.ok.inj ruled with rfl
      exact resolvePreConway_enacts
  | true =>
      rcases BoundaryWork.runRatification_cases active ruled with ⟨-, rfl⟩ | ⟨input, built, rfl⟩
      · refine ⟨List.nodup_nil, ?_⟩
        intro key enacted
        cases enacted
      · have keys := buildRatifyInput_keys built
        rw [rule_enactmentOrder (buildRatifyInput_ids keyed built)]
        have ordered : (input.ordered.map RatifyProposal.key).Nodup :=
          ((List.perm_insertionSort _ _).map _).nodup_iff.mpr keys
        refine ⟨ordered.sublist ((acceptedOf_sublist _ _).map _), ?_⟩
        intro key enacted
        rcases (BoundaryWork.rule_enacted_iff keys).mp enacted with ⟨proposal, accepted, rfl⟩
        exact List.mem_map_of_mem accepted

end Ruling

section Proposals

variable {store : OrderedMap NsKey CardanoEntity} {ruling : Ratification}
  {outcomes : OrderedMap EntityKey ProposalOutcome}

/-- What a ruling makes of a row. -/
def resolveRow (bounded : BoundaryStore) (outcomes : OrderedMap EntityKey ProposalOutcome)
    (row : EntityKey × ProposalState) : Option ResolvedProposal :=
  (outcomes.get? row.1).map fun outcome =>
    { key := row.1
      outcome := outcome
      state := row.2
      account := row.2.rewardAccount.bind fun owner => bounded.accounts.get? owner.key }

theorem resolvedProposals_perm :
    (resolvedProposals (boundaryStore store) outcomes).Perm
      ((iterEntityRows store ProposalState none).filterMap
        (resolveRow (boundaryStore store) outcomes)) := by
  have nodup : (((iterEntityRows store ProposalState none).filterMap
      (resolveRow (boundaryStore store) outcomes)).map ResolvedProposal.key).Nodup := by
    refine List.Nodup.sublist (KeyedList.map_filterMap_sublist ?_ _)
      (nodup_iterEntityRows ProposalState none)
    intro row held made
    rcases Option.map_eq_some_iff.mp made with ⟨outcome, -, rfl⟩
    rfl
  rw [List.perm_ext_iff_of_nodup resolvedProposals_keys_nodup.of_map nodup.of_map]
  intro held
  rw [mem_resolvedProposals, boundaryStore_proposals_get?, List.mem_filterMap]
  constructor
  · rintro ⟨ruled, isRow, accountEq⟩
    refine ⟨_, isRow, ?_⟩
    rw [resolveRow, ruled, Option.map_some, ← accountEq]
  · rintro ⟨row, isRow, made⟩
    rcases Option.map_eq_some_iff.mp made with ⟨outcome, ruled, rfl⟩
    exact ⟨ruled, isRow, rfl⟩

/-- A sum over the resolved proposals is one over the rows that have an outcome. -/
theorem sum_resolvedProposals (amount : ProposalOutcome → ProposalState → ℕ) :
    ((resolvedProposals (boundaryStore store) outcomes).map fun held =>
        amount held.outcome held.state).sum =
      ((iterEntityRows store ProposalState none).map fun row =>
        (outcomes.get? row.1).elim 0 fun outcome => amount outcome row.2).sum := by
  rw [(resolvedProposals_perm.map _).sum_nat]
  induction iterEntityRows store ProposalState none with
  | nil => rfl
  | cons row rest ih =>
      rw [List.map_cons, List.sum_cons, ← ih]
      cases ruled : outcomes.get? row.1 with
      | none =>
          have skipped : resolveRow (boundaryStore store) outcomes row = none := by
            rw [resolveRow, ruled, Option.map_none]
          rw [List.filterMap_cons_none skipped, Option.elim_none, Nat.zero_add]
      | some outcome =>
          have made : resolveRow (boundaryStore store) outcomes row = some
              ⟨row.1, outcome, row.2, row.2.rewardAccount.bind fun owner =>
                (boundaryStore store).accounts.get? owner.key⟩ := by
            rw [resolveRow, ruled, Option.map_some]
          rw [List.filterMap_cons_some made, List.map_cons, List.sum_cons, Option.elim_some]

/-- The proposals that enact, in the order of the ruling, are all of them. -/
theorem enacting_perm {resolved : List ResolvedProposal} {order : List EntityKey}
    (nodup : (resolved.map ResolvedProposal.key).Nodup) (once : order.Nodup)
    (covers : ∀ held ∈ enactingProposals resolved, held.key ∈ order) :
    (order.filterMap (KeyedList.find ResolvedProposal.key (enactingProposals resolved))).Perm
      (enactingProposals resolved) := by
  have enactingNodup : ((enactingProposals resolved).map ResolvedProposal.key).Nodup :=
    nodup.sublist (List.filter_sublist.map _)
  have foundOnce : (order.filterMap
      (KeyedList.find ResolvedProposal.key (enactingProposals resolved))).Nodup := by
    refine once.filterMap ?_
    intro first second held found foundOther
    exact (KeyedList.mem_of_find found).2.symm.trans (KeyedList.mem_of_find foundOther).2
  rw [List.perm_ext_iff_of_nodup foundOnce enactingNodup.of_map]
  intro held
  rw [List.mem_filterMap]
  constructor
  · rintro ⟨key, -, found⟩
    exact (KeyedList.mem_of_find found).1
  · intro member
    exact ⟨held.key, covers held member, KeyedList.find_of_mem enactingNodup member⟩

variable [AddressDecoding] {work : BoundaryWork} {load : CloseLoad} {credential : StakeCredential}

/-- The proposals of a load are those its ruling resolves. -/
theorem loadFinalize_proposals
    (keyed : BoundaryWork.ProposalsKeyed (boundaryStore store).proposals)
    (ruled : work.runRatification (boundaryStore store) = .ok ruling)
    (loaded : work.loadFinalize (boundaryStore store) = .ok load) :
    load.enacting.Perm
        (enactingProposals (resolvedProposals (boundaryStore store) ruling.outcomes)) ∧
      load.dropping =
        droppingProposals (resolvedProposals (boundaryStore store) ruling.outcomes) := by
  rcases bind_eq_ok.mp loaded with ⟨retiringPools, -, withPools⟩
  rw [ruled, mapError_ok, ok_bind] at withPools
  rcases Except.ok.inj withPools with rfl
  rcases runRatification_enacts keyed ruled with ⟨once, covers⟩
  refine ⟨enacting_perm resolvedProposals_keys_nodup once ?_, rfl⟩
  intro held member
  rcases List.mem_filter.mp member with ⟨isResolved, enacts⟩
  have outcomeEq := (mem_resolvedProposals.mp isResolved).1
  rw [of_decide_eq_true enacts] at outcomeEq
  exact covers held.key outcomeEq

theorem withdrawalsOf_eq_due
    (keyed : BoundaryWork.ProposalsKeyed (boundaryStore store).proposals)
    (ruled : work.runRatification (boundaryStore store) = .ok ruling)
    (loaded : work.loadFinalize (boundaryStore store) = .ok load) :
    load.withdrawalsOf credential = withdrawalsDue store ruling credential := by
  rcases loadFinalize_proposals keyed ruled loaded with ⟨enacting, -⟩
  have onEnacted : ∀ resolved : List ResolvedProposal,
      ((enactingProposals resolved).map fun held => held.state.withdrawnFor credential).sum =
        (resolved.map fun held =>
          if held.outcome = .enacted then held.state.withdrawnFor credential else 0).sum := by
    intro resolved
    rw [enactingProposals]
    induction resolved with
    | nil => rfl
    | cons held rest ih =>
        rw [List.filter_cons, List.map_cons, List.sum_cons, ← ih]
        by_cases enacts : held.outcome = .enacted
        · simp [ResolvedProposal.isEnacting, enacts]
        · simp [ResolvedProposal.isEnacting, enacts]
  rw [CloseLoad.withdrawalsOf, (enacting.map _).sum_nat, onEnacted,
    sum_resolvedProposals fun outcome state =>
      if outcome = .enacted then state.withdrawnFor credential else 0, withdrawalsDue]
  refine congrArg List.sum (List.map_congr_left ?_)
  intro row _
  cases ruling.outcomes.get? row.1 <;> simp

theorem proposalRefundsOf_eq_due
    (keyed : BoundaryWork.ProposalsKeyed (boundaryStore store).proposals)
    (ruled : work.runRatification (boundaryStore store) = .ok ruling)
    (loaded : work.loadFinalize (boundaryStore store) = .ok load) :
    load.proposalRefundsOf credential = proposalRefundsDue store ruling credential := by
  rcases loadFinalize_proposals keyed ruled loaded with ⟨enacting, droppingEq⟩
  have all : (load.enacting ++ load.dropping).Perm
      (resolvedProposals (boundaryStore store) ruling.outcomes) := by
    rw [droppingEq]
    exact (enacting.append_right _).trans (List.filter_append_perm _ _)
  rw [CloseLoad.proposalRefundsOf, (all.map _).sum_nat]
  refine (sum_resolvedProposals fun _ state =>
    if state.rewardAccount = some credential then state.deposit.getD 0 else 0).trans ?_
  refine congrArg List.sum (List.map_congr_left ?_)
  intro row _
  cases ruling.outcomes.get? row.1 <;> simp

end Proposals

section Pools

variable [AddressDecoding] {work : BoundaryWork} {store : OrderedMap NsKey CardanoEntity}
  {load : CloseLoad} {credential : StakeCredential}

theorem sum_loadPool {bounded : BoundaryStore} {pool : PoolState} {retiring : List RetiringPool}
    (loaded : work.loadPool bounded pool = .ok retiring) :
    (retiring.map fun held =>
        if held.pool.refundAccount = some credential then work.poolDeposit else 0).sum =
      if work.retires pool = true ∧ pool.refundAccount = some credential then work.poolDeposit
      else 0 := by
  rcases bind_eq_ok.mp loaded with ⟨live, liveEq, rest⟩
  rw [mapError_eq_ok, EpochValue.unwrapLive_eq_ok] at liveEq
  have retiresIff : work.retires pool = true ↔
      live.isRetired = false ∧ pool.retiringEpoch = some (work.closing + 1) := by
    simp [BoundaryWork.retires, liveEq]
  simp only [retiresIff]
  split_ifs at rest with isRetiring
  · cases ownerEq : BoundaryWork.poolRewardAccount pool live with
    | none =>
        rw [ownerEq] at rest
        cases rest
    | some owner =>
        rw [ownerEq] at rest
        rcases Except.ok.inj rest with rfl
        simp [isRetiring]
  · rcases Except.ok.inj rest with rfl
    simp [isRetiring]

theorem sum_loadPools {bounded : BoundaryStore} {entries : List (EntityKey × PoolState)}
    {lists : List (List RetiringPool)}
    (each : List.Forall₂ (fun entry list => work.loadPool bounded entry.2 = .ok list)
      entries lists) :
    (lists.flatten.map fun held =>
        if held.pool.refundAccount = some credential then work.poolDeposit else 0).sum =
      (entries.map fun entry =>
        if work.retires entry.2 = true ∧ entry.2.refundAccount = some credential then
          work.poolDeposit
        else 0).sum := by
  induction each with
  | nil => rfl
  | cons one _ ih =>
      rw [List.flatten_cons, List.map_append, List.sum_append, List.map_cons, List.sum_cons, ih,
        sum_loadPool one]

/-- The pools of a load are those that retire. -/
theorem poolRefundsOf_eq_due (loaded : work.loadFinalize (boundaryStore store) = .ok load) :
    load.poolRefundsOf credential work.poolDeposit = poolRefundsDue work store credential := by
  rcases bind_eq_ok.mp loaded with ⟨retiringPools, poolsEq, withPools⟩
  rcases bind_eq_ok.mp withPools with ⟨ruling, -, loadEq⟩
  rcases Except.ok.inj loadEq with rfl
  rcases bind_eq_ok.mp poolsEq with ⟨lists, each, flat⟩
  rcases Except.ok.inj flat with rfl
  have perm : (boundaryStore store).pools.entries.Perm (iterEntityRows store PoolState none) :=
    OrderedMap.entries_ofList_perm (nodup_iterEntityRows PoolState none)
  rw [poolRefundsDue, ← (perm.map _).sum_nat]
  exact sum_loadPools (mapM_eq_ok.mp each)

end Pools

end Dolos
