import Dolos.Cardano.Deposits

/-!
# The governance forest

Unresolved proposals with a purpose form trees: each names as parent the root of its
purpose or another unresolved proposal of that purpose. An enactment moves the root and
prunes what no longer descends from it. An expiry removes a proposal and nothing below
it, so the trees stay closed exactly as long as no proposal outlives its parent's votes.
-/

namespace Dolos

open Outcome EntityDelta

section Roots

variable [AddressDecoding] {work : BoundaryWork} {store : BoundaryStore} {closed : ProposalClose}
  {input : RatifyInput}

omit [AddressDecoding] in
theorem rule_enactmentOrder (ids : (input.proposals.map RatifyProposal.id).Nodup) :
    (work.rule store input).enactmentOrder = input.accepted.map RatifyProposal.key := by
  rw [← enactedIn_eq ids, RatifyOutcome.enactedIn, List.map_filterMap]
  rfl

theorem buildRatifyInput_keys (built : work.buildRatifyInput store = .ok (some input)) :
    (input.proposals.map RatifyProposal.key).Nodup := by
  rw [(BoundaryWork.buildRatifyInput_spec built).2.2.2]
  exact BoundaryWork.snapshot_keys_nodup

theorem buildRatifyInput_ids (keyed : BoundaryWork.ProposalsKeyed store.proposals)
    (built : work.buildRatifyInput store = .ok (some input)) :
    (input.proposals.map RatifyProposal.id).Nodup := by
  rw [(BoundaryWork.buildRatifyInput_spec built).2.2.2]
  have forestIds := @BoundaryWork.forest_ids_nodup work store keyed
  rw [BoundaryWork.liveForest, List.map_append] at forestIds
  exact (List.nodup_append.mp forestIds).1

/-- The row of an accepted proposal. -/
theorem exists_row_of_accepted (built : work.buildRatifyInput store = .ok (some input))
    {proposal : RatifyProposal} (accepted : proposal ∈ input.accepted) :
    ∃ state, store.proposals.get? proposal.key = some state ∧
      BoundaryWork.Lives work proposal.key state proposal := by
  have member := mem_proposals_of_accepted accepted
  rw [(BoundaryWork.buildRatifyInput_spec built).2.2.2] at member
  rcases BoundaryWork.mem_snapshot.mp member with ⟨key, state, found, taken⟩
  have lives := (BoundaryWork.lives_of_snapshotOf taken).1
  have keyEq := lives.key
  subst keyEq
  exact ⟨state, found, lives⟩

theorem find_enacting (built : work.buildRatifyInput store = .ok (some input))
    {proposal : RatifyProposal} {state : ProposalState} (accepted : proposal ∈ input.accepted)
    (found : store.proposals.get? proposal.key = some state) :
    ∃ held, KeyedList.find ResolvedProposal.key
        (enactingProposals (resolvedProposals store (work.rule store input).outcomes))
        proposal.key = some held ∧ held.state = state := by
  have enacted : (work.rule store input).outcomes.get? proposal.key = some .enacted :=
    (BoundaryWork.rule_enacted_iff (buildRatifyInput_keys built)).mpr ⟨proposal, accepted, rfl⟩
  have member : (⟨proposal.key, .enacted, state,
      state.rewardAccount.bind fun account => store.accounts.get? account.key⟩ :
        ResolvedProposal) ∈ enactingProposals
          (resolvedProposals store (work.rule store input).outcomes) := by
    apply List.mem_filter.mpr
    exact ⟨mem_resolvedProposals.mpr ⟨enacted, found, rfl⟩, rfl⟩
  have nodup : ((enactingProposals (resolvedProposals store
      (work.rule store input).outcomes)).map ResolvedProposal.key).Nodup :=
    resolvedProposals_keys_nodup.sublist (List.filter_sublist.map _)
  exact ⟨_, KeyedList.find_of_mem nodup member, rfl⟩

/-- The roots a boundary leaves are the ones the engine ended with. -/
theorem closeProposals_roots (keyed : BoundaryWork.ProposalsKeyed store.proposals)
    (recorded : ∀ key state, store.proposals.get? key = some state →
      state.isUnresolvedAtClose work.closing = true → state.purpose = state.action.purpose)
    (built : work.buildRatifyInput store = .ok (some input))
    (done : work.closeProposals store = .ok closed)
    (ruledEq : closed.ruling = work.rule store input) :
    ∃ gov, closed.gov = some gov ∧
      gov.prevGovActionIds = (input.accepted.foldl RunState.accept input.start).roots := by
  rcases bind_eq_ok.mp done with ⟨ruling, ruled, rest⟩
  rcases bind_eq_ok.mp rest with ⟨proposals, -, rest⟩
  rcases bind_eq_ok.mp rest with ⟨gov, enacted, made⟩
  cases made
  subst ruledEq
  have sameDeltas : orderedEnactments store
      (resolvedProposals store (work.rule store input).outcomes)
      (work.rule store input).enactmentOrder =
        enactmentRun store.proposals (deliverableTargets store
          (resolvedProposals store (work.rule store input).outcomes)) input.accepted := by
    rw [rule_enactmentOrder (buildRatifyInput_ids keyed built), orderedEnactments,
      List.flatMap_map, enactmentRun]
    apply List.flatMap_congr
    intro proposal accepted
    rcases exists_row_of_accepted built accepted with ⟨state, found, -⟩
    rcases find_enacting built accepted found with ⟨held, heldEq, stateEq⟩
    rw [heldEq, found]
    simp only [stateEq]
  rw [sameDeltas] at enacted
  have backed : ∀ proposal ∈ input.accepted, ∃ state,
      store.proposals.get? proposal.key = some state ∧
        proposal.id = state.govActionId ∧ proposal.action = state.action := by
    intro proposal accepted
    rcases exists_row_of_accepted built accepted with ⟨state, found, lives⟩
    exact ⟨state, found, lives.id, lives.action⟩
  rcases BoundaryWork.buildRatifyInput_spec built with ⟨-, rootsEq, committeeEq, -⟩
  have live : input.LiveIn { work.endingState with pparams := .withLive 0 input.pparams }
      work.gov :=
    ⟨rfl, rfl, committeeEq.symm, rootsEq.symm⟩
  rcases live.mirrors.enactmentRun (deliverableTargets store
    (resolvedProposals store (work.rule store input).outcomes)) backed with
    ⟨-, govAfter, -, govDone, -, roots⟩
  rw [govDone] at enacted
  cases enacted
  refine ⟨govAfter, rfl, roots ?_ live.roots⟩
  intro proposal accepted state found
  rcases exists_row_of_accepted built accepted with ⟨held, heldFound, lives⟩
  rw [heldFound] at found
  cases found
  exact recorded _ _ heldFound lives.unresolved

end Roots

/-- The proposal is in the live forest of the epoch. -/
def GovLedger.Open (ledger : GovLedger) (key : EntityKey) (state : ProposalState) : Prop :=
  ledger.proposals.get? key = some state ∧ state.isUnresolvedAtClose ledger.epoch = true

/-- A proposal with a purpose has as parent the root of that purpose or an open proposal
of it. -/
def GovLedger.Supports (ledger : GovLedger) (state : ProposalState) : Prop :=
  ∀ purpose ∈ state.purpose,
    state.parent = ledger.roots.root purpose ∨
      ∃ parentKey parent, ledger.Open parentKey parent ∧ parent.purpose = some purpose ∧
        state.parent = some parent.govActionId

def ForestClosed (ledger : GovLedger) : Prop :=
  ∀ key state, ledger.Open key state → ledger.Supports state

/-- What every run keeps: rows under their own keys with stamps of earlier boundaries, open
rows that record the purpose of their action, and roots whose rows are no longer open. -/
structure Rooted (ledger : GovLedger) : Prop where
  keyed : BoundaryWork.ProposalsKeyed ledger.proposals
  ratified : ∀ key state, ledger.proposals.get? key = some state →
    ∀ ratified ∈ state.ratifiedEpoch, ratified < ledger.epoch
  canceled : ∀ key state, ledger.proposals.get? key = some state →
    ∀ canceled ∈ state.canceledEpoch, canceled ≤ ledger.epoch
  recorded : ∀ key state, ledger.Open key state → state.purpose = state.action.purpose
  roots : ∀ purpose id, ledger.roots.root purpose = some id →
    ∃ key state, ledger.proposals.get? key = some state ∧ state.govActionId = id ∧
      state.isUnresolvedAtClose ledger.epoch = false

theorem GovLedger.Open.key_eq {ledger : GovLedger} {key otherKey : EntityKey}
    {state other : ProposalState} (opened : ledger.Open key state)
    (keyed : BoundaryWork.ProposalsKeyed ledger.proposals)
    (found : ledger.proposals.get? otherKey = some other)
    (sameId : state.govActionId = other.govActionId) : key = otherKey ∧ state = other := by
  have sameKey := keyed.key_eq opened.1 found sameId
  subst sameKey
  refine ⟨rfl, ?_⟩
  have rowEq := opened.1.symm.trans found
  exact Option.some.inj rowEq

theorem Rooted.ne_root {ledger : GovLedger} (rooted : Rooted ledger) {purpose : GovPurpose}
    {id : GovActionId} (rootEq : ledger.roots.root purpose = some id) {key : EntityKey}
    {state : ProposalState} (opened : ledger.Open key state) : state.govActionId ≠ id := by
  rintro rfl
  rcases rooted.roots purpose _ rootEq with ⟨rootKey, row, found, sameId, settled⟩
  rcases opened.key_eq rooted.keyed found sameId.symm with ⟨-, rfl⟩
  rw [opened.2] at settled
  cases settled

theorem Rooted.purpose_eq {ledger : GovLedger} (rooted : Rooted ledger) {work : BoundaryWork}
    {key : EntityKey} {state : ProposalState} {proposal : RatifyProposal}
    (opened : ledger.Open key state) (lives : BoundaryWork.Lives work key state proposal) :
    proposal.action.purpose = state.purpose := by
  rw [lives.action, rooted.recorded key state opened]

/-- No open proposal whose votes are over has an open child of its purpose whose votes
are not. -/
def NoOrphans (ledger : GovLedger) : Prop :=
  ∀ parentKey parent key child purpose last, ledger.Open parentKey parent →
    ledger.Open key child → child.parent = some parent.govActionId →
      parent.purpose = some purpose → child.purpose = some purpose →
        parent.maxEpoch = some last → last < ledger.epoch →
          ∃ childLast, child.maxEpoch = some childLast ∧ childLast < ledger.epoch

/-- An open proposal names another one of its purpose as its parent. -/
def GovLedger.ChildOf (ledger : GovLedger) (child parent : EntityKey × ProposalState) : Prop :=
  ledger.Open child.1 child.2 ∧ ledger.Open parent.1 parent.2 ∧
    child.2.parent = some parent.2.govActionId ∧
      ∃ purpose, child.2.purpose = some purpose ∧ parent.2.purpose = some purpose

/-- The boundary removes the proposal by expiry or by the enactment of another one. -/
def Removes (closed : ProposalClose) (ledger after : GovLedger)
    (removed : EntityKey × ProposalState) : Prop :=
  ledger.Open removed.1 removed.2 ∧ ¬after.Open removed.1 removed.2 ∧
    closed.ruling.outcomes.get? removed.1 ≠ some .enacted

/-- The boundary leaves a closed forest: with a proposal it removes all that descend from
it, and what stays open names nothing that was removed. -/
structure ForestKept (closed : ProposalClose) (ledger after : GovLedger) : Prop where
  forest : ForestClosed after
  descendants : ∀ removed, Removes closed ledger after removed →
    ∀ child, Relation.TransGen ledger.ChildOf child removed → Removes closed ledger after child
  named : ∀ removed, Removes closed ledger after removed → ∀ key state, after.Open key state →
    state.purpose.isSome → state.parent ≠ some removed.2.govActionId

/-- What a step has to meet: a block submits proposals the ledger supports, and a boundary
orphans none. -/
def ForestMeets : GovEvent → GovLedger → Prop
  | .propose submission, ledger => ledger.Supports (submission.delta ledger.epoch).proposed
  | .vote _, _ => True
  | .close _ _ _, ledger => NoOrphans ledger

section Epochs

variable {state : ProposalState} {epoch : ℕ}

theorem unresolved_mono {later : ℕ} (le : epoch ≤ later)
    (unresolved : state.isUnresolvedAtClose later = true) :
    state.isUnresolvedAtClose epoch = true := by
  simp only [ProposalState.isUnresolvedAtClose, Bool.and_eq_true, Bool.not_eq_true',
    Option.any_eq_false, decide_eq_false_iff_not] at unresolved ⊢
  rcases unresolved with ⟨⟨ratified, canceled⟩, expires⟩
  refine ⟨⟨?_, ?_⟩, ?_⟩
  · intro stamp held
    have late := ratified stamp held
    omega
  · intro stamp held
    have late := canceled stamp held
    omega
  · intro last held
    have late := expires last held
    omega

theorem lasting_of_unresolved_succ (unresolved : state.isUnresolvedAtClose (epoch + 1) = true) :
    ∀ last ∈ state.maxEpoch, epoch ≤ last := by
  simp only [ProposalState.isUnresolvedAtClose, Bool.and_eq_true, Bool.not_eq_true',
    Option.any_eq_false, decide_eq_false_iff_not] at unresolved
  intro last held
  have late := unresolved.2 last held
  omega

theorem unresolved_succ (unruled : state.isResolved = false)
    (lasting : ∀ last ∈ state.maxEpoch, epoch ≤ last) :
    state.isUnresolvedAtClose (epoch + 1) = true := by
  simp only [ProposalState.isResolved, Bool.or_eq_false_iff, Option.isSome_eq_false_iff,
    Option.isNone_iff_eq_none] at unruled
  cases lastEq : state.maxEpoch with
  | none => simp [ProposalState.isUnresolvedAtClose, unruled.1, unruled.2, lastEq]
  | some last =>
      have late := lasting last lastEq
      simp [ProposalState.isUnresolvedAtClose, unruled.1, unruled.2, lastEq, late]

theorem stamp_not_unresolved (outcome : ProposalOutcome) :
    (ProposalResolved.stamp outcome epoch state).isUnresolvedAtClose (epoch + 1) = false := by
  cases outcome <;> simp [ProposalResolved.stamp, ProposalState.isUnresolvedAtClose]

end Epochs

section Survivors

variable [AddressDecoding] {ledger after : GovLedger} {work : BoundaryWork}
  {store : BoundaryStore} {closed : ProposalClose}

/-- An open proposal of the next epoch was open and had no outcome. -/
theorem GovStep.close_open (rooted : Rooted ledger)
    (step : GovStep (.close work store closed) ledger after) {key : EntityKey}
    {state : ProposalState} :
    after.Open key state ↔
      ledger.Open key state ∧ closed.ruling.outcomes.get? key = none ∧
        ∀ last ∈ state.maxEpoch, ledger.epoch ≤ last := by
  rcases step.close_rows rooted.keyed with ⟨epochEq, -, -, -, -, rows⟩
  constructor
  · rintro ⟨found, unresolved⟩
    rw [epochEq] at unresolved
    rw [rows key] at found
    rcases Option.map_eq_some_iff.mp found with ⟨held, heldFound, stamped⟩
    cases outcomeEq : closed.ruling.outcomes.get? key with
    | some outcome =>
        rw [outcomeEq] at stamped
        rw [← stamped, stampedBy, stamp_not_unresolved] at unresolved
        cases unresolved
    | none =>
        rw [outcomeEq] at stamped
        cases stamped
        have before := unresolved_mono (Nat.le_succ _) unresolved
        exact ⟨⟨heldFound, before⟩, rfl, lasting_of_unresolved_succ unresolved⟩
  · rintro ⟨⟨found, unresolved⟩, silent, lasting⟩
    have unruled := isResolved_eq_false (rooted.ratified key state found)
      (rooted.canceled key state found) unresolved
    refine ⟨?_, ?_⟩
    · rw [rows key, found, silent]
      rfl
    · rw [epochEq]
      exact unresolved_succ unruled lasting

end Survivors

/-- A forest that the engine's proposals stand in and the roots do not. -/
structure Planted (forest : List RatifyProposal) (input : RatifyInput) : Prop where
  judged : (input.proposals.map RatifyProposal.id).Nodup
  ids : (forest.map RatifyProposal.id).Nodup
  accepted : ∀ proposal ∈ input.accepted, proposal ∈ forest
  roots : ∀ purpose id, input.roots.root purpose = some id → byId forest id = none

namespace Planted

variable {forest : List RatifyProposal} {input : RatifyInput} {purpose : GovPurpose}

theorem accepted_ids_nodup (planted : Planted forest input) :
    (input.accepted.map RatifyProposal.id).Nodup := by
  have ordered : (input.ordered.map RatifyProposal.id).Nodup :=
    ((List.perm_insertionSort _ _).map _).nodup_iff.mpr planted.judged
  exact ordered.sublist ((acceptedOf_sublist _ _).map _)

/-- The winner of a purpose is the last accepted action of it. -/
theorem lastEnacted_eq (planted : Planted forest input) (purpose : GovPurpose) :
    lastEnacted forest (ratify input).enacted purpose =
      ((input.accepted.filter fun proposal =>
        proposal.action.purpose = some purpose).getLast?).map RatifyProposal.id := by
  rw [lastEnacted, ratify_enacted, List.filter_map, List.getLast?_map]
  congr 2
  apply List.filter_congr
  intro proposal accepted
  simp [byId_eq_some planted.ids (planted.accepted proposal accepted)]

/-- The root of a purpose after the run: the winner, or else the root before. -/
theorem root_of_accepted (planted : Planted forest input) (purpose : GovPurpose) :
    (input.accepted.foldl RunState.accept input.start).roots.root purpose =
      (lastEnacted forest (ratify input).enacted purpose).or (input.roots.root purpose) := by
  have chain := (@enactable_accepted input).parentChain purpose
  rw [chain.stop_eq, planted.lastEnacted_eq]
  rfl

theorem exists_winner (planted : Planted forest input) {winner : GovActionId}
    (won : lastEnacted forest (ratify input).enacted purpose = some winner) :
    ∃ proposal ∈ input.accepted, proposal.action.purpose = some purpose ∧
      proposal.id = winner := by
  rw [planted.lastEnacted_eq] at won
  rcases Option.map_eq_some_iff.mp won with ⟨proposal, lastEq, idEq⟩
  have member := List.mem_filter.mp (List.mem_of_getLast? lastEq)
  exact ⟨proposal, member.1, by simpa using member.2, idEq⟩

theorem lastEnacted_ne_none (planted : Planted forest input)
    {proposal : RatifyProposal} (accepted : proposal ∈ input.accepted)
    (purposeEq : proposal.action.purpose = some purpose) :
    lastEnacted forest (ratify input).enacted purpose ≠ none := by
  rw [planted.lastEnacted_eq]
  intro unwon
  rw [Option.map_eq_none_iff, List.getLast?_eq_none_iff] at unwon
  have member : proposal ∈ input.accepted.filter fun held =>
      held.action.purpose = some purpose :=
    List.mem_filter.mpr ⟨accepted, by simpa using purposeEq⟩
  rw [unwon] at member
  cases member

/-- The walk from the root a purpose had leads nowhere. -/
theorem walk_from_root (planted : Planted forest input) {winner : GovActionId}
    (won : lastEnacted forest (ratify input).enacted purpose = some winner) (left : ℕ) :
    walkReaches (parentOf forest) winner left (input.roots.root purpose) = false := by
  cases rootEq : input.roots.root purpose with
  | none => cases left <;> rfl
  | some id =>
      have missing := planted.roots purpose id rootEq
      rcases planted.exists_winner won with ⟨proposal, accepted, -, rfl⟩
      have other : id ≠ proposal.id := by
        rintro rfl
        rw [byId_eq_some planted.ids (planted.accepted proposal accepted)] at missing
        cases missing
      rw [Bool.eq_false_iff]
      intro reached
      have onward := walkReaches_next reached other
      rw [parentOf, missing] at onward
      cases left <;> simp [walkReaches] at onward

/-- An accepted action other than the winner does not descend from it. -/
theorem not_walkReaches_of_accepted (planted : Planted forest input) {winner : GovActionId}
    (won : lastEnacted forest (ratify input).enacted purpose = some winner)
    {proposal : RatifyProposal} (accepted : proposal ∈ input.accepted)
    (purposeEq : proposal.action.purpose = some purpose) (other : proposal.id ≠ winner)
    (left : ℕ) : walkReaches (parentOf forest) winner left proposal.parent = false := by
  have member : proposal ∈ input.accepted.filter fun held =>
      held.action.purpose = some purpose :=
    List.mem_filter.mpr ⟨accepted, by simpa using purposeEq⟩
  rcases List.append_of_mem member with ⟨before, rest, split⟩
  have chain := (@enactable_accepted input).parentChain purpose
  have lineIds : ((input.accepted.filter fun held =>
      held.action.purpose = some purpose).map RatifyProposal.id).Nodup :=
    (planted.accepted_ids_nodup).sublist (List.filter_sublist.map _)
  rw [planted.lastEnacted_eq] at won
  have inBefore : ∀ held ∈ before, held ∈ forest := by
    intro held heldMember
    apply planted.accepted
    have inLine : held ∈ input.accepted.filter fun held =>
        held.action.purpose = some purpose := by
      rw [split]
      exact List.mem_append_left _ heldMember
    exact (List.mem_filter.mp inLine).1
  have blocked := planted.walk_from_root (by rw [planted.lastEnacted_eq]; exact won)
  rw [split] at chain lineIds won
  apply chain.not_walkReaches _ _ blocked left
  · intro held heldMember
    rw [parentOf, byId_eq_some planted.ids (inBefore held heldMember)]
    rfl
  · -- The winner closes the line, so it stands behind every action before the proposal.
    rcases rest.eq_nil_or_concat with rfl | ⟨middle, last, rfl⟩
    · have same : proposal.id = winner := by simpa using won
      exact absurd same other
    · have regroup : before ++ proposal :: (middle ++ [last]) =
          (before ++ proposal :: middle) ++ [last] := by simp
      have lastEq : last.id = winner := by
        rw [List.concat_eq_append, regroup, List.getLast?_concat] at won
        exact Option.some.inj won
      intro early
      rw [← lastEq] at early
      rw [List.map_append] at lineIds
      apply (List.nodup_append.mp lineIds).2.2 _ early last.id
      · simp
      · rfl

/-- A proposal that is kept has a parent that wins or is kept. -/
theorem kept_parent (planted : Planted forest input)
    {child parent : RatifyProposal} (childPurpose : child.action.purpose = some purpose)
    (parentPurpose : parent.action.purpose = some purpose) (parentIn : parent ∈ forest)
    (named : child.parent = some parent.id) (passed : child.id ∉ (ratify input).enacted)
    (kept : isPruned forest (ratify input).enacted child = false) :
    lastEnacted forest (ratify input).enacted purpose = some parent.id ∨
      parent ∉ input.accepted ∧ isPruned forest (ratify input).enacted parent = false := by
  cases wonEq : lastEnacted forest (ratify input).enacted purpose with
  | none =>
      right
      constructor
      · intro accepted
        exact planted.lastEnacted_ne_none accepted parentPurpose wonEq
      · simp [isPruned, parentPurpose, wonEq]
  | some winner =>
      have reached :
          walkReaches (parentOf forest) winner forest.length (some parent.id) = true := by
        simpa [isPruned, childPurpose, wonEq, passed, named] using kept
      by_cases same : parent.id = winner
      · left
        rw [same]
      · right
        have onward := walkReaches_next reached same
        rw [parentOf, byId_eq_some planted.ids parentIn, Option.bind_some] at onward
        constructor
        · intro accepted
          rw [planted.not_walkReaches_of_accepted wonEq accepted parentPurpose
            same] at onward
          cases onward
        · simp [isPruned, parentPurpose, wonEq, onward]

/-- A child of the root is kept only while the root stays. -/
theorem unwon_of_kept (planted : Planted forest input)
    {child : RatifyProposal} (childPurpose : child.action.purpose = some purpose)
    (named : child.parent = input.roots.root purpose)
    (passed : child.id ∉ (ratify input).enacted)
    (kept : isPruned forest (ratify input).enacted child = false) :
    lastEnacted forest (ratify input).enacted purpose = none := by
  cases wonEq : lastEnacted forest (ratify input).enacted purpose with
  | none => rfl
  | some winner =>
      have reached : walkReaches (parentOf forest) winner forest.length child.parent = true := by
        simpa [isPruned, childPurpose, wonEq, passed] using kept
      rw [named, planted.walk_from_root wonEq] at reached
      cases reached

theorem id_not_mem_enacted (planted : Planted forest input) {proposal : RatifyProposal}
    (member : proposal ∈ forest) (unaccepted : proposal ∉ input.accepted) :
    proposal.id ∉ (ratify input).enacted := by
  rw [ratify_enacted]
  intro enacted
  rcases List.mem_map.mp enacted with ⟨held, accepted, sameId⟩
  have same := List.inj_on_of_nodup_map planted.ids (planted.accepted held accepted) member sameId
  rw [same] at accepted
  exact unaccepted accepted

/-- The parent of an accepted action is accepted before it when it stands in the forest. -/
theorem accepted_parent (planted : Planted forest input) {child parent : RatifyProposal}
    (accepted : child ∈ input.accepted) (childPurpose : child.action.purpose = some purpose)
    (parentIn : parent ∈ forest) (named : child.parent = some parent.id) :
    parent ∈ input.accepted := by
  have member : child ∈ input.accepted.filter fun held =>
      held.action.purpose = some purpose :=
    List.mem_filter.mpr ⟨accepted, by simpa using childPurpose⟩
  rcases List.append_of_mem member with ⟨before, rest, split⟩
  have chain := (@enactable_accepted input).parentChain purpose
  rw [split] at chain
  have parentEq := chain.parent_of_append
  rw [named] at parentEq
  cases lastEq : before.getLast? with
  | none =>
      rw [lastEq] at parentEq
      have missing := planted.roots purpose parent.id parentEq.symm
      rw [byId_eq_some planted.ids parentIn] at missing
      cases missing
  | some held =>
      have sameId : parent.id = held.id := by simpa [lastEq] using parentEq
      have inLine : held ∈ input.accepted.filter fun held =>
          held.action.purpose = some purpose := by
        rw [split]
        exact List.mem_append_left _ (List.mem_of_getLast? lastEq)
      have heldAccepted := (List.mem_filter.mp inLine).1
      rw [List.inj_on_of_nodup_map planted.ids parentIn (planted.accepted held heldAccepted) sameId]
      exact heldAccepted

end Planted

end Dolos
