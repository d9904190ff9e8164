import Dolos.Cardano.ProposalClose

/-!
# The deposits of proposals

A boundary counts the deposit of every proposal it resolves, once, as refunded or as
impossible to refund, and a stamped row is never ruled on again. A proposal is dropped
from the forest by its epoch alone, two epochs after its last voting epoch, also when
the boundary in between could not rule: then nothing ever settles its deposit.
-/

namespace Dolos

open Outcome EntityDelta

/-- A boundary has ruled on the proposal. -/
def ProposalState.isResolved (state : ProposalState) : Bool :=
  state.ratifiedEpoch.isSome || state.canceledEpoch.isSome

/-- The event is a boundary that rules on the proposal. -/
def GovEvent.resolves (key : EntityKey) : GovEvent → Bool
  | close _ _ closed => (closed.ruling.outcomes.get? key).isSome
  | _ => false

/-- The deposits of the resolved proposals, each in one of the two sums: every proposal
ruled on is one of the resolved ones, with the row it has in the store. -/
structure DepositsCounted (store : BoundaryStore) (closed : ProposalClose) : Prop where
  once : ∀ key, (closed.ruling.outcomes.get? key).isSome = true → ∃ held,
    store.proposals.get? key = some held.state ∧
      ((resolvedProposals store closed.ruling.outcomes).filter fun other => other.key = key) =
        [held]
  refunds : closed.proposalRefunds =
    (((resolvedProposals store closed.ruling.outcomes).filter ResolvedProposal.isValid).map
      ResolvedProposal.deposit).sum
  invalidRefunds : closed.proposalInvalidRefunds =
    (((resolvedProposals store closed.ruling.outcomes).filter fun held => !held.isValid).map
      ResolvedProposal.deposit).sum

section Counting

theorem sum_filter_add {α : Type*} (keep : α → Bool) (measure : α → ℕ) (list : List α) :
    ((list.filter keep).map measure).sum + ((list.filter fun held => !keep held).map measure).sum =
      (list.map measure).sum := by
  induction list with
  | nil => rfl
  | cons held rest ih =>
      cases kept : keep held <;> simp [kept] <;> omega

theorem proposalTotalRefunds_eq (resolved : List ResolvedProposal) :
    proposalTotalRefunds resolved = (resolved.map ResolvedProposal.deposit).sum :=
  sum_filter_add _ _ _

theorem proposalValidRefunds_eq (resolved : List ResolvedProposal) :
    proposalValidRefunds resolved =
      ((resolved.filter ResolvedProposal.isValid).map ResolvedProposal.deposit).sum := by
  have split := sum_filter_add ResolvedProposal.isEnacting ResolvedProposal.deposit
    (resolved.filter ResolvedProposal.isValid)
  simp only [List.filter_filter] at split
  rw [← split]
  simp only [proposalValidRefunds, enactingProposals, droppingProposals, List.filter_filter]
  congr 3
  · simp only [Bool.and_comm]
  · simp only [Bool.and_comm]

theorem closeProposals_refunds [AddressDecoding] {work : BoundaryWork} {store : BoundaryStore}
    {closed : ProposalClose} (done : work.closeProposals store = .ok closed) :
    closed.proposalRefunds =
        proposalValidRefunds (resolvedProposals store closed.ruling.outcomes) ∧
      closed.proposalInvalidRefunds =
        proposalTotalRefunds (resolvedProposals store closed.ruling.outcomes) -
          proposalValidRefunds (resolvedProposals store closed.ruling.outcomes) := by
  rcases bind_eq_ok.mp done with ⟨ruling, ruled, rest⟩
  rcases bind_eq_ok.mp rest with ⟨proposals, -, rest⟩
  rcases bind_eq_ok.mp rest with ⟨gov, -, made⟩
  cases made
  exact ⟨rfl, rfl⟩

theorem filter_key_eq {list : List ResolvedProposal}
    (nodup : (list.map ResolvedProposal.key).Nodup) {held : ResolvedProposal}
    (member : held ∈ list) : (list.filter fun other => other.key = held.key) = [held] := by
  induction list with
  | nil => cases member
  | cons first rest ih =>
      rcases List.nodup_cons.mp nodup with ⟨notRest, restNodup⟩
      rcases List.mem_cons.mp member with rfl | later
      · have others : (rest.filter fun other => other.key = held.key) = [] := by
          apply List.filter_eq_nil_iff.mpr
          intro other otherMember
          have distinct : other.key ≠ held.key := fun same =>
            notRest (same ▸ List.mem_map_of_mem otherMember)
          simpa using distinct
        simp [others]
      · have distinct : first.key ≠ held.key := fun same =>
          notRest (same ▸ List.mem_map_of_mem later)
        simpa [distinct] using ih restNodup later

theorem depositsCounted [AddressDecoding] {work : BoundaryWork} {store : BoundaryStore}
    {closed : ProposalClose} (active : work.govActive = true)
    (done : work.closeProposals store = .ok closed) : DepositsCounted store closed := by
  rcases closeProposals_refunds done with ⟨refunds, invalidRefunds⟩
  have split := sum_filter_add ResolvedProposal.isValid ResolvedProposal.deposit
    (resolvedProposals store closed.ruling.outcomes)
  rw [proposalTotalRefunds_eq, proposalValidRefunds_eq] at invalidRefunds
  rw [proposalValidRefunds_eq] at refunds
  refine ⟨?_, refunds, by omega⟩
  intro key ruled
  rcases Option.isSome_iff_exists.mp ruled with ⟨outcome, outcomeEq⟩
  rcases BoundaryWork.unresolved_of_outcome active (closeProposals_ruling done) outcomeEq with
    ⟨state, found, -⟩
  have member : (⟨key, outcome, state,
      state.rewardAccount.bind fun account => store.accounts.get? account.key⟩ :
        ResolvedProposal) ∈ resolvedProposals store closed.ruling.outcomes :=
    mem_resolvedProposals.mpr ⟨outcomeEq, found, rfl⟩
  exact ⟨_, found, filter_key_eq resolvedProposals_keys_nodup member⟩

end Counting

/-- What a run keeps about its rows: they are stored under their own keys, carry stamps of
earlier boundaries only, and are resolved exactly when one boundary ruled on them, in the
run or before it. -/
structure Settling (already : EntityKey → Bool) (events : List GovEvent) (ledger : GovLedger) :
    Prop where
  keyed : BoundaryWork.ProposalsKeyed ledger.proposals
  ratified : ∀ key state, ledger.proposals.get? key = some state →
    ∀ ratified ∈ state.ratifiedEpoch, ratified < ledger.epoch
  canceled : ∀ key state, ledger.proposals.get? key = some state →
    ∀ canceled ∈ state.canceledEpoch, canceled ≤ ledger.epoch
  counted : ∀ key state, ledger.proposals.get? key = some state →
    events.countP (GovEvent.resolves key) + (already key).toNat = state.isResolved.toNat
  absent : ∀ key, ledger.proposals.get? key = none →
    events.countP (GovEvent.resolves key) + (already key).toNat = 0

/-- A proposal a boundary may still have to rule on was recorded with its action, in an
epoch that voting outlasts. -/
def Submitted (ledger : GovLedger) : Prop :=
  ∀ key state, ledger.proposals.get? key = some state → state.isResolved = false →
    state.action ≠ .other ∧ ∃ proposed, state.proposedIn = some proposed ∧
      proposed ≤ ledger.epoch ∧ ∀ last ∈ state.maxEpoch, proposed ≤ last

/-- Voting on a proposal that no boundary ruled on is over for one epoch at most. -/
def Timely (ledger : GovLedger) : Prop :=
  ∀ key state, ledger.proposals.get? key = some state → state.isResolved = false →
    ∀ last ∈ state.maxEpoch, ledger.epoch ≤ last + 1

/-- A boundary that closes the epoch after the last voting epoch of an unresolved proposal
has the distributions of the previous boundary. -/
def RulesInTime : GovEvent → GovLedger → Prop
  | .close work _ _, ledger =>
      (∃ key state, ledger.proposals.get? key = some state ∧ state.isResolved = false ∧
        state.maxEpoch.map (· + 1) = some ledger.epoch) → work.ratifyDistr.isSome = true
  | _, _ => True

section Stamps

variable {state : ProposalState} {epoch : ℕ}

theorem isResolved_eq_false (ratified : ∀ stamp ∈ state.ratifiedEpoch, stamp < epoch)
    (canceled : ∀ stamp ∈ state.canceledEpoch, stamp ≤ epoch)
    (unresolved : state.isUnresolvedAtClose epoch = true) : state.isResolved = false := by
  simp only [ProposalState.isUnresolvedAtClose, Bool.and_eq_true, Bool.not_eq_true'] at unresolved
  cases ratifiedEq : state.ratifiedEpoch with
  | some stamp =>
      have early := ratified stamp (by simp [ratifiedEq])
      simp [ratifiedEq, early] at unresolved
  | none =>
      cases canceledEq : state.canceledEpoch with
      | some stamp =>
          have early := canceled stamp (by simp [canceledEq])
          simp [canceledEq, early] at unresolved
      | none => simp [ProposalState.isResolved, ratifiedEq, canceledEq]

theorem isResolved_stamp (outcome : ProposalOutcome) :
    (ProposalResolved.stamp outcome epoch state).isResolved = true := by
  cases outcome <;> simp [ProposalResolved.stamp, ProposalState.isResolved]

theorem SameBut.isResolved {changed : ProposalState} (same : SameBut state changed) :
    changed.isResolved = state.isResolved := by
  simp only [ProposalState.isResolved, same.ratifiedEpoch, same.canceledEpoch]

theorem stampedBy_tx (outcome : Option ProposalOutcome) :
    (stampedBy epoch outcome state).tx = state.tx ∧
      (stampedBy epoch outcome state).idx = state.idx := by
  rcases outcome with _ | _ | _ | _ <;> exact ⟨rfl, rfl⟩

theorem stampedBy_ratified {outcome : Option ProposalOutcome}
    (ratified : ∀ stamp ∈ state.ratifiedEpoch, stamp < epoch) :
    ∀ stamp ∈ (stampedBy epoch outcome state).ratifiedEpoch, stamp < epoch + 1 := by
  intro stamp held
  rcases outcome with _ | _ | _ | _
  · exact Nat.lt_succ_of_lt (ratified stamp held)
  · cases held
    exact Nat.lt_succ_self _
  · exact Nat.lt_succ_of_lt (ratified stamp held)
  · exact Nat.lt_succ_of_lt (ratified stamp held)

theorem stampedBy_canceled {outcome : Option ProposalOutcome}
    (canceled : ∀ stamp ∈ state.canceledEpoch, stamp ≤ epoch) :
    ∀ stamp ∈ (stampedBy epoch outcome state).canceledEpoch, stamp ≤ epoch + 1 := by
  intro stamp held
  rcases outcome with _ | _ | _ | _
  · exact Nat.le_succ_of_le (canceled stamp held)
  · exact Nat.le_succ_of_le (canceled stamp held)
  · cases held
    exact le_rfl
  · cases held
    exact le_rfl

end Stamps

section Steps

variable [AddressDecoding] {already : EntityKey → Bool} {events : List GovEvent}
  {ledger after : GovLedger}

omit [AddressDecoding] in
theorem countP_concat (key : EntityKey) (event : GovEvent) :
    (events ++ [event]).countP (GovEvent.resolves key) =
      events.countP (GovEvent.resolves key) + (event.resolves key).toNat := by
  rw [List.countP_append, List.countP_singleton]
  cases event.resolves key <;> rfl

theorem Settling.vote {delta : VoteCast} (settling : Settling already events ledger)
    (step : GovStep (.vote delta) ledger after) :
    Settling already (events ++ [.vote delta]) after := by
  rcases step.vote_rows with ⟨epochEq, -, rows⟩
  refine ⟨?_, ?_, ?_, ?_, ?_⟩
  · intro key changed found
    rcases step.vote_origin found with ⟨state, held, same⟩
    rw [same.tx, same.idx]
    exact settling.keyed key state held
  · intro key changed found stamp stamped
    rcases step.vote_origin found with ⟨state, held, same⟩
    rw [same.ratifiedEpoch] at stamped
    rw [epochEq]
    exact settling.ratified key state held stamp stamped
  · intro key changed found stamp stamped
    rcases step.vote_origin found with ⟨state, held, same⟩
    rw [same.canceledEpoch] at stamped
    rw [epochEq]
    exact settling.canceled key state held stamp stamped
  · intro key changed found
    rcases step.vote_origin found with ⟨state, held, same⟩
    rw [countP_concat, same.isResolved]
    exact settling.counted key state held
  · intro key missing
    rw [countP_concat]
    cases held : ledger.proposals.get? key with
    | none => exact settling.absent key held
    | some state =>
        have row := rows key
        rw [held] at row
        rcases row with ⟨changed, changedEq, -⟩
        rw [missing] at changedEq
        cases changedEq

theorem Settling.propose {submission : Submission} (settling : Settling already events ledger)
    (step : GovStep (.propose submission) ledger after) :
    Settling already (events ++ [.propose submission]) after := by
  rcases step.propose_rows with ⟨epochEq, -, fresh, rows⟩
  refine ⟨?_, ?_, ?_, ?_, ?_⟩
  · intro key state found
    rw [rows key] at found
    split_ifs at found with own
    · cases found
      exact own
    · exact settling.keyed key state found
  · intro key state found stamp stamped
    rw [rows key] at found
    split_ifs at found with own
    · cases found
      cases stamped
    · rw [epochEq]
      exact settling.ratified key state found stamp stamped
  · intro key state found stamp stamped
    rw [rows key] at found
    split_ifs at found with own
    · cases found
      cases stamped
    · rw [epochEq]
      exact settling.canceled key state found stamp stamped
  · intro key state found
    rw [countP_concat]
    rw [rows key] at found
    split_ifs at found with own
    · cases found
      rw [own]
      exact settling.absent _ fresh
    · exact settling.counted key state found
  · intro key missing
    rw [countP_concat]
    rw [rows key] at missing
    split_ifs at missing with own
    exact settling.absent key missing

theorem Settling.close {work : BoundaryWork} {store : BoundaryStore} {closed : ProposalClose}
    (settling : Settling already events ledger)
    (step : GovStep (.close work store closed) ledger after) :
    Settling already (events ++ [.close work store closed]) after := by
  rcases step.close_rows settling.keyed with ⟨epochEq, ruled, active, closing, storeRows, rows⟩
  have rowOf : ∀ key changed, after.proposals.get? key = some changed →
      ∃ state, ledger.proposals.get? key = some state ∧
        changed = stampedBy ledger.epoch (closed.ruling.outcomes.get? key) state := by
    intro key changed found
    rw [rows key] at found
    rcases Option.map_eq_some_iff.mp found with ⟨state, held, rfl⟩
    exact ⟨state, held, rfl⟩
  refine ⟨?_, ?_, ?_, ?_, ?_⟩
  · intro key changed found
    rcases rowOf key changed found with ⟨state, held, rfl⟩
    rw [(stampedBy_tx _).1, (stampedBy_tx _).2]
    exact settling.keyed key state held
  · intro key changed found
    rcases rowOf key changed found with ⟨state, held, rfl⟩
    rw [epochEq]
    exact stampedBy_ratified (settling.ratified key state held)
  · intro key changed found
    rcases rowOf key changed found with ⟨state, held, rfl⟩
    rw [epochEq]
    exact stampedBy_canceled (settling.canceled key state held)
  · intro key changed found
    rcases rowOf key changed found with ⟨state, held, rfl⟩
    have counted := settling.counted key state held
    rw [countP_concat]
    cases outcomeEq : closed.ruling.outcomes.get? key with
    | none => simpa [GovEvent.resolves, outcomeEq, stampedBy] using counted
    | some outcome =>
        rcases BoundaryWork.unresolved_of_outcome active ruled outcomeEq with
          ⟨row, rowFound, unresolved⟩
        rw [storeRows, held] at rowFound
        cases rowFound
        rw [closing] at unresolved
        have before := isResolved_eq_false (settling.ratified key state held)
          (settling.canceled key state held) unresolved
        have afterwards : (stampedBy ledger.epoch (some outcome) state).isResolved = true :=
          isResolved_stamp outcome
        rw [before] at counted
        simp only [Bool.toNat_false, Nat.add_eq_zero_iff] at counted
        simp [GovEvent.resolves, outcomeEq, afterwards, counted.1, counted.2]
  · intro key missing
    rw [rows key, Option.map_eq_none_iff] at missing
    rw [countP_concat]
    cases outcomeEq : closed.ruling.outcomes.get? key with
    | none => simpa [GovEvent.resolves, outcomeEq] using settling.absent key missing
    | some outcome =>
        rcases BoundaryWork.unresolved_of_outcome active ruled outcomeEq with ⟨row, rowFound, -⟩
        rw [storeRows, missing] at rowFound
        cases rowFound

theorem Settling.step {event : GovEvent} (settling : Settling already events ledger)
    (step : GovStep event ledger after) : Settling already (events ++ [event]) after := by
  cases event with
  | propose submission => exact settling.propose step
  | vote delta => exact settling.vote step
  | close work store closed => exact settling.close step

theorem Settling.run {meets : GovEvent → GovLedger → Prop} {later : List GovEvent}
    (path : Path (fun event before next => GovStep event before next ∧ meets event before)
      later ledger after) (settling : Settling already events ledger) :
    Settling already (events ++ later) after := by
  induction path generalizing events with
  | nil => simpa using settling
  | cons stepped _ ih => simpa using ih (settling.step stepped.1)

end Steps

section Time

variable [AddressDecoding] {already : EntityKey → Bool} {events : List GovEvent}
  {ledger after : GovLedger} {event : GovEvent}

/-- A row no boundary has ruled on was there before, or is a new proposal. -/
theorem GovStep.unresolved_origin (keyed : BoundaryWork.ProposalsKeyed ledger.proposals)
    (step : GovStep event ledger after) {key : EntityKey} {changed : ProposalState}
    (found : after.proposals.get? key = some changed) (unruled : changed.isResolved = false) :
    (∃ state, ledger.proposals.get? key = some state ∧ SameBut state changed) ∨
      ∃ submission, event = .propose submission ∧
        changed = (submission.delta ledger.epoch).proposed := by
  cases event with
  | propose submission =>
      rw [step.propose_rows.2.2.2 key] at found
      split_ifs at found with own
      · cases found
        exact Or.inr ⟨submission, rfl, rfl⟩
      · exact Or.inl ⟨changed, found, SameBut.refl changed⟩
  | vote delta => exact Or.inl (step.vote_origin found)
  | close work store closed =>
      rcases step.close_rows keyed with ⟨-, -, -, -, -, rows⟩
      rw [rows key] at found
      rcases Option.map_eq_some_iff.mp found with ⟨state, held, rfl⟩
      cases outcomeEq : closed.ruling.outcomes.get? key with
      | none => exact Or.inl ⟨state, held, SameBut.refl state⟩
      | some outcome =>
          rw [outcomeEq, stampedBy, isResolved_stamp] at unruled
          cases unruled

theorem GovStep.epoch_le (step : GovStep event ledger after) : ledger.epoch ≤ after.epoch := by
  cases step with
  | propose fresh applied =>
      rcases bind_eq_ok.mp applied with ⟨_, -, made⟩
      cases made
      exact le_rfl
  | vote applied =>
      rcases bind_eq_ok.mp applied with ⟨_, -, made⟩
      cases made
      exact le_rfl
  | close _ _ _ _ _ _ => exact Nat.le_succ _

omit [AddressDecoding] in
theorem parseGovAction_ne_other (action : GovAction) : (parseGovAction action).1 ≠ .other := by
  cases action <;> simp [parseGovAction]

theorem Submitted.step (keyed : BoundaryWork.ProposalsKeyed ledger.proposals)
    (submitted : Submitted ledger) (step : GovStep event ledger after) : Submitted after := by
  intro key changed found unruled
  have later := step.epoch_le
  rcases step.unresolved_origin keyed found unruled with ⟨state, held, same⟩ | ⟨submission, -, rfl⟩
  · rw [same.isResolved] at unruled
    rcases submitted key state held unruled with ⟨tracked, proposed, proposedEq, early, lasting⟩
    refine ⟨by rwa [same.action], proposed, by rwa [same.proposedIn], by omega, ?_⟩
    rw [same.maxEpoch]
    exact lasting
  · refine ⟨parseGovAction_ne_other submission.action, ledger.epoch, rfl, later, ?_⟩
    intro last lastEq
    rcases Option.map_eq_some_iff.mp lastEq with ⟨period, -, rfl⟩
    exact Nat.le_add_right ledger.epoch period

omit [AddressDecoding] in
/-- In the epoch after its last voting epoch an unresolved proposal is in the snapshot. -/
theorem mem_snapshot_of_last {work : BoundaryWork} {store : BoundaryStore}
    {key : EntityKey} {state : ProposalState} {last proposed : ℕ}
    (found : store.proposals.get? key = some state) (unruled : state.isResolved = false)
    (tracked : state.action ≠ .other) (proposedEq : state.proposedIn = some proposed)
    (lastEq : state.maxEpoch = some last) (lasting : proposed ≤ last)
    (closing : work.closing = last + 1) :
    ∃ proposal ∈ work.snapshot store, proposal.key = key ∧ proposal.expiresAfter = last := by
  simp only [ProposalState.isResolved, Bool.or_eq_false_iff, Option.isSome_eq_false_iff,
    Option.isNone_iff_eq_none] at unruled
  have unresolved : state.isUnresolvedAtClose work.closing = true := by
    simp [ProposalState.isUnresolvedAtClose, unruled.1, unruled.2, lastEq, closing]
  have early : (state.proposedIn.any fun held => held < work.closing) = true := by
    simp only [proposedEq, Option.any_some, decide_eq_true_eq, closing]
    omega
  have isTaken : (work.snapshotOf key state).isSome = true := by
    simp [BoundaryWork.snapshotOf, unresolved, early, tracked, lastEq]
  rcases Option.isSome_iff_exists.mp isTaken with ⟨proposal, taken⟩
  rcases BoundaryWork.lives_of_snapshotOf taken with ⟨lives, expires⟩
  rw [lastEq, Option.some.injEq] at expires
  exact ⟨proposal, BoundaryWork.mem_snapshot.mpr ⟨key, state, found, taken⟩, lives.key,
    expires.symm⟩

theorem Timely.close {work : BoundaryWork} {store : BoundaryStore} {closed : ProposalClose}
    (keyed : BoundaryWork.ProposalsKeyed ledger.proposals) (submitted : Submitted ledger)
    (timely : Timely ledger) (step : GovStep (.close work store closed) ledger after)
    (rules : RulesInTime (.close work store closed) ledger) : Timely after := by
  intro key changed found unruled last lastEq
  rcases step.close_rows keyed with ⟨epochEq, ruled, active, closing, storeRows, rows⟩
  have foundRow := found
  rw [rows key] at foundRow
  rcases Option.map_eq_some_iff.mp foundRow with ⟨state, held, changedEq⟩
  have silent : closed.ruling.outcomes.get? key = none := by
    cases outcomeEq : closed.ruling.outcomes.get? key with
    | none => rfl
    | some outcome =>
        rw [← changedEq, outcomeEq, stampedBy, isResolved_stamp] at unruled
        cases unruled
  rw [silent] at changedEq
  cases changedEq
  have before := timely key state held unruled last lastEq
  have lastIs : state.maxEpoch = some last := lastEq
  rcases submitted key state held unruled with ⟨tracked, proposed, proposedEq, -, lasting⟩
  have notLast : ledger.epoch ≠ last + 1 := by
    intro atLast
    have distrSome := rules ⟨key, state, held, unruled, by simp [lastIs, atLast]⟩
    rcases BoundaryWork.runRatification_cases active ruled with
      ⟨missing, -⟩ | ⟨input, built, rulingEq⟩
    · rw [missing] at distrSome
      cases distrSome
    · rcases BoundaryWork.buildRatifyInput_spec built with ⟨current, -, -, proposalsEq⟩
      rw [← storeRows] at held
      rcases mem_snapshot_of_last held unruled tracked proposedEq lastIs (lasting last lastIs)
        (closing.trans atLast) with ⟨proposal, member, keyEq, expires⟩
      have keys : (input.proposals.map RatifyProposal.key).Nodup := by
        rw [proposalsEq]
        exact BoundaryWork.snapshot_keys_nodup
      rw [rulingEq, BoundaryWork.rule_none_iff keys, proposalsEq, current, closing, atLast]
        at silent
      have outlives := (silent.2 proposal member keyEq).2
      omega
  rw [epochEq]
  omega

theorem Timely.step (keyed : BoundaryWork.ProposalsKeyed ledger.proposals)
    (submitted : Submitted ledger) (timely : Timely ledger) (step : GovStep event ledger after)
    (rules : RulesInTime event ledger) : Timely after := by
  cases event with
  | close work store closed => exact timely.close keyed submitted step rules
  | propose submission =>
      intro key changed found unruled last lastEq
      rw [step.propose_rows.1]
      rcases step.unresolved_origin keyed found unruled with ⟨state, held, same⟩ | ⟨made, -, rfl⟩
      · rw [same.isResolved] at unruled
        rw [same.maxEpoch] at lastEq
        exact timely key state held unruled last lastEq
      · rcases Option.map_eq_some_iff.mp lastEq with ⟨period, -, rfl⟩
        exact Nat.le_succ_of_le (Nat.le_add_right ledger.epoch period)
  | vote delta =>
      intro key changed found unruled last lastEq
      rw [step.vote_rows.1]
      rcases step.unresolved_origin keyed found unruled with ⟨state, held, same⟩ | ⟨made, isVote, -⟩
      · rw [same.isResolved] at unruled
        rw [same.maxEpoch] at lastEq
        exact timely key state held unruled last lastEq
      · cases isVote

end Time

/-- The ledger a run begins with: its rows are stored under their own keys with stamps of
earlier boundaries, and those not ruled on are proposals still in time. -/
structure Begins (ledger : GovLedger) : Prop where
  keyed : BoundaryWork.ProposalsKeyed ledger.proposals
  ratified : ∀ key state, ledger.proposals.get? key = some state →
    ∀ ratified ∈ state.ratifiedEpoch, ratified < ledger.epoch
  canceled : ∀ key state, ledger.proposals.get? key = some state →
    ∀ canceled ∈ state.canceledEpoch, canceled ≤ ledger.epoch
  submitted : Submitted ledger
  timely : Timely ledger

/-- The proposal was resolved before the run. -/
def GovLedger.resolvedAt (ledger : GovLedger) (key : EntityKey) : Bool :=
  (ledger.proposals.get? key).any ProposalState.isResolved

theorem settling_of_start {ledger : GovLedger}
    (keyed : BoundaryWork.ProposalsKeyed ledger.proposals)
    (ratified : ∀ key state, ledger.proposals.get? key = some state →
      ∀ ratified ∈ state.ratifiedEpoch, ratified < ledger.epoch)
    (canceled : ∀ key state, ledger.proposals.get? key = some state →
      ∀ canceled ∈ state.canceledEpoch, canceled ≤ ledger.epoch) :
    Settling ledger.resolvedAt [] ledger := by
  refine ⟨keyed, ratified, canceled, ?_, ?_⟩
  · intro key state found
    simp [GovLedger.resolvedAt, found]
  · intro key missing
    simp [GovLedger.resolvedAt, missing]

theorem Begins.settling {ledger : GovLedger} (begins : Begins ledger) :
    Settling ledger.resolvedAt [] ledger :=
  settling_of_start begins.keyed begins.ratified begins.canceled

section Runs

variable [AddressDecoding]

theorem timely_run {already : EntityKey → Bool} {events later : List GovEvent}
    {ledger after : GovLedger}
    (path : Path (fun event before next => GovStep event before next ∧ RulesInTime event before)
      later ledger after)
    (settling : Settling already events ledger) (submitted : Submitted ledger)
    (timely : Timely ledger) : Timely after := by
  induction path generalizing events with
  | nil => exact timely
  | cons stepped _ ih =>
      exact ih (settling.step stepped.1) (submitted.step settling.keyed stepped.1)
        (timely.step settling.keyed submitted stepped.1 stepped.2)

theorem depositsCounted_of_mem {meets : GovEvent → GovLedger → Prop} {events : List GovEvent}
    {ledger after : GovLedger} {work : BoundaryWork} {store : BoundaryStore}
    {closed : ProposalClose}
    (path : Path (fun event before next => GovStep event before next ∧ meets event before)
      events ledger after)
    (member : GovEvent.close work store closed ∈ events) : DepositsCounted store closed := by
  induction path with
  | nil => cases member
  | cons stepped _ ih =>
      rcases List.mem_cons.mp member with rfl | later
      · cases stepped.1 with
        | close epoch active roots rows done kept => exact depositsCounted active done
      · exact ih later

/-- In every run whose boundaries have their distributions when a proposal is due, each
proposal is ruled on at most once, its deposit counted there, and none stays unresolved
past the boundary that closes the epoch after its last voting epoch. -/
theorem deposits_settled_once {start final : GovLedger} {events : List GovEvent}
    (begins : Begins start)
    (run : Path (fun event before next => GovStep event before next ∧ RulesInTime event before)
      events start final)
    (key : EntityKey) (state : ProposalState) (found : final.proposals.get? key = some state)
    (undecided : start.resolvedAt key = false) :
    events.countP (GovEvent.resolves key) ≤ 1 ∧
      (∀ last ∈ state.maxEpoch, last + 1 < final.epoch →
        events.countP (GovEvent.resolves key) = 1) ∧
        ∀ work store closed, GovEvent.close work store closed ∈ events →
          DepositsCounted store closed := by
  have settling := begins.settling.run run
  rw [List.nil_append] at settling
  have counted := settling.counted key state found
  rw [undecided] at counted
  have timely := timely_run run begins.settling begins.submitted begins.timely
  refine ⟨?_, ?_, fun work store closed => depositsCounted_of_mem run⟩
  · have bound := Bool.toNat_le state.isResolved
    simp only [Bool.toNat_false, Nat.add_zero] at counted
    omega
  · intro last lastEq late
    cases resolved : state.isResolved with
    | true => simpa [resolved] using counted
    | false =>
        have inTime := timely key state found resolved last lastEq
        omega

end Runs

section Sample

@[reducible]
def noAddresses : AddressDecoding := ⟨fun _ => none⟩

/-- A governance singleton with or without the distributions of the previous boundary. -/
def govWith (prevDistr : Option GovDistr) : GovState where
  constitution := none
  committee := none
  committeeAuths := ∅
  prevGovActionIds := ⟨none, none, none, none⟩
  numDormantEpochs := 0
  activeSince := some 0
  distr := none
  prevDistr := prevDistr

/-- The boundary that closes an epoch, with or without those distributions. -/
def workWith (epoch : ℕ) (prevDistr : Option GovDistr) : BoundaryWork where
  endingState := { changeEpoch with number := epoch }
  gov := govWith prevDistr
  govActiveSince := some 0
  epochStart := 100 * epoch
  ratifyDReps := ∅
  curatedUpdate := fun _ => none

/-- An information action, open to votes for one epoch after its own. -/
def infoSubmission : Submission where
  slot := 1000
  tx := 1
  idx := 0
  action := .information
  deposit := 500
  rewardAccount := .addrKeyhash 7
  validityPeriod := some 1
  networkMagic := 1
  protocol := 9
  anchor := ⟨"", 0⟩

def infoKey : EntityKey := ProposalState.buildEntityKey 1 0

def infoRows : OrderedMap EntityKey ProposalState :=
  .ofList [(infoKey, (infoSubmission.delta 10).proposed)]

def storeOf (rows : OrderedMap EntityKey ProposalState) : BoundaryStore := ⟨rows, ∅, ∅⟩

def distrOf (epoch : ℕ) : GovDistr := ⟨epoch, 1, 1, ∅, ∅, 0⟩

/-- A boundary that leaves the one proposal alone. -/
def waiting (prevDistr : Option GovDistr) : ProposalClose :=
  ⟨.default, infoRows, some (govWith prevDistr), 0, 0⟩

/-- A boundary that expires it, with no registered account for its deposit. -/
def expiring : ProposalClose :=
  ⟨⟨.ofList [(infoKey, .expired)], []⟩,
    .ofList [(infoKey, { (infoSubmission.delta 10).proposed with canceledEpoch := some 13 })],
    some (govWith (some (distrOf 11))), 0, 500⟩

def infoStart : GovLedger := ⟨10, ⟨none, none, none, none⟩, ∅⟩

/-- The proposal comes in epoch 10, and its last voting epoch is 11. -/
def untilDue : List GovEvent :=
  [.propose infoSubmission,
    .close (workWith 10 (some (distrOf 9))) (storeOf infoRows) (waiting (some (distrOf 9))),
    .close (workWith 11 (some (distrOf 10))) (storeOf infoRows) (waiting (some (distrOf 10)))]

def settledRun : List GovEvent :=
  untilDue ++ [.close (workWith 12 (some (distrOf 11))) (storeOf infoRows) expiring]

def missedRun : List GovEvent :=
  untilDue ++ [.close (workWith 12 none) (storeOf infoRows) (waiting none)]

theorem infoStart_begins : Begins infoStart := by
  have empty : ∀ key state, infoStart.proposals.get? key ≠ some state := by
    intro key state found
    simp [infoStart] at found
  refine ⟨?_, ?_, ?_, ?_, ?_⟩
  · intro key state found
    exact absurd found (empty key state)
  · intro key state found
    exact absurd found (empty key state)
  · intro key state found
    exact absurd found (empty key state)
  · intro key state found
    exact absurd found (empty key state)
  · intro key state found
    exact absurd found (empty key state)

/-- The ledger of the proposal, whatever the epoch. -/
def infoAt (epoch : ℕ) : GovLedger := ⟨epoch, ⟨none, none, none, none⟩, infoRows⟩

theorem infoWaits {epoch : ℕ} {prevDistr : Option GovDistr}
    (done : @BoundaryWork.closeProposals noAddresses (workWith epoch prevDistr)
      (storeOf infoRows) = .ok (waiting prevDistr)) :
    @GovStep noAddresses
      (.close (workWith epoch prevDistr) (storeOf infoRows) (waiting prevDistr))
      (infoAt epoch) (infoAt (epoch + 1)) := by
  have active : (workWith epoch prevDistr).govActive = true := by
    simp [BoundaryWork.govActive, workWith]
  exact @GovStep.close noAddresses (infoAt epoch) _ _ _ (govWith prevDistr) rfl active rfl rfl
    done rfl

theorem infoProposed : @GovStep noAddresses (.propose infoSubmission) infoStart (infoAt 10) :=
  @GovStep.propose noAddresses _ _ _ rfl rfl

theorem settledRun_path :
    Path (fun event before next =>
        @GovStep noAddresses event before next ∧ RulesInTime event before)
      settledRun infoStart ⟨13, ⟨none, none, none, none⟩, expiring.proposals⟩ := by
  have last : @GovStep noAddresses
      (.close (workWith 12 (some (distrOf 11))) (storeOf infoRows) expiring)
      (infoAt 12) ⟨13, ⟨none, none, none, none⟩, expiring.proposals⟩ :=
    @GovStep.close noAddresses (infoAt 12) _ _ _ (govWith (some (distrOf 11))) rfl rfl rfl rfl
      rfl rfl
  exact .cons ⟨infoProposed, trivial⟩ (.cons ⟨infoWaits rfl, fun _ => rfl⟩
    (.cons ⟨infoWaits rfl, fun _ => rfl⟩ (.cons ⟨last, fun _ => rfl⟩ (.nil _))))

theorem deposits_settled_once_settledRun :
    settledRun.countP (GovEvent.resolves infoKey) ≤ 1 ∧
      settledRun.countP (GovEvent.resolves infoKey) = 1 := by
  rcases @deposits_settled_once noAddresses _ _ _ infoStart_begins settledRun_path infoKey _ rfl
    rfl with ⟨atMost, settled, -⟩
  exact ⟨atMost, settled 11 rfl (by decide)⟩

/-- Without its distributions the boundary of epoch 12 leaves the proposal unresolved, and
its deposit is counted by no boundary of the run. -/
theorem deposit_missed :
    Begins infoStart ∧
      Path (@GovStep noAddresses) missedRun infoStart (infoAt 13) ∧
        (∃ state, (infoAt 13).proposals.get? infoKey = some state ∧ state.maxEpoch = some 11 ∧
          state.isResolved = false ∧ state.deposit = some 500 ∧
            ∀ epoch, 13 ≤ epoch → state.isUnresolvedAtClose epoch = false) ∧
          missedRun.countP (GovEvent.resolves infoKey) = 0 := by
  refine ⟨infoStart_begins, ?_, ⟨_, rfl, rfl, rfl, rfl, ?_⟩, by decide +kernel⟩
  · exact .cons infoProposed (.cons (infoWaits rfl) (.cons (infoWaits rfl)
      (.cons (infoWaits rfl) (.nil _))))
  · intro epoch late
    have past : 12 < epoch := by omega
    simp [ProposalState.isUnresolvedAtClose, infoSubmission, Submission.delta, parseGovAction,
      NewProposalV2.proposed, past]

end Sample

end Dolos
