import Dolos.Lib.Path
import Dolos.Cardano.RunRatification

/-!
# Closing proposals at a boundary

`load_proposal_data` of `cardano/src/ewrap/loading.rs` with the parts of `wrapup.rs`
and `enactment.rs` that deal with proposals: the outcomes of the ruling are stamped on
the rows, the accepted proposals enact, and the deposit of every resolved proposal is
counted as refunded or as impossible to refund. A run of the governance ledger
interleaves such boundaries with the proposals and votes of the blocks between them.
-/

namespace Dolos

open Outcome EntityDelta

/-- A resolved proposal as the visitors take it. -/
structure ResolvedProposal where
  key : EntityKey
  outcome : ProposalOutcome
  state : ProposalState
  account : Option AccountState
  deriving DecidableEq

namespace ResolvedProposal

def deposit (resolved : ResolvedProposal) : ℕ := resolved.state.deposit.getD 0

/-- Whether the deposit can go back to the account it came from. -/
def isValid (resolved : ResolvedProposal) : Bool :=
  resolved.account.any AccountState.isRegistered

def isEnacting (resolved : ResolvedProposal) : Bool := resolved.outcome = .enacted

end ResolvedProposal

/-- The rows of the outcomes, with the reward account each names. -/
def resolvedProposals (store : BoundaryStore) (outcomes : OrderedMap EntityKey ProposalOutcome) :
    List ResolvedProposal :=
  outcomes.entries.filterMap fun entry =>
    (store.proposals.get? entry.1).map fun state =>
      { key := entry.1
        outcome := entry.2
        state := state
        account := state.rewardAccount.bind fun account => store.accounts.get? account.key }

def enactingProposals (resolved : List ResolvedProposal) : List ResolvedProposal :=
  resolved.filter ResolvedProposal.isEnacting

def droppingProposals (resolved : List ResolvedProposal) : List ResolvedProposal :=
  resolved.filter fun held => !held.isEnacting

def proposalTotalRefunds (resolved : List ResolvedProposal) : ℕ :=
  ((enactingProposals resolved).map ResolvedProposal.deposit).sum +
    ((droppingProposals resolved).map ResolvedProposal.deposit).sum

def proposalValidRefunds (resolved : List ResolvedProposal) : ℕ :=
  (((enactingProposals resolved).filter ResolvedProposal.isValid).map
      ResolvedProposal.deposit).sum +
    (((droppingProposals resolved).filter ResolvedProposal.isValid).map
      ResolvedProposal.deposit).sum

/-- The withdrawal credentials of the enacting proposals that have a registered account. -/
def deliverableTargets (store : BoundaryStore) (resolved : List ResolvedProposal) :
    List StakeCredential :=
  (enactingProposals resolved).flatMap fun held =>
    match held.state.action with
    | .treasuryWithdrawal withdrawals =>
        (withdrawals.map Prod.fst).filter fun credential =>
          (store.accounts.get? credential.key).any AccountState.isRegistered
    | _ => []

/-- The deltas of the enacting proposals, in enactment order. -/
def orderedEnactments (store : BoundaryStore) (resolved : List ResolvedProposal)
    (order : List EntityKey) : List EnactmentDelta :=
  order.flatMap fun key =>
    match KeyedList.find ResolvedProposal.key (enactingProposals resolved) key with
    | none => []
    | some held => enactmentDeltas held.state (deliverableTargets store resolved)

/-- The delta of a ruling, applied to the row it names. -/
def applyResolved (proposals : OrderedMap EntityKey ProposalState) (delta : ProposalResolved) :
    Except Panic (OrderedMap EntityKey ProposalState) := do
  let key := (ofLex (EntityDelta.key delta)).2
  let (_, changed) ← apply delta (proposals.get? key)
  .ok (proposals.set key changed)

/-- What a boundary makes of the proposals. -/
structure ProposalClose where
  ruling : Ratification
  proposals : OrderedMap EntityKey ProposalState
  gov : Option GovState
  proposalRefunds : ℕ
  proposalInvalidRefunds : ℕ

/-- The proposal half of the finalize pass. -/
def BoundaryWork.closeProposals [AddressDecoding] (work : BoundaryWork) (store : BoundaryStore) :
    Except Panic ProposalClose := do
  let ruling ← work.runRatification store
  let resolved := resolvedProposals store ruling.outcomes
  let proposals ← (resolved.map fun held =>
    ProposalResolved.new held.state.tx held.state.idx held.outcome work.closing).foldlM
      applyResolved store.proposals
  let gov ← (orderedEnactments store resolved ruling.enactmentOrder).foldlM
    EnactmentDelta.applyGov (some work.gov)
  .ok
    { ruling := ruling
      proposals := proposals
      gov := gov
      proposalRefunds := proposalValidRefunds resolved
      proposalInvalidRefunds := proposalTotalRefunds resolved - proposalValidRefunds resolved }

/-- The part of the ledger that proposals live in: the current epoch, the purpose roots
and the table of proposals. -/
structure GovLedger where
  epoch : ℕ
  roots : GovRoots
  proposals : OrderedMap EntityKey ProposalState

/-- A proposal of a Conway block, as `visit_proposal` records it. -/
structure Submission where
  slot : ℕ
  tx : BlockHash
  idx : Fin (2 ^ 32)
  action : GovAction
  deposit : ℕ
  rewardAccount : StakeCredential
  validityPeriod : Option ℕ
  networkMagic : ℕ
  protocol : ℕ
  anchor : Anchor

def Submission.delta (submission : Submission) (epoch : ℕ) : NewProposalV2 :=
  let (action, parent, purpose) := parseGovAction submission.action
  { slot := submission.slot
    tx := submission.tx
    idx := submission.idx
    action := action
    deposit := some submission.deposit
    rewardAccount := some submission.rewardAccount
    validityPeriod := submission.validityPeriod
    currentEpoch := epoch
    networkMagic := submission.networkMagic
    protocol := submission.protocol
    parent := parent
    purpose := purpose
    anchor := some submission.anchor
    prev := none }

/-- What happens to the proposals: a block brings one or a vote on one, or a boundary
closes the epoch. -/
inductive GovEvent where
  | propose (submission : Submission)
  | vote (delta : VoteCast)
  | close (work : BoundaryWork) (store : BoundaryStore) (closed : ProposalClose)

/-- A delta on a proposal row, applied to the table. -/
def GovLedger.applyTo {D : Type} [EntityDelta D ProposalState] (ledger : GovLedger) (delta : D) :
    Except Panic GovLedger := do
  let key := (ofLex (EntityDelta.key delta)).2
  let (_, changed) ← apply delta (ledger.proposals.get? key)
  .ok { ledger with proposals := ledger.proposals.set key changed }

/-- One event of a Conway run. A new proposal takes a row of its own, and a boundary works
on the epoch, the roots and the rows of the ledger. -/
inductive GovStep [AddressDecoding] : GovEvent → GovLedger → GovLedger → Prop
  | propose {ledger after : GovLedger} {submission : Submission}
      (fresh : ledger.proposals.get?
        (ProposalState.buildEntityKey submission.tx submission.idx) = none)
      (applied : ledger.applyTo (submission.delta ledger.epoch) = .ok after) :
      GovStep (.propose submission) ledger after
  | vote {ledger after : GovLedger} {delta : VoteCast}
      (applied : ledger.applyTo delta = .ok after) : GovStep (.vote delta) ledger after
  | close {ledger : GovLedger} {work : BoundaryWork} {store : BoundaryStore}
      {closed : ProposalClose} {gov : GovState}
      (epoch : work.closing = ledger.epoch) (active : work.govActive = true)
      (roots : work.gov.prevGovActionIds = ledger.roots)
      (rows : store.proposals = ledger.proposals)
      (done : work.closeProposals store = .ok closed) (kept : closed.gov = some gov) :
      GovStep (.close work store closed) ledger
        ⟨ledger.epoch + 1, gov.prevGovActionIds, closed.proposals⟩

section Stamping

variable {store : BoundaryStore} {outcomes : OrderedMap EntityKey ProposalOutcome}

theorem applyResolved_eq (proposals : OrderedMap EntityKey ProposalState)
    (delta : ProposalResolved) :
    applyResolved proposals delta = .ok (proposals.set
      (ProposalState.buildEntityKey delta.tx delta.idx)
      ((proposals.get? (ProposalState.buildEntityKey delta.tx delta.idx)).map
        (ProposalResolved.stamp delta.outcome delta.closingEpoch))) := by
  cases found : proposals.get? (ProposalState.buildEntityKey delta.tx delta.idx) with
  | none => simp [applyResolved, EntityDelta.key, ProposalState.nsKey, apply, found]
  | some state => simp [applyResolved, EntityDelta.key, ProposalState.nsKey, apply, found]

theorem mem_resolvedProposals {resolved : ResolvedProposal} :
    resolved ∈ resolvedProposals store outcomes ↔
      outcomes.get? resolved.key = some resolved.outcome ∧
        store.proposals.get? resolved.key = some resolved.state ∧
          resolved.account =
            resolved.state.rewardAccount.bind fun account => store.accounts.get? account.key := by
  simp only [resolvedProposals, List.mem_filterMap, Prod.exists, OrderedMap.mem_entries_iff,
    Option.map_eq_some_iff]
  constructor
  · rintro ⟨key, outcome, ruled, state, found, rfl⟩
    exact ⟨ruled, found, rfl⟩
  · rintro ⟨ruled, found, accountEq⟩
    refine ⟨resolved.key, resolved.outcome, ruled, resolved.state, found, ?_⟩
    rw [← accountEq]

theorem resolvedProposals_keys_nodup :
    ((resolvedProposals store outcomes).map ResolvedProposal.key).Nodup := by
  apply List.Nodup.sublist _ outcomes.nodup_keys
  apply KeyedList.map_filterMap_sublist
  intro entry resolved made
  rcases Option.map_eq_some_iff.mp made with ⟨state, -, rfl⟩
  rfl

/-- Each resolved proposal is stamped in its own row, and no other row changes. -/
theorem foldlM_applyResolved (closing : ℕ) {resolved : List ResolvedProposal}
    (nodup : (resolved.map ResolvedProposal.key).Nodup)
    (keyed : ∀ held ∈ resolved,
      held.key = ProposalState.buildEntityKey held.state.tx held.state.idx)
    (proposals : OrderedMap EntityKey ProposalState) :
    ∃ after, (resolved.map fun held =>
        ProposalResolved.new held.state.tx held.state.idx held.outcome closing).foldlM
          applyResolved proposals = .ok after ∧
      ∀ key, after.get? key = (proposals.get? key).map fun state =>
        match KeyedList.find ResolvedProposal.key resolved key with
        | none => state
        | some held => ProposalResolved.stamp held.outcome closing state := by
  induction resolved generalizing proposals with
  | nil => exact ⟨proposals, rfl, fun key => by simp [KeyedList.find]⟩
  | cons held rest ih =>
      rcases List.nodup_cons.mp nodup with ⟨notRest, restNodup⟩
      have keyEq := keyed held List.mem_cons_self
      rcases ih restNodup (fun other member => keyed other (List.mem_cons_of_mem _ member))
        (proposals.set held.key ((proposals.get? held.key).map
          (ProposalResolved.stamp held.outcome closing))) with ⟨after, done, rows⟩
      refine ⟨after, ?_, ?_⟩
      · rw [List.map_cons, List.foldlM_cons, applyResolved_eq, ok_bind]
        simp only [ProposalResolved.new]
        rw [← keyEq]
        exact done
      · intro key
        rw [rows key, OrderedMap.get?_set]
        by_cases same : key = held.key
        · subst same
          have absent : KeyedList.find ResolvedProposal.key rest held.key = none :=
            KeyedList.find_eq_none_iff.mpr notRest
          have own : KeyedList.find ResolvedProposal.key (held :: rest) held.key = some held :=
            KeyedList.find_of_mem nodup List.mem_cons_self
          simp [absent, own, Function.comp_def]
        · have other : KeyedList.find ResolvedProposal.key (held :: rest) key =
              KeyedList.find ResolvedProposal.key rest key := by
            simp [KeyedList.find, Ne.symm same]
          simp only [if_neg same, other]

theorem find_resolvedProposals_map {key : EntityKey} {state : ProposalState}
    (found : store.proposals.get? key = some state) :
    (KeyedList.find ResolvedProposal.key (resolvedProposals store outcomes) key).map
      ResolvedProposal.outcome = outcomes.get? key := by
  cases ruled : outcomes.get? key with
  | none =>
      cases heldEq : KeyedList.find ResolvedProposal.key (resolvedProposals store outcomes) key with
      | none => rfl
      | some held =>
          rcases KeyedList.mem_of_find heldEq with ⟨member, rfl⟩
          have outcomeEq := (mem_resolvedProposals.mp member).1
          rw [ruled] at outcomeEq
          cases outcomeEq
  | some outcome =>
      have member : (⟨key, outcome, state,
          state.rewardAccount.bind fun account => store.accounts.get? account.key⟩ :
            ResolvedProposal) ∈ resolvedProposals store outcomes :=
        mem_resolvedProposals.mpr ⟨ruled, found, rfl⟩
      rw [KeyedList.find_of_mem resolvedProposals_keys_nodup member]
      rfl

end Stamping

/-- The row after the boundary, by the outcome the ruling has for it. -/
def stampedBy (closing : ℕ) (outcome : Option ProposalOutcome) (state : ProposalState) :
    ProposalState :=
  match outcome with
  | none => state
  | some outcome => ProposalResolved.stamp outcome closing state

section Close

variable [AddressDecoding] {work : BoundaryWork} {store : BoundaryStore} {closed : ProposalClose}

theorem closeProposals_ruling (done : work.closeProposals store = .ok closed) :
    work.runRatification store = .ok closed.ruling := by
  rcases bind_eq_ok.mp done with ⟨ruling, ruled, rest⟩
  rcases bind_eq_ok.mp rest with ⟨proposals, -, rest⟩
  rcases bind_eq_ok.mp rest with ⟨gov, -, made⟩
  cases made
  exact ruled

theorem closeProposals_get? (keyed : BoundaryWork.ProposalsKeyed store.proposals)
    (done : work.closeProposals store = .ok closed) (key : EntityKey) :
    closed.proposals.get? key = (store.proposals.get? key).map
      (stampedBy work.closing (closed.ruling.outcomes.get? key)) := by
  rcases bind_eq_ok.mp done with ⟨ruling, ruled, rest⟩
  rcases bind_eq_ok.mp rest with ⟨proposals, stamped, rest⟩
  rcases bind_eq_ok.mp rest with ⟨gov, -, made⟩
  cases made
  have ownKeys : ∀ held ∈ resolvedProposals store ruling.outcomes,
      held.key = ProposalState.buildEntityKey held.state.tx held.state.idx := by
    intro held member
    exact keyed _ _ (mem_resolvedProposals.mp member).2.1
  rcases foldlM_applyResolved work.closing resolvedProposals_keys_nodup ownKeys
    store.proposals with ⟨after, folded, rows⟩
  rw [folded] at stamped
  cases stamped
  rw [rows key]
  cases found : store.proposals.get? key with
  | none => rfl
  | some state =>
      have outcomeEq := @find_resolvedProposals_map store ruling.outcomes key state found
      rw [← outcomeEq]
      cases heldEq : KeyedList.find ResolvedProposal.key
        (resolvedProposals store ruling.outcomes) key with
      | none => rfl
      | some held => rfl

end Close

section Rows

variable [AddressDecoding] {ledger after : GovLedger}

/-- What a vote leaves as it is in a row. -/
structure SameBut (before after : ProposalState) : Prop where
  tx : after.tx = before.tx
  idx : after.idx = before.idx
  action : after.action = before.action
  maxEpoch : after.maxEpoch = before.maxEpoch
  ratifiedEpoch : after.ratifiedEpoch = before.ratifiedEpoch
  canceledEpoch : after.canceledEpoch = before.canceledEpoch
  proposedIn : after.proposedIn = before.proposedIn
  parent : after.parent = before.parent
  purpose : after.purpose = before.purpose

omit [AddressDecoding] in
theorem SameBut.refl (state : ProposalState) : SameBut state state :=
  ⟨rfl, rfl, rfl, rfl, rfl, rfl, rfl, rfl, rfl⟩

omit [AddressDecoding] in
theorem sameBut_voteHistoryPush (state : ProposalState) (vote : ℕ × Vote) (voter : Voter) :
    SameBut state (state.voteHistoryPush vote voter) := by
  cases voter <;> exact ⟨rfl, rfl, rfl, rfl, rfl, rfl, rfl, rfl, rfl⟩

theorem GovStep.vote_rows {delta : VoteCast} (step : GovStep (.vote delta) ledger after) :
    after.epoch = ledger.epoch ∧ after.roots = ledger.roots ∧
      ∀ key, match ledger.proposals.get? key with
        | none => after.proposals.get? key = none
        | some state => ∃ changed, after.proposals.get? key = some changed ∧
            SameBut state changed := by
  cases step with
  | vote applied =>
      rcases bind_eq_ok.mp applied with ⟨⟨filled, changed⟩, changedEq, made⟩
      cases made
      refine ⟨rfl, rfl, ?_⟩
      intro key
      change match ledger.proposals.get? key with
        | none => (ledger.proposals.set _ changed).get? key = none
        | some state => ∃ row, (ledger.proposals.set _ changed).get? key = some row ∧
            SameBut state row
      rw [OrderedMap.get?_set]
      split_ifs with same
      · subst same
        cases found : ledger.proposals.get? (ofLex (EntityDelta.key delta)).2 with
        | none =>
            rw [found] at changedEq
            cases changedEq
            rfl
        | some state =>
            rw [found] at changedEq
            cases changedEq
            exact ⟨_, rfl, sameBut_voteHistoryPush _ _ _⟩
      · cases found : ledger.proposals.get? key with
        | none => rfl
        | some state => exact ⟨state, rfl, SameBut.refl state⟩

theorem GovStep.vote_origin {delta : VoteCast} (step : GovStep (.vote delta) ledger after)
    {key : EntityKey} {changed : ProposalState}
    (found : after.proposals.get? key = some changed) :
    ∃ state, ledger.proposals.get? key = some state ∧ SameBut state changed := by
  have row := step.vote_rows.2.2 key
  cases held : ledger.proposals.get? key with
  | none =>
      rw [held] at row
      rw [row] at found
      cases found
  | some state =>
      rw [held] at row
      rcases row with ⟨row, rowEq, same⟩
      rw [rowEq] at found
      cases found
      exact ⟨state, rfl, same⟩

theorem GovStep.propose_rows {submission : Submission}
    (step : GovStep (.propose submission) ledger after) :
    after.epoch = ledger.epoch ∧ after.roots = ledger.roots ∧
      ledger.proposals.get? (ProposalState.buildEntityKey submission.tx submission.idx) = none ∧
        ∀ key, after.proposals.get? key =
          if key = ProposalState.buildEntityKey submission.tx submission.idx then
            some (submission.delta ledger.epoch).proposed
          else ledger.proposals.get? key := by
  cases step with
  | propose fresh applied =>
      rcases bind_eq_ok.mp applied with ⟨⟨filled, changed⟩, changedEq, made⟩
      cases changedEq
      cases made
      exact ⟨rfl, rfl, fresh, fun key => OrderedMap.get?_set _ _ _ _⟩

theorem GovStep.close_rows (keyed : BoundaryWork.ProposalsKeyed ledger.proposals)
    {work : BoundaryWork} {store : BoundaryStore} {closed : ProposalClose}
    (step : GovStep (.close work store closed) ledger after) :
    after.epoch = ledger.epoch + 1 ∧
      work.runRatification store = .ok closed.ruling ∧ work.govActive = true ∧
        work.closing = ledger.epoch ∧ store.proposals = ledger.proposals ∧
          ∀ key, after.proposals.get? key = (ledger.proposals.get? key).map
            (stampedBy ledger.epoch (closed.ruling.outcomes.get? key)) := by
  cases step with
  | close epoch active roots rows done kept =>
      refine ⟨rfl, closeProposals_ruling done, active, epoch, rows, ?_⟩
      intro key
      rw [← rows, ← epoch]
      rw [← rows] at keyed
      exact closeProposals_get? keyed done key

end Rows

end Dolos
