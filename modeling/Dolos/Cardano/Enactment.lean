import Dolos.Cardano.Model.Epochs
import Dolos.Cardano.RatifyLaws

/-!
# Enactment

`cardano/src/ewrap/enactment.rs`: the deltas an enacted proposal carries. They say
once more, as writes to the epoch and governance singletons, what the engine did to
its enact-state; applied in enactment order they leave the committee, the parameters
and the roots the engine ended with.
-/

namespace Dolos

open Outcome EntityDelta

/-- `gov_action_id` -/
def ProposalState.govActionId (state : ProposalState) : GovActionId := ⟨state.tx, state.idx⟩

/-- The governance action of a Conway proposal procedure, its parameter update already
read into a parameter set. -/
inductive GovAction where
  | parameterChange (parent : Option GovActionId) (update : PParamsSet)
  | hardForkInitiation (parent : Option GovActionId) (version : ℕ × ℕ)
  | treasuryWithdrawals (withdrawals : List (StakeCredential × ℕ))
  | noConfidence (parent : Option GovActionId)
  | updateCommittee (parent : Option GovActionId) (toRemove : List StakeCredential)
      (toAdd : List (StakeCredential × ℕ)) (threshold : RationalNumber)
  | newConstitution (parent : Option GovActionId) (constitution : Constitution)
  | information
  deriving DecidableEq, Repr

/-- `parse_gov_action`: the action with the parent and the purpose that are recorded. -/
def parseGovAction : GovAction → ProposalAction × Option GovActionId × Option GovPurpose
  | .parameterChange parent update => (.paramChange update, parent, some .pparamUpdate)
  | .hardForkInitiation parent version => (.hardFork version, parent, some .hardFork)
  | .treasuryWithdrawals withdrawals => (.treasuryWithdrawal withdrawals, none, none)
  | .noConfidence parent => (.noConfidence, parent, some .committee)
  | .updateCommittee parent toRemove toAdd threshold =>
      (.updateCommittee toRemove toAdd threshold, parent, some .committee)
  | .newConstitution parent constitution =>
      (.newConstitution constitution.anchor constitution.guardrailScript, parent,
        some .constitution)
  | .information => (.info, none, none)

theorem parseGovAction_purpose (action : GovAction) :
    (parseGovAction action).2.2 = (parseGovAction action).1.purpose := by
  cases action <;> rfl

inductive EnactmentDelta where
  | pparamsUpdate (delta : PParamsUpdate)
  | treasuryWithdrawal (delta : TreasuryWithdrawal)
  | committeeUpdate (delta : CommitteeUpdate)
  | constitutionUpdate (delta : ConstitutionUpdate)
  | govRootsUpdate (delta : GovRootsUpdate)
  deriving DecidableEq

/-- The effect of the action itself. -/
def actionDeltas (deliverable : List StakeCredential) : ProposalAction → List EnactmentDelta
  | .hardFork version =>
      [.pparamsUpdate (.new (PParamsSet.default.set
        ⟨.protocolVersion, .version version.1 version.2⟩))]
  | .paramChange pparams => [.pparamsUpdate (.new pparams)]
  | .treasuryWithdrawal withdrawals =>
      (withdrawals.filter fun withdrawal => withdrawal.1 ∈ deliverable).map fun withdrawal =>
        .treasuryWithdrawal (.new withdrawal.1 withdrawal.2)
  | .noConfidence => [.committeeUpdate .noConfidence]
  | .updateCommittee toRemove toAdd threshold =>
      [.committeeUpdate (.update toRemove toAdd threshold)]
  | .newConstitution anchor guardrailScript =>
      [.constitutionUpdate (.new ⟨anchor, guardrailScript⟩)]
  | .info => []
  | .other => []

/-- `enactment_deltas`: the tree an action becomes the root of is the recorded one. -/
def enactmentDeltas (proposal : ProposalState) (deliverable : List StakeCredential) :
    List EnactmentDelta :=
  actionDeltas deliverable proposal.action ++
    match proposal.purpose with
    | none => []
    | some purpose => [.govRootsUpdate (.new purpose proposal.govActionId)]

namespace EnactmentDelta

/-- The deltas of the epoch singleton, applied in order. -/
def applyEpoch (entity : Option EpochState) : EnactmentDelta → Except Panic (Option EpochState)
  | pparamsUpdate delta => do
      let (_, changed) ← apply delta entity
      .ok changed
  | _ => .ok entity

/-- The deltas of the governance singleton, applied in order. -/
def applyGov (entity : Option GovState) : EnactmentDelta → Except Panic (Option GovState)
  | committeeUpdate delta => do
      let (_, changed) ← apply delta entity
      .ok changed
  | constitutionUpdate delta => do
      let (_, changed) ← apply delta entity
      .ok changed
  | govRootsUpdate delta => do
      let (_, changed) ← apply delta entity
      .ok changed
  | _ => .ok entity

end EnactmentDelta

/-- The store row of each proposal of the snapshot, as `build_ratify_input` reads it. -/
structure RatifyInput.BackedBy (input : RatifyInput)
    (rows : OrderedMap EntityKey ProposalState) : Prop where
  keys : (input.proposals.map RatifyProposal.key).Nodup
  row : ∀ proposal ∈ input.proposals, ∃ state, rows.get? proposal.key = some state ∧
    proposal.key = ProposalState.buildEntityKey state.tx state.idx ∧
      proposal.id = state.govActionId ∧ proposal.action = state.action

/-- The deltas of the enacted proposals, in enactment order. -/
def enactmentRun (rows : OrderedMap EntityKey ProposalState) (deliverable : List StakeCredential)
    (enacted : List RatifyProposal) : List EnactmentDelta :=
  enacted.flatMap fun proposal =>
    match rows.get? proposal.key with
    | none => []
    | some state => enactmentDeltas state deliverable

section Step

variable {run : RunState} {epoch : EpochState} {gov : GovState}

/-- The singletons hold what the engine's enact-state holds, the roots apart. -/
structure Mirrors (run : RunState) (epoch : EpochState) (gov : GovState) : Prop where
  committee : gov.committee = run.committee
  pparams : epoch.pparams.scheduledOrDefault = .ok run.pparams

theorem foldlM_of_skip {δ ε : Type} {step : ε → δ → Except Panic ε} {deltas : List δ}
    (skip : ∀ delta ∈ deltas, ∀ entity, step entity delta = .ok entity) (entity : ε) :
    deltas.foldlM step entity = .ok entity := by
  induction deltas with
  | nil => rfl
  | cons delta later ih =>
      rw [List.foldlM_cons, skip delta List.mem_cons_self entity, ok_bind]
      exact ih fun other member => skip other (List.mem_cons_of_mem _ member)

@[simp]
theorem RunState.accept_committee (proposal : RatifyProposal) :
    (run.accept proposal).committee = (enactAction run proposal.action).committee := by
  cases purposeEq : proposal.action.purpose <;> simp [accept, enact, purposeEq]

@[simp]
theorem RunState.accept_pparams (proposal : RatifyProposal) :
    (run.accept proposal).pparams = (enactAction run proposal.action).pparams := by
  cases purposeEq : proposal.action.purpose <;> simp [accept, enact, purposeEq]

theorem pparamsUpdate_apply {params : PParamsSet} (toUpdate : PParamsSet)
    (scheduled : epoch.pparams.scheduledOrDefault = .ok params) :
    ∃ after, EnactmentDelta.applyEpoch (some epoch) (.pparamsUpdate (.new toUpdate)) =
        .ok (some after) ∧
      after.pparams.scheduledOrDefault = .ok (params.merge toUpdate) := by
  refine ⟨{ epoch with
    pparams := { epoch.pparams with next := some (params.merge toUpdate) } }, ?_, rfl⟩
  simp [EnactmentDelta.applyEpoch, apply, scheduled, PParamsUpdate.new]

/-- The action's own deltas do to the singletons what `enact` does to the enact-state. -/
theorem Mirrors.actionDeltas (mirrors : Mirrors run epoch gov) (action : ProposalAction)
    (deliverable : List StakeCredential) :
    ∃ epochAfter govAfter,
      (actionDeltas deliverable action).foldlM EnactmentDelta.applyEpoch (some epoch) =
          .ok (some epochAfter) ∧
        (actionDeltas deliverable action).foldlM EnactmentDelta.applyGov (some gov) =
            .ok (some govAfter) ∧
          govAfter.prevGovActionIds = gov.prevGovActionIds ∧
            govAfter.committee = (enactAction run action).committee ∧
              epochAfter.pparams.scheduledOrDefault = .ok (enactAction run action).pparams := by
  cases action with
  | paramChange update =>
      rcases pparamsUpdate_apply update mirrors.pparams with ⟨after, applied, scheduled⟩
      exact ⟨after, gov, by simp [Dolos.actionDeltas, applied],
        by simp [Dolos.actionDeltas, EnactmentDelta.applyGov], rfl, mirrors.committee, scheduled⟩
  | hardFork version =>
      rcases pparamsUpdate_apply
        (PParamsSet.default.set ⟨.protocolVersion, .version version.1 version.2⟩)
        mirrors.pparams with ⟨after, applied, scheduled⟩
      exact ⟨after, gov, by simp [Dolos.actionDeltas, applied],
        by simp [Dolos.actionDeltas, EnactmentDelta.applyGov], rfl, mirrors.committee, scheduled⟩
  | treasuryWithdrawal withdrawals =>
      refine ⟨epoch, gov, ?_, ?_, rfl, mirrors.committee, mirrors.pparams⟩
      · apply foldlM_of_skip
        intro delta member entity
        rcases List.mem_map.mp member with ⟨withdrawal, -, rfl⟩
        rfl
      · apply foldlM_of_skip
        intro delta member entity
        rcases List.mem_map.mp member with ⟨withdrawal, -, rfl⟩
        rfl
  | other => exact ⟨epoch, gov, rfl, rfl, rfl, mirrors.committee, mirrors.pparams⟩
  | info => exact ⟨epoch, gov, rfl, rfl, rfl, mirrors.committee, mirrors.pparams⟩
  | noConfidence => exact ⟨epoch, _, rfl, rfl, rfl, rfl, mirrors.pparams⟩
  | updateCommittee toRemove toAdd threshold =>
      refine ⟨epoch, _, rfl, rfl, rfl, ?_, mirrors.pparams⟩
      simp [enactAction, CommitteeUpdate.update, CommitteeChange.change, mirrors.committee]
  | newConstitution anchor guardrailScript =>
      exact ⟨epoch, _, rfl, rfl, rfl, mirrors.committee, mirrors.pparams⟩

/-- The roots after a proposal enacts with the purpose its row records. -/
def GovRoots.recorded (roots : GovRoots) (state : ProposalState) : GovRoots :=
  match state.purpose with
  | none => roots
  | some purpose => roots.setRoot purpose (some state.govActionId)

theorem Mirrors.enactmentDeltas (mirrors : Mirrors run epoch gov) {proposal : RatifyProposal}
    {state : ProposalState} (sameAction : proposal.action = state.action)
    (deliverable : List StakeCredential) :
    ∃ epochAfter govAfter,
      (enactmentDeltas state deliverable).foldlM EnactmentDelta.applyEpoch (some epoch) =
          .ok (some epochAfter) ∧
        (enactmentDeltas state deliverable).foldlM EnactmentDelta.applyGov (some gov) =
            .ok (some govAfter) ∧
          govAfter.prevGovActionIds = gov.prevGovActionIds.recorded state ∧
            Mirrors (run.accept proposal) epochAfter govAfter := by
  rcases mirrors.actionDeltas state.action deliverable with
    ⟨epochAfter, govAfter, epochDone, govDone, rootsEq, committeeEq, pparamsEq⟩
  have after : ∀ roots, Mirrors (run.accept proposal) epochAfter
      { govAfter with prevGovActionIds := roots } := by
    intro roots
    refine ⟨?_, ?_⟩
    · rw [RunState.accept_committee, sameAction]
      exact committeeEq
    · rw [RunState.accept_pparams, sameAction]
      exact pparamsEq
  cases purposeEq : state.purpose with
  | none =>
      refine ⟨epochAfter, govAfter, ?_, ?_, ?_, after govAfter.prevGovActionIds⟩
      · simpa [Dolos.enactmentDeltas, purposeEq] using epochDone
      · simpa [Dolos.enactmentDeltas, purposeEq] using govDone
      · simpa [GovRoots.recorded, purposeEq] using rootsEq
  | some purpose =>
      refine ⟨epochAfter, _, ?_, ?_, ?_,
        after (govAfter.prevGovActionIds.setRoot purpose (some state.govActionId))⟩
      · simp [Dolos.enactmentDeltas, purposeEq, List.foldlM_append, epochDone,
          EnactmentDelta.applyEpoch]
      · simp [Dolos.enactmentDeltas, purposeEq, List.foldlM_append, govDone,
          EnactmentDelta.applyGov, apply, GovRootsUpdate.new]
      · simp [GovRoots.recorded, purposeEq, rootsEq]

end Step

section Run

variable {rows : OrderedMap EntityKey ProposalState}

/-- Enacting one after another keeps the singletons and the enact-state together. -/
theorem Mirrors.enactmentRun {accepted : List RatifyProposal} (deliverable : List StakeCredential)
    (backed : ∀ proposal ∈ accepted, ∃ state, rows.get? proposal.key = some state ∧
      proposal.id = state.govActionId ∧ proposal.action = state.action)
    {run : RunState} {epoch : EpochState} {gov : GovState} (mirrors : Mirrors run epoch gov) :
    ∃ epochAfter govAfter,
      (enactmentRun rows deliverable accepted).foldlM EnactmentDelta.applyEpoch (some epoch) =
          .ok (some epochAfter) ∧
        (enactmentRun rows deliverable accepted).foldlM EnactmentDelta.applyGov (some gov) =
            .ok (some govAfter) ∧
          Mirrors (accepted.foldl RunState.accept run) epochAfter govAfter ∧
            ((∀ proposal ∈ accepted, ∀ state, rows.get? proposal.key = some state →
                state.purpose = state.action.purpose) →
              gov.prevGovActionIds = run.roots →
                govAfter.prevGovActionIds = (accepted.foldl RunState.accept run).roots) := by
  induction accepted generalizing run epoch gov with
  | nil => exact ⟨epoch, gov, rfl, rfl, mirrors, fun _ same => same⟩
  | cons proposal later ih =>
      rcases backed proposal List.mem_cons_self with ⟨state, found, sameId, sameAction⟩
      rcases mirrors.enactmentDeltas sameAction deliverable with
        ⟨epochMid, govMid, epochStep, govStep, rootsMid, mirrorsMid⟩
      rcases ih (fun other member => backed other (List.mem_cons_of_mem _ member)) mirrorsMid with
        ⟨epochAfter, govAfter, epochDone, govDone, mirrorsAfter, rootsAfter⟩
      have split : Dolos.enactmentRun rows deliverable (proposal :: later) =
          Dolos.enactmentDeltas state deliverable ++
            Dolos.enactmentRun rows deliverable later := by
        simp [Dolos.enactmentRun, found]
      refine ⟨epochAfter, govAfter, ?_, ?_, mirrorsAfter, ?_⟩
      · simp [split, List.foldlM_append, epochStep, epochDone]
      · simp [split, List.foldlM_append, govStep, govDone]
      · intro recorded same
        have purposeEq := recorded proposal List.mem_cons_self state found
        apply rootsAfter fun other member => recorded other (List.mem_cons_of_mem _ member)
        rw [rootsMid, same]
        cases held : state.action.purpose with
        | none =>
            rw [held] at purposeEq
            simp [GovRoots.recorded, purposeEq, RunState.accept, enact, sameAction, held]
        | some purpose =>
            rw [held] at purposeEq
            simp [GovRoots.recorded, purposeEq, RunState.accept, enact, sameAction, held, sameId]

theorem RatifyInput.BackedBy.ids {input : RatifyInput} (backed : input.BackedBy rows) :
    (input.proposals.map RatifyProposal.id).Nodup := by
  apply List.Nodup.map_on _ backed.keys.of_map
  intro proposal member other otherMember sameId
  rcases backed.row proposal member with ⟨state, -, keyEq, idEq, -⟩
  rcases backed.row other otherMember with ⟨otherState, -, otherKeyEq, otherIdEq, -⟩
  rw [idEq, otherIdEq] at sameId
  simp only [ProposalState.govActionId, GovActionId.mk.injEq] at sameId
  apply List.inj_on_of_nodup_map backed.keys member otherMember
  rw [keyEq, otherKeyEq, sameId.1, Fin.ext sameId.2]

end Run

/-- The singletons as the boundary finds them, nothing scheduled yet. -/
structure RatifyInput.LiveIn (input : RatifyInput) (epoch : EpochState) (gov : GovState) :
    Prop where
  pparams : epoch.pparams.live = some input.pparams
  unscheduled : epoch.pparams.next = none
  committee : gov.committee = input.committee
  roots : gov.prevGovActionIds = input.roots

theorem RatifyInput.LiveIn.mirrors {input : RatifyInput} {epoch : EpochState} {gov : GovState}
    (live : input.LiveIn epoch gov) : Mirrors input.start epoch gov := by
  refine ⟨live.committee, ?_⟩
  simp [EpochValue.scheduledOrDefault, live.unscheduled, live.pparams, TransitionDefault.nextValue,
    RatifyInput.start]

theorem enactment_refines_engine (input : RatifyInput) (rows : OrderedMap EntityKey ProposalState)
    (deliverable : List StakeCredential) (epoch : EpochState) (gov : GovState)
    (backed : input.BackedBy rows) (live : input.LiveIn epoch gov) :
    ∃ epochAfter govAfter,
      (enactmentRun rows deliverable ((ratify input).enactedIn input)).foldlM
          EnactmentDelta.applyEpoch (some epoch) = .ok (some epochAfter) ∧
        (enactmentRun rows deliverable ((ratify input).enactedIn input)).foldlM
            EnactmentDelta.applyGov (some gov) = .ok (some govAfter) ∧
          govAfter.committee = (ratifyLoop input).run.committee ∧
            epochAfter.pparams.scheduledOrDefault = .ok (ratifyLoop input).run.pparams ∧
              ((∀ proposal ∈ (ratify input).enactedIn input, ∀ state,
                  rows.get? proposal.key = some state → state.purpose = state.action.purpose) →
                govAfter.prevGovActionIds = (ratifyLoop input).run.roots) := by
  rw [enactedIn_eq backed.ids, ratifyLoop_run]
  have rowOf : ∀ proposal ∈ input.accepted, ∃ state, rows.get? proposal.key = some state ∧
      proposal.id = state.govActionId ∧ proposal.action = state.action := by
    intro proposal member
    rcases backed.row proposal (mem_proposals_of_accepted member) with
      ⟨state, found, -, sameId, sameAction⟩
    exact ⟨state, found, sameId, sameAction⟩
  rcases live.mirrors.enactmentRun deliverable rowOf with
    ⟨epochAfter, govAfter, epochDone, govDone, mirrors, roots⟩
  exact ⟨epochAfter, govAfter, epochDone, govDone, mirrors.committee, mirrors.pparams,
    fun recorded => roots recorded live.roots⟩

section Sample

/-- One parameter change in a snapshot of its own, with a committee that asks for no vote. -/
def oneChange : RatifyInput where
  currentEpoch := 10
  pparams := .default
  treasury := 0
  treasuryWord := by decide
  committee := some ⟨∅, ⟨0, 1⟩⟩
  roots := ⟨none, none, none, none⟩
  committeeAuths := ∅
  drepDistr := ∅
  poolDistr := ∅
  poolTotal := 0
  dreps := ∅
  poolDefaultVotes := ∅
  proposals :=
    [⟨ProposalState.buildEntityKey 1 0, ⟨1, 0⟩, .paramChange ⟨[⟨.keyDeposit, .amount 4⟩]⟩, none,
      12, toLex (2, toLex (1, 0)), ∅, ∅, ∅⟩]

/-- The row of the change, with the purpose it records. -/
def changeRow (purpose : Option GovPurpose) : OrderedMap EntityKey ProposalState :=
  .ofList [(ProposalState.buildEntityKey 1 0,
    { slot := 2, tx := 1, idx := 0, action := .paramChange ⟨[⟨.keyDeposit, .amount 4⟩]⟩,
      maxEpoch := some 12, ratifiedEpoch := none, canceledEpoch := none, deposit := none,
      rewardAccount := none, proposedIn := some 9, parent := none, purpose := purpose,
      anchor := none, ccVotes := ∅, drepVotes := ∅, spoVotes := ∅ })]

def changeEpoch : EpochState where
  number := 10
  initialPots := .default
  rolling := .withLive 10 .default
  pparams := .withLive 10 .default
  largestStableSlot := 0
  previousNonceTail := none
  nonces := none
  endStats := none
  incentives := none
  ewrapProgress := none
  estartProgress := none
  rupdProgress := none

def changeGov : GovState where
  constitution := none
  committee := some ⟨∅, ⟨0, 1⟩⟩
  committeeAuths := ∅
  prevGovActionIds := ⟨none, none, none, none⟩
  numDormantEpochs := 0
  activeSince := some 0
  distr := none
  prevDistr := none

theorem oneChange_backedBy (purpose : Option GovPurpose) :
    oneChange.BackedBy (changeRow purpose) := by
  refine ⟨by decide, ?_⟩
  intro proposal member
  rw [oneChange, List.mem_singleton] at member
  subst member
  exact ⟨_, rfl, rfl, rfl, rfl⟩

theorem oneChange_liveIn : oneChange.LiveIn changeEpoch changeGov := ⟨rfl, rfl, rfl, rfl⟩

/-- A second change of the same transaction, which follows the first. -/
def twoChanges : RatifyInput :=
  { oneChange with
    proposals := oneChange.proposals ++
      [⟨ProposalState.buildEntityKey 1 1, ⟨1, 1⟩, .paramChange ⟨[⟨.keyDeposit, .amount 6⟩]⟩,
        some ⟨1, 0⟩, 12, toLex (2, toLex (1, 1)), ∅, ∅, ∅⟩] }

def changeRows : OrderedMap EntityKey ProposalState :=
  (changeRow (some .pparamUpdate)).insert (ProposalState.buildEntityKey 1 1)
    { slot := 2, tx := 1, idx := 1, action := .paramChange ⟨[⟨.keyDeposit, .amount 6⟩]⟩,
      maxEpoch := some 12, ratifiedEpoch := none, canceledEpoch := none, deposit := none,
      rewardAccount := none, proposedIn := some 9, parent := some ⟨1, 0⟩,
      purpose := some .pparamUpdate, anchor := none, ccVotes := ∅, drepVotes := ∅, spoVotes := ∅ }

theorem twoChanges_backedBy : twoChanges.BackedBy changeRows := by
  refine ⟨by decide +kernel, ?_⟩
  intro proposal member
  rcases List.mem_pair.mp member with rfl | rfl
  · exact ⟨_, rfl, rfl, rfl, rfl⟩
  · exact ⟨_, rfl, rfl, rfl, rfl⟩

theorem twoChanges_liveIn : twoChanges.LiveIn changeEpoch changeGov := ⟨rfl, rfl, rfl, rfl⟩

/-- Both changes are enacted, the second under the root that the first has moved. -/
theorem enactment_refines_engine_twoChanges :
    (ratify twoChanges).enactedIn twoChanges = twoChanges.proposals ∧
      ∃ epochAfter govAfter,
        (enactmentRun changeRows [] ((ratify twoChanges).enactedIn twoChanges)).foldlM
            EnactmentDelta.applyEpoch (some changeEpoch) = .ok (some epochAfter) ∧
          (enactmentRun changeRows [] ((ratify twoChanges).enactedIn twoChanges)).foldlM
              EnactmentDelta.applyGov (some changeGov) = .ok (some govAfter) ∧
            epochAfter.pparams.scheduledOrDefault = .ok ⟨[⟨.keyDeposit, .amount 6⟩]⟩ ∧
              govAfter.prevGovActionIds.pparamUpdate = some ⟨1, 1⟩ := by
  have enacted : (ratify twoChanges).enactedIn twoChanges = twoChanges.proposals := by
    decide +kernel
  rcases enactment_refines_engine twoChanges changeRows [] changeEpoch changeGov
    twoChanges_backedBy twoChanges_liveIn with
    ⟨epochAfter, govAfter, epochDone, govDone, -, pparams, roots⟩
  have recorded : ∀ proposal ∈ (ratify twoChanges).enactedIn twoChanges, ∀ state,
      changeRows.get? proposal.key = some state → state.purpose = state.action.purpose := by
    intro proposal member state found
    rw [enacted] at member
    rcases List.mem_pair.mp member with rfl | rfl <;> cases found <;> rfl
  refine ⟨enacted, epochAfter, govAfter, epochDone, govDone, ?_, ?_⟩
  · rw [pparams]
    decide +kernel
  · rw [roots recorded]
    decide +kernel

/-- A row without a recorded purpose leaves the root where the engine has moved it. -/
theorem enactment_misses_unrecorded_root :
    oneChange.BackedBy (changeRow none) ∧ oneChange.LiveIn changeEpoch changeGov ∧
      (enactmentRun (changeRow none) [] ((ratify oneChange).enactedIn oneChange)).foldlM
          EnactmentDelta.applyGov (some changeGov) = .ok (some changeGov) ∧
        changeGov.prevGovActionIds.pparamUpdate = none ∧
          (ratifyLoop oneChange).run.roots.pparamUpdate = some ⟨1, 0⟩ := by
  refine ⟨oneChange_backedBy _, oneChange_liveIn, ?_, rfl, by decide +kernel⟩
  have enacted : (ratify oneChange).enactedIn oneChange = oneChange.proposals := by
    decide +kernel
  rw [enacted]
  rfl

end Sample

end Dolos
