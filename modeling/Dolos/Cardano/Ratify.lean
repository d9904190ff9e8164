import Mathlib.Data.List.Sort
import Dolos.Lib.KeyedList
import Dolos.Lib.Lineage
import Dolos.Cardano.Model.Gov

/-!
# The ratification engine

`cardano/src/ewrap/ratify.rs`: one pure run over a snapshot of the governance
proposals. The proposals are taken in priority order; each is held against an
enact-state that the accepted ones before it have already changed. Stake sums
are 64-bit sums and wrap like them.
-/

namespace Dolos

structure RatifyProposal where
  key : EntityKey
  id : GovActionId
  action : ProposalAction
  parent : Option GovActionId
  expiresAfter : ℕ
  order : ℕ ×ₗ BlockHash ×ₗ ℕ
  ccVotes : OrderedMap StakeCredential Vote
  drepVotes : OrderedMap StakeCredential Vote
  spoVotes : OrderedMap Hash28 Vote
  deriving DecidableEq

inductive DefaultVote where
  | no
  | abstain
  | noConfidence
  deriving DecidableEq, Repr

/-- The snapshot one run ratifies. The treasury is a 64-bit amount. -/
structure RatifyInput where
  currentEpoch : ℕ
  pparams : PParamsSet
  treasury : ℕ
  treasuryWord : treasury < 2 ^ 64
  committee : Option Committee
  roots : GovRoots
  committeeAuths : OrderedMap StakeCredential CommitteeAuthorization
  drepDistr : OrderedMap DRep ℕ
  poolDistr : OrderedMap Hash28 ℕ
  poolTotal : ℕ
  dreps : OrderedMap StakeCredential (Option ℕ)
  poolDefaultVotes : OrderedMap Hash28 DefaultVote
  proposals : List RatifyProposal

inductive Verdict where
  | accepted
  | expired
  | continuing
  deriving DecidableEq, Repr

/-- The numbers and structural checks behind one verdict. -/
structure Tallies where
  prevActionOk : Bool
  committeeTermOk : Bool
  notDelayed : Bool
  withdrawalOk : Bool
  cc : ℕ × ℕ
  ccThreshold : Option RationalNumber
  ccAccepted : Bool
  drep : ℕ × ℕ
  drepThreshold : Option RationalNumber
  drepAccepted : Bool
  spo : ℕ × ℕ × ℕ
  spoThreshold : Option RationalNumber
  spoAccepted : Bool
  deriving DecidableEq, Repr

structure ProposalRatification where
  key : EntityKey
  id : GovActionId
  verdict : Verdict
  tallies : Tallies
  deriving DecidableEq, Repr

structure RatifyOutcome where
  verdicts : List ProposalRatification
  enacted : List GovActionId
  roots : GovRoots
  treasury : ℕ
  delayed : Bool
  deriving DecidableEq, Repr

section Actions

def actionPriority : ProposalAction → ℕ
  | .noConfidence => 0
  | .updateCommittee _ _ _ => 1
  | .newConstitution _ _ => 2
  | .hardFork _ => 3
  | .paramChange _ => 4
  | .treasuryWithdrawal _ => 5
  | .info => 6
  | .other => 7

def delayingAction : ProposalAction → Bool
  | .noConfidence => true
  | .updateCommittee _ _ _ => true
  | .newConstitution _ _ => true
  | .hardFork _ => true
  | _ => false

def bootstrapPhase (pparams : PParamsSet) : Bool := pparams.protocolMajorOrDefault = 9

inductive DRepGroup where
  | network
  | economic
  | technical
  | governance
  deriving DecidableEq, Repr

def pparamDRepGroup : PParamKind → Option DRepGroup
  | .minFeeA | .minFeeB | .keyDeposit | .poolDeposit | .expansionRate | .treasuryGrowthRate
  | .minPoolCost | .adaPerUtxoByte | .executionCosts | .minFeeRefScriptCostPerByte =>
      some .economic
  | .maxBlockBodySize | .maxTransactionSize | .maxBlockHeaderSize | .maxValueSize
  | .maxTxExUnits | .maxBlockExUnits | .maxCollateralInputs => some .network
  | .maximumEpoch | .desiredNumberOfStakePools | .poolPledgeInfluence | .collateralPercentage
  | .costModelsPlutusV1 | .costModelsPlutusV2 | .costModelsPlutusV3 | .costModelsUnknown =>
      some .technical
  | .poolVotingThresholds | .drepVotingThresholds | .minCommitteeSize | .committeeTermLimit
  | .governanceActionValidityPeriod | .governanceActionDeposit | .drepDeposit
  | .drepInactivityPeriod => some .governance
  | .systemStart | .epochLength | .slotLength | .protocolVersion | .minUtxoValue
  | .decentralizationConstant | .extraEntropy => none

def pparamIsSecurity : PParamKind → Bool
  | .minFeeA | .minFeeB | .maxBlockBodySize | .maxTransactionSize | .maxBlockHeaderSize
  | .adaPerUtxoByte | .maxBlockExUnits | .maxValueSize | .governanceActionDeposit
  | .minFeeRefScriptCostPerByte => true
  | _ => false

end Actions

section Thresholds

structure DRepVotingThresholds where
  motionNoConfidence : RationalNumber
  committeeNormal : RationalNumber
  committeeNoConfidence : RationalNumber
  updateConstitution : RationalNumber
  hardForkInitiation : RationalNumber
  ppNetworkGroup : RationalNumber
  ppEconomicGroup : RationalNumber
  ppTechnicalGroup : RationalNumber
  ppGovernanceGroup : RationalNumber
  treasuryWithdrawal : RationalNumber
  deriving DecidableEq, Repr

structure PoolVotingThresholds where
  motionNoConfidence : RationalNumber
  committeeNormal : RationalNumber
  committeeNoConfidence : RationalNumber
  hardForkInitiation : RationalNumber
  securityVotingThreshold : RationalNumber
  deriving DecidableEq, Repr

def zeroThreshold : RationalNumber := ⟨0, 1⟩

/-- All zero: the thresholds of the bootstrap phase, and the default of the parameter. -/
def bootstrapDRepThresholds : DRepVotingThresholds :=
  ⟨zeroThreshold, zeroThreshold, zeroThreshold, zeroThreshold, zeroThreshold, zeroThreshold,
    zeroThreshold, zeroThreshold, zeroThreshold, zeroThreshold⟩

def defaultPoolVotingThresholds : PoolVotingThresholds :=
  ⟨zeroThreshold, zeroThreshold, zeroThreshold, zeroThreshold, zeroThreshold⟩

namespace PParamsSet

def drepVotingThresholdsOrDefault (params : PParamsSet) : DRepVotingThresholds :=
  match params.get .drepVotingThresholds with
  | some ⟨_, .ratios [noConfidence, normal, afterNoConfidence, constitution, hardFork, network,
      economic, technical, governance, withdrawal]⟩ =>
      ⟨noConfidence, normal, afterNoConfidence, constitution, hardFork, network, economic,
        technical, governance, withdrawal⟩
  | _ => bootstrapDRepThresholds

def poolVotingThresholdsOrDefault (params : PParamsSet) : PoolVotingThresholds :=
  match params.get .poolVotingThresholds with
  | some ⟨_, .ratios [noConfidence, normal, afterNoConfidence, hardFork, security]⟩ =>
      ⟨noConfidence, normal, afterNoConfidence, hardFork, security⟩
  | _ => defaultPoolVotingThresholds

def minCommitteeSizeOrDefault (params : PParamsSet) : ℕ :=
  (params.amount .minCommitteeSize).getD 0

def committeeTermLimitOrDefault (params : PParamsSet) : ℕ :=
  (params.amount .committeeTermLimit).getD 0

end PParamsSet

def rationalGte (a b : RationalNumber) : Bool :=
  b.numerator * a.denominator ≤ a.numerator * b.denominator

/-- `ratio_meets`: a zero threshold is always met, an empty tally meets no other. -/
def ratioMeets (yes total : ℕ) (threshold : RationalNumber) : Bool :=
  if threshold.numerator = 0 then true
  else if total = 0 then false
  else threshold.numerator * total ≤ yes * threshold.denominator

/-- The enact-state a run evolves. -/
structure RunState where
  pparams : PParamsSet
  committee : Option Committee
  roots : GovRoots
  treasury : ℕ
  delayed : Bool
  deriving DecidableEq

def activeCommitteeSize (input : RatifyInput) (committee : Committee) : ℕ :=
  committee.members.entries.countP fun member =>
    decide (input.currentEpoch ≤ member.2) &&
      match input.committeeAuths.get? member.1 with
      | some (.hotCredential _) => true
      | _ => false

/-- No threshold means that the committee cannot ratify the action at all. -/
def committeeThreshold (input : RatifyInput) (run : RunState) :
    ProposalAction → Option RationalNumber
  | .noConfidence => some zeroThreshold
  | .updateCommittee _ _ _ => some zeroThreshold
  | .info => none
  | .other => none
  | _ =>
      run.committee.bind fun committee =>
        if bootstrapPhase run.pparams ∨
            run.pparams.minCommitteeSizeOrDefault ≤ activeCommitteeSize input committee then
          some committee.threshold
        else none

def DRepVotingThresholds.ofGroup (thresholds : DRepVotingThresholds) : DRepGroup → RationalNumber
  | .network => thresholds.ppNetworkGroup
  | .economic => thresholds.ppEconomicGroup
  | .technical => thresholds.ppTechnicalGroup
  | .governance => thresholds.ppGovernanceGroup

/-- The greatest threshold over the groups an update touches. -/
def pparamsUpdateDRepThreshold (thresholds : DRepVotingThresholds) (update : PParamsSet) :
    RationalNumber :=
  update.values.foldl
    (fun greatest value =>
      match pparamDRepGroup value.kind with
      | none => greatest
      | some group =>
          if rationalGte (thresholds.ofGroup group) greatest then thresholds.ofGroup group
          else greatest)
    zeroThreshold

def drepThreshold (run : RunState) (action : ProposalAction) : Option RationalNumber :=
  let thresholds :=
    if bootstrapPhase run.pparams then bootstrapDRepThresholds
    else run.pparams.drepVotingThresholdsOrDefault
  match action with
  | .noConfidence => some thresholds.motionNoConfidence
  | .updateCommittee _ _ _ =>
      some (if run.committee.isSome then thresholds.committeeNormal
        else thresholds.committeeNoConfidence)
  | .newConstitution _ _ => some thresholds.updateConstitution
  | .hardFork _ => some thresholds.hardForkInitiation
  | .paramChange update => some (pparamsUpdateDRepThreshold thresholds update)
  | .treasuryWithdrawal _ => some thresholds.treasuryWithdrawal
  | .info => none
  | .other => none

def spoThreshold (run : RunState) (action : ProposalAction) : Option RationalNumber :=
  let thresholds := run.pparams.poolVotingThresholdsOrDefault
  match action with
  | .noConfidence => some thresholds.motionNoConfidence
  | .updateCommittee _ _ _ =>
      some (if run.committee.isSome then thresholds.committeeNormal
        else thresholds.committeeNoConfidence)
  | .newConstitution _ _ => some zeroThreshold
  | .hardFork _ => some thresholds.hardForkInitiation
  | .paramChange update =>
      if update.values.any fun value => pparamIsSecurity value.kind then
        some thresholds.securityVotingThreshold
      else some zeroThreshold
  | .treasuryWithdrawal _ => some zeroThreshold
  | .info => none
  | .other => none

end Thresholds

section Bodies

def committeeTally (currentEpoch : ℕ) (members : OrderedMap StakeCredential ℕ)
    (auths : OrderedMap StakeCredential CommitteeAuthorization)
    (votes : OrderedMap StakeCredential Vote) : ℕ × ℕ :=
  members.entries.foldl
    (fun (yes, total) member =>
      if member.2 < currentEpoch then (yes, total)
      else
        match auths.get? member.1 with
        | some (.hotCredential hot) =>
            match votes.get? hot with
            | none => (yes, total + 1)
            | some .no => (yes, total + 1)
            | some .abstain => (yes, total)
            | some .yes => (yes + 1, total + 1)
        | _ => (yes, total))
    (0, 0)

def addStake (sum stake : ℕ) : ℕ := (sum + stake) % 2 ^ 64

/-- The credential a representative is registered and votes under. -/
def DRep.credential : DRep → Option StakeCredential
  | key hash => some (.addrKeyhash hash)
  | script hash => some (.scriptHash hash)
  | abstain => none
  | noConfidence => none

def drepTally (currentEpoch : ℕ) (drepDistr : OrderedMap DRep ℕ)
    (dreps : OrderedMap StakeCredential (Option ℕ)) (votes : OrderedMap StakeCredential Vote)
    (isNoConfidence : Bool) : ℕ × ℕ :=
  drepDistr.entries.foldl
    (fun (yes, total) entry =>
      match entry.1.credential with
      | none =>
          if entry.1 = .abstain then (yes, total)
          else (if isNoConfidence then addStake yes entry.2 else yes, addStake total entry.2)
      | some cred =>
          match dreps.get? cred with
          | none => (yes, total)
          | some expiry =>
              if expiry.any fun last => last < currentEpoch then (yes, total)
              else
                match votes.get? cred with
                | none => (yes, addStake total entry.2)
                | some .no => (yes, addStake total entry.2)
                | some .abstain => (yes, total)
                | some .yes => (addStake yes entry.2, addStake total entry.2))
    (0, 0)

def ProposalAction.isHardFork : ProposalAction → Bool
  | hardFork _ => true
  | _ => false

/-- A pool that did not vote counts as no for a hard fork, as abstaining in the bootstrap
phase and by the delegation of its reward account otherwise. -/
def spoTally (poolDistr : OrderedMap Hash28 ℕ) (votes : OrderedMap Hash28 Vote)
    (defaultVotes : OrderedMap Hash28 DefaultVote) (action : ProposalAction) (bootstrap : Bool) :
    ℕ × ℕ :=
  poolDistr.entries.foldl
    (fun (yes, abstain) entry =>
      match votes.get? entry.1 with
      | some .yes => (addStake yes entry.2, abstain)
      | some .no => (yes, abstain)
      | some .abstain => (yes, addStake abstain entry.2)
      | none =>
          if action.isHardFork then (yes, abstain)
          else if bootstrap then (yes, addStake abstain entry.2)
          else
            match defaultVotes.get? entry.1 with
            | some .noConfidence =>
                if action = .noConfidence then (addStake yes entry.2, abstain) else (yes, abstain)
            | some .abstain => (yes, addStake abstain entry.2)
            | _ => (yes, abstain))
    (0, 0)

end Bodies

section Run

def prevActionAsExpected (run : RunState) (proposal : RatifyProposal) : Bool :=
  match proposal.action.purpose with
  | none => true
  | some purpose => proposal.parent = run.roots.root purpose

def validCommitteeTerm (run : RunState) (currentEpoch : ℕ) : ProposalAction → Bool
  | .updateCommittee _ toAdd _ =>
      toAdd.all fun member =>
        member.2 ≤ (currentEpoch + run.pparams.committeeTermLimitOrDefault) % 2 ^ 64
  | _ => true

/-- What the action takes out of the treasury. -/
def ProposalAction.withdrawn : ProposalAction → ℕ
  | treasuryWithdrawal withdrawals => (withdrawals.map Prod.snd).sum
  | _ => 0

def withdrawalCanWithdraw (run : RunState) (action : ProposalAction) : Bool :=
  match action with
  | .treasuryWithdrawal _ => action.withdrawn ≤ run.treasury
  | _ => true

/-- The effect of an action on the enact-state, its lineage root apart. -/
def enactAction (run : RunState) : ProposalAction → RunState
  | .paramChange update => { run with pparams := run.pparams.merge update }
  | .hardFork version =>
      { run with
        pparams := run.pparams.set ⟨.protocolVersion, .version version.1 version.2⟩ }
  | .treasuryWithdrawal withdrawals =>
      { run with treasury := run.treasury - min (withdrawals.map Prod.snd).sum (2 ^ 64 - 1) }
  | .noConfidence => { run with committee := none }
  | .updateCommittee toRemove toAdd threshold =>
      let members := (run.committee.map Committee.members).getD ∅
      { run with committee := some ⟨(members.eraseAll toRemove).insertAll toAdd, threshold⟩ }
  | .newConstitution _ _ => run
  | .info => run
  | .other => run

def enact (run : RunState) (proposal : RatifyProposal) : RunState :=
  let run := enactAction run proposal.action
  match proposal.action.purpose with
  | none => run
  | some purpose => { run with roots := run.roots.setRoot purpose (some proposal.id) }

/-- The tallies of one proposal against the enact-state. -/
def tally (input : RatifyInput) (run : RunState) (proposal : RatifyProposal) : Tallies :=
  let ccThreshold := committeeThreshold input run proposal.action
  let cc :=
    match run.committee with
    | some committee =>
        committeeTally input.currentEpoch committee.members input.committeeAuths proposal.ccVotes
    | none => (0, 0)
  let repThreshold := drepThreshold run proposal.action
  let drep := drepTally input.currentEpoch input.drepDistr input.dreps proposal.drepVotes
    (proposal.action = .noConfidence)
  let poolThreshold := spoThreshold run proposal.action
  let spo := spoTally input.poolDistr proposal.spoVotes input.poolDefaultVotes proposal.action
    (bootstrapPhase run.pparams)
  let spoDenominator := input.poolTotal - spo.2
  { prevActionOk := prevActionAsExpected run proposal
    committeeTermOk := validCommitteeTerm run input.currentEpoch proposal.action
    notDelayed := !run.delayed
    withdrawalOk := withdrawalCanWithdraw run proposal.action
    cc := cc
    ccThreshold := ccThreshold
    ccAccepted := ccThreshold.any fun threshold => ratioMeets cc.1 cc.2 threshold
    drep := drep
    drepThreshold := repThreshold
    drepAccepted := repThreshold.any fun threshold => ratioMeets drep.1 drep.2 threshold
    spo := (spo.1, spo.2, spoDenominator)
    spoThreshold := poolThreshold
    spoAccepted := poolThreshold.any fun threshold => ratioMeets spo.1 spoDenominator threshold }

def Tallies.accepted (tallies : Tallies) : Bool :=
  tallies.prevActionOk && tallies.committeeTermOk && tallies.notDelayed && tallies.withdrawalOk &&
    tallies.ccAccepted && tallies.spoAccepted && tallies.drepAccepted

/-- The locals of the loop over the ordered proposals. -/
structure RatifyLoop where
  run : RunState
  verdicts : List ProposalRatification
  enacted : List GovActionId
  deriving DecidableEq

/-- The enact-state after an accepted proposal. -/
def RunState.accept (run : RunState) (proposal : RatifyProposal) : RunState :=
  { enact run proposal with delayed := delayingAction proposal.action }

def ratifyStep (input : RatifyInput) (loop : RatifyLoop) (proposal : RatifyProposal) :
    RatifyLoop :=
  let tallies := tally input loop.run proposal
  if tallies.accepted then
    { run := loop.run.accept proposal
      verdicts := loop.verdicts ++ [⟨proposal.key, proposal.id, .accepted, tallies⟩]
      enacted := loop.enacted ++ [proposal.id] }
  else
    let verdict :=
      if proposal.expiresAfter < input.currentEpoch then Verdict.expired else .continuing
    { loop with
      verdicts := loop.verdicts ++ [⟨proposal.key, proposal.id, verdict, tallies⟩] }

/-- Proposals are taken by priority, then in submission order. -/
def RatifyProposal.rank (proposal : RatifyProposal) : ℕ ×ₗ ℕ ×ₗ BlockHash ×ₗ ℕ :=
  toLex (actionPriority proposal.action, proposal.order)

/-- The stable sort of the snapshot. -/
def RatifyInput.ordered (input : RatifyInput) : List RatifyProposal :=
  input.proposals.insertionSort fun a b => a.rank ≤ b.rank

def RatifyInput.start (input : RatifyInput) : RunState :=
  ⟨input.pparams, input.committee, input.roots, input.treasury, false⟩

def ratifyLoop (input : RatifyInput) : RatifyLoop :=
  input.ordered.foldl (ratifyStep input) ⟨input.start, [], []⟩

def ratify (input : RatifyInput) : RatifyOutcome :=
  let loop := ratifyLoop input
  ⟨loop.verdicts, loop.enacted, loop.run.roots, loop.run.treasury, loop.run.delayed⟩

end Run

section Pruning

/-- A lookup in the map by id, where the last of equal ids is kept. -/
def byId (proposals : List RatifyProposal) (id : GovActionId) : Option RatifyProposal :=
  proposals.reverse.find? fun proposal => proposal.id = id

/-- The last enacted action of a purpose, the root of the subtree that survives. -/
def lastEnacted (proposals : List RatifyProposal) (enacted : List GovActionId)
    (purpose : GovPurpose) : Option GovActionId :=
  (enacted.filter fun id =>
    (byId proposals id).any fun proposal => proposal.action.purpose = some purpose).getLast?

/-- The parent of a proposal named by its id, which the walk goes on to. -/
def parentOf (proposals : List RatifyProposal) (id : GovActionId) : Option GovActionId :=
  (byId proposals id).bind RatifyProposal.parent

/-- Whether enactment removes the proposal with the siblings of an enacted action. The walk
up its parents may take as many steps as there are proposals. -/
def isPruned (proposals : List RatifyProposal) (enacted : List GovActionId)
    (proposal : RatifyProposal) : Bool :=
  decide (proposal.id ∉ enacted) &&
    match proposal.action.purpose with
    | none => false
    | some purpose =>
        match lastEnacted proposals enacted purpose with
        | none => false
        | some winner =>
            !walkReaches (parentOf proposals) winner proposals.length proposal.parent

def prunedByEnactment (proposals : List RatifyProposal) (enacted : List GovActionId) :
    List EntityKey :=
  (proposals.filter (isPruned proposals enacted)).map RatifyProposal.key

end Pruning

end Dolos
