import Dolos.Lib.OrderedMap
import Dolos.Cardano.Model.Pools
import Dolos.Cardano.Model.Dreps

/-!
# Protocol parameters and governance proposals

`cardano/src/model/pparams.rs` and `proposals.rs`: the parameter set, the
proposals that may change it, and the two deltas a block emits for a proposal.
-/

namespace Dolos

open Outcome

inductive PParamKind where
  | systemStart
  | epochLength
  | slotLength
  | minFeeA
  | minFeeB
  | maxBlockBodySize
  | maxTransactionSize
  | maxBlockHeaderSize
  | keyDeposit
  | poolDeposit
  | desiredNumberOfStakePools
  | protocolVersion
  | minUtxoValue
  | minPoolCost
  | expansionRate
  | treasuryGrowthRate
  | maximumEpoch
  | poolPledgeInfluence
  | decentralizationConstant
  | extraEntropy
  | adaPerUtxoByte
  | executionCosts
  | maxTxExUnits
  | maxBlockExUnits
  | maxValueSize
  | collateralPercentage
  | maxCollateralInputs
  | poolVotingThresholds
  | drepVotingThresholds
  | minCommitteeSize
  | committeeTermLimit
  | governanceActionValidityPeriod
  | governanceActionDeposit
  | drepDeposit
  | drepInactivityPeriod
  | minFeeRefScriptCostPerByte
  | costModelsPlutusV1
  | costModelsPlutusV2
  | costModelsPlutusV3
  | costModelsUnknown
  deriving DecidableEq, Repr

/-- The shapes parameter values come in. -/
inductive PParamPayload where
  | amount (value : ℕ)
  | ratio (value : RationalNumber)
  | version (major minor : ℕ)
  | entropy (hash : Option BlockHash)
  | units (memory steps : ℕ)
  | ratios (values : List RationalNumber)
  | costs (values : List ℤ)
  | costModels (values : List (ℕ × List ℤ))
  deriving DecidableEq, Repr

structure PParamValue where
  kind : PParamKind
  payload : PParamPayload
  deriving DecidableEq, Repr

structure PParamsSet where
  values : List PParamValue
  deriving DecidableEq, Repr

namespace PParamsSet

def default : PParamsSet := ⟨[]⟩

def get (params : PParamsSet) (kind : PParamKind) : Option PParamValue :=
  params.values.find? fun value => value.kind = kind

/-- `set`: overwrite the first value of the kind, or append. -/
def set (params : PParamsSet) (value : PParamValue) : PParamsSet :=
  if (params.get value.kind).isSome then
    ⟨params.values.replaceF fun old => if old.kind = value.kind then some value else none⟩
  else ⟨params.values ++ [value]⟩

def merge (params other : PParamsSet) : PParamsSet := other.values.foldl set params

def amount (params : PParamsSet) (kind : PParamKind) : Option ℕ :=
  match params.get kind with
  | some ⟨_, .amount value⟩ => some value
  | _ => none

def ratio (params : PParamsSet) (kind : PParamKind) : Option RationalNumber :=
  match params.get kind with
  | some ⟨_, .ratio value⟩ => some value
  | _ => none

/-- The major version is a 16-bit number. -/
def protocolMajor (params : PParamsSet) : Option ℕ :=
  match params.get .protocolVersion with
  | some ⟨_, .version major _⟩ => some (major % 2 ^ 16)
  | _ => none

def protocolMajorOrDefault (params : PParamsSet) : ℕ := params.protocolMajor.getD 0

instance : TransitionDefault PParamsSet := ⟨fun current => .ok current⟩

end PParamsSet

/-- Credentials are ordered script hashes first. -/
def StakeCredential.rank : StakeCredential → ℕ ×ₗ Hash28
  | scriptHash hash => toLex (0, hash)
  | addrKeyhash hash => toLex (1, hash)

theorem StakeCredential.rank_injective : Function.Injective StakeCredential.rank := by
  intro left right same
  cases left <;> cases right <;> simp_all [rank]

instance : LinearOrder StakeCredential :=
  LinearOrder.lift' StakeCredential.rank StakeCredential.rank_injective

inductive GovPurpose where
  | pparamUpdate
  | hardFork
  | committee
  | constitution
  deriving DecidableEq, Repr

structure GovActionId where
  transactionId : BlockHash
  actionIndex : ℕ
  deriving DecidableEq, Repr

inductive ProposalAction where
  | paramChange (update : PParamsSet)
  | hardFork (version : ℕ × ℕ)
  | treasuryWithdrawal (withdrawals : List (StakeCredential × ℕ))
  | other
  | noConfidence
  | updateCommittee (toRemove : List StakeCredential) (toAdd : List (StakeCredential × ℕ))
      (threshold : RationalNumber)
  | newConstitution (anchor : Anchor) (guardrailScript : Option Hash28)
  | info
  deriving DecidableEq, Repr

def ProposalAction.purpose : ProposalAction → Option GovPurpose
  | paramChange _ => some .pparamUpdate
  | hardFork _ => some .hardFork
  | noConfidence => some .committee
  | updateCommittee _ _ _ => some .committee
  | newConstitution _ _ => some .constitution
  | treasuryWithdrawal _ => none
  | info => none
  | other => none

inductive Vote where
  | no
  | yes
  | abstain
  deriving DecidableEq, Repr

inductive Voter where
  | constitutionalCommitteeKey (hash : Hash28)
  | constitutionalCommitteeScript (hash : Hash28)
  | drepKey (hash : Hash28)
  | drepScript (hash : Hash28)
  | stakePoolKey (hash : Hash28)
  deriving DecidableEq, Repr

/-- The votes of one voter on one proposal, oldest first. -/
abbrev VoteHistory := List (ℕ × Vote)

/-- `votes_as_of`: the last vote of each voter up to a slot. -/
def votesAsOf {κ : Type} [LinearOrder κ] (votes : OrderedMap κ VoteHistory) (slot : ℕ) :
    List (κ × Vote) :=
  votes.entries.filterMap fun entry =>
    (entry.2.reverse.find? fun vote => vote.1 ≤ slot).map fun vote => (entry.1, vote.2)

structure ProposalState where
  slot : ℕ
  tx : BlockHash
  idx : Fin (2 ^ 32)
  action : ProposalAction
  maxEpoch : Option ℕ
  ratifiedEpoch : Option ℕ
  canceledEpoch : Option ℕ
  deposit : Option ℕ
  rewardAccount : Option StakeCredential
  proposedIn : Option ℕ
  parent : Option GovActionId
  purpose : Option GovPurpose
  anchor : Option Anchor
  ccVotes : OrderedMap StakeCredential VoteHistory
  drepVotes : OrderedMap StakeCredential VoteHistory
  spoVotes : OrderedMap Hash28 VoteHistory
  deriving DecidableEq

namespace ProposalState

/-- `build_entity_key`: the index before as much of the transaction hash as fits. -/
def buildEntityKey (tx : BlockHash) (idx : Fin (2 ^ 32)) : EntityKey :=
  .ofHead idx ⟨tx.val / 2 ^ 32, by have := tx.isLt; omega⟩

def nsKey (tx : BlockHash) (idx : Fin (2 ^ 32)) : NsKey :=
  toLex (.proposals, buildEntityKey tx idx)

/-- The history of a voter, in the map of its class. -/
def history (state : ProposalState) : Voter → Option VoteHistory
  | .constitutionalCommitteeKey hash => state.ccVotes.get? (.addrKeyhash hash)
  | .constitutionalCommitteeScript hash => state.ccVotes.get? (.scriptHash hash)
  | .drepKey hash => state.drepVotes.get? (.addrKeyhash hash)
  | .drepScript hash => state.drepVotes.get? (.scriptHash hash)
  | .stakePoolKey hash => state.spoVotes.get? hash

def voteHistoryPush (state : ProposalState) (vote : ℕ × Vote) : Voter → ProposalState
  | .constitutionalCommitteeKey hash =>
      { state with ccVotes := state.ccVotes.appendTo (.addrKeyhash hash) vote }
  | .constitutionalCommitteeScript hash =>
      { state with ccVotes := state.ccVotes.appendTo (.scriptHash hash) vote }
  | .drepKey hash =>
      { state with drepVotes := state.drepVotes.appendTo (.addrKeyhash hash) vote }
  | .drepScript hash =>
      { state with drepVotes := state.drepVotes.appendTo (.scriptHash hash) vote }
  | .stakePoolKey hash => { state with spoVotes := state.spoVotes.appendTo hash vote }

def voteHistoryPop (state : ProposalState) (created : Bool) : Voter → ProposalState
  | .constitutionalCommitteeKey hash =>
      { state with ccVotes := state.ccVotes.dropFrom (.addrKeyhash hash) created }
  | .constitutionalCommitteeScript hash =>
      { state with ccVotes := state.ccVotes.dropFrom (.scriptHash hash) created }
  | .drepKey hash =>
      { state with drepVotes := state.drepVotes.dropFrom (.addrKeyhash hash) created }
  | .drepScript hash =>
      { state with drepVotes := state.drepVotes.dropFrom (.scriptHash hash) created }
  | .stakePoolKey hash => { state with spoVotes := state.spoVotes.dropFrom hash created }

theorem voteHistoryPop_push (state : ProposalState) (vote : ℕ × Vote) (voter : Voter) :
    (state.voteHistoryPush vote voter).voteHistoryPop (state.history voter).isNone voter =
      state := by
  cases voter with
  | _ hash => simp [voteHistoryPush, voteHistoryPop, history, OrderedMap.dropFrom_appendTo]

/-- Whether no earlier boundary enacted or dropped the proposal when the boundary
closing `epoch` begins. -/
def isUnresolvedAtClose (state : ProposalState) (epoch : ℕ) : Bool :=
  !(state.ratifiedEpoch.any fun ratified => ratified < epoch) &&
    !(state.canceledEpoch.any fun canceled => canceled ≤ epoch) &&
      !(state.maxEpoch.any fun last => last + 1 < epoch)

end ProposalState

structure NewProposalV2 where
  slot : ℕ
  tx : BlockHash
  idx : Fin (2 ^ 32)
  action : ProposalAction
  deposit : Option ℕ
  rewardAccount : Option StakeCredential
  validityPeriod : Option ℕ
  currentEpoch : ℕ
  networkMagic : ℕ
  protocol : ℕ
  parent : Option GovActionId
  purpose : Option GovPurpose
  anchor : Option Anchor
  prev : Option ProposalState
  deriving DecidableEq

namespace NewProposalV2

def proposed (delta : NewProposalV2) : ProposalState where
  slot := delta.slot
  tx := delta.tx
  idx := delta.idx
  action := delta.action
  rewardAccount := delta.rewardAccount
  deposit := delta.deposit
  maxEpoch := delta.validityPeriod.map (delta.currentEpoch + ·)
  ratifiedEpoch := none
  canceledEpoch := none
  proposedIn := some delta.currentEpoch
  parent := delta.parent
  purpose := delta.purpose
  anchor := delta.anchor
  ccVotes := ∅
  drepVotes := ∅
  spoVotes := ∅

instance : EntityDelta NewProposalV2 ProposalState where
  key delta := ProposalState.nsKey delta.tx delta.idx
  apply delta entity := .ok ({ delta with prev := entity }, some delta.proposed)
  undo delta _ := .ok delta.prev

end NewProposalV2

structure VoteCast where
  proposalTx : BlockHash
  proposalIdx : Fin (2 ^ 32)
  voter : Voter
  vote : Vote
  slot : ℕ
  applied : Bool
  createdEntry : Bool
  deriving DecidableEq, Repr

namespace VoteCast

def new (proposalTx : BlockHash) (proposalIdx : Fin (2 ^ 32)) (voter : Voter) (vote : Vote)
    (slot : ℕ) : VoteCast :=
  ⟨proposalTx, proposalIdx, voter, vote, slot, false, false⟩

instance : EntityDelta VoteCast ProposalState where
  key delta := ProposalState.nsKey delta.proposalTx delta.proposalIdx
  apply delta entity :=
    match entity with
    | none => .ok ({ delta with applied := false, createdEntry := false }, none)
    | some state =>
        .ok ({ delta with
            applied := true
            createdEntry := (state.history delta.voter).isNone },
          some (state.voteHistoryPush (delta.slot, delta.vote) delta.voter))
  undo delta entity :=
    if delta.applied = false then .ok entity
    else .ok (entity.map fun state => state.voteHistoryPop delta.createdEntry delta.voter)

end VoteCast

inductive ProposalOutcome where
  | enacted
  | expired
  | prunedSibling
  deriving DecidableEq, Repr

/-- The ruling of a boundary on one proposal. -/
structure ProposalResolved where
  tx : BlockHash
  idx : Fin (2 ^ 32)
  outcome : ProposalOutcome
  closingEpoch : ℕ
  prev : Option (Option ℕ × Option ℕ)
  deriving DecidableEq, Repr

namespace ProposalResolved

def new (tx : BlockHash) (idx : Fin (2 ^ 32)) (outcome : ProposalOutcome) (closingEpoch : ℕ) :
    ProposalResolved :=
  ⟨tx, idx, outcome, closingEpoch, none⟩

/-- An enactment is stamped with the epoch the boundary closes, a removal with the one
it opens. -/
def stamp (outcome : ProposalOutcome) (closingEpoch : ℕ) (state : ProposalState) :
    ProposalState :=
  match outcome with
  | .enacted => { state with ratifiedEpoch := some closingEpoch }
  | .expired => { state with canceledEpoch := some (closingEpoch + 1) }
  | .prunedSibling => { state with canceledEpoch := some (closingEpoch + 1) }

instance : EntityDelta ProposalResolved ProposalState where
  key delta := ProposalState.nsKey delta.tx delta.idx
  apply delta entity :=
    match entity with
    | none => .ok (delta, none)
    | some state =>
        .ok ({ delta with prev := some (state.ratifiedEpoch, state.canceledEpoch) },
          some (stamp delta.outcome delta.closingEpoch state))
  undo delta entity :=
    match entity, delta.prev with
    | some state, some (ratified, canceled) =>
        .ok (some { state with ratifiedEpoch := ratified, canceledEpoch := canceled })
    | _, _ => .ok entity

end ProposalResolved

section Faithful

open EntityDelta

variable {before after : Option ProposalState}

theorem ProposalResolved.faithful {delta applied : ProposalResolved}
    (done : apply delta before = .ok (applied, after)) : Faithful delta applied before after := by
  cases before with
  | none =>
      have appliedEq := done
      simp only [apply, Except.ok.injEq, Prod.mk.injEq] at appliedEq
      rcases appliedEq with ⟨rfl, rfl⟩
      exact ⟨rfl, rfl, _, done⟩
  | some state =>
      have appliedEq := done
      simp only [apply, Except.ok.injEq, Prod.mk.injEq] at appliedEq
      rcases appliedEq with ⟨rfl, rfl⟩
      refine ⟨rfl, ?_, _, rfl⟩
      cases outcomeEq : delta.outcome <;> simp [undo, stamp]

theorem NewProposalV2.faithful {delta applied : NewProposalV2}
    (done : apply delta before = .ok (applied, after)) : Faithful delta applied before after := by
  have appliedEq := done
  simp only [apply, Except.ok.injEq, Prod.mk.injEq] at appliedEq
  rcases appliedEq with ⟨rfl, rfl⟩
  exact ⟨rfl, rfl, _, done⟩

theorem VoteCast.faithful {delta applied : VoteCast}
    (done : apply delta before = .ok (applied, after)) : Faithful delta applied before after := by
  cases before with
  | none =>
      have appliedEq := done
      simp only [apply, Except.ok.injEq, Prod.mk.injEq] at appliedEq
      rcases appliedEq with ⟨rfl, rfl⟩
      exact ⟨rfl, rfl, _, done⟩
  | some state =>
      have appliedEq := done
      simp only [apply, Except.ok.injEq, Prod.mk.injEq] at appliedEq
      rcases appliedEq with ⟨rfl, rfl⟩
      refine ⟨rfl, ?_, _, done⟩
      simp [undo, ProposalState.voteHistoryPop_push]

end Faithful

end Dolos
