import Dolos.Cardano.Rewards
import Dolos.Cardano.Enactment

/-!
# The ruling of a boundary

The ratification half of `cardano/src/ewrap/loading.rs`: the snapshot the engine runs
over is read out of the store, the engine's verdicts and the siblings its enactments
prune become the outcomes of the boundary, and each outcome is stamped on the row of
its proposal. A boundary whose snapshot cannot be assembled rules on nothing.
-/

namespace Dolos

open Outcome

/-- The proposals a boundary removes, and the order the accepted ones enact in. -/
structure Ratification where
  outcomes : OrderedMap EntityKey ProposalOutcome
  enactmentOrder : List EntityKey
  deriving DecidableEq

def Ratification.default : Ratification := ⟨∅, []⟩

/-- What the boundary work holds for its ruling: the epoch it closes, the governance
singleton and when it became active, the slot the epoch began in, the registered
representatives, and the epochs assigned to legacy updates by hand. -/
structure BoundaryWork where
  endingState : EpochState
  gov : GovState
  govActiveSince : Option ℕ
  epochStart : ℕ
  ratifyDReps : OrderedMap StakeCredential (Option ℕ)
  curatedUpdate : GovActionId → Option ℕ

/-- The tables of the store the ruling reads. -/
structure BoundaryStore where
  proposals : OrderedMap EntityKey ProposalState
  pools : OrderedMap EntityKey PoolState
  accounts : OrderedMap EntityKey AccountState

namespace GovState

def committeeAuthAsOf (gov : GovState) (cold : StakeCredential) (slot : ℕ) :
    Option CommitteeAuthorization :=
  (gov.committeeAuths.get? cold).bind fun history =>
    (history.reverse.find? fun entry => entry.1 ≤ slot).map Prod.snd

end GovState

namespace ProposalState

def ccVotesAsOf (state : ProposalState) (slot : ℕ) : OrderedMap StakeCredential Vote :=
  .ofList (votesAsOf state.ccVotes slot)

def drepVotesAsOf (state : ProposalState) (slot : ℕ) : OrderedMap StakeCredential Vote :=
  .ofList (votesAsOf state.drepVotes slot)

def spoVotesAsOf (state : ProposalState) (slot : ℕ) : OrderedMap Hash28 Vote :=
  .ofList (votesAsOf state.spoVotes slot)

end ProposalState

namespace BoundaryWork

def closing (work : BoundaryWork) : ℕ := work.endingState.number

/-- The last slot before the epoch being closed. -/
def ratifyCutoffSlot (work : BoundaryWork) : ℕ := work.epochStart - 1

def govActive (work : BoundaryWork) : Bool :=
  work.govActiveSince.any fun since => since ≤ work.closing

/-- The proposal a row contributes to the snapshot, if it does. -/
def snapshotOf (work : BoundaryWork) (key : EntityKey) (state : ProposalState) :
    Option RatifyProposal :=
  if state.isUnresolvedAtClose work.closing = false then none
  else if (state.proposedIn.any fun proposed => proposed < work.closing) = false then none
  else if state.action = .other then none
  else
    state.maxEpoch.map fun expiresAfter =>
      { key := key
        id := state.govActionId
        action := state.action
        parent := state.parent
        expiresAfter := expiresAfter
        order := toLex (state.slot, toLex (state.tx, state.idx.val))
        ccVotes := state.ccVotesAsOf work.ratifyCutoffSlot
        drepVotes := state.drepVotesAsOf work.ratifyCutoffSlot
        spoVotes := state.spoVotesAsOf work.ratifyCutoffSlot }

def snapshot (work : BoundaryWork) (store : BoundaryStore) : List RatifyProposal :=
  store.proposals.entries.filterMap fun entry => work.snapshotOf entry.1 entry.2

section DefaultVotes

variable [AddressDecoding]

/-- The reward account of a pool, by the parameters it will have at the boundary. -/
def loadPoolRewardAccount (store : BoundaryStore) (pool : PoolState) :
    Except Panic (Option AccountState) := do
  let snapshot ←
    match pool.snapshot.next with
    | some next => .ok next
    | none => pool.snapshot.unwrapLive
  .ok ((AddressDecoding.parseRewardAccount snapshot.params.rewardAccount).bind fun account =>
    store.accounts.get? account.key)

/-- The default vote of a pool, when it is not a plain no. -/
def poolDefaultVote (work : BoundaryWork) (store : BoundaryStore) (pool : Hash28) :
    Except Panic (Option DefaultVote) := do
  match store.pools.get? (.ofHash28 pool) with
  | none => .ok none
  | some state =>
      let account ← loadPoolRewardAccount store state
      .ok (account.bind fun account =>
        match account.delegatedDRepAt (work.closing - 1) with
        | some .abstain => some .abstain
        | some .noConfidence => some .noConfidence
        | _ => none)

def poolDefaultVotes (work : BoundaryWork) (store : BoundaryStore) (pools : List Hash28) :
    Except Panic (OrderedMap Hash28 DefaultVote) :=
  pools.foldlM
    (fun votes pool => do
      let vote ← work.poolDefaultVote store pool
      .ok (votes.set pool vote))
    ∅

/-- The stake distributions of the previous boundary, if they are complete. -/
def ratifyDistr (work : BoundaryWork) : Option GovDistr :=
  if work.govActive = false ∨ work.closing = 0 then none
  else work.gov.prevDistr.filter fun distr => distr.isCompleteFor (work.closing - 1)

/-- `build_ratify_input` -/
def buildRatifyInput (work : BoundaryWork) (store : BoundaryStore) :
    Except Panic (Option RatifyInput) :=
  match work.ratifyDistr with
  | none => .ok none
  | some distr => do
      let defaultVotes ← work.poolDefaultVotes store distr.poolDistr.keys
      let pparams ← work.endingState.pparams.unwrapLive
      .ok (some
        { currentEpoch := work.closing
          pparams := pparams
          treasury := work.endingState.initialPots.treasury % 2 ^ 64
          treasuryWord := Nat.mod_lt _ (by decide)
          committee := work.gov.committee
          roots := work.gov.prevGovActionIds
          committeeAuths := .ofList (work.gov.committeeAuths.keys.filterMap fun cold =>
            (work.gov.committeeAuthAsOf cold work.ratifyCutoffSlot).map fun auth => (cold, auth))
          drepDistr := distr.drepDistr
          poolDistr := distr.poolDistr
          poolTotal := distr.poolTotal
          dreps := work.ratifyDReps
          poolDefaultVotes := defaultVotes
          proposals := work.snapshot store })

end DefaultVotes

/-- A live proposal outside the snapshot, with its lineage only. -/
def extraOf (work : BoundaryWork) (key : EntityKey) (state : ProposalState) : RatifyProposal where
  key := key
  id := state.govActionId
  action := state.action
  parent := state.parent
  expiresAfter := state.maxEpoch.getD work.closing
  order := toLex (state.slot, toLex (state.tx, state.idx.val))
  ccVotes := ∅
  drepVotes := ∅
  spoVotes := ∅

/-- `live_forest`: the snapshot, and after it the other unresolved proposals. -/
def liveForest (work : BoundaryWork) (store : BoundaryStore)
    (proposals : List RatifyProposal) : List RatifyProposal :=
  proposals ++ store.proposals.entries.filterMap fun entry =>
    if entry.1 ∈ proposals.map RatifyProposal.key ∨
        entry.2.isUnresolvedAtClose work.closing = false then none
    else some (work.extraOf entry.1 entry.2)

end BoundaryWork

/-- The outcome a verdict stands for; a pruned proposal is one the engine let continue. -/
def ProposalRatification.outcome (pruned : List EntityKey) (ratified : ProposalRatification) :
    Option ProposalOutcome :=
  match ratified.verdict with
  | .accepted => some .enacted
  | .expired => some .expired
  | .continuing => if ratified.key ∈ pruned then some .prunedSibling else none

/-- The outcomes of the verdicts, then those of the pruned proposals no verdict named. -/
def ratificationOutcomes (verdicts : List ProposalRatification) (pruned : List EntityKey) :
    OrderedMap EntityKey ProposalOutcome :=
  let ruled := OrderedMap.ofList (verdicts.filterMap fun ratified =>
    (ratified.outcome pruned).map fun outcome => (ratified.key, outcome))
  ruled.orInsertAll pruned .prunedSibling

namespace BoundaryWork

/-- The ruling of the engine over a snapshot. -/
def rule (work : BoundaryWork) (store : BoundaryStore) (input : RatifyInput) : Ratification :=
  let outcome := ratify input
  let pruned := prunedByEnactment (work.liveForest store input.proposals) outcome.enacted
  { outcomes := ratificationOutcomes outcome.verdicts pruned
    enactmentOrder := outcome.enacted.filterMap fun id =>
      (byId input.proposals id).map RatifyProposal.key }

/-- `resolve_pre_conway`: every live legacy update assigned to the closing epoch enacts,
in submission order. -/
def resolvePreConway (work : BoundaryWork) (store : BoundaryStore) : Ratification :=
  let live := store.proposals.entries.filter fun entry =>
    entry.2.isUnresolvedAtClose work.closing &&
      decide ((work.curatedUpdate entry.2.govActionId).or entry.2.proposedIn = some work.closing)
  let sorted := live.insertionSort fun a b =>
    toLex (a.2.slot, a.2.idx) ≤ (toLex (b.2.slot, b.2.idx) : ℕ ×ₗ Fin (2 ^ 32))
  { outcomes := .ofList (sorted.map fun entry => (entry.1, .enacted))
    enactmentOrder := sorted.map Prod.fst }

/-- `run_ratification` -/
def runRatification [AddressDecoding] (work : BoundaryWork) (store : BoundaryStore) :
    Except Panic Ratification :=
  if work.govActive = false then .ok (work.resolvePreConway store)
  else do
    match ← work.buildRatifyInput store with
    | none => .ok .default
    | some input => .ok (work.rule store input)

end BoundaryWork

section Outcomes

variable {verdicts : List ProposalRatification} {pruned : List EntityKey} {key : EntityKey}

theorem get?_ruled (keys : (verdicts.map ProposalRatification.key).Nodup)
    {outcome : ProposalOutcome} :
    (OrderedMap.ofList (verdicts.filterMap fun ratified =>
        (ratified.outcome pruned).map fun outcome => (ratified.key, outcome))).get? key =
      some outcome ↔
        ∃ ratified ∈ verdicts, ratified.key = key ∧ ratified.outcome pruned = some outcome := by
  have nodup : ((verdicts.filterMap fun ratified =>
      (ratified.outcome pruned).map fun outcome => (ratified.key, outcome)).map
        Prod.fst).Nodup := by
    apply List.Nodup.sublist _ keys
    apply KeyedList.map_filterMap_sublist
    intro ratified entry made
    rcases Option.map_eq_some_iff.mp made with ⟨held, -, rfl⟩
    rfl
  rw [OrderedMap.get?_ofList_iff nodup, List.mem_filterMap]
  constructor
  · rintro ⟨ratified, member, made⟩
    rcases Option.map_eq_some_iff.mp made with ⟨held, heldEq, entryEq⟩
    cases entryEq
    exact ⟨ratified, member, rfl, heldEq⟩
  · rintro ⟨ratified, member, rfl, heldEq⟩
    exact ⟨ratified, member, by simp [heldEq]⟩

theorem ratificationOutcomes_enacted (keys : (verdicts.map ProposalRatification.key).Nodup) :
    (ratificationOutcomes verdicts pruned).get? key = some .enacted ↔
      ∃ ratified ∈ verdicts, ratified.key = key ∧ ratified.verdict = .accepted := by
  have isAccepted : ∀ ratified : ProposalRatification,
      ratified.outcome pruned = some .enacted ↔ ratified.verdict = .accepted := by
    intro ratified
    cases verdictEq : ratified.verdict <;> simp [ProposalRatification.outcome, verdictEq]
  have ruledIff := @get?_ruled _ pruned key keys .enacted
  simp only [isAccepted] at ruledIff
  have orEnacted : ∀ held : Option ProposalOutcome,
      held.or (if key ∈ pruned then some .prunedSibling else none) = some .enacted ↔
        held = some .enacted := by
    intro held
    cases held <;> split_ifs <;> simp
  rw [← ruledIff, ratificationOutcomes, OrderedMap.get?_orInsertAll]
  exact orEnacted _

theorem ratificationOutcomes_none (keys : (verdicts.map ProposalRatification.key).Nodup) :
    (ratificationOutcomes verdicts pruned).get? key = none ↔
      key ∉ pruned ∧ ∀ ratified ∈ verdicts, ratified.key = key →
        ratified.verdict = .continuing := by
  rw [ratificationOutcomes, OrderedMap.get?_orInsertAll, Option.or_eq_none_iff]
  constructor
  · rintro ⟨notRuled, notPruned⟩
    have absent : key ∉ pruned := by
      intro member
      simp [member] at notPruned
    refine ⟨absent, ?_⟩
    intro ratified member keyEq
    cases outcomeEq : ratified.outcome pruned with
    | none =>
        cases verdictEq : ratified.verdict <;>
          simp [ProposalRatification.outcome, verdictEq] at outcomeEq ⊢
    | some outcome =>
        have held := (get?_ruled keys).mpr ⟨ratified, member, keyEq, outcomeEq⟩
        rw [notRuled] at held
        cases held
  · rintro ⟨absent, continuing⟩
    refine ⟨?_, by simp [absent]⟩
    rw [Option.eq_none_iff_forall_not_mem]
    intro outcome held
    rcases (get?_ruled keys).mp held with ⟨ratified, member, keyEq, outcomeEq⟩
    have notPruned : ratified.key ∉ pruned := by rwa [keyEq]
    simp [ProposalRatification.outcome, continuing ratified member keyEq, notPruned] at outcomeEq

end Outcomes

namespace BoundaryWork

variable {work : BoundaryWork} {store : BoundaryStore}

section Snapshot

variable {key : EntityKey} {state : ProposalState} {proposal : RatifyProposal}

/-- What a proposal of the forest has from its row. -/
structure Lives (work : BoundaryWork) (key : EntityKey) (state : ProposalState)
    (proposal : RatifyProposal) : Prop where
  unresolved : state.isUnresolvedAtClose work.closing = true
  key : proposal.key = key
  id : proposal.id = state.govActionId
  action : proposal.action = state.action
  parent : proposal.parent = state.parent

theorem lives_of_snapshotOf (taken : work.snapshotOf key state = some proposal) :
    Lives work key state proposal ∧ state.maxEpoch = some proposal.expiresAfter := by
  unfold snapshotOf at taken
  split_ifs at taken with resolved late legacy
  rcases Option.map_eq_some_iff.mp taken with ⟨expires, expiresEq, rfl⟩
  exact ⟨⟨by simpa using resolved, rfl, rfl, rfl, rfl⟩, expiresEq⟩

theorem mem_snapshot :
    proposal ∈ work.snapshot store ↔
      ∃ key state, store.proposals.get? key = some state ∧
        work.snapshotOf key state = some proposal := by
  simp only [snapshot, List.mem_filterMap, Prod.exists, OrderedMap.mem_entries_iff]

theorem snapshot_keys_nodup : ((work.snapshot store).map RatifyProposal.key).Nodup := by
  apply List.Nodup.sublist _ store.proposals.nodup_keys
  apply KeyedList.map_filterMap_sublist
  intro entry proposal taken
  exact (lives_of_snapshotOf taken).1.key

theorem exists_row_of_mem_forest (member : proposal ∈ work.liveForest store (work.snapshot store)) :
    ∃ key state, store.proposals.get? key = some state ∧ Lives work key state proposal := by
  rcases List.mem_append.mp member with inSnapshot | extra
  · rcases mem_snapshot.mp inSnapshot with ⟨key, state, found, taken⟩
    exact ⟨key, state, found, (lives_of_snapshotOf taken).1⟩
  · rcases List.mem_filterMap.mp extra with ⟨⟨key, state⟩, entry, made⟩
    split_ifs at made with skipped
    cases made
    simp only [not_or, Bool.not_eq_false] at skipped
    exact ⟨key, state, OrderedMap.mem_entries_iff.mp entry, skipped.2, rfl, rfl, rfl, rfl⟩

theorem exists_mem_forest (found : store.proposals.get? key = some state)
    (unresolved : state.isUnresolvedAtClose work.closing = true) :
    ∃ proposal ∈ work.liveForest store (work.snapshot store),
      Lives work key state proposal := by
  by_cases inSnapshot : key ∈ (work.snapshot store).map RatifyProposal.key
  · rcases List.mem_map.mp inSnapshot with ⟨proposal, member, keyEq⟩
    rcases mem_snapshot.mp member with ⟨heldKey, held, heldFound, taken⟩
    have lives := (lives_of_snapshotOf taken).1
    have sameKey : heldKey = key := lives.key.symm.trans keyEq
    subst sameKey
    rw [heldFound] at found
    cases found
    exact ⟨proposal, List.mem_append_left _ member, lives⟩
  · refine ⟨work.extraOf key state, List.mem_append_right _ ?_, unresolved, rfl, rfl, rfl, rfl⟩
    apply List.mem_filterMap.mpr
    refine ⟨(key, state), OrderedMap.mem_entries_iff.mpr found, ?_⟩
    rw [if_neg]
    rw [not_or]
    exact ⟨inSnapshot, by simp [unresolved]⟩

theorem forest_keys_nodup :
    ((work.liveForest store (work.snapshot store)).map RatifyProposal.key).Nodup := by
  rw [liveForest, List.map_append]
  apply List.Nodup.append snapshot_keys_nodup
  · apply List.Nodup.sublist _ store.proposals.nodup_keys
    apply KeyedList.map_filterMap_sublist
    intro entry proposal made
    split_ifs at made
    cases made
    rfl
  · intro key inSnapshot inExtra
    rcases List.mem_map.mp inExtra with ⟨proposal, extra, rfl⟩
    rcases List.mem_filterMap.mp extra with ⟨entry, -, made⟩
    split_ifs at made with skipped
    cases made
    exact skipped (Or.inl inSnapshot)

end Snapshot

/-- Every row is stored under its own key. -/
def ProposalsKeyed (proposals : OrderedMap EntityKey ProposalState) : Prop :=
  ∀ key state, proposals.get? key = some state →
    key = ProposalState.buildEntityKey state.tx state.idx

theorem ProposalsKeyed.key_eq {proposals : OrderedMap EntityKey ProposalState}
    (keyed : ProposalsKeyed proposals) {key otherKey : EntityKey} {state other : ProposalState}
    (found : proposals.get? key = some state) (otherFound : proposals.get? otherKey = some other)
    (sameId : state.govActionId = other.govActionId) : key = otherKey := by
  simp only [ProposalState.govActionId, GovActionId.mk.injEq] at sameId
  rw [keyed _ _ found, keyed _ _ otherFound, sameId.1, Fin.ext sameId.2]

theorem forest_ids_nodup (keyed : ProposalsKeyed store.proposals) :
    ((work.liveForest store (work.snapshot store)).map RatifyProposal.id).Nodup := by
  apply List.Nodup.map_on _ forest_keys_nodup.of_map
  intro proposal member other otherMember sameId
  rcases exists_row_of_mem_forest member with ⟨key, state, found, lives⟩
  rcases exists_row_of_mem_forest otherMember with ⟨otherKey, otherState, otherFound, otherLives⟩
  rw [lives.id, otherLives.id] at sameId
  apply List.inj_on_of_nodup_map forest_keys_nodup member otherMember
  rw [lives.key, otherLives.key]
  exact keyed.key_eq found otherFound sameId

section Ruled

variable {input : RatifyInput} {key : EntityKey}

theorem exists_verdict_iff (keys : (input.proposals.map RatifyProposal.key).Nodup)
    {good : Verdict → Prop} :
    (∃ ratified ∈ (ratify input).verdicts, ratified.key = key ∧ good ratified.verdict) ↔
      ∃ proposal ∈ input.proposals, proposal.key = key ∧
        good (verdictAmong input input.accepted proposal) := by
  have triples := ratify_verdicts keys.of_map
  constructor
  · rintro ⟨ratified, member, keyEq, holds⟩
    have tripleMember := List.mem_map_of_mem
      (f := fun held : ProposalRatification => (held.key, held.id, held.verdict)) member
    rw [triples] at tripleMember
    rcases List.mem_map.mp tripleMember with ⟨proposal, ordered, tripleEq⟩
    simp only [Prod.mk.injEq] at tripleEq
    refine ⟨proposal, mem_ordered.mp ordered, tripleEq.1.trans keyEq, ?_⟩
    rw [tripleEq.2.2]
    exact holds
  · rintro ⟨proposal, member, keyEq, holds⟩
    have tripleMember := List.mem_map_of_mem
      (f := fun held : RatifyProposal =>
        (held.key, held.id, verdictAmong input input.accepted held)) (mem_ordered.mpr member)
    rw [← triples] at tripleMember
    rcases List.mem_map.mp tripleMember with ⟨ratified, judged, tripleEq⟩
    simp only [Prod.mk.injEq] at tripleEq
    refine ⟨ratified, judged, tripleEq.1.trans keyEq, ?_⟩
    rw [tripleEq.2.2]
    exact holds

theorem verdict_keys_nodup (keys : (input.proposals.map RatifyProposal.key).Nodup) :
    ((ratify input).verdicts.map ProposalRatification.key).Nodup := by
  have triples := congrArg (List.map fun triple => triple.1) (ratify_verdicts keys.of_map)
  have keysEq : (ratify input).verdicts.map ProposalRatification.key =
      input.ordered.map RatifyProposal.key := by
    simpa [List.map_map, Function.comp_def] using triples
  rw [keysEq]
  exact ((List.perm_insertionSort _ _).map _).nodup_iff.mpr keys

/-- The ruling enacts the accepted proposals. -/
theorem rule_enacted_iff (keys : (input.proposals.map RatifyProposal.key).Nodup) :
    (work.rule store input).outcomes.get? key = some .enacted ↔
      ∃ proposal ∈ input.accepted, proposal.key = key := by
  rw [rule, ratificationOutcomes_enacted (verdict_keys_nodup keys),
    @exists_verdict_iff input key keys (· = .accepted)]
  have acceptedIff : ∀ proposal, verdictAmong input input.accepted proposal = .accepted ↔
      proposal ∈ input.accepted := by
    intro proposal
    unfold verdictAmong
    split_ifs with accepted late <;> simp [accepted]
  constructor
  · rintro ⟨proposal, -, keyEq, verdict⟩
    exact ⟨proposal, (acceptedIff proposal).mp verdict, keyEq⟩
  · rintro ⟨proposal, accepted, keyEq⟩
    exact ⟨proposal, mem_proposals_of_accepted accepted, keyEq,
      (acceptedIff proposal).mpr accepted⟩

/-- A proposal has no outcome when it is not pruned and its verdict is to continue. -/
theorem rule_none_iff (keys : (input.proposals.map RatifyProposal.key).Nodup) :
    (work.rule store input).outcomes.get? key = none ↔
      key ∉ prunedByEnactment (work.liveForest store input.proposals) (ratify input).enacted ∧
        ∀ proposal ∈ input.proposals, proposal.key = key →
          proposal ∉ input.accepted ∧ input.currentEpoch ≤ proposal.expiresAfter := by
  have goesOn : ∀ proposal, verdictAmong input input.accepted proposal = .continuing ↔
      proposal ∉ input.accepted ∧ input.currentEpoch ≤ proposal.expiresAfter := by
    intro proposal
    unfold verdictAmong
    split_ifs with accepted late
    · simp [accepted]
    · simp [late]
    · simp only [true_iff]
      exact ⟨accepted, Nat.le_of_not_lt late⟩
  rw [rule, ratificationOutcomes_none (verdict_keys_nodup keys)]
  have otherwise := @exists_verdict_iff input key keys (· ≠ .continuing)
  constructor
  · rintro ⟨notPruned, continuing⟩
    refine ⟨notPruned, ?_⟩
    intro proposal member keyEq
    by_contra stops
    have verdict := mt (goesOn proposal).mp stops
    rcases otherwise.mpr ⟨proposal, member, keyEq, verdict⟩ with ⟨ratified, judged, sameKey, ends⟩
    exact ends (continuing ratified judged sameKey)
  · rintro ⟨notPruned, continuing⟩
    refine ⟨notPruned, ?_⟩
    intro ratified judged sameKey
    by_contra ends
    rcases otherwise.mp ⟨ratified, judged, sameKey, ends⟩ with ⟨proposal, member, keyEq, verdict⟩
    exact verdict ((goesOn proposal).mpr (continuing proposal member keyEq))

variable [AddressDecoding]

/-- What the engine's input takes from the boundary. -/
theorem buildRatifyInput_spec (built : work.buildRatifyInput store = .ok (some input)) :
    input.currentEpoch = work.closing ∧ input.roots = work.gov.prevGovActionIds ∧
      input.committee = work.gov.committee ∧ input.proposals = work.snapshot store := by
  unfold buildRatifyInput at built
  split at built
  · cases built
  · rcases bind_eq_ok.mp built with ⟨votes, -, rest⟩
    rcases bind_eq_ok.mp rest with ⟨pparams, -, made⟩
    cases made
    exact ⟨rfl, rfl, rfl, rfl⟩

/-- The engine runs when the distributions of the previous boundary are complete. -/
theorem runRatification_cases {ruling : Ratification} (active : work.govActive = true)
    (ruled : work.runRatification store = .ok ruling) :
    (work.ratifyDistr = none ∧ ruling = .default) ∨
      ∃ input, work.buildRatifyInput store = .ok (some input) ∧
        ruling = work.rule store input := by
  simp only [runRatification, active, Bool.true_eq_false, if_false] at ruled
  rcases bind_eq_ok.mp ruled with ⟨built, builtEq, made⟩
  cases built with
  | none =>
      left
      refine ⟨?_, by cases made; rfl⟩
      cases distrEq : work.ratifyDistr with
      | none => rfl
      | some distr =>
          simp only [buildRatifyInput, distrEq] at builtEq
          rcases bind_eq_ok.mp builtEq with ⟨votes, -, rest⟩
          rcases bind_eq_ok.mp rest with ⟨pparams, -, impossible⟩
          cases impossible
  | some input => exact Or.inr ⟨input, builtEq, by cases made; rfl⟩

/-- Only proposals of the live forest are ruled on. -/
theorem unresolved_of_outcome {ruling : Ratification} {outcome : ProposalOutcome}
    (active : work.govActive = true) (ruled : work.runRatification store = .ok ruling)
    (held : ruling.outcomes.get? key = some outcome) :
    ∃ state, store.proposals.get? key = some state ∧
      state.isUnresolvedAtClose work.closing = true := by
  rcases runRatification_cases active ruled with ⟨-, rfl⟩ | ⟨input, built, rfl⟩
  · simp [Ratification.default] at held
  · rcases buildRatifyInput_spec built with ⟨-, -, -, proposalsEq⟩
    have keys : (input.proposals.map RatifyProposal.key).Nodup := by
      rw [proposalsEq]
      exact snapshot_keys_nodup
    by_contra unlisted
    have missing : ∀ proposal ∈ work.liveForest store (work.snapshot store),
        proposal.key ≠ key := by
      rintro proposal member rfl
      rcases exists_row_of_mem_forest member with ⟨rowKey, state, found, lives⟩
      rw [← lives.key] at found
      exact unlisted ⟨state, found, lives.unresolved⟩
    have silent : (work.rule store input).outcomes.get? key = none := by
      rw [rule_none_iff keys, proposalsEq]
      constructor
      · intro pruned
        rcases List.mem_map.mp pruned with ⟨proposal, kept, keyEq⟩
        exact missing proposal (List.mem_filter.mp kept).1 keyEq
      · intro proposal member keyEq
        exact absurd keyEq (missing proposal (List.mem_append_left _ member))
    rw [silent] at held
    cases held

end Ruled

end BoundaryWork

end Dolos
