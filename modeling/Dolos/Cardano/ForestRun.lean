import Mathlib.Data.ZMod.Defs
import Dolos.Cardano.Forest

/-!
# Runs of the governance forest

What a boundary does to the open proposals, by the engine's input it was built from, and
what is left of the forest after any run of blocks and boundaries.
-/

namespace Dolos

open Outcome EntityDelta

section Boundary

variable [AddressDecoding] {ledger after : GovLedger} {work : BoundaryWork}
  {store : BoundaryStore} {closed : ProposalClose} {input : RatifyInput}

/-- Without distributions a boundary rules on nothing; with them the engine's roots are kept. -/
theorem GovStep.close_cases (rooted : Rooted ledger)
    (step : GovStep (.close work store closed) ledger after) :
    (closed.ruling = .default ∧ after.roots = ledger.roots) ∨
      ∃ input, work.buildRatifyInput store = .ok (some input) ∧
        closed.ruling = work.rule store input ∧ input.roots = ledger.roots ∧
          after.roots = (input.accepted.foldl RunState.accept input.start).roots := by
  cases step with
  | close epoch active roots rows done kept =>
      rcases BoundaryWork.runRatification_cases active (closeProposals_ruling done) with
        ⟨-, ruledEq⟩ | ⟨input, built, ruledEq⟩
      · left
        refine ⟨ruledEq, ?_⟩
        rcases bind_eq_ok.mp done with ⟨ruling, ruled, rest⟩
        rcases bind_eq_ok.mp rest with ⟨proposals, -, rest⟩
        rcases bind_eq_ok.mp rest with ⟨gov, enacted, made⟩
        cases made
        subst ruledEq
        cases enacted
        cases kept
        exact roots
      · right
        have keyed : BoundaryWork.ProposalsKeyed store.proposals := by
          rw [rows]
          exact rooted.keyed
        have recorded : ∀ key state, store.proposals.get? key = some state →
            state.isUnresolvedAtClose work.closing = true →
              state.purpose = state.action.purpose := by
          intro key state found unresolved
          rw [rows] at found
          rw [epoch] at unresolved
          exact rooted.recorded key state ⟨found, unresolved⟩
        rcases closeProposals_roots keyed recorded built done ruledEq with ⟨gov, govEq, rootsEq⟩
        rw [kept] at govEq
        cases govEq
        refine ⟨input, built, ruledEq, ?_, rootsEq⟩
        rw [(BoundaryWork.buildRatifyInput_spec built).2.1, roots]

/-- The engine ran at the boundary, and the ruling and the roots are its own. -/
structure Judged (work : BoundaryWork) (store : BoundaryStore) (closed : ProposalClose)
    (input : RatifyInput) (ledger after : GovLedger) : Prop where
  step : GovStep (.close work store closed) ledger after
  built : work.buildRatifyInput store = .ok (some input)
  ruled : closed.ruling = work.rule store input
  roots : input.roots = ledger.roots
  kept : after.roots = (input.accepted.foldl RunState.accept input.start).roots

namespace Judged

variable (judged : Judged work store closed input ledger after)
include judged

theorem proposals : input.proposals = work.snapshot store :=
  (BoundaryWork.buildRatifyInput_spec judged.built).2.2.2

theorem exists_open {proposal : RatifyProposal}
    (member : proposal ∈ work.liveForest store (work.snapshot store)) :
    ∃ key state, ledger.Open key state ∧ BoundaryWork.Lives work key state proposal := by
  rcases BoundaryWork.exists_row_of_mem_forest member with ⟨key, state, found, lives⟩
  cases judged.step with
  | close epoch active roots rows done kept =>
      rw [rows] at found
      have unresolved := lives.unresolved
      rw [epoch] at unresolved
      exact ⟨key, state, ⟨found, unresolved⟩, lives⟩

theorem exists_mem {key : EntityKey} {state : ProposalState} (opened : ledger.Open key state) :
    ∃ proposal ∈ work.liveForest store (work.snapshot store),
      BoundaryWork.Lives work key state proposal := by
  cases judged.step with
  | close epoch active roots rows done kept =>
      apply BoundaryWork.exists_mem_forest
      · rw [rows]
        exact opened.1
      · rw [epoch]
        exact opened.2

theorem planted (rooted : Rooted ledger) :
    Planted (work.liveForest store (work.snapshot store)) input := by
  have keyed : BoundaryWork.ProposalsKeyed store.proposals := by
    cases judged.step with
    | close epoch active roots rows done kept =>
        rw [rows]
        exact rooted.keyed
  refine ⟨buildRatifyInput_ids keyed judged.built, BoundaryWork.forest_ids_nodup keyed, ?_, ?_⟩
  · intro proposal accepted
    have member := mem_proposals_of_accepted accepted
    rw [judged.proposals] at member
    exact List.mem_append_left _ member
  · intro purpose id rootEq
    cases foundEq : byId (work.liveForest store (work.snapshot store)) id with
    | none => rfl
    | some proposal =>
        rcases mem_of_byId foundEq with ⟨member, idEq⟩
        rcases judged.exists_open member with ⟨key, state, opened, lives⟩
        rw [judged.roots] at rootEq
        exact absurd (lives.id.symm.trans idEq) (rooted.ne_root rootEq opened)

/-- An open proposal stays open when it is neither pruned nor accepted and has votes left. -/
theorem open_iff (rooted : Rooted ledger) {key : EntityKey} {state : ProposalState}
    {proposal : RatifyProposal} (opened : ledger.Open key state)
    (member : proposal ∈ work.liveForest store (work.snapshot store))
    (lives : BoundaryWork.Lives work key state proposal) :
    after.Open key state ↔
      isPruned (work.liveForest store (work.snapshot store)) (ratify input).enacted proposal =
          false ∧
        proposal ∉ input.accepted ∧ ∀ last ∈ state.maxEpoch, ledger.epoch ≤ last := by
  have proposalsEq := judged.proposals
  have inForest : ∀ held ∈ work.snapshot store, held.key = key → held = proposal := by
    intro held heldMember keyEq
    apply List.inj_on_of_nodup_map BoundaryWork.forest_keys_nodup
      (List.mem_append_left _ heldMember) member
    exact keyEq.trans lives.key.symm
  rw [GovStep.close_open rooted judged.step, judged.ruled,
    BoundaryWork.rule_none_iff (buildRatifyInput_keys judged.built), proposalsEq]
  have prunedIff : key ∈ prunedByEnactment (work.liveForest store (work.snapshot store))
      (ratify input).enacted ↔
        isPruned (work.liveForest store (work.snapshot store)) (ratify input).enacted proposal =
          true := by
    constructor
    · intro pruned
      rw [← lives.key] at pruned
      exact isPruned_of_mem_pruned BoundaryWork.forest_keys_nodup member pruned
    · intro pruned
      exact List.mem_map.mpr ⟨proposal, List.mem_filter.mpr ⟨member, pruned⟩, lives.key⟩
  rw [prunedIff, Bool.not_eq_true]
  constructor
  · rintro ⟨-, ⟨kept, goesOn⟩, lasting⟩
    refine ⟨kept, ?_, lasting⟩
    intro accepted
    have inSnapshot := mem_proposals_of_accepted accepted
    rw [proposalsEq] at inSnapshot
    exact (goesOn proposal inSnapshot lives.key).1 accepted
  · rintro ⟨kept, unaccepted, lasting⟩
    refine ⟨opened, ⟨kept, ?_⟩, lasting⟩
    intro held heldMember keyEq
    have same := inForest held heldMember keyEq
    subst same
    refine ⟨unaccepted, ?_⟩
    rcases BoundaryWork.mem_snapshot.mp heldMember with ⟨rowKey, row, found, taken⟩
    rcases BoundaryWork.lives_of_snapshotOf taken with ⟨rowLives, lastEq⟩
    rw [(BoundaryWork.buildRatifyInput_spec judged.built).1]
    cases judged.step with
    | close epoch active roots rows done kept =>
        rw [epoch]
        apply lasting
        rw [rows, ← rowLives.key, keyEq, opened.1] at found
        cases found
        exact lastEq

theorem enacted_iff (rooted : Rooted ledger) {key : EntityKey} {state : ProposalState}
    {proposal : RatifyProposal}
    (member : proposal ∈ work.liveForest store (work.snapshot store))
    (lives : BoundaryWork.Lives work key state proposal) :
    closed.ruling.outcomes.get? key = some .enacted ↔ proposal ∈ input.accepted := by
  rw [judged.ruled, BoundaryWork.rule_enacted_iff (buildRatifyInput_keys judged.built)]
  constructor
  · rintro ⟨held, accepted, keyEq⟩
    have inForest := (judged.planted rooted).accepted held accepted
    have same := List.inj_on_of_nodup_map BoundaryWork.forest_keys_nodup inForest member
      (keyEq.trans lives.key.symm)
    rwa [← same]
  · intro accepted
    exact ⟨proposal, accepted, lives.key⟩

/-- The parent of an open proposal that stays open is the new root or stays open. -/
theorem parent_kept (rooted : Rooted ledger) (noOrphans : NoOrphans ledger)
    {child parent : EntityKey × ProposalState} {purpose : GovPurpose}
    (opened : after.Open child.1 child.2) (parentOpen : ledger.Open parent.1 parent.2)
    (childPurpose : child.2.purpose = some purpose)
    (parentPurpose : parent.2.purpose = some purpose)
    (named : child.2.parent = some parent.2.govActionId) :
    after.roots.root purpose = some parent.2.govActionId ∨ after.Open parent.1 parent.2 := by
  have childOpen := ((GovStep.close_open rooted judged.step).mp opened).1
  rcases judged.exists_mem childOpen with ⟨held, heldMember, heldLives⟩
  rcases judged.exists_mem parentOpen with ⟨above, aboveMember, aboveLives⟩
  have planted := judged.planted rooted
  rcases (judged.open_iff rooted childOpen heldMember heldLives).mp opened with
    ⟨kept, unaccepted, lasting⟩
  have heldPurpose := rooted.purpose_eq childOpen heldLives
  have abovePurpose := rooted.purpose_eq parentOpen aboveLives
  have heldNamed : held.parent = some above.id := by
    rw [heldLives.parent, aboveLives.id, named]
  rcases planted.kept_parent (heldPurpose.trans childPurpose) (abovePurpose.trans parentPurpose)
    aboveMember heldNamed (planted.id_not_mem_enacted heldMember unaccepted) kept with
    won | ⟨aboveUnaccepted, aboveKept⟩
  · left
    rw [judged.kept, planted.root_of_accepted, won, aboveLives.id]
    rfl
  · right
    apply (judged.open_iff rooted parentOpen aboveMember aboveLives).mpr
    refine ⟨aboveKept, aboveUnaccepted, ?_⟩
    intro last lastEq
    by_contra past
    rcases noOrphans _ _ _ _ purpose last parentOpen childOpen named parentPurpose childPurpose
      lastEq (Nat.lt_of_not_le past) with ⟨childLast, childLastEq, childPast⟩
    have inTime := lasting childLast childLastEq
    omega

theorem root_kept (rooted : Rooted ledger) {key : EntityKey} {state : ProposalState}
    {purpose : GovPurpose} (opened : after.Open key state)
    (purposeEq : state.purpose = some purpose)
    (named : state.parent = ledger.roots.root purpose) :
    state.parent = after.roots.root purpose := by
  have openBefore := ((GovStep.close_open rooted judged.step).mp opened).1
  rcases judged.exists_mem openBefore with ⟨held, member, lives⟩
  have planted := judged.planted rooted
  rcases (judged.open_iff rooted openBefore member lives).mp opened with ⟨kept, unaccepted, -⟩
  have heldPurpose := rooted.purpose_eq openBefore lives
  have heldNamed : held.parent = input.roots.root purpose := by
    rw [lives.parent, named, judged.roots]
  have unwon := planted.unwon_of_kept (heldPurpose.trans purposeEq) heldNamed
    (planted.id_not_mem_enacted member unaccepted) kept
  rw [judged.kept, planted.root_of_accepted, unwon, named, judged.roots]
  rfl

/-- An open proposal that becomes a root is enacted. -/
theorem enacted_of_root (rooted : Rooted ledger) {key : EntityKey} {state : ProposalState}
    {purpose : GovPurpose} (opened : ledger.Open key state)
    (rootEq : after.roots.root purpose = some state.govActionId) :
    closed.ruling.outcomes.get? key = some .enacted := by
  have planted := judged.planted rooted
  rw [judged.kept, planted.root_of_accepted] at rootEq
  cases wonEq : lastEnacted (work.liveForest store (work.snapshot store)) (ratify input).enacted
    purpose with
  | none =>
      rw [wonEq, Option.none_or, judged.roots] at rootEq
      exact absurd rfl (rooted.ne_root rootEq opened)
  | some winner =>
      rw [wonEq, Option.some_or] at rootEq
      rcases planted.exists_winner wonEq with ⟨proposal, accepted, -, idEq⟩
      have member := planted.accepted proposal accepted
      rcases judged.exists_open member with ⟨rowKey, row, rowOpen, lives⟩
      have sameId : state.govActionId = row.govActionId := by
        rw [← lives.id, idEq]
        exact (Option.some.inj rootEq).symm
      rcases opened.key_eq rooted.keyed rowOpen.1 sameId with ⟨rfl, rfl⟩
      exact (judged.enacted_iff rooted member lives).mpr accepted

/-- What an enacted proposal names among the open ones is enacted with it. -/
theorem enacted_of_child (rooted : Rooted ledger) {child parent : EntityKey × ProposalState}
    (childOf : ledger.ChildOf child parent)
    (enacted : closed.ruling.outcomes.get? child.1 = some .enacted) :
    closed.ruling.outcomes.get? parent.1 = some .enacted := by
  rcases childOf with ⟨childOpen, parentOpen, named, purpose, childPurpose, -⟩
  rcases judged.exists_mem childOpen with ⟨held, heldMember, heldLives⟩
  rcases judged.exists_mem parentOpen with ⟨above, aboveMember, aboveLives⟩
  have accepted := (judged.enacted_iff rooted heldMember heldLives).mp enacted
  apply (judged.enacted_iff rooted aboveMember aboveLives).mpr
  have heldPurpose := (rooted.purpose_eq childOpen heldLives).trans childPurpose
  apply (judged.planted rooted).accepted_parent accepted heldPurpose aboveMember
  rw [heldLives.parent, aboveLives.id, named]

end Judged

theorem GovStep.judged_or_silent (rooted : Rooted ledger)
    (step : GovStep (.close work store closed) ledger after) :
    (∀ key, closed.ruling.outcomes.get? key = none) ∧ after.roots = ledger.roots ∨
      ∃ input, Judged work store closed input ledger after := by
  rcases step.close_cases rooted with ⟨silent, rootsEq⟩ | ⟨input, built, ruled, roots, kept⟩
  · left
    refine ⟨?_, rootsEq⟩
    intro key
    rw [silent]
    rfl
  · exact Or.inr ⟨input, step, built, ruled, roots, kept⟩

theorem GovStep.enacted_of_root (rooted : Rooted ledger)
    (step : GovStep (.close work store closed) ledger after) {key : EntityKey}
    {state : ProposalState} {purpose : GovPurpose} (opened : ledger.Open key state)
    (rootEq : after.roots.root purpose = some state.govActionId) :
    closed.ruling.outcomes.get? key = some .enacted := by
  rcases step.judged_or_silent rooted with ⟨-, rootsEq⟩ | ⟨input, judged⟩
  · rw [rootsEq] at rootEq
    exact absurd rfl (rooted.ne_root rootEq opened)
  · exact judged.enacted_of_root rooted opened rootEq

theorem GovStep.enacted_of_child (rooted : Rooted ledger)
    (step : GovStep (.close work store closed) ledger after)
    {child parent : EntityKey × ProposalState} (childOf : ledger.ChildOf child parent)
    (enacted : closed.ruling.outcomes.get? child.1 = some .enacted) :
    closed.ruling.outcomes.get? parent.1 = some .enacted := by
  rcases step.judged_or_silent rooted with ⟨silent, -⟩ | ⟨input, judged⟩
  · rw [silent] at enacted
    cases enacted
  · exact judged.enacted_of_child rooted childOf enacted

theorem ForestClosed.close (forest : ForestClosed ledger) (rooted : Rooted ledger)
    (step : GovStep (.close work store closed) ledger after) (noOrphans : NoOrphans ledger) :
    ForestClosed after := by
  intro key state opened purpose purposeEq
  rcases (step.close_open rooted).mp opened with ⟨openBefore, -, lasting⟩
  rcases step.judged_or_silent rooted with ⟨silent, rootsEq⟩ | ⟨input, judged⟩
  · rw [rootsEq]
    rcases forest key state openBefore purpose purposeEq with
      named | ⟨parentKey, parent, parentOpen, parentPurpose, named⟩
    · exact Or.inl named
    · right
      refine ⟨parentKey, parent, ?_, parentPurpose, named⟩
      apply (step.close_open rooted).mpr
      refine ⟨parentOpen, silent parentKey, ?_⟩
      intro last lastEq
      by_contra past
      rcases noOrphans _ _ _ _ purpose last parentOpen openBefore named parentPurpose purposeEq
        lastEq (Nat.lt_of_not_le past) with ⟨childLast, childLastEq, childPast⟩
      have inTime := lasting childLast childLastEq
      omega
  · rcases forest key state openBefore purpose purposeEq with
      named | ⟨parentKey, parent, parentOpen, parentPurpose, named⟩
    · exact Or.inl (judged.root_kept rooted opened purposeEq named)
    · rcases @Judged.parent_kept _ _ _ _ _ _ _ judged rooted noOrphans (key, state)
        (parentKey, parent) purpose opened parentOpen purposeEq parentPurpose named with
        rootEq | stays
      · left
        rw [rootEq, named]
      · exact Or.inr ⟨parentKey, parent, stays, parentPurpose, named⟩

/-- In a closed forest a proposal that stays open names nothing that was removed. -/
theorem ForestClosed.parent_ne_removed (forest : ForestClosed after) (rooted : Rooted ledger)
    (step : GovStep (.close work store closed) ledger after)
    {removed : EntityKey × ProposalState} (removes : Removes closed ledger after removed)
    {key : EntityKey} {state : ProposalState} (opened : after.Open key state)
    (purposed : state.purpose.isSome) : state.parent ≠ some removed.2.govActionId := by
  intro named
  rcases removes with ⟨removedOpen, gone, unenacted⟩
  rcases Option.isSome_iff_exists.mp purposed with ⟨purpose, purposeEq⟩
  rcases forest key state opened purpose purposeEq with
    rootEq | ⟨parentKey, parent, parentOpen, -, parentEq⟩
  · rw [named] at rootEq
    exact unenacted (step.enacted_of_root rooted removedOpen rootEq.symm)
  · rw [named] at parentEq
    have openBefore := ((step.close_open rooted).mp parentOpen).1
    rcases removedOpen.key_eq rooted.keyed openBefore.1 (Option.some.inj parentEq) with
      ⟨keyEq, same⟩
    rw [keyEq, same] at gone
    exact gone parentOpen

theorem ForestClosed.kept (forest : ForestClosed after) (rooted : Rooted ledger)
    (step : GovStep (.close work store closed) ledger after) : ForestKept closed ledger after := by
  refine ⟨forest, ?_, ?_⟩
  · intro removed removes child descends
    -- From the removed proposal downwards, one child at a time.
    have childRemoved : ∀ child parent, ledger.ChildOf child parent →
        Removes closed ledger after parent → Removes closed ledger after child := by
      intro child parent childOf parentRemoved
      refine ⟨childOf.1, ?_, ?_⟩
      · intro opened
        rcases childOf with ⟨-, -, named, purpose, purposeEq, -⟩
        have purposed : child.2.purpose.isSome := by simp [purposeEq]
        exact forest.parent_ne_removed rooted step parentRemoved opened purposed named
      · intro enacted
        exact parentRemoved.2.2 (step.enacted_of_child rooted childOf enacted)
    induction descends using Relation.TransGen.head_induction_on with
    | single childOf => exact childRemoved _ _ childOf removes
    | head childOf _ ih => exact childRemoved _ _ childOf ih
  · intro removed removes key state opened purposed
    exact forest.parent_ne_removed rooted step removes opened purposed

end Boundary

section Steps

variable [AddressDecoding] {ledger after : GovLedger} {event : GovEvent}

/-- A row of the ledger is there after every step, under the id it has. -/
theorem GovStep.row_stays (keyed : BoundaryWork.ProposalsKeyed ledger.proposals)
    (step : GovStep event ledger after) {key : EntityKey} {state : ProposalState}
    (found : ledger.proposals.get? key = some state) :
    ∃ changed, after.proposals.get? key = some changed ∧
      changed.govActionId = state.govActionId := by
  cases event with
  | propose submission =>
      rcases step.propose_rows with ⟨-, -, fresh, rows⟩
      refine ⟨state, ?_, rfl⟩
      rw [rows key, if_neg]
      · exact found
      · rintro rfl
        rw [fresh] at found
        cases found
  | vote delta =>
      have row := step.vote_rows.2.2 key
      rw [found] at row
      rcases row with ⟨changed, changedEq, same⟩
      refine ⟨changed, changedEq, ?_⟩
      simp only [ProposalState.govActionId, same.tx, same.idx]
  | close work store closed =>
      rcases step.close_rows keyed with ⟨-, -, -, -, -, rows⟩
      refine ⟨stampedBy ledger.epoch (closed.ruling.outcomes.get? key) state, ?_, ?_⟩
      · rw [rows key, found]
        rfl
      · simp only [ProposalState.govActionId, stampedBy_tx]

/-- An open row was open before, or is a new proposal in a row of its own. -/
theorem GovStep.open_origin (rooted : Rooted ledger) (step : GovStep event ledger after)
    {key : EntityKey} {changed : ProposalState} (opened : after.Open key changed) :
    (∃ state, ledger.Open key state ∧ SameBut state changed) ∨
      ledger.proposals.get? key = none ∧ ∃ submission, event = .propose submission ∧
        changed = (submission.delta ledger.epoch).proposed := by
  have settling := (settling_of_start rooted.keyed rooted.ratified rooted.canceled).step step
  have unruled := isResolved_eq_false (settling.ratified key changed opened.1)
    (settling.canceled key changed opened.1) opened.2
  rcases step.unresolved_origin rooted.keyed opened.1 unruled with
    ⟨state, held, same⟩ | ⟨submission, rfl, rfl⟩
  · left
    have unresolved := unresolved_mono step.epoch_le opened.2
    refine ⟨state, ⟨held, ?_⟩, same⟩
    simpa only [ProposalState.isUnresolvedAtClose, same.ratifiedEpoch, same.canceledEpoch,
      same.maxEpoch] using unresolved
  · right
    have ownKey := settling.keyed key _ opened.1
    refine ⟨?_, submission, rfl, rfl⟩
    rw [ownKey]
    exact step.propose_rows.2.2.1

/-- The row of a root stays, and stays closed. -/
theorem Rooted.root_row (rooted : Rooted ledger) (step : GovStep event ledger after)
    {purpose : GovPurpose} {id : GovActionId} (rootEq : ledger.roots.root purpose = some id) :
    ∃ key state, after.proposals.get? key = some state ∧ state.govActionId = id ∧
      state.isUnresolvedAtClose after.epoch = false := by
  rcases rooted.roots purpose id rootEq with ⟨key, state, found, idEq, settled⟩
  rcases step.row_stays rooted.keyed found with ⟨changed, changedEq, sameId⟩
  refine ⟨key, changed, changedEq, sameId.trans idEq, ?_⟩
  rw [Bool.eq_false_iff]
  intro unresolved
  rcases step.open_origin rooted ⟨changedEq, unresolved⟩ with ⟨held, heldOpen, -⟩ | ⟨absent, -⟩
  · have same := Option.some.inj (found.symm.trans heldOpen.1)
    rw [same, heldOpen.2] at settled
    cases settled
  · rw [found] at absent
    cases absent

theorem Judged.root_row {work : BoundaryWork} {store : BoundaryStore} {closed : ProposalClose}
    {input : RatifyInput} (judged : Judged work store closed input ledger after)
    (rooted : Rooted ledger) {purpose : GovPurpose} {id : GovActionId}
    (rootEq : after.roots.root purpose = some id) :
    ∃ key state, after.proposals.get? key = some state ∧ state.govActionId = id ∧
      state.isUnresolvedAtClose after.epoch = false := by
  have planted := judged.planted rooted
  rw [judged.kept, planted.root_of_accepted] at rootEq
  cases wonEq : lastEnacted (work.liveForest store (work.snapshot store)) (ratify input).enacted
    purpose with
  | none =>
      rw [wonEq, Option.none_or, judged.roots] at rootEq
      exact rooted.root_row judged.step rootEq
  | some winner =>
      rw [wonEq, Option.some_or] at rootEq
      cases rootEq
      rcases planted.exists_winner wonEq with ⟨proposal, accepted, -, idEq⟩
      have member := planted.accepted proposal accepted
      rcases judged.exists_open member with ⟨key, state, opened, lives⟩
      have enacted := (judged.enacted_iff rooted member lives).mpr accepted
      rcases judged.step.row_stays rooted.keyed opened.1 with ⟨changed, changedEq, sameId⟩
      refine ⟨key, changed, changedEq, ?_, ?_⟩
      · rw [sameId, ← lives.id, idEq]
      · rw [Bool.eq_false_iff]
        intro unresolved
        have silent := ((judged.step.close_open rooted).mp ⟨changedEq, unresolved⟩).2.1
        rw [enacted] at silent
        cases silent

theorem Rooted.step (rooted : Rooted ledger) (step : GovStep event ledger after) :
    Rooted after := by
  have settling := (settling_of_start rooted.keyed rooted.ratified rooted.canceled).step step
  refine ⟨settling.keyed, settling.ratified, settling.canceled, ?_, ?_⟩
  · intro key changed opened
    rcases step.open_origin rooted opened with ⟨state, held, same⟩ | ⟨-, submission, -, rfl⟩
    · rw [same.purpose, same.action]
      exact rooted.recorded key state held
    · exact parseGovAction_purpose submission.action
  · intro purpose id rootEq
    cases event with
    | propose submission =>
        rw [step.propose_rows.2.1] at rootEq
        exact rooted.root_row step rootEq
    | vote delta =>
        rw [step.vote_rows.2.1] at rootEq
        exact rooted.root_row step rootEq
    | close work store closed =>
        rcases step.judged_or_silent rooted with ⟨-, rootsEq⟩ | ⟨input, judged⟩
        · rw [rootsEq] at rootEq
          exact rooted.root_row step rootEq
        · exact judged.root_row rooted rootEq

theorem Rooted.run {events : List GovEvent} (path : Path GovStep events ledger after)
    (rooted : Rooted ledger) : Rooted after := by
  induction path with
  | nil => exact rooted
  | cons stepped _ ih => exact ih (rooted.step stepped)

omit [AddressDecoding] in
/-- Between boundaries open proposals stay open and the roots stay. -/
theorem GovLedger.Supports.within {state changed : ProposalState}
    (supports : ledger.Supports state) (rootsEq : after.roots = ledger.roots)
    (stays : ∀ key held, ledger.Open key held → ∃ row, after.Open key row ∧ SameBut held row)
    (parentEq : changed.parent = state.parent) (purposeEq : changed.purpose = state.purpose) :
    after.Supports changed := by
  intro purpose purposed
  rw [purposeEq] at purposed
  rcases supports purpose purposed with
    named | ⟨parentKey, parent, parentOpen, parentPurpose, named⟩
  · left
    rw [parentEq, named, rootsEq]
  · right
    rcases stays parentKey parent parentOpen with ⟨row, rowOpen, same⟩
    refine ⟨parentKey, row, rowOpen, same.purpose.trans parentPurpose, ?_⟩
    rw [parentEq, named]
    simp only [ProposalState.govActionId, same.tx, same.idx]

theorem ForestClosed.step (forest : ForestClosed ledger) (rooted : Rooted ledger)
    (step : GovStep event ledger after) (meets : ForestMeets event ledger) :
    ForestClosed after := by
  cases event with
  | close work store closed => exact forest.close rooted step meets
  | propose submission =>
      rcases step.propose_rows with ⟨epochEq, rootsEq, fresh, rows⟩
      have stays : ∀ key held, ledger.Open key held → ∃ row, after.Open key row ∧
          SameBut held row := by
        intro key held opened
        refine ⟨held, ⟨?_, ?_⟩, SameBut.refl held⟩
        · rw [rows key, if_neg]
          · exact opened.1
          · rintro rfl
            have found := opened.1
            rw [fresh] at found
            cases found
        · rw [epochEq]
          exact opened.2
      intro key changed opened
      rcases step.open_origin rooted opened with ⟨state, held, same⟩ | ⟨-, proposed, eventEq, rfl⟩
      · exact (forest key state held).within rootsEq stays same.parent same.purpose
      · cases eventEq
        exact GovLedger.Supports.within meets rootsEq stays rfl rfl
  | vote delta =>
      rcases step.vote_rows with ⟨epochEq, rootsEq, rows⟩
      have stays : ∀ key held, ledger.Open key held → ∃ row, after.Open key row ∧
          SameBut held row := by
        intro key held opened
        have row := rows key
        rw [opened.1] at row
        rcases row with ⟨changed, changedEq, same⟩
        refine ⟨changed, ⟨changedEq, ?_⟩, same⟩
        have unresolved := opened.2
        rw [epochEq]
        simpa only [ProposalState.isUnresolvedAtClose, same.ratifiedEpoch, same.canceledEpoch,
          same.maxEpoch] using unresolved
      intro key changed opened
      rcases step.open_origin rooted opened with ⟨state, held, same⟩ | ⟨-, proposed, eventEq, -⟩
      · exact (forest key state held).within rootsEq stays same.parent same.purpose
      · cases eventEq

end Steps

section Runs

variable [AddressDecoding]

theorem forestClosed_run {start final : GovLedger} {events : List GovEvent}
    (path : Path (fun event before next => GovStep event before next ∧ ForestMeets event before)
      events start final) (rooted : Rooted start) (forest : ForestClosed start) :
    ForestClosed final := by
  induction path with
  | nil => exact forest
  | cons stepped _ ih =>
      exact ih (rooted.step stepped.1) (forest.step rooted stepped.1 stepped.2)

/-- Every boundary of a run that begins with a closed forest and orphans no proposal leaves
a closed forest, and so does every run whose boundaries are such and whose blocks submit
proposals with a parent. -/
theorem forest_stays_closed {start : GovLedger} (rooted : Rooted start) :
    (∀ events ledger after work store closed, Path GovStep events start ledger →
      GovStep (.close work store closed) ledger after → ForestClosed ledger → NoOrphans ledger →
        ForestKept closed ledger after) ∧
      ∀ events final, ForestClosed start →
        Path (fun event before next => GovStep event before next ∧ ForestMeets event before)
          events start final → ForestClosed final := by
  constructor
  · intro events ledger after work store closed path step forest noOrphans
    have rootedLedger := Rooted.run path rooted
    exact (forest.close rootedLedger step noOrphans).kept rootedLedger step
  · intro events final forest path
    exact forestClosed_run path rooted forest

end Runs

section Sample

/-- A parameter change on a given parent, open to votes for one epoch after its own. -/
def changeOn (tx : BlockHash) (parent : Option GovActionId) : Submission where
  slot := 1000
  tx := tx
  idx := 0
  action := .parameterChange parent ⟨[⟨.keyDeposit, .amount 5⟩]⟩
  deposit := 500
  rewardAccount := .addrKeyhash 7
  validityPeriod := some 1
  networkMagic := 1
  protocol := 9
  anchor := ⟨"", 0⟩

def elder : Submission := changeOn (2 ^ 32) none

/-- A change on top of the elder one, which comes an epoch later. -/
def younger : Submission := changeOn (2 * 2 ^ 32) (some ⟨2 ^ 32, 0⟩)

def elderKey : EntityKey := ProposalState.buildEntityKey (2 ^ 32) 0

def youngerKey : EntityKey := ProposalState.buildEntityKey (2 * 2 ^ 32) 0

def elderRow : ProposalState := (elder.delta 10).proposed

def youngerRow : ProposalState := (younger.delta 11).proposed

def elderRows : OrderedMap EntityKey ProposalState := .ofList [(elderKey, elderRow)]

def bothRows : OrderedMap EntityKey ProposalState := elderRows.set youngerKey (some youngerRow)

/-- A ledger without roots. -/
def rootless (epoch : ℕ) (rows : OrderedMap EntityKey ProposalState) : GovLedger :=
  ⟨epoch, ⟨none, none, none, none⟩, rows⟩

/-- A boundary that rules on nothing. -/
def idling (epoch : ℕ) (rows : OrderedMap EntityKey ProposalState) : GovEvent :=
  .close (workWith epoch (some (distrOf (epoch - 1)))) (storeOf rows)
    ⟨.default, rows, some (govWith (some (distrOf (epoch - 1)))), 0, 0⟩

def orphaning : ProposalClose :=
  ⟨⟨.ofList [(elderKey, .expired)], []⟩,
    bothRows.set elderKey (some { elderRow with canceledEpoch := some 13 }),
    some (govWith (some (distrOf 11))), 0, 500⟩

def bothProposed : List GovEvent := [.propose elder, idling 10 elderRows, .propose younger]

theorem elderStep :
    @GovStep noAddresses (.propose elder) (rootless 10 ∅) (rootless 10 elderRows) :=
  @GovStep.propose noAddresses _ _ _ rfl rfl

theorem bothProposed_path :
    Path (@GovStep noAddresses) bothProposed (rootless 10 ∅) (rootless 11 bothRows) := by
  have idle : @GovStep noAddresses (idling 10 elderRows) (rootless 10 elderRows)
      (rootless 11 elderRows) :=
    @GovStep.close noAddresses (rootless 10 elderRows) _ _ _ (govWith (some (distrOf 9)))
      rfl rfl rfl rfl rfl rfl
  have youngerStep : @GovStep noAddresses (.propose younger) (rootless 11 elderRows)
      (rootless 11 bothRows) :=
    @GovStep.propose noAddresses _ _ _ rfl rfl
  exact .cons elderStep (.cons idle (.cons youngerStep (.nil _)))

theorem rootless_rooted : Rooted (rootless 10 ∅) := by
  have empty : ∀ key state, (rootless 10 ∅).proposals.get? key ≠ some state := by
    intro key state found
    simp [rootless] at found
  refine ⟨?_, ?_, ?_, ?_, ?_⟩
  · intro key state found
    exact absurd found (empty key state)
  · intro key state found
    exact absurd found (empty key state)
  · intro key state found
    exact absurd found (empty key state)
  · intro key state opened
    exact absurd opened.1 (empty key state)
  · intro purpose id rootEq
    cases purpose <;> cases rootEq

theorem open_bothRows {epoch : ℕ} {key : EntityKey} {state : ProposalState}
    (opened : (rootless epoch bothRows).Open key state) :
    key = elderKey ∧ state = elderRow ∨ key = youngerKey ∧ state = youngerRow := by
  have found : bothRows.get? key = some state := opened.1
  rw [bothRows, OrderedMap.get?_set] at found
  split_ifs at found with isYounger
  · exact Or.inr ⟨isYounger, (Option.some.inj found).symm⟩
  · left
    have member := (OrderedMap.get?_ofList_iff (by simp)).mp found
    simpa using member

theorem bothRows_closed {epoch : ℕ} (elderOpen : (rootless epoch bothRows).Open elderKey elderRow) :
    ForestClosed (rootless epoch bothRows) := by
  intro key state opened purpose purposeEq
  rcases open_bothRows opened with ⟨rfl, rfl⟩ | ⟨rfl, rfl⟩
  · left
    cases purposeEq
    rfl
  · right
    cases purposeEq
    exact ⟨elderKey, elderRow, elderOpen, rfl, rfl⟩

theorem idle_eleven :
    @GovStep noAddresses (idling 11 bothRows) (rootless 11 bothRows) (rootless 12 bothRows) :=
  @GovStep.close noAddresses (rootless 11 bothRows) _ _ _ (govWith (some (distrOf 10)))
    rfl rfl rfl rfl rfl rfl

/-- A change of the same epoch that comes before the elder one. -/
def rival : Submission := { changeOn (3 * 2 ^ 32) none with slot := 999 }

def rivalKey : EntityKey := ProposalState.buildEntityKey (3 * 2 ^ 32) 0

def rivalRow : ProposalState := (rival.delta 10).proposed

def rivalRows : OrderedMap EntityKey ProposalState := elderRows.set rivalKey (some rivalRow)

def allRows : OrderedMap EntityKey ProposalState := rivalRows.set youngerKey (some youngerRow)

theorem open_rivalRows {epoch : ℕ} {key : EntityKey} {state : ProposalState}
    (opened : (rootless epoch rivalRows).Open key state) : state = elderRow ∨ state = rivalRow := by
  have found : rivalRows.get? key = some state := opened.1
  rw [rivalRows, OrderedMap.get?_set] at found
  split_ifs at found
  · exact Or.inr (Option.some.inj found).symm
  · left
    have member := (OrderedMap.get?_ofList_iff (by simp)).mp found
    simp only [List.mem_singleton, Prod.mk.injEq] at member
    exact member.2

theorem open_allRows {epoch : ℕ} {key : EntityKey} {state : ProposalState}
    (opened : (rootless epoch allRows).Open key state) :
    state = elderRow ∨ state = rivalRow ∨ state = youngerRow := by
  have found : allRows.get? key = some state := opened.1
  rw [allRows, OrderedMap.get?_set] at found
  split_ifs at found
  · exact Or.inr (Or.inr (Option.some.inj found).symm)
  · have before : (rootless epoch rivalRows).Open key state := ⟨found, opened.2⟩
    rcases open_rivalRows before with isElder | isRival
    · exact Or.inl isElder
    · exact Or.inr (Or.inl isRival)

/-- While all votes are still on, none is orphaned. -/
theorem noOrphans_of_timely {ledger : GovLedger}
    (timely : ∀ key state, ledger.Open key state → ∀ last ∈ state.maxEpoch, ledger.epoch ≤ last) :
    NoOrphans ledger := by
  intro parentKey parent key child purpose last parentOpen _ _ _ _ lastEq past
  exact absurd past (not_lt.mpr (timely parentKey parent parentOpen last lastEq))

theorem rivalRows_noOrphans : NoOrphans (rootless 10 rivalRows) := by
  apply noOrphans_of_timely
  intro key state opened last lastEq
  rcases open_rivalRows opened with rfl | rfl <;> cases lastEq <;> decide

theorem allRows_noOrphans : NoOrphans (rootless 11 allRows) := by
  apply noOrphans_of_timely
  intro key state opened last lastEq
  rcases open_allRows opened with rfl | rfl | rfl <;> cases lastEq <;> decide

/-- The elder change and its rival come in epoch 10, the younger one after the boundary. -/
theorem allProposed_path :
    Path (fun event before next => @GovStep noAddresses event before next ∧
        ForestMeets event before)
      [.propose elder, .propose rival, idling 10 rivalRows, .propose younger]
      (rootless 10 ∅) (rootless 11 allRows) := by
  have rivalStep : @GovStep noAddresses (.propose rival) (rootless 10 elderRows)
      (rootless 10 rivalRows) :=
    @GovStep.propose noAddresses _ _ _ rfl rfl
  have idle : @GovStep noAddresses (idling 10 rivalRows) (rootless 10 rivalRows)
      (rootless 11 rivalRows) :=
    @GovStep.close noAddresses (rootless 10 rivalRows) _ _ _ (govWith (some (distrOf 9)))
      rfl rfl rfl rfl rfl rfl
  have youngerStep : @GovStep noAddresses (.propose younger) (rootless 11 rivalRows)
      (rootless 11 allRows) :=
    @GovStep.propose noAddresses _ _ _ rfl rfl
  refine .cons ⟨elderStep, ?_⟩ (.cons ⟨rivalStep, ?_⟩ (.cons ⟨idle, rivalRows_noOrphans⟩
    (.cons ⟨youngerStep, ?_⟩ (.nil _))))
  · intro purpose purposeEq
    cases purposeEq
    exact Or.inl rfl
  · intro purpose purposeEq
    cases purposeEq
    exact Or.inl rfl
  · intro purpose purposeEq
    cases purposeEq
    exact Or.inr ⟨elderKey, elderRow, ⟨rfl, rfl⟩, rfl, rfl⟩

/-- The boundary of epoch 11, with a committee that asks for no vote. -/
def seated : BoundaryWork :=
  { workWith 11 (some (distrOf 10)) with
    gov := { govWith (some (distrOf 10)) with committee := some ⟨∅, ⟨0, 1⟩⟩ } }

/-- The rival is enacted: the elder change goes, and with it the younger one, which was not
even up for a vote. -/
theorem forest_stays_closed_allRows :
    ∃ closed after,
      @GovStep noAddresses (.close seated (storeOf allRows) closed) (rootless 11 allRows) after ∧
        closed.ruling.outcomes.get? rivalKey = some .enacted ∧
        Removes closed (rootless 11 allRows) after (elderKey, elderRow) ∧
        Removes closed (rootless 11 allRows) after (youngerKey, youngerRow) ∧
        ForestClosed after := by
  rcases @forest_stays_closed noAddresses _ rootless_rooted with ⟨boundaries, runs⟩
  have start : ForestClosed (rootless 10 ∅) := by
    intro key state opened
    have found : (∅ : OrderedMap EntityKey ProposalState).get? key = some state := opened.1
    cases found
  have reached := runs _ _ start allProposed_path
  have evaluated : (fun closed : ProposalClose => (closed.ruling.outcomes.get? rivalKey,
      closed.ruling.outcomes.get? elderKey,
      (closed.proposals.get? elderKey).map ProposalState.canceledEpoch, closed.gov.isSome)) <$>
        (@BoundaryWork.closeProposals noAddresses seated (storeOf allRows)) =
      .ok (some .enacted, some .prunedSibling, some (some 12), true) := by
    decide +kernel
  rcases map_eq_ok.mp evaluated with ⟨closed, done, same⟩
  simp only [Prod.mk.injEq] at same
  rcases same with ⟨enacted, pruned, canceled, kept⟩
  rcases Option.isSome_iff_exists.mp kept with ⟨gov, govEq⟩
  have step : @GovStep noAddresses (.close seated (storeOf allRows) closed) (rootless 11 allRows)
      ⟨12, gov.prevGovActionIds, closed.proposals⟩ :=
    @GovStep.close noAddresses (rootless 11 allRows) _ _ _ gov rfl rfl rfl rfl done govEq
  have steps := allProposed_path.mono fun _ _ _ stepped => stepped.1
  have forest := boundaries _ _ _ _ _ _ steps step reached allRows_noOrphans
  have elderOpen : (rootless 11 allRows).Open elderKey elderRow := ⟨rfl, rfl⟩
  have removed : Removes closed (rootless 11 allRows)
      ⟨12, gov.prevGovActionIds, closed.proposals⟩ (elderKey, elderRow) := by
    refine ⟨elderOpen, ?_, ?_⟩
    · rintro ⟨found, -⟩
      have held : closed.proposals.get? elderKey = some elderRow := found
      rw [held] at canceled
      cases canceled
    · rw [pruned]
      decide
  have child : (rootless 11 allRows).ChildOf (youngerKey, youngerRow) (elderKey, elderRow) :=
    ⟨⟨rfl, rfl⟩, elderOpen, rfl, _, rfl, rfl⟩
  exact ⟨closed, _, step, enacted, removed, forest.descendants _ removed _ (.single child),
    forest.forest⟩

/-- The elder change expires at the boundary of epoch 12, and the younger one stays open
with a parent that is neither a root nor open. -/
theorem forest_orphaned :
    Rooted (rootless 10 ∅) ∧
      Path (@GovStep noAddresses) (bothProposed ++ [idling 11 bothRows]) (rootless 10 ∅)
        (rootless 12 bothRows) ∧
      ForestClosed (rootless 12 bothRows) ∧
      @GovStep noAddresses (.close (workWith 12 (some (distrOf 11))) (storeOf bothRows) orphaning)
        (rootless 12 bothRows) (rootless 13 orphaning.proposals) ∧
      ¬ForestClosed (rootless 13 orphaning.proposals) := by
  refine ⟨rootless_rooted, ?_, ?_, ?_, ?_⟩
  · exact bothProposed_path.append (.cons idle_eleven (.nil _))
  · exact bothRows_closed ⟨rfl, rfl⟩
  · exact @GovStep.close noAddresses (rootless 12 bothRows) _ _ _ (govWith (some (distrOf 11)))
      rfl rfl rfl rfl rfl rfl
  · intro forest
    have opened : (rootless 13 orphaning.proposals).Open youngerKey youngerRow := ⟨rfl, rfl⟩
    rcases forest youngerKey youngerRow opened .pparamUpdate rfl with
      rootEq | ⟨parentKey, parent, parentOpen, -, named⟩
    · cases rootEq
    · have found : (bothRows.set elderKey
          (some { elderRow with canceledEpoch := some 13 })).get? parentKey = some parent :=
        parentOpen.1
      rw [OrderedMap.get?_set] at found
      split_ifs at found with isElder
      · cases found
        cases parentOpen.2
      · have openBefore : (rootless 12 bothRows).Open parentKey parent :=
          ⟨found, unresolved_mono (Nat.le_succ 12) parentOpen.2⟩
        rcases open_bothRows openBefore with ⟨rfl, -⟩ | ⟨-, rfl⟩
        · exact isElder rfl
        · exact absurd named (by decide)

end Sample

end Dolos
