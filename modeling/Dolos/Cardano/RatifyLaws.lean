import Mathlib.Data.Rat.Defs
import Mathlib.Algebra.Order.Field.Basic
import Mathlib.Data.Rat.Cast.Order
import Mathlib.Tactic.Positivity
import Dolos.Cardano.Ratify

/-!
# The laws of a ratification run

A run is determined by the proposals it accepts: each was accepted by the
enact-state that the accepted ones before it left, and the final enact-state is
what they leave together. The laws follow from that description alone, by
induction over the accepted proposals.
-/

namespace Dolos

/-- A threshold as a fraction; an empty tally counts as the fraction zero. -/
def RationalNumber.MetBy (threshold : RationalNumber) (yes total : ℕ) : Prop :=
  (threshold.numerator : ℚ) / threshold.denominator ≤ (yes : ℚ) / total

theorem metBy_of_ratioMeets {yes total : ℕ} {threshold : RationalNumber}
    (meets : ratioMeets yes total threshold = true) : threshold.MetBy yes total := by
  unfold ratioMeets at meets
  unfold RationalNumber.MetBy
  split_ifs at meets with zero empty
  · rw [zero]
    simp only [Nat.cast_zero, zero_div]
    positivity
  · have cross : threshold.numerator * total ≤ yes * threshold.denominator := by simpa using meets
    have totalPos : 0 < total := Nat.pos_of_ne_zero empty
    have denominatorPos : 0 < threshold.denominator := by
      apply Nat.pos_of_ne_zero
      intro denominatorZero
      have product : 0 < threshold.numerator * total :=
        Nat.mul_pos (Nat.pos_of_ne_zero zero) totalPos
      rw [denominatorZero] at cross
      omega
    apply (div_le_div_iff₀ (by exact_mod_cast denominatorPos) (by exact_mod_cast totalPos)).mpr
    exact_mod_cast cross

/-- What each body decides, against the enact-state it is asked in. -/
structure MeetsThresholds (input : RatifyInput) (run : RunState) (proposal : RatifyProposal) :
    Prop where
  committee : ∃ threshold ∈ committeeThreshold input run proposal.action,
    threshold.MetBy (tally input run proposal).cc.1 (tally input run proposal).cc.2
  dreps : ∃ threshold ∈ drepThreshold run proposal.action,
    threshold.MetBy (tally input run proposal).drep.1 (tally input run proposal).drep.2
  pools : ∃ threshold ∈ spoThreshold run proposal.action,
    threshold.MetBy (tally input run proposal).spo.1 (tally input run proposal).spo.2.2

section Accepted

variable {input : RatifyInput} {run : RunState} {proposal : RatifyProposal}

theorem Tallies.accepted_iff {tallies : Tallies} :
    tallies.accepted = true ↔
      tallies.prevActionOk ∧ tallies.committeeTermOk ∧ tallies.notDelayed ∧
        tallies.withdrawalOk ∧ tallies.ccAccepted ∧ tallies.spoAccepted ∧
          tallies.drepAccepted := by
  simp only [accepted, Bool.and_eq_true, and_assoc]

theorem exists_metBy {threshold : Option RationalNumber} {yes total : ℕ}
    (accepted : (threshold.any fun held => ratioMeets yes total held) = true) :
    ∃ held ∈ threshold, held.MetBy yes total := by
  cases threshold with
  | none => simp at accepted
  | some held => exact ⟨held, rfl, metBy_of_ratioMeets (by simpa using accepted)⟩

theorem MeetsThresholds.of_accepted (accepted : (tally input run proposal).accepted = true) :
    MeetsThresholds input run proposal := by
  rcases Tallies.accepted_iff.mp accepted with ⟨-, -, -, -, cc, spo, drep⟩
  exact ⟨exists_metBy cc, exists_metBy drep, exists_metBy spo⟩

theorem parent_of_accepted {purpose : GovPurpose}
    (accepted : (tally input run proposal).accepted = true)
    (purposeEq : proposal.action.purpose = some purpose) :
    proposal.parent = run.roots.root purpose := by
  have expected : prevActionAsExpected run proposal = true :=
    (Tallies.accepted_iff.mp accepted).1
  simpa [prevActionAsExpected, purposeEq] using expected

theorem not_delayed_of_accepted (accepted : (tally input run proposal).accepted = true) :
    run.delayed = false := by
  have notDelayed : (!run.delayed) = true := (Tallies.accepted_iff.mp accepted).2.2.1
  simpa using notDelayed

theorem withdrawn_le_of_accepted (accepted : (tally input run proposal).accepted = true) :
    proposal.action.withdrawn ≤ run.treasury := by
  have fits : withdrawalCanWithdraw run proposal.action = true :=
    (Tallies.accepted_iff.mp accepted).2.2.2.1
  cases actionEq : proposal.action with
  | treasuryWithdrawal withdrawals => simpa [withdrawalCanWithdraw, actionEq] using fits
  | _ => simp [ProposalAction.withdrawn]

end Accepted

section Effects

variable {run : RunState} {proposal : RatifyProposal}

@[simp]
theorem enactAction_roots (action : ProposalAction) :
    (enactAction run action).roots = run.roots := by
  cases action <;> rfl

@[simp]
theorem RunState.accept_delayed : (run.accept proposal).delayed = delayingAction proposal.action :=
  rfl

theorem RunState.accept_root (purpose : GovPurpose) :
    (run.accept proposal).roots.root purpose =
      if proposal.action.purpose = some purpose then some proposal.id
      else run.roots.root purpose := by
  cases purposeEq : proposal.action.purpose with
  | none => simp [accept, enact, purposeEq]
  | some held =>
      simp only [accept, enact, purposeEq, enactAction_roots, GovRoots.root_setRoot,
        Option.some.injEq]
      simp only [eq_comm]

theorem RunState.accept_treasury (word : run.treasury < 2 ^ 64)
    (fits : proposal.action.withdrawn ≤ run.treasury) :
    (run.accept proposal).treasury = run.treasury - proposal.action.withdrawn := by
  have unchanged : (run.accept proposal).treasury = (enactAction run proposal.action).treasury := by
    cases purposeEq : proposal.action.purpose <;> simp [accept, enact, purposeEq]
  rw [unchanged]
  cases actionEq : proposal.action with
  | treasuryWithdrawal withdrawals =>
      rw [actionEq] at fits
      simp only [ProposalAction.withdrawn] at fits
      simp only [enactAction, ProposalAction.withdrawn]
      omega
  | _ => simp [enactAction, ProposalAction.withdrawn]

end Effects

/-- Each proposal is accepted by the enact-state the ones before it left. -/
def Enactable (input : RatifyInput) : RunState → List RatifyProposal → Prop
  | _, [] => True
  | run, proposal :: later =>
      (tally input run proposal).accepted = true ∧ Enactable input (run.accept proposal) later

namespace Enactable

variable {input : RatifyInput} {run : RunState} {accepted : List RatifyProposal}

/-- The actions of one purpose lead from its root to its root. -/
theorem parentChain (enactable : Enactable input run accepted) (purpose : GovPurpose) :
    ParentChain RatifyProposal.parent RatifyProposal.id (run.roots.root purpose)
      (accepted.filter fun proposal => proposal.action.purpose = some purpose)
      ((accepted.foldl RunState.accept run).roots.root purpose) := by
  induction accepted generalizing run with
  | nil => simp
  | cons proposal later ih =>
      have rest := ih enactable.2
      rw [RunState.accept_root] at rest
      simp only [List.filter_cons, List.foldl_cons]
      by_cases purposeEq : proposal.action.purpose = some purpose
      · simp only [purposeEq, decide_true, if_true, ParentChain.cons_iff] at rest ⊢
        exact ⟨parent_of_accepted enactable.1 purposeEq, rest⟩
      · simpa only [purposeEq, decide_false, if_false, Bool.false_eq_true] using rest

theorem treasury_add (enactable : Enactable input run accepted) (word : run.treasury < 2 ^ 64) :
    (accepted.foldl RunState.accept run).treasury +
      (accepted.map fun proposal => proposal.action.withdrawn).sum = run.treasury := by
  induction accepted generalizing run with
  | nil => simp
  | cons proposal later ih =>
      have fits := withdrawn_le_of_accepted enactable.1
      have spent := RunState.accept_treasury word fits
      have rest := ih enactable.2 (by omega)
      simp only [List.foldl_cons, List.map_cons, List.sum_cons]
      omega

theorem eq_nil_of_delayed (enactable : Enactable input run accepted)
    (delayed : run.delayed = true) : accepted = [] := by
  cases accepted with
  | nil => rfl
  | cons proposal later =>
      have notDelayed := not_delayed_of_accepted enactable.1
      simp [delayed] at notDelayed

theorem append_iff {before after : List RatifyProposal} :
    Enactable input run (before ++ after) ↔
      Enactable input run before ∧
        Enactable input (before.foldl RunState.accept run) after := by
  induction before generalizing run with
  | nil => simp [Enactable]
  | cons proposal later ih =>
      simp only [List.cons_append, Enactable, List.foldl_cons, ih]
      exact and_assoc.symm

/-- Nothing is accepted after a delaying action. -/
theorem delaying_last {before after : List RatifyProposal} {proposal : RatifyProposal}
    (enactable : Enactable input run (before ++ proposal :: after))
    (delaying : delayingAction proposal.action = true) : after = [] := by
  have later := (append_iff.mp enactable).2.2
  exact eq_nil_of_delayed later (by simpa using delaying)

theorem delaying_length (enactable : Enactable input run accepted) :
    (accepted.filter fun proposal => delayingAction proposal.action).length ≤ 1 := by
  induction accepted generalizing run with
  | nil => simp
  | cons proposal later ih =>
      simp only [List.filter_cons]
      split_ifs with delaying
      · have split : Enactable input run ([] ++ proposal :: later) := enactable
        simp [delaying_last split delaying]
      · exact ih enactable.2

end Enactable

/-- The proposals a run accepts, in the order it takes them. -/
def acceptedOf (input : RatifyInput) : RunState → List RatifyProposal → List RatifyProposal
  | _, [] => []
  | run, proposal :: later =>
      if (tally input run proposal).accepted then
        proposal :: acceptedOf input (run.accept proposal) later
      else acceptedOf input run later

/-- The verdict on a proposal, given the accepted ones. -/
def verdictAmong (input : RatifyInput) (accepted : List RatifyProposal)
    (proposal : RatifyProposal) : Verdict :=
  if proposal ∈ accepted then .accepted
  else if proposal.expiresAfter < input.currentEpoch then .expired
  else .continuing

section Loop

variable {input : RatifyInput}

theorem acceptedOf_sublist (run : RunState) (ordered : List RatifyProposal) :
    (acceptedOf input run ordered).Sublist ordered := by
  induction ordered generalizing run with
  | nil => exact List.Sublist.refl _
  | cons proposal later ih =>
      simp only [acceptedOf]
      split_ifs
      · exact (ih _).cons_cons proposal
      · exact (ih _).cons proposal

theorem enactable_acceptedOf (run : RunState) (ordered : List RatifyProposal) :
    Enactable input run (acceptedOf input run ordered) := by
  induction ordered generalizing run with
  | nil => trivial
  | cons proposal later ih =>
      simp only [acceptedOf]
      split_ifs with verdict
      · exact ⟨verdict, ih _⟩
      · exact ih _

theorem foldl_ratifyStep_run (ordered : List RatifyProposal) (loop : RatifyLoop) :
    (ordered.foldl (ratifyStep input) loop).run =
      (acceptedOf input loop.run ordered).foldl RunState.accept loop.run := by
  induction ordered generalizing loop with
  | nil => rfl
  | cons proposal later ih =>
      simp only [List.foldl_cons, ih, acceptedOf]
      split_ifs with verdict
      · simp [ratifyStep, verdict]
      · simp [ratifyStep, verdict]

theorem foldl_ratifyStep_enacted (ordered : List RatifyProposal) (loop : RatifyLoop) :
    (ordered.foldl (ratifyStep input) loop).enacted =
      loop.enacted ++ (acceptedOf input loop.run ordered).map RatifyProposal.id := by
  induction ordered generalizing loop with
  | nil => simp [acceptedOf]
  | cons proposal later ih =>
      simp only [List.foldl_cons, ih, acceptedOf]
      split_ifs with verdict
      · simp [ratifyStep, verdict]
      · simp [ratifyStep, verdict]

/-- Every proposal gets one verdict, under its own key and id. -/
theorem foldl_ratifyStep_verdicts {ordered : List RatifyProposal} (nodup : ordered.Nodup)
    (loop : RatifyLoop) :
    ((ordered.foldl (ratifyStep input) loop).verdicts.map fun held =>
        (held.key, held.id, held.verdict)) =
      (loop.verdicts.map fun held => (held.key, held.id, held.verdict)) ++
        ordered.map fun proposal =>
          (proposal.key, proposal.id,
            verdictAmong input (acceptedOf input loop.run ordered) proposal) := by
  induction ordered generalizing loop with
  | nil => simp
  | cons proposal later ih =>
      rcases List.nodup_cons.mp nodup with ⟨notLater, laterNodup⟩
      rw [List.foldl_cons, ih laterNodup]
      by_cases verdict : (tally input loop.run proposal).accepted = true
      · have others : ∀ other ∈ later,
            verdictAmong input (proposal :: acceptedOf input (loop.run.accept proposal) later)
                other =
              verdictAmong input (acceptedOf input (loop.run.accept proposal) later) other := by
          intro other member
          have distinct : other ≠ proposal := fun same => notLater (same ▸ member)
          simp [verdictAmong, distinct]
        have own :
            verdictAmong input (proposal :: acceptedOf input (loop.run.accept proposal) later)
              proposal = .accepted := by
          simp [verdictAmong]
        simp only [ratifyStep, acceptedOf, verdict, if_true, List.map_append, List.map_cons,
          List.map_nil, List.append_assoc, List.singleton_append, own]
        congr 2
        apply List.map_congr_left
        intro other member
        rw [others other member]
      · have notAccepted : proposal ∉ acceptedOf input loop.run later := by
          intro member
          exact notLater ((acceptedOf_sublist loop.run later).subset member)
        simp [ratifyStep, acceptedOf, verdict, verdictAmong, notAccepted]

end Loop

/-- The proposals the run accepts, in enactment order. -/
def RatifyInput.accepted (input : RatifyInput) : List RatifyProposal :=
  acceptedOf input input.start input.ordered

/-- The proposals of the snapshot the outcome names as enacted, in that order. -/
def RatifyOutcome.enactedIn (outcome : RatifyOutcome) (input : RatifyInput) :
    List RatifyProposal :=
  outcome.enacted.filterMap (byId input.proposals)

/-- No two proposals share an id, an order key or a store row. -/
structure RatifyInput.Distinct (input : RatifyInput) : Prop where
  ids : (input.proposals.map RatifyProposal.id).Nodup
  orders : (input.proposals.map RatifyProposal.order).Nodup
  keys : (input.proposals.map RatifyProposal.key).Nodup

section Outcome

variable {input : RatifyInput}

theorem ratify_enacted : (ratify input).enacted = input.accepted.map RatifyProposal.id := by
  simp [ratify, ratifyLoop, foldl_ratifyStep_enacted, RatifyInput.accepted]

theorem ratifyLoop_run :
    (ratifyLoop input).run = input.accepted.foldl RunState.accept input.start :=
  foldl_ratifyStep_run _ _

theorem enactable_accepted : Enactable input input.start input.accepted :=
  enactable_acceptedOf _ _

theorem mem_ordered {proposal : RatifyProposal} :
    proposal ∈ input.ordered ↔ proposal ∈ input.proposals :=
  List.mem_insertionSort _

theorem mem_proposals_of_accepted {proposal : RatifyProposal}
    (member : proposal ∈ input.accepted) : proposal ∈ input.proposals :=
  mem_ordered.mp ((acceptedOf_sublist _ _).subset member)

theorem byId_eq_some {proposals : List RatifyProposal} {proposal : RatifyProposal}
    (ids : (proposals.map RatifyProposal.id).Nodup) (member : proposal ∈ proposals) :
    byId proposals proposal.id = some proposal := by
  apply KeyedList.find_of_mem
  · rw [List.map_reverse]
    exact List.nodup_reverse.mpr ids
  · exact List.mem_reverse.mpr member

theorem mem_of_byId {proposals : List RatifyProposal} {id : GovActionId}
    {proposal : RatifyProposal} (found : byId proposals id = some proposal) :
    proposal ∈ proposals ∧ proposal.id = id := by
  simpa using KeyedList.mem_of_find found

theorem enactedIn_eq (ids : (input.proposals.map RatifyProposal.id).Nodup) :
    (ratify input).enactedIn input = input.accepted := by
  have found : ∀ proposal ∈ input.accepted,
      byId input.proposals proposal.id = some proposal := by
    intro proposal member
    exact byId_eq_some ids (mem_proposals_of_accepted member)
  simp only [RatifyOutcome.enactedIn, ratify_enacted, List.filterMap_map]
  calc
    input.accepted.filterMap (byId input.proposals ∘ RatifyProposal.id) =
        input.accepted.filterMap some := List.filterMap_congr found
    _ = input.accepted := List.filterMap_some

/-- With distinct order keys there is one sorted list, whatever the order given. -/
theorem RatifyInput.Distinct.ordered_eq (distinct : input.Distinct)
    {proposals : List RatifyProposal} (perm : proposals.Perm input.proposals) :
    { input with proposals := proposals }.ordered = input.ordered := by
  have permOrdered : ({ input with proposals := proposals }.ordered).Perm input.ordered := by
    apply (List.perm_insertionSort _ proposals).trans
    exact perm.trans (List.perm_insertionSort _ input.proposals).symm
  have sorted : ∀ held : List RatifyProposal,
      (held.insertionSort fun a b => a.rank ≤ b.rank).Pairwise fun a b => a.rank ≤ b.rank := by
    intro held
    have : Std.Total fun a b : RatifyProposal => a.rank ≤ b.rank :=
      ⟨fun a b => le_total a.rank b.rank⟩
    have : IsTrans RatifyProposal fun a b => a.rank ≤ b.rank := ⟨fun _ _ _ => le_trans⟩
    exact List.pairwise_insertionSort _ held
  apply List.Perm.eq_of_pairwise _ (sorted proposals) (sorted input.proposals) permOrdered
  intro a b memberA memberB le ge
  have rankEq : a.rank = b.rank := le_antisymm le ge
  have orderEq : a.order = b.order := congrArg (fun rank => (ofLex rank).2) rankEq
  apply List.inj_on_of_nodup_map distinct.orders _ (mem_ordered.mp memberB) orderEq
  exact perm.mem_iff.mp ((List.mem_insertionSort _).mp memberA)

theorem RatifyInput.Distinct.ratify_perm (distinct : input.Distinct)
    {proposals : List RatifyProposal} (perm : proposals.Perm input.proposals) :
    ratify { input with proposals := proposals } = ratify input := by
  simp only [ratify, ratifyLoop, distinct.ordered_eq perm]
  rfl

theorem isPruned_of_mem_pruned {proposals : List RatifyProposal} {enacted : List GovActionId}
    {proposal : RatifyProposal} (keys : (proposals.map RatifyProposal.key).Nodup)
    (member : proposal ∈ proposals)
    (pruned : proposal.key ∈ prunedByEnactment proposals enacted) :
    isPruned proposals enacted proposal = true := by
  rcases List.mem_map.mp pruned with ⟨other, kept, sameKey⟩
  rcases List.mem_filter.mp kept with ⟨otherMember, otherPruned⟩
  rwa [← List.inj_on_of_nodup_map keys otherMember member sameKey]

theorem not_mem_enacted_of_isPruned {proposals : List RatifyProposal}
    {enacted : List GovActionId} {proposal : RatifyProposal}
    (pruned : isPruned proposals enacted proposal = true) : proposal.id ∉ enacted := by
  simp only [isPruned, Bool.and_eq_true, decide_eq_true_eq] at pruned
  exact pruned.1

theorem ratify_verdicts (distinct : input.proposals.Nodup) :
    ((ratify input).verdicts.map fun held => (held.key, held.id, held.verdict)) =
      input.ordered.map fun proposal =>
        (proposal.key, proposal.id, verdictAmong input input.accepted proposal) := by
  have nodup : input.ordered.Nodup :=
    (List.perm_insertionSort _ _).nodup_iff.mpr distinct
  have spec := @foldl_ratifyStep_verdicts input _ nodup ⟨input.start, [], []⟩
  simpa [ratify, ratifyLoop, RatifyInput.accepted] using spec

end Outcome

/-- What holds of the outcome of a run. -/
structure RatifyLaws (input : RatifyInput) (outcome : RatifyOutcome) : Prop where
  chain : ∀ purpose, ParentChain RatifyProposal.parent RatifyProposal.id
    (input.roots.root purpose)
    ((outcome.enactedIn input).filter fun proposal => proposal.action.purpose = some purpose)
    (outcome.roots.root purpose)
  affordable :
    ((outcome.enactedIn input).map fun proposal => proposal.action.withdrawn).sum ≤ input.treasury
  treasury : outcome.treasury = input.treasury -
    ((outcome.enactedIn input).map fun proposal => proposal.action.withdrawn).sum
  oneDelaying :
    ((outcome.enactedIn input).filter fun proposal => delayingAction proposal.action).length ≤ 1
  delayingLast : ∀ before proposal after,
    outcome.enactedIn input = before ++ proposal :: after →
      delayingAction proposal.action = true → after = []
  thresholds : ∀ before proposal after,
    outcome.enactedIn input = before ++ proposal :: after →
      MeetsThresholds input (before.foldl RunState.accept input.start) proposal
  judged : (outcome.verdicts.map ProposalRatification.id).Perm
    (input.proposals.map RatifyProposal.id)
  oneVerdict : ∀ held ∈ outcome.verdicts, ∀ other ∈ outcome.verdicts, held.id = other.id →
    held.verdict = .accepted → other.verdict ≠ .expired
  notPruned : ∀ proposal ∈ input.proposals, proposal.id ∈ outcome.enacted →
    proposal.key ∉ prunedByEnactment input.proposals outcome.enacted
  orderFree : ∀ proposals, proposals.Perm input.proposals →
    ratify { input with proposals := proposals } = outcome

theorem ratify_laws (input : RatifyInput) (distinct : input.Distinct) :
    RatifyLaws input (ratify input) := by
  have enactedEq := enactedIn_eq distinct.ids
  have budget := enactable_accepted.treasury_add input.treasuryWord
  have treasuryEq : (ratify input).treasury =
      (input.accepted.foldl RunState.accept input.start).treasury :=
    congrArg RunState.treasury ratifyLoop_run
  have startEq : input.start.treasury = input.treasury := rfl
  have judged : (ratify input).verdicts.map ProposalRatification.id =
      input.ordered.map RatifyProposal.id := by
    have triples := congrArg (List.map fun triple => triple.2.1)
      (ratify_verdicts distinct.ids.of_map)
    simpa [List.map_map, Function.comp_def] using triples
  have judgedPerm : ((ratify input).verdicts.map ProposalRatification.id).Perm
      (input.proposals.map RatifyProposal.id) := by
    rw [judged]
    exact (List.perm_insertionSort _ input.proposals).map _
  refine ⟨?_, ?_, ?_, ?_, ?_, ?_, judgedPerm, ?_, ?_, fun _ => distinct.ratify_perm⟩
  · intro purpose
    have rootsEq : (ratify input).roots =
        (input.accepted.foldl RunState.accept input.start).roots :=
      congrArg RunState.roots ratifyLoop_run
    rw [enactedEq, rootsEq]
    exact enactable_accepted.parentChain purpose
  · rw [enactedEq]
    omega
  · rw [enactedEq, treasuryEq]
    omega
  · rw [enactedEq]
    exact enactable_accepted.delaying_length
  · intro before proposal after split delaying
    rw [enactedEq] at split
    have enactable := @enactable_accepted input
    rw [split] at enactable
    exact enactable.delaying_last delaying
  · intro before proposal after split
    rw [enactedEq] at split
    have enactable := @enactable_accepted input
    rw [split] at enactable
    exact MeetsThresholds.of_accepted (Enactable.append_iff.mp enactable).2.1
  · intro held heldMember other otherMember sameId accepted expired
    have nodup := judgedPerm.nodup_iff.mpr distinct.ids
    have same := List.inj_on_of_nodup_map nodup heldMember otherMember sameId
    rw [same, expired] at accepted
    cases accepted
  · intro proposal member enacted pruned
    have isPruned := isPruned_of_mem_pruned distinct.keys member pruned
    exact not_mem_enacted_of_isPruned isPruned enacted

/-- Two parameter changes in one lineage and a withdrawal, with the one committee member
in favour of each. -/
def lineageAndWithdrawal : RatifyInput where
  currentEpoch := 10
  pparams := .default
  treasury := 100
  treasuryWord := by decide
  committee := some ⟨.ofList [(.addrKeyhash 1, 50)], ⟨1, 2⟩⟩
  roots := ⟨none, none, none, none⟩
  committeeAuths := .ofList [(.addrKeyhash 1, .hotCredential (.addrKeyhash 2))]
  drepDistr := ∅
  poolDistr := ∅
  poolTotal := 0
  dreps := ∅
  poolDefaultVotes := ∅
  proposals :=
    [⟨3, ⟨3, 0⟩, .treasuryWithdrawal [(.addrKeyhash 7, 40)], none, 12, toLex (5, toLex (3, 0)),
        .ofList [(.addrKeyhash 2, .yes)], ∅, ∅⟩,
      ⟨2, ⟨2, 0⟩, .paramChange ⟨[⟨.keyDeposit, .amount 5⟩]⟩, some ⟨1, 0⟩, 12,
        toLex (4, toLex (2, 0)), .ofList [(.addrKeyhash 2, .yes)], ∅, ∅⟩,
      ⟨1, ⟨1, 0⟩, .paramChange ⟨[⟨.keyDeposit, .amount 4⟩]⟩, none, 12, toLex (2, toLex (1, 0)),
        .ofList [(.addrKeyhash 2, .yes)], ∅, ∅⟩]

theorem ratify_laws_lineageAndWithdrawal :
    (ratify lineageAndWithdrawal).enacted = [⟨1, 0⟩, ⟨2, 0⟩, ⟨3, 0⟩] ∧
      (ratify lineageAndWithdrawal).treasury = 60 ∧
        RatifyLaws lineageAndWithdrawal (ratify lineageAndWithdrawal) :=
  ⟨by decide +kernel, by decide +kernel,
    ratify_laws lineageAndWithdrawal ⟨by decide, by decide, by decide⟩⟩

end Dolos
