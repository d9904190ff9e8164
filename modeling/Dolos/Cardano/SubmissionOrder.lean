import Mathlib.Data.ZMod.Defs
import Dolos.Cardano.Deposits
import Dolos.Lib.TwoOrders

/-!
# The order of the proposals of a boundary

The engine takes the proposals by their priority and, within one, by the slot, the hash of
the transaction and the index of the action; legacy updates are enacted by the slot and the
index. The position of a transaction in its block is not kept, so the order is the one of the
chain wherever two proposals are of different slots or of one transaction, and between two
transactions of one block the engine goes by their hashes.
-/

namespace Dolos

/-- Where the transactions of a slot stand in its block. -/
structure TxPositions where
  position : ℕ → BlockHash → ℕ
  injective : ∀ slot, Function.Injective (position slot)

namespace TxPositions

variable (positions : TxPositions)

/-- The place of an action on chain. -/
def place (slot : ℕ) (tx : BlockHash) (idx : ℕ) : ℕ ×ₗ ℕ ×ₗ ℕ :=
  toLex (slot, toLex (positions.position slot tx, idx))

/-- The place compared with a key that has something else for the position. -/
theorem place_lt_iff {slot slot' : ℕ} {tx tx' : BlockHash} {idx idx' : ℕ} :
    positions.place slot tx idx < positions.place slot' tx' idx' ↔
      slot < slot' ∨ slot = slot' ∧ (positions.position slot tx < positions.position slot tx' ∨
        tx = tx' ∧ idx < idx') := by
  unfold place
  rw [Prod.Lex.toLex_lt_toLex, Prod.Lex.toLex_lt_toLex]
  constructor
  · rintro (less | ⟨same, rest⟩)
    · exact .inl less
    · obtain rfl : slot = slot' := same
      rcases rest with less | ⟨same, less⟩
      · exact .inr ⟨rfl, .inl less⟩
      · exact .inr ⟨rfl, .inr ⟨positions.injective slot same, less⟩⟩
  · rintro (less | ⟨rfl, less | ⟨rfl, less⟩⟩)
    · exact .inl less
    · exact .inr ⟨rfl, .inl less⟩
    · exact .inr ⟨rfl, .inr ⟨rfl, less⟩⟩

end TxPositions

namespace RatifyProposal

def slot (proposal : RatifyProposal) : ℕ := (ofLex proposal.order).1

def tx (proposal : RatifyProposal) : BlockHash := (ofLex (ofLex proposal.order).2).1

def idx (proposal : RatifyProposal) : ℕ := (ofLex (ofLex proposal.order).2).2

def SamePriority (first second : RatifyProposal) : Prop :=
  actionPriority first.action = actionPriority second.action

/-- Whenever two proposals of one priority are of two transactions of a block, the earlier
transaction has the smaller hash. -/
def HashesAgree (positions : TxPositions) (proposals : List RatifyProposal) : Prop :=
  ∀ first ∈ proposals, ∀ second ∈ proposals, SamePriority first second →
    first.slot = second.slot →
      positions.position first.slot first.tx < positions.position first.slot second.tx →
        first.tx < second.tx

def place (positions : TxPositions) (proposal : RatifyProposal) : ℕ ×ₗ ℕ ×ₗ ℕ :=
  positions.place proposal.slot proposal.tx proposal.idx

theorem order_lt_iff {first second : RatifyProposal} :
    first.order < second.order ↔ first.slot < second.slot ∨ first.slot = second.slot ∧
      (first.tx < second.tx ∨ first.tx = second.tx ∧ first.idx < second.idx) := by
  rw [Prod.Lex.lt_iff, Prod.Lex.lt_iff]
  rfl

end RatifyProposal

section Engine

open RatifyProposal

variable {input : RatifyInput}

theorem ordered_byRank (input : RatifyInput) :
    input.ordered.Pairwise fun a b => a.rank ≤ b.rank :=
  List.pairwise_insertionSort (fun a b : RatifyProposal => a.rank ≤ b.rank) input.proposals

theorem ordered_byPriority (input : RatifyInput) :
    input.ordered.Pairwise fun first second =>
      actionPriority first.action ≤ actionPriority second.action := by
  refine (ordered_byRank input).imp ?_
  intro first second le
  exact Prod.Lex.monotone_fst _ _ le

theorem ordered_byOrder (input : RatifyInput) :
    input.ordered.Pairwise fun first second =>
      SamePriority first second → first.order ≤ second.order := by
  refine (ordered_byRank input).imp ?_
  intro first second le same
  rcases Prod.Lex.le_iff.mp le with less | ⟨-, order⟩
  · exact absurd same (ne_of_lt less)
  · exact order

/-- The engine follows the chain exactly when the hashes do. -/
theorem ordered_onChain_iff (positions : TxPositions) :
    (input.ordered.Pairwise fun first second =>
      SamePriority first second → first.place positions ≤ second.place positions) ↔
      HashesAgree positions input.proposals := by
  rw [pairwise_iff_agree RatifyProposal.order (RatifyProposal.place positions)
    (fun a b same => same.symm) (ordered_byOrder input)]
  · simp only [mem_ordered]
    constructor
    · intro agree first isFirst second isSecond same sameSlot earlier
      have less := agree first isFirst second isSecond same
        ((positions.place_lt_iff).mpr (.inr ⟨sameSlot, .inl earlier⟩))
      rcases order_lt_iff.mp less with slotLess | ⟨-, txLess | ⟨txSame, -⟩⟩
      · omega
      · exact txLess
      · rw [txSame] at earlier
        exact absurd earlier (lt_irrefl _)
    · intro agree first isFirst second isSecond same less
      apply order_lt_iff.mpr
      rcases (positions.place_lt_iff).mp less with slotLess | ⟨sameSlot, earlier | within⟩
      · exact .inl slotLess
      · exact .inr ⟨sameSlot, .inl (agree first isFirst second isSecond same sameSlot earlier)⟩
      · exact .inr ⟨sameSlot, .inr within⟩
  · intro first _ second _ same
    simp only [RatifyProposal.place, RatifyProposal.slot, RatifyProposal.tx, RatifyProposal.idx,
      same]

theorem foldl_ratifyStep_ids (proposals : List RatifyProposal) (loop : RatifyLoop) :
    (proposals.foldl (ratifyStep input) loop).verdicts.map ProposalRatification.id =
      loop.verdicts.map ProposalRatification.id ++ proposals.map RatifyProposal.id := by
  induction proposals generalizing loop with
  | nil => simp
  | cons proposal rest ih =>
      rw [List.foldl_cons, ih]
      by_cases verdict : (tally input loop.run proposal).accepted = true
      · simp [ratifyStep, verdict]
      · simp [ratifyStep, verdict]

/-- Every proposal is judged once, in the order taken, and enacted in that order. -/
theorem ratify_inOrder (input : RatifyInput) :
    (ratify input).verdicts.map ProposalRatification.id = input.ordered.map RatifyProposal.id ∧
      (ratify input).enacted.Sublist (input.ordered.map RatifyProposal.id) := by
  refine ⟨?_, ?_⟩
  · have ids := @foldl_ratifyStep_ids input input.ordered ⟨input.start, [], []⟩
    simpa [ratify, ratifyLoop] using ids
  · have enacted := @foldl_ratifyStep_enacted input input.ordered ⟨input.start, [], []⟩
    have enactedEq : (ratify input).enacted =
        (acceptedOf input input.start input.ordered).map RatifyProposal.id := by
      simpa [ratify, ratifyLoop] using enacted
    rw [enactedEq]
    exact (acceptedOf_sublist _ _).map _

end Engine

section PreConway

namespace ProposalState

def place (positions : TxPositions) (state : ProposalState) : ℕ ×ₗ ℕ ×ₗ ℕ :=
  positions.place state.slot state.tx state.idx.val

end ProposalState

namespace BoundaryWork

variable {work : BoundaryWork} {store : BoundaryStore}

/-- The rows of the legacy updates a boundary enacts. -/
def legacyRows (work : BoundaryWork) (store : BoundaryStore) : List (EntityKey × ProposalState) :=
  store.proposals.entries.filter fun entry =>
    entry.2.isUnresolvedAtClose work.closing &&
      decide ((work.curatedUpdate entry.2.govActionId).or entry.2.proposedIn = some work.closing)

/-- They are enacted by slot, then by index. -/
def legacyOrder (entry : EntityKey × ProposalState) : ℕ ×ₗ Fin (2 ^ 32) :=
  toLex (entry.2.slot, entry.2.idx)

def legacyOrdered (work : BoundaryWork) (store : BoundaryStore) :
    List (EntityKey × ProposalState) :=
  (work.legacyRows store).insertionSort fun a b => legacyOrder a ≤ legacyOrder b

theorem resolvePreConway_order :
    (work.resolvePreConway store).enactmentOrder = (work.legacyOrdered store).map Prod.fst := rfl

theorem legacyOrdered_ascending :
    (work.legacyOrdered store).Pairwise fun a b => legacyOrder a ≤ legacyOrder b :=
  List.pairwise_insertionSort (fun a b => legacyOrder a ≤ legacyOrder b) _

/-- Updates of different slots, and those of one transaction, are in the order of the
chain. -/
theorem legacyOrdered_onChain (positions : TxPositions) :
    (work.legacyOrdered store).Pairwise fun first second =>
      first.2.slot ≠ second.2.slot ∨ first.2.tx = second.2.tx →
        first.2.place positions ≤ second.2.place positions := by
  refine legacyOrdered_ascending.imp ?_
  intro first second le told
  rcases Prod.Lex.toLex_le_toLex.mp le with slotLess | ⟨sameSlot, idxLe⟩
  · exact le_of_lt ((positions.place_lt_iff).mpr (Or.inl slotLess))
  · have sameTx : first.2.tx = second.2.tx := told.resolve_left fun differ => differ sameSlot
    rcases idxLe.lt_or_eq with less | same
    · exact le_of_lt ((positions.place_lt_iff).mpr (Or.inr ⟨sameSlot, Or.inr ⟨sameTx, less⟩⟩))
    · have samePlace : first.2.place positions = second.2.place positions := by
        simp only at sameSlot same
        simp only [ProposalState.place, sameSlot, sameTx, same]
      exact le_of_eq samePlace

end BoundaryWork

end PreConway

section Boundary

open RatifyProposal BoundaryWork

variable [AddressDecoding]

/-- A boundary whose input could be built is ruled by the engine. -/
theorem BoundaryWork.runRatification_of_built {work : BoundaryWork} {store : BoundaryStore}
    {input : RatifyInput} (built : work.buildRatifyInput store = .ok (some input)) :
    work.runRatification store = .ok (work.rule store input) := by
  have active : work.govActive ≠ false := by
    intro inactive
    simp [buildRatifyInput, ratifyDistr, inactive] at built
  rw [runRatification, if_neg active, built]
  rfl

/-- The engine takes the proposals of a boundary by priority and then in the order of the
keys the rows hold, which is the order of the chain exactly when hashes and positions agree,
and the boundary enacts in the order taken. Before Conway it enacts its legacy updates by slot
and index. -/
theorem submission_order (positions : TxPositions) (work : BoundaryWork)
    (store : BoundaryStore) :
    (∀ input, work.buildRatifyInput store = .ok (some input) →
      input.ordered.Perm (work.snapshot store) ∧
      (ratify input).verdicts.map ProposalRatification.id =
        input.ordered.map RatifyProposal.id ∧
      (ratify input).enacted.Sublist (input.ordered.map RatifyProposal.id) ∧
      (input.ordered.Pairwise fun first second =>
        actionPriority first.action ≤ actionPriority second.action) ∧
      (input.ordered.Pairwise fun first second =>
        SamePriority first second → first.order ≤ second.order) ∧
      ((input.ordered.Pairwise fun first second =>
          SamePriority first second → first.place positions ≤ second.place positions) ↔
        HashesAgree positions (work.snapshot store)) ∧
      ∃ ruling, work.runRatification store = .ok ruling ∧
        ruling.enactmentOrder = (ratify input).enacted.filterMap fun id =>
          (byId input.proposals id).map RatifyProposal.key) ∧
    (work.govActive = false → ∃ ruling, work.runRatification store = .ok ruling ∧
      ruling.enactmentOrder = (work.legacyOrdered store).map Prod.fst) ∧
    (work.legacyOrdered store).Perm (work.legacyRows store) ∧
    ((work.legacyOrdered store).Pairwise fun first second =>
      legacyOrder first ≤ legacyOrder second) ∧
    ((work.legacyOrdered store).Pairwise fun first second =>
      first.2.slot ≠ second.2.slot ∨ first.2.tx = second.2.tx →
        first.2.place positions ≤ second.2.place positions) := by
  refine ⟨?_, ?_, List.perm_insertionSort _ _, legacyOrdered_ascending,
    legacyOrdered_onChain positions⟩
  · intro input built
    have proposalsEq := (buildRatifyInput_spec built).2.2.2
    rw [← proposalsEq]
    exact ⟨List.perm_insertionSort _ _, (ratify_inOrder input).1, (ratify_inOrder input).2,
      ordered_byPriority input, ordered_byOrder input, ordered_onChain_iff positions,
      work.rule store input, runRatification_of_built built, rfl⟩
  · intro inactive
    refine ⟨work.resolvePreConway store, ?_, resolvePreConway_order⟩
    rw [runRatification, if_pos inactive]

end Boundary

section Sample

/-- Two transactions of one block, of which the one with the larger hash comes first. -/
def crossed : TxPositions where
  position := fun _ => fun tx => (Equiv.swap (2 ^ 32) (2 ^ 33) : Equiv.Perm ℕ) tx.val
  injective := fun _ => (Equiv.injective _).comp Fin.val_injective

def crossedSubmission (tx : BlockHash) : Submission := { infoSubmission with tx := tx }

def crossedKey (tx : BlockHash) : EntityKey := ProposalState.buildEntityKey tx 0

def crossedRows : OrderedMap EntityKey ProposalState :=
  .ofList ([2 ^ 33, 2 ^ 32].map fun tx =>
    (crossedKey tx, ((crossedSubmission tx).delta 10).proposed))

def crossedStore : BoundaryStore := storeOf crossedRows

/-- A Shelley boundary: governance never became active. -/
def legacyWork (epoch : ℕ) : BoundaryWork := { workWith epoch none with govActiveSince := none }

/-- An update proposal of a Shelley transaction. -/
def legacyUpdate (slot : ℕ) (tx : BlockHash) : ProposalState :=
  NewProposalV2.proposed
    { slot := slot
      tx := tx
      idx := 0
      action := .paramChange ⟨[]⟩
      deposit := none
      rewardAccount := none
      validityPeriod := none
      currentEpoch := 10
      networkMagic := 1
      protocol := 2
      parent := none
      purpose := none
      anchor := none
      prev := none }

/-- The earlier update has the larger key. -/
def legacyStore : BoundaryStore :=
  storeOf (.ofList [(crossedKey (2 ^ 33), legacyUpdate 1000 (2 ^ 33)),
    (crossedKey (2 ^ 32), legacyUpdate 1001 (2 ^ 32))])

/-- Two actions of one Conway block, and two updates of two Shelley blocks. -/
theorem submission_order_crossed :
    (∃ input : RatifyInput, input.ordered.Perm
        ((workWith 12 (some (distrOf 11))).snapshot crossedStore)) ∧
      ∃ ruling, @BoundaryWork.runRatification noAddresses (legacyWork 10) legacyStore =
          .ok ruling ∧
        ruling.enactmentOrder = [crossedKey (2 ^ 33), crossedKey (2 ^ 32)] := by
  have engine := @submission_order noAddresses crossed (workWith 12 (some (distrOf 11)))
    crossedStore
  have legacy := @submission_order noAddresses crossed (legacyWork 10) legacyStore
  refine ⟨⟨_, (engine.1 _ rfl).1⟩, ?_⟩
  rcases legacy.2.1 rfl with ⟨ruling, done, orderEq⟩
  refine ⟨ruling, done, orderEq.trans ?_⟩
  decide +kernel

/-- The transaction that comes second in the block is judged first. -/
theorem later_transaction_first :
    crossed.place 1000 (2 ^ 33) 0 < crossed.place 1000 (2 ^ 32) 0 ∧
      ∃ input, @BoundaryWork.buildRatifyInput noAddresses (workWith 12 (some (distrOf 11)))
          crossedStore = .ok (some input) ∧
        (ratify input).verdicts.map ProposalRatification.id = [⟨2 ^ 32, 0⟩, ⟨2 ^ 33, 0⟩] := by
  refine ⟨?_, _, rfl, ?_⟩
  · apply TxPositions.place_lt_iff _ |>.mpr
    exact .inr ⟨rfl, .inl (by decide)⟩
  · decide +kernel

end Sample

end Dolos
