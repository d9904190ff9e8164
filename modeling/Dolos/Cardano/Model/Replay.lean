import Dolos.Cardano.Model.Delta
import Dolos.Core.State

/-!
# Replaying the log

What becomes of a delta between a roll batch and the log: applied, encoded, decoded.
Every undo is exact unless a reference count stood at the top of its range, and
every replay is exact unless it needs the epoch of a minted block, which the
encoding skips.
-/

namespace Dolos

open Outcome Keyed

namespace CardanoDelta

open EntityVariant EntityDelta

/-- The undo fields of a delta as a roll batch emits it. The other deltas overwrite
theirs in every branch of their application. -/
def Unapplied : CardanoDelta → Prop
  | poolRegistration delta => delta.wasNew = false
  | datumRefDecrement delta => delta.prevState = none
  | noncesUpdate delta => delta.previous = none
  | _ => True

/-- No reference count is at the top of its range when the delta adds to it. -/
def Unsaturated (delta : CardanoDelta) (before : Option CardanoEntity) : Prop :=
  match delta with
  | datumRefIncrement _ => ∀ datum, before = some (.datum datum) → datum.refcount < 2 ^ 64 - 1
  | _ => True

/-- The delta does the same without the epoch that its encoding skips. -/
def EpochFree (delta : CardanoDelta) (before : Option CardanoEntity) : Prop :=
  match delta with
  | mintedBlocksInc delta => before = none ∨ delta.epoch = 0
  | _ => True

section Log

variable [NonceCrypto]

/-- The entities held under the key of the delta are of the variant it changes. -/
def Typed (delta : CardanoDelta) (held : Option CardanoEntity) : Prop :=
  ∀ entity ∈ held, entity.ns = (ofLex (key delta)).1

/-- What the log relies on: the applied delta and its decoded form take the effect
back, and the decoded form repeats it without a panic. -/
structure Replays (applied : CardanoDelta) (before after : Option CardanoEntity) : Prop where
  undone : undo applied after = .ok before
  wireUndone : undo applied.wire after = .ok before
  wireReplayed : ∃ again, apply applied.wire before = .ok (again, after)

theorem undo_wire (delta : CardanoDelta) (entity : Option CardanoEntity) :
    undo delta.wire entity = undo delta entity := by
  cases delta <;> rfl

theorem key_wire (delta : CardanoDelta) : key delta.wire = key delta := by
  cases delta <;> rfl

/-- What an application settles about the delta and its entity. -/
structure Applied (delta applied : CardanoDelta) (before after : Option CardanoEntity) : Prop where
  keyed : key applied = key delta
  typed : delta.Typed after
  undone_iff : undo applied after = .ok before ↔ delta.Unsaturated before
  replayed_iff : (∃ again, apply applied.wire before = .ok (again, after)) ↔ delta.EpochFree before

section Variant

variable {D E : Type} [EntityDelta D E] [EntityVariant E]
variable {delta : D} {applied : CardanoDelta} {before after : Option CardanoEntity}

/-- A delta that is faithful on its own entity type, and kept whole by the encoding,
is faithful in the enumeration. -/
theorem applied_of_faithful (wrap : D → CardanoDelta)
    (faithful : ∀ {inner : D} {held reached : Option E},
      apply delta held = .ok (inner, reached) → Faithful delta inner held reached)
    (typed : (wrap delta).Typed before)
    (done : apply (wrap delta) before = .ok (applied, after))
    (keyEq : ∀ d, key (wrap d) = key d := by intros; rfl)
    (applyEq : ∀ d e, apply (wrap d) e = downcastApply wrap d e := by intros; rfl)
    (undoEq : ∀ d e, undo (wrap d) e = downcastUndo d e := by intros; rfl)
    (wireEq : ∀ d, (wrap d).wire = wrap d := by intros; rfl)
    (namespaceEq : (ofLex (key delta)).1 = namespaceOf E := by rfl)
    (unsaturated : (wrap delta).Unsaturated before := by trivial)
    (epochFree : (wrap delta).EpochFree before := by trivial) :
    Applied (wrap delta) applied before after := by
  have variantTyped : ∀ entity ∈ before, entity.ns = namespaceOf E := by
    intro entity held
    rw [typed entity held, keyEq, namespaceEq]
  rw [applyEq] at done
  rcases downcastApply_eq_ok variantTyped done with ⟨inner, held, reached, rfl, rfl, rfl, innerEq⟩
  have kept := faithful innerEq
  refine ⟨?_, ?_, ?_, ?_⟩
  · rw [keyEq, keyEq, kept.keyed]
  · intro entity isReached
    rcases Option.map_eq_some_iff.mp isReached with ⟨state, -, rfl⟩
    rw [keyEq, namespaceEq, ns_inject]
  · rw [undoEq, downcastUndo_eq_iff]
    exact iff_of_true kept.undone unsaturated
  · simp only [wireEq, applyEq]
    exact iff_of_true ((exists_downcastApply_iff wrap).mpr kept.replayed) epochFree

end Variant

variable {delta applied : CardanoDelta} {before after : Option CardanoEntity}

theorem applied_mintedBlocksInc {minted : MintedBlocksInc}
    (typed : (mintedBlocksInc minted).Typed before)
    (done : apply (mintedBlocksInc minted) before = .ok (applied, after)) :
    Applied (mintedBlocksInc minted) applied before after := by
  rcases downcastApply_eq_ok (E := PoolState) typed done with
    ⟨inner, held, reached, rfl, rfl, rfl, innerEq⟩
  refine ⟨?_, ?_, ?_, ?_⟩
  · exact MintedBlocksInc.keyed innerEq
  · intro entity isReached
    rcases Option.map_eq_some_iff.mp isReached with ⟨state, -, rfl⟩
    rfl
  · have undone := downcastUndo_eq_iff.mpr (MintedBlocksInc.undone innerEq)
    exact iff_of_true undone trivial
  · have replays := (exists_downcastApply_iff mintedBlocksInc).trans
      (MintedBlocksInc.replays_iff innerEq)
    refine replays.trans ?_
    simp [EpochFree]

theorem applied_datumRefIncrement {increment : DatumRefIncrement}
    (typed : (datumRefIncrement increment).Typed before)
    (done : apply (datumRefIncrement increment) before = .ok (applied, after)) :
    Applied (datumRefIncrement increment) applied before after := by
  rcases downcastApply_eq_ok (E := DatumState) typed done with
    ⟨inner, held, reached, rfl, rfl, rfl, innerEq⟩
  refine ⟨?_, ?_, ?_, ?_⟩
  · exact DatumRefIncrement.keyed innerEq
  · intro entity isReached
    rcases Option.map_eq_some_iff.mp isReached with ⟨state, -, rfl⟩
    rfl
  · have undone := downcastUndo_eq_iff.trans (DatumRefIncrement.undone_iff innerEq)
    refine undone.trans ?_
    cases held with
    | none => simp [Unsaturated]
    | some datum => simp [Unsaturated, inject]
  · have replayed := (exists_downcastApply_iff datumRefIncrement).mpr
      (DatumRefIncrement.replayed innerEq)
    exact iff_of_true replayed trivial

/-- One case for each delta of a roll batch: all but two are faithful, and the two
say when they are. -/
theorem applied_spec (fresh : delta.Unapplied) (typed : delta.Typed before)
    (done : apply delta before = .ok (applied, after)) : Applied delta applied before after := by
  cases delta with
  | controlledAmountInc delta =>
      exact applied_of_faithful controlledAmountInc ControlledAmountInc.faithful typed done
  | controlledAmountDec delta =>
      exact applied_of_faithful controlledAmountDec ControlledAmountDec.faithful typed done
  | stakeRegistration delta =>
      exact applied_of_faithful stakeRegistration StakeRegistration.faithful typed done
  | stakeDelegation delta =>
      exact applied_of_faithful stakeDelegation StakeDelegation.faithful typed done
  | stakeDeregistration delta =>
      exact applied_of_faithful stakeDeregistration StakeDeregistration.faithful typed done
  | poolRegistration delta =>
      exact applied_of_faithful poolRegistration (PoolRegistration.faithful fresh) typed done
  | poolDeRegistration delta =>
      exact applied_of_faithful poolDeRegistration PoolDeRegistration.faithful typed done
  | mintedBlocksInc delta => exact applied_mintedBlocksInc typed done
  | mintStatsUpdate delta =>
      exact applied_of_faithful mintStatsUpdate MintStatsUpdate.faithful typed done
  | metadataTxUpdate delta =>
      exact applied_of_faithful metadataTxUpdate MetadataTxUpdate.faithful typed done
  | epochStatsUpdate delta =>
      exact applied_of_faithful epochStatsUpdate EpochStatsUpdate.faithful typed done
  | drepRegistration delta =>
      exact applied_of_faithful drepRegistration DRepRegistration.faithful typed done
  | drepUnRegistration delta =>
      exact applied_of_faithful drepUnRegistration DRepUnRegistration.faithful typed done
  | drepActivity delta => exact applied_of_faithful drepActivity DRepActivity.faithful typed done
  | withdrawalInc delta => exact applied_of_faithful withdrawalInc WithdrawalInc.faithful typed done
  | voteDelegation delta =>
      exact applied_of_faithful voteDelegation VoteDelegation.faithful typed done
  | noncesUpdate delta =>
      exact applied_of_faithful noncesUpdate (NoncesUpdate.faithful fresh) typed done
  | enqueueMir delta => exact applied_of_faithful enqueueMir EnqueueMir.faithful typed done
  | datumRefIncrement delta => exact applied_datumRefIncrement typed done
  | datumRefDecrement delta =>
      exact applied_of_faithful datumRefDecrement (DatumRefDecrement.faithful fresh) typed done
  | drepAnchorUpdate delta =>
      exact applied_of_faithful drepAnchorUpdate DRepAnchorUpdate.faithful typed done
  | newProposalV2 delta => exact applied_of_faithful newProposalV2 NewProposalV2.faithful typed done
  | voteCast delta => exact applied_of_faithful voteCast VoteCast.faithful typed done
  | drepExpiryUpdate delta =>
      exact applied_of_faithful drepExpiryUpdate DRepExpiryUpdate.faithful typed done
  | drepDormancyRelease delta =>
      exact applied_of_faithful drepDormancyRelease DRepDormancyRelease.faithful typed done
  | committeeAuth delta => exact applied_of_faithful committeeAuth CommitteeAuth.faithful typed done
  | committeeResign delta =>
      exact applied_of_faithful committeeResign CommitteeResign.faithful typed done
  | govDormancyReset delta =>
      exact applied_of_faithful govDormancyReset GovDormancyReset.faithful typed done

/-- The log replays a delta exactly unless a saturated reference count or a skipped
epoch stands in the way. -/
theorem applied_replays_iff (fresh : delta.Unapplied) (typed : delta.Typed before)
    (done : apply delta before = .ok (applied, after)) :
    applied.Replays before after ↔ delta.Unsaturated before ∧ delta.EpochFree before := by
  have spec := applied_spec fresh typed done
  constructor
  · intro replays
    exact ⟨spec.undone_iff.mp replays.undone, spec.replayed_iff.mp replays.wireReplayed⟩
  · rintro ⟨unsaturated, epochFree⟩
    have undone := spec.undone_iff.mpr unsaturated
    refine ⟨undone, ?_, spec.replayed_iff.mpr epochFree⟩
    rw [undo_wire]
    exact undone

/-- A condition on every delta of a group, at the value it is applied to. -/
def Along (condition : CardanoDelta → Option CardanoEntity → Prop) :
    List CardanoDelta → Option CardanoEntity → Prop
  | [], _ => True
  | delta :: rest, before =>
      condition delta before ∧
        ∀ applied next, apply delta before = .ok (applied, next) → Along condition rest next

theorem Along.of_append {condition : CardanoDelta → Option CardanoEntity → Prop}
    {first second : List CardanoDelta} (along : Along condition (first ++ second) before) :
    Along condition first before := by
  induction first generalizing before with
  | nil => trivial
  | cons delta rest ih =>
      refine ⟨along.1, ?_⟩
      intro applied next done
      exact ih (along.2 applied next done)

theorem Along.after_append {condition : CardanoDelta → Option CardanoEntity → Prop}
    {first second earlier : List CardanoDelta}
    (along : Along condition (first ++ second) before)
    (done : applyGroup first before = .ok (earlier, after)) : Along condition second after := by
  induction first generalizing before earlier with
  | nil =>
      simp only [applyGroup, Except.ok.injEq, Prod.mk.injEq] at done
      rw [← done.2]
      exact along
  | cons delta rest ih =>
      rcases applyGroup_cons_eq_ok.mp done with ⟨head, next, later, headEq, laterEq, -⟩
      exact ih (along.2 head next headEq) laterEq

/-- The deltas a block has for one entity, as emitted. -/
def EmittedFor (index : NsKey) (group : List CardanoDelta) : Prop :=
  ∀ delta ∈ group, key delta = index ∧ delta.Unapplied

def TypedAt (index : NsKey) (held : Option CardanoEntity) : Prop :=
  ∀ entity ∈ held, entity.ns = (ofLex index).1

section Group

variable {index : NsKey} {group applied : List CardanoDelta}

theorem EmittedFor.head {delta : CardanoDelta} (emitted : EmittedFor index (delta :: group)) :
    key delta = index ∧ delta.Unapplied :=
  emitted delta List.mem_cons_self

theorem EmittedFor.tail {delta : CardanoDelta} (emitted : EmittedFor index (delta :: group)) :
    EmittedFor index group := by
  intro later member
  exact emitted later (List.mem_cons_of_mem delta member)

/-- A delta of an emitted group, applied where its entity is kept. -/
theorem applied_at {delta head : CardanoDelta} (keyed : key delta = index)
    (fresh : delta.Unapplied) (typed : TypedAt index before)
    (done : apply delta before = .ok (head, after)) :
    Applied delta head before after ∧ TypedAt index after := by
  have deltaTyped : delta.Typed before := by
    rw [Typed, keyed]
    exact typed
  have spec := applied_spec fresh deltaTyped done
  have reached := spec.typed
  rw [Typed, keyed] at reached
  exact ⟨spec, reached⟩

theorem applyGroup_keyed (emitted : EmittedFor index group) (typed : TypedAt index before)
    (done : applyGroup group before = .ok (applied, after)) :
    (∀ delta ∈ applied, key delta = index) ∧ TypedAt index after := by
  induction group generalizing before applied with
  | nil =>
      simp only [applyGroup, Except.ok.injEq, Prod.mk.injEq] at done
      rcases done with ⟨rfl, rfl⟩
      exact ⟨by simp, typed⟩
  | cons delta rest ih =>
      rcases applyGroup_cons_eq_ok.mp done with ⟨head, next, later, headEq, laterEq, rfl⟩
      rcases emitted.head with ⟨keyed, fresh⟩
      rcases applied_at keyed fresh typed headEq with ⟨spec, nextTyped⟩
      rcases ih emitted.tail nextTyped laterEq with ⟨laterKeyed, afterTyped⟩
      refine ⟨?_, afterTyped⟩
      intro other member
      rcases List.mem_cons.mp member with rfl | isLater
      · exact spec.keyed.trans keyed
      · exact laterKeyed other isLater

/-- The decoded deltas of a group, undone from the last, walk its entity back. -/
theorem undo_applyGroup (emitted : EmittedFor index group) (typed : TypedAt index before)
    (unsaturated : Along Unsaturated group before)
    (done : applyGroup group before = .ok (applied, after)) :
    runAll undo (applied.map wire).reverse after = .ok before := by
  induction group generalizing before applied with
  | nil =>
      simp only [applyGroup, Except.ok.injEq, Prod.mk.injEq] at done
      rcases done with ⟨rfl, rfl⟩
      rfl
  | cons delta rest ih =>
      rcases applyGroup_cons_eq_ok.mp done with ⟨head, next, later, headEq, laterEq, rfl⟩
      rcases emitted.head with ⟨keyed, fresh⟩
      rcases applied_at keyed fresh typed headEq with ⟨spec, nextTyped⟩
      have laterUndone := ih emitted.tail nextTyped (unsaturated.2 head next headEq) laterEq
      have headUndone : undo head.wire next = .ok before := by
        rw [undo_wire]
        exact spec.undone_iff.mpr unsaturated.1
      rw [List.map_cons, List.reverse_cons]
      refine (runAll_append_iff undo).mpr ⟨next, laterUndone, ?_⟩
      simp only [runAll, headUndone, ok_bind]

/-- Applied again, they walk it forward as they did. -/
theorem effect_applyGroup (emitted : EmittedFor index group) (typed : TypedAt index before)
    (epochFree : Along EpochFree group before)
    (done : applyGroup group before = .ok (applied, after)) :
    runAll effect (applied.map wire) before = .ok after := by
  induction group generalizing before applied with
  | nil =>
      simp only [applyGroup, Except.ok.injEq, Prod.mk.injEq] at done
      rcases done with ⟨rfl, rfl⟩
      rfl
  | cons delta rest ih =>
      rcases applyGroup_cons_eq_ok.mp done with ⟨head, next, later, headEq, laterEq, rfl⟩
      rcases emitted.head with ⟨keyed, fresh⟩
      rcases applied_at keyed fresh typed headEq with ⟨spec, nextTyped⟩
      have laterAgain := ih emitted.tail nextTyped (epochFree.2 head next headEq) laterEq
      have headAgain : effect head.wire before = .ok next :=
        effect_eq_ok.mpr (spec.replayed_iff.mpr epochFree.1)
      rw [List.map_cons]
      simp only [runAll, headAgain, ok_bind, laterAgain]

end Group

end Log

/-- A working pool at an epoch, with the blocks it has minted in it. -/
def poolAt (epoch : ℕ) (minted : UInt32) : PoolState where
  operator := 1
  snapshot := ⟨.epoch epoch, none, some ⟨false, minted, ⟨7, 100, 340, ⟨1, 10⟩, [], [1]⟩, false⟩,
    none, none, none⟩
  blocksMintedTotal := minted
  registerSlot := 3
  retiringEpoch := none
  deposit := 500

/-- A minted block of epoch zero goes through the log unharmed. -/
theorem replays_in_epoch_zero :
    letI := NonceCrypto.still
    (mintedBlocksInc ⟨1, 1, 0⟩).Replays (some (.pool (poolAt 0 2)))
      (some (.pool (poolAt 0 3))) := by
  let _ := NonceCrypto.still
  have typed : (mintedBlocksInc ⟨1, 1, 0⟩).Typed (some (.pool (poolAt 0 2))) := by
    intro entity held
    rcases Option.some.inj held with rfl
    rfl
  have done : apply (mintedBlocksInc ⟨1, 1, 0⟩) (some (.pool (poolAt 0 2))) =
      .ok (mintedBlocksInc ⟨1, 1, 0⟩, some (.pool (poolAt 0 3))) := rfl
  have fresh : (mintedBlocksInc ⟨1, 1, 0⟩).Unapplied := trivial
  exact (applied_replays_iff fresh typed done).mpr ⟨trivial, Or.inr rfl⟩

/-- Replayed in any other epoch, the minted block of a known pool panics. -/
theorem not_replays_in_epoch_one :
    ¬ ∀ (_ : NonceCrypto) (delta applied : CardanoDelta) (before after : Option CardanoEntity),
      delta.Unapplied → delta.Typed before → apply delta before = .ok (applied, after) →
        applied.Replays before after := by
  intro claimed
  let _ := NonceCrypto.still
  have replays := claimed NonceCrypto.still (mintedBlocksInc ⟨1, 1, 1⟩) (mintedBlocksInc ⟨1, 1, 1⟩)
    (some (.pool (poolAt 1 2))) (some (.pool (poolAt 1 3))) trivial ?_ rfl
  · rcases replays.wireReplayed with ⟨again, replayed⟩
    cases replayed
  · intro entity held
    rcases Option.some.inj held with rfl
    rfl

end CardanoDelta

end Dolos
