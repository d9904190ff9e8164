import Dolos.Cardano.Model.Assets
import Dolos.Cardano.Model.Epochs
import Dolos.Cardano.Model.Gov

/-!
# The deltas of a block

`CardanoEntity` and `CardanoDelta` of `cardano/src/model/mod.rs`, with the
variants a roll batch emits. Only roll batches write the log, so these are the
deltas the log holds: in the form they have after they were applied, and as they
come back from their encoding.

The encoding keeps every field but one. That is the whole difference between a
delta and its replay, together with the one counter whose increment saturates.
-/

namespace Dolos

open Outcome

inductive CardanoEntity where
  | account (state : AccountState)
  | asset (state : AssetState)
  | pool (state : PoolState)
  | epoch (state : EpochState)
  | drep (state : DRepState)
  | proposal (state : ProposalState)
  | datum (state : DatumState)
  | pendingReward (state : PendingRewardState)
  | pendingMir (state : PendingMirState)
  | gov (state : GovState)
  deriving DecidableEq

/-- The namespace an entity is stored under. -/
def CardanoEntity.ns : CardanoEntity → Namespace
  | account _ => .accounts
  | asset _ => .assets
  | pool _ => .pools
  | epoch _ => .epochs
  | drep _ => .dreps
  | proposal _ => .proposals
  | datum _ => .datums
  | pendingReward _ => .pendingRewards
  | pendingMir _ => .pendingMirs
  | gov _ => .gov

/-- One variant of the entity type, with the conversions in and out of it. -/
class EntityVariant (E : Type) where
  namespaceOf : Namespace
  inject : E → CardanoEntity
  project : CardanoEntity → Option E
  ns_inject : ∀ state, (inject state).ns = namespaceOf
  project_inject : ∀ state, project (inject state) = some state
  inject_of_ns : ∀ entity, entity.ns = namespaceOf → ∃ state, entity = inject state

namespace EntityVariant

instance : EntityVariant AccountState where
  namespaceOf := .accounts
  inject := .account
  project | .account state => some state | _ => none
  ns_inject _ := rfl
  project_inject _ := rfl
  inject_of_ns entity same := by cases entity <;> simp_all [CardanoEntity.ns]

instance : EntityVariant AssetState where
  namespaceOf := .assets
  inject := .asset
  project | .asset state => some state | _ => none
  ns_inject _ := rfl
  project_inject _ := rfl
  inject_of_ns entity same := by cases entity <;> simp_all [CardanoEntity.ns]

instance : EntityVariant PoolState where
  namespaceOf := .pools
  inject := .pool
  project | .pool state => some state | _ => none
  ns_inject _ := rfl
  project_inject _ := rfl
  inject_of_ns entity same := by cases entity <;> simp_all [CardanoEntity.ns]

instance : EntityVariant EpochState where
  namespaceOf := .epochs
  inject := .epoch
  project | .epoch state => some state | _ => none
  ns_inject _ := rfl
  project_inject _ := rfl
  inject_of_ns entity same := by cases entity <;> simp_all [CardanoEntity.ns]

instance : EntityVariant DRepState where
  namespaceOf := .dreps
  inject := .drep
  project | .drep state => some state | _ => none
  ns_inject _ := rfl
  project_inject _ := rfl
  inject_of_ns entity same := by cases entity <;> simp_all [CardanoEntity.ns]

instance : EntityVariant ProposalState where
  namespaceOf := .proposals
  inject := .proposal
  project | .proposal state => some state | _ => none
  ns_inject _ := rfl
  project_inject _ := rfl
  inject_of_ns entity same := by cases entity <;> simp_all [CardanoEntity.ns]

instance : EntityVariant DatumState where
  namespaceOf := .datums
  inject := .datum
  project | .datum state => some state | _ => none
  ns_inject _ := rfl
  project_inject _ := rfl
  inject_of_ns entity same := by cases entity <;> simp_all [CardanoEntity.ns]

instance : EntityVariant PendingRewardState where
  namespaceOf := .pendingRewards
  inject := .pendingReward
  project | .pendingReward state => some state | _ => none
  ns_inject _ := rfl
  project_inject _ := rfl
  inject_of_ns entity same := by cases entity <;> simp_all [CardanoEntity.ns]

instance : EntityVariant PendingMirState where
  namespaceOf := .pendingMirs
  inject := .pendingMir
  project | .pendingMir state => some state | _ => none
  ns_inject _ := rfl
  project_inject _ := rfl
  inject_of_ns entity same := by cases entity <;> simp_all [CardanoEntity.ns]

instance : EntityVariant GovState where
  namespaceOf := .gov
  inject := .gov
  project | .gov state => some state | _ => none
  ns_inject _ := rfl
  project_inject _ := rfl
  inject_of_ns entity same := by cases entity <;> simp_all [CardanoEntity.ns]

variable {D E : Type} [EntityDelta D E] [EntityVariant E]

/-- `downcast_apply`, with the variant the delta goes back into. -/
def downcastApply {W : Type} (wrap : D → W) (delta : D) (entity : Option CardanoEntity) :
    Except Panic (W × Option CardanoEntity) := do
  let (applied, after) ← EntityDelta.apply delta (entity.bind project)
  .ok (wrap applied, after.map inject)

def downcastUndo (delta : D) (entity : Option CardanoEntity) :
    Except Panic (Option CardanoEntity) := do
  let before ← EntityDelta.undo delta (entity.bind project)
  .ok (before.map inject)

@[simp]
theorem bind_project_map_inject (entity : Option E) :
    (entity.map inject).bind project = entity := by
  cases entity with
  | none => rfl
  | some state => exact project_inject state

theorem map_inject_injective {left right : Option E}
    (same : left.map (inject (E := E)) = right.map inject) : left = right := by
  rw [← bind_project_map_inject left, same, bind_project_map_inject]

/-- An entity read from the namespace of the variant is of the variant. -/
theorem exists_map_inject {entity : Option CardanoEntity}
    (typed : ∀ held ∈ entity, held.ns = namespaceOf E) :
    ∃ state : Option E, entity = state.map inject := by
  cases entity with
  | none => exact ⟨none, rfl⟩
  | some held =>
      rcases inject_of_ns held (typed held rfl) with ⟨state, rfl⟩
      exact ⟨some state, rfl⟩

theorem downcastApply_map_inject {W : Type} (wrap : D → W) (delta : D) (entity : Option E) :
    downcastApply wrap delta (entity.map inject) = (do
      let (applied, after) ← EntityDelta.apply delta entity
      .ok (wrap applied, after.map inject)) := by
  rw [downcastApply, bind_project_map_inject]

theorem downcastUndo_eq_iff {delta : D} {before after : Option E} :
    downcastUndo delta (after.map inject) = .ok (before.map inject) ↔
      EntityDelta.undo delta after = .ok before := by
  rw [downcastUndo, bind_project_map_inject]
  cases EntityDelta.undo delta after with
  | error panic => simp
  | ok undone =>
      simp only [ok_bind, Except.ok.injEq]
      exact ⟨map_inject_injective, congrArg _⟩

theorem exists_downcastApply_iff {W : Type} (wrap : D → W) {delta : D} {before after : Option E} :
    (∃ again, downcastApply wrap delta (before.map inject) = .ok (again, after.map inject)) ↔
      ∃ again, EntityDelta.apply delta before = .ok (again, after) := by
  rw [downcastApply_map_inject]
  cases EntityDelta.apply delta before with
  | error panic => simp
  | ok result =>
      rcases result with ⟨again, reached⟩
      simp only [ok_bind, Except.ok.injEq, Prod.mk.injEq, exists_eq_left']
      exact ⟨map_inject_injective, congrArg _⟩

theorem downcastApply_eq_ok {W : Type} {wrap : D → W} {delta : D} {applied : W}
    {before after : Option CardanoEntity} (typed : ∀ held ∈ before, held.ns = namespaceOf E)
    (done : downcastApply wrap delta before = .ok (applied, after)) :
    ∃ (inner : D) (held reached : Option E), applied = wrap inner ∧ before = held.map inject ∧
      after = reached.map inject ∧ EntityDelta.apply delta held = .ok (inner, reached) := by
  rcases exists_map_inject typed with ⟨held, rfl⟩
  rw [downcastApply_map_inject] at done
  rcases bind_eq_ok.mp done with ⟨⟨inner, reached⟩, innerEq, appliedEq⟩
  simp only [Except.ok.injEq, Prod.mk.injEq] at appliedEq
  exact ⟨inner, held, reached, appliedEq.1.symm, rfl, appliedEq.2.symm, innerEq⟩

end EntityVariant

inductive CardanoDelta where
  | controlledAmountInc (delta : ControlledAmountInc)
  | controlledAmountDec (delta : ControlledAmountDec)
  | stakeRegistration (delta : StakeRegistration)
  | stakeDelegation (delta : StakeDelegation)
  | stakeDeregistration (delta : StakeDeregistration)
  | poolRegistration (delta : PoolRegistration)
  | poolDeRegistration (delta : PoolDeRegistration)
  | mintedBlocksInc (delta : MintedBlocksInc)
  | mintStatsUpdate (delta : MintStatsUpdate)
  | metadataTxUpdate (delta : MetadataTxUpdate)
  | epochStatsUpdate (delta : EpochStatsUpdate)
  | drepRegistration (delta : DRepRegistration)
  | drepUnRegistration (delta : DRepUnRegistration)
  | drepActivity (delta : DRepActivity)
  | withdrawalInc (delta : WithdrawalInc)
  | voteDelegation (delta : VoteDelegation)
  | noncesUpdate (delta : NoncesUpdate)
  | enqueueMir (delta : EnqueueMir)
  | datumRefIncrement (delta : DatumRefIncrement)
  | datumRefDecrement (delta : DatumRefDecrement)
  | drepAnchorUpdate (delta : DRepAnchorUpdate)
  | newProposalV2 (delta : NewProposalV2)
  | voteCast (delta : VoteCast)
  | drepExpiryUpdate (delta : DRepExpiryUpdate)
  | drepDormancyRelease (delta : DRepDormancyRelease)
  | committeeAuth (delta : CommitteeAuth)
  | committeeResign (delta : CommitteeResign)
  | govDormancyReset (delta : GovDormancyReset)

namespace CardanoDelta

open EntityVariant

variable [NonceCrypto]

instance : EntityDelta CardanoDelta CardanoEntity where
  key
    | controlledAmountInc delta => EntityDelta.key delta
    | controlledAmountDec delta => EntityDelta.key delta
    | stakeRegistration delta => EntityDelta.key delta
    | stakeDelegation delta => EntityDelta.key delta
    | stakeDeregistration delta => EntityDelta.key delta
    | poolRegistration delta => EntityDelta.key delta
    | poolDeRegistration delta => EntityDelta.key delta
    | mintedBlocksInc delta => EntityDelta.key delta
    | mintStatsUpdate delta => EntityDelta.key delta
    | metadataTxUpdate delta => EntityDelta.key delta
    | epochStatsUpdate delta => EntityDelta.key delta
    | drepRegistration delta => EntityDelta.key delta
    | drepUnRegistration delta => EntityDelta.key delta
    | drepActivity delta => EntityDelta.key delta
    | withdrawalInc delta => EntityDelta.key delta
    | voteDelegation delta => EntityDelta.key delta
    | noncesUpdate delta => EntityDelta.key delta
    | enqueueMir delta => EntityDelta.key delta
    | datumRefIncrement delta => EntityDelta.key delta
    | datumRefDecrement delta => EntityDelta.key delta
    | drepAnchorUpdate delta => EntityDelta.key delta
    | newProposalV2 delta => EntityDelta.key delta
    | voteCast delta => EntityDelta.key delta
    | drepExpiryUpdate delta => EntityDelta.key delta
    | drepDormancyRelease delta => EntityDelta.key delta
    | committeeAuth delta => EntityDelta.key delta
    | committeeResign delta => EntityDelta.key delta
    | govDormancyReset delta => EntityDelta.key delta
  apply
    | controlledAmountInc delta => downcastApply controlledAmountInc delta
    | controlledAmountDec delta => downcastApply controlledAmountDec delta
    | stakeRegistration delta => downcastApply stakeRegistration delta
    | stakeDelegation delta => downcastApply stakeDelegation delta
    | stakeDeregistration delta => downcastApply stakeDeregistration delta
    | poolRegistration delta => downcastApply poolRegistration delta
    | poolDeRegistration delta => downcastApply poolDeRegistration delta
    | mintedBlocksInc delta => downcastApply mintedBlocksInc delta
    | mintStatsUpdate delta => downcastApply mintStatsUpdate delta
    | metadataTxUpdate delta => downcastApply metadataTxUpdate delta
    | epochStatsUpdate delta => downcastApply epochStatsUpdate delta
    | drepRegistration delta => downcastApply drepRegistration delta
    | drepUnRegistration delta => downcastApply drepUnRegistration delta
    | drepActivity delta => downcastApply drepActivity delta
    | withdrawalInc delta => downcastApply withdrawalInc delta
    | voteDelegation delta => downcastApply voteDelegation delta
    | noncesUpdate delta => downcastApply noncesUpdate delta
    | enqueueMir delta => downcastApply enqueueMir delta
    | datumRefIncrement delta => downcastApply datumRefIncrement delta
    | datumRefDecrement delta => downcastApply datumRefDecrement delta
    | drepAnchorUpdate delta => downcastApply drepAnchorUpdate delta
    | newProposalV2 delta => downcastApply newProposalV2 delta
    | voteCast delta => downcastApply voteCast delta
    | drepExpiryUpdate delta => downcastApply drepExpiryUpdate delta
    | drepDormancyRelease delta => downcastApply drepDormancyRelease delta
    | committeeAuth delta => downcastApply committeeAuth delta
    | committeeResign delta => downcastApply committeeResign delta
    | govDormancyReset delta => downcastApply govDormancyReset delta
  undo
    | controlledAmountInc delta => downcastUndo delta
    | controlledAmountDec delta => downcastUndo delta
    | stakeRegistration delta => downcastUndo delta
    | stakeDelegation delta => downcastUndo delta
    | stakeDeregistration delta => downcastUndo delta
    | poolRegistration delta => downcastUndo delta
    | poolDeRegistration delta => downcastUndo delta
    | mintedBlocksInc delta => downcastUndo delta
    | mintStatsUpdate delta => downcastUndo delta
    | metadataTxUpdate delta => downcastUndo delta
    | epochStatsUpdate delta => downcastUndo delta
    | drepRegistration delta => downcastUndo delta
    | drepUnRegistration delta => downcastUndo delta
    | drepActivity delta => downcastUndo delta
    | withdrawalInc delta => downcastUndo delta
    | voteDelegation delta => downcastUndo delta
    | noncesUpdate delta => downcastUndo delta
    | enqueueMir delta => downcastUndo delta
    | datumRefIncrement delta => downcastUndo delta
    | datumRefDecrement delta => downcastUndo delta
    | drepAnchorUpdate delta => downcastUndo delta
    | newProposalV2 delta => downcastUndo delta
    | voteCast delta => downcastUndo delta
    | drepExpiryUpdate delta => downcastUndo delta
    | drepDormancyRelease delta => downcastUndo delta
    | committeeAuth delta => downcastUndo delta
    | committeeResign delta => downcastUndo delta
    | govDormancyReset delta => downcastUndo delta

omit [NonceCrypto] in
/-- A delta as it is decoded from its encoding in the log. -/
def wire : CardanoDelta → CardanoDelta
  | mintedBlocksInc delta => mintedBlocksInc delta.wire
  | delta => delta

end CardanoDelta

end Dolos
