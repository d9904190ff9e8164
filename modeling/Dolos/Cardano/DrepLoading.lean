import Dolos.Cardano.Ratify
import Dolos.Cardano.Visitors

/-!
# The representatives at a boundary

The first half of `load_drep_data` in `cardano/src/ewrap/loading.rs`. A row keeps the last
registration and the last unregistration of its representative, each with the slot and the
position of its transaction, and the boundary reads off them who was registered at two
slots: the first of the epoch that begins, for the distribution it publishes, and the first
of the epoch that ends, for the ruling. It also sets apart who is retiring and who has
expired.
-/

namespace Dolos

open Outcome

namespace DRepState

/-- Whether the representative was registered before a slot. -/
def isRegisteredAsOf (drep : DRepState) (boundarySlot : ℕ) : Bool :=
  match drep.registeredAt.filter fun position => position.1 < boundarySlot,
      drep.unregisteredAt.filter fun position => position.1 < boundarySlot with
  | some registered, some unregistered => toLex unregistered < toLex registered
  | some _, none => true
  | none, _ => false

end DRepState

namespace PParamsSet

def ensureDrepInactivityPeriod (params : PParamsSet) : Except DomainError ℕ :=
  match params.amount .drepInactivityPeriod with
  | some period => .ok period
  | none => .error (.pparamsNotFound "drep_inactivity_period")

end PParamsSet

/-- What the boundary work reads to sort the representatives. -/
structure DrepBoundary where
  chainSummary : ChainSummary
  endingState : EpochState
  numDormantEpochs : ℕ

/-- The representatives as the boundary work holds them. -/
structure DrepData where
  snapshotRegisteredDreps : Finset EntityKey
  ratifyDReps : OrderedMap StakeCredential (Option ℕ)
  retiringDreps : List (DRep × (ℕ × ℕ))
  expiringDreps : List DRep

def DrepData.default : DrepData := ⟨∅, ∅, [], []⟩

namespace DrepBoundary

variable (boundary : DrepBoundary)

def startingEpochNo : ℕ := boundary.endingState.number + 1

/-- The last unregistration, when it is of the epoch that ends. -/
def isRetiringDrep (drep : DRepState) : Except Panic (Option (ℕ × ℕ)) :=
  match drep.unregisteredAt with
  | none => .ok none
  | some position => do
      let (epoch, _) ← boundary.chainSummary.slotEpoch position.1
      .ok (if boundary.startingEpochNo = epoch + 1 then some position else none)

/-- Rows from before the expiry was kept go by the slot of their last activity. -/
def expiresByActivity (drep : DRepState) : Except ChainError Bool := do
  let lastActivitySlot := drep.lastActiveSlot.getD ((drep.registeredAt.map Prod.fst).getD 0)
  let (lastActivityEpoch, _) ←
    (boundary.chainSummary.slotEpoch lastActivitySlot).mapError .panicked
  let pparams ← boundary.endingState.pparams.unwrapLive.mapError .panicked
  let period ← pparams.ensureDrepInactivityPeriod.mapError .domain
  .ok (lastActivityEpoch + period ≤ boundary.startingEpochNo)

def shouldExpireDrep (drep : DRepState) : Except ChainError Bool :=
  if drep.expired then .ok false
  else if drep.isUnregistered then .ok false
  else
    match drep.expiry with
    | some expiry => .ok (expiry.current + boundary.numDormantEpochs < boundary.startingEpochNo)
    | none => boundary.expiresByActivity drep

/-- The expiry the ruling goes by is the one at the end of the epoch before. -/
def ratifyExpiryEpoch : ℕ := boundary.endingState.number - 1

/-- The row joins the sets of those registered at the two slots. -/
def noteRegistered (boundarySlot ratifySlot : ℕ) (data : DrepData) (id : EntityKey)
    (drep : DRepState) : DrepData where
  snapshotRegisteredDreps :=
    if drep.isRegisteredAsOf boundarySlot then insert id data.snapshotRegisteredDreps
    else data.snapshotRegisteredDreps
  ratifyDReps :=
    if drep.isRegisteredAsOf ratifySlot then
      match drep.identifier.credential with
      | some credential =>
          data.ratifyDReps.insert credential
            (drep.expiry.bind fun expiry => expiry.asOf boundary.ratifyExpiryEpoch)
      | none => data.ratifyDReps
    else data.ratifyDReps
  retiringDreps := data.retiringDreps
  expiringDreps := data.expiringDreps

def loadDrep (boundarySlot ratifySlot : ℕ) (data : DrepData) (row : EntityKey × DRepState) :
    Except ChainError DrepData := do
  let noted := boundary.noteRegistered boundarySlot ratifySlot data row.1 row.2
  let retiring ← (boundary.isRetiringDrep row.2).mapError .panicked
  match retiring with
  | some position =>
      .ok { noted with retiringDreps := noted.retiringDreps ++ [(row.2.identifier, position)] }
  | none =>
      let expires ← boundary.shouldExpireDrep row.2
      .ok (if expires then
        { noted with expiringDreps := noted.expiringDreps ++ [row.2.identifier] } else noted)

def loadDrepData (dreps : List (EntityKey × DRepState)) : Except ChainError DrepData := do
  let boundarySlot ←
    (boundary.chainSummary.epochStart boundary.startingEpochNo).mapError .panicked
  let ratifySlot ←
    (boundary.chainSummary.epochStart boundary.endingState.number).mapError .panicked
  dreps.foldlM (boundary.loadDrep boundarySlot ratifySlot) .default

end DrepBoundary

/-- The deltas of a representative's row. -/
inductive DRepDelta where
  | registration (delta : DRepRegistration)
  | unRegistration (delta : DRepUnRegistration)
  | activity (delta : DRepActivity)
  | anchorUpdate (delta : DRepAnchorUpdate)
  | expiryUpdate (delta : DRepExpiryUpdate)
  | dormancyRelease (delta : DRepDormancyRelease)
  | expiration (delta : DRepExpiration)
  | powerUpdate (delta : DRepPowerUpdate)
  deriving DecidableEq, Repr

namespace DRepDelta

def key : DRepDelta → NsKey
  | registration delta => EntityDelta.key delta
  | unRegistration delta => EntityDelta.key delta
  | activity delta => EntityDelta.key delta
  | anchorUpdate delta => EntityDelta.key delta
  | expiryUpdate delta => EntityDelta.key delta
  | dormancyRelease delta => EntityDelta.key delta
  | expiration delta => EntityDelta.key delta
  | powerUpdate delta => EntityDelta.key delta

/-- The row after the delta. -/
def apply (row : Option DRepState) : DRepDelta → Except Panic (Option DRepState)
  | registration delta => Prod.snd <$> EntityDelta.apply delta row
  | unRegistration delta => Prod.snd <$> EntityDelta.apply delta row
  | activity delta => Prod.snd <$> EntityDelta.apply delta row
  | anchorUpdate delta => Prod.snd <$> EntityDelta.apply delta row
  | expiryUpdate delta => Prod.snd <$> EntityDelta.apply delta row
  | dormancyRelease delta => Prod.snd <$> EntityDelta.apply delta row
  | expiration delta => Prod.snd <$> EntityDelta.apply delta row
  | powerUpdate delta => Prod.snd <$> EntityDelta.apply delta row

def applyAll (row : Option DRepState) (deltas : List DRepDelta) :
    Except Panic (Option DRepState) :=
  deltas.foldlM apply row

end DRepDelta

end Dolos
