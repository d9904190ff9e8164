import Dolos.Cardano.Model.Gov

/-!
# The governance singleton at a boundary

The deltas of `cardano/src/model/gov.rs` that only boundaries emit: the shards of the
account scan merge their stake distributions, the completed distributions take the credits
the boundary pays out and move to where the next boundary reads them, the count of dormant
epochs goes up, and members that left the committee lose their authorizations.
-/

namespace Dolos

open Outcome

/-- Each weight is added to what the map has under its key. -/
def OrderedMap.addWeights {κ : Type*} [LinearOrder κ] (map added : OrderedMap κ ℕ) :
    OrderedMap κ ℕ :=
  added.entries.foldl
    (fun map entry => map.insert entry.1 ((map.get? entry.1).getD 0 + entry.2)) map

/-- The contribution of one shard of the account scan. -/
structure GovDistrAccumulate where
  closingEpoch : ℕ
  shard : ℕ
  totalShards : ℕ
  drepDistr : OrderedMap DRep ℕ
  poolDistr : OrderedMap Hash28 ℕ
  poolTotal : ℕ
  applied : Bool
  prev : Option GovDistr
  deriving DecidableEq

namespace GovDistrAccumulate

def new (closingEpoch shard totalShards : ℕ) (drepDistr : OrderedMap DRep ℕ)
    (poolDistr : OrderedMap Hash28 ℕ) (poolTotal : ℕ) : GovDistrAccumulate :=
  ⟨closingEpoch, shard, totalShards, drepDistr, poolDistr, poolTotal, false, none⟩

/-- Only the next shard of the boundary in progress is merged, and only the first shard
opens another boundary. -/
def skips (delta : GovDistrAccumulate) : Option GovDistr → Bool
  | some distr =>
      if distr.closingEpoch = delta.closingEpoch then
        distr.committedShards > delta.shard ∨ distr.committedShards < delta.shard ∨
          distr.totalShards ≠ delta.totalShards
      else if distr.closingEpoch > delta.closingEpoch then true
      else delta.shard ≠ 0
  | none => delta.shard ≠ 0

/-- The accumulator the shard is merged into. -/
def target (delta : GovDistrAccumulate) : Option GovDistr → GovDistr
  | some distr =>
      if distr.closingEpoch = delta.closingEpoch then distr
      else .new delta.closingEpoch delta.totalShards
  | none => .new delta.closingEpoch delta.totalShards

def merged (delta : GovDistrAccumulate) (distr : GovDistr) : GovDistr :=
  { distr with
    drepDistr := distr.drepDistr.addWeights delta.drepDistr
    poolDistr := distr.poolDistr.addWeights delta.poolDistr
    poolTotal := distr.poolTotal + delta.poolTotal
    committedShards := delta.shard + 1 }

instance : EntityDelta GovDistrAccumulate GovState where
  key _ := GovState.nsKey
  apply delta entity := do
    let state ← expect entity GovState.mustExist
    if delta.skips state.distr then .ok (delta, some state)
    else
      .ok ({ delta with prev := state.distr, applied := true },
        some { state with distr := some (delta.merged (delta.target state.distr)) })
  undo delta entity :=
    if delta.applied = false then .ok entity
    else do
      let state ← expect entity GovState.mustExist
      .ok (some { state with distr := delta.prev })

end GovDistrAccumulate

/-- An epoch ends with nothing to vote on. -/
structure GovDormancyTick where
  prev : ℕ
  deriving DecidableEq, Repr

namespace GovDormancyTick

def new : GovDormancyTick := ⟨0⟩

instance : EntityDelta GovDormancyTick GovState where
  key _ := GovState.nsKey
  apply _ entity := do
    let state ← expect entity GovState.mustExist
    .ok (⟨state.numDormantEpochs⟩,
      some { state with numDormantEpochs := state.numDormantEpochs + 1 })
  undo delta entity := do
    let state ← expect entity GovState.mustExist
    .ok (some { state with numDormantEpochs := delta.prev })

end GovDormancyTick

/-- The authorizations of those that are not on the committee go. -/
structure CommitteeGc where
  removed : OrderedMap StakeCredential AuthHistory
  deriving DecidableEq

namespace CommitteeGc

def new : CommitteeGc := ⟨∅⟩

def isMember (committee : Option Committee) (cold : StakeCredential) : Bool :=
  committee.any fun committee => (committee.members.get? cold).isSome

instance : EntityDelta CommitteeGc GovState where
  key _ := GovState.nsKey
  apply _ entity := do
    let state ← expect entity GovState.mustExist
    .ok (⟨state.committeeAuths.filter fun cold _ => !isMember state.committee cold⟩,
      some { state with
        committeeAuths := state.committeeAuths.filter fun cold _ => isMember state.committee cold })
  undo delta entity := do
    let state ← expect entity GovState.mustExist
    .ok (some { state with
      committeeAuths := state.committeeAuths.insertAll delta.removed.entries })

end CommitteeGc

/-- The distributions of the boundary that ends move to where the next one reads them;
incomplete ones leave a gap. -/
structure GovDistrRotate where
  closingEpoch : ℕ
  prev : Option GovDistr
  deriving DecidableEq

namespace GovDistrRotate

def new (closingEpoch : ℕ) : GovDistrRotate := ⟨closingEpoch, none⟩

instance : EntityDelta GovDistrRotate GovState where
  key _ := GovState.nsKey
  apply delta entity := do
    let state ← expect entity GovState.mustExist
    .ok ({ delta with prev := state.prevDistr },
      some { state with
        prevDistr := state.distr.filter fun distr => distr.isCompleteFor delta.closingEpoch })
  undo delta entity := do
    let state ← expect entity GovState.mustExist
    .ok (some { state with prevDistr := delta.prev })

end GovDistrRotate

/-- What the boundary pays into reward accounts counts for the representatives of the
accounts. -/
structure GovDistrBoundaryCredit where
  closingEpoch : ℕ
  credits : OrderedMap DRep ℕ
  applied : Bool
  prev : Option GovDistr
  deriving DecidableEq

namespace GovDistrBoundaryCredit

def new (closingEpoch : ℕ) (credits : OrderedMap DRep ℕ) : GovDistrBoundaryCredit :=
  ⟨closingEpoch, credits, false, none⟩

def credited (delta : GovDistrBoundaryCredit) (distr : GovDistr) : GovDistr :=
  { distr with drepDistr := distr.drepDistr.addWeights delta.credits }

instance : EntityDelta GovDistrBoundaryCredit GovState where
  key _ := GovState.nsKey
  apply delta entity := do
    let state ← expect entity GovState.mustExist
    match state.distr.filter fun distr => distr.isCompleteFor delta.closingEpoch with
    | none => .ok (delta, some state)
    | some distr =>
        .ok ({ delta with prev := state.distr, applied := true },
          some { state with distr := some (delta.credited distr) })
  undo delta entity :=
    if delta.applied = false then .ok entity
    else do
      let state ← expect entity GovState.mustExist
      .ok (some { state with distr := delta.prev })

end GovDistrBoundaryCredit

/-- Governance becomes active with what the genesis says. -/
structure GovGenesisInit where
  constitution : Constitution
  committee : Committee
  epoch : ℕ
  prevConstitution : Option Constitution
  prevCommittee : Option Committee
  prevActiveSince : Option ℕ
  deriving DecidableEq

namespace GovGenesisInit

def new (constitution : Constitution) (committee : Committee) (epoch : ℕ) : GovGenesisInit :=
  ⟨constitution, committee, epoch, none, none, none⟩

instance : EntityDelta GovGenesisInit GovState where
  key _ := GovState.nsKey
  apply delta entity := do
    let state ← expect entity GovState.mustExist
    .ok ({ delta with
        prevConstitution := state.constitution
        prevCommittee := state.committee
        prevActiveSince := state.activeSince },
      some { state with
        constitution := some delta.constitution
        committee := some delta.committee
        activeSince := some delta.epoch })
  undo delta entity := do
    let state ← expect entity GovState.mustExist
    .ok (some { state with
      constitution := delta.prevConstitution
      committee := delta.prevCommittee
      activeSince := delta.prevActiveSince })

end GovGenesisInit

/-- The deltas the close of a boundary has for the governance singleton. -/
inductive GovBoundaryDelta where
  | distrAccumulate (delta : GovDistrAccumulate)
  | dormancyTick (delta : GovDormancyTick)
  | committeeGc (delta : CommitteeGc)
  | distrRotate (delta : GovDistrRotate)
  | distrBoundaryCredit (delta : GovDistrBoundaryCredit)
  deriving DecidableEq

namespace GovBoundaryDelta

/-- The delta as it is after it was applied, and the singleton. -/
def apply (entity : Option GovState) :
    GovBoundaryDelta → Except Panic (GovBoundaryDelta × Option GovState)
  | distrAccumulate delta =>
      (fun done => (distrAccumulate done.1, done.2)) <$> EntityDelta.apply delta entity
  | dormancyTick delta =>
      (fun done => (dormancyTick done.1, done.2)) <$> EntityDelta.apply delta entity
  | committeeGc delta =>
      (fun done => (committeeGc done.1, done.2)) <$> EntityDelta.apply delta entity
  | distrRotate delta =>
      (fun done => (distrRotate done.1, done.2)) <$> EntityDelta.apply delta entity
  | distrBoundaryCredit delta =>
      (fun done => (distrBoundaryCredit done.1, done.2)) <$> EntityDelta.apply delta entity

def undo (entity : Option GovState) : GovBoundaryDelta → Except Panic (Option GovState)
  | distrAccumulate delta => EntityDelta.undo delta entity
  | dormancyTick delta => EntityDelta.undo delta entity
  | committeeGc delta => EntityDelta.undo delta entity
  | distrRotate delta => EntityDelta.undo delta entity
  | distrBoundaryCredit delta => EntityDelta.undo delta entity

end GovBoundaryDelta

end Dolos
