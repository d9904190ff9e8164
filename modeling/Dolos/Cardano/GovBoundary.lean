import Dolos.Cardano.DrepLoading
import Dolos.Cardano.Model.GovBoundary
import Dolos.Cardano.RunRatification

/-!
# What a boundary does for the representatives

The parts of `compute_ewrap_deltas` and `emit_governance_boundary_deltas` in
`cardano/src/ewrap/loading.rs` that follow from the ruling: representatives found past
their expiry are marked, registered ones get the stake behind them written to their row,
the count of dormant epochs goes up when nothing is left to vote on, and the completed
distributions are credited and move on.
-/

namespace Dolos

open Outcome

/-- `is_removed` -/
def Ratification.isRemoved (ratification : Ratification) (id : EntityKey) : Bool :=
  (ratification.outcomes.get? id).isSome

namespace BoundaryWork

variable (work : BoundaryWork)

/-- The scan of the accounts counts stake as soon as governance has a first epoch. -/
def distrSnapshotEpoch : Option ℕ := work.govActiveSince.map fun _ => work.closing

/-- The distribution of the boundary, when every shard of it was merged. -/
def completedDRepDistr : Option (OrderedMap DRep ℕ) :=
  match work.distrSnapshotEpoch with
  | none => none
  | some _ =>
      (work.gov.distr.filter fun distr => distr.isCompleteFor work.closing).map GovDistr.drepDistr

/-- What the rows of the representatives are to say, with the credits of the boundary. -/
def drepPower (credits : OrderedMap DRep ℕ) : Option (OrderedMap DRep ℕ) :=
  work.completedDRepDistr.map fun distr => distr.addWeights credits

/-- Only a registered representative whose row says something else is written. -/
def emitDRepPowerUpdate (distr : OrderedMap DRep ℕ) (id : EntityKey) (drep : DRepState) :
    Option DRepPowerUpdate :=
  if drep.isRegistered = false then none
  else
    let power := (distr.get? drep.identifier).getD 0
    if power ≠ drep.votingPower then some (.new id power) else none

/-- `visit_drep` -/
def visitDRep (expiring : List DRep) (id : EntityKey) (drep : DRepState) : Option DRepExpiration :=
  if drep.identifier ∈ expiring then some (.new id) else none

/-- The deltas of one row. The visitor's are queued last. -/
def drepDeltas (power : Option (OrderedMap DRep ℕ)) (expiring : List DRep) (id : EntityKey)
    (drep : DRepState) : List DRepDelta :=
  ((power.bind fun distr => emitDRepPowerUpdate distr id drep).map DRepDelta.powerUpdate).toList ++
    ((visitDRep expiring id drep).map DRepDelta.expiration).toList

/-- Some proposal outlives the boundary and can be voted on in the epoch that begins. -/
def anyVotableSurvivor (ratification : Ratification)
    (proposals : OrderedMap EntityKey ProposalState) :
    Bool :=
  proposals.entries.any fun entry =>
    (entry.2.isUnresolvedAtClose work.closing && !ratification.isRemoved entry.1) &&
      entry.2.maxEpoch.any fun last => work.closing + 1 ≤ last

/-- `emit_governance_boundary_deltas` -/
def emitGovernanceBoundaryDeltas (ratification : Ratification)
    (proposals : OrderedMap EntityKey ProposalState) (credits : OrderedMap DRep ℕ) :
    List GovBoundaryDelta :=
  if work.govActive = false then []
  else
    (if work.anyVotableSurvivor ratification proposals then [] else [.dormancyTick .new]) ++
      .committeeGc .new ::
        (if credits.entries = [] then [] else [.distrBoundaryCredit (.new work.closing credits)]) ++
          [.distrRotate (.new work.closing)]

end BoundaryWork

end Dolos
