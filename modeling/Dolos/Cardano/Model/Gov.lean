import Dolos.Cardano.Model.Proposals

/-!
# The governance singleton

`cardano/src/model/gov.rs`: the enacted constitution and committee, the committee
authorizations and the stake distributions of the last boundary, with the deltas a
block emits for them.
-/

namespace Dolos

open Outcome

/-- Representatives are ordered by kind first. -/
def DRep.rank : DRep → ℕ ×ₗ Hash28
  | key hash => toLex (0, hash)
  | script hash => toLex (1, hash)
  | abstain => toLex (2, 0)
  | noConfidence => toLex (3, 0)

theorem DRep.rank_injective : Function.Injective DRep.rank := by
  intro left right same
  cases left <;> cases right <;> simp_all [rank]

instance : LinearOrder DRep := LinearOrder.lift' DRep.rank DRep.rank_injective

structure Constitution where
  anchor : Anchor
  guardrailScript : Option Hash28
  deriving DecidableEq, Repr

structure Committee where
  members : OrderedMap StakeCredential ℕ
  threshold : RationalNumber
  deriving DecidableEq

inductive CommitteeAuthorization where
  | hotCredential (hot : StakeCredential)
  | resigned (anchor : Option Anchor)
  deriving DecidableEq, Repr

/-- The authorizations of one committee member, oldest first. -/
abbrev AuthHistory := List (ℕ × CommitteeAuthorization)

/-- The stake distributions an epoch boundary accumulates shard by shard. -/
structure GovDistr where
  closingEpoch : ℕ
  committedShards : ℕ
  totalShards : ℕ
  drepDistr : OrderedMap DRep ℕ
  poolDistr : OrderedMap Hash28 ℕ
  poolTotal : ℕ
  deriving DecidableEq

namespace GovDistr

def new (closingEpoch totalShards : ℕ) : GovDistr := ⟨closingEpoch, 0, totalShards, ∅, ∅, 0⟩

def isCompleteFor (distr : GovDistr) (epoch : ℕ) : Bool :=
  distr.closingEpoch = epoch ∧ distr.committedShards = distr.totalShards

end GovDistr

structure GovRoots where
  pparamUpdate : Option GovActionId
  hardFork : Option GovActionId
  committee : Option GovActionId
  constitution : Option GovActionId
  deriving DecidableEq, Repr

namespace GovRoots

def root (roots : GovRoots) : GovPurpose → Option GovActionId
  | .pparamUpdate => roots.pparamUpdate
  | .hardFork => roots.hardFork
  | .committee => roots.committee
  | .constitution => roots.constitution

/-- A write through `root_mut`. -/
def setRoot (roots : GovRoots) (purpose : GovPurpose) (id : Option GovActionId) : GovRoots :=
  match purpose with
  | .pparamUpdate => { roots with pparamUpdate := id }
  | .hardFork => { roots with hardFork := id }
  | .committee => { roots with committee := id }
  | .constitution => { roots with constitution := id }

theorem root_setRoot (roots : GovRoots) (purpose other : GovPurpose) (id : Option GovActionId) :
    (roots.setRoot purpose id).root other = if other = purpose then id else roots.root other := by
  cases purpose <;> cases other <;> rfl

theorem setRoot_setRoot_root (roots : GovRoots) (purpose : GovPurpose)
    (id : Option GovActionId) :
    (roots.setRoot purpose id).setRoot purpose (roots.root purpose) = roots := by
  cases purpose <;> rfl

end GovRoots

structure GovState where
  constitution : Option Constitution
  committee : Option Committee
  committeeAuths : OrderedMap StakeCredential AuthHistory
  prevGovActionIds : GovRoots
  numDormantEpochs : ℕ
  activeSince : Option ℕ
  distr : Option GovDistr
  prevDistr : Option GovDistr
  deriving DecidableEq

namespace GovState

def nsKey : NsKey := toLex (.gov, .singleton)

/-- The message of every delta that misses the singleton. -/
def mustExist : String :=
  "gov singleton must exist: seeded at bootstrap or by the CARDANO-006 migration"

/-- `push_auth`, with whether the history had to be opened. -/
def pushAuth (entity : Option GovState) (cold : StakeCredential)
    (auth : ℕ × CommitteeAuthorization) : Except Panic (Bool × Option GovState) := do
  let state ← expect entity mustExist
  .ok ((state.committeeAuths.get? cold).isNone,
    some { state with committeeAuths := state.committeeAuths.appendTo cold auth })

def popAuth (entity : Option GovState) (cold : StakeCredential) (created : Bool) :
    Except Panic (Option GovState) := do
  let state ← expect entity mustExist
  .ok (some { state with committeeAuths := state.committeeAuths.dropFrom cold created })

theorem popAuth_pushAuth {before after : Option GovState} {cold : StakeCredential}
    {auth : ℕ × CommitteeAuthorization} {created : Bool}
    (pushed : pushAuth before cold auth = .ok (created, after)) :
    popAuth after cold created = .ok before := by
  cases before with
  | none => simp [pushAuth] at pushed
  | some state =>
      simp only [pushAuth, expect_some, ok_bind, Except.ok.injEq, Prod.mk.injEq] at pushed
      rcases pushed with ⟨rfl, rfl⟩
      simp [popAuth, OrderedMap.dropFrom_appendTo]

end GovState

structure CommitteeAuth where
  cold : StakeCredential
  hot : StakeCredential
  slot : ℕ
  createdEntry : Bool
  deriving DecidableEq, Repr

namespace CommitteeAuth

def new (cold hot : StakeCredential) (slot : ℕ) : CommitteeAuth := ⟨cold, hot, slot, false⟩

instance : EntityDelta CommitteeAuth GovState where
  key _ := GovState.nsKey
  apply delta entity := do
    let (created, after) ← GovState.pushAuth entity delta.cold
      (delta.slot, .hotCredential delta.hot)
    .ok ({ delta with createdEntry := created }, after)
  undo delta entity := GovState.popAuth entity delta.cold delta.createdEntry

end CommitteeAuth

structure CommitteeResign where
  cold : StakeCredential
  anchor : Option Anchor
  slot : ℕ
  createdEntry : Bool
  deriving DecidableEq, Repr

namespace CommitteeResign

def new (cold : StakeCredential) (anchor : Option Anchor) (slot : ℕ) : CommitteeResign :=
  ⟨cold, anchor, slot, false⟩

instance : EntityDelta CommitteeResign GovState where
  key _ := GovState.nsKey
  apply delta entity := do
    let (created, after) ← GovState.pushAuth entity delta.cold (delta.slot, .resigned delta.anchor)
    .ok ({ delta with createdEntry := created }, after)
  undo delta entity := GovState.popAuth entity delta.cold delta.createdEntry

end CommitteeResign

inductive CommitteeChange where
  | noConfidence
  | update (toRemove : List StakeCredential) (toAdd : List (StakeCredential × ℕ))
      (threshold : RationalNumber)
  deriving DecidableEq, Repr

/-- The committee after the change. An update out of the no-confidence state starts from
an empty member set. -/
def CommitteeChange.change (committee : Option Committee) : CommitteeChange → Option Committee
  | noConfidence => none
  | update toRemove toAdd threshold =>
      let members := (committee.map Committee.members).getD ∅
      some ⟨(members.eraseAll toRemove).insertAll toAdd, threshold⟩

/-- A ratified committee action reached enactment. -/
structure CommitteeUpdate where
  change : CommitteeChange
  prev : Option Committee
  deriving DecidableEq

namespace CommitteeUpdate

def noConfidence : CommitteeUpdate := ⟨.noConfidence, none⟩

def update (toRemove : List StakeCredential) (toAdd : List (StakeCredential × ℕ))
    (threshold : RationalNumber) : CommitteeUpdate :=
  ⟨.update toRemove toAdd threshold, none⟩

instance : EntityDelta CommitteeUpdate GovState where
  key _ := GovState.nsKey
  apply delta entity := do
    let state ← expect entity GovState.mustExist
    .ok ({ delta with prev := state.committee },
      some { state with committee := delta.change.change state.committee })
  undo delta entity := do
    let state ← expect entity GovState.mustExist
    .ok (some { state with committee := delta.prev })

end CommitteeUpdate

structure ConstitutionUpdate where
  constitution : Constitution
  prev : Option Constitution
  deriving DecidableEq, Repr

namespace ConstitutionUpdate

def new (constitution : Constitution) : ConstitutionUpdate := ⟨constitution, none⟩

instance : EntityDelta ConstitutionUpdate GovState where
  key _ := GovState.nsKey
  apply delta entity := do
    let state ← expect entity GovState.mustExist
    .ok ({ delta with prev := state.constitution },
      some { state with constitution := some delta.constitution })
  undo delta entity := do
    let state ← expect entity GovState.mustExist
    .ok (some { state with constitution := delta.prev })

end ConstitutionUpdate

/-- An enacted action becomes the root of its lineage tree. -/
structure GovRootsUpdate where
  purpose : GovPurpose
  action : GovActionId
  prev : Option GovActionId
  deriving DecidableEq, Repr

namespace GovRootsUpdate

def new (purpose : GovPurpose) (action : GovActionId) : GovRootsUpdate := ⟨purpose, action, none⟩

instance : EntityDelta GovRootsUpdate GovState where
  key _ := GovState.nsKey
  apply delta entity := do
    let state ← expect entity GovState.mustExist
    .ok ({ delta with prev := state.prevGovActionIds.root delta.purpose },
      some { state with
        prevGovActionIds := state.prevGovActionIds.setRoot delta.purpose (some delta.action) })
  undo delta entity := do
    let state ← expect entity GovState.mustExist
    .ok (some { state with
      prevGovActionIds := state.prevGovActionIds.setRoot delta.purpose delta.prev })

end GovRootsUpdate

structure GovDormancyReset where
  prev : ℕ
  deriving DecidableEq, Repr

namespace GovDormancyReset

def new : GovDormancyReset := ⟨0⟩

instance : EntityDelta GovDormancyReset GovState where
  key _ := GovState.nsKey
  apply _ entity := do
    let state ← expect entity GovState.mustExist
    .ok (⟨state.numDormantEpochs⟩, some { state with numDormantEpochs := 0 })
  undo delta entity := do
    let state ← expect entity GovState.mustExist
    .ok (some { state with numDormantEpochs := delta.prev })

end GovDormancyReset

section Faithful

open EntityDelta

variable {before after : Option GovState}

theorem CommitteeAuth.faithful {delta applied : CommitteeAuth}
    (done : apply delta before = .ok (applied, after)) : Faithful delta applied before after := by
  rcases bind_eq_ok.mp done with ⟨⟨created, pushedTo⟩, pushed, appliedEq⟩
  simp only [Except.ok.injEq, Prod.mk.injEq] at appliedEq
  rcases appliedEq with ⟨rfl, rfl⟩
  exact ⟨rfl, GovState.popAuth_pushAuth pushed, _, done⟩

theorem CommitteeResign.faithful {delta applied : CommitteeResign}
    (done : apply delta before = .ok (applied, after)) : Faithful delta applied before after := by
  rcases bind_eq_ok.mp done with ⟨⟨created, pushedTo⟩, pushed, appliedEq⟩
  simp only [Except.ok.injEq, Prod.mk.injEq] at appliedEq
  rcases appliedEq with ⟨rfl, rfl⟩
  exact ⟨rfl, GovState.popAuth_pushAuth pushed, _, done⟩

theorem CommitteeUpdate.faithful {delta applied : CommitteeUpdate}
    (done : apply delta before = .ok (applied, after)) : Faithful delta applied before after := by
  cases before with
  | none => simp [apply] at done
  | some state =>
      have appliedEq := done
      simp only [apply, expect_some, ok_bind, Except.ok.injEq, Prod.mk.injEq] at appliedEq
      rcases appliedEq with ⟨rfl, rfl⟩
      exact ⟨rfl, rfl, _, done⟩

theorem ConstitutionUpdate.faithful {delta applied : ConstitutionUpdate}
    (done : apply delta before = .ok (applied, after)) : Faithful delta applied before after := by
  cases before with
  | none => simp [apply] at done
  | some state =>
      have appliedEq := done
      simp only [apply, expect_some, ok_bind, Except.ok.injEq, Prod.mk.injEq] at appliedEq
      rcases appliedEq with ⟨rfl, rfl⟩
      exact ⟨rfl, rfl, _, done⟩

theorem GovRootsUpdate.faithful {delta applied : GovRootsUpdate}
    (done : apply delta before = .ok (applied, after)) : Faithful delta applied before after := by
  cases before with
  | none => simp [apply] at done
  | some state =>
      have appliedEq := done
      simp only [apply, expect_some, ok_bind, Except.ok.injEq, Prod.mk.injEq] at appliedEq
      rcases appliedEq with ⟨rfl, rfl⟩
      refine ⟨rfl, ?_, _, done⟩
      simp [undo, GovRoots.setRoot_setRoot_root]

theorem GovDormancyReset.faithful {delta applied : GovDormancyReset}
    (done : apply delta before = .ok (applied, after)) : Faithful delta applied before after := by
  cases before with
  | none => simp [apply] at done
  | some state =>
      have appliedEq := done
      simp only [apply, expect_some, ok_bind, Except.ok.injEq, Prod.mk.injEq] at appliedEq
      rcases appliedEq with ⟨rfl, rfl⟩
      exact ⟨rfl, rfl, _, done⟩

end Faithful

end Dolos
