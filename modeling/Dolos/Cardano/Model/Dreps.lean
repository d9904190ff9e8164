import Dolos.Cardano.Model.Accounts

/-!
# DReps

`cardano/src/model/dreps.rs`: the delegated representative entity, its expiry, and the
deltas that blocks and boundaries emit for it.
-/

namespace Dolos

open Outcome

structure Anchor where
  url : String
  contentHash : BlockHash
  deriving DecidableEq, Repr

theorem DRep.key_lt (hash : Hash28) : 0x22 * 2 ^ 248 + hash.val * 2 ^ 24 < 2 ^ 256 := by
  have bound := hash.isLt
  omega

theorem DRep.script_lt (hash : Hash28) : 0x23 * 2 ^ 248 + hash.val * 2 ^ 24 < 2 ^ 256 := by
  have bound := hash.isLt
  omega

theorem DRep.abstain_lt : 0 < 2 ^ 256 := by omega

theorem DRep.noConfidence_lt : 2 ^ 248 < 2 ^ 256 := by omega

/-- `drep_to_entity_key`: one leading byte before the hash; the two predefined
representatives get keys of one byte. -/
def DRep.entityKey : DRep → EntityKey
  | key hash => ⟨0x22 * 2 ^ 248 + hash.val * 2 ^ 24, key_lt hash⟩
  | script hash => ⟨0x23 * 2 ^ 248 + hash.val * 2 ^ 24, script_lt hash⟩
  | abstain => ⟨0, abstain_lt⟩
  | noConfidence => ⟨2 ^ 248, noConfidence_lt⟩

/-- An expiry epoch together with the value it had before the epoch of its last
write. -/
structure DRepExpiry where
  current : ℕ
  updatedIn : ℕ
  prev : Option ℕ
  deriving DecidableEq, Repr

namespace DRepExpiry

def new (value epoch : ℕ) : DRepExpiry := ⟨value, epoch, none⟩

def set (expiry : DRepExpiry) (value epoch : ℕ) : DRepExpiry :=
  if expiry.updatedIn ≠ epoch then ⟨value, epoch, some expiry.current⟩
  else { expiry with current := value }

def asOf (expiry : DRepExpiry) (epoch : ℕ) : Option ℕ :=
  if expiry.updatedIn ≤ epoch then some expiry.current else expiry.prev

end DRepExpiry

structure DRepState where
  registeredAt : Option (ℕ × ℕ)
  votingPower : ℕ
  lastActiveSlot : Option ℕ
  unregisteredAt : Option (ℕ × ℕ)
  expired : Bool
  deposit : ℕ
  identifier : DRep
  anchor : Option Anchor
  expiry : Option DRepExpiry
  deriving DecidableEq, Repr

namespace DRepState

def new (identifier : DRep) : DRepState where
  registeredAt := none
  votingPower := 0
  lastActiveSlot := none
  unregisteredAt := none
  expired := false
  deposit := 0
  identifier := identifier
  anchor := none
  expiry := none

def isUnregistered (drep : DRepState) : Bool :=
  match drep.registeredAt, drep.unregisteredAt with
  | some registered, some unregistered => toLex registered < toLex unregistered
  | _, none => false
  | none, some _ => false

def isRegistered (drep : DRepState) : Bool := drep.registeredAt.isSome ∧ !drep.isUnregistered

def nsKey (drep : DRep) : NsKey := toLex (.dreps, drep.entityKey)

end DRepState

structure DRepRegistration where
  drep : DRep
  slot : ℕ
  txorder : ℕ
  deposit : ℕ
  anchor : Option Anchor
  wasNew : Bool
  prevRegisteredAt : Option (ℕ × ℕ)
  prevVotingPower : ℕ
  prevDeposit : ℕ
  deriving DecidableEq, Repr

namespace DRepRegistration

def new (drep : DRep) (slot txorder deposit : ℕ) (anchor : Option Anchor) : DRepRegistration :=
  ⟨drep, slot, txorder, deposit, anchor, false, none, 0, 0⟩

instance : EntityDelta DRepRegistration DRepState where
  key delta := DRepState.nsKey delta.drep
  apply delta entity :=
    let state := entity.getD (.new delta.drep)
    .ok ({ delta with
        wasNew := entity.isNone
        prevRegisteredAt := state.registeredAt
        prevVotingPower := state.votingPower
        prevDeposit := state.deposit },
      some { state with
        registeredAt := some (delta.slot, delta.txorder)
        votingPower := delta.deposit
        deposit := delta.deposit })
  undo delta entity :=
    if delta.wasNew then .ok none
    else do
      let state ← expect entity "existing drep"
      .ok (some { state with
        registeredAt := delta.prevRegisteredAt
        votingPower := delta.prevVotingPower
        deposit := delta.prevDeposit })

end DRepRegistration

structure DRepUnRegistration where
  drep : DRep
  slot : ℕ
  txorder : ℕ
  prevVotingPower : Option ℕ
  prevDeposit : Option ℕ
  prevUnregisteredAt : Option (ℕ × ℕ)
  deriving DecidableEq, Repr

namespace DRepUnRegistration

def new (drep : DRep) (slot txorder : ℕ) : DRepUnRegistration :=
  ⟨drep, slot, txorder, none, none, none⟩

instance : EntityDelta DRepUnRegistration DRepState where
  key delta := DRepState.nsKey delta.drep
  apply delta entity := do
    let state ← expect entity "can't unregister missing drep"
    .ok ({ delta with
        prevVotingPower := some state.votingPower
        prevUnregisteredAt := state.unregisteredAt
        prevDeposit := some state.deposit },
      some { state with
        votingPower := 0
        unregisteredAt := some (delta.slot, delta.txorder)
        deposit := 0 })
  undo delta entity := do
    let state ← expect entity "can't undo unregister on missing drep"
    .ok (some { state with
      votingPower := delta.prevVotingPower.getD 0
      unregisteredAt := delta.prevUnregisteredAt
      deposit := delta.prevDeposit.getD 0 })

end DRepUnRegistration

structure DRepActivity where
  drep : DRep
  slot : ℕ
  previousLastActiveSlot : Option ℕ
  wasNew : Bool
  deriving DecidableEq, Repr

namespace DRepActivity

def new (drep : DRep) (slot : ℕ) : DRepActivity := ⟨drep, slot, none, false⟩

instance : EntityDelta DRepActivity DRepState where
  key delta := DRepState.nsKey delta.drep
  apply delta entity :=
    let state := entity.getD (.new delta.drep)
    .ok ({ delta with wasNew := entity.isNone, previousLastActiveSlot := state.lastActiveSlot },
      some { state with lastActiveSlot := some delta.slot })
  undo delta entity :=
    if delta.wasNew then .ok none
    else .ok (entity.map fun state => { state with lastActiveSlot := delta.previousLastActiveSlot })

end DRepActivity

structure DRepAnchorUpdate where
  drep : DRep
  anchor : Option Anchor
  wasNew : Bool
  prevAnchor : Option Anchor
  deriving DecidableEq, Repr

namespace DRepAnchorUpdate

def new (drep : DRep) (anchor : Option Anchor) : DRepAnchorUpdate := ⟨drep, anchor, false, none⟩

instance : EntityDelta DRepAnchorUpdate DRepState where
  key delta := DRepState.nsKey delta.drep
  apply delta entity :=
    let state := entity.getD (.new delta.drep)
    .ok ({ delta with wasNew := entity.isNone, prevAnchor := state.anchor },
      some { state with anchor := delta.anchor })
  undo delta entity :=
    if delta.wasNew then .ok none
    else .ok (entity.map fun state => { state with anchor := delta.prevAnchor })

end DRepAnchorUpdate

/-- A boundary finds a representative past its expiry. -/
structure DRepExpiration where
  drepId : EntityKey
  prevExpired : Bool
  deriving DecidableEq, Repr

namespace DRepExpiration

def new (drepId : EntityKey) : DRepExpiration := ⟨drepId, false⟩

instance : EntityDelta DRepExpiration DRepState where
  key delta := toLex (.dreps, delta.drepId)
  apply delta entity := do
    let state ← expect entity "existing drep"
    .ok ({ delta with prevExpired := state.expired }, some { state with expired := true })
  undo delta entity :=
    .ok (entity.map fun state => { state with expired := delta.prevExpired })

end DRepExpiration

structure DRepExpiryUpdate where
  drep : DRep
  expiry : ℕ
  epoch : ℕ
  onlyIfRegistered : Bool
  applied : Bool
  wasNew : Bool
  prevExpiry : Option DRepExpiry
  prevExpired : Bool
  deriving DecidableEq, Repr

namespace DRepExpiryUpdate

def new (drep : DRep) (expiry epoch : ℕ) (onlyIfRegistered : Bool) : DRepExpiryUpdate :=
  ⟨drep, expiry, epoch, onlyIfRegistered, false, false, none, false⟩

/-- Votes refresh registered representatives only. -/
def skips (delta : DRepExpiryUpdate) (entity : Option DRepState) : Bool :=
  delta.onlyIfRegistered ∧ !entity.any DRepState.isRegistered

def refreshed (delta : DRepExpiryUpdate) (state : DRepState) : DRepExpiry :=
  match state.expiry with
  | some expiry => expiry.set delta.expiry delta.epoch
  | none => .new delta.expiry delta.epoch

instance : EntityDelta DRepExpiryUpdate DRepState where
  key delta := DRepState.nsKey delta.drep
  apply delta entity :=
    if delta.skips entity then .ok ({ delta with applied := false, wasNew := false }, entity)
    else
      let state := entity.getD (.new delta.drep)
      .ok ({ delta with
          wasNew := entity.isNone
          prevExpiry := state.expiry
          prevExpired := state.expired
          applied := true },
        some { state with expiry := some (delta.refreshed state), expired := false })
  undo delta entity :=
    if delta.applied = false then .ok entity
    else if delta.wasNew then .ok none
    else .ok (entity.map fun state =>
      { state with expiry := delta.prevExpiry, expired := delta.prevExpired })

end DRepExpiryUpdate

structure DRepDormancyRelease where
  drepId : EntityKey
  dormantEpochs : ℕ
  epoch : ℕ
  applied : Bool
  prevExpiry : Option DRepExpiry
  deriving DecidableEq, Repr

namespace DRepDormancyRelease

def new (drepId : EntityKey) (dormantEpochs epoch : ℕ) : DRepDormancyRelease :=
  ⟨drepId, dormantEpochs, epoch, false, none⟩

/-- The expiry to extend: unregistered representatives, those without an expiry and
those long expired are left alone. -/
def released (delta : DRepDormancyRelease) (state : DRepState) : Option DRepExpiry :=
  if state.isUnregistered then none
  else
    match state.expiry with
    | none => none
    | some expiry =>
        if expiry.current + delta.dormantEpochs < delta.epoch then none else some expiry

instance : EntityDelta DRepDormancyRelease DRepState where
  key delta := toLex (.dreps, delta.drepId)
  apply delta entity :=
    match entity with
    | none => .ok ({ delta with applied := false }, none)
    | some state =>
        match delta.released state with
        | none => .ok ({ delta with applied := false }, some state)
        | some expiry =>
            .ok ({ delta with prevExpiry := some expiry, applied := true },
              some { state with
                expiry := some (expiry.set (expiry.current + delta.dormantEpochs) delta.epoch) })
  undo delta entity :=
    if delta.applied = false then .ok entity
    else .ok (entity.map fun state => { state with expiry := delta.prevExpiry })

theorem expiry_of_released {delta : DRepDormancyRelease} {state : DRepState} {expiry : DRepExpiry}
    (released : delta.released state = some expiry) : state.expiry = some expiry := by
  rw [DRepDormancyRelease.released] at released
  split_ifs at released
  cases held : state.expiry with
  | none => simp [held] at released
  | some current =>
      simp only [held] at released
      split_ifs at released
      exact released

end DRepDormancyRelease

/-- The stake behind a representative at a boundary. -/
structure DRepPowerUpdate where
  drepId : EntityKey
  power : ℕ
  prevPower : ℕ
  deriving DecidableEq, Repr

namespace DRepPowerUpdate

def new (drepId : EntityKey) (power : ℕ) : DRepPowerUpdate := ⟨drepId, power, 0⟩

instance : EntityDelta DRepPowerUpdate DRepState where
  key delta := toLex (.dreps, delta.drepId)
  apply delta entity := do
    let state ← expect entity "existing drep"
    .ok ({ delta with prevPower := state.votingPower },
      some { state with votingPower := delta.power })
  undo delta entity := do
    let state ← expect entity "existing drep"
    .ok (some { state with votingPower := delta.prevPower })

end DRepPowerUpdate

section Faithful

open EntityDelta

variable {before after : Option DRepState}

theorem DRepRegistration.faithful {delta applied : DRepRegistration}
    (done : apply delta before = .ok (applied, after)) : Faithful delta applied before after := by
  have appliedEq := done
  simp only [apply, Except.ok.injEq, Prod.mk.injEq] at appliedEq
  rcases appliedEq with ⟨rfl, rfl⟩
  refine ⟨rfl, ?_, _, done⟩
  cases before with
  | none => rfl
  | some state => rfl

theorem DRepUnRegistration.faithful {delta applied : DRepUnRegistration}
    (done : apply delta before = .ok (applied, after)) : Faithful delta applied before after := by
  cases before with
  | none => simp [apply] at done
  | some state =>
      have appliedEq := done
      simp only [apply, expect_some, ok_bind, Except.ok.injEq, Prod.mk.injEq] at appliedEq
      rcases appliedEq with ⟨rfl, rfl⟩
      exact ⟨rfl, rfl, _, done⟩

theorem DRepActivity.faithful {delta applied : DRepActivity}
    (done : apply delta before = .ok (applied, after)) : Faithful delta applied before after := by
  have appliedEq := done
  simp only [apply, Except.ok.injEq, Prod.mk.injEq] at appliedEq
  rcases appliedEq with ⟨rfl, rfl⟩
  refine ⟨rfl, ?_, _, done⟩
  cases before with
  | none => rfl
  | some state => rfl

theorem DRepAnchorUpdate.faithful {delta applied : DRepAnchorUpdate}
    (done : apply delta before = .ok (applied, after)) : Faithful delta applied before after := by
  have appliedEq := done
  simp only [apply, Except.ok.injEq, Prod.mk.injEq] at appliedEq
  rcases appliedEq with ⟨rfl, rfl⟩
  refine ⟨rfl, ?_, _, done⟩
  cases before with
  | none => rfl
  | some state => rfl

theorem DRepExpiryUpdate.faithful {delta applied : DRepExpiryUpdate}
    (done : apply delta before = .ok (applied, after)) : Faithful delta applied before after := by
  have appliedEq := done
  simp only [apply] at appliedEq
  split_ifs at appliedEq with skipped
  · simp only [Except.ok.injEq, Prod.mk.injEq] at appliedEq
    rcases appliedEq with ⟨rfl, rfl⟩
    exact ⟨rfl, rfl, _, done⟩
  · simp only [Except.ok.injEq, Prod.mk.injEq] at appliedEq
    rcases appliedEq with ⟨rfl, rfl⟩
    refine ⟨rfl, ?_, _, if_neg skipped⟩
    cases before with
    | none => rfl
    | some state => rfl

theorem DRepDormancyRelease.faithful {delta applied : DRepDormancyRelease}
    (done : apply delta before = .ok (applied, after)) : Faithful delta applied before after := by
  cases before with
  | none =>
      have appliedEq := done
      simp only [apply, Except.ok.injEq, Prod.mk.injEq] at appliedEq
      rcases appliedEq with ⟨rfl, rfl⟩
      exact ⟨rfl, rfl, _, done⟩
  | some state =>
      have appliedEq := done
      simp only [apply] at appliedEq
      cases released : delta.released state with
      | none =>
          simp only [released, Except.ok.injEq, Prod.mk.injEq] at appliedEq
          rcases appliedEq with ⟨rfl, rfl⟩
          exact ⟨rfl, rfl, _, done⟩
      | some expiry =>
          simp only [released, Except.ok.injEq, Prod.mk.injEq] at appliedEq
          rcases appliedEq with ⟨rfl, rfl⟩
          refine ⟨rfl, ?_, { delta with prevExpiry := some expiry, applied := true }, ?_⟩
          · simp [undo, ← expiry_of_released released]
          · have again : DRepDormancyRelease.released
                { delta with prevExpiry := some expiry, applied := true } state = some expiry :=
              released
            simp [apply, again]

end Faithful

end Dolos
