import Dolos.Core.Entity

/-!
# Values with epoch snapshots

`cardano/src/model/epoch_value.rs`: a value with its live version, the version
scheduled for the next epoch and the snapshots of the last three epochs. Which
epoch a snapshot belongs to is positional, counted back from the live epoch.
-/

namespace Dolos

inductive EpochPosition where
  | genesis
  | epoch (number : ℕ)
  deriving DecidableEq, Repr

namespace EpochPosition

def mark : EpochPosition → Option ℕ
  | epoch number => if 1 ≤ number then some (number - 1) else none
  | genesis => none

def set : EpochPosition → Option ℕ
  | epoch number => if 2 ≤ number then some (number - 2) else none
  | genesis => none

def go : EpochPosition → Option ℕ
  | epoch number => if 3 ≤ number then some (number - 3) else none
  | genesis => none

def add : EpochPosition → ℕ → EpochPosition
  | genesis, other => if other = 0 then genesis else epoch (other - 1)
  | epoch current, other => epoch (current + other)

end EpochPosition

/-- What a value becomes at the next epoch when nothing was scheduled. -/
class TransitionDefault (T : Type) where
  nextValue : Option T → Except Panic (Option T)

@[ext]
structure EpochValue (T : Type) where
  epoch : EpochPosition
  next : Option T
  live : Option T
  mark : Option T
  set : Option T
  go : Option T
  deriving DecidableEq, Repr

namespace EpochValue

variable {T : Type}

def new (epoch : ℕ) : EpochValue T := ⟨.epoch epoch, none, none, none, none, none⟩

def withLive (epoch : ℕ) (live : T) : EpochValue T :=
  ⟨.epoch epoch, none, some live, none, none, none⟩

/-- The epoch of the live value. -/
def epochNumber (value : EpochValue T) : Option ℕ :=
  match value.epoch with
  | .genesis => none
  | .epoch number => some number

def isAtEpoch (value : EpochValue T) (epoch : ℕ) : Bool := value.epochNumber = some epoch

def unwrapLive (value : EpochValue T) : Except Panic T :=
  expect value.live "live value not initialized"

/-- Write through `unwrap_live_mut`, once the live value is known to be there. -/
def setLive (value : EpochValue T) (live : T) : EpochValue T := { value with live := some live }

def schedule (value : EpochValue T) (next : Option T) : EpochValue T :=
  { value with next := next }

/-- `live_mut`: the live slot may only change while nothing is scheduled. -/
def liveMut (value : EpochValue T) : Except Panic (Option T) :=
  if value.next.isNone then .ok value.live
  else .error (.assertFailed "can't change live value when next value is already scheduled")

def reset (value : EpochValue T) (live : Option T) : EpochValue T := { value with live := live }

def replace (value : EpochValue T) (live : T) : EpochValue T := { value with live := some live }

def transition (value : EpochValue T) : EpochValue T where
  go := value.set
  set := value.mark
  mark := value.live
  live := value.next
  next := none
  epoch := value.epoch.add 1

def snapshotAt (value : EpochValue T) (endingEpoch : ℕ) : Option T :=
  if value.epoch = .epoch endingEpoch then value.live
  else if value.epoch.mark = some endingEpoch then value.mark
  else if value.epoch.set = some endingEpoch then value.set
  else if value.epoch.go = some endingEpoch then value.go
  else none

/-- `scheduled_or_default`: the scheduled value, taken from the default first when
there is none. -/
def scheduledOrDefault [TransitionDefault T] (value : EpochValue T) : Except Panic T :=
  match value.next with
  | some next => .ok next
  | none => do
      match ← TransitionDefault.nextValue value.live with
      | some next => .ok next
      | none => .error .unwrapNone

def defaultTransition [TransitionDefault T] (value : EpochValue T) :
    Except Panic (EpochValue T) :=
  match value.next with
  | some _ => .ok value.transition
  | none => do
      let next ← TransitionDefault.nextValue value.live
      .ok { value with next := next }.transition

@[simp]
theorem unwrapLive_eq_ok {value : EpochValue T} {live : T} :
    value.unwrapLive = .ok live ↔ value.live = some live := by
  cases liveEq : value.live with
  | none => simp [unwrapLive, liveEq]
  | some held => simp [unwrapLive, liveEq]

@[simp]
theorem live_setLive (value : EpochValue T) (live : T) : (value.setLive live).live = some live :=
  rfl

@[simp]
theorem setLive_setLive (value : EpochValue T) (first second : T) :
    (value.setLive first).setLive second = value.setLive second := rfl

theorem setLive_self {value : EpochValue T} {live : T} (held : value.live = some live) :
    value.setLive live = value := by
  rw [setLive, ← held]

end EpochValue

end Dolos
