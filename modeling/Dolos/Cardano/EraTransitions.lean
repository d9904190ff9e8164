import Dolos.Cardano.Eras
import Dolos.Cardano.Model.Proposals

/-!
# Era transitions

How a boundary that changes the protocol version closes one era and opens the next:
`collect_era_transition` of `cardano/src/estart/commit.rs`, `define_end` and the rest of the
lookups of `cardano/src/eras.rs`, and `protocol_constants` of `cardano/src/forks.rs`. The
table of eras is kept by the protocol version, whose big-endian bytes are the key.

The lookups of `Eras` are exact. Those that end in `Word` are the same in the 64 bits of the
source, where a step that does not fit is a panic.
-/

namespace Dolos

open Outcome

/-- An addition of 64-bit words. -/
def addWord (left right : ℕ) : Except Panic ℕ :=
  if left + right < 2 ^ 64 then .ok (left + right) else .error .overflow

def subWord (left right : ℕ) : Except Panic ℕ :=
  if right ≤ left then .ok (left - right) else .error .overflow

def mulWord (left right : ℕ) : Except Panic ℕ :=
  if left * right < 2 ^ 64 then .ok (left * right) else .error .overflow

@[simp]
theorem addWord_eq_ok {left right sum : ℕ} :
    addWord left right = .ok sum ↔ left + right < 2 ^ 64 ∧ left + right = sum := by
  unfold addWord
  split_ifs with fits
  · exact ⟨fun answered => ⟨fits, Except.ok.inj answered⟩, fun same => congrArg _ same.2⟩
  · exact ⟨fun answered => (nomatch answered), fun same => absurd same.1 fits⟩

@[simp]
theorem subWord_eq_ok {left right difference : ℕ} :
    subWord left right = .ok difference ↔ right ≤ left ∧ left - right = difference := by
  unfold subWord
  split_ifs with fits
  · simp [fits]
  · simp [fits]

@[simp]
theorem mulWord_eq_ok {left right product : ℕ} :
    mulWord left right = .ok product ↔ left * right < 2 ^ 64 ∧ left * right = product := by
  unfold mulWord
  split_ifs with fits
  · exact ⟨fun answered => ⟨fits, Except.ok.inj answered⟩, fun same => congrArg _ same.2⟩
  · exact ⟨fun answered => (nomatch answered), fun same => absurd same.1 fits⟩

namespace EraSummary

def slotEpochWord (era : EraSummary) (slot : ℕ) : Except Panic (ℕ × ℕ) := do
  let found ← era.slotEpoch slot
  let _ ← addWord era.start.epoch ((slot - era.start.slot) / era.epochLength)
  .ok found

def epochStartWord (era : EraSummary) (epoch : ℕ) : Except Panic ℕ := do
  let epochs ← subWord epoch era.start.epoch
  let slots ← mulWord epochs era.epochLength
  addWord era.start.slot slots

def slotTime (era : EraSummary) (slot : ℕ) : ℕ :=
  era.start.timestamp + (slot - era.start.slot) * era.slotLength

def slotTimeWord (era : EraSummary) (slot : ℕ) : Except Panic ℕ := do
  let slots ← subWord slot era.start.slot
  let seconds ← mulWord slots era.slotLength
  addWord era.start.timestamp seconds

def defineEnd (era : EraSummary) (atEpoch : ℕ) : Except Panic EraSummary := do
  let epochDelta ← subWord atEpoch era.start.epoch
  let slotDelta ← mulWord epochDelta era.epochLength
  let endSlot ← addWord era.start.slot slotDelta
  let secondDelta ← mulWord slotDelta era.slotLength
  let endTimestamp ← addWord era.start.timestamp secondDelta
  .ok { era with «end» := some ⟨atEpoch, endSlot, endTimestamp⟩ }

/-- `end.unwrap()`. -/
def getEnd (era : EraSummary) : Except Panic EraBoundary :=
  match era.end with
  | some boundary => .ok boundary
  | none => .error .unwrapNone

/-- The boundary an era is closed with when its last epoch is the one before. -/
def boundaryAt (era : EraSummary) (atEpoch : ℕ) : EraBoundary :=
  ⟨atEpoch, era.epochStart atEpoch, era.slotTime (era.epochStart atEpoch)⟩

variable {era : EraSummary}

theorem epochStartWord_eq_ok {epoch start : ℕ} (after : era.start.epoch ≤ epoch) :
    era.epochStartWord epoch = .ok start ↔ era.epochStart epoch < 2 ^ 64 ∧
      era.epochStart epoch = start := by
  simp only [epochStartWord, bind_eq_ok, subWord_eq_ok, mulWord_eq_ok, addWord_eq_ok, epochStart]
  constructor
  · rintro ⟨_, ⟨-, rfl⟩, _, ⟨-, rfl⟩, fits, rfl⟩
    exact ⟨fits, rfl⟩
  · rintro ⟨fits, rfl⟩
    exact ⟨_, ⟨after, rfl⟩, _, ⟨by omega, rfl⟩, fits, rfl⟩

theorem slotTimeWord_eq_ok {slot time : ℕ} (after : era.start.slot ≤ slot) :
    era.slotTimeWord slot = .ok time ↔ era.slotTime slot < 2 ^ 64 ∧ era.slotTime slot = time := by
  simp only [slotTimeWord, bind_eq_ok, subWord_eq_ok, mulWord_eq_ok, addWord_eq_ok, slotTime]
  constructor
  · rintro ⟨_, ⟨-, rfl⟩, _, ⟨-, rfl⟩, fits, rfl⟩
    exact ⟨fits, rfl⟩
  · rintro ⟨fits, rfl⟩
    exact ⟨_, ⟨after, rfl⟩, _, ⟨by omega, rfl⟩, fits, rfl⟩

theorem slotEpochWord_eq_ok {slot : ℕ} {found : ℕ × ℕ} :
    era.slotEpochWord slot = .ok found ↔ era.slotEpoch slot = .ok found ∧ found.1 < 2 ^ 64 := by
  simp only [slotEpochWord, bind_eq_ok, addWord_eq_ok]
  constructor
  · rintro ⟨_, foundEq, _, ⟨fits, rfl⟩, same⟩
    rcases Except.ok.inj same with rfl
    rw [fst_slotEpoch foundEq]
    exact ⟨foundEq, fits⟩
  · rintro ⟨foundEq, fits⟩
    rw [fst_slotEpoch foundEq] at fits
    exact ⟨found, foundEq, _, ⟨fits, rfl⟩, rfl⟩

/-- An era is closed on the first slot of the epoch, at its time. -/
theorem defineEnd_eq_ok {atEpoch : ℕ} {closed : EraSummary}
    (done : era.defineEnd atEpoch = .ok closed) :
    era.start.epoch ≤ atEpoch ∧ closed = { era with «end» := some (era.boundaryAt atEpoch) } := by
  simp only [defineEnd, bind_eq_ok, subWord_eq_ok, mulWord_eq_ok, addWord_eq_ok] at done
  rcases done with ⟨_, ⟨after, rfl⟩, _, ⟨-, rfl⟩, _, ⟨-, rfl⟩, _, ⟨-, rfl⟩, _, ⟨-, rfl⟩, closedEq⟩
  refine ⟨after, ?_⟩
  rw [← Except.ok.inj closedEq]
  simp only [boundaryAt, slotTime, epochStart, Nat.add_sub_cancel_left]

end EraSummary

namespace ChainSummary

/-- `find` over the past eras with their protocols, with the panics of `findPast`. -/
def findProtocol : List (ℕ × EraSummary) → ℕ → Except Panic (ℕ × EraSummary)
  | [], _ => .error .unwrapNone
  | entry :: rest, epoch =>
      if entry.2.start.epoch ≤ epoch then
        match entry.2.end with
        | none => .error .unwrapNone
        | some boundary => if epoch < boundary.epoch then .ok entry else findProtocol rest epoch
      else findProtocol rest epoch

def protocolAndEraForEpoch (summary : ChainSummary) (epoch : ℕ) :
    Except Panic (ℕ × EraSummary) := do
  let edge ← summary.getEdge
  if edge.start.epoch ≤ epoch then
    match summary.protocols.getLast? with
    | none => .error .unwrapNone
    | some protocol => .ok (protocol, edge)
  else findProtocol (summary.protocols.zip summary.past) epoch

def slotTime (summary : ChainSummary) (slot : ℕ) : Except Panic ℕ := do
  let era ← summary.eraForSlot slot
  .ok (era.slotTime slot)

def slotEpochWord (summary : ChainSummary) (slot : ℕ) : Except Panic (ℕ × ℕ) := do
  let era ← summary.eraForSlot slot
  era.slotEpochWord slot

def epochStartWord (summary : ChainSummary) (epoch : ℕ) : Except Panic ℕ := do
  let era ← summary.eraForEpoch epoch
  era.epochStartWord epoch

def slotTimeWord (summary : ChainSummary) (slot : ℕ) : Except Panic ℕ := do
  let era ← summary.eraForSlot slot
  era.slotTimeWord slot

end ChainSummary

/-- The rows of the table in the order of their keys. -/
def loadEraSummary (eras : OrderedMap ℕ EraSummary) : ChainSummary :=
  eras.entries.foldl (fun chain entry => chain.appendEra entry.1 entry.2) .default

/-- What the genesis files say about the eras. Slot lengths of Byron are in milliseconds. -/
structure EraGenesis where
  byronSlotDuration : ℕ
  shelleyEpochLength : Option ℕ
  shelleySlotLength : Option ℕ
  deriving DecidableEq, Repr

def fiveDaysInSeconds : ℕ := 5 * 24 * 60 * 60

structure ProtocolConstants where
  epochLength : ℕ
  slotLength : ℕ
  deriving DecidableEq, Repr

def protocolConstants (version : ℕ) (genesis : EraGenesis) : Except Panic ProtocolConstants :=
  if version < 2 then
    let slotLengthInSecs := genesis.byronSlotDuration / 1000
    if slotLengthInSecs = 0 then .error .divisionByZero
    else .ok ⟨fiveDaysInSeconds / slotLengthInSecs, slotLengthInSecs⟩
  else .ok ⟨genesis.shelleyEpochLength.getD 0, genesis.shelleySlotLength.getD 0⟩

structure EraTransition where
  prevVersion : ℕ
  newVersion : ℕ
  deriving DecidableEq, Repr

def EraTransition.enteringShelley (transition : EraTransition) : Bool :=
  transition.prevVersion < 2 ∧ transition.newVersion = 2

def EraTransition.enteringAllegra (transition : EraTransition) : Bool :=
  transition.prevVersion = 2 ∧ transition.newVersion = 3

def EraTransition.enteringConway (transition : EraTransition) : Bool :=
  transition.prevVersion < 9 ∧ 9 ≤ transition.newVersion

/-- The protocol version changes when the scheduled parameters have another one. -/
def EpochValue.eraTransition (pparams : EpochValue PParamsSet) :
    Except Panic (Option EraTransition) := do
  let live ← pparams.unwrapLive
  let original := live.protocolMajorOrDefault
  match pparams.next.bind PParamsSet.protocolMajor with
  | none => .ok none
  | some update => .ok (if original = update then none else some ⟨original, update⟩)

/-- How the open half of a boundary fails. -/
inductive OpenError where
  | badBootstrap
  | epochBoundaryIncomplete (epoch : ℕ) (committed total : Option ℕ)
  | panic (panic : Panic)
  deriving DecidableEq, Repr

structure EraTransitionData where
  prevKey : ℕ
  prevSummary : EraSummary
  newKey : ℕ
  newSummary : EraSummary
  deriving DecidableEq, Repr

def collectEraTransition (genesis : EraGenesis) (eras : OrderedMap ℕ EraSummary)
    (pparams : EpochValue PParamsSet) (startingEpochNo : ℕ) :
    Except OpenError (Option EraTransitionData) := do
  match ← pparams.eraTransition.mapError .panic with
  | none => .ok none
  | some transition =>
      match eras.get? transition.prevVersion with
      | none => .error .badBootstrap
      | some previous =>
          let closed ← (previous.defineEnd startingEpochNo).mapError .panic
          let consts ← (protocolConstants transition.newVersion genesis).mapError .panic
          let start ← closed.getEnd.mapError .panic
          .ok (some
            { prevKey := transition.prevVersion
              prevSummary := closed
              newKey := transition.newVersion
              newSummary :=
                { start := start
                  «end» := none
                  epochLength := consts.epochLength
                  slotLength := consts.slotLength
                  protocol := transition.newVersion } })

/-- Both rows of a transition are written with the rest of the boundary. -/
def writeEraTransition (eras : OrderedMap ℕ EraSummary) :
    Option EraTransitionData → OrderedMap ℕ EraSummary
  | none => eras
  | some transition =>
      (eras.insert transition.prevKey transition.prevSummary).insert transition.newKey
        transition.newSummary

section Collected

variable {genesis : EraGenesis} {eras : OrderedMap ℕ EraSummary}
  {pparams : EpochValue PParamsSet} {startingEpochNo : ℕ}

theorem collectEraTransition_eq_none {collected : Option EraTransitionData}
    (done : collectEraTransition genesis eras pparams startingEpochNo = .ok collected)
    (isNone : pparams.eraTransition = .ok none) : collected = none := by
  rw [collectEraTransition, isNone] at done
  exact (Except.ok.inj done).symm

/-- The era of the old version ends where the epoch begins, and the new one begins there. -/
theorem collectEraTransition_eq_some {collected : Option EraTransitionData}
    {transition : EraTransition}
    (done : collectEraTransition genesis eras pparams startingEpochNo = .ok collected)
    (isSome : pparams.eraTransition = .ok (some transition)) :
    ∃ previous consts, eras.get? transition.prevVersion = some previous ∧
      previous.start.epoch ≤ startingEpochNo ∧
      protocolConstants transition.newVersion genesis = .ok consts ∧
      collected = some
        { prevKey := transition.prevVersion
          prevSummary := { previous with «end» := some (previous.boundaryAt startingEpochNo) }
          newKey := transition.newVersion
          newSummary :=
            { start := previous.boundaryAt startingEpochNo
              «end» := none
              epochLength := consts.epochLength
              slotLength := consts.slotLength
              protocol := transition.newVersion } } := by
  rw [collectEraTransition, isSome] at done
  simp only [mapError_ok, ok_bind] at done
  cases held : eras.get? transition.prevVersion with
  | none => simp [held] at done
  | some previous =>
      simp only [held, bind_eq_ok, mapError_eq_ok] at done
      rcases done with ⟨closed, closedEq, consts, constsEq, start, startEq, collectedEq⟩
      rcases EraSummary.defineEnd_eq_ok closedEq with ⟨after, rfl⟩
      rcases Except.ok.inj startEq with rfl
      exact ⟨previous, consts, rfl, after, constsEq, (Except.ok.inj collectedEq).symm⟩

end Collected

end Dolos
