import Dolos.Cardano.EraArithmetic
import Dolos.Cardano.Forks
import Dolos.Cardano.Model.Epochs

/-!
# Where nonces stabilize

`cardano/src/estart/nonces.rs` with the deltas it emits and the finalize pass of
`estart/commit.rs`, for the epoch and the table of eras. The pass reads the eras before it
writes those of the boundary, so the slot past which the candidate nonce is fixed comes from
the lengths and the window of the version that ends.

The two windows of the genesis files are computed in floating point and given here, and so
are the pots of the new epoch.
-/

namespace Dolos

open Outcome EntityDelta

structure NonceGenesis where
  forks : ForkGenesis
  shelleyHash : BlockHash
  stabilityWindow : ℕ
  randomnessStabilityWindow : ℕ
  deriving DecidableEq, Repr

def nonceStabilityWindow (protocol : ℕ) (genesis : NonceGenesis) : ℕ :=
  if 9 ≤ protocol then genesis.randomnessStabilityWindow else genesis.stabilityWindow

def Nonces.bootstrap (shelleyHash : BlockHash) : Nonces :=
  ⟨shelleyHash, shelleyHash, shelleyHash, none⟩

structure NonceTransition where
  nextNonce : Option Nonces
  nextSlot : ℕ
  prevPreviousNonceTail : Option BlockHash
  prevNonces : Option Nonces
  prevLargestStableSlot : ℕ
  deriving DecidableEq, Repr

namespace NonceTransition

def new (nextNonce : Option Nonces) (nextSlot : ℕ) : NonceTransition :=
  ⟨nextNonce, nextSlot, none, none, 0⟩

instance : EntityDelta NonceTransition EpochState where
  key _ := EpochState.nsKey
  apply delta entity := do
    let state ← expect entity "existing epoch"
    .ok ({ delta with
        prevPreviousNonceTail := state.previousNonceTail
        prevNonces := state.nonces
        prevLargestStableSlot := state.largestStableSlot },
      some { state with
        previousNonceTail := state.nonces.bind Nonces.tail
        nonces := delta.nextNonce
        largestStableSlot := delta.nextSlot })
  undo delta entity := do
    let state ← expect entity "existing epoch"
    .ok (some { state with
      previousNonceTail := delta.prevPreviousNonceTail
      nonces := delta.prevNonces
      largestStableSlot := delta.prevLargestStableSlot })

end NonceTransition

structure EpochTransitionV2 where
  newEpoch : ℕ
  newPots : Pots
  eraTransition : Option EraTransition
  genesis : Option ForkGenesis
  prevNumber : ℕ
  prevInitialPots : Option Pots
  prevRolling : Option (EpochValue RollingStats)
  prevPparams : Option (EpochValue PParamsSet)
  prevEnd : Option EndStats
  prevEwrapProgress : Option ShardProgress
  prevEstartProgress : Option ShardProgress
  prevRupdProgress : Option ShardProgress

def EndStats.default : EndStats :=
  ⟨0, 0, 0, .default, 0, 0, 0, 0, 0, 0, 0, 0, 0, 0, 0⟩

namespace EpochTransitionV2

def new (newEpoch : ℕ) (newPots : Pots) (eraTransition : Option EraTransition)
    (genesis : Option ForkGenesis) : EpochTransitionV2 :=
  ⟨newEpoch, newPots, eraTransition, genesis, 0, none, none, none, none, none, none, none⟩

/-- The parameters of the new version take the place of those that were scheduled. -/
def migrated (delta : EpochTransitionV2) (pparams : EpochValue PParamsSet) :
    Except Panic (EpochValue PParamsSet) :=
  match delta.eraTransition with
  | none => .ok pparams
  | some transition => do
      let current ← pparams.unwrapLive
      let genesis ← expect delta.genesis "genesis not set"
      let live ← migratePparamsVersion transition.prevVersion transition.newVersion current genesis
      .ok (pparams.setLive live)

instance : EntityDelta EpochTransitionV2 EpochState where
  key _ := EpochState.nsKey
  apply delta entity := do
    let state ← expect entity "existing epoch"
    let rolling ← state.rolling.defaultTransition
    let pparams ← state.pparams.defaultTransition
    let pparams ← delta.migrated pparams
    .ok ({ delta with
        prevNumber := state.number
        prevInitialPots := some state.initialPots
        prevRolling := some state.rolling
        prevPparams := some state.pparams
        prevEnd := state.endStats
        prevEwrapProgress := state.ewrapProgress
        prevEstartProgress := state.estartProgress
        prevRupdProgress := state.rupdProgress },
      some { state with
        number := delta.newEpoch
        initialPots := delta.newPots
        rolling := rolling
        pparams := pparams
        endStats := some .default
        ewrapProgress := none
        estartProgress := none
        rupdProgress := none })
  undo delta entity := do
    let state ← expect entity "existing epoch"
    let rolling ← expect delta.prevRolling "apply captured rolling"
    let pparams ← expect delta.prevPparams "apply captured pparams"
    let initialPots ← expect delta.prevInitialPots "apply captured initial_pots"
    .ok (some { state with
      rolling := rolling
      pparams := pparams
      number := delta.prevNumber
      initialPots := initialPots
      endStats := delta.prevEnd
      ewrapProgress := delta.prevEwrapProgress
      estartProgress := delta.prevEstartProgress
      rupdProgress := delta.prevRupdProgress })

end EpochTransitionV2

/-- The epoch and the eras, which a boundary writes together. -/
structure OpenState where
  eras : OrderedMap ℕ EraSummary
  epoch : EpochState

section Opening

variable (genesis : NonceGenesis)

def nextLargestStableSlot (summary : ChainSummary) (activeProtocol startingEpochNo : ℕ) :
    Except Panic ℕ := do
  let epochFinishSlot ← summary.epochStartWord (startingEpochNo + 1)
  .ok (epochFinishSlot - nonceStabilityWindow activeProtocol genesis)

def initialNonces (ended : EpochState) : Except Panic (Option Nonces) := do
  match ← ended.pparams.eraTransition with
  | none => .ok none
  | some transition =>
      .ok (if transition.enteringShelley then some (.bootstrap genesis.shelleyHash) else none)

variable [NonceCrypto]

def nextNonce (ended : EpochState) : Except Panic (Option Nonces) :=
  match ended.nonces with
  | none => initialNonces genesis ended
  | some current => .ok (some (current.sweep ended.previousNonceTail none))

/-- `load_finalize` and `commit_finalize`, with the pots of the new epoch. -/
def openEpoch (newPots : Pots) (state : OpenState) : Except OpenError OpenState := do
  let ended := state.epoch
  let summary := loadEraSummary state.eras
  let edge ← summary.getEdge.mapError .panic
  let nextSlot ← (nextLargestStableSlot genesis summary edge.protocol (ended.number + 1)).mapError
    .panic
  let nonce ← (nextNonce genesis ended).mapError .panic
  let transition ← ended.pparams.eraTransition.mapError .panic
  if ended.estartProgress.any fun progress => progress.committed = progress.total then
    let collected ← collectEraTransition genesis.forks.eras state.eras ended.pparams
      (ended.number + 1)
    let (_, swept) ← (apply (NonceTransition.new nonce nextSlot) (some ended)).mapError .panic
    let (_, opened) ← (apply (EpochTransitionV2.new (ended.number + 1) newPots transition
      (some genesis.forks)) swept).mapError .panic
    let epoch ← (expect opened "existing epoch").mapError .panic
    .ok ⟨writeEraTransition state.eras collected, epoch⟩
  else
    .error (.epochBoundaryIncomplete ended.number
      (ended.estartProgress.map ShardProgress.committed)
      (ended.estartProgress.map ShardProgress.total))

end Opening

/-- What blocks and the closing half of a boundary leave of an epoch: its number, the slot
and the parameters in force. Parameters that are scheduled have a version. -/
structure SameEpoch (before after : EpochState) : Prop where
  number : after.number = before.number
  stable : after.largestStableSlot = before.largestStableSlot
  live : after.pparams.live = before.pparams.live
  scheduled : after.pparams.next = before.pparams.next ∨
    ∃ next, after.pparams.next = some next ∧ next.protocolMajor.isSome

section Blocks

variable {before after : EpochState}

theorem NoncesUpdate.apply_eq [NonceCrypto] (update : NoncesUpdate) {nonces : Nonces}
    (held : before.nonces = some nonces) :
    apply update (some before) = .ok ({ update with previous := some nonces },
      some { before with
        nonces := some (nonces.roll (update.slot < before.largestStableSlot)
          update.nonceVrfOutput update.tail) }) := by
  simp only [apply, held]

theorem NoncesUpdate.sameEpoch [NonceCrypto] {update applied : NoncesUpdate}
    (done : apply update (some before) = .ok (applied, some after)) : SameEpoch before after := by
  cases held : before.nonces with
  | none =>
      simp only [apply, held, Except.ok.injEq, Prod.mk.injEq, Option.some.injEq] at done
      rw [← done.2]
      exact ⟨rfl, rfl, rfl, Or.inl rfl⟩
  | some nonces =>
      rw [update.apply_eq held] at done
      rw [← Option.some.inj (Prod.mk.inj (Except.ok.inj done)).2]
      exact ⟨rfl, rfl, rfl, Or.inl rfl⟩

theorem EpochStatsUpdate.sameEpoch {update applied : EpochStatsUpdate}
    (done : apply update (some before) = .ok (applied, some after)) : SameEpoch before after := by
  simp only [apply, expect_some, ok_bind] at done
  rcases bind_eq_ok.mp done with ⟨⟨filled, rolling⟩, -, afterEq⟩
  rw [← Option.some.inj (Prod.mk.inj (Except.ok.inj afterEq)).2]
  exact ⟨rfl, rfl, rfl, Or.inl rfl⟩

/-- Values of a kind that come in the shape of the kind. -/
def PParamsSet.Versioned (params : PParamsSet) : Prop :=
  ∀ value ∈ params.values, value.kind = .protocolVersion →
    ∃ major minor, value.payload = .version major minor

theorem PParamsSet.isSome_protocolMajor_merge {params update : PParamsSet}
    (versioned : update.Versioned) (isSome : params.protocolMajor.isSome) :
    (params.merge update).protocolMajor.isSome := by
  rcases update with ⟨values⟩
  induction values generalizing params with
  | nil => exact isSome
  | cons first rest ih =>
      have firstSome : (params.set first).protocolMajor.isSome := by
        rw [protocolMajor, get_set]
        split_ifs with isVersion
        · rcases first with ⟨kind, payload⟩
          rcases versioned ⟨kind, payload⟩ List.mem_cons_self isVersion.symm with
            ⟨major, minor, rfl⟩
          rfl
        · exact isSome
      exact ih firstSome fun value member => versioned value (List.mem_cons_of_mem _ member)

theorem PParamsUpdate.sameEpoch {update applied : PParamsUpdate}
    (versioned : update.toUpdate.Versioned)
    (live : ∀ live ∈ before.pparams.live, live.protocolMajor.isSome)
    (next : ∀ next ∈ before.pparams.next, next.protocolMajor.isSome)
    (done : apply update (some before) = .ok (applied, some after)) : SameEpoch before after := by
  simp only [apply, expect_some, ok_bind] at done
  rcases bind_eq_ok.mp done with ⟨scheduled, scheduledEq, afterEq⟩
  have isSome : scheduled.protocolMajor.isSome := by
    rw [EpochValue.scheduledOrDefault] at scheduledEq
    cases nextEq : before.pparams.next with
    | some held =>
        rw [nextEq] at scheduledEq
        rw [← Except.ok.inj scheduledEq]
        exact next held nextEq
    | none =>
        cases liveEq : before.pparams.live with
        | some held =>
            rw [nextEq, liveEq] at scheduledEq
            rw [← Except.ok.inj scheduledEq]
            exact live held liveEq
        | none =>
            rw [nextEq, liveEq] at scheduledEq
            cases scheduledEq
  rw [← Option.some.inj (Prod.mk.inj (Except.ok.inj afterEq)).2]
  exact ⟨rfl, rfl, rfl, Or.inr ⟨_, rfl, PParamsSet.isSome_protocolMajor_merge versioned isSome⟩⟩

end Blocks

section Boundaries

variable (genesis : NonceGenesis)

/-- A change of version leaves the window where the length and the window of the old version
put it. -/
def KeepsWindow (state : OpenState) : Prop :=
  ∀ transition edge consts, state.epoch.pparams.eraTransition = .ok (some transition) →
    state.eras.get? transition.prevVersion = some edge →
    protocolConstants transition.newVersion genesis.forks.eras = .ok consts →
    edge.epochStart (state.epoch.number + 1) + edge.epochLength -
        nonceStabilityWindow transition.prevVersion genesis =
      edge.epochStart (state.epoch.number + 1) + consts.epochLength -
        nonceStabilityWindow transition.newVersion genesis

variable [NonceCrypto]

/-- The epochs and eras a node comes by: the genesis with one open era, then blocks, closing
halves of boundaries, and opening halves. A chain that enters Shelley does so with a genesis
file of that version. -/
inductive Reached : OpenState → Prop
  | genesis {era : EraSummary} {epoch : EpochState} {live : PParamsSet}
      (number : epoch.number = 0) (start : era.start.epoch = 0)
      (isLive : epoch.pparams.live = some live) (isMajor : live.protocolMajor = some era.protocol)
      (unscheduled : epoch.pparams.next = none) :
      Reached ⟨OrderedMap.insert ∅ era.protocol era, epoch⟩
  | within {eras : OrderedMap ℕ EraSummary} {before after : EpochState}
      (reached : Reached ⟨eras, before⟩) (within : SameEpoch before after) : Reached ⟨eras, after⟩
  | opened {before after : OpenState} {newPots : Pots} (reached : Reached before)
      (shelley : ∀ transition, before.epoch.pparams.eraTransition = .ok (some transition) →
        transition.newVersion = 2 → genesis.forks.shelley.protocolVersion.1 = 2)
      (opens : openEpoch genesis newPots before = .ok after) : Reached after

/-- The slot past which the candidate is fixed is as the protocol and the era of the epoch
have it, and so the candidate follows the chain up to there. -/
def StableSlot (state : OpenState) : Prop :=
  ∃ protocol era next,
    (loadEraSummary state.eras).protocolAndEraForEpoch state.epoch.number = .ok (protocol, era) ∧
    (loadEraSummary state.eras).epochStart (state.epoch.number + 1) = .ok next ∧
    state.epoch.largestStableSlot = next - nonceStabilityWindow protocol genesis ∧
    ∀ epoch, SameEpoch state.epoch epoch → ∀ nonces, epoch.nonces = some nonces →
      ∀ update : NoncesUpdate, ∃ applied, apply update (some epoch) = .ok (applied,
        some { epoch with
          nonces := some (nonces.roll
            (update.slot < next - nonceStabilityWindow protocol genesis)
            update.nonceVrfOutput update.tail) })

variable {genesis}

/-- The open era is the last row of the table and of the version in force. -/
structure Current (state : OpenState) (before : List (ℕ × EraSummary)) (edge : EraSummary) :
    Prop where
  entries : state.eras.entries = before ++ [(edge.protocol, edge)]
  begun : edge.start.epoch ≤ state.epoch.number
  live : ∃ live, state.epoch.pparams.live = some live ∧ live.protocolMajor = some edge.protocol
  next : ∀ next ∈ state.epoch.pparams.next, next.protocolMajor.isSome

namespace Current

variable {state : OpenState} {before : List (ℕ × EraSummary)} {edge : EraSummary}

omit [NonceCrypto] in
theorem protocolAndEraForEpoch (current : Current state before edge) :
    (loadEraSummary state.eras).protocolAndEraForEpoch state.epoch.number =
      .ok (edge.protocol, edge) := by
  rw [loadEraSummary_eq current.entries]
  simp [ChainSummary.protocolAndEraForEpoch, ChainSummary.getEdge, current.begun]

omit [NonceCrypto] in
theorem epochStart (current : Current state before edge) {epoch : ℕ}
    (later : state.epoch.number ≤ epoch) :
    (loadEraSummary state.eras).epochStart epoch = .ok (edge.epochStart epoch) := by
  have begun : edge.start.epoch ≤ epoch := le_trans current.begun later
  rw [loadEraSummary_eq current.entries]
  simp [ChainSummary.epochStart, ChainSummary.eraForEpoch, ChainSummary.getEdge, begun]

omit [NonceCrypto] in
theorem nextLargestStableSlot_eq_ok (current : Current state before edge) {slot : ℕ}
    (done : nextLargestStableSlot genesis (loadEraSummary state.eras) edge.protocol
      (state.epoch.number + 1) = .ok slot) :
    slot = edge.epochStart (state.epoch.number + 2) -
      nonceStabilityWindow edge.protocol genesis := by
  have begun : edge.start.epoch ≤ state.epoch.number + 2 := by
    have begun := current.begun
    omega
  rw [loadEraSummary_eq current.entries] at done
  simp only [nextLargestStableSlot, ChainSummary.epochStartWord, ChainSummary.eraForEpoch,
    ChainSummary.getEdge, ok_bind, if_pos begun] at done
  rcases bind_eq_ok.mp done with ⟨finish, finishEq, slotEq⟩
  rw [← ((EraSummary.epochStartWord_eq_ok begun).mp finishEq).2] at slotEq
  exact (Except.ok.inj slotEq).symm

omit [NonceCrypto] in
/-- A boundary changes the version where another one is scheduled. -/
theorem eraTransition_cases (current : Current state before edge)
    {transition : Option EraTransition}
    (isTransition : state.epoch.pparams.eraTransition = .ok transition) :
    (transition = none ∧ ∀ next ∈ state.epoch.pparams.next,
      next.protocolMajor = some edge.protocol) ∨
    ∃ next version, state.epoch.pparams.next = some next ∧ next.protocolMajor = some version ∧
      transition = some ⟨edge.protocol, version⟩ := by
  rcases current.live with ⟨live, isLive, isMajor⟩
  have original : live.protocolMajorOrDefault = edge.protocol := by
    rw [PParamsSet.protocolMajorOrDefault, isMajor]
    rfl
  rw [EpochValue.eraTransition, EpochValue.unwrapLive_eq_ok.mpr isLive, ok_bind, original]
    at isTransition
  cases nextEq : state.epoch.pparams.next with
  | none =>
      rw [nextEq] at isTransition
      left
      refine ⟨(Except.ok.inj isTransition).symm, ?_⟩
      intro next member
      cases member
  | some next =>
      rcases Option.isSome_iff_exists.mp (current.next next nextEq) with ⟨version, versionEq⟩
      simp only [nextEq, Option.bind_some, versionEq, Except.ok.injEq] at isTransition
      split_ifs at isTransition with same
      · left
        refine ⟨isTransition.symm, ?_⟩
        intro other isNext
        rw [← Option.some.inj isNext, versionEq, same]
      · exact Or.inr ⟨next, version, rfl, versionEq, isTransition.symm⟩

end Current

/-- What the pass does once its guard is met. -/
theorem openEpoch_eq_ok {newPots : Pots} {state after : OpenState}
    (opens : openEpoch genesis newPots state = .ok after) :
    ∃ edge slot transition collected moved pparams,
      (loadEraSummary state.eras).getEdge = .ok edge ∧
      nextLargestStableSlot genesis (loadEraSummary state.eras) edge.protocol
        (state.epoch.number + 1) = .ok slot ∧
      state.epoch.pparams.eraTransition = .ok transition ∧
      collectEraTransition genesis.forks.eras state.eras state.epoch.pparams
        (state.epoch.number + 1) = .ok collected ∧
      state.epoch.pparams.defaultTransition = .ok moved ∧
      (EpochTransitionV2.new (state.epoch.number + 1) newPots transition
        (some genesis.forks)).migrated moved = .ok pparams ∧
      after.eras = writeEraTransition state.eras collected ∧
      after.epoch.number = state.epoch.number + 1 ∧ after.epoch.largestStableSlot = slot ∧
      after.epoch.pparams = pparams := by
  simp only [openEpoch, bind_eq_ok, mapError_eq_ok] at opens
  rcases opens with ⟨edge, edgeEq, slot, slotEq, nonce, nonceEq, transition, transitionEq, opens⟩
  split_ifs at opens with complete
  simp only [bind_eq_ok, mapError_eq_ok] at opens
  rcases opens with ⟨collected, collectedEq, ⟨swept, sweptState⟩, sweptEq, ⟨opened, openedState⟩,
    openedEq, epoch, epochEq, afterEq⟩
  simp only [apply, expect_some, ok_bind, Except.ok.injEq, Prod.mk.injEq] at sweptEq
  rcases sweptEq with ⟨rfl, rfl⟩
  simp only [apply, expect_some, ok_bind, bind_eq_ok, Except.ok.injEq, Prod.mk.injEq] at openedEq
  rcases openedEq with ⟨rolling, rollingEq, moved, movedEq, pparams, pparamsEq, rfl, rfl⟩
  rw [expect_some] at epochEq
  rcases Except.ok.inj epochEq with rfl
  rw [← Except.ok.inj afterEq]
  exact ⟨edge, slot, transition, collected, moved, pparams, edgeEq, slotEq, transitionEq,
    collectedEq, movedEq, pparamsEq, rfl, rfl, rfl, rfl⟩

omit [NonceCrypto] in
/-- The parameters after the rotation: those that were scheduled, or the same again. -/
theorem live_of_defaultTransition {pparams moved : EpochValue PParamsSet}
    (done : pparams.defaultTransition = .ok moved) :
    moved.next = none ∧ moved.live = pparams.next.or pparams.live := by
  rw [EpochValue.defaultTransition] at done
  cases nextEq : pparams.next with
  | some next =>
      rw [nextEq] at done
      rw [← Except.ok.inj done]
      exact ⟨rfl, nextEq⟩
  | none =>
      rw [nextEq] at done
      rcases bind_eq_ok.mp done with ⟨next, isNext, movedEq⟩
      rw [← Except.ok.inj isNext] at movedEq
      rw [← Except.ok.inj movedEq]
      exact ⟨rfl, rfl⟩

omit [NonceCrypto] in
/-- The next epoch is one length after the start of this one. -/
theorem epochStart_next (era : EraSummary) {epoch : ℕ} (begun : era.start.epoch ≤ epoch) :
    era.epochStart (epoch + 1) = era.epochStart epoch + era.epochLength := by
  rw [EraSummary.epochStart, EraSummary.epochStart, Nat.succ_sub begun, Nat.succ_mul,
    Nat.add_assoc]

omit [NonceCrypto] in
/-- An era that starts where another one closes has its second epoch one length later. -/
theorem epochStart_reopened {edge era : EraSummary} (epoch : ℕ)
    (start : era.start = edge.boundaryAt epoch) :
    era.epochStart (epoch + 1) = edge.epochStart epoch + era.epochLength := by
  have begins : era.epochStart epoch = edge.epochStart epoch := by
    rw [EraSummary.epochStart, start]
    simp [EraSummary.boundaryAt]
  rw [epochStart_next era (by rw [start]; rfl), begins]

namespace Current

variable {state after : OpenState} {before : List (ℕ × EraSummary)} {edge : EraSummary}
  {newPots : Pots}

omit [NonceCrypto] in
theorem within (current : Current state before edge) {epoch : EpochState}
    (within : SameEpoch state.epoch epoch) : Current ⟨state.eras, epoch⟩ before edge := by
  refine ⟨current.entries, ?_, ?_, ?_⟩
  · rw [within.number]
    exact current.begun
  · rw [within.live]
    exact current.live
  · intro next isNext
    rcases within.scheduled with kept | ⟨scheduled, isScheduled, versioned⟩
    · exact current.next next (kept ▸ isNext)
    · rcases Option.some.inj (isScheduled.symm.trans isNext) with rfl
      exact versioned

theorem stableSlot_iff (current : Current state before edge) :
    StableSlot genesis state ↔ state.epoch.largestStableSlot =
      edge.epochStart (state.epoch.number + 1) - nonceStabilityWindow edge.protocol genesis := by
  constructor
  · rintro ⟨protocol, era, next, isEra, isNext, stored, -⟩
    rw [current.protocolAndEraForEpoch] at isEra
    rw [current.epochStart (Nat.le_succ _)] at isNext
    rw [stored, ← Except.ok.inj isNext, (Prod.mk.inj (Except.ok.inj isEra)).1]
  · intro stored
    refine ⟨edge.protocol, edge, _, current.protocolAndEraForEpoch,
      current.epochStart (Nat.le_succ _), stored, ?_⟩
    intro epoch within nonces held update
    rw [← stored, ← within.stable]
    exact ⟨_, update.apply_eq held⟩

omit [NonceCrypto] in
/-- Without a change of version the table stays, and the slot is as it has it. -/
theorem opened_same (current : Current state before edge) {moved : EpochValue PParamsSet}
    (same : ∀ next ∈ state.epoch.pparams.next, next.protocolMajor = some edge.protocol)
    (rotated : state.epoch.pparams.defaultTransition = .ok moved)
    (eras : after.eras = state.eras) (number : after.epoch.number = state.epoch.number + 1)
    (pparams : after.epoch.pparams = moved) : Current after before edge := by
  rcases live_of_defaultTransition rotated with ⟨unscheduled, live⟩
  refine ⟨eras ▸ current.entries, ?_, ?_, ?_⟩
  · rw [number]
    exact le_trans current.begun (Nat.le_succ _)
  · rw [pparams, live]
    cases nextEq : state.epoch.pparams.next with
    | none => exact current.live
    | some next => exact ⟨next, rfl, same next nextEq⟩
  · rw [pparams, unscheduled]
    intro next member
    cases member

omit [NonceCrypto] in
/-- A change of version closes the open era and opens one of the new version. -/
theorem opened_changed (current : Current state before edge) {version : ℕ}
    {collected : Option EraTransitionData} {live : PParamsSet}
    (isTransition : state.epoch.pparams.eraTransition = .ok (some ⟨edge.protocol, version⟩))
    (rising : edge.protocol < version)
    (collects : collectEraTransition genesis.forks.eras state.eras state.epoch.pparams
      (state.epoch.number + 1) = .ok collected)
    (eras : after.eras = writeEraTransition state.eras collected)
    (number : after.epoch.number = state.epoch.number + 1)
    (isLive : after.epoch.pparams.live = some live) (isMajor : live.protocolMajor = some version)
    (unscheduled : after.epoch.pparams.next = none) :
    ∃ consts, state.eras.get? edge.protocol = some edge ∧
      protocolConstants version genesis.forks.eras = .ok consts ∧
      Current after
        (before ++ [(edge.protocol,
          { edge with «end» := some (edge.boundaryAt (state.epoch.number + 1)) })])
        { start := edge.boundaryAt (state.epoch.number + 1)
          «end» := none
          epochLength := consts.epochLength
          slotLength := consts.slotLength
          protocol := version } := by
  rcases collectEraTransition_eq_some collects isTransition with
    ⟨previous, consts, held, -, isConsts, rfl⟩
  have isEdge : state.eras.get? edge.protocol = some edge :=
    OrderedMap.mem_entries_iff.mp (by rw [current.entries]; simp)
  rcases Option.some.inj (held.symm.trans isEdge) with rfl
  refine ⟨consts, isEdge, isConsts, ?_, ?_, ⟨live, isLive, isMajor⟩, ?_⟩
  · rw [eras]
    exact EraHistory.entries_reopened current.entries rising _ _
  · rw [number]
    exact le_refl _
  · rw [unscheduled]
    intro next member
    cases member

/-- A boundary keeps the table and the version together, and leaves the slot as the protocol
and the era of the epoch have it exactly where the window is kept. -/
theorem opened (current : Current state before edge)
    (shelley : ∀ transition, state.epoch.pparams.eraTransition = .ok (some transition) →
      transition.newVersion = 2 → genesis.forks.shelley.protocolVersion.1 = 2)
    (opens : openEpoch genesis newPots state = .ok after) :
    (∃ beforeAfter edgeAfter, Current after beforeAfter edgeAfter) ∧
      (StableSlot genesis after ↔ KeepsWindow genesis state) := by
  rcases openEpoch_eq_ok opens with ⟨opening, slot, transition, collected, moved, pparams,
    openingEq, slotEq, isTransition, collects, rotated, migrates, eras, number, stored, pparamsEq⟩
  have isOpening : opening = edge := by
    rw [loadEraSummary_eq current.entries] at openingEq
    exact (Except.ok.inj openingEq).symm
  rw [isOpening] at slotEq
  have slotIs := current.nextLargestStableSlot_eq_ok slotEq
  have begun : edge.start.epoch ≤ state.epoch.number + 1 := le_trans current.begun (Nat.le_succ _)
  rcases current.eraTransition_cases isTransition with
    ⟨rfl, same⟩ | ⟨next, version, nextEq, versionEq, rfl⟩
  · rcases Except.ok.inj migrates with rfl
    have noneCollected := collectEraTransition_eq_none collects isTransition
    rw [noneCollected] at eras
    have currentAfter := current.opened_same same rotated eras number pparamsEq
    refine ⟨⟨before, edge, currentAfter⟩, ?_⟩
    rw [currentAfter.stableSlot_iff, stored, slotIs, number]
    refine ⟨fun _ => ?_, fun _ => rfl⟩
    intro transition other consts isOther
    rw [isTransition] at isOther
    cases isOther
  · rcases live_of_defaultTransition rotated with ⟨unscheduled, live⟩
    rw [nextEq, Option.some_or] at live
    have currentLive := EpochValue.unwrapLive_eq_ok.mpr live
    simp only [EpochTransitionV2.migrated, EpochTransitionV2.new, currentLive, expect_some,
      ok_bind, bind_eq_ok] at migrates
    rcases migrates with ⟨migrated, migratedEq, pparamsIs⟩
    rcases Except.ok.inj pparamsIs with rfl
    rcases migratePparamsVersion_spec migratedEq (shelley _ isTransition) with ⟨rfl, isMajor⟩
    have isLive : after.epoch.pparams.live = some migrated := by
      rw [pparamsEq]
      rfl
    have noneScheduled : after.epoch.pparams.next = none := by
      rw [pparamsEq]
      exact unscheduled
    rcases current.opened_changed isTransition (Nat.lt_succ_self _) collects eras number isLive
      isMajor noneScheduled with ⟨consts, held, isConsts, currentAfter⟩
    refine ⟨⟨_, _, currentAfter⟩, ?_⟩
    rw [currentAfter.stableSlot_iff, stored, slotIs, number, epochStart_next edge begun,
      epochStart_reopened (state.epoch.number + 1) rfl]
    constructor
    · intro kept transition other otherConsts isOther isHeld isOtherConsts
      rcases Option.some.inj (Except.ok.inj (isOther.symm.trans isTransition)) with rfl
      rcases Option.some.inj (isHeld.symm.trans held) with rfl
      rcases Except.ok.inj (isOtherConsts.symm.trans isConsts) with rfl
      exact kept
    · intro keeps
      exact keeps ⟨edge.protocol, edge.protocol + 1⟩ edge consts isTransition held isConsts

end Current

/-- Entry by entry of the run, the open era and the version in force go together. -/
theorem Reached.current {state : OpenState} (reached : Reached genesis state) :
    ∃ before edge, Current state before edge := by
  induction reached with
  | genesis number start isLive isMajor unscheduled =>
      refine ⟨[], _, rfl, ?_, ⟨_, isLive, isMajor⟩, ?_⟩
      · rw [number, start]
      · rw [unscheduled]
        intro next member
        cases member
  | within reached within ih =>
      rcases ih with ⟨before, edge, current⟩
      exact ⟨before, edge, current.within within⟩
  | opened reached shelley opens ih =>
      rcases ih with ⟨before, edge, current⟩
      exact (current.opened shelley opens).1

/-- At every boundary of a run, the slot stored for the epoch that starts is the first slot
of the epoch after it less the window of the protocol in force, exactly where no change of
version moves the window. -/
theorem nonceStableSlot_iff {before after : OpenState} {newPots : Pots}
    (reached : Reached genesis before)
    (shelley : ∀ transition, before.epoch.pparams.eraTransition = .ok (some transition) →
      transition.newVersion = 2 → genesis.forks.shelley.protocolVersion.1 = 2)
    (opens : openEpoch genesis newPots before = .ok after) :
    StableSlot genesis after ↔ KeepsWindow genesis before := by
  rcases reached.current with ⟨rows, edge, current⟩
  exact (current.opened shelley opens).2

end Boundaries

section ConwayBoundary

/-- The windows and lengths of the main network. -/
def mainnetNonces : NonceGenesis where
  forks :=
    { eras := ⟨20000, some 432000, some 1⟩
      shelley := ⟨1506203091, (2, 0), 65536, 16384, 1100, 2000000, 1000000, 44, 155381,
        500000000, 150, 340000000, ⟨3, 1000⟩, ⟨2, 10⟩, 18, ⟨3, 10⟩, ⟨1, 1⟩, none⟩
      alonzo := ⟨34482, [⟨721, 10000000⟩, ⟨577, 10000⟩], (10000000, 10000000000),
        (50000000, 40000000000), 5000, 150, 3, none, none⟩
      conway := ⟨[], [], [], 7, 146, 6, 100000000000, 500000000, 20, 15⟩ }
  shelleyHash := 0
  stabilityWindow := 129600
  randomnessStabilityWindow := 172800

/-- A chain that starts with version 8. -/
def babbageEra : EraSummary := ⟨⟨0, 0, 1506203091⟩, none, 432000, 1, 8⟩

def babbageParams : PParamsSet := ⟨[⟨.protocolVersion, .version 8 0⟩]⟩

def babbageEpoch : EpochState where
  number := 0
  initialPots := .default
  rolling := .withLive 0 .default
  pparams := ⟨.epoch 0, none, some babbageParams, some babbageParams, none, none⟩
  largestStableSlot := 302400
  previousNonceTail := none
  nonces := some (.bootstrap 0)
  endStats := some .default
  incentives := none
  ewrapProgress := none
  estartProgress := none
  rupdProgress := none

/-- The end of the first epoch, with the shards of the boundary done. -/
def closedBabbage (next : Option PParamsSet) : OpenState where
  eras := OrderedMap.insert ∅ 8 babbageEra
  epoch :=
    { babbageEpoch with
      pparams := { babbageEpoch.pparams with next := next }
      estartProgress := some ⟨16, 16⟩ }

def conwayScheduled : PParamsSet := ⟨[⟨.protocolVersion, .version 9 0⟩]⟩

theorem closedBabbage_reached [NonceCrypto] {next : Option PParamsSet}
    (versioned : ∀ params ∈ next, params.protocolMajor.isSome) :
    Reached mainnetNonces (closedBabbage next) := by
  have starts : Reached mainnetNonces
      ⟨OrderedMap.insert ∅ babbageEra.protocol babbageEra, babbageEpoch⟩ :=
    Reached.genesis rfl rfl rfl rfl rfl
  refine starts.within ⟨rfl, rfl, rfl, ?_⟩
  cases next with
  | none => exact Or.inl rfl
  | some params => exact Or.inr ⟨params, rfl, versioned params rfl⟩

/-- The second epoch, under given parameters. -/
def openedSecond (eras : OrderedMap ℕ EraSummary) (live : PParamsSet) : OpenState where
  eras := eras
  epoch :=
    { babbageEpoch with
      number := 1
      rolling := ⟨.epoch 1, none, some .default, some .default, none, none⟩
      pparams := ⟨.epoch 1, none, some live, some babbageParams, some babbageParams, none⟩
      largestStableSlot := 734400
      nonces := some (.bootstrap 0)
      endStats := some .default }

theorem nonceStableSlot_iff_babbage :
    letI := NonceCrypto.still
    openEpoch mainnetNonces .default (closedBabbage none) =
        .ok (openedSecond (OrderedMap.insert ∅ 8 babbageEra) babbageParams) ∧
      (StableSlot mainnetNonces
          (openedSecond (OrderedMap.insert ∅ 8 babbageEra) babbageParams) ↔
        KeepsWindow mainnetNonces (closedBabbage none)) := by
  let _ := NonceCrypto.still
  have opens : openEpoch mainnetNonces .default (closedBabbage none) =
      .ok (openedSecond (OrderedMap.insert ∅ 8 babbageEra) babbageParams) := by
    rfl
  have reached : Reached mainnetNonces (closedBabbage none) :=
    closedBabbage_reached (by simp)
  exact ⟨opens, nonceStableSlot_iff reached (fun _ _ _ => rfl) opens⟩

def conwayEra : EraSummary := ⟨⟨1, 432000, 1506635091⟩, none, 432000, 1, 9⟩

def conwayEras : OrderedMap ℕ EraSummary :=
  .ofList [(8, { babbageEra with «end» := some conwayEra.start }), (9, conwayEra)]

/-- The first epoch of version 9 goes by the window of version 8: its candidate nonce follows
the chain for 43200 slots past the bound. -/
theorem openEpoch_keeps_window :
    letI := NonceCrypto.still
    let opened := openedSecond conwayEras (intoConway conwayScheduled mainnetNonces.forks.conway)
    Reached mainnetNonces (closedBabbage (some conwayScheduled)) ∧
      openEpoch mainnetNonces .default (closedBabbage (some conwayScheduled)) = .ok opened ∧
      opened.epoch.largestStableSlot = 734400 ∧
      (loadEraSummary opened.eras).protocolAndEraForEpoch 1 = .ok (9, conwayEra) ∧
      (loadEraSummary opened.eras).epochStart 2 = .ok 864000 ∧
      864000 - nonceStabilityWindow 9 mainnetNonces = 691200 ∧
      ¬ StableSlot mainnetNonces opened := by
  let _ := NonceCrypto.still
  intro opened
  have isEra : (loadEraSummary opened.eras).protocolAndEraForEpoch 1 = .ok (9, conwayEra) := by
    rfl
  have isNext : (loadEraSummary opened.eras).epochStart 2 = .ok 864000 := by rfl
  refine ⟨closedBabbage_reached ?_, rfl, rfl, isEra, isNext, rfl, ?_⟩
  · intro params isScheduled
    rw [← Option.some.inj isScheduled]
    rfl
  · rintro ⟨protocol, era, next, otherEra, otherNext, stored, -⟩
    rcases Prod.mk.inj (Except.ok.inj (otherEra.symm.trans isEra)) with ⟨rfl, rfl⟩
    rcases Except.ok.inj (otherNext.symm.trans isNext) with rfl
    revert stored
    decide

end ConwayBoundary

end Dolos
