import Dolos.Cardano.Model.EpochValue

/-!
# Stake pools

`cardano/src/model/pools.rs`: the pool entity and the deltas a block emits for it.
Relays and metadata of a pool are left out, nothing modelled reads them.

Block counts are machine words whose arithmetic wraps, so that the count undone
is always the count before.
-/

namespace Dolos

open Outcome

structure RationalNumber where
  numerator : ℕ
  denominator : ℕ
  deriving DecidableEq, Repr

structure PoolParams where
  vrfKeyhash : BlockHash
  pledge : ℕ
  cost : ℕ
  margin : RationalNumber
  rewardAccount : List UInt8
  poolOwners : List Hash28
  deriving DecidableEq, Repr

/-- A pool registration certificate: the operator beside the parameters. -/
structure MultiEraPoolRegistration where
  operator : Hash28
  params : PoolParams
  deriving DecidableEq, Repr

structure PoolSnapshot where
  isRetired : Bool
  blocksMinted : UInt32
  params : PoolParams
  isNew : Bool
  deriving DecidableEq, Repr

instance : TransitionDefault PoolSnapshot where
  nextValue current := do
    let current ← expect current "no prior pool snapshot"
    .ok (some ⟨current.isRetired, 0, current.params, false⟩)

structure PoolState where
  operator : Hash28
  snapshot : EpochValue PoolSnapshot
  blocksMintedTotal : UInt32
  registerSlot : ℕ
  retiringEpoch : Option ℕ
  deposit : ℕ
  deriving DecidableEq, Repr

def PoolState.nsKey (operator : Hash28) : NsKey := toLex (.pools, .ofHash28 operator)

structure PoolRegistration where
  cert : MultiEraPoolRegistration
  slot : ℕ
  epoch : ℕ
  poolDeposit : ℕ
  wasNew : Bool
  prevSnapshot : Option (EpochValue PoolSnapshot)
  prevRetiringEpoch : Option ℕ
  deriving DecidableEq, Repr

namespace PoolRegistration

def new (cert : MultiEraPoolRegistration) (slot epoch poolDeposit : ℕ) : PoolRegistration :=
  ⟨cert, slot, epoch, poolDeposit, false, none, none⟩

/-- The snapshot of a known pool after another registration: a retired pool starts
over at once, keeping the blocks it has minted, a working one is updated at the
next epoch. -/
def reregistered (delta : PoolRegistration) (snapshot : EpochValue PoolSnapshot)
    (live : PoolSnapshot) : EpochValue PoolSnapshot :=
  if live.isRetired then
    snapshot.replace ⟨false, live.blocksMinted, delta.cert.params, true⟩
  else
    snapshot.schedule (some ⟨false, 0, delta.cert.params, false⟩)

instance : EntityDelta PoolRegistration PoolState where
  key delta := PoolState.nsKey delta.cert.operator
  apply delta entity :=
    match entity with
    | some pool => do
        let live ← pool.snapshot.unwrapLive
        .ok ({ delta with
            prevSnapshot := some pool.snapshot
            prevRetiringEpoch := pool.retiringEpoch },
          some { pool with
            snapshot := delta.reregistered pool.snapshot live
            retiringEpoch := none })
    | none =>
        .ok ({ delta with wasNew := true },
          some {
            registerSlot := delta.slot
            operator := delta.cert.operator
            snapshot := .withLive delta.epoch ⟨false, 0, delta.cert.params, true⟩
            blocksMintedTotal := 0
            retiringEpoch := none
            deposit := delta.poolDeposit })
  undo delta entity :=
    if delta.wasNew then .ok none
    else do
      let pool ← expect entity "existing pool"
      let snapshot ← expect delta.prevSnapshot "apply captured snapshot"
      .ok (some { pool with snapshot := snapshot, retiringEpoch := delta.prevRetiringEpoch })

end PoolRegistration

/-- `hex::encode` of a 28-byte hash. -/
def Hash28.hex (hash : Hash28) : String :=
  let digits := Nat.toDigits 16 hash.val
  String.ofList (List.replicate (56 - digits.length) '0' ++ digits)

/-- `Debug` of an optional epoch. -/
def debugEpoch : Option ℕ → String
  | none => "None"
  | some epoch => s!"Some({epoch})"

structure MintedBlocksInc where
  operator : Hash28
  count : UInt32
  epoch : ℕ
  deriving DecidableEq, Repr

namespace MintedBlocksInc

/-- Minting into a snapshot of another epoch is refused. -/
def misaligned (delta : MintedBlocksInc) (pool : PoolState) : Panic :=
  let operator := delta.operator.hex
  let found := debugEpoch pool.snapshot.epochNumber
  let epoch := delta.epoch
  .assertFailed
    s!"CARDANO-001: pool {operator} snapshot at epoch {found} lags block epoch {epoch}"

instance : EntityDelta MintedBlocksInc PoolState where
  key delta := PoolState.nsKey delta.operator
  apply delta entity :=
    match entity with
    | none => .ok (delta, none)
    | some pool =>
        if pool.snapshot.isAtEpoch delta.epoch = false then .error (delta.misaligned pool)
        else do
          let live ← pool.snapshot.unwrapLive
          .ok (delta, some { pool with
            blocksMintedTotal := pool.blocksMintedTotal + delta.count
            snapshot := pool.snapshot.setLive
              { live with blocksMinted := live.blocksMinted + delta.count } })
  undo delta entity :=
    match entity with
    | none => .ok none
    | some pool => do
        let live ← pool.snapshot.unwrapLive
        .ok (some { pool with
          blocksMintedTotal := pool.blocksMintedTotal - delta.count
          snapshot := pool.snapshot.setLive
            { live with blocksMinted := live.blocksMinted - delta.count } })

/-- The delta read back from the log: the epoch is not serialized. -/
def wire (delta : MintedBlocksInc) : MintedBlocksInc := { delta with epoch := 0 }

end MintedBlocksInc

structure PoolDeRegistration where
  operator : Hash28
  epoch : ℕ
  prevRetiringEpoch : Option ℕ
  prevDeposit : Option ℕ
  deriving DecidableEq, Repr

namespace PoolDeRegistration

def new (operator : Hash28) (epoch : ℕ) : PoolDeRegistration := ⟨operator, epoch, none, none⟩

instance : EntityDelta PoolDeRegistration PoolState where
  key delta := PoolState.nsKey delta.operator
  apply delta entity :=
    match entity with
    | none => .ok (delta, none)
    | some pool =>
        .ok ({ delta with
            prevRetiringEpoch := pool.retiringEpoch
            prevDeposit := some pool.deposit },
          some { pool with retiringEpoch := some delta.epoch, deposit := 0 })
  undo delta entity :=
    match entity with
    | none => .ok none
    | some pool =>
        .ok (some { pool with
          retiringEpoch := delta.prevRetiringEpoch
          deposit := delta.prevDeposit.getD 0 })

end PoolDeRegistration

section Faithful

open EntityDelta

variable {before after : Option PoolState}

theorem PoolRegistration.faithful {delta applied : PoolRegistration} (fresh : delta.wasNew = false)
    (done : apply delta before = .ok (applied, after)) : Faithful delta applied before after := by
  cases before with
  | none =>
      have appliedEq := done
      simp only [apply, Except.ok.injEq, Prod.mk.injEq] at appliedEq
      rcases appliedEq with ⟨rfl, rfl⟩
      exact ⟨rfl, rfl, _, done⟩
  | some pool =>
      have appliedEq := done
      simp only [apply] at appliedEq
      rcases bind_eq_ok.mp appliedEq with ⟨live, liveEq, resultEq⟩
      simp only [Except.ok.injEq, Prod.mk.injEq] at resultEq
      rcases resultEq with ⟨rfl, rfl⟩
      refine ⟨rfl, ?_, _, done⟩
      simp [undo, fresh]

theorem PoolDeRegistration.faithful {delta applied : PoolDeRegistration}
    (done : apply delta before = .ok (applied, after)) : Faithful delta applied before after := by
  cases before with
  | none =>
      have appliedEq := done
      simp only [apply, Except.ok.injEq, Prod.mk.injEq] at appliedEq
      rcases appliedEq with ⟨rfl, rfl⟩
      exact ⟨rfl, rfl, _, done⟩
  | some pool =>
      have appliedEq := done
      simp only [apply, Except.ok.injEq, Prod.mk.injEq] at appliedEq
      rcases appliedEq with ⟨rfl, rfl⟩
      exact ⟨rfl, rfl, _, done⟩

namespace MintedBlocksInc

variable {delta applied : MintedBlocksInc}

/-- The undo of a minted block never looks at the epoch. -/
theorem undo_wire (delta : MintedBlocksInc) (entity : Option PoolState) :
    undo delta.wire entity = undo delta entity := rfl

theorem keyed (done : apply delta before = .ok (applied, after)) : key applied = key delta := by
  cases before with
  | none =>
      simp only [apply, Except.ok.injEq, Prod.mk.injEq] at done
      rcases done with ⟨rfl, rfl⟩
      rfl
  | some pool =>
      simp only [apply] at done
      split_ifs at done with misaligned
      rcases bind_eq_ok.mp done with ⟨live, liveEq, resultEq⟩
      simp only [Except.ok.injEq, Prod.mk.injEq] at resultEq
      rcases resultEq with ⟨rfl, rfl⟩
      rfl

theorem undone (done : apply delta before = .ok (applied, after)) :
    undo applied after = .ok before := by
  cases before with
  | none =>
      simp only [apply, Except.ok.injEq, Prod.mk.injEq] at done
      rcases done with ⟨rfl, rfl⟩
      rfl
  | some pool =>
      simp only [apply] at done
      split_ifs at done with misaligned
      rcases bind_eq_ok.mp done with ⟨live, liveEq, resultEq⟩
      simp only [Except.ok.injEq, Prod.mk.injEq] at resultEq
      rcases resultEq with ⟨rfl, rfl⟩
      rw [EpochValue.unwrapLive_eq_ok] at liveEq
      simp [undo, EpochValue.unwrapLive, EpochValue.setLive_self liveEq]

/-- Read back from the log, a minted block is applied again without a panic only
where the epoch it lost does not matter: on an absent pool or in epoch zero. -/
theorem replays_iff (done : apply delta before = .ok (applied, after)) :
    (∃ again, apply applied.wire before = .ok (again, after)) ↔
      before = none ∨ delta.epoch = 0 := by
  cases before with
  | none =>
      simp only [apply, Except.ok.injEq, Prod.mk.injEq] at done
      rcases done with ⟨rfl, rfl⟩
      simp [apply]
  | some pool =>
      simp only [apply] at done
      split_ifs at done with misaligned
      rcases bind_eq_ok.mp done with ⟨live, liveEq, resultEq⟩
      simp only [Except.ok.injEq, Prod.mk.injEq] at resultEq
      rcases resultEq with ⟨rfl, rfl⟩
      have aligned : pool.snapshot.epochNumber = some delta.epoch := by
        simpa [EpochValue.isAtEpoch] using misaligned
      constructor
      · rintro ⟨again, replayed⟩
        right
        by_contra positive
        have lagging : pool.snapshot.isAtEpoch 0 = false := by
          simpa [EpochValue.isAtEpoch, aligned] using positive
        simp [apply, wire, lagging] at replayed
      · rintro (absent | zero)
        · simp at absent
        · refine ⟨{ delta with epoch := 0 }, ?_⟩
          simp [apply, wire, EpochValue.isAtEpoch, aligned, zero, liveEq]

end MintedBlocksInc

end Faithful

end Dolos
