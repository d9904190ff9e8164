import Dolos.Cardano.Model.Pools

/-!
# A pool at a boundary

The deltas of `cardano/src/model/pools.rs` that only boundaries emit: the close marks what it
retires in the snapshot of the next epoch, and the open moves every snapshot on.
-/

namespace Dolos

open Outcome

/-- A pool retires with the epoch that ends. -/
structure PoolWrapUp where
  poolHash : Hash28
  prevSnapshot : Option (EpochValue PoolSnapshot)
  deriving DecidableEq, Repr

namespace PoolWrapUp

def new (poolHash : Hash28) : PoolWrapUp := ⟨poolHash, none⟩

instance : EntityDelta PoolWrapUp PoolState where
  key delta := PoolState.nsKey delta.poolHash
  apply delta entity := do
    let pool ← expect entity "existing pool"
    let next ← pool.snapshot.scheduledOrDefault
    .ok ({ delta with prevSnapshot := some pool.snapshot },
      some { pool with snapshot := pool.snapshot.schedule (some { next with isRetired := true }) })
  undo delta entity := do
    let pool ← expect entity "existing pool"
    let snapshot ← expect delta.prevSnapshot "apply captured snapshot"
    .ok (some { pool with snapshot := snapshot })

end PoolWrapUp

/-- A pool moves on to the next epoch. -/
structure PoolTransition where
  pool : EntityKey
  nextEpoch : ℕ
  prevSnapshot : Option (EpochValue PoolSnapshot)
  deriving DecidableEq, Repr

namespace PoolTransition

def new (pool : EntityKey) (nextEpoch : ℕ) : PoolTransition := ⟨pool, nextEpoch, none⟩

instance : EntityDelta PoolTransition PoolState where
  key delta := toLex (.pools, delta.pool)
  apply delta entity := do
    let pool ← expect entity "existing pool"
    let snapshot ← pool.snapshot.defaultTransition
    .ok ({ delta with prevSnapshot := some pool.snapshot },
      some { pool with snapshot := snapshot })
  undo delta entity := do
    let pool ← expect entity "existing pool"
    let snapshot ← expect delta.prevSnapshot "apply captured snapshot"
    .ok (some { pool with snapshot := snapshot })

end PoolTransition

end Dolos
