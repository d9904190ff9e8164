import Dolos.Core.State
import Dolos.Cardano.WorkRestart

/-!
# The chain logic during live synchronisation

`CardanoLogic` of `cardano/src/lib.rs` driven by `roll_forward` and `rollback` of
`core/src/sync.rs`. Which units run on a block is decided by the work buffer and
the cached era summary, both held in memory; the cursor, the log and everything
else a unit writes are in the stores.

A rollback goes over the stores only. The buffer still remembers the last block
it received, so the two agree along a run exactly as long as no rollback moves
the cursor.

What units do to the ledger is a parameter: here only the era summary read back
from it matters.
-/

namespace Dolos

open Outcome

/-- Genesis and Estart may change the era summary; `pop_work` schedules a refresh
of the cache after these two. -/
def InternalWorkUnit.changesEras {B : Type} : InternalWorkUnit B → Bool
  | genesis => true
  | estart _ => true
  | _ => false

/-- The persistent side of the domain. A synthetic log entry has no block. -/
structure Stores (B S : Type) where
  ledger : S
  cursor : Option ChainPoint
  wal : Wal (Option B)

/-- The ledger behind the chain logic: the era summary it holds, what a work unit
makes of it and what undoing a log entry makes of it. Only genesis and Estart
write era summaries. -/
structure Ledger (B S : Type) where
  eras : S → ChainSummary
  execute : InternalWorkUnit B → Stores B S → Except DomainError S
  undo : Option B → S → Except DomainError S
  eras_execute : ∀ unit stores after, unit.changesEras = false →
    execute unit stores = .ok after → eras after = eras stores.ledger
  eras_undo : ∀ block before after, undo block before = .ok after → eras after = eras before

structure CardanoLogic (B : Type) where
  stopEpoch : Option ℕ
  stabilityWindow : ℕ
  eras : ChainSummary
  work : WorkBuffer B
  needsCacheRefresh : Bool

/-- A running domain. -/
@[ext]
structure Domain (B S : Type) where
  chain : CardanoLogic B
  stores : Stores B S

variable {B S : Type} [Block B]

namespace WorkBuffer

/-- How many units the buffer has left to pop. -/
def load : WorkBuffer B → ℕ
  | empty => 0
  | restart _ => 0
  | genesis _ => 2
  | openBatch _ => 1
  | preRupdBoundary _ _ => 3
  | rupdBoundary _ => 2
  | preEwrapBoundary _ _ _ => 4
  | ewrapBoundary _ _ => 3
  | estartBoundary _ _ => 2
  | preForcedStop _ => 1
  | forcedStop => 0

theorem load_popWork {buffer next : WorkBuffer B} {stopEpoch : Option ℕ}
    {unit : InternalWorkUnit B} (popped : buffer.popWork stopEpoch = (some unit, next)) :
    unit = .forcedStop ∨ next.load < buffer.load := by
  cases buffer with
  | estartBoundary block epoch =>
      right
      simp only [popWork, Prod.mk.injEq] at popped
      rw [← popped.2]
      split_ifs
      · simp [load]
      · simp [load]
  | forcedStop =>
      left
      simp only [popWork, Prod.mk.injEq, Option.some.injEq] at popped
      exact popped.1.symm
  | _ =>
      simp only [popWork, Prod.mk.injEq, Option.some.injEq, reduceCtorEq, false_and] at popped <;>
      · right
        rw [← popped.2]
        simp [load]

end WorkBuffer

namespace InternalWorkUnit

/-- The log after a work unit has committed: genesis resets it, a roll appends its
blocks, boundary units do not write it. -/
def walAfter (wal : Wal (Option B)) : InternalWorkUnit B → Wal (Option B)
  | genesis => wal.resetTo .origin none
  | blocks batch =>
    wal.appendEntries (batch.blocks.map fun block => (Block.point block, some block))
  | _ => wal

end InternalWorkUnit

namespace CardanoLogic

/-- `initialize`: the buffer comes from the cursor, the cache from the ledger. -/
def initializeChain (ledger : Ledger B S) (stopEpoch : Option ℕ) (stabilityWindow : ℕ)
    (stores : Stores B S) : CardanoLogic B where
  stopEpoch := stopEpoch
  stabilityWindow := stabilityWindow
  eras := ledger.eras stores.ledger
  work := .initializeWork stores.cursor
  needsCacheRefresh := false

def receiveBlock (logic : CardanoLogic B) (block : B) : Except DomainError (CardanoLogic B) :=
  if logic.work.canReceiveBlock = false then .error .cantReceiveBlock
  else
    match logic.work.receiveBlock block logic.eras logic.stabilityWindow with
    | .ok work => .ok { logic with work := work }
    | .error panic => .error (.panic panic)

def popWork (ledger : Ledger B S) (logic : CardanoLogic B) (stores : Stores B S) :
    Option (InternalWorkUnit B) × CardanoLogic B :=
  let eras := if logic.needsCacheRefresh then ledger.eras stores.ledger else logic.eras
  let popped := logic.work.popWork logic.stopEpoch
  match popped.1 with
  | none => (none, { logic with eras := eras, work := popped.2, needsCacheRefresh := false })
  | some unit =>
      (some unit,
        { logic with eras := eras, work := popped.2, needsCacheRefresh := unit.changesEras })

end CardanoLogic

/-- `execute_work_unit`: the whole lifecycle of one unit. -/
def executeWorkUnit (ledger : Ledger B S) (unit : InternalWorkUnit B) (stores : Stores B S) :
    Except DomainError (Stores B S) :=
  match unit with
  | .forcedStop => .error .stopEpochReached
  | unit => do
      let after ← ledger.execute unit stores
      .ok ⟨after, unit.cursor stores.cursor, unit.walAfter stores.wal⟩

/-- A unit that went through leaves the buffer with fewer to pop. -/
theorem load_popWork_of_executed {ledger : Ledger B S} {logic : CardanoLogic B}
    {stores after : Stores B S} {unit : InternalWorkUnit B}
    (popped : (logic.work.popWork logic.stopEpoch).1 = some unit)
    (executed : executeWorkUnit ledger unit stores = .ok after) :
    (logic.popWork ledger stores).2.work.load < logic.work.load := by
  have workEq : (logic.popWork ledger stores).2.work =
      (logic.work.popWork logic.stopEpoch).2 := by
    simp [CardanoLogic.popWork, popped]
  rw [workEq]
  rcases WorkBuffer.load_popWork (Prod.ext popped rfl) with stop | smaller
  · simp [stop, executeWorkUnit] at executed
  · exact smaller

namespace Domain

variable (ledger : Ledger B S)

/-- `drain_pending_work`, with the units it executed. -/
def drainPendingWork (domain : Domain B S) :
    Except DomainError (List (InternalWorkUnit B) × Domain B S) :=
  match _popped : domain.chain.work.popWork domain.chain.stopEpoch with
  | (none, _) => .ok ([], { domain with chain := (domain.chain.popWork ledger domain.stores).2 })
  | (some unit, _) =>
      match _executed : executeWorkUnit ledger unit domain.stores with
      | .error failure => .error failure
      | .ok stores => do
          let (units, final) ←
            drainPendingWork ⟨(domain.chain.popWork ledger domain.stores).2, stores⟩
          .ok (unit :: units, final)
  termination_by domain.chain.work.load
  decreasing_by exact load_popWork_of_executed (by rw [_popped]) _executed

theorem drainPendingWork_idle {domain : Domain B S}
    (idle : (domain.chain.work.popWork domain.chain.stopEpoch).1 = none) :
    domain.drainPendingWork ledger =
      .ok ([], { domain with chain := (domain.chain.popWork ledger domain.stores).2 }) := by
  unfold drainPendingWork
  split
  · rfl
  · next popped => simp [popped] at idle

theorem drainPendingWork_pop {domain : Domain B S} {unit : InternalWorkUnit B}
    (popped : (domain.chain.work.popWork domain.chain.stopEpoch).1 = some unit) :
    domain.drainPendingWork ledger = (do
      let stores ← executeWorkUnit ledger unit domain.stores
      let (units, final) ←
        drainPendingWork ledger ⟨(domain.chain.popWork ledger domain.stores).2, stores⟩
      .ok (unit :: units, final)) := by
  rw [drainPendingWork]
  split
  · next idle => simp [idle] at popped
  · next other next otherPopped =>
      simp only [otherPopped, Option.some.injEq] at popped
      subst popped
      split
      · next failed => simp [failed]
      · next executed => simp [executed]

/-- `roll_forward`, with the units it executed on the block. -/
def rollForward (domain : Domain B S) (block : B) :
    Except DomainError (List (InternalWorkUnit B) × Domain B S) := do
  let (_, drained) ← domain.drainPendingWork ledger
  let chain ← drained.chain.receiveBlock block
  drainPendingWork ledger { drained with chain := chain }

/-- Draining one unit at a time. -/
theorem drainPendingWork_cons {domain final : Domain B S} {unit : InternalWorkUnit B}
    {stores : Stores B S} {units : List (InternalWorkUnit B)}
    (popped : (domain.chain.work.popWork domain.chain.stopEpoch).1 = some unit)
    (executed : executeWorkUnit ledger unit domain.stores = .ok stores)
    (drained : drainPendingWork ledger ⟨(domain.chain.popWork ledger domain.stores).2, stores⟩ =
      .ok (units, final)) :
    domain.drainPendingWork ledger = .ok (unit :: units, final) := by
  rw [drainPendingWork_pop ledger popped, executed, ok_bind, drained, ok_bind]

/-- Rolling forward a domain with nothing left to drain. -/
theorem rollForward_of_idle {domain final : Domain B S} {block : B} {chain : CardanoLogic B}
    {units : List (InternalWorkUnit B)}
    (idle : (domain.chain.work.popWork domain.chain.stopEpoch).1 = none)
    (received : (domain.chain.popWork ledger domain.stores).2.receiveBlock block = .ok chain)
    (drained : drainPendingWork ledger { domain with chain := chain } = .ok (units, final)) :
    domain.rollForward ledger block = .ok (units, final) := by
  rw [rollForward, drainPendingWork_idle ledger idle, ok_bind]
  simp only [received, ok_bind, drained]

/-- The loop of `rollback`: entries are undone from the tip down until the target
is met. The second component is the cursor written when it is. -/
def undoDownTo (target : ChainPoint) :
    List (ChainPoint × Option B) → S → Except DomainError (S × Option ChainPoint)
  | [], state => .ok (state, none)
  | (point, block) :: rest, state =>
      if point.eq target then .ok (state, some point)
      else do
        let undone ← ledger.undo block state
        undoDownTo target rest undone

def rollback (domain : Domain B S) (target : ChainPoint) : Except DomainError (Domain B S) := do
  let entries := (domain.stores.wal.iterLogs (some target) none).reverse
  let (state, reached) ← undoDownTo ledger target entries domain.stores.ledger
  .ok { domain with
    stores := ⟨state, reached <|> domain.stores.cursor, domain.stores.wal.truncateFront target⟩ }

/-- The log entry a rollback stops at. -/
def rollbackTarget (domain : Domain B S) (target : ChainPoint) : Option ChainPoint :=
  (((domain.stores.wal.iterLogs (some target) none).reverse.map Prod.fst).find? fun point =>
    point.eq target)

end Domain

end Dolos
