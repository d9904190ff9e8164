import Mathlib.Data.List.DropRight
import Dolos.Cardano.Eras

/-!
# The work buffer

`cardano/src/work.rs`: the state machine that turns received blocks into work
units. A block is either appended to the open batch or, when it lies beyond an
epoch or reward-update boundary, parked until the buffered batch and the boundary
units have been popped.

The type of blocks is a parameter: the buffer only looks at slots and hashes.
-/

namespace Dolos

/-- The blocks of a roll work unit, in the order they were added. A batch is only
ever made from a first block, so it is never empty. -/
structure WorkBatch (B : Type) where
  blocks : List B
  nonempty : blocks ≠ []
  deriving DecidableEq

namespace WorkBatch

variable {B : Type}

def forSingleBlock (block : B) : WorkBatch B := ⟨[block], by simp⟩

def addWork (batch : WorkBatch B) (block : B) : WorkBatch B :=
  ⟨batch.blocks ++ [block], by simp⟩

def last (batch : WorkBatch B) : B := batch.blocks.getLast batch.nonempty

def lastPoint [Block B] (batch : WorkBatch B) : ChainPoint := Block.point batch.last

@[simp]
theorem blocks_forSingleBlock (block : B) : (forSingleBlock block).blocks = [block] := rfl

@[simp]
theorem blocks_addWork (batch : WorkBatch B) (block : B) :
    (batch.addWork block).blocks = batch.blocks ++ [block] := rfl

@[simp]
theorem last_forSingleBlock (block : B) : (forSingleBlock block).last = block := rfl

@[simp]
theorem last_addWork (batch : WorkBatch B) (block : B) : (batch.addWork block).last = block := by
  simp [last]

theorem blocks_eq_concat (batch : WorkBatch B) :
    batch.blocks = batch.blocks.dropLast ++ [batch.last] :=
  (List.dropLast_append_getLast batch.nonempty).symm

end WorkBatch

inductive InternalWorkUnit (B : Type) where
  | genesis
  | blocks (batch : WorkBatch B)
  | ewrap (slot : ℕ)
  | estart (slot : ℕ)
  | rupd (slot : ℕ)
  | forcedStop
  deriving DecidableEq

inductive WorkBuffer (B : Type) where
  | empty
  | restart (cursor : ChainPoint)
  | genesis (block : B)
  | openBatch (batch : WorkBatch B)
  | preRupdBoundary (batch : WorkBatch B) (block : B)
  | rupdBoundary (block : B)
  | preEwrapBoundary (batch : WorkBatch B) (block : B) (epoch : ℕ)
  | ewrapBoundary (block : B) (epoch : ℕ)
  | estartBoundary (block : B) (epoch : ℕ)
  | preForcedStop (block : B)
  | forcedStop
  deriving DecidableEq

namespace WorkBuffer

variable {B : Type} [Block B]

def newFromCursor (cursor : ChainPoint) : WorkBuffer B := restart cursor

/-- The buffer `CardanoLogic::initialize` starts from. -/
def initializeWork (cursor : Option ChainPoint) : WorkBuffer B :=
  match cursor with
  | some point => newFromCursor point
  | none => empty

def lastPointSeen : WorkBuffer B → Except Panic ChainPoint
  | empty => .ok .origin
  | restart point => .ok point
  | genesis block => .ok (Block.point block)
  | openBatch batch => .ok batch.lastPoint
  | preRupdBoundary _ block => .ok (Block.point block)
  | rupdBoundary block => .ok (Block.point block)
  | preEwrapBoundary _ block _ => .ok (Block.point block)
  | ewrapBoundary block _ => .ok (Block.point block)
  | estartBoundary block _ => .ok (Block.point block)
  | preForcedStop block => .ok (Block.point block)
  | forcedStop => .error .unreachable

def canReceiveBlock : WorkBuffer B → Bool
  | empty => true
  | restart _ => true
  | openBatch _ => true
  | _ => false

def extendBatch (buffer : WorkBuffer B) (nextBlock : B) : Except Panic (WorkBuffer B) :=
  match buffer with
  | empty => .ok (openBatch (.forSingleBlock nextBlock))
  | restart _ => .ok (openBatch (.forSingleBlock nextBlock))
  | openBatch batch => .ok (openBatch (batch.addWork nextBlock))
  | _ => .error .unreachable

def onGenesisBoundary (buffer : WorkBuffer B) (nextBlock : B) : Except Panic (WorkBuffer B) :=
  match buffer with
  | empty => .ok (genesis nextBlock)
  | _ => .error .unreachable

def onRupdBoundary (buffer : WorkBuffer B) (nextBlock : B) : Except Panic (WorkBuffer B) :=
  match buffer with
  | restart _ => .ok (rupdBoundary nextBlock)
  | openBatch batch => .ok (preRupdBoundary batch nextBlock)
  | _ => .error .unreachable

def onEwrapBoundary (buffer : WorkBuffer B) (nextBlock : B) (epoch : ℕ) :
    Except Panic (WorkBuffer B) :=
  match buffer with
  | restart _ => .ok (ewrapBoundary nextBlock epoch)
  | openBatch batch => .ok (preEwrapBoundary batch nextBlock epoch)
  | _ => .error .unreachable

def receiveBlock (buffer : WorkBuffer B) (block : B) (eras : ChainSummary)
    (stabilityWindow : ℕ) : Except Panic (WorkBuffer B) := do
  if buffer.canReceiveBlock = false then
    .error (.assertFailed "can't continue until previous work is completed")
  else
    match buffer with
    | empty => buffer.onGenesisBoundary block
    | _ =>
        let lastPoint ← buffer.lastPointSeen
        let prevSlot := lastPoint.slot
        let nextSlot := Block.slot block
        match ← Dolos.epochBoundary eras prevSlot nextSlot with
        | some (epoch, _, _) => buffer.onEwrapBoundary block epoch
        | none =>
            match ← Dolos.rupdBoundary stabilityWindow eras prevSlot nextSlot with
            | some _ => buffer.onRupdBoundary block
            | none => buffer.extendBatch block

def popWork (buffer : WorkBuffer B) (stopEpoch : Option ℕ) :
    Option (InternalWorkUnit B) × WorkBuffer B :=
  match buffer with
  | empty => (none, empty)
  | restart point => (none, restart point)
  | genesis block => (some .genesis, openBatch (.forSingleBlock block))
  | openBatch batch => (some (.blocks batch), restart batch.lastPoint)
  | preRupdBoundary batch block => (some (.blocks batch), rupdBoundary block)
  | rupdBoundary block =>
      (some (.rupd (Block.slot block)), openBatch (.forSingleBlock block))
  | preEwrapBoundary batch block epoch => (some (.blocks batch), ewrapBoundary block epoch)
  | ewrapBoundary block epoch =>
      (some (.ewrap (Block.slot block)), estartBoundary block (epoch + 1))
  | estartBoundary block epoch =>
      (some (.estart (Block.slot block)),
        if stopEpoch = some epoch then preForcedStop block
        else openBatch (.forSingleBlock block))
  | preForcedStop block => (some (.blocks (.forSingleBlock block)), forcedStop)
  | forcedStop => (some .forcedStop, forcedStop)

end WorkBuffer

end Dolos
