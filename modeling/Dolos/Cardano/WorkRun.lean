import Dolos.Lib.Outcome
import Dolos.Cardano.Work

/-!
# Runs of the work buffer

A run interleaves received blocks with pops in any order. What it pops is
compared with `schedule`, which says block by block what the buffer is for: each
block once, in the order received, preceded by the units of the boundary it
crosses. The invariant of every run is that the popped units, flattened, followed
by what the buffer still holds, are the schedule of the blocks received so far.
-/

namespace Dolos

open Outcome

/-- One entry of a flattened sequence of work units: batches are split into their
blocks, since where a batch ends depends on when the buffer was drained. -/
inductive WorkItem (B : Type) where
  | genesis
  | block (block : B)
  | rupd (slot : ℕ)
  | ewrap (slot : ℕ)
  | estart (slot : ℕ)
  deriving DecidableEq

variable {B : Type}

/-- The items of a work unit. A forced stop carries no work. -/
def InternalWorkUnit.items : InternalWorkUnit B → List (WorkItem B)
  | genesis => [.genesis]
  | blocks batch => batch.blocks.map .block
  | ewrap slot => [.ewrap slot]
  | estart slot => [.estart slot]
  | rupd slot => [.rupd slot]
  | forcedStop => []

def InternalWorkUnit.itemsOf (units : List (InternalWorkUnit B)) : List (WorkItem B) :=
  units.flatMap items

@[simp]
theorem InternalWorkUnit.itemsOf_concat (units : List (InternalWorkUnit B))
    (unit : InternalWorkUnit B) : itemsOf (units ++ [unit]) = itemsOf units ++ unit.items := by
  simp [itemsOf]

theorem InternalWorkUnit.itemsOf_append (left right : List (InternalWorkUnit B)) :
    itemsOf (left ++ right) = itemsOf left ++ itemsOf right := by
  simp [itemsOf]

namespace WorkItem

def block? : WorkItem B → Option B
  | block b => some b
  | _ => none

/-- The blocks among some items, in order. -/
def blocksOf (items : List (WorkItem B)) : List B := items.filterMap block?

@[simp]
theorem blocksOf_append (left right : List (WorkItem B)) :
    blocksOf (left ++ right) = blocksOf left ++ blocksOf right := by
  simp [blocksOf]

@[simp]
theorem blocksOf_map_block (blocks : List B) :
    blocksOf (blocks.map WorkItem.block) = blocks := by
  induction blocks with
  | nil => rfl
  | cons head tail ih => simpa [blocksOf, block?] using ih

end WorkItem

namespace WorkBuffer

/-- What the buffer still holds, in the order it will be popped. -/
def pending [Block B] : WorkBuffer B → List (WorkItem B)
  | empty => []
  | restart _ => []
  | genesis block => [.genesis, .block block]
  | openBatch batch => batch.blocks.map .block
  | preRupdBoundary batch block =>
      batch.blocks.map .block ++ [.rupd (Block.slot block), .block block]
  | rupdBoundary block => [.rupd (Block.slot block), .block block]
  | preEwrapBoundary batch block _ =>
      batch.blocks.map .block ++
        [.ewrap (Block.slot block), .estart (Block.slot block), .block block]
  | ewrapBoundary block _ =>
      [.ewrap (Block.slot block), .estart (Block.slot block), .block block]
  | estartBoundary block _ => [.estart (Block.slot block), .block block]
  | preForcedStop block => [.block block]
  | forcedStop => []

/-- The slot the next block is compared with; there is none before the first. -/
def seenSlot [Block B] : WorkBuffer B → Option ℕ
  | empty => none
  | restart point => some point.slot
  | genesis block => some (Block.slot block)
  | openBatch batch => some (Block.slot batch.last)
  | preRupdBoundary _ block => some (Block.slot block)
  | rupdBoundary block => some (Block.slot block)
  | preEwrapBoundary _ block _ => some (Block.slot block)
  | ewrapBoundary block _ => some (Block.slot block)
  | estartBoundary block _ => some (Block.slot block)
  | preForcedStop block => some (Block.slot block)
  | forcedStop => none

end WorkBuffer

section Schedule

variable [Block B] (eras : ChainSummary) (stabilityWindow : ℕ)

/-- The boundary items between two slots. An epoch boundary takes precedence over
a reward-update boundary. -/
def crossing (prevSlot nextSlot : ℕ) : Except Panic (List (WorkItem B)) := do
  match ← epochBoundary eras prevSlot nextSlot with
  | some _ => .ok [.ewrap nextSlot, .estart nextSlot]
  | none =>
      match ← rupdBoundary stabilityWindow eras prevSlot nextSlot with
      | some _ => .ok [.rupd nextSlot]
      | none => .ok []

/-- What precedes a block, given the slot last seen. -/
def preamble (seen : Option ℕ) (block : B) : Except Panic (List (WorkItem B)) :=
  match seen with
  | none => .ok [.genesis]
  | some slot => crossing eras stabilityWindow slot (Block.slot block)

/-- The work due for a sequence of blocks, given the slot last seen. -/
def schedule (seen : Option ℕ) : List B → Except Panic (List (WorkItem B))
  | [] => .ok []
  | block :: rest => do
      let before ← preamble eras stabilityWindow seen block
      let after ← schedule (some (Block.slot block)) rest
      .ok (before ++ .block block :: after)

/-- The slot last seen after a sequence of blocks. -/
def seenAfter (seen : Option ℕ) (blocks : List B) : Option ℕ :=
  match blocks.getLast? with
  | some block => some (Block.slot block)
  | none => seen

@[simp]
theorem seenAfter_nil (seen : Option ℕ) : seenAfter (B := B) seen [] = seen := rfl

@[simp]
theorem seenAfter_concat (seen : Option ℕ) (blocks : List B) (block : B) :
    seenAfter seen (blocks ++ [block]) = some (Block.slot block) := by
  simp [seenAfter]

theorem seenAfter_cons (seen : Option ℕ) (block : B) (rest : List B) :
    seenAfter seen (block :: rest) = seenAfter (some (Block.slot block)) rest := by
  cases rest with
  | nil => rfl
  | cons next rest =>
      rw [seenAfter, seenAfter, List.getLast?_cons_cons,
        List.getLast?_eq_some_getLast (List.cons_ne_nil next rest)]

theorem schedule_append (seen : Option ℕ) (left right : List B) :
    schedule eras stabilityWindow seen (left ++ right) =
      (do
        let earlier ← schedule eras stabilityWindow seen left
        let later ← schedule eras stabilityWindow (seenAfter seen left) right
        .ok (earlier ++ later)) := by
  induction left generalizing seen with
  | nil =>
      cases scheduled : schedule eras stabilityWindow seen right with
      | error panic => simp [schedule, scheduled]
      | ok later => simp [schedule, scheduled]
  | cons head tail ih =>
      rw [seenAfter_cons, List.cons_append, schedule, schedule, ih]
      cases preamble eras stabilityWindow seen head with
      | error panic => rfl
      | ok before =>
          cases schedule eras stabilityWindow (some (Block.slot head)) tail with
          | error panic => rfl
          | ok earlier =>
              cases schedule eras stabilityWindow
                  (seenAfter (some (Block.slot head)) tail) right with
              | error panic => rfl
              | ok later => simp

theorem schedule_concat {seen : Option ℕ} {blocks : List B} {block : B}
    {earlier before : List (WorkItem B)}
    (scheduled : schedule eras stabilityWindow seen blocks = .ok earlier)
    (preceded : preamble eras stabilityWindow (seenAfter seen blocks) block = .ok before) :
    schedule eras stabilityWindow seen (blocks ++ [block]) =
      .ok (earlier ++ before ++ [.block block]) := by
  simp [schedule_append, scheduled, schedule, preceded]

omit [Block B] in
theorem exists_crossing (continuous : eras.Continuous) (prevSlot nextSlot : ℕ) :
    ∃ items, crossing (B := B) eras stabilityWindow prevSlot nextSlot = .ok items := by
  rcases exists_epochBoundary continuous prevSlot nextSlot with ⟨epoch, epochEq⟩
  rcases exists_rupdBoundary continuous stabilityWindow prevSlot nextSlot with ⟨rupd, rupdEq⟩
  simp only [crossing, epochEq, rupdEq, ok_bind]
  cases epoch with
  | some epoch => exact ⟨_, rfl⟩
  | none =>
      cases rupd with
      | some rupd => exact ⟨_, rfl⟩
      | none => exact ⟨_, rfl⟩

end Schedule

namespace WorkBuffer

variable [Block B] {eras : ChainSummary} {stabilityWindow : ℕ}

/-- What the buffer does with a block once the boundary between it and the slot
last seen is known. -/
theorem receiveBlock_eq (buffer : WorkBuffer B) (block : B) (slot : ℕ)
    (can : buffer.canReceiveBlock = true) (seen : buffer.seenSlot = some slot) :
    buffer.receiveBlock block eras stabilityWindow =
      (do
        match ← Dolos.epochBoundary eras slot (Block.slot block) with
        | some (epoch, _, _) => buffer.onEwrapBoundary block epoch
        | none =>
            match ← Dolos.rupdBoundary stabilityWindow eras slot (Block.slot block) with
            | some _ => buffer.onRupdBoundary block
            | none => buffer.extendBatch block) := by
  cases buffer with
  | restart point =>
      simp only [seenSlot, Option.some.injEq] at seen
      subst slot
      rfl
  | openBatch batch =>
      simp only [seenSlot, Option.some.injEq] at seen
      subst slot
      rfl
  | empty => simp [seenSlot] at seen
  | genesis block => simp [canReceiveBlock] at can
  | preRupdBoundary batch block => simp [canReceiveBlock] at can
  | rupdBoundary block => simp [canReceiveBlock] at can
  | preEwrapBoundary batch block epoch => simp [canReceiveBlock] at can
  | ewrapBoundary block epoch => simp [canReceiveBlock] at can
  | estartBoundary block epoch => simp [canReceiveBlock] at can
  | preForcedStop block => simp [canReceiveBlock] at can
  | forcedStop => simp [canReceiveBlock] at can

/-- The three ways a block enters a buffer that has seen a slot, by the boundary
the block crosses. -/
theorem receiveBlock_classified (buffer : WorkBuffer B) (block : B) {slot : ℕ}
    {items : List (WorkItem B)} (can : buffer.canReceiveBlock = true)
    (seen : buffer.seenSlot = some slot)
    (crossed : crossing eras stabilityWindow slot (Block.slot block) = .ok items) :
    ∃ next, buffer.receiveBlock block eras stabilityWindow = .ok next ∧
      next.pending = buffer.pending ++ items ++ [.block block] ∧
      next.seenSlot = some (Block.slot block) := by
  rw [receiveBlock_eq buffer block slot can seen]
  rcases bind_eq_ok.mp crossed with ⟨epoch, epochEq, rest⟩
  rw [epochEq, ok_bind]
  cases epoch with
  | some epoch =>
      simp only [Except.ok.injEq] at rest
      subst items
      cases buffer <;>
        simp_all [canReceiveBlock, seenSlot, onEwrapBoundary, pending]
  | none =>
      rcases bind_eq_ok.mp rest with ⟨rupd, rupdEq, rest⟩
      simp only [rupdEq, ok_bind]
      cases rupd with
      | some rupd =>
          simp only [Except.ok.injEq] at rest
          subst items
          cases buffer <;>
            simp_all [canReceiveBlock, seenSlot, onRupdBoundary, pending]
      | none =>
          simp only [Except.ok.injEq] at rest
          subst items
          cases buffer <;>
            simp_all [canReceiveBlock, seenSlot, extendBatch, pending]

theorem receiveBlock_spec (buffer : WorkBuffer B) (block : B) {items : List (WorkItem B)}
    (can : buffer.canReceiveBlock = true)
    (before : preamble eras stabilityWindow buffer.seenSlot block = .ok items) :
    ∃ next, buffer.receiveBlock block eras stabilityWindow = .ok next ∧
      next.pending = buffer.pending ++ items ++ [.block block] ∧
      next.seenSlot = some (Block.slot block) := by
  cases seen : buffer.seenSlot with
  | some slot =>
      rw [seen] at before
      exact receiveBlock_classified buffer block can seen before
  | none =>
      cases buffer <;> simp_all [seenSlot, canReceiveBlock]
      simp only [preamble, Except.ok.injEq] at before
      subst items
      exact ⟨.genesis block, rfl, rfl, rfl⟩

/-- Popping moves the head of what the buffer holds into the popped unit. -/
theorem popWork_spec (buffer : WorkBuffer B) (stopEpoch : Option ℕ) :
    buffer.pending =
        InternalWorkUnit.itemsOf (buffer.popWork stopEpoch).1.toList ++
          (buffer.popWork stopEpoch).2.pending ∧
      ((buffer.popWork stopEpoch).2 = .forcedStop ∨
        (buffer.popWork stopEpoch).2.seenSlot = buffer.seenSlot) := by
  cases buffer with
  | estartBoundary block epoch =>
      simp only [popWork]
      split
      · simp [pending, InternalWorkUnit.itemsOf, InternalWorkUnit.items, seenSlot]
      · simp [pending, InternalWorkUnit.itemsOf, InternalWorkUnit.items, seenSlot]
  | empty => simp [popWork, pending, InternalWorkUnit.itemsOf]
  | restart point => simp [popWork, pending, InternalWorkUnit.itemsOf]
  | genesis block =>
      simp [popWork, pending, InternalWorkUnit.itemsOf, InternalWorkUnit.items, seenSlot]
  | openBatch batch =>
      simp [popWork, pending, InternalWorkUnit.itemsOf, InternalWorkUnit.items, seenSlot,
        WorkBatch.lastPoint]
  | preRupdBoundary batch block =>
      simp [popWork, pending, InternalWorkUnit.itemsOf, InternalWorkUnit.items, seenSlot]
  | rupdBoundary block =>
      simp [popWork, pending, InternalWorkUnit.itemsOf, InternalWorkUnit.items, seenSlot]
  | preEwrapBoundary batch block epoch =>
      simp [popWork, pending, InternalWorkUnit.itemsOf, InternalWorkUnit.items, seenSlot]
  | ewrapBoundary block epoch =>
      simp [popWork, pending, InternalWorkUnit.itemsOf, InternalWorkUnit.items, seenSlot]
  | preForcedStop block =>
      simp [popWork, pending, InternalWorkUnit.itemsOf, InternalWorkUnit.items]
  | forcedStop =>
      simp [popWork, pending, InternalWorkUnit.itemsOf, InternalWorkUnit.items]

end WorkBuffer

/-- A step of a run: the caller offers a block or drains one work unit. -/
inductive WorkAction (B : Type) where
  | receive (block : B)
  | pop

/-- A buffer with what it has popped and accepted since it was initialized. -/
structure WorkRun (B : Type) where
  buffer : WorkBuffer B
  units : List (InternalWorkUnit B)
  received : List B

namespace WorkRun

variable [Block B] (eras : ChainSummary) (stabilityWindow : ℕ) (stopEpoch : Option ℕ)

def start (cursor : Option ChainPoint) : WorkRun B := ⟨.initializeWork cursor, [], []⟩

/-- `CardanoLogic::receive_block` hands a block back when the buffer cannot take
it; `CardanoLogic::pop_work` drains one unit, if there is one. -/
def step (run : WorkRun B) : WorkAction B → Except Panic (WorkRun B)
  | .receive block =>
      if run.buffer.canReceiveBlock = false then .ok run
      else do
        let buffer ← run.buffer.receiveBlock block eras stabilityWindow
        .ok ⟨buffer, run.units, run.received ++ [block]⟩
  | .pop =>
      let popped := run.buffer.popWork stopEpoch
      .ok ⟨popped.2, run.units ++ popped.1.toList, run.received⟩

def execute (run : WorkRun B) : List (WorkAction B) → Except Panic (WorkRun B)
  | [] => .ok run
  | action :: rest => do
      let next ← run.step eras stabilityWindow stopEpoch action
      execute next rest

/-- Everything popped and everything still held, flattened. -/
def trace (run : WorkRun B) : List (WorkItem B) :=
  InternalWorkUnit.itemsOf run.units ++ run.buffer.pending

/-- The invariant of a run: it follows the schedule of the blocks received. -/
structure OnSchedule (cursor : Option ChainPoint) (run : WorkRun B) : Prop where
  scheduled : schedule eras stabilityWindow (cursor.map ChainPoint.slot) run.received =
    .ok run.trace
  seen : run.buffer = .forcedStop ∨
    run.buffer.seenSlot = seenAfter (cursor.map ChainPoint.slot) run.received

theorem onSchedule_start (cursor : Option ChainPoint) :
    OnSchedule (B := B) eras stabilityWindow cursor (start cursor) := by
  cases cursor with
  | none => exact ⟨rfl, Or.inr rfl⟩
  | some point => exact ⟨rfl, Or.inr rfl⟩

variable {eras stabilityWindow}

theorem onSchedule_receive {cursor : Option ChainPoint} {run : WorkRun B} (block : B)
    (continuous : eras.Continuous) (can : run.buffer.canReceiveBlock = true)
    (scheduled : run.OnSchedule eras stabilityWindow cursor) :
    ∃ buffer, run.buffer.receiveBlock block eras stabilityWindow = .ok buffer ∧
      OnSchedule eras stabilityWindow cursor
        ⟨buffer, run.units, run.received ++ [block]⟩ := by
  have seen : run.buffer.seenSlot = seenAfter (cursor.map ChainPoint.slot) run.received := by
    rcases scheduled.seen with stopped | seen
    · rw [stopped] at can
      simp [WorkBuffer.canReceiveBlock] at can
    · exact seen
  have before : ∃ items,
      preamble eras stabilityWindow run.buffer.seenSlot block = .ok items := by
    cases run.buffer.seenSlot with
    | none => exact ⟨_, rfl⟩
    | some slot => exact exists_crossing eras stabilityWindow continuous slot (Block.slot block)
  rcases before with ⟨items, before⟩
  rcases run.buffer.receiveBlock_spec block can before with ⟨buffer, bufferEq, held, seenNext⟩
  refine ⟨buffer, bufferEq, ⟨?_, Or.inr ?_⟩⟩
  · rw [seen] at before
    rw [schedule_concat eras stabilityWindow scheduled.scheduled before]
    simp [trace, held]
  · simpa using seenNext

theorem onSchedule_step {cursor : Option ChainPoint} {run : WorkRun B}
    (continuous : eras.Continuous)
    (scheduled : run.OnSchedule eras stabilityWindow cursor) (action : WorkAction B) :
    ∃ next, run.step eras stabilityWindow stopEpoch action = .ok next ∧
      next.OnSchedule eras stabilityWindow cursor := by
  cases action with
  | receive block =>
      cases can : run.buffer.canReceiveBlock with
      | false => exact ⟨run, by simp [step, can], scheduled⟩
      | true =>
          rcases onSchedule_receive block continuous can scheduled with
            ⟨buffer, bufferEq, nextScheduled⟩
          exact ⟨_, by simp only [step, can, bufferEq, ok_bind]; rfl, nextScheduled⟩
  | pop =>
      rcases run.buffer.popWork_spec stopEpoch with ⟨held, seen⟩
      refine ⟨⟨(run.buffer.popWork stopEpoch).2,
        run.units ++ (run.buffer.popWork stopEpoch).1.toList, run.received⟩, rfl, ⟨?_, ?_⟩⟩
      · rw [scheduled.scheduled]
        simp [trace, held, InternalWorkUnit.itemsOf]
      · rcases seen with stopped | seen
        · exact Or.inl stopped
        · rcases scheduled.seen with stopped | earlier
          · left
            simp [stopped, WorkBuffer.popWork]
          · exact Or.inr (seen.trans earlier)

/-- Every run on a continuous era summary goes through and stays on schedule. -/
theorem onSchedule_execute {cursor : Option ChainPoint} {run : WorkRun B}
    (continuous : eras.Continuous)
    (scheduled : run.OnSchedule eras stabilityWindow cursor)
    (actions : List (WorkAction B)) :
    ∃ final, run.execute eras stabilityWindow stopEpoch actions = .ok final ∧
      final.OnSchedule eras stabilityWindow cursor := by
  induction actions generalizing run with
  | nil => exact ⟨run, rfl, scheduled⟩
  | cons action rest ih =>
      rcases onSchedule_step stopEpoch continuous scheduled action with
        ⟨next, nextEq, nextScheduled⟩
      rcases ih nextScheduled with ⟨final, finalEq, finalScheduled⟩
      exact ⟨final, by rw [execute, nextEq, ok_bind, finalEq], finalScheduled⟩

end WorkRun

end Dolos

