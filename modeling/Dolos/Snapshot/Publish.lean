import Dolos.Snapshot.NodeLaw
import Dolos.Snapshot.NodeStores

/-!
# One publish after another

What the chain makes of the records a publish reads, and the publishes in between. A
block is archived and indexed; a rollback cuts the archive by slot and leaves the index
records of the blocks it undoes; the wrap-up of an epoch writes the rows of the accounts
under the epoch before and the row of the epoch under its own first slot; the reward
update writes the rows of the pools. The epoch of the state only goes up, since what a
boundary does is not in the log that a rollback takes back.

What a boundary or a reward update computes is a parameter, and so is everything else the
events do to the state.
-/

namespace Dolos.Snapshot

open Outcome

variable {V O D : Type}

/-- A block with what is indexed of it. -/
structure ChainBlock where
  body : Bytes
  index : ArchiveIndexDelta

namespace ChainBlock

def slot (block : ChainBlock) : ℕ := block.index.slot

def point (block : ChainBlock) : ChainPoint := .specific block.slot block.index.blockHash

end ChainBlock

/-- What happens to the stores between two publishes. A boundary comes with the slot of the
block that crosses it. -/
inductive ChainEvent (V : Type) where
  | roll (block : ChainBlock)
  | rollback (target : ChainPoint)
  | boundary (slot : ℕ) (accounts : List (EntityKey × V)) (epoch : V)
  | rewardUpdate (pools : List (EntityKey × V))

/-- The first slots of the epochs and the first Shelley epoch. -/
structure Schedule where
  starts : ℕ → ℕ
  firstShelley : ℕ
  rises : ∀ epoch, starts epoch < starts (epoch + 1)

namespace Schedule

def fullWindow (schedule : Schedule) (epoch : ℕ) : EpochWindow :=
  ⟨epoch, schedule.starts epoch, schedule.starts (epoch + 1) - 1⟩

/-- `relevant_epochs`, as far as the epoch whose performance is rewarded. -/
def performanceEpoch (schedule : Schedule) (number : ℕ) : Option ℕ :=
  if number < 4 then none
  else if number - 3 ≤ schedule.firstShelley then none
  else some (number - 1)

end Schedule

namespace Node

def cursorSlot (node : Node V O) : ℕ := (node.cursor.map ChainPoint.slot).getD 0

variable [KeyHashing]

/-- The records of the epochs after an event, in a state of some epoch. -/
def after (schedule : Schedule) (number : ℕ) (node : Node V O) : ChainEvent V → Node V O
  | .roll block =>
      { node with
        cursor := some block.point
        blocks := storeOnce Prod.fst node.blocks (block.slot, block.body)
        indexes := { node.indexes with
          archiveTags := IndexStore.insertArchiveTags node.indexes.archiveTags block.index
          exact := IndexStore.insertExact node.indexes.exact block.index } }
  | .rollback target =>
      { node with
        cursor := some target
        blocks := node.blocks.filter fun block => block.1 ≤ target.slot
        logs := node.logs.removeAfter target.slot }
  | .boundary slot accounts epoch =>
      { node with
        cursor := some (.slotOnly slot)
        logs :=
          (node.logs.writeRows .accountEpochs (schedule.starts (number - 1)) accounts).writeLog
          .epochs (logKeyOf (schedule.starts number)) epoch }
  | .rewardUpdate pools =>
      match schedule.performanceEpoch number with
      | none => node
      | some performance =>
          { node with
            logs := node.logs.writeRows .stakes (schedule.starts performance) pools }

end Node

def ChainEvent.number : ChainEvent V → ℕ → ℕ
  | boundary _ _ _, number => number + 1
  | _, number => number

/-- A document that was sealed, as the next publish sees it. -/
structure Publication (D : Type) where
  cursor : ChainPoint
  sequence : ℕ
  layers : List (LayerDescriptor D)

/-- A node that publishes: its stores, the epoch of its state and what it published last. -/
structure Publisher (V O D : Type) where
  node : Node V O
  number : ℕ
  last : Option (Publication D)

/-- The kinds that are scoped to an epoch. -/
def LayerKind.isEpoch : LayerKind → Bool
  | blocks => true
  | indexes => true
  | log _ => true
  | state _ => false
  | digests => false

/-- A predecessor that adopts what the last publish lists, by kind and scope. -/
structure Adopting (previous : Predecessor D) (last : Option (Publication D)) : Prop where
  landed : ∀ layer, previous.landed layer = .ok ()
  adopts : ∀ kind scope, ∃ found, previous.adopt kind scope = .ok found ∧
    ∀ layer ∈ found, ∃ published ∈ last, layer ∈ published.layers ∧ layer.kind = kind ∧
      layer.scope = scope

/-- The layers of a writer carry the kind and the scope they were opened with. -/
def SteleWriter.Lawful (writer : SteleWriter V O D) : Prop :=
  ∃ specOf : writer.Sink → LayerSpec,
    (∀ spec sink, writer.layerSink spec = .ok sink → specOf sink = spec) ∧
    (∀ sink record next, writer.writeRecord sink record = .ok next → specOf next = specOf sink) ∧
    (∀ sink written, writer.finish sink = .ok written →
      (writer.descriptor written).kind = (specOf sink).kind ∧
        (writer.descriptor written).scope = (specOf sink).scope.descriptor) ∧
    ∀ written scope again, writer.carryAgain written scope = .ok again →
      (writer.descriptor again).kind = (writer.descriptor written).kind

namespace Publisher

/-- Whether a slot lies in a window that was published in full. -/
def Closed (schedule : Schedule) (publisher : Publisher V O D) (slot : ℕ) : Prop :=
  ∃ published ∈ publisher.last, ∃ epoch, slot < schedule.starts epoch ∧
    schedule.starts epoch ≤ published.cursor.slot + 1

/-- Whether the full window of an epoch was published with a layer of some kind. -/
def Listed (schedule : Schedule) (publisher : Publisher V O D) (kind : LayerKind) (epoch : ℕ) :
    Prop :=
  ∃ published ∈ publisher.last, ∃ layer ∈ published.layers,
    layer.kind = kind ∧ layer.scope = .epoch (schedule.fullWindow epoch)

/-- The events a chain can bring: slots do not go back, and a rollback stays above the last
publish. -/
def Comes (publisher : Publisher V O D) : ChainEvent V → Prop
  | .roll block => publisher.node.cursorSlot ≤ block.slot
  | .rollback target => ∀ published ∈ publisher.last, published.cursor.slot ≤ target.slot
  | .boundary slot _ _ => publisher.node.cursorSlot ≤ slot
  | .rewardUpdate _ => True

/-- The events that leave alone what was published: a block that does not share the slot
of a window which ended with the cursor, and none of whose keys is recorded in a window
published in full; a rollback that does not land in an epoch of one slot; and the rows of
the boundary after epoch 1 and of a reward update, unless their layer is published and
they are not in it. -/
def Harmless (schedule : Schedule) (publisher : Publisher V O D) : ChainEvent V → Prop
  | .roll block =>
      (publisher.Closed schedule publisher.node.cursorSlot →
        publisher.node.cursorSlot < block.slot) ∧
      ∀ key ∈ block.index.exactKeys, ∀ slot,
        publisher.node.indexes.exact.get? key = some slot → ¬ publisher.Closed schedule slot
  | .rollback target =>
      ∀ epoch, schedule.starts epoch = target.slot → schedule.starts (epoch + 1) ≠ target.slot + 1
  | .boundary _ accounts _ =>
      publisher.number = 1 → publisher.Listed schedule (.log .accountEpochs) 0 →
        ∀ row ∈ accounts, (publisher.node.logs.rows .accountEpochs).get?
          (toLex (schedule.starts 0, row.1)) = some row.2
  | .rewardUpdate pools =>
      ∀ performance ∈ schedule.performanceEpoch publisher.number,
        publisher.Listed schedule (.log .stakes) performance →
          ∀ row ∈ pools, (publisher.node.logs.rows .stakes).get?
            (toLex (schedule.starts performance, row.1)) = some row.2

variable [KeyHashing] (writer : SteleWriter V O D) (decode : Bytes → Option BlockHash)
  (schedule : Schedule) (magic : ℕ)

/-- The plan of a publish where the node stands, in an epoch that was not published before.
The node's summary knows the schedule as far as the epoch after. -/
structure Plans (publisher : Publisher V O D) (plan : Plan) : Prop where
  made : ∃ summary starts retained, ChainSummary.Starts summary starts ∧
    Plan.new summary magic plan.cursor retained = .ok plan ∧
    ∀ epoch ≤ plan.sequence + 1, starts epoch = schedule.starts epoch
  stands : publisher.node.cursor = some plan.cursor
  later : ∀ published ∈ publisher.last, published.sequence < plan.sequence

/-- The runs of a chain with publishes in between, over the events that are allowed. -/
inductive Reaches (Allowed : Publisher V O D → ChainEvent V → Prop) : Publisher V O D → Prop
  | genesis {node : Node V O} : node.SameEpochs .empty → node.cursor = none →
      Reaches Allowed ⟨node, 0, none⟩
  | event {publisher : Publisher V O D} {event : ChainEvent V} {next : Node V O} :
      Reaches Allowed publisher → publisher.Comes event → Allowed publisher event →
      next.SameEpochs (publisher.node.after schedule publisher.number event) →
      next.cursor = (publisher.node.after schedule publisher.number event).cursor →
      Reaches Allowed ⟨next, event.number publisher.number, publisher.last⟩
  | publish {publisher : Publisher V O D} {plan : Plan} {previous : Predecessor D}
      {digestRecords : Option (List ImmutableDigests)} {published : Published D}
      {inscription : Inscription D} :
      Reaches Allowed publisher → publisher.Plans schedule magic plan →
      Adopting previous publisher.last →
      Exports writer (publisher.node.stores decode) previous digestRecords plan published →
      published.result = .ok inscription →
      Reaches Allowed
        { publisher with last := some ⟨plan.cursor, plan.sequence, inscription.layers⟩ }

end Publisher

end Dolos.Snapshot
