import Dolos.Snapshot.ExportLaw
import Dolos.Snapshot.Publish
import Dolos.Snapshot.Resume

/-!
# What a restore reads

`plan` of `snapshot/src/restore.rs`: the layers of a document grouped by the epoch their
scope names, the epochs behind the history window dropped, and the state layers split into
the tip, which has to be whole, and the dumps of past epochs, which are only reported.

The schema revisions of a document and the kinds a build does not know are left out, and so
is what is only counted for a report.
-/

namespace Dolos.Snapshot

open Outcome

variable {V O D : Type}

inductive RestoreError where
  | networkMismatch (expected found : ℕ)
  | missingField (kind : LayerKind) (field : String)
  | windowsDiffer (kind : LayerKind) (held named : EpochWindow)
  | describedTwice (kind : LayerKind) (scope : DescriptorScope)
  | incompleteStele (ns : StateNs) (expected found : List ℕ)
  | malformedRecord (kind : LayerKind)
  deriving DecidableEq, Repr

/-- The layers of one epoch. Each kind is optional. -/
structure EpochLayers (D : Type) where
  window : EpochWindow
  blocks : Option (LayerDescriptor D)
  logs : LogNs → Option (LayerDescriptor D)
  indexes : Option (LayerDescriptor D)

namespace EpochLayers

def empty (window : EpochWindow) : EpochLayers D := ⟨window, none, fun _ => none, none⟩

def layer (layers : EpochLayers D) : LayerKind → Option (LayerDescriptor D)
  | .blocks => layers.blocks
  | .indexes => layers.indexes
  | .log ns => layers.logs ns
  | _ => none

def place (layers : EpochLayers D) (descriptor : LayerDescriptor D) : EpochLayers D :=
  match descriptor.kind with
  | .log ns => { layers with
      logs := fun other => if other = ns then some descriptor else layers.logs other }
  | .blocks => { layers with blocks := some descriptor }
  | _ => { layers with indexes := some descriptor }

/-- The blocks, then the logs by namespace, then the index records. -/
def descriptors (layers : EpochLayers D) : List (LayerDescriptor D) :=
  layers.blocks.toList ++ LogNs.all.filterMap layers.logs ++ layers.indexes.toList

end EpochLayers

/-- The fields `epoch`, `startSlot` and `endSlot` of a scope. -/
def scopeWindow (descriptor : LayerDescriptor D) : Except RestoreError EpochWindow :=
  match descriptor.scope with
  | .epoch window => .ok window
  | .dump _ _ => .error (.missingField descriptor.kind "startSlot")
  | .tip _ => .error (.missingField descriptor.kind "epoch")
  | .digests _ => .error (.missingField descriptor.kind "epoch")

/-- An epoch has one window, and one layer of a kind. -/
def selectEpoch (selected : OrderedMap ℕ (EpochLayers D)) (descriptor : LayerDescriptor D) :
    Except RestoreError (OrderedMap ℕ (EpochLayers D)) :=
  if descriptor.kind.isEpoch then do
    let window ← scopeWindow descriptor
    let entry := (selected.get? window.epoch).getD (.empty window)
    if (entry.window.startSlot, entry.window.endSlot) ≠ (window.startSlot, window.endSlot) then
      .error (.windowsDiffer descriptor.kind entry.window window)
    else if (entry.layer descriptor.kind).isSome then
      .error (.describedTwice descriptor.kind descriptor.scope)
    else .ok (selected.insert window.epoch (entry.place descriptor))
  else .ok selected

def selectEpochs (layers : List (LayerDescriptor D)) :
    Except RestoreError (List (EpochLayers D)) := do
  let selected ← layers.foldlM selectEpoch ∅
  .ok (selected.entries.map Prod.snd)

/-- An epoch is kept if its last slot is in the history window. -/
def retainHistory (epochs : List (EpochLayers D)) (tip : ℕ) (maxHistory : Option ℕ) :
    List (EpochLayers D) × ℕ :=
  match maxHistory with
  | none => (epochs, 0)
  | some maxHistory =>
      let kept := epochs.filter fun layers => tip - maxHistory ≤ layers.window.endSlot
      (kept, epochs.length - kept.length)

/-- Shards by namespace. -/
abbrev Shards (D : Type) := StateNs → OrderedMap ℕ (LayerDescriptor D)

namespace Shards

def empty : Shards D := fun _ => ∅

/-- A shard is described once. -/
def add (shards : Shards D) (ns : StateNs) (shard : ℕ) (descriptor : LayerDescriptor D) :
    Except RestoreError (Shards D) :=
  if ((shards ns).get? shard).isSome then
    .error (.describedTwice descriptor.kind descriptor.scope)
  else .ok fun other =>
    if other = ns then (shards other).insert shard descriptor else shards other

end Shards

structure StateLayers (D : Type) where
  tip : Shards D
  dumps : OrderedMap ℕ (Shards D)

/-- What tells a dump from the tip is that its scope names an epoch. -/
def selectShard (state : StateLayers D) (descriptor : LayerDescriptor D) :
    Except RestoreError (StateLayers D) :=
  match descriptor.kind with
  | .state ns =>
      match descriptor.scope with
      | .tip shard => do
          let tip ← state.tip.add ns shard descriptor
          .ok { state with tip := tip }
      | .dump epoch shard => do
          let dump ← ((state.dumps.get? epoch).getD .empty).add ns shard descriptor
          .ok { state with dumps := state.dumps.insert epoch dump }
      | _ => .error (.missingField descriptor.kind "shard")
  | _ => .ok state

/-- The tip has every shard of every namespace. -/
def checkTip (tip : Shards D) : Except RestoreError Unit :=
  StateNs.all.forM fun ns =>
    if (tip ns).keys = List.range ns.shards then .ok ()
    else .error (.incompleteStele ns (List.range ns.shards) (tip ns).keys)

def selectState (layers : List (LayerDescriptor D)) : Except RestoreError (StateLayers D) := do
  let state ← layers.foldlM selectShard ⟨.empty, ∅⟩
  checkTip state.tip
  .ok state

structure RestorePlan (D : Type) where
  position : Position
  sequence : ℕ
  epochs : List (EpochLayers D)
  state : Shards D
  dumps : OrderedMap ℕ (Shards D)
  skippedEpochs : ℕ

namespace RestorePlan

/-- `plan`: nothing is read of a stele of another network. -/
def new (inscription : Inscription D) (magic : ℕ) (maxHistory : Option ℕ) :
    Except RestoreError (RestorePlan D) :=
  if inscription.position.magic ≠ magic then
    .error (.networkMismatch magic inscription.position.magic)
  else do
    let epochs ← selectEpochs inscription.layers
    let selected := retainHistory epochs inscription.position.point.slot maxHistory
    let state ← selectState inscription.layers
    .ok ⟨inscription.position, inscription.sequence, selected.1, state.tip, state.dumps,
      selected.2⟩

def immutableLayers (plan : RestorePlan D) : List (LayerDescriptor D) :=
  plan.epochs.flatMap EpochLayers.descriptors

/-- Every shard of every namespace, in order. -/
def tipLayers (plan : RestorePlan D) : List (LayerDescriptor D) :=
  StateNs.all.flatMap fun ns => (plan.state ns).entries.map Prod.snd

def reading (plan : RestorePlan D) : Reading D where
  epochs := plan.immutableLayers.map LayerDescriptor.diffId
  tip := plan.tipLayers.map LayerDescriptor.diffId
  point := plan.position.point

end RestorePlan

section Records

variable (read : D → LayerSpec × List (Record V O)) (epochSize : EpochWrite V → ℕ)
  (tipSize : TipWrite V O → ℕ)

/-- What a record of an epoch's layer is written as. -/
def epochWrite : LayerKind → Record V O → Option (EpochWrite V)
  | .blocks, .block record => some (.block record.slot record.body)
  | .log ns, .log key value => some (.log ns key value)
  | .indexes, .index (.tag record) => some (.tag record)
  | .indexes, .index (.exact key slot) => some (.exact key slot)
  | _, _ => none

/-- What a state record is written as. The kind says under which namespace, and an output
is told from an entity by the width of its key. -/
def tipWrite : LayerKind → Record V O → Option (TipWrite V O)
  | .state .utxos, .utxo txo value => some (.utxo txo value)
  | .state .utxos, _ => none
  | .state ns, .entity key value => some (.entity ns key value)
  | _, _ => none

def contentsOf : Contents V O D where
  epoch digest := (read digest).2.filterMap (epochWrite (read digest).1.kind)
  tip digest := (read digest).2.filterMap (tipWrite (read digest).1.kind)
  epochSize := epochSize
  tipSize := tipSize

def LayerScope.magic : LayerScope → ℕ
  | epoch magic _ => magic
  | tip magic _ _ => magic
  | dump magic _ _ => magic
  | digests magic _ _ => magic

/-- `check_layer_magic`, and that every record of a layer decodes as one of its kind. -/
def checkLayer (magic : ℕ) (descriptor : LayerDescriptor D) : Except RestoreError Unit :=
  let layer := read descriptor.diffId
  if layer.1.scope.magic ≠ magic then .error (.networkMismatch magic layer.1.scope.magic)
  else if layer.2.all fun record =>
      (epochWrite descriptor.kind record).isSome || (tipWrite descriptor.kind record).isSome then
    .ok ()
  else .error (.malformedRecord descriptor.kind)

variable [DecidableEq D] [BlockDecoding O]

/-- `restore_stele` into empty stores: what the node is when no layer is refused. -/
def restoreStele (inscription : Inscription D) (magic : ℕ) (maxHistory : Option ℕ)
    (budget : Budget) : Except RestoreError (Node V O) := do
  let plan ← RestorePlan.new inscription magic maxHistory
  (plan.immutableLayers ++ plan.tipLayers).forM (checkLayer read magic)
  .ok (restore (contentsOf read epochSize tipSize) plan.reading budget .empty)

end Records

end Dolos.Snapshot
