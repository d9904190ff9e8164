import Dolos.Snapshot.Layers
import Dolos.Snapshot.Pool

/-!
# Exporting a stele

`export` of `snapshot/src/export.rs`: every layer of a plan as a job, the index layers of
several epochs filled by one pass over the store, and the document sealed when all of
them are there.

The transport and the predecessor belong to other crates and stand here as what they
answer. What is only reported to an observer is left out.
-/

namespace Dolos.Snapshot

open Outcome

variable {V O D : Type}

/-- What a store hands out item by item. Opening it can fail, and so can each item. -/
abbrev Feed (A : Type) := Except SnapshotError (List (Except SnapshotError A))

namespace Feed

variable {A S : Type}

def each (feed : Feed A) (round : S → A → Except SnapshotError S) (first : S) :
    Except SnapshotError S := do
  let items ← feed
  items.foldlM (fun state item => item >>= round state) first

/-- Whether there is a first item. -/
def occupied (feed : Feed A) : Except SnapshotError Bool := do
  let items ← feed
  match items with
  | [] => .ok false
  | item :: _ => do
      let _ ← item
      .ok true

/-- An item that cannot be read is in every range. -/
def inRange (slotOf : A → ℕ) (slots : ℕ × ℕ) : Except SnapshotError A → Bool
  | .error _ => true
  | .ok record => decide (slots.1 ≤ slotOf record ∧ slotOf record < slots.2)

/-- The items of a range of slots. -/
def within (feed : Feed A) (slotOf : A → ℕ) (slots : ℕ × ℕ) : Feed A :=
  feed.map fun items => items.filter (inRange slotOf slots)

end Feed

/-- The stores of a node, as they are read. The index records are kept in an order of their
own, so the store reads all of them to find those of some slots. -/
structure Stores (V O : Type) where
  decode : Bytes → Option BlockHash
  getRange : ℕ × ℕ → Except SnapshotError (List (ℕ × Bytes))
  iterLogs : StateNs → LogKey × LogKey → Feed (LogKey × V)
  archiveTags : Feed ArchiveTag
  exactRecords : Feed (ExactKey × ℕ)
  iterEntities : StateNs → Feed (EntityKey × V)
  iterUtxos : Feed (TxoRef × O)

namespace Stores

def iterArchiveTags (stores : Stores V O) (slots : ℕ × ℕ) : Feed ArchiveTag :=
  stores.archiveTags.within (fun tag => tag.2.2) slots

def iterExactRecords (stores : Stores V O) (slots : ℕ × ℕ) : Feed (ExactKey × ℕ) :=
  stores.exactRecords.within Prod.snd slots

end Stores

structure Position where
  magic : ℕ
  point : ChainPoint
  epoch : ℕ
  deriving DecidableEq, Repr

/-- The document of a stele. -/
structure Inscription (D : Type) where
  sequence : ℕ
  position : Position
  retained : List ℕ
  history : List D
  layers : List (LayerDescriptor D)
  deriving DecidableEq

/-- Where a stele is written. What a finished layer leaves behind can be named a second
time, under another scope. -/
structure SteleWriter (V O D : Type) where
  Sink : Type
  Written : Type
  descriptor : Written → LayerDescriptor D
  layerSink : LayerSpec → Except SnapshotError Sink
  writeRecord : Sink → Record V O → Except SnapshotError Sink
  finish : Sink → Except SnapshotError Written
  carryAgain : Written → DescriptorScope → Except SnapshotError Written
  sealStele : Inscription D → Except SnapshotError Unit

/-- The publish this one follows. -/
structure Predecessor (D : Type) where
  adopt : LayerKind → DescriptorScope → Except SnapshotError (Option (LayerDescriptor D))
  carriedForward : LayerKind → DescriptorScope → Except SnapshotError Bool
  landed : LayerDescriptor D → Except SnapshotError Unit
  history : List D

namespace Predecessor

/-- No publish came before: nothing to adopt. -/
def first : Predecessor D where
  adopt := fun _ _ => .ok none
  carriedForward := fun _ _ => .ok false
  landed := fun _ => .ok ()
  history := []

end Predecessor

def logKeyRange (slots : ℕ × ℕ) : LogKey × LogKey := (logKeyOf slots.1, logKeyOf slots.2)

namespace EpochWindow

def spec (window : EpochWindow) (magic : ℕ) (kind : LayerKind) : LayerSpec :=
  ⟨kind, .epoch magic window⟩

end EpochWindow

section Writing

variable (writer : SteleWriter V O D)

/-- A sink with what its records are checked against. -/
abbrev Checked (C : Type) := writer.Sink × C

/-- A record is checked and then written. -/
def put {C R : Type} (check : C → R → Except SnapshotError C) (record : R → Record V O)
    (open_ : Checked writer C) (item : R) : Except SnapshotError (Checked writer C) := do
  let order ← check open_.2 item
  let sink ← writer.writeRecord open_.1 (record item)
  .ok (sink, order)

end Writing

section Layers

variable (writer : SteleWriter V O D) (stores : Stores V O) (previous : Predecessor D)

/-- The predecessor is asked before any store is. -/
def inherit (magic : ℕ) (window : EpochWindow) (kind : LayerKind) :
    Except SnapshotError (LayerSpec × Option (LayerDescriptor D)) := do
  let spec := window.spec magic kind
  let adopted ← previous.adopt kind spec.scope.descriptor
  .ok (spec, adopted)

def putBlock (open_ : Checked writer (Option ℕ)) (block : ℕ × Bytes) :
    Except SnapshotError (Checked writer (Option ℕ)) :=
  match stores.decode block.2 with
  | none => .error (.undecodableBlock block.1)
  | some hash => put writer checkBlock .block open_ ⟨block.1, hash, block.2⟩

def writeBlocks (magic : ℕ) (window : EpochWindow) :
    Except SnapshotError (LayerDescriptor D) := do
  let (spec, adopted) ← inherit previous magic window .blocks
  match adopted with
  | some descriptor => .ok descriptor
  | none => do
      let sink ← writer.layerSink spec
      let blocks ← stores.getRange window.slots
      let filled ← blocks.foldlM (putBlock writer stores) (sink, none)
      let written ← writer.finish filled.1
      .ok (writer.descriptor written)

/-- The first record opens the layer. -/
def putLog (spec : LayerSpec) (state : Option writer.Sink × Option LogKey) (item : LogKey × V) :
    Except SnapshotError (Option writer.Sink × Option LogKey) := do
  let order ← checkLog state.2 item
  let sink ←
    match state.1 with
    | some sink => .ok sink
    | none => writer.layerSink spec
  let sink ← writer.writeRecord sink (.log item.1 item.2)
  .ok (some sink, order)

/-- A window without logs has no layer. -/
def writeLogs (magic : ℕ) (ns : LogNs) (window : EpochWindow) :
    Except SnapshotError (Option (LayerDescriptor D)) := do
  let (spec, adopted) ← inherit previous magic window (.log ns)
  match adopted with
  | some descriptor => .ok (some descriptor)
  | none => do
      let filled ← (stores.iterLogs (logNamespace ns) (logKeyRange window.slots)).each
        (putLog writer spec) (none, none)
      match filled.1 with
      | none => .ok none
      | some sink => do
          let written ← writer.finish sink
          .ok (some (writer.descriptor written))

/-- Logs under a namespace that no kind carries are refused. -/
def refuseUncoveredLogs (window : EpochWindow) : Except SnapshotError Unit :=
  StateNs.all.forM fun ns =>
    if ns = .utxos ∨ ns ∈ LogNs.all.map logNamespace then .ok ()
    else do
      let occupied ← (stores.iterLogs ns (logKeyRange window.slots)).occupied
      if occupied then .error (.uncoveredLogNamespace window.epoch ns) else .ok ()

/-- One index layer being filled by the pass over a band. -/
structure Building where
  slots : ℕ × ℕ
  position : ℕ
  filling : Checked writer IndexOrder

/-- How many elements of a partitioned list come before its turning point. -/
def partitionPoint {A : Type} (below : A → Bool) (items : List A) : ℕ :=
  (items.takeWhile below).length

/-- A record goes to the layer whose slots it falls in; one that falls in none is dropped. -/
def routeIndex (building : List (Building writer)) (record : IndexRecord) :
    Except SnapshotError (List (Building writer)) :=
  match partitionPoint (fun layer => layer.slots.1 ≤ record.slot) building with
  | 0 => .ok building
  | at_ + 1 =>
      match building[at_]? with
      | none => .error (.panic .unreachable)
      | some layer =>
          if layer.slots.1 ≤ record.slot ∧ record.slot < layer.slots.2 then do
            let filling ← put writer checkIndex .index layer.filling record
            .ok (building.set at_ { layer with filling := filling })
          else .ok building

/-- The layers of a band in their places, with those that are to be filled. -/
structure Announced where
  descriptors : List (Option (LayerDescriptor D))
  building : List (Building writer)

def announce (magic : ℕ) (announced : Announced writer) (window : EpochWindow) :
    Except SnapshotError (Announced writer) := do
  let (spec, adopted) ← inherit previous magic window .indexes
  match adopted with
  | some descriptor => do
      previous.landed descriptor
      .ok { announced with descriptors := announced.descriptors ++ [some descriptor] }
  | none => do
      let sink ← writer.layerSink spec
      .ok ⟨announced.descriptors ++ [none], announced.building ++
        [⟨window.slots, announced.descriptors.length, (sink, .default)⟩]⟩

def settle (descriptors : List (Option (LayerDescriptor D))) (layer : Building writer) :
    Except SnapshotError (List (Option (LayerDescriptor D))) := do
  let written ← writer.finish layer.filling.1
  previous.landed (writer.descriptor written)
  .ok (descriptors.set layer.position (some (writer.descriptor written)))

/-- One pass for a band: from the first slot any layer of it wants to the last. -/
def writeIndexes (magic : ℕ) (band : List EpochWindow) :
    Except SnapshotError (List (LayerDescriptor D)) := do
  let announced ← band.foldlM (announce writer previous magic) ⟨[], []⟩
  match announced.building with
  | [] => .ok announced.descriptors.reduceOption
  | first :: later => do
      let slots := (first.slots.1, ((first :: later).getLast (by simp)).slots.2)
      let tagged ← (stores.iterArchiveTags slots).each
        (fun building tag => routeIndex writer building (.tag tag)) announced.building
      let filled ← (stores.iterExactRecords slots).each
        (fun building record => routeIndex writer building (.exact record.1 record.2)) tagged
      let descriptors ← filled.foldlM (settle writer previous) announced.descriptors
      .ok descriptors.reduceOption

/-- A state record goes to the sink of its shard. -/
def route {K R : Type} (check : ℕ → Option K → R → Except SnapshotError (Option K))
    (shard : R → ℕ) (record : R → Record V O) (sinks : List (Checked writer (Option K)))
    (item : R) : Except SnapshotError (List (Checked writer (Option K))) :=
  match sinks[shard item]? with
  | none => .error (.panic .unreachable)
  | some open_ => do
      let filled ← put writer (check (shard item)) record open_ item
      .ok (sinks.set (shard item) filled)

def routeEntity (ns : StateNs) (sinks : List (Checked writer (Option EntityKey)))
    (item : EntityKey × V) : Except SnapshotError (List (Checked writer (Option EntityKey))) :=
  route writer (fun shard last item => checkState id shard ns.shards last item.1)
    (fun item => shardOf item.1 ns.shards) (fun item => .entity item.1 item.2) sinks item

def routeUtxo (ns : StateNs) (sinks : List (Checked writer (Option TxoRef))) (item : TxoRef × O) :
    Except SnapshotError (List (Checked writer (Option TxoRef))) :=
  route writer
    (fun shard last item => checkState (fun txo => (ofLex txo).1) shard ns.shards last item.1)
    (fun item => shardOf (ofLex item.1).1 ns.shards) (fun item => .utxo item.1 item.2) sinks item

/-- The shards of a past epoch's dump that the predecessor still has. -/
def adoptDump (ns : StateNs) (epoch : ℕ) : Except SnapshotError (List (LayerDescriptor D)) := do
  let adopted ← (List.range ns.shards).mapM fun shard =>
    previous.adopt (.state ns) (.dump epoch shard)
  adopted.reduceOption.mapM fun descriptor => do
    previous.landed descriptor
    .ok descriptor

/-- One namespace, read once into the sinks of its shards. The dump of the epoch the
publish stands in is the tip under a second scope. -/
def writeStateKind (plan : Plan) (ns : StateNs) :
    Except SnapshotError (List (LayerDescriptor D)) := do
  let adopted ← plan.adoptableDumps.mapM (adoptDump previous ns)
  let sinks ← (List.range ns.shards).mapM fun shard =>
    writer.layerSink ⟨.state ns, .tip plan.magic plan.sequence shard⟩
  let filled ←
    if ns = .utxos then do
      let filled ← stores.iterUtxos.each (routeUtxo writer ns) (sinks.map fun sink => (sink, none))
      .ok (filled.map Prod.fst)
    else do
      let filled ← (stores.iterEntities ns).each (routeEntity writer ns)
        (sinks.map fun sink => (sink, none))
      .ok (filled.map Prod.fst)
  let tip ← filled.mapM writer.finish
  let cut ← (if plan.cutsADump then tip.zipIdx else []).mapM fun entry => do
    let again ← writer.carryAgain entry.1 (.dump plan.sequence entry.2)
    previous.landed (writer.descriptor again)
    .ok (writer.descriptor again)
  .ok (adopted.flatten ++ cut ++ tip.map writer.descriptor)

/-- The layer of digests names the last file it is about. -/
def writeDigests (plan : Plan) (records : List ImmutableDigests) :
    Except SnapshotError (LayerDescriptor D) := do
  let _ ← records.foldlM checkDigests none
  match records.getLast? with
  | none => .error (.malformedRecord "digests" "a digests layer with no records names no file")
  | some last => do
      let sink ← writer.layerSink
        ⟨.digests, .digests plan.magic plan.sequence last.immutableNumber⟩
      let filled ←
        records.foldlM (fun sink record => writer.writeRecord sink (.digests record)) sink
      let written ← writer.finish filled
      .ok (writer.descriptor written)

end Layers

section Jobs

/-- Pieces of one size, the last one what is left. -/
def chunks {A : Type} (size : ℕ) (positive : 0 < size) (items : List A) : List (List A) :=
  match items with
  | [] => []
  | item :: rest => (item :: rest).take size :: chunks size positive ((item :: rest).drop size)
  termination_by items.length
  decreasing_by
    simp only [List.length_drop, List.length_cons]
    omega

variable (writer : SteleWriter V O D) (stores : Stores V O) (previous : Predecessor D)
  (digestRecords : Option (List ImmutableDigests))

def blockJob (plan : Plan) (window : EpochWindow) :
    Except SnapshotError (List (LayerDescriptor D)) := do
  let descriptor ← writeBlocks writer stores previous plan.magic window
  previous.landed descriptor
  .ok [descriptor]

def logJob (plan : Plan) (ns : LogNs) (window : EpochWindow) :
    Except SnapshotError (List (LayerDescriptor D)) := do
  let written ← writeLogs writer stores previous plan.magic ns window
  match written with
  | some descriptor => do
      previous.landed descriptor
      .ok [descriptor]
  | none => .ok []

def digestJob (plan : Plan) (records : List ImmutableDigests) :
    Except SnapshotError (List (LayerDescriptor D)) := do
  let descriptor ← writeDigests writer plan records
  .ok [descriptor]

/-- The jobs in the order the document lists their layers. -/
def exportJobs (plan : Plan) : List (Job (LayerDescriptor D) SnapshotError) :=
  (plan.epochs.map fun window => ⟨.light, blockJob writer stores previous plan window⟩) ++
  ((chunks plan.band plan.bandPositive plan.epochs).map fun band =>
    ⟨.band, writeIndexes writer stores previous plan.magic band⟩) ++
  (LogNs.all.flatMap fun ns =>
    plan.epochs.map fun window => ⟨.light, logJob writer stores previous plan ns window⟩) ++
  (StateNs.all.map fun ns => ⟨.light, writeStateKind writer stores previous plan ns⟩) ++
  (digestRecords.toList.map fun records => ⟨.light, digestJob writer plan records⟩)

/-- How many log layers there will be. -/
def logLayers (plan : Plan) : Except SnapshotError ℕ :=
  plan.epochs.foldlM (fun total window =>
    LogNs.all.foldlM (fun total ns => do
      let carried ← previous.carriedForward (.log ns) (.epoch window)
      let present ←
        if carried then .ok true
        else (stores.iterLogs (logNamespace ns) (logKeyRange window.slots)).occupied
      .ok (total + if present then 1 else 0)) total) 0

def carriedDumps (plan : Plan) : Except SnapshotError ℕ :=
  plan.adoptableDumps.foldlM (fun total epoch =>
    StateNs.all.foldlM (fun total ns =>
      (List.range ns.shards).foldlM (fun total shard => do
        let carried ← previous.carriedForward (.state ns) (.dump epoch shard)
        .ok (total + if carried then 1 else 0)) total) total) 0

/-- What can fail before the first layer is begun. The number of layers is for the
observer. -/
def preflight (plan : Plan) : Except SnapshotError Unit := do
  plan.epochs.forM (refuseUncoveredLogs stores)
  let _ ← logLayers stores previous plan
  let _ ← carriedDumps previous plan
  .ok ()

def position (plan : Plan) : Except SnapshotError Position :=
  match plan.cursor.hash with
  | none => .error (.unanchoredPoint plan.cursor)
  | some _ => .ok ⟨plan.magic, plan.cursor, plan.sequence⟩

def inscribe (plan : Plan) (layers : List (LayerDescriptor D)) :
    Except SnapshotError (Inscription D) := do
  let place ← position plan
  .ok ⟨plan.sequence, place, plan.retained.epochs, previous.history, layers⟩

/-- How an export ends: what it returns, and the document it has sealed. -/
structure Published (D : Type) where
  result : Except SnapshotError (Inscription D)
  sealed : Option (Inscription D)

/-- Nothing is sealed over a failure. -/
def conclude (plan : Plan) (layers : Except SnapshotError (List (LayerDescriptor D))) :
    Published D :=
  match layers >>= inscribe previous plan with
  | .error failure => ⟨.error failure, none⟩
  | .ok inscription =>
      match writer.sealStele inscription with
      | .error failure => ⟨.error failure, none⟩
      | .ok () => ⟨.ok inscription, some inscription⟩

/-- The ways an export can go, over all the turns its workers can take. -/
inductive Exports (plan : Plan) : Published D → Prop
  | refused {failure : SnapshotError} : preflight stores previous plan = .error failure →
      Exports plan ⟨.error failure, none⟩
  | produced {layers : Except SnapshotError (List (LayerDescriptor D))} :
      preflight stores previous plan = .ok () →
      Produces (exportJobs writer stores previous digestRecords plan) plan.producers layers →
      Exports plan (conclude writer previous plan layers)

end Jobs

end Dolos.Snapshot
