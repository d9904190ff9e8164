import Mathlib.Data.List.ReduceOption
import Dolos.Snapshot.Publish

/-!
# An incremental publish lists what a full one would

A layer is adopted by its kind and scope before any store is read, so what was published
of a closed window has to be what its window still holds. Of the events of a chain only a
few can change that, and over the runs without them every publish lists the layers of an
export that has no predecessor.
-/

namespace Dolos.Snapshot

open Outcome

variable {V O D : Type}

section Kinds

variable {writer : SteleWriter V O D} {stores : Stores V O} {previous : Predecessor D}
  {magic : ℕ} {window : EpochWindow} {layer : LayerDescriptor D}

theorem each_keeps {A S : Type} {feed : Feed A} {round : S → A → Except SnapshotError S}
    {Keeps : S → Prop}
    (step : ∀ state item next, Keeps state → round state item = .ok next → Keeps next)
    {first last : S} (start : Keeps first) (folded : feed.each round first = .ok last) :
    Keeps last := by
  rcases bind_eq_ok.mp folded with ⟨items, -, folded⟩
  refine foldlM_keeps ?_ start folded
  intro state item next keeps stepEq
  rcases bind_eq_ok.mp stepEq with ⟨value, -, stepEq⟩
  exact step state value next keeps stepEq

/-- A layer of an epoch, adopted or made. -/
def layerOf (writer : SteleWriter V O D) (stores : Stores V O) (previous : Predecessor D)
    (magic : ℕ) (window : EpochWindow) :
    LayerKind → Except SnapshotError (Option (LayerDescriptor D))
  | .blocks => some <$> writeBlocks writer stores previous magic window
  | .indexes => some <$> indexLayer writer stores previous magic window
  | .log ns => writeLogs writer stores previous magic ns window
  | _ => .ok none

theorem layerOf_first (kind : LayerKind) :
    layerOf writer stores .first magic window kind =
      freshLayer writer stores magic window kind := by
  cases kind <;> rfl

theorem layerOf_adopted (landed : ∀ layer, previous.landed layer = .ok ()) {kind : LayerKind}
    (isEpoch : kind.isEpoch) (adopted : previous.adopt kind (.epoch window) = .ok (some layer)) :
    layerOf writer stores previous magic window kind = .ok (some layer) := by
  cases kind with
  | blocks =>
      simp only [layerOf, writeBlocks, inherit, EpochWindow.spec, LayerScope.descriptor, adopted,
        ok_bind]
      rfl
  | indexes =>
      simp only [layerOf, indexLayer, inherit, EpochWindow.spec, LayerScope.descriptor, adopted,
        ok_bind, landed]
      rfl
  | log ns =>
      simp only [layerOf, writeLogs, inherit, EpochWindow.spec, LayerScope.descriptor, adopted,
        ok_bind]
  | state ns => cases isEpoch
  | digests => cases isEpoch

theorem layerOf_made (landed : ∀ layer, previous.landed layer = .ok ()) {kind : LayerKind}
    (isEpoch : kind.isEpoch) (adopted : previous.adopt kind (.epoch window) = .ok none) :
    layerOf writer stores previous magic window kind =
      freshLayer writer stores magic window kind := by
  rw [← layerOf_first]
  cases kind with
  | blocks =>
      simp only [layerOf, writeBlocks, inherit, EpochWindow.spec, LayerScope.descriptor, adopted,
        ok_bind, Predecessor.first]
  | indexes =>
      simp only [layerOf, indexLayer, inherit, EpochWindow.spec, LayerScope.descriptor, adopted,
        ok_bind, landed, Predecessor.first]
  | log ns =>
      simp only [layerOf, writeLogs, inherit, EpochWindow.spec, LayerScope.descriptor, adopted,
        ok_bind, Predecessor.first]
  | state ns => cases isEpoch
  | digests => cases isEpoch

theorem blockJob_eq (landed : ∀ layer, previous.landed layer = .ok ()) (plan : Plan) :
    blockJob writer stores previous plan window =
      Option.toList <$> layerOf writer stores previous plan.magic window .blocks := by
  simp only [blockJob, layerOf, landed]
  cases writeBlocks writer stores previous plan.magic window with
  | error failure => rfl
  | ok written => rfl

theorem logJob_eq (landed : ∀ layer, previous.landed layer = .ok ()) (plan : Plan) (ns : LogNs) :
    logJob writer stores previous plan ns window =
      Option.toList <$> layerOf writer stores previous plan.magic window (.log ns) := by
  simp only [logJob, layerOf, landed]
  cases writeLogs writer stores previous plan.magic ns window with
  | error failure => rfl
  | ok written =>
      cases written with
      | none => rfl
      | some made => rfl

section Lawful

/-- What a lawful writer says of a sink. -/
structure Opens (writer : SteleWriter V O D) (specOf : writer.Sink → LayerSpec) : Prop where
  opened : ∀ spec sink, writer.layerSink spec = .ok sink → specOf sink = spec
  keeps : ∀ sink record next, writer.writeRecord sink record = .ok next →
    specOf next = specOf sink
  finished : ∀ sink written, writer.finish sink = .ok written →
    (writer.descriptor written).kind = (specOf sink).kind ∧
      (writer.descriptor written).scope = (specOf sink).scope.descriptor

variable {specOf : writer.Sink → LayerSpec} (opens : Opens writer specOf)

include opens

theorem Opens.put {C R : Type} {check : C → R → Except SnapshotError C} {record : R → Record V O}
    {open_ next : Checked writer C} {item : R}
    (done : Snapshot.put writer check record open_ item = .ok next) :
    specOf next.1 = specOf open_.1 := by
  rcases bind_eq_ok.mp done with ⟨order, -, done⟩
  rcases bind_eq_ok.mp done with ⟨sink, sinkEq, done⟩
  rcases Except.ok.inj done with rfl
  exact opens.keeps _ _ _ sinkEq

theorem Opens.writeBlocks
    (made : Snapshot.writeBlocks writer stores .first magic window = .ok layer) :
    layer.kind = .blocks ∧ layer.scope = .epoch window := by
  rcases bind_eq_ok.mp made with ⟨inherited, inheritedEq, made⟩
  rcases Except.ok.inj inheritedEq with rfl
  rcases bind_eq_ok.mp made with ⟨sink, sinkEq, made⟩
  rcases bind_eq_ok.mp made with ⟨blocks, -, made⟩
  rcases bind_eq_ok.mp made with ⟨filled, filledEq, made⟩
  rcases bind_eq_ok.mp made with ⟨written, writtenEq, made⟩
  rcases Except.ok.inj made with rfl
  have isSpec : specOf filled.1 = window.spec magic .blocks := by
    refine @foldlM_keeps _ _ _ _ (fun open_ => specOf open_.1 = window.spec magic .blocks) ?_
      _ _ _ (opens.opened _ _ sinkEq) filledEq
    intro open_ block next isSpec done
    rw [putBlock] at done
    split at done
    · cases done
    · rw [opens.put done, isSpec]
  have final := opens.finished _ _ writtenEq
  rw [isSpec] at final
  exact final

theorem Opens.indexLayer
    (made : Snapshot.indexLayer writer stores .first magic window = .ok layer) :
    layer.kind = .indexes ∧ layer.scope = .epoch window := by
  rcases bind_eq_ok.mp made with ⟨inherited, inheritedEq, made⟩
  rcases Except.ok.inj inheritedEq with rfl
  rcases bind_eq_ok.mp made with ⟨sink, sinkEq, made⟩
  rcases bind_eq_ok.mp made with ⟨filled, filledEq, made⟩
  rcases bind_eq_ok.mp made with ⟨written, writtenEq, made⟩
  rcases bind_eq_ok.mp made with ⟨_, -, made⟩
  rcases Except.ok.inj made with rfl
  rcases bind_eq_ok.mp filledEq with ⟨tagged, taggedEq, filledEq⟩
  let IsSpec : Checked writer IndexOrder → Prop :=
    fun filling => specOf filling.1 = window.spec magic .indexes
  have step : ∀ {A : Type} (toIndex : A → IndexRecord) (filling : Checked writer IndexOrder)
      (item : A) (next : Checked writer IndexOrder), IsSpec filling →
      Snapshot.put writer checkIndex .index filling (toIndex item) = .ok next → IsSpec next := by
    intro A toIndex filling item next isSpec done
    exact (opens.put done).trans isSpec
  have taggedSpec : IsSpec tagged := each_keeps (step .tag) (opens.opened _ _ sinkEq) taggedEq
  have isSpec : IsSpec filled :=
    each_keeps (step fun record : ExactKey × ℕ => .exact record.1 record.2) taggedSpec filledEq
  have final := opens.finished _ _ writtenEq
  rw [isSpec] at final
  exact final

theorem Opens.writeLogs {ns : LogNs}
    (made : Snapshot.writeLogs writer stores .first magic ns window = .ok (some layer)) :
    layer.kind = .log ns ∧ layer.scope = .epoch window := by
  rcases bind_eq_ok.mp made with ⟨inherited, inheritedEq, made⟩
  rcases Except.ok.inj inheritedEq with rfl
  rcases bind_eq_ok.mp made with ⟨⟨filled, order⟩, filledEq, made⟩
  let IsSpec : Option writer.Sink × Option LogKey → Prop :=
    fun state => ∀ sink ∈ state.1, specOf sink = window.spec magic (.log ns)
  have isSpec : IsSpec (filled, order) := by
    refine each_keeps ?_ (fun sink member => by cases member) filledEq
    rintro ⟨held, last⟩ item next isSpec done
    rcases bind_eq_ok.mp done with ⟨order, -, done⟩
    have added : ∃ sink written, writer.writeRecord sink (.log item.1 item.2) = .ok written ∧
        next = (some written, order) ∧ specOf sink = window.spec magic (.log ns) := by
      cases held with
      | none =>
          rcases bind_eq_ok.mp done with ⟨sink, sinkEq, done⟩
          rcases bind_eq_ok.mp done with ⟨written, writtenEq, done⟩
          exact ⟨sink, written, writtenEq, (Except.ok.inj done).symm, opens.opened _ _ sinkEq⟩
      | some sink =>
          rcases bind_eq_ok.mp done with ⟨_, ⟨⟩, done⟩
          rcases bind_eq_ok.mp done with ⟨written, writtenEq, done⟩
          exact ⟨sink, written, writtenEq, (Except.ok.inj done).symm, isSpec sink rfl⟩
    rcases added with ⟨sink, written, writtenEq, rfl, sinkSpec⟩
    rintro _ ⟨⟩
    rw [opens.keeps _ _ _ writtenEq, sinkSpec]
  cases filled with
  | none => cases made
  | some sink =>
      rcases bind_eq_ok.mp made with ⟨written, writtenEq, made⟩
      rcases Except.ok.inj made with ⟨⟩
      have final := opens.finished _ _ writtenEq
      rw [isSpec sink rfl] at final
      exact final

end Lawful

/-- A layer that is made has the kind it was asked for and the scope of its window. -/
theorem freshLayer_spec (lawful : writer.Lawful) {kind : LayerKind}
    (made : freshLayer writer stores magic window kind = .ok (some layer)) :
    layer.kind = kind ∧ layer.scope = .epoch window := by
  rcases lawful with ⟨specOf, opened, keeps, finished, -⟩
  have opens : Opens writer specOf := ⟨opened, keeps, finished⟩
  cases kind with
  | blocks =>
      rcases map_eq_ok.mp made with ⟨_, written, someEq⟩
      rcases Option.some.inj someEq with rfl
      exact opens.writeBlocks written
  | indexes =>
      rcases map_eq_ok.mp made with ⟨_, written, someEq⟩
      rcases Option.some.inj someEq with rfl
      exact opens.indexLayer written
  | log ns => exact opens.writeLogs made
  | state ns => cases made
  | digests => cases made

end Kinds

section Listing

variable (writer : SteleWriter V O D) (stores : Stores V O) (previous : Predecessor D)

/-- The layers of the epochs, as a document lists them. -/
def epochLayers (plan : Plan) : Except SnapshotError (List (LayerDescriptor D)) := do
  let blocks ← plan.epochs.mapM (blockJob writer stores previous plan)
  let indexes ← plan.epochs.mapM (indexLayer writer stores previous plan.magic)
  let logs ← (LogNs.all.flatMap fun ns => plan.epochs.map fun window => (ns, window)).mapM
    fun entry => logJob writer stores previous plan entry.1 entry.2
  .ok (blocks.flatten ++ indexes ++ logs.flatten)

variable {writer stores previous} {last : Option (Publication D)} {plan : Plan}

/-- Every listed layer of an epoch is one of a window of the plan. -/
theorem mem_epochLayers (landed : ∀ layer, previous.landed layer = .ok ())
    {layers : List (LayerDescriptor D)}
    (listed : epochLayers writer stores previous plan = .ok layers) {layer : LayerDescriptor D}
    (member : layer ∈ layers) :
    ∃ window ∈ plan.epochs, ∃ kind : LayerKind, kind.isEpoch ∧
      layerOf writer stores previous plan.magic window kind = .ok (some layer) := by
  have ofJob : ∀ {window : EpochWindow} {kind : LayerKind} {made : List (LayerDescriptor D)},
      Option.toList <$> layerOf writer stores previous plan.magic window kind = .ok made →
      layer ∈ made → layerOf writer stores previous plan.magic window kind = .ok (some layer) := by
    intro window kind made madeEq isIn
    rcases map_eq_ok.mp madeEq with ⟨found, foundEq, rfl⟩
    rw [foundEq, Option.mem_toList.mp isIn]
  rcases bind_eq_ok.mp listed with ⟨blocks, blocksEq, listed⟩
  rcases bind_eq_ok.mp listed with ⟨indexes, indexesEq, listed⟩
  rcases bind_eq_ok.mp listed with ⟨logs, logsEq, listed⟩
  rcases Except.ok.inj listed with rfl
  rcases List.mem_append.mp member with inFirst | inLogs
  · rcases List.mem_append.mp inFirst with inBlocks | inIndexes
    · rcases List.mem_flatten.mp inBlocks with ⟨made, isMade, isIn⟩
      rcases mem_of_mapM_ok blocksEq isMade with ⟨window, isWindow, madeEq⟩
      rw [blockJob_eq landed] at madeEq
      exact ⟨window, isWindow, .blocks, rfl, ofJob madeEq isIn⟩
    · rcases mem_of_mapM_ok indexesEq inIndexes with ⟨window, isWindow, madeEq⟩
      refine ⟨window, isWindow, .indexes, rfl, ?_⟩
      rw [layerOf, madeEq]
      rfl
  · rcases List.mem_flatten.mp inLogs with ⟨made, isMade, isIn⟩
    rcases mem_of_mapM_ok logsEq isMade with ⟨⟨ns, window⟩, isEntry, madeEq⟩
    rw [logJob_eq landed] at madeEq
    rcases List.mem_flatMap.mp isEntry with ⟨_, -, inWindows⟩
    rcases List.mem_map.mp inWindows with ⟨_, isWindow, entryEq⟩
    rcases Prod.mk.inj entryEq with ⟨rfl, rfl⟩
    exact ⟨_, isWindow, .log _, rfl, ofJob madeEq isIn⟩

/-- What the layers of the epochs are, from what each window comes to. -/
theorem epochLayers_congr {other : Predecessor D}
    (landed : ∀ layer, previous.landed layer = .ok ())
    (otherLanded : ∀ layer, other.landed layer = .ok ())
    (same : ∀ window ∈ plan.epochs, ∀ kind : LayerKind, kind.isEpoch →
      layerOf writer stores previous plan.magic window kind =
        layerOf writer stores other plan.magic window kind) :
    epochLayers writer stores previous plan = epochLayers writer stores other plan := by
  have mapM_congr : ∀ {A B : Type} {f g : A → Except SnapshotError B} {items : List A},
      (∀ item ∈ items, f item = g item) → items.mapM f = items.mapM g := by
    intro A B f g items each
    induction items with
    | nil => rfl
    | cons item rest ih =>
        rw [List.mapM_cons, List.mapM_cons, each item List.mem_cons_self,
          ih fun later isLater => each later (List.mem_cons_of_mem item isLater)]
  have blocks : plan.epochs.mapM (blockJob writer stores previous plan) =
      plan.epochs.mapM (blockJob writer stores other plan) := by
    apply mapM_congr
    intro window isWindow
    rw [blockJob_eq landed, blockJob_eq otherLanded, same window isWindow .blocks rfl]
  have indexes : plan.epochs.mapM (indexLayer writer stores previous plan.magic) =
      plan.epochs.mapM (indexLayer writer stores other plan.magic) := by
    apply mapM_congr
    intro window isWindow
    have layers := same window isWindow .indexes rfl
    rw [layerOf, layerOf] at layers
    cases first : indexLayer writer stores previous plan.magic window with
    | error failure =>
        cases second : indexLayer writer stores other plan.magic window with
        | error otherFailure =>
            rw [first, second] at layers
            exact congrArg Except.error (Except.error.inj layers)
        | ok layer =>
            rw [first, second] at layers
            cases layers
    | ok layer =>
        rw [first] at layers
        rcases map_eq_ok.mp layers.symm with ⟨otherLayer, otherEq, sameLayer⟩
        rw [otherEq, Option.some.inj sameLayer]
  have logs : (LogNs.all.flatMap fun ns => plan.epochs.map fun window => (ns, window)).mapM
        (fun entry => logJob writer stores previous plan entry.1 entry.2) =
      (LogNs.all.flatMap fun ns => plan.epochs.map fun window => (ns, window)).mapM
        (fun entry => logJob writer stores other plan entry.1 entry.2) := by
    apply mapM_congr
    rintro ⟨ns, window⟩ isEntry
    rcases List.mem_flatMap.mp isEntry with ⟨_, -, inWindows⟩
    rcases List.mem_map.mp inWindows with ⟨_, isWindow, entryEq⟩
    rcases Prod.mk.inj entryEq with ⟨rfl, rfl⟩
    rw [logJob_eq landed, logJob_eq otherLanded, same _ isWindow (.log _) rfl]
  rw [epochLayers, epochLayers, blocks, indexes, logs]

/-- The sinks of a namespace are still of its kind when their records are written. -/
theorem Opens.route {specOf : writer.Sink → LayerSpec} (opens : Opens writer specOf) {K R : Type}
    {check : ℕ → Option K → R → Except SnapshotError (Option K)} {shard : R → ℕ}
    {record : R → Record V O} {kind : LayerKind} {sinks next : List (Checked writer (Option K))}
    {item : R} (kinds : ∀ sink ∈ sinks, (specOf sink.1).kind = kind)
    (done : Snapshot.route writer check shard record sinks item = .ok next) :
    ∀ sink ∈ next, (specOf sink.1).kind = kind := by
  rw [Snapshot.route] at done
  split at done
  · cases done
  · rename_i open_ openEq
    rcases bind_eq_ok.mp done with ⟨filled, filledEq, done⟩
    rcases Except.ok.inj done with rfl
    intro sink member
    rcases List.mem_or_eq_of_mem_set member with held | rfl
    · exact kinds sink held
    · rw [opens.put filledEq]
      exact kinds open_ (List.mem_of_getElem? openEq)

theorem Adopting.kind (adopting : Adopting previous last) {kind : LayerKind}
    {scope : DescriptorScope} {layer : LayerDescriptor D}
    (adopted : previous.adopt kind scope = .ok (some layer)) : layer.kind = kind := by
  rcases adopting.adopts kind scope with ⟨found, foundEq, known⟩
  rw [foundEq] at adopted
  rcases known layer (Except.ok.inj adopted) with ⟨-, -, -, isKind, -⟩
  exact isKind

theorem kind_adoptDump (adopting : Adopting previous last) {ns : StateNs} {epoch : ℕ}
    {layers : List (LayerDescriptor D)} (made : adoptDump previous ns epoch = .ok layers) :
    ∀ layer ∈ layers, layer.kind = .state ns := by
  intro layer member
  rcases bind_eq_ok.mp made with ⟨adopted, adoptedEq, made⟩
  rcases mem_of_mapM_ok made member with ⟨held, isHeld, heldEq⟩
  rcases bind_eq_ok.mp heldEq with ⟨_, -, heldEq⟩
  rcases Except.ok.inj heldEq with rfl
  have isAdopted : some held ∈ adopted := List.reduceOption_mem_iff.mp isHeld
  rcases mem_of_mapM_ok adoptedEq isAdopted with ⟨shard, -, foundEq⟩
  exact adopting.kind foundEq

theorem kind_writeStateKind (lawful : writer.Lawful) (adopting : Adopting previous last)
    {ns : StateNs} {layers : List (LayerDescriptor D)}
    (made : writeStateKind writer stores previous plan ns = .ok layers) :
    ∀ layer ∈ layers, layer.kind = .state ns := by
  rcases lawful with ⟨specOf, opened, keeps, finished, again⟩
  have opens : Opens writer specOf := ⟨opened, keeps, finished⟩
  rcases bind_eq_ok.mp made with ⟨adopted, adoptedEq, made⟩
  rcases bind_eq_ok.mp made with ⟨sinks, sinksEq, made⟩
  have sinkKinds : ∀ sink ∈ sinks, (specOf sink).kind = .state ns := by
    intro sink member
    rcases mem_of_mapM_ok sinksEq member with ⟨shard, -, sinkEq⟩
    rw [opened _ _ sinkEq]
  have openKinds : ∀ {K : Type}, ∀ sink ∈ sinks.map fun sink => (sink, (none : Option K)),
      (specOf sink.1).kind = .state ns := by
    intro K sink member
    rcases List.mem_map.mp member with ⟨_, isSink, rfl⟩
    exact sinkKinds _ isSink
  have ending : ∀ filled : List writer.Sink, (∀ sink ∈ filled, (specOf sink).kind = .state ns) →
      (filled.mapM writer.finish >>= fun tip =>
        (if plan.cutsADump then tip.zipIdx else []).mapM (fun entry =>
            writer.carryAgain entry.1 (.dump plan.sequence entry.2) >>= fun again =>
              previous.landed (writer.descriptor again) >>= fun _ =>
                .ok (writer.descriptor again)) >>= fun cut =>
          .ok (adopted.flatten ++ cut ++ tip.map writer.descriptor)) = .ok layers →
      ∀ layer ∈ layers, layer.kind = .state ns := by
    intro filled kinds made layer member
    rcases bind_eq_ok.mp made with ⟨tip, tipEq, made⟩
    rcases bind_eq_ok.mp made with ⟨cut, cutEq, made⟩
    rcases Except.ok.inj made with rfl
    have tipKinds : ∀ written ∈ tip, (writer.descriptor written).kind = .state ns := by
      intro written isWritten
      rcases mem_of_mapM_ok tipEq isWritten with ⟨sink, isSink, sinkEq⟩
      rw [(finished _ _ sinkEq).1]
      exact kinds sink isSink
    rcases List.mem_append.mp member with inFirst | inTip
    · rcases List.mem_append.mp inFirst with inAdopted | inCut
      · rcases List.mem_flatten.mp inAdopted with ⟨dump, isDump, isIn⟩
        rcases mem_of_mapM_ok adoptedEq isDump with ⟨epoch, -, dumpEq⟩
        exact kind_adoptDump adopting dumpEq layer isIn
      · rcases mem_of_mapM_ok cutEq inCut with ⟨⟨written, shard⟩, isEntry, layerEq⟩
        rcases bind_eq_ok.mp layerEq with ⟨carried, carriedEq, layerEq⟩
        rcases bind_eq_ok.mp layerEq with ⟨_, -, layerEq⟩
        rcases Except.ok.inj layerEq with rfl
        rw [again _ _ _ carriedEq]
        split at isEntry
        · exact tipKinds written (List.fst_mem_of_mem_zipIdx isEntry)
        · cases isEntry
    · rcases List.mem_map.mp inTip with ⟨written, isWritten, rfl⟩
      exact tipKinds written isWritten
  have strip : ∀ {K : Type} (filled : List (Checked writer (Option K))),
      (∀ sink ∈ filled, (specOf sink.1).kind = .state ns) →
        ∀ sink ∈ filled.map Prod.fst, (specOf sink).kind = .state ns := by
    intro K filled kinds sink member
    rcases List.mem_map.mp member with ⟨open_, isOpen, rfl⟩
    exact kinds open_ isOpen
  by_cases isUtxos : ns = .utxos
  · simp only [if_pos isUtxos] at made
    rcases bind_eq_ok.mp made with ⟨filled, filledEq, made⟩
    refine ending _ (strip filled ?_) made
    exact each_keeps (fun _ _ _ kinds done => opens.route kinds done) openKinds filledEq
  · simp only [if_neg isUtxos] at made
    rcases bind_eq_ok.mp made with ⟨filled, filledEq, made⟩
    refine ending _ (strip filled ?_) made
    exact each_keeps (fun _ _ _ kinds done => opens.route kinds done) openKinds filledEq

theorem kind_digestJob (lawful : writer.Lawful) {records : List ImmutableDigests}
    {layers : List (LayerDescriptor D)} (made : digestJob writer plan records = .ok layers) :
    ∀ layer ∈ layers, layer.kind = .digests := by
  rcases lawful with ⟨specOf, opened, keeps, finished, -⟩
  rcases bind_eq_ok.mp made with ⟨descriptor, descriptorEq, made⟩
  rcases Except.ok.inj made with rfl
  intro layer member
  rw [List.mem_singleton.mp member]
  rcases bind_eq_ok.mp descriptorEq with ⟨_, -, descriptorEq⟩
  split at descriptorEq
  · cases descriptorEq
  · rcases bind_eq_ok.mp descriptorEq with ⟨sink, sinkEq, descriptorEq⟩
    rcases bind_eq_ok.mp descriptorEq with ⟨filled, filledEq, descriptorEq⟩
    rcases bind_eq_ok.mp descriptorEq with ⟨written, writtenEq, descriptorEq⟩
    rcases Except.ok.inj descriptorEq with rfl
    have isSpec : specOf filled = specOf sink :=
      foldlM_keeps (fun state item next same done => (keeps _ _ _ done).trans same) rfl filledEq
    rw [(finished _ _ writtenEq).1, isSpec, opened _ _ sinkEq]

/-- The layers of the epochs are those of a document that are of an epoch's kind. -/
theorem epochLayers_of_document (lawful : writer.Lawful) (adopting : Adopting previous last)
    (kinds : ∀ window ∈ plan.epochs, ∀ kind : LayerKind, kind.isEpoch →
      ∀ layer, layerOf writer stores previous plan.magic window kind = .ok (some layer) →
        layer.kind = kind)
    {digestRecords : Option (List ImmutableDigests)} {layers : List (LayerDescriptor D)}
    (made : documentLayers writer stores previous digestRecords plan = .ok layers) :
    epochLayers writer stores previous plan = .ok (layers.filter (·.kind.isEpoch)) := by
  rcases bind_eq_ok.mp made with ⟨blocks, blocksEq, made⟩
  rcases bind_eq_ok.mp made with ⟨indexes, indexesEq, made⟩
  rcases bind_eq_ok.mp made with ⟨logs, logsEq, made⟩
  rcases bind_eq_ok.mp made with ⟨state, stateEq, made⟩
  rcases bind_eq_ok.mp made with ⟨digests, digestsEq, made⟩
  rcases Except.ok.inj made with rfl
  have listed : epochLayers writer stores previous plan =
      .ok (blocks.flatten ++ indexes ++ logs.flatten) := by
    rw [epochLayers, blocksEq, indexesEq, logsEq]
    rfl
  rw [listed, List.filter_append, List.filter_append]
  have ofEpochs : (blocks.flatten ++ indexes ++ logs.flatten).filter (·.kind.isEpoch) =
      blocks.flatten ++ indexes ++ logs.flatten := by
    apply List.filter_eq_self.mpr
    intro layer member
    rcases mem_epochLayers adopting.landed listed member with
      ⟨window, isWindow, kind, isEpoch, layerEq⟩
    rw [kinds window isWindow kind isEpoch layer layerEq]
    exact isEpoch
  have ofState : state.flatten.filter (·.kind.isEpoch) = [] := by
    apply List.filter_eq_nil_iff.mpr
    intro layer member
    rcases List.mem_flatten.mp member with ⟨part, isPart, isIn⟩
    rcases mem_of_mapM_ok stateEq isPart with ⟨ns, -, partEq⟩
    rw [kind_writeStateKind lawful adopting partEq layer isIn]
    exact Bool.false_ne_true
  have ofDigests : digests.flatten.filter (·.kind.isEpoch) = [] := by
    apply List.filter_eq_nil_iff.mpr
    intro layer member
    rcases List.mem_flatten.mp member with ⟨part, isPart, isIn⟩
    rcases mem_of_mapM_ok digestsEq isPart with ⟨records, -, partEq⟩
    rw [kind_digestJob lawful partEq layer isIn]
    exact Bool.false_ne_true
  rw [ofEpochs, ofState, ofDigests, List.append_nil, List.append_nil]

end Listing

end Dolos.Snapshot
