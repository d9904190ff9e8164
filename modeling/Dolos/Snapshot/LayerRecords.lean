import Dolos.Snapshot.PublishLaw

/-!
# What the layers of an export hold

The records behind each layer of an export without a predecessor: the blocks, the log rows
and the index records of a window, and the entities and outputs of a shard. The transport
is held to one thing, that a layer is read back as it was written.
-/

namespace Dolos.Snapshot

open Outcome

variable {V O D : Type}

/-- A layer is read back under the header it was opened with, and with its records in the
order they were written. -/
structure ReadsBack (writer : SteleWriter V O D) (read : D → LayerSpec × List (Record V O))
    (held : writer.Sink → LayerSpec × List (Record V O)) : Prop where
  opened : ∀ spec sink, writer.layerSink spec = .ok sink → held sink = (spec, [])
  wrote : ∀ sink record next, writer.writeRecord sink record = .ok next →
    held next = ((held sink).1, (held sink).2 ++ [record])
  finished : ∀ sink written, writer.finish sink = .ok written →
    (writer.descriptor written).kind = (held sink).1.kind ∧
      (writer.descriptor written).scope = (held sink).1.scope.descriptor ∧
      read (writer.descriptor written).diffId = held sink
  carried : ∀ written scope again, writer.carryAgain written scope = .ok again →
    (writer.descriptor again).kind = (writer.descriptor written).kind ∧
      (writer.descriptor again).scope = scope

/-- A descriptor of a layer that was opened for a spec, with these records in it. -/
structure Carries (read : D → LayerSpec × List (Record V O)) (layer : LayerDescriptor D)
    (spec : LayerSpec) (records : List (Record V O)) : Prop where
  kind : layer.kind = spec.kind
  scope : layer.scope = spec.scope.descriptor
  records : read layer.diffId = (spec, records)

section Lists

variable {A B E : Type} {f : A → Except E B} {items : List A} {results : List B}

theorem length_of_mapM_ok (done : items.mapM f = .ok results) : results.length = items.length :=
  (mapM_eq_ok.mp done).length_eq.symm

theorem getElem?_of_mapM_ok (done : items.mapM f = .ok results) {place : ℕ} {item : A}
    (isItem : items[place]? = some item) :
    ∃ result, results[place]? = some result ∧ f item = .ok result := by
  have each := mapM_eq_ok.mp done
  induction each generalizing place with
  | nil => simp at isItem
  | cons headDone restDone ih =>
      cases place with
      | zero =>
          rw [List.getElem?_cons_zero] at isItem
          rcases Option.some.inj isItem with rfl
          exact ⟨_, List.getElem?_cons_zero, headDone⟩
      | succ place =>
          rw [List.getElem?_cons_succ] at isItem ⊢
          exact ih (mapM_eq_ok.mpr restDone) isItem

theorem mem_mapM_of_mem (done : items.mapM f = .ok results) {item : A} (member : item ∈ items) :
    ∃ result ∈ results, f item = .ok result := by
  rcases List.getElem?_of_mem member with ⟨place, isItem⟩
  rcases getElem?_of_mapM_ok done isItem with ⟨result, isResult, made⟩
  exact ⟨result, List.mem_of_getElem? isResult, made⟩

end Lists

theorem each_ok {A S : Type} (items : List A) (round : S → A → Except SnapshotError S)
    (first : S) : Feed.each (.ok (items.map .ok)) round first = items.foldlM round first := by
  rw [Feed.each, ok_bind, List.foldlM_map]
  rfl

namespace Node

variable (decode : Bytes → Option BlockHash) (node : Node V O)

/-- The records of an epoch's layer. -/
def layerRecords (window : EpochWindow) : LayerKind → List (Record V O)
  | .blocks =>
      (node.blocks.filter (window.Contains ·.1)).map fun block =>
        .block ⟨block.1, (decode block.2).getD 0, block.2⟩
  | .indexes =>
      ((node.indexes.archiveTags.filter fun tag => window.Contains tag.2.2).sort TagLe).map
          (fun tag => .index (.tag tag)) ++
        (node.indexes.exact.filter fun _ slot => window.Contains slot).entries.map
          fun entry => .index (.exact entry.1 entry.2)
  | .log ns =>
      ((node.logs.rows ns).filter fun key _ => window.Contains (ofLex key).1).entries.map
        fun entry => .log entry.1 entry.2
  | _ => []

/-- The records of a shard of a namespace. -/
def shardRecords (ns : StateNs) (shard : ℕ) : List (Record V O) :=
  if ns = .utxos then
    (node.utxos.entries.filter fun entry =>
      shardOf (ofLex entry.1).1 ns.shards = shard).map fun entry => .utxo entry.1 entry.2
  else
    (((node.entities ns).entries.filter fun entry => entry.1 < lastEntityKey).filter fun entry =>
      shardOf entry.1 ns.shards = shard).map fun entry => .entity entry.1 entry.2

end Node

section Writing

variable {writer : SteleWriter V O D} {read : D → LayerSpec × List (Record V O)}
  {held : writer.Sink → LayerSpec × List (Record V O)} {decode : Bytes → Option BlockHash}
  {node : Node V O} {magic : ℕ} {window : EpochWindow}

theorem ReadsBack.put (readsBack : ReadsBack writer read held) {C R : Type}
    {check : C → R → Except SnapshotError C} {record : R → Record V O}
    {open_ next : Checked writer C} {item : R}
    (done : Snapshot.put writer check record open_ item = .ok next) :
    held next.1 = ((held open_.1).1, (held open_.1).2 ++ [record item]) := by
  rcases bind_eq_ok.mp done with ⟨order, -, done⟩
  rcases bind_eq_ok.mp done with ⟨sink, sinkEq, done⟩
  rcases Except.ok.inj done with rfl
  exact readsBack.wrote _ _ _ sinkEq

/-- What is held once a round has written a record for each item. -/
theorem held_foldlM {A S : Type} (heldAt : S → LayerSpec × List (Record V O))
    (record : A → Record V O) {round : S → A → Except SnapshotError S}
    (wrote : ∀ state item next, round state item = .ok next →
      heldAt next = ((heldAt state).1, (heldAt state).2 ++ [record item]))
    {items : List A} {first last : S} (folded : items.foldlM round first = .ok last) :
    heldAt last = ((heldAt first).1, (heldAt first).2 ++ items.map record) := by
  induction items generalizing first with
  | nil =>
      rcases Except.ok.inj folded with rfl
      rw [List.map_nil, List.append_nil]
  | cons item rest ih =>
      rw [List.foldlM_cons] at folded
      rcases bind_eq_ok.mp folded with ⟨next, nextEq, folded⟩
      rw [ih folded, wrote _ _ _ nextEq, List.append_assoc]
      rfl

theorem ReadsBack.carries (readsBack : ReadsBack writer read held) {sink : writer.Sink}
    {written : writer.Written} {spec : LayerSpec} {records : List (Record V O)}
    (done : writer.finish sink = .ok written) (holds : held sink = (spec, records)) :
    Carries read (writer.descriptor written) spec records := by
  rcases readsBack.finished sink written done with ⟨kind, scope, isRead⟩
  rw [holds] at kind scope isRead
  exact ⟨kind, scope, isRead⟩

theorem ReadsBack.lawful (readsBack : ReadsBack writer read held) : writer.Lawful := by
  refine ⟨fun sink => (held sink).1, ?_, ?_, ?_, ?_⟩
  · intro spec sink done
    exact congrArg Prod.fst (readsBack.opened _ _ done)
  · intro sink record next done
    change (held next).1 = (held sink).1
    rw [readsBack.wrote _ _ _ done]
  · intro sink written done
    exact ⟨(readsBack.finished _ _ done).1, (readsBack.finished _ _ done).2.1⟩
  · intro written scope again done
    exact (readsBack.carried _ _ _ done).1

theorem ReadsBack.writeBlocks (readsBack : ReadsBack writer read held)
    {layer : LayerDescriptor D}
    (made : Snapshot.writeBlocks writer (node.stores decode) .first magic window = .ok layer) :
    Carries read layer (window.spec magic .blocks) (node.layerRecords decode window .blocks) := by
  rcases bind_eq_ok.mp made with ⟨inherited, inheritedEq, made⟩
  rcases Except.ok.inj inheritedEq with rfl
  rcases bind_eq_ok.mp made with ⟨sink, sinkEq, made⟩
  rcases bind_eq_ok.mp made with ⟨blocks, blocksEq, made⟩
  rcases Except.ok.inj blocksEq with rfl
  rcases bind_eq_ok.mp made with ⟨filled, filledEq, made⟩
  rcases bind_eq_ok.mp made with ⟨written, writtenEq, made⟩
  rcases Except.ok.inj made with rfl
  have holds := held_foldlM (fun open_ => held open_.1)
    (fun block : ℕ × Bytes => .block ⟨block.1, (decode block.2).getD 0, block.2⟩)
    (fun open_ block next done => by
      rw [putBlock] at done
      split at done
      · cases done
      · rename_i hash hashEq
        have isHash : decode block.2 = some hash := hashEq
        rw [readsBack.put done, isHash, Option.getD_some]) filledEq
  rw [readsBack.opened _ _ sinkEq, List.nil_append] at holds
  exact readsBack.carries writtenEq holds

theorem ReadsBack.indexLayer (readsBack : ReadsBack writer read held)
    {layer : LayerDescriptor D}
    (made : Snapshot.indexLayer writer (node.stores decode) .first magic window = .ok layer) :
    Carries read layer (window.spec magic .indexes)
      (node.layerRecords decode window .indexes) := by
  rcases bind_eq_ok.mp made with ⟨inherited, inheritedEq, made⟩
  rcases Except.ok.inj inheritedEq with rfl
  rcases bind_eq_ok.mp made with ⟨sink, sinkEq, made⟩
  rcases bind_eq_ok.mp made with ⟨filled, filledEq, made⟩
  rcases bind_eq_ok.mp made with ⟨written, writtenEq, made⟩
  rcases bind_eq_ok.mp made with ⟨_, -, made⟩
  rcases Except.ok.inj made with rfl
  rcases bind_eq_ok.mp filledEq with ⟨tagged, taggedEq, filledEq⟩
  rw [Node.iterArchiveTags_stores, each_ok] at taggedEq
  rw [Node.iterExactRecords_stores, each_ok] at filledEq
  have tags := held_foldlM (fun open_ => held open_.1) _
    (fun open_ tag next done => readsBack.put done) taggedEq
  have exact_ := held_foldlM (fun open_ => held open_.1) _
    (fun open_ record next done => readsBack.put done) filledEq
  rw [tags, readsBack.opened _ _ sinkEq, List.nil_append] at exact_
  exact readsBack.carries writtenEq exact_

/-- The first row opens the layer, so a layer that is not there had no row. -/
theorem ReadsBack.writeLogs (readsBack : ReadsBack writer read held) {ns : LogNs}
    {made : Option (LayerDescriptor D)}
    (done : Snapshot.writeLogs writer (node.stores decode) .first magic ns window = .ok made) :
    (∀ layer ∈ made, Carries read layer (window.spec magic (.log ns))
      (node.layerRecords decode window (.log ns))) ∧
      (made = none → node.layerRecords decode window (.log ns) = []) := by
  rcases bind_eq_ok.mp done with ⟨inherited, inheritedEq, done⟩
  rcases Except.ok.inj inheritedEq with rfl
  rcases bind_eq_ok.mp done with ⟨⟨filled, order⟩, filledEq, done⟩
  rw [Node.iterLogs_stores, each_ok] at filledEq
  let heldAt : Option writer.Sink × Option LogKey → LayerSpec × List (Record V O) :=
    fun state => (state.1.map held).getD (window.spec magic (.log ns), [])
  have holds : heldAt (filled, order) =
      (window.spec magic (.log ns), node.layerRecords decode window (.log ns)) := by
    refine held_foldlM heldAt _ ?_ filledEq
    rintro ⟨opened, last⟩ item next round
    rcases bind_eq_ok.mp round with ⟨order, -, round⟩
    cases opened with
    | none =>
        rcases bind_eq_ok.mp round with ⟨sink, sinkEq, round⟩
        rcases bind_eq_ok.mp round with ⟨sinkNext, writtenEq, round⟩
        rcases Except.ok.inj round with rfl
        change held sinkNext = _
        rw [readsBack.wrote _ _ _ writtenEq, readsBack.opened _ _ sinkEq]
        rfl
    | some sink =>
        rcases bind_eq_ok.mp round with ⟨same, sameEq, round⟩
        rcases Except.ok.inj sameEq with rfl
        rcases bind_eq_ok.mp round with ⟨sinkNext, writtenEq, round⟩
        rcases Except.ok.inj round with rfl
        exact readsBack.wrote _ _ _ writtenEq
  cases filled with
  | none =>
      rcases Except.ok.inj done with rfl
      exact ⟨fun layer member => (by cases member), fun _ => (congrArg Prod.snd holds).symm⟩
  | some sink =>
      rcases bind_eq_ok.mp done with ⟨written, writtenEq, done⟩
      rcases Except.ok.inj done with rfl
      refine ⟨?_, fun isNone => by cases isNone⟩
      rintro _ ⟨⟩
      exact readsBack.carries writtenEq holds

/-- Each sink of a namespace gets the items of its shard. -/
theorem ReadsBack.route (readsBack : ReadsBack writer read held) {K R : Type}
    {check : ℕ → Option K → R → Except SnapshotError (Option K)} {shard : R → ℕ}
    {record : R → Record V O} {items : List R} {sinks filled : List (Checked writer (Option K))}
    (folded : items.foldlM (Snapshot.route writer check shard record) sinks = .ok filled)
    {place : ℕ} {open_ : Checked writer (Option K)} (isOpen : sinks[place]? = some open_) :
    ∃ closed, filled[place]? = some closed ∧ held closed.1 = ((held open_.1).1,
      (held open_.1).2 ++ (items.filter fun item => shard item = place).map record) := by
  induction items generalizing sinks open_ with
  | nil =>
      rcases Except.ok.inj folded with rfl
      exact ⟨open_, isOpen, by rw [List.filter_nil, List.map_nil, List.append_nil]⟩
  | cons item rest ih =>
      rw [List.foldlM_cons] at folded
      rcases bind_eq_ok.mp folded with ⟨next, nextEq, folded⟩
      rw [Snapshot.route] at nextEq
      split at nextEq
      · cases nextEq
      · rename_i taken takenEq
        rcases bind_eq_ok.mp nextEq with ⟨written, writtenEq, nextEq⟩
        rcases Except.ok.inj nextEq with rfl
        by_cases here : shard item = place
        · have same : taken = open_ := Option.some.inj (takenEq.symm.trans (here ▸ isOpen))
          have inside : place < sinks.length := (List.getElem?_eq_some_iff.mp isOpen).1
          have isWritten : (sinks.set (shard item) written)[place]? = some written := by
            rw [here, List.getElem?_set_self inside]
          rcases ih folded isWritten with ⟨closed, isClosed, holds⟩
          refine ⟨closed, isClosed, ?_⟩
          have added : (item :: rest).filter (fun item => shard item = place) =
              item :: rest.filter fun item => shard item = place :=
            List.filter_cons_of_pos (decide_eq_true here)
          rw [holds, readsBack.put writtenEq, same, added, List.append_assoc]
          rfl
        · have isKept : (sinks.set (shard item) written)[place]? = some open_ := by
            rw [List.getElem?_set_ne here, isOpen]
          rcases ih folded isKept with ⟨closed, isClosed, holds⟩
          refine ⟨closed, isClosed, ?_⟩
          rw [holds, List.filter_cons_of_neg (by simpa using here)]

theorem length_foldlM_route {K R : Type}
    {check : ℕ → Option K → R → Except SnapshotError (Option K)} {shard : R → ℕ}
    {record : R → Record V O} {items : List R} {sinks filled : List (Checked writer (Option K))}
    (folded : items.foldlM (Snapshot.route writer check shard record) sinks = .ok filled) :
    filled.length = sinks.length := by
  refine @foldlM_keeps _ _ _ _ (fun state => state.length = sinks.length) ?_ _ _ _ rfl folded
  intro state item next same done
  rw [Snapshot.route] at done
  split at done
  · cases done
  · rcases bind_eq_ok.mp done with ⟨written, -, done⟩
    rcases Except.ok.inj done with rfl
    rw [List.length_set, same]

/-- The layers of a namespace in an export without a predecessor: the dump of the epoch it
stands in, if one is due, before the tip. -/
def StateLayersOf (read : D → LayerSpec × List (Record V O)) (node : Node V O) (plan : Plan)
    (ns : StateNs) (layers : List (LayerDescriptor D)) : Prop :=
  ∃ cut tip, layers = cut ++ tip ∧
    List.Forall₂ (fun shard layer => layer.kind = .state ns ∧
        layer.scope = .dump plan.sequence shard)
      (if plan.cutsADump then List.range ns.shards else []) cut ∧
    List.Forall₂ (fun shard layer => Carries read layer
        ⟨.state ns, .tip plan.magic plan.sequence shard⟩ (node.shardRecords ns shard))
      (List.range ns.shards) tip

theorem adoptDump_first {ns : StateNs} {epoch : ℕ} :
    adoptDump (.first : Predecessor D) ns epoch = .ok [] := by
  have adopted : ((List.range ns.shards).mapM fun shard =>
      (.first : Predecessor D).adopt (.state ns) (.dump epoch shard)) =
        .ok ((List.range ns.shards).map fun _ => none) :=
    List.mapM_pure
  have noneLeft : ∀ places : List ℕ,
      (places.map fun _ => (none : Option (LayerDescriptor D))).reduceOption = [] := by
    intro places
    induction places with
    | nil => rfl
    | cons place rest ih => exact ih
  rw [adoptDump, adopted, ok_bind, noneLeft]
  rfl

theorem forall₂_finish (readsBack : ReadsBack writer read held) {ns : StateNs} {plan : Plan}
    {records : ℕ → List (Record V O)} {filled : List writer.Sink} {tip : List writer.Written}
    {shards : ℕ} (length : filled.length = shards)
    (holds : ∀ shard sink, filled[shard]? = some sink → held sink =
      (⟨.state ns, .tip plan.magic plan.sequence shard⟩, records shard))
    (done : filled.mapM writer.finish = .ok tip) :
    List.Forall₂ (fun shard layer => Carries read layer
      ⟨.state ns, .tip plan.magic plan.sequence shard⟩ (records shard))
      (List.range shards) (tip.map writer.descriptor) := by
  rw [List.forall₂_iff_get]
  have tipLength := length_of_mapM_ok done
  refine ⟨by rw [List.length_range, List.length_map, tipLength, length], ?_⟩
  intro place inRange inTip
  rw [List.length_range] at inRange
  have inside : place < filled.length := by omega
  rcases getElem?_of_mapM_ok done (List.getElem?_eq_getElem inside) with
    ⟨written, isWritten, finish⟩
  have same : (tip.map writer.descriptor).get ⟨place, inTip⟩ = writer.descriptor written := by
    rw [List.get_eq_getElem, List.getElem_map]
    rw [List.length_map] at inTip
    rw [List.getElem?_eq_getElem inTip] at isWritten
    rw [Option.some.inj isWritten]
  rw [same, List.get_eq_getElem, List.getElem_range]
  exact readsBack.carries finish (holds place _ (List.getElem?_eq_getElem inside))

theorem ReadsBack.writeStateKind (readsBack : ReadsBack writer read held) {plan : Plan}
    {ns : StateNs} {layers : List (LayerDescriptor D)}
    (made : Snapshot.writeStateKind writer (node.stores decode) .first plan ns = .ok layers) :
    StateLayersOf read node plan ns layers := by
  rcases bind_eq_ok.mp made with ⟨adopted, adoptedEq, made⟩
  have noneAdopted : adopted.flatten = [] := by
    rw [List.flatten_eq_nil_iff]
    intro dump isDump
    rcases mem_of_mapM_ok adoptedEq isDump with ⟨epoch, -, dumpEq⟩
    rw [adoptDump_first] at dumpEq
    exact (Except.ok.inj dumpEq).symm
  rcases bind_eq_ok.mp made with ⟨sinks, sinksEq, made⟩
  have opened : ∀ {K : Type} {place : ℕ} {open_ : Checked writer (Option K)},
      (sinks.map fun sink => (sink, (none : Option K)))[place]? = some open_ →
        held open_.1 = (⟨.state ns, .tip plan.magic plan.sequence place⟩, []) := by
    intro K place open_ isOpen
    rw [List.getElem?_map, Option.map_eq_some_iff] at isOpen
    rcases isOpen with ⟨sink, isSink, rfl⟩
    have inside := (List.getElem?_eq_some_iff.mp isSink).1
    rw [length_of_mapM_ok sinksEq, List.length_range] at inside
    rcases getElem?_of_mapM_ok sinksEq (List.getElem?_range inside) with ⟨found, isFound, foundEq⟩
    rw [Option.some.inj (isSink.symm.trans isFound)]
    exact readsBack.opened _ _ foundEq
  have ending : ∀ filled : List writer.Sink, filled.length = ns.shards →
      (∀ shard sink, filled[shard]? = some sink → held sink =
        (⟨.state ns, .tip plan.magic plan.sequence shard⟩, node.shardRecords ns shard)) →
      (filled.mapM writer.finish >>= fun tip =>
        (if plan.cutsADump then tip.zipIdx else []).mapM (fun entry =>
            writer.carryAgain entry.1 (.dump plan.sequence entry.2) >>= fun again =>
              (.first : Predecessor D).landed (writer.descriptor again) >>= fun _ =>
                .ok (writer.descriptor again)) >>= fun cut =>
          .ok (adopted.flatten ++ cut ++ tip.map writer.descriptor)) = .ok layers →
      StateLayersOf read node plan ns layers := by
    intro filled length holds made
    rcases bind_eq_ok.mp made with ⟨tip, tipEq, made⟩
    rcases bind_eq_ok.mp made with ⟨cut, cutEq, made⟩
    rcases Except.ok.inj made with rfl
    have tipCarries := forall₂_finish readsBack length holds tipEq
    refine ⟨cut, tip.map writer.descriptor, by rw [noneAdopted, List.nil_append], ?_, tipCarries⟩
    have tipKinds : ∀ written ∈ tip, (writer.descriptor written).kind = .state ns := by
      intro written isWritten
      rcases mem_of_mapM_ok tipEq isWritten with ⟨sink, isSink, sinkEq⟩
      rcases List.getElem?_of_mem isSink with ⟨shard, isShard⟩
      rw [(readsBack.finished _ _ sinkEq).1, holds shard sink isShard]
    by_cases due : plan.cutsADump
    · rw [if_pos due] at cutEq ⊢
      have shards : List.range ns.shards = tip.zipIdx.map Prod.snd := by
        rw [List.zipIdx_map_snd, length_of_mapM_ok tipEq, length, List.range_eq_range']
      rw [shards, List.forall₂_map_left_iff]
      have each := (List.forall₂_and_left _ _).mpr
        ⟨fun entry isEntry => tipKinds entry.1 (List.fst_mem_of_mem_zipIdx isEntry),
          mapM_eq_ok.mp cutEq⟩
      refine each.imp ?_
      rintro ⟨written, shard⟩ layer ⟨isKind, layerEq⟩
      rcases bind_eq_ok.mp layerEq with ⟨again, againEq, layerEq⟩
      rcases bind_eq_ok.mp layerEq with ⟨_, -, layerEq⟩
      rcases Except.ok.inj layerEq with rfl
      rcases readsBack.carried _ _ _ againEq with ⟨sameKind, isScope⟩
      exact ⟨sameKind.trans isKind, isScope⟩
    · rw [if_neg due] at cutEq ⊢
      rcases Except.ok.inj cutEq with rfl
      exact .nil
  have filledBy : ∀ {K R : Type} {check : ℕ → Option K → R → Except SnapshotError (Option K)}
      {shard : R → ℕ} {record : R → Record V O} {items : List R}
      {filled : List (Checked writer (Option K))},
      (∀ place, (items.filter fun item => shard item = place).map record =
        node.shardRecords ns place) →
      items.foldlM (Snapshot.route writer check shard record)
        (sinks.map fun sink => (sink, none)) = .ok filled →
      (filled.map Prod.fst).length = ns.shards ∧
        ∀ place sink, (filled.map Prod.fst)[place]? = some sink → held sink =
          (⟨.state ns, .tip plan.magic plan.sequence place⟩, node.shardRecords ns place) := by
    intro K R check shard record items filled isShard folded
    have length : filled.length = ns.shards := by
      rw [length_foldlM_route folded, List.length_map, length_of_mapM_ok sinksEq,
        List.length_range]
    refine ⟨by rw [List.length_map, length], ?_⟩
    intro place sink isSink
    rw [List.getElem?_map, Option.map_eq_some_iff] at isSink
    rcases isSink with ⟨closed, isClosed, rfl⟩
    have inside := (List.getElem?_eq_some_iff.mp isClosed).1
    rw [length_foldlM_route folded] at inside
    rcases readsBack.route folded (List.getElem?_eq_getElem inside) with ⟨found, isFound, holds⟩
    rw [Option.some.inj (isClosed.symm.trans isFound), holds,
      opened (List.getElem?_eq_getElem inside), isShard]
    rfl
  by_cases isUtxos : ns = .utxos
  · simp only [if_pos isUtxos] at made
    rcases bind_eq_ok.mp made with ⟨filled, filledEq, made⟩
    change Feed.each (.ok (node.utxos.entries.map .ok)) _ _ = _ at filledEq
    rw [each_ok] at filledEq
    unfold routeUtxo at filledEq
    rcases filledBy (fun place => by rw [Node.shardRecords, if_pos isUtxos]) filledEq with
      ⟨length, holds⟩
    exact ending _ length holds made
  · simp only [if_neg isUtxos] at made
    rcases bind_eq_ok.mp made with ⟨filled, filledEq, made⟩
    change Feed.each (.ok (List.map .ok _)) _ _ = _ at filledEq
    rw [each_ok] at filledEq
    unfold routeEntity at filledEq
    rcases filledBy (fun place => by rw [Node.shardRecords, if_neg isUtxos]) filledEq with
      ⟨length, holds⟩
    exact ending _ length holds made

end Writing

end Dolos.Snapshot
