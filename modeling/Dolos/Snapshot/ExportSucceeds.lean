import Dolos.Snapshot.RestoreExport

/-!
# An export refuses nothing a node holds

The stores hand their records out in the order the layers ask for, each shard gets the keys
that are its own, and every log namespace has a kind, so none of the checks an export makes
on the way can fail: what is left to fail is the transport and a block that does not decode.
-/

namespace Dolos.Snapshot

open Outcome

variable {V O D : Type}

section Walks

variable {S A E : Type}

/-- A walk over a sorted list, when a round that admits its item still admits the later
ones. -/
theorem foldlM_succeeds {round : S → A → Except E S} (Admits : S → A → Prop)
    (Precedes : A → A → Prop)
    (step : ∀ state item, Admits state item → ∃ next, round state item = .ok next ∧
      ∀ later, Precedes item later → Admits state later → Admits next later)
    {items : List A} (sorted : items.Pairwise Precedes) {first : S}
    (admitted : ∀ item ∈ items, Admits first item) :
    ∃ last, items.foldlM round first = .ok last := by
  induction items generalizing first with
  | nil => exact ⟨first, rfl⟩
  | cons item rest ih =>
      rcases List.pairwise_cons.mp sorted with ⟨precedes, sortedRest⟩
      rcases List.forall_mem_cons.mp admitted with ⟨isAdmitted, later⟩
      rcases step first item isAdmitted with ⟨next, nextEq, keeps⟩
      rw [List.foldlM_cons, nextEq, ok_bind]
      exact ih sortedRest fun other member => keeps other (precedes other member)
        (later other member)

theorem foldlM_total {round : S → A → Except E S}
    (total : ∀ state item, ∃ next, round state item = .ok next) (items : List A) (first : S) :
    ∃ last, items.foldlM round first = .ok last := by
  refine foldlM_succeeds (fun _ _ => True) (fun _ _ => True) ?_
    (List.pairwise_of_forall fun _ _ => trivial) fun _ _ => trivial
  intro state item _
  rcases total state item with ⟨next, nextEq⟩
  exact ⟨next, nextEq, fun _ _ _ => trivial⟩

theorem mapM_succeeds (f : A → Except E S) (items : List A)
    (each : ∀ item ∈ items, ∃ result, f item = .ok result) :
    ∃ results, items.mapM f = .ok results := by
  induction items with
  | nil => exact ⟨[], rfl⟩
  | cons item rest ih =>
      rcases List.forall_mem_cons.mp each with ⟨⟨result, resultEq⟩, later⟩
      rcases ih later with ⟨results, resultsEq⟩
      exact ⟨result :: results, by rw [List.mapM_cons, resultEq, ok_bind, resultsEq]; rfl⟩

end Walks

/-- A transport that does not fail. -/
structure Accepts (writer : SteleWriter V O D) : Prop where
  opens : ∀ spec, ∃ sink, writer.layerSink spec = .ok sink
  writes : ∀ sink record, ∃ next, writer.writeRecord sink record = .ok next
  finishes : ∀ sink, ∃ written, writer.finish sink = .ok written
  carries : ∀ written scope, ∃ again, writer.carryAgain written scope = .ok again
  seals : ∀ inscription, writer.sealStele inscription = .ok ()

section Layers

variable {writer : SteleWriter V O D} {decode : Bytes → Option BlockHash} {node : Node V O}
  {magic : ℕ} {window : EpochWindow}

theorem Accepts.put (accepts : Accepts writer) {C R : Type}
    (record : R → Record V O) {check : C → R → Except SnapshotError C} {open_ : Checked writer C}
    {item : R} {order : C} (passes : check open_.2 item = .ok order) :
    ∃ sink, Snapshot.put writer check record open_ item = .ok (sink, order) := by
  rcases accepts.writes open_.1 (record item) with ⟨sink, sinkEq⟩
  exact ⟨sink, by rw [Snapshot.put, passes, ok_bind, sinkEq]; rfl⟩

theorem any_eq_false {K : Type} {last : Option K} {bad : K → Prop} [DecidablePred bad]
    (good : ∀ held ∈ last, ¬ bad held) : (last.any fun held => bad held) = false := by
  cases last with
  | none => rfl
  | some held => exact decide_eq_false (good held rfl)

theorem Accepts.writeBlocks (accepts : Accepts writer) (magic : ℕ) (window : EpochWindow)
    (decodes : ∀ block ∈ node.blocks, (decode block.2).isSome)
    (inOrder : node.blocks.Pairwise fun first second => first.1 ≤ second.1) :
    ∃ layer, Snapshot.writeBlocks writer (node.stores decode) .first magic window =
      .ok layer := by
  rcases accepts.opens (window.spec magic .blocks) with ⟨sink, sinkEq⟩
  have filled : ∃ filled, (node.blocks.filter (window.Contains ·.1)).foldlM
      (putBlock writer (node.stores decode)) (sink, none) = .ok filled := by
    refine foldlM_succeeds
      (fun open_ block => (decode block.2).isSome ∧ ∀ held ∈ open_.2, held ≤ block.1)
      (fun first second : ℕ × Bytes => first.1 ≤ second.1) ?_ (inOrder.filter _) ?_
    · rintro open_ block ⟨isDecoded, after⟩
      rcases Option.isSome_iff_exists.mp isDecoded with ⟨hash, hashEq⟩
      have passes : checkBlock open_.2 ⟨block.1, hash, block.2⟩ = .ok (some block.1) := by
        rw [checkBlock, any_eq_false fun held isHeld => (after held isHeld).not_gt]
        rfl
      rcases accepts.put Record.block passes with ⟨next, nextEq⟩
      refine ⟨(next, some block.1), ?_, ?_⟩
      · have isHash : (node.stores decode).decode block.2 = some hash := hashEq
        rw [putBlock, isHash]
        exact nextEq
      · rintro later precedes ⟨laterDecoded, -⟩
        refine ⟨laterDecoded, ?_⟩
        rintro _ ⟨⟩
        exact precedes
    · intro block member
      exact ⟨decodes block (List.mem_of_mem_filter member), fun held isHeld => by cases isHeld⟩
  rcases filled with ⟨filled, filledEq⟩
  rcases accepts.finishes filled.1 with ⟨written, writtenEq⟩
  refine ⟨writer.descriptor written, ?_⟩
  have range : (node.stores decode).getRange window.slots =
      .ok (node.blocks.filter (window.Contains ·.1)) := rfl
  change (writer.layerSink (window.spec magic .blocks) >>= fun sink => _) = _
  rw [sinkEq, ok_bind, range, ok_bind, filledEq, ok_bind, writtenEq]
  rfl

theorem Accepts.indexLayer (accepts : Accepts writer) :
    ∃ layer, Snapshot.indexLayer writer (node.stores decode) .first magic window = .ok layer := by
  rcases accepts.opens (window.spec magic .indexes) with ⟨sink, sinkEq⟩
  let tags := (node.indexes.archiveTags.filter fun tag =>
    window.slots.1 ≤ tag.2.2 ∧ tag.2.2 < window.slots.2).sort TagLe
  let round : Checked writer IndexOrder → ArchiveTag →
    Except SnapshotError (Checked writer IndexOrder) :=
    fun filling tag => Snapshot.put writer checkIndex .index filling (.tag tag)
  have tagRound : ∀ (filling : Checked writer IndexOrder) (tag : ArchiveTag),
      filling.2.lastExact = none → (∀ held ∈ filling.2.lastTag, tagKey held < tagKey tag) →
      ∃ next, round filling tag = .ok (next, { filling.2 with lastTag := some tag }) := by
    intro filling tag noExact after
    apply accepts.put Record.index
    rw [checkIndex, if_neg (by rw [noExact]; exact Bool.false_ne_true),
      any_eq_false fun held isHeld => (after held isHeld).not_ge]
    rfl
  have strict : tags.Pairwise fun first second => tagKey first < tagKey second := by
    have sorted := Finset.pairwise_sort (node.indexes.archiveTags.filter fun tag =>
      window.slots.1 ≤ tag.2.2 ∧ tag.2.2 < window.slots.2) TagLe
    refine (sorted.and (Finset.sort_nodup _ TagLe)).imp ?_
    rintro first second ⟨below, apart⟩
    exact lt_of_le_of_ne below fun same => apart (tagKey_injective same)
  have tagged : ∃ tagged, tags.foldlM round (sink, .default) = .ok tagged := by
    refine foldlM_succeeds
      (fun filling tag => filling.2.lastExact = none ∧
        ∀ held ∈ filling.2.lastTag, tagKey held < tagKey tag)
      (fun first second : ArchiveTag => tagKey first < tagKey second) ?_ strict ?_
    · rintro filling tag ⟨noExact, after⟩
      rcases tagRound filling tag noExact after with ⟨next, nextEq⟩
      refine ⟨_, nextEq, ?_⟩
      rintro later precedes -
      refine ⟨noExact, ?_⟩
      rintro _ ⟨⟩
      exact precedes
    · intro tag _
      exact ⟨rfl, fun held isHeld => by cases isHeld⟩
  rcases tagged with ⟨tagged, taggedEq⟩
  have noExact : tagged.2.lastExact = none := by
    refine @foldlM_keeps _ _ _ _ (fun filling => filling.2.lastExact = none) ?_ _ _ _ rfl taggedEq
    intro filling tag next none_ done
    rcases bind_eq_ok.mp done with ⟨order, orderEq, done⟩
    rcases bind_eq_ok.mp done with ⟨_, -, done⟩
    rcases Except.ok.inj done with rfl
    rw [checkIndex] at orderEq
    split_ifs at orderEq
    rcases Except.ok.inj orderEq with rfl
    exact none_
  have filled : ∃ filled, (node.indexes.exact.filter fun _ slot =>
      window.slots.1 ≤ slot ∧ slot < window.slots.2).entries.foldlM
        (fun filling record =>
          Snapshot.put writer checkIndex .index filling (.exact record.1 record.2))
        tagged = .ok filled := by
    refine foldlM_succeeds (fun filling record => ∀ held ∈ filling.2.lastExact, held < record.1)
      (fun first second : ExactKey × ℕ => first.1 < second.1) ?_
      (OrderedMap.sorted _) ?_
    · intro filling record after
      have passes : checkIndex filling.2 (.exact record.1 record.2) =
          .ok { filling.2 with lastExact := some record.1 } := by
        rw [checkIndex, any_eq_false fun held isHeld => (after held isHeld).not_ge]
        rfl
      rcases accepts.put Record.index passes with ⟨next, nextEq⟩
      refine ⟨_, nextEq, ?_⟩
      rintro later precedes - _ ⟨⟩
      exact precedes
    · intro record _ held isHeld
      rw [noExact] at isHeld
      cases isHeld
  rcases filled with ⟨filled, filledEq⟩
  rcases accepts.finishes filled.1 with ⟨written, writtenEq⟩
  refine ⟨writer.descriptor written, ?_⟩
  have fill : fillIndex writer (node.stores decode) window.slots (sink, .default) =
      .ok filled := by
    rw [fillIndex, Node.iterArchiveTags_stores, each_ok, Node.iterExactRecords_stores]
    exact bind_eq_ok.mpr ⟨tagged, taggedEq, (each_ok _ _ _).trans filledEq⟩
  change (writer.layerSink (window.spec magic .indexes) >>= fun sink => _) = _
  rw [sinkEq, ok_bind, fill, ok_bind, writtenEq]
  rfl

theorem Accepts.writeLogs (accepts : Accepts writer) (node : Node V O)
    (decode : Bytes → Option BlockHash) (magic : ℕ) (ns : LogNs) (window : EpochWindow) :
    ∃ made, Snapshot.writeLogs writer (node.stores decode) .first magic ns window = .ok made := by
  have filled : ∃ filled, ((node.logs.rows ns).filter fun key _ =>
      window.Contains (ofLex key).1).entries.foldlM
        (putLog writer (window.spec magic (.log ns))) (none, none) = .ok filled := by
    refine foldlM_succeeds (fun state item => ∀ held ∈ state.2, held < item.1)
      (fun first second : LogKey × V => first.1 < second.1) ?_ (OrderedMap.sorted _) ?_
    · rintro ⟨opened, last⟩ item after
      have passes : checkLog last item = .ok (some item.1) := by
        rw [checkLog, any_eq_false fun held isHeld => (after held isHeld).not_ge]
        rfl
      have written : ∃ next, putLog writer (window.spec magic (.log ns)) (opened, last) item =
          .ok (some next, some item.1) := by
        cases opened with
        | none =>
            rcases accepts.opens (window.spec magic (.log ns)) with ⟨sink, sinkEq⟩
            rcases accepts.writes sink (.log item.1 item.2) with ⟨next, nextEq⟩
            exact ⟨next, bind_eq_ok.mpr ⟨_, passes, bind_eq_ok.mpr ⟨sink, sinkEq,
              bind_eq_ok.mpr ⟨next, nextEq, rfl⟩⟩⟩⟩
        | some sink =>
            rcases accepts.writes sink (.log item.1 item.2) with ⟨next, nextEq⟩
            exact ⟨next, bind_eq_ok.mpr ⟨_, passes, bind_eq_ok.mpr ⟨sink, rfl,
              bind_eq_ok.mpr ⟨next, nextEq, rfl⟩⟩⟩⟩
      rcases written with ⟨next, nextEq⟩
      refine ⟨(some next, some item.1), nextEq, ?_⟩
      rintro later precedes - _ ⟨⟩
      exact precedes
    · intro item _ held isHeld
      cases isHeld
  rcases filled with ⟨⟨filled, order⟩, filledEq⟩
  have each : ((node.stores decode).iterLogs (logNamespace ns) (logKeyRange window.slots)).each
      (putLog writer (window.spec magic (.log ns))) (none, none) = .ok (filled, order) := by
    rw [Node.iterLogs_stores, each_ok]
    exact filledEq
  cases filled with
  | none => exact ⟨none, bind_eq_ok.mpr ⟨_, rfl, bind_eq_ok.mpr ⟨_, each, rfl⟩⟩⟩
  | some sink =>
      rcases accepts.finishes sink with ⟨written, writtenEq⟩
      exact ⟨some (writer.descriptor written), bind_eq_ok.mpr ⟨_, rfl, bind_eq_ok.mpr ⟨_, each,
        bind_eq_ok.mpr ⟨written, writtenEq, rfl⟩⟩⟩⟩

/-- A sink for every shard, and no key comes twice or out of order. -/
theorem Accepts.route (accepts : Accepts writer) {K R : Type} [LinearOrder K]
    (leading : K → Fin (2 ^ 256)) (keyOf : R → K) (record : R → Record V O) {ns : StateNs}
    {items : List R} (sorted : items.Pairwise fun first second => keyOf first < keyOf second)
    {sinks : List (Checked writer (Option K))} (length : sinks.length = ns.shards)
    (fresh : ∀ open_ ∈ sinks, open_.2 = none) :
    ∃ filled, items.foldlM (Snapshot.route writer
      (fun shard last item => checkState leading shard ns.shards last (keyOf item))
      (fun item => shardOf (leading (keyOf item)) ns.shards) record) sinks = .ok filled := by
  refine foldlM_succeeds (fun state item => state.length = ns.shards ∧
      ∀ open_ ∈ state, ∀ held ∈ open_.2, held < keyOf item)
    (fun first second => keyOf first < keyOf second) ?_ sorted ?_
  · rintro state item ⟨stateLength, after⟩
    have inside : shardOf (leading (keyOf item)) ns.shards < state.length := by
      rw [stateLength]
      exact shardOf_lt _ _
    have isOpen := List.getElem?_eq_getElem inside
    have passes : checkState leading (shardOf (leading (keyOf item)) ns.shards) ns.shards
        (state[shardOf (leading (keyOf item)) ns.shards]).2 (keyOf item) =
          .ok (some (keyOf item)) := by
      rw [checkState, if_neg (fun apart => apart rfl), any_eq_false fun held isHeld =>
        (after _ (List.getElem_mem inside) held isHeld).not_ge]
      rfl
    rcases @Accepts.put _ _ _ _ accepts _ _ record (fun last item => checkState leading
      (shardOf (leading (keyOf item)) ns.shards) ns.shards last (keyOf item)) _ _ _ passes with
      ⟨next, nextEq⟩
    refine ⟨state.set (shardOf (leading (keyOf item)) ns.shards) (next, some (keyOf item)), ?_, ?_⟩
    · rw [Snapshot.route, isOpen]
      exact bind_eq_ok.mpr ⟨_, nextEq, rfl⟩
    · rintro later precedes ⟨-, before⟩
      refine ⟨by rw [List.length_set, stateLength], ?_⟩
      intro open_ member held isHeld
      rcases List.mem_or_eq_of_mem_set member with kept | rfl
      · exact before open_ kept held isHeld
      · rcases isHeld with ⟨⟩
        exact precedes
  · intro item _
    refine ⟨length, ?_⟩
    intro open_ member held isHeld
    rw [fresh open_ member] at isHeld
    cases isHeld

theorem Accepts.writeStateKind (accepts : Accepts writer) (plan : Plan) (ns : StateNs) :
    ∃ layers, Snapshot.writeStateKind writer (node.stores decode) .first plan ns =
      .ok layers := by
  have adopted : ∃ adopted, plan.adoptableDumps.mapM
      (adoptDump (.first : Predecessor D) ns) = .ok adopted :=
    mapM_succeeds _ _ fun epoch _ => ⟨[], adoptDump_first⟩
  rcases adopted with ⟨adopted, adoptedEq⟩
  have opened : ∃ sinks, (List.range ns.shards).mapM (fun shard =>
      writer.layerSink ⟨.state ns, .tip plan.magic plan.sequence shard⟩) = .ok sinks :=
    mapM_succeeds _ _ fun shard _ => accepts.opens _
  rcases opened with ⟨sinks, sinksEq⟩
  have length : ∀ {K : Type}, (sinks.map fun sink => (sink, (none : Option K))).length =
      ns.shards := by
    intro K
    rw [List.length_map, length_of_mapM_ok sinksEq, List.length_range]
  have fresh : ∀ {K : Type}, ∀ open_ ∈ sinks.map fun sink => (sink, (none : Option K)),
      open_.2 = none := by
    intro K open_ member
    rcases List.mem_map.mp member with ⟨_, -, rfl⟩
    rfl
  have ending : ∀ filled : List writer.Sink, ∃ layers, (filled.mapM writer.finish >>= fun tip =>
      (if plan.cutsADump then tip.zipIdx else []).mapM (fun entry =>
          writer.carryAgain entry.1 (.dump plan.sequence entry.2) >>= fun again =>
            (.first : Predecessor D).landed (writer.descriptor again) >>= fun _ =>
              .ok (writer.descriptor again)) >>= fun cut =>
        .ok (adopted.flatten ++ cut ++ tip.map writer.descriptor)) = .ok layers := by
    intro filled
    rcases mapM_succeeds writer.finish filled
      fun sink _ => accepts.finishes sink with ⟨tip, tipEq⟩
    rcases mapM_succeeds (fun entry =>
      writer.carryAgain entry.1 (.dump plan.sequence entry.2) >>= fun again =>
        (.first : Predecessor D).landed (writer.descriptor again) >>= fun _ =>
          .ok (writer.descriptor again)) (if plan.cutsADump then tip.zipIdx else []) (fun entry _ => by
            rcases accepts.carries entry.1 (.dump plan.sequence entry.2) with ⟨again, againEq⟩
            exact ⟨writer.descriptor again, bind_eq_ok.mpr ⟨again, againEq, rfl⟩⟩) with
      ⟨cut, cutEq⟩
    exact ⟨_, bind_eq_ok.mpr ⟨tip, tipEq, bind_eq_ok.mpr ⟨cut, cutEq, rfl⟩⟩⟩
  by_cases isUtxos : ns = .utxos
  · rcases accepts.route (fun txo => (ofLex txo).1) Prod.fst
      (fun item : TxoRef × O => .utxo item.1 item.2) node.utxos.sorted length fresh with
      ⟨filled, filledEq⟩
    rcases ending (filled.map Prod.fst) with ⟨layers, layersEq⟩
    refine ⟨layers, bind_eq_ok.mpr ⟨adopted, adoptedEq, bind_eq_ok.mpr ⟨sinks, sinksEq, ?_⟩⟩⟩
    simp only [if_pos isUtxos]
    exact bind_eq_ok.mpr ⟨filled, (each_ok _ _ _).trans filledEq, layersEq⟩
  · rcases accepts.route id Prod.fst (fun item : EntityKey × V => .entity item.1 item.2)
      ((node.entities ns).sorted.filter fun entry => entry.1 < lastEntityKey) length fresh with
      ⟨filled, filledEq⟩
    rcases ending (filled.map Prod.fst) with ⟨layers, layersEq⟩
    refine ⟨layers, bind_eq_ok.mpr ⟨adopted, adoptedEq, bind_eq_ok.mpr ⟨sinks, sinksEq, ?_⟩⟩⟩
    simp only [if_neg isUtxos]
    exact bind_eq_ok.mpr ⟨filled, (each_ok _ _ _).trans filledEq, layersEq⟩

/-- The files come in order, and there is one. -/
theorem Accepts.digestJob (accepts : Accepts writer) (plan : Plan)
    {records : List ImmutableDigests} (some_ : records ≠ [])
    (inOrder :
      records.Pairwise fun first second => first.immutableNumber < second.immutableNumber) :
    ∃ layers, Snapshot.digestJob writer plan records = .ok layers := by
  have checked : ∃ last, records.foldlM checkDigests none = .ok last := by
    refine foldlM_succeeds (fun last record => ∀ held ∈ last, held < record.immutableNumber)
      (fun first second : ImmutableDigests => first.immutableNumber < second.immutableNumber) ?_
      inOrder ?_
    · intro last record after
      refine ⟨some record.immutableNumber, ?_, ?_⟩
      · rw [checkDigests, any_eq_false fun held isHeld => (after held isHeld).not_ge]
        rfl
      · rintro later precedes - _ ⟨⟩
        exact precedes
    · intro record _ held isHeld
      cases isHeld
  rcases checked with ⟨number, checkedEq⟩
  rcases accepts.opens ⟨.digests, .digests plan.magic plan.sequence
    (records.getLast some_).immutableNumber⟩ with ⟨sink, sinkEq⟩
  rcases foldlM_total (fun sink record => accepts.writes sink (.digests record)) records sink with
    ⟨filled, filledEq⟩
  rcases accepts.finishes filled with ⟨written, writtenEq⟩
  have made : writeDigests writer plan records = .ok (writer.descriptor written) := by
    rw [writeDigests, checkedEq, ok_bind, List.getLast?_eq_some_getLast some_]
    exact bind_eq_ok.mpr ⟨sink, sinkEq, bind_eq_ok.mpr ⟨filled, filledEq,
      bind_eq_ok.mpr ⟨written, writtenEq, rfl⟩⟩⟩
  exact ⟨_, bind_eq_ok.mpr ⟨_, made, rfl⟩⟩

end Layers

section Preflight

variable {decode : Bytes → Option BlockHash} {node : Node V O}

theorem occupied_ok {A : Type} (items : List A) :
    Feed.occupied (.ok (items.map .ok)) = .ok (decide (items ≠ [])) := by
  cases items <;> rfl

/-- A namespace that no kind carries has no table. -/
theorem refuseUncoveredLogs_ok (window : EpochWindow) :
    refuseUncoveredLogs (node.stores decode) window = .ok () := by
  apply forM_eq_ok
  intro ns _
  split_ifs with covered
  · rfl
  · have noTable : LogTables.table node.logs ns = ∅ := by
      cases ns <;> first
        | rfl
        | exact absurd (by decide) covered
    have iter : (node.stores decode).iterLogs ns (logKeyRange window.slots) =
        .ok ((([] : List (LogKey × V))).map .ok) := by
      simp only [Node.stores, noTable]
      rfl
    rw [iter, occupied_ok]
    rfl

theorem preflight_ok (plan : Plan) :
    preflight (node.stores decode) (.first : Predecessor D) plan = .ok () := by
  have covered : plan.epochs.forM (refuseUncoveredLogs (node.stores decode)) = .ok () :=
    forM_eq_ok fun window _ => refuseUncoveredLogs_ok window
  have logs :
      ∃ total, logLayers (node.stores decode) (.first : Predecessor D) plan = .ok total := by
    refine foldlM_total (fun total window => foldlM_total (fun total ns => ?_) _ _) _ _
    exact ⟨_, bind_eq_ok.mpr ⟨false, rfl, bind_eq_ok.mpr ⟨_, by
      rw [Node.iterLogs_stores, occupied_ok], rfl⟩⟩⟩
  have dumps : ∃ total, carriedDumps (.first : Predecessor D) plan = .ok total := by
    refine foldlM_total (fun total epoch => foldlM_total (fun total ns =>
      foldlM_total (fun total shard => ?_) _ _) _ _) _ _
    exact ⟨_, bind_eq_ok.mpr ⟨false, rfl, rfl⟩⟩
  rcases logs with ⟨logTotal, logsEq⟩
  rcases dumps with ⟨dumpTotal, dumpsEq⟩
  rw [preflight, covered, ok_bind, logsEq, ok_bind, dumpsEq]
  rfl

end Preflight

/-- Every export of any windows of a node returns a document: with a transport that does not
fail, blocks that decode and digests in order, none of the checks on the way refuses what the
stores hold. -/
theorem exports_succeed {summary : ChainSummary} {magic : ℕ} {cursor : ChainPoint}
    {retained : RetainedEpochs} {whole : Plan} (continuous : summary.Continuous)
    (made : Plan.new summary magic cursor retained = .ok whole) {writer : SteleWriter V O D}
    (accepts : Accepts writer) {decode : Bytes → Option BlockHash} {node : Node V O}
    (decodes : ∀ block ∈ node.blocks, (decode block.2).isSome)
    (inOrder : node.blocks.Pairwise fun first second => first.1 ≤ second.1)
    {digestRecords : Option (List ImmutableDigests)}
    (digests : ∀ records ∈ digestRecords, records ≠ [] ∧
      records.Pairwise fun first second => first.immutableNumber < second.immutableNumber)
    (first last : Option ℕ) {band producers : ℕ} (bandPositive : 0 < band)
    (producersPositive : 0 < producers) {plan : Plan}
    (planEq : plan = ((whole.restrictEpochs first last).withBand band bandPositive).withProducers
      producers producersPositive) {published : Published D}
    (run : Exports writer (node.stores decode) .first digestRecords plan published) :
    ∃ inscription, published.result = .ok inscription ∧ published.sealed = some inscription := by
  have ascending : Ascending plan.epochs := by
    rw [planEq]
    exact (ascending_of_new continuous made).filter _
  have anchored : plan.cursor.hash.isSome := by
    rw [planEq]
    unfold Plan.new at made
    split at made
    · cases made
    · rename_i hash hashEq
      rcases bind_eq_ok.mp made with ⟨_, -, made⟩
      rcases bind_eq_ok.mp made with ⟨_, -, made⟩
      rcases Except.ok.inj made with rfl
      exact Option.isSome_of_eq_some hashEq
  have blocks : ∃ blocks, plan.epochs.mapM (blockJob writer (node.stores decode) .first plan) =
      .ok blocks := by
    refine mapM_succeeds _ _ fun window _ => ?_
    rcases accepts.writeBlocks plan.magic window decodes inOrder with
      ⟨layer, layerEq⟩
    exact ⟨_, bind_eq_ok.mpr ⟨layer, layerEq, rfl⟩⟩
  have logs : ∃ logs, (LogNs.all.flatMap fun ns => plan.epochs.map fun window => (ns, window)).mapM
      (fun entry => logJob writer (node.stores decode) .first plan entry.1 entry.2) = .ok logs := by
    refine mapM_succeeds _ _ fun entry _ => ?_
    rcases accepts.writeLogs node decode plan.magic entry.1 entry.2 with ⟨written, writtenEq⟩
    cases written with
    | none => exact ⟨_, bind_eq_ok.mpr ⟨none, writtenEq, rfl⟩⟩
    | some layer => exact ⟨_, bind_eq_ok.mpr ⟨some layer, writtenEq, rfl⟩⟩
  rcases blocks with ⟨blocks, blocksEq⟩
  rcases mapM_succeeds (indexLayer writer (node.stores decode) .first plan.magic) plan.epochs
    fun window _ => accepts.indexLayer with ⟨indexes, indexesEq⟩
  rcases logs with ⟨logs, logsEq⟩
  rcases mapM_succeeds (writeStateKind writer (node.stores decode) .first plan) StateNs.all
    fun ns _ => accepts.writeStateKind plan ns with ⟨state, stateEq⟩
  rcases mapM_succeeds (digestJob writer plan) digestRecords.toList
    fun records member => accepts.digestJob plan (digests records (Option.mem_toList.mp member)).1
      (digests records (Option.mem_toList.mp member)).2 with ⟨digestLayers, digestsEq⟩
  have placed : ∃ place, position plan = .ok place := by
    rcases Option.isSome_iff_exists.mp anchored with ⟨hash, hashEq⟩
    exact ⟨_, by rw [position, hashEq]⟩
  rcases placed with ⟨place, placeEq⟩
  have documented : ∃ inscription, document writer (node.stores decode) .first digestRecords plan =
      .ok inscription :=
    ⟨_, bind_eq_ok.mpr ⟨(), preflight_ok plan, bind_eq_ok.mpr ⟨_, bind_eq_ok.mpr
      ⟨blocks, blocksEq, bind_eq_ok.mpr ⟨indexes, indexesEq, bind_eq_ok.mpr ⟨logs, logsEq,
        bind_eq_ok.mpr ⟨state, stateEq, bind_eq_ok.mpr ⟨digestLayers, digestsEq, rfl⟩⟩⟩⟩⟩,
      bind_eq_ok.mpr ⟨_, bind_eq_ok.mpr ⟨place, placeEq, rfl⟩,
        bind_eq_ok.mpr ⟨(), accepts.seals _, rfl⟩⟩⟩⟩⟩
  rcases documented with ⟨inscription, documented⟩
  rcases exports_spec ascending run with ⟨returned, isSealed⟩
  have result := (returned inscription).mpr documented
  exact ⟨inscription, result, by rw [isSealed, result]; rfl⟩

section Samples

attribute [local instance] BlockDecoding.byron

theorem accepts_recording : Accepts (.recording V O) where
  opens := fun _ => ⟨_, rfl⟩
  writes := fun _ _ => ⟨_, rfl⟩
  finishes := fun _ => ⟨_, rfl⟩
  carries := fun _ _ => ⟨_, rfl⟩
  seals := fun _ => rfl

theorem exports_succeed_stocked : ∃ published inscription,
    Exports (.recording ℕ ℕ) (stocked.stores anyHash) .first (some [⟨1, 1, 1, 1⟩]) inBands
      published ∧
    published.result = .ok inscription ∧ published.sealed = some inscription := by
  rcases exists_exports (.recording ℕ ℕ) (stocked.stores anyHash) .first (some [⟨1, 1, 1, 1⟩])
    inBands with ⟨published, run⟩
  have digests : ∀ records ∈ some [(⟨1, 1, 1, 1⟩ : ImmutableDigests)], records ≠ [] ∧
      records.Pairwise fun first second => first.immutableNumber < second.immutableNumber := by
    rintro _ ⟨⟩
    exact ⟨List.cons_ne_nil _ _, List.pairwise_singleton _ _⟩
  rcases exports_succeed ChainSummary.oneEra_continuous new_threeEpochs accepts_recording
    (fun _ _ => rfl) settled_stocked.inOrder digests none none (show 0 < 2 by decide)
    (show 0 < 3 by decide) rfl run with ⟨inscription, returned, isSealed⟩
  exact ⟨published, inscription, run, returned, isSealed⟩

end Samples

end Dolos.Snapshot
