import Dolos.Cardano.IndexUndo
import Dolos.Cardano.Recovery

/-!
# Indexing blocks again from the log

`catch_up_indexes` of `core/src/bootstrap.rs` against `commit_indexes` of the roll
batches. A batch indexes its blocks with one delta, from the outputs it holds in memory;
a restart indexes them one by one, from the outputs each log entry was given. Both give
the same records as long as the restart meets every block: it goes by the slot of the
index cursor and passes over the blocks that are not after it. What a boundary deletes is
in no log entry.
-/

namespace Dolos

open Outcome Writes

section Merging

variable [KeyHashing]

/-- Several deltas in one. -/
def IndexDelta.merged (cursor : ChainPoint) (deltas : List IndexDelta) : IndexDelta where
  cursor := cursor
  utxo := ⟨deltas.flatMap fun delta => delta.utxo.produced,
    deltas.flatMap fun delta => delta.utxo.consumed⟩
  archive := deltas.flatMap IndexDelta.archive

omit [KeyHashing] in
theorem IndexDelta.merged_concat (cursor : ChainPoint) (deltas : List IndexDelta)
    (last : IndexDelta) :
    IndexDelta.merged cursor (deltas ++ [last]) =
      ⟨cursor, ⟨(deltas.flatMap fun delta => delta.utxo.produced) ++ last.utxo.produced,
        (deltas.flatMap fun delta => delta.utxo.consumed) ++ last.utxo.consumed⟩,
        deltas.flatMap IndexDelta.archive ++ last.archive⟩ := by
  rw [IndexDelta.merged, List.flatMap_append, List.flatMap_append, List.flatMap_append,
    List.flatMap_singleton, List.flatMap_singleton, List.flatMap_singleton]

namespace IndexStore

omit [KeyHashing] in
theorem tagged_append (first second : List (TxoRef × List Tag)) :
    tagged (first ++ second) = tagged first ++ tagged second := by
  rw [tagged, List.flatMap_append]
  rfl

theorem mem_utxoTags_apply {store : IndexStore} {delta : IndexDelta} {entry : Tag × TxoRef} :
    entry ∈ (store.apply delta).utxoTags ↔
      (entry ∈ store.utxoTags ∨ entry ∈ tagged delta.utxo.produced) ∧
        entry ∉ tagged delta.utxo.consumed := by
  change entry ∈ eraseEach (insertEach store.utxoTags (tagged delta.utxo.produced))
    (tagged delta.utxo.consumed) ↔ _
  rw [mem_eraseEach, mem_insertEach]
  tauto

/-- Deltas one by one are one delta, when none produces what an earlier one has
consumed. -/
theorem foldl_apply_eq_merged (store : IndexStore) {deltas : List IndexDelta} {last : IndexDelta}
    (separate : (deltas ++ [last]).Pairwise fun earlier later =>
      ∀ entry ∈ tagged later.utxo.produced, entry ∉ tagged earlier.utxo.consumed) :
    (deltas ++ [last]).foldl apply store =
      store.apply (.merged last.cursor (deltas ++ [last])) := by
  induction deltas using List.reverseRecOn generalizing last with
  | nil =>
      simp only [List.nil_append, List.foldl_cons, List.foldl_nil]
      rw [IndexDelta.merged]
      simp
  | append_singleton deltas previous ih =>
      rcases List.pairwise_append.mp separate with ⟨earlier, -, across⟩
      rw [List.foldl_append, ih earlier]
      apply IndexStore.ext
      · rfl
      · ext entry
        have unconsumed : entry ∈ tagged last.utxo.produced →
            entry ∉ tagged ((deltas ++ [previous]).flatMap fun delta => delta.utxo.consumed) := by
          intro produced consumed
          rw [tagged, List.flatMap_assoc] at consumed
          rcases List.mem_flatMap.mp consumed with ⟨delta, isDelta, inDelta⟩
          exact across delta isDelta last (List.mem_singleton.mpr rfl) entry produced inDelta
        simp only [List.foldl_cons, List.foldl_nil, mem_utxoTags_apply]
        rw [IndexDelta.merged_concat last.cursor _ last, IndexDelta.merged]
        simp only [tagged_append, List.mem_append]
        tauto
      · simp only [List.foldl_cons, List.foldl_nil, apply]
        rw [IndexDelta.merged_concat last.cursor _ last, List.foldl_append, IndexDelta.merged]
      · simp only [List.foldl_cons, List.foldl_nil, apply]
        rw [IndexDelta.merged_concat last.cursor _ last, List.foldl_append, IndexDelta.merged]

end IndexStore

end Merging

variable {O : Type} [BlockDecoding O]

/-- The index delta of `compute_catchup`. -/
def computeCatchupIndexes (point : ChainPoint) (log : LedgerLog O) :
    Except DomainError IndexDelta :=
  match log.block with
  | none => .error (.other "block decoding error")
  | some block => do
      let delta ← computeApplyDelta block log.inputs
      .ok (blockIndexDelta point block log.inputs delta)

def replayIndex (indexes : IndexStore) (entry : ChainPoint × LedgerLog O) :
    Except DomainError IndexStore := do
  let delta ← computeCatchupIndexes entry.1 entry.2
  .ok (indexes.apply delta)

/-- The loop of `catch_up_indexes`. -/
def replayIndexes (slot : Option ℕ) :
    List (ChainPoint × LedgerLog O) → IndexStore → Except DomainError IndexStore
  | [], indexes => .ok indexes
  | entry :: rest, indexes =>
      if isPassed slot entry then replayIndexes slot rest indexes
      else do
        let next ← replayIndex indexes entry
        replayIndexes slot rest next

/-- Unlike the state, the indexes count the origin as slot zero. What is left behind is
only warned of. -/
def catchUpIndexes (wal : Wal (LedgerLog O)) (indexes : IndexStore) (target : ChainPoint) :
    Except DomainError IndexStore :=
  if indexes.cursor.any fun point => point.eq target then .ok indexes
  else
    let slot := indexes.cursor.map ChainPoint.slot
    let start := slot.bind wal.locatePoint
    replayIndexes slot (wal.iterLogs start (some target)) indexes

/-- `catch_up_stores`, as far as the indexes are concerned. -/
def catchUpToTip (wal : Wal (LedgerLog O)) (indexes : IndexStore) :
    Except DomainError IndexStore :=
  match wal.findTip with
  | none => .ok indexes
  | some (.origin, _) => .ok indexes
  | some (target, _) => catchUpIndexes wal indexes target

section Batch

variable {works : List (WorkBlock O)} {loaded utxos : UtxoMap O}

/-- The delta of a block in a batch. -/
def WorkBlock.indexDelta (loaded : UtxoMap O) (work : WorkBlock O) : IndexDelta :=
  blockIndexDelta work.point work.block loaded (work.utxoDelta.getD .default)

omit [BlockDecoding O] in
/-- Every block has the delta of the outputs it was computed from. -/
def Resolved (loaded : UtxoMap O) (works : List (WorkBlock O)) : Prop :=
  ∀ work ∈ works, ∃ delta, work.utxoDelta = some delta ∧
    computeApplyDelta work.block loaded = .ok delta

theorem replayIndex_logEntry (resolved : Resolved loaded works) {work : WorkBlock O}
    (member : work ∈ works) (indexes : IndexStore) :
    replayIndex indexes (work.logEntry loaded) =
      .ok (indexes.apply (work.indexDelta loaded)) := by
  rcases resolved work member with ⟨delta, deltaEq, computed⟩
  have caughtUp : computeCatchupIndexes work.point
      ⟨some work.block, work.deltas.flatten.map CardanoDelta.wire, loaded⟩ =
        .ok (work.indexDelta loaded) := by
    simp only [computeCatchupIndexes, computed, ok_bind]
    rw [WorkBlock.indexDelta, deltaEq, Option.getD_some]
  rw [replayIndex, WorkBlock.logEntry, caughtUp, ok_bind]

theorem foldlM_replayIndex (resolved : Resolved loaded works) (indexes : IndexStore) :
    (works.map fun work => work.logEntry loaded).foldlM replayIndex indexes =
      .ok ((works.map (WorkBlock.indexDelta loaded)).foldl IndexStore.apply indexes) := by
  induction works generalizing indexes with
  | nil => rfl
  | cons work rest ih =>
      have later : Resolved loaded rest := by
        intro other member
        exact resolved other (List.mem_cons_of_mem _ member)
      rw [List.map_cons, List.foldlM_cons, replayIndex_logEntry resolved List.mem_cons_self,
        ok_bind, ih later]
      rfl

/-- A part of the deltas of a batch, block by block. -/
theorem flatMap_deltas (resolved : Resolved loaded works) {α : Type}
    {part : UtxoSetDelta O → List α} {same : IndexDelta → List α}
    (alike : ∀ work ∈ works, ∀ delta, work.utxoDelta = some delta →
      computeApplyDelta work.block loaded = .ok delta →
        part delta = same (work.indexDelta loaded)) :
    (works.filterMap WorkBlock.utxoDelta).flatMap part =
      (works.map (WorkBlock.indexDelta loaded)).flatMap same := by
  induction works with
  | nil => rfl
  | cons work rest ih =>
      rcases resolved work List.mem_cons_self with ⟨delta, deltaEq, computed⟩
      rw [List.filterMap_cons_some deltaEq, List.flatMap_cons, List.map_cons, List.flatMap_cons,
        alike work List.mem_cons_self delta deltaEq computed, ih]
      · exact fun other member => resolved other (List.mem_cons_of_mem _ member)
      · exact fun other member => alike other (List.mem_cons_of_mem _ member)

theorem buildIndexDelta_eq_merged {batch : RollBatch O}
    (resolved : Resolved batch.utxos batch.blocks) (point : ChainPoint) :
    batch.buildIndexDelta point =
      .merged point (batch.blocks.map (WorkBlock.indexDelta batch.utxos)) := by
  have produced : ((batch.blocks.filterMap WorkBlock.utxoDelta).flatMap fun delta =>
        withTags delta.producedUtxo ++ withTags delta.recoveredStxi) =
      (batch.blocks.map (WorkBlock.indexDelta batch.utxos)).flatMap
        fun delta => delta.utxo.produced := by
    apply flatMap_deltas resolved
    intro work _ delta deltaEq computed
    rcases bind_eq_ok.mp computed with ⟨_, -, deltaIs⟩
    rcases Except.ok.inj deltaIs with rfl
    rw [WorkBlock.indexDelta, deltaEq]
    exact List.append_nil _
  have consumed : ((batch.blocks.filterMap WorkBlock.utxoDelta).flatMap fun delta =>
        withTags delta.consumedUtxo ++ withTags delta.undoneUtxo) =
      (batch.blocks.map (WorkBlock.indexDelta batch.utxos)).flatMap
        fun delta => delta.utxo.consumed := by
    apply flatMap_deltas resolved
    intro work _ delta deltaEq computed
    rcases bind_eq_ok.mp computed with ⟨_, -, deltaIs⟩
    rcases Except.ok.inj deltaIs with rfl
    rw [WorkBlock.indexDelta, deltaEq]
    exact List.append_nil _
  simp only [RollBatch.buildIndexDelta, IndexDelta.merged, produced, consumed]
  congr 1
  rw [List.flatMap_map, List.map_eq_flatMap]
  rfl

omit [BlockDecoding O] in
/-- What a block consumes, no later block produces. -/
theorem ValidChain.unconsumed {blocks earlier later : List (MultiEraBlock O)}
    {block : MultiEraBlock O} (valid : ValidChain utxos blocks)
    (split : blocks = earlier ++ block :: later) {after : MultiEraBlock O} (isAfter : after ∈ later)
    {txo : TxoRef} (made : (after.produced.get? txo).isSome) : txo ∉ block.consumed := by
  intro consumed
  have distinct := valid.distinct
  rw [split] at distinct
  rcases List.pairwise_append.mp distinct with ⟨-, fromBlock, across⟩
  have unmade : ∀ other ∈ earlier ++ [block], other.produced.get? txo = none := by
    intro other member
    by_contra isMade
    have madeEarlier := Option.isSome_iff_ne_none.mpr isMade
    have notLater : after.produced.get? txo = none := by
      rcases List.mem_append.mp member with isEarlier | isBlock
      · exact across other isEarlier after (List.mem_cons_of_mem _ isAfter) txo madeEarlier
      · rw [List.mem_singleton.mp isBlock] at madeEarlier
        exact (List.pairwise_cons.mp fromBlock).1 after isAfter txo madeEarlier
    rw [notLater] at made
    cases made
  have absent : utxos.get? txo = none := by
    apply valid.fresh after _ txo made
    rw [split]
    exact List.mem_append_right _ (List.mem_cons_of_mem _ isAfter)
  have available := valid.available earlier block later split txo consumed
    (unmade block (List.mem_append_right _ (List.mem_singleton.mpr rfl)))
  rw [ValidChain.advanceAll_eq_none absent
    fun other member => unmade other (List.mem_append_left _ member)] at available
  cases available

omit [BlockDecoding O] in
theorem ValidChain.pairwise_unconsumed {blocks : List (MultiEraBlock O)}
    (valid : ValidChain utxos blocks) :
    blocks.Pairwise fun earlier later =>
      ∀ txo, (later.produced.get? txo).isSome → txo ∉ earlier.consumed := by
  apply List.pairwise_iff_getElem.mpr
  intro first second isFirst isSecond inOrder txo made
  have split : blocks = blocks.take first ++ blocks[first] :: blocks.drop (first + 1) := by
    rw [← List.drop_eq_getElem_cons isFirst, List.take_append_drop]
  have isAfter : blocks[second] ∈ blocks.drop (first + 1) := by
    apply List.mem_drop_iff_getElem.mpr
    refine ⟨second - (first + 1), by omega, ?_⟩
    congr 1
    omega
  exact valid.unconsumed split isAfter made

/-- No block of a valid batch produces what an earlier one consumed. -/
theorem separate_deltas (resolved : Resolved loaded works)
    (valid : ValidChain utxos (works.map WorkBlock.block)) :
    (works.map (WorkBlock.indexDelta loaded)).Pairwise fun earlier later =>
      ∀ entry ∈ IndexStore.tagged later.utxo.produced,
        entry ∉ IndexStore.tagged earlier.utxo.consumed := by
  rw [List.pairwise_map]
  apply (List.pairwise_map.mp valid.pairwise_unconsumed).imp_of_mem
  intro earlier later isEarlier isLater unconsumed entry produced consumed
  rcases resolved earlier isEarlier with ⟨earlierDelta, earlierEq, earlierComputed⟩
  rcases resolved later isLater with ⟨laterDelta, laterEq, laterComputed⟩
  have producedLive : Live later.block.produced entry := by
    rw [← mem_tagged_withTags, ← produced_of_computed laterComputed]
    simpa [WorkBlock.indexDelta, laterEq, blockIndexDelta] using produced
  have consumedLive : Live earlierDelta.consumedUtxo entry := by
    rw [← mem_tagged_withTags]
    simpa [WorkBlock.indexDelta, earlierEq, blockIndexDelta] using consumed
  rcases producedLive with ⟨body, madeEq, -⟩
  rcases consumedLive with ⟨spentBody, spentEq, -⟩
  apply unconsumed entry.2
  · rw [madeEq]
    rfl
  · by_contra unspent
    rw [get?_consumed_of_computed earlierComputed, if_neg unspent] at spentEq
    cases spentEq

/-- A batch indexes its blocks as its log entries do, one after the other. -/
theorem commitIndexes_replays {batch : RollBatch O} {indexes after : IndexStore}
    (resolved : Resolved batch.utxos batch.blocks)
    (valid : ValidChain utxos (batch.blocks.map WorkBlock.block))
    (done : batch.commitIndexes indexes = .ok after) :
    (batch.blocks.map fun work => work.logEntry batch.utxos).foldlM replayIndex indexes =
      .ok after := by
  rw [foldlM_replayIndex resolved]
  cases lastEq : batch.blocks.getLast? with
  | none => simp [RollBatch.commitIndexes, lastEq] at done
  | some last =>
      rcases List.getLast?_eq_some_iff.mp lastEq with ⟨init, blocksEq⟩
      simp only [RollBatch.commitIndexes, lastEq, Except.ok.injEq] at done
      have separate := separate_deltas resolved valid
      rw [← done, buildIndexDelta_eq_merged resolved]
      rw [blocksEq, List.map_append, List.map_singleton] at separate ⊢
      rw [IndexStore.foldl_apply_eq_merged indexes separate]
      rfl

end Batch

section Loop

variable {slot : Option ℕ} {indexes : IndexStore}

theorem replayIndexes_passed {passed rest : List (ChainPoint × LedgerLog O)}
    (allPassed : ∀ entry ∈ passed, isPassed slot entry = true) :
    replayIndexes slot (passed ++ rest) indexes = replayIndexes slot rest indexes := by
  induction passed with
  | nil => rfl
  | cons entry later ih =>
      rw [List.cons_append, replayIndexes, if_pos (allPassed entry List.mem_cons_self)]
      apply ih
      intro other member
      exact allPassed other (List.mem_cons_of_mem entry member)

theorem replayIndexes_unpassed {entries : List (ChainPoint × LedgerLog O)}
    (unpassed : ∀ entry ∈ entries, isPassed slot entry = false) :
    replayIndexes slot entries indexes = entries.foldlM replayIndex indexes := by
  induction entries generalizing indexes with
  | nil => rfl
  | cons entry rest ih =>
      have unpassedRest : ∀ later ∈ rest, isPassed slot later = false := by
        intro later member
        exact unpassed later (List.mem_cons_of_mem entry member)
      rw [replayIndexes, unpassed entry List.mem_cons_self, if_neg Bool.false_ne_true,
        List.foldlM_cons]
      congr 1
      funext next
      exact ih unpassedRest

end Loop

namespace IndexedStores

open LedgerStores

variable [NonceCrypto]

/-- A unit with all it writes to the indexes: the boundary into Allegra deletes the AVVM
outputs that were never redeemed. -/
inductive IndexedUnit (O : Type) where
  | roll (batch : WorkBatch (WorkBlock O))
  | boundary (effect : OrderedMap NsKey CardanoEntity → UtxoMap O →
      Except DomainError (OrderedMap NsKey CardanoEntity × UtxoMap O)) (estart : Option ℕ)
      (reclaimed : UtxoMap O)

omit [NonceCrypto] in
/-- The deletion of `commit_finalize`, under the cursor the indexes have. -/
def deleteReclaimed (indexes : IndexStore) (reclaimed : UtxoMap O) : IndexStore :=
  if reclaimed.entries.isEmpty then indexes
  else indexes.apply (indexDeltaFromUtxoDelta (indexes.cursor.getD .origin)
    { UtxoSetDelta.default with consumedUtxo := reclaimed })

def execute (stores : IndexedStores O) : IndexedUnit O → Except DomainError (IndexedStores O)
  | .roll batch => stores.roll batch
  | .boundary effect estart reclaimed => do
      let ledger ← stores.ledger.execute (.boundary effect estart)
      .ok ⟨ledger, deleteReclaimed stores.indexes reclaimed⟩

def executeAll (stores : IndexedStores O) :
    List (IndexedUnit O) → Except DomainError (IndexedStores O)
  | [] => .ok stores
  | unit :: rest => do
      let next ← stores.execute unit
      next.executeAll rest

/-- The blocks a run rolls. -/
def rolledBlocks (units : List (IndexedUnit O)) : List (WorkBlock O) :=
  units.flatMap fun unit =>
    match unit with
    | .roll batch => batch.blocks
    | .boundary _ _ _ => []

/-- What the log can tell of a unit to indexes with a cursor: blocks of later slots, and
a boundary that deletes nothing. -/
def Repeatable (cursor : Option ChainPoint) : IndexedUnit O → Prop
  | .roll batch => ∀ point ∈ cursor, ∀ work ∈ batch.blocks, point.slot < work.block.slot
  | .boundary _ _ reclaimed => reclaimed.entries = []

/-- Batches in the order of the log. -/
def InLogOrder (stores : IndexedStores O) : IndexedUnit O → Prop
  | .roll batch => Ordered stores.ledger batch
  | .boundary _ _ _ => True

/-- Batches in the order of the log, of blocks that were validated. -/
def Indexable (stores : IndexedStores O) : IndexedUnit O → Prop
  | .roll batch => Ordered stores.ledger batch ∧
      ValidChain stores.ledger.utxos (batch.blocks.map WorkBlock.block)
  | .boundary _ _ _ => True

/-- A condition on every unit of a run, at the stores it is executed on. -/
def EachUnit (condition : IndexedStores O → IndexedUnit O → Prop) :
    IndexedStores O → List (IndexedUnit O) → Prop
  | _, [] => True
  | stores, unit :: rest =>
      condition stores unit ∧
        ∀ next, stores.execute unit = .ok next → EachUnit condition next rest

omit [NonceCrypto] in
/-- Everything in the log has been indexed. -/
structure IndexSettled (stores : IndexedStores O) : Prop where
  started : stores.indexes.cursor.isSome
  applied : ∀ point ∈ stores.indexes.cursor, ∀ entry ∈ stores.ledger.wal.entries,
    (ofLex entry.1).1 ≤ point.slot

omit [NonceCrypto] in
/-- The part of the log that some blocks have added, with the records it leads to. -/
structure IndexLogged (stores after : IndexedStores O) (works : List (WorkBlock O))
    (entries : List (ChainPoint × LedgerLog O)) : Prop where
  walEq : after.ledger.wal.entries = stores.ledger.wal.entries ++
    entries.map fun entry => (entry.1.intoBytes, entry.2)
  decoded : ∀ entry ∈ entries, ChainPoint.fromBytes entry.1.intoBytes = entry.1
  points : entries.map Prod.fst = works.map WorkBlock.point
  blocks : ∀ entry ∈ entries, entry.2.block.isSome
  replays : entries.foldlM replayIndex stores.indexes = .ok after.indexes

section Run

variable {stores middle after : IndexedStores O} {works later : List (WorkBlock O)}
  {entries : List (ChainPoint × LedgerLog O)}

omit [NonceCrypto] in
theorem IndexLogged.refl {ledger : LedgerStores O} (walEq : ledger.wal = stores.ledger.wal) :
    IndexLogged stores { stores with ledger := ledger } [] [] := by
  refine ⟨?_, by simp, rfl, by simp, rfl⟩
  rw [walEq]
  simp

omit [NonceCrypto] in
theorem IndexLogged.append {more : List (ChainPoint × LedgerLog O)}
    (first : IndexLogged stores middle works entries)
    (second : IndexLogged middle after later more) :
    IndexLogged stores after (works ++ later) (entries ++ more) := by
  refine ⟨?_, ?_, ?_, ?_, ?_⟩
  · rw [second.walEq, first.walEq, List.map_append, List.append_assoc]
  · intro entry member
    rcases List.mem_append.mp member with isFirst | isSecond
    · exact first.decoded entry isFirst
    · exact second.decoded entry isSecond
  · rw [List.map_append, List.map_append, first.points, second.points]
  · intro entry member
    rcases List.mem_append.mp member with isFirst | isSecond
    · exact first.blocks entry isFirst
    · exact second.blocks entry isSecond
  · rw [List.foldlM_append, first.replays, ok_bind, second.replays]

theorem indexLogged_roll {batch : WorkBatch (WorkBlock O)}
    (ordered : Ordered stores.ledger batch)
    (valid : ValidChain stores.ledger.utxos (batch.blocks.map WorkBlock.block))
    (done : stores.roll batch = .ok after) :
    ∃ entries, IndexLogged stores after batch.blocks entries := by
  rcases bind_eq_ok.mp done with ⟨⟨computed, logged⟩, loggedDone, restDone⟩
  rcases bind_eq_ok.mp restDone with ⟨committed, committedEq, indexDone⟩
  rcases bind_eq_ok.mp indexDone with ⟨indexes, indexesEq, afterEq⟩
  rcases Except.ok.inj afterEq with rfl
  have isLogged := ordered.logged loggedDone
  rcases rollLogged_spec loggedDone with ⟨loggedEq, pairs, trace⟩
  rw [ordered.sortBySlot_eq] at trace
  rcases trace.commitState_spec loggedEq committedEq with ⟨-, -, walEq, -⟩
  have validRolled : ValidChain stores.ledger.utxos (computed.blocks.map WorkBlock.block) := by
    rw [trace.map_block]
    exact valid
  refine ⟨computed.blocks.map fun work => work.logEntry computed.utxos, ?_,
    isLogged.decoded ordered, isLogged.points, ?_, ?_⟩
  · rw [walEq]
    exact isLogged.walEq
  · intro entry member
    rcases List.mem_map.mp member with ⟨work, -, rfl⟩
    rfl
  · exact commitIndexes_replays trace.resolved_computed validRolled indexesEq

theorem indexLogged_execute {unit : IndexedUnit O} {cursor : Option ChainPoint}
    (indexable : Indexable stores unit) (repeatable : Repeatable cursor unit)
    (done : stores.execute unit = .ok after) :
    ∃ entries, IndexLogged stores after (rolledBlocks [unit]) entries := by
  cases unit with
  | roll batch =>
      rw [rolledBlocks, List.flatMap_singleton]
      exact indexLogged_roll indexable.1 indexable.2 done
  | boundary effect estart reclaimed =>
      rcases bind_eq_ok.mp done with ⟨ledger, ledgerEq, afterEq⟩
      rcases Except.ok.inj afterEq with rfl
      rcases bind_eq_ok.mp ledgerEq with ⟨⟨entities, utxos⟩, -, ledgerIs⟩
      rcases Except.ok.inj ledgerIs with rfl
      have nothing : reclaimed.entries = [] := repeatable
      rw [deleteReclaimed, nothing, List.isEmpty_nil, if_pos rfl]
      exact ⟨[], IndexLogged.refl rfl⟩

/-- A run that deletes nothing indexes its blocks as its log entries do. -/
theorem indexLogged_executeAll {units : List (IndexedUnit O)} {cursor : Option ChainPoint}
    (indexable : EachUnit Indexable stores units)
    (repeatable : ∀ unit ∈ units, Repeatable cursor unit)
    (done : stores.executeAll units = .ok after) :
    ∃ entries, IndexLogged stores after (rolledBlocks units) entries := by
  induction units generalizing stores with
  | nil =>
      rcases Except.ok.inj done with rfl
      exact ⟨[], IndexLogged.refl rfl⟩
  | cons unit rest ih =>
      rcases bind_eq_ok.mp done with ⟨next, nextEq, restDone⟩
      have repeatableRest : ∀ unit ∈ rest, Repeatable cursor unit := by
        intro other member
        exact repeatable other (List.mem_cons_of_mem unit member)
      rcases indexLogged_execute indexable.1 (repeatable unit List.mem_cons_self) nextEq with
        ⟨first, logged⟩
      rcases ih (indexable.2 next nextEq) repeatableRest restDone with ⟨second, loggedRest⟩
      have split : rolledBlocks (unit :: rest) = rolledBlocks [unit] ++ rolledBlocks rest := by
        simp only [rolledBlocks, List.flatMap_cons, List.flatMap_nil, List.append_nil]
      rw [split]
      exact ⟨first ++ second, logged.append loggedRest⟩

theorem settled_roll {batch : WorkBatch (WorkBlock O)} (ordered : Ordered stores.ledger batch)
    (done : stores.roll batch = .ok after) : IndexSettled after := by
  rcases bind_eq_ok.mp done with ⟨⟨computed, logged⟩, loggedDone, restDone⟩
  rcases bind_eq_ok.mp restDone with ⟨committed, committedEq, indexDone⟩
  rcases bind_eq_ok.mp indexDone with ⟨indexes, indexesEq, afterEq⟩
  rcases Except.ok.inj afterEq with rfl
  have isLogged := ordered.logged loggedDone
  rcases rollLogged_spec loggedDone with ⟨loggedEq, pairs, trace⟩
  rw [ordered.sortBySlot_eq] at trace
  rcases trace.commitState_spec loggedEq committedEq with ⟨-, -, walEq, last, lastEq, -⟩
  have isLast : last ∈ batch.blocks := List.mem_of_getLast? lastEq
  have lastBlock : computed.blocks.getLast?.map WorkBlock.point = some last.point := by
    have pointEq := congrArg (Option.map Block.point)
      (congrArg List.getLast? trace.map_block)
    rw [List.getLast?_map, List.getLast?_map, lastEq, Option.map_map] at pointEq
    exact pointEq
  rcases Option.map_eq_some_iff.mp lastBlock with ⟨rolled, rolledEq, pointEq⟩
  have cursorEq : indexes.cursor = some last.point := by
    simp only [RollBatch.commitIndexes, rolledEq, Except.ok.injEq] at indexesEq
    rw [← indexesEq, ← pointEq]
    rfl
  refine ⟨by rw [cursorEq]; rfl, ?_⟩
  intro point pointIs entry member
  rw [cursorEq] at pointIs
  rw [← Option.some.inj pointIs]
  apply Prod.Lex.monotone_fst entry.1 last.point.intoBytes
  rw [walEq, isLogged.walEq] at member
  rcases List.mem_append.mp member with isOld | isNew
  · exact le_of_lt (ordered.above entry isOld last isLast)
  · rcases List.mem_map.mp isNew with ⟨log, isLog, rfl⟩
    rcases isLogged.exists_work isLog with ⟨work, isWork, workPoint⟩
    rw [workPoint]
    exact ordered.le_last lastEq isWork

omit [NonceCrypto] in
/-- A deletion changes what the indexes hold and not how far they are. -/
theorem cursor_deleteReclaimed {indexes : IndexStore} (started : indexes.cursor.isSome)
    (reclaimed : UtxoMap O) :
    (deleteReclaimed indexes reclaimed).cursor = indexes.cursor := by
  rcases Option.isSome_iff_exists.mp started with ⟨point, pointEq⟩
  rw [deleteReclaimed]
  split_ifs
  · rfl
  · rw [pointEq]
    rfl

theorem settled_executeAll {units : List (IndexedUnit O)} (settled : IndexSettled stores)
    (ordered : EachUnit InLogOrder stores units) (done : stores.executeAll units = .ok after) :
    IndexSettled after := by
  induction units generalizing stores with
  | nil =>
      rcases Except.ok.inj done with rfl
      exact settled
  | cons unit later ih =>
      rcases bind_eq_ok.mp done with ⟨next, nextEq, laterDone⟩
      apply ih _ (ordered.2 next nextEq) laterDone
      cases unit with
      | roll batch => exact settled_roll ordered.1 nextEq
      | boundary effect estart reclaimed =>
          rcases bind_eq_ok.mp nextEq with ⟨ledger, ledgerEq, nextIs⟩
          rcases Except.ok.inj nextIs with rfl
          rcases bind_eq_ok.mp ledgerEq with ⟨⟨entities, utxos⟩, -, ledgerIs⟩
          rcases Except.ok.inj ledgerIs with rfl
          have cursorEq := cursor_deleteReclaimed settled.started reclaimed
          refine ⟨by rw [cursorEq]; exact settled.started, ?_⟩
          rw [cursorEq]
          exact settled.applied

end Run

section CatchUp

variable {stores after : IndexedStores O} {works : List (WorkBlock O)}
  {entries : List (ChainPoint × LedgerLog O)} {point : ChainPoint}

omit [NonceCrypto]

theorem IndexLogged.exists_work (logged : IndexLogged stores after works entries)
    {entry : ChainPoint × LedgerLog O} (member : entry ∈ entries) :
    ∃ work ∈ works, entry.1 = work.point := by
  have isPoint : entry.1 ∈ works.map WorkBlock.point := by
    rw [← logged.points]
    exact List.mem_map_of_mem member
  rcases List.mem_map.mp isPoint with ⟨work, isWork, pointEq⟩
  exact ⟨work, isWork, pointEq.symm⟩

/-- The last entry of a log is its highest. -/
theorem IndexLogged.le_last (logged : IndexLogged stores after works entries)
    {last entry : ChainPoint × LedgerLog O} (lastEq : entries.getLast? = some last)
    (member : entry ∈ entries) : entry.1.intoBytes ≤ last.1.intoBytes := by
  have sorted := after.ledger.wal.sorted
  rw [logged.walEq] at sorted
  have increasing := List.pairwise_map.mp (List.pairwise_append.mp sorted).2.1
  rcases List.getLast?_eq_some_iff.mp lastEq with ⟨init, entriesEq⟩
  rw [entriesEq] at increasing member
  rcases List.mem_append.mp member with isInit | isLast
  · exact le_of_lt ((List.pairwise_append.mp increasing).2.2 entry isInit last (by simp))
  · rw [List.mem_singleton.mp isLast]

/-- Catching up with the log from the records some blocks were added to, when they all are
in later slots than the cursor. -/
theorem catchUpIndexes_eq (settled : IndexSettled stores)
    (logged : IndexLogged stores after works entries)
    (past : ∀ point ∈ stores.indexes.cursor, ∀ work ∈ works, point.slot < work.block.slot)
    {target : ChainPoint}
    (upTo : ∀ entry ∈ entries, entry.1.intoBytes ≤ target.intoBytes)
    (missed : entries ≠ [] → ∀ point ∈ stores.indexes.cursor, point.eq target = false) :
    catchUpIndexes after.ledger.wal stores.indexes target = .ok after.indexes := by
  rcases Option.isSome_iff_exists.mp settled.started with ⟨point, pointEq⟩
  rw [catchUpIndexes, pointEq, Option.any_some]
  split_ifs with atTarget
  · have noEntries : entries = [] := by
      by_contra added
      rw [missed added point pointEq] at atTarget
      cases atTarget
    have replays := logged.replays
    rw [noEntries] at replays
    exact replays
  · have fromStart : ∀ start ∈ (some point.slot).bind after.ledger.wal.locatePoint,
        ∀ entry ∈ entries, start.intoBytes ≤ entry.1.intoBytes := by
      intro start located entry member
      have isEntry : (entry.1.intoBytes, entry.2) ∈ after.ledger.wal.entries := by
        rw [logged.walEq]
        exact List.mem_append_right _ (List.mem_map.mpr ⟨entry, member, rfl⟩)
      apply Wal.locatePoint_le located isEntry
      rcases logged.exists_work member with ⟨work, isWork, workPoint⟩
      rw [workPoint]
      exact past point pointEq work isWork
    rcases Wal.iterLogs_appended logged.walEq logged.decoded fromStart upTo with
      ⟨older, logsEq, olderIs⟩
    have passed : ∀ entry ∈ older, isPassed (some point.slot) entry = true := by
      intro entry member
      rcases olderIs entry member with ⟨old, isOld, rfl⟩
      have applied := settled.applied point pointEq old isOld
      rw [← ChainPoint.slot_fromBytes] at applied
      simp [isPassed, applied]
    have unpassed : ∀ entry ∈ entries, isPassed (some point.slot) entry = false := by
      intro entry member
      rcases logged.exists_work member with ⟨work, isWork, workPoint⟩
      have isPast := past point pointEq work isWork
      have hasBlock := logged.blocks entry member
      simp only [isPassed, Option.any_some, workPoint, Bool.or_eq_false_iff,
        decide_eq_false_iff_not, not_le, Option.isNone_eq_false_iff]
      exact ⟨isPast, hasBlock⟩
    simp only [Option.map_some, logsEq]
    rw [replayIndexes_passed passed, replayIndexes_unpassed unpassed, logged.replays]

theorem catchUpToTip_eq (settled : IndexSettled stores)
    (logged : IndexLogged stores after works entries)
    (past : ∀ point ∈ stores.indexes.cursor, ∀ work ∈ works, point.slot < work.block.slot) :
    catchUpToTip after.ledger.wal stores.indexes = .ok after.indexes := by
  cases lastEq : entries.getLast? with
  | none =>
      have noEntries := List.getLast?_eq_none_iff.mp lastEq
      have replays := logged.replays
      rw [noEntries] at replays
      have caughtUp : ∀ target, catchUpIndexes after.ledger.wal stores.indexes target =
          .ok after.indexes := by
        intro target
        apply catchUpIndexes_eq settled logged past
        · simp [noEntries]
        · exact fun added => absurd noEntries added
      unfold catchUpToTip
      split
      · exact replays
      · exact replays
      · exact caughtUp _
  | some last =>
      have tipEq := Wal.findTip_appended logged.walEq logged.decoded lastEq
      have isEntry := List.mem_of_getLast? lastEq
      rcases logged.exists_work isEntry with ⟨work, isWork, workPoint⟩
      have caughtUp : catchUpIndexes after.ledger.wal stores.indexes last.1 =
          .ok after.indexes := by
        apply catchUpIndexes_eq settled logged past
        · exact fun entry member => logged.le_last lastEq member
        · intro _ point pointEq
          have isPast := past point pointEq work isWork
          rw [workPoint, Bool.eq_false_iff]
          intro same
          rw [ChainPoint.eq_of_eq_specific same] at isPast
          exact lt_irrefl _ isPast
      rcases last with ⟨target, log⟩
      rw [catchUpToTip, tipEq]
      simp only at workPoint caughtUp
      subst workPoint
      exact caughtUp

end CatchUp

section Runs

/-- In every run, the records of a cursor that the log can tell all later units to become
those of the run. -/
theorem catch_up_agrees {start middle final : IndexedStores O}
    {first second : List (IndexedUnit O)} (settled : IndexSettled start)
    (ordered : EachUnit InLogOrder start first) (ran : start.executeAll first = .ok middle)
    (indexable : EachUnit Indexable middle second)
    (ranOn : middle.executeAll second = .ok final)
    (repeatable : ∀ unit ∈ second, Repeatable middle.indexes.cursor unit) :
    catchUpToTip final.ledger.wal middle.indexes = .ok final.indexes := by
  have settledHere := settled_executeAll settled ordered ran
  rcases indexLogged_executeAll indexable repeatable ranOn with ⟨entries, logged⟩
  apply catchUpToTip_eq settledHere logged
  intro point pointEq work isWork
  rcases List.mem_flatMap.mp isWork with ⟨unit, isUnit, inUnit⟩
  cases unit with
  | roll batch => exact repeatable (.roll batch) isUnit point pointEq work inUnit
  | boundary effect estart reclaimed => cases inUnit

end Runs

section Restarted

omit [NonceCrypto]

theorem executeAll_indexedBoundary :
    letI := NonceCrypto.still
    letI := BlockDecoding.byron
    indexedBoundary.executeAll [.roll (.forSingleBlock spendingBlock)] = .ok indexedSpending :=
  rollAll_indexedBoundary

/-- The stores before the boundary block, the output of genesis in the filter tags. -/
def indexedOutput : IndexedStores ℕ where
  ledger := oneOutput
  indexes :=
    { cursor := some .origin
      utxoTags := {(⟨.address, [100]⟩, toLex (1, 0))}
      archiveTags := ∅
      exact := ∅ }

theorem executeAll_indexedOutput :
    letI := NonceCrypto.still
    letI := BlockDecoding.byron
    indexedOutput.executeAll [.roll (.forSingleBlock boundaryBlock)] = .ok indexedBoundary := by
  let _ := NonceCrypto.still
  let _ := BlockDecoding.byron
  rw [executeAll, execute, roll, rollLogged, RollBatch.load, WorkBatch.blocks_forSingleBlock,
    sortBySlot_singleton]
  rfl

/-- The boundary block is in the older records, the spending block is to be indexed again. -/
theorem catch_up_agrees_spending :
    letI := NonceCrypto.still
    letI := BlockDecoding.byron
    indexedOutput.executeAll [.roll (.forSingleBlock boundaryBlock)] = .ok indexedBoundary ∧
      indexedBoundary.executeAll [.roll (.forSingleBlock spendingBlock)] = .ok indexedSpending ∧
      catchUpToTip indexedSpending.ledger.wal indexedBoundary.indexes =
        .ok indexedSpending.indexes := by
  let _ := NonceCrypto.still
  let _ := BlockDecoding.byron
  have settled : IndexSettled indexedOutput := by
    refine ⟨rfl, ?_⟩
    intro point cursorEq entry member
    rcases Option.some.inj cursorEq with rfl
    rcases List.mem_singleton.mp member with rfl
    exact Nat.zero_le _
  have ordered : EachUnit InLogOrder indexedOutput [.roll (.forSingleBlock boundaryBlock)] :=
    ⟨rollable_boundaryBlock.toOrdered, fun _ _ => trivial⟩
  have undoable := undoable_spendingBlock
  have indexable : EachUnit Indexable indexedBoundary
      [.roll (.forSingleBlock spendingBlock)] :=
    ⟨⟨undoable.toOrdered, undoable.valid⟩, fun _ _ => trivial⟩
  refine ⟨executeAll_indexedOutput, executeAll_indexedBoundary, ?_⟩
  apply catch_up_agrees settled ordered executeAll_indexedOutput indexable
    executeAll_indexedBoundary
  intro unit isUnit
  rcases List.mem_singleton.mp isUnit with rfl
  intro point cursorEq work isWork
  rcases Option.some.inj cursorEq with rfl
  rcases List.mem_singleton.mp isWork with rfl
  decide

/-- The stores genesis leaves. -/
def indexedGenesis : IndexedStores ℕ :=
  letI := BlockDecoding.byron
  ⟨oneOutput, IndexStore.default.apply (genesisIndexDelta oneOutput.utxos)⟩

/-- The boundary block that a Byron chain starts with. -/
def slotZeroBlock : WorkBlock ℕ := ⟨⟨0, 9, none, []⟩, .default, none⟩

def indexedSlotZero : IndexedStores ℕ where
  ledger :=
    { oneOutput with
      cursor := some (.specific 0 9)
      wal := oneOutput.wal.appendEntries [(.specific 0 9, ⟨some slotZeroBlock.block, [], ∅⟩)] }
  indexes :=
    letI := BlockDecoding.byron
    indexedGenesis.indexes.apply ⟨.specific 0 9, ⟨[], []⟩, [⟨0, 9, some 0, [], []⟩]⟩

/-- The first block is in the slot the origin counts as, and is not indexed again. -/
theorem slot_zero_not_indexed_again :
    letI := NonceCrypto.still
    letI := BlockDecoding.byron
    indexedGenesis.executeAll [.roll (.forSingleBlock slotZeroBlock)] = .ok indexedSlotZero ∧
      indexedSlotZero.indexes.exact.get? (toLex (.blockHash, 9)) = some 0 ∧
      catchUpToTip indexedSlotZero.ledger.wal indexedGenesis.indexes =
        .ok indexedGenesis.indexes ∧
      catchUpToTip indexedSlotZero.ledger.wal indexedGenesis.indexes ≠
        .ok indexedSlotZero.indexes := by
  let _ := NonceCrypto.still
  let _ := BlockDecoding.byron
  have rolled : indexedGenesis.executeAll [.roll (.forSingleBlock slotZeroBlock)] =
      .ok indexedSlotZero := by
    rw [executeAll, execute, roll, rollLogged, RollBatch.load, WorkBatch.blocks_forSingleBlock,
      sortBySlot_singleton]
    rfl
  have unchanged : catchUpToTip indexedSlotZero.ledger.wal indexedGenesis.indexes =
      .ok indexedGenesis.indexes := rfl
  refine ⟨rolled, rfl, unchanged, ?_⟩
  rw [unchanged]
  intro same
  have recorded := congrArg (fun indexes => indexes.exact.get? (toLex (.blockHash, 9)))
    (Except.ok.inj same)
  cases recorded

end Restarted

end IndexedStores

end Dolos
