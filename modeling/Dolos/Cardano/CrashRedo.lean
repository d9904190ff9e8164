import Dolos.Cardano.CrashStores
import Dolos.Lib.Redo

/-!
# What a restart does again

Deltas of the indexes that were applied may be applied again, an archive takes the blocks of
later slots at its end, and the log entries of a batch lead the state along the path of the
batch, one entry at a time and both ways.
-/

namespace Dolos

open Outcome Keyed EntityDelta CardanoDelta LedgerStores ArchiveStore Writes

variable {O : Type}

section Indexes

variable [KeyHashing]

namespace IndexStore

theorem redoable_utxoTags (delta : IndexDelta) :
    Redoable (fun (store : IndexStore) entry => entry ∈ store.utxoTags) (apply · delta) := by
  intro entry
  by_cases consumed : entry ∈ tagged delta.utxo.consumed
  · left
    refine ⟨False, ?_⟩
    intro store
    exact propext (mem_utxoTags_apply.trans (by tauto))
  · by_cases produced : entry ∈ tagged delta.utxo.produced
    · left
      refine ⟨True, ?_⟩
      intro store
      exact propext (mem_utxoTags_apply.trans (by tauto))
    · right
      intro store
      exact propext (mem_utxoTags_apply.trans (by tauto))

theorem redoable_archiveTags (delta : IndexDelta) :
    Redoable (fun (store : IndexStore) tag => tag ∈ store.archiveTags) (apply · delta) := by
  have inserted : ∀ block : ArchiveIndexDelta,
      Redoable (fun (tags : Finset ArchiveTag) tag => tag ∈ tags) (insertArchiveTags · block) := by
    intro block tag
    have member : ∀ tags, tag ∈ insertArchiveTags tags block ↔
        tag ∈ block.archiveTags ∨ tag ∈ tags := fun _ => mem_insertEach
    by_cases listed : tag ∈ block.archiveTags
    · left
      refine ⟨True, ?_⟩
      intro tags
      exact propext ((member tags).trans (by tauto))
    · right
      intro tags
      exact propext ((member tags).trans (by tauto))
  have all : Redoable (fun (tags : Finset ArchiveTag) tag => tag ∈ tags)
      fun tags => delta.archive.foldl insertArchiveTags tags :=
    Redoable.foldl fun block _ => inserted block
  intro tag
  rcases all tag with ⟨value, isSet⟩ | kept
  · exact Or.inl ⟨value, fun store => isSet store.archiveTags⟩
  · exact Or.inr fun store => kept store.archiveTags

theorem redoable_exact (delta : IndexDelta) :
    Redoable (fun (store : IndexStore) key => store.exact.get? key) (apply · delta) := by
  have inserted : ∀ block : ArchiveIndexDelta,
      Redoable (fun (exact : OrderedMap ExactKey ℕ) key => exact.get? key)
        (insertExact · block) := by
    intro block key
    by_cases listed : key ∈ block.exactKeys
    · left
      refine ⟨some block.slot, ?_⟩
      intro exact
      apply OrderedMap.get?_insertAll_of_mem
      · exact List.mem_map.mpr ⟨key, listed, rfl⟩
      · intro slot member
        rcases List.mem_map.mp member with ⟨other, -, same⟩
        exact (congrArg Prod.snd same).symm
    · right
      intro exact
      apply OrderedMap.get?_insertAll_of_notMem
      rw [List.map_map]
      intro member
      rcases List.mem_map.mp member with ⟨other, isOther, rfl⟩
      exact listed isOther
  have all : Redoable (fun (exact : OrderedMap ExactKey ℕ) key => exact.get? key)
      fun exact => delta.archive.foldl insertExact exact :=
    Redoable.foldl fun block _ => inserted block
  intro key
  rcases all key with ⟨value, isSet⟩ | kept
  · exact Or.inl ⟨value, fun store => isSet store.exact⟩
  · exact Or.inr fun store => kept store.exact

/-- Deltas that were applied may be applied again, wherever the cursor was put meanwhile. -/
theorem foldl_apply_again {deltas : List IndexDelta} (nonempty : deltas ≠ [])
    (store : IndexStore) (cursor : Option ChainPoint) :
    deltas.foldl apply { deltas.foldl apply store with cursor := cursor } =
      deltas.foldl apply store := by
  apply IndexStore.ext
  · rcases List.eq_nil_or_concat deltas with rfl | ⟨init, last, rfl⟩
    · exact absurd rfl nonempty
    · simp only [List.concat_eq_append, List.foldl_append, List.foldl_cons, List.foldl_nil]
      rfl
  · have redoable : Redoable (fun (store : IndexStore) entry => entry ∈ store.utxoTags)
        fun store => deltas.foldl apply store :=
      Redoable.foldl fun delta _ => redoable_utxoTags delta
    have again := redoable.again store { deltas.foldl apply store with cursor := cursor } rfl
    ext entry
    exact iff_of_eq (congrFun again entry)
  · have redoable : Redoable (fun (store : IndexStore) tag => tag ∈ store.archiveTags)
        fun store => deltas.foldl apply store :=
      Redoable.foldl fun delta _ => redoable_archiveTags delta
    have again := redoable.again store { deltas.foldl apply store with cursor := cursor } rfl
    ext tag
    exact iff_of_eq (congrFun again tag)
  · have redoable : Redoable (fun (store : IndexStore) key => store.exact.get? key)
        fun store => deltas.foldl apply store :=
      Redoable.foldl fun delta _ => redoable_exact delta
    have again := redoable.again store { deltas.foldl apply store with cursor := cursor } rfl
    apply OrderedMap.ext
    intro key
    exact congrFun again key

end IndexStore

end Indexes

section Replays

variable [BlockDecoding O]

theorem foldlM_replayIndex_eq_ok {entries : List (ChainPoint × LedgerLog O)}
    {before after : IndexStore} :
    entries.foldlM replayIndex before = .ok after ↔
      ∃ deltas, List.Forall₂ (fun entry delta =>
          computeCatchupIndexes entry.1 entry.2 = .ok delta) entries deltas ∧
        after = deltas.foldl IndexStore.apply before := by
  induction entries generalizing before with
  | nil =>
      constructor
      · intro done
        exact ⟨[], .nil, (Except.ok.inj done).symm⟩
      · rintro ⟨deltas, matched, rfl⟩
        cases matched
        rfl
  | cons entry rest ih =>
      rw [List.foldlM_cons, bind_eq_ok]
      constructor
      · rintro ⟨middle, one, others⟩
        rcases bind_eq_ok.mp one with ⟨delta, computed, middleEq⟩
        rcases Except.ok.inj middleEq with rfl
        rcases ih.mp others with ⟨deltas, matched, rfl⟩
        exact ⟨delta :: deltas, .cons computed matched, rfl⟩
      · rintro ⟨deltas, matched, rfl⟩
        cases matched with
        | cons computed later =>
            refine ⟨_, ?_, ih.mpr ⟨_, later, rfl⟩⟩
            rw [replayIndex, computed, ok_bind]

/-- Entries that were indexed may be indexed again. -/
theorem foldlM_replayIndex_again {entries : List (ChainPoint × LedgerLog O)}
    (nonempty : entries ≠ []) {before after : IndexStore}
    (replayed : entries.foldlM replayIndex before = .ok after) (cursor : Option ChainPoint) :
    entries.foldlM replayIndex { after with cursor := cursor } = .ok after := by
  rcases foldlM_replayIndex_eq_ok.mp replayed with ⟨deltas, matched, rfl⟩
  apply foldlM_replayIndex_eq_ok.mpr
  refine ⟨deltas, matched, ?_⟩
  rw [IndexStore.foldl_apply_again]
  rintro rfl
  exact nonempty (List.forall₂_nil_right_iff.mp matched)

theorem cursor_of_replayIndex {entry : ChainPoint × LedgerLog O} {before after : IndexStore}
    (replayed : replayIndex before entry = .ok after) : after.cursor = some entry.1 := by
  rcases bind_eq_ok.mp replayed with ⟨delta, computed, afterEq⟩
  rcases Except.ok.inj afterEq with rfl
  unfold computeCatchupIndexes at computed
  split at computed
  · cases computed
  · rcases bind_eq_ok.mp computed with ⟨utxos, -, deltaEq⟩
    rcases Except.ok.inj deltaEq with rfl
    rfl

end Replays

section Archive

namespace ArchiveStore.Shows

variable {archive : ArchiveStore} {blocks added : List (ℕ × Bytes)}

theorem getTip (shown : archive.Shows blocks) : archive.getTip = .ok blocks.getLast? := by
  rcases shown with ⟨held, holds, rfl⟩
  exact holds.answers.tip

theorem sorted (shown : archive.Shows blocks) :
    blocks.Pairwise fun earlier later => earlier.1 ≤ later.1 := by
  rcases shown with ⟨held, holds, rfl⟩
  exact List.pairwise_map.mpr holds.sorted

theorem foldl_storeBlock_later (later : ∀ old ∈ blocks, ∀ new ∈ added, old.1 < new.1)
    (ascending : added.Pairwise fun earlier later => earlier.1 < later.1) :
    CommitsInOrder blocks added ∧ added.foldl storeBlock blocks = blocks ++ added := by
  induction added generalizing blocks with
  | nil => exact ⟨trivial, (List.append_nil _).symm⟩
  | cons block rest ih =>
      have fresh : block ∉ blocks := by
        intro isOld
        exact lt_irrefl _ (later block isOld block List.mem_cons_self)
      have stored : storeBlock blocks block = blocks ++ [block] := if_neg fresh
      rcases List.pairwise_cons.mp ascending with ⟨below, restAscending⟩
      have restLater : ∀ old ∈ blocks ++ [block], ∀ new ∈ rest, old.1 < new.1 := by
        intro old member new isNew
        rcases List.mem_append.mp member with isOld | isBlock
        · exact later old isOld new (List.mem_cons_of_mem _ isNew)
        · rw [List.mem_singleton.mp isBlock]
          exact below new isNew
      rcases ih restLater restAscending with ⟨inOrder, folded⟩
      refine ⟨⟨Or.inr ?_, ?_⟩, ?_⟩
      · intro old isOld
        exact le_of_lt (later old isOld block List.mem_cons_self)
      · rw [stored]
        exact inOrder
      · rw [List.foldl_cons, stored, folded, List.append_assoc]
        rfl

/-- Blocks of later slots are added at the end. -/
theorem commitBlocks (shown : archive.Shows blocks) (fits : ∀ block ∈ added, FitsSegments block)
    (later : ∀ old ∈ blocks, ∀ new ∈ added, old.1 < new.1)
    (ascending : added.Pairwise fun earlier later => earlier.1 < later.1) :
    ∃ committed, archive.commitBlocks added = .ok committed ∧
      committed.Shows (blocks ++ added) := by
  rcases foldl_storeBlock_later later ascending with ⟨inOrder, folded⟩
  rcases shown with ⟨held, holds, rfl⟩
  rcases ArchiveStore.Holds.indexBlocks holds fits inOrder with
    ⟨indexed, heldAfter, looped, holdsAfter, blocksEq⟩
  refine ⟨_, ?_, heldAfter, holdsAfter, blocksEq.trans folded⟩
  rw [ArchiveStore.commitBlocks, pending_foldl_apply]
  simp only [RedbWriter.start, RedbWriter.commit, List.nil_append, looped]
  rfl

/-- Bodies that no table entry points to do not show. -/
theorem appending (shown : archive.Shows blocks) (written : List (ℕ × Bytes)) (count : ℕ) :
    (archive.appending written count).Shows blocks := by
  rcases shown with ⟨held, holds, rfl⟩
  refine ⟨held, ⟨holds.index, holds.sorted, holds.fits, holds.placed, ?_, holds.ordered⟩, rfl⟩
  intro kept member
  exact (holds.stored kept member).appendBatch _

theorem truncateFront (shown : archive.Shows blocks) {slot : ℕ} (notLast : slot + 1 < 2 ^ 64) :
    (redbTruncateFront archive slot).Shows (blocks.filter fun block => block.1 ≤ slot) := by
  rcases shown with ⟨held, holds, rfl⟩
  refine ⟨_, holds.truncateFront notLast, ?_⟩
  rw [List.filter_map]
  rfl

end ArchiveStore.Shows

end Archive

section Links

variable [NonceCrypto]

/-- An entry that leads from one view of the ledger to the next and back. -/
structure Linked (entry : ChainPoint × LedgerLog O) (before after : LedgerView O) : Prop where
  repeats : Repeats entry before after
  retraces : Retraces entry before after
  typed : WellTyped after.entities

/-- The log entries of a batch lead along its path, both ways. -/
theorem linked_of_path {pairs : List (WorkBlock O × WorkBlock O)}
    {before after : NsKey → Option CardanoEntity} {utxos inputs : UtxoMap O}
    {earlier : List (MultiEraBlock O)} (path : Path Rolls pairs before after)
    (inputsEq : inputs = loadUtxos (earlier ++ pairs.map fun pair => pair.1.block) utxos)
    (valid : ValidChain utxos (earlier ++ pairs.map fun pair => pair.1.block))
    (resolved : ∀ pair ∈ pairs, ∃ delta, pair.1.utxoDelta = some delta ∧
      computeApplyDelta pair.1.block inputs = .ok delta)
    (emitted : ∀ pair ∈ pairs, pair.1.Emitted) (typed : WellTyped before)
    (unsaturated : ∀ index,
      Along Unsaturated (historyOf (pairs.map Prod.fst) index) (before index))
    (epochFree : ∀ index,
      Along EpochFree (historyOf (pairs.map Prod.fst) index) (before index)) :
    Path Linked (pairs.map fun pair => pair.2.logEntry inputs)
      ⟨before, advanceAll utxos earlier⟩
      ⟨after, advanceAll utxos (earlier ++ pairs.map fun pair => pair.1.block)⟩ := by
  induction path generalizing earlier with
  | nil =>
      simp only [List.map_nil, List.append_nil]
      exact .nil _
  | @cons pair rest before next after rolls path ih =>
      have headEmitted := emitted pair List.mem_cons_self
      have blockEq : (pair.2.logEntry inputs).2.block = some pair.1.block :=
        congrArg some rolls.block
      rcases resolved pair List.mem_cons_self with ⟨delta, -, computed⟩
      have nextTyped := (rolls.keyed headEmitted typed).2
      have advanced : advanceAll utxos (earlier ++ [pair.1.block]) =
          advance (advanceAll utxos earlier) pair.1.block := ValidChain.advanceAll_append _ _ _
      have fresh : ∀ txo, (pair.1.block.produced.get? txo).isSome →
          (advanceAll utxos earlier).get? txo = none :=
        valid.right.fresh pair.1.block List.mem_cons_self
      have bodies : ∀ txo ∈ pair.1.block.consumed, pair.1.block.produced.get? txo = none →
          inputs.get? txo = (advanceAll utxos earlier).get? txo := by
        intro txo spent unmade
        rw [inputsEq]
        exact get?_loadUtxos valid spent unmade
      rcases applyUtxoset_computeUndoDelta computed fresh bodies with ⟨undoDelta, undoEq, undone⟩
      have linked : Linked (pair.2.logEntry inputs) ⟨before, advanceAll utxos earlier⟩
          ⟨next, advanceAll utxos (earlier ++ [pair.1.block])⟩ := by
        rw [advanced]
        refine ⟨⟨?_, pair.1.block, delta, blockEq, computed, ?_⟩,
          ⟨?_, pair.1.block, undoDelta, blockEq, undoEq, undone⟩, nextTyped⟩
        · exact rolls.repeated headEmitted typed fun index => (epochFree index).of_append
        · exact applyUtxoset_computeApplyDelta computed
        · exact rolls.undone headEmitted typed fun index => (unsaturated index).of_append
      have regroup : earlier ++ (pair :: rest).map (fun pair => pair.1.block) =
          (earlier ++ [pair.1.block]) ++ rest.map fun pair => pair.1.block := by
        simp
      rw [List.map_cons]
      refine .cons linked ?_
      rw [regroup] at inputsEq valid ⊢
      apply ih inputsEq valid
      · exact fun later member => resolved later (List.mem_cons_of_mem pair member)
      · exact fun later member => emitted later (List.mem_cons_of_mem pair member)
      · exact nextTyped
      · exact fun index => (unsaturated index).after_append (rolls.groups index)
      · exact fun index => (epochFree index).after_append (rolls.groups index)

/-- A logged batch can be committed, and its entries lead to the state it commits. -/
theorem linked_roll {stores logged : LedgerStores O} {batch : WorkBatch (WorkBlock O)}
    {computed : RollBatch O} (undoable : Undoable stores batch)
    (epochFree : ∀ index,
      Along EpochFree (historyOf batch.blocks index) (stores.entities.get? index))
    (typed : WellTyped stores.entities.get?)
    (loggedDone : stores.rollLogged batch = .ok (computed, logged)) :
    ∃ last after, computed.blocks.getLast? = some last ∧
      computed.commitState logged = .ok after ∧ after.wal = logged.wal ∧
      after.cursor = some last.point ∧
      Path Linked (computed.blocks.map fun work => work.logEntry computed.utxos)
        stores.view after.view := by
  have ordered := undoable.toOrdered
  rcases rollLogged_spec loggedDone with ⟨loggedEq, pairs, trace⟩
  rw [ordered.sortBySlot_eq] at trace
  have nonempty : computed.blocks ≠ [] := by
    intro none
    have blocksEq := trace.map_block
    rw [none, List.map_nil] at blocksEq
    exact batch.nonempty (List.map_eq_nil_iff.mp blocksEq.symm)
  have lastEq := List.getLast?_eq_some_getLast nonempty
  have committed : ∃ after, computed.commitState logged = .ok after := by
    rw [RollBatch.commitState, lastEq]
    exact ⟨_, rfl⟩
  rcases committed with ⟨after, afterEq⟩
  rcases trace.commitState_spec loggedEq afterEq with ⟨entitiesEq, utxosEq, walEq, -⟩
  have cursorEq : after.cursor = some (computed.blocks.getLast nonempty).point := by
    simp only [RollBatch.commitState, lastEq, Except.ok.injEq] at afterEq
    rw [← afterEq]
  have inputsEq : computed.utxos =
      loadUtxos ([] ++ pairs.map fun pair => pair.1.block) stores.utxos := by
    rw [trace.utxos, List.nil_append, trace.blocksEq]
  have valid : ValidChain stores.utxos ([] ++ pairs.map fun pair => pair.1.block) := by
    rw [List.nil_append, trace.blocksEq]
    exact undoable.valid
  have path := linked_of_path trace.path inputsEq valid trace.resolved
    (trace.emitted undoable.emitted) typed
    (fun index => by rw [trace.historyOf_eq]; exact undoable.unsaturated index)
    (fun index => by rw [trace.historyOf_eq]; exact epochFree index)
  rw [trace.logEntries_eq] at path
  have afterView : after.view = ⟨stores.entities.overlay computed.entities,
      advanceAll stores.utxos ([] ++ pairs.map fun pair => pair.1.block)⟩ := by
    rw [view, entitiesEq, utxosEq, List.nil_append, trace.blocksEq]
  refine ⟨_, after, lastEq, afterEq, walEq, cursorEq, ?_⟩
  rw [afterView]
  exact path

/-- A computed batch has the blocks it was given, in their order. -/
theorem blocks_of_rollLogged {stores logged : LedgerStores O} {batch : WorkBatch (WorkBlock O)}
    {computed : RollBatch O} (ordered : Ordered stores batch)
    (loggedDone : stores.rollLogged batch = .ok (computed, logged)) :
    computed.blocks.map WorkBlock.block = batch.blocks.map WorkBlock.block := by
  rcases rollLogged_spec loggedDone with ⟨-, pairs, trace⟩
  rw [trace.map_block, ordered.sortBySlot_eq]

end Links

end Dolos
