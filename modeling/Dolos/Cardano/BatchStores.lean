import Dolos.Cardano.CrashRedo

/-!
# What a batch leaves in the four stores

A batch that nothing interrupts moves the tags of the index as it moves the unspent outputs,
adds its blocks at the end of the archive, where blocks may share a slot as a boundary block
of Byron and the block after it do, and brings index records of the slots of its blocks.
-/

namespace Dolos

open Outcome

section Within

/-- No record is of a slot past a bound. -/
structure IndexStore.Within (store : IndexStore) (bound : ℕ) : Prop where
  tags : ∀ record ∈ store.archiveTags, record.2.2 ≤ bound
  exact : ∀ key slot, store.exact.get? key = some slot → slot ≤ bound

variable {store : IndexStore} {bound : ℕ}

theorem IndexStore.Within.mono {later : ℕ} (within : store.Within bound) (le : bound ≤ later) :
    store.Within later :=
  ⟨fun record member => (within.tags record member).trans le,
    fun key slot held => (within.exact key slot held).trans le⟩

/-- A delta brings records of the slots of its blocks. -/
theorem IndexStore.Within.apply [KeyHashing] {delta : IndexDelta} (within : store.Within bound)
    (early : ∀ block ∈ delta.archive, block.slot ≤ bound) : (store.apply delta).Within bound := by
  refine ⟨?_, ?_⟩
  · intro record member
    have split : ∀ (blocks : List ArchiveIndexDelta) (tags : Finset ArchiveTag),
        record ∈ blocks.foldl IndexStore.insertArchiveTags tags →
          record ∈ tags ∨ ∃ block ∈ blocks, record ∈ block.archiveTags := by
      intro blocks
      induction blocks with
      | nil => exact fun _ held => Or.inl held
      | cons block rest ih =>
          intro tags held
          rcases ih _ held with isHeld | ⟨other, isOther, isTag⟩
          · rcases Writes.mem_insertEach.mp isHeld with isTag | isOld
            · exact Or.inr ⟨block, List.mem_cons_self, isTag⟩
            · exact Or.inl isOld
          · exact Or.inr ⟨other, List.mem_cons_of_mem _ isOther, isTag⟩
    rcases split delta.archive store.archiveTags member with isOld | ⟨block, isBlock, isTag⟩
    · exact within.tags record isOld
    · rcases List.mem_filterMap.mp isTag with ⟨tag, -, tagEq⟩
      rcases Option.map_eq_some_iff.mp tagEq with ⟨hash, -, rfl⟩
      exact early block isBlock
  · intro key slot held
    have split : ∀ (blocks : List ArchiveIndexDelta) (exact : OrderedMap ExactKey ℕ),
        (blocks.foldl IndexStore.insertExact exact).get? key = some slot →
          exact.get? key = some slot ∨ ∃ block ∈ blocks, block.slot = slot := by
      intro blocks
      induction blocks with
      | nil => exact fun _ held => Or.inl held
      | cons block rest ih =>
          intro exact held
          rcases ih _ held with isHeld | ⟨other, isOther, slotEq⟩
          · rw [IndexStore.get?_insertExact, Writes.setEach_apply] at isHeld
            split_ifs at isHeld
            · exact Or.inr ⟨block, List.mem_cons_self, Option.some.inj isHeld⟩
            · exact Or.inl isHeld
          · exact Or.inr ⟨other, List.mem_cons_of_mem _ isOther, slotEq⟩
    rcases split delta.archive store.exact held with isOld | ⟨block, isBlock, rfl⟩
    · exact within.exact key slot isOld
    · exact early block isBlock

end Within

section Batch

variable {O : Type} [BlockDecoding O] {works : List (WorkBlock O)} {loaded utxos : UtxoMap O}
  {indexes : IndexStore}

/-- A block moves the tags as it moves the outputs. -/
theorem mem_utxoTags_apply_block {block : MultiEraBlock O} {delta : UtxoSetDelta O}
    (computed : computeApplyDelta block loaded = .ok delta)
    (extending : Extends utxos block loaded) {point : ChainPoint}
    (follows : ∀ entry, entry ∈ indexes.utxoTags ↔ Live utxos entry) (entry : Tag × TxoRef) :
    entry ∈ (indexes.apply (blockIndexDelta point block loaded delta)).utxoTags ↔
      Live (advance utxos block) entry := by
  rw [IndexStore.mem_utxoTags_apply, follows, live_advance extending]
  simp only [blockIndexDelta, mem_tagged_withTags, live_consumed computed extending,
    produced_of_computed computed]
  tauto

/-- The tags of the blocks of a batch that were indexed one by one. -/
theorem mem_utxoTags_foldl (resolved : Resolved loaded works)
    (valid : ValidChain utxos (works.map WorkBlock.block))
    (loadedEq : loaded = loadUtxos (works.map WorkBlock.block) utxos)
    (fits : ∀ work ∈ works, AllFit work.block.produced)
    (follows : ∀ entry, entry ∈ indexes.utxoTags ↔ Live utxos entry) :
    ∀ first rest, works = first ++ rest → ∀ entry,
      entry ∈ ((first.map (WorkBlock.indexDelta loaded)).foldl IndexStore.apply indexes).utxoTags ↔
        Live (advanceAll utxos (first.map WorkBlock.block)) entry := by
  intro first
  induction first using List.reverseRecOn with
  | nil => exact fun _ _ => follows
  | append_singleton earlier work ih =>
      intro rest split
      have member : work ∈ works := by
        rw [split]
        simp
      rcases resolved work member with ⟨delta, deltaEq, computed⟩
      have before := ih (work :: rest) (by rw [split, List.append_assoc, List.singleton_append])
      have blocksEq : works.map WorkBlock.block =
          earlier.map WorkBlock.block ++ work.block :: rest.map WorkBlock.block := by
        rw [split, List.map_append, List.map_append, List.append_assoc]
        rfl
      rw [blocksEq] at valid loadedEq
      have extending := Extends.of_validChain valid (fits work member)
      rw [← loadedEq] at extending
      rw [List.map_append, List.map_append, List.foldl_append, ValidChain.advanceAll_append,
        List.map_singleton, List.map_singleton, List.foldl_cons, List.foldl_nil]
      rw [WorkBlock.indexDelta, deltaEq, Option.getD_some]
      exact mem_utxoTags_apply_block computed extending before

theorem within_foldl {bound : ℕ} (within : indexes.Within bound)
    (early : ∀ work ∈ works, work.block.slot ≤ bound) :
    ((works.map (WorkBlock.indexDelta loaded)).foldl IndexStore.apply indexes).Within bound := by
  induction works generalizing indexes with
  | nil => exact within
  | cons work rest ih =>
      refine ih (within.apply ?_) fun other member => early other (List.mem_cons_of_mem _ member)
      intro block isBlock
      rw [List.mem_singleton.mp isBlock]
      exact early work List.mem_cons_self

end Batch

section Archive

variable {archive committed : ArchiveStore} {blocks added : List (ℕ × Bytes)}

theorem mem_storeBlock {block other : ℕ × Bytes} :
    other ∈ storeBlock blocks block ↔ other ∈ blocks ∨ other = block := by
  rw [storeBlock]
  split_ifs with held
  · constructor
    · exact Or.inl
    · rintro (isHeld | rfl)
      · exact isHeld
      · exact held
  · rw [List.mem_append, List.mem_singleton]

theorem mem_foldl_storeBlock {other : ℕ × Bytes} :
    other ∈ added.foldl storeBlock blocks ↔ other ∈ blocks ∨ other ∈ added := by
  induction added generalizing blocks with
  | nil => simp
  | cons block rest ih =>
      rw [List.foldl_cons, ih, mem_storeBlock, List.mem_cons]
      tauto

/-- Blocks that are not before what is held find their place at the end, if they are not held
already. -/
theorem commitsInOrder_of_sorted (notBefore : ∀ old ∈ blocks, ∀ new ∈ added, old.1 ≤ new.1)
    (sorted : added.Pairwise fun earlier later => earlier.1 ≤ later.1) :
    CommitsInOrder blocks added := by
  induction added generalizing blocks with
  | nil => trivial
  | cons block rest ih =>
      rcases List.pairwise_cons.mp sorted with ⟨least, sortedRest⟩
      refine ⟨Or.inr fun old isOld => notBefore old isOld block List.mem_cons_self,
        ih ?_ sortedRest⟩
      intro old isOld new isNew
      rcases mem_storeBlock.mp isOld with held | rfl
      · exact notBefore old held new (List.mem_cons_of_mem _ isNew)
      · exact least new isNew

/-- What a commit shows that went through. -/
theorem ArchiveStore.Shows.commit (shown : archive.Shows blocks)
    (fits : ∀ block ∈ added, FitsSegments block) (inOrder : CommitsInOrder blocks added)
    (done : archive.commitBlocks added = .ok committed) :
    committed.Shows (added.foldl storeBlock blocks) := by
  rcases shown with ⟨held, holds, rfl⟩
  rcases ArchiveStore.Holds.indexBlocks holds fits inOrder with
    ⟨indexed, heldAfter, looped, holdsAfter, blocksEq⟩
  rw [ArchiveStore.commitBlocks, pending_foldl_apply] at done
  simp only [RedbWriter.start, RedbWriter.commit, List.nil_append, looped] at done
  rcases Except.ok.inj done with rfl
  exact ⟨heldAfter, holdsAfter, blocksEq⟩

end Archive

section Roll

variable {O : Type} [BlockDecoding O] [NonceCrypto] [RawBlocks O]

/-- What validation promises of the blocks of a batch, in the order of their slots. -/
structure ChainBatch (utxos : UtxoMap O) (batch : WorkBatch (WorkBlock O)) : Prop where
  valid : ValidChain utxos (batch.blocks.map WorkBlock.block)
  inOrder : batch.blocks.Pairwise fun earlier later => earlier.block.slot ≤ later.block.slot
  outputs : ∀ work ∈ batch.blocks, AllFit work.block.produced
  bodies : ∀ work ∈ batch.blocks, FitsSegments (archivedBlock work.block)

/-- What some blocks leave in the stores. -/
structure Leaves (before after : DomainStores O) (blocks : List (WorkBlock O)) : Prop where
  utxos : after.ledger.utxos = advanceAll before.ledger.utxos (blocks.map WorkBlock.block)
  stands : ∃ last ∈ blocks, (∀ work ∈ blocks, work.block.slot ≤ last.block.slot) ∧
    after.ledger.cursor = some last.point ∧ after.indexes.cursor = some last.point
  archive : before.archive.commitBlocks (blocks.map fun work => archivedBlock work.block) =
    .ok after.archive
  indexes : ∃ works loaded, works.map WorkBlock.block = blocks.map WorkBlock.block ∧
    loaded = loadUtxos (blocks.map WorkBlock.block) before.ledger.utxos ∧
    Resolved loaded works ∧
    after.indexes = (works.map (WorkBlock.indexDelta loaded)).foldl IndexStore.apply before.indexes

omit [BlockDecoding O] [NonceCrypto] in
theorem ChainBatch.sorted {utxos : UtxoMap O} {batch : WorkBatch (WorkBlock O)}
    (chained : ChainBatch utxos batch) : sortBySlot batch.blocks = batch.blocks :=
  List.mergeSort_of_pairwise (chained.inOrder.imp fun le => decide_eq_true le)

theorem DomainStores.leaves_of_roll {stores after : DomainStores O}
    {batch : WorkBatch (WorkBlock O)} (chained : ChainBatch stores.ledger.utxos batch)
    (done : stores.execute (.roll batch) = .ok after) : Leaves stores after batch.blocks := by
  rcases bind_eq_ok.mp done with ⟨⟨computed, logged⟩, rolledEq, done⟩
  rcases bind_eq_ok.mp done with ⟨ledger, ledgerEq, done⟩
  rcases bind_eq_ok.mp done with ⟨archive, archiveEq, done⟩
  rcases bind_eq_ok.mp done with ⟨indexes, indexesEq, done⟩
  rcases Except.ok.inj done with rfl
  rcases rollLogged_spec (mapError_eq_ok.mp rolledEq) with ⟨loggedEq, pairs, trace⟩
  rw [chained.sorted] at trace
  rcases trace.commitState_spec loggedEq (mapError_eq_ok.mp ledgerEq) with
    ⟨-, utxosEq, -, last, lastEq, cursorEq⟩
  have blocksEq := trace.map_block
  have validRolled : ValidChain stores.ledger.utxos (computed.blocks.map WorkBlock.block) := by
    rw [blocksEq]
    exact chained.valid
  have resolved : Resolved computed.utxos computed.blocks := trace.resolved_computed
  have indexed := mapError_eq_ok.mp indexesEq
  have replayed := commitIndexes_replays resolved validRolled indexed
  rw [foldlM_replayIndex resolved] at replayed
  have atLast : indexes.cursor = some last.point := by
    have lastBlock : computed.blocks.getLast?.map WorkBlock.point = some last.point := by
      have pointEq := congrArg (Option.map Block.point) (congrArg List.getLast? blocksEq)
      rw [List.getLast?_map, List.getLast?_map, lastEq, Option.map_map] at pointEq
      exact pointEq
    rcases Option.map_eq_some_iff.mp lastBlock with ⟨rolled, rolledIs, pointEq⟩
    simp only [RollBatch.commitIndexes, rolledIs, Except.ok.injEq] at indexed
    rw [← indexed, ← pointEq]
    rfl
  refine ⟨utxosEq, ⟨last, List.mem_of_getLast? lastEq, ?_, cursorEq, atLast⟩, ?_,
    ⟨computed.blocks, computed.utxos, blocksEq, trace.utxos, resolved,
      (Except.ok.inj replayed).symm⟩⟩
  · rcases List.getLast?_eq_some_iff.mp lastEq with ⟨earlier, split⟩
    have inOrder := chained.inOrder
    rw [split] at inOrder ⊢
    intro work member
    rcases List.mem_append.mp member with isEarlier | isLast
    · exact (List.pairwise_append.mp inOrder).2.2 work isEarlier last (List.mem_singleton_self _)
    · rw [List.mem_singleton.mp isLast]
  · have bodiesEq : (batch.blocks.map fun work => archivedBlock work.block) =
        computed.archivedBlocks := by
      have mapped := congrArg (List.map archivedBlock) blocksEq
      rw [List.map_map, List.map_map] at mapped
      exact mapped.symm
    rw [bodiesEq]
    exact mapError_eq_ok.mp archiveEq

end Roll

end Dolos
