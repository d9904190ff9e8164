import Dolos.Core.Indexes
import Dolos.Cardano.Rollback

/-!
# Indexing blocks, and rolling the indexes back

`cardano/src/indexes/delta.rs`, `build_index_delta` and `commit_indexes` of
`roll/batch.rs`, and the part of `rollback` that is about the indexes.

A rollback asks `compute_undo` for the index delta of each undone block. That delta
is built from the produced and consumed outputs of a UTxO delta whose entries are
all undone or recovered, so there is nothing in it, and nothing about the archive
either: the cursor goes back and the records stay.
-/

namespace Dolos

open Outcome

/-- An address as far as tags are made of it. A Shelley address has a stake part
when it delegates. -/
inductive Address where
  | shelley (bytes payment : Bytes) (stake : Option Bytes)
  | stake (bytes : Bytes)
  | byron (bytes : Bytes)

/-- The assets of a policy, by name. -/
structure PolicyAssets where
  policy : Bytes
  names : List Bytes

/-- What is indexed of an output. Datums and scripts stand as their hashes. -/
structure OutputView where
  address : Option Address
  assets : List PolicyAssets
  datum : Option Bytes
  scriptRef : Option Bytes

/-- What each reading of a certificate makes of it. -/
structure CertView where
  stakeRegistration : Option Bytes
  stakeDeregistration : Option Bytes
  stakeDelegation : Option Bytes
  poolRegistration : Option Bytes
  poolRetirement : Option Bytes

/-- What is indexed of a transaction besides its hash and outputs. -/
structure TxView where
  metadata : List ℕ
  inputs : List TxoRef
  scripts : List Bytes
  plutusData : List Bytes
  certs : List CertView
  withdrawals : List Bytes
  redeemers : List Bytes

/-- The decoder, as far as the indexes read from it. -/
class BlockDecoding (O : Type) extends KeyHashing where
  output : O → OutputView
  tx : Tx O → TxView
  number : MultiEraBlock O → ℕ

def TxoRef.toBytes (txo : TxoRef) : Bytes :=
  toBeBytes 32 (ofLex txo).1.val ++ toBeBytes 4 (ofLex txo).2

/-- `add_address`. -/
def addressTags : Address → List Tag
  | .shelley bytes payment stake =>
      [⟨.address, bytes⟩, ⟨.payment, payment⟩] ++ (stake.map fun stake => ⟨.stake, stake⟩).toList
  | .stake bytes => [⟨.address, bytes⟩, ⟨.stake, bytes⟩]
  | .byron bytes => [⟨.address, bytes⟩]

/-- `add_assets`. -/
def assetTags (assets : List PolicyAssets) : List Tag :=
  assets.flatMap fun held =>
    ⟨.policy, held.policy⟩ :: held.names.map fun name => ⟨.asset, held.policy ++ name⟩

def extractUtxoTags (output : OutputView) : List Tag :=
  (output.address.map addressTags).getD [] ++ assetTags output.assets ++
    (output.scriptRef.map fun hash => ⟨.scriptRef, hash⟩).toList

/-- The tags of an output a block spends or makes. -/
def outputTags (output : OutputView) : List Tag :=
  (output.address.map addressTags).getD [] ++ assetTags output.assets ++
    (output.datum.map fun hash => ⟨.datum, hash⟩).toList

/-- `add_cert`. -/
def certTags (cert : CertView) : List Tag :=
  (cert.stakeRegistration.map fun credential => ⟨.accountCerts, credential⟩).toList ++
    (cert.stakeDeregistration.map fun credential => ⟨.accountCerts, credential⟩).toList ++
    (cert.stakeDelegation.map fun delegator => ⟨.accountCerts, delegator⟩).toList ++
    (cert.poolRegistration.map fun operator => ⟨.poolCerts, operator⟩).toList ++
    (cert.poolRetirement.map fun operator => ⟨.poolCerts, operator⟩).toList

variable {O : Type} [BlockDecoding O]

open BlockDecoding

def txTags (resolved : UtxoMap O) (of : Tx O) : List Tag :=
  let view := tx of
  view.metadata.map (fun label => ⟨.metadata, toBeBytes 8 label⟩) ++
    view.inputs.flatMap (fun txo => ⟨.spentTxo, TxoRef.toBytes txo⟩ ::
      ((resolved.get? txo).map fun body => outputTags (output body)).getD []) ++
    of.produces.flatMap (fun made => outputTags (output made.2) ++
      ((output made.2).scriptRef.map fun hash => ⟨.script, hash⟩).toList) ++
    view.scripts.map (fun hash => ⟨.script, hash⟩) ++
    view.plutusData.map (fun hash => ⟨.datum, hash⟩) ++
    view.certs.flatMap certTags ++
    view.withdrawals.map (fun account => ⟨.accountWithdrawals, account⟩) ++
    view.redeemers.map (fun hash => ⟨.datum, hash⟩)

def indexBlock (block : MultiEraBlock O) (resolved : UtxoMap O) : ArchiveIndexDelta where
  slot := block.slot
  blockHash := block.hash
  blockNumber := some (number block)
  txHashes := block.txs.map Tx.hash
  tags := block.txs.flatMap (txTags resolved)

def withTags (outputs : UtxoMap O) : List (TxoRef × List Tag) :=
  outputs.entries.map fun entry => (entry.1, extractUtxoTags (output entry.2))

/-- The index delta of genesis, and of an undo: produced and consumed outputs only. -/
def indexDeltaFromUtxoDelta (cursor : ChainPoint) (delta : UtxoSetDelta O) : IndexDelta where
  cursor := cursor
  utxo := ⟨withTags delta.producedUtxo, withTags delta.consumedUtxo⟩
  archive := []

/-- The index delta of a batch: recovered outputs count as produced and undone ones
as consumed. -/
def RollBatch.buildIndexDelta (batch : RollBatch O) (lastPoint : ChainPoint) : IndexDelta where
  cursor := lastPoint
  utxo :=
    let deltas := batch.blocks.filterMap WorkBlock.utxoDelta
    ⟨deltas.flatMap fun delta => withTags delta.producedUtxo ++ withTags delta.recoveredStxi,
      deltas.flatMap fun delta => withTags delta.consumedUtxo ++ withTags delta.undoneUtxo⟩
  archive := batch.blocks.map fun work => indexBlock work.block batch.utxos

def RollBatch.commitIndexes (batch : RollBatch O) (indexes : IndexStore) :
    Except DomainError IndexStore :=
  match batch.blocks.getLast? with
  | none => .error (.panic .unwrapNone)
  | some last => .ok (indexes.apply (batch.buildIndexDelta last.point))

/-- The index delta of `compute_undo`. -/
def computeUndoIndexes (point : ChainPoint) (log : LedgerLog O) :
    Except DomainError IndexDelta := do
  let delta ← computeUndo log
  .ok (indexDeltaFromUtxoDelta point delta)

/-- The stores with the indexes that follow them. -/
structure IndexedStores (O : Type) where
  ledger : LedgerStores O
  indexes : IndexStore

namespace IndexedStores

variable [NonceCrypto]

def roll (stores : IndexedStores O) (batch : WorkBatch (WorkBlock O)) :
    Except DomainError (IndexedStores O) := do
  let (computed, logged) ← stores.ledger.rollLogged batch
  let committed ← computed.commitState logged
  let indexes ← computed.commitIndexes stores.indexes
  .ok ⟨committed, indexes⟩

def rollAll (stores : IndexedStores O) :
    List (WorkBatch (WorkBlock O)) → Except DomainError (IndexedStores O)
  | [] => .ok stores
  | batch :: rest => do
      let rolled ← stores.roll batch
      rolled.rollAll rest

omit [NonceCrypto] in
/-- What the loop of `rollback` does to the indexes. -/
def undoIndexes (target : ChainPoint) :
    List (ChainPoint × LedgerLog O) → IndexStore → Except DomainError IndexStore
  | [], indexes => .ok indexes
  | (point, log) :: rest, indexes =>
      if point.eq target then .ok (indexes.apply (.ofCursor point))
      else do
        let delta ← computeUndoIndexes point log
        undoIndexes target rest (indexes.undo delta)

def rollback (stores : IndexedStores O) (target : ChainPoint) :
    Except DomainError (IndexedStores O) := do
  let entries := (stores.ledger.wal.iterLogs (some target) none).reverse
  let ledger ← stores.ledger.rollback target
  let indexes ← undoIndexes target entries stores.indexes
  .ok ⟨ledger, indexes⟩

section Undo

omit [NonceCrypto]

/-- Nothing of an undone block is in the index delta of its undo. -/
theorem computeUndoIndexes_eq {point : ChainPoint} {log : LedgerLog O} {delta : IndexDelta}
    (computed : computeUndoIndexes point log = .ok delta) : delta = .ofCursor point := by
  rcases bind_eq_ok.mp computed with ⟨undo, undoEq, deltaEq⟩
  rcases Except.ok.inj deltaEq with rfl
  unfold computeUndo at undoEq
  split at undoEq
  · cases undoEq
  · rcases bind_eq_ok.mp undoEq with ⟨resolved, -, undoIs⟩
    rcases Except.ok.inj undoIs with rfl
    rfl

/-- The loop moves the cursor at most. -/
theorem undoIndexes_eq {target : ChainPoint} {entries : List (ChainPoint × LedgerLog O)}
    {indexes undone : IndexStore} (done : undoIndexes target entries indexes = .ok undone) :
    undone.utxoTags = indexes.utxoTags ∧ undone.archiveTags = indexes.archiveTags ∧
      undone.exact = indexes.exact ∧
      (undone.cursor = indexes.cursor ∨
        ∃ entry ∈ entries, entry.1.eq target ∧ undone.cursor = some entry.1) := by
  induction entries with
  | nil =>
      rcases Except.ok.inj done with rfl
      exact ⟨rfl, rfl, rfl, Or.inl rfl⟩
  | cons entry rest ih =>
      rcases entry with ⟨point, log⟩
      unfold undoIndexes at done
      split_ifs at done with met
      · rcases Except.ok.inj done with rfl
        exact ⟨rfl, rfl, rfl, Or.inr ⟨(point, log), List.mem_cons_self, met, rfl⟩⟩
      · rcases bind_eq_ok.mp done with ⟨delta, deltaEq, restDone⟩
        rw [computeUndoIndexes_eq deltaEq, IndexStore.undo_ofCursor] at restDone
        rcases ih restDone with ⟨utxoEq, archiveEq, exactEq, moved⟩
        refine ⟨utxoEq, archiveEq, exactEq, moved.imp_right ?_⟩
        rintro ⟨entry, member, entryMet, cursorEq⟩
        exact ⟨entry, List.mem_cons_of_mem _ member, entryMet, cursorEq⟩

end Undo

section Tail

def blockKey (work : WorkBlock O) : ExactKey := toLex (.blockHash, work.block.hash.val)

/-- A batch leaves a record of each of its blocks and takes none away. -/
theorem isSome_exact_roll {stores rolled : IndexedStores O} {batch : WorkBatch (WorkBlock O)}
    (done : stores.roll batch = .ok rolled) :
    (∀ work ∈ batch.blocks, (rolled.indexes.exact.get? (blockKey work)).isSome) ∧
      ∀ key, (stores.indexes.exact.get? key).isSome → (rolled.indexes.exact.get? key).isSome := by
  rcases bind_eq_ok.mp done with ⟨⟨computed, logged⟩, loggedDone, restDone⟩
  rcases bind_eq_ok.mp restDone with ⟨committed, -, indexDone⟩
  rcases bind_eq_ok.mp indexDone with ⟨indexes, indexesEq, rolledEq⟩
  rcases Except.ok.inj rolledEq with rfl
  rcases rollLogged_spec loggedDone with ⟨-, pairs, trace⟩
  unfold RollBatch.commitIndexes at indexesEq
  split at indexesEq
  · cases indexesEq
  rcases Except.ok.inj indexesEq with rfl
  constructor
  · intro work member
    have isSorted : work ∈ sortBySlot batch.blocks := List.mem_mergeSort.mpr member
    have isBlock : work.block ∈ computed.blocks.map WorkBlock.block := by
      rw [trace.map_block]
      exact List.mem_map_of_mem isSorted
    rcases List.mem_map.mp isBlock with ⟨same, isSame, blockEq⟩
    apply (IndexStore.isSome_exact_apply _ _ _).mpr
    refine Or.inl ⟨indexBlock same.block computed.utxos, List.mem_map.mpr ⟨same, isSame, rfl⟩, ?_⟩
    simp [ArchiveIndexDelta.exactKeys, indexBlock, blockKey, blockEq]
  · intro key present
    exact (IndexStore.isSome_exact_apply _ _ _).mpr (Or.inr present)

theorem isSome_exact_rollAll {stores after : IndexedStores O}
    {batches : List (WorkBatch (WorkBlock O))} (done : stores.rollAll batches = .ok after) :
    (∀ batch ∈ batches, ∀ work ∈ batch.blocks,
        (after.indexes.exact.get? (blockKey work)).isSome) ∧
      ∀ key, (stores.indexes.exact.get? key).isSome → (after.indexes.exact.get? key).isSome := by
  induction batches generalizing stores with
  | nil =>
      rcases Except.ok.inj done with rfl
      exact ⟨by simp, fun _ present => present⟩
  | cons batch rest ih =>
      rcases bind_eq_ok.mp done with ⟨rolled, rolledEq, restDone⟩
      rcases isSome_exact_roll rolledEq with ⟨recorded, kept⟩
      rcases ih restDone with ⟨laterRecorded, laterKept⟩
      constructor
      · intro other member work isWork
        rcases List.mem_cons.mp member with rfl | isLater
        · exact laterKept _ (recorded work isWork)
        · exact laterRecorded other isLater work isWork
      · intro key present
        exact laterKept key (kept key present)

/-- After blocks that the indexes had not seen, a rollback to the point where they
stood restores the indexes exactly when there were no such blocks. -/
theorem rollback_indexes_iff {applied extended restored : IndexedStores O} {slot : ℕ}
    {hash : BlockHash} {tail : List (WorkBatch (WorkBlock O))}
    (tip : applied.indexes.cursor = some (.specific slot hash))
    (unseen : ∀ batch ∈ tail, ∀ work ∈ batch.blocks,
      applied.indexes.exact.get? (blockKey work) = none)
    (rolled : applied.rollAll tail = .ok extended)
    (undone : extended.rollback (.specific slot hash) = .ok restored) :
    restored.indexes = applied.indexes ↔ tail = [] := by
  rcases bind_eq_ok.mp undone with ⟨ledger, -, indexesDone⟩
  rcases bind_eq_ok.mp indexesDone with ⟨indexes, indexesEq, restoredEq⟩
  rcases Except.ok.inj restoredEq with rfl
  rcases undoIndexes_eq indexesEq with ⟨utxoEq, archiveEq, exactEq, moved⟩
  constructor
  · intro same
    change indexes = applied.indexes at same
    by_contra nonempty
    rcases List.exists_mem_of_ne_nil tail nonempty with ⟨batch, isBatch⟩
    rcases List.exists_mem_of_ne_nil batch.blocks batch.nonempty with ⟨work, isWork⟩
    have recorded := (isSome_exact_rollAll rolled).1 batch isBatch work isWork
    have absent := unseen batch isBatch work isWork
    rw [← exactEq, same, absent] at recorded
    cases recorded
  · rintro rfl
    rcases Except.ok.inj rolled with rfl
    have cursorEq : indexes.cursor = applied.indexes.cursor := by
      rcases moved with kept | ⟨entry, -, met, cursorIs⟩
      · exact kept
      · rw [cursorIs, tip, ChainPoint.eq_of_eq_specific met]
    exact IndexStore.ext cursorEq utxoEq archiveEq exactEq

end Tail

end IndexedStores

section Fork

open LedgerStores

/-- A decoder whose outputs are Byron addresses of one byte. -/
abbrev BlockDecoding.byron : BlockDecoding ℕ where
  xxh3 := id
  output body := ⟨some (.byron (toBeBytes 1 body)), [], none, none⟩
  tx of := ⟨[], of.consumes, [], [], [], [], []⟩
  number block := block.slot

def IndexStore.empty : IndexStore := ⟨none, ∅, ∅, ∅⟩

namespace IndexedStores

/-- The stores after the boundary block, the output of genesis in the filter tags. -/
def indexedBoundary : IndexedStores ℕ where
  ledger := afterBoundaryBlock
  indexes :=
    { cursor := some (.specific 5 9)
      utxoTags := {(⟨.address, [100]⟩, toLex (1, 0))}
      archiveTags := ∅
      exact := .ofList [(toLex (.blockHash, 9), 5), (toLex (.blockNumber, 5), 5)] }

/-- The spending block takes the tag of that output and leaves one of its own. -/
def spendingDelta : IndexDelta where
  cursor := .specific 6 3
  utxo := ⟨[(toLex (2, 0), [⟨.address, [60]⟩])], [(toLex (1, 0), [⟨.address, [100]⟩])]⟩
  archive := [⟨6, 3, some 6, [2],
    [⟨.spentTxo, TxoRef.toBytes (toLex (1, 0))⟩, ⟨.address, [100]⟩, ⟨.address, [60]⟩]⟩]

def indexedSpending : IndexedStores ℕ :=
  letI := BlockDecoding.byron
  ⟨afterSpendingBlock, indexedBoundary.indexes.apply spendingDelta⟩

theorem rollAll_indexedBoundary :
    letI := NonceCrypto.still
    letI := BlockDecoding.byron
    indexedBoundary.rollAll [.forSingleBlock spendingBlock] = .ok indexedSpending := by
  let _ := NonceCrypto.still
  let _ := BlockDecoding.byron
  rw [rollAll, roll, rollLogged, RollBatch.load, WorkBatch.blocks_forSingleBlock,
    sortBySlot_singleton]
  rfl

theorem rollback_indexedSpending :
    letI := NonceCrypto.still
    letI := BlockDecoding.byron
    indexedSpending.rollback (.specific 5 9) = .ok ⟨afterBoundaryBlock,
      { indexedSpending.indexes with cursor := some (.specific 5 9) }⟩ := by
  rfl

/-- The output of the undone block is still in the filter tags, the restored one is
not back, and the block is still found by its hash. -/
theorem rollback_keeps_index_records :
    letI := NonceCrypto.still
    letI := BlockDecoding.byron
    indexedBoundary.rollAll [.forSingleBlock spendingBlock] = .ok indexedSpending ∧
      ∃ restored, indexedSpending.rollback (.specific 5 9) = .ok restored ∧
        restored.ledger = indexedBoundary.ledger ∧
        (⟨.address, [60]⟩, toLex (2, 0)) ∈ restored.indexes.utxoTags ∧
        (⟨.address, [100]⟩, toLex (1, 0)) ∉ restored.indexes.utxoTags ∧
        (⟨.address, [100]⟩, toLex (1, 0)) ∈ indexedBoundary.indexes.utxoTags ∧
        restored.indexes.exact.get? (toLex (.blockHash, 3)) = some 6 ∧
        restored.indexes ≠ indexedBoundary.indexes := by
  refine ⟨rollAll_indexedBoundary, _, rollback_indexedSpending, rfl, ?_, ?_, ?_, rfl, ?_⟩
  · decide
  · decide
  · decide
  · intro same
    have recorded := congrArg (fun indexes => indexes.exact.get? (toLex (.blockHash, 3))) same
    cases recorded

/-- At the boundary block with the spending block after it. -/
theorem rollback_indexes_iff_spending :
    letI := NonceCrypto.still
    letI := BlockDecoding.byron
    (⟨afterBoundaryBlock, { indexedSpending.indexes with cursor := some (.specific 5 9) }⟩ :
        IndexedStores ℕ).indexes = indexedBoundary.indexes ↔
      [WorkBatch.forSingleBlock spendingBlock] = [] := by
  let _ := NonceCrypto.still
  let _ := BlockDecoding.byron
  apply rollback_indexes_iff _ _ rollAll_indexedBoundary rollback_indexedSpending
  · rfl
  · intro batch isBatch work isWork
    rcases List.mem_singleton.mp isBatch with rfl
    rcases List.mem_singleton.mp isWork with rfl
    rfl

end IndexedStores

end Fork

end Dolos
