import Dolos.Cardano.BatchStores
import Dolos.Snapshot.Publish

/-!
# The nodes a chain leads to

A node that applies a chain from genesis on, as far as an export reads its stores: the
outputs of the genesis files and those of the configuration, batches of blocks, the reward
update, and the closing and the opening half of an epoch boundary. What a commit makes of the
entities and which rows it logs are parameters. A run may stop between any two commits.

There the tags of the index are those of the unspent outputs, no record is of a slot past the
cursor, and the index stands at the block the state stands at.
-/

namespace Dolos.Snapshot

open Outcome

variable {V O : Type}

/-- The stores of a node, with the stored rows of its entities and of its logs and the epoch
it is in. -/
structure ChainNode (V O : Type) where
  stores : DomainStores O
  rows : StateNs → OrderedMap EntityKey V
  logs : LogTables V
  number : ℕ

/-- What a commit that is no batch makes of the entities. -/
abbrev EntityEffect :=
  OrderedMap NsKey CardanoEntity → Except DomainError (OrderedMap NsKey CardanoEntity)

/-- The commits of a chain. The shards of a boundary and of the reward update commit one by one:
the shards that close an epoch log the rows of their accounts, the end of the close the row of
the epoch, the end of the reward update the rows of the pools. An epoch opens at the slot of the
block that crosses the boundary; into Allegra it reclaims those outputs of the Byron genesis
that were never redeemed. -/
inductive ChainCommit (V O : Type) where
  | roll (batch : WorkBatch (WorkBlock O))
  | rupd (effect : EntityEffect) (pools : List (EntityKey × V))
  | ewrapShard (effect : EntityEffect) (accounts : List (EntityKey × V))
  | ewrapFinalize (effect : EntityEffect) (epoch : V)
  | estartShard (effect : EntityEffect)
  | estartFinalize (effect : EntityEffect) (slot : ℕ) (avvm : List TxoRef)

namespace ChainCommit

/-- A commit that changes nothing but entities. -/
def entitiesOnly (effect : EntityEffect) : DomainUnit O :=
  .boundary (fun entities utxos => (effect entities).map fun after => (after, utxos)) none ∅

/-- `AvvmReclamation::deletion_delta`, in the commit of the state. -/
def reclaims (effect : EntityEffect) (slot : ℕ) (reclaimed : UtxoMap O) : DomainUnit O :=
  .boundary (fun entities utxos => (effect entities).map fun after =>
    (after, applyUtxoset utxos { UtxoSetDelta.default with consumedUtxo := reclaimed }))
    (some slot) reclaimed

/-- What a commit does to the four stores. -/
def domainUnit (utxos : UtxoMap O) : ChainCommit V O → DomainUnit O
  | roll batch => .roll batch
  | rupd effect _ => entitiesOnly effect
  | ewrapShard effect _ => entitiesOnly effect
  | ewrapFinalize effect _ => entitiesOnly effect
  | estartShard effect => entitiesOnly effect
  | estartFinalize effect slot avvm => reclaims effect slot (getUtxos utxos avvm)

/-- The rows a commit logs in an epoch: those of the accounts under the epoch before, the row of
the epoch under its own first slot, those of the pools under the epoch that is rewarded. -/
def logRows (schedule : Schedule) (number : ℕ) (logs : LogTables V) :
    ChainCommit V O → LogTables V
  | rupd _ pools =>
      match schedule.performanceEpoch number with
      | none => logs
      | some performance => logs.writeRows .stakes (schedule.starts performance) pools
  | ewrapShard _ accounts =>
      logs.writeRows .accountEpochs (schedule.starts (number - 1)) accounts
  | ewrapFinalize _ epoch => logs.writeLog .epochs (logKeyOf (schedule.starts number)) epoch
  | _ => logs

def numberAfter (number : ℕ) : ChainCommit V O → ℕ
  | estartFinalize _ _ _ => number + 1
  | _ => number

end ChainCommit

namespace ChainNode

def cursorSlot (node : ChainNode V O) : ℕ :=
  (node.stores.ledger.cursor.map ChainPoint.slot).getD 0

/-- What an export reads of a node. The outputs have a table of their own. -/
def read (node : ChainNode V O) : Node V O where
  cursor := node.stores.ledger.cursor
  entities := fun ns => if ns = .utxos then ∅ else node.rows ns
  utxos := node.stores.ledger.utxos
  blocks := node.stores.archive.getRange none none
  logs := node.logs
  indexes := node.stores.indexes

section Run

variable [BlockDecoding O] [NonceCrypto] [RawBlocks O]

/-- `bootstrap_utxos`, with the cursor that genesis sets last. -/
def genesis (entities : OrderedMap NsKey CardanoEntity)
    (wal : Wal (LogValue (MultiEraBlock O) CardanoDelta O))
    (rows : StateNs → OrderedMap EntityKey V) (origin custom : UtxoMap O) : ChainNode V O :=
  let originDelta := { UtxoSetDelta.default with producedUtxo := origin }
  let customDelta := { UtxoSetDelta.default with producedUtxo := custom }
  let utxos := applyUtxoset (applyUtxoset ∅ originDelta) customDelta
  let indexes := (IndexStore.default.apply (indexDeltaFromUtxoDelta .origin originDelta)).apply
    (indexDeltaFromUtxoDelta .origin customDelta)
  ⟨⟨⟨⟨entities, utxos, some .origin, wal⟩, indexes⟩, .empty⟩, rows, .empty, 0⟩

/-- A commit, with the rows it leaves of the entities. -/
def execute (schedule : Schedule) (node : ChainNode V O) (commit : ChainCommit V O)
    (rows : StateNs → OrderedMap EntityKey V) : Except StoresError (ChainNode V O) := do
  let stores ← node.stores.execute (commit.domainUnit node.stores.ledger.utxos)
  .ok ⟨stores, rows, commit.logRows schedule node.number node.logs, commit.numberAfter node.number⟩

omit [NonceCrypto] in
/-- The commits a chain can bring: slots do not go back, and a boundary is crossed by a block of
the next epoch. -/
def Comes (schedule : Schedule) (node : ChainNode V O) : ChainCommit V O → Prop
  | .roll batch =>
      ChainBatch node.stores.ledger.utxos batch ∧
        ∀ work ∈ batch.blocks, node.cursorSlot ≤ work.block.slot
  | .estartFinalize _ slot _ => node.cursorSlot ≤ slot ∧ schedule.starts (node.number + 1) ≤ slot
  | _ => True

/-- The nodes that applying a chain leads to. The outputs of the configuration have
references of their own. -/
inductive Reaches (schedule : Schedule) : ChainNode V O → Prop
  | genesis {entities : OrderedMap NsKey CardanoEntity}
      {wal : Wal (LogValue (MultiEraBlock O) CardanoDelta O)}
      {rows : StateNs → OrderedMap EntityKey V} {origin custom : UtxoMap O} :
      schedule.starts 0 = 0 →
      (∀ txo, (origin.get? txo).isSome → custom.get? txo = none) →
      Reaches schedule (genesis entities wal rows origin custom)
  | commit {node next : ChainNode V O} {commit : ChainCommit V O}
      {rows : StateNs → OrderedMap EntityKey V} :
      Reaches schedule node → node.Comes schedule commit →
      node.execute schedule commit rows = .ok next → Reaches schedule next

end Run

section Rows

variable {schedule : Schedule} {node : ChainNode V O}

theorem begun_le (schedule : Schedule) {first second : ℕ} (le : first ≤ second) :
    schedule.starts first ≤ schedule.starts second :=
  (strictMono_nat_of_lt_succ schedule.rises).monotone le

/-- The rows of a commit are of epochs that have begun. -/
theorem before_logRows (commit : ChainCommit V O) {number slot : ℕ} {logs : LogTables V}
    (before : logs.Before (slot + 1)) (begun : schedule.starts number ≤ slot) :
    (commit.logRows schedule number logs).Before (slot + 1) := by
  have under : ∀ epoch ≤ number, schedule.starts epoch < slot + 1 := fun epoch le =>
    Nat.lt_succ_of_le ((begun_le schedule le).trans begun)
  cases commit with
  | roll batch => exact before
  | rupd effect pools =>
      rw [ChainCommit.logRows]
      split
      · exact before
      · rename_i performance found
        refine before.writeRows .stakes pools (under performance ?_)
        unfold Schedule.performanceEpoch at found
        split_ifs at found
        rw [← Option.some.inj found]
        exact Nat.sub_le number 1
  | ewrapShard effect accounts =>
      exact before.writeRows .accountEpochs accounts (under _ (Nat.sub_le number 1))
  | ewrapFinalize effect epoch => exact before.writeLog .epochs epoch (under number le_rfl)
  | estartShard effect => exact before
  | estartFinalize effect slot avvm => exact before

end Rows

section Invariant

variable [BlockDecoding O] [RawBlocks O] {schedule : Schedule} {node next : ChainNode V O}

/-- What holds between two commits. -/
structure Kept (schedule : Schedule) (node : ChainNode V O) : Prop where
  archived : ∃ blocks, node.stores.archive.Shows blocks ∧ blocks.Nodup ∧
    ∀ held ∈ blocks, held.1 ≤ node.cursorSlot ∧
      ∃ block : MultiEraBlock O, archivedBlock block = held
  tags : ∀ entry, entry ∈ node.stores.indexes.utxoTags ↔ Live node.stores.ledger.utxos entry
  indexed : node.stores.indexes.cursor.isSome
  cursors : ∀ slot hash, node.stores.ledger.cursor = some (.specific slot hash) →
    node.stores.indexes.cursor = some (.specific slot hash)
  recorded : node.stores.indexes.Within node.cursorSlot
  logged : node.logs.Before (node.cursorSlot + 1)
  begun : schedule.starts node.number ≤ node.cursorSlot

theorem kept_genesis {entities : OrderedMap NsKey CardanoEntity}
    {wal : Wal (LogValue (MultiEraBlock O) CardanoDelta O)}
    {rows : StateNs → OrderedMap EntityKey V} {origin custom : UtxoMap O}
    (first : schedule.starts 0 = 0)
    (apart : ∀ txo, (origin.get? txo).isSome → custom.get? txo = none) :
    Kept schedule (genesis entities wal rows origin custom) := by
  refine ⟨⟨[], ⟨[], ArchiveStore.holds_empty, rfl⟩, List.nodup_nil, by simp⟩, ?_, rfl, ?_, ?_, ?_,
    first.le⟩
  · intro entry
    change entry ∈ ((IndexStore.default.apply (indexDeltaFromUtxoDelta .origin _)).apply
      (indexDeltaFromUtxoDelta .origin _)).utxoTags ↔ Live (applyUtxoset (applyUtxoset ∅ _) _) entry
    rw [IndexStore.mem_utxoTags_apply, IndexStore.mem_utxoTags_apply]
    simp only [indexDeltaFromUtxoDelta, mem_tagged_withTags, Live, get?_applyUtxoset,
      UtxoSetDelta.default, OrderedMap.get?_empty]
    cases made : origin.get? entry.2 with
    | none => simp [IndexStore.default]
    | some body => simp [IndexStore.default, apart entry.2 (by simp [made])]
  · intro slot hash same
    cases same
  · refine ⟨fun record member => ?_, fun key slot held => ?_⟩
    · cases member
    · cases held
  · exact LogTables.before_empty _

/-- What a half of a boundary leaves in the stores. -/
theorem boundary_spec [NonceCrypto] {stores after : DomainStores O}
    {effect : OrderedMap NsKey CardanoEntity → UtxoMap O →
      Except DomainError (OrderedMap NsKey CardanoEntity × UtxoMap O)}
    {estart : Option ℕ} {reclaimed : UtxoMap O}
    (done : stores.execute (.boundary effect estart reclaimed) = .ok after) :
    ∃ entities utxos, effect stores.ledger.entities stores.ledger.utxos = .ok (entities, utxos) ∧
      after.ledger.utxos = utxos ∧
      after.ledger.cursor = (estart.map ChainPoint.slotOnly <|> stores.ledger.cursor) ∧
      after.indexes = IndexedStores.deleteReclaimed stores.indexes reclaimed ∧
      after.archive = stores.archive := by
  rcases bind_eq_ok.mp done with ⟨indexed, indexedEq, done⟩
  rcases Except.ok.inj done with rfl
  rcases bind_eq_ok.mp (mapError_eq_ok.mp indexedEq) with ⟨ledger, ledgerEq, indexedIs⟩
  rcases Except.ok.inj indexedIs with rfl
  rcases bind_eq_ok.mp ledgerEq with ⟨⟨entities, utxos⟩, effectEq, ledgerIs⟩
  rcases Except.ok.inj ledgerIs with rfl
  exact ⟨entities, utxos, effectEq, rfl, rfl, rfl, rfl⟩

omit [RawBlocks O] in
/-- The tags of the outputs that are reclaimed leave with them. -/
theorem mem_deleteReclaimed {indexes : IndexStore} {utxos : UtxoMap O} (refs : List TxoRef)
    (follows : ∀ entry, entry ∈ indexes.utxoTags ↔ Live utxos entry) (entry : Tag × TxoRef) :
    entry ∈ (IndexedStores.deleteReclaimed indexes (getUtxos utxos refs)).utxoTags ↔
      Live (applyUtxoset utxos
        { UtxoSetDelta.default with consumedUtxo := getUtxos utxos refs }) entry := by
  have left : entry ∈ (IndexedStores.deleteReclaimed indexes (getUtxos utxos refs)).utxoTags ↔
      Live utxos entry ∧ ¬ Live (getUtxos utxos refs) entry := by
    rw [IndexedStores.deleteReclaimed]
    split_ifs with nothing
    · rw [follows]
      refine (and_iff_left ?_).symm
      rintro ⟨body, held, -⟩
      rw [← OrderedMap.mem_entries_iff, List.isEmpty_iff.mp nothing] at held
      cases held
    · rw [IndexStore.mem_utxoTags_apply]
      simp only [indexDeltaFromUtxoDelta, UtxoSetDelta.default, mem_tagged_withTags, follows]
      simp [Live]
  rw [left]
  simp only [Live, get?_applyUtxoset, UtxoSetDelta.default,
    OrderedMap.get?_empty, get?_getUtxos]
  by_cases asked : entry.2 ∈ refs
  · cases utxos.get? entry.2 <;> simp [asked]
  · simp [asked]

omit [RawBlocks O] in
theorem within_deleteReclaimed {indexes : IndexStore} {bound : ℕ}
    (within : indexes.Within bound) (reclaimed : UtxoMap O) :
    (IndexedStores.deleteReclaimed indexes reclaimed).Within bound := by
  rw [IndexedStores.deleteReclaimed]
  split_ifs
  · exact within
  · exact within.apply fun block isBlock => by cases isBlock

section Steps

variable [NonceCrypto] {rows : StateNs → OrderedMap EntityKey V}

theorem Kept.rolls {batch : WorkBatch (WorkBlock O)} {stores : DomainStores O}
    (kept : Kept schedule node) (comes : node.Comes schedule (.roll batch))
    (done : node.stores.execute (.roll batch) = .ok stores) :
    Kept schedule (⟨stores, rows, node.logs, node.number⟩ : ChainNode V O) := by
  rcases comes with ⟨chained, notBefore⟩
  have leaves := DomainStores.leaves_of_roll chained done
  rcases leaves.stands with ⟨last, isLast, atMost, cursorEq, indexCursor⟩
  rcases leaves.indexes with ⟨works, loaded, blocksEq, loadedEq, resolved, indexesEq⟩
  rcases kept.archived with ⟨blocks, shown, once, each⟩
  have stands : cursorSlot (⟨stores, rows, node.logs, node.number⟩ : ChainNode V O) =
      last.block.slot := by
    rw [cursorSlot, cursorEq]
    rfl
  have forward := notBefore last isLast
  have given : ∀ work ∈ works, ∃ block ∈ batch.blocks, block.block = work.block := by
    intro work member
    have isBlock := List.mem_map_of_mem (f := WorkBlock.block) member
    rw [blocksEq] at isBlock
    exact List.mem_map.mp isBlock
  have fits : ∀ held ∈ batch.blocks.map fun work => archivedBlock work.block,
      FitsSegments held := by
    intro held member
    rcases List.mem_map.mp member with ⟨work, isWork, rfl⟩
    exact chained.bodies work isWork
  have inOrder : CommitsInOrder blocks (batch.blocks.map fun work => archivedBlock work.block) := by
    apply commitsInOrder_of_sorted
    · intro old isOld new isNew
      rcases List.mem_map.mp isNew with ⟨work, isWork, rfl⟩
      exact (each old isOld).1.trans (notBefore work isWork)
    · rw [List.pairwise_map]
      exact chained.inOrder
  refine ⟨⟨_, shown.commit fits inOrder leaves.archive, ?_, ?_⟩, ?_, ?_, ?_, ?_, ?_, ?_⟩
  · exact nodup_callBlocks once (.commit _)
  · intro held member
    rw [stands]
    rcases mem_foldl_storeBlock.mp member with isOld | isNew
    · exact ⟨(each held isOld).1.trans forward, (each held isOld).2⟩
    · rcases List.mem_map.mp isNew with ⟨work, isWork, rfl⟩
      exact ⟨atMost work isWork, work.block, rfl⟩
  · intro entry
    change entry ∈ stores.indexes.utxoTags ↔ Live stores.ledger.utxos entry
    have valid := chained.valid
    rw [← blocksEq] at valid loadedEq
    rw [indexesEq, leaves.utxos, ← blocksEq]
    refine mem_utxoTags_foldl resolved valid loadedEq ?_ kept.tags works []
      (List.append_nil _).symm entry
    intro work member
    rcases given work member with ⟨block, isBlock, same⟩
    rw [← same]
    exact chained.outputs block isBlock
  · exact Option.isSome_of_eq_some indexCursor
  · intro slot hash same
    exact indexCursor.trans (cursorEq.symm.trans same)
  · change stores.indexes.Within _
    rw [stands, indexesEq]
    refine within_foldl (kept.recorded.mono forward) ?_
    intro work member
    rcases given work member with ⟨block, isBlock, same⟩
    rw [← same]
    exact atMost block isBlock
  · rw [stands]
    exact kept.logged.mono (Nat.succ_le_succ forward)
  · rw [stands]
    exact kept.begun.trans forward

/-- A commit of entities changes neither the outputs nor the cursors. -/
theorem Kept.changes {effect : EntityEffect} {stores : DomainStores O} {logs : LogTables V}
    (kept : Kept schedule node) (before : logs.Before (node.cursorSlot + 1))
    (done : node.stores.execute (ChainCommit.entitiesOnly effect) = .ok stores) :
    Kept schedule (⟨stores, rows, logs, node.number⟩ : ChainNode V O) := by
  rcases boundary_spec done with
    ⟨entities, utxos, effectEq, utxosEq, cursorEq, indexesEq, archiveEq⟩
  rcases map_eq_ok.mp effectEq with ⟨after, -, same⟩
  rcases Prod.mk.inj same with ⟨-, rfl⟩
  have sameCursor : stores.ledger.cursor = node.stores.ledger.cursor := by simpa using cursorEq
  have sameIndexes : stores.indexes = node.stores.indexes := indexesEq
  have stands : cursorSlot (⟨stores, rows, logs, node.number⟩ : ChainNode V O) =
      node.cursorSlot := by
    rw [cursorSlot, cursorSlot, sameCursor]
  refine ⟨?_, ?_, ?_, ?_, ?_, ?_, ?_⟩
  · rw [stands, archiveEq]
    exact kept.archived
  · rw [sameIndexes, utxosEq]
    exact kept.tags
  · rw [sameIndexes]
    exact kept.indexed
  · rw [sameIndexes, sameCursor]
    exact kept.cursors
  · rw [sameIndexes, stands]
    exact kept.recorded
  · rw [stands]
    exact before
  · rw [stands]
    exact kept.begun

/-- Where an epoch opens, the cursor of the state moves and the reclaimed outputs leave with
their tags. -/
theorem Kept.opens {effect : EntityEffect} {slot : ℕ} {avvm : List TxoRef} {stores : DomainStores O}
    (kept : Kept schedule node) (comes : node.Comes schedule (.estartFinalize effect slot avvm))
    (done : node.stores.execute (ChainCommit.reclaims effect slot
      (getUtxos node.stores.ledger.utxos avvm)) = .ok stores) :
    Kept schedule (⟨stores, rows, node.logs, node.number + 1⟩ : ChainNode V O) := by
  rcases comes with ⟨forward, crosses⟩
  rcases boundary_spec done with
    ⟨entities, utxos, effectEq, utxosEq, cursorEq, indexesEq, archiveEq⟩
  rcases map_eq_ok.mp effectEq with ⟨after, -, same⟩
  rcases Prod.mk.inj same with ⟨-, rfl⟩
  have standsAt : stores.ledger.cursor = some (.slotOnly slot) := cursorEq
  have stands : cursorSlot (⟨stores, rows, node.logs, node.number + 1⟩ : ChainNode V O) = slot := by
    rw [cursorSlot, standsAt]
    rfl
  rcases kept.archived with ⟨blocks, shown, once, each⟩
  refine ⟨⟨blocks, ?_, once, ?_⟩, ?_, ?_, ?_, ?_, ?_, ?_⟩
  · rw [archiveEq]
    exact shown
  · intro held member
    exact ⟨((each held member).1.trans forward).trans stands.ge, (each held member).2⟩
  · rw [indexesEq, utxosEq]
    exact mem_deleteReclaimed avvm kept.tags
  · rw [indexesEq, IndexedStores.cursor_deleteReclaimed kept.indexed]
    exact kept.indexed
  · intro other hash same
    rw [standsAt] at same
    cases same
  · change (DomainStores.toIndexedStores stores).indexes.Within _
    rw [indexesEq]
    exact within_deleteReclaimed (kept.recorded.mono (forward.trans stands.ge)) _
  · exact kept.logged.mono (Nat.succ_le_succ (forward.trans stands.ge))
  · exact crosses.trans stands.ge

/-- What a commit keeps. -/
theorem Kept.execute {commit : ChainCommit V O} (kept : Kept schedule node)
    (comes : node.Comes schedule commit) (done : node.execute schedule commit rows = .ok next) :
    Kept schedule next := by
  have logged := before_logRows commit kept.logged kept.begun
  rcases bind_eq_ok.mp done with ⟨stores, storesEq, nextEq⟩
  rcases Except.ok.inj nextEq with rfl
  cases commit with
  | roll batch => exact kept.rolls comes storesEq
  | rupd effect pools => exact kept.changes logged storesEq
  | ewrapShard effect accounts => exact kept.changes logged storesEq
  | ewrapFinalize effect epoch => exact kept.changes logged storesEq
  | estartShard effect => exact kept.changes logged storesEq
  | estartFinalize effect slot avvm => exact kept.opens comes storesEq

/-- What holds wherever a chain leads. -/
theorem Reaches.kept (reached : Reaches schedule node) : Kept schedule node := by
  induction reached with
  | genesis first apart => exact kept_genesis first apart
  | commit _ comes done ih => exact ih.execute comes done

end Steps

end Invariant

end ChainNode

end Dolos.Snapshot
