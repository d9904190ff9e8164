import Dolos.Snapshot.Restore

/-!
# What the stores hold

The writes of a restore as keyed overwrites, for the epoch records and for the tip, and
what neither kind of write touches. A node is known by the records it holds, by the order
of its blocks, by the tags of its unspent outputs and by its two cursors.
-/

namespace Dolos.Snapshot

open Writes BlockDecoding

variable {V O D : Type}

namespace EpochWrite

def SameKey : EpochWrite V → EpochWrite V → Prop
  | .block slot body, .block otherSlot otherBody => (slot, body) = (otherSlot, otherBody)
  | .log ns key _, .log otherNs otherKey _ => ns = otherNs ∧ key = otherKey
  | .tag record, .tag otherRecord => record = otherRecord
  | .exact key _, .exact otherKey _ => key = otherKey
  | _, _ => False

def asBlock? : EpochWrite V → Option (ℕ × Bytes)
  | .block slot body => some (slot, body)
  | _ => none

end EpochWrite

namespace TipWrite

def SameKey : TipWrite V O → TipWrite V O → Prop
  | .entity ns key _, .entity otherNs otherKey _ => ns = otherNs ∧ key = otherKey
  | .utxo txo _, .utxo otherTxo _ => txo = otherTxo
  | _, _ => False

end TipWrite

theorem EpochWrite.SameKey.refl (write : EpochWrite V) : write.SameKey write := by
  cases write <;> simp [EpochWrite.SameKey]

theorem TipWrite.SameKey.refl (write : TipWrite V O) : write.SameKey write := by
  cases write <;> simp [TipWrite.SameKey]

namespace Node

def HoldsEpoch (node : Node V O) : EpochWrite V → Prop
  | .block slot body => (slot, body) ∈ node.blocks
  | .log ns key value => (node.logs.rows ns).get? key = some value
  | .tag record => record ∈ node.indexes.archiveTags
  | .exact key slot => node.indexes.exact.get? key = some slot

def HoldsTip (node : Node V O) : TipWrite V O → Prop
  | .entity ns key value => (node.entities ns).get? key = some value
  | .utxo txo value => node.utxos.get? txo = some value

theorem get?_insert_eq_some {κ α : Type} [LinearOrder κ] (map : OrderedMap κ α) (key other : κ)
    (value found : α) :
    (map.insert key value).get? other = some found ↔
      other = key ∧ found = value ∨ ¬ key = other ∧ map.get? other = some found := by
  rw [OrderedMap.get?_insert]
  split_ifs with same
  · simp [same, eq_comm]
  · simp [same, Ne.symm same]

theorem holdsEpoch_writeEpoch (node : Node V O) (written other : EpochWrite V) :
    (node.writeEpoch written).HoldsEpoch other ↔
      other = written ∨ ¬ written.SameKey other ∧ node.HoldsEpoch other := by
  cases written with
  | block slot body =>
      cases other <;> simp [writeEpoch, HoldsEpoch, EpochWrite.SameKey, mem_storeOnce]
      tauto
  | log ns key value =>
      cases other with
      | log otherNs otherKey otherValue =>
          simp only [writeEpoch, HoldsEpoch, EpochWrite.SameKey, LogTables.writeLog]
          by_cases same : otherNs = ns
          · subst same
            simp [get?_insert_eq_some]
          · simp [same, Ne.symm same]
      | _ => simp [writeEpoch, HoldsEpoch, EpochWrite.SameKey]
  | tag record =>
      cases other <;> simp [writeEpoch, HoldsEpoch, EpochWrite.SameKey]
      tauto
  | exact key slot =>
      cases other <;> simp [writeEpoch, HoldsEpoch, EpochWrite.SameKey, get?_insert_eq_some]

theorem holdsTip_writeTip (node : Node V O) (written other : TipWrite V O) :
    (node.writeTip written).HoldsTip other ↔
      other = written ∨ ¬ written.SameKey other ∧ node.HoldsTip other := by
  cases written with
  | entity ns key value =>
      cases other with
      | entity otherNs otherKey otherValue =>
          simp only [writeTip, HoldsTip, TipWrite.SameKey]
          by_cases same : otherNs = ns
          · subst same
            simp [get?_insert_eq_some]
          · simp [same, Ne.symm same]
      | utxo _ _ => simp [writeTip, HoldsTip, TipWrite.SameKey]
  | utxo txo value =>
      cases other <;> simp [writeTip, HoldsTip, TipWrite.SameKey, get?_insert_eq_some]

/-- The stores under the records of the epochs. -/
def epochStore : Overwriting (Node V O) (EpochWrite V) where
  Holds := HoldsEpoch
  write := writeEpoch
  SameKey := EpochWrite.SameKey
  holds_write := holdsEpoch_writeEpoch
  unique node first second holdsFirst holdsSecond same := by
    cases first <;> cases second <;> simp_all [HoldsEpoch, EpochWrite.SameKey]

/-- The stores under the records of the tip. -/
def tipStore : Overwriting (Node V O) (TipWrite V O) where
  Holds := HoldsTip
  write := writeTip
  SameKey := TipWrite.SameKey
  holds_write := holdsTip_writeTip
  unique node first second holdsFirst holdsSecond same := by
    cases first <;> cases second <;> simp_all [HoldsTip, TipWrite.SameKey]

/-- What the records of the epochs leave alone. -/
structure SameTip (first second : Node V O) : Prop where
  cursor : first.cursor = second.cursor
  entities : first.entities = second.entities
  utxos : first.utxos = second.utxos
  utxoTags : first.indexes.utxoTags = second.indexes.utxoTags

/-- What the records of the tip and the tags of the outputs leave alone. -/
structure SameEpochs (first second : Node V O) : Prop where
  blocks : first.blocks = second.blocks
  logs : first.logs = second.logs
  archiveTags : first.indexes.archiveTags = second.indexes.archiveTags
  exact : first.indexes.exact = second.indexes.exact

theorem SameTip.holds {first second : Node V O} (same : SameTip first second)
    (write : TipWrite V O) : first.HoldsTip write ↔ second.HoldsTip write := by
  cases write <;> simp [HoldsTip, same.entities, same.utxos]

theorem SameEpochs.holds {first second : Node V O} (same : SameEpochs first second)
    (write : EpochWrite V) : first.HoldsEpoch write ↔ second.HoldsEpoch write := by
  cases write <;> simp [HoldsEpoch, same.blocks, same.logs, same.archiveTags, same.exact]

theorem SameTip.trans {first second third : Node V O} (before : SameTip first second)
    (after : SameTip second third) : SameTip first third where
  cursor := before.cursor.trans after.cursor
  entities := before.entities.trans after.entities
  utxos := before.utxos.trans after.utxos
  utxoTags := before.utxoTags.trans after.utxoTags

theorem sameTip_writeEpochs (node : Node V O) (writes : List (EpochWrite V)) :
    SameTip (writes.foldl writeEpoch node) node := by
  induction writes generalizing node with
  | nil => exact ⟨rfl, rfl, rfl, rfl⟩
  | cons first rest ih =>
      refine (ih (node.writeEpoch first)).trans ?_
      cases first <;> exact ⟨rfl, rfl, rfl, rfl⟩

theorem writeTips_eq (node : Node V O) (writes : List (TipWrite V O)) :
    (writes.foldl writeTip node).cursor = node.cursor ∧
      (writes.foldl writeTip node).indexes = node.indexes ∧
      SameEpochs (writes.foldl writeTip node) node := by
  induction writes generalizing node with
  | nil => exact ⟨rfl, rfl, ⟨rfl, rfl, rfl, rfl⟩⟩
  | cons first rest ih =>
      rcases ih (node.writeTip first) with ⟨cursor, indexes, same⟩
      cases first <;> exact ⟨cursor, indexes,
        ⟨same.blocks, same.logs, same.archiveTags, same.exact⟩⟩

/-- The blocks of some records, stored in their order. -/
theorem blocks_writeEpochs (node : Node V O) (writes : List (EpochWrite V)) :
    (writes.foldl writeEpoch node).blocks =
      (writes.filterMap EpochWrite.asBlock?).foldl (storeOnce Prod.fst) node.blocks := by
  induction writes generalizing node with
  | nil => rfl
  | cons first rest ih =>
      rw [List.foldl_cons, ih]
      cases first <;> rfl

theorem eq_of_holds {first second : Node V O} (cursor : first.cursor = second.cursor)
    (indexCursor : first.indexes.cursor = second.indexes.cursor)
    (blocks : first.blocks = second.blocks)
    (epochs : ∀ write, first.HoldsEpoch write ↔ second.HoldsEpoch write)
    (tip : ∀ write, first.HoldsTip write ↔ second.HoldsTip write)
    (utxoTags : first.indexes.utxoTags = second.indexes.utxoTags) : first = second := by
  have sameMap : ∀ {κ α : Type} [LinearOrder κ] {left right : OrderedMap κ α},
      (∀ key value, left.get? key = some value ↔ right.get? key = some value) → left = right :=
    fun same => OrderedMap.ext fun key => Option.ext fun value => same key value
  apply Node.ext cursor
  · funext ns
    exact sameMap fun key value => tip (.entity ns key value)
  · exact sameMap fun txo value => tip (.utxo txo value)
  · exact blocks
  · apply LogTables.ext
    funext ns
    exact sameMap fun key value => epochs (.log ns key value)
  · apply IndexStore.ext indexCursor utxoTags
    · exact Finset.ext fun record => epochs (.tag record)
    · exact sameMap fun key slot => epochs (.exact key slot)

end Node

section Tags

variable [BlockDecoding O]

/-- A tag of one of some outputs. -/
def TagOf (outputs : List (TxoRef × O)) (entry : Tag × TxoRef) : Prop :=
  ∃ body, (entry.2, body) ∈ outputs ∧ entry.1 ∈ extractUtxoTags (output body)

theorem mem_utxoTags_tagChunk {point : ChainPoint} {indexes : IndexStore}
    {chunk : List (TxoRef × O)} {entry : Tag × TxoRef} :
    entry ∈ (tagChunk point indexes chunk).utxoTags ↔
      Live (.ofList chunk) entry ∨ entry ∈ indexes.utxoTags := by
  change entry ∈ insertEach indexes.utxoTags (IndexStore.tagged (withTags (.ofList chunk))) ↔ _
  rw [mem_insertEach, mem_tagged_withTags]

theorem live_ofList {outputs : List (TxoRef × O)} (nodup : (outputs.map Prod.fst).Nodup)
    {entry : Tag × TxoRef} : Live (.ofList outputs) entry ↔ TagOf outputs entry := by
  simp only [Live, TagOf, OrderedMap.get?_ofList_iff nodup]

theorem mem_utxoTags_tagChunks {point : ChainPoint} {chunks : List (List (TxoRef × O))}
    (nodup : (chunks.flatten.map Prod.fst).Nodup) {indexes : IndexStore} {entry : Tag × TxoRef} :
    entry ∈ (chunks.foldl (tagChunk point) indexes).utxoTags ↔
      TagOf chunks.flatten entry ∨ entry ∈ indexes.utxoTags := by
  induction chunks generalizing indexes with
  | nil => simp [TagOf]
  | cons chunk rest ih =>
      rw [List.flatten_cons, List.map_append] at nodup
      have nodupChunk := (List.nodup_append.mp nodup).1
      have nodupRest := (List.nodup_append.mp nodup).2.1
      rw [List.foldl_cons, ih nodupRest, mem_utxoTags_tagChunk, live_ofList nodupChunk]
      simp only [TagOf, List.flatten_cons, List.mem_append, or_and_right, exists_or]
      exact or_left_comm.trans or_assoc.symm

theorem tagChunks_eq (point : ChainPoint) (node : Node V O) (chunks : List (List (TxoRef × O))) :
    (tagChunks point node chunks).indexes.cursor =
        (if chunks = [] then node.indexes.cursor else some point) ∧
      (tagChunks point node chunks).SameEpochs node := by
  have kept : ∀ indexes : IndexStore,
      (chunks.foldl (tagChunk point) indexes).cursor =
          (if chunks = [] then indexes.cursor else some point) ∧
        (chunks.foldl (tagChunk point) indexes).archiveTags = indexes.archiveTags ∧
        (chunks.foldl (tagChunk point) indexes).exact = indexes.exact := by
    induction chunks with
    | nil => exact fun indexes => ⟨rfl, rfl, rfl⟩
    | cons chunk rest ih =>
        intro indexes
        rcases ih (tagChunk point indexes chunk) with ⟨cursor, archiveTags, exact⟩
        refine ⟨?_, archiveTags, exact⟩
        rw [List.foldl_cons, cursor]
        simp [tagChunk, IndexStore.apply, indexDeltaFromUtxoDelta]
  rcases kept node.indexes with ⟨cursor, archiveTags, exact⟩
  exact ⟨cursor, ⟨rfl, rfl, archiveTags, exact⟩⟩

omit [BlockDecoding O] in
theorem flatten_utxoChunks (budget : Budget) (utxos : UtxoMap O) :
    (utxoChunks budget utxos).flatten = utxos.entries :=
  flatten_gather _ [] utxos.entries

theorem gather_ne_nil {A : Type} (full : List A → Bool) (chunk items : List A) :
    gather full chunk items ≠ [] := by
  induction items generalizing chunk with
  | nil => simp [gather]
  | cons item rest ih =>
      rw [gather]
      split_ifs
      · simp
      · exact ih _

omit [BlockDecoding O] in
theorem utxoChunks_ne_nil (budget : Budget) (utxos : UtxoMap O) : utxoChunks budget utxos ≠ [] :=
  gather_ne_nil _ _ _

end Tags

end Dolos.Snapshot
