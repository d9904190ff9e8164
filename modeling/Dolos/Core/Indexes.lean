import Mathlib.Data.Finset.Basic
import Dolos.Core.State

/-!
# The index store

`core/src/indexes.rs` and the tables of `core/src/builtin/memory/index.rs`. Filter
tags say which unspent outputs carry a tag; exact records and archive tags say in
which slot a hash, a block number or a tag was seen. A delta is applied with the
blocks of a batch and taken back by `undo`, which leaves the cursor alone.

Hashes are as wide as their kind wants them, so no exact key is refused.
-/

namespace Dolos

abbrev Bytes := List UInt8

/-- The last bytes of a number, the highest first. -/
def toBeBytes (width value : ℕ) : Bytes :=
  (List.range width).reverse.map fun place => UInt8.ofNat (value / 256 ^ place)

inductive TagDimension where
  | address
  | payment
  | stake
  | asset
  | policy
  | scriptRef
  | datum
  | script
  | spentTxo
  | accountCerts
  | poolCerts
  | accountWithdrawals
  | metadata
  deriving DecidableEq, Repr

structure Tag where
  dimension : TagDimension
  key : Bytes
  deriving DecidableEq, Repr

structure UtxoIndexDelta where
  produced : List (TxoRef × List Tag)
  consumed : List (TxoRef × List Tag)

structure ArchiveIndexDelta where
  slot : ℕ
  blockHash : BlockHash
  blockNumber : Option ℕ
  txHashes : List BlockHash
  tags : List Tag

structure IndexDelta where
  cursor : ChainPoint
  utxo : UtxoIndexDelta
  archive : List ArchiveIndexDelta

def IndexDelta.ofCursor (cursor : ChainPoint) : IndexDelta := ⟨cursor, ⟨[], []⟩, []⟩

inductive ExactKind where
  | blockHash
  | blockNumber
  | txHash
  deriving DecidableEq, Repr

/-- The place of a kind in the order of the kinds' names. -/
def ExactKind.rank : ExactKind → ℕ
  | blockHash => 0
  | blockNumber => 1
  | txHash => 2

instance : LinearOrder ExactKind :=
  LinearOrder.lift' ExactKind.rank fun left right same => by
    cases left <;> cases right <;> first | rfl | cases same

abbrev ExactKey := ExactKind ×ₗ ℕ

abbrev ArchiveTag := TagDimension × Bytes × ℕ

/-- The hash function of the stored tag keys. -/
class KeyHashing where
  xxh3 : Bytes → Bytes

/-- Metadata labels are stored as they are, if they have eight bytes. -/
def keyHash [KeyHashing] (dimension : TagDimension) (key : Bytes) : Option Bytes :=
  if dimension = .metadata then
    if key.length = 8 then some key else none
  else some (KeyHashing.xxh3 key)

namespace ArchiveIndexDelta

def exactKeys (block : ArchiveIndexDelta) : List ExactKey :=
  [toLex (.blockHash, block.blockHash.val)] ++
    block.txHashes.map (fun hash => toLex (.txHash, hash.val)) ++
    (block.blockNumber.map fun number => toLex (.blockNumber, number)).toList

def archiveTags [KeyHashing] (block : ArchiveIndexDelta) : List ArchiveTag :=
  block.tags.filterMap fun tag =>
    (keyHash tag.dimension tag.key).map fun hash => (tag.dimension, hash, block.slot)

end ArchiveIndexDelta

@[ext]
structure IndexStore where
  cursor : Option ChainPoint
  utxoTags : Finset (Tag × TxoRef)
  archiveTags : Finset ArchiveTag
  exact : OrderedMap ExactKey ℕ

namespace IndexStore

def tagged (outputs : List (TxoRef × List Tag)) : List (Tag × TxoRef) :=
  outputs.flatMap fun output => output.2.map fun tag => (tag, output.1)

def insertTags (tags : Finset (Tag × TxoRef)) (outputs : List (TxoRef × List Tag)) :
    Finset (Tag × TxoRef) :=
  (tagged outputs).foldl (fun tags tag => insert tag tags) tags

def removeTags (tags : Finset (Tag × TxoRef)) (outputs : List (TxoRef × List Tag)) :
    Finset (Tag × TxoRef) :=
  (tagged outputs).foldl Finset.erase tags

def insertExact (exact : OrderedMap ExactKey ℕ) (block : ArchiveIndexDelta) :
    OrderedMap ExactKey ℕ :=
  exact.insertAll (block.exactKeys.map fun key => (key, block.slot))

def removeExact (exact : OrderedMap ExactKey ℕ) (block : ArchiveIndexDelta) :
    OrderedMap ExactKey ℕ :=
  exact.eraseAll block.exactKeys

variable [KeyHashing]

def insertArchiveTags (tags : Finset ArchiveTag) (block : ArchiveIndexDelta) :
    Finset ArchiveTag :=
  block.archiveTags.foldl (fun tags tag => insert tag tags) tags

def removeArchiveTags (tags : Finset ArchiveTag) (block : ArchiveIndexDelta) :
    Finset ArchiveTag :=
  block.archiveTags.foldl Finset.erase tags

def apply (store : IndexStore) (delta : IndexDelta) : IndexStore where
  cursor := some delta.cursor
  utxoTags := removeTags (insertTags store.utxoTags delta.utxo.produced) delta.utxo.consumed
  archiveTags := delta.archive.foldl insertArchiveTags store.archiveTags
  exact := delta.archive.foldl insertExact store.exact

/-- The inverse of `apply`, blocks walked back to front. -/
def undo (store : IndexStore) (delta : IndexDelta) : IndexStore where
  cursor := store.cursor
  utxoTags := insertTags (removeTags store.utxoTags delta.utxo.produced) delta.utxo.consumed
  archiveTags := delta.archive.reverse.foldl removeArchiveTags store.archiveTags
  exact := delta.archive.reverse.foldl removeExact store.exact

omit [KeyHashing] in
theorem isSome_insertExact (exact : OrderedMap ExactKey ℕ) (block : ArchiveIndexDelta)
    (key : ExactKey) :
    ((insertExact exact block).get? key).isSome ↔
      key ∈ block.exactKeys ∨ (exact.get? key).isSome := by
  by_cases listed : key ∈ block.exactKeys
  · have inserted : (insertExact exact block).get? key = some block.slot := by
      apply OrderedMap.get?_insertAll_of_mem
      · exact List.mem_map.mpr ⟨key, listed, rfl⟩
      · intro slot member
        rcases List.mem_map.mp member with ⟨other, -, same⟩
        exact (congrArg Prod.snd same).symm
    simp [inserted, listed]
  · have kept : (insertExact exact block).get? key = exact.get? key := by
      apply OrderedMap.get?_insertAll_of_notMem
      rw [List.map_map]
      intro member
      rcases List.mem_map.mp member with ⟨other, isOther, rfl⟩
      exact listed isOther
    simp [kept, listed]

/-- A delta adds the keys of its blocks to the exact records and keeps the others. -/
theorem isSome_exact_apply (store : IndexStore) (delta : IndexDelta) (key : ExactKey) :
    ((store.apply delta).exact.get? key).isSome ↔
      (∃ block ∈ delta.archive, key ∈ block.exactKeys) ∨ (store.exact.get? key).isSome := by
  have folded : ∀ (blocks : List ArchiveIndexDelta) (exact : OrderedMap ExactKey ℕ),
      ((blocks.foldl insertExact exact).get? key).isSome ↔
        (∃ block ∈ blocks, key ∈ block.exactKeys) ∨ (exact.get? key).isSome := by
    intro blocks
    induction blocks with
    | nil => simp
    | cons block rest ih =>
        intro exact
        rw [List.foldl_cons, ih, isSome_insertExact]
        simp only [List.mem_cons, exists_eq_or_imp, or_left_comm, or_assoc]
  exact folded delta.archive store.exact

/-- Applying a delta with nothing in it moves the cursor. -/
theorem apply_ofCursor (store : IndexStore) (cursor : ChainPoint) :
    store.apply (.ofCursor cursor) = { store with cursor := some cursor } := rfl

/-- Undoing a delta with nothing in it does nothing. -/
theorem undo_ofCursor (store : IndexStore) (cursor : ChainPoint) :
    store.undo (.ofCursor cursor) = store := rfl

end IndexStore

end Dolos
