import Dolos.Core.FjallIndexes

/-!
# Applying an index delta and undoing it

Both index stores take a delta back by removing what it wrote and writing what it
removed, in the same order: the tags of produced outputs go first, those of consumed
outputs come back last. So an output that is produced and consumed by one delta, in
neither store before, comes back with the undo; and a record that the delta has
overwritten is lost, since the undo only removes the delta's own.
-/

namespace Dolos

open Writes

variable [KeyHashing]

namespace IndexStore

/-- The contents of two stores are the same. -/
structure SameContents (store other : IndexStore) : Prop where
  utxoTags : store.utxoTags = other.utxoTags
  archiveTags : store.archiveTags = other.archiveTags
  exact : store.exact = other.exact

/-- A delta that leaves everything in the store as it is, once undone: outputs that are
consumed have their tags in the store, no output that is produced has, and no record or
archive tag of a block is in the store. -/
structure Invertible (store : IndexStore) (delta : IndexDelta) : Prop where
  consumed : ∀ entry ∈ tagged delta.utxo.consumed, entry ∈ store.utxoTags
  produced : ∀ entry ∈ tagged delta.utxo.produced, entry ∈ store.utxoTags →
    entry ∈ tagged delta.utxo.consumed
  archiveTags : ∀ block ∈ delta.archive, ∀ tag ∈ block.archiveTags, tag ∉ store.archiveTags
  exact : ∀ block ∈ delta.archive, ∀ key ∈ block.exactKeys, store.exact.get? key = none

theorem archiveTags_apply (store : IndexStore) (delta : IndexDelta) :
    (store.apply delta).archiveTags =
      insertEach store.archiveTags (delta.archive.flatMap ArchiveIndexDelta.archiveTags) := by
  rw [insertEach, List.foldl_flatMap]
  rfl

theorem archiveTags_undo (store : IndexStore) (delta : IndexDelta) :
    (store.undo delta).archiveTags =
      eraseEach store.archiveTags (delta.archive.reverse.flatMap ArchiveIndexDelta.archiveTags) := by
  rw [eraseEach, List.foldl_flatMap]
  rfl

omit [KeyHashing] in
theorem get?_insertExact (exact : OrderedMap ExactKey ℕ) (block : ArchiveIndexDelta) :
    (insertExact exact block).get? = setEach exact.get? block.exactKeys (some block.slot) := by
  funext key
  rw [setEach_apply]
  split_ifs with listed
  · apply OrderedMap.get?_insertAll_of_mem
    · exact List.mem_map.mpr ⟨key, listed, rfl⟩
    · intro slot member
      rcases List.mem_map.mp member with ⟨other, -, same⟩
      exact (congrArg Prod.snd same).symm
  · apply OrderedMap.get?_insertAll_of_notMem
    rw [List.map_map]
    intro member
    rcases List.mem_map.mp member with ⟨other, isOther, rfl⟩
    exact listed isOther

omit [KeyHashing] in
theorem get?_removeExact (exact : OrderedMap ExactKey ℕ) (block : ArchiveIndexDelta) :
    (removeExact exact block).get? = setEach exact.get? block.exactKeys none := by
  funext key
  rw [setEach_apply, removeExact, OrderedMap.get?_eraseAll]
  congr

/-- The exact records a delta writes, block by block. -/
def exactWrites (blocks : List ArchiveIndexDelta) : List (List ExactKey × ℕ) :=
  blocks.map fun block => (block.exactKeys, block.slot)

omit [KeyHashing] in
theorem get?_foldl_insertExact (blocks : List ArchiveIndexDelta) (exact : OrderedMap ExactKey ℕ) :
    (blocks.foldl insertExact exact).get? = setAll exact.get? (exactWrites blocks) := by
  induction blocks generalizing exact with
  | nil => rfl
  | cons block rest ih =>
      rw [List.foldl_cons, ih, get?_insertExact]
      rfl

omit [KeyHashing] in
theorem get?_foldl_removeExact (blocks : List ArchiveIndexDelta) (exact : OrderedMap ExactKey ℕ) :
    (blocks.foldl removeExact exact).get? = clearAll exact.get? (exactWrites blocks) := by
  induction blocks generalizing exact with
  | nil => rfl
  | cons block rest ih =>
      rw [List.foldl_cons, ih, get?_removeExact]
      rfl

theorem get?_undo_apply (store : IndexStore) (delta : IndexDelta) :
    ((store.apply delta).undo delta).exact.get? =
      clearAll (setAll store.exact.get? (exactWrites delta.archive))
        (exactWrites delta.archive).reverse := by
  change (delta.archive.reverse.foldl removeExact
    (delta.archive.foldl insertExact store.exact)).get? = _
  have reversed : exactWrites delta.archive.reverse = (exactWrites delta.archive).reverse :=
    List.map_reverse
  rw [get?_foldl_removeExact, get?_foldl_insertExact, reversed]

theorem sameContents_undo_apply_iff (store : IndexStore) (delta : IndexDelta) :
    SameContents ((store.apply delta).undo delta) store ↔ store.Invertible delta := by
  have tagsIff : ((store.apply delta).undo delta).utxoTags = store.utxoTags ↔ _ :=
    @undone_applied_iff _ _ store.utxoTags (tagged delta.utxo.produced)
      (tagged delta.utxo.consumed)
  have archiveIff : ((store.apply delta).undo delta).archiveTags = store.archiveTags ↔
      ∀ tag ∈ delta.archive.flatMap ArchiveIndexDelta.archiveTags, tag ∉ store.archiveTags := by
    rw [archiveTags_undo, archiveTags_apply]
    refine eraseEach_insertEach_iff ?_
    intro tag
    simp
  have exactIff : ((store.apply delta).undo delta).exact = store.exact ↔
      ∀ block ∈ delta.archive, ∀ key ∈ block.exactKeys, store.exact.get? key = none := by
    have byKey : ((store.apply delta).undo delta).exact = store.exact ↔
        ((store.apply delta).undo delta).exact.get? = store.exact.get? :=
      ⟨congrArg _, fun same => OrderedMap.ext fun key => congrFun same key⟩
    rw [byKey, get?_undo_apply, clearAll_setAll_iff]
    simp [exactWrites]
  constructor
  · rintro ⟨tagsEq, archiveEq, exactEq⟩
    rcases tagsIff.mp tagsEq with ⟨consumed, produced⟩
    refine ⟨consumed, produced, ?_, exactIff.mp exactEq⟩
    intro block member tag isTag
    exact archiveIff.mp archiveEq tag (List.mem_flatMap.mpr ⟨block, member, isTag⟩)
  · rintro ⟨consumed, produced, archive, exact⟩
    refine ⟨tagsIff.mpr ⟨consumed, produced⟩, archiveIff.mpr ?_, exactIff.mpr exact⟩
    intro tag isTag
    rcases List.mem_flatMap.mp isTag with ⟨block, member, tagOf⟩
    exact archive block member tag tagOf

end IndexStore

namespace FjallIndexStore

variable [DimensionHashing]

structure SameContents (store other : FjallIndexStore) : Prop where
  utxoTags : store.utxoTags = other.utxoTags
  blockTags : store.blockTags = other.blockTags
  exact : store.exact = other.exact

/-- The same for the keys of the store. -/
structure Invertible (store : FjallIndexStore) (delta : IndexDelta) : Prop where
  consumed : ∀ key ∈ tagKeys delta.utxo.consumed, key ∈ store.utxoTags
  produced : ∀ key ∈ tagKeys delta.utxo.produced, key ∈ store.utxoTags →
    key ∈ tagKeys delta.utxo.consumed
  blockTags : ∀ block ∈ delta.archive, ∀ key ∈ blockTagKeys block, key ∉ store.blockTags
  exact : ∀ block ∈ delta.archive, ∀ key ∈ exactKeys block, store.exact key = none

theorem blockTags_apply (store : FjallIndexStore) (delta : IndexDelta) :
    (store.apply delta).blockTags =
      insertEach store.blockTags (delta.archive.flatMap blockTagKeys) := by
  rw [insertEach, List.foldl_flatMap]
  rfl

theorem blockTags_undo (store : FjallIndexStore) (delta : IndexDelta) :
    (store.undo delta).blockTags =
      eraseEach store.blockTags (delta.archive.reverse.flatMap blockTagKeys) := by
  rw [eraseEach, List.foldl_flatMap]
  rfl

def exactWrites (blocks : List ArchiveIndexDelta) : List (List Bytes × ℕ) :=
  blocks.map fun block => (exactKeys block, block.slot)

theorem exact_undo_apply (store : FjallIndexStore) (delta : IndexDelta) :
    ((store.apply delta).undo delta).exact =
      clearAll (setAll store.exact (exactWrites delta.archive))
        (exactWrites delta.archive).reverse := by
  rw [exactWrites, ← List.map_reverse, clearAll, List.foldl_map, setAll, List.foldl_map]
  rfl

theorem sameContents_undo_apply_iff (store : FjallIndexStore) (delta : IndexDelta) :
    SameContents ((store.apply delta).undo delta) store ↔ store.Invertible delta := by
  have tagsIff : ((store.apply delta).undo delta).utxoTags = store.utxoTags ↔ _ :=
    @undone_applied_iff _ _ store.utxoTags (tagKeys delta.utxo.produced)
      (tagKeys delta.utxo.consumed)
  have blockIff : ((store.apply delta).undo delta).blockTags = store.blockTags ↔
      ∀ key ∈ delta.archive.flatMap blockTagKeys, key ∉ store.blockTags := by
    rw [blockTags_undo, blockTags_apply]
    refine eraseEach_insertEach_iff ?_
    intro key
    simp
  have exactIff : ((store.apply delta).undo delta).exact = store.exact ↔
      ∀ block ∈ delta.archive, ∀ key ∈ exactKeys block, store.exact key = none := by
    rw [exact_undo_apply, clearAll_setAll_iff]
    simp [exactWrites]
  constructor
  · rintro ⟨tagsEq, blockEq, exactEq⟩
    rcases tagsIff.mp tagsEq with ⟨consumed, produced⟩
    refine ⟨consumed, produced, ?_, exactIff.mp exactEq⟩
    intro block member key isKey
    exact blockIff.mp blockEq key (List.mem_flatMap.mpr ⟨block, member, isKey⟩)
  · rintro ⟨consumed, produced, blocks, exact⟩
    refine ⟨tagsIff.mpr ⟨consumed, produced⟩, blockIff.mpr ?_, exactIff.mpr exact⟩
    intro key isKey
    rcases List.mem_flatMap.mp isKey with ⟨block, member, keyOf⟩
    exact blocks block member key keyOf

end FjallIndexStore

/-- In any state of either store, applying a delta and undoing it leaves the contents as
they were exactly when the delta is invertible there. -/
theorem undo_apply_restores_iff [DimensionHashing] (memory : IndexStore)
    (disk : FjallIndexStore) (delta : IndexDelta) :
    (((memory.apply delta).undo delta).SameContents memory ↔ memory.Invertible delta) ∧
      (((disk.apply delta).undo delta).SameContents disk ↔ disk.Invertible delta) :=
  ⟨memory.sameContents_undo_apply_iff delta, disk.sameContents_undo_apply_iff delta⟩

/-- The records and archive tags of a block are new to both stores. -/
structure RecordsFresh [DimensionHashing] (memory : IndexStore) (disk : FjallIndexStore)
    (archive : ArchiveIndexDelta) : Prop where
  exact : ∀ key ∈ archive.exactKeys, memory.exact.get? key = none
  exactKeys : ∀ key ∈ FjallIndexStore.exactKeys archive, disk.exact key = none
  archiveTags : ∀ tag ∈ archive.archiveTags, tag ∉ memory.archiveTags
  blockTags : ∀ key ∈ FjallIndexStore.blockTagKeys archive, key ∉ disk.blockTags

end Dolos
