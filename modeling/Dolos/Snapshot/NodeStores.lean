import Mathlib.Data.Finset.Sort
import Dolos.Snapshot.ExportLaw
import Dolos.Snapshot.Node

/-!
# The stores of a node as an export reads them

Ranges are half-open in every store. The tags of the index come in the order of their
stored keys, and the iteration over the entities of a namespace ends before the last key
there is. A layer of an epoch depends on the records of its window alone.
-/

namespace Dolos.Snapshot

open Outcome

variable {V O D : Type}

theorem nameRank_injective : Function.Injective nameRank := by
  intro left right same
  cases left <;> cases right <;> first | rfl | cases same

theorem tagKey_injective : Function.Injective tagKey := by
  rintro ⟨dimension, key, slot⟩ ⟨otherDimension, otherKey, otherSlot⟩ same
  simp only [tagKey, EmbeddingLike.apply_eq_iff_eq, Prod.mk.injEq] at same
  rcases same with ⟨sameRank, sameKey, rfl⟩
  have sameBytes := List.map_injective_iff.mpr (fun _ _ => UInt8.toNat_inj.mp) sameKey
  rw [nameRank_injective sameRank, sameBytes]

/-- The order of the stored keys. -/
def TagLe (left right : ArchiveTag) : Prop := tagKey left ≤ tagKey right

instance : DecidableRel TagLe := fun left right =>
  inferInstanceAs (Decidable (tagKey left ≤ tagKey right))

instance : IsTrans ArchiveTag TagLe := ⟨fun _ _ _ => le_trans⟩

instance : Std.Antisymm TagLe :=
  ⟨fun _ _ first second => tagKey_injective (le_antisymm first second)⟩

instance : Std.Total TagLe := ⟨fun left right => le_total (tagKey left) (tagKey right)⟩

theorem filter_sort_tags (tags : Finset ArchiveTag) (keep : ArchiveTag → Bool) :
    (tags.sort TagLe).filter keep = (tags.filter (keep ·)).sort TagLe := by
  apply List.Perm.eq_of_pairwise' ((tags.pairwise_sort TagLe).filter _)
    ((tags.filter (keep ·)).pairwise_sort TagLe)
  apply (List.perm_ext_iff_of_nodup ((tags.sort_nodup TagLe).filter _)
    (Finset.sort_nodup _ _)).mpr
  intro tag
  simp

/-- The log table of a namespace, empty where there is none. -/
def LogTables.table (tables : LogTables V) (ns : StateNs) : OrderedMap LogKey V :=
  match LogNs.all.find? fun log => logNamespace log = ns with
  | none => ∅
  | some log => tables.rows log

theorem LogTables.table_logNamespace (tables : LogTables V) (ns : LogNs) :
    LogTables.table tables (logNamespace ns) = tables.rows ns := by
  cases ns <;> rfl

/-- The last key, thirty-two bytes of `0xff`. -/
def lastEntityKey : EntityKey := Fin.last (2 ^ 256 - 1)

namespace Node

/-- The tags of the index in the order of the store. -/
def sortedTags (node : Node V O) : List ArchiveTag := node.indexes.archiveTags.sort TagLe

/-- What an export is given of a node. -/
def stores (decode : Bytes → Option BlockHash) (node : Node V O) : Stores V O where
  decode := decode
  getRange slots := .ok (node.blocks.filter fun block => slots.1 ≤ block.1 ∧ block.1 < slots.2)
  iterLogs ns range :=
    .ok (((LogTables.table node.logs ns).entries.filter fun entry =>
      range.1 ≤ entry.1 ∧ entry.1 < range.2).map .ok)
  archiveTags := .ok (node.sortedTags.map .ok)
  exactRecords := .ok (node.indexes.exact.entries.map .ok)
  iterEntities ns :=
    .ok (((node.entities ns).entries.filter fun entry => entry.1 < lastEntityKey).map .ok)
  iterUtxos := .ok (node.utxos.entries.map .ok)

variable {decode : Bytes → Option BlockHash} {node first second : Node V O}
  {window : EpochWindow}

theorem logKeyOf_le {key : LogKey} {slot : ℕ} : logKeyOf slot ≤ key ↔ slot ≤ (ofLex key).1 := by
  rw [← not_lt, LogTables.lt_logKeyOf, not_lt]

theorem inRange_logKeyRange {key : LogKey} :
    (logKeyRange window.slots).1 ≤ key ∧ key < (logKeyRange window.slots).2 ↔
      window.Contains (ofLex key).1 := by
  rw [logKeyRange, logKeyOf_le, LogTables.lt_logKeyOf]
  rfl

theorem within_ok {A : Type} (items : List A) (slotOf : A → ℕ) (slots : ℕ × ℕ) :
    Feed.within (.ok (items.map .ok)) slotOf slots =
      .ok ((items.filter fun item => slots.1 ≤ slotOf item ∧ slotOf item < slots.2).map .ok) := by
  simp only [Feed.within, Except.map, List.filter_map]
  rfl

theorem iterArchiveTags_stores (slots : ℕ × ℕ) :
    (node.stores decode).iterArchiveTags slots =
      .ok (((node.indexes.archiveTags.filter fun tag =>
        slots.1 ≤ tag.2.2 ∧ tag.2.2 < slots.2).sort TagLe).map .ok) := by
  rw [Stores.iterArchiveTags, stores, within_ok, sortedTags, filter_sort_tags]
  simp only [decide_eq_true_eq]

theorem iterExactRecords_stores (slots : ℕ × ℕ) :
    (node.stores decode).iterExactRecords slots =
      .ok ((node.indexes.exact.filter fun _ slot =>
        slots.1 ≤ slot ∧ slot < slots.2).entries.map .ok) := by
  rw [Stores.iterExactRecords, stores, within_ok]
  rfl

theorem iterLogs_stores (ns : LogNs) :
    (node.stores decode).iterLogs (logNamespace ns) (logKeyRange window.slots) =
      .ok (((node.logs.rows ns).filter fun key _ =>
        window.Contains (ofLex key).1).entries.map .ok) := by
  simp only [stores, LogTables.table_logNamespace, inRange_logKeyRange]
  rfl

/-- The records of a window that a layer of some kind is made of are the same. -/
def SameIn (first second : Node V O) (window : EpochWindow) : LayerKind → Prop
  | .blocks =>
      first.blocks.filter (window.Contains ·.1) = second.blocks.filter (window.Contains ·.1)
  | .indexes =>
      (∀ tag, window.Contains tag.2.2 →
        (tag ∈ first.indexes.archiveTags ↔ tag ∈ second.indexes.archiveTags)) ∧
      ∀ key slot, window.Contains slot →
        (first.indexes.exact.get? key = some slot ↔ second.indexes.exact.get? key = some slot)
  | .log ns =>
      ∀ key, window.Contains (ofLex key).1 →
        (first.logs.rows ns).get? key = (second.logs.rows ns).get? key
  | _ => True

end Node

/-- A layer of an epoch that is made from the stores, if there are records for it. -/
def freshLayer (writer : SteleWriter V O D) (stores : Stores V O) (magic : ℕ)
    (window : EpochWindow) : LayerKind → Except SnapshotError (Option (LayerDescriptor D))
  | .blocks => some <$> writeBlocks writer stores .first magic window
  | .indexes => some <$> indexLayer writer stores .first magic window
  | .log ns => writeLogs writer stores .first magic ns window
  | _ => .ok none

theorem filter_exact_eq {first second : OrderedMap ExactKey ℕ} {window : EpochWindow}
    (same : ∀ key slot, window.Contains slot →
      (first.get? key = some slot ↔ second.get? key = some slot)) :
    (first.filter fun _ slot => window.slots.1 ≤ slot ∧ slot < window.slots.2) =
      second.filter fun _ slot => window.slots.1 ≤ slot ∧ slot < window.slots.2 := by
  apply OrderedMap.ext
  intro key
  rw [OrderedMap.get?_filter, OrderedMap.get?_filter]
  apply Option.ext
  intro slot
  simp only [Option.filter_eq_some_iff, decide_eq_true_eq]
  constructor
  · rintro ⟨held, inside⟩
    exact ⟨(same key slot inside).mp held, inside⟩
  · rintro ⟨held, inside⟩
    exact ⟨(same key slot inside).mpr held, inside⟩

/-- A layer depends on the records of its window. -/
theorem freshLayer_congr (writer : SteleWriter V O D) (decode : Bytes → Option BlockHash)
    (magic : ℕ) {first second : Node V O} {window : EpochWindow} {kind : LayerKind}
    (same : first.SameIn second window kind) :
    freshLayer writer (first.stores decode) magic window kind =
      freshLayer writer (second.stores decode) magic window kind := by
  cases kind with
  | blocks =>
      have range : (first.stores decode).getRange window.slots =
          (second.stores decode).getRange window.slots := congrArg Except.ok same
      simp only [freshLayer, writeBlocks, range]
      rfl
  | indexes =>
      rcases same with ⟨sameTags, sameExact⟩
      have tags : (first.stores decode).iterArchiveTags window.slots =
          (second.stores decode).iterArchiveTags window.slots := by
        rw [Node.iterArchiveTags_stores, Node.iterArchiveTags_stores]
        congr 3
        apply Finset.ext
        intro tag
        rw [Finset.mem_filter, Finset.mem_filter]
        constructor
        · rintro ⟨held, inside⟩
          exact ⟨(sameTags tag inside).mp held, inside⟩
        · rintro ⟨held, inside⟩
          exact ⟨(sameTags tag inside).mpr held, inside⟩
      have exact : (first.stores decode).iterExactRecords window.slots =
          (second.stores decode).iterExactRecords window.slots := by
        rw [Node.iterExactRecords_stores, Node.iterExactRecords_stores, filter_exact_eq sameExact]
      simp only [freshLayer, indexLayer, fillIndex, tags, exact]
  | log ns =>
      have rows : (first.stores decode).iterLogs (logNamespace ns) (logKeyRange window.slots) =
          (second.stores decode).iterLogs (logNamespace ns) (logKeyRange window.slots) := by
        rw [Node.iterLogs_stores, Node.iterLogs_stores]
        congr 3
        apply OrderedMap.ext
        intro key
        rw [OrderedMap.get?_filter, OrderedMap.get?_filter]
        by_cases inside : window.Contains (ofLex key).1
        · rw [same key inside]
        · simp [inside]
      simp only [freshLayer, writeLogs, rows]
  | state ns => rfl
  | digests => rfl

end Dolos.Snapshot
