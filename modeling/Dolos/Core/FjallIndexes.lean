import Mathlib.Data.List.Infix
import Mathlib.Tactic.Ring
import Dolos.Core.Indexes
import Dolos.Lib.Writes

/-!
# The index store on disk

`fjall/src/index` keeps the indexes in keyspaces of byte strings. A filter tag is one
key, the hash of its dimension, the tag's own key and the output, one after the other
with nothing between them, and a lookup scans the keys that start with the first two.
The in-memory store answers the same lookup from a table.
-/

namespace Dolos

open Writes

section BigEndian

/-- The number that big-endian bytes stand for. -/
def fromBeBytes (bytes : Bytes) : ℕ := bytes.foldl (fun value byte => value * 256 + byte.toNat) 0

@[simp]
theorem length_toBeBytes (width value : ℕ) : (toBeBytes width value).length = width := by
  simp [toBeBytes]

theorem toBeBytes_succ (width value : ℕ) :
    toBeBytes (width + 1) value = UInt8.ofNat (value / 256 ^ width) :: toBeBytes width value := by
  simp [toBeBytes, List.range_succ]

theorem fromBeBytes_toBeBytes (width value : ℕ) :
    fromBeBytes (toBeBytes width value) = value % 256 ^ width := by
  have read : ∀ start, (toBeBytes width value).foldl
      (fun value byte => value * 256 + byte.toNat) start =
        start * 256 ^ width + value % 256 ^ width := by
    induction width with
    | zero => simp [toBeBytes, Nat.mod_one]
    | succ width ih =>
        intro start
        rw [toBeBytes_succ, List.foldl_cons, ih, UInt8.toNat_ofNat']
        rw [@Nat.mod_pow_succ value 256 width, Nat.pow_succ]
        ring
  simpa [fromBeBytes] using read 0

end BigEndian

def TagDimension.asStr : TagDimension → String
  | address => "address"
  | payment => "payment"
  | stake => "stake"
  | asset => "asset"
  | policy => "policy"
  | scriptRef => "script_ref"
  | datum => "datum"
  | script => "script"
  | spentTxo => "spent_txo"
  | accountCerts => "account_certs"
  | poolCerts => "pool_certs"
  | accountWithdrawals => "account_withdrawals"
  | metadata => "metadata"

def ExactKind.asStr : ExactKind → String
  | blockHash => "block_hash"
  | blockNumber => "block_num"
  | txHash => "tx_hash"

/-- The hash function over qualified dimension names. -/
class DimensionHashing where
  xxh3_64 : String → Fin (2 ^ 64)

section Keys

variable [DimensionHashing]

def hashDimension (qualifier dimension : String) : Bytes :=
  toBeBytes 8 (DimensionHashing.xxh3_64 (qualifier ++ ":" ++ dimension)).val

def encodeTxoRef (txo : TxoRef) : Bytes :=
  toBeBytes 32 (ofLex txo).1.val ++ toBeBytes 4 (ofLex txo).2

def decodeTxoRef (bytes : Bytes) : TxoRef :=
  toLex (Fin.ofNat _ (fromBeBytes (bytes.take 32)), fromBeBytes ((bytes.drop 32).take 4))

def buildUtxoTagPrefix (dimension : TagDimension) (lookupKey : Bytes) : Bytes :=
  hashDimension "utxo" dimension.asStr ++ lookupKey

def buildUtxoTagKey (dimension : TagDimension) (lookupKey : Bytes) (txo : TxoRef) : Bytes :=
  hashDimension "utxo" dimension.asStr ++ lookupKey ++ encodeTxoRef txo

/-- The output of a key: its last 36 bytes. -/
def decodeUtxoTagTxo (key : Bytes) : TxoRef := decodeTxoRef (key.drop (key.length - 36))

def buildBlockTagKey (tag : ArchiveTag) : Bytes :=
  hashDimension "block" tag.1.asStr ++ tag.2.1 ++ toBeBytes 8 tag.2.2

/-- An exact key: a block number has eight bytes, a hash 32. -/
def buildExactKey (key : ExactKey) : Bytes :=
  hashDimension "exact" (ofLex key).1.asStr ++
    toBeBytes (if (ofLex key).1 = .blockNumber then 8 else 32) (ofLex key).2

end Keys

/-- The keyspaces. -/
@[ext]
structure FjallIndexStore where
  cursor : Option ChainPoint
  utxoTags : Finset Bytes
  blockTags : Finset Bytes
  exact : Bytes → Option ℕ

namespace FjallIndexStore

def default : FjallIndexStore := ⟨none, ∅, ∅, fun _ => none⟩

section Writer

variable [DimensionHashing]

def tagKeys (outputs : List (TxoRef × List Tag)) : List Bytes :=
  outputs.flatMap fun output => output.2.map fun tag =>
    buildUtxoTagKey tag.dimension tag.key output.1

def exactKeys (block : ArchiveIndexDelta) : List Bytes := block.exactKeys.map buildExactKey

def insertExact (exact : Bytes → Option ℕ) (block : ArchiveIndexDelta) : Bytes → Option ℕ :=
  setEach exact (exactKeys block) (some block.slot)

def removeExact (exact : Bytes → Option ℕ) (block : ArchiveIndexDelta) : Bytes → Option ℕ :=
  setEach exact (exactKeys block) none

variable [KeyHashing]

def blockTagKeys (block : ArchiveIndexDelta) : List Bytes := block.archiveTags.map buildBlockTagKey

def apply (store : FjallIndexStore) (delta : IndexDelta) : FjallIndexStore where
  cursor := some delta.cursor
  utxoTags := eraseEach (insertEach store.utxoTags (tagKeys delta.utxo.produced))
    (tagKeys delta.utxo.consumed)
  blockTags := delta.archive.foldl (fun tags block => insertEach tags (blockTagKeys block))
    store.blockTags
  exact := delta.archive.foldl insertExact store.exact

def undo (store : FjallIndexStore) (delta : IndexDelta) : FjallIndexStore where
  cursor := store.cursor
  utxoTags := insertEach (eraseEach store.utxoTags (tagKeys delta.utxo.produced))
    (tagKeys delta.utxo.consumed)
  blockTags := delta.archive.reverse.foldl (fun tags block => eraseEach tags (blockTagKeys block))
    store.blockTags
  exact := delta.archive.reverse.foldl removeExact store.exact

end Writer

variable [DimensionHashing]

/-- `get_by_key`: the outputs of the keys that start with the dimension and the key and
are long enough. -/
def utxosByTag (store : FjallIndexStore) (dimension : TagDimension) (lookupKey : Bytes) :
    Finset TxoRef :=
  (store.utxoTags.filter fun key => buildUtxoTagPrefix dimension lookupKey <+: key ∧
    8 + lookupKey.length + 36 ≤ key.length).image decodeUtxoTagTxo

end FjallIndexStore

/-- The lookup of the in-memory store. -/
def IndexStore.utxosByTag (store : IndexStore) (dimension : TagDimension) (key : Bytes) :
    Finset TxoRef :=
  (store.utxoTags.filter fun entry => entry.1 = ⟨dimension, key⟩).image Prod.snd

section Decoding

theorem length_encodeTxoRef (txo : TxoRef) : (encodeTxoRef txo).length = 36 := by
  simp [encodeTxoRef]

theorem decodeTxoRef_encodeTxoRef {txo : TxoRef} (fits : (ofLex txo).2 < 2 ^ 32) :
    decodeTxoRef (encodeTxoRef txo) = txo := by
  have hashBytes : (encodeTxoRef txo).take 32 = toBeBytes 32 (ofLex txo).1.val :=
    List.take_left' (length_toBeBytes _ _)
  have indexBytes : (encodeTxoRef txo).drop 32 = toBeBytes 4 (ofLex txo).2 :=
    List.drop_left' (length_toBeBytes _ _)
  have hashEq : (ofLex txo).1.val % 256 ^ 32 = (ofLex txo).1.val := by
    apply Nat.mod_eq_of_lt
    have bound := (ofLex txo).1.isLt
    omega
  have indexEq : (ofLex txo).2 % 256 ^ 4 = (ofLex txo).2 := by
    apply Nat.mod_eq_of_lt
    omega
  have wholeIndex : (toBeBytes 4 (ofLex txo).2).take 4 = toBeBytes 4 (ofLex txo).2 :=
    List.take_of_length_le (length_toBeBytes _ _).le
  rw [decodeTxoRef, hashBytes, indexBytes, wholeIndex, fromBeBytes_toBeBytes,
    fromBeBytes_toBeBytes, hashEq, indexEq]
  simp

variable [DimensionHashing]

theorem length_hashDimension (qualifier dimension : String) :
    (hashDimension qualifier dimension).length = 8 := length_toBeBytes _ _

theorem length_buildUtxoTagKey (dimension : TagDimension) (lookupKey : Bytes) (txo : TxoRef) :
    (buildUtxoTagKey dimension lookupKey txo).length = 8 + lookupKey.length + 36 := by
  simp only [buildUtxoTagKey, List.length_append, length_hashDimension, length_encodeTxoRef]

theorem decodeUtxoTagTxo_buildUtxoTagKey (dimension : TagDimension) (lookupKey : Bytes)
    {txo : TxoRef} (fits : (ofLex txo).2 < 2 ^ 32) :
    decodeUtxoTagTxo (buildUtxoTagKey dimension lookupKey txo) = txo := by
  have suffix : (buildUtxoTagKey dimension lookupKey txo).drop
      ((buildUtxoTagKey dimension lookupKey txo).length - 36) = encodeTxoRef txo := by
    apply List.drop_left'
    rw [length_buildUtxoTagKey, List.length_append, length_hashDimension, Nat.add_sub_cancel]
  rw [decodeUtxoTagTxo, suffix, decodeTxoRef_encodeTxoRef fits]

/-- No two tag dimensions have the same hash. -/
def SeparateDimensions : Prop :=
  ∀ dimension other : TagDimension,
    hashDimension "utxo" dimension.asStr = hashDimension "utxo" other.asStr → dimension = other

/-- A scan meets the keys of its dimension that extend its key. -/
theorem scanned_iff (separate : SeparateDimensions) {dimension other : TagDimension}
    {lookupKey key : Bytes} {txo : TxoRef} :
    (buildUtxoTagPrefix dimension lookupKey <+: buildUtxoTagKey other key txo ∧
      8 + lookupKey.length + 36 ≤ (buildUtxoTagKey other key txo).length) ↔
      dimension = other ∧ lookupKey <+: key := by
  constructor
  · rintro ⟨⟨rest, restEq⟩, longEnough⟩
    simp only [buildUtxoTagPrefix, buildUtxoTagKey, List.append_assoc] at restEq
    rcases List.append_inj restEq (by simp [length_hashDimension]) with ⟨hashEq, keyEq⟩
    refine ⟨separate dimension other hashEq, ?_⟩
    have extended : lookupKey <+: key ++ encodeTxoRef txo := ⟨rest, keyEq⟩
    apply List.prefix_of_prefix_length_le extended (List.prefix_append _ _)
    rw [length_buildUtxoTagKey] at longEnough
    omega
  · rintro ⟨rfl, rest, rfl⟩
    refine ⟨⟨rest ++ encodeTxoRef txo, ?_⟩, ?_⟩
    · simp [buildUtxoTagPrefix, buildUtxoTagKey]
    · rw [length_buildUtxoTagKey, List.length_append]
      omega

end Decoding

section Lookup

variable [DimensionHashing]

/-- A tag entry as it is kept on disk. -/
def entryKey (entry : Tag × TxoRef) : Bytes :=
  buildUtxoTagKey entry.1.dimension entry.1.key entry.2

/-- The index of the output is a 32-bit number. -/
def FitsU32 (txo : TxoRef) : Prop := (ofLex txo).2 < 2 ^ 32

theorem entryKey_injective (separate : SeparateDimensions) {entry other : Tag × TxoRef}
    (fits : FitsU32 entry.2) (otherFits : FitsU32 other.2)
    (same : entryKey entry = entryKey other) : entry = other := by
  rcases entry with ⟨⟨dimension, key⟩, txo⟩
  rcases other with ⟨⟨otherDimension, otherKey⟩, otherTxo⟩
  have txoEq : txo = otherTxo := by
    have decoded := congrArg decodeUtxoTagTxo same
    simp only [entryKey, decodeUtxoTagTxo_buildUtxoTagKey _ _ fits,
      decodeUtxoTagTxo_buildUtxoTagKey _ _ otherFits] at decoded
    exact decoded
  subst txoEq
  simp only [entryKey, buildUtxoTagKey, List.append_assoc] at same
  rcases List.append_inj same (by simp [length_hashDimension]) with ⟨hashEq, keysEq⟩
  have keyEq : key = otherKey := List.append_cancel_right keysEq
  rw [separate _ _ hashEq, keyEq]

/-- The keys of a keyspace are the entries of a table. -/
structure TagsLinked (keys : Finset Bytes) (entries : Finset (Tag × TxoRef)) : Prop where
  image : keys = entries.image entryKey
  fits : ∀ entry ∈ entries, FitsU32 entry.2

namespace TagsLinked

variable {keys : Finset Bytes} {entries : Finset (Tag × TxoRef)} (linked : TagsLinked keys entries)
  {outputs : List (TxoRef × List Tag)} (outputsFit : ∀ output ∈ outputs, FitsU32 output.1)

omit [DimensionHashing] in
include outputsFit in
theorem fits_tagged : ∀ entry ∈ IndexStore.tagged outputs, FitsU32 entry.2 := by
  intro entry member
  rcases List.mem_flatMap.mp member with ⟨output, isOutput, tagged⟩
  rcases List.mem_map.mp tagged with ⟨tag, _, rfl⟩
  exact outputsFit output isOutput

theorem tagKeys_eq (outputs : List (TxoRef × List Tag)) :
    FjallIndexStore.tagKeys outputs = (IndexStore.tagged outputs).map entryKey := by
  simp only [FjallIndexStore.tagKeys, IndexStore.tagged, List.map_flatMap, List.map_map]
  rfl

include linked outputsFit

theorem insertTags :
    TagsLinked (insertEach keys (FjallIndexStore.tagKeys outputs))
      (IndexStore.insertTags entries outputs) := by
  refine ⟨?_, ?_⟩
  · rw [tagKeys_eq, linked.image]
    exact (image_insertEach _ _).symm
  · intro entry member
    rcases mem_insertEach.mp member with tagged | held
    · exact fits_tagged outputsFit entry tagged
    · exact linked.fits entry held

theorem removeTags (separate : SeparateDimensions) :
    TagsLinked (eraseEach keys (FjallIndexStore.tagKeys outputs))
      (IndexStore.removeTags entries outputs) := by
  refine ⟨?_, ?_⟩
  · rw [tagKeys_eq, linked.image]
    refine (image_eraseEach ?_).symm
    intro entry tagged other held same
    exact entryKey_injective separate (fits_tagged outputsFit entry tagged)
      (linked.fits other held) same
  · intro entry member
    exact linked.fits entry (mem_eraseEach.mp member).2

end TagsLinked

/-- A write to an index store. -/
inductive IndexWrite where
  | apply (delta : IndexDelta)
  | undo (delta : IndexDelta)

def IndexWrite.delta : IndexWrite → IndexDelta
  | apply delta => delta
  | undo delta => delta

/-- The output indexes of a delta are 32-bit numbers. -/
def IndexDelta.FitsU32 (delta : IndexDelta) : Prop :=
  ∀ output ∈ delta.utxo.produced ++ delta.utxo.consumed, Dolos.FitsU32 output.1

section Writes

variable [KeyHashing]

def IndexStore.default : IndexStore := ⟨none, ∅, ∅, ∅⟩

def IndexStore.written (store : IndexStore) : IndexWrite → IndexStore
  | .apply delta => store.apply delta
  | .undo delta => store.undo delta

def FjallIndexStore.written (store : FjallIndexStore) : IndexWrite → FjallIndexStore
  | .apply delta => store.apply delta
  | .undo delta => store.undo delta

variable {disk : FjallIndexStore} {memory : IndexStore}

theorem linked_written (separate : SeparateDimensions)
    (linked : TagsLinked disk.utxoTags memory.utxoTags) {write : IndexWrite}
    (fits : write.delta.FitsU32) :
    TagsLinked (disk.written write).utxoTags (memory.written write).utxoTags := by
  have produced : ∀ output ∈ write.delta.utxo.produced, FitsU32 output.1 := by
    intro output member
    exact fits output (List.mem_append_left _ member)
  have consumed : ∀ output ∈ write.delta.utxo.consumed, FitsU32 output.1 := by
    intro output member
    exact fits output (List.mem_append_right _ member)
  cases write with
  | apply delta => exact (linked.insertTags produced).removeTags consumed separate
  | undo delta => exact (linked.removeTags produced separate).insertTags consumed

theorem linked_run (separate : SeparateDimensions)
    (linked : TagsLinked disk.utxoTags memory.utxoTags) {writes : List IndexWrite}
    (fits : ∀ write ∈ writes, write.delta.FitsU32) :
    TagsLinked (writes.foldl FjallIndexStore.written disk).utxoTags
      (writes.foldl IndexStore.written memory).utxoTags := by
  induction writes generalizing disk memory with
  | nil => exact linked
  | cons write rest ih =>
      apply ih (linked_written separate linked (fits write List.mem_cons_self))
      intro later member
      exact fits later (List.mem_cons_of_mem _ member)

end Writes

omit [DimensionHashing] in
theorem mem_utxosByTag_memory {memory : IndexStore} {dimension : TagDimension} {key : Bytes}
    {txo : TxoRef} :
    txo ∈ memory.utxosByTag dimension key ↔ (⟨dimension, key⟩, txo) ∈ memory.utxoTags := by
  simp [IndexStore.utxosByTag]

/-- The scan finds the outputs of every tag of the dimension that extends the key. -/
theorem mem_utxosByTag_disk (separate : SeparateDimensions) {disk : FjallIndexStore}
    {memory : IndexStore} (linked : TagsLinked disk.utxoTags memory.utxoTags)
    {dimension : TagDimension} {lookupKey : Bytes} {txo : TxoRef} :
    txo ∈ disk.utxosByTag dimension lookupKey ↔
      ∃ key, lookupKey <+: key ∧ (⟨dimension, key⟩, txo) ∈ memory.utxoTags := by
  simp only [FjallIndexStore.utxosByTag, Finset.mem_image, Finset.mem_filter, linked.image]
  constructor
  · rintro ⟨stored, ⟨⟨⟨⟨other, key⟩, owner⟩, held, rfl⟩, scanned⟩, rfl⟩
    rcases (scanned_iff separate).mp scanned with ⟨rfl, extending⟩
    refine ⟨key, extending, ?_⟩
    rw [entryKey, decodeUtxoTagTxo_buildUtxoTagKey _ _ (linked.fits _ held)]
    exact held
  · rintro ⟨key, extending, held⟩
    refine ⟨_, ⟨⟨_, held, rfl⟩, (scanned_iff separate).mpr ⟨rfl, extending⟩⟩, ?_⟩
    exact decodeUtxoTagTxo_buildUtxoTagKey _ _ (linked.fits _ held)

/-- After the same writes, the lookups on disk and in memory agree exactly when every
output with a tag that extends the key carries the key itself. -/
theorem utxosByTag_eq_iff [KeyHashing] (separate : SeparateDimensions)
    {writes : List IndexWrite} (fits : ∀ write ∈ writes, write.delta.FitsU32)
    (dimension : TagDimension) (lookupKey : Bytes) :
    (writes.foldl FjallIndexStore.written .default).utxosByTag dimension lookupKey =
        (writes.foldl IndexStore.written .default).utxosByTag dimension lookupKey ↔
      ∀ key txo, lookupKey <+: key →
        (⟨dimension, key⟩, txo) ∈ (writes.foldl IndexStore.written .default).utxoTags →
        (⟨dimension, lookupKey⟩, txo) ∈ (writes.foldl IndexStore.written .default).utxoTags := by
  have start : TagsLinked FjallIndexStore.default.utxoTags IndexStore.default.utxoTags :=
    ⟨rfl, by simp [IndexStore.default]⟩
  have linked := linked_run separate start fits
  constructor
  · intro same key txo extending held
    apply mem_utxosByTag_memory.mp
    rw [← same]
    exact (mem_utxosByTag_disk separate linked).mpr ⟨key, extending, held⟩
  · intro carried
    ext txo
    rw [mem_utxosByTag_disk separate linked, mem_utxosByTag_memory]
    constructor
    · rintro ⟨key, extending, held⟩
      exact carried key txo extending held
    · intro held
      exact ⟨lookupKey, List.prefix_refl _, held⟩

end Lookup

namespace AssetNames

/-- A hash that keeps the names of the dimensions apart. -/
abbrev polynomial : DimensionHashing where
  xxh3_64 text := text.toList.foldl (fun hash char => hash * 31 + Fin.ofNat _ char.toNat) 0

attribute [local instance] polynomial

def dimensions : List TagDimension :=
  [.address, .payment, .stake, .asset, .policy, .scriptRef, .datum, .script, .spentTxo,
    .accountCerts, .poolCerts, .accountWithdrawals, .metadata]

theorem mem_dimensions (dimension : TagDimension) : dimension ∈ dimensions := by
  cases dimension <;> decide

theorem nodup_hashes :
    (dimensions.map fun dimension => hashDimension "utxo" dimension.asStr).Nodup := by
  decide +kernel

theorem separate : SeparateDimensions := by
  intro dimension other same
  exact List.inj_on_of_nodup_map nodup_hashes (mem_dimensions dimension) (mem_dimensions other) same

abbrev unhashed : KeyHashing := ⟨id⟩

attribute [local instance] unhashed

/-- An output with the asset `AB` of a policy. -/
def minted : IndexWrite :=
  .apply ⟨.specific 1 1, ⟨[(toLex (1, 0), [⟨.asset, List.replicate 28 7 ++ [65, 66]⟩])], []⟩, []⟩

theorem fits_minted : ∀ write ∈ [minted], write.delta.FitsU32 := by
  intro write member
  rcases List.mem_singleton.mp member with rfl
  intro output isOutput
  rcases List.mem_singleton.mp isOutput with rfl
  exact Nat.two_pow_pos 32

theorem utxosByTag_eq_whole_name :
    ([minted].foldl FjallIndexStore.written .default).utxosByTag .asset
        (List.replicate 28 7 ++ [65, 66]) =
      ([minted].foldl IndexStore.written .default).utxosByTag .asset
        (List.replicate 28 7 ++ [65, 66]) := by
  apply (utxosByTag_eq_iff separate fits_minted _ _).mpr
  intro key txo _ held
  have only : ([minted].foldl IndexStore.written .default).utxoTags =
      {(⟨.asset, List.replicate 28 7 ++ [65, 66]⟩, toLex (1, 0))} := rfl
  rw [only, Finset.mem_singleton] at held ⊢
  have txoEq : txo = toLex (1, 0) := congrArg Prod.snd held
  rw [txoEq]

/-- A search for the asset `A` finds the output with the asset `AB`. -/
theorem name_scan_overshoots :
    SeparateDimensions ∧ (∀ write ∈ [minted], write.delta.FitsU32) ∧
      ([minted].foldl FjallIndexStore.written .default).utxosByTag .asset
          (List.replicate 28 7 ++ [65]) = {toLex (1, 0)} ∧
      ([minted].foldl IndexStore.written .default).utxosByTag .asset
          (List.replicate 28 7 ++ [65]) = ∅ := by
  refine ⟨separate, fits_minted, ?_, ?_⟩
  · decide +kernel
  · decide +kernel

end AssetNames

end Dolos
