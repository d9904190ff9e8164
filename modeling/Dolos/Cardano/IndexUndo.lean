import Dolos.Cardano.Indexes
import Dolos.Core.IndexUndo

/-!
# Undoing an index delta

Both index stores take a delta back by removing what it wrote and writing what it
removed, in the same order: outputs that were produced go first, outputs that were
consumed come back last. An output that the block both makes and spends is in neither
store before the block and comes back with its undo; and a record that the block has
overwritten is lost, since the undo only removes the block's own.

The argument is one for both stores, over the form in which a store keeps a filter tag.
-/

namespace Dolos

open Outcome Writes BlockDecoding

variable {O : Type} [BlockDecoding O]

/-- The index delta of a block: what `compute_catchup` builds, and a batch of the block
alone. -/
def blockIndexDelta (point : ChainPoint) (block : MultiEraBlock O) (loaded : UtxoMap O)
    (delta : UtxoSetDelta O) : IndexDelta where
  cursor := point
  utxo := ⟨withTags delta.producedUtxo, withTags delta.consumedUtxo⟩
  archive := [indexBlock block loaded]

/-- What the batch has loaded for a block: the bodies of all outputs it consumes. -/
def Loads (block : MultiEraBlock O) (utxos loaded : UtxoMap O) : Prop :=
  ∀ txo ∈ block.consumed, loaded.get? txo = (block.produced.get? txo).or (utxos.get? txo)

/-- A tag of an output in the set. -/
def Live (utxos : UtxoMap O) (entry : Tag × TxoRef) : Prop :=
  ∃ body, utxos.get? entry.2 = some body ∧ entry.1 ∈ extractUtxoTags (output body)

theorem mem_tagged_withTags {outputs : UtxoMap O} {entry : Tag × TxoRef} :
    entry ∈ IndexStore.tagged (withTags outputs) ↔ Live outputs entry := by
  rcases entry with ⟨tag, txo⟩
  simp only [IndexStore.tagged, withTags, List.mem_flatMap, List.mem_map, Live]
  constructor
  · rintro ⟨_, ⟨⟨held, body⟩, isHeld, rfl⟩, found, isFound, foundEq⟩
    rcases Prod.mk.inj foundEq with ⟨rfl, rfl⟩
    exact ⟨body, OrderedMap.mem_entries_iff.mp isHeld, isFound⟩
  · rintro ⟨body, held, tagged⟩
    exact ⟨_, ⟨(txo, body), OrderedMap.mem_entries_iff.mpr held, rfl⟩, tag, tagged, rfl⟩

section Step

omit [BlockDecoding O]

variable {block : MultiEraBlock O} {loaded : UtxoMap O} {delta : UtxoSetDelta O}
  (computed : computeApplyDelta block loaded = .ok delta)

include computed

theorem produced_of_computed : delta.producedUtxo = block.produced := by
  rcases bind_eq_ok.mp computed with ⟨resolved, -, deltaEq⟩
  rcases Except.ok.inj deltaEq with rfl
  rfl

theorem get?_consumed_of_computed (txo : TxoRef) :
    delta.consumedUtxo.get? txo = if txo ∈ block.consumed then loaded.get? txo else none := by
  rcases bind_eq_ok.mp computed with ⟨resolved, resolvedEq, deltaEq⟩
  rcases Except.ok.inj deltaEq with rfl
  exact get?_resolve resolvedEq txo

end Step

/-- The block spends no output of its own that carries a tag. -/
def SpendsNoOwn (block : MultiEraBlock O) : Prop :=
  ∀ txo ∈ block.consumed, ∀ body, block.produced.get? txo = some body →
    extractUtxoTags (output body) = []

section Encoded

variable {α : Type} [DecidableEq α]

/-- The form in which a store keeps a tag says which output it is of. -/
def KeepsTxo (encode : Tag × TxoRef → α) : Prop :=
  ∀ entry other, FitsU32 entry.2 → FitsU32 other.2 → encode entry = encode other →
    entry.2 = other.2

/-- The store keeps the tags of the set. -/
def Follows (encode : Tag × TxoRef → α) (held : Finset α) (utxos : UtxoMap O) : Prop :=
  ∀ key, key ∈ held ↔ ∃ entry, Live utxos entry ∧ encode entry = key

def AllFit (utxos : UtxoMap O) : Prop := ∀ txo, (utxos.get? txo).isSome → FitsU32 txo

/-- What validation and loading promise of a block on the current set. -/
structure Extends (utxos : UtxoMap O) (block : MultiEraBlock O) (loaded : UtxoMap O) : Prop where
  fresh : ∀ txo, (block.produced.get? txo).isSome → utxos.get? txo = none
  loads : Loads block utxos loaded
  fits : AllFit block.produced

variable {encode : Tag × TxoRef → α} {held : Finset α} {block : MultiEraBlock O}
  {utxos loaded : UtxoMap O} {delta : UtxoSetDelta O}

def entered (encode : Tag × TxoRef → α) (delta : UtxoSetDelta O) : List α :=
  (IndexStore.tagged (withTags delta.producedUtxo)).map encode

def left (encode : Tag × TxoRef → α) (delta : UtxoSetDelta O) : List α :=
  (IndexStore.tagged (withTags delta.consumedUtxo)).map encode

omit [DecidableEq α] in
theorem Live.fits {outputs : UtxoMap O} (fits : AllFit outputs) {entry : Tag × TxoRef}
    (live : Live outputs entry) : FitsU32 entry.2 := by
  rcases live with ⟨body, held, _⟩
  exact fits entry.2 (by simp [held])

variable (computed : computeApplyDelta block loaded = .ok delta)
  (extending : Extends utxos block loaded)

include computed

omit [DecidableEq α] in
theorem mem_entered {key : α} :
    key ∈ entered encode delta ↔ ∃ entry, Live block.produced entry ∧ encode entry = key := by
  simp only [entered, List.mem_map, mem_tagged_withTags, produced_of_computed computed]

include extending

/-- The tags that leave are those of consumed outputs. -/
theorem live_consumed {entry : Tag × TxoRef} :
    Live delta.consumedUtxo entry ↔
      entry.2 ∈ block.consumed ∧ (Live block.produced entry ∨ Live utxos entry) := by
  simp only [Live, get?_consumed_of_computed computed]
  constructor
  · rintro ⟨body, bodyEq, tagged⟩
    split_ifs at bodyEq with spent
    refine ⟨spent, ?_⟩
    rw [extending.loads entry.2 spent] at bodyEq
    cases made : block.produced.get? entry.2 with
    | none =>
        rw [made, Option.none_or] at bodyEq
        exact Or.inr ⟨body, bodyEq, tagged⟩
    | some own =>
        rw [made, Option.some_or] at bodyEq
        exact Or.inl ⟨body, bodyEq, tagged⟩
  · rintro ⟨spent, ⟨body, bodyEq, tagged⟩ | ⟨body, bodyEq, tagged⟩⟩
    · refine ⟨body, ?_, tagged⟩
      rw [if_pos spent, extending.loads entry.2 spent, bodyEq, Option.some_or]
    · refine ⟨body, ?_, tagged⟩
      have unmade : block.produced.get? entry.2 = none := by
        by_contra made
        have absent := extending.fresh entry.2 (Option.isSome_iff_ne_none.mpr made)
        simp [absent] at bodyEq
      rw [if_pos spent, extending.loads entry.2 spent, unmade, Option.none_or, bodyEq]

omit [DecidableEq α] in
theorem mem_left {key : α} :
    key ∈ left encode delta ↔ ∃ entry, entry.2 ∈ block.consumed ∧
      (Live block.produced entry ∨ Live utxos entry) ∧ encode entry = key := by
  simp only [left, List.mem_map, mem_tagged_withTags, live_consumed computed extending, and_assoc]

omit computed in
theorem live_advance {entry : Tag × TxoRef} :
    Live (advance utxos block) entry ↔
      entry.2 ∉ block.consumed ∧ (Live block.produced entry ∨ Live utxos entry) := by
  simp only [Live, get?_advance]
  by_cases spent : entry.2 ∈ block.consumed
  · simp [spent]
  · simp only [spent, if_false, not_false_eq_true, true_and]
    cases made : block.produced.get? entry.2 with
    | none => simp
    | some own => simp [extending.fresh entry.2 (by simp [made])]

variable (follows : Follows encode held utxos) (keepsTxo : KeepsTxo encode)
  (allFit : AllFit utxos)

omit [DecidableEq α] computed in
include keepsTxo allFit in
/-- Entries of the block and of the set before it are told apart by their outputs. -/
theorem txo_eq {entry other : Tag × TxoRef} (live : Live block.produced entry ∨ Live utxos entry)
    (otherLive : Live block.produced other ∨ Live utxos other)
    (same : encode entry = encode other) : entry.2 = other.2 := by
  have fits : ∀ {entry : Tag × TxoRef}, Live block.produced entry ∨ Live utxos entry →
      FitsU32 entry.2 := by
    rintro entry (made | stored)
    · exact made.fits extending.fits
    · exact stored.fits allFit
  exact keepsTxo entry other (fits live) (fits otherLive) same

include follows keepsTxo allFit

theorem Follows.applied :
    Follows encode (applied held (entered encode delta) (left encode delta))
      (advance utxos block) := by
  intro key
  simp only [Writes.applied, mem_eraseEach, mem_insertEach, mem_left computed extending,
    mem_entered computed, follows key, live_advance extending]
  constructor
  · rintro ⟨stays, present⟩
    have shown : ∃ entry, (Live block.produced entry ∨ Live utxos entry) ∧ encode entry = key := by
      rcases present with ⟨entry, live, encoded⟩ | ⟨entry, live, encoded⟩
      · exact ⟨entry, Or.inl live, encoded⟩
      · exact ⟨entry, Or.inr live, encoded⟩
    rcases shown with ⟨entry, live, encoded⟩
    refine ⟨entry, ⟨?_, live⟩, encoded⟩
    intro spent
    exact stays ⟨entry, spent, live, encoded⟩
  · rintro ⟨entry, ⟨unspent, live⟩, encoded⟩
    refine ⟨?_, ?_⟩
    · rintro ⟨other, spent, otherLive, otherEncoded⟩
      have same := txo_eq extending keepsTxo allFit live otherLive
        (encoded.trans otherEncoded.symm)
      rw [same] at unspent
      exact unspent spent
    · rcases live with made | stored
      · exact Or.inl ⟨entry, made, encoded⟩
      · exact Or.inr ⟨entry, stored, encoded⟩

/-- The tags come back exactly when the block spends no tagged output of its own. -/
theorem Follows.undone_applied_iff :
    undone (Writes.applied held (entered encode delta) (left encode delta))
        (entered encode delta) (left encode delta) = held ↔ SpendsNoOwn block := by
  rw [Writes.undone_applied_iff]
  constructor
  · rintro ⟨leftHeld, _⟩ txo spent body made
    apply List.eq_nil_iff_forall_not_mem.mpr
    intro tag tagged
    have live : Live block.produced (tag, txo) := ⟨body, made, tagged⟩
    have leaves : encode (tag, txo) ∈ left encode delta :=
      (mem_left computed extending).mpr ⟨(tag, txo), spent, Or.inl live, rfl⟩
    rcases (follows _).mp (leftHeld _ leaves) with ⟨other, otherLive, same⟩
    have txoEq := txo_eq extending keepsTxo allFit (Or.inr otherLive) (Or.inl live) same
    rcases otherLive with ⟨stored, storedEq, _⟩
    have absent := extending.fresh txo (by simp [made])
    rw [txoEq, absent] at storedEq
    cases storedEq
  · intro spendsNoOwn
    refine ⟨?_, ?_⟩
    · intro key leaves
      rcases (mem_left computed extending).mp leaves with ⟨entry, spent, made | stored, encoded⟩
      · rcases made with ⟨body, bodyEq, tagged⟩
        rw [spendsNoOwn entry.2 spent body bodyEq] at tagged
        cases tagged
      · exact (follows key).mpr ⟨entry, stored, encoded⟩
    · intro key enters present
      rcases (mem_entered computed).mp enters with ⟨entry, made, encoded⟩
      rcases (follows key).mp present with ⟨other, stored, otherEncoded⟩
      have txoEq := txo_eq extending keepsTxo allFit (Or.inl made) (Or.inr stored)
        (encoded.trans otherEncoded.symm)
      rcases made with ⟨body, bodyEq, _⟩
      rcases stored with ⟨storedBody, storedEq, _⟩
      have absent := extending.fresh entry.2 (by simp [bodyEq])
      rw [← txoEq, absent] at storedEq
      cases storedEq

end Encoded

section Chain

variable [DimensionHashing]

/-- The index delta of genesis. -/
def genesisIndexDelta (genesis : UtxoMap O) : IndexDelta :=
  indexDeltaFromUtxoDelta .origin { UtxoSetDelta.default with producedUtxo := genesis }

/-- The two stores after the outputs of genesis and some blocks, each block with what its
batch has loaded. -/
inductive IndexedChain (genesis : UtxoMap O) :
    List (MultiEraBlock O) → IndexStore → FjallIndexStore → Prop
  | start : IndexedChain genesis [] (IndexStore.default.apply (genesisIndexDelta genesis))
      (FjallIndexStore.default.apply (genesisIndexDelta genesis))
  | extend {blocks : List (MultiEraBlock O)} {memory : IndexStore} {disk : FjallIndexStore}
      {block : MultiEraBlock O} {loaded : UtxoMap O} {delta : UtxoSetDelta O} :
      IndexedChain genesis blocks memory disk →
      Extends (advanceAll genesis blocks) block loaded →
      computeApplyDelta block loaded = .ok delta →
      IndexedChain genesis (blocks ++ [block])
        (memory.apply (blockIndexDelta (Block.point block) block loaded delta))
        (disk.apply (blockIndexDelta (Block.point block) block loaded delta))

omit [BlockDecoding O] [DimensionHashing] in
/-- On a valid chain a batch loads what its blocks need. -/
theorem Extends.of_validChain {utxos : UtxoMap O} {earlier later : List (MultiEraBlock O)}
    {block : MultiEraBlock O} (valid : ValidChain utxos (earlier ++ block :: later))
    (fits : AllFit block.produced) :
    Extends (advanceAll utxos earlier) block (loadUtxos (earlier ++ block :: later) utxos) := by
  refine ⟨?_, ?_, fits⟩
  · exact valid.right.fresh block List.mem_cons_self
  · intro txo spent
    cases made : block.produced.get? txo with
    | none => rw [get?_loadUtxos valid spent made, Option.none_or]
    | some body =>
        have isBlock : block ∈ earlier ++ block :: later := by simp
        have absent := valid.fresh block isBlock txo (by simp [made])
        have gatheredEq := @get?_gathered_of_made O _ ∅ _ _ _ valid.distinct isBlock made
        rw [loadUtxos, OrderedMap.get?_insertAll_entries, get?_getUtxos, absent, ite_self,
          Option.none_or, Option.some_or]
        exact gatheredEq

omit [BlockDecoding O] in
theorem keepsTxo_entryKey : KeepsTxo entryKey := by
  intro entry other fits otherFits same
  have decoded := congrArg decodeUtxoTagTxo same
  simpa only [entryKey, decodeUtxoTagTxo_buildUtxoTagKey _ _ fits,
    decodeUtxoTagTxo_buildUtxoTagKey _ _ otherFits] using decoded

omit [BlockDecoding O] [DimensionHashing] in
theorem keepsTxo_id : KeepsTxo (id : Tag × TxoRef → Tag × TxoRef) := by
  intro entry other _ _ same
  exact congrArg Prod.snd same

omit [BlockDecoding O] [DimensionHashing] in
theorem allFit_advance {utxos loaded : UtxoMap O} {block : MultiEraBlock O}
    (allFit : AllFit utxos) (extending : Extends utxos block loaded) :
    AllFit (advance utxos block) := by
  intro txo held
  rw [get?_advance] at held
  split_ifs at held
  · cases held
  · rw [Option.isSome_or, Bool.or_eq_true] at held
    rcases held with made | stored
    · exact extending.fits txo made
    · exact allFit txo stored

/-- Both stores keep the tags of the outputs that are left. -/
structure StoresFollow (utxos : UtxoMap O) (memory : IndexStore) (disk : FjallIndexStore) :
    Prop where
  memory : Follows id memory.utxoTags utxos
  disk : Follows entryKey disk.utxoTags utxos
  allFit : AllFit utxos

omit [DimensionHashing] in
theorem utxoTags_memory (store : IndexStore) (point : ChainPoint) (block : MultiEraBlock O)
    (loaded : UtxoMap O) (delta : UtxoSetDelta O) :
    (store.apply (blockIndexDelta point block loaded delta)).utxoTags =
      applied store.utxoTags (entered id delta) (left id delta) := by
  rw [entered, left, List.map_id, List.map_id]
  rfl

theorem utxoTags_disk (store : FjallIndexStore) (point : ChainPoint) (block : MultiEraBlock O)
    (loaded : UtxoMap O) (delta : UtxoSetDelta O) :
    (store.apply (blockIndexDelta point block loaded delta)).utxoTags =
      applied store.utxoTags (entered entryKey delta) (left entryKey delta) := by
  rw [entered, left, ← TagsLinked.tagKeys_eq, ← TagsLinked.tagKeys_eq]
  rfl

/-- The stores follow the outputs along every chain. -/
theorem IndexedChain.follow {genesis : UtxoMap O} {blocks : List (MultiEraBlock O)}
    {memory : IndexStore} {disk : FjallIndexStore} (genesisFits : AllFit genesis)
    (chain : IndexedChain genesis blocks memory disk) :
    StoresFollow (advanceAll genesis blocks) memory disk := by
  induction chain with
  | start =>
      refine ⟨?_, ?_, genesisFits⟩
      · intro entry
        change entry ∈ insertEach ∅ (IndexStore.tagged (withTags genesis)) ↔ _
        simp [mem_tagged_withTags, advanceAll]
      · intro key
        change key ∈ insertEach ∅ (FjallIndexStore.tagKeys (withTags genesis)) ↔ _
        simp [TagsLinked.tagKeys_eq, mem_tagged_withTags, advanceAll]
  | @extend blocks memory disk block loaded delta _ extending computed ih =>
      have advanced : advanceAll genesis (blocks ++ [block]) =
          advance (advanceAll genesis blocks) block := by
        rw [ValidChain.advanceAll_append]
        rfl
      rw [advanced]
      refine ⟨?_, ?_, allFit_advance ih.allFit extending⟩
      · rw [utxoTags_memory]
        exact ih.memory.applied computed extending keepsTxo_id ih.allFit
      · rw [utxoTags_disk]
        exact ih.disk.applied computed extending keepsTxo_entryKey ih.allFit

/-- After any chain, both stores get the delta of the next block undone exactly when the
block spends no tagged output of its own and its records are new. -/
theorem IndexedChain.invertible_iff {genesis : UtxoMap O} {blocks : List (MultiEraBlock O)}
    {memory : IndexStore} {disk : FjallIndexStore} (genesisFits : AllFit genesis)
    (chain : IndexedChain genesis blocks memory disk) {block : MultiEraBlock O}
    {loaded : UtxoMap O} {delta : UtxoSetDelta O} (point : ChainPoint)
    (extending : Extends (advanceAll genesis blocks) block loaded)
    (computed : computeApplyDelta block loaded = .ok delta) :
    memory.Invertible (blockIndexDelta point block loaded delta) ∧
        disk.Invertible (blockIndexDelta point block loaded delta) ↔
      SpendsNoOwn block ∧ RecordsFresh memory disk (indexBlock block loaded) := by
  have follow := chain.follow genesisFits
  have memoryIff := follow.memory.undone_applied_iff computed extending keepsTxo_id follow.allFit
  have diskIff := follow.disk.undone_applied_iff computed extending keepsTxo_entryKey
    follow.allFit
  rw [Writes.undone_applied_iff, entered, left, List.map_id, List.map_id] at memoryIff
  rw [Writes.undone_applied_iff, entered, left, ← TagsLinked.tagKeys_eq,
    ← TagsLinked.tagKeys_eq] at diskIff
  constructor
  · rintro ⟨inMemory, onDisk⟩
    refine ⟨memoryIff.mp ⟨inMemory.consumed, inMemory.produced⟩, ?_⟩
    have listed : indexBlock block loaded ∈
        (blockIndexDelta point block loaded delta).archive := List.mem_singleton_self _
    exact ⟨inMemory.exact _ listed, onDisk.exact _ listed, inMemory.archiveTags _ listed,
      onDisk.blockTags _ listed⟩
  · rintro ⟨spendsNoOwn, fresh⟩
    rcases memoryIff.mpr spendsNoOwn with ⟨consumed, produced⟩
    rcases diskIff.mpr spendsNoOwn with ⟨consumedKeys, producedKeys⟩
    refine ⟨⟨consumed, produced, ?_, ?_⟩, ⟨consumedKeys, producedKeys, ?_, ?_⟩⟩
    all_goals
      intro archive member
      rcases List.mem_singleton.mp member with rfl
    · exact fresh.archiveTags
    · exact fresh.exact
    · exact fresh.blockTags
    · exact fresh.exactKeys

end Chain

namespace OwnSpend

abbrev hashing : KeyHashing := BlockDecoding.byron.toKeyHashing

attribute [local instance] BlockDecoding.byron AssetNames.polynomial hashing

def genesis : UtxoMap ℕ := .ofList [(toLex (0, 0), 100)]

/-- The second transaction of the block spends the output of the first. -/
def block : MultiEraBlock ℕ :=
  ⟨7, 7, none, [⟨1, [(0, 60)], [toLex (0, 0)]⟩, ⟨2, [(0, 50)], [toLex (1, 0)]⟩]⟩

def loaded : UtxoMap ℕ := loadUtxos [block] genesis

def delta : UtxoSetDelta ℕ where
  producedUtxo := .ofList [(toLex (1, 0), 60), (toLex (2, 0), 50)]
  consumedUtxo := .ofList [(toLex (0, 0), 100), (toLex (1, 0), 60)]
  recoveredStxi := ∅
  undoneUtxo := ∅

theorem computed : computeApplyDelta block loaded = .ok delta := rfl

theorem keys_produced : block.produced.keys = [toLex (1, 0), toLex (2, 0)] := rfl

theorem consumed_block : block.consumed = [toLex (0, 0), toLex (1, 0)] := rfl

theorem extending : Extends genesis block loaded := by
  refine ⟨?_, ?_, ?_⟩
  · intro txo made
    have isKey := OrderedMap.mem_keys_iff.mpr made
    rw [keys_produced, List.mem_pair] at isKey
    rcases isKey with rfl | rfl
    · rfl
    · rfl
  · intro txo spent
    rw [consumed_block, List.mem_pair] at spent
    rcases spent with rfl | rfl
    · rfl
    · rfl
  · intro txo made
    have isKey := OrderedMap.mem_keys_iff.mpr made
    rw [keys_produced, List.mem_pair] at isKey
    rcases isKey with rfl | rfl
    · exact Nat.two_pow_pos 32
    · exact Nat.two_pow_pos 32

def memory : IndexStore := IndexStore.default.apply (genesisIndexDelta genesis)

def disk : FjallIndexStore := FjallIndexStore.default.apply (genesisIndexDelta genesis)

/-- The tag of the output that the block makes and spends comes back with the undo. -/
theorem own_output_comes_back :
    IndexedChain genesis [] memory disk ∧ Extends genesis block loaded ∧
      computeApplyDelta block loaded = .ok delta ∧
      ¬ ((memory.apply (blockIndexDelta (.specific 7 7) block loaded delta)).undo
        (blockIndexDelta (.specific 7 7) block loaded delta)).SameContents memory ∧
      ¬ ((disk.apply (blockIndexDelta (.specific 7 7) block loaded delta)).undo
        (blockIndexDelta (.specific 7 7) block loaded delta)).SameContents disk := by
  refine ⟨.start, extending, computed, ?_, ?_⟩
  · intro same
    have absent : (⟨.address, [60]⟩, toLex (1, 0)) ∉ memory.utxoTags := by decide
    rw [← same.utxoTags] at absent
    exact absent (by decide +kernel)
  · intro same
    have absent : entryKey (⟨.address, [60]⟩, toLex (1, 0)) ∉ disk.utxoTags := by decide +kernel
    rw [← same.utxoTags] at absent
    exact absent (by decide +kernel)

end OwnSpend

end Dolos
