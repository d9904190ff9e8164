import Dolos.Cardano.UtxoStores

/-!
# Transactions on a chain

What validation promises of the transactions of a segment, taken one after the other
across its blocks: outputs are new, and what is consumed is there at that moment. On such
a segment the blocks leave what the transactions leave, and the outputs that a batch
loads for its inputs are those that each transaction finds.
-/

namespace Dolos

open Outcome MultiEraBlock

variable {O : Type}

/-- Each transaction consumes what is in the set when its turn comes. -/
def Spendable : UtxoMap O → List (Tx O) → Prop
  | _, [] => True
  | utxos, tx :: rest =>
      (∀ txo ∈ tx.consumes, (utxos.get? txo).isSome) ∧ Spendable (processTx utxos tx) rest

/-- Transactions as validation lets them through. -/
structure ValidTxs (utxos : UtxoMap O) (txs : List (Tx O)) : Prop where
  outputs : OutputsNew utxos txs
  spendable : Spendable utxos txs

section Sequence

variable {utxos : UtxoMap O} {first second : List (Tx O)}

theorem processTxs_append (utxos : UtxoMap O) (first second : List (Tx O)) :
    processTxs utxos (first ++ second) = processTxs (processTxs utxos first) second :=
  List.foldl_append

theorem spendable_append :
    Spendable utxos (first ++ second) ↔
      Spendable utxos first ∧ Spendable (processTxs utxos first) second := by
  induction first generalizing utxos with
  | nil => simp [Spendable, processTxs]
  | cons tx rest ih =>
      rw [List.cons_append, Spendable, Spendable, ih, and_assoc]
      rfl

/-- What the set holds after some transactions it held before, or they made it. -/
theorem held_of_processTxs {txs : List (Tx O)} {txo : TxoRef} {body : O}
    (held : (processTxs utxos txs).get? txo = some body) :
    (txo, body) ∈ producedBy txs ∨ utxos.get? txo = some body := by
  induction txs generalizing utxos with
  | nil => exact Or.inr held
  | cons tx rest ih =>
      rcases ih held with made | before
      · left
        rw [← List.singleton_append, producedBy_append]
        exact List.mem_append_right _ made
      · rcases OrderedMap.get?_insertAll_cases _ before with made | kept
        · left
          rw [← List.singleton_append, producedBy_append]
          exact List.mem_append_left _ made
        · right
          rw [OrderedMap.get?_eraseAll] at kept
          split_ifs at kept
          exact kept

theorem Spendable.inputsResolve {txs : List (Tx O)} (spendable : Spendable utxos txs) :
    InputsResolve utxos txs := by
  intro earlier tx later split txo spent
  rw [split, spendable_append, Spendable] at spendable
  rcases Option.isSome_iff_exists.mp (spendable.2.1 txo spent) with ⟨body, held⟩
  rcases held_of_processTxs held with made | before
  · exact Or.inr ⟨body, made⟩
  · left
    rw [before]
    rfl

namespace ValidTxs

theorem left (valid : ValidTxs utxos (first ++ second)) : ValidTxs utxos first :=
  ⟨valid.outputs.left, (spendable_append.mp valid.spendable).1⟩

theorem right (valid : ValidTxs utxos (first ++ second)) :
    ValidTxs (processTxs utxos first) second := by
  have hashes := valid.outputs.hashes
  rw [List.map_append, List.nodup_append] at hashes
  refine ⟨⟨hashes.2.1, ?_, ?_⟩, (spendable_append.mp valid.spendable).2⟩
  · intro tx isTx
    exact valid.outputs.indexes tx (List.mem_append_right first isTx)
  · intro txo body made
    have fresh : utxos.get? txo = none := by
      apply valid.outputs.fresh txo body
      rw [producedBy_append]
      exact List.mem_append_right _ made
    by_contra present
    rcases Option.ne_none_iff_exists'.mp present with ⟨other, held⟩
    rcases held_of_processTxs held with madeBefore | before
    · rcases mem_producedBy.mp made with ⟨maker, isMaker, hashEq, -⟩
      rcases mem_producedBy.mp madeBefore with ⟨earlier, isEarlier, earlierEq, -⟩
      apply hashes.2.2 _ (List.mem_map_of_mem isEarlier) _ (List.mem_map_of_mem isMaker)
      rw [earlierEq, hashEq]
    · rw [fresh] at before
      cases before

end ValidTxs

end Sequence

/-- Outputs loaded in advance that are what each transaction finds when its turn comes. -/
def LoadedFor (loaded : UtxoMap O) : UtxoMap O → List (Tx O) → Prop
  | _, [] => True
  | utxos, tx :: rest =>
      (∀ txo ∈ tx.consumes, loaded.get? txo = utxos.get? txo) ∧
        LoadedFor loaded (processTx utxos tx) rest

section Loaded

variable {loaded utxos : UtxoMap O} {first second : List (Tx O)}

theorem loadedFor_append :
    LoadedFor loaded utxos (first ++ second) ↔
      LoadedFor loaded utxos first ∧ LoadedFor loaded (processTxs utxos first) second := by
  induction first generalizing utxos with
  | nil => simp [LoadedFor, processTxs]
  | cons tx rest ih =>
      rw [List.cons_append, LoadedFor, LoadedFor, ih, and_assoc]
      rfl

theorem loadedFor_of_splits {txs : List (Tx O)}
    (each : ∀ earlier tx later, txs = earlier ++ tx :: later → ∀ txo ∈ tx.consumes,
      loaded.get? txo = (processTxs utxos earlier).get? txo) :
    LoadedFor loaded utxos txs := by
  induction txs generalizing utxos with
  | nil => trivial
  | cons tx rest ih =>
      refine ⟨each [] tx rest rfl, ih ?_⟩
      intro earlier other later split
      exact each (tx :: earlier) other later (by rw [split, List.cons_append])

end Loaded

section Segment

variable {utxos : UtxoMap O} {blocks : List (MultiEraBlock O)}

/-- The transactions of a segment. -/
def txsOf (blocks : List (MultiEraBlock O)) : List (Tx O) := blocks.flatMap MultiEraBlock.txs

theorem txsOf_append (first second : List (MultiEraBlock O)) :
    txsOf (first ++ second) = txsOf first ++ txsOf second := List.flatMap_append

theorem txsOf_cons (block : MultiEraBlock O) (rest : List (MultiEraBlock O)) :
    txsOf (block :: rest) = block.txs ++ txsOf rest := List.flatMap_cons

theorem advanceAll_eq_processTxs (valid : ValidTxs utxos (txsOf blocks)) :
    advanceAll utxos blocks = processTxs utxos (txsOf blocks) := by
  induction blocks generalizing utxos with
  | nil => rfl
  | cons block rest ih =>
      rw [txsOf_cons] at valid ⊢
      have head := valid.left
      rw [processTxs_append, advanceAll, List.foldl_cons,
        advance_eq_processTxs head.outputs head.spendable.inputsResolve]
      exact ih valid.right

/-- What a block of the segment makes. -/
theorem get?_produced_of_mem (outputs : OutputsNew utxos (txsOf blocks)) {block : MultiEraBlock O}
    (member : block ∈ blocks) {txo : TxoRef} {body : O} :
    block.produced.get? txo = some body ↔ (txo, body) ∈ producedBy block.txs := by
  rcases List.append_of_mem member with ⟨before, after, rfl⟩
  rw [txsOf_append, txsOf_cons] at outputs
  have hashes := outputs.hashes
  rw [List.map_append, List.map_append, List.nodup_append, List.nodup_append] at hashes
  have blockOutputs : OutputsNew ∅ block.txs := by
    refine ⟨hashes.2.1.1, ?_, fun _ _ _ => rfl⟩
    intro tx isTx
    exact outputs.indexes tx (List.mem_append_right _ (List.mem_append_left _ isTx))
  exact get?_produced blockOutputs

theorem mem_producedBy_txsOf {txo : TxoRef} {body : O} :
    (txo, body) ∈ producedBy (txsOf blocks) ↔
      ∃ block ∈ blocks, (txo, body) ∈ producedBy block.txs := by
  simp only [producedBy, txsOf, List.flatMap_assoc, List.mem_flatMap]

/-- No output is made by two blocks. -/
theorem distinct_of_outputsNew (outputs : OutputsNew utxos (txsOf blocks)) :
    blocks.Pairwise fun earlier later =>
      ∀ txo, (earlier.produced.get? txo).isSome → later.produced.get? txo = none := by
  have hashes : (blocks.flatMap fun block => block.txs.map Tx.hash).Nodup := by
    have listed := outputs.hashes
    rw [txsOf, List.map_flatMap] at listed
    exact listed
  apply (List.nodup_flatMap.mp hashes).2.imp_of_mem
  intro earlier later isEarlier isLater disjoint txo made
  rcases Option.isSome_iff_exists.mp made with ⟨body, bodyEq⟩
  by_contra madeAgain
  rcases Option.ne_none_iff_exists'.mp madeAgain with ⟨other, otherEq⟩
  rcases mem_producedBy.mp ((get?_produced_of_mem outputs isEarlier).mp bodyEq) with
    ⟨maker, isMaker, makerHash, -⟩
  rcases mem_producedBy.mp ((get?_produced_of_mem outputs isLater).mp otherEq) with
    ⟨second, isSecond, secondHash, -⟩
  apply disjoint (List.mem_map_of_mem isMaker)
  rw [makerHash, ← secondHash]
  exact List.mem_map_of_mem isSecond

/-- What a batch loads for an input is what the transaction finds. -/
theorem get?_loadUtxos_of_split (valid : ValidTxs utxos (txsOf blocks))
    {earlier later : List (Tx O)} {tx : Tx O} (split : txsOf blocks = earlier ++ tx :: later)
    {txo : TxoRef} (spent : txo ∈ tx.consumes) :
    (loadUtxos blocks utxos).get? txo = (processTxs utxos earlier).get? txo := by
  have spendable := valid.spendable
  rw [split, spendable_append, Spendable] at spendable
  rcases Option.isSome_iff_exists.mp (spendable.2.1 txo spent) with ⟨body, held⟩
  rw [held, loadUtxos, OrderedMap.get?_insertAll_entries, get?_getUtxos]
  change Option.or _ ((gathered blocks ∅).get? txo) = some body
  have stored : ∀ block ∈ blocks, (block.produced.get? txo).isSome → utxos.get? txo = none := by
    intro block member made
    rcases Option.isSome_iff_exists.mp made with ⟨other, otherEq⟩
    apply valid.outputs.fresh txo other
    exact mem_producedBy_txsOf.mpr
      ⟨block, member, (get?_produced_of_mem valid.outputs member).mp otherEq⟩
  rcases held_of_processTxs held with made | before
  · have madeInAll : (txo, body) ∈ producedBy (txsOf blocks) := by
      rw [split, producedBy_append]
      exact List.mem_append_left _ made
    rcases mem_producedBy_txsOf.mp madeInAll with ⟨maker, isMaker, madeIn⟩
    have makes := (get?_produced_of_mem valid.outputs isMaker).mpr madeIn
    have absent := stored maker isMaker (by rw [makes]; rfl)
    rw [get?_gathered_of_made (distinct_of_outputsNew valid.outputs) isMaker makes, absent]
    simp
  · have unmade : ∀ block ∈ blocks, block.produced.get? txo = none := by
      intro block member
      by_contra made
      have absent := stored block member (Option.isSome_iff_ne_none.mpr made)
      rw [absent] at before
      cases before
    have isTx : tx ∈ txsOf blocks := by
      rw [split]
      exact List.mem_append_right _ List.mem_cons_self
    rcases List.mem_flatMap.mp isTx with ⟨block, member, inBlock⟩
    rcases List.append_of_mem member with ⟨pre, post, blocksEq⟩
    have hashes : (block.txs.map Tx.hash).Nodup := by
      have listed := valid.outputs.hashes
      rw [txsOf, List.map_flatMap] at listed
      exact (List.nodup_flatMap.mp listed).1 block member
    have consumed : txo ∈ block.consumed :=
      (mem_consumed hashes).mpr (List.mem_flatMap.mpr ⟨tx, inBlock, spent⟩)
    have asked : txo ∈ (gatherDependencies blocks ∅).2 := by
      rw [blocksEq] at unmade ⊢
      exact mem_gatherDependencies consumed rfl unmade
    rw [if_pos (List.mem_dedup.mpr asked), before, Option.some_or]

theorem loadedFor_loadUtxos (valid : ValidTxs utxos (txsOf blocks)) :
    LoadedFor (loadUtxos blocks utxos) utxos (txsOf blocks) := by
  apply loadedFor_of_splits
  intro earlier tx later split txo spent
  exact get?_loadUtxos_of_split valid split spent

end Segment

end Dolos
