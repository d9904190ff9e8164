import Mathlib.Data.Finset.Sort
import Dolos.Cardano.UtxoSet
import Dolos.Core.Indexes
import Dolos.Core.MempoolDepth

/-!
# The mempool-aware view of the UTxO set

`MempoolAwareUtxoStore` of `core/src/mempool.rs` shows the outputs of the ledger with
those of the mempool on top and without those that the mempool spends. Transactions
stay in the mempool for some time after a block has included them, so the ledger and
the mempool overlap, and a block may already have spent what the mempool still offers.

The decoding of payloads is a parameter, and so is the index store, by its search for
outputs with a tag.
-/

namespace Dolos

/-- The ledger after some blocks: the outputs that are left, and those consumed. -/
structure ChainUtxos (O : Type) where
  utxos : UtxoMap O
  spent : Set TxoRef
  gone : ∀ txo ∈ spent, utxos.get? txo = none

section Chain

variable {O : Type} {utxos : UtxoMap O} {blocks : List (MultiEraBlock O)}

def spentBy (blocks : List (MultiEraBlock O)) : Set TxoRef :=
  {txo | ∃ block ∈ blocks, txo ∈ block.consumed}

/-- On a valid chain a consumed output never comes back. -/
theorem ValidChain.get?_of_spentBy (valid : ValidChain utxos blocks) {txo : TxoRef}
    (spent : txo ∈ spentBy blocks) : (advanceAll utxos blocks).get? txo = none := by
  rcases spent with ⟨block, member, consumed⟩
  rcases List.append_of_mem member with ⟨earlier, later, rfl⟩
  have madeOnce := List.pairwise_append.mp valid.distinct
  have unmade : ∀ other ∈ later, other.produced.get? txo = none := by
    intro other isLater
    cases made : block.produced.get? txo with
    | some body =>
        have distinct := (List.pairwise_cons.mp madeOnce.2.1).1
        exact distinct other isLater txo (by simp [made])
    | none =>
        have held := valid.available earlier block later rfl txo consumed made
        rcases Option.isSome_iff_exists.mp held with ⟨body, bodyEq⟩
        rcases advanceAll_eq_some bodyEq with ⟨maker, isEarlier, makerMade⟩ | stored
        · exact madeOnce.2.2 maker isEarlier other (List.mem_cons_of_mem _ isLater) txo
            (by simp [makerMade])
        · by_contra makes
          have absent := valid.fresh other
            (List.mem_append_right _ (List.mem_cons_of_mem _ isLater)) txo
            (Option.isSome_iff_ne_none.mpr makes)
          simp [absent] at stored
  have split : earlier ++ block :: later = (earlier ++ [block]) ++ later := by simp
  rw [split, ValidChain.advanceAll_append]
  apply ValidChain.advanceAll_eq_none
  · rw [ValidChain.advanceAll_append]
    change (advance _ block).get? txo = none
    rw [get?_advance, if_pos consumed]
  · exact unmade

def ChainUtxos.ofChain (valid : ValidChain utxos blocks) : ChainUtxos O where
  utxos := advanceAll utxos blocks
  spent := spentBy blocks
  gone _ isSpent := valid.get?_of_spentBy isSpent

end Chain

section Scans

variable {O : Type}

def scanMempoolUtxos (predicate : O → Bool) (txs : List (Tx O)) : Finset TxoRef :=
  txs.foldl (fun refs tx => tx.produces.foldl (fun refs output =>
    if predicate output.2 then insert (tx.txo output.1) refs else refs) refs) ∅

def excludeInflightStxis (refs : Finset TxoRef) (txs : List (Tx O)) : Finset TxoRef :=
  txs.foldl (fun refs tx => tx.consumes.foldl Finset.erase refs) refs

/-- The references that are left, and the outputs selected. -/
def selectMempoolUtxos (refs : Finset TxoRef) (txs : List (Tx O)) : Finset TxoRef × UtxoMap O :=
  txs.foldl (fun selected tx => tx.produces.foldl (fun selected output =>
    if tx.txo output.1 ∈ selected.1 then
      (selected.1.erase (tx.txo output.1), selected.2.insert (tx.txo output.1) output.2)
    else selected) selected) (refs, ∅)

variable (txs : List (Tx O)) (txo : TxoRef)

theorem mem_scanMempoolUtxos (predicate : O → Bool) :
    txo ∈ scanMempoolUtxos predicate txs ↔
      ∃ output, (txo, output) ∈ producedBy txs ∧ predicate output := by
  have scanned : ∀ (outputs : List (TxoRef × O)) (refs : Finset TxoRef),
      txo ∈ outputs.foldl (fun refs output =>
        if predicate output.2 then insert output.1 refs else refs) refs ↔
        txo ∈ refs ∨ ∃ output, (txo, output) ∈ outputs ∧ predicate output := by
    intro outputs
    induction outputs with
    | nil => simp
    | cons head rest ih =>
        intro refs
        rw [List.foldl_cons, ih]
        rcases head with ⟨headTxo, headOutput⟩
        by_cases matched : predicate headOutput
        · simp only [matched, if_true, Finset.mem_insert, List.mem_cons, Prod.mk.injEq]
          grind
        · simp only [matched, List.mem_cons, Prod.mk.injEq]
          grind
  have flat : scanMempoolUtxos predicate txs = (producedBy txs).foldl (fun refs output =>
      if predicate output.2 then insert output.1 refs else refs) ∅ := by
    simp only [scanMempoolUtxos, producedBy, List.foldl_flatMap, List.foldl_map]
  rw [flat, scanned]
  simp

theorem mem_excludeInflightStxis (refs : Finset TxoRef) :
    txo ∈ excludeInflightStxis refs txs ↔ txo ∈ refs ∧ txo ∉ consumedBy txs := by
  have excluded : ∀ (consumed : List TxoRef) (refs : Finset TxoRef),
      txo ∈ consumed.foldl Finset.erase refs ↔ txo ∈ refs ∧ txo ∉ consumed := by
    intro consumed
    induction consumed with
    | nil => simp
    | cons head rest ih =>
        intro refs
        rw [List.foldl_cons, ih, Finset.mem_erase, List.mem_cons]
        tauto
  have flat : excludeInflightStxis refs txs = (consumedBy txs).foldl Finset.erase refs := by
    simp only [excludeInflightStxis, consumedBy, List.foldl_flatMap]
  rw [flat, excluded]

/-- One output met by the selection. -/
def selectOne (selected : Finset TxoRef × UtxoMap O) (output : TxoRef × O) :
    Finset TxoRef × UtxoMap O :=
  if output.1 ∈ selected.1 then
    (selected.1.erase output.1, selected.2.insert output.1 output.2)
  else selected

variable {txo} {selected : Finset TxoRef × UtxoMap O}

theorem foldl_selectOne_of_notMem (unasked : txo ∉ selected.1) (outputs : List (TxoRef × O)) :
    txo ∉ (outputs.foldl selectOne selected).1 ∧
      (outputs.foldl selectOne selected).2.get? txo = selected.2.get? txo := by
  induction outputs generalizing selected with
  | nil => exact ⟨unasked, rfl⟩
  | cons head rest ih =>
      rw [List.foldl_cons]
      by_cases asked : head.1 ∈ selected.1
      · have different : txo ≠ head.1 := by
          intro same
          exact unasked (same ▸ asked)
        have headEq : selectOne selected head =
            (selected.1.erase head.1, selected.2.insert head.1 head.2) := if_pos asked
        have stillUnasked : txo ∉ (selectOne selected head).1 := by
          simp [headEq, unasked]
        refine ⟨(ih stillUnasked).1, ?_⟩
        rw [(ih stillUnasked).2, headEq, OrderedMap.get?_insert, if_neg different]
      · have headEq : selectOne selected head = selected := if_neg asked
        rw [headEq]
        exact ih unasked

/-- The selection takes the first output for each reference it is asked for. -/
theorem foldl_selectOne_of_mem (asked : txo ∈ selected.1) (outputs : List (TxoRef × O)) :
    (txo ∈ (outputs.foldl selectOne selected).1 ↔ OrderedMap.lookup txo outputs = none) ∧
      (outputs.foldl selectOne selected).2.get? txo =
        (OrderedMap.lookup txo outputs).or (selected.2.get? txo) := by
  induction outputs generalizing selected with
  | nil => simp [OrderedMap.lookup, asked]
  | cons head rest ih =>
      rw [List.foldl_cons, OrderedMap.lookup]
      by_cases same : txo = head.1
      · have headEq : selectOne selected head =
            (selected.1.erase head.1, selected.2.insert head.1 head.2) := if_pos (same ▸ asked)
        have taken : txo ∉ (selectOne selected head).1 := by
          simp [headEq, same]
        rcases foldl_selectOne_of_notMem taken rest with ⟨notLeft, valueEq⟩
        have firstEq : (selectOne selected head).2.get? txo = some head.2 := by
          simp [headEq, same]
        rw [if_pos same, Option.some_or, valueEq]
        exact ⟨iff_of_false notLeft (Option.some_ne_none _), firstEq⟩
      · have stillAsked : txo ∈ (selectOne selected head).1 := by
          unfold selectOne
          split_ifs
          · exact Finset.mem_erase.mpr ⟨same, asked⟩
          · exact asked
        have valueEq : (selectOne selected head).2.get? txo = selected.2.get? txo := by
          unfold selectOne
          split_ifs
          · rw [OrderedMap.get?_insert, if_neg same]
          · rfl
        rw [if_neg same, ← valueEq]
        exact ih stillAsked

theorem selectMempoolUtxos_eq (refs : Finset TxoRef) :
    selectMempoolUtxos refs txs = (producedBy txs).foldl selectOne (refs, ∅) := by
  simp only [selectMempoolUtxos, producedBy, List.foldl_flatMap, List.foldl_map]
  rfl

end Scans

/-- The store over a ledger, an index store and a mempool. -/
structure MempoolAwareUtxoStore (O P : Type) (backend : MempoolBackend) where
  inner : UtxoMap O
  utxosByTag : TagDimension → Bytes → Finset TxoRef
  mempool : (backend.model P).State

namespace MempoolBackend

variable {P : Type}

def peekPending : (backend : MempoolBackend) → (backend.model P).State → List (MempoolTx P)
  | ephemeral => MempoolState.pending
  | redb => RedbMempool.peekPending

def peekInflight : (backend : MempoolBackend) → (backend.model P).State → List (MempoolTx P)
  | ephemeral => MempoolState.peekInflight
  | redb => RedbMempool.peekInflight

end MempoolBackend

namespace MempoolAwareUtxoStore

variable {O P : Type} {backend : MempoolBackend} (decode : P → Option (Tx O))
  (store : MempoolAwareUtxoStore O P backend)

/-- The transactions of the mempool; a payload that is none is passed over. -/
def allTxs : List (Tx O) :=
  (backend.peekPending store.mempool ++ backend.peekInflight store.mempool).filterMap
    fun mtx => decode mtx.payload

def getUtxosByTag (dimension : TagDimension) (key : Bytes) (predicate : O → Bool) :
    Finset TxoRef :=
  let fromMempool := scanMempoolUtxos predicate (store.allTxs decode)
  excludeInflightStxis (store.utxosByTag dimension key ∪ fromMempool) (store.allTxs decode)

def getUtxos (refs : Finset TxoRef) : UtxoMap O :=
  let refs := excludeInflightStxis refs (store.allTxs decode)
  let (refs, fromMempool) := selectMempoolUtxos refs (store.allTxs decode)
  (Dolos.getUtxos store.inner (refs.sort (· ≤ ·))).insertAll fromMempool.entries

theorem mem_getUtxosByTag (dimension : TagDimension) (key : Bytes) (predicate : O → Bool)
    (txo : TxoRef) :
    txo ∈ store.getUtxosByTag decode dimension key predicate ↔
      (txo ∈ store.utxosByTag dimension key ∨
        ∃ output, (txo, output) ∈ producedBy (store.allTxs decode) ∧ predicate output) ∧
      txo ∉ consumedBy (store.allTxs decode) := by
  rw [getUtxosByTag, mem_excludeInflightStxis, Finset.mem_union, mem_scanMempoolUtxos]

/-- A requested output comes from the mempool if it is there, and from the ledger if
not. -/
theorem get?_getUtxos (refs : Finset TxoRef) (txo : TxoRef) :
    (store.getUtxos decode refs).get? txo =
      if txo ∈ refs ∧ txo ∉ consumedBy (store.allTxs decode) then
        (OrderedMap.lookup txo (producedBy (store.allTxs decode))).or (store.inner.get? txo)
      else none := by
  have available := mem_excludeInflightStxis (store.allTxs decode) txo refs
  simp only [getUtxos, selectMempoolUtxos_eq]
  rw [OrderedMap.get?_insertAll_entries, Dolos.get?_getUtxos]
  simp only [Finset.mem_sort]
  by_cases asked : txo ∈ excludeInflightStxis refs (store.allTxs decode)
  · rcases @foldl_selectOne_of_mem O txo (excludeInflightStxis refs (store.allTxs decode), ∅)
      asked (producedBy (store.allTxs decode)) with ⟨leftIff, valueEq⟩
    rw [if_pos (available.mp asked), valueEq, OrderedMap.get?_empty, Option.or_none]
    cases found : OrderedMap.lookup txo (producedBy (store.allTxs decode)) with
    | none => rw [if_pos (leftIff.mpr found)]
    | some output => simp
  · rcases @foldl_selectOne_of_notMem O txo (excludeInflightStxis refs (store.allTxs decode), ∅)
      asked (producedBy (store.allTxs decode)) with ⟨notLeft, valueEq⟩
    rw [if_neg (fun listed => asked (available.mpr listed)), valueEq, if_neg notLeft]
    rfl

/-- The index store says which outputs of the ledger carry a tag. -/
def IndexAgrees (carries : O → TagDimension → Bytes → Prop) : Prop :=
  ∀ dimension key txo, txo ∈ store.utxosByTag dimension key ↔
    ∃ output, store.inner.get? txo = some output ∧ carries output dimension key

/-- An output is spent neither on the chain nor by the mempool. -/
def Unspent (ledger : ChainUtxos O) (txo : TxoRef) : Prop :=
  txo ∉ ledger.spent ∧ txo ∉ consumedBy (store.allTxs decode)

/-- What the view is for: it shows the outputs of the ledger and of the mempool that
match, or that are asked for, and that are unspent. -/
structure ViewExact (ledger : ChainUtxos O) (carries : O → TagDimension → Bytes → Prop)
    (dimension : TagDimension) (key : Bytes) (predicate : O → Bool) (refs : Finset TxoRef) :
    Prop where
  byTag : ∀ txo, txo ∈ store.getUtxosByTag decode dimension key predicate ↔
    ((∃ output, ledger.utxos.get? txo = some output ∧ carries output dimension key) ∨
      ∃ output, (txo, output) ∈ producedBy (store.allTxs decode) ∧ predicate output) ∧
    store.Unspent decode ledger txo
  resolved : ∀ txo, ((store.getUtxos decode refs).get? txo).isSome ↔
    txo ∈ refs ∧
    ((ledger.utxos.get? txo).isSome ∨
      ∃ output, (txo, output) ∈ producedBy (store.allTxs decode)) ∧
    store.Unspent decode ledger txo
  bodies : ∀ txo output, (store.getUtxos decode refs).get? txo = some output →
    ledger.utxos.get? txo = some output ∨ (txo, output) ∈ producedBy (store.allTxs decode)

/-- No output that matches, or that is asked for, is offered by the mempool when a block
has spent it and no transaction of the mempool has. -/
def NoneStale (ledger : ChainUtxos O) (predicate : O → Bool) (refs : Finset TxoRef) : Prop :=
  ∀ txo output, (txo, output) ∈ producedBy (store.allTxs decode) → txo ∈ ledger.spent →
    txo ∉ consumedBy (store.allTxs decode) → predicate output = false ∧ txo ∉ refs

section Exact

variable {decode store} {ledger : ChainUtxos O} {carries : O → TagDimension → Bytes → Prop}
  {dimension : TagDimension} {key : Bytes} {predicate : O → Bool} {refs : Finset TxoRef}

theorem isSome_lookup {txo : TxoRef} {outputs : List (TxoRef × O)} :
    (OrderedMap.lookup txo outputs).isSome ↔ ∃ output, (txo, output) ∈ outputs := by
  constructor
  · intro found
    rcases Option.isSome_iff_exists.mp found with ⟨output, outputEq⟩
    exact ⟨output, OrderedMap.mem_of_lookup outputEq⟩
  · rintro ⟨output, member⟩
    apply Option.isSome_iff_ne_none.mpr
    intro absent
    exact OrderedMap.notMem_of_lookup absent (List.mem_map_of_mem member)

variable (sameLedger : store.inner = ledger.utxos)

include sameLedger

theorem isSome_getUtxos (txo : TxoRef) :
    ((store.getUtxos decode refs).get? txo).isSome ↔
      txo ∈ refs ∧ txo ∉ consumedBy (store.allTxs decode) ∧
        ((ledger.utxos.get? txo).isSome ∨
          ∃ output, (txo, output) ∈ producedBy (store.allTxs decode)) := by
  rw [get?_getUtxos, sameLedger]
  split_ifs with available
  · rw [Option.isSome_or, Bool.or_eq_true, isSome_lookup, or_comm]
    simp [available]
  · simp only [Option.isSome_none, Bool.false_eq_true, false_iff]
    intro listed
    exact available ⟨listed.1, listed.2.1⟩

theorem body_getUtxos {txo : TxoRef} {output : O}
    (found : (store.getUtxos decode refs).get? txo = some output) :
    ledger.utxos.get? txo = some output ∨ (txo, output) ∈ producedBy (store.allTxs decode) := by
  rw [get?_getUtxos, sameLedger] at found
  split_ifs at found
  cases offered : OrderedMap.lookup txo (producedBy (store.allTxs decode)) with
  | none =>
      rw [offered, Option.none_or] at found
      exact Or.inl found
  | some held =>
      rw [offered, Option.some_or] at found
      exact Or.inr (OrderedMap.mem_of_lookup (offered.trans found))

/-- The view is exact unless it offers an output of the mempool that a block has spent. -/
theorem view_exact_iff_noneStale (agrees : store.IndexAgrees carries) :
    store.ViewExact decode ledger carries dimension key predicate refs ↔
      store.NoneStale decode ledger predicate refs := by
  constructor
  · intro exact txo output produced spent unconsumed
    refine ⟨?_, ?_⟩
    · by_contra matched
      have isMatch : predicate output = true := by simpa using matched
      have shown := (store.mem_getUtxosByTag decode dimension key predicate txo).mpr
        ⟨Or.inr ⟨output, produced, isMatch⟩, unconsumed⟩
      exact ((exact.byTag txo).mp shown).2.1 spent
    · intro asked
      have shown := (isSome_getUtxos sameLedger txo).mpr
        ⟨asked, unconsumed, Or.inr ⟨output, produced⟩⟩
      exact ((exact.resolved txo).mp shown).2.2.1 spent
  · intro noneStale
    refine ⟨?_, ?_, ?_⟩
    · intro txo
      rw [mem_getUtxosByTag, agrees, sameLedger]
      refine and_congr_right ?_
      intro shown
      refine ⟨?_, And.right⟩
      intro unconsumed
      refine ⟨?_, unconsumed⟩
      intro spent
      rcases shown with ⟨output, held, _⟩ | ⟨output, produced, matched⟩
      · simp [ledger.gone txo spent] at held
      · have unmatched := (noneStale txo output produced spent unconsumed).1
        simp [unmatched] at matched
    · intro txo
      rw [isSome_getUtxos sameLedger]
      constructor
      · rintro ⟨asked, unconsumed, shown⟩
        refine ⟨asked, shown, ?_, unconsumed⟩
        intro spent
        rcases shown with held | ⟨output, produced⟩
        · simp [ledger.gone txo spent] at held
        · exact (noneStale txo output produced spent unconsumed).2 asked
      · rintro ⟨asked, shown, _, unconsumed⟩
        exact ⟨asked, unconsumed, shown⟩
    · intro txo output found
      exact body_getUtxos sameLedger found

end Exact

end MempoolAwareUtxoStore

namespace SpentElsewhere

def genesis : UtxoMap Unit := .ofList [(toLex (0, 0), ())]

/-- The transaction of the mempool. -/
def ownTx : Tx Unit := ⟨1, [(0, ())], [toLex (0, 0)]⟩

/-- A transaction of someone else, who spends its output. -/
def otherTx : Tx Unit := ⟨2, [], [toLex (1, 0)]⟩

def ownBlock : MultiEraBlock Unit := ⟨10, 10, none, [ownTx]⟩

def otherBlock : MultiEraBlock Unit := ⟨11, 11, some 10, [otherTx]⟩

theorem produced_ownBlock (txo : TxoRef) :
    ownBlock.produced.get? txo = if txo = toLex (1, 0) then some () else none :=
  OrderedMap.get?_insert ∅ (toLex (1, 0)) txo ()

theorem consumed_ownBlock : ownBlock.consumed = [toLex (0, 0)] := rfl

theorem consumed_otherBlock : otherBlock.consumed = [toLex (1, 0)] := rfl

theorem produced_otherBlock : otherBlock.produced = ∅ := rfl

theorem valid : ValidChain genesis [ownBlock, otherBlock] := by
  refine ⟨?_, ?_, ?_⟩
  · intro block member txo made
    simp only [List.mem_cons, List.not_mem_nil, or_false] at member
    rcases member with rfl | rfl
    · rw [produced_ownBlock] at made
      split_ifs at made with isOwn
      · rw [isOwn]
        rfl
      · simp at made
    · simp [produced_otherBlock] at made
  · refine List.pairwise_pair.mpr ?_
    intro txo _
    simp [produced_otherBlock]
  · intro earlier block later split txo spent _
    rcases earlier with _ | ⟨first, _ | ⟨second, rest⟩⟩
    · rcases List.cons.inj split with ⟨rfl, _⟩
      rw [consumed_ownBlock, List.mem_singleton] at spent
      rw [spent]
      rfl
    · simp only [List.cons_append, List.nil_append, List.cons.injEq] at split
      rcases split with ⟨rfl, rfl, _⟩
      rw [consumed_otherBlock, List.mem_singleton] at spent
      rw [spent]
      rfl
    · simp at split

/-- The mempool has seen its transaction on the chain, and then the other block. -/
def mempool : RedbMempool (Tx Unit) :=
  let received := (RedbMempool.default.perform (.receive (.new 1 ownTx))).2
  let sent := (received.perform (.markInflight [1])).2
  let confirmed := (sent.perform (.confirm ⟨.specific 10 10, [1], [], 6, 2⟩)).2
  (confirmed.perform (.confirm ⟨.specific 11 11, [2], [], 6, 2⟩)).2

theorem included : ValidChain genesis [ownBlock] := @ValidChain.left _ _ _ [otherBlock] valid

/-- Every output has every tag. -/
def carries (_ : Unit) (_ : TagDimension) (_ : Bytes) : Prop := True

def storeOver (ledger : ChainUtxos Unit) : MempoolAwareUtxoStore Unit (Tx Unit) .redb where
  inner := ledger.utxos
  utxosByTag _ _ := ledger.utxos.keys.toFinset
  mempool := mempool

theorem agrees_storeOver (ledger : ChainUtxos Unit) : (storeOver ledger).IndexAgrees carries := by
  intro dimension key txo
  simp only [storeOver, List.mem_toFinset, OrderedMap.mem_keys_iff, carries, and_true]
  exact Option.isSome_iff_exists

theorem allTxs_storeOver (ledger : ChainUtxos Unit) :
    (storeOver ledger).allTxs some = [ownTx] := rfl

theorem view_exact_included :
    (storeOver (.ofChain included)).ViewExact some (.ofChain included) carries .address []
      (fun _ => true) {toLex (1, 0)} := by
  apply (MempoolAwareUtxoStore.view_exact_iff_noneStale rfl (agrees_storeOver _)).mpr
  intro txo output produced spent
  rw [allTxs_storeOver] at produced
  rcases spent with ⟨block, member, consumed⟩
  rcases List.mem_singleton.mp member with rfl
  rw [consumed_ownBlock, List.mem_singleton] at consumed
  simp [consumed, producedBy, ownTx, Tx.txo] at produced

/-- The output of the mempool's transaction is offered after the other block has spent it. -/
theorem spent_output_offered :
    (storeOver (.ofChain valid)).inner = (ChainUtxos.ofChain valid).utxos ∧
      (storeOver (.ofChain valid)).IndexAgrees carries ∧
      ¬ (storeOver (.ofChain valid)).ViewExact some (.ofChain valid) carries .address []
        (fun _ => true) {toLex (1, 0)} := by
  refine ⟨rfl, agrees_storeOver _, ?_⟩
  intro exact
  have spent : (toLex (1, 0) : TxoRef) ∈ (ChainUtxos.ofChain valid).spent :=
    ⟨otherBlock, by simp, by simp [consumed_otherBlock]⟩
  have shown : (toLex (1, 0) : TxoRef) ∈
      (storeOver (.ofChain valid)).getUtxosByTag some .address [] fun _ => true := by
    rw [MempoolAwareUtxoStore.mem_getUtxosByTag, allTxs_storeOver]
    refine ⟨Or.inr ⟨(), ?_, rfl⟩, ?_⟩
    · simp [producedBy, ownTx, Tx.txo]
    · simp [consumedBy, ownTx]
  exact ((exact.byTag _).mp shown).2.1 spent

end SpentElsewhere

end Dolos
