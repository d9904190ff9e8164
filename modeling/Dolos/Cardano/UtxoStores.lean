import Dolos.Cardano.IndexUndo

/-!
# The UTxO set on its three stores

The delta of a block collapses its transactions into what the block produces and what
it consumes, and each store writes the four parts of a delta in an order of its own.
On blocks as validation lets them through, the result is the set that the transactions
leave when they are processed one after the other, and the undo delta takes it back.

The stores on redb and in memory keep outputs under their references; the one on fjall
keeps them as bytes under bytes.
-/

namespace Dolos

open Outcome MultiEraBlock

variable {O : Type}

/-- A transaction takes its inputs from the set and adds its outputs. -/
def processTx (utxos : UtxoMap O) (tx : Tx O) : UtxoMap O :=
  (utxos.eraseAll tx.consumes).insertAll (producedBy [tx])

/-- The transactions of a block one after the other. -/
def processTxs (utxos : UtxoMap O) (txs : List (Tx O)) : UtxoMap O := txs.foldl processTx utxos

/-- The inputs of each transaction are in the set or among the outputs of an earlier
transaction of the block, whoever has spent them since. -/
def InputsResolve (utxos : UtxoMap O) (txs : List (Tx O)) : Prop :=
  ∀ earlier tx later, txs = earlier ++ tx :: later → ∀ txo ∈ tx.consumes,
    (utxos.get? txo).isSome ∨ ∃ body, (txo, body) ∈ producedBy earlier

/-- Every output of the block is new. -/
structure OutputsNew (utxos : UtxoMap O) (txs : List (Tx O)) : Prop where
  hashes : (txs.map Tx.hash).Nodup
  indexes : ∀ tx ∈ txs, (tx.produces.map Prod.fst).Nodup
  fresh : ∀ txo body, (txo, body) ∈ producedBy txs → utxos.get? txo = none

section Sequence

variable {utxos : UtxoMap O} {txs : List (Tx O)}

theorem producedBy_append (first second : List (Tx O)) :
    producedBy (first ++ second) = producedBy first ++ producedBy second := by
  simp [producedBy]

theorem mem_producedBy {txo : TxoRef} {body : O} :
    (txo, body) ∈ producedBy txs ↔
      ∃ tx ∈ txs, tx.hash = (ofLex txo).1 ∧ ((ofLex txo).2, body) ∈ tx.produces := by
  simp only [producedBy, List.mem_flatMap, List.mem_map, Prod.mk.injEq, Tx.txo]
  constructor
  · rintro ⟨tx, isTx, ⟨index, made⟩, isMade, rfl, rfl⟩
    exact ⟨tx, isTx, rfl, isMade⟩
  · rintro ⟨tx, isTx, hashEq, isMade⟩
    exact ⟨tx, isTx, _, isMade, by rw [hashEq]; rfl, rfl⟩

theorem OutputsNew.nodup (outputs : OutputsNew utxos txs) :
    ((producedBy txs).map Prod.fst).Nodup := by
  have keysEq : (producedBy txs).map Prod.fst =
      txs.flatMap fun tx => tx.produces.map fun output => tx.txo output.1 := by
    simp [producedBy, List.map_flatMap, Function.comp_def]
  rw [keysEq]
  apply List.nodup_flatMap.mpr
  refine ⟨?_, ?_⟩
  · intro tx isTx
    have indexes := outputs.indexes tx isTx
    rw [show (tx.produces.map fun output => tx.txo output.1) =
      (tx.produces.map Prod.fst).map tx.txo by simp [Function.comp_def]]
    apply indexes.map
    intro first second same
    exact (Prod.mk.inj same).2
  · apply (List.pairwise_map.mp outputs.hashes).imp
    intro first second different txo isFirst isSecond
    rcases List.mem_map.mp isFirst with ⟨_, _, rfl⟩
    rcases List.mem_map.mp isSecond with ⟨_, _, same⟩
    exact different (Prod.mk.inj same).1.symm

theorem OutputsNew.left {first second : List (Tx O)}
    (outputs : OutputsNew utxos (first ++ second)) :
    OutputsNew utxos first := by
  refine ⟨?_, ?_, ?_⟩
  · have hashes := outputs.hashes
    rw [List.map_append] at hashes
    exact hashes.of_append_left
  · intro tx isTx
    exact outputs.indexes tx (List.mem_append_left _ isTx)
  · intro txo body made
    apply outputs.fresh txo body
    rw [producedBy_append]
    exact List.mem_append_left _ made

theorem InputsResolve.left {first second : List (Tx O)}
    (resolve : InputsResolve utxos (first ++ second)) : InputsResolve utxos first := by
  intro earlier tx later split
  apply resolve earlier tx (later ++ second)
  rw [split, List.append_assoc, List.cons_append]

theorem inputsResolve_nil : InputsResolve utxos [] := by
  intro earlier tx later split
  simp at split

theorem InputsResolve.concat {earlier : List (Tx O)} (resolve : InputsResolve utxos earlier)
    {tx : Tx O} (resolveTx : ∀ txo ∈ tx.consumes,
      (utxos.get? txo).isSome ∨ ∃ body, (txo, body) ∈ producedBy earlier) :
    InputsResolve utxos (earlier ++ [tx]) := by
  intro before spender after split txo spent
  rcases List.eq_nil_or_concat after with rfl | ⟨between, last, rfl⟩
  · rcases List.append_inj' split rfl with ⟨rfl, sameTx⟩
    rw [← List.head_eq_of_cons_eq sameTx] at spent
    exact resolveTx txo spent
  · have regrouped : earlier ++ [tx] = (before ++ spender :: between) ++ [last] := by
      simp [split]
    exact resolve before spender between (List.append_inj' regrouped rfl).1 txo spent

/-- An output of the block is consumed after it is made: what a transaction produces, no
transaction up to it consumes. -/
theorem notMem_consumedBy {earlier : List (Tx O)} {tx : Tx O}
    (outputs : OutputsNew utxos (earlier ++ [tx])) (resolve : InputsResolve utxos (earlier ++ [tx]))
    {txo : TxoRef} {body : O} (made : (txo, body) ∈ producedBy [tx]) :
    txo ∉ consumedBy (earlier ++ [tx]) := by
  intro consumed
  rcases List.mem_flatMap.mp consumed with ⟨spender, isSpender, spent⟩
  rcases List.append_of_mem isSpender with ⟨before, after, split⟩
  have fresh : utxos.get? txo = none := by
    apply outputs.fresh txo body
    rw [producedBy_append]
    exact List.mem_append_right _ made
  rcases resolve before spender after split txo spent with held | ⟨other, madeBefore⟩
  · simp [fresh] at held
  · have isLast : tx ∈ spender :: after := by
      have lastEq := congrArg List.getLast? split
      rw [List.getLast?_concat, List.getLast?_append_cons] at lastEq
      exact List.mem_of_getLast? lastEq.symm
    rcases mem_producedBy.mp madeBefore with ⟨maker, isMaker, makerHash, -⟩
    rcases mem_producedBy.mp made with ⟨same, isSame, sameHash, -⟩
    rw [List.mem_singleton.mp isSame] at sameHash
    have hashes := outputs.hashes
    rw [split, List.map_append, List.nodup_append] at hashes
    apply hashes.2.2 _ (List.mem_map_of_mem isMaker) _ (List.mem_map_of_mem isLast)
    rw [makerHash, sameHash]

theorem processTxs_concat (earlier : List (Tx O)) (tx : Tx O) :
    processTxs utxos (earlier ++ [tx]) = processTx (processTxs utxos earlier) tx := by
  simp [processTxs]

/-- The transactions leave what they make and what was there, but for what they
consume. -/
theorem get?_processTxs (outputs : OutputsNew utxos txs) (resolve : InputsResolve utxos txs)
    {txo : TxoRef} {body : O} :
    (processTxs utxos txs).get? txo = some body ↔
      txo ∉ consumedBy txs ∧ ((txo, body) ∈ producedBy txs ∨ utxos.get? txo = some body) := by
  induction txs using List.reverseRecOn with
  | nil => simp [processTxs, consumedBy, producedBy]
  | append_singleton earlier tx ih =>
      have nodup := outputs.nodup
      rw [producedBy_append, List.map_append, List.nodup_append] at nodup
      rcases nodup with ⟨-, nodupTx, disjoint⟩
      have consumedEq : consumedBy (earlier ++ [tx]) = consumedBy earlier ++ tx.consumes := by
        simp [consumedBy]
      rw [processTxs_concat, processTx, OrderedMap.get?_insertAll_iff _ nodupTx,
        OrderedMap.get?_eraseAll, producedBy_append, List.mem_append]
      constructor
      · rintro (made | ⟨-, kept⟩)
        · exact ⟨notMem_consumedBy outputs resolve made, Or.inl (Or.inr made)⟩
        · split_ifs at kept with spent
          rcases (ih outputs.left resolve.left).mp kept with ⟨unspent, source⟩
          refine ⟨?_, ?_⟩
          · rw [consumedEq, List.mem_append]
            tauto
          · tauto
      · rintro ⟨unspent, source⟩
        rw [consumedEq, List.mem_append, not_or] at unspent
        by_cases made : (txo, body) ∈ producedBy [tx]
        · exact Or.inl made
        · right
          have before : (txo, body) ∈ producedBy earlier ∨ utxos.get? txo = some body := by
            tauto
          refine ⟨?_, ?_⟩
          · intro isKey
            rcases List.mem_map.mp isKey with ⟨⟨other, value⟩, isMade, rfl⟩
            rcases before with madeEarlier | held
            · exact disjoint _ (List.mem_map_of_mem madeEarlier) _ isKey rfl
            · have fresh := outputs.fresh other value (by
                rw [producedBy_append]
                exact List.mem_append_right _ isMade)
              rw [fresh] at held
              cases held
          · rw [if_neg unspent.2]
            exact (ih outputs.left resolve.left).mpr ⟨unspent.1, before⟩

end Sequence

namespace MultiEraBlock

variable {utxos : UtxoMap O} {block : MultiEraBlock O}

theorem mem_txsByHash (hashes : (block.txs.map Tx.hash).Nodup) {hash : BlockHash} {tx : Tx O} :
    (hash, tx) ∈ block.txsByHash.entries ↔ tx ∈ block.txs ∧ tx.hash = hash := by
  rw [OrderedMap.mem_entries_iff, txsByHash, OrderedMap.get?_ofList_iff]
  · simp only [List.mem_map, Prod.mk.injEq]
    grind
  · simpa [Function.comp_def] using hashes

theorem mem_consumed (hashes : (block.txs.map Tx.hash).Nodup) {txo : TxoRef} :
    txo ∈ block.consumed ↔ txo ∈ consumedBy block.txs := by
  simp only [consumed, consumedBy, List.mem_flatMap, Prod.exists, mem_txsByHash hashes]
  grind

theorem get?_produced (outputs : OutputsNew utxos block.txs) {txo : TxoRef} {body : O} :
    block.produced.get? txo = some body ↔ (txo, body) ∈ producedBy block.txs := by
  apply OrderedMap.get?_ofList_of_mem_iff ?_ outputs.nodup
  intro entry
  simp only [producedBy, Tx.txo, List.mem_flatMap, Prod.exists, mem_txsByHash outputs.hashes]
  constructor
  · rintro ⟨_, tx, ⟨isTx, rfl⟩, made⟩
    exact ⟨tx, isTx, made⟩
  · rintro ⟨tx, isTx, made⟩
    exact ⟨tx.hash, tx, ⟨isTx, rfl⟩, made⟩

/-- The delta's effect is that of the transactions one after the other. -/
theorem advance_eq_processTxs (outputs : OutputsNew utxos block.txs)
    (resolve : InputsResolve utxos block.txs) :
    advance utxos block = processTxs utxos block.txs := by
  ext1 txo
  apply Option.ext
  intro body
  rw [get?_processTxs outputs resolve, ← get?_produced outputs, get?_advance,
    ← mem_consumed outputs.hashes]
  by_cases spent : txo ∈ block.consumed
  · simp [spent]
  · cases made : block.produced.get? txo with
    | none => simp [spent]
    | some other =>
        have fresh := outputs.fresh txo other ((get?_produced outputs).mp made)
        simp [spent, fresh]

theorem produced_fresh (outputs : OutputsNew utxos block.txs) (txo : TxoRef)
    (made : (block.produced.get? txo).isSome) : utxos.get? txo = none := by
  rcases Option.isSome_iff_exists.mp made with ⟨body, madeEq⟩
  exact outputs.fresh txo body ((get?_produced outputs).mp madeEq)

/-- Inputs that resolve are loaded. -/
theorem consumed_available (outputs : OutputsNew utxos block.txs)
    (resolve : InputsResolve utxos block.txs) {txo : TxoRef} (spent : txo ∈ block.consumed) :
    ((block.produced.get? txo).or (utxos.get? txo)).isSome := by
  rcases List.mem_flatMap.mp ((mem_consumed outputs.hashes).mp spent) with ⟨tx, isTx, isInput⟩
  rcases List.append_of_mem isTx with ⟨earlier, later, split⟩
  rcases resolve earlier tx later split txo isInput with held | ⟨body, made⟩
  · cases block.produced.get? txo <;> simp [held]
  · have madeInBlock : (txo, body) ∈ producedBy block.txs := by
      rw [split, producedBy_append]
      exact List.mem_append_left _ made
    simp [(get?_produced outputs).mpr madeInBlock]

theorem validChain_singleton (outputs : OutputsNew utxos block.txs)
    (resolve : InputsResolve utxos block.txs) : ValidChain utxos [block] := by
  refine ⟨?_, List.pairwise_singleton _ _, ?_⟩
  · intro other isOther
    rw [List.mem_singleton.mp isOther]
    exact produced_fresh outputs
  · intro earlier other later split txo spent unmade
    rcases List.append_eq_singleton_iff.mp split.symm with ⟨rfl, sameBlock⟩ | ⟨_, absurdEq⟩
    · rcases List.cons.inj sameBlock with ⟨rfl, -⟩
      have available := consumed_available outputs resolve spent
      rwa [unmade, Option.none_or] at available
    · cases absurdEq

end MultiEraBlock

theorem resolve_of_loaded {loaded : UtxoMap O} {refs : List TxoRef}
    (present : ∀ txo ∈ refs, (loaded.get? txo).isSome) :
    ∃ resolved, Dolos.resolve loaded refs = .ok resolved := by
  induction refs with
  | nil => exact ⟨[], rfl⟩
  | cons head rest ih =>
      rcases Option.isSome_iff_exists.mp (present head List.mem_cons_self) with ⟨body, bodyEq⟩
      rcases ih (fun txo member => present txo (List.mem_cons_of_mem head member)) with
        ⟨resolved, resolvedEq⟩
      refine ⟨(head, body) :: resolved, ?_⟩
      rw [Dolos.resolve, bodyEq, resolvedEq]
      rfl

section Resolved

variable {block : MultiEraBlock O} {loaded : UtxoMap O} {resolved : List (TxoRef × O)}

/-- The delta of a block with the bodies of what it consumes. -/
def applyDeltaWith (block : MultiEraBlock O) (resolved : List (TxoRef × O)) : UtxoSetDelta O :=
  { UtxoSetDelta.default with
    producedUtxo := block.produced
    consumedUtxo := .ofList resolved }

def undoDeltaWith (block : MultiEraBlock O) (resolved : List (TxoRef × O)) : UtxoSetDelta O :=
  { UtxoSetDelta.default with
    undoneUtxo := block.produced
    recoveredStxi := .ofList resolved }

theorem computeApplyDelta_eq (resolvedEq : resolve loaded block.consumed = .ok resolved) :
    computeApplyDelta block loaded = .ok (applyDeltaWith block resolved) := by
  rw [computeApplyDelta, resolvedEq, ok_bind, applyDeltaWith]

theorem computeUndoDelta_eq (resolvedEq : resolve loaded block.consumed = .ok resolved) :
    computeUndoDelta block loaded = .ok (undoDeltaWith block resolved) := by
  rw [computeUndoDelta, resolvedEq, ok_bind, undoDeltaWith]

end Resolved

/-- The store on redb removes in the other order: first what is undone, then what is
consumed. -/
def UtxosTable.apply (table : UtxoMap O) (delta : UtxoSetDelta O) : UtxoMap O :=
  let written := (table.insertAll delta.producedUtxo.entries).insertAll delta.recoveredStxi.entries
  (written.eraseAll delta.undoneUtxo.keys).eraseAll delta.consumedUtxo.keys

theorem UtxosTable.apply_eq (table : UtxoMap O) (delta : UtxoSetDelta O) :
    UtxosTable.apply table delta = applyUtxoset table delta := by
  ext1 txo
  simp only [UtxosTable.apply, applyUtxoset, OrderedMap.get?_eraseAll]
  split_ifs <;> rfl

/-- An output as it came: its era and its bytes. -/
structure EraCbor where
  era : Fin (2 ^ 16)
  cbor : Bytes
deriving DecidableEq

def encodeUtxoValue (value : EraCbor) : Bytes := toBeBytes 2 value.era.val ++ value.cbor

def decodeUtxoValue (bytes : Bytes) : Option EraCbor :=
  if bytes.length < 2 then none
  else some ⟨Fin.ofNat _ (fromBeBytes (bytes.take 2)), bytes.drop 2⟩

theorem decodeUtxoValue_encodeUtxoValue (value : EraCbor) :
    decodeUtxoValue (encodeUtxoValue value) = some value := by
  rcases value with ⟨era, cbor⟩
  have eraBytes : (encodeUtxoValue ⟨era, cbor⟩).take 2 = toBeBytes 2 era.val :=
    List.take_left' (length_toBeBytes 2 _)
  have cborBytes : (encodeUtxoValue ⟨era, cbor⟩).drop 2 = cbor :=
    List.drop_left' (length_toBeBytes 2 _)
  have long : ¬ (encodeUtxoValue ⟨era, cbor⟩).length < 2 := by
    rw [encodeUtxoValue, List.length_append, length_toBeBytes]
    omega
  rw [decodeUtxoValue, if_neg long, eraBytes, cborBytes, fromBeBytes_toBeBytes]
  have sameEra : Fin.ofNat (2 ^ 16) (era.val % 256 ^ 2) = era := by
    apply Fin.ext
    have bound := era.isLt
    simp only [Fin.ofNat]
    omega
  rw [sameEra]

/-- The keyspace of outputs in the store on fjall. -/
abbrev UtxoKeyspace := Bytes → Option Bytes

namespace UtxoKeyspace

def insertUtxos (keyspace : UtxoKeyspace) (outputs : UtxoMap EraCbor) : UtxoKeyspace :=
  outputs.entries.foldl
    (fun keyspace output =>
      Function.update keyspace (encodeTxoRef output.1) (some (encodeUtxoValue output.2)))
    keyspace

def removeUtxos (keyspace : UtxoKeyspace) (refs : List TxoRef) : UtxoKeyspace :=
  refs.foldl (fun keyspace txo => Function.update keyspace (encodeTxoRef txo) none) keyspace

def applyDelta (keyspace : UtxoKeyspace) (delta : UtxoSetDelta EraCbor) : UtxoKeyspace :=
  let written := (keyspace.insertUtxos delta.producedUtxo).insertUtxos delta.recoveredStxi
  (written.removeUtxos delta.consumedUtxo.keys).removeUtxos delta.undoneUtxo.keys

def getUtxo (keyspace : UtxoKeyspace) (txo : TxoRef) : Option EraCbor :=
  (keyspace (encodeTxoRef txo)).bind decodeUtxoValue

/-- The keyspace that holds a set of outputs. -/
structure Stores (keyspace : UtxoKeyspace) (utxos : UtxoMap EraCbor) : Prop where
  fits : AllFit utxos
  held : ∀ txo, FitsU32 txo → keyspace (encodeTxoRef txo) = (utxos.get? txo).map encodeUtxoValue
  only : ∀ key, (keyspace key).isSome → ∃ txo, FitsU32 txo ∧ encodeTxoRef txo = key

variable {keyspace other : UtxoKeyspace} {utxos : UtxoMap EraCbor}

theorem encodeTxoRef_inj {first second : TxoRef} (firstFits : FitsU32 first)
    (secondFits : FitsU32 second) (same : encodeTxoRef first = encodeTxoRef second) :
    first = second := by
  rw [← decodeTxoRef_encodeTxoRef firstFits, same, decodeTxoRef_encodeTxoRef secondFits]

/-- One write, or one removal. -/
theorem Stores.update (stores : Stores keyspace utxos) {txo : TxoRef} (fits : FitsU32 txo)
    (value : Option EraCbor) :
    Stores (Function.update keyspace (encodeTxoRef txo) (value.map encodeUtxoValue))
      (utxos.set txo value) := by
  refine ⟨?_, ?_, ?_⟩
  · intro key present
    by_cases same : key = txo
    · rwa [same]
    · rw [OrderedMap.get?_set, if_neg same] at present
      exact stores.fits key present
  · intro key keyFits
    rw [OrderedMap.get?_set]
    by_cases same : key = txo
    · subst same
      simp
    · have differs : encodeTxoRef key ≠ encodeTxoRef txo :=
        fun sameKey => same (encodeTxoRef_inj keyFits fits sameKey)
      rw [Function.update_of_ne differs, if_neg same, stores.held key keyFits]
  · intro key present
    by_cases same : key = encodeTxoRef txo
    · exact ⟨txo, fits, same.symm⟩
    · rw [Function.update_of_ne same] at present
      exact stores.only key present

theorem Stores.insertUtxos (stores : Stores keyspace utxos) {outputs : UtxoMap EraCbor}
    (fits : AllFit outputs) :
    Stores (keyspace.insertUtxos outputs) (utxos.insertAll outputs.entries) := by
  have fit : ∀ output ∈ outputs.entries, FitsU32 output.1 := by
    intro output member
    apply fits
    rw [OrderedMap.mem_entries_iff.mp member]
    rfl
  rw [UtxoKeyspace.insertUtxos, OrderedMap.insertAll]
  generalize outputs.entries = entries at fit
  induction entries generalizing keyspace utxos with
  | nil => exact stores
  | cons output rest ih =>
      apply ih (stores.update (fit output List.mem_cons_self) (some output.2))
      intro later member
      exact fit later (List.mem_cons_of_mem output member)

theorem Stores.removeUtxos (stores : Stores keyspace utxos) {refs : List TxoRef}
    (fit : ∀ txo ∈ refs, FitsU32 txo) :
    Stores (keyspace.removeUtxos refs) (utxos.eraseAll refs) := by
  rw [UtxoKeyspace.removeUtxos, OrderedMap.eraseAll]
  induction refs generalizing keyspace utxos with
  | nil => exact stores
  | cons txo rest ih =>
      apply ih (stores.update (fit txo List.mem_cons_self) none)
      intro later member
      exact fit later (List.mem_cons_of_mem txo member)

theorem stores_empty : Stores (fun _ => none) ∅ := by
  refine ⟨?_, ?_, ?_⟩
  · intro txo present
    cases present
  · intro txo fits
    rfl
  · intro key present
    cases present

instance : DecidablePred FitsU32 := fun txo => inferInstanceAs (Decidable ((ofLex txo).2 < 2 ^ 32))

theorem allFit_iff_keys {outputs : UtxoMap EraCbor} :
    AllFit outputs ↔ ∀ txo ∈ outputs.keys, FitsU32 txo := by
  simp only [AllFit, OrderedMap.mem_keys_iff]

/-- The keyspace goes along with the set. -/
theorem Stores.applyDelta (stores : Stores keyspace utxos) {delta : UtxoSetDelta EraCbor}
    (produced : AllFit delta.producedUtxo) (recovered : AllFit delta.recoveredStxi)
    (consumed : AllFit delta.consumedUtxo) (undone : AllFit delta.undoneUtxo) :
    Stores (keyspace.applyDelta delta) (applyUtxoset utxos delta) := by
  have written := (stores.insertUtxos produced).insertUtxos recovered
  exact (written.removeUtxos (allFit_iff_keys.mp consumed)).removeUtxos
    (allFit_iff_keys.mp undone)

theorem Stores.getUtxo_eq (stores : Stores keyspace utxos) {txo : TxoRef} (fits : FitsU32 txo) :
    keyspace.getUtxo txo = utxos.get? txo := by
  rw [getUtxo, stores.held txo fits]
  cases utxos.get? txo with
  | none => rfl
  | some body => exact decodeUtxoValue_encodeUtxoValue body

/-- The set determines the keyspace. -/
theorem Stores.unique (stores : Stores keyspace utxos) (otherStores : Stores other utxos) :
    keyspace = other := by
  funext key
  by_cases isKey : ∃ txo, FitsU32 txo ∧ encodeTxoRef txo = key
  · rcases isKey with ⟨txo, fits, rfl⟩
    rw [stores.held txo fits, otherStores.held txo fits]
  · have absent : keyspace key = none := by
      by_contra present
      exact isKey (stores.only key (Option.isSome_iff_ne_none.mpr present))
    have otherAbsent : other key = none := by
      by_contra present
      exact isKey (otherStores.only key (Option.isSome_iff_ne_none.mpr present))
    rw [absent, otherAbsent]

end UtxoKeyspace

section Exact

variable {utxos loaded : UtxoMap EraCbor} {block : MultiEraBlock EraCbor}

theorem allFit_resolved {resolved : List (TxoRef × EraCbor)}
    (resolvedEq : resolve loaded block.consumed = .ok resolved)
    (loads : Loads block utxos loaded) (fits : AllFit utxos) (madeFit : AllFit block.produced) :
    AllFit (.ofList resolved) := by
  intro txo present
  rw [get?_resolve resolvedEq] at present
  split_ifs at present with spent
  · rw [loads txo spent, Option.isSome_or, Bool.or_eq_true] at present
    rcases present with made | held
    · exact madeFit txo made
    · exact fits txo held
  · cases present

theorem allFit_empty : AllFit (∅ : UtxoMap EraCbor) := by
  intro txo present
  cases present

/-- On each store the delta of a block whose inputs resolve and whose outputs are new
gives the set its transactions leave, and the undo delta takes it back. -/
theorem stores_apply_and_undo {keyspace : UtxoKeyspace} (outputs : OutputsNew utxos block.txs)
    (resolve : InputsResolve utxos block.txs) (stores : keyspace.Stores utxos)
    (fits : AllFit block.produced) :
    Loads block utxos (loadUtxos [block] utxos) ∧
      ∀ loaded, Loads block utxos loaded → ∃ delta undo,
        computeApplyDelta block loaded = .ok delta ∧ computeUndoDelta block loaded = .ok undo ∧
        (applyUtxoset utxos delta = processTxs utxos block.txs ∧
          applyUtxoset (processTxs utxos block.txs) undo = utxos) ∧
        (UtxosTable.apply utxos delta = processTxs utxos block.txs ∧
          UtxosTable.apply (processTxs utxos block.txs) undo = utxos) ∧
        (keyspace.applyDelta delta).Stores (processTxs utxos block.txs) ∧
          (keyspace.applyDelta delta).applyDelta undo = keyspace := by
  have valid := validChain_singleton outputs resolve
  refine ⟨(@Extends.of_validChain _ utxos [] [] block valid fits).loads, ?_⟩
  intro loaded loads
  have present : ∀ txo ∈ block.consumed, (loaded.get? txo).isSome := by
    intro txo spent
    rw [loads txo spent]
    exact consumed_available outputs resolve spent
  rcases resolve_of_loaded present with ⟨resolved, resolvedEq⟩
  have resolvedFit := allFit_resolved resolvedEq loads stores.fits fits
  have computed := computeApplyDelta_eq resolvedEq
  have undoComputed := computeUndoDelta_eq resolvedEq
  have applied := @applyUtxoset_computeApplyDelta _ _ _ utxos _ computed
  rw [advance_eq_processTxs outputs resolve] at applied
  have restored : ∃ undo, computeUndoDelta block loaded = .ok undo ∧
      applyUtxoset (advance utxos block) undo = utxos := by
    apply applyUtxoset_computeUndoDelta computed (produced_fresh outputs)
    intro txo spent unmade
    rw [loads txo spent, unmade, Option.none_or]
  rcases restored with ⟨undo, undoEq, undone⟩
  rcases Except.ok.inj (undoComputed.symm.trans undoEq) with rfl
  rw [advance_eq_processTxs outputs resolve] at undone
  have disk : (keyspace.applyDelta (applyDeltaWith block resolved)).Stores _ :=
    stores.applyDelta fits allFit_empty resolvedFit allFit_empty
  refine ⟨_, _, computed, undoComputed, ⟨applied, undone⟩, ⟨?_, ?_⟩, ?_, ?_⟩
  · rw [UtxosTable.apply_eq, applied]
  · rw [UtxosTable.apply_eq, undone]
  · rwa [applied] at disk
  · have diskUndone : ((keyspace.applyDelta (applyDeltaWith block resolved)).applyDelta
        (undoDeltaWith block resolved)).Stores _ :=
      disk.applyDelta allFit_empty resolvedFit allFit_empty fits
    rw [applied, undone] at diskUndone
    exact diskUndone.unique stores

end Exact

namespace ChainedSpends

def genesis : UtxoMap EraCbor := .ofList [(toLex (0, 0), ⟨6, [130]⟩), (toLex (0, 1), ⟨6, [131]⟩)]

def keyspace : UtxoKeyspace := UtxoKeyspace.insertUtxos (fun _ => none) genesis

def first : Tx EraCbor := ⟨1, [(0, ⟨6, [132]⟩), (1, ⟨6, [133]⟩)], [toLex (0, 0)]⟩

/-- It spends an output of the first transaction, and once more what that has spent. -/
def second : Tx EraCbor := ⟨2, [(0, ⟨6, [134]⟩)], [toLex (1, 0), toLex (0, 0)]⟩

def block : MultiEraBlock EraCbor := ⟨7, 7, none, [first, second]⟩

theorem outputsNew : OutputsNew genesis block.txs := by
  refine ⟨by decide, by decide, ?_⟩
  have absent : ∀ entry ∈ producedBy block.txs, genesis.get? entry.1 = none := by
    decide
  intro txo body made
  exact absent (txo, body) made

theorem inputsResolve : InputsResolve genesis block.txs := by
  have resolveFirst : InputsResolve genesis [first] := by
    apply inputsResolve_nil.concat
    intro txo spent
    left
    rcases List.mem_singleton.mp spent with rfl
    decide
  apply resolveFirst.concat
  intro txo spent
  rcases List.mem_pair.mp spent with rfl | rfl
  · exact Or.inr ⟨⟨6, [132]⟩, by decide⟩
  · exact Or.inl (by decide)

theorem producedFits : AllFit block.produced :=
  UtxoKeyspace.allFit_iff_keys.mpr (by decide)

theorem keyspace_stores : keyspace.Stores genesis :=
  UtxoKeyspace.stores_empty.insertUtxos (UtxoKeyspace.allFit_iff_keys.mpr (by decide))

theorem stores_apply_and_undo_chained :
    Loads block genesis (loadUtxos [block] genesis) ∧
      ∀ loaded, Loads block genesis loaded → ∃ delta undo,
        computeApplyDelta block loaded = .ok delta ∧ computeUndoDelta block loaded = .ok undo ∧
        (applyUtxoset genesis delta = processTxs genesis block.txs ∧
          applyUtxoset (processTxs genesis block.txs) undo = genesis) ∧
        (UtxosTable.apply genesis delta = processTxs genesis block.txs ∧
          UtxosTable.apply (processTxs genesis block.txs) undo = genesis) ∧
        (keyspace.applyDelta delta).Stores (processTxs genesis block.txs) ∧
          (keyspace.applyDelta delta).applyDelta undo = keyspace :=
  stores_apply_and_undo outputsNew inputsResolve keyspace_stores producedFits

end ChainedSpends

namespace HeldOutput

/-- The set already has what the block produces. -/
def utxos : UtxoMap EraCbor := .ofList [(toLex (0, 0), ⟨6, [130]⟩), (toLex (1, 0), ⟨6, [131]⟩)]

def tx : Tx EraCbor := ⟨1, [(0, ⟨6, [132]⟩)], [toLex (0, 0)]⟩

def block : MultiEraBlock EraCbor := ⟨7, 7, none, [tx]⟩

theorem inputsResolve : InputsResolve utxos block.txs := by
  apply inputsResolve_nil.concat
  intro txo spent
  left
  rcases List.mem_singleton.mp spent with rfl
  decide

/-- The undo removes it. -/
theorem undo_loses_held_output :
    InputsResolve utxos block.txs ∧ Loads block utxos (loadUtxos [block] utxos) ∧
      ∃ delta undo,
        computeApplyDelta block (loadUtxos [block] utxos) = .ok delta ∧
        computeUndoDelta block (loadUtxos [block] utxos) = .ok undo ∧
        applyUtxoset (applyUtxoset utxos delta) undo ≠ utxos := by
  refine ⟨inputsResolve, ?_, _, _, rfl, rfl, ?_⟩
  · have loads : ∀ txo ∈ block.consumed, (loadUtxos [block] utxos).get? txo =
        (block.produced.get? txo).or (utxos.get? txo) := by
      decide
    exact loads
  · intro restored
    have lost := congrArg (fun held => held.get? (toLex (1, 0))) restored
    revert lost
    decide

end HeldOutput

end Dolos
