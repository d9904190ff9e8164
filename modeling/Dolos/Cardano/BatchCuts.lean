import Dolos.Cardano.BatchContext

/-!
# How a segment is cut into batches

A segment of the chain without an epoch boundary leaves the same ledger however it is cut
into batches: each batch does what its blocks do when every block is a batch of its own.
-/

namespace Dolos

open Outcome Keyed EntityDelta CardanoDelta MultiEraBlock

section Loaded

variable {O : Type} {first second utxos : UtxoMap O}

theorem LoadedFor.same {txs : List (Tx O)} (loaded : LoadedFor first utxos txs)
    (other : LoadedFor second utxos txs) {tx : Tx O} (member : tx ∈ txs) {txo : TxoRef}
    (spent : txo ∈ tx.consumes) : second.get? txo = first.get? txo := by
  induction txs generalizing utxos with
  | nil => simp at member
  | cons head rest ih =>
      rcases List.mem_cons.mp member with rfl | later
      · rw [loaded.1 txo spent, other.1 txo spent]
      · exact ih loaded.2 other.2 later

end Loaded

/-- What validation and the caller promise of a segment: blocks in the order of their slots
and of one epoch, transactions that spend what is there, and updates of representatives
that are on record. -/
structure ValidSegment (cache : RollCache) (state : CommittedState) (blocks : List DecodedBlock) :
    Prop where
  ordered : blocks.Pairwise fun earlier later => earlier.slot ≤ later.slot
  oneEpoch : ∀ first ∈ blocks, ∀ second ∈ blocks,
    (cache.eras.slotEpoch first.slot).map Prod.fst = (cache.eras.slotEpoch second.slot).map Prod.fst
  txs : ValidTxs state.utxos (txsOf (blocks.map DecodedBlock.view))
  updates : UpdatesKnown (iterDRepKeys state.entities)
    (blocks.flatMap DecodedBlock.effectiveCerts)
  typed : WellTyped state.entities.get?

section Split

variable [NonceCrypto] [AssetDigest] {cache : RollCache} {before middle after : CommittedState}
variable {block : DecodedBlock} {rest : List DecodedBlock}

omit [NonceCrypto] [AssetDigest] in
theorem loadEffectivePparams_congr {entities other : OrderedMap NsKey CardanoEntity}
    {active : PParamsSet}
    (params : ∀ pparams, HasPParams pparams (entities.get? EpochState.nsKey) →
      HasPParams pparams (other.get? EpochState.nsKey))
    (done : loadEffectivePparams entities = .ok active) :
    loadEffectivePparams other = .ok active := by
  rcases bind_eq_ok.mp done with ⟨epoch, epochEq, live⟩
  unfold loadEpoch at epochEq
  split at epochEq
  · next state held =>
      rcases Except.ok.inj epochEq with rfl
      rcases params state.pparams ⟨state, held, rfl⟩ with ⟨reached, reachedEq, same⟩
      rw [← same] at live
      simp only [loadEffectivePparams, loadEpoch, reachedEq, ok_bind, live]
  · cases epochEq
  · cases epochEq

omit [NonceCrypto] [AssetDigest] in
/-- The context goes by the epoch and the parameters in force. -/
theorem context_congr {entities other : OrderedMap NsKey CardanoEntity} {slot later : ℕ}
    {context : RollContext}
    (sameEpoch : (cache.eras.slotEpoch slot).map Prod.fst =
      (cache.eras.slotEpoch later).map Prod.fst)
    (params : ∀ pparams, HasPParams pparams (entities.get? EpochState.nsKey) →
      HasPParams pparams (other.get? EpochState.nsKey))
    (done : cache.context entities slot = .ok context) :
    cache.context other later = .ok context := by
  rcases bind_eq_ok.mp done with ⟨⟨epoch, offset⟩, epochEq, rest⟩
  rw [mapError_eq_ok] at epochEq
  rw [epochEq] at sameEpoch
  rcases bind_eq_ok.mp rest with ⟨⟨protocol, era⟩, protocolEq, rest⟩
  rcases bind_eq_ok.mp rest with ⟨start, startEq, rest⟩
  rcases bind_eq_ok.mp rest with ⟨active, activeEq, contextEq⟩
  have activeLater := loadEffectivePparams_congr params activeEq
  cases laterEq : cache.eras.slotEpoch later with
  | error panic =>
      rw [laterEq] at sameEpoch
      cases sameEpoch
  | ok found =>
      rcases found with ⟨laterEpoch, laterOffset⟩
      rw [laterEq] at sameEpoch
      rcases Except.ok.inj sameEpoch with rfl
      simp only [RollCache.context, laterEq, mapError_ok, ok_bind, protocolEq, startEq,
        activeLater]
      exact contextEq

omit [AssetDigest] in
/-- What a run leaves of a store is a store. -/
theorem exists_store {deltas : List CardanoDelta} {store : OrderedMap NsKey CardanoEntity}
    {final : NsKey → Option CardanoEntity}
    (ran : runOn key effect deltas store.get? = .ok final) :
    ∃ reached : OrderedMap NsKey CardanoEntity, reached.get? = final := by
  induction deltas generalizing store with
  | nil =>
      rcases Except.ok.inj ran with rfl
      exact ⟨store, rfl⟩
  | cons delta rest ih =>
      rcases bind_eq_ok.mp ran with ⟨next, acted, ranRest⟩
      have updated :
          Function.update store.get? (key delta) next = (store.set (key delta) next).get? := by
        funext index
        rw [Function.update_apply, OrderedMap.get?_set]
        congr
      rw [updated] at ranRest
      exact ih ranRest

omit [NonceCrypto] [AssetDigest] in
theorem checkContinuity_cons {tip : ChainPoint} :
    checkContinuity tip ((block :: rest).map RollCache.bare) = .ok () ↔
      checkContinuity tip ([block].map RollCache.bare) = .ok () ∧
        checkContinuity (Block.point block.view) (rest.map RollCache.bare) = .ok () := by
  simp only [List.map_cons, List.map_nil, checkContinuity, bind_eq_ok]
  constructor
  · rintro ⟨_, extended, later⟩
    exact ⟨⟨_, extended, trivial⟩, later⟩
  · rintro ⟨⟨_, extended, -⟩, later⟩
    exact ⟨_, extended, later⟩

omit [NonceCrypto] [AssetDigest] in
/-- The outputs loaded for a block by itself are what the batch has for it, and those loaded
for the others after it as well. -/
theorem sameInputs_cons {utxos : UtxoMap MultiEraOutput}
    (valid : ValidTxs utxos (txsOf ((block :: rest).map DecodedBlock.view))) :
    (∀ tx ∈ block.txs, SameInputs (loadUtxos ((block :: rest).map DecodedBlock.view) utxos)
      (loadUtxos ([block].map DecodedBlock.view) utxos) tx) ∧
    ∀ other ∈ rest, ∀ tx ∈ other.txs,
      SameInputs (loadUtxos ((block :: rest).map DecodedBlock.view) utxos)
        (loadUtxos (rest.map DecodedBlock.view) (advance utxos block.view)) tx := by
  have whole := loadedFor_loadUtxos valid
  rw [List.map_cons, txsOf_cons] at valid
  rw [List.map_cons, txsOf_cons, loadedFor_append] at whole
  have headValid : ValidTxs utxos (txsOf ([block].map DecodedBlock.view)) := by
    rw [List.map_cons, List.map_nil, txsOf_cons, txsOf, List.flatMap_nil, List.append_nil]
    exact valid.left
  have own := loadedFor_loadUtxos headValid
  rw [List.map_cons, List.map_nil, txsOf_cons, txsOf, List.flatMap_nil, List.append_nil] at own
  have later := valid.right
  have advanced := advance_eq_processTxs valid.left.outputs valid.left.spendable.inputsResolve
  rw [← advanced] at later whole
  have others := loadedFor_loadUtxos later
  constructor
  · intro tx member txo spent
    exact whole.1.same own (List.mem_map_of_mem (f := MultiEraTx.view) member) spent
  · intro other isOther tx member txo spent
    have listed : tx.view ∈ txsOf (rest.map DecodedBlock.view) :=
      List.mem_flatMap.mpr ⟨other.view, List.mem_map_of_mem isOther,
        List.mem_map_of_mem (f := MultiEraTx.view) member⟩
    exact whole.2.same others listed spent

/-- A block that is a batch of its own. -/
theorem rolledTo_single_iff :
    RolledTo cache [block] before middle ↔
      checkContinuity (before.cursor.getD .origin) ([block].map RollCache.bare) = .ok () ∧
      (∃ context dormancy, cache.context before.entities block.slot = .ok context ∧
        loadDormancy before.entities = .ok dormancy ∧
        BlockApplies context (loadUtxos ([block].map DecodedBlock.view) before.utxos) dormancy block
          before.entities.get? middle.entities.get?) ∧
      middle.utxos = advance before.utxos block.view ∧
      middle.cursor = some (Block.point block.view) := by
  constructor
  · rintro ⟨continuous, ⟨first, context, dormancy, isFirst, contextEq, dormancyEq, next, applies,
      nextEq⟩, utxos, cursor⟩
    rcases Option.some.inj isFirst with rfl
    rw [AppliesAll] at nextEq
    rw [← nextEq] at applies
    exact ⟨continuous, ⟨context, dormancy, contextEq, dormancyEq, applies⟩, utxos, cursor⟩
  · rintro ⟨continuous, ⟨context, dormancy, contextEq, dormancyEq, applies⟩, utxos, cursor⟩
    exact ⟨continuous, ⟨block, context, dormancy, rfl, contextEq, dormancyEq, _, applies, rfl⟩,
      utxos, cursor⟩

/-- What is left of a segment after its first block is a segment. -/
theorem ValidSegment.tail (valid : ValidSegment cache before (block :: rest))
    (rolled : RolledTo cache [block] before middle) : ValidSegment cache middle rest := by
  rcases rolledTo_single_iff.mp rolled with
    ⟨-, ⟨context, dormancy, -, dormancyEq, applies⟩, utxosEq, -⟩
  have updates := valid.updates
  rw [List.flatMap_cons, updatesKnown_append] at updates
  have kept := (exists_loadDormancy valid.typed dormancyEq updates.1 applies.ran).1
  refine ⟨(List.pairwise_cons.mp valid.ordered).2, ?_, ?_, updates.2.mono kept, ?_⟩
  · intro first isFirst second isSecond
    exact valid.oneEpoch first (List.mem_cons_of_mem _ isFirst) second
      (List.mem_cons_of_mem _ isSecond)
  · have txs := valid.txs
    rw [List.map_cons, txsOf_cons] at txs
    rw [utxosEq, advance_eq_processTxs txs.left.outputs txs.left.spendable.inputsResolve]
    exact txs.right
  · exact wellTyped_runOn (within_block context _ dormancy block) valid.typed applies.ran

/-- After a block, what was loaded before it does for the others what is loaded then. -/
theorem appliesAll_rest_iff (valid : ValidSegment cache before (block :: rest))
    {context : RollContext} {dormancy : DormancyContext}
    (contextEq : cache.context before.entities block.slot = .ok context)
    (dormancyEq : loadDormancy before.entities = .ok dormancy)
    (applies : BlockApplies context
      (loadUtxos ((block :: rest).map DecodedBlock.view) before.utxos) dormancy block
        before.entities.get? middle.entities.get?)
    (utxosEq : middle.utxos = advance before.utxos block.view) {second : DecodedBlock}
    (isSecond : rest.head? = some second) {final : NsKey → Option CardanoEntity} :
    AppliesAll context (loadUtxos ((block :: rest).map DecodedBlock.view) before.utxos)
        (txsDormancy context block.slot dormancy block.txs.zipIdx) rest middle.entities.get? final ↔
      ∃ own reached, cache.context middle.entities second.slot = .ok own ∧
        loadDormancy middle.entities = .ok reached ∧
        AppliesAll own (loadUtxos (rest.map DecodedBlock.view) middle.utxos) reached rest
          middle.entities.get? final := by
  have updates := valid.updates
  rw [List.flatMap_cons, updatesKnown_append] at updates
  rcases (exists_loadDormancy valid.typed dormancyEq updates.1 applies.ran).2 with
    ⟨reached, reachedEq, agrees⟩
  have listed : second ∈ block :: rest := List.mem_cons_of_mem _ (List.mem_of_head? isSecond)
  have ownEq : cache.context middle.entities second.slot = .ok context :=
    context_congr (valid.oneEpoch block List.mem_cons_self second listed)
      (fun _ held => hasPParams_block applies.ran held) contextEq
  have typed := wellTyped_runOn (within_block context _ dormancy block) valid.typed applies.ran
  have same := (sameInputs_cons valid.txs).2
  rw [← utxosEq] at same
  rw [appliesAll_congr typed agrees updates.2 same]
  constructor
  · intro later
    exact ⟨context, reached, ownEq, reachedEq, later⟩
  · rintro ⟨own, other, isOwn, isOther, later⟩
    rcases Except.ok.inj (ownEq.symm.trans isOwn) with rfl
    rcases Except.ok.inj (reachedEq.symm.trans isOther) with rfl
    exact later

theorem blockApplies_head_iff (valid : ValidSegment cache before (block :: rest))
    {context : RollContext} {dormancy : DormancyContext} {final : NsKey → Option CardanoEntity} :
    BlockApplies context (loadUtxos ((block :: rest).map DecodedBlock.view) before.utxos) dormancy
        block before.entities.get? final ↔
      BlockApplies context (loadUtxos ([block].map DecodedBlock.view) before.utxos) dormancy block
        before.entities.get? final := by
  have updates := valid.updates
  rw [List.flatMap_cons, updatesKnown_append] at updates
  have agrees : dormancy.Agrees (iterDRepKeys before.entities) before.entities.get? dormancy :=
    ⟨rfl, fun _ _ => .inl Iff.rfl⟩
  exact blockApplies_iff valid.typed agrees updates.1 (sameInputs_cons valid.txs).1

/-- A batch does what its first block does, and then what the others do. -/
theorem rolledTo_cons_iff (valid : ValidSegment cache before (block :: rest)) (some_ : rest ≠ []) :
    RolledTo cache (block :: rest) before after ↔
      ∃ middle, RolledTo cache [block] before middle ∧ RolledTo cache rest middle after := by
  rcases List.exists_cons_of_ne_nil some_ with ⟨second, others, restEq⟩
  have isSecond : rest.head? = some second := by rw [restEq, List.head?_cons]
  have lastEq : ((block :: rest).map fun block => Block.point block.view).getLast? =
      (rest.map fun block => Block.point block.view).getLast? := by
    rw [restEq, List.map_cons, List.map_cons, List.getLast?_cons_cons]
  constructor
  · rintro ⟨continuous, ⟨first, context, dormancy, isFirst, contextEq, dormancyEq, next, applies,
      later⟩, utxosEq, cursorEq⟩
    rcases Option.some.inj isFirst with rfl
    rw [checkContinuity_cons] at continuous
    rcases exists_store applies.ran with ⟨reached, rfl⟩
    let middle : CommittedState :=
      ⟨reached, advance before.utxos block.view, some (Block.point block.view)⟩
    have appliesHead : BlockApplies context
        (loadUtxos ((block :: rest).map DecodedBlock.view) before.utxos) dormancy block
          before.entities.get? middle.entities.get? := applies
    refine ⟨middle, ?_, ?_⟩
    · exact rolledTo_single_iff.mpr ⟨continuous.1, ⟨context, dormancy, contextEq, dormancyEq,
        (blockApplies_head_iff valid).mp applies⟩, rfl, rfl⟩
    · rcases (appliesAll_rest_iff valid contextEq dormancyEq appliesHead rfl isSecond).mp later with
        ⟨own, loaded, ownEq, loadedEq, laterApplies⟩
      refine ⟨continuous.2, ⟨second, own, loaded, isSecond, ownEq, loadedEq, laterApplies⟩,
        utxosEq, ?_⟩
      rw [cursorEq, lastEq]
  · rintro ⟨middle, head, ⟨continuous, ⟨other, own, loaded, isOther, ownEq, loadedEq,
      laterApplies⟩, utxosEq, cursorEq⟩⟩
    rcases Option.some.inj (isSecond.symm.trans isOther) with rfl
    rcases rolledTo_single_iff.mp head with
      ⟨headContinuous, ⟨context, dormancy, contextEq, dormancyEq, applies⟩,
        middleUtxos, middleCursor⟩
    rw [middleCursor] at continuous
    have wholeApplies := (blockApplies_head_iff valid).mpr applies
    refine ⟨checkContinuity_cons.mpr ⟨headContinuous, continuous⟩, ⟨block, context, dormancy, rfl,
      contextEq, dormancyEq, _, wholeApplies, ?_⟩, ?_, ?_⟩
    · exact (appliesAll_rest_iff valid contextEq dormancyEq wholeApplies middleUtxos isSecond).mpr
        ⟨own, loaded, ownEq, loadedEq, laterApplies⟩
    · rw [utxosEq, middleUtxos]
      rfl
    · rw [cursorEq, lastEq]

end Split

section Cuts

variable [NonceCrypto] [AssetDigest] {cache : RollCache} {before after : CommittedState}

/-- Every block a batch of its own. -/
def singles (blocks : List DecodedBlock) : List (List DecodedBlock) := blocks.map ([·])

theorem rolledTo_iff_singles {blocks : List DecodedBlock} (some_ : blocks ≠ [])
    (valid : ValidSegment cache before blocks) :
    RolledTo cache blocks before after ↔ Path (RolledTo cache) (singles blocks) before after := by
  induction blocks generalizing before with
  | nil => exact absurd rfl some_
  | cons block rest ih =>
      by_cases alone : rest = []
      · subst alone
        constructor
        · intro rolled
          exact .cons rolled (.nil after)
        · rintro (_ | ⟨rolled, _ | _⟩)
          exact rolled
      · rw [rolledTo_cons_iff valid alone]
        constructor
        · rintro ⟨middle, first, later⟩
          exact .cons first ((ih alone (valid.tail first)).mp later)
        · rintro (_ | ⟨first, later⟩)
          exact ⟨_, first, (ih alone (valid.tail first)).mpr later⟩

theorem ValidSegment.drop {first second : List DecodedBlock}
    (valid : ValidSegment cache before (first ++ second))
    (path : Path (RolledTo cache) (singles first) before after) :
    ValidSegment cache after second := by
  induction first generalizing before with
  | nil =>
      cases path
      exact valid
  | cons block rest ih =>
      cases path with
      | cons rolled later => exact ih (valid.tail rolled) later

omit [NonceCrypto] [AssetDigest] in
theorem ValidSegment.take {first second : List DecodedBlock}
    (valid : ValidSegment cache before (first ++ second)) : ValidSegment cache before first := by
  have txs := valid.txs
  rw [List.map_append, txsOf_append] at txs
  have updates := valid.updates
  rw [List.flatMap_append, updatesKnown_append] at updates
  refine ⟨(List.pairwise_append.mp valid.ordered).1, ?_, txs.left, updates.1, valid.typed⟩
  intro earlier isEarlier later isLater
  exact valid.oneEpoch earlier (List.mem_append_left _ isEarlier) later
    (List.mem_append_left _ isLater)

/-- However a segment is cut, its batches do what its blocks do one by one. -/
theorem path_iff_singles {cuts : List (List DecodedBlock)} (some_ : ∀ cut ∈ cuts, cut ≠ [])
    (valid : ValidSegment cache before cuts.flatten) :
    Path (RolledTo cache) cuts before after ↔
      Path (RolledTo cache) (singles cuts.flatten) before after := by
  induction cuts generalizing before with
  | nil => rfl
  | cons cut rest ih =>
      have headSome : cut ≠ [] := some_ cut List.mem_cons_self
      rw [List.flatten_cons] at valid
      rw [List.flatten_cons, singles, List.map_append, Path.append_iff]
      constructor
      · rintro (_ | ⟨rolled, later⟩)
        have own := (rolledTo_iff_singles headSome valid.take).mp rolled
        exact ⟨_, own, (ih (fun other member => some_ other (List.mem_cons_of_mem _ member))
          (valid.drop own)).mp later⟩
      · rintro ⟨middle, own, later⟩
        exact .cons ((rolledTo_iff_singles headSome valid.take).mpr own)
          ((ih (fun other member => some_ other (List.mem_cons_of_mem _ member))
            (valid.drop own)).mpr later)

/-- The blocks of a batch in the order they are rolled. -/
def WorkBatch.sorted (batch : WorkBatch DecodedBlock) : List DecodedBlock :=
  batch.blocks.mergeSort fun earlier later => earlier.slot ≤ later.slot

theorem rollAll_iff_path {stores : LedgerStores MultiEraOutput}
    {batches : List (WorkBatch DecodedBlock)} {state : CommittedState} :
    (∃ final, cache.rollAll stores batches = .ok final ∧ final.committed = state) ↔
      Path (RolledTo cache) (batches.map WorkBatch.sorted) stores.committed state := by
  induction batches generalizing stores with
  | nil =>
      constructor
      · rintro ⟨final, done, rfl⟩
        rcases Except.ok.inj done with rfl
        exact .nil _
      · rintro (_ | _)
        exact ⟨stores, rfl, rfl⟩
  | cons batch rest ih =>
      constructor
      · rintro ⟨final, done, reached⟩
        rcases bind_eq_ok.mp done with ⟨rolled, rolledEq, restDone⟩
        exact .cons (roll_iff.mp ⟨rolled, rolledEq, rfl⟩) (ih.mp ⟨final, restDone, reached⟩)
      · rintro (_ | ⟨first, later⟩)
        rcases roll_iff.mpr first with ⟨rolled, rolledEq, rfl⟩
        rcases ih.mpr later with ⟨final, restDone, reached⟩
        refine ⟨final, ?_, reached⟩
        simp only [RollCache.rollAll, rolledEq, ok_bind, restDone]

section Segments

variable {stores : LedgerStores MultiEraOutput} {batches : List (WorkBatch DecodedBlock)}

omit [NonceCrypto] [AssetDigest] in
/-- The blocks of a batch of a segment are in order as they come. -/
theorem ValidSegment.sorted_eq
    (valid : ValidSegment cache stores.committed (batches.flatMap WorkBatch.blocks)) :
    batches.map WorkBatch.sorted = batches.map WorkBatch.blocks := by
  refine List.map_congr_left ?_
  intro batch member
  apply List.mergeSort_of_pairwise
  have ordered := (List.pairwise_flatMap.mp valid.ordered).1 batch member
  exact ordered.imp fun le => decide_eq_true le

theorem rollAll_iff_singles
    (valid : ValidSegment cache stores.committed (batches.flatMap WorkBatch.blocks))
    {state : CommittedState} :
    (∃ final, cache.rollAll stores batches = .ok final ∧ final.committed = state) ↔
      Path (RolledTo cache) (singles (batches.flatMap WorkBatch.blocks))
        stores.committed state := by
  have some_ : ∀ cut ∈ batches.map WorkBatch.blocks, cut ≠ [] := by
    intro cut member
    rcases List.mem_map.mp member with ⟨batch, -, rfl⟩
    exact batch.nonempty
  rw [rollAll_iff_path, valid.sorted_eq]
  exact path_iff_singles some_ valid

theorem rollAll_singles_iff {blocks : List DecodedBlock} {state : CommittedState} :
    (∃ final, cache.rollAll stores (blocks.map WorkBatch.forSingleBlock) = .ok final ∧
        final.committed = state) ↔
      Path (RolledTo cache) (singles blocks) stores.committed state := by
  have singlesEq : (blocks.map WorkBatch.forSingleBlock).map WorkBatch.sorted =
      singles blocks := by
    rw [List.map_map, singles]
    refine List.map_congr_left ?_
    intro block _
    exact List.mergeSort_singleton _
  rw [rollAll_iff_path, singlesEq]

/-- A segment without a boundary leaves the same entities, outputs and cursor however it is
cut into batches. -/
theorem rollAll_batches {stores : LedgerStores MultiEraOutput}
    {batches : List (WorkBatch DecodedBlock)}
    (valid : ValidSegment cache stores.committed (batches.flatMap WorkBatch.blocks))
    {state : CommittedState} :
    (∃ final, cache.rollAll stores batches = .ok final ∧ final.committed = state) ↔
      ∃ final, cache.rollAll stores
        ((batches.flatMap WorkBatch.blocks).map WorkBatch.forSingleBlock) =
        .ok final ∧ final.committed = state := by
  rw [rollAll_iff_singles valid, rollAll_singles_iff]

end Segments

end Cuts

namespace DormantSegment

attribute [local instance] Devnet.digest NonceCrypto.still

def plain : MultiEraOutput := ⟨some .byron, 5, [], none⟩

/-- A stretch of two dormant epochs, and nobody on record. -/
def stores : LedgerStores MultiEraOutput :=
  Devnet.stores 2 [] [(toLex (1, 0), plain)]

def cred : StakeCredential := .addrKeyhash 9

def registering : MultiEraTx :=
  { Devnet.transfer 2 [toLex (1, 0)] [plain] with
    certs := [.conway (.regDRepCert cred 3 none)] }

/-- It spends what the block before has made, and its proposal ends the stretch. -/
def proposing : MultiEraTx :=
  { Devnet.transfer 3 [toLex (2, 0)] [plain] with
    govProposals := [⟨1, some (.stake (.stake 9)), some .information, ⟨"", 0⟩⟩] }

def first : DecodedBlock := Devnet.block 1 11 none [registering]

def second : DecodedBlock := Devnet.block 2 12 (some 11) [proposing]

def batch : WorkBatch DecodedBlock := ⟨[first, second], List.cons_ne_nil _ _⟩

def expiryOf (final : LedgerStores MultiEraOutput) : Option ℕ :=
  ((drepAt final.entities.get? (stakeCredToDRep cred).entityKey).bind DRepState.expiry).map
    DRepExpiry.current

theorem validSegment : ValidSegment Devnet.cache stores.committed [first, second] := by
  refine ⟨by decide, by decide, ⟨⟨by decide +kernel, by decide +kernel, ?_⟩, ?_⟩, ?_, ?_⟩
  · have each : ∀ made ∈ producedBy (txsOf ([first, second].map DecodedBlock.view)),
        stores.utxos.get? made.1 = none := by decide +kernel
    exact fun txo body made => each (txo, body) made
  · refine ⟨?_, ?_, trivial⟩
    · decide +kernel
    · decide +kernel
  · refine ⟨?_, trivial⟩
    intro id isUpdated
    cases isUpdated
  · intro index entity held
    rcases OrderedMap.get?_insertAll_cases _ held with listed | absent
    · rcases List.mem_cons.mp listed with same | later
      · rcases Prod.mk.inj same with ⟨rfl, rfl⟩
        rfl
      · rcases Prod.mk.inj (List.mem_singleton.mp later) with ⟨rfl, rfl⟩
        rfl
    · cases absent

/-- Rolled block by block or as one batch, the representative that the first block has
registered gets the two epochs when the second ends the stretch. -/
theorem rollAll_batches_dormant :
    ∃ state, (∃ final, Devnet.cache.rollAll stores [batch] = .ok final ∧
        final.committed = state ∧ expiryOf final = some 20) ∧
      ∃ final, Devnet.cache.rollAll stores [.forSingleBlock first, .forSingleBlock second] =
        .ok final ∧ final.committed = state := by
  have evaluated : expiryOf <$> Devnet.cache.rollAll stores
      [.forSingleBlock first, .forSingleBlock second] = .ok (some 20) := by
    decide +kernel
  rcases map_eq_ok.mp evaluated with ⟨final, ran, expiry⟩
  have cut : (∃ other, Devnet.cache.rollAll stores [batch] = .ok other ∧
      other.committed = final.committed) ↔ _ := rollAll_batches validSegment
  rcases cut.mpr ⟨final, ran, rfl⟩ with ⟨other, otherRan, same⟩
  have entities : other.entities = final.entities := congrArg CommittedState.entities same
  refine ⟨final.committed, ⟨other, otherRan, same, ?_⟩, final, ran, rfl⟩
  rw [← expiry, expiryOf, expiryOf, entities]

end DormantSegment

end Dolos
