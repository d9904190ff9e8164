import Dolos.Cardano.Emission
import Dolos.Cardano.EraTransitions
import Dolos.Cardano.ValidTxs

/-!
# A roll from the blocks themselves

`compute_delta` of `cardano/src/roll/mod.rs` and the phases of `roll/work_unit.rs`, over
decoded blocks. What the visitors are told is read once for the whole batch, from the
state before it: the parameters in force, the length of the dormant stretch and, while
there is one, the representatives on record.

A roll that succeeds is a walk: its blocks apply one after the other, each to what the
one before has left.
-/

namespace Dolos

open Outcome Keyed EntityDelta CardanoDelta

/-- The upper end of `EntityKey::full_range`, which is left out. -/
def EntityKey.rangeEnd : EntityKey := ⟨2 ^ 256 - 1, by omega⟩

section Singletons

variable (entities : OrderedMap NsKey CardanoEntity)

/-- A row of another kind does not decode. -/
def loadEpoch : Except ChainError EpochState :=
  match entities.get? EpochState.nsKey with
  | some (.epoch state) => .ok state
  | some _ => .error .decodingError
  | none => .error (.domain .noActiveEpoch)

def loadEffectivePparams : Except ChainError PParamsSet := do
  let epoch ← loadEpoch entities
  epoch.pparams.unwrapLive.mapError .panicked

def loadGov : Except ChainError GovState :=
  match entities.get? GovState.nsKey with
  | some (.gov state) => .ok state
  | some _ => .error .decodingError
  | none => .error .missingGovState

/-- The keys of the representatives on record. -/
def iterDRepKeys : List EntityKey :=
  (entities.keys.filter fun index =>
    (ofLex index).1 = .dreps ∧ (ofLex index).2 < EntityKey.rangeEnd).map fun index =>
      (ofLex index).2

/-- The keys are only read while they may be needed. -/
def loadDormancy : Except ChainError DormancyContext := do
  let gov ← loadGov entities
  .ok {
    dormantEpochs := gov.numDormantEpochs
    drepKeys := if gov.numDormantEpochs > 0 then iterDRepKeys entities else []
    batchRegistrations := [] }

end Singletons

/-- What the roll units of a run share: the genesis and the cache of the logic. -/
structure RollCache where
  networkMagic : ℕ
  eras : ChainSummary

namespace RollCache

/-- The context of a batch that starts at a slot. -/
def context (cache : RollCache) (entities : OrderedMap NsKey CardanoEntity) (slot : ℕ) :
    Except ChainError RollContext := do
  let (epoch, _) ← (cache.eras.slotEpoch slot).mapError .panicked
  let (protocol, _) ← (cache.eras.protocolAndEraForEpoch epoch).mapError .panicked
  let epochStart ← (cache.eras.epochStart epoch).mapError .panicked
  let activeParams ← loadEffectivePparams entities
  .ok ⟨cache.networkMagic, activeParams, epoch, epochStart, protocol⟩

variable [NonceCrypto] [AssetDigest]

def computeDelta (cache : RollCache) (entities : OrderedMap NsKey CardanoEntity)
    (utxos : UtxoMap MultiEraOutput) (blocks : List DecodedBlock) :
    Except ChainError (List (WorkBlock MultiEraOutput)) :=
  match blocks with
  | [] => .error (.panicked .unwrapNone)
  | first :: _ => do
      let context ← cache.context entities first.slot
      let dormancy ← loadDormancy entities
      computeBlockDeltas context utxos dormancy blocks

/-- A block before its deltas are computed. -/
def bare (block : DecodedBlock) : WorkBlock MultiEraOutput := ⟨block.view, .default, none⟩

def load (cache : RollCache) (stores : LedgerStores MultiEraOutput)
    (batch : WorkBatch DecodedBlock) : Except ChainError (RollBatch MultiEraOutput) := do
  let sorted := batch.blocks.mergeSort fun earlier later => earlier.slot ≤ later.slot
  (checkContinuity (stores.cursor.getD .origin) (sorted.map bare)).mapError .domain
  let utxos := loadUtxos (sorted.map DecodedBlock.view) stores.utxos
  let blocks ← cache.computeDelta stores.entities utxos sorted
  let keys := (blocks.flatMap fun work => work.deltas.keys).dedup
  .ok ⟨blocks, utxos, loadEntityChunk keys stores.entities⟩

/-- A roll work unit. -/
def roll (cache : RollCache) (stores : LedgerStores MultiEraOutput)
    (batch : WorkBatch DecodedBlock) : Except ChainError (LedgerStores MultiEraOutput) := do
  let loaded ← cache.load stores batch
  let computed ← loaded.compute.mapError .domain
  (computed.commitState (computed.commitWal stores)).mapError .domain

def rollAll (cache : RollCache) (stores : LedgerStores MultiEraOutput) :
    List (WorkBatch DecodedBlock) → Except ChainError (LedgerStores MultiEraOutput)
  | [] => .ok stores
  | batch :: rest => do
      let rolled ← cache.roll stores batch
      cache.rollAll rolled rest

end RollCache

section Groups

variable [NonceCrypto] {O : Type}

namespace WorkDeltas

/-- Every group takes its entity from one value to the next. -/
def Runs (deltas : WorkDeltas) (before after : NsKey → Option CardanoEntity) : Prop :=
  ∀ index, runAll effect (deltas.group index) (before index) = .ok (after index)

theorem runs_ofList_iff {deltas : List CardanoDelta} {before after : NsKey → Option CardanoEntity} :
    (WorkDeltas.ofList deltas).Runs before after ↔
      runOn key effect deltas before = .ok after := by
  simp only [Runs, group_ofList, runOn_eq_ok_iff]

/-- Groups that apply do so together. -/
theorem exists_applyOver {entries : List (NsKey × Option CardanoEntity)} {deltas : WorkDeltas}
    (entities : EntityMap CardanoEntity) (nodup : (entries.map Prod.fst).Nodup)
    (each : ∀ entry ∈ entries, ∃ result, applyGroup (deltas.group entry.1) entry.2 = .ok result) :
    ∃ result, applyOver entries deltas entities = .ok result := by
  induction entries generalizing deltas entities with
  | nil => exact ⟨_, rfl⟩
  | cons entry rest ih =>
      rcases entry with ⟨first, entity⟩
      rcases List.nodup_cons.mp nodup with ⟨once, restNodup⟩
      cases present : deltas.get? first with
      | none =>
          simp only [applyOver, present]
          apply ih entities restNodup
          intro later member
          exact each later (List.mem_cons_of_mem _ member)
      | some group =>
          rcases each (first, entity) List.mem_cons_self with ⟨⟨applied, after⟩, groupDone⟩
          have groupEq : deltas.group first = group := by
            rw [WorkDeltas.group, present, Option.getD_some]
          simp only [groupEq] at groupDone
          simp only [applyOver, present, groupDone, ok_bind]
          apply ih _ restNodup
          intro later member
          have different : later.1 ≠ first := by
            intro same
            exact once (List.mem_map.mpr ⟨later, member, same⟩)
          rw [group_setGroup_of_ne deltas applied different]
          exact each later (List.mem_cons_of_mem _ member)

theorem applyEntities_iff {deltas : WorkDeltas} {entities : EntityMap CardanoEntity}
    (store : OrderedMap NsKey CardanoEntity)
    (loaded : ∀ index ∈ deltas.keys, (entities.get? index).isSome)
    {after : NsKey → Option CardanoEntity} :
    (∃ applied tracked, deltas.applyEntities entities = .ok (applied, tracked) ∧
      store.overlay tracked = after) ↔ deltas.Runs (store.overlay entities) after := by
  constructor
  · rintro ⟨applied, tracked, done, rfl⟩ index
    exact runAll_effect_iff.mpr ⟨_, (applyEntities_spec store loaded done).1 index⟩
  · intro runs
    have each : ∀ entry ∈ entities.entries,
        ∃ result, applyGroup (deltas.group entry.1) entry.2 = .ok result := by
      intro entry member
      have ran := runs entry.1
      rw [OrderedMap.overlay_of_get? (OrderedMap.mem_entries_iff.mp member)] at ran
      rcases runAll_effect_iff.mp ran with ⟨applied, done⟩
      exact ⟨_, done⟩
    rcases exists_applyOver entities entities.nodup_keys each with ⟨⟨applied, tracked⟩, done⟩
    refine ⟨applied, tracked, done, ?_⟩
    funext index
    have reached := runAll_effect_iff.mpr ⟨_, (applyEntities_spec store loaded done).1 index⟩
    rw [runs index] at reached
    exact (Except.ok.inj reached).symm

end WorkDeltas

/-- The blocks of a batch apply exactly when their groups run one block after the other. -/
theorem applyEntities_iff_path {blocks : List (WorkBlock O)} {entities : EntityMap CardanoEntity}
    (store : OrderedMap NsKey CardanoEntity)
    (loaded : ∀ work ∈ blocks, ∀ index ∈ work.deltas.keys, (entities.get? index).isSome)
    {after : NsKey → Option CardanoEntity} :
    (∃ rolled tracked, applyEntities blocks entities = .ok (rolled, tracked) ∧
      store.overlay tracked = after) ↔
      Path WorkDeltas.Runs (blocks.map WorkBlock.deltas) (store.overlay entities) after := by
  induction blocks generalizing entities with
  | nil =>
      constructor
      · rintro ⟨rolled, tracked, done, rfl⟩
        rcases Except.ok.inj done with ⟨rfl, rfl⟩
        exact .nil _
      · intro path
        cases path
        exact ⟨[], entities, rfl, rfl⟩
  | cons work rest ih =>
      have headLoaded := loaded work List.mem_cons_self
      have laterLoaded : ∀ {deltas next}, work.deltas.applyEntities entities = .ok (deltas, next) →
          ∀ other ∈ rest, ∀ index ∈ other.deltas.keys, (next.get? index).isSome := by
        intro deltas next headDone other member index isKey
        exact (WorkDeltas.applyEntities_spec store headLoaded headDone).2 index
          (loaded other (List.mem_cons_of_mem work member) index isKey)
      constructor
      · rintro ⟨rolled, tracked, done, reached⟩
        rcases bind_eq_ok.mp done with ⟨⟨deltas, next⟩, headDone, restDone⟩
        rcases bind_eq_ok.mp restDone with ⟨⟨later, final⟩, laterDone, rolledEq⟩
        simp only [Except.ok.injEq, Prod.mk.injEq] at rolledEq
        rcases rolledEq with ⟨rfl, rfl⟩
        have headRuns := (WorkDeltas.applyEntities_iff store headLoaded).mp
          ⟨deltas, next, headDone, rfl⟩
        exact .cons headRuns ((ih (laterLoaded headDone)).mp ⟨later, final, laterDone, reached⟩)
      · intro path
        cases path with
        | cons headRuns restPath =>
            rcases (WorkDeltas.applyEntities_iff store headLoaded).mpr headRuns with
              ⟨deltas, next, headDone, rfl⟩
            rcases (ih (laterLoaded headDone)).mpr restPath with ⟨later, final, laterDone, reached⟩
            refine ⟨{ work with deltas := deltas } :: later, final, ?_, reached⟩
            simp only [applyEntities, headDone, ok_bind, laterDone]

end Groups

section Walk

variable [NonceCrypto] [AssetDigest]

/-- A block goes through in a context: it is crawled without an error, its inputs are
loaded, and its deltas run on the entities. -/
structure BlockApplies (context : RollContext) (utxos : UtxoMap MultiEraOutput)
    (dormancy : DormancyContext) (block : DecodedBlock)
    (before after : NsKey → Option CardanoEntity) : Prop where
  fits : BlockFits context utxos block
  resolved : ∃ delta, computeApplyDelta block.view utxos = .ok delta
  ran : runOn key effect (blockDeltas context utxos dormancy block) before = .ok after

/-- Blocks one after the other; the dormancy context goes along. -/
def AppliesAll (context : RollContext) (utxos : UtxoMap MultiEraOutput) :
    DormancyContext → List DecodedBlock → (NsKey → Option CardanoEntity) →
      (NsKey → Option CardanoEntity) → Prop
  | _, [], before, after => after = before
  | dormancy, block :: rest, before, after =>
      ∃ next, BlockApplies context utxos dormancy block before next ∧
        AppliesAll context utxos (txsDormancy context block.slot dormancy block.txs.zipIdx) rest
          next after

theorem appliesAll_iff {context : RollContext} {utxos : UtxoMap MultiEraOutput}
    {dormancy : DormancyContext} {blocks : List DecodedBlock}
    {before after : NsKey → Option CardanoEntity} :
    AppliesAll context utxos dormancy blocks before after ↔
      ∃ works, computeBlockDeltas context utxos dormancy blocks = .ok works ∧
        Path WorkDeltas.Runs (works.map WorkBlock.deltas) before after := by
  induction blocks generalizing dormancy before with
  | nil =>
      constructor
      · rintro rfl
        exact ⟨[], rfl, .nil _⟩
      · rintro ⟨works, computed, path⟩
        rcases Except.ok.inj computed with rfl
        cases path
        rfl
  | cons block rest ih =>
      constructor
      · rintro ⟨next, ⟨fits, ⟨delta, resolved⟩, ran⟩, later⟩
        rcases ih.mp later with ⟨works, computed, path⟩
        have headDone : computeBlockDelta context utxos dormancy block = .ok
            (⟨block.view, .ofList (blockDeltas context utxos dormancy block), some delta⟩,
              txsDormancy context block.slot dormancy block.txs.zipIdx) :=
          (computeBlockDelta_eq_ok_iff context utxos).mpr ⟨fits, rfl, delta, resolved, rfl⟩
        refine ⟨⟨block.view, .ofList (blockDeltas context utxos dormancy block),
          some delta⟩ :: works,
          ?_, .cons (WorkDeltas.runs_ofList_iff.mpr ran) path⟩
        simp only [computeBlockDeltas, headDone, ok_bind, computed]
      · rintro ⟨works, computed, path⟩
        rcases bind_eq_ok.mp computed with ⟨⟨work, reached⟩, headDone, restDone⟩
        rcases bind_eq_ok.mp restDone with ⟨later, laterDone, worksEq⟩
        rcases Except.ok.inj worksEq with rfl
        rcases (computeBlockDelta_eq_ok_iff context utxos).mp headDone with
          ⟨fits, rfl, delta, resolved, rfl⟩
        cases path with
        | cons headRuns restPath =>
            exact ⟨_, ⟨fits, ⟨delta, resolved⟩, WorkDeltas.runs_ofList_iff.mp headRuns⟩,
              ih.mpr ⟨later, laterDone, restPath⟩⟩

/-- What the work of a block keeps of it. -/
theorem computeBlockDeltas_spec {context : RollContext} {utxos : UtxoMap MultiEraOutput}
    {dormancy : DormancyContext} {blocks : List DecodedBlock}
    {works : List (WorkBlock MultiEraOutput)}
    (computed : computeBlockDeltas context utxos dormancy blocks = .ok works) :
    works.map WorkBlock.block = blocks.map DecodedBlock.view ∧
      ∀ work ∈ works, work.Emitted ∧ ∃ delta, work.utxoDelta = some delta ∧
        computeApplyDelta work.block utxos = .ok delta := by
  induction blocks generalizing dormancy works with
  | nil =>
      rcases Except.ok.inj computed with rfl
      exact ⟨rfl, by simp⟩
  | cons block rest ih =>
      rcases bind_eq_ok.mp computed with ⟨⟨work, reached⟩, headDone, restDone⟩
      rcases bind_eq_ok.mp restDone with ⟨later, laterDone, worksEq⟩
      rcases Except.ok.inj worksEq with rfl
      rcases ih laterDone with ⟨blocksEq, each⟩
      have emitted := emitted_of_computeBlockDelta context utxos headDone
      rcases (computeBlockDelta_eq_ok_iff context utxos).mp headDone with
        ⟨-, -, delta, resolved, rfl⟩
      refine ⟨?_, ?_⟩
      · rw [List.map_cons, List.map_cons, blocksEq]
      · intro other member
        rcases List.mem_cons.mp member with rfl | isLater
        · exact ⟨emitted, delta, rfl, resolved⟩
        · exact each other isLater

/-- What a roll leaves, besides its entries in the log. -/
@[ext]
structure CommittedState where
  entities : OrderedMap NsKey CardanoEntity
  utxos : UtxoMap MultiEraOutput
  cursor : Option ChainPoint

omit [NonceCrypto] [AssetDigest] in
def LedgerStores.committed (stores : LedgerStores MultiEraOutput) : CommittedState :=
  ⟨stores.entities, stores.utxos, stores.cursor⟩

/-- Blocks in slot order, rolled as one batch. -/
structure RolledTo (cache : RollCache) (blocks : List DecodedBlock)
    (before after : CommittedState) :
    Prop where
  continuous :
    checkContinuity (before.cursor.getD .origin) (blocks.map RollCache.bare) = .ok ()
  applied : ∃ first context dormancy, blocks.head? = some first ∧
    cache.context before.entities first.slot = .ok context ∧
    loadDormancy before.entities = .ok dormancy ∧
    AppliesAll context (loadUtxos (blocks.map DecodedBlock.view) before.utxos) dormancy blocks
      before.entities.get? after.entities.get?
  utxos : after.utxos = advanceAll before.utxos (blocks.map DecodedBlock.view)
  cursor : after.cursor = (blocks.map fun block => Block.point block.view).getLast?

theorem computeDelta_eq_ok_iff {cache : RollCache} {entities : OrderedMap NsKey CardanoEntity}
    {utxos : UtxoMap MultiEraOutput} {blocks : List DecodedBlock}
    {works : List (WorkBlock MultiEraOutput)} :
    cache.computeDelta entities utxos blocks = .ok works ↔
      ∃ first context dormancy, blocks.head? = some first ∧
        cache.context entities first.slot = .ok context ∧
        loadDormancy entities = .ok dormancy ∧
        computeBlockDeltas context utxos dormancy blocks = .ok works := by
  cases blocks with
  | nil => simp [RollCache.computeDelta]
  | cons first rest => simp [RollCache.computeDelta, bind_eq_ok]

/-- Applying the blocks of a batch keeps what their work has of them. -/
theorem applyEntities_keeps {context : RollContext} {utxos : UtxoMap MultiEraOutput}
    {dormancy : DormancyContext} {blocks : List DecodedBlock}
    {works rolled : List (WorkBlock MultiEraOutput)} {entities tracked : EntityMap CardanoEntity}
    (computed : computeBlockDeltas context utxos dormancy blocks = .ok works)
    (loaded : ∀ work ∈ works, ∀ index ∈ work.deltas.keys, (entities.get? index).isSome)
    (applied : applyEntities works entities = .ok (rolled, tracked)) :
    rolled.map WorkBlock.block = blocks.map DecodedBlock.view ∧
      ∀ work ∈ rolled, ∃ delta, work.utxoDelta = some delta ∧
        computeApplyDelta work.block utxos = .ok delta := by
  rcases computeBlockDeltas_spec computed with ⟨blocksEq, each⟩
  rcases applyEntities_path ∅ loaded applied with ⟨pairs, firstEq, secondEq, path⟩
  have kept := BatchTrace.rolled_of_path path
  constructor
  · rw [← blocksEq, ← firstEq, ← secondEq, List.map_map, List.map_map]
    apply List.map_congr_left
    intro pair member
    exact (kept pair member).1
  · intro work member
    rw [← secondEq] at member
    rcases List.mem_map.mp member with ⟨pair, isPair, rfl⟩
    rcases kept pair isPair with ⟨blockEq, deltaEq⟩
    rw [blockEq, deltaEq]
    refine (each pair.1 ?_).2
    rw [← firstEq]
    exact List.mem_map.mpr ⟨pair, isPair, rfl⟩

omit [NonceCrypto] [AssetDigest] in
/-- The commit of a batch that was computed. -/
theorem exists_commitState (stores : LedgerStores MultiEraOutput)
    {rolled : List (WorkBlock MultiEraOutput)} {utxos : UtxoMap MultiEraOutput}
    (tracked : EntityMap CardanoEntity) {blocks : List DecodedBlock}
    (blocksEq : rolled.map WorkBlock.block = blocks.map DecodedBlock.view)
    (resolved : ∀ work ∈ rolled, ∃ delta, work.utxoDelta = some delta ∧
      computeApplyDelta work.block utxos = .ok delta)
    (nonempty : blocks ≠ []) :
    ∃ after, RollBatch.commitState ⟨rolled, utxos, tracked⟩
      (RollBatch.commitWal ⟨rolled, utxos, tracked⟩ stores) = .ok after ∧
        after.entities.get? = stores.entities.overlay tracked ∧
        after.utxos = advanceAll stores.utxos (blocks.map DecodedBlock.view) ∧
        after.cursor = (blocks.map fun block => Block.point block.view).getLast? := by
  have pointsEq : rolled.map WorkBlock.point =
      blocks.map fun block => Block.point block.view := by
    have mapped := congrArg (List.map Block.point) blocksEq
    rw [List.map_map, List.map_map] at mapped
    exact mapped
  cases lastIs : rolled.getLast? with
  | none =>
      rw [List.getLast?_eq_none_iff.mp lastIs] at blocksEq
      exact absurd (List.map_eq_nil_iff.mp blocksEq.symm) nonempty
  | some last =>
      refine ⟨_, by simp only [RollBatch.commitState, lastIs]; rfl, ?_, ?_, ?_⟩
      · exact OrderedMap.get?_setAll stores.entities tracked
      · rw [← blocksEq]
        exact BatchTrace.foldl_applyUtxoset resolved
      · rw [← pointsEq, List.getLast?_map, lastIs]
        rfl

omit [NonceCrypto] [AssetDigest] in
theorem get?_loadEntityChunk_keys (works : List (WorkBlock MultiEraOutput))
    (store : OrderedMap NsKey CardanoEntity) :
    ∀ work ∈ works, ∀ index ∈ work.deltas.keys,
      ((loadEntityChunk (works.flatMap fun work => work.deltas.keys).dedup store).get?
        index).isSome := by
  intro work member index isKey
  rw [get?_loadEntityChunk, if_pos]
  · rfl
  · exact List.mem_dedup.mpr (List.mem_flatMap.mpr ⟨work, member, isKey⟩)

/-- A roll succeeds when its blocks, in slot order, go through, and leaves what they
leave. -/
theorem roll_iff {cache : RollCache} {stores : LedgerStores MultiEraOutput}
    {batch : WorkBatch DecodedBlock} {state : CommittedState} :
    (∃ after, cache.roll stores batch = .ok after ∧ after.committed = state) ↔
      RolledTo cache (batch.blocks.mergeSort fun earlier later => earlier.slot ≤ later.slot)
        stores.committed state := by
  generalize sortedEq :
    (batch.blocks.mergeSort fun earlier later => earlier.slot ≤ later.slot) = sorted
  have nonempty : sorted ≠ [] := by
    intro empty
    rw [← sortedEq, ← List.length_eq_zero_iff, List.length_mergeSort] at empty
    exact batch.nonempty (List.length_eq_zero_iff.mp empty)
  constructor
  · rintro ⟨after, done, rfl⟩
    rcases bind_eq_ok.mp done with ⟨loaded, loadedEq, restDone⟩
    rcases bind_eq_ok.mp restDone with ⟨computed, computedEq, commitEq⟩
    rw [RollCache.load, sortedEq] at loadedEq
    rcases bind_eq_ok.mp loadedEq with ⟨_, continuousEq, loadedRest⟩
    rcases bind_eq_ok.mp loadedRest with ⟨works, worksEq, loadedIs⟩
    rcases Except.ok.inj loadedIs with rfl
    rcases bind_eq_ok.mp (mapError_eq_ok.mp computedEq) with ⟨⟨rolled, tracked⟩, appliedEq, isBatch⟩
    rcases Except.ok.inj isBatch with rfl
    have applied := mapError_eq_ok.mp appliedEq
    have loadedKeys := get?_loadEntityChunk_keys works stores.entities
    rcases computeDelta_eq_ok_iff.mp worksEq with
      ⟨first, context, dormancy, isFirst, contextEq, dormancyEq, deltasEq⟩
    rcases applyEntities_keeps deltasEq loadedKeys applied with ⟨blocksEq, resolved⟩
    rcases exists_commitState stores tracked blocksEq resolved nonempty with
      ⟨committed, commitDone, entitiesEq, utxosEq, cursorEq⟩
    rcases Except.ok.inj ((mapError_eq_ok.mp commitEq).symm.trans commitDone) with rfl
    have walked := (applyEntities_iff_path stores.entities loadedKeys).mp
      ⟨rolled, tracked, applied, rfl⟩
    rw [overlay_loadEntityChunk, ← entitiesEq] at walked
    exact ⟨mapError_eq_ok.mp continuousEq, ⟨first, context, dormancy, isFirst, contextEq,
      dormancyEq, appliesAll_iff.mpr ⟨works, deltasEq, walked⟩⟩, utxosEq, cursorEq⟩
  · rintro ⟨continuous, ⟨first, context, dormancy, isFirst, contextEq, dormancyEq, all⟩,
      utxosEq, cursorEq⟩
    rcases appliesAll_iff.mp all with ⟨works, deltasEq, walked⟩
    have loadedKeys := get?_loadEntityChunk_keys works stores.entities
    rw [← overlay_loadEntityChunk (works.flatMap fun work => work.deltas.keys).dedup] at walked
    rcases (applyEntities_iff_path stores.entities loadedKeys).mpr walked with
      ⟨rolled, tracked, applied, reached⟩
    rcases applyEntities_keeps deltasEq loadedKeys applied with ⟨blocksEq, resolved⟩
    rcases exists_commitState stores tracked blocksEq resolved nonempty with
      ⟨committed, commitDone, committedEntities, committedUtxos, committedCursor⟩
    have worksEq := computeDelta_eq_ok_iff.mpr
      ⟨first, context, dormancy, isFirst, contextEq, dormancyEq, deltasEq⟩
    refine ⟨committed, ?_, ?_⟩
    · have continuousEq : checkContinuity (stores.cursor.getD .origin)
          (sorted.map RollCache.bare) = .ok () := continuous
      simp only [RollCache.roll, RollCache.load, sortedEq, continuousEq, mapError_ok, ok_bind]
      simp only [LedgerStores.committed] at worksEq applied commitDone
      simp only [worksEq, ok_bind, RollBatch.compute, applied, mapError_ok]
      rw [commitDone]
      rfl
    · apply CommittedState.ext
      · apply OrderedMap.ext
        intro index
        exact congrFun (committedEntities.trans reached) index
      · exact committedUtxos.trans utxosEq.symm
      · exact committedCursor.trans cursorEq.symm

end Walk

namespace Devnet

@[reducible]
def digest : AssetDigest := ⟨fun policy _ => EntityKey.ofHash28 policy⟩

/-- A network in its first epoch, for concrete runs. -/
def cache : RollCache := ⟨42, ⟨[], [10], some ⟨⟨0, 0, 0⟩, none, 100, 1, 10⟩⟩⟩

def epoch : EpochState where
  number := 0
  initialPots := .default
  rolling := .withLive 0 .default
  pparams := .withLive 0 ⟨[⟨.drepInactivityPeriod, .amount 20⟩]⟩
  largestStableSlot := 0
  previousNonceTail := none
  nonces := none
  endStats := none
  incentives := none
  ewrapProgress := none
  estartProgress := none
  rupdProgress := none

def gov (dormantEpochs : ℕ) : GovState where
  constitution := none
  committee := none
  committeeAuths := ∅
  prevGovActionIds := ⟨none, none, none, none⟩
  numDormantEpochs := dormantEpochs
  activeSince := some 0
  distr := none
  prevDistr := none

/-- A transaction that moves outputs and does nothing else. -/
def transfer (hash : BlockHash) (inputs : List TxoRef) (outputs : List MultiEraOutput) :
    MultiEraTx where
  era := .conway
  hash := hash
  isValid := true
  inputs := inputs
  outputs := outputs
  collateral := []
  collateralReturn := none
  totalCollateral := none
  fee := some 0
  byronFee := 0
  mints := []
  metadata := []
  certs := []
  withdrawals := []
  update := none
  plutusData := []
  votingProcedures := none
  govProposals := []
  donation := none

def block (slot : ℕ) (hash : BlockHash) (previousHash : Option BlockHash)
    (txs : List MultiEraTx) : DecodedBlock :=
  ⟨slot, hash, previousHash, false, none, none, txs, none⟩

def stores (dormantEpochs : ℕ) (rows : List (NsKey × CardanoEntity))
    (utxos : List (TxoRef × MultiEraOutput)) : LedgerStores MultiEraOutput where
  entities := .ofList
    ((EpochState.nsKey, .epoch epoch) :: (GovState.nsKey, .gov (gov dormantEpochs)) :: rows)
  utxos := .ofList utxos
  cursor := none
  wal := ∅

end Devnet

end Dolos
