import Dolos.Cardano.Roll
import Dolos.Lib.Path

/-!
# The trace of a batch

What a batch does, read off its phases: each block takes the entities from one
value to the next, group by group, and the outputs from one set to the next. The
log entries of the batch, walked from the last to the first, lead back along the
same path; applied again from the first on, they lead along it once more.
-/

namespace Dolos

open Outcome Keyed EntityDelta CardanoDelta

variable {O : Type}

namespace WorkDeltas

theorem keys_setGroup (deltas : WorkDeltas) (index : NsKey) (group : List CardanoDelta) :
    (deltas.setGroup index group).keys = deltas.keys := by
  simp [keys, setGroup]

theorem get?_setGroup (deltas : WorkDeltas) (index other : NsKey) (group : List CardanoDelta) :
    (deltas.setGroup index group).get? other =
      (deltas.get? other).map fun held => if other = index then group else held := by
  rcases deltas with ⟨groups, nodup⟩
  simp only [get?, setGroup]
  clear nodup
  induction groups with
  | nil => rfl
  | cons head rest ih =>
      rcases head with ⟨first, held⟩
      simp only [List.map_cons, OrderedMap.lookup]
      by_cases same : other = first
      · simp [same]
      · simp only [same, if_false]
        exact ih

theorem group_setGroup_of_ne (deltas : WorkDeltas) {index other : NsKey}
    (group : List CardanoDelta) (different : other ≠ index) :
    (deltas.setGroup index group).group other = deltas.group other := by
  rw [WorkDeltas.group, get?_setGroup, WorkDeltas.group]
  cases deltas.get? other with
  | none => rfl
  | some held => simp [different]

theorem group_setGroup_self {deltas : WorkDeltas} {index : NsKey} {held : List CardanoDelta}
    (present : deltas.get? index = some held) (group : List CardanoDelta) :
    (deltas.setGroup index group).group index = group := by
  rw [WorkDeltas.group, get?_setGroup, present]
  simp

theorem group_of_notMem {deltas : WorkDeltas} {index : NsKey} (absent : index ∉ deltas.keys) :
    deltas.group index = [] := by
  have unheld : deltas.get? index = none := by
    apply OrderedMap.lookup_eq_none
    intro entry member same
    exact absent (List.mem_map.mpr ⟨entry, member, same⟩)
  rw [group, unheld, Option.getD_none]

theorem group_of_mem {deltas : WorkDeltas} {index : NsKey} {held : List CardanoDelta}
    (member : (index, held) ∈ deltas.groups) : deltas.group index = held := by
  rcases deltas with ⟨groups, nodup⟩
  simp only [group, get?] at member ⊢
  induction groups with
  | nil => simp at member
  | cons head rest ih =>
      rcases head with ⟨first, value⟩
      rcases List.nodup_cons.mp nodup with ⟨once, restNodup⟩
      rcases List.mem_cons.mp member with isHead | isLater
      · rw [Prod.mk.injEq] at isHead
        simp [OrderedMap.lookup, isHead]
      · have different : index ≠ first := by
          intro same
          subst same
          exact once (List.mem_map.mpr ⟨_, isLater, rfl⟩)
        simp only [OrderedMap.lookup, different, if_false]
        exact ih restNodup isLater

variable [NonceCrypto]

/-- The deltas of one entity, out of all those of the block. -/
theorem filter_flatten {deltas : WorkDeltas}
    (keyed : ∀ index, ∀ delta ∈ deltas.group index, key delta = index) (index : NsKey) :
    deltas.flatten.filter (fun delta => key delta = index) = deltas.group index := by
  have groupKeyed : ∀ group ∈ deltas.groups, ∀ delta ∈ group.2, key delta = group.1 := by
    intro group member delta inGroup
    apply keyed
    rw [group_of_mem member]
    exact inGroup
  by_cases present : index ∈ deltas.keys
  · rcases List.mem_map.mp present with ⟨⟨other, held⟩, member, rfl⟩
    rw [group_of_mem member]
    exact filter_flatMap_groups key deltas.nodup groupKeyed member
  · rw [group_of_notMem present]
    exact filter_flatMap_absent key groupKeyed present

theorem applyOver_spec {entries : List (NsKey × Option CardanoEntity)}
    {deltas applied : WorkDeltas} {entities tracked : EntityMap CardanoEntity}
    (nodup : (entries.map Prod.fst).Nodup)
    (held : ∀ entry ∈ entries, entities.get? entry.1 = some entry.2)
    (done : applyOver entries deltas entities = .ok (applied, tracked)) :
    applied.keys = deltas.keys ∧
      (∀ index ∈ entries.map Prod.fst, ∃ before after, entities.get? index = some before ∧
        tracked.get? index = some after ∧
        applyGroup (deltas.group index) before = .ok (applied.group index, after)) ∧
      ∀ index ∉ entries.map Prod.fst,
        tracked.get? index = entities.get? index ∧ applied.group index = deltas.group index := by
  induction entries generalizing deltas entities with
  | nil =>
      simp only [applyOver, Except.ok.injEq, Prod.mk.injEq] at done
      rcases done with ⟨rfl, rfl⟩
      refine ⟨rfl, by simp, ?_⟩
      intro index _
      exact ⟨rfl, rfl⟩
  | cons entry rest ih =>
      rcases entry with ⟨first, entity⟩
      rcases List.nodup_cons.mp nodup with ⟨once, restNodup⟩
      have heldFirst : entities.get? first = some entity := held (first, entity) List.mem_cons_self
      cases present : deltas.get? first with
      | none =>
          simp only [applyOver, present] at done
          have heldRest : ∀ later ∈ rest, entities.get? later.1 = some later.2 := by
            intro later member
            exact held later (List.mem_cons_of_mem _ member)
          rcases ih restNodup heldRest done with ⟨keysEq, inside, outside⟩
          refine ⟨keysEq, ?_, ?_⟩
          · intro index member
            rcases List.mem_cons.mp member with rfl | isLater
            · rcases outside index once with ⟨trackedEq, groupEq⟩
              refine ⟨entity, entity, heldFirst, trackedEq.trans heldFirst, ?_⟩
              rw [groupEq, group, present]
              rfl
            · exact inside index isLater
          · intro index absent
            simp only [List.map_cons, List.mem_cons, not_or] at absent
            exact outside index absent.2
      | some group =>
          simp only [applyOver, present] at done
          rcases bind_eq_ok.mp done with ⟨⟨appliedGroup, after⟩, groupDone, restDone⟩
          have heldRest : ∀ later ∈ rest, (entities.insert first after).get? later.1 =
              some later.2 := by
            intro later member
            have different : later.1 ≠ first := by
              intro same
              exact once (List.mem_map.mpr ⟨later, member, same⟩)
            rw [OrderedMap.get?_insert, if_neg different]
            exact held later (List.mem_cons_of_mem _ member)
          rcases ih restNodup heldRest restDone with ⟨keysEq, inside, outside⟩
          refine ⟨keysEq.trans (keys_setGroup deltas first appliedGroup), ?_, ?_⟩
          · intro index member
            rcases List.mem_cons.mp member with rfl | isLater
            · rcases outside index once with ⟨trackedEq, groupEq⟩
              rw [OrderedMap.get?_insert_self] at trackedEq
              rw [group_setGroup_self present] at groupEq
              refine ⟨entity, after, heldFirst, trackedEq, ?_⟩
              rw [groupEq, WorkDeltas.group, present]
              exact groupDone
            · have different : index ≠ first := by
                rintro rfl
                exact once isLater
              rcases inside index isLater with ⟨before, reached, beforeEq, reachedEq, stepped⟩
              rw [OrderedMap.get?_insert, if_neg different] at beforeEq
              rw [group_setGroup_of_ne deltas appliedGroup different] at stepped
              exact ⟨before, reached, beforeEq, reachedEq, stepped⟩
          · intro index absent
            simp only [List.map_cons, List.mem_cons, not_or] at absent
            rcases outside index absent.2 with ⟨trackedEq, groupEq⟩
            rw [OrderedMap.get?_insert, if_neg absent.1] at trackedEq
            rw [group_setGroup_of_ne deltas appliedGroup absent.1] at groupEq
            exact ⟨trackedEq, groupEq⟩

/-- A block, seen through the tracked entities: each entity goes through its group. -/
theorem applyEntities_spec {deltas applied : WorkDeltas}
    {entities tracked : EntityMap CardanoEntity} (store : OrderedMap NsKey CardanoEntity)
    (loaded : ∀ index ∈ deltas.keys, (entities.get? index).isSome)
    (done : deltas.applyEntities entities = .ok (applied, tracked)) :
    (∀ index, applyGroup (deltas.group index) (store.overlay entities index) =
      .ok (applied.group index, store.overlay tracked index)) ∧
      ∀ index, (entities.get? index).isSome → (tracked.get? index).isSome := by
  have held : ∀ entry ∈ entities.entries, entities.get? entry.1 = some entry.2 := by
    intro entry member
    exact OrderedMap.mem_entries_iff.mp member
  rcases applyOver_spec entities.nodup_keys held done with ⟨-, inside, outside⟩
  constructor
  · intro index
    by_cases isTracked : index ∈ entities.keys
    · rcases inside index isTracked with ⟨before, after, beforeEq, afterEq, stepped⟩
      rw [OrderedMap.overlay_of_get? beforeEq, OrderedMap.overlay_of_get? afterEq]
      exact stepped
    · rcases outside index isTracked with ⟨trackedEq, groupEq⟩
      have noGroup : deltas.group index = [] := by
        apply group_of_notMem
        intro member
        exact isTracked (OrderedMap.mem_keys_iff.mpr (loaded index member))
      rw [groupEq, noGroup, OrderedMap.overlay, OrderedMap.overlay, trackedEq]
      rfl
  · intro index isSome
    rcases inside index (OrderedMap.mem_keys_iff.mpr isSome) with ⟨_, after, -, afterEq, -⟩
    rw [afterEq]
    rfl

end WorkDeltas

variable [NonceCrypto]

/-- A block of a batch and what it became: the same block, with every group
applied. -/
structure Rolls (pair : WorkBlock O × WorkBlock O)
    (before after : NsKey → Option CardanoEntity) : Prop where
  block : pair.2.block = pair.1.block
  utxoDelta : pair.2.utxoDelta = pair.1.utxoDelta
  groups : ∀ index, applyGroup (pair.1.deltas.group index) (before index) =
    .ok (pair.2.deltas.group index, after index)

theorem applyEntities_path {blocks rolled : List (WorkBlock O)}
    {entities tracked : EntityMap CardanoEntity} (store : OrderedMap NsKey CardanoEntity)
    (loaded : ∀ work ∈ blocks, ∀ index ∈ work.deltas.keys, (entities.get? index).isSome)
    (done : applyEntities blocks entities = .ok (rolled, tracked)) :
    ∃ pairs, pairs.map Prod.fst = blocks ∧ pairs.map Prod.snd = rolled ∧
      Path Rolls pairs (store.overlay entities) (store.overlay tracked) := by
  induction blocks generalizing entities rolled with
  | nil =>
      simp only [applyEntities, Except.ok.injEq, Prod.mk.injEq] at done
      rcases done with ⟨rfl, rfl⟩
      exact ⟨[], rfl, rfl, .nil _⟩
  | cons work rest ih =>
      rcases bind_eq_ok.mp done with ⟨⟨deltas, next⟩, headDone, restDone⟩
      rcases bind_eq_ok.mp restDone with ⟨⟨later, final⟩, laterDone, rolledEq⟩
      simp only [Except.ok.injEq, Prod.mk.injEq] at rolledEq
      rcases rolledEq with ⟨rfl, rfl⟩
      rcases WorkDeltas.applyEntities_spec store (loaded work List.mem_cons_self) headDone with
        ⟨groups, stillTracked⟩
      have laterLoaded : ∀ other ∈ rest, ∀ index ∈ other.deltas.keys,
          (next.get? index).isSome := by
        intro other member index isKey
        exact stillTracked index (loaded other (List.mem_cons_of_mem work member) index isKey)
      rcases ih laterLoaded laterDone with ⟨pairs, firstEq, secondEq, path⟩
      refine ⟨(work, { work with deltas := deltas }) :: pairs, ?_, ?_, ?_⟩
      · rw [List.map_cons, firstEq]
      · rw [List.map_cons, secondEq]
      · exact .cons ⟨rfl, rfl, groups⟩ path

omit [NonceCrypto] in
theorem computeUtxoDeltas_spec {utxos : UtxoMap O} {blocks computed : List (WorkBlock O)}
    (done : computeUtxoDeltas utxos blocks = .ok computed) :
    computed.map WorkBlock.block = blocks.map WorkBlock.block ∧
      computed.map WorkBlock.deltas = blocks.map WorkBlock.deltas ∧
      ∀ work ∈ computed, ∃ delta, work.utxoDelta = some delta ∧
        computeApplyDelta work.block utxos = .ok delta := by
  induction blocks generalizing computed with
  | nil =>
      rcases Except.ok.inj done with rfl
      exact ⟨rfl, rfl, by simp⟩
  | cons work rest ih =>
      rcases bind_eq_ok.mp done with ⟨delta, deltaEq, restDone⟩
      rcases bind_eq_ok.mp restDone with ⟨later, laterEq, computedEq⟩
      rcases Except.ok.inj computedEq with rfl
      rcases ih laterEq with ⟨blocksEq, deltasEq, each⟩
      refine ⟨?_, ?_, ?_⟩
      · rw [List.map_cons, blocksEq, List.map_cons]
      · rw [List.map_cons, deltasEq, List.map_cons]
      · intro other member
        rcases List.mem_cons.mp member with rfl | isLater
        · exact ⟨delta, rfl, deltaEq⟩
        · exact each other isLater

/-- What a batch in memory is, once it has been computed over some stores: its blocks
in slot order, each with the groups it went through. -/
structure BatchTrace (stores : LedgerStores O) (blocks : List (WorkBlock O))
    (computed : RollBatch O) (pairs : List (WorkBlock O × WorkBlock O)) : Prop where
  blocksEq : pairs.map (fun pair => pair.1.block) = blocks.map WorkBlock.block
  deltasEq : pairs.map (fun pair => pair.1.deltas) = blocks.map WorkBlock.deltas
  rolled : computed.blocks = pairs.map Prod.snd
  utxos : computed.utxos = loadUtxos (blocks.map WorkBlock.block) stores.utxos
  path : Path Rolls pairs stores.entities.get? (stores.entities.overlay computed.entities)
  resolved : ∀ pair ∈ pairs, ∃ delta, pair.1.utxoDelta = some delta ∧
    computeApplyDelta pair.1.block computed.utxos = .ok delta

theorem rollLogged_spec {stores logged : LedgerStores O} {batch : WorkBatch (WorkBlock O)}
    {computed : RollBatch O} (done : stores.rollLogged batch = .ok (computed, logged)) :
    logged = computed.commitWal stores ∧
      ∃ pairs, BatchTrace stores (sortBySlot batch.blocks) computed pairs := by
  rcases bind_eq_ok.mp done with ⟨loaded, loadedEq, restDone⟩
  rcases bind_eq_ok.mp restDone with ⟨computedBatch, computedEq, loggedEq⟩
  simp only [Except.ok.injEq, Prod.mk.injEq] at loggedEq
  rcases loggedEq with ⟨rfl, rfl⟩
  refine ⟨rfl, ?_⟩
  rcases bind_eq_ok.mp loadedEq with ⟨_, -, loadedRest⟩
  rcases bind_eq_ok.mp loadedRest with ⟨withUtxos, withUtxosEq, loadedIs⟩
  rcases Except.ok.inj loadedIs with rfl
  rcases computeUtxoDeltas_spec withUtxosEq with ⟨blocksEq, deltasEq, each⟩
  rcases bind_eq_ok.mp computedEq with ⟨⟨rolled, tracked⟩, appliedEq, computedIs⟩
  rcases Except.ok.inj computedIs with rfl
  have applied := mapError_eq_ok.mp appliedEq
  have isLoaded : ∀ work ∈ withUtxos, ∀ index ∈ work.deltas.keys,
      ((loadEntityChunk (withUtxos.flatMap fun work => work.deltas.keys).dedup
        stores.entities).get? index).isSome := by
    intro work member index isKey
    have listed : index ∈ (withUtxos.flatMap fun work => work.deltas.keys).dedup :=
      List.mem_dedup.mpr (List.mem_flatMap.mpr ⟨work, member, isKey⟩)
    rw [get?_loadEntityChunk, if_pos listed]
    rfl
  rcases applyEntities_path stores.entities isLoaded applied with ⟨pairs, firstEq, secondEq, path⟩
  rw [overlay_loadEntityChunk] at path
  refine ⟨pairs, ?_, ?_, secondEq.symm, rfl, path, ?_⟩
  · rw [← blocksEq, ← firstEq, List.map_map]
    rfl
  · rw [← deltasEq, ← firstEq, List.map_map]
    rfl
  · intro pair member
    apply each
    rw [← firstEq]
    exact List.mem_map.mpr ⟨pair, member, rfl⟩

namespace BatchTrace

variable {stores : LedgerStores O} {blocks : List (WorkBlock O)} {computed : RollBatch O}
variable {pairs : List (WorkBlock O × WorkBlock O)}

omit [NonceCrypto] in
theorem foldl_applyUtxoset {loaded utxos : UtxoMap O} {works : List (WorkBlock O)}
    (resolved : ∀ work ∈ works, ∃ delta, work.utxoDelta = some delta ∧
      computeApplyDelta work.block loaded = .ok delta) :
    (works.filterMap WorkBlock.utxoDelta).foldl applyUtxoset utxos =
      advanceAll utxos (works.map WorkBlock.block) := by
  induction works generalizing utxos with
  | nil => rfl
  | cons work rest ih =>
      rcases resolved work List.mem_cons_self with ⟨delta, deltaEq, computedEq⟩
      have restResolved : ∀ other ∈ rest, ∃ delta, other.utxoDelta = some delta ∧
          computeApplyDelta other.block loaded = .ok delta := by
        intro other member
        exact resolved other (List.mem_cons_of_mem work member)
      rw [List.filterMap_cons_some deltaEq, List.foldl_cons, ih restResolved,
        applyUtxoset_computeApplyDelta computedEq]
      rfl

theorem rolled_of_path {pairs : List (WorkBlock O × WorkBlock O)}
    {before after : NsKey → Option CardanoEntity} (path : Path Rolls pairs before after) :
    ∀ pair ∈ pairs, pair.2.block = pair.1.block ∧ pair.2.utxoDelta = pair.1.utxoDelta := by
  induction path with
  | nil => simp
  | cons rolls _ ih =>
      intro pair member
      rcases List.mem_cons.mp member with rfl | isLater
      · exact ⟨rolls.block, rolls.utxoDelta⟩
      · exact ih pair isLater

theorem map_block (trace : BatchTrace stores blocks computed pairs) :
    computed.blocks.map WorkBlock.block = blocks.map WorkBlock.block := by
  rw [trace.rolled, ← trace.blocksEq, List.map_map]
  apply List.map_congr_left
  intro pair member
  exact (rolled_of_path trace.path pair member).1

/-- The blocks of a computed batch still have the deltas of the outputs it loaded. -/
theorem resolved_computed (trace : BatchTrace stores blocks computed pairs) :
    ∀ work ∈ computed.blocks, ∃ delta, work.utxoDelta = some delta ∧
      computeApplyDelta work.block computed.utxos = .ok delta := by
  intro work member
  rw [trace.rolled] at member
  rcases List.mem_map.mp member with ⟨pair, isPair, rfl⟩
  rcases rolled_of_path trace.path pair isPair with ⟨blockEq, deltaEq⟩
  rw [blockEq, deltaEq]
  exact trace.resolved pair isPair

/-- The stores a batch commits to. -/
theorem commitState_spec (trace : BatchTrace stores blocks computed pairs)
    {logged after : LedgerStores O} (loggedEq : logged = computed.commitWal stores)
    (done : computed.commitState logged = .ok after) :
    after.entities.get? = stores.entities.overlay computed.entities ∧
      after.utxos = advanceAll stores.utxos (blocks.map WorkBlock.block) ∧
      after.wal = logged.wal ∧
      ∃ last, blocks.getLast? = some last ∧ after.cursor = some last.point := by
  subst loggedEq
  have lastEq : computed.blocks.getLast?.map WorkBlock.block =
      blocks.getLast?.map WorkBlock.block := by
    rw [← List.getLast?_map, ← List.getLast?_map, trace.map_block]
  cases lastIs : computed.blocks.getLast? with
  | none => simp [RollBatch.commitState, lastIs] at done
  | some last =>
      simp only [RollBatch.commitState, lastIs, Except.ok.injEq] at done
      subst done
      refine ⟨?_, ?_, rfl, ?_⟩
      · exact OrderedMap.get?_setAll stores.entities computed.entities
      · rw [← trace.map_block]
        exact foldl_applyUtxoset trace.resolved_computed
      · rw [lastIs] at lastEq
        cases givenIs : blocks.getLast? with
        | none => simp [givenIs] at lastEq
        | some given =>
            rw [givenIs] at lastEq
            refine ⟨given, rfl, ?_⟩
            rw [WorkBlock.point, Option.some.inj lastEq]
            rfl

end BatchTrace

/-- The ledger as the log sees it. -/
structure LedgerView (O : Type) where
  entities : NsKey → Option CardanoEntity
  utxos : UtxoMap O

omit [NonceCrypto] in
def LedgerStores.view (stores : LedgerStores O) : LedgerView O :=
  ⟨stores.entities.get?, stores.utxos⟩

/-- A log entry that leads back from the ledger after its block. -/
structure Retraces (entry : ChainPoint × LogValue (MultiEraBlock O) CardanoDelta O)
    (before after : LedgerView O) : Prop where
  entities : runOn key undo entry.2.delta.reverse after.entities = .ok before.entities
  utxos : ∃ block delta, entry.2.block = some block ∧
    computeUndoDelta block entry.2.inputs = .ok delta ∧
    applyUtxoset after.utxos delta = before.utxos

/-- A log entry that leads on from the ledger before its block. -/
structure Repeats (entry : ChainPoint × LogValue (MultiEraBlock O) CardanoDelta O)
    (before after : LedgerView O) : Prop where
  entities : runOn key effect entry.2.delta before.entities = .ok after.entities
  utxos : ∃ block delta, entry.2.block = some block ∧
    computeApplyDelta block entry.2.inputs = .ok delta ∧
    applyUtxoset before.utxos delta = after.utxos

/-- The groups of a block as the visitors emit them. -/
def WorkBlock.Emitted (work : WorkBlock O) : Prop :=
  ∀ index, EmittedFor index (work.deltas.group index)

/-- Every entity is of the variant of its namespace. -/
def WellTyped (entities : NsKey → Option CardanoEntity) : Prop :=
  ∀ index, TypedAt index (entities index)

/-- All that a batch has for one entity. -/
def historyOf (blocks : List (WorkBlock O)) (index : NsKey) : List CardanoDelta :=
  blocks.flatMap fun work => work.deltas.group index

namespace Rolls

variable {pair : WorkBlock O × WorkBlock O} {before after : NsKey → Option CardanoEntity}

theorem keyed (rolls : Rolls pair before after) (emitted : pair.1.Emitted)
    (typed : WellTyped before) :
    (∀ index, ∀ delta ∈ pair.2.deltas.group index, key delta = index) ∧ WellTyped after := by
  constructor
  · intro index
    exact (applyGroup_keyed (emitted index) (typed index) (rolls.groups index)).1
  · intro index
    exact (applyGroup_keyed (emitted index) (typed index) (rolls.groups index)).2

/-- The logged deltas of one entity are those of its group. -/
theorem filter_logged (rolls : Rolls pair before after) (emitted : pair.1.Emitted)
    (typed : WellTyped before) (index : NsKey) :
    (pair.2.deltas.flatten.map wire).filter (fun delta => key delta = index) =
      (pair.2.deltas.group index).map wire := by
  have groupKeyed := (rolls.keyed emitted typed).1
  rw [← WorkDeltas.filter_flatten groupKeyed index, List.filter_map]
  congr 1
  apply List.filter_congr
  intro delta _
  simp [key_wire]

theorem undone (rolls : Rolls pair before after) (emitted : pair.1.Emitted)
    (typed : WellTyped before)
    (unsaturated : ∀ index, Along Unsaturated (pair.1.deltas.group index) (before index)) :
    runOn key undo (pair.2.deltas.flatten.map wire).reverse after = .ok before := by
  apply runOn_of_runAll_filter
  intro index
  rw [List.filter_reverse, rolls.filter_logged emitted typed]
  exact undo_applyGroup (emitted index) (typed index) (unsaturated index) (rolls.groups index)

theorem repeated (rolls : Rolls pair before after) (emitted : pair.1.Emitted)
    (typed : WellTyped before)
    (epochFree : ∀ index, Along EpochFree (pair.1.deltas.group index) (before index)) :
    runOn key effect (pair.2.deltas.flatten.map wire) before = .ok after := by
  apply runOn_of_runAll_filter
  intro index
  rw [rolls.filter_logged emitted typed]
  exact effect_applyGroup (emitted index) (typed index) (epochFree index) (rolls.groups index)

end Rolls

section Paths

variable {pairs : List (WorkBlock O × WorkBlock O)}
variable {before after : NsKey → Option CardanoEntity}

theorem wellTyped_of_path (path : Path Rolls pairs before after)
    (emitted : ∀ pair ∈ pairs, pair.1.Emitted) (typed : WellTyped before) : WellTyped after := by
  induction path with
  | nil => exact typed
  | cons rolls _ ih =>
      apply ih
      · intro pair member
        exact emitted pair (List.mem_cons_of_mem _ member)
      · exact (rolls.keyed (emitted _ List.mem_cons_self) typed).2

/-- The log entries of a batch lead back along its path. -/
theorem retraces_of_path {utxos inputs : UtxoMap O} {earlier : List (MultiEraBlock O)}
    (path : Path Rolls pairs before after)
    (inputsEq : inputs = loadUtxos (earlier ++ pairs.map fun pair => pair.1.block) utxos)
    (valid : ValidChain utxos (earlier ++ pairs.map fun pair => pair.1.block))
    (resolved : ∀ pair ∈ pairs, ∃ delta, pair.1.utxoDelta = some delta ∧
      computeApplyDelta pair.1.block inputs = .ok delta)
    (emitted : ∀ pair ∈ pairs, pair.1.Emitted) (typed : WellTyped before)
    (unsaturated : ∀ index,
      Along Unsaturated (historyOf (pairs.map Prod.fst) index) (before index)) :
    Path Retraces (pairs.map fun pair => pair.2.logEntry inputs)
      ⟨before, advanceAll utxos earlier⟩
      ⟨after, advanceAll utxos (earlier ++ pairs.map fun pair => pair.1.block)⟩ := by
  induction path generalizing earlier with
  | nil =>
      simp only [List.map_nil, List.append_nil]
      exact .nil _
  | @cons pair rest before next after rolls path ih =>
      have headEmitted := emitted pair List.mem_cons_self
      have blockEq := rolls.block
      rcases resolved pair List.mem_cons_self with ⟨delta, -, computed⟩
      have regroup : earlier ++ (pair :: rest).map (fun pair => pair.1.block) =
          (earlier ++ [pair.1.block]) ++ rest.map fun pair => pair.1.block := by
        simp
      have fresh : ∀ txo, (pair.1.block.produced.get? txo).isSome →
          (advanceAll utxos earlier).get? txo = none :=
        valid.right.fresh pair.1.block List.mem_cons_self
      have bodies : ∀ txo ∈ pair.1.block.consumed, pair.1.block.produced.get? txo = none →
          inputs.get? txo = (advanceAll utxos earlier).get? txo := by
        intro txo spent unmade
        rw [inputsEq]
        exact get?_loadUtxos valid spent unmade
      rcases applyUtxoset_computeUndoDelta computed fresh bodies with ⟨undoDelta, undoEq, undone⟩
      have headUnsaturated : ∀ index,
          Along Unsaturated (pair.1.deltas.group index) (before index) := by
        intro index
        exact (unsaturated index).of_append
      have laterUnsaturated : ∀ index,
          Along Unsaturated (historyOf (rest.map Prod.fst) index) (next index) := by
        intro index
        exact (unsaturated index).after_append (rolls.groups index)
      have retraced : Retraces (pair.2.logEntry inputs) ⟨before, advanceAll utxos earlier⟩
          ⟨next, advanceAll utxos (earlier ++ [pair.1.block])⟩ := by
        refine ⟨rolls.undone headEmitted typed headUnsaturated, pair.1.block, undoDelta, ?_,
          undoEq, ?_⟩
        · rw [← blockEq]
          rfl
        · rw [ValidChain.advanceAll_append]
          exact undone
      rw [List.map_cons]
      refine .cons retraced ?_
      rw [regroup] at inputsEq valid ⊢
      apply ih inputsEq valid
      · intro later member
        exact resolved later (List.mem_cons_of_mem pair member)
      · intro later member
        exact emitted later (List.mem_cons_of_mem pair member)
      · exact (rolls.keyed headEmitted typed).2
      · exact laterUnsaturated

/-- Applied again, they lead along it once more. -/
theorem repeats_of_path {inputs : UtxoMap O} (utxos : UtxoMap O)
    (earlier : List (MultiEraBlock O)) (path : Path Rolls pairs before after)
    (resolved : ∀ pair ∈ pairs, ∃ delta, pair.1.utxoDelta = some delta ∧
      computeApplyDelta pair.1.block inputs = .ok delta)
    (emitted : ∀ pair ∈ pairs, pair.1.Emitted) (typed : WellTyped before)
    (epochFree : ∀ index,
      Along EpochFree (historyOf (pairs.map Prod.fst) index) (before index)) :
    Path Repeats (pairs.map fun pair => pair.2.logEntry inputs)
      ⟨before, advanceAll utxos earlier⟩
      ⟨after, advanceAll utxos (earlier ++ pairs.map fun pair => pair.1.block)⟩ := by
  induction path generalizing earlier with
  | nil =>
      simp only [List.map_nil, List.append_nil]
      exact .nil _
  | @cons pair rest before next after rolls path ih =>
      have headEmitted := emitted pair List.mem_cons_self
      have blockEq := rolls.block
      rcases resolved pair List.mem_cons_self with ⟨delta, -, computed⟩
      have regroup : earlier ++ (pair :: rest).map (fun pair => pair.1.block) =
          (earlier ++ [pair.1.block]) ++ rest.map fun pair => pair.1.block := by
        simp
      have headFree : ∀ index, Along EpochFree (pair.1.deltas.group index) (before index) := by
        intro index
        exact (epochFree index).of_append
      have laterFree : ∀ index,
          Along EpochFree (historyOf (rest.map Prod.fst) index) (next index) := by
        intro index
        exact (epochFree index).after_append (rolls.groups index)
      have repeated : Repeats (pair.2.logEntry inputs) ⟨before, advanceAll utxos earlier⟩
          ⟨next, advanceAll utxos (earlier ++ [pair.1.block])⟩ := by
        refine ⟨rolls.repeated headEmitted typed headFree, pair.1.block, delta, ?_, computed, ?_⟩
        · rw [← blockEq]
          rfl
        · rw [ValidChain.advanceAll_append]
          exact applyUtxoset_computeApplyDelta computed
      rw [List.map_cons]
      refine .cons repeated ?_
      rw [regroup]
      apply ih
      · intro later member
        exact resolved later (List.mem_cons_of_mem pair member)
      · intro later member
        exact emitted later (List.mem_cons_of_mem pair member)
      · exact (rolls.keyed headEmitted typed).2
      · exact laterFree

end Paths

namespace BatchTrace

variable {stores : LedgerStores O} {blocks : List (WorkBlock O)} {computed : RollBatch O}
variable {pairs : List (WorkBlock O × WorkBlock O)}

theorem emitted (trace : BatchTrace stores blocks computed pairs)
    (emitted : ∀ work ∈ blocks, work.Emitted) : ∀ pair ∈ pairs, pair.1.Emitted := by
  intro pair member
  have isDeltas : pair.1.deltas ∈ blocks.map WorkBlock.deltas := by
    rw [← trace.deltasEq]
    exact List.mem_map.mpr ⟨pair, member, rfl⟩
  rcases List.mem_map.mp isDeltas with ⟨work, isWork, same⟩
  have workEmitted := emitted work isWork
  rw [WorkBlock.Emitted, same] at workEmitted
  exact workEmitted

theorem historyOf_eq (trace : BatchTrace stores blocks computed pairs) (index : NsKey) :
    historyOf (pairs.map Prod.fst) index = historyOf blocks index := by
  have byDeltas : ∀ works : List (WorkBlock O),
      historyOf works index = (works.map WorkBlock.deltas).flatMap fun deltas =>
        deltas.group index := by
    intro works
    rw [historyOf, List.flatMap_map]
  rw [byDeltas, byDeltas, List.map_map, ← trace.deltasEq]
  rfl

theorem logEntries_eq (trace : BatchTrace stores blocks computed pairs) :
    (pairs.map fun pair => pair.2.logEntry computed.utxos) =
      computed.blocks.map fun work => work.logEntry computed.utxos := by
  rw [trace.rolled, List.map_map]
  rfl

end BatchTrace

end Dolos
