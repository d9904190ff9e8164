import Dolos.Core.Entity
import Dolos.Core.Wal
import Dolos.Lib.Keyed

/-!
# The state store

Entities and unspent outputs as `core/src/state.rs` reads and writes them. A chunk
of deltas works on a map of tracked entities, loaded from the store on first use
and kept between chunks, so that what it sees is always the store with the tracked
changes on top. Through that view a chunk is a run over the entities, one key at a
time, whatever the order of its keys.
-/

namespace Dolos

open Outcome Keyed

/-- A transaction output: the hash of the transaction and the output's index. -/
abbrev TxoRef := BlockHash ×ₗ ℕ

inductive DomainError where
  | cantReceiveBlock
  | stopEpochReached
  | inconsistentState (wal state : Option ChainPoint)
  | missingUtxo (txo : TxoRef)
  | brokenContinuity (slot : ℕ) (expected got : BlockHash)
  | slotNotIncreasing (slot tipSlot : ℕ)
  | pparamsNotFound (kind : String)
  | noActiveEpoch
  | poolSnapshotLagging (pool : Hash28) (poolEpoch : Option ℕ) (currentEpoch : ℕ)
  | panic (panic : Panic)
  | other (message : String)
  deriving DecidableEq

section Utxos

variable {O : Type}

structure UtxoSetDelta (O : Type) where
  producedUtxo : OrderedMap TxoRef O
  consumedUtxo : OrderedMap TxoRef O
  recoveredStxi : OrderedMap TxoRef O
  undoneUtxo : OrderedMap TxoRef O

def UtxoSetDelta.default : UtxoSetDelta O := ⟨∅, ∅, ∅, ∅⟩

/-- `apply_utxoset`: outputs are written before any is removed. -/
def applyUtxoset (utxos : OrderedMap TxoRef O) (delta : UtxoSetDelta O) : OrderedMap TxoRef O :=
  let written := (utxos.insertAll delta.producedUtxo.entries).insertAll delta.recoveredStxi.entries
  (written.eraseAll delta.consumedUtxo.keys).eraseAll delta.undoneUtxo.keys

theorem get?_applyUtxoset (utxos : OrderedMap TxoRef O) (delta : UtxoSetDelta O) (txo : TxoRef) :
    (applyUtxoset utxos delta).get? txo =
      if (delta.undoneUtxo.get? txo).isSome ∨ (delta.consumedUtxo.get? txo).isSome then none
      else (delta.recoveredStxi.get? txo).or
        ((delta.producedUtxo.get? txo).or (utxos.get? txo)) := by
  simp only [applyUtxoset, OrderedMap.get?_eraseAll, OrderedMap.get?_insertAll_entries,
    OrderedMap.mem_keys_iff]
  by_cases undone : (delta.undoneUtxo.get? txo).isSome
  · simp [undone]
  · simp [undone]

end Utxos

/-- What the log keeps of a block: the block itself, absent in synthetic entries,
its deltas and the outputs its batch resolved. -/
structure LogValue (B D O : Type) where
  block : Option B
  delta : List D
  inputs : OrderedMap TxoRef O

def LogValue.origin {B D O : Type} : LogValue B D O := ⟨none, [], ∅⟩

/-- Tracked entities; an absent one is tracked as absent. -/
abbrev EntityMap (E : Type) := OrderedMap NsKey (Option E)

section Entities

variable {D E : Type} [EntityDelta D E]

open EntityDelta

def loadEntityChunk (chunk : List NsKey) (store : OrderedMap NsKey E) : EntityMap E :=
  .ofList (chunk.map fun key => (key, store.get? key))

/-- `load_missing_entities`: entities already tracked keep their value. -/
def loadMissingEntities (entities : EntityMap E) (store : OrderedMap NsKey E)
    (deltas : List D) : EntityMap E :=
  let missing := (deltas.map key).filter fun key => (entities.get? key).isNone
  entities.insertAll (loadEntityChunk missing store).entries

/-- The loop over a chunk: each delta acts on the tracked entity of its key. -/
def onTracked (act : D → Option E → Except Panic (Option E)) :
    List D → EntityMap E → Except Panic (EntityMap E)
  | [], entities => .ok entities
  | delta :: rest, entities => do
      let entity ← expect (entities.get? (key delta)) "entity loaded by load_missing_entities"
      let next ← act delta entity
      onTracked act rest (entities.insert (key delta) next)

/-- The deltas of a group applied in turn to one entity; each keeps its undo fields. -/
def applyGroup : List D → Option E → Except Panic (List D × Option E)
  | [], entity => .ok ([], entity)
  | delta :: rest, entity => do
      let (applied, next) ← apply delta entity
      let (later, final) ← applyGroup rest next
      .ok (applied :: later, final)

/-- The effect of an application on the entity alone. -/
def EntityDelta.effect (delta : D) (entity : Option E) : Except Panic (Option E) := do
  let (_, after) ← apply delta entity
  .ok after

def applyDeltaChunk (entities : EntityMap E) (store : OrderedMap NsKey E) (deltas : List D) :
    Except Panic (EntityMap E) :=
  onTracked effect deltas (loadMissingEntities entities store deltas)

def undoDeltaChunk (entities : EntityMap E) (store : OrderedMap NsKey E) (deltas : List D) :
    Except Panic (EntityMap E) :=
  onTracked undo deltas.reverse (loadMissingEntities entities store deltas)

def saveEntities (store : OrderedMap NsKey E) (entities : EntityMap E) : OrderedMap NsKey E :=
  store.setAll entities

theorem EntityDelta.effect_eq_ok {delta : D} {before after : Option E} :
    effect delta before = .ok after ↔ ∃ applied, apply delta before = .ok (applied, after) := by
  rw [effect, bind_eq_ok]
  constructor
  · rintro ⟨⟨applied, reached⟩, done, reachedEq⟩
    rcases Except.ok.inj reachedEq with rfl
    exact ⟨applied, done⟩
  · rintro ⟨applied, done⟩
    exact ⟨(applied, after), done, rfl⟩

theorem applyGroup_cons_eq_ok {delta : D} {rest applied : List D} {before after : Option E} :
    applyGroup (delta :: rest) before = .ok (applied, after) ↔
      ∃ head next later, apply delta before = .ok (head, next) ∧
        applyGroup rest next = .ok (later, after) ∧ applied = head :: later := by
  simp only [applyGroup, bind_eq_ok, Except.ok.injEq, Prod.mk.injEq, Prod.exists]
  constructor
  · rintro ⟨head, next, headEq, later, final, laterEq, rfl, rfl⟩
    exact ⟨head, next, later, headEq, laterEq, rfl⟩
  · rintro ⟨head, next, later, headEq, laterEq, rfl⟩
    exact ⟨head, next, headEq, later, after, laterEq, rfl, rfl⟩

/-- The effect of a group on its entity. -/
theorem runAll_effect_iff {group : List D} {before after : Option E} :
    runAll effect group before = .ok after ↔
      ∃ applied, applyGroup group before = .ok (applied, after) := by
  induction group generalizing before with
  | nil => simp [runAll, applyGroup]
  | cons delta rest ih =>
      simp only [runAll, bind_eq_ok, effect_eq_ok, ih, applyGroup_cons_eq_ok]
      constructor
      · rintro ⟨next, ⟨head, headEq⟩, later, laterEq⟩
        exact ⟨head :: later, head, next, later, headEq, laterEq, rfl⟩
      · rintro ⟨_, head, next, later, headEq, laterEq, -⟩
        exact ⟨next, ⟨head, headEq⟩, later, laterEq⟩

theorem get?_loadEntityChunk (chunk : List NsKey) (store : OrderedMap NsKey E) (index : NsKey) :
    (loadEntityChunk chunk store).get? index =
      if index ∈ chunk then some (store.get? index) else none := by
  by_cases member : index ∈ chunk
  · rw [if_pos member]
    apply OrderedMap.get?_insertAll_of_mem
    · exact List.mem_map.mpr ⟨index, member, rfl⟩
    · intro other found
      rcases List.mem_map.mp found with ⟨loaded, -, loadedEq⟩
      simp only [Prod.mk.injEq] at loadedEq
      rw [← loadedEq.1, ← loadedEq.2]
  · rw [if_neg member, loadEntityChunk, OrderedMap.ofList,
      OrderedMap.get?_insertAll_of_notMem]
    · rfl
    · simpa using member

theorem overlay_loadEntityChunk (chunk : List NsKey) (store : OrderedMap NsKey E) :
    store.overlay (loadEntityChunk chunk store) = store.get? := by
  funext index
  rw [OrderedMap.overlay, get?_loadEntityChunk]
  split_ifs
  · rfl
  · rfl

theorem get?_loadMissingEntities (entities : EntityMap E) (store : OrderedMap NsKey E)
    (deltas : List D) (index : NsKey) :
    (loadMissingEntities entities store deltas).get? index =
      if index ∈ deltas.map key then some (store.overlay entities index)
      else entities.get? index := by
  simp only [loadMissingEntities, OrderedMap.get?_insertAll_entries, get?_loadEntityChunk,
    List.mem_filter, OrderedMap.overlay]
  cases entities.get? index with
  | none => by_cases member : index ∈ deltas.map key <;> simp [member]
  | some held => by_cases member : index ∈ deltas.map key <;> simp [member]

/-- Loading changes nothing of what is seen. -/
theorem overlay_loadMissingEntities (entities : EntityMap E) (store : OrderedMap NsKey E)
    (deltas : List D) :
    store.overlay (loadMissingEntities entities store deltas) = store.overlay entities := by
  funext index
  rw [OrderedMap.overlay, get?_loadMissingEntities]
  split_ifs
  · rfl
  · rfl

theorem onTracked_of_runOn {act : D → Option E → Except Panic (Option E)} {deltas : List D}
    {entities : EntityMap E} {store : OrderedMap NsKey E} {final : NsKey → Option E}
    (loaded : ∀ delta ∈ deltas, (entities.get? (key delta)).isSome)
    (ran : runOn key act deltas (store.overlay entities) = .ok final) :
    ∃ tracked, onTracked act deltas entities = .ok tracked ∧ store.overlay tracked = final := by
  induction deltas generalizing entities with
  | nil => exact ⟨entities, rfl, Except.ok.inj ran⟩
  | cons delta rest ih =>
      rcases bind_eq_ok.mp ran with ⟨next, acted, ranRest⟩
      rcases Option.isSome_iff_exists.mp (loaded delta List.mem_cons_self) with ⟨held, heldEq⟩
      rw [OrderedMap.overlay_of_get? heldEq] at acted
      rw [← OrderedMap.overlay_insert] at ranRest
      have stillLoaded : ∀ later ∈ rest,
          ((entities.insert (key delta) next).get? (key later)).isSome := by
        intro later member
        rw [OrderedMap.get?_insert]
        split_ifs
        · rfl
        · exact loaded later (List.mem_cons_of_mem delta member)
      rcases ih stillLoaded ranRest with ⟨tracked, trackedEq, seen⟩
      refine ⟨tracked, ?_, seen⟩
      simp only [onTracked, heldEq, expect_some, ok_bind, acted, trackedEq]

theorem runOn_of_onTracked {act : D → Option E → Except Panic (Option E)} {deltas : List D}
    {entities tracked : EntityMap E} (store : OrderedMap NsKey E)
    (done : onTracked act deltas entities = .ok tracked) :
    runOn key act deltas (store.overlay entities) = .ok (store.overlay tracked) := by
  induction deltas generalizing entities with
  | nil =>
      rcases Except.ok.inj done with rfl
      rfl
  | cons delta rest ih =>
      rw [onTracked] at done
      cases held : entities.get? (key delta) with
      | none =>
          rw [held, expect_none] at done
          cases done
      | some entity =>
          rw [held, expect_some, ok_bind] at done
          rcases bind_eq_ok.mp done with ⟨next, acted, restDone⟩
          rw [← OrderedMap.overlay_of_get? held] at acted
          rw [runOn, acted, ok_bind, ← OrderedMap.overlay_insert]
          exact ih restDone

theorem isSome_loadMissingEntities (entities : EntityMap E) (store : OrderedMap NsKey E)
    {deltas : List D} {delta : D} (member : delta ∈ deltas) :
    ((loadMissingEntities entities store deltas).get? (key delta)).isSome := by
  have listed : key delta ∈ deltas.map key := List.mem_map.mpr ⟨delta, member, rfl⟩
  rw [get?_loadMissingEntities, if_pos listed]
  rfl

/-- A chunk is a run over the entities as they are seen. -/
theorem applyDeltaChunk_of_runOn {entities : EntityMap E} {store : OrderedMap NsKey E}
    {deltas : List D} {final : NsKey → Option E}
    (ran : runOn key effect deltas (store.overlay entities) = .ok final) :
    ∃ tracked, applyDeltaChunk entities store deltas = .ok tracked ∧
      store.overlay tracked = final := by
  rw [← overlay_loadMissingEntities entities store deltas] at ran
  apply onTracked_of_runOn _ ran
  intro delta member
  exact isSome_loadMissingEntities entities store member

theorem undoDeltaChunk_of_runOn {entities : EntityMap E} {store : OrderedMap NsKey E}
    {deltas : List D} {final : NsKey → Option E}
    (ran : runOn key undo deltas.reverse (store.overlay entities) = .ok final) :
    ∃ tracked, undoDeltaChunk entities store deltas = .ok tracked ∧
      store.overlay tracked = final := by
  rw [← overlay_loadMissingEntities entities store deltas] at ran
  apply onTracked_of_runOn _ ran
  intro delta member
  exact isSome_loadMissingEntities entities store (List.mem_reverse.mp member)

theorem runOn_of_undoDeltaChunk {entities tracked : EntityMap E} {store : OrderedMap NsKey E}
    {deltas : List D} (done : undoDeltaChunk entities store deltas = .ok tracked) :
    runOn key undo deltas.reverse (store.overlay entities) = .ok (store.overlay tracked) := by
  rw [← overlay_loadMissingEntities entities store deltas]
  exact runOn_of_onTracked store done

end Entities

end Dolos
