import Dolos.Cardano.Model.Replay
import Dolos.Cardano.UtxoSet
import Dolos.Cardano.Work

/-!
# Rolling a batch of blocks

`cardano/src/roll/batch.rs` and `roll/work_unit.rs`: a batch is sorted, its outputs
and entities are loaded, the deltas of its blocks are applied in memory, and the
result goes to the log first and to the state store after it.

The deltas a block emits are given with it, in groups by entity. A hash map keeps
the groups, so they stand here in any order.
-/

namespace Dolos

open Outcome Keyed EntityDelta

variable {O : Type}

/-- The deltas of a block by entity. -/
structure WorkDeltas where
  groups : List (NsKey × List CardanoDelta)
  nodup : (groups.map Prod.fst).Nodup

namespace WorkDeltas

def default : WorkDeltas := ⟨[], List.nodup_nil⟩

def get? (deltas : WorkDeltas) (index : NsKey) : Option (List CardanoDelta) :=
  OrderedMap.lookup index deltas.groups

def group (deltas : WorkDeltas) (index : NsKey) : List CardanoDelta := (deltas.get? index).getD []

def keys (deltas : WorkDeltas) : List NsKey := deltas.groups.map Prod.fst

/-- Writing through `get_mut`: the group keeps its place. -/
def setGroup (deltas : WorkDeltas) (index : NsKey) (group : List CardanoDelta) : WorkDeltas :=
  ⟨deltas.groups.map fun entry => (entry.1, if entry.1 = index then group else entry.2), by
    rw [List.map_map]
    exact deltas.nodup⟩

def flatten (deltas : WorkDeltas) : List CardanoDelta := deltas.groups.flatMap Prod.snd

variable [NonceCrypto]

def addForEntity (deltas : WorkDeltas) (delta : CardanoDelta) : WorkDeltas :=
  match held : deltas.get? (key delta) with
  | some group => deltas.setGroup (key delta) (group ++ [delta])
  | none => ⟨deltas.groups ++ [(key delta, [delta])], by
      have absent : key delta ∉ deltas.keys := OrderedMap.notMem_of_lookup held
      rw [List.map_append, List.nodup_append]
      refine ⟨deltas.nodup, by simp, ?_⟩
      intro index member other isLast same
      simp only [List.map_cons, List.map_nil, List.mem_singleton] at isLast
      subst same
      subst isLast
      exact absent member⟩

/-- The loop of `apply_entities` over the tracked entities, for one block. -/
def applyOver : List (NsKey × Option CardanoEntity) → WorkDeltas → EntityMap CardanoEntity →
    Except Panic (WorkDeltas × EntityMap CardanoEntity)
  | [], deltas, entities => .ok (deltas, entities)
  | (index, entity) :: rest, deltas, entities =>
      match deltas.get? index with
      | none => applyOver rest deltas entities
      | some group => do
          let (applied, after) ← applyGroup group entity
          applyOver rest (deltas.setGroup index applied) (entities.insert index after)

def applyEntities (deltas : WorkDeltas) (entities : EntityMap CardanoEntity) :
    Except Panic (WorkDeltas × EntityMap CardanoEntity) :=
  applyOver entities.entries deltas entities

end WorkDeltas

structure WorkBlock (O : Type) where
  block : MultiEraBlock O
  deltas : WorkDeltas
  utxoDelta : Option (UtxoSetDelta O)

def WorkBlock.point (work : WorkBlock O) : ChainPoint := Block.point work.block

/-- What the log keeps of a block: its own deltas, and the outputs of its batch. -/
def WorkBlock.logEntry (work : WorkBlock O) (utxos : UtxoMap O) :
    ChainPoint × LogValue (MultiEraBlock O) CardanoDelta O :=
  (work.point, ⟨some work.block, work.deltas.flatten.map CardanoDelta.wire, utxos⟩)

/-- A batch as the phases of its work unit fill it. -/
structure RollBatch (O : Type) where
  blocks : List (WorkBlock O)
  utxos : UtxoMap O
  entities : EntityMap CardanoEntity

@[ext]
structure LedgerStores (O : Type) where
  entities : OrderedMap NsKey CardanoEntity
  utxos : UtxoMap O
  cursor : Option ChainPoint
  wal : Wal (LogValue (MultiEraBlock O) CardanoDelta O)

/-- The declared parent is compared only when both hashes are known. -/
def checkParent (slot : ℕ) (previousHash : Option BlockHash) (tip : ChainPoint) :
    Except DomainError Unit :=
  match previousHash, tip.hash with
  | some previous, some tipHash =>
      if previous ≠ tipHash then .error (.brokenContinuity slot tipHash previous) else .ok ()
  | _, _ => .ok ()

/-- Blocks may share a slot with the tip: boundary blocks do. -/
def checkSlotIncrease (slot : ℕ) (tip : ChainPoint) : Except DomainError Unit :=
  match tip with
  | .origin => .ok ()
  | tip => if tip.slot ≤ slot then .ok () else .error (.slotNotIncreasing slot tip.slot)

def checkExtension (tip : ChainPoint) (slot : ℕ) (previousHash : Option BlockHash) :
    Except DomainError Unit := do
  checkParent slot previousHash tip
  checkSlotIncrease slot tip

def checkContinuity : ChainPoint → List (WorkBlock O) → Except DomainError Unit
  | _, [] => .ok ()
  | tip, work :: rest => do
      checkExtension tip work.block.slot work.block.previousHash
      checkContinuity work.point rest

def sortBySlot (blocks : List (WorkBlock O)) : List (WorkBlock O) :=
  blocks.mergeSort fun earlier later => earlier.block.slot ≤ later.block.slot

/-- The last loop of `compute_delta`. -/
def computeUtxoDeltas (utxos : UtxoMap O) :
    List (WorkBlock O) → Except DomainError (List (WorkBlock O))
  | [] => .ok []
  | work :: rest => do
      let delta ← computeApplyDelta work.block utxos
      let later ← computeUtxoDeltas utxos rest
      .ok ({ work with utxoDelta := some delta } :: later)

variable [NonceCrypto]

/-- `apply_entities`. -/
def applyEntities : List (WorkBlock O) → EntityMap CardanoEntity →
    Except Panic (List (WorkBlock O) × EntityMap CardanoEntity)
  | [], entities => .ok ([], entities)
  | work :: rest, entities => do
      let (deltas, tracked) ← work.deltas.applyEntities entities
      let (later, final) ← applyEntities rest tracked
      .ok ({ work with deltas := deltas } :: later, final)

namespace RollBatch

omit [NonceCrypto] in
def load (stores : LedgerStores O) (batch : WorkBatch (WorkBlock O)) :
    Except DomainError (RollBatch O) := do
  let sorted := sortBySlot batch.blocks
  checkContinuity (stores.cursor.getD .origin) sorted
  let utxos := loadUtxos (sorted.map WorkBlock.block) stores.utxos
  let blocks ← computeUtxoDeltas utxos sorted
  let keys := (blocks.flatMap fun work => work.deltas.keys).dedup
  .ok ⟨blocks, utxos, loadEntityChunk keys stores.entities⟩

def compute (batch : RollBatch O) : Except DomainError (RollBatch O) := do
  let (blocks, entities) ← (applyEntities batch.blocks batch.entities).mapError .panic
  .ok { batch with blocks := blocks, entities := entities }

omit [NonceCrypto] in
def commitWal (batch : RollBatch O) (stores : LedgerStores O) : LedgerStores O :=
  { stores with
    wal := stores.wal.appendEntries (batch.blocks.map fun work => work.logEntry batch.utxos) }

omit [NonceCrypto] in
def commitState (batch : RollBatch O) (stores : LedgerStores O) :
    Except DomainError (LedgerStores O) :=
  match batch.blocks.getLast? with
  | none => .error (.panic .unwrapNone)
  | some last => .ok { stores with
      entities := saveEntities stores.entities batch.entities
      utxos := (batch.blocks.filterMap WorkBlock.utxoDelta).foldl applyUtxoset stores.utxos
      cursor := some last.point }

end RollBatch

namespace LedgerStores

/-- A roll work unit up to the log. -/
def rollLogged (stores : LedgerStores O) (batch : WorkBatch (WorkBlock O)) :
    Except DomainError (RollBatch O × LedgerStores O) := do
  let loaded ← RollBatch.load stores batch
  let computed ← loaded.compute
  .ok (computed, computed.commitWal stores)

/-- A whole roll work unit. -/
def roll (stores : LedgerStores O) (batch : WorkBatch (WorkBlock O)) :
    Except DomainError (LedgerStores O) := do
  let (computed, logged) ← stores.rollLogged batch
  computed.commitState logged

def rollAll (stores : LedgerStores O) :
    List (WorkBatch (WorkBlock O)) → Except DomainError (LedgerStores O)
  | [] => .ok stores
  | batch :: rest => do
      let rolled ← stores.roll batch
      rolled.rollAll rest

end LedgerStores

end Dolos
