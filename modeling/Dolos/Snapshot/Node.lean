import Dolos.Cardano.IndexUndo
import Dolos.Lib.Overwrite
import Dolos.Snapshot.Layers

/-!
# What a restore writes

The stores of a node as a snapshot sees them, and the writes the records of a layer come
to. Every write is keyed: a block is stored once, the same log row, index record, entity
or output again takes the place of the one before.
-/

namespace Dolos.Snapshot

variable {V O : Type}

/-- The state with its cursor, the archive and the indexes. -/
@[ext]
structure Node (V O : Type) where
  cursor : Option ChainPoint
  entities : StateNs → OrderedMap EntityKey V
  utxos : UtxoMap O
  blocks : List (ℕ × Bytes)
  logs : LogTables V
  indexes : IndexStore

namespace Node

def empty : Node V O where
  cursor := none
  entities := fun _ => ∅
  utxos := ∅
  blocks := []
  logs := .empty
  indexes := ⟨none, ∅, ∅, ∅⟩

end Node

/-- A record of a layer that is scoped to an epoch. -/
inductive EpochWrite (V : Type) where
  | block (slot : ℕ) (body : Bytes)
  | log (ns : LogNs) (key : LogKey) (value : V)
  | tag (record : ArchiveTag)
  | exact (key : ExactKey) (slot : ℕ)

/-- A record of the tip. -/
inductive TipWrite (V O : Type) where
  | entity (ns : StateNs) (key : EntityKey) (value : V)
  | utxo (txo : TxoRef) (value : O)

namespace Node

def writeEpoch (node : Node V O) : EpochWrite V → Node V O
  | .block slot body => { node with blocks := storeOnce Prod.fst node.blocks (slot, body) }
  | .log ns key value => { node with logs := node.logs.writeLog ns key value }
  | .tag record =>
      { node with
        indexes := { node.indexes with archiveTags := insert record node.indexes.archiveTags } }
  | .exact key slot =>
      { node with
        indexes := { node.indexes with exact := node.indexes.exact.insert key slot } }

def writeTip (node : Node V O) : TipWrite V O → Node V O
  | .entity ns key value =>
      { node with
        entities := fun other =>
          if other = ns then (node.entities other).insert key value else node.entities other }
  | .utxo txo value => { node with utxos := node.utxos.insert txo value }

end Node

end Dolos.Snapshot
