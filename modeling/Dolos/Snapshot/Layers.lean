import Mathlib.Data.List.Lex
import Dolos.Core.ArchiveLogs
import Dolos.Core.Indexes
import Dolos.Snapshot.Plan

/-!
# The layers of a stele

The kinds, scopes and records of `snapshot/src/lib.rs` and `snapshot/src/layers`, with the
orders the records of a layer are held to. A record stands for its encoding: what a layer
is written with is what it reads back as.
-/

namespace Dolos.Snapshot

open Outcome

inductive StateNs where
  | accountEpochs
  | accounts
  | assets
  | datums
  | dreps
  | epochs
  | eras
  | gov
  | pendingMirs
  | pendingRewards
  | pools
  | proposals
  | stakes
  | utxos
  deriving DecidableEq, Repr

namespace StateNs

/-- Every namespace, as the document lists them. -/
def all : List StateNs :=
  [accountEpochs, accounts, assets, datums, dreps, epochs, eras, gov, pendingMirs,
    pendingRewards, pools, proposals, stakes, utxos]

def shards : StateNs → ℕ
  | accounts => 16
  | assets => 16
  | datums => 16
  | utxos => 16
  | _ => 1

end StateNs

/-- Every log namespace is one of the state. -/
def logNamespace : LogNs → StateNs
  | .accountEpochs => .accountEpochs
  | .epochs => .epochs
  | .stakes => .stakes

inductive LayerKind where
  | blocks
  | indexes
  | log (ns : LogNs)
  | state (ns : StateNs)
  | digests
  deriving DecidableEq, Repr

/-- What a layer's header says it covers. -/
inductive LayerScope where
  | epoch (magic : ℕ) (window : EpochWindow)
  | tip (magic epoch shard : ℕ)
  | dump (magic epoch shard : ℕ)
  | digests (magic epoch lastImmutable : ℕ)
  deriving DecidableEq, Repr

/-- What the document says of it. A tip does not name its epoch. -/
inductive DescriptorScope where
  | epoch (window : EpochWindow)
  | tip (shard : ℕ)
  | dump (epoch shard : ℕ)
  | digests (lastImmutable : ℕ)
  deriving DecidableEq, Repr

def LayerScope.descriptor : LayerScope → DescriptorScope
  | epoch _ window => .epoch window
  | tip _ _ shard => .tip shard
  | dump _ number shard => .dump number shard
  | digests _ _ lastImmutable => .digests lastImmutable

structure LayerSpec where
  kind : LayerKind
  scope : LayerScope
  deriving DecidableEq, Repr

/-- A layer of the document, over the digests that name its content. -/
structure LayerDescriptor (D : Type) where
  kind : LayerKind
  scope : DescriptorScope
  diffId : D
  records : ℕ
  uncompressedSize : ℕ
  deriving DecidableEq

inductive SnapshotError where
  | undecodableBlock (slot : ℕ)
  | malformedRecord (kind reason : String)
  | outOfOrder (kind : String)
  | uncoveredLogNamespace (epoch : ℕ) (ns : StateNs)
  | unanchoredPoint (cursor : ChainPoint)
  | incompleteStele (reason : String)
  | store (reason : String)
  | stelae (reason : String)
  | panic (cause : Panic)
  deriving DecidableEq, Repr

structure BlockRecord where
  slot : ℕ
  hash : BlockHash
  body : Bytes
  deriving DecidableEq, Repr

inductive IndexRecord where
  | tag (record : ArchiveTag)
  | exact (key : ExactKey) (slot : ℕ)
  deriving DecidableEq

def IndexRecord.slot : IndexRecord → ℕ
  | tag record => record.2.2
  | exact _ slot => slot

/-- The files a digest record is about, with their three hashes. -/
structure ImmutableDigests where
  immutableNumber : ℕ
  chunk : BlockHash
  primary : BlockHash
  secondary : BlockHash
  deriving DecidableEq, Repr

/-- A record of any layer, over the stored values of entities and outputs. -/
inductive Record (V O : Type) where
  | block (record : BlockRecord)
  | log (key : LogKey) (value : V)
  | index (record : IndexRecord)
  | entity (key : EntityKey) (value : V)
  | utxo (txo : TxoRef) (value : O)
  | digests (record : ImmutableDigests)

/-- The place of a dimension in the order of the names. -/
def nameRank : TagDimension → ℕ
  | .accountCerts => 0
  | .accountWithdrawals => 1
  | .address => 2
  | .asset => 3
  | .datum => 4
  | .metadata => 5
  | .payment => 6
  | .policy => 7
  | .poolCerts => 8
  | .script => 9
  | .scriptRef => 10
  | .spentTxo => 11
  | .stake => 12

/-- Tags in the order of dimension, key and slot. -/
def tagKey (tag : ArchiveTag) : ℕ ×ₗ List ℕ ×ₗ ℕ :=
  toLex (nameRank tag.1, toLex (tag.2.1.map UInt8.toNat, tag.2.2))

/-- The leading four bits of a key, where there is more than one shard. -/
def shardOf (leading : Fin (2 ^ 256)) (shards : ℕ) : ℕ :=
  if shards ≤ 1 then 0 else leading.val / 2 ^ 252

section Orders

/-- Slots do not go back; blocks that share one are as they come. -/
def checkBlock (last : Option ℕ) (record : BlockRecord) : Except SnapshotError (Option ℕ) :=
  if last.any fun last => record.slot < last then .error (.outOfOrder "blocks")
  else .ok (some record.slot)

def checkLog {V : Type} (last : Option LogKey) (record : LogKey × V) :
    Except SnapshotError (Option LogKey) :=
  if last.any fun last => record.1 ≤ last then .error (.outOfOrder "log")
  else .ok (some record.1)

/-- The last tag and the last exact record of an index layer. -/
structure IndexOrder where
  lastTag : Option ArchiveTag
  lastExact : Option ExactKey

def IndexOrder.default : IndexOrder := ⟨none, none⟩

/-- Every tag comes before every exact record, and both in order. -/
def checkIndex (order : IndexOrder) : IndexRecord → Except SnapshotError IndexOrder
  | .tag record =>
      if order.lastExact.isSome then .error (.outOfOrder "indexes")
      else if order.lastTag.any fun last => tagKey record ≤ tagKey last then
        .error (.outOfOrder "indexes")
      else .ok { order with lastTag := some record }
  | .exact key _ =>
      if order.lastExact.any fun last => key ≤ last then .error (.outOfOrder "indexes")
      else .ok { order with lastExact := some key }

/-- Keys of one shard, in order. -/
def checkState {K : Type} [LinearOrder K] (leading : K → Fin (2 ^ 256)) (shard shards : ℕ)
    (last : Option K) (key : K) : Except SnapshotError (Option K) :=
  if shardOf (leading key) shards ≠ shard then
    .error (.malformedRecord "state" "the record belongs to another shard")
  else if last.any fun last => key ≤ last then .error (.outOfOrder "state")
  else .ok (some key)

def checkDigests (last : Option ℕ) (record : ImmutableDigests) :
    Except SnapshotError (Option ℕ) :=
  if last.any fun last => record.immutableNumber ≤ last then .error (.outOfOrder "digests")
  else .ok (some record.immutableNumber)

end Orders

end Dolos.Snapshot
