import Dolos.Core.Wal
import Dolos.Lib.Sweep

/-!
# The mempool stores

`core/src/mempool.rs` and its two stores: the in-memory one of
`core/src/builtin/mempool.rs` and the one on tables of `redb3/src/mempool.rs`.
Both track a transaction from its submission to its finality, and one function,
`confirm`, serves blocks that are rolled forward and blocks that are undone.

The payload of a transaction is a parameter; the events sent to subscribers are left
out. A counter is kept only while it is below a threshold of its own type, so it
never leaves its range.
-/

namespace Dolos

abbrev TxHash := BlockHash

inductive MempoolTxStage where
  | pending
  | propagated
  | acknowledged
  | confirmed
  | finalized
  | dropped
  | rolledBack
  | unknown
  deriving DecidableEq, Repr

structure MempoolTx (P : Type) where
  hash : TxHash
  payload : P
  stage : MempoolTxStage
  confirmations : ℕ
  nonConfirmations : ℕ
  confirmedAt : Option ChainPoint
  deriving DecidableEq, Repr

structure TxStatus where
  stage : MempoolTxStage
  confirmations : ℕ
  nonConfirmations : ℕ
  confirmedAt : Option ChainPoint
  deriving DecidableEq, Repr

inductive MempoolError where
  | duplicateTx
  deriving DecidableEq, Repr

namespace MempoolTx

variable {P : Type}

def new (hash : TxHash) (payload : P) : MempoolTx P := ⟨hash, payload, .pending, 0, 0, none⟩

def confirm (tx : MempoolTx P) (point : ChainPoint) : MempoolTx P :=
  { tx with
    stage := .confirmed
    confirmations := tx.confirmations + 1
    nonConfirmations := 0
    confirmedAt := some (tx.confirmedAt.getD point) }

def retry (tx : MempoolTx P) : MempoolTx P :=
  { tx with stage := .pending, confirmations := 0, nonConfirmations := 0, confirmedAt := none }

def markStale (tx : MempoolTx P) : MempoolTx P :=
  { tx with nonConfirmations := tx.nonConfirmations + 1 }

end MempoolTx

/-- The arguments of a `confirm` call. -/
structure ConfirmCall where
  point : ChainPoint
  seenTxs : List TxHash
  unseenTxs : List TxHash
  finalizeThreshold : ℕ
  dropThreshold : ℕ
  deriving DecidableEq, Repr

/-- The state of `EphemeralMempool`. -/
structure MempoolState (P : Type) where
  pending : List (MempoolTx P)
  inflight : List (MempoolTx P)
  acknowledged : OrderedMap TxHash (MempoolTx P)
  finalizedLog : List (MempoolTx P)

namespace MempoolState

variable {P : Type}

def default : MempoolState P := ⟨[], [], ∅, []⟩

def maxFinalizedLog : ℕ := 1000

def receive (state : MempoolState P) (tx : MempoolTx P) : Except MempoolError (MempoolState P) :=
  if state.pending.any (fun held => held.hash = tx.hash) then .error .duplicateTx
  else .ok { state with pending := state.pending ++ [tx] }

def markInflight (state : MempoolState P) (hashes : List TxHash) : MempoolState P :=
  let moved := state.pending.filter fun tx => tx.hash ∈ hashes
  { state with
    pending := state.pending.filter fun tx => tx.hash ∉ hashes
    inflight := state.inflight ++ moved.map fun tx => { tx with stage := .propagated } }

def markAcknowledged (state : MempoolState P) (hashes : List TxHash) : MempoolState P :=
  let moved := state.inflight.filter fun tx => tx.hash ∈ hashes
  { state with
    inflight := state.inflight.filter fun tx => tx.hash ∉ hashes
    acknowledged := state.acknowledged.insertAll
      (moved.map fun tx => (tx.hash, { tx with stage := .acknowledged })) }

def findInflight (state : MempoolState P) (hash : TxHash) : Option (MempoolTx P) :=
  (state.inflight.find? fun tx => tx.hash = hash).or (state.acknowledged.get? hash)

def peekInflight (state : MempoolState P) : List (MempoolTx P) :=
  state.inflight ++ state.acknowledged.entries.map Prod.snd

/-- The first step of `confirm`: every inflight transaction in one map. -/
def promoted (state : MempoolState P) : MempoolState P :=
  { state with
    inflight := []
    acknowledged := state.acknowledged.insertAll (state.inflight.map fun tx => (tx.hash, tx)) }

/-- A confirmed transaction, logged once it is deep enough. -/
def settle (call : ConfirmCall) (state : MempoolState P) (tx : MempoolTx P) (hash : TxHash) :
    MempoolState P :=
  if call.finalizeThreshold ≤ tx.confirmations then
    { state with
      finalizedLog := state.finalizedLog ++ [{ tx with stage := .finalized }]
      acknowledged := state.acknowledged.erase hash }
  else { state with acknowledged := state.acknowledged.insert hash tx }

/-- The body of the loop of `confirm`. The hashes are keys of the map. -/
def confirmOne (call : ConfirmCall) (state : MempoolState P) (hash : TxHash) : MempoolState P :=
  match state.acknowledged.get? hash with
  | none => state
  | some tx =>
      if hash ∈ call.seenTxs then state.settle call (tx.confirm call.point) hash
      else if hash ∈ call.unseenTxs then
        { state with
          acknowledged := state.acknowledged.erase hash
          pending := state.pending ++ [tx.retry] }
      else if tx.stage = .confirmed then state.settle call (tx.confirm call.point) hash
      else
        let stale := tx.markStale
        if call.dropThreshold ≤ stale.nonConfirmations then
          { state with
            finalizedLog := state.finalizedLog ++ [{ stale with stage := .dropped }]
            acknowledged := state.acknowledged.erase hash }
        else { state with acknowledged := state.acknowledged.insert hash stale }

/-- `confirm`, where the hash map gives its keys in the given order. -/
def confirm (state : MempoolState P) (order : List TxHash) (call : ConfirmCall) :
    MempoolState P :=
  if state.promoted.acknowledged.entries = [] then state.promoted
  else
    let settled := order.foldl (confirmOne call) state.promoted
    { settled with
      finalizedLog := settled.finalizedLog.drop (settled.finalizedLog.length - maxFinalizedLog) }

def checkStatus (state : MempoolState P) (hash : TxHash) : TxStatus :=
  match state.acknowledged.get? hash with
  | some tx => ⟨tx.stage, tx.confirmations, tx.nonConfirmations, tx.confirmedAt⟩
  | none =>
      match state.inflight.find? fun tx => tx.hash = hash with
      | some tx => ⟨tx.stage, 0, 0, none⟩
      | none =>
          if state.pending.any (fun tx => tx.hash = hash) then ⟨.pending, 0, 0, none⟩
          else ⟨.unknown, 0, 0, none⟩

end MempoolState

inductive InflightStage where
  | propagated
  | acknowledged
  | confirmed
  deriving DecidableEq, Repr

def InflightStage.toTxStage : InflightStage → MempoolTxStage
  | propagated => .propagated
  | acknowledged => .acknowledged
  | confirmed => .confirmed

structure InflightRecord (P : Type) where
  stage : InflightStage
  confirmations : ℕ
  payload : P
  confirmedAt : Option (ℕ ×ₗ BlockHash)
  nonConfirmations : ℕ
  deriving DecidableEq

structure FinalizedEntry (P : Type) where
  hash : TxHash
  confirmations : ℕ
  confirmedAt : Option (ℕ ×ₗ BlockHash)
  payload : Option P
  dropped : Option Bool
  deriving DecidableEq

namespace InflightRecord

variable {P : Type}

def new (payload : P) : InflightRecord P := ⟨.propagated, 0, payload, none, 0⟩

def acknowledge (record : InflightRecord P) : InflightRecord P × Bool :=
  if record.stage = .propagated then ({ record with stage := .acknowledged }, true)
  else (record, false)

def confirm (record : InflightRecord P) (point : ChainPoint) : InflightRecord P :=
  { record with
    stage := .confirmed
    confirmations := record.confirmations + 1
    nonConfirmations := 0
    confirmedAt := some (record.confirmedAt.getD point.intoBytes) }

def markStale (record : InflightRecord P) : InflightRecord P :=
  { record with nonConfirmations := record.nonConfirmations + 1 }

def isFinalizable (record : InflightRecord P) (threshold : ℕ) : Bool :=
  record.stage = .confirmed ∧ threshold ≤ record.confirmations

def isDroppable (record : InflightRecord P) (threshold : ℕ) : Bool :=
  threshold ≤ record.nonConfirmations

def toTxStatus (record : InflightRecord P) : TxStatus :=
  ⟨record.stage.toTxStage, record.confirmations, record.nonConfirmations,
    record.confirmedAt.map .fromBytes⟩

def intoFinalizedEntry (record : InflightRecord P) (hash : TxHash) : FinalizedEntry P :=
  ⟨hash, record.confirmations, record.confirmedAt, some record.payload, some false⟩

def intoDroppedEntry (record : InflightRecord P) (hash : TxHash) : FinalizedEntry P :=
  ⟨hash, record.confirmations, record.confirmedAt, some record.payload, some true⟩

def toMempoolTx (record : InflightRecord P) (hash : TxHash) : MempoolTx P :=
  ⟨hash, record.payload, record.stage.toTxStage, record.confirmations, record.nonConfirmations,
    record.confirmedAt.map .fromBytes⟩

end InflightRecord

/-- The tables of the store. Pending transactions are keyed by a sequence number and
their hash, logged ones by a sequence number. -/
structure RedbMempool (P : Type) where
  pending : OrderedMap (ℕ ×ₗ TxHash) P
  inflight : OrderedMap TxHash (InflightRecord P)
  finalized : OrderedMap ℕ (FinalizedEntry P)

namespace PendingTable

variable {P : Type}

def contains (table : OrderedMap (ℕ ×ₗ TxHash) P) (hash : TxHash) : Bool :=
  table.entries.any fun entry => (ofLex entry.1).2 = hash

def peek (table : OrderedMap (ℕ ×ₗ TxHash) P) : List (MempoolTx P) :=
  table.entries.map fun entry => .new (ofLex entry.1).2 entry.2

def nextSeq (table : OrderedMap (ℕ ×ₗ TxHash) P) : ℕ :=
  match table.entries.getLast? with
  | some entry => (ofLex entry.1).1 + 1
  | none => 0

def insert (table : OrderedMap (ℕ ×ₗ TxHash) P) (hash : TxHash) (payload : P) :
    OrderedMap (ℕ ×ₗ TxHash) P :=
  table.insert (toLex (nextSeq table, hash)) payload

def drainByHashes (table : OrderedMap (ℕ ×ₗ TxHash) P) (hashes : List TxHash) :
    List (TxHash × P) × OrderedMap (ℕ ×ₗ TxHash) P :=
  let extracted := table.entries.filter fun entry => (ofLex entry.1).2 ∈ hashes
  (extracted.map fun entry => ((ofLex entry.1).2, entry.2),
    table.filter fun key _ => (ofLex key).2 ∉ hashes)

end PendingTable

namespace FinalizedTable

variable {P : Type}

def nextSeq (table : OrderedMap ℕ (FinalizedEntry P)) : ℕ :=
  match table.entries.getLast? with
  | some last => last.1 + 1
  | none => 0

def append (table : OrderedMap ℕ (FinalizedEntry P)) (entry : FinalizedEntry P) :
    OrderedMap ℕ (FinalizedEntry P) :=
  table.insert (nextSeq table) entry

end FinalizedTable

namespace RedbMempool

variable {P : Type}

def default : RedbMempool P := ⟨∅, ∅, ∅⟩

def receive (store : RedbMempool P) (tx : MempoolTx P) : Except MempoolError (RedbMempool P) :=
  if PendingTable.contains store.pending tx.hash then .error .duplicateTx
  else if (store.inflight.get? tx.hash).isSome then .error .duplicateTx
  else .ok { store with pending := PendingTable.insert store.pending tx.hash tx.payload }

def peekPending (store : RedbMempool P) : List (MempoolTx P) := PendingTable.peek store.pending

def markInflight (store : RedbMempool P) (hashes : List TxHash) : RedbMempool P :=
  let (drained, pending) := PendingTable.drainByHashes store.pending hashes
  { store with
    pending := pending
    inflight := store.inflight.insertAll
      (drained.map fun entry => (entry.1, InflightRecord.new entry.2)) }

def acknowledgeOne (inflight : OrderedMap TxHash (InflightRecord P)) (hash : TxHash) :
    OrderedMap TxHash (InflightRecord P) :=
  match inflight.get? hash with
  | none => inflight
  | some record =>
      if record.acknowledge.2 then inflight.insert hash record.acknowledge.1 else inflight

def markAcknowledged (store : RedbMempool P) (hashes : List TxHash) : RedbMempool P :=
  { store with inflight := hashes.foldl acknowledgeOne store.inflight }

def findInflight (store : RedbMempool P) (hash : TxHash) : Option (MempoolTx P) :=
  (store.inflight.get? hash).map fun record => record.toMempoolTx hash

def peekInflight (store : RedbMempool P) : List (MempoolTx P) :=
  store.inflight.entries.map fun entry => entry.2.toMempoolTx entry.1

/-- A confirmed record, logged once it is deep enough. -/
def settle (call : ConfirmCall) (store : RedbMempool P) (record : InflightRecord P)
    (hash : TxHash) : RedbMempool P :=
  if record.isFinalizable call.finalizeThreshold then
    { store with
      inflight := store.inflight.erase hash
      finalized := FinalizedTable.append store.finalized (record.intoFinalizedEntry hash) }
  else { store with inflight := store.inflight.insert hash record }

/-- The body of the loop of `confirm`. -/
def confirmOne (call : ConfirmCall) (store : RedbMempool P)
    (entry : TxHash × InflightRecord P) : RedbMempool P :=
  let (hash, record) := entry
  if hash ∈ call.seenTxs then store.settle call (record.confirm call.point) hash
  else if hash ∈ call.unseenTxs then
    { store with
      inflight := store.inflight.erase hash
      pending := PendingTable.insert store.pending hash record.payload }
  else if record.stage = .confirmed then store.settle call (record.confirm call.point) hash
  else
    let stale := record.markStale
    if stale.isDroppable call.dropThreshold then
      { store with
        inflight := store.inflight.erase hash
        finalized := FinalizedTable.append store.finalized (stale.intoDroppedEntry hash) }
    else { store with inflight := store.inflight.insert hash stale }

def confirm (store : RedbMempool P) (call : ConfirmCall) : RedbMempool P :=
  store.inflight.entries.foldl (confirmOne call) store

def checkStatus (store : RedbMempool P) (hash : TxHash) : TxStatus :=
  match store.inflight.get? hash with
  | some record => record.toTxStatus
  | none =>
      if PendingTable.contains store.pending hash then ⟨.pending, 0, 0, none⟩
      else ⟨.unknown, 0, 0, none⟩

end RedbMempool

/-- A call to a store. -/
inductive MempoolCall (P : Type) where
  | receive (tx : MempoolTx P)
  | markInflight (hashes : List TxHash)
  | markAcknowledged (hashes : List TxHash)
  | confirm (call : ConfirmCall)

/-- The result of a call and the state after it; a call that fails changes nothing. -/
def returned {S : Type} (state : S) : Except MempoolError S → Except MempoolError Unit × S
  | .error failure => (.error failure, state)
  | .ok next => (.ok (), next)

def MempoolState.perform {P : Type} (state : MempoolState P) (order : List TxHash) :
    MempoolCall P → Except MempoolError Unit × MempoolState P
  | .receive tx => returned state (state.receive tx)
  | .markInflight hashes => (.ok (), state.markInflight hashes)
  | .markAcknowledged hashes => (.ok (), state.markAcknowledged hashes)
  | .confirm call => (.ok (), state.confirm order call)

def RedbMempool.perform {P : Type} (store : RedbMempool P) :
    MempoolCall P → Except MempoolError Unit × RedbMempool P
  | .receive tx => returned store (store.receive tx)
  | .markInflight hashes => (.ok (), store.markInflight hashes)
  | .markAcknowledged hashes => (.ok (), store.markAcknowledged hashes)
  | .confirm call => (.ok (), store.confirm call)

end Dolos
