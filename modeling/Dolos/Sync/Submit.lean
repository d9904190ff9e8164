import Dolos.Core.MempoolAgree
import Dolos.Cardano.UtxoStores

/-!
# The submission worker

`src/sync/submit.rs` offers the mempool to the upstream peer. The peer acknowledges the ids
it was sent by a count only, so the worker keeps the hashes of the session in the order in
which they were propagated. Every call to the store is a step of its own: other threads
submit transactions and confirm blocks between any two of them, and a session that breaks
starts the worker again while the mempool stays as it is.
-/

namespace Dolos.Submit

/-- The calls of the worker, and of the threads beside it, on a mempool store. A
confirmation may go several ways, where a map has no order of its own. -/
structure SubmitStore where
  State : Type
  start : State
  Admits : State → TxHash → Prop
  receive : State → MempoolTx EraCbor → Except MempoolError State
  hasPending : State → Bool
  peekPending : State → List (MempoolTx EraCbor)
  markInflight : State → List TxHash → State
  markAcknowledged : State → List TxHash → State
  findInflight : State → TxHash → Option (MempoolTx EraCbor)
  Confirms : State → ConfirmCall → State → Prop

/-- The store on tables. -/
def redbStore : SubmitStore where
  State := RedbMempool EraCbor
  start := .default
  Admits _ _ := True
  receive := RedbMempool.receive
  hasPending store := store.pending.entries ≠ []
  peekPending := RedbMempool.peekPending
  markInflight := RedbMempool.markInflight
  markAcknowledged := RedbMempool.markAcknowledged
  findInflight := RedbMempool.findInflight
  Confirms store call next := store.confirm call = next

/-- The in-memory store. It takes a transaction again that is inflight, which its callers are
not to submit. -/
def ephemeralStore : SubmitStore where
  State := MempoolState EraCbor
  start := .default
  Admits state hash := state.findInflight hash = none
  receive := MempoolState.receive
  hasPending state := state.pending ≠ []
  peekPending state := state.pending
  markInflight := MempoolState.markInflight
  markAcknowledged := MempoolState.markAcknowledged
  findInflight := MempoolState.findInflight
  Confirms state call next :=
    ∃ order, order.Perm state.promoted.acknowledged.keys ∧ state.confirm order call = next

/-- The transaction era number is one below that of the block. -/
def toN2nEra (era : Fin (2 ^ 16)) : Fin (2 ^ 16) :=
  ⟨(era.val + (2 ^ 16 - 1)) % 2 ^ 16, Nat.mod_lt _ (by decide)⟩

structure TxIdAndSize where
  era : Fin (2 ^ 16)
  hash : TxHash
  size : ℕ
  deriving DecidableEq

structure EraTxBody where
  era : Fin (2 ^ 16)
  cbor : Bytes
  deriving DecidableEq

def toN2nReply (tx : MempoolTx EraCbor) : TxIdAndSize :=
  ⟨toN2nEra tx.payload.era, tx.hash, tx.payload.cbor.length % 2 ^ 32⟩

def toN2nBody (tx : MempoolTx EraCbor) : EraTxBody := ⟨toN2nEra tx.payload.era, tx.payload.cbor⟩

inductive Request where
  | txIds (ack req : Fin (2 ^ 16))
  | txIdsNonBlocking (ack req : Fin (2 ^ 16))
  | txs (ids : List TxHash)

/-- The ids that a request acknowledges. -/
def Request.ack : Request → ℕ
  | txIds ack _ => ack
  | txIdsNonBlocking ack _ => ack
  | txs _ => 0

structure Worker where
  unfulfilledRequest : Option (Fin (2 ^ 16))
  propagatedHashes : List TxHash

def Worker.bootstrap : Worker := ⟨none, []⟩

/-- The hashes that `acknowledge_propagated` drains. -/
def Worker.acked (worker : Worker) (count : ℕ) : List TxHash :=
  worker.propagatedHashes.take (min count worker.propagatedHashes.length)

/-- Where the worker is in `schedule` and `execute`, up to the next call it makes. -/
inductive Phase where
  | schedule
  | execute (unit : Request)
  | fulfil (req : Fin (2 ^ 16))
  | peek (blocking : Bool) (req : Fin (2 ^ 16))
  | mark (blocking : Bool) (req : Fin (2 ^ 16)) (txs : List (MempoolTx EraCbor))
  | replyTxIds (blocking : Bool) (req : Fin (2 ^ 16)) (txs : List (MempoolTx EraCbor))
  | collect (ids rest : List TxHash) (found : List (MempoolTx EraCbor))

/-- The transactions that are marked inflight and not sent yet. -/
def Phase.underway : Phase → List (MempoolTx EraCbor)
  | replyTxIds _ _ txs => txs
  | _ => []

/-- The store, the worker, and the ids that the peer has been sent in the session and has
not acknowledged. -/
structure World (store : SubmitStore) where
  mempool : store.State
  worker : Worker
  phase : Phase
  window : List TxHash

def World.start (store : SubmitStore) : World store := ⟨store.start, .bootstrap, .schedule, []⟩

/-- What a step shows: transactions that enter the queue, by a submission or by a rollback, and
that leave it for the peer, the replies, the hashes passed on as acknowledged, and the end of
a session with what was marked and not sent. -/
inductive Event where
  | internal
  | submitted (tx : MempoolTx EraCbor)
  | retried (txs : List (MempoolTx EraCbor))
  | taken (txs : List (MempoolTx EraCbor))
  | announced (blocking : Bool) (req : Fin (2 ^ 16)) (txs : List (MempoolTx EraCbor))
  | acknowledged (hashes : List TxHash)
  | served (ids : List TxHash) (bodies : List EraTxBody)
  | broken (lost : List (MempoolTx EraCbor))

/-- The steps of the worker, of the peer and of the threads beside them. -/
inductive Step {store : SubmitStore} : World store → Event → World store → Prop where
  | submit {world : World store} {hash : TxHash} {payload : EraCbor} {next : store.State}
      (admits : store.Admits world.mempool hash)
      (received : store.receive world.mempool (.new hash payload) = .ok next) :
      Step world (.submitted (.new hash payload)) { world with mempool := next }
  | confirm {world : World store} {call : ConfirmCall} {next : store.State}
      (confirmed : store.Confirms world.mempool call next) :
      Step world
        (.retried ((store.peekPending next).drop (store.peekPending world.mempool).length))
        { world with mempool := next }
  | request {world : World store} {unit : Request} (idle : world.phase = .schedule)
      (fulfilled : world.worker.unfulfilledRequest = none) :
      Step world .internal
        { world with phase := .execute unit, window := world.window.drop unit.ack }
  | scheduleAgain {world : World store} {req : Fin (2 ^ 16)} (idle : world.phase = .schedule)
      (unfulfilled : world.worker.unfulfilledRequest = some req)
      (pending : store.hasPending world.mempool) :
      Step world .internal
        { world with
          worker := { world.worker with unfulfilledRequest := none }
          phase := .execute (.txIds 0 req) }
  | acknowledge {world : World store} {ack req : Fin (2 ^ 16)}
      (phase : world.phase = .execute (.txIds ack req)) :
      Step world (.acknowledged (world.worker.acked ack))
        { world with
          mempool := if world.worker.acked ack = [] then world.mempool
            else store.markAcknowledged world.mempool (world.worker.acked ack)
          worker := { world.worker with
            propagatedHashes := world.worker.propagatedHashes.drop (world.worker.acked ack).length }
          phase := .fulfil req }
  | acknowledgeNonBlocking {world : World store} {ack req : Fin (2 ^ 16)}
      (phase : world.phase = .execute (.txIdsNonBlocking ack req)) :
      Step world (.acknowledged (world.worker.acked ack))
        { world with
          mempool := if world.worker.acked ack = [] then world.mempool
            else store.markAcknowledged world.mempool (world.worker.acked ack)
          worker := { world.worker with
            propagatedHashes := world.worker.propagatedHashes.drop (world.worker.acked ack).length }
          phase := .peek false req }
  | fulfil {world : World store} {req : Fin (2 ^ 16)} (phase : world.phase = .fulfil req)
      (pending : store.hasPending world.mempool) :
      Step world .internal { world with phase := .peek true req }
  | postpone {world : World store} {req : Fin (2 ^ 16)} (phase : world.phase = .fulfil req)
      (empty : ¬ store.hasPending world.mempool) :
      Step world .internal
        { world with
          worker := { world.worker with unfulfilledRequest := some req }
          phase := .schedule }
  | peek {world : World store} {blocking : Bool} {req : Fin (2 ^ 16)}
      (phase : world.phase = .peek blocking req) :
      Step world .internal
        { world with phase := .mark blocking req ((store.peekPending world.mempool).take req) }
  | mark {world : World store} {blocking : Bool} {req : Fin (2 ^ 16)}
      {txs : List (MempoolTx EraCbor)} (phase : world.phase = .mark blocking req txs) :
      Step world (.taken txs)
        { world with
          mempool := store.markInflight world.mempool (txs.map MempoolTx.hash)
          worker := { world.worker with
            propagatedHashes := world.worker.propagatedHashes ++ txs.map MempoolTx.hash }
          phase := .replyTxIds blocking req txs }
  | replyTxIds {world : World store} {blocking : Bool} {req : Fin (2 ^ 16)}
      {txs : List (MempoolTx EraCbor)} (phase : world.phase = .replyTxIds blocking req txs) :
      Step world (.announced blocking req txs)
        { world with
          phase := .schedule
          window := world.window ++ (txs.map toN2nReply).map TxIdAndSize.hash }
  | requestTxs {world : World store} {ids : List TxHash}
      (phase : world.phase = .execute (.txs ids)) :
      Step world .internal { world with phase := .collect ids ids [] }
  | findInflight {world : World store} {ids rest : List TxHash} {id : TxHash}
      {found : List (MempoolTx EraCbor)} (phase : world.phase = .collect ids (id :: rest) found) :
      Step world .internal
        { world with
          phase := .collect ids rest (found ++ (store.findInflight world.mempool id).toList) }
  | replyTxs {world : World store} {ids : List TxHash} {found : List (MempoolTx EraCbor)}
      (phase : world.phase = .collect ids [] found) :
      Step world (.served ids (found.map toN2nBody)) { world with phase := .schedule }
  | restart {world : World store} :
      Step world (.broken world.phase.underway)
        { world with worker := .bootstrap, phase := .schedule, window := [] }

/-- The runs from an empty mempool, with what they have shown. -/
inductive Reaches {store : SubmitStore} : World store → List Event → Prop where
  | start : Reaches (.start store) []
  | step {world next : World store} {events : List Event} {event : Event}
      (reaches : Reaches world events) (step : Step world event next) :
      Reaches next (events ++ [event])

end Dolos.Submit
