import Dolos.Core.MempoolConfirm
import Dolos.Lib.KeyedList

/-!
# The two mempool stores side by side

Both stores take the same calls. The in-memory one keeps inflight transactions in a
vector until a peer acknowledges them and in a hash map from then on, and a
confirmation moves all of them to the map; the other one has a single table with the
stage in the record. The hash map may give its keys in any order, so transactions
retried by one confirmation may be queued in a different order.

A transaction that is sent again while it is inflight is refused by one store only,
and one that a confirmation has met before its peer's answer is acknowledged by the
other only.
-/

namespace Dolos

open KeyedList

section Both

variable {P : Type}

/-- The stores, what the last call returned, and by which call each transaction was
queued last. -/
structure BothStores (P : Type) where
  ephemeral : MempoolState P
  redb : RedbMempool P
  ephemeralResult : Except MempoolError Unit
  redbResult : Except MempoolError Unit
  calls : ℕ
  queuedAt : TxHash → ℕ

def pendingHashes (txs : List (MempoolTx P)) : List TxHash := txs.map MempoolTx.hash

namespace BothStores

def start : BothStores P := ⟨.default, .default, .ok (), .ok (), 0, fun _ => 0⟩

def queuedAfter (before : BothStores P) (after : List (MempoolTx P)) (hash : TxHash) : ℕ :=
  if hash ∈ pendingHashes after ∧ hash ∉ pendingHashes before.redb.peekPending then
    before.calls + 1
  else before.queuedAt hash

/-- The same call to both stores. -/
def performed (before : BothStores P) (order : List TxHash) (call : MempoolCall P) :
    BothStores P where
  ephemeral := (before.ephemeral.perform order call).2
  redb := (before.redb.perform call).2
  ephemeralResult := (before.ephemeral.perform order call).1
  redbResult := (before.redb.perform call).1
  calls := before.calls + 1
  queuedAt := before.queuedAfter (before.redb.perform call).2.peekPending

def Performs (before : BothStores P) (call : MempoolCall P) (after : BothStores P) : Prop :=
  ∃ order, order.Perm before.ephemeral.promoted.acknowledged.keys ∧
    after = before.performed order call

def IsRun : BothStores P → List (MempoolCall P × BothStores P) → Prop
  | _, [] => True
  | before, (call, after) :: rest => before.Performs call after ∧ IsRun after rest

/-- A client cannot tell the stores apart, but for the order of transactions that one
call has queued. -/
structure Agree (both : BothStores P) : Prop where
  results : both.ephemeralResult = both.redbResult
  pending : both.ephemeral.pending.Perm both.redb.peekPending
  ephemeralOrder : both.ephemeral.pending.Pairwise fun earlier later =>
    both.queuedAt earlier.hash ≤ both.queuedAt later.hash
  redbOrder : both.redb.peekPending.Pairwise fun earlier later =>
    both.queuedAt earlier.hash ≤ both.queuedAt later.hash
  inflight : ∀ hash, both.ephemeral.findInflight hash = both.redb.findInflight hash
  listed : ∀ tx, tx ∈ both.ephemeral.peekInflight ↔ tx ∈ both.redb.peekInflight
  status : ∀ hash, both.ephemeral.checkStatus hash = both.redb.checkStatus hash
  ephemeralDisjoint : ∀ tx ∈ both.ephemeral.pending, both.ephemeral.findInflight tx.hash = none
  redbDisjoint : ∀ tx ∈ both.redb.peekPending, both.redb.findInflight tx.hash = none

/-- The calls that both stores treat alike: a new transaction is made for the store and
not inflight, no transaction is acknowledged that a confirmation has met before, and
the point of a first confirmation survives its encoding. -/
def Meets (before : BothStores P) : MempoolCall P → Prop
  | .receive tx => tx.hash ∉ pendingHashes before.redb.peekPending →
      tx = .new tx.hash tx.payload ∧ before.redb.findInflight tx.hash = none
  | .markInflight _ => True
  | .markAcknowledged hashes => ∀ hash ∈ hashes, ∀ tx,
      before.ephemeral.acknowledged.get? hash = some tx → tx.stage ≠ .propagated
  | .confirm call => ∀ hash ∈ call.seenTxs, ∀ tx, before.redb.findInflight hash = some tx →
      tx.confirmedAt = none → tx.confirmations + 1 < call.finalizeThreshold →
      ChainPoint.fromBytes call.point.intoBytes = call.point

def RunMeets : BothStores P → List (MempoolCall P × BothStores P) → Prop
  | _, [] => True
  | before, (call, after) :: rest => before.Meets call ∧ RunMeets after rest

/-- The two queues hold the same transactions, in the order of the calls. -/
structure QueueLinked (both : BothStores P) : Prop where
  pending : both.ephemeral.pending.Perm both.redb.peekPending
  once : (pendingHashes both.ephemeral.pending).Nodup
  ephemeralOrder : both.ephemeral.pending.Pairwise fun earlier later =>
    both.queuedAt earlier.hash ≤ both.queuedAt later.hash
  redbOrder : both.redb.peekPending.Pairwise fun earlier later =>
    both.queuedAt earlier.hash ≤ both.queuedAt later.hash
  bounded : ∀ tx ∈ both.redb.peekPending, both.queuedAt tx.hash ≤ both.calls

/-- How the two states belong together. -/
structure Linked (both : BothStores P) : Prop where
  queue : both.QueueLinked
  inflight : ∀ hash, both.ephemeral.findInflight hash = both.redb.findInflight hash
  sentOnce : (both.ephemeral.inflight.map MempoolTx.hash).Nodup
  sent : ∀ tx ∈ both.ephemeral.inflight,
    tx = { MempoolTx.new tx.hash tx.payload with stage := .propagated }
  apart : ∀ tx ∈ both.ephemeral.inflight, both.ephemeral.acknowledged.get? tx.hash = none
  keyed : ∀ hash tx, both.ephemeral.acknowledged.get? hash = some tx → tx.hash = hash
  stamped : ∀ hash tx, both.redb.findInflight hash = some tx → tx.stage = .confirmed →
    tx.confirmedAt.isSome
  disjoint : ∀ tx ∈ both.redb.peekPending, both.redb.findInflight tx.hash = none

end BothStores

end Both

namespace MempoolState

variable {P : Type} {state : MempoolState P}

theorem findInflight_eq (hash : TxHash) : state.findInflight hash =
    (find MempoolTx.hash state.inflight hash).or (state.acknowledged.get? hash) := rfl

/-- Promotion changes where a transaction is found, not what is found. -/
theorem get?_promoted_eq (sentOnce : (state.inflight.map MempoolTx.hash).Nodup) (hash : TxHash) :
    state.promoted.acknowledged.get? hash = state.findInflight hash := by
  rw [promoted, get?_insertAll sentOnce, Option.map_id', findInflight_eq]

theorem mem_peekInflight (sentOnce : (state.inflight.map MempoolTx.hash).Nodup)
    (apart : ∀ tx ∈ state.inflight, state.acknowledged.get? tx.hash = none)
    (keyed : ∀ hash tx, state.acknowledged.get? hash = some tx → tx.hash = hash)
    (tx : MempoolTx P) : tx ∈ state.peekInflight ↔ state.findInflight tx.hash = some tx := by
  rw [peekInflight, List.mem_append, findInflight_eq, Option.or_eq_some_iff,
    find_eq_some_iff sentOnce, find_eq_none_iff]
  constructor
  · rintro (isSent | isAcknowledged)
    · exact Or.inl ⟨isSent, rfl⟩
    · rcases List.mem_map.mp isAcknowledged with ⟨entry, isEntry, rfl⟩
      have held := OrderedMap.mem_entries_iff.mp isEntry
      have hashEq := keyed entry.1 entry.2 held
      refine Or.inr ⟨?_, hashEq ▸ held⟩
      intro alsoSent
      rcases List.mem_map.mp alsoSent with ⟨other, isOther, sameHash⟩
      have absent := apart other isOther
      rw [sameHash, hashEq, held] at absent
      cases absent
  · rintro (⟨isSent, _⟩ | ⟨_, held⟩)
    · exact Or.inl isSent
    · exact Or.inr (List.mem_map.mpr ⟨_, OrderedMap.mem_entries_iff.mpr held, rfl⟩)

theorem any_pending (hash : TxHash) :
    state.pending.any (fun tx => tx.hash = hash) = decide (hash ∈ pendingHashes state.pending) := by
  rw [Bool.eq_iff_iff, decide_eq_true_eq, List.any_eq_true, pendingHashes, List.mem_map]
  constructor
  · rintro ⟨tx, member, same⟩
    exact ⟨tx, member, of_decide_eq_true same⟩
  · rintro ⟨tx, member, same⟩
    exact ⟨tx, member, decide_eq_true same⟩

end MempoolState

namespace RedbMempool

variable {P : Type} {store : RedbMempool P}

theorem contains_pending (hash : TxHash) : PendingTable.contains store.pending hash =
    decide (hash ∈ pendingHashes store.peekPending) := by
  rw [Bool.eq_iff_iff, decide_eq_true_eq, PendingTable.contains, List.any_eq_true, pendingHashes,
    peekPending, PendingTable.peek, List.map_map, List.mem_map]
  constructor
  · rintro ⟨entry, member, same⟩
    exact ⟨entry, member, of_decide_eq_true same⟩
  · rintro ⟨entry, member, same⟩
    exact ⟨entry, member, decide_eq_true same⟩

theorem made_of_mem_peekPending {tx : MempoolTx P} (member : tx ∈ store.peekPending) :
    tx = .new tx.hash tx.payload := by
  rcases List.mem_map.mp member with ⟨entry, _, rfl⟩
  rfl

theorem mem_peekInflight (tx : MempoolTx P) :
    tx ∈ store.peekInflight ↔ store.findInflight tx.hash = some tx := by
  rw [peekInflight, findInflight, List.mem_map, Option.map_eq_some_iff]
  constructor
  · rintro ⟨entry, member, rfl⟩
    exact ⟨entry.2, OrderedMap.mem_entries_iff.mp member, rfl⟩
  · rintro ⟨record, held, same⟩
    exact ⟨(tx.hash, record), OrderedMap.mem_entries_iff.mpr held, same⟩

end RedbMempool

namespace BothStores

variable {P : Type} {before : BothStores P}

theorem QueueLinked.mem_pendingHashes {both : BothStores P} (linked : both.QueueLinked)
    (hash : TxHash) : hash ∈ pendingHashes both.ephemeral.pending ↔
      hash ∈ pendingHashes both.redb.peekPending :=
  (linked.pending.map MempoolTx.hash).mem_iff

/-- A queue keeps some of its transactions and gets others at its end. -/
theorem order_after {queue added after : List (MempoolTx P)} {keep : MempoolTx P → Bool}
    (sameHashes : ∀ hash, hash ∈ pendingHashes after ↔
      hash ∈ pendingHashes (queue.filter keep ++ added))
    (known : ∀ tx ∈ queue, tx.hash ∈ pendingHashes before.redb.peekPending)
    (new : ∀ tx ∈ added, tx.hash ∉ pendingHashes before.redb.peekPending)
    (sorted : queue.Pairwise fun earlier later =>
      before.queuedAt earlier.hash ≤ before.queuedAt later.hash)
    (bounded : ∀ tx ∈ queue, before.queuedAt tx.hash ≤ before.calls) :
    (queue.filter keep ++ added).Pairwise (fun earlier later =>
        before.queuedAfter after earlier.hash ≤ before.queuedAfter after later.hash) ∧
      ∀ tx ∈ queue.filter keep ++ added, before.queuedAfter after tx.hash ≤ before.calls + 1 := by
  have old : ∀ tx ∈ queue, before.queuedAfter after tx.hash = before.queuedAt tx.hash := by
    intro tx member
    rw [queuedAfter, if_neg]
    intro newly
    exact newly.2 (known tx member)
  have late : ∀ tx ∈ added, before.queuedAfter after tx.hash = before.calls + 1 := by
    intro tx member
    rw [queuedAfter, if_pos]
    refine ⟨(sameHashes tx.hash).mpr ?_, new tx member⟩
    exact List.mem_map_of_mem (List.mem_append_right _ member)
  refine ⟨List.pairwise_append.mpr ⟨?_, ?_, ?_⟩, ?_⟩
  · apply (sorted.filter keep).imp_of_mem
    intro earlier later isEarlier isLater inOrder
    rw [old earlier (List.mem_of_mem_filter isEarlier), old later (List.mem_of_mem_filter isLater)]
    exact inOrder
  · apply List.pairwise_iff_forall_sublist.mpr
    intro earlier later sublist
    rw [late earlier (sublist.subset List.mem_cons_self),
      late later (sublist.subset (List.mem_cons_of_mem _ List.mem_cons_self))]
  · intro earlier isEarlier later isLater
    have isOld := List.mem_of_mem_filter isEarlier
    have boundedOld := bounded earlier isOld
    rw [old earlier isOld, late later isLater]
    omega
  · intro tx member
    rcases List.mem_append.mp member with kept | isNew
    · have isOld := List.mem_of_mem_filter kept
      have boundedOld := bounded tx isOld
      rw [old tx isOld]
      omega
    · rw [late tx isNew]

/-- What a call does to the two queues. -/
theorem QueueLinked.step (linked : before.QueueLinked) {after : BothStores P}
    {keep : MempoolTx P → Bool} {ephemeralAdded redbAdded : List (MempoolTx P)}
    (callsEq : after.calls = before.calls + 1)
    (queuedAtEq : after.queuedAt = before.queuedAfter after.redb.peekPending)
    (ephemeralEq : after.ephemeral.pending = before.ephemeral.pending.filter keep ++ ephemeralAdded)
    (redbEq : after.redb.peekPending = before.redb.peekPending.filter keep ++ redbAdded)
    (sameAdded : ephemeralAdded.Perm redbAdded)
    (addedOnce : (pendingHashes ephemeralAdded).Nodup)
    (new : ∀ tx ∈ ephemeralAdded, tx.hash ∉ pendingHashes before.redb.peekPending) :
    after.QueueLinked := by
  have perm : after.ephemeral.pending.Perm after.redb.peekPending := by
    rw [ephemeralEq, redbEq]
    exact (linked.pending.filter keep).append sameAdded
  have newRedb : ∀ tx ∈ redbAdded, tx.hash ∉ pendingHashes before.redb.peekPending :=
    fun tx member => new tx (sameAdded.mem_iff.mpr member)
  have sameHashes : ∀ hash, hash ∈ pendingHashes after.redb.peekPending ↔
      hash ∈ pendingHashes (before.ephemeral.pending.filter keep ++ ephemeralAdded) := by
    intro hash
    rw [← ephemeralEq]
    exact (perm.map MempoolTx.hash).mem_iff.symm
  have ephemeralSide := @order_after P before _ ephemeralAdded _ keep sameHashes
    (fun tx member => (linked.mem_pendingHashes tx.hash).mp (List.mem_map_of_mem member)) new
    linked.ephemeralOrder (fun tx member => linked.bounded tx (linked.pending.mem_iff.mp member))
  have redbSide := @order_after P before _ redbAdded after.redb.peekPending keep
    (fun hash => by rw [redbEq]) (fun tx member => List.mem_map_of_mem member) newRedb
    linked.redbOrder linked.bounded
  refine ⟨perm, ?_, ?_, ?_, ?_⟩
  · rw [ephemeralEq, pendingHashes, List.map_append]
    apply List.Nodup.append
    · exact linked.once.sublist (List.Sublist.map _ List.filter_sublist)
    · exact addedOnce
    · intro hash isOld isNew
      rcases List.mem_map.mp isNew with ⟨tx, isAdded, rfl⟩
      apply new tx isAdded
      apply (linked.mem_pendingHashes tx.hash).mp
      rcases List.mem_map.mp isOld with ⟨held, isHeld, sameHash⟩
      exact List.mem_map.mpr ⟨held, List.mem_of_mem_filter isHeld, sameHash⟩
  · rw [ephemeralEq, queuedAtEq]
    exact ephemeralSide.1
  · rw [queuedAtEq, redbEq]
    rw [redbEq] at redbSide
    exact redbSide.1
  · rw [queuedAtEq, callsEq, redbEq]
    rw [redbEq] at redbSide
    exact redbSide.2

theorem status_eq {both : BothStores P} (linked : both.Linked) (hash : TxHash) :
    both.ephemeral.checkStatus hash = both.redb.checkStatus hash := by
  have same := linked.inflight hash
  rw [MempoolState.findInflight_eq, RedbMempool.findInflight] at same
  unfold MempoolState.checkStatus RedbMempool.checkStatus
  have sentEq : (both.ephemeral.inflight.find? fun tx => tx.hash = hash) =
      find MempoolTx.hash both.ephemeral.inflight hash := rfl
  rw [sentEq]
  cases isSent : find MempoolTx.hash both.ephemeral.inflight hash with
  | some tx =>
      rcases mem_of_find isSent with ⟨member, rfl⟩
      have fresh := linked.sent tx member
      rw [isSent, Option.some_or] at same
      rw [linked.apart tx member]
      rcases Option.map_eq_some_iff.mp same.symm with ⟨record, held, txEq⟩
      rw [held]
      have status : record.toTxStatus = ⟨tx.stage, tx.confirmations, tx.nonConfirmations,
          tx.confirmedAt⟩ := by
        rw [← txEq]
        rfl
      have noConfirmations := congrArg MempoolTx.confirmations fresh
      have noMisses := congrArg MempoolTx.nonConfirmations fresh
      have unstamped := congrArg MempoolTx.confirmedAt fresh
      change (⟨tx.stage, 0, 0, none⟩ : TxStatus) = record.toTxStatus
      rw [status, noConfirmations, noMisses, unstamped]
      rfl
  | none =>
      rw [isSent, Option.none_or] at same
      rw [same]
      cases held : both.redb.inflight.get? hash with
      | some record => rfl
      | none =>
          rw [RedbMempool.contains_pending, MempoolState.any_pending]
          simp only [Option.map_none, linked.queue.mem_pendingHashes]

theorem agree_of_linked {both : BothStores P} (linked : both.Linked)
    (results : both.ephemeralResult = both.redbResult) : both.Agree where
  results := results
  pending := linked.queue.pending
  ephemeralOrder := linked.queue.ephemeralOrder
  redbOrder := linked.queue.redbOrder
  inflight := linked.inflight
  listed tx := by
    rw [MempoolState.mem_peekInflight linked.sentOnce linked.apart linked.keyed,
      RedbMempool.mem_peekInflight, linked.inflight]
  status := status_eq linked
  ephemeralDisjoint tx member := by
    rw [linked.inflight]
    exact linked.disjoint tx (linked.queue.pending.mem_iff.mp member)
  redbDisjoint := linked.disjoint

theorem made_of_mem_pending {both : BothStores P} (linked : both.QueueLinked) {tx : MempoolTx P}
    (member : tx ∈ both.ephemeral.pending) : tx = .new tx.hash tx.payload :=
  RedbMempool.made_of_mem_peekPending (linked.pending.mem_iff.mp member)

section Receive

variable {tx : MempoolTx P} {order : List TxHash}

/-- A queued transaction is refused by both stores. -/
theorem performed_receive_queued (linked : before.QueueLinked)
    (queued : tx.hash ∈ pendingHashes before.redb.peekPending) :
    before.performed order (.receive tx) =
      ⟨before.ephemeral, before.redb, .error .duplicateTx, .error .duplicateTx, before.calls + 1,
        before.queuedAfter before.redb.peekPending⟩ := by
  have ephemeralRefused : before.ephemeral.receive tx = .error .duplicateTx := by
    rw [MempoolState.receive, MempoolState.any_pending, if_pos]
    exact decide_eq_true ((linked.mem_pendingHashes tx.hash).mpr queued)
  have redbRefused : before.redb.receive tx = .error .duplicateTx := by
    rw [RedbMempool.receive, RedbMempool.contains_pending, if_pos]
    exact decide_eq_true queued
  simp only [performed, MempoolState.perform, RedbMempool.perform, ephemeralRefused, redbRefused,
    returned]

theorem ephemeral_receive (linked : before.QueueLinked)
    (notQueued : tx.hash ∉ pendingHashes before.redb.peekPending) :
    before.ephemeral.receive tx =
      .ok { before.ephemeral with pending := before.ephemeral.pending ++ [tx] } := by
  rw [MempoolState.receive, MempoolState.any_pending, if_neg]
  intro queued
  exact notQueued ((linked.mem_pendingHashes tx.hash).mp (of_decide_eq_true queued))

theorem redb_receive (notQueued : tx.hash ∉ pendingHashes before.redb.peekPending) :
    before.redb.receive tx =
      if (before.redb.findInflight tx.hash).isSome then .error .duplicateTx
      else .ok { before.redb with
        pending := PendingTable.insert before.redb.pending tx.hash tx.payload } := by
  rw [RedbMempool.receive, RedbMempool.contains_pending, if_neg, RedbMempool.findInflight,
    Option.isSome_map]
  intro queued
  exact notQueued (of_decide_eq_true queued)

theorem linked_receive (linked : before.Linked) (meets : before.Meets (.receive tx)) :
    (before.performed order (.receive tx)).Linked ∧
      (before.performed order (.receive tx)).ephemeralResult =
        (before.performed order (.receive tx)).redbResult := by
  by_cases queued : tx.hash ∈ pendingHashes before.redb.peekPending
  · rw [performed_receive_queued linked.queue queued]
    refine ⟨⟨?_, linked.inflight, linked.sentOnce, linked.sent, linked.apart, linked.keyed,
      linked.stamped, linked.disjoint⟩, rfl⟩
    apply @QueueLinked.step P before linked.queue _ (fun _ => true) [] []
    · rfl
    · rfl
    · simp
    · simp
    · exact List.Perm.nil
    · exact List.nodup_nil
    · intro tx member
      cases member
  · rcases meets queued with ⟨made, notInflight⟩
    have ephemeralEq := ephemeral_receive linked.queue queued
    have redbEq := @redb_receive P before tx queued
    rw [notInflight, Option.isSome_none, if_neg Bool.false_ne_true] at redbEq
    have peeked := PendingTable.peek_insert before.redb.pending tx.hash tx.payload
    rw [← made] at peeked
    simp only [performed, MempoolState.perform, RedbMempool.perform, ephemeralEq, redbEq, returned]
    refine ⟨⟨?_, linked.inflight, linked.sentOnce, linked.sent, linked.apart, linked.keyed,
      linked.stamped, ?_⟩, trivial⟩
    · apply @QueueLinked.step P before linked.queue _ (fun _ => true) [tx] [tx]
      · rfl
      · rfl
      · simp
      · rw [List.filter_true]
        exact peeked
      · exact List.Perm.refl _
      · exact List.nodup_singleton _
      · intro added member
        rw [List.mem_singleton.mp member]
        exact queued
    · intro held member
      change held ∈ PendingTable.peek (PendingTable.insert before.redb.pending tx.hash tx.payload)
        at member
      rw [peeked] at member
      rcases List.mem_append.mp member with old | new
      · exact linked.disjoint held old
      · rw [List.mem_singleton.mp new]
        exact notInflight

end Receive

section MarkInflight

variable {hashes order : List TxHash}

theorem peekPending_markInflight (store : RedbMempool P) (hashes : List TxHash) :
    (store.markInflight hashes).peekPending =
      store.peekPending.filter fun tx => tx.hash ∉ hashes := by
  change (store.pending.entries.filter _).map _ = (store.pending.entries.map _).filter _
  rw [List.filter_map]
  rfl

/-- What goes inflight under a hash. -/
def sentNow (before : BothStores P) (hashes : List TxHash) (hash : TxHash) :
    Option (MempoolTx P) :=
  if hash ∈ hashes then find MempoolTx.hash before.ephemeral.pending hash else none

theorem findInflight_markInflight_ephemeral (hash : TxHash) :
    (before.ephemeral.markInflight hashes).findInflight hash =
      ((find MempoolTx.hash before.ephemeral.inflight hash).or
        ((before.sentNow hashes hash).map fun tx => { tx with stage := .propagated })).or
        (before.ephemeral.acknowledged.get? hash) := by
  have moved := find_map MempoolTx.hash
    (before.ephemeral.pending.filter fun tx => tx.hash ∈ hashes)
    (fun tx => { tx with stage := MempoolTxStage.propagated }) (fun _ => rfl) hash
  have filtered := find_filter MempoolTx.hash before.ephemeral.pending
    (fun hash => decide (hash ∈ hashes)) hash
  rw [MempoolState.findInflight_eq, MempoolState.markInflight, find_append, moved, filtered]
  simp only [sentNow, decide_eq_true_eq]

theorem findInflight_markInflight_redb (linked : before.QueueLinked) (hash : TxHash) :
    (before.redb.markInflight hashes).findInflight hash =
      ((before.sentNow hashes hash).map fun tx =>
        { MempoolTx.new hash tx.payload with stage := .propagated }).or
        (before.redb.findInflight hash) := by
  have written : (before.redb.markInflight hashes).inflight = before.redb.inflight.insertAll
      ((before.redb.peekPending.filter fun tx => tx.hash ∈ hashes).map
        fun tx => (tx.hash, InflightRecord.new tx.payload)) := by
    rw [RedbMempool.peekPending, PendingTable.peek, List.filter_map, List.map_map]
    simp only [RedbMempool.markInflight, PendingTable.drainByHashes, List.map_map]
    rfl
  have redbOnce : (before.redb.peekPending.map MempoolTx.hash).Nodup :=
    (linked.pending.map MempoolTx.hash).nodup_iff.mp linked.once
  have filtered := find_filter MempoolTx.hash before.redb.peekPending
    (fun hash => decide (hash ∈ hashes)) hash
  rw [RedbMempool.findInflight, written, get?_insertAll, filtered]
  · rw [← find_perm linked.once linked.pending hash, RedbMempool.findInflight, sentNow]
    simp only [decide_eq_true_eq, Option.map_or, Option.map_map]
    rfl
  · exact redbOnce.sublist (List.Sublist.map _ List.filter_sublist)

theorem sentNow_eq_some (linked : before.Linked) {hash : TxHash} {tx : MempoolTx P}
    (isSent : before.sentNow hashes hash = some tx) :
    hash ∈ hashes ∧ tx.hash = hash ∧ tx ∈ before.ephemeral.pending ∧
      before.ephemeral.findInflight hash = none := by
  unfold sentNow at isSent
  split_ifs at isSent with listed
  rcases mem_of_find isSent with ⟨member, rfl⟩
  refine ⟨listed, rfl, member, ?_⟩
  rw [linked.inflight]
  exact linked.disjoint tx (linked.queue.pending.mem_iff.mp member)

theorem linked_markInflight (linked : before.Linked) :
    (before.performed order (.markInflight hashes)).Linked := by
  have fresh : ∀ tx ∈ before.ephemeral.pending,
      ({ tx with stage := .propagated } : MempoolTx P) =
        { MempoolTx.new tx.hash tx.payload with stage := .propagated } := by
    intro tx member
    have made := made_of_mem_pending linked.queue member
    conv_lhs => rw [made]
  have absent : ∀ tx ∈ before.ephemeral.pending,
      tx.hash ∉ before.ephemeral.inflight.map MempoolTx.hash ∧
        before.ephemeral.acknowledged.get? tx.hash = none := by
    intro tx member
    have none := linked.disjoint tx (linked.queue.pending.mem_iff.mp member)
    rw [← linked.inflight, MempoolState.findInflight_eq, Option.or_eq_none_iff] at none
    exact ⟨find_eq_none_iff.mp none.1, none.2⟩
  refine ⟨?_, ?_, ?_, ?_, ?_, linked.keyed, ?_, ?_⟩
  · apply @QueueLinked.step P before linked.queue _ (fun tx => tx.hash ∉ hashes) [] []
    · rfl
    · rfl
    · simp [performed, MempoolState.perform, MempoolState.markInflight]
    · simp [performed, RedbMempool.perform, peekPending_markInflight]
    · exact List.Perm.nil
    · exact List.nodup_nil
    · intro tx member
      cases member
  · intro hash
    change (before.ephemeral.markInflight hashes).findInflight hash =
      (before.redb.markInflight hashes).findInflight hash
    rw [findInflight_markInflight_ephemeral, findInflight_markInflight_redb linked.queue]
    cases isSent : before.sentNow hashes hash with
    | none =>
        rw [Option.map_none, Option.map_none, Option.or_none, Option.none_or, ← linked.inflight]
        rfl
    | some tx =>
        rcases sentNow_eq_some linked isSent with ⟨_, rfl, member, _⟩
        rw [find_eq_none_iff.mpr (absent tx member).1]
        simp only [Option.map_some, Option.none_or, Option.some_or, fresh tx member]
  · change ((before.ephemeral.inflight ++ _).map MempoolTx.hash).Nodup
    rw [List.map_append, List.map_map]
    apply List.Nodup.append linked.sentOnce
    · exact linked.queue.once.sublist (List.Sublist.map _ List.filter_sublist)
    · intro hash isOld isNew
      rcases List.mem_map.mp isNew with ⟨tx, isMoved, rfl⟩
      exact (absent tx (List.mem_of_mem_filter isMoved)).1 isOld
  · intro tx member
    rcases List.mem_append.mp member with old | new
    · exact linked.sent tx old
    · rcases List.mem_map.mp new with ⟨moved, isMoved, rfl⟩
      exact fresh moved (List.mem_of_mem_filter isMoved)
  · intro tx member
    rcases List.mem_append.mp member with old | new
    · exact linked.apart tx old
    · rcases List.mem_map.mp new with ⟨moved, isMoved, rfl⟩
      exact (absent moved (List.mem_of_mem_filter isMoved)).2
  · intro hash tx found confirmed
    change (before.redb.markInflight hashes).findInflight hash = some tx at found
    rw [findInflight_markInflight_redb linked.queue] at found
    rcases Option.or_eq_some_iff.mp found with isSent | ⟨_, old⟩
    · rcases Option.map_eq_some_iff.mp isSent with ⟨queued, _, rfl⟩
      cases confirmed
    · exact linked.stamped hash tx old confirmed
  · intro tx member
    change tx ∈ (before.redb.markInflight hashes).peekPending at member
    rw [peekPending_markInflight] at member
    rcases List.mem_filter.mp member with ⟨old, notListed⟩
    change (before.redb.markInflight hashes).findInflight tx.hash = none
    have notSent : before.sentNow hashes tx.hash = none :=
      if_neg (of_decide_eq_true notListed)
    rw [findInflight_markInflight_redb linked.queue, notSent]
    exact linked.disjoint tx old

end MarkInflight

section MarkAcknowledged

variable {hashes order : List TxHash}

def acknowledgedTx (tx : MempoolTx P) : MempoolTx P :=
  if tx.stage = .propagated then { tx with stage := .acknowledged } else tx

theorem findInflight_markAcknowledged_redb (store : RedbMempool P) (hashes : List TxHash)
    (hash : TxHash) :
    (store.markAcknowledged hashes).findInflight hash =
      if hash ∈ hashes then (store.findInflight hash).map acknowledgedTx
      else store.findInflight hash := by
  have client : ∀ record : InflightRecord P, record.acknowledge.1.toMempoolTx hash =
      acknowledgedTx (record.toMempoolTx hash) := by
    intro record
    unfold InflightRecord.acknowledge acknowledgedTx
    cases stage : record.stage with
    | propagated => simp [InflightRecord.toMempoolTx, InflightStage.toTxStage, stage]
    | acknowledged => simp [InflightRecord.toMempoolTx, InflightStage.toTxStage, stage]
    | confirmed => simp [InflightRecord.toMempoolTx, InflightStage.toTxStage, stage]
  rw [RedbMempool.findInflight, RedbMempool.get?_markAcknowledged, RedbMempool.findInflight]
  split_ifs with listed
  · simp only [Option.map_map, Function.comp_def, client]
  · rfl

theorem get?_markAcknowledged_ephemeral (linked : before.Linked) (hash : TxHash) :
    (before.ephemeral.markAcknowledged hashes).acknowledged.get? hash =
      ((if hash ∈ hashes then find MempoolTx.hash before.ephemeral.inflight hash else none).map
        fun tx => { tx with stage := .acknowledged }).or
        (before.ephemeral.acknowledged.get? hash) := by
  have filtered := find_filter MempoolTx.hash before.ephemeral.inflight
    (fun hash => decide (hash ∈ hashes)) hash
  have once : ((before.ephemeral.inflight.filter fun tx => tx.hash ∈ hashes).map
      MempoolTx.hash).Nodup :=
    linked.sentOnce.sublist (List.Sublist.map _ List.filter_sublist)
  rw [MempoolState.markAcknowledged, get?_insertAll once, filtered]
  simp only [decide_eq_true_eq]

theorem findInflight_markAcknowledged_ephemeral (linked : before.Linked) (hash : TxHash) :
    (before.ephemeral.markAcknowledged hashes).findInflight hash =
      if hash ∈ hashes then
        ((find MempoolTx.hash before.ephemeral.inflight hash).map
          fun tx => { tx with stage := .acknowledged }).or
          (before.ephemeral.acknowledged.get? hash)
      else before.ephemeral.findInflight hash := by
  have filtered := find_filter MempoolTx.hash before.ephemeral.inflight
    (fun hash => decide (hash ∉ hashes)) hash
  rw [MempoolState.findInflight_eq, get?_markAcknowledged_ephemeral linked]
  change (find MempoolTx.hash (before.ephemeral.inflight.filter _) hash).or _ = _
  rw [filtered]
  by_cases listed : hash ∈ hashes
  · simp [listed]
  · simp [listed, MempoolState.findInflight_eq]

theorem linked_markAcknowledged (linked : before.Linked)
    (meets : before.Meets (.markAcknowledged hashes)) :
    (before.performed order (.markAcknowledged hashes)).Linked := by
  have stays : ∀ hash, (before.redb.markAcknowledged hashes).findInflight hash = none ↔
      before.redb.findInflight hash = none := by
    intro hash
    rw [findInflight_markAcknowledged_redb]
    split_ifs with listed
    · exact Option.map_eq_none_iff
    · exact Iff.rfl
  refine ⟨?_, ?_, ?_, ?_, ?_, ?_, ?_, ?_⟩
  · apply @QueueLinked.step P before linked.queue _ (fun _ => true) [] []
    · rfl
    · rfl
    · simp [performed, MempoolState.perform, MempoolState.markAcknowledged]
    · rw [List.filter_true, List.append_nil]
      rfl
    · exact List.Perm.nil
    · exact List.nodup_nil
    · intro tx member
      cases member
  · intro hash
    change (before.ephemeral.markAcknowledged hashes).findInflight hash =
      (before.redb.markAcknowledged hashes).findInflight hash
    rw [findInflight_markAcknowledged_ephemeral linked, findInflight_markAcknowledged_redb]
    split_ifs with listed
    · rw [← linked.inflight, MempoolState.findInflight_eq]
      cases isSent : find MempoolTx.hash before.ephemeral.inflight hash with
      | some tx =>
          have propagated := congrArg MempoolTx.stage (linked.sent tx (mem_of_find isSent).1)
          simp only [Option.map_some, Option.some_or, acknowledgedTx]
          rw [if_pos propagated]
      | none =>
          cases held : before.ephemeral.acknowledged.get? hash with
          | none => rfl
          | some tx =>
              have notPropagated := meets hash listed tx held
              simp only [Option.map_none, Option.none_or, Option.map_some, acknowledgedTx]
              rw [if_neg notPropagated]
    · exact linked.inflight hash
  · exact linked.sentOnce.sublist (List.Sublist.map _ List.filter_sublist)
  · intro tx member
    exact linked.sent tx (List.mem_of_mem_filter member)
  · intro tx member
    rcases List.mem_filter.mp member with ⟨isSent, notListed⟩
    change (before.ephemeral.markAcknowledged hashes).acknowledged.get? tx.hash = none
    rw [get?_markAcknowledged_ephemeral linked, if_neg (of_decide_eq_true notListed)]
    exact linked.apart tx isSent
  · intro hash tx held
    change (before.ephemeral.markAcknowledged hashes).acknowledged.get? hash = some tx at held
    rw [get?_markAcknowledged_ephemeral linked] at held
    rcases Option.or_eq_some_iff.mp held with moved | ⟨_, old⟩
    · rcases Option.map_eq_some_iff.mp moved with ⟨source, isSource, rfl⟩
      split_ifs at isSource
      exact (mem_of_find isSource).2
    · exact linked.keyed hash tx old
  · intro hash tx found confirmed
    change (before.redb.markAcknowledged hashes).findInflight hash = some tx at found
    rw [findInflight_markAcknowledged_redb] at found
    split_ifs at found
    · rcases Option.map_eq_some_iff.mp found with ⟨old, foundOld, rfl⟩
      unfold acknowledgedTx at confirmed ⊢
      split_ifs at confirmed ⊢
      exact linked.stamped hash old foundOld confirmed
    · exact linked.stamped hash tx found confirmed
  · intro tx member
    exact (stays tx.hash).mpr (linked.disjoint tx member)

end MarkAcknowledged

section Confirm

variable {call : ConfirmCall} {order : List TxHash}

/-- The transactions a confirmation puts back into the queue. -/
def retriedOver (call : ConfirmCall) (order : List TxHash)
    (find : TxHash → Option (MempoolTx P)) : List (MempoolTx P) :=
  order.filterMap fun hash => (find hash).bind fun tx =>
    ((verdict call hash tx).handed.bind Handed.retried?).map MempoolTx.retry

theorem map_retry_handedOver (order : List TxHash) (find : TxHash → Option (MempoolTx P)) :
    ((handedOver call order find).filterMap Handed.retried?).map MempoolTx.retry =
      retriedOver call order find := by
  rw [handedOver, List.filterMap_filterMap, List.map_filterMap, retriedOver]
  congr 1
  funext hash
  cases find hash with
  | none => rfl
  | some tx => rfl

theorem mem_retriedOver {find : TxHash → Option (MempoolTx P)} {tx : MempoolTx P}
    (member : tx ∈ retriedOver call order find) :
    ∃ hash held, find hash = some held ∧ tx = held.retry ∧
      ((verdict call hash held).handed.bind Handed.retried?) = some held := by
  rcases List.mem_filterMap.mp member with ⟨hash, _, boundEq⟩
  rcases Option.bind_eq_some_iff.mp boundEq with ⟨held, found, mapped⟩
  rcases Option.map_eq_some_iff.mp mapped with ⟨retried, retriedEq, rfl⟩
  have same := eq_of_retried retriedEq
  subst same
  exact ⟨hash, retried, found, rfl, retriedEq⟩

theorem hash_findInflight {hash : TxHash} {tx : MempoolTx P}
    (found : before.redb.findInflight hash = some tx) : tx.hash = hash := by
  rcases Option.map_eq_some_iff.mp found with ⟨record, _, rfl⟩
  rfl

variable (linked : before.Linked)

include linked

theorem promoted_eq (hash : TxHash) :
    before.ephemeral.promoted.acknowledged.get? hash = before.redb.findInflight hash := by
  rw [MempoolState.get?_promoted_eq linked.sentOnce, linked.inflight]

theorem keys_perm : before.ephemeral.promoted.acknowledged.keys.Perm before.redb.inflight.keys := by
  apply (List.perm_ext_iff_of_nodup (OrderedMap.nodup_keys _) (OrderedMap.nodup_keys _)).mpr
  intro hash
  rw [OrderedMap.mem_keys_iff, OrderedMap.mem_keys_iff, promoted_eq linked,
    RedbMempool.findInflight, Option.isSome_map]

/-- Both stores give the same verdicts. -/
theorem verdict_eq (meets : before.Meets (.confirm call)) {hash : TxHash} {tx : MempoolTx P}
    (found : before.redb.findInflight hash = some tx) :
    (verdict call hash tx).kept = (verdict call.decoded hash tx).kept ∧
      (verdict call hash tx).handed.bind Handed.retried? =
        (verdict call.decoded hash tx).handed.bind Handed.retried? := by
  apply verdict_decoded (linked.stamped hash tx found)
  intro seen unstamped shallow
  exact meets hash seen tx found unstamped shallow

theorem findInflight_confirm_ephemeral
    (isOrder : order.Perm before.ephemeral.promoted.acknowledged.keys) (hash : TxHash) :
    (before.ephemeral.confirm order call).findInflight hash =
      (before.redb.findInflight hash).bind fun tx => (verdict call hash tx).kept := by
  rw [MempoolState.findInflight_eq, MempoolState.inflight_confirm isOrder,
    MempoolState.get?_confirm isOrder, promoted_eq linked]
  rfl

theorem linked_confirm (meets : before.Meets (.confirm call))
    (isOrder : order.Perm before.ephemeral.promoted.acknowledged.keys) :
    (before.performed order (.confirm call)).Linked := by
  have sameKept : ∀ hash, ((before.redb.findInflight hash).bind fun tx =>
      (verdict call hash tx).kept) = (before.redb.confirm call).findInflight hash := by
    intro hash
    rw [RedbMempool.findInflight_confirm]
    cases found : before.redb.findInflight hash with
    | none => rfl
    | some tx => exact (verdict_eq linked meets found).1
  have sameRetried : (retriedOver call order before.ephemeral.promoted.acknowledged.get?).Perm
      (retriedOver call.decoded before.redb.inflight.keys before.redb.findInflight) := by
    have sameOver : retriedOver call order before.ephemeral.promoted.acknowledged.get? =
        retriedOver call.decoded order before.redb.findInflight := by
      unfold retriedOver
      congr 1
      funext hash
      rw [promoted_eq linked]
      cases found : before.redb.findInflight hash with
      | none => rfl
      | some tx =>
          simp only [Option.bind_some]
          rw [(verdict_eq linked meets found).2]
    rw [sameOver]
    exact (isOrder.trans (keys_perm linked)).filterMap _
  refine ⟨?_, ?_, ?_, ?_, ?_, ?_, ?_, ?_⟩
  · apply @QueueLinked.step P before linked.queue _ (fun _ => true)
      (retriedOver call order before.ephemeral.promoted.acknowledged.get?)
      (retriedOver call.decoded before.redb.inflight.keys before.redb.findInflight)
    · rfl
    · rfl
    · rw [List.filter_true, ← map_retry_handedOver]
      exact MempoolState.pending_confirm isOrder
    · rw [List.filter_true, ← map_retry_handedOver]
      exact RedbMempool.peekPending_confirm before.redb
    · exact sameRetried
    · have hashOf : ∀ hash shared, shared ∈ ((before.ephemeral.promoted.acknowledged.get? hash).bind
          fun tx => ((verdict call hash tx).handed.bind Handed.retried?).map MempoolTx.retry).map
            MempoolTx.hash → shared = hash := by
        intro hash shared isShared
        rcases Option.map_eq_some_iff.mp isShared with ⟨tx, boundEq, rfl⟩
        rcases Option.bind_eq_some_iff.mp boundEq with ⟨held, found, mapped⟩
        rcases Option.map_eq_some_iff.mp mapped with ⟨retried, retriedEq, rfl⟩
        rw [promoted_eq linked] at found
        have heldHash : held.hash = hash := hash_findInflight found
        rw [eq_of_retried retriedEq]
        exact heldHash
      unfold pendingHashes retriedOver
      rw [List.map_filterMap]
      apply List.Nodup.filterMap
      · intro first second shared isFirst isSecond
        exact (hashOf first shared isFirst).symm.trans (hashOf second shared isSecond)
      · exact isOrder.nodup_iff.mpr (OrderedMap.nodup_keys _)
    · intro tx member
      rcases mem_retriedOver member with ⟨hash, held, found, rfl, _⟩
      rw [promoted_eq linked] at found
      intro queued
      rcases List.mem_map.mp queued with ⟨other, isOther, sameHash⟩
      have heldHash : held.hash = hash := hash_findInflight found
      have hashEq : other.hash = hash := sameHash.trans heldHash
      have absent := linked.disjoint other isOther
      rw [hashEq, found] at absent
      cases absent
  · intro hash
    exact (findInflight_confirm_ephemeral linked isOrder hash).trans (sameKept hash)
  · change ((before.ephemeral.confirm order call).inflight.map MempoolTx.hash).Nodup
    rw [MempoolState.inflight_confirm isOrder]
    exact List.nodup_nil
  · intro tx member
    change tx ∈ (before.ephemeral.confirm order call).inflight at member
    rw [MempoolState.inflight_confirm isOrder] at member
    cases member
  · intro tx member
    change tx ∈ (before.ephemeral.confirm order call).inflight at member
    rw [MempoolState.inflight_confirm isOrder] at member
    cases member
  · intro hash tx held
    change (before.ephemeral.confirm order call).acknowledged.get? hash = some tx at held
    rw [MempoolState.get?_confirm isOrder, promoted_eq linked] at held
    rcases Option.bind_eq_some_iff.mp held with ⟨old, found, keptEq⟩
    rw [hash_kept keptEq]
    exact hash_findInflight found
  · intro hash tx found confirmed
    change (before.redb.confirm call).findInflight hash = some tx at found
    rw [RedbMempool.findInflight_confirm] at found
    rcases Option.bind_eq_some_iff.mp found with ⟨old, _, keptEq⟩
    exact stamped_kept keptEq confirmed
  · intro tx member
    change (before.redb.confirm call).findInflight tx.hash = none
    change tx ∈ (before.redb.confirm call).peekPending at member
    rw [RedbMempool.peekPending_confirm, map_retry_handedOver] at member
    rw [RedbMempool.findInflight_confirm]
    rcases List.mem_append.mp member with old | new
    · rw [linked.disjoint tx old]
      rfl
    · rcases mem_retriedOver new with ⟨hash, held, found, rfl, retriedEq⟩
      have heldHash : held.hash = hash := hash_findInflight found
      have hashEq : held.retry.hash = hash := heldHash
      rw [hashEq, found]
      rcases Option.bind_eq_some_iff.mp retriedEq with ⟨handed, handedEq, _⟩
      exact kept_eq_none_of_handed handedEq

end Confirm

section Runs

variable {after : BothStores P} {call : MempoolCall P}

theorem linked_start : (start : BothStores P).Linked where
  queue := ⟨List.Perm.nil, List.nodup_nil, List.Pairwise.nil, List.Pairwise.nil,
    fun tx member => by cases member⟩
  inflight _ := rfl
  sentOnce := List.nodup_nil
  sent tx member := by cases member
  apart tx member := by cases member
  keyed hash tx held := by cases held
  stamped hash tx found := by cases found
  disjoint tx member := by cases member

theorem linked_step (linked : before.Linked) (step : before.Performs call after)
    (meets : before.Meets call) :
    after.Linked ∧ after.ephemeralResult = after.redbResult := by
  rcases step with ⟨order, isOrder, rfl⟩
  cases call with
  | receive tx => exact linked_receive linked meets
  | markInflight hashes => exact ⟨linked_markInflight linked, rfl⟩
  | markAcknowledged hashes => exact ⟨linked_markAcknowledged linked meets, rfl⟩
  | confirm call => exact ⟨linked_confirm linked meets isOrder, rfl⟩

/-- A call after which a client sees no difference is one of those. -/
theorem meets_of_agree (linked : before.Linked) (step : before.Performs call after)
    (agree : after.Agree) : before.Meets call := by
  rcases step with ⟨order, isOrder, rfl⟩
  cases call with
  | receive tx =>
      intro notQueued
      have ephemeralEq := ephemeral_receive linked.queue notQueued
      have redbEq := @redb_receive P before tx notQueued
      have results := agree.results
      simp only [performed, MempoolState.perform, RedbMempool.perform, ephemeralEq, redbEq]
        at results
      have notInflight : before.redb.findInflight tx.hash = none := by
        cases found : before.redb.findInflight tx.hash with
        | none => rfl
        | some held =>
            rw [found, Option.isSome_some, if_pos rfl] at results
            cases results
      refine ⟨?_, notInflight⟩
      have queuedNow : tx ∈ (before.performed order (.receive tx)).ephemeral.pending := by
        simp only [performed, MempoolState.perform, ephemeralEq, returned]
        exact List.mem_append_right _ (List.mem_singleton_self tx)
      exact RedbMempool.made_of_mem_peekPending (agree.pending.mem_iff.mp queuedNow)
  | markInflight hashes => trivial
  | markAcknowledged hashes =>
      intro hash listed tx held propagated
      have same := agree.inflight hash
      change (before.ephemeral.markAcknowledged hashes).findInflight hash =
        (before.redb.markAcknowledged hashes).findInflight hash at same
      have notSent : find MempoolTx.hash before.ephemeral.inflight hash = none := by
        cases isSent : find MempoolTx.hash before.ephemeral.inflight hash with
        | none => rfl
        | some other =>
            rcases mem_of_find isSent with ⟨member, rfl⟩
            rw [linked.apart other member] at held
            cases held
      rw [findInflight_markAcknowledged_ephemeral linked, findInflight_markAcknowledged_redb,
        if_pos listed, if_pos listed, ← linked.inflight, MempoolState.findInflight_eq, notSent,
        held] at same
      simp only [Option.map_none, Option.none_or, Option.map_some, acknowledgedTx, propagated,
        if_true, Option.some.injEq] at same
      have stageEq := congrArg MempoolTx.stage same
      rw [propagated] at stageEq
      cases stageEq
  | confirm call =>
      intro hash seen tx found unstamped shallow
      have same := agree.inflight hash
      change (before.ephemeral.confirm order call).findInflight hash =
        (before.redb.confirm call).findInflight hash at same
      have notDeep : ¬ call.finalizeThreshold ≤ tx.confirmations + 1 := Nat.not_le.mpr shallow
      rw [findInflight_confirm_ephemeral linked isOrder, RedbMempool.findInflight_confirm,
        found] at same
      simp only [Option.bind_some, verdict, settled, ConfirmCall.decoded, seen, if_true,
        MempoolTx.confirm, notDeep, if_false, Fate.kept, Option.some.injEq] at same
      have pointEq := congrArg MempoolTx.confirmedAt same
      simp only [unstamped, Option.getD_none, Option.some.injEq] at pointEq
      exact pointEq.symm

theorem agree_run {run : List (MempoolCall P × BothStores P)} (isRun : IsRun before run)
    (linked : before.Linked) :
    (∀ visited ∈ run, visited.2.Agree) ↔ RunMeets before run := by
  induction run generalizing before with
  | nil => simp [RunMeets]
  | cons visited rest ih =>
      constructor
      · intro agree
        have meets := meets_of_agree linked isRun.1 (agree visited List.mem_cons_self)
        have next := (linked_step linked isRun.1 meets).1
        refine ⟨meets, (ih isRun.2 next).mp ?_⟩
        intro later member
        exact agree later (List.mem_cons_of_mem _ member)
      · intro meets later member
        rcases linked_step linked isRun.1 meets.1 with ⟨next, results⟩
        rcases List.mem_cons.mp member with rfl | isLater
        · exact agree_of_linked next results
        · exact (ih isRun.2 next).mpr meets.2 later isLater

/-- From two empty stores, a client sees no difference in any state of a run exactly
when every call of the run is one that both stores treat alike. -/
theorem agree_iff_runMeets {run : List (MempoolCall P × BothStores P)} (isRun : IsRun start run) :
    (∀ visited ∈ run, visited.2.Agree) ↔ RunMeets start run :=
  agree_run isRun linked_start

end Runs

section Sequences

def firstTx : MempoolTx Unit := .new 1 ()

def quietBlock : ConfirmCall := ⟨.specific 7 7, [], [], 6, 2⟩

/-- A transaction is sent, and acknowledged after a block without it. -/
def lateAnswer : List (MempoolCall Unit × BothStores Unit) :=
  let queued := start.performed [] (.receive firstTx)
  let sent := queued.performed [] (.markInflight [1])
  let met := sent.performed [1] (.confirm quietBlock)
  [(.receive firstTx, queued), (.markInflight [1], sent), (.confirm quietBlock, met),
    (.markAcknowledged [1], met.performed [1] (.markAcknowledged [1]))]

/-- A transaction is sent, and received again while it is inflight. -/
def sentTwice : List (MempoolCall Unit × BothStores Unit) :=
  let queued := start.performed [] (.receive firstTx)
  let sent := queued.performed [] (.markInflight [1])
  [(.receive firstTx, queued), (.markInflight [1], sent),
    (.receive firstTx, sent.performed [1] (.receive firstTx))]

/-- A transaction is sent and acknowledged. -/
def promptAnswer : List (MempoolCall Unit × BothStores Unit) :=
  let queued := start.performed [] (.receive firstTx)
  let sent := queued.performed [] (.markInflight [1])
  [(.receive firstTx, queued), (.markInflight [1], sent),
    (.markAcknowledged [1], sent.performed [1] (.markAcknowledged [1]))]

theorem isRun_promptAnswer : IsRun start promptAnswer :=
  ⟨⟨[], List.Perm.nil, rfl⟩, ⟨[], List.Perm.nil, rfl⟩, ⟨[1], List.Perm.refl _, rfl⟩, trivial⟩

theorem isRun_lateAnswer : IsRun start lateAnswer :=
  ⟨⟨[], List.Perm.nil, rfl⟩, ⟨[], List.Perm.nil, rfl⟩, ⟨[1], List.Perm.refl _, rfl⟩,
    ⟨[1], List.Perm.refl _, rfl⟩, trivial⟩

theorem isRun_sentTwice : IsRun start sentTwice :=
  ⟨⟨[], List.Perm.nil, rfl⟩, ⟨[], List.Perm.nil, rfl⟩, ⟨[1], List.Perm.refl _, rfl⟩, trivial⟩

theorem agree_iff_runMeets_promptAnswer :
    (∀ visited ∈ promptAnswer, visited.2.Agree) ↔ RunMeets start promptAnswer :=
  agree_iff_runMeets isRun_promptAnswer

/-- The in-memory store does not acknowledge a transaction that a confirmation has moved
to the map, and takes one in again that is inflight. -/
theorem stores_differ :
    IsRun start lateAnswer ∧
      lateAnswer.getLast?.map (fun visited => ((visited.2.ephemeral.checkStatus 1).stage,
        (visited.2.redb.checkStatus 1).stage)) = some (.propagated, .acknowledged) ∧
      IsRun start sentTwice ∧
      sentTwice.getLast?.map (fun visited => (visited.2.ephemeralResult, visited.2.redbResult)) =
        some (.ok (), .error .duplicateTx) ∧
      sentTwice.getLast?.map (fun visited => (pendingHashes visited.2.ephemeral.pending,
        visited.2.ephemeral.inflight.map MempoolTx.hash)) = some ([1], [1]) :=
  ⟨isRun_lateAnswer, rfl, isRun_sentTwice, rfl, rfl⟩

end Sequences

end BothStores

end Dolos
