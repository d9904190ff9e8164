import Dolos.Core.Mempool

/-!
# What a confirmation does

The loop of `confirm` in both stores is a sweep of the table of inflight transactions:
the verdict on a transaction depends on nothing but its own record and the call.
The verdict is stated once, on the transaction as a client sees it, and each store's
loop is shown to carry it out.
-/

namespace Dolos

/-- A transaction that leaves the inflight table. -/
inductive Handed (α : Type) where
  | retried (tx : α)
  | finalized (tx : α)
  | dropped (tx : α)

namespace Handed

variable {α β : Type}

def map (f : α → β) : Handed α → Handed β
  | retried tx => retried (f tx)
  | finalized tx => finalized (f tx)
  | dropped tx => dropped (f tx)

def retried? : Handed α → Option α
  | retried tx => some tx
  | _ => none

end Handed

section Verdict

variable {P : Type}

/-- A confirmed transaction leaves once it is deep enough. -/
def settled (call : ConfirmCall) (tx : MempoolTx P) : Fate (MempoolTx P) (Handed (MempoolTx P)) :=
  if call.finalizeThreshold ≤ tx.confirmations then .leave (.finalized tx) else .stay tx

def verdict (call : ConfirmCall) (hash : TxHash) (tx : MempoolTx P) :
    Fate (MempoolTx P) (Handed (MempoolTx P)) :=
  if hash ∈ call.seenTxs then settled call (tx.confirm call.point)
  else if hash ∈ call.unseenTxs then .leave (.retried tx)
  else if tx.stage = .confirmed then settled call (tx.confirm call.point)
  else if call.dropThreshold ≤ tx.markStale.nonConfirmations then .leave (.dropped tx.markStale)
  else .stay tx.markStale

/-- What a confirmation hands over, over the inflight transactions in some order. -/
def handedOver (call : ConfirmCall) (order : List TxHash)
    (find : TxHash → Option (MempoolTx P)) : List (Handed (MempoolTx P)) :=
  order.filterMap fun hash => (find hash).bind fun tx => (verdict call hash tx).handed

/-- How a transaction is logged: its hash, and whether it was dropped. -/
def Handed.note : Handed (MempoolTx P) → Option (TxHash × Bool)
  | .retried _ => none
  | .finalized tx => some (tx.hash, false)
  | .dropped tx => some (tx.hash, true)

/-- The call with its point as it comes back from the table. -/
def ConfirmCall.decoded (call : ConfirmCall) : ConfirmCall :=
  { call with point := .fromBytes call.point.intoBytes }

variable {call : ConfirmCall} {hash : TxHash} {tx kept : MempoolTx P}

theorem hash_kept (keptEq : (verdict call hash tx).kept = some kept) : kept.hash = tx.hash := by
  simp only [verdict, settled] at keptEq
  split_ifs at keptEq
  all_goals first | (cases keptEq; rfl) | cases keptEq

/-- A transaction that stays confirmed has the point of its first confirmation. -/
theorem stamped_kept (keptEq : (verdict call hash tx).kept = some kept)
    (confirmed : kept.stage = .confirmed) : kept.confirmedAt.isSome := by
  simp only [verdict, settled] at keptEq
  split_ifs at keptEq with seen deep unseen stage deep stale
  all_goals
    first
    | (cases keptEq; rfl)
    | (cases keptEq; exact absurd confirmed stage)
    | cases keptEq

theorem confirm_stamped (stamped : tx.confirmedAt.isSome) (first second : ChainPoint) :
    tx.confirm first = tx.confirm second := by
  rcases Option.isSome_iff_exists.mp stamped with ⟨point, pointEq⟩
  simp [MempoolTx.confirm, pointEq]

/-- The point of a call matters to a first confirmation only. -/
theorem verdict_decoded (stamped : tx.stage = .confirmed → tx.confirmedAt.isSome)
    (first : hash ∈ call.seenTxs → tx.confirmedAt = none →
      tx.confirmations + 1 < call.finalizeThreshold → call.decoded.point = call.point) :
    (verdict call hash tx).kept = (verdict call.decoded hash tx).kept ∧
      (verdict call hash tx).handed.bind Handed.retried? =
        (verdict call.decoded hash tx).handed.bind Handed.retried? := by
  have settles : (tx.confirmedAt = none → tx.confirmations + 1 < call.finalizeThreshold →
      call.decoded.point = call.point) →
      (settled call (tx.confirm call.point)).kept =
        (settled call.decoded (tx.confirm call.decoded.point)).kept ∧
      (settled call (tx.confirm call.point)).handed.bind Handed.retried? =
        (settled call.decoded (tx.confirm call.decoded.point)).handed.bind Handed.retried? := by
    intro samePoint
    have thresholdEq : call.decoded.finalizeThreshold = call.finalizeThreshold := rfl
    have counterEq : (tx.confirm call.decoded.point).confirmations =
        (tx.confirm call.point).confirmations := rfl
    unfold settled
    rw [thresholdEq, counterEq]
    split_ifs with deep
    · exact ⟨rfl, rfl⟩
    · have same : tx.confirm call.point = tx.confirm call.decoded.point := by
        cases unstamped : tx.confirmedAt with
        | none => rw [samePoint unstamped (Nat.lt_of_not_le deep)]
        | some point => exact confirm_stamped (by rw [unstamped]; rfl) _ _
      rw [same]
      exact ⟨rfl, rfl⟩
  have seenEq : call.decoded.seenTxs = call.seenTxs := rfl
  have unseenEq : call.decoded.unseenTxs = call.unseenTxs := rfl
  have dropEq : call.decoded.dropThreshold = call.dropThreshold := rfl
  unfold verdict
  rw [seenEq, unseenEq, dropEq]
  split_ifs with seen unseen confirmed stale
  · exact settles (first seen)
  · exact ⟨rfl, rfl⟩
  · apply settles
    intro unstamped
    have isStamped := stamped confirmed
    rw [unstamped] at isStamped
    cases isStamped
  · exact ⟨rfl, rfl⟩
  · exact ⟨rfl, rfl⟩

theorem kept_eq_none_of_handed {handed : Handed (MempoolTx P)}
    (handedEq : (verdict call hash tx).handed = some handed) :
    (verdict call hash tx).kept = none := by
  cases fated : verdict call hash tx with
  | stay changed =>
      rw [fated] at handedEq
      cases handedEq
  | leave given => rfl

/-- A retried transaction is handed over as it was. -/
theorem eq_of_retried {retried : MempoolTx P}
    (retriedEq : (verdict call hash tx).handed.bind Handed.retried? = some retried) :
    retried = tx := by
  simp only [verdict, settled] at retriedEq
  split_ifs at retriedEq
  all_goals
    first
    | (cases retriedEq; rfl)
    | cases retriedEq

end Verdict

section Tables

variable {P : Type}

/-- A pending transaction is queued behind all others. -/
theorem PendingTable.peek_insert (table : OrderedMap (ℕ ×ₗ TxHash) P) (hash : TxHash)
    (payload : P) :
    PendingTable.peek (PendingTable.insert table hash payload) =
      PendingTable.peek table ++ [.new hash payload] := by
  have above : ∀ entry ∈ table.entries, entry.1 < toLex (nextSeq table, hash) := by
    intro entry member
    unfold nextSeq
    cases last : table.entries.getLast? with
    | none =>
        rw [List.getLast?_eq_none_iff.mp last] at member
        cases member
    | some greatest =>
        have bounded := Prod.Lex.le_iff.mp (OrderedMap.le_of_getLast? last entry member)
        apply Prod.Lex.lt_iff.mpr
        left
        change (ofLex entry.1).1 < (ofLex greatest.1).1 + 1
        omega
  rw [PendingTable.insert, PendingTable.peek, OrderedMap.entries_insert_above above,
    List.map_append]
  rfl

theorem PendingTable.peek_foldl_insert (table : OrderedMap (ℕ ×ₗ TxHash) P)
    (retried : List (TxHash × InflightRecord P)) :
    PendingTable.peek (retried.foldl
      (fun table entry => PendingTable.insert table entry.1 entry.2.payload) table) =
      PendingTable.peek table ++ retried.map fun entry => .new entry.1 entry.2.payload := by
  induction retried generalizing table with
  | nil => simp
  | cons entry rest ih =>
      rw [List.foldl_cons, ih, PendingTable.peek_insert, List.append_assoc]
      rfl

theorem FinalizedTable.entries_append (table : OrderedMap ℕ (FinalizedEntry P))
    (entry : FinalizedEntry P) :
    (FinalizedTable.append table entry).entries = table.entries ++ [(nextSeq table, entry)] := by
  have above : ∀ held ∈ table.entries, held.1 < nextSeq table := by
    intro held member
    unfold nextSeq
    cases last : table.entries.getLast? with
    | none =>
        rw [List.getLast?_eq_none_iff.mp last] at member
        cases member
    | some greatest => exact Nat.lt_succ_of_le (OrderedMap.le_of_getLast? last held member)
  exact OrderedMap.entries_insert_above above

theorem FinalizedTable.values_append (table : OrderedMap ℕ (FinalizedEntry P))
    (entry : FinalizedEntry P) :
    (FinalizedTable.append table entry).entries.map Prod.snd =
      table.entries.map Prod.snd ++ [entry] := by
  rw [FinalizedTable.entries_append, List.map_append]
  rfl

theorem FinalizedTable.values_foldl_append (table : OrderedMap ℕ (FinalizedEntry P))
    (entries : List (FinalizedEntry P)) :
    (entries.foldl FinalizedTable.append table).entries.map Prod.snd =
      table.entries.map Prod.snd ++ entries := by
  induction entries generalizing table with
  | nil => simp
  | cons entry rest ih =>
      rw [List.foldl_cons, ih, FinalizedTable.values_append, List.append_assoc]
      rfl

end Tables

namespace MempoolState

variable {P : Type} {call : ConfirmCall}

def logEntry : Handed (MempoolTx P) → Option (MempoolTx P)
  | .retried _ => none
  | .finalized tx => some { tx with stage := .finalized }
  | .dropped tx => some { tx with stage := .dropped }

/-- The state once a sweep of its map has handed over some transactions. -/
def absorb (state : MempoolState P)
    (swept : OrderedMap TxHash (MempoolTx P) × List (Handed (MempoolTx P))) : MempoolState P where
  pending := state.pending ++ (swept.2.filterMap Handed.retried?).map MempoolTx.retry
  inflight := state.inflight
  acknowledged := swept.1
  finalizedLog := state.finalizedLog ++ swept.2.filterMap logEntry

theorem confirmOne_absorb (state : MempoolState P)
    (swept : OrderedMap TxHash (MempoolTx P) × List (Handed (MempoolTx P))) (hash : TxHash) :
    (state.absorb swept).confirmOne call hash =
      state.absorb (OrderedMap.sweepOne (verdict call) swept hash) := by
  unfold confirmOne OrderedMap.sweepOne
  have acknowledgedEq : (state.absorb swept).acknowledged = swept.1 := rfl
  rw [acknowledgedEq]
  cases held : swept.1.get? hash with
  | none => rfl
  | some tx =>
      simp only [verdict, settled, settle]
      split_ifs with seen deep unseen confirmed deep stale
      all_goals simp [absorb, Handed.retried?, logEntry]

theorem foldl_confirmOne (call : ConfirmCall) (state : MempoolState P) (hashes : List TxHash)
    (swept : OrderedMap TxHash (MempoolTx P) × List (Handed (MempoolTx P))) :
    hashes.foldl (confirmOne call) (state.absorb swept) =
      state.absorb (OrderedMap.sweep (verdict call) hashes swept) := by
  induction hashes generalizing swept with
  | nil => rfl
  | cons hash rest ih =>
      rw [List.foldl_cons, confirmOne_absorb, ih]
      rfl

theorem absorb_nil (state : MempoolState P) : state.absorb (state.acknowledged, []) = state := by
  simp [absorb]

/-- The loop of `confirm` is a sweep of the promoted map. -/
theorem confirm_eq (state : MempoolState P) {order : List TxHash}
    (isOrder : order.Perm state.promoted.acknowledged.keys) :
    let swept := state.promoted.absorb
      (OrderedMap.sweep (verdict call) order (state.promoted.acknowledged, []))
    ∃ surplus ≤ swept.finalizedLog.length - maxFinalizedLog, state.confirm order call =
      { swept with finalizedLog := swept.finalizedLog.drop surplus } := by
  intro swept
  unfold confirm
  split_ifs with empty
  · have noKeys : order = [] := by
      rw [OrderedMap.keys, empty] at isOrder
      exact List.perm_nil.mp isOrder
    subst noKeys
    refine ⟨0, Nat.zero_le _, ?_⟩
    change state.promoted = state.promoted.absorb (state.promoted.acknowledged, [])
    rw [absorb_nil]
  · have looped := foldl_confirmOne call state.promoted order
      (state.promoted.acknowledged, [])
    rw [absorb_nil] at looped
    rw [looped]
    exact ⟨_, le_rfl, rfl⟩

section Confirmed

variable {state : MempoolState P} {order : List TxHash}
  (isOrder : order.Perm state.promoted.acknowledged.keys)

include isOrder

theorem get?_confirm (hash : TxHash) :
    (state.confirm order call).acknowledged.get? hash =
      (state.promoted.acknowledged.get? hash).bind fun tx => (verdict call hash tx).kept := by
  rcases confirm_eq state isOrder with ⟨surplus, _, confirmEq⟩
  have nodup : order.Nodup := isOrder.nodup_iff.mpr state.promoted.acknowledged.nodup_keys
  have swept := OrderedMap.get?_sweep (verdict call) nodup
    (state.promoted.acknowledged, []) hash
  rw [confirmEq]
  change (OrderedMap.sweep (verdict call) order (state.promoted.acknowledged, [])).1.get? hash = _
  rw [swept]
  split_ifs with listed
  · rfl
  · have absent : state.promoted.acknowledged.get? hash = none := by
      apply Option.not_isSome_iff_eq_none.mp
      intro held
      exact listed (isOrder.mem_iff.mpr (OrderedMap.mem_keys_iff.mpr held))
    rw [absent]
    rfl

theorem pending_confirm :
    (state.confirm order call).pending = state.pending ++
      ((handedOver call order state.promoted.acknowledged.get?).filterMap Handed.retried?).map
        MempoolTx.retry := by
  rcases confirm_eq state isOrder with ⟨surplus, _, confirmEq⟩
  have nodup : order.Nodup := isOrder.nodup_iff.mpr state.promoted.acknowledged.nodup_keys
  have swept := OrderedMap.handed_sweep (verdict call) nodup
    (state.promoted.acknowledged, [])
  rw [confirmEq]
  change state.pending ++ ((OrderedMap.sweep (verdict call) order
    (state.promoted.acknowledged, [])).2.filterMap Handed.retried?).map MempoolTx.retry = _
  rw [swept]
  rfl

theorem inflight_confirm : (state.confirm order call).inflight = [] := by
  rcases confirm_eq state isOrder with ⟨surplus, _, confirmEq⟩
  rw [confirmEq]
  rfl

theorem finalizedLog_confirm (call : ConfirmCall) :
    let log := state.finalizedLog ++
      (handedOver call order state.promoted.acknowledged.get?).filterMap logEntry
    ∃ surplus ≤ log.length - maxFinalizedLog,
      (state.confirm order call).finalizedLog = log.drop surplus := by
  intro log
  rcases confirm_eq state isOrder with ⟨surplus, surplusLe, confirmEq⟩
  have nodup : order.Nodup := isOrder.nodup_iff.mpr state.promoted.acknowledged.nodup_keys
  have swept := OrderedMap.handed_sweep (verdict call) nodup
    (state.promoted.acknowledged, [])
  have logEq : (state.promoted.absorb (OrderedMap.sweep (verdict call) order
      (state.promoted.acknowledged, []))).finalizedLog = log := by
    simp only [absorb, swept]
    rfl
  refine ⟨surplus, ?_, ?_⟩
  · rw [← logEq]
    exact surplusLe
  · rw [confirmEq, ← logEq]

end Confirmed

end MempoolState

namespace RedbMempool

variable {P : Type} {call : ConfirmCall}

def recordSettled (call : ConfirmCall) (hash : TxHash) (record : InflightRecord P) :
    Fate (InflightRecord P) (Handed (TxHash × InflightRecord P)) :=
  if call.finalizeThreshold ≤ record.confirmations then .leave (.finalized (hash, record))
  else .stay record

/-- The verdict on a record of the table. -/
def recordVerdict (call : ConfirmCall) (hash : TxHash) (record : InflightRecord P) :
    Fate (InflightRecord P) (Handed (TxHash × InflightRecord P)) :=
  if hash ∈ call.seenTxs then recordSettled call hash (record.confirm call.point)
  else if hash ∈ call.unseenTxs then .leave (.retried (hash, record))
  else if record.stage = .confirmed then recordSettled call hash (record.confirm call.point)
  else if call.dropThreshold ≤ record.markStale.nonConfirmations then
    .leave (.dropped (hash, record.markStale))
  else .stay record.markStale

def logEntry : Handed (TxHash × InflightRecord P) → Option (FinalizedEntry P)
  | .retried _ => none
  | .finalized (hash, record) => some (record.intoFinalizedEntry hash)
  | .dropped (hash, record) => some (record.intoDroppedEntry hash)

/-- The store once a sweep of its inflight table has handed over some records. -/
def absorb (store : RedbMempool P)
    (swept : OrderedMap TxHash (InflightRecord P) × List (Handed (TxHash × InflightRecord P))) :
    RedbMempool P where
  pending := (swept.2.filterMap Handed.retried?).foldl
    (fun table entry => PendingTable.insert table entry.1 entry.2.payload) store.pending
  inflight := swept.1
  finalized := (swept.2.filterMap logEntry).foldl FinalizedTable.append store.finalized

theorem confirmOne_absorb (store : RedbMempool P)
    {swept : OrderedMap TxHash (InflightRecord P) × List (Handed (TxHash × InflightRecord P))}
    {hash : TxHash} {record : InflightRecord P} (held : swept.1.get? hash = some record) :
    (store.absorb swept).confirmOne call (hash, record) =
      store.absorb (OrderedMap.sweepOne (recordVerdict call) swept hash) := by
  unfold confirmOne OrderedMap.sweepOne
  rw [held]
  have finalizable : (record.confirm call.point).isFinalizable call.finalizeThreshold =
      decide (call.finalizeThreshold ≤ (record.confirm call.point).confirmations) := by
    apply decide_eq_decide.mpr
    simp [InflightRecord.confirm]
  simp only [recordVerdict, recordSettled, settle, finalizable, InflightRecord.isDroppable,
    decide_eq_true_eq]
  split_ifs with seen deep unseen confirmed deep stale
  all_goals simp [absorb, Handed.retried?, logEntry, List.filterMap_cons]

theorem foldl_confirmOne (store : RedbMempool P)
    {entries : List (TxHash × InflightRecord P)} (nodup : (entries.map Prod.fst).Nodup)
    {swept : OrderedMap TxHash (InflightRecord P) × List (Handed (TxHash × InflightRecord P))}
    (held : ∀ entry ∈ entries, swept.1.get? entry.1 = some entry.2) :
    entries.foldl (confirmOne call) (store.absorb swept) =
      store.absorb (OrderedMap.sweep (recordVerdict call) (entries.map Prod.fst) swept) := by
  induction entries generalizing swept with
  | nil => rfl
  | cons entry rest ih =>
      rcases List.nodup_cons.mp nodup with ⟨fresh, restNodup⟩
      rw [List.foldl_cons, confirmOne_absorb store (held entry List.mem_cons_self), ih restNodup]
      · rfl
      · intro later member
        have different : later.1 ≠ entry.1 := by
          intro same
          exact fresh (same ▸ List.mem_map_of_mem member)
        rw [OrderedMap.get?_sweepOne_of_ne swept different]
        exact held later (List.mem_cons_of_mem _ member)

/-- The loop of `confirm` is a sweep of the inflight table. -/
theorem confirm_eq (store : RedbMempool P) :
    store.confirm call = store.absorb
      (OrderedMap.sweep (recordVerdict call) store.inflight.keys (store.inflight, [])) := by
  have held : ∀ entry ∈ store.inflight.entries,
      (store.inflight, ([] : List (Handed (TxHash × InflightRecord P)))).1.get? entry.1 =
        some entry.2 := by
    intro entry member
    exact OrderedMap.mem_entries_iff.mp member
  exact foldl_confirmOne store store.inflight.nodup_keys held

theorem toMempoolTx_confirm (hash : TxHash) (record : InflightRecord P) :
    (record.confirm call.point).toMempoolTx hash =
      (record.toMempoolTx hash).confirm call.decoded.point := by
  cases held : record.confirmedAt with
  | none => simp [InflightRecord.confirm, InflightRecord.toMempoolTx, MempoolTx.confirm, held,
      ConfirmCall.decoded, InflightStage.toTxStage]
  | some point => simp [InflightRecord.confirm, InflightRecord.toMempoolTx, MempoolTx.confirm,
      held, InflightStage.toTxStage]

theorem toTxStage_eq_confirmed {stage : InflightStage} :
    stage.toTxStage = .confirmed ↔ stage = .confirmed := by
  cases stage <;> simp [InflightStage.toTxStage]

def Handed.client (handed : Handed (TxHash × InflightRecord P)) : Handed (MempoolTx P) :=
  handed.map fun entry => entry.2.toMempoolTx entry.1

/-- On a transaction as a client sees it, the table carries out the verdict. -/
theorem recordVerdict_client (call : ConfirmCall) (hash : TxHash) (record : InflightRecord P) :
    (recordVerdict call hash record).map (fun kept => kept.toMempoolTx hash) Handed.client =
      verdict call.decoded hash (record.toMempoolTx hash) := by
  simp only [recordVerdict, recordSettled, verdict, settled, ← toMempoolTx_confirm]
  change _ = if hash ∈ call.seenTxs then _ else if hash ∈ call.unseenTxs then _ else
    if record.stage.toTxStage = .confirmed then _ else _
  simp only [toTxStage_eq_confirmed]
  split_ifs with seen deep unseen confirmed deep stale
  all_goals first | rfl | contradiction

theorem get?_acknowledgeOne (inflight : OrderedMap TxHash (InflightRecord P))
    (hash other : TxHash) :
    (acknowledgeOne inflight hash).get? other =
      if other = hash then (inflight.get? other).map fun record => record.acknowledge.1
      else inflight.get? other := by
  unfold acknowledgeOne
  by_cases same : other = hash
  · subst same
    cases held : inflight.get? other with
    | none => simp [held]
    | some record =>
        by_cases propagated : record.stage = .propagated
        · simp [InflightRecord.acknowledge, propagated]
        · simp [InflightRecord.acknowledge, propagated, held]
  · cases held : inflight.get? hash with
    | none => simp [same]
    | some record =>
        by_cases propagated : record.stage = .propagated
        · simp [InflightRecord.acknowledge, propagated, OrderedMap.get?_insert, same]
        · simp [InflightRecord.acknowledge, propagated, same]

theorem acknowledge_acknowledge (record : InflightRecord P) :
    record.acknowledge.1.acknowledge.1 = record.acknowledge.1 := by
  by_cases propagated : record.stage = .propagated
  · simp [InflightRecord.acknowledge, propagated]
  · simp [InflightRecord.acknowledge, propagated]

theorem get?_markAcknowledged (store : RedbMempool P) (hashes : List TxHash) (hash : TxHash) :
    (store.markAcknowledged hashes).inflight.get? hash =
      if hash ∈ hashes then (store.inflight.get? hash).map fun record => record.acknowledge.1
      else store.inflight.get? hash := by
  rcases store with ⟨pending, inflight, finalized⟩
  change (hashes.foldl acknowledgeOne inflight).get? hash =
    if _ then (inflight.get? hash).map _ else
    inflight.get? hash
  induction hashes generalizing inflight with
  | nil => rfl
  | cons head rest ih =>
      rw [List.foldl_cons, ih, get?_acknowledgeOne]
      by_cases same : hash = head
      · subst same
        simp [Function.comp_def, acknowledge_acknowledge]
      · simp [same]

/-- The transactions a table hands over, as a client sees them. -/
theorem handedOver_client (store : RedbMempool P) :
    (store.inflight.keys.filterMap fun hash => (store.inflight.get? hash).bind fun record =>
      (recordVerdict call hash record).handed).map Handed.client =
      handedOver call.decoded store.inflight.keys store.findInflight := by
  rw [List.map_filterMap]
  apply List.filterMap_congr
  intro hash _
  rw [findInflight]
  cases store.inflight.get? hash with
  | none => rfl
  | some record =>
      have same := congrArg Fate.handed (recordVerdict_client call hash record)
      rw [Fate.handed_map] at same
      exact same

theorem findInflight_confirm (store : RedbMempool P) (hash : TxHash) :
    (store.confirm call).findInflight hash =
      (store.findInflight hash).bind fun tx => (verdict call.decoded hash tx).kept := by
  have swept := OrderedMap.get?_sweep (recordVerdict call) store.inflight.nodup_keys
    (store.inflight, []) hash
  rw [findInflight, findInflight, confirm_eq]
  change ((OrderedMap.sweep (recordVerdict call) store.inflight.keys
    (store.inflight, [])).1.get? hash).map _ = _
  rw [swept]
  cases held : store.inflight.get? hash with
  | none => simp
  | some record =>
      have listed : hash ∈ store.inflight.keys :=
        OrderedMap.mem_keys_iff.mpr (Option.isSome_iff_exists.mpr ⟨record, held⟩)
      have same := congrArg Fate.kept (recordVerdict_client call hash record)
      rw [Fate.kept_map] at same
      rw [if_pos listed]
      exact same

theorem peekPending_confirm (store : RedbMempool P) :
    (store.confirm call).peekPending = store.peekPending ++
      ((handedOver call.decoded store.inflight.keys store.findInflight).filterMap
        Handed.retried?).map MempoolTx.retry := by
  have swept := OrderedMap.handed_sweep (recordVerdict call) store.inflight.nodup_keys
    (store.inflight, [])
  rw [← handedOver_client, peekPending, confirm_eq]
  change PendingTable.peek ((((OrderedMap.sweep (recordVerdict call) store.inflight.keys
    (store.inflight, [])).2).filterMap Handed.retried?).foldl _ store.pending) = _
  rw [PendingTable.peek_foldl_insert, swept, List.nil_append, List.filterMap_map,
    List.map_filterMap, List.map_filterMap]
  congr 1
  apply List.filterMap_congr
  intro handed _
  cases handed with
  | retried entry => rfl
  | finalized entry => rfl
  | dropped entry => rfl

/-- The log as hashes, each with whether the transaction was dropped. -/
def logged (store : RedbMempool P) : List (TxHash × Bool) :=
  store.finalized.entries.map fun entry => (entry.2.hash, entry.2.dropped.getD false)

theorem logged_confirm (store : RedbMempool P) :
    (store.confirm call).logged = store.logged ++
      (handedOver call.decoded store.inflight.keys store.findInflight).filterMap Handed.note := by
  have swept := OrderedMap.handed_sweep (recordVerdict call) store.inflight.nodup_keys
    (store.inflight, [])
  have values := FinalizedTable.values_foldl_append store.finalized
    ((OrderedMap.sweep (recordVerdict call) store.inflight.keys
      (store.inflight, [])).2.filterMap logEntry)
  have notes := congrArg (List.map fun entry => (entry.hash, entry.dropped.getD false)) values
  rw [List.map_map, List.map_append, List.map_map] at notes
  rw [← handedOver_client, logged, confirm_eq]
  refine notes.trans ?_
  rw [swept, List.nil_append, List.filterMap_map, List.map_filterMap]
  congr 1
  apply List.filterMap_congr
  intro handed _
  cases handed with
  | retried entry => rfl
  | finalized entry => rfl
  | dropped entry => rfl

end RedbMempool

end Dolos
