import Dolos.Sync.Submit

/-!
# The stores under the submission worker

What the worker relies on, on both mempool stores: the queue grows at its end, a transaction
that is marked leaves it, none is queued that is inflight, and what is inflight was taken from
the queue with the payload it has.
-/

namespace Dolos

open KeyedList

section Verdicts

variable {P : Type} {call : ConfirmCall} {hash : TxHash} {tx kept : MempoolTx P}

theorem payload_kept (keptEq : (verdict call hash tx).kept = some kept) :
    kept.payload = tx.payload := by
  simp only [verdict, settled] at keptEq
  split_ifs at keptEq
  all_goals first | (cases keptEq; rfl) | cases keptEq

/-- A queue and the transactions inflight: no transaction is queued twice, and none that is
inflight. -/
structure QueuedOnce (pending : List (MempoolTx P)) (find : TxHash → Option (MempoolTx P)) :
    Prop where
  once : (pendingHashes pending).Nodup
  apart : ∀ queued ∈ pending, find queued.hash = none
  keyed : ∀ hash tx, find hash = some tx → tx.hash = hash

variable {pending : List (MempoolTx P)} {find : TxHash → Option (MempoolTx P)}

theorem QueuedOnce.receive (queued : QueuedOnce pending find)
    (fresh : tx.hash ∉ pendingHashes pending) (absent : find tx.hash = none) :
    QueuedOnce (pending ++ [tx]) find := by
  refine ⟨?_, ?_, queued.keyed⟩
  · rw [pendingHashes, List.map_append]
    apply queued.once.append (List.nodup_singleton _)
    intro other isOld isNew
    rw [List.mem_singleton.mp isNew] at isOld
    exact fresh isOld
  · intro other member
    rcases List.mem_append.mp member with old | new
    · exact queued.apart other old
    · rw [List.mem_singleton.mp new]
      exact absent

/-- What a confirmation retries was inflight, and each once. -/
theorem QueuedOnce.confirm (queued : QueuedOnce pending find) {order : List TxHash}
    (nodup : order.Nodup) :
    QueuedOnce (pending ++ BothStores.retriedOver call order find)
      (fun hash => (find hash).bind fun tx => (verdict call hash tx).kept) := by
  have retriedHash : ∀ hash, ∀ retried ∈ (find hash).bind fun tx =>
      ((verdict call hash tx).handed.bind Handed.retried?).map MempoolTx.retry,
      retried.hash = hash := by
    intro hash retried isRetried
    rcases Option.bind_eq_some_iff.mp isRetried with ⟨held, found, mapped⟩
    rcases Option.map_eq_some_iff.mp mapped with ⟨handed, handedEq, rfl⟩
    rw [eq_of_retried handedEq]
    exact queued.keyed hash held found
  refine ⟨?_, ?_, ?_⟩
  · rw [pendingHashes, List.map_append]
    apply queued.once.append
    · have sublist : ((BothStores.retriedOver call order find).map MempoolTx.hash).Sublist order :=
        by
        have same := map_filterMap_sublist retriedHash order
        rwa [List.map_id'] at same
      exact nodup.sublist sublist
    · intro other isOld isRetried
      rcases List.mem_map.mp isOld with ⟨old, isPending, rfl⟩
      rcases List.mem_map.mp isRetried with ⟨retried, isRetried, same⟩
      rcases BothStores.mem_retriedOver isRetried with ⟨hash, held, found, rfl, -⟩
      have absent := queued.apart old isPending
      rw [← same, show held.retry.hash = held.hash from rfl, queued.keyed hash held found,
        found] at absent
      cases absent
  · intro other member
    rcases List.mem_append.mp member with old | isRetried
    · rw [queued.apart other old]
      rfl
    · rcases BothStores.mem_retriedOver isRetried with ⟨hash, held, found, rfl, handedEq⟩
      rcases Option.bind_eq_some_iff.mp handedEq with ⟨handed, isHanded, -⟩
      rw [show held.retry.hash = held.hash from rfl, queued.keyed hash held found, found,
        Option.bind_some]
      exact kept_eq_none_of_handed isHanded
  · intro hash kept found
    rcases Option.bind_eq_some_iff.mp found with ⟨held, heldEq, keptEq⟩
    rw [hash_kept keptEq]
    exact queued.keyed hash held heldEq

theorem QueuedOnce.retried (queued : QueuedOnce pending find) {order : List TxHash} :
    ∀ tx ∈ BothStores.retriedOver call order find,
      ∃ held, find tx.hash = some held ∧ tx = held.retry := by
  intro tx isRetried
  rcases BothStores.mem_retriedOver isRetried with ⟨hash, held, found, rfl, -⟩
  have hashEq : held.retry.hash = hash := queued.keyed hash held found
  exact ⟨held, by rw [hashEq]; exact found, rfl⟩

theorem payload_confirmed
    (found : ((find hash).bind fun tx => (verdict call hash tx).kept) = some kept) :
    ∃ held, find hash = some held ∧ held.payload = kept.payload := by
  rcases Option.bind_eq_some_iff.mp found with ⟨held, heldEq, keptEq⟩
  exact ⟨held, heldEq, (payload_kept keptEq).symm⟩

/-- Some of the queue goes inflight. -/
theorem QueuedOnce.markInflight (queued : QueuedOnce pending find) {hashes : List TxHash}
    {after : List (MempoolTx P)} {findAfter : TxHash → Option (MempoolTx P)}
    (afterEq : after = pending.filter (·.hash ∉ hashes))
    (origin : ∀ hash tx, findAfter hash = some tx → find hash = some tx ∨ hash ∈ hashes ∧
      ∃ queued ∈ pending, queued.hash = hash ∧ queued.payload = tx.payload)
    (keyed : ∀ hash tx, findAfter hash = some tx → tx.hash = hash) :
    QueuedOnce after findAfter := by
  subst afterEq
  refine ⟨queued.once.sublist (List.Sublist.map _ List.filter_sublist), ?_, keyed⟩
  intro tx member
  rcases List.mem_filter.mp member with ⟨isPending, notListed⟩
  apply Option.eq_none_iff_forall_ne_some.mpr
  intro held found
  rcases origin tx.hash held found with before | ⟨listed, -⟩
  · rw [queued.apart tx isPending] at before
    cases before
  · exact of_decide_eq_true notListed listed

theorem QueuedOnce.refind (queued : QueuedOnce pending find)
    {findAfter : TxHash → Option (MempoolTx P)}
    (origin : ∀ hash tx, findAfter hash = some tx →
      ∃ held, find hash = some held ∧ held.payload = tx.payload)
    (keyed : ∀ hash tx, findAfter hash = some tx → tx.hash = hash) :
    QueuedOnce pending findAfter := by
  refine ⟨queued.once, ?_, keyed⟩
  intro tx isPending
  apply Option.eq_none_iff_forall_ne_some.mpr
  intro held found
  rcases origin tx.hash held found with ⟨before, beforeEq, -⟩
  rw [queued.apart tx isPending] at beforeEq
  cases beforeEq

end Verdicts

namespace Submit

/-- What the worker relies on: the queue grows at its end, a transaction that is marked leaves
it, and what is inflight was taken from the queue with the payload it has. -/
structure SubmitStore.Lawful (store : SubmitStore) where
  Sound : store.State → Prop
  start : Sound store.start
  pendingStart : store.peekPending store.start = []
  inflightStart : ∀ hash, store.findInflight store.start hash = none
  hasPending : ∀ state, store.hasPending state ↔ store.peekPending state ≠ []
  queuedOnce : ∀ {state}, Sound state →
    QueuedOnce (store.peekPending state) (store.findInflight state)
  receive : ∀ {state hash payload next}, Sound state → store.Admits state hash →
    store.receive state (.new hash payload) = .ok next →
      Sound next ∧ store.peekPending next = store.peekPending state ++ [.new hash payload] ∧
        store.findInflight next = store.findInflight state
  confirm : ∀ {state call next}, Sound state → store.Confirms state call next →
    Sound next ∧
      (∃ retried, store.peekPending next = store.peekPending state ++ retried ∧
        ∀ tx ∈ retried, ∃ held, store.findInflight state tx.hash = some held ∧
          tx = held.retry) ∧
      ∀ hash tx, store.findInflight next hash = some tx →
        ∃ held, store.findInflight state hash = some held ∧ held.payload = tx.payload
  markInflight : ∀ {state hashes}, Sound state →
    Sound (store.markInflight state hashes) ∧
      store.peekPending (store.markInflight state hashes) =
        (store.peekPending state).filter (·.hash ∉ hashes) ∧
      ∀ hash tx, store.findInflight (store.markInflight state hashes) hash = some tx →
        store.findInflight state hash = some tx ∨
          hash ∈ hashes ∧ ∃ queued ∈ store.peekPending state,
            queued.hash = hash ∧ queued.payload = tx.payload
  markAcknowledged : ∀ {state hashes}, Sound state →
    Sound (store.markAcknowledged state hashes) ∧
      store.peekPending (store.markAcknowledged state hashes) = store.peekPending state ∧
      ∀ hash tx, store.findInflight (store.markAcknowledged state hashes) hash = some tx →
        ∃ held, store.findInflight state hash = some held ∧ held.payload = tx.payload

section Redb

variable {state next : RedbMempool EraCbor} {hashes : List TxHash}

/-- The queue and the inflight table, as the worker sees them. -/
def RedbSound (state : RedbMempool EraCbor) : Prop :=
  QueuedOnce state.peekPending state.findInflight

theorem redb_receive (sound : RedbSound state) {tx : MempoolTx EraCbor}
    (made : tx = .new tx.hash tx.payload) (received : state.receive tx = .ok next) :
    RedbSound next ∧ next.peekPending = state.peekPending ++ [tx] ∧
      next.findInflight = state.findInflight := by
  unfold RedbMempool.receive at received
  split_ifs at received with isQueued isInflight
  rcases Except.ok.inj received with rfl
  rw [RedbMempool.contains_pending, decide_eq_true_eq] at isQueued
  have absent : state.findInflight tx.hash = none := by
    rw [RedbMempool.findInflight, Option.map_eq_none_iff]
    exact Option.not_isSome_iff_eq_none.mp isInflight
  have peeked := PendingTable.peek_insert state.pending tx.hash tx.payload
  rw [← made] at peeked
  refine ⟨?_, peeked, rfl⟩
  change QueuedOnce (PendingTable.peek (PendingTable.insert state.pending tx.hash tx.payload)) _
  rw [peeked]
  exact sound.receive isQueued absent

theorem redb_confirm (sound : RedbSound state) (call : ConfirmCall) :
    RedbSound (state.confirm call) ∧
      (∃ retried, (state.confirm call).peekPending = state.peekPending ++ retried ∧
        ∀ tx ∈ retried, ∃ held, state.findInflight tx.hash = some held ∧ tx = held.retry) ∧
      ∀ hash tx, (state.confirm call).findInflight hash = some tx →
        ∃ held, state.findInflight hash = some held ∧ held.payload = tx.payload := by
  have pendingEq : (state.confirm call).peekPending = state.peekPending ++
      BothStores.retriedOver call.decoded state.inflight.keys state.findInflight := by
    rw [RedbMempool.peekPending_confirm, BothStores.map_retry_handedOver]
  have findEq : (state.confirm call).findInflight = fun hash =>
      (state.findInflight hash).bind fun tx => (verdict call.decoded hash tx).kept :=
    funext (RedbMempool.findInflight_confirm state)
  refine ⟨?_, ⟨_, pendingEq, sound.retried⟩, ?_⟩
  · rw [RedbSound, pendingEq, findEq]
    exact sound.confirm state.inflight.nodup_keys
  · intro hash tx found
    rw [findEq] at found
    exact payload_confirmed found

theorem redb_markInflight (sound : RedbSound state) (hashes : List TxHash) :
    RedbSound (state.markInflight hashes) ∧
      (state.markInflight hashes).peekPending = state.peekPending.filter (·.hash ∉ hashes) ∧
      ∀ hash tx, (state.markInflight hashes).findInflight hash = some tx →
        state.findInflight hash = some tx ∨ hash ∈ hashes ∧
          ∃ queued ∈ state.peekPending, queued.hash = hash ∧ queued.payload = tx.payload := by
  have origin : ∀ hash tx, (state.markInflight hashes).findInflight hash = some tx →
      state.findInflight hash = some tx ∨ hash ∈ hashes ∧
        ∃ queued ∈ state.peekPending, queued.hash = hash ∧ queued.payload = tx.payload := by
    intro hash tx found
    rcases Option.map_eq_some_iff.mp found with ⟨record, held, rfl⟩
    rcases OrderedMap.get?_insertAll_cases state.inflight held with drained | old
    · right
      rcases List.mem_map.mp drained with ⟨moved, isMoved, entryEq⟩
      rcases List.mem_map.mp isMoved with ⟨entry, isEntry, rfl⟩
      rcases Prod.mk.inj entryEq with ⟨rfl, rfl⟩
      rcases List.mem_filter.mp isEntry with ⟨isPending, listed⟩
      exact ⟨of_decide_eq_true listed, _, List.mem_map_of_mem isPending, rfl, rfl⟩
    · left
      rw [RedbMempool.findInflight, old]
      rfl
  have pendingEq := BothStores.peekPending_markInflight state hashes
  refine ⟨sound.markInflight pendingEq origin ?_, pendingEq, origin⟩
  intro hash tx found
  rcases Option.map_eq_some_iff.mp found with ⟨record, _, rfl⟩
  rfl

theorem redb_markAcknowledged (sound : RedbSound state) (hashes : List TxHash) :
    RedbSound (state.markAcknowledged hashes) ∧
      (state.markAcknowledged hashes).peekPending = state.peekPending ∧
      ∀ hash tx, (state.markAcknowledged hashes).findInflight hash = some tx →
        ∃ held, state.findInflight hash = some held ∧ held.payload = tx.payload := by
  have origin : ∀ hash tx, (state.markAcknowledged hashes).findInflight hash = some tx →
      ∃ held, state.findInflight hash = some held ∧ held.payload = tx.payload := by
    intro hash tx found
    rw [BothStores.findInflight_markAcknowledged_redb] at found
    split_ifs at found with listed
    · rcases Option.map_eq_some_iff.mp found with ⟨held, heldEq, rfl⟩
      refine ⟨held, heldEq, ?_⟩
      unfold BothStores.acknowledgedTx
      split_ifs <;> rfl
    · exact ⟨tx, found, rfl⟩
  refine ⟨sound.refind origin ?_, rfl, origin⟩
  intro hash tx found
  rcases Option.map_eq_some_iff.mp found with ⟨record, _, rfl⟩
  rfl

/-- The store on tables is lawful. -/
def redbLawful : redbStore.Lawful where
  Sound := RedbSound
  start :=
    { once := List.nodup_nil
      apart := fun _ member => by cases member
      keyed := fun _ _ found => by cases found }
  pendingStart := rfl
  inflightStart _ := rfl
  hasPending state := by
    change decide (state.pending.entries ≠ []) = true ↔ state.pending.entries.map _ ≠ []
    rw [decide_eq_true_eq, ne_eq, ne_eq, List.map_eq_nil_iff]
  queuedOnce sound := sound
  receive sound _ received := redb_receive sound rfl received
  confirm := by
    rintro state call _ sound rfl
    exact redb_confirm sound call
  markInflight sound := redb_markInflight sound _
  markAcknowledged sound := redb_markAcknowledged sound _

end Redb

section Ephemeral

variable {state next : MempoolState EraCbor} {hashes : List TxHash}

structure EphemeralSound (state : MempoolState EraCbor) : Prop where
  queued : QueuedOnce state.pending state.findInflight
  sentOnce : (state.inflight.map MempoolTx.hash).Nodup
  apart : ∀ tx ∈ state.inflight, state.acknowledged.get? tx.hash = none
  keyed : ∀ hash tx, state.acknowledged.get? hash = some tx → tx.hash = hash

theorem EphemeralSound.found_iff (sound : EphemeralSound state) {hash : TxHash}
    {tx : MempoolTx EraCbor} : state.findInflight hash = some tx ↔
      tx ∈ state.inflight ∧ tx.hash = hash ∨ state.acknowledged.get? hash = some tx := by
  rw [MempoolState.findInflight_eq, Option.or_eq_some_iff, find_eq_some_iff sound.sentOnce]
  constructor
  · rintro (sent | ⟨-, held⟩)
    · exact Or.inl sent
    · exact Or.inr held
  · rintro (sent | held)
    · exact Or.inl sent
    · refine Or.inr ⟨find_eq_none_iff.mpr ?_, held⟩
      intro isSent
      rcases List.mem_map.mp isSent with ⟨sent, isInflight, rfl⟩
      rw [sound.apart sent isInflight] at held
      cases held

theorem ephemeral_receive (sound : EphemeralSound state) {tx : MempoolTx EraCbor}
    (absent : state.findInflight tx.hash = none) (received : state.receive tx = .ok next) :
    EphemeralSound next ∧ next.pending = state.pending ++ [tx] ∧
      next.findInflight = state.findInflight := by
  unfold MempoolState.receive at received
  split_ifs at received with isQueued
  rcases Except.ok.inj received with rfl
  rw [MempoolState.any_pending, decide_eq_true_eq] at isQueued
  exact ⟨⟨sound.queued.receive isQueued absent, sound.sentOnce, sound.apart, sound.keyed⟩, rfl, rfl⟩

theorem ephemeral_confirm (sound : EphemeralSound state) {order : List TxHash}
    (isOrder : order.Perm state.promoted.acknowledged.keys) (call : ConfirmCall) :
    EphemeralSound (state.confirm order call) ∧
      (∃ retried, (state.confirm order call).pending = state.pending ++ retried ∧
        ∀ tx ∈ retried, ∃ held, state.findInflight tx.hash = some held ∧ tx = held.retry) ∧
      ∀ hash tx, (state.confirm order call).findInflight hash = some tx →
        ∃ held, state.findInflight hash = some held ∧ held.payload = tx.payload := by
  have promotedEq : state.promoted.acknowledged.get? = state.findInflight :=
    funext (MempoolState.get?_promoted_eq sound.sentOnce)
  have pendingEq : (state.confirm order call).pending = state.pending ++
      BothStores.retriedOver call order state.findInflight := by
    rw [MempoolState.pending_confirm isOrder, BothStores.map_retry_handedOver, promotedEq]
  have findEq : (state.confirm order call).findInflight = fun hash =>
      (state.findInflight hash).bind fun tx => (verdict call hash tx).kept := by
    funext hash
    rw [MempoolState.findInflight_eq, MempoolState.inflight_confirm isOrder,
      MempoolState.get?_confirm isOrder, promotedEq]
    rfl
  have nodup : order.Nodup := isOrder.nodup_iff.mpr (OrderedMap.nodup_keys _)
  have noInflight : (state.confirm order call).inflight = [] :=
    MempoolState.inflight_confirm isOrder
  have confirmed : QueuedOnce
      (state.pending ++ BothStores.retriedOver call order state.findInflight)
      (fun hash => (state.findInflight hash).bind fun tx => (verdict call hash tx).kept) :=
    sound.queued.confirm nodup
  refine ⟨⟨?_, ?_, ?_, ?_⟩, ⟨_, pendingEq, sound.queued.retried⟩, ?_⟩
  · rw [pendingEq, findEq]
    exact confirmed
  · rw [noInflight]
    exact List.nodup_nil
  · intro tx member
    rw [noInflight] at member
    cases member
  · intro hash tx held
    rw [MempoolState.get?_confirm isOrder, promotedEq] at held
    exact confirmed.keyed hash tx held
  · intro hash tx found
    rw [findEq] at found
    exact payload_confirmed found

theorem ephemeral_markInflight (sound : EphemeralSound state) (hashes : List TxHash) :
    EphemeralSound (state.markInflight hashes) ∧
      (state.markInflight hashes).pending = state.pending.filter (·.hash ∉ hashes) ∧
      ∀ hash tx, (state.markInflight hashes).findInflight hash = some tx →
        state.findInflight hash = some tx ∨ hash ∈ hashes ∧
          ∃ queued ∈ state.pending, queued.hash = hash ∧ queued.payload = tx.payload := by
  let moved := (state.pending.filter fun tx => tx.hash ∈ hashes).map fun tx =>
    { tx with stage := MempoolTxStage.propagated }
  have inflightEq : (state.markInflight hashes).inflight = state.inflight ++ moved := rfl
  have movedFrom : ∀ tx ∈ moved, ∃ queued ∈ state.pending,
      queued.hash ∈ hashes ∧ queued.hash = tx.hash ∧ queued.payload = tx.payload := by
    intro tx member
    rcases List.mem_map.mp member with ⟨queued, isQueued, rfl⟩
    rcases List.mem_filter.mp isQueued with ⟨isPending, listed⟩
    exact ⟨queued, isPending, of_decide_eq_true listed, rfl, rfl⟩
  have movedAbsent : ∀ tx ∈ moved, state.findInflight tx.hash = none := by
    intro tx member
    rcases movedFrom tx member with ⟨queued, isPending, -, hashEq, -⟩
    rw [← hashEq]
    exact sound.queued.apart queued isPending
  have sentOnce : ((state.markInflight hashes).inflight.map MempoolTx.hash).Nodup := by
    rw [inflightEq, List.map_append]
    apply sound.sentOnce.append
    · rw [List.map_map]
      exact sound.queued.once.sublist (List.Sublist.map _ List.filter_sublist)
    · intro hash isSent isMoved
      rcases List.mem_map.mp isSent with ⟨sent, isInflight, rfl⟩
      rcases List.mem_map.mp isMoved with ⟨tx, isMoved, hashEq⟩
      have absent := movedAbsent tx isMoved
      rw [hashEq, sound.found_iff.mpr (Or.inl ⟨isInflight, rfl⟩)] at absent
      cases absent
  have apart : ∀ tx ∈ (state.markInflight hashes).inflight,
      state.acknowledged.get? tx.hash = none := by
    intro tx member
    rcases List.mem_append.mp member with isSent | isMoved
    · exact sound.apart tx isSent
    · apply Option.eq_none_iff_forall_ne_some.mpr
      intro held isHeld
      have absent := movedAbsent tx isMoved
      rw [sound.found_iff.mpr (Or.inr isHeld)] at absent
      cases absent
  have origin : ∀ hash tx, (state.markInflight hashes).findInflight hash = some tx →
      state.findInflight hash = some tx ∨ hash ∈ hashes ∧
        ∃ queued ∈ state.pending, queued.hash = hash ∧ queued.payload = tx.payload := by
    intro hash tx found
    rw [MempoolState.findInflight_eq, Option.or_eq_some_iff, find_eq_some_iff sentOnce] at found
    rcases found with ⟨member, rfl⟩ | ⟨-, held⟩
    · rcases List.mem_append.mp member with isSent | isMoved
      · exact Or.inl (sound.found_iff.mpr (Or.inl ⟨isSent, rfl⟩))
      · rcases movedFrom tx isMoved with ⟨queued, isPending, listed, hashEq, payloadEq⟩
        exact Or.inr ⟨hashEq ▸ listed, queued, isPending, hashEq, payloadEq⟩
    · exact Or.inl (sound.found_iff.mpr (Or.inr held))
  refine ⟨⟨?_, sentOnce, apart, sound.keyed⟩, rfl, origin⟩
  refine sound.queued.markInflight rfl origin ?_
  intro hash tx found
  rw [MempoolState.findInflight_eq, Option.or_eq_some_iff, find_eq_some_iff sentOnce] at found
  rcases found with ⟨-, hashEq⟩ | ⟨-, held⟩
  · exact hashEq
  · exact sound.keyed hash tx held

theorem ephemeral_markAcknowledged (sound : EphemeralSound state) (hashes : List TxHash) :
    EphemeralSound (state.markAcknowledged hashes) ∧
      (state.markAcknowledged hashes).pending = state.pending ∧
      ∀ hash tx, (state.markAcknowledged hashes).findInflight hash = some tx →
        ∃ held, state.findInflight hash = some held ∧ held.payload = tx.payload := by
  have written : ∀ hash tx, (state.markAcknowledged hashes).acknowledged.get? hash = some tx →
      (∃ sent ∈ state.inflight, sent.hash ∈ hashes ∧ sent.hash = hash ∧
        tx = { sent with stage := .acknowledged }) ∨
      state.acknowledged.get? hash = some tx := by
    intro hash tx held
    rcases OrderedMap.get?_insertAll_cases state.acknowledged held with moved | old
    · rcases List.mem_map.mp moved with ⟨sent, isSent, entryEq⟩
      rcases Prod.mk.inj entryEq with ⟨rfl, rfl⟩
      rcases List.mem_filter.mp isSent with ⟨isInflight, listed⟩
      exact Or.inl ⟨sent, isInflight, of_decide_eq_true listed, rfl, rfl⟩
    · exact Or.inr old
  have sentOnce : ((state.markAcknowledged hashes).inflight.map MempoolTx.hash).Nodup :=
    sound.sentOnce.sublist (List.Sublist.map _ List.filter_sublist)
  have keyed : ∀ hash tx, (state.markAcknowledged hashes).acknowledged.get? hash = some tx →
      tx.hash = hash := by
    intro hash tx held
    rcases written hash tx held with ⟨sent, -, -, hashEq, rfl⟩ | old
    · exact hashEq
    · exact sound.keyed hash tx old
  have apart : ∀ tx ∈ (state.markAcknowledged hashes).inflight,
      (state.markAcknowledged hashes).acknowledged.get? tx.hash = none := by
    intro tx member
    rcases List.mem_filter.mp member with ⟨isSent, notListed⟩
    apply Option.eq_none_iff_forall_ne_some.mpr
    intro held isHeld
    rcases written tx.hash held isHeld with ⟨sent, -, listed, hashEq, -⟩ | old
    · rw [hashEq] at listed
      exact of_decide_eq_true notListed listed
    · rw [sound.apart tx isSent] at old
      cases old
  have origin : ∀ hash tx, (state.markAcknowledged hashes).findInflight hash = some tx →
      ∃ held, state.findInflight hash = some held ∧ held.payload = tx.payload := by
    intro hash tx found
    rw [MempoolState.findInflight_eq, Option.or_eq_some_iff, find_eq_some_iff sentOnce] at found
    rcases found with ⟨member, rfl⟩ | ⟨-, held⟩
    · exact ⟨tx, sound.found_iff.mpr (Or.inl ⟨List.mem_of_mem_filter member, rfl⟩), rfl⟩
    · rcases written hash tx held with ⟨sent, isSent, -, rfl, rfl⟩ | old
      · exact ⟨sent, sound.found_iff.mpr (Or.inl ⟨isSent, rfl⟩), rfl⟩
      · exact ⟨tx, sound.found_iff.mpr (Or.inr old), rfl⟩
  refine ⟨⟨sound.queued.refind origin ?_, sentOnce, apart, keyed⟩, rfl, origin⟩
  intro hash tx found
  rw [MempoolState.findInflight_eq, Option.or_eq_some_iff, find_eq_some_iff sentOnce] at found
  rcases found with ⟨-, hashEq⟩ | ⟨-, held⟩
  · exact hashEq
  · exact keyed hash tx held

/-- The in-memory store is lawful. -/
def ephemeralLawful : ephemeralStore.Lawful where
  Sound := EphemeralSound
  start :=
    { queued :=
        { once := List.nodup_nil
          apart := fun _ member => by cases member
          keyed := fun _ _ found => by cases found }
      sentOnce := List.nodup_nil
      apart := fun _ member => by cases member
      keyed := fun _ _ held => by cases held }
  pendingStart := rfl
  inflightStart _ := rfl
  hasPending state := decide_eq_true_iff
  queuedOnce sound := sound.queued
  receive sound absent received := ephemeral_receive sound absent received
  confirm := by
    rintro state call _ sound ⟨order, isOrder, rfl⟩
    exact ephemeral_confirm sound isOrder call
  markInflight sound := ephemeral_markInflight sound _
  markAcknowledged sound := ephemeral_markAcknowledged sound _

end Ephemeral

end Submit

end Dolos
