import Dolos.Sync.SubmitStores

/-!
# What the submission worker offers

The queue of the mempool grows at its end only and the worker takes from its front only, so
whatever runs beside it, the transactions that entered the queue are those taken so far, in
order, followed by those pending. A transaction is offered once for each time it enters the
queue, and the counts by which the peer acknowledges name the ids the peer means.
-/

namespace Dolos.Submit

namespace Event

def entered : Event → List (MempoolTx EraCbor)
  | submitted tx => [tx]
  | retried txs => txs
  | _ => []

def takenTxs : Event → List (MempoolTx EraCbor)
  | taken txs => txs
  | _ => []

def announcedTxs : Event → List (MempoolTx EraCbor)
  | announced _ _ txs => txs
  | _ => []

def lostTxs : Event → List (MempoolTx EraCbor)
  | broken lost => lost
  | _ => []

def acknowledgedHashes : Event → List TxHash
  | acknowledged hashes => hashes
  | _ => []

end Event

/-- The transactions that entered the queue, in order. -/
def entered (events : List Event) : List (MempoolTx EraCbor) := events.flatMap Event.entered

/-- The transactions the worker took from the queue, in order. -/
def taken (events : List Event) : List (MempoolTx EraCbor) := events.flatMap Event.takenTxs

/-- The transactions whose ids were sent to a peer, in order. -/
def announced (events : List Event) : List (MempoolTx EraCbor) := events.flatMap Event.announcedTxs

/-- The transactions that were taken by a session that broke before their ids were sent. -/
def lost (events : List Event) : List (MempoolTx EraCbor) := events.flatMap Event.lostTxs

def acknowledgedHashes (events : List Event) : List TxHash :=
  events.flatMap Event.acknowledgedHashes

/-- What the session that goes on has shown. -/
def session (events : List Event) : List Event :=
  events.foldl (fun shown event =>
    match event with
    | .broken _ => []
    | event => shown ++ [event]) []

/-- The ids that the unit in hand acknowledges. -/
def Phase.ack : Phase → ℕ
  | execute unit => unit.ack
  | _ => 0

/-- The transaction was taken from the queue, with the payload it has. -/
def TakenAs (events : List Event) (hash : TxHash) (payload : EraCbor) : Prop :=
  ∃ tx ∈ taken events, tx.hash = hash ∧ tx.payload = payload

/-- A reply with ids keeps to what it answers. -/
def Answers (blocking : Bool) (req : Fin (2 ^ 16)) (txs : List (MempoolTx EraCbor)) : Prop :=
  txs.length ≤ req.val ∧ (blocking → 0 < req.val → txs ≠ [])

section Traces

variable {events : List Event} {event : Event}

theorem entered_concat : entered (events ++ [event]) = entered events ++ event.entered := by
  simp [entered]

theorem taken_concat : taken (events ++ [event]) = taken events ++ event.takenTxs := by
  simp [taken]

theorem announced_concat :
    announced (events ++ [event]) = announced events ++ event.announcedTxs := by
  simp [announced]

theorem lost_concat : lost (events ++ [event]) = lost events ++ event.lostTxs := by
  simp [lost]

theorem acknowledgedHashes_concat : acknowledgedHashes (events ++ [event]) =
    acknowledgedHashes events ++ event.acknowledgedHashes := by
  simp [acknowledgedHashes]

theorem session_broken {txs : List (MempoolTx EraCbor)} :
    session (events ++ [.broken txs]) = [] := by
  simp [session]

theorem session_concat (goesOn : ∀ txs, event ≠ .broken txs) :
    session (events ++ [event]) = session events ++ [event] := by
  cases event with
  | broken txs => exact absurd rfl (goesOn txs)
  | _ => simp [session]

theorem TakenAs.concat {hash : TxHash} {payload : EraCbor} (isTaken : TakenAs events hash payload) :
    TakenAs (events ++ [event]) hash payload := by
  rcases isTaken with ⟨tx, member, same⟩
  refine ⟨tx, ?_, same⟩
  rw [taken_concat]
  exact List.mem_append_left _ member

end Traces

section Steps

variable {store : SubmitStore} {world next : World store} {events : List Event} {event : Event}

attribute [local simp] Request.ack Event.entered Event.takenTxs Event.announcedTxs Event.lostTxs
  Event.acknowledgedHashes Phase.underway Phase.ack entered_concat taken_concat announced_concat
  lost_concat acknowledgedHashes_concat

/-- Every transaction that is taken is sent, underway, or lost with its session. -/
theorem sent_step (step : Step world event next)
    (sent : (taken events).Perm (announced events ++ lost events ++ world.phase.underway)) :
    (taken (events ++ [event])).Perm
      (announced (events ++ [event]) ++ lost (events ++ [event]) ++ next.phase.underway) := by
  cases step with
  | submit => simpa using sent
  | confirm => simpa using sent
  | request idle => simpa [idle] using sent
  | scheduleAgain idle => simpa [idle] using sent
  | acknowledge phase => simpa [phase] using sent
  | acknowledgeNonBlocking phase => simpa [phase] using sent
  | fulfil phase => simpa [phase] using sent
  | postpone phase => simpa [phase] using sent
  | peek phase => simpa [phase] using sent
  | @mark _ _ txs phase =>
      have before : (taken events).Perm (announced events ++ lost events) := by
        simpa [phase] using sent
      simpa using before.append_right txs
  | @replyTxIds _ _ txs phase =>
      have before : (taken events).Perm (announced events ++ (lost events ++ txs)) := by
        simpa [phase] using sent
      have moved : (announced events ++ (lost events ++ txs)).Perm
          (announced events ++ (txs ++ lost events)) :=
        List.perm_append_comm.append_left _
      simpa using before.trans moved
  | requestTxs phase => simpa [phase] using sent
  | findInflight phase => simpa [phase] using sent
  | replyTxs phase => simpa [phase] using sent
  | restart => simpa using sent

theorem inOrder_step (step : Step world event next)
    (inOrder : (announced events ++ world.phase.underway).Sublist (taken events)) :
    (announced (events ++ [event]) ++ next.phase.underway).Sublist (taken (events ++ [event])) := by
  cases step with
  | submit => simpa using inOrder
  | confirm => simpa using inOrder
  | request idle => simpa [idle] using inOrder
  | scheduleAgain idle => simpa [idle] using inOrder
  | acknowledge phase => simpa [phase] using inOrder
  | acknowledgeNonBlocking phase => simpa [phase] using inOrder
  | fulfil phase => simpa [phase] using inOrder
  | postpone phase => simpa [phase] using inOrder
  | peek phase => simpa [phase] using inOrder
  | @mark _ _ txs phase =>
      have before : (announced events).Sublist (taken events) := by simpa [phase] using inOrder
      simpa using before.append_right txs
  | replyTxIds phase => simpa [phase] using inOrder
  | requestTxs phase => simpa [phase] using inOrder
  | findInflight phase => simpa [phase] using inOrder
  | replyTxs phase => simpa [phase] using inOrder
  | restart => simpa using (List.sublist_append_left _ _).trans inOrder

/-- The worker and the peer count the same ids. -/
structure SameWindow (world : World store) (events : List Event) : Prop where
  shown : (announced (session events)).map MempoolTx.hash =
    acknowledgedHashes (session events) ++
      world.worker.propagatedHashes.take world.phase.ack ++ world.window
  propagated : world.worker.propagatedHashes =
    world.worker.propagatedHashes.take world.phase.ack ++ world.window ++
      world.phase.underway.map MempoolTx.hash

theorem acked_eq (worker : Worker) (count : ℕ) :
    worker.acked count = worker.propagatedHashes.take count := by
  rw [Worker.acked, List.take_eq_take_iff, min_assoc, min_self]

theorem drop_acked (worker : Worker) (count : ℕ) :
    worker.propagatedHashes.drop (worker.acked count).length =
      worker.propagatedHashes.drop count := by
  rw [acked_eq, List.length_take, List.drop_eq_drop_iff, min_assoc, min_self]

/-- The worker drains what the peer has dropped. -/
theorem acknowledged_same {worker : Worker} {count : ℕ} {window : List TxHash}
    (shown : (announced (session events)).map MempoolTx.hash =
      acknowledgedHashes (session events) ++ worker.propagatedHashes.take count ++ window)
    (propagated : worker.propagatedHashes = worker.propagatedHashes.take count ++ window)
    (workerEq : next.worker.propagatedHashes =
      worker.propagatedHashes.drop (worker.acked count).length)
    (windowEq : next.window = window) (noAck : next.phase.ack = 0)
    (nothing : next.phase.underway = []) :
    SameWindow next (events ++ [.acknowledged (worker.acked count)]) := by
  have dropped : worker.propagatedHashes.drop count = window := by
    have parts := (List.take_append_drop count worker.propagatedHashes).trans propagated
    exact (List.append_right_inj _).mp parts
  refine ⟨?_, ?_⟩
  · rw [session_concat (fun txs same => by cases same), announced_concat, acknowledgedHashes_concat,
      noAck, windowEq, acked_eq]
    simpa using shown
  · rw [workerEq, drop_acked, dropped, noAck, windowEq, nothing]
    simp

theorem sameWindow_step (step : Step world event next) (same : SameWindow world events) :
    SameWindow next (events ++ [event]) := by
  rcases same with ⟨shown, propagated⟩
  cases step with
  | submit => exact ⟨by simpa [session_concat] using shown, by simpa using propagated⟩
  | confirm => exact ⟨by simpa [session_concat] using shown, by simpa using propagated⟩
  | @request unit idle =>
      have windowEq : world.worker.propagatedHashes = world.window := by
        simpa [idle] using propagated
      refine ⟨?_, ?_⟩
      · simpa [session_concat, idle, windowEq] using shown
      · simp [windowEq]
  | scheduleAgain idle =>
      exact ⟨by simpa [session_concat, idle] using shown, by simpa [idle] using propagated⟩
  | @acknowledge ack _ phase =>
      rw [phase] at shown propagated
      exact acknowledged_same shown (propagated.trans (List.append_nil _)) rfl rfl rfl rfl
  | @acknowledgeNonBlocking ack _ phase =>
      rw [phase] at shown propagated
      exact acknowledged_same shown (propagated.trans (List.append_nil _)) rfl rfl rfl rfl
  | fulfil phase =>
      exact ⟨by simpa [session_concat, phase] using shown, by simpa [phase] using propagated⟩
  | postpone phase =>
      exact ⟨by simpa [session_concat, phase] using shown, by simpa [phase] using propagated⟩
  | peek phase =>
      exact ⟨by simpa [session_concat, phase] using shown, by simpa [phase] using propagated⟩
  | @mark _ _ txs phase =>
      have windowEq : world.worker.propagatedHashes = world.window := by
        simpa [phase] using propagated
      refine ⟨?_, ?_⟩
      · simpa [session_concat, phase] using shown
      · simp [windowEq]
  | @replyTxIds _ _ txs phase =>
      have windowEq : world.worker.propagatedHashes =
          world.window ++ txs.map MempoolTx.hash := by
        simpa [phase] using propagated
      refine ⟨?_, ?_⟩
      · simp only [phase, Phase.ack, List.take_zero, List.append_nil] at shown
        simp [session_concat, shown, toN2nReply, Function.comp_def]
      · simp [windowEq, toN2nReply, Function.comp_def]
  | requestTxs phase =>
      exact ⟨by simpa [session_concat, phase] using shown, by simpa [phase] using propagated⟩
  | findInflight phase =>
      exact ⟨by simpa [session_concat, phase] using shown, by simpa [phase] using propagated⟩
  | replyTxs phase =>
      exact ⟨by simpa [session_concat, phase] using shown, by simpa [phase] using propagated⟩
  | restart =>
      exact ⟨by simp [session_broken, announced, acknowledgedHashes, Worker.bootstrap],
        by simp [Worker.bootstrap]⟩

end Steps

section Queue

variable {store : SubmitStore} (lawful : store.Lawful) {world next : World store}
  {events : List Event} {event : Event}

attribute [local simp] Event.entered Event.takenTxs entered_concat taken_concat

/-- What the worker knows at each place of `execute`. -/
def World.Knows (world : World store) (events : List Event) : Phase → Prop
  | .peek blocking _ => blocking → store.peekPending world.mempool ≠ []
  | .mark blocking req txs => txs <+: store.peekPending world.mempool ∧ Answers blocking req txs
  | .replyTxIds blocking req txs => Answers blocking req txs
  | .collect ids rest found => ∃ asked, ids = asked ++ rest ∧
      (found.map MempoolTx.hash).Sublist asked ∧ ∀ tx ∈ found, TakenAs events tx.hash tx.payload
  | _ => True

/-- The queue of the store against what was shown. -/
structure QueueKept (world : World store) (events : List Event) : Prop where
  sound : lawful.Sound world.mempool
  queue : entered events = taken events ++ store.peekPending world.mempool
  inflight : ∀ hash tx, store.findInflight world.mempool hash = some tx →
    TakenAs events hash tx.payload
  knows : world.Knows events world.phase

variable {lawful}

/-- What the worker knows stays so when transactions come to the end of the queue. -/
theorem knows_of_grown (phase : Phase) {added : List (MempoolTx EraCbor)}
    (grown : store.peekPending next.mempool = store.peekPending world.mempool ++ added)
    (knows : world.Knows events phase) : next.Knows (events ++ [event]) phase := by
  cases phase with
  | peek blocking req =>
      intro isBlocking
      rw [grown]
      exact List.append_ne_nil_of_left_ne_nil (knows isBlocking) _
  | mark blocking req txs =>
      refine ⟨?_, knows.2⟩
      rw [grown]
      exact knows.1.trans (List.prefix_append _ _)
  | replyTxIds blocking req txs => exact knows
  | collect ids rest found =>
      rcases knows with ⟨asked, askedEq, sublist, isTaken⟩
      exact ⟨asked, askedEq, sublist, fun tx member => (isTaken tx member).concat⟩
  | _ => trivial

/-- The threads beside the worker add to the end of the queue only. -/
theorem QueueKept.grow (kept : QueueKept lawful world events) {added : List (MempoolTx EraCbor)}
    (sound : lawful.Sound next.mempool)
    (grown : store.peekPending next.mempool = store.peekPending world.mempool ++ added)
    (origin : ∀ hash tx, store.findInflight next.mempool hash = some tx →
      ∃ held, store.findInflight world.mempool hash = some held ∧ held.payload = tx.payload)
    (samePhase : next.phase = world.phase) (enteredEq : event.entered = added)
    (noneTaken : event.takenTxs = []) : QueueKept lawful next (events ++ [event]) := by
  refine ⟨sound, ?_, ?_, ?_⟩
  · rw [entered_concat, taken_concat, enteredEq, noneTaken, kept.queue, grown, List.append_nil,
      List.append_assoc]
  · intro hash tx found
    rcases origin hash tx found with ⟨held, heldEq, payloadEq⟩
    rw [← payloadEq]
    exact (kept.inflight hash held heldEq).concat
  · rw [samePhase]
    exact knows_of_grown world.phase grown kept.knows

/-- A step that leaves the queue as it is. -/
theorem QueueKept.stay (kept : QueueKept lawful world events) (sound : lawful.Sound next.mempool)
    (same : store.peekPending next.mempool = store.peekPending world.mempool)
    (origin : ∀ hash tx, store.findInflight next.mempool hash = some tx →
      ∃ held, store.findInflight world.mempool hash = some held ∧ held.payload = tx.payload)
    (noneEntered : event.entered = []) (noneTaken : event.takenTxs = [])
    (knows : next.Knows (events ++ [event]) next.phase) :
    QueueKept lawful next (events ++ [event]) := by
  refine ⟨sound, ?_, ?_, knows⟩
  · rw [entered_concat, taken_concat, noneEntered, noneTaken, List.append_nil, List.append_nil,
      kept.queue, same]
  · intro hash tx found
    rcases origin hash tx found with ⟨held, heldEq, payloadEq⟩
    rw [← payloadEq]
    exact (kept.inflight hash held heldEq).concat

/-- The transactions that are taken are the first of the queue. -/
theorem filter_taken {pending txs : List (MempoolTx EraCbor)}
    (once : (pendingHashes pending).Nodup) (first : txs <+: pending) :
    pending = txs ++ pending.filter (·.hash ∉ txs.map MempoolTx.hash) := by
  rcases first with ⟨rest, rfl⟩
  have apart := (List.nodup_append.mp ((List.map_append).symm ▸ once :
    (txs.map MempoolTx.hash ++ rest.map MempoolTx.hash).Nodup)).2.2
  congr 1
  rw [List.filter_append, List.filter_eq_nil_iff.mpr, List.nil_append, List.filter_eq_self.mpr]
  · intro tx member
    apply decide_eq_true
    intro isTaken
    exact apart tx.hash isTaken tx.hash (List.mem_map_of_mem member) rfl
  · intro tx member notTaken
    exact of_decide_eq_true notTaken (List.mem_map_of_mem member)

/-- Hashes passed on as acknowledged leave the queue as it is; no call is made for none. -/
theorem acknowledged_stays {state : store.State} (sound : lawful.Sound state)
    (hashes : List TxHash) :
    let after := if hashes = [] then state else store.markAcknowledged state hashes
    lawful.Sound after ∧ store.peekPending after = store.peekPending state ∧
      ∀ hash tx, store.findInflight after hash = some tx →
        ∃ held, store.findInflight state hash = some held ∧ held.payload = tx.payload := by
  intro after
  by_cases none_ : hashes = []
  · have same : after = state := if_pos none_
    rw [same]
    exact ⟨sound, rfl, fun hash tx found => ⟨tx, found, rfl⟩⟩
  · have marked : after = store.markAcknowledged state hashes := if_neg none_
    rw [marked]
    exact lawful.markAcknowledged sound

theorem queueKept_step (step : Step world event next) (kept : QueueKept lawful world events) :
    QueueKept lawful next (events ++ [event]) := by
  have unchanged : ∀ hash tx, store.findInflight world.mempool hash = some tx →
      ∃ held, store.findInflight world.mempool hash = some held ∧ held.payload = tx.payload :=
    fun hash tx found => ⟨tx, found, rfl⟩
  have knows := kept.knows
  cases step with
  | submit admits received =>
      rcases lawful.receive kept.sound admits received with ⟨sound, grown, findEq⟩
      refine kept.grow sound grown ?_ rfl rfl rfl
      rw [findEq]
      exact unchanged
  | confirm confirmed =>
      rcases lawful.confirm kept.sound confirmed with ⟨sound, ⟨retried, grown, -⟩, origin⟩
      exact kept.grow sound grown origin rfl (by rw [Event.entered, grown, List.drop_left]) rfl
  | request => exact kept.stay kept.sound rfl unchanged rfl rfl trivial
  | scheduleAgain => exact kept.stay kept.sound rfl unchanged rfl rfl trivial
  | acknowledge =>
      rcases acknowledged_stays kept.sound (world.worker.acked _) with ⟨sound, same, origin⟩
      exact kept.stay sound same origin rfl rfl trivial
  | acknowledgeNonBlocking =>
      rcases acknowledged_stays kept.sound (world.worker.acked _) with ⟨sound, same, origin⟩
      exact kept.stay sound same origin rfl rfl fun isBlocking => by cases isBlocking
  | fulfil _ pending =>
      exact kept.stay kept.sound rfl unchanged rfl rfl fun _ =>
        (lawful.hasPending _).mp pending
  | postpone => exact kept.stay kept.sound rfl unchanged rfl rfl trivial
  | @peek blocking req phase =>
      rw [phase] at knows
      refine kept.stay kept.sound rfl unchanged rfl rfl ⟨List.take_prefix _ _, ?_, ?_⟩
      · exact List.length_take_le _ _
      · intro isBlocking positive isEmpty
        rcases List.take_eq_nil_iff.mp isEmpty with isZero | isNil
        · omega
        · exact knows isBlocking isNil
  | @mark blocking req txs phase =>
      rw [phase] at knows
      rcases lawful.markInflight kept.sound with ⟨sound, pendingEq, origin⟩
      refine ⟨sound, ?_, ?_, knows.2⟩
      · have parts := filter_taken (lawful.queuedOnce kept.sound).once knows.1
        have whole : entered events = taken events ++ (txs ++ store.peekPending
            (store.markInflight world.mempool (txs.map MempoolTx.hash))) := by
          rw [kept.queue, pendingEq, ← parts]
        simpa using whole
      · intro hash tx found
        rcases origin hash tx found with before | ⟨listed, queued, isQueued, rfl, payloadEq⟩
        · exact (kept.inflight hash tx before).concat
        · rcases List.mem_map.mp listed with ⟨first, isFirst, hashEq⟩
          have same : first = queued := List.inj_on_of_nodup_map
            (lawful.queuedOnce kept.sound).once (knows.1.subset isFirst) isQueued hashEq
          subst same
          refine ⟨first, ?_, rfl, payloadEq⟩
          rw [taken_concat]
          exact List.mem_append_right _ isFirst
  | replyTxIds => exact kept.stay kept.sound rfl unchanged rfl rfl trivial
  | @requestTxs ids =>
      exact kept.stay kept.sound rfl unchanged rfl rfl
        ⟨[], rfl, List.Sublist.refl _, fun tx member => by cases member⟩
  | @findInflight ids rest id found phase =>
      rw [phase] at knows
      rcases knows with ⟨asked, askedEq, sublist, isTaken⟩
      have keyed := (lawful.queuedOnce kept.sound).keyed
      refine kept.stay kept.sound rfl unchanged rfl rfl ⟨asked ++ [id], ?_, ?_, ?_⟩
      · rw [askedEq, List.append_assoc, List.singleton_append]
      · rw [List.map_append]
        refine sublist.append ?_
        cases found : store.findInflight world.mempool id with
        | none => exact List.nil_sublist _
        | some tx =>
            rw [← keyed id tx found]
            exact List.Sublist.refl _
      · intro tx member
        rcases List.mem_append.mp member with earlier | now
        · exact (isTaken tx earlier).concat
        · have found := Option.mem_toList.mp now
          have hashEq := keyed id tx found
          subst hashEq
          exact (kept.inflight _ tx found).concat
  | replyTxs => exact kept.stay kept.sound rfl unchanged rfl rfl trivial
  | restart => exact kept.stay kept.sound rfl unchanged rfl rfl trivial

theorem queueKept_start : QueueKept lawful (.start store) [] := by
  refine ⟨lawful.start, ?_, ?_, trivial⟩
  · rw [World.start, lawful.pendingStart]
    rfl
  · intro hash tx found
    rw [World.start, lawful.inflightStart] at found
    cases found

/-- What the replies were, and what came back into the queue. -/
structure RepliesKept (events : List Event) : Prop where
  announced : ∀ blocking req txs, .announced blocking req txs ∈ events → Answers blocking req txs
  served : ∀ ids bodies, .served ids bodies ∈ events →
    ∃ found : List (MempoolTx EraCbor), bodies = found.map toN2nBody ∧
      (found.map MempoolTx.hash).Sublist ids ∧ ∀ tx ∈ found, TakenAs events tx.hash tx.payload
  retried : ∀ txs, .retried txs ∈ events → ∀ tx ∈ txs, TakenAs events tx.hash tx.payload

theorem repliesKept_step (step : Step world event next) (kept : QueueKept lawful world events)
    (replies : RepliesKept events) : RepliesKept (events ++ [event]) := by
  have knows := kept.knows
  refine ⟨?_, ?_, ?_⟩
  · intro blocking req txs member
    rcases List.mem_append.mp member with earlier | now
    · exact replies.announced blocking req txs earlier
    · rcases List.mem_singleton.mp now with rfl
      cases step with
      | replyTxIds phase =>
          rw [phase] at knows
          exact knows
  · intro ids bodies member
    rcases List.mem_append.mp member with earlier | now
    · rcases replies.served ids bodies earlier with ⟨found, bodiesEq, sublist, isTaken⟩
      exact ⟨found, bodiesEq, sublist, fun tx isFound => (isTaken tx isFound).concat⟩
    · rcases List.mem_singleton.mp now with rfl
      cases step with
      | replyTxs phase =>
          rw [phase] at knows
          rcases knows with ⟨asked, rfl, sublist, isTaken⟩
          rw [List.append_nil]
          exact ⟨_, rfl, sublist, fun tx isFound => (isTaken tx isFound).concat⟩
  · intro txs member tx isRetried
    rcases List.mem_append.mp member with earlier | now
    · exact (replies.retried txs earlier tx isRetried).concat
    · rcases List.mem_singleton.mp now with rfl
      cases step with
      | confirm confirmed =>
          rcases lawful.confirm kept.sound confirmed with ⟨-, ⟨retried, grown, origin⟩, -⟩
          rw [grown, List.drop_left] at isRetried
          rcases origin tx isRetried with ⟨held, found, rfl⟩
          exact (kept.inflight _ held found).concat

end Queue

/-- Across any interleaving of the worker with submissions, confirmations and rollbacks, and
across sessions that break: the transactions that entered the queue are those taken for the
peer, in order, and then those pending; each that was taken was announced once, or is about to
be, or was lost with its session; the ids announced in a session are those passed on as
acknowledged, then those the request in hand acknowledges, then the window of the peer; no
reply holds more ids than were asked for, and none that blocks is empty; and the bodies served
are those of ids asked for, as they were taken. -/
theorem submission_law {store : SubmitStore} (lawful : store.Lawful) {world : World store}
    {events : List Event} (reaches : Reaches world events) :
    entered events = taken events ++ store.peekPending world.mempool ∧
    (pendingHashes (store.peekPending world.mempool)).Nodup ∧
    (taken events).Perm (announced events ++ lost events ++ world.phase.underway) ∧
    (announced events ++ world.phase.underway).Sublist (taken events) ∧
    SameWindow world events ∧ RepliesKept events := by
  have invariant : QueueKept lawful world events ∧
      (taken events).Perm (announced events ++ lost events ++ world.phase.underway) ∧
      (announced events ++ world.phase.underway).Sublist (taken events) ∧
      SameWindow world events ∧ RepliesKept events := by
    induction reaches with
    | start =>
        refine ⟨queueKept_start, List.Perm.refl _, List.Sublist.refl _, ⟨rfl, rfl⟩, ?_⟩
        constructor
        · intro _ _ _ member
          cases member
        · intro _ _ member
          cases member
        · intro _ member
          cases member
    | step _ step ih =>
        rcases ih with ⟨kept, sent, inOrder, same, replies⟩
        exact ⟨queueKept_step step kept, sent_step step sent, inOrder_step step inOrder,
          sameWindow_step step same, repliesKept_step step kept replies⟩
  rcases invariant with ⟨kept, sent, inOrder, same, replies⟩
  exact ⟨kept.queue, (lawful.queuedOnce kept.sound).once, sent, inOrder, same, replies⟩

section Samples

def resentTx : EraCbor := ⟨⟨7, by decide⟩, [0]⟩

/-- A run in which a transaction is announced, rolled back and announced again, and what the
law says of it. -/
def Resends (store : SubmitStore) : Prop :=
  ∃ (world : World store) (events : List Event),
    Reaches world events ∧ (announced events).map MempoolTx.hash = [1, 1] ∧
      (entered events = taken events ++ store.peekPending world.mempool ∧
        (pendingHashes (store.peekPending world.mempool)).Nodup ∧
        (taken events).Perm (announced events ++ lost events ++ world.phase.underway) ∧
        (announced events ++ world.phase.underway).Sublist (taken events) ∧
        SameWindow world events ∧ RepliesKept events)

theorem submission_law_resent : Resends ephemeralStore ∧ Resends redbStore := by
  constructor
  · have queued : Reaches _ _ := .step .start (@Step.submit ephemeralStore _ 1 resentTx _ rfl rfl)
    have asked := queued.step (@Step.request _ _ (.txIds 0 3) rfl rfl)
    have offered := (((asked.step (.acknowledge rfl)).step (.fulfil rfl rfl)).step
      (.peek rfl)).step (.mark rfl)
    have sent := offered.step (.replyTxIds rfl)
    have undone := sent.step
      (@Step.confirm _ _ ⟨.specific 5 5, [], [1], 6, 10⟩ _ ⟨[1], by decide, rfl⟩)
    have again := undone.step (@Step.request _ _ (.txIdsNonBlocking 1 3) rfl rfl)
    have resent := (((again.step (.acknowledgeNonBlocking rfl)).step (.peek rfl)).step
      (.mark rfl)).step (.replyTxIds rfl)
    exact ⟨_, _, resent, by decide +kernel, submission_law ephemeralLawful resent⟩
  · have queued : Reaches _ _ := .step .start (@Step.submit redbStore _ 1 resentTx _ trivial rfl)
    have asked := queued.step (@Step.request _ _ (.txIds 0 3) rfl rfl)
    have offered := (((asked.step (.acknowledge rfl)).step (.fulfil rfl rfl)).step
      (.peek rfl)).step (.mark rfl)
    have sent := offered.step (.replyTxIds rfl)
    have undone := sent.step (@Step.confirm _ _ ⟨.specific 5 5, [], [1], 6, 10⟩ _ rfl)
    have again := undone.step (@Step.request _ _ (.txIdsNonBlocking 1 3) rfl rfl)
    have resent := (((again.step (.acknowledgeNonBlocking rfl)).step (.peek rfl)).step
      (.mark rfl)).step (.replyTxIds rfl)
    exact ⟨_, _, resent, by decide +kernel, submission_law redbLawful resent⟩

end Samples

end Dolos.Submit
