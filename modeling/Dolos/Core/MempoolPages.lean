import Dolos.Core.MempoolDepth
import Dolos.Lib.Pager

/-!
# Pages of the finalized log

`dump_finalized` gives a client the finalized log by pages, and confirmations go on
between two pages. In the tables a cursor is a sequence number and nothing is ever
removed; in memory a cursor is a position in a log that each confirmation cuts back to
its last thousand entries.
-/

namespace Dolos

abbrev MempoolPage (P : Type) := Page (MempoolTx P)

namespace MempoolState

variable {P : Type}

def dumpFinalized (state : MempoolState P) (cursor limit : ℕ) : MempoolPage P :=
  let items := (state.finalizedLog.drop cursor).take limit
  let finish := cursor + items.length
  ⟨items, if finish < state.finalizedLog.length then some finish else none⟩

/-- The call moves the transaction to the finalized log. -/
def logs (call : ConfirmCall) (hash : TxHash) (tx : MempoolTx P) : Bool :=
  if hash ∈ call.seenTxs then call.finalizeThreshold ≤ tx.confirmations + 1
  else if hash ∈ call.unseenTxs then false
  else if tx.stage = .confirmed then call.finalizeThreshold ≤ tx.confirmations + 1
  else call.dropThreshold ≤ tx.nonConfirmations + 1

/-- The log has room for the transactions that the call moves there. -/
def HasRoom (state : MempoolState P) : MempoolCall P → Prop
  | .confirm call =>
      state.finalizedLog.length +
        state.promoted.acknowledged.entries.countP (fun entry => logs call entry.1 entry.2) ≤
          maxFinalizedLog
  | _ => True

theorem covers_dumpFinalized (state : MempoolState P) (cursor : ℕ) {limit : ℕ}
    (positive : 1 ≤ limit) :
    (state.dumpFinalized cursor limit).Covers state.finalizedLog cursor := by
  refine ⟨List.take_prefix _ _, ?_, ?_⟩
  · intro ended
    simp only [dumpFinalized, ite_eq_right_iff, reduceCtorEq, imp_false, not_lt] at ended ⊢
    simp only [List.length_take, List.length_drop] at ended
    apply List.take_of_length_le
    simp only [List.length_drop]
    omega
  · intro next more
    simp only [dumpFinalized, Option.ite_none_right_eq_some, Option.some.injEq] at more ⊢
    rcases more with ⟨further, rfl⟩
    refine ⟨rfl, ?_⟩
    apply List.ne_nil_of_length_pos
    simp only [List.length_take, List.length_drop] at further ⊢
    omega

theorem isSome_logEntry_settled (call : ConfirmCall) (tx : MempoolTx P) :
    ((settled call tx).handed.bind logEntry).isSome =
      decide (call.finalizeThreshold ≤ tx.confirmations) := by
  unfold settled
  split_ifs with deep
  · simp [Fate.handed, logEntry, deep]
  · simp [Fate.handed, deep]

theorem isSome_logEntry (call : ConfirmCall) (hash : TxHash) (tx : MempoolTx P) :
    ((verdict call hash tx).handed.bind logEntry).isSome = logs call hash tx := by
  unfold verdict logs
  split_ifs with seen unseen confirmed stale
  · exact isSome_logEntry_settled call (tx.confirm call.point)
  · simp [Fate.handed, logEntry]
  · exact isSome_logEntry_settled call (tx.confirm call.point)
  · simp [Fate.handed, logEntry, show call.dropThreshold ≤ tx.nonConfirmations + 1 from stale]
  · simp [Fate.handed, show ¬ call.dropThreshold ≤ tx.nonConfirmations + 1 from stale]

variable {state next : MempoolState P} {call : MempoolCall P} {order : List TxHash}
  (isOrder : order.Perm state.promoted.acknowledged.keys)

include isOrder

theorem length_handedOver (call : ConfirmCall) :
    ((handedOver call order state.promoted.acknowledged.get?).filterMap logEntry).length =
      state.promoted.acknowledged.entries.countP fun entry => logs call entry.1 entry.2 := by
  have moved : ∀ entry ∈ state.promoted.acknowledged.entries,
      (((state.promoted.acknowledged.get? entry.1).bind fun tx =>
        (verdict call entry.1 tx).handed).bind logEntry).isSome = logs call entry.1 entry.2 := by
    intro entry member
    rw [OrderedMap.mem_entries_iff.mp member]
    exact isSome_logEntry call entry.1 entry.2
  rw [handedOver, List.filterMap_filterMap, List.length_filterMap_eq_countP,
    isOrder.countP_eq, OrderedMap.keys, List.countP_map]
  apply List.countP_congr
  intro entry member
  simp only [Function.comp_apply, moved entry member]

theorem finalizedLog_grows (room : state.HasRoom call) :
    state.finalizedLog <+: (state.perform order call).2.finalizedLog := by
  cases call with
  | receive tx =>
      simp only [perform, receive]
      split_ifs
      · exact List.prefix_refl _
      · exact List.prefix_refl _
  | markInflight hashes => exact List.prefix_refl _
  | markAcknowledged hashes => exact List.prefix_refl _
  | confirm call =>
      rcases finalizedLog_confirm isOrder call with ⟨surplus, surplusLe, logEq⟩
      simp only [HasRoom] at room
      rw [List.length_append, length_handedOver isOrder call, Nat.sub_eq_zero_of_le room]
        at surplusLe
      simp only [perform, logEq, Nat.le_zero.mp surplusLe, List.drop_zero]
      exact List.prefix_append _ _

end MempoolState

section Tables

variable {P : Type}

namespace FinalizedTable

/-- The sequence numbers of the table are the positions of its entries. -/
def Numbered (table : OrderedMap ℕ (FinalizedEntry P)) : Prop :=
  table.keys = List.range table.entries.length

theorem Numbered.key_eq {table : OrderedMap ℕ (FinalizedEntry P)} (numbered : Numbered table)
    {position : ℕ} {entry : ℕ × FinalizedEntry P}
    (held : table.entries[position]? = some entry) : entry.1 = position := by
  have keyed : table.keys[position]? = some entry.1 := by
    simp [OrderedMap.keys, held]
  rw [numbered] at keyed
  rcases List.getElem?_eq_some_iff.mp keyed with ⟨_, keyEq⟩
  simpa using keyEq.symm

theorem Numbered.filter_eq {table : OrderedMap ℕ (FinalizedEntry P)} (numbered : Numbered table)
    (cursor : ℕ) :
    table.entries.filter (fun entry => cursor ≤ entry.1) = table.entries.drop cursor := by
  have before : (table.entries.take cursor).filter (fun entry => cursor ≤ entry.1) = [] := by
    apply List.filter_eq_nil_iff.mpr
    intro entry member
    rcases List.mem_take_iff_getElem.mp member with ⟨position, within, entryEq⟩
    have keyEq := numbered.key_eq (List.getElem?_eq_some_iff.mpr ⟨by omega, entryEq⟩)
    simp only [decide_eq_true_eq]
    omega
  have after : (table.entries.drop cursor).filter (fun entry => cursor ≤ entry.1) =
      table.entries.drop cursor := by
    apply List.filter_eq_self.mpr
    intro entry member
    rcases List.mem_drop_iff_getElem.mp member with ⟨position, within, entryEq⟩
    have keyEq := numbered.key_eq (List.getElem?_eq_some_iff.mpr ⟨by omega, entryEq⟩)
    simp only [decide_eq_true_eq]
    omega
  calc table.entries.filter (fun entry => cursor ≤ entry.1)
      = (table.entries.take cursor ++ table.entries.drop cursor).filter
          (fun entry => cursor ≤ entry.1) := by rw [List.take_append_drop]
    _ = table.entries.drop cursor := by rw [List.filter_append, before, after, List.nil_append]

theorem Numbered.nextSeq_eq {table : OrderedMap ℕ (FinalizedEntry P)}
    (numbered : Numbered table) : nextSeq table = table.entries.length := by
  unfold nextSeq
  cases last : table.entries.getLast? with
  | none => simp [List.getLast?_eq_none_iff.mp last]
  | some greatest =>
      have nonempty : table.entries ≠ [] := by
        intro empty
        simp [empty] at last
      have positive := List.length_pos_iff.mpr nonempty
      rw [List.getLast?_eq_getElem?] at last
      have keyEq := numbered.key_eq last
      simp only
      omega

theorem Numbered.append {table : OrderedMap ℕ (FinalizedEntry P)} (numbered : Numbered table)
    (entry : FinalizedEntry P) : Numbered (FinalizedTable.append table entry) := by
  have keysEq : table.entries.map Prod.fst = List.range table.entries.length := numbered
  simp only [Numbered, OrderedMap.keys, FinalizedTable.entries_append, List.map_append,
    List.map_cons, List.map_nil, List.length_append, List.length_singleton, List.range_succ,
    numbered.nextSeq_eq, keysEq]

theorem Numbered.foldl_append {table : OrderedMap ℕ (FinalizedEntry P)}
    (numbered : Numbered table) (entries : List (FinalizedEntry P)) :
    Numbered (entries.foldl FinalizedTable.append table) := by
  induction entries generalizing table with
  | nil => exact numbered
  | cons entry rest ih => exact ih (numbered.append entry)

theorem Numbered.last_eq {table : OrderedMap ℕ (FinalizedEntry P)} (numbered : Numbered table)
    {cursor limit : ℕ} {last : ℕ × FinalizedEntry P}
    (lastEq : ((table.entries.drop cursor).take limit).getLast? = some last) :
    last.1 + 1 = cursor + ((table.entries.drop cursor).take limit).length := by
  have nonempty : (table.entries.drop cursor).take limit ≠ [] := by
    intro empty
    simp [empty] at lastEq
  have positive := List.length_pos_iff.mpr nonempty
  rw [List.getLast?_eq_getElem?, List.getElem?_take_of_lt (by
    simp only [List.length_take, List.length_drop] at positive ⊢
    omega), List.getElem?_drop] at lastEq
  have keyEq := numbered.key_eq lastEq
  omega

end FinalizedTable

variable [Inhabited P]

/-- The entry as a client sees it; one without a payload shows an empty one. -/
def FinalizedEntry.intoMempoolTx (entry : FinalizedEntry P) : MempoolTx P :=
  ⟨entry.hash, entry.payload.getD default,
    if entry.dropped.getD false then .dropped else .finalized,
    entry.confirmations, 0, entry.confirmedAt.map .fromBytes⟩

namespace FinalizedTable

def paginate (table : OrderedMap ℕ (FinalizedEntry P)) (cursor limit : ℕ) : MempoolPage P :=
  let taken := (table.entries.filter fun entry => cursor ≤ entry.1).take limit
  let items := taken.map fun entry => entry.2.intoMempoolTx
  ⟨items, if limit ≤ items.length then taken.getLast?.map fun last => last.1 + 1 else none⟩

def transactions (table : OrderedMap ℕ (FinalizedEntry P)) : List (MempoolTx P) :=
  table.entries.map fun entry => entry.2.intoMempoolTx

theorem transactions_foldl_append (table : OrderedMap ℕ (FinalizedEntry P))
    (entries : List (FinalizedEntry P)) :
    transactions (entries.foldl FinalizedTable.append table) =
      transactions table ++ entries.map FinalizedEntry.intoMempoolTx := by
  have values := congrArg (List.map FinalizedEntry.intoMempoolTx)
    (FinalizedTable.values_foldl_append table entries)
  rw [List.map_append, List.map_map, List.map_map] at values
  exact values

theorem Numbered.covers_paginate {table : OrderedMap ℕ (FinalizedEntry P)}
    (numbered : Numbered table) (cursor : ℕ) {limit : ℕ} (positive : 1 ≤ limit) :
    (paginate table cursor limit).Covers (transactions table) cursor := by
  have itemsEq : (paginate table cursor limit).items =
      ((transactions table).drop cursor).take limit := by
    simp only [paginate, transactions, numbered.filter_eq, List.map_take, List.map_drop]
  have lengthEq : (paginate table cursor limit).items.length =
      ((table.entries.drop cursor).take limit).length := by
    simp only [paginate, numbered.filter_eq, List.length_map]
  have nextEq : (paginate table cursor limit).nextCursor =
      if limit ≤ ((table.entries.drop cursor).take limit).length then
        ((table.entries.drop cursor).take limit).getLast?.map fun last => last.1 + 1
      else none := by
    simp only [paginate, numbered.filter_eq, List.length_map]
  refine ⟨?_, ?_, ?_⟩
  · rw [itemsEq]
    exact List.take_prefix _ _
  · intro ended
    rw [itemsEq]
    apply List.take_of_length_le
    rw [nextEq] at ended
    split_ifs at ended with full
    · have empty := List.getLast?_eq_none_iff.mp (Option.map_eq_none_iff.mp ended)
      rw [empty, List.length_nil] at full
      omega
    · simp only [transactions, List.length_take, List.length_drop, List.length_map] at full ⊢
      omega
  · intro next more
    rw [nextEq] at more
    split_ifs at more with full
    rcases Option.map_eq_some_iff.mp more with ⟨last, lastEq, rfl⟩
    refine ⟨?_, ?_⟩
    · rw [lengthEq]
      exact numbered.last_eq lastEq
    · apply List.ne_nil_of_length_pos
      omega

end FinalizedTable

namespace RedbMempool

def dumpFinalized (store : RedbMempool P) (cursor limit : ℕ) : MempoolPage P :=
  FinalizedTable.paginate store.finalized cursor limit

omit [Inhabited P] in
theorem finalized_perform (store : RedbMempool P) (call : MempoolCall P) :
    ∃ entries : List (FinalizedEntry P), (store.perform call).2.finalized =
      entries.foldl FinalizedTable.append store.finalized := by
  cases call with
  | receive tx =>
      refine ⟨[], ?_⟩
      simp only [perform, receive]
      split_ifs
      · rfl
      · rfl
      · rfl
  | markInflight hashes => exact ⟨[], rfl⟩
  | markAcknowledged hashes => exact ⟨[], rfl⟩
  | confirm call =>
      simp only [perform, confirm_eq]
      exact ⟨_, rfl⟩

end RedbMempool

end Tables

namespace MempoolBackend

variable {P : Type} [Inhabited P]

def dumpFinalized : (backend : MempoolBackend) → (backend.model P).State → ℕ → ℕ → MempoolPage P
  | ephemeral => MempoolState.dumpFinalized
  | redb => RedbMempool.dumpFinalized

/-- The finalized log in the order of finalization. -/
def finalizedLog : (backend : MempoolBackend) → (backend.model P).State → List (MempoolTx P)
  | ephemeral => MempoolState.finalizedLog
  | redb => fun store => FinalizedTable.transactions store.finalized

/-- The transaction a cursor denotes. -/
def denoted (backend : MempoolBackend) (state : (backend.model P).State) (cursor : ℕ) :
    Option (MempoolTx P) :=
  (backend.dumpFinalized state cursor 1).items.head?

def Calls (backend : MempoolBackend) (call : MempoolCall P) (state next : (backend.model P).State) :
    Prop :=
  (backend.model P).Performs state call next

/-- A call that cuts nothing off the log. The tables are never cut. -/
def Spares : (backend : MempoolBackend) → (backend.model P).State → MempoolCall P → Prop
  | ephemeral => MempoolState.HasRoom
  | redb => fun _ _ => True

/-- Every read that starts in the given state ends with the whole log, and every cursor
goes on to denote what it denotes. -/
structure PagesExact (backend : MempoolBackend)
    (step : MempoolCall P → (backend.model P).State → (backend.model P).State → Prop)
    (start : (backend.model P).State) : Prop where
  ends : ∀ limit, 1 ≤ limit → ∃ items,
    Reads (fun state cursor => backend.dumpFinalized state cursor limit) step 0 start items start
  read : ∀ limit, 1 ≤ limit → ∀ items last,
    Reads (fun state cursor => backend.dumpFinalized state cursor limit) step 0 start items last →
      backend.finalizedLog start <+: items ∧ items = backend.finalizedLog last
  steady : ∀ calls last, Path step calls start last → ∀ cursor entry,
    backend.denoted start cursor = some entry → backend.denoted last cursor = some entry

variable {backend : MempoolBackend}

/-- What the pages of a state rest on. -/
def Paged : (backend : MempoolBackend) → (backend.model P).State → Prop
  | ephemeral => fun _ => True
  | redb => fun store => FinalizedTable.Numbered store.finalized

theorem covers_dumpFinalized {limit : ℕ} (positive : 1 ≤ limit)
    (state : (backend.model P).State) (cursor : ℕ) (paged : backend.Paged state) :
    (backend.dumpFinalized state cursor limit).Covers (backend.finalizedLog state) cursor := by
  cases backend with
  | ephemeral => exact MempoolState.covers_dumpFinalized state cursor positive
  | redb => exact FinalizedTable.Numbered.covers_paginate paged cursor positive

theorem denoted_eq {state : (backend.model P).State} (paged : backend.Paged state)
    (cursor : ℕ) : backend.denoted state cursor = (backend.finalizedLog state)[cursor]? :=
  (covers_dumpFinalized le_rfl state cursor paged).head?_eq

omit [Inhabited P] in
theorem paged_start : backend.Paged (backend.model P).start := by
  cases backend with
  | ephemeral => trivial
  | redb => rfl

omit [Inhabited P] in
theorem paged_calls {call : MempoolCall P} {state next : (backend.model P).State}
    (paged : backend.Paged state) (called : backend.Calls call state next) :
    backend.Paged next := by
  cases backend with
  | ephemeral => trivial
  | redb =>
      rcases RedbMempool.finalized_perform state call with ⟨entries, finalizedEq⟩
      have nextEq : (RedbMempool.perform state call).2 = next := called
      simp only [Paged, ← nextEq, finalizedEq]
      exact FinalizedTable.Numbered.foldl_append paged entries

omit [Inhabited P] in
theorem paged_reached {calls : List (MempoolCall P)} {state next : (backend.model P).State}
    (path : Path backend.Calls calls state next) (paged : backend.Paged state) :
    backend.Paged next := by
  induction path with
  | nil state => exact paged
  | cons called _ ih => exact ih (paged_calls paged called)

theorem finalizedLog_grows {call : MempoolCall P} {state next : (backend.model P).State}
    (called : backend.Calls call state next) (spares : backend.Spares state call) :
    backend.finalizedLog state <+: backend.finalizedLog next := by
  cases backend with
  | ephemeral =>
      rcases called with ⟨order, isOrder, nextEq⟩
      rw [← nextEq]
      exact MempoolState.finalizedLog_grows isOrder spares
  | redb =>
      rcases RedbMempool.finalized_perform state call with ⟨entries, finalizedEq⟩
      have nextEq : (RedbMempool.perform state call).2 = next := called
      simp only [finalizedLog, ← nextEq, finalizedEq, FinalizedTable.transactions_foldl_append]
      exact List.prefix_append _ _

/-- In every state that a store can reach, as long as the calls between the pages cut
nothing off the log: a read comes to its end, it gives every entry of the log at its
start once and in order, and a cursor denotes one entry for good. -/
theorem pages_exact {calls : List (MempoolCall P)} {start : (backend.model P).State}
    (reached : Path backend.Calls calls (backend.model P).start start) :
    backend.PagesExact
      (fun call state next => backend.Calls call state next ∧ backend.Spares state call) start := by
  have paged := paged_reached reached paged_start
  have grows : ∀ (call : MempoolCall P) state next, backend.Paged state →
      backend.Calls call state next ∧ backend.Spares state call →
      backend.Paged next ∧ backend.finalizedLog state <+: backend.finalizedLog next := by
    intro call state next pagedState ⟨called, spares⟩
    exact ⟨paged_calls pagedState called, finalizedLog_grows called spares⟩
  refine ⟨?_, ?_, ?_⟩
  · intro limit positive
    exact exists_reads (covers_dumpFinalized positive) paged (Nat.zero_le _)
  · intro limit positive items last read
    rcases read.eq_drop (covers_dumpFinalized positive) grows paged (Nat.zero_le _) with
      ⟨grown, itemsEq⟩
    rw [List.drop_zero] at itemsEq
    rw [itemsEq]
    exact ⟨grown, rfl⟩
  · intro between last path cursor entry denoted
    rcases path.log_grows grows paged with ⟨pagedLast, grown⟩
    rw [denoted_eq paged] at denoted
    rw [denoted_eq pagedLast]
    exact getElem?_of_isPrefix grown denoted

end MempoolBackend

namespace FullLog

def holding (log : List (MempoolTx Unit)) : MempoolState Unit := ⟨[], [], ∅, log⟩

def finalizedTx (hash : TxHash) : MempoolTx Unit :=
  ⟨hash, (), .finalized, 1, 0, some (.specific 1 1)⟩

def sentTx (hash : TxHash) : MempoolTx Unit := ⟨hash, (), .propagated, 0, 0, none⟩

def settling (hash : TxHash) : ConfirmCall := ⟨.specific 1 1, [hash], [], 1, 1⟩

/-- The calls that take a transaction from its submission to its finality. -/
def finalizes (hash : TxHash) : List (MempoolCall Unit) :=
  [.receive (.new hash ()), .markInflight [hash], .confirm (settling hash)]

def queued (hash : TxHash) (log : List (MempoolTx Unit)) : MempoolState Unit :=
  ⟨[.new hash ()], [], ∅, log⟩

def sent (hash : TxHash) (log : List (MempoolTx Unit)) : MempoolState Unit :=
  ⟨[], [sentTx hash], ∅, log⟩

theorem confirmOne_sent (hash : TxHash) (log : List (MempoolTx Unit)) :
    (sent hash log).promoted.confirmOne (settling hash) hash =
      holding (log ++ [finalizedTx hash]) := by
  have promotedEq : (sent hash log).promoted = ⟨[], [], .insert ∅ hash (sentTx hash), log⟩ := rfl
  have emptied : (OrderedMap.insert ∅ hash (sentTx hash)).erase hash = ∅ := by
    apply OrderedMap.ext
    intro key
    by_cases same : key = hash
    · simp [OrderedMap.get?_erase, same]
    · simp [OrderedMap.get?_erase, OrderedMap.get?_insert, same]
  simp only [promotedEq, MempoolState.confirmOne, OrderedMap.get?_insert_self, settling,
    List.mem_singleton, if_true, MempoolState.settle, emptied]
  rfl

theorem confirm_sent (hash : TxHash) (log : List (MempoolTx Unit)) :
    (sent hash log).confirm [hash] (settling hash) =
      holding ((log ++ [finalizedTx hash]).drop (log.length + 1 - 1000)) := by
  have nonempty : (sent hash log).promoted.acknowledged.entries ≠ [] := List.cons_ne_nil _ _
  simp [MempoolState.confirm, nonempty, confirmOne_sent, holding, MempoolState.maxFinalizedLog]

theorem finalizes_holding (hash : TxHash) (log : List (MempoolTx Unit)) :
    Path MempoolBackend.ephemeral.Calls (finalizes hash) (holding log)
      (holding ((log ++ [finalizedTx hash]).drop (log.length + 1 - 1000))) := by
  have received : MempoolBackend.ephemeral.Calls (.receive (.new hash ())) (holding log)
      (queued hash log) := ⟨[], .nil, rfl⟩
  have marked : MempoolBackend.ephemeral.Calls (.markInflight [hash]) (queued hash log)
      (sent hash log) := by
    refine ⟨[], .nil, ?_⟩
    simp [MempoolState.perform, MempoolState.markInflight, queued, sent, sentTx, MempoolTx.new]
  have confirmed : MempoolBackend.ephemeral.Calls (.confirm (settling hash)) (sent hash log)
      (holding ((log ++ [finalizedTx hash]).drop (log.length + 1 - 1000))) :=
    ⟨[hash], .refl _, confirm_sent hash log⟩
  exact .cons received (.cons marked (.cons confirmed (.nil _)))

def numbered (number : ℕ) : MempoolTx Unit := finalizedTx (Fin.ofNat _ number)

/-- The log of the transactions with the first hashes. -/
def firstTxs (count : ℕ) : List (MempoolTx Unit) := (List.range count).map numbered

theorem length_firstTxs (count : ℕ) : (firstTxs count).length = count := by
  simp [firstTxs]

theorem firstTxs_succ (count : ℕ) : firstTxs (count + 1) = firstTxs count ++ [numbered count] := by
  simp [firstTxs, List.range_succ]

theorem getElem?_firstTxs {count number : ℕ} (within : number < count) :
    (firstTxs count)[number]? = some (numbered number) := by
  simp [firstTxs, within]

theorem finalizes_firstTxs (count : ℕ) :
    Path MempoolBackend.ephemeral.Calls (finalizes (Fin.ofNat _ count)) (holding (firstTxs count))
      (holding ((firstTxs (count + 1)).drop (count + 1 - 1000))) := by
  have settles := finalizes_holding (Fin.ofNat _ count) (firstTxs count)
  rw [length_firstTxs] at settles
  rw [firstTxs_succ]
  exact settles

theorem reached_firstTxs {count : ℕ} (fits : count ≤ 1000) :
    ∃ calls, Path MempoolBackend.ephemeral.Calls calls MempoolState.default
      (holding (firstTxs count)) := by
  induction count with
  | zero => exact ⟨[], .nil MempoolState.default⟩
  | succ count ih =>
      rcases ih (by omega) with ⟨calls, path⟩
      have settles := finalizes_firstTxs count
      rw [Nat.sub_eq_zero_of_le fits, List.drop_zero] at settles
      exact ⟨_, path.append settles⟩

theorem pages_exact_two :
    MempoolBackend.ephemeral.PagesExact
      (fun call state next => MempoolBackend.ephemeral.Calls call state next ∧
        MempoolBackend.ephemeral.Spares state call) (holding (firstTxs 2)) := by
  rcases reached_firstTxs (show 2 ≤ 1000 by omega) with ⟨calls, path⟩
  exact MempoolBackend.pages_exact path

theorem numbered_injective {first second : ℕ} (firstFits : first < 2 ^ 256)
    (secondFits : second < 2 ^ 256) (same : numbered first = numbered second) :
    first = second := by
  have hashes : (numbered first).hash.val = (numbered second).hash.val := by rw [same]
  change first % 2 ^ 256 = second % 2 ^ 256 at hashes
  rw [Nat.mod_eq_of_lt firstFits, Nat.mod_eq_of_lt secondFits] at hashes
  exact hashes

theorem exists_of_mem_stretch {count dropped taken : ℕ} {tx : MempoolTx Unit}
    (member : tx ∈ ((firstTxs count).drop dropped).take taken) :
    ∃ number, dropped ≤ number ∧ number < dropped + taken ∧ number < count ∧
      tx = numbered number := by
  rcases List.mem_take_iff_getElem.mp member with ⟨position, within, rfl⟩
  simp only [List.length_drop, length_firstTxs] at within
  refine ⟨dropped + position, by omega, by omega, by omega, ?_⟩
  rw [List.getElem_drop]
  exact (List.getElem?_eq_some_iff.mp (getElem?_firstTxs (by omega))).2

/-- A read of the in-memory log in pages of 500 that misses an entry which is in the log
from its start to its end. -/
def ReaderSkips (missed : MempoolTx Unit) : Prop :=
  ∃ calls start,
    Path MempoolBackend.ephemeral.Calls calls (MempoolState.default : MempoolState Unit) start ∧
    ∃ items last,
      Reads (fun state cursor => MempoolBackend.ephemeral.dumpFinalized state cursor 500)
        MempoolBackend.ephemeral.Calls 0 start items last ∧
      missed ∈ MempoolBackend.ephemeral.finalizedLog start ∧
      missed ∈ MempoolBackend.ephemeral.finalizedLog last ∧ missed ∉ items

theorem readerSkips_of_full {full : ℕ} (isFull : full = 1000) : ReaderSkips (numbered 500) := by
  rcases reached_firstTxs (le_of_eq isFull) with ⟨calls, path⟩
  have settles := finalizes_firstTxs full
  have surplus : full + 1 - 1000 = 1 := by omega
  rw [surplus] at settles
  have firstPage : ((holding (firstTxs full)).dumpFinalized 0 500).nextCursor = some 500 := by
    simp [MempoolState.dumpFinalized, holding, length_firstTxs, isFull]
  have lastPage : ((holding ((firstTxs (full + 1)).drop 1)).dumpFinalized 500 500).nextCursor =
      none := by
    simp [MempoolState.dumpFinalized, holding, length_firstTxs, isFull]
  refine ⟨calls, holding (firstTxs full), path, _, holding ((firstTxs (full + 1)).drop 1),
    .turn firstPage settles (.finish lastPage), ?_, ?_, ?_⟩
  · exact List.mem_of_getElem? (getElem?_firstTxs (by omega))
  · apply @List.mem_of_getElem? _ _ 499
    change ((firstTxs (full + 1)).drop 1)[499]? = _
    rw [List.getElem?_drop]
    exact getElem?_firstTxs (by omega)
  · intro member
    rcases List.mem_append.mp member with first | second
    · rcases exists_of_mem_stretch first with ⟨number, _, below, _, same⟩
      have := numbered_injective (by omega) (by omega) same
      omega
    · have dropped : ((firstTxs (full + 1)).drop 1).drop 500 = (firstTxs (full + 1)).drop 501 :=
        List.drop_drop
      have later : numbered 500 ∈ ((firstTxs (full + 1)).drop 501).take 500 := by
        rw [← dropped]
        exact second
      rcases exists_of_mem_stretch later with ⟨number, above, _, below, same⟩
      have := numbered_injective (by omega) (by omega) same
      omega

/-- A reader that takes half of a full log, while one more transaction is finalized,
misses the transaction at its cursor. -/
theorem full_log_not_exact :
    ∃ calls start,
      Path MempoolBackend.ephemeral.Calls calls (MempoolState.default : MempoolState Unit) start ∧
      ¬ MempoolBackend.ephemeral.PagesExact MempoolBackend.ephemeral.Calls start := by
  rcases readerSkips_of_full rfl with ⟨calls, start, path, items, last, reads, held, _, missing⟩
  refine ⟨calls, start, path, ?_⟩
  intro exact
  exact missing ((exact.read 500 (by omega) items last reads).1.subset held)

end FullLog

end Dolos
