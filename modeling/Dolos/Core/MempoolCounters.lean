import Dolos.Core.MempoolConfirm
import Mathlib.Data.Prod.Lex

/-!
# What confirmations cannot leave as it was

A confirmation gives every inflight transaction a verdict: it leaves the table, or one of its
counters goes up. So a store that has something in flight is never again what it was before
some confirmations, whatever they see, and a store that has nothing does not change.
-/

namespace Dolos

variable {P : Type}

/-- The counters of an inflight transaction. A confirmation starts the second one again. -/
def MempoolTx.counters (tx : MempoolTx P) : ℕ ×ₗ ℕ :=
  toLex (tx.confirmations, tx.nonConfirmations)

theorem counters_kept {call : ConfirmCall} {hash : TxHash} {tx kept : MempoolTx P}
    (keptEq : (verdict call hash tx).kept = some kept) : tx.counters < kept.counters := by
  have confirmed : ∀ point, tx.counters < (tx.confirm point).counters := by
    intro point
    exact Prod.Lex.lt_iff.mpr (Or.inl (Nat.lt_succ_self _))
  have stale : tx.counters < tx.markStale.counters :=
    Prod.Lex.lt_iff.mpr (Or.inr ⟨rfl, Nat.lt_succ_self _⟩)
  simp only [verdict, settled] at keptEq
  split_ifs at keptEq
  all_goals
    first
    | cases keptEq
  all_goals first | exact confirmed _ | exact stale

/-- A store as its confirmations change it: each inflight transaction by its verdict. -/
structure Judges {M : Type} (confirm : M → ConfirmCall → M)
    (find : M → TxHash → Option (MempoolTx P)) : Prop where
  judged : ∀ store call, ∃ seen : ConfirmCall, ∀ hash,
    find (confirm store call) hash = (find store hash).bind fun tx => (verdict seen hash tx).kept
  idle : ∀ store call, (∀ hash, find store hash = none) → confirm store call = store

namespace Judges

variable {M : Type} {confirm : M → ConfirmCall → M} {find : M → TxHash → Option (MempoolTx P)}

/-- What is still in flight after some confirmations was in flight before, with lower
counters. -/
theorem counters_foldl (judges : Judges confirm find) (calls : List ConfirmCall) (store : M)
    {hash : TxHash} {tx : MempoolTx P}
    (found : find (calls.foldl confirm store) hash = some tx) :
    ∃ before, find store hash = some before ∧ before.counters ≤ tx.counters ∧
      (calls ≠ [] → before.counters < tx.counters) := by
  induction calls generalizing store with
  | nil => exact ⟨tx, found, le_rfl, fun some => absurd rfl some⟩
  | cons call rest ih =>
      rcases ih (confirm store call) found with ⟨middle, middleEq, atMost, -⟩
      rcases judges.judged store call with ⟨seen, verdicts⟩
      rw [verdicts] at middleEq
      rcases Option.bind_eq_some_iff.mp middleEq with ⟨before, beforeEq, keptEq⟩
      have raised := lt_of_lt_of_le (counters_kept keptEq) atMost
      exact ⟨before, beforeEq, le_of_lt raised, fun _ => raised⟩

/-- Confirmations change a store unless it has nothing in flight. -/
theorem foldl_eq_iff (judges : Judges confirm find) (calls : List ConfirmCall) (store : M) :
    calls.foldl confirm store = store ↔ calls = [] ∨ ∀ hash, find store hash = none := by
  constructor
  · intro unchanged
    by_contra changes
    rcases not_or.mp changes with ⟨nonempty, inflight⟩
    rcases not_forall.mp inflight with ⟨hash, isHeld⟩
    rcases Option.ne_none_iff_exists'.mp isHeld with ⟨tx, found⟩
    have foundAfter := found
    rw [← unchanged] at foundAfter
    rcases judges.counters_foldl calls store foundAfter with ⟨before, beforeEq, -, raised⟩
    rw [found] at beforeEq
    rcases Option.some.inj beforeEq with rfl
    exact lt_irrefl _ (raised nonempty)
  · rintro (rfl | idle)
    · rfl
    · induction calls with
      | nil => rfl
      | cons call rest ih => rw [List.foldl_cons, judges.idle store call idle, ih]

end Judges

/-- The order in which the hash map of a state gives its keys. -/
structure HashOrder (P : Type) where
  keys : MempoolState P → List TxHash
  perm : ∀ state, (keys state).Perm state.promoted.acknowledged.keys

/-- The order of the hashes themselves. -/
def HashOrder.ascending : HashOrder P :=
  ⟨fun state => state.promoted.acknowledged.keys, fun _ => .refl _⟩

def MempoolState.confirmIn (order : HashOrder P) (state : MempoolState P) (call : ConfirmCall) :
    MempoolState P :=
  state.confirm (order.keys state) call

/-- Nothing is in flight. -/
def MempoolState.Idle (state : MempoolState P) : Prop := state.peekInflight = []

def RedbMempool.Idle (store : RedbMempool P) : Prop := store.peekInflight = []

theorem MempoolState.idle_iff {state : MempoolState P} :
    state.Idle ↔ ∀ hash, state.promoted.acknowledged.get? hash = none := by
  have promotedEq : state.promoted.acknowledged =
      state.acknowledged.insertAll (state.inflight.map fun tx => (tx.hash, tx)) := rfl
  constructor
  · intro idle hash
    rcases List.append_eq_nil_iff.mp idle with ⟨noneSent, noneAcknowledged⟩
    have noEntries := List.map_eq_nil_iff.mp noneAcknowledged
    rw [promotedEq, noneSent]
    change state.acknowledged.get? hash = none
    rw [Option.eq_none_iff_forall_ne_some]
    intro tx held
    have member := OrderedMap.mem_entries_iff.mpr held
    rw [noEntries] at member
    cases member
  · intro absent
    have noneSent : state.inflight = [] := by
      rcases List.eq_nil_or_concat state.inflight with isNil | ⟨init, last, inflightEq⟩
      · exact isNil
      · have found := absent last.hash
        rw [promotedEq, inflightEq, List.concat_eq_append, List.map_append, List.map_singleton,
          OrderedMap.insertAll_concat, OrderedMap.get?_insert, if_pos rfl] at found
        cases found
    have noneAcknowledged : state.acknowledged.entries = [] := by
      rw [List.eq_nil_iff_forall_not_mem]
      intro entry member
      have held := OrderedMap.mem_entries_iff.mp member
      have found := absent entry.1
      rw [promotedEq, noneSent] at found
      change state.acknowledged.get? entry.1 = none at found
      rw [found] at held
      cases held
    rw [MempoolState.Idle, MempoolState.peekInflight, noneSent, noneAcknowledged]
    rfl

theorem RedbMempool.idle_iff {store : RedbMempool P} :
    store.Idle ↔ ∀ hash, store.findInflight hash = none := by
  rw [RedbMempool.Idle, RedbMempool.peekInflight, List.map_eq_nil_iff]
  constructor
  · intro noEntries hash
    cases held : store.inflight.get? hash with
    | none => rw [RedbMempool.findInflight, held, Option.map_none]
    | some record =>
        have member := OrderedMap.mem_entries_iff.mpr held
        rw [noEntries] at member
        cases member
  · intro absent
    rw [List.eq_nil_iff_forall_not_mem]
    intro entry member
    have found := absent entry.1
    rw [RedbMempool.findInflight, OrderedMap.mem_entries_iff.mp member] at found
    cases found

theorem judges_ephemeral (order : HashOrder P) :
    Judges (MempoolState.confirmIn order) fun state hash =>
      state.promoted.acknowledged.get? hash := by
  refine ⟨?_, ?_⟩
  · intro state call
    refine ⟨call, ?_⟩
    intro hash
    have drained : (state.confirmIn order call).inflight = [] :=
      MempoolState.inflight_confirm (order.perm state)
    have same : (state.confirmIn order call).promoted.acknowledged =
        (state.confirmIn order call).acknowledged := by
      rw [MempoolState.promoted, drained]
      rfl
    rw [same]
    exact MempoolState.get?_confirm (order.perm state) hash
  · intro state call absent
    have idle := MempoolState.idle_iff.mpr absent
    rcases List.append_eq_nil_iff.mp idle with ⟨noneSent, noneAcknowledged⟩
    have noEntries := List.map_eq_nil_iff.mp noneAcknowledged
    have promotedEq : state.promoted = state := by
      rcases state with ⟨pending, inflight, acknowledged, finalizedLog⟩
      simp only at noneSent
      subst noneSent
      rfl
    rw [MempoolState.confirmIn, MempoolState.confirm, promotedEq, if_pos noEntries]

theorem judges_redb : Judges (RedbMempool.confirm (P := P)) RedbMempool.findInflight := by
  refine ⟨?_, ?_⟩
  · intro store call
    exact ⟨call.decoded, store.findInflight_confirm⟩
  · intro store call absent
    have noEntries := List.map_eq_nil_iff.mp (RedbMempool.idle_iff.mpr absent)
    rw [RedbMempool.confirm, noEntries, List.foldl_nil]

end Dolos
