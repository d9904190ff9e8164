import Dolos.Cardano.Roll

/-!
# The log as the chain

`cardano/src/consensus.rs` accepts a block that shares its slot with the block it
extends, while the write-ahead log is a table in the order of slot and hash. This
file compares the two over runs of appends and truncations: the chain as a list of
the blocks that extend each other, and the log as the store holds it.

A run continues any log whose entries are at or before the point it starts from.
-/

namespace Dolos

/-- A block of the chain with what is logged for it. -/
structure ChainEntry (V : Type) where
  slot : ℕ
  hash : BlockHash
  previousHash : Option BlockHash
  log : V
  deriving DecidableEq, Repr

namespace ChainEntry

variable {V : Type}

def point (entry : ChainEntry V) : ChainPoint := .specific entry.slot entry.hash

def logEntry (entry : ChainEntry V) : ChainPoint × V := (entry.point, entry.log)

def key (entry : ChainEntry V) : ℕ ×ₗ BlockHash := entry.point.intoBytes

end ChainEntry

structure ChainFragment where
  tip : ChainPoint
  pending : List ChainPoint
  deriving DecidableEq, Repr

namespace ChainFragment

variable {V : Type}

def start (point : ChainPoint) : ChainFragment := ⟨point, []⟩

/-- A header that is refused leaves the fragment as it was. -/
def rollForward (fragment : ChainFragment) (point : ChainPoint) (previousHash : Option BlockHash) :
    Except DomainError ChainPoint × ChainFragment :=
  match checkExtension fragment.tip point.slot previousHash with
  | .error failure => (.error failure, fragment)
  | .ok () => (.ok point, ⟨point, fragment.pending ++ [point]⟩)

end ChainFragment

section Order

variable {V : Type}

/-- Every block is accepted on top of the one before it. -/
def Accepted : ChainPoint → List (ChainEntry V) → Prop
  | _, [] => True
  | tip, entry :: rest =>
      checkExtension tip entry.slot entry.previousHash = .ok () ∧ Accepted entry.point rest

/-- Blocks that share their slot with the block they extend have a greater hash. -/
def HashOrdered : ChainPoint → List (ChainEntry V) → Prop
  | _, [] => True
  | tip, entry :: rest =>
      (entry.slot = tip.slot → tip.hash.getD 0 < entry.hash) ∧ HashOrdered entry.point rest

theorem slot_le_of_checkExtension {tip : ChainPoint} {slot : ℕ} {previousHash : Option BlockHash}
    (accepted : checkExtension tip slot previousHash = .ok ()) : tip.slot ≤ slot := by
  rcases Outcome.bind_eq_ok.mp accepted with ⟨_, _, increased⟩
  cases tip with
  | origin => exact Nat.zero_le slot
  | slotOnly tipSlot =>
      simp only [checkSlotIncrease] at increased
      split at increased
      · assumption
      · cases increased
  | specific tipSlot tipHash =>
      simp only [checkSlotIncrease] at increased
      split at increased
      · assumption
      · cases increased

/-- On an accepted chain, hash order among shared slots is key order throughout. -/
theorem hashOrdered_iff {tip : ChainPoint} {entries : List (ChainEntry V)}
    (accepted : Accepted tip entries) :
    HashOrdered tip entries ↔ (tip.intoBytes :: entries.map ChainEntry.key).IsChain (· < ·) := by
  induction entries generalizing tip with
  | nil => simp [HashOrdered]
  | cons entry rest ih =>
      rcases accepted with ⟨here, later⟩
      have notBefore := slot_le_of_checkExtension here
      rw [HashOrdered, List.map_cons, List.isChain_cons_cons, ih later]
      have first : (entry.slot = tip.slot → tip.hash.getD 0 < entry.hash) ↔
          tip.intoBytes < entry.key := by
        rw [ChainEntry.key, Prod.Lex.lt_iff]
        change _ ↔ tip.slot < entry.slot ∨ tip.slot = entry.slot ∧ tip.hash.getD 0 < entry.hash
        constructor
        · intro shared
          rcases Nat.lt_or_eq_of_le notBefore with less | same
          · exact Or.inl less
          · exact Or.inr ⟨same, shared same.symm⟩
        · rintro (less | ⟨_, greater⟩) same
          · omega
          · exact greater
      rw [first]
      rfl

end Order

/-- The calls that change the log after the chain. -/
inductive ChainOp (V : Type) where
  | append (entries : List (ChainEntry V))
  | truncate (after : ChainPoint)
  | remove (after : ChainPoint)

structure ChainLog (V : Type) where
  chain : List (ChainEntry V)
  wal : Wal V

namespace ChainLog

variable {V : Type} (start : ChainPoint)

/-- The last block of a chain, or the point the chain starts from. -/
def tipOf (chain : List (ChainEntry V)) : ChainPoint :=
  (chain.map ChainEntry.point).getLastD start

/-- Blocks are appended as they are accepted; a truncation goes to a point of the
chain or to its start. -/
inductive Step : ChainLog V → ChainOp V → ChainLog V → Prop where
  | append {chain entries : List (ChainEntry V)} {wal : Wal V}
      (accepted : Accepted (tipOf start chain) entries) :
      Step ⟨chain, wal⟩ (.append entries)
        ⟨chain ++ entries, wal.appendEntries (entries.map ChainEntry.logEntry)⟩
  | truncate {kept removed : List (ChainEntry V)} {wal : Wal V} :
      Step ⟨kept ++ removed, wal⟩ (.truncate (tipOf start kept))
        ⟨kept, wal.truncateFront (tipOf start kept)⟩
  | remove {kept removed : List (ChainEntry V)} {wal : Wal V} :
      Step ⟨kept ++ removed, wal⟩ (.remove (tipOf start kept))
        ⟨kept, wal.removeEntries (tipOf start kept)⟩

/-- The states a run goes through, each with the call that leads to it. -/
def IsRun : ChainLog V → List (ChainOp V × ChainLog V) → Prop
  | _, [] => True
  | state, (op, next) :: rest => Step start state op next ∧ IsRun next rest

/-- Every block a run appends meets the condition on shared slots. -/
def RunHashOrdered : ChainLog V → List (ChainOp V × ChainLog V) → Prop
  | _, [] => True
  | state, (op, next) :: rest =>
      (∀ entries, op = .append entries → HashOrdered (tipOf start state.chain) entries) ∧
        RunHashOrdered next rest

/-- The log is the chain: a scan meets the blocks as they extend each other, the tip
is the last block, and cutting at a block drops what extends it. -/
structure InOrder (base : Wal V) (state : ChainLog V) : Prop where
  iterates : state.wal.iterLogs none none =
    base.iterLogs none none ++ state.chain.map ChainEntry.logEntry
  tip : ∀ last, state.chain.getLast? = some last → state.wal.findTip = some last.logEntry
  truncates : ∀ kept removed, state.chain = kept ++ removed →
    (state.wal.truncateFront (tipOf start kept)).iterLogs none none =
      base.iterLogs none none ++ kept.map ChainEntry.logEntry

/-- The table behind a log in order. -/
structure Ordered (base : Wal V) (state : ChainLog V) : Prop where
  entries : state.wal.entries =
    base.entries ++ state.chain.map fun entry => (entry.key, entry.log)
  increasing : (start.intoBytes :: state.chain.map ChainEntry.key).Pairwise (· < ·)

section

variable {start} {base : Wal V}

theorem cons_eq_dropLast_append (chain : List (ChainEntry V)) :
    start.intoBytes :: chain.map ChainEntry.key =
      (start.intoBytes :: chain.map ChainEntry.key).dropLast ++
        [(tipOf start chain).intoBytes] := by
  have nonempty : start.intoBytes :: chain.map ChainEntry.key ≠ [] := List.cons_ne_nil _ _
  have split := List.dropLast_append_getLast nonempty
  have lastEq : (start.intoBytes :: chain.map ChainEntry.key).getLast nonempty =
      (tipOf start chain).intoBytes := by
    induction chain generalizing start with
    | nil => rfl
    | cons entry rest ih =>
        have step := @ih entry.point (List.cons_ne_nil _ _)
        simp only [tipOf, List.map_cons, List.getLastD_cons] at step ⊢
        rw [List.getLast_cons (List.cons_ne_nil _ _)]
        exact step (List.dropLast_append_getLast _)
  rw [lastEq] at split
  exact split.symm

/-- The point a chain is cut at is above nothing of what extends it. -/
theorem pairwise_append {kept later : List (ChainEntry V)} :
    (start.intoBytes :: (kept ++ later).map ChainEntry.key).Pairwise (· < ·) ↔
      (start.intoBytes :: kept.map ChainEntry.key).Pairwise (· < ·) ∧
      ((tipOf start kept).intoBytes :: later.map ChainEntry.key).Pairwise (· < ·) := by
  rw [List.map_append, ← List.cons_append]
  constructor
  · intro increasing
    refine ⟨(List.pairwise_append.mp increasing).1, ?_⟩
    rw [cons_eq_dropLast_append kept, List.append_assoc] at increasing
    exact (List.pairwise_append.mp increasing).2.1
  · intro ⟨before, after⟩
    rw [cons_eq_dropLast_append kept] at before ⊢
    rw [List.append_assoc]
    rcases List.pairwise_append.mp before with ⟨initBefore, _, belowTip⟩
    refine List.pairwise_append.mpr ⟨initBefore, after, ?_⟩
    intro key inInit other inTail
    have below := belowTip key inInit _ (List.mem_singleton_self _)
    rcases List.mem_cons.mp inTail with rfl | inLater
    · exact below
    · exact below.trans ((List.pairwise_cons.mp after).1 other inLater)

theorem map_logEntry (chain : List (ChainEntry V)) :
    chain.map (fun entry => (entry.key, entry.log)) =
      (chain.map ChainEntry.logEntry).map fun log => (log.1.intoBytes, log.2) := by
  rw [List.map_map]
  rfl

/-- A key above another is not the one the origin has. -/
theorem decoded {chain : List (ChainEntry V)}
    (increasing : (start.intoBytes :: chain.map ChainEntry.key).Pairwise (· < ·)) :
    ∀ log ∈ chain.map ChainEntry.logEntry, ChainPoint.fromBytes log.1.intoBytes = log.1 := by
  intro log member
  rcases List.mem_map.mp member with ⟨entry, isEntry, rfl⟩
  have above := (List.pairwise_cons.mp increasing).1 entry.key (List.mem_map_of_mem isEntry)
  apply ChainPoint.fromBytes_specific
  intro zero
  have least : toLex (0, 0) ≤ start.intoBytes := by
    apply Prod.Lex.le_iff.mpr
    rcases Nat.eq_zero_or_pos (ofLex start.intoBytes).1 with same | positive
    · exact Or.inr ⟨same.symm, Fin.zero_le _⟩
    · exact Or.inl positive
  have keyEq : entry.key = toLex (0, 0) := zero
  rw [keyEq] at above
  exact absurd above (not_lt_of_ge least)

theorem iterLogs_ordered {state : ChainLog V} (ordered : Ordered start base state) :
    state.wal.iterLogs none none =
      base.iterLogs none none ++ state.chain.map ChainEntry.logEntry := by
  simp only [Wal.iterLogs, List.filter_true]
  rw [ordered.entries, List.map_append, map_logEntry, Wal.map_decoded (decoded ordered.increasing)]

/-- Everything of a chain in order is at or before the tip. -/
theorem key_le_tipOf {chain : List (ChainEntry V)}
    (increasing : (start.intoBytes :: chain.map ChainEntry.key).Pairwise (· < ·)) :
    ∀ key ∈ start.intoBytes :: chain.map ChainEntry.key, key ≤ (tipOf start chain).intoBytes := by
  rw [cons_eq_dropLast_append chain] at increasing ⊢
  intro key member
  rcases List.mem_append.mp member with before | isTip
  · exact le_of_lt
      ((List.pairwise_append.mp increasing).2.2 key before _ (List.mem_singleton_self _))
  · exact le_of_eq (List.mem_singleton.mp isTip)

theorem ordered_removeEntries (bounded : ∀ entry ∈ base.entries, entry.1 ≤ start.intoBytes)
    {kept removed : List (ChainEntry V)} {wal : Wal V}
    (ordered : Ordered start base ⟨kept ++ removed, wal⟩) :
    Ordered start base ⟨kept, wal.removeEntries (tipOf start kept)⟩ := by
  rcases pairwise_append.mp ordered.increasing with ⟨before, after⟩
  refine ⟨?_, before⟩
  have atOrBefore := key_le_tipOf before
  have keptBase :
      base.entries.filter (fun entry => decide (entry.1 ≤ (tipOf start kept).intoBytes)) =
        base.entries := by
    apply List.filter_eq_self.mpr
    intro entry member
    exact decide_eq_true ((bounded entry member).trans (atOrBefore _ List.mem_cons_self))
  have keptChain : (kept.map fun entry => (entry.key, entry.log)).filter
      (fun entry => decide (entry.1 ≤ (tipOf start kept).intoBytes)) =
      kept.map fun entry => (entry.key, entry.log) := by
    apply List.filter_eq_self.mpr
    intro logged member
    rcases List.mem_map.mp member with ⟨entry, isEntry, rfl⟩
    exact decide_eq_true
      (atOrBefore _ (List.mem_cons_of_mem _ (List.mem_map_of_mem isEntry)))
  have droppedChain : (removed.map fun entry => (entry.key, entry.log)).filter
      (fun entry => decide (entry.1 ≤ (tipOf start kept).intoBytes)) = [] := by
    apply List.filter_eq_nil_iff.mpr
    intro logged member
    rcases List.mem_map.mp member with ⟨entry, isEntry, rfl⟩
    have above := (List.pairwise_cons.mp after).1 entry.key (List.mem_map_of_mem isEntry)
    simpa using above
  change wal.entries.filter (fun entry => decide (entry.1 ≤ (tipOf start kept).intoBytes)) = _
  rw [ordered.entries, List.map_append, List.filter_append, List.filter_append, keptBase,
    keptChain, droppedChain, List.append_nil]

theorem inOrder_of_ordered (bounded : ∀ entry ∈ base.entries, entry.1 ≤ start.intoBytes)
    {state : ChainLog V} (ordered : Ordered start base state) : InOrder start base state := by
  refine ⟨iterLogs_ordered ordered, ?_, ?_⟩
  · intro last isLast
    apply Wal.findTip_appended (ordered.entries.trans (by rw [map_logEntry]))
      (decoded ordered.increasing)
    rw [List.getLast?_map, isLast]
    rfl
  · intro kept removed chainEq
    rcases state with ⟨chain, wal⟩
    subst chainEq
    exact iterLogs_ordered (ordered_removeEntries bounded ordered)

/-- Only a table in key order can list the chain, and cut it at its start. -/
theorem increasing_of_inOrder {state : ChainLog V} (inOrder : InOrder start base state) :
    (start.intoBytes :: state.chain.map ChainEntry.key).Pairwise (· < ·) := by
  have keysOf : ∀ wal : Wal V, (wal.iterLogs none none).map (fun log => log.1.intoBytes) =
      wal.entries.map Prod.fst := by
    intro wal
    simp only [Wal.iterLogs, List.filter_true, List.map_map, Function.comp_def,
      ChainPoint.intoBytes_fromBytes]
  have keysEq := congrArg (List.map fun log => log.1.intoBytes) inOrder.iterates
  rw [keysOf, List.map_append, keysOf, List.map_map] at keysEq
  have sorted := List.pairwise_map.mpr state.wal.sorted
  rw [keysEq] at sorted
  have cut := inOrder.truncates [] state.chain rfl
  refine List.pairwise_cons.mpr ⟨?_, (List.pairwise_append.mp sorted).2.1⟩
  intro key isKey
  by_contra notAbove
  have cutKeys := congrArg (List.map fun log => log.1.intoBytes) cut
  rw [keysOf, List.map_append, keysOf, List.map_nil, List.map_nil, List.append_nil] at cutKeys
  have inWal : key ∈ state.wal.entries.map Prod.fst := by
    rw [keysEq]
    exact List.mem_append_right _ isKey
  rcases List.mem_map.mp inWal with ⟨entry, isEntry, rfl⟩
  have survives : entry.1 ∈ (state.wal.truncateFront start).entries.map Prod.fst := by
    apply List.mem_map_of_mem
    exact List.mem_filter.mpr ⟨isEntry, decide_eq_true (not_lt.mp notAbove)⟩
  have inBase : entry.1 ∈ base.entries.map Prod.fst := by
    rw [← cutKeys]
    exact survives
  exact lt_irrefl entry.1 ((List.pairwise_append.mp sorted).2.2 _ inBase _ isKey)

theorem byHash_of_inOrder {state next : ChainLog V} {op : ChainOp V}
    (step : Step start state op next) (inOrder : InOrder start base next) :
    ∀ entries, op = .append entries → HashOrdered (tipOf start state.chain) entries := by
  intro entries isAppend
  cases step with
  | @append chain appended wal accepted =>
      cases isAppend
      apply (hashOrdered_iff accepted).mpr
      apply List.isChain_iff_pairwise.mpr
      exact (pairwise_append.mp (increasing_of_inOrder inOrder)).2
  | truncate => cases isAppend
  | remove => cases isAppend

theorem runHashOrdered_of_inOrder {state : ChainLog V} {run : List (ChainOp V × ChainLog V)}
    (isRun : IsRun start state run)
    (inOrder : ∀ visited ∈ run, InOrder start base visited.2) :
    RunHashOrdered start state run := by
  induction run generalizing state with
  | nil => trivial
  | cons first rest ih =>
      refine ⟨byHash_of_inOrder isRun.1 (inOrder first List.mem_cons_self), ?_⟩
      apply ih isRun.2
      intro visited member
      exact inOrder visited (List.mem_cons_of_mem first member)

variable (bounded : ∀ entry ∈ base.entries, entry.1 ≤ start.intoBytes)

include bounded

theorem ordered_step {state next : ChainLog V} {op : ChainOp V} (step : Step start state op next)
    (byHash : ∀ entries, op = .append entries → HashOrdered (tipOf start state.chain) entries)
    (ordered : Ordered start base state) : Ordered start base next := by
  cases step with
  | @append chain entries wal accepted =>
      have chainKeys := (hashOrdered_iff accepted).mp (byHash entries rfl)
      have increasing := pairwise_append.mpr
        ⟨ordered.increasing, List.isChain_iff_pairwise.mp chainKeys⟩
      refine ⟨?_, increasing⟩
      have tail := List.pairwise_append.mp (List.map_append ▸ (List.pairwise_cons.mp increasing).2)
      simp only [Wal.appendEntries]
      rw [← map_logEntry, OrderedMap.entries_insertAll_above, ordered.entries, List.map_append,
        List.append_assoc]
      · intro held isHeld logged isLogged
        rcases List.mem_map.mp isLogged with ⟨entry, isEntry, rfl⟩
        have entryKey : entry.key ∈ entries.map ChainEntry.key := List.mem_map_of_mem isEntry
        rw [ordered.entries] at isHeld
        rcases List.mem_append.mp isHeld with inBase | inChain
        · apply lt_of_le_of_lt (bounded held inBase)
          apply (List.pairwise_cons.mp increasing).1
          rw [List.map_append]
          exact List.mem_append_right _ entryKey
        · rcases List.mem_map.mp inChain with ⟨earlier, isEarlier, rfl⟩
          exact tail.2.2 _ (List.mem_map_of_mem isEarlier) _ entryKey
      · rw [List.pairwise_map]
        exact List.pairwise_map.mp tail.2.1
  | truncate => exact ordered_removeEntries bounded ordered
  | remove => exact ordered_removeEntries bounded ordered

theorem inOrder_run {state : ChainLog V} {run : List (ChainOp V × ChainLog V)}
    (isRun : IsRun start state run) (byHash : RunHashOrdered start state run)
    (ordered : Ordered start base state) : ∀ visited ∈ run, InOrder start base visited.2 := by
  induction run generalizing state with
  | nil =>
      intro visited member
      cases member
  | cons first rest ih =>
      have nextOrdered := ordered_step bounded isRun.1 byHash.1 ordered
      intro visited member
      rcases List.mem_cons.mp member with rfl | later
      · exact inOrder_of_ordered bounded nextOrdered
      · exact ih isRun.2 byHash.2 nextOrdered visited later

/-- In a run from any log that ends at or before its start, the log is the chain in
every state exactly when blocks that share a slot come in the order of their
hashes. -/
theorem inOrder_iff_hashOrdered {run : List (ChainOp V × ChainLog V)}
    (isRun : IsRun start ⟨[], base⟩ run) :
    (∀ visited ∈ run, InOrder start base visited.2) ↔ RunHashOrdered start ⟨[], base⟩ run := by
  constructor
  · exact runHashOrdered_of_inOrder isRun
  · intro byHash
    apply inOrder_run bounded isRun byHash
    exact ⟨(List.append_nil _).symm, List.pairwise_singleton _ _⟩

end

section SharedSlot

def boundaryBlock (hash : BlockHash) : ChainEntry ℕ := ⟨5, hash, none, 0⟩

/-- The main block that extends the boundary block in the same slot. -/
def mainBlock (hash parent : BlockHash) : ChainEntry ℕ := ⟨5, hash, some parent, 1⟩

theorem accepted_sharedSlot (boundary main : BlockHash) :
    Accepted .origin [boundaryBlock boundary, mainBlock main boundary] := by
  refine ⟨rfl, ?_, trivial⟩
  simp [boundaryBlock, mainBlock, ChainEntry.point, checkExtension, checkParent, ChainPoint.hash,
    checkSlotIncrease, ChainPoint.slot]

/-- Both blocks logged, and the main block cut off again. -/
def sharedSlotRun (boundary main : BlockHash) : List (ChainOp ℕ × ChainLog ℕ) :=
  let both := [boundaryBlock boundary, mainBlock main boundary]
  let logged : Wal ℕ := Wal.appendEntries ∅ (both.map ChainEntry.logEntry)
  [(.append both, ⟨both, logged⟩),
    (.truncate (.specific 5 boundary),
      ⟨[boundaryBlock boundary], logged.truncateFront (.specific 5 boundary)⟩)]

theorem isRun_sharedSlotRun (boundary main : BlockHash) :
    IsRun .origin ⟨[], ∅⟩ (sharedSlotRun boundary main) := by
  refine ⟨?_, ?_, trivial⟩
  · exact @Step.append _ _ [] _ _ (accepted_sharedSlot boundary main)
  · exact @Step.truncate _ _ [boundaryBlock boundary] [mainBlock main boundary] _

theorem inOrder_iff_hashOrdered_sharedSlot :
    (∀ visited ∈ sharedSlotRun 3 9, InOrder .origin ∅ visited.2) ↔
      RunHashOrdered .origin ⟨[], ∅⟩ (sharedSlotRun 3 9) := by
  apply inOrder_iff_hashOrdered
  · intro entry member
    cases member
  · exact isRun_sharedSlotRun 3 9

/-- Where the main block has the smaller hash, the log lists it first, takes the
boundary block for the tip, and keeps the main block when it is cut off. -/
theorem sharedSlot_out_of_order :
    IsRun .origin ⟨[], ∅⟩ (sharedSlotRun 9 3) ∧
      (sharedSlotRun 9 3).map (fun visited => visited.2.chain.map ChainEntry.point) =
        [[.specific 5 9, .specific 5 3], [.specific 5 9]] ∧
      (sharedSlotRun 9 3).map (fun visited => (visited.2.wal.iterLogs none none).map Prod.fst) =
        [[.specific 5 3, .specific 5 9], [.specific 5 3, .specific 5 9]] ∧
      (sharedSlotRun 9 3).map (fun visited => visited.2.wal.findTip.map Prod.fst) =
        [some (.specific 5 9), some (.specific 5 9)] := by
  refine ⟨isRun_sharedSlotRun 9 3, ?_, ?_, ?_⟩
  · rfl
  · decide +kernel
  · decide +kernel

end SharedSlot

end ChainLog

end Dolos
