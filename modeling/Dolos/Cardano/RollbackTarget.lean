import Dolos.Cardano.Indexes
import Dolos.Core.MempoolCounters

/-!
# What a rollback does to every store

`rollback` of `core/src/sync.rs` with all it touches: the state, the indexes, the
archive, the log and the mempool. The loop goes back from the tip of the log; the
cursors move only when it meets the target, and nothing tells when it does not.

The archive stands as its blocks in the order of the chain, which is how both archives
answer; a cut keeps the blocks up to a slot. Either of the two mempools is told of every
undone block while the loop runs, before anything is committed.
-/

namespace Dolos

open Outcome Keyed EntityDelta

variable {O : Type} [BlockDecoding O] [NonceCrypto] {M P : Type}

def mempoolFinalizeThreshold : ℕ := 6

def mempoolDropThreshold : ℕ := 2

/-- Every store of a node. -/
structure NodeStores (O M : Type) where
  stores : IndexedStores O
  archive : List (MultiEraBlock O)
  mempool : M

/-- What the loop of a rollback carries. -/
structure Undoing (O M : Type) where
  entities : EntityMap CardanoEntity
  utxos : UtxoMap O
  cursor : Option ChainPoint
  indexes : IndexStore
  mempool : M

/-- The entities and outputs of one undone entry. -/
def undoEntry (store : OrderedMap NsKey CardanoEntity) (entities : EntityMap CardanoEntity)
    (log : LedgerLog O) : Except DomainError (EntityMap CardanoEntity × UtxoSetDelta O) := do
  let undone ← (undoDeltaChunk entities store log.delta).mapError .panic
  let delta ← computeUndo log
  .ok (undone, delta)

/-- What the mempool is told of an undone entry: its transactions are unseen again. -/
def undoCall (entry : ChainPoint × LedgerLog O) : ConfirmCall where
  point := entry.1
  seenTxs := []
  unseenTxs := (entry.2.block.map fun block => block.txs.map Tx.hash).getD []
  finalizeThreshold := mempoolFinalizeThreshold
  dropThreshold := mempoolDropThreshold

section Rollback

variable (confirm : M → ConfirmCall → M)

/-- The loop of `rollback`. A failure leaves the mempool as it is by then. -/
def undoBlocks (store : OrderedMap NsKey CardanoEntity) (target : ChainPoint) :
    List (ChainPoint × LedgerLog O) → Undoing O M → Except (DomainError × M) (Undoing O M)
  | [], undoing => .ok undoing
  | entry :: rest, undoing =>
      if entry.1.eq target then
        .ok { undoing with
          cursor := some entry.1
          indexes := undoing.indexes.apply (.ofCursor entry.1) }
      else
        match undoEntry store undoing.entities entry.2 with
        | .error failure => .error (failure, undoing.mempool)
        | .ok (entities, delta) =>
            undoBlocks store target rest
              { undoing with
                entities := entities
                utxos := applyUtxoset undoing.utxos delta
                indexes := undoing.indexes.undo (indexDeltaFromUtxoDelta entry.1 delta)
                mempool := confirm undoing.mempool (undoCall entry) }

/-- `truncate_front` of the archive. -/
def truncateArchive (blocks : List (MultiEraBlock O)) (slot : ℕ) : List (MultiEraBlock O) :=
  blocks.filter fun block => block.slot ≤ slot

namespace NodeStores

def rollback (node : NodeStores O M) (target : ChainPoint) :
    Except DomainError Unit × NodeStores O M :=
  let ledger := node.stores.ledger
  let entries := (ledger.wal.iterLogs (some target) none).reverse
  match undoBlocks confirm ledger.entities target entries
      ⟨∅, ledger.utxos, ledger.cursor, node.stores.indexes, node.mempool⟩ with
  | .error (failure, mempool) => (.error failure, { node with mempool := mempool })
  | .ok undone =>
      (.ok (),
        { stores :=
            { ledger :=
                { entities := saveEntities ledger.entities undone.entities
                  utxos := undone.utxos
                  cursor := undone.cursor
                  wal := ledger.wal.truncateFront target }
              indexes := undone.indexes }
          archive := truncateArchive node.archive target.slot
          mempool := undone.mempool })

end NodeStores

end Rollback

section Positions

/-- The newest block of an archive is at a point; at the origin there is none. -/
def ArchiveAt (blocks : List (MultiEraBlock O)) : ChainPoint → Prop
  | .origin => blocks = []
  | point => ∃ block, blocks.getLast? = some block ∧ Block.point block = point

/-- Every store is at one point, and that is the target. -/
def NodeStores.PositionedAt (node : NodeStores O M) (target : ChainPoint) : Prop :=
  ∃ point, point.eq target ∧ node.stores.ledger.cursor = some point ∧
    node.stores.indexes.cursor = some point ∧ ArchiveAt node.archive point ∧
    node.stores.ledger.wal.findTip.map Prod.fst = some point

/-- The target names an entry of the log. -/
def Named (wal : Wal (LedgerLog O)) (target : ChainPoint) : Prop :=
  ∃ entry ∈ wal.iterLogs none none, entry.1.eq target

/-- Either the target is in the log and every store ends at it, or the call returns an error
and nothing has changed. A call that panics does not return. -/
def NodeStores.AllOrNothing (confirm : M → ConfirmCall → M) (node : NodeStores O M)
    (target : ChainPoint) : Prop :=
  match node.rollback confirm target with
  | (.ok (), after) => Named node.stores.ledger.wal target ∧ after.PositionedAt target
  | (.error (.panic _), _) => False
  | (.error _, after) => after = node

/-- What a rollback undoes, the newest entry first: those the loop goes through before it
meets the target. -/
def entriesAbove (wal : Wal (LedgerLog O)) (target : ChainPoint) :
    List (ChainPoint × LedgerLog O) :=
  (wal.iterLogs (some target) none).reverse.takeWhile fun entry => !entry.1.eq target

/-- The block of an entry is there, and the entry has the outputs that the block spends. -/
def Resolves (log : LedgerLog O) : Prop :=
  ∃ block ∈ log.block, ∀ txo ∈ block.consumed, (log.inputs.get? txo).isSome

/-- The deltas of some entries, the newest entry first, as a rollback undoes them. -/
def undoneDeltas (entries : List (ChainPoint × LedgerLog O)) : List CardanoDelta :=
  entries.flatMap fun entry => entry.2.delta.reverse

/-- None of these deltas panics: those of each key can be undone on its entity. -/
def UndoRuns (view : NsKey → Option CardanoEntity) (entries : List (ChainPoint × LedgerLog O)) :
    Prop :=
  ∀ index, ∃ final,
    runAll undo ((undoneDeltas entries).filter fun delta => key delta = index) (view index) =
      .ok final

/-- Every entry can be undone. -/
structure Undoes (view : NsKey → Option CardanoEntity)
    (above : List (ChainPoint × LedgerLog O)) : Prop where
  resolves : ∀ entry ∈ above, Resolves entry.2
  runs : UndoRuns view above

/-- The entries up to the first one that is empty or lacks an output, with no panic before
that is noticed. -/
def Refuses (view : NsKey → Option CardanoEntity) (above undone : List (ChainPoint × LedgerLog O)) :
    Prop :=
  ∃ entry later, above = undone ++ entry :: later ∧ (∀ earlier ∈ undone, Resolves earlier.2) ∧
    ¬ Resolves entry.2 ∧ UndoRuns view (undone ++ [entry])

/-- The log has an entry under the key of the target that is the target, and no later one
that would be taken for it. -/
def HeldInLog (wal : Wal (LedgerLog O)) (target : ChainPoint) : Prop :=
  (wal.get? target.intoBytes).isSome ∧ (ChainPoint.fromBytes target.intoBytes).eq target ∧
    ∀ entry ∈ wal.entries, target.intoBytes < entry.1 →
      (ChainPoint.fromBytes entry.1).eq target = false

/-- All that is to be undone can be, the target is in the log and is the newest archived
block of its slot or before; or an entry is refused, and it is the tip of the log or nothing
is in flight in the mempool. -/
def NodeStores.Meets (idle : M → Prop) (node : NodeStores O M) (target : ChainPoint) : Prop :=
  let ledger := node.stores.ledger
  let above := entriesAbove ledger.wal target
  Undoes ledger.entities.get? above ∧ HeldInLog ledger.wal target ∧
      ArchiveAt (truncateArchive node.archive target.slot)
        (ChainPoint.fromBytes target.intoBytes) ∨
    ∃ undone, Refuses ledger.entities.get? above undone ∧ (undone = [] ∨ idle node.mempool)

end Positions

section Undo

variable {view next : NsKey → Option CardanoEntity} {entry : ChainPoint × LedgerLog O}
  {rest undone : List (ChainPoint × LedgerLog O)}

omit [BlockDecoding O]

omit [NonceCrypto] in
theorem exists_resolve {loaded : UtxoMap O} {refs : List TxoRef}
    (held : ∀ txo ∈ refs, (loaded.get? txo).isSome) :
    ∃ resolved, resolve loaded refs = .ok resolved := by
  induction refs with
  | nil => exact ⟨[], rfl⟩
  | cons txo rest ih =>
      rcases ih fun other member => held other (List.mem_cons_of_mem _ member) with
        ⟨resolved, restDone⟩
      rcases Option.isSome_iff_exists.mp (held txo List.mem_cons_self) with ⟨body, bodyEq⟩
      refine ⟨(txo, body) :: resolved, ?_⟩
      simp only [resolve, bodyEq, restDone, ok_bind]

omit [NonceCrypto] in
theorem error_of_resolve {loaded : UtxoMap O} {refs : List TxoRef} {failure : DomainError}
    (failed : resolve loaded refs = .error failure) : ∃ txo, failure = .missingUtxo txo := by
  induction refs with
  | nil => cases failed
  | cons txo rest ih =>
      cases bodyEq : loaded.get? txo with
      | none =>
          simp only [resolve, bodyEq, Except.error.injEq] at failed
          exact ⟨txo, failed.symm⟩
      | some body =>
          cases restDone : resolve loaded rest with
          | error restFailure =>
              simp only [resolve, bodyEq, restDone, error_bind, Except.error.injEq] at failed
              rw [failed] at restDone
              exact ih restDone
          | ok resolved =>
              simp only [resolve, bodyEq, restDone, ok_bind] at failed
              cases failed

omit [NonceCrypto] in
theorem exists_computeUndo {log : LedgerLog O} (resolves : Resolves log) :
    ∃ delta, computeUndo log = .ok delta := by
  rcases resolves with ⟨block, blockEq, held⟩
  rcases exists_resolve held with ⟨resolved, done⟩
  rw [computeUndo, Option.mem_def.mp blockEq]
  simp only [computeUndoDelta, done, ok_bind]
  exact ⟨_, rfl⟩

omit [NonceCrypto] in
theorem error_of_computeUndo {log : LedgerLog O} (refused : ¬ Resolves log) :
    ∃ failure, computeUndo log = .error failure ∧ ∀ panic, failure ≠ .panic panic := by
  cases blockEq : log.block with
  | none =>
      refine ⟨_, by rw [computeUndo, blockEq], ?_⟩
      intro panic same
      cases same
  | some block =>
      cases done : resolve log.inputs block.consumed with
      | ok resolved =>
          refine absurd ⟨block, blockEq, ?_⟩ refused
          intro txo spent
          exact isSome_of_resolve done spent
      | error failure =>
          rcases error_of_resolve done with ⟨txo, rfl⟩
          refine ⟨.missingUtxo txo, ?_, ?_⟩
          · rw [computeUndo, blockEq]
            simp only [computeUndoDelta, done, error_bind]
          · intro panic same
            cases same

theorem undoRuns_iff : UndoRuns view rest ↔
    ∃ final, runOn key undo (undoneDeltas rest) view = .ok final := by
  simp only [UndoRuns, runOn_eq_ok_iff]
  exact Classical.skolem

theorem undoRuns_cons (ran : runOn key undo entry.2.delta.reverse view = .ok next) :
    UndoRuns view (entry :: rest) ↔ UndoRuns next rest := by
  simp only [undoRuns_iff, undoneDeltas, List.flatMap_cons, runOn_append_iff, ran,
    Except.ok.injEq, exists_eq_left']

theorem exists_next (runs : UndoRuns view (entry :: rest)) :
    ∃ next, runOn key undo entry.2.delta.reverse view = .ok next := by
  rcases undoRuns_iff.mp runs with ⟨final, ran⟩
  rcases runOn_append_iff.mp ran with ⟨next, nextEq, -⟩
  exact ⟨next, nextEq⟩

theorem undoes_cons (ran : runOn key undo entry.2.delta.reverse view = .ok next) :
    Undoes view (entry :: rest) ↔ Resolves entry.2 ∧ Undoes next rest := by
  constructor
  · rintro ⟨resolves, runs⟩
    rcases List.forall_mem_cons.mp resolves with ⟨here, later⟩
    exact ⟨here, later, (undoRuns_cons ran).mp runs⟩
  · rintro ⟨here, later, runs⟩
    exact ⟨List.forall_mem_cons.mpr ⟨here, later⟩, (undoRuns_cons ran).mpr runs⟩

theorem refuses_cons (ran : runOn key undo entry.2.delta.reverse view = .ok next) :
    Refuses view (entry :: rest) undone ↔
      (¬ Resolves entry.2 ∧ undone = []) ∨
        ∃ later, undone = entry :: later ∧ Resolves entry.2 ∧ Refuses next rest later := by
  constructor
  · rintro ⟨refused, later, split, resolves, unresolved, runs⟩
    rcases List.cons_eq_append_iff.mp split with ⟨rfl, consEq⟩ | ⟨before, rfl, restEq⟩
    · rcases List.cons.inj consEq with ⟨rfl, rfl⟩
      exact Or.inl ⟨unresolved, rfl⟩
    · rcases List.forall_mem_cons.mp resolves with ⟨here, resolvesLater⟩
      exact Or.inr ⟨before, rfl, here, refused, later, restEq, resolvesLater, unresolved,
        (undoRuns_cons ran).mp runs⟩
  · rintro (⟨unresolved, rfl⟩ | ⟨before, rfl, here, refused, later, rfl, resolves, unresolved,
      runs⟩)
    · refine ⟨entry, rest, rfl, by simp, unresolved, ?_⟩
      apply (undoRuns_cons ran).mpr
      exact fun index => ⟨next index, rfl⟩
    · exact ⟨refused, later, rfl, List.forall_mem_cons.mpr ⟨here, resolves⟩, unresolved,
        (undoRuns_cons ran).mpr runs⟩

variable {store : OrderedMap NsKey CardanoEntity} {entities : EntityMap CardanoEntity}

theorem undoEntry_of_runOn {log : LedgerLog O}
    (ran : runOn key undo log.delta.reverse (store.overlay entities) = .ok next) :
    ∃ undone, store.overlay undone = next ∧
      undoEntry store entities log = (computeUndo log >>= fun delta => .ok (undone, delta)) := by
  rcases undoDeltaChunk_of_runOn ran with ⟨undone, undoneEq, seen⟩
  refine ⟨undone, seen, ?_⟩
  rw [undoEntry, undoneEq]
  rfl

theorem undoEntry_panics {log : LedgerLog O}
    (stuck : ∀ next, runOn key undo log.delta.reverse (store.overlay entities) ≠ .ok next) :
    ∃ panic, undoEntry store entities log = .error (.panic panic) := by
  cases chunk : undoDeltaChunk entities store log.delta with
  | ok undone => exact absurd (runOn_of_undoDeltaChunk chunk) (stuck _)
  | error panic =>
      refine ⟨panic, ?_⟩
      rw [undoEntry, chunk]
      rfl

end Undo

section Loop

variable {confirm : M → ConfirmCall → M} {store : OrderedMap NsKey CardanoEntity}
  {target : ChainPoint}

/-- Where the loop meets the target. -/
def metEntry (entries : List (ChainPoint × LedgerLog O)) (target : ChainPoint) :
    Option (ChainPoint × LedgerLog O) :=
  entries.find? fun entry => entry.1.eq target

/-- What it goes through before. -/
def beforeMet (entries : List (ChainPoint × LedgerLog O)) (target : ChainPoint) :
    List (ChainPoint × LedgerLog O) :=
  entries.takeWhile fun entry => !entry.1.eq target

omit [BlockDecoding O] [NonceCrypto] in
theorem beforeMet_of_missed {entry : ChainPoint × LedgerLog O}
    {rest : List (ChainPoint × LedgerLog O)} (missed : ¬ entry.1.eq target) :
    beforeMet (entry :: rest) target = entry :: beforeMet rest target := by
  simp [beforeMet, missed]

omit [BlockDecoding O] [NonceCrypto] in
theorem beforeMet_of_met {entry : ChainPoint × LedgerLog O}
    {rest : List (ChainPoint × LedgerLog O)} (met : entry.1.eq target) :
    beforeMet (entry :: rest) target = [] := by
  simp [beforeMet, met]

/-- The loop after an entry that could be undone. -/
theorem undoBlocks_cons (confirm : M → ConfirmCall → M) {entry : ChainPoint × LedgerLog O}
    (rest : List (ChainPoint × LedgerLog O)) {undoing : Undoing O M}
    {next : NsKey → Option CardanoEntity} (missed : ¬ entry.1.eq target)
    (ran : runOn key undo entry.2.delta.reverse (store.overlay undoing.entities) = .ok next)
    (resolves : Resolves entry.2) :
    ∃ after : Undoing O M, store.overlay after.entities = next ∧
      after.cursor = undoing.cursor ∧ after.indexes.cursor = undoing.indexes.cursor ∧
      after.mempool = confirm undoing.mempool (undoCall entry) ∧
      undoBlocks confirm store target (entry :: rest) undoing =
        undoBlocks confirm store target rest after := by
  rcases undoEntry_of_runOn ran with ⟨undone, seen, stepEq⟩
  rcases exists_computeUndo resolves with ⟨delta, deltaEq⟩
  rw [deltaEq, ok_bind] at stepEq
  refine ⟨{ undoing with
    entities := undone
    utxos := applyUtxoset undoing.utxos delta
    indexes := undoing.indexes.undo (indexDeltaFromUtxoDelta entry.1 delta)
    mempool := confirm undoing.mempool (undoCall entry) }, seen, rfl, rfl, rfl, ?_⟩
  rw [undoBlocks, if_neg missed, stepEq]

theorem undoBlocks_ok {entries : List (ChainPoint × LedgerLog O)} {undoing : Undoing O M}
    (undoes : Undoes (store.overlay undoing.entities) (beforeMet entries target)) :
    ∃ undone, undoBlocks confirm store target entries undoing = .ok undone ∧
      undone.cursor = ((metEntry entries target).map Prod.fst <|> undoing.cursor) ∧
      undone.indexes.cursor =
        ((metEntry entries target).map Prod.fst <|> undoing.indexes.cursor) := by
  induction entries generalizing undoing with
  | nil => exact ⟨undoing, rfl, rfl, rfl⟩
  | cons entry rest ih =>
      by_cases met : entry.1.eq target
      · have metHere : metEntry (entry :: rest) target = some entry := by simp [metEntry, met]
        rw [undoBlocks, if_pos met, metHere]
        exact ⟨_, rfl, rfl, rfl⟩
      · have metLater : metEntry (entry :: rest) target = metEntry rest target := by
          simp [metEntry, met]
        rw [beforeMet_of_missed met] at undoes
        rcases exists_next undoes.runs with ⟨next, ran⟩
        rcases (undoes_cons ran).mp undoes with ⟨resolves, undoesRest⟩
        rcases undoBlocks_cons confirm rest met ran resolves with
          ⟨after, seen, cursorEq, indexEq, -, stepEq⟩
        rw [← seen] at undoesRest
        rw [stepEq, metLater, ← cursorEq, ← indexEq]
        exact ih undoesRest

/-- A refused entry ends the loop with an error, when the mempool has been told of the
entries before it. -/
theorem undoBlocks_refused {entries undone : List (ChainPoint × LedgerLog O)}
    {undoing : Undoing O M}
    (refuses : Refuses (store.overlay undoing.entities) (beforeMet entries target) undone) :
    ∃ failure, (∀ panic, failure ≠ DomainError.panic panic) ∧
      undoBlocks confirm store target entries undoing =
        .error (failure, (undone.map undoCall).foldl confirm undoing.mempool) := by
  induction entries generalizing undoing undone with
  | nil =>
      rcases refuses with ⟨_, _, split, -⟩
      cases List.append_eq_nil_iff.mp split.symm |>.2
  | cons entry rest ih =>
      by_cases met : entry.1.eq target
      · rcases refuses with ⟨_, _, split, -⟩
        rw [beforeMet_of_met met] at split
        cases List.append_eq_nil_iff.mp split.symm |>.2
      · rw [beforeMet_of_missed met] at refuses
        have runsHere : ∃ next, runOn key undo entry.2.delta.reverse
            (store.overlay undoing.entities) = .ok next := by
          rcases refuses with ⟨refused, later, split, -, -, runs⟩
          cases undone with
          | nil =>
              rcases List.cons.inj split with ⟨rfl, -⟩
              exact exists_next runs
          | cons first others =>
              rcases List.cons.inj split with ⟨rfl, -⟩
              exact exists_next runs
        rcases runsHere with ⟨next, ran⟩
        rcases (refuses_cons ran).mp refuses with
          ⟨unresolved, rfl⟩ | ⟨later, rfl, resolves, refusesRest⟩
        · rcases undoEntry_of_runOn ran with ⟨_, -, stepEq⟩
          rcases error_of_computeUndo unresolved with ⟨failure, failed, noPanic⟩
          rw [failed, error_bind] at stepEq
          refine ⟨failure, noPanic, ?_⟩
          rw [undoBlocks, if_neg met, stepEq]
          rfl
        · rcases undoBlocks_cons confirm rest met ran resolves with
            ⟨after, seen, -, -, mempoolEq, stepEq⟩
          rw [← seen] at refusesRest
          rcases ih refusesRest with ⟨failure, noPanic, walked⟩
          refine ⟨failure, noPanic, ?_⟩
          rw [stepEq, walked, mempoolEq, List.map_cons, List.foldl_cons]

/-- Nothing else stops the loop but a panic. -/
theorem undoBlocks_panics {entries : List (ChainPoint × LedgerLog O)} {undoing : Undoing O M}
    (fails : ¬ Undoes (store.overlay undoing.entities) (beforeMet entries target))
    (notRefused : ∀ undone,
      ¬ Refuses (store.overlay undoing.entities) (beforeMet entries target) undone) :
    ∃ panic mempool, undoBlocks confirm store target entries undoing =
      .error (.panic panic, mempool) := by
  induction entries generalizing undoing with
  | nil => exact absurd ⟨by simp [beforeMet], fun index => ⟨_, rfl⟩⟩ fails
  | cons entry rest ih =>
      by_cases met : entry.1.eq target
      · rw [beforeMet_of_met met] at fails
        exact absurd ⟨by simp, fun index => ⟨_, rfl⟩⟩ fails
      · rw [beforeMet_of_missed met] at fails notRefused
        by_cases runs : ∃ next, runOn key undo entry.2.delta.reverse
            (store.overlay undoing.entities) = .ok next
        · rcases runs with ⟨next, ran⟩
          have resolves : Resolves entry.2 := by
            by_contra unresolved
            exact notRefused [] ((refuses_cons ran).mpr (Or.inl ⟨unresolved, rfl⟩))
          rcases undoBlocks_cons confirm rest met ran resolves with
            ⟨after, seen, -, -, -, stepEq⟩
          rw [stepEq]
          apply ih
          · rw [seen]
            intro undoesRest
            exact fails ((undoes_cons ran).mpr ⟨resolves, undoesRest⟩)
          · rw [seen]
            intro undone refuses
            exact notRefused (entry :: undone)
              ((refuses_cons ran).mpr (Or.inr ⟨undone, rfl, resolves, refuses⟩))
        · rcases undoEntry_panics (not_exists.mp runs) with ⟨panic, stepEq⟩
          refine ⟨panic, undoing.mempool, ?_⟩
          rw [undoBlocks, if_neg met, stepEq]

/-- What the loop leaves of the state and the indexes is what their own rollbacks leave. -/
theorem undoBlocks_refines {entries : List (ChainPoint × LedgerLog O)}
    {undoing undone : Undoing O M}
    (walked : undoBlocks confirm store target entries undoing = .ok undone) :
    ∃ reached, LedgerStores.undoDownTo store target entries undoing.entities undoing.utxos =
        .ok (undone.entities, undone.utxos, reached) ∧
      undone.cursor = (reached <|> undoing.cursor) ∧
      IndexedStores.undoIndexes target entries undoing.indexes = .ok undone.indexes := by
  induction entries generalizing undoing with
  | nil =>
      rcases Except.ok.inj walked with rfl
      exact ⟨none, rfl, rfl, rfl⟩
  | cons entry rest ih =>
      rcases entry with ⟨point, log⟩
      rw [undoBlocks] at walked
      rw [LedgerStores.undoDownTo, IndexedStores.undoIndexes]
      split_ifs at walked ⊢ with met
      · rcases Except.ok.inj walked with rfl
        exact ⟨some point, rfl, rfl, rfl⟩
      · cases stepEq : undoEntry store undoing.entities log with
        | error failure =>
            simp only [stepEq] at walked
            cases walked
        | ok step =>
            rcases step with ⟨entities, delta⟩
            simp only [stepEq] at walked
            rcases ih walked with ⟨reached, downTo, cursorEq, indexesEq⟩
            rcases bind_eq_ok.mp stepEq with ⟨undoneEntities, entitiesEq, deltaStep⟩
            rcases bind_eq_ok.mp deltaStep with ⟨undoDelta, deltaEq, stepIs⟩
            rcases Prod.mk.inj (Except.ok.inj stepIs) with ⟨rfl, rfl⟩
            refine ⟨reached, ?_, cursorEq, ?_⟩
            · rw [entitiesEq, ok_bind, deltaEq, ok_bind]
              exact downTo
            · rw [computeUndoIndexes, deltaEq, ok_bind, ok_bind]
              exact indexesEq

theorem rollback_refines {node after : NodeStores O M}
    (done : node.rollback confirm target = (.ok (), after)) :
    node.stores.rollback target = .ok after.stores := by
  unfold NodeStores.rollback at done
  simp only at done
  split at done
  · cases done
  · next undone walked =>
      rcases Prod.mk.inj done with ⟨-, rfl⟩
      rcases undoBlocks_refines walked with ⟨reached, downTo, cursorEq, indexesEq⟩
      rw [IndexedStores.rollback, LedgerStores.rollback, downTo, ok_bind, ok_bind, indexesEq,
        ok_bind]
      simp only [cursorEq]

end Loop

section Target

omit [BlockDecoding O] [NonceCrypto]

variable {wal : Wal (LedgerLog O)} {target : ChainPoint}

/-- What equals a target is not before it in the log. -/
theorem intoBytes_le_of_eq {bytes : ℕ ×ₗ BlockHash}
    (same : (ChainPoint.fromBytes bytes).eq target) : target.intoBytes ≤ bytes := by
  rw [← ChainPoint.intoBytes_fromBytes bytes]
  cases pointEq : ChainPoint.fromBytes bytes with
  | origin =>
      rw [pointEq] at same
      cases target with
      | origin => exact le_refl _
      | slotOnly slot => cases same
      | specific slot hash => cases same
  | slotOnly slot =>
      unfold ChainPoint.fromBytes at pointEq
      split_ifs at pointEq
  | specific slot hash =>
      rw [pointEq] at same
      cases target with
      | origin => cases same
      | slotOnly other =>
          rcases of_decide_eq_true same with rfl
          exact Prod.Lex.le_iff.mpr (Or.inr ⟨rfl, Fin.zero_le _⟩)
      | specific other otherHash =>
          rcases of_decide_eq_true same with ⟨rfl, rfl⟩
          exact le_refl _

theorem metEntry_of_held {log : LedgerLog O} (found : wal.get? target.intoBytes = some log)
    (isTarget : (ChainPoint.fromBytes target.intoBytes).eq target)
    (noneAbove : ∀ entry ∈ wal.entries, target.intoBytes < entry.1 →
      (ChainPoint.fromBytes entry.1).eq target = false) :
    metEntry (wal.iterLogs (some target) none).reverse target =
      some (ChainPoint.fromBytes target.intoBytes, log) := by
  rw [metEntry, Wal.iterLogs_from, OrderedMap.filter_le_eq_cons found, List.map_cons,
    List.reverse_cons, List.find?_append]
  have missed : ((wal.entries.filter fun entry => target.intoBytes < entry.1).map fun entry =>
      (ChainPoint.fromBytes entry.1, entry.2)).reverse.find? (fun entry => entry.1.eq target) =
        none := by
    apply List.find?_eq_none.mpr
    intro entry member
    rcases List.mem_map.mp (List.mem_reverse.mp member) with ⟨logged, isLogged, rfl⟩
    rcases List.mem_filter.mp isLogged with ⟨inLog, above⟩
    rw [noneAbove logged inLog (of_decide_eq_true above)]
    simp
  rw [missed, Option.none_or, List.find?_singleton, if_pos isTarget]

/-- After the cut the log ends at the target when it has it. -/
theorem findTip_truncateFront {log : LedgerLog O}
    (found : wal.get? target.intoBytes = some log) :
    (wal.truncateFront target).findTip = some (ChainPoint.fromBytes target.intoBytes, log) := by
  have kept : (wal.truncateFront target).get? target.intoBytes = some log := by
    rw [Wal.truncateFront, Wal.removeEntries, OrderedMap.get?_filter, found]
    simp
  have greatest : ∀ entry ∈ (wal.truncateFront target).entries, entry.1 ≤ target.intoBytes := by
    intro entry member
    exact of_decide_eq_true (List.mem_filter.mp member).2
  rcases OrderedMap.entries_of_greatest kept greatest with ⟨before, entriesEq⟩
  simp only [Wal.findTip, Wal.iterLogs, List.filter_true]
  rw [entriesEq, List.map_append, List.getLast?_append]
  rfl

/-- The target is met at the tip that the cut leaves exactly when the log holds it. -/
theorem heldInLog_iff {point : ChainPoint} :
    Named wal target ∧
        (metEntry (wal.iterLogs (some target) none).reverse target).map Prod.fst = some point ∧
        (wal.truncateFront target).findTip.map Prod.fst = some point ↔
      HeldInLog wal target ∧ point = ChainPoint.fromBytes target.intoBytes := by
  constructor
  · rintro ⟨-, metAt, tipAt⟩
    rcases Option.map_eq_some_iff.mp metAt with ⟨entry, metEq, rfl⟩
    rcases Option.map_eq_some_iff.mp tipAt with ⟨tip, tipEq, samePoint⟩
    have isTarget : entry.1.eq target := by
      have found := List.find?_some metEq
      exact found
    have isEntry := List.mem_reverse.mp (List.mem_of_find?_eq_some metEq)
    rw [Wal.iterLogs_from] at isEntry
    rcases List.mem_map.mp isEntry with ⟨logged, isLogged, loggedEq⟩
    rcases List.mem_filter.mp isLogged with ⟨inLog, -⟩
    have pointIs : ChainPoint.fromBytes logged.1 = entry.1 := congrArg Prod.fst loggedEq
    have notBefore : target.intoBytes ≤ logged.1 := by
      apply intoBytes_le_of_eq
      rw [pointIs]
      exact isTarget
    have notAfter : logged.1 ≤ target.intoBytes := by
      have tipMember := List.mem_of_getLast? tipEq
      simp only [Wal.iterLogs, List.filter_true] at tipMember
      rcases List.mem_map.mp tipMember with ⟨kept, isKept, keptEq⟩
      have below := of_decide_eq_true (List.mem_filter.mp isKept).2
      have sameBytes : kept.1 = logged.1 := by
        rw [← ChainPoint.intoBytes_fromBytes kept.1, ← ChainPoint.intoBytes_fromBytes logged.1,
          pointIs, ← samePoint, ← keptEq]
      rw [← sameBytes]
      exact below
    have ownKey : logged.1 = target.intoBytes := le_antisymm notAfter notBefore
    have found : wal.get? target.intoBytes = some logged.2 := by
      rw [← ownKey]
      exact OrderedMap.mem_entries_iff.mp inLog
    have decoded : ChainPoint.fromBytes target.intoBytes = entry.1 := by
      rw [← ownKey]
      exact pointIs
    refine ⟨⟨Option.isSome_of_eq_some found, ?_, ?_⟩, decoded.symm⟩
    · rw [decoded]
      exact isTarget
    · intro later isLater above
      by_contra taken
      have takenEq := Bool.of_not_eq_false taken
      rw [Wal.iterLogs_from, OrderedMap.filter_le_eq_cons found, List.map_cons,
        List.reverse_cons, metEntry, List.find?_append] at metEq
      have metAbove : (((wal.entries.filter fun entry => target.intoBytes < entry.1).map
          fun entry => (ChainPoint.fromBytes entry.1, entry.2)).reverse.find?
            fun entry => entry.1.eq target).isSome := by
        apply List.find?_isSome.mpr
        refine ⟨(ChainPoint.fromBytes later.1, later.2), ?_, takenEq⟩
        apply List.mem_reverse.mpr
        exact List.mem_map.mpr
          ⟨later, List.mem_filter.mpr ⟨isLater, decide_eq_true above⟩, rfl⟩
      rcases Option.isSome_iff_exists.mp metAbove with ⟨higher, higherEq⟩
      rw [higherEq, Option.some_or] at metEq
      rcases Option.some.inj metEq with rfl
      rcases List.mem_map.mp (List.mem_reverse.mp (List.mem_of_find?_eq_some higherEq)) with
        ⟨source, isSource, sourceEq⟩
      have sourceAbove := of_decide_eq_true (List.mem_filter.mp isSource).2
      have sourceBytes : source.1 = target.intoBytes := by
        rw [← ChainPoint.intoBytes_fromBytes source.1, ← ownKey,
          ← ChainPoint.intoBytes_fromBytes logged.1, pointIs, ← sourceEq]
      exact absurd sourceBytes (ne_of_gt sourceAbove)
  · rintro ⟨⟨isHeld, isTarget, noneAbove⟩, rfl⟩
    rcases Option.isSome_iff_exists.mp isHeld with ⟨log, found⟩
    refine ⟨?_, ?_, ?_⟩
    · refine ⟨(ChainPoint.fromBytes target.intoBytes, log), ?_, isTarget⟩
      simp only [Wal.iterLogs, List.filter_true]
      exact List.mem_map.mpr ⟨_, OrderedMap.mem_entries_iff.mpr found, rfl⟩
    · rw [metEntry_of_held found isTarget noneAbove]
      rfl
    · rw [findTip_truncateFront found]
      rfl

theorem isSome_metEntry (named : Named wal target) :
    (metEntry (wal.iterLogs (some target) none).reverse target).isSome := by
  rcases named with ⟨entry, isEntry, isTarget⟩
  simp only [Wal.iterLogs, List.filter_true] at isEntry
  rcases List.mem_map.mp isEntry with ⟨logged, isLogged, rfl⟩
  apply List.find?_isSome.mpr
  refine ⟨_, List.mem_reverse.mpr ?_, isTarget⟩
  rw [Wal.iterLogs_from]
  refine List.mem_map.mpr ⟨logged, List.mem_filter.mpr ⟨isLogged, ?_⟩, rfl⟩
  exact decide_eq_true (intoBytes_le_of_eq isTarget)

end Target

namespace NodeStores

section Outcomes

variable {confirm : M → ConfirmCall → M} {node : NodeStores O M} {target : ChainPoint}

/-- Where every entry can be undone, the target decides. -/
theorem allOrNothing_of_undoes
    (undoes : Undoes node.stores.ledger.entities.get?
      (entriesAbove node.stores.ledger.wal target)) :
    node.AllOrNothing confirm target ↔
      HeldInLog node.stores.ledger.wal target ∧
        ArchiveAt (truncateArchive node.archive target.slot)
          (ChainPoint.fromBytes target.intoBytes) := by
  rw [← OrderedMap.overlay_empty] at undoes
  have walked := @undoBlocks_ok O _ _ M confirm node.stores.ledger.entities target
    (node.stores.ledger.wal.iterLogs (some target) none).reverse
    ⟨∅, node.stores.ledger.utxos, node.stores.ledger.cursor, node.stores.indexes,
      node.mempool⟩ undoes
  rcases walked with ⟨undone, walkedEq, cursorEq, indexEq⟩
  simp only [AllOrNothing, rollback, walkedEq]
  constructor
  · rintro ⟨named, point, -, cursorAt, indexAt, archiveAt, tipAt⟩
    rcases Option.isSome_iff_exists.mp (isSome_metEntry named) with ⟨met, metEq⟩
    have metAt : (metEntry (node.stores.ledger.wal.iterLogs (some target) none).reverse
        target).map Prod.fst = some point := by
      rw [metEq] at cursorEq ⊢
      rw [← cursorAt, cursorEq]
      rfl
    rcases heldInLog_iff.mp ⟨named, metAt, tipAt⟩ with ⟨isHeld, rfl⟩
    exact ⟨isHeld, archiveAt⟩
  · rintro ⟨isHeld, archiveAt⟩
    rcases heldInLog_iff.mpr ⟨isHeld, rfl⟩ with ⟨named, metAt, tipAt⟩
    rcases Option.map_eq_some_iff.mp metAt with ⟨met, metEq, metPoint⟩
    rw [metEq, Option.map_some, metPoint] at cursorEq indexEq
    exact ⟨named, _, isHeld.2.1, cursorEq, indexEq, archiveAt, tipAt⟩

/-- Where one is refused, the mempool does. -/
theorem allOrNothing_of_refuses {undone : List (ChainPoint × LedgerLog O)}
    (refuses : Refuses node.stores.ledger.entities.get?
      (entriesAbove node.stores.ledger.wal target) undone) :
    node.AllOrNothing confirm target ↔
      (undone.map undoCall).foldl confirm node.mempool = node.mempool := by
  rw [← OrderedMap.overlay_empty] at refuses
  have walked := @undoBlocks_refused O _ _ M confirm node.stores.ledger.entities target
    (node.stores.ledger.wal.iterLogs (some target) none).reverse undone
    ⟨∅, node.stores.ledger.utxos, node.stores.ledger.cursor, node.stores.indexes,
      node.mempool⟩ refuses
  rcases walked with ⟨failure, noPanic, walkedEq⟩
  have returns : node.AllOrNothing confirm target ↔
      { node with mempool := (undone.map undoCall).foldl confirm node.mempool } = node := by
    simp only [AllOrNothing, rollback, walkedEq]
  rw [returns]
  constructor
  · exact congrArg NodeStores.mempool
  · intro unminded
    rw [unminded]

theorem not_allOrNothing_of_panics
    (fails : ¬ Undoes node.stores.ledger.entities.get?
      (entriesAbove node.stores.ledger.wal target))
    (notRefused : ∀ undone, ¬ Refuses node.stores.ledger.entities.get?
      (entriesAbove node.stores.ledger.wal target) undone) :
    ¬ node.AllOrNothing confirm target := by
  rw [← OrderedMap.overlay_empty] at fails notRefused
  have walked := @undoBlocks_panics O _ _ M confirm node.stores.ledger.entities target
    (node.stores.ledger.wal.iterLogs (some target) none).reverse
    ⟨∅, node.stores.ledger.utxos, node.stores.ledger.cursor, node.stores.indexes,
      node.mempool⟩ fails notRefused
  rcases walked with ⟨panic, mempool, walkedEq⟩
  simp only [AllOrNothing, rollback, walkedEq, not_false_eq_true]

/-- For a mempool whose confirmations change all that is in flight. -/
theorem allOrNothing_iff_meets {find : M → TxHash → Option (MempoolTx P)}
    {idle : M → Prop} (judges : Judges confirm find)
    (idleIff : ∀ mempool, idle mempool ↔ ∀ hash, find mempool hash = none) :
    node.AllOrNothing confirm target ↔ node.Meets idle target := by
  by_cases undoes : Undoes node.stores.ledger.entities.get?
      (entriesAbove node.stores.ledger.wal target)
  · have neverRefused : ∀ undone, ¬ Refuses node.stores.ledger.entities.get?
        (entriesAbove node.stores.ledger.wal target) undone := by
      rintro undone ⟨entry, later, split, -, unresolved, -⟩
      apply unresolved
      apply undoes.resolves
      rw [split]
      exact List.mem_append_right _ List.mem_cons_self
    rw [allOrNothing_of_undoes undoes]
    constructor
    · exact fun met => Or.inl ⟨undoes, met⟩
    · rintro (⟨-, met⟩ | ⟨undone, refuses, -⟩)
      · exact met
      · exact absurd refuses (neverRefused undone)
  · by_cases refused : ∃ undone, Refuses node.stores.ledger.entities.get?
        (entriesAbove node.stores.ledger.wal target) undone
    · have unminded : ∀ undone : List (ChainPoint × LedgerLog O),
          (undone.map undoCall).foldl confirm node.mempool = node.mempool ↔
            undone = [] ∨ idle node.mempool := by
        intro undone
        rw [judges.foldl_eq_iff, List.map_eq_nil_iff, idleIff]
      constructor
      · intro holds
        rcases refused with ⟨undone, refuses⟩
        have unchanged := (allOrNothing_of_refuses refuses).mp holds
        exact Or.inr ⟨undone, refuses, (unminded undone).mp unchanged⟩
      · rintro (⟨holds, -⟩ | ⟨undone, refuses, quiet⟩)
        · exact absurd holds undoes
        · exact (allOrNothing_of_refuses refuses).mpr ((unminded undone).mpr quiet)
    · constructor
      · intro holds
        exact absurd holds (not_allOrNothing_of_panics undoes (not_exists.mp refused))
      · rintro (⟨holds, -⟩ | ⟨undone, refuses, -⟩)
        · exact absurd holds undoes
        · exact absurd ⟨undone, refuses⟩ refused

end Outcomes

/-- With either mempool, a rollback is all or nothing exactly when it can undo every entry
down to its target, which the log and the archive have, or is refused before the mempool has
changed. -/
theorem rollback_all_or_nothing_iff (order : HashOrder P) (target : ChainPoint) :
    (∀ node : NodeStores O (MempoolState P),
      node.AllOrNothing (MempoolState.confirmIn order) target ↔
        node.Meets MempoolState.Idle target) ∧
    ∀ node : NodeStores O (RedbMempool P),
      node.AllOrNothing RedbMempool.confirm target ↔ node.Meets RedbMempool.Idle target := by
  refine ⟨?_, ?_⟩
  · intro node
    exact allOrNothing_iff_meets (judges_ephemeral order) fun _ => MempoolState.idle_iff
  · intro node
    exact allOrNothing_iff_meets judges_redb fun _ => RedbMempool.idle_iff

end NodeStores

namespace OtherFork

open IndexedStores LedgerStores

def confirm : MempoolState ℕ → ConfirmCall → MempoolState ℕ :=
  MempoolState.confirmIn .ascending

/-- The boundary block and the spending block after it, in every store. -/
def node : NodeStores ℕ (MempoolState ℕ) :=
  ⟨indexedSpending, [boundaryBlock.block, spendingBlock.block], .default⟩

omit [NonceCrypto] in
/-- The target is a block of another fork, in the slot of the spending block. The spending
block is undone and leaves the log, and the cursors stay at it. -/
theorem undone_below_cursors :
    letI := NonceCrypto.still
    letI := BlockDecoding.byron
    ¬ Named node.stores.ledger.wal (.specific 6 1) ∧
      ∃ after, node.rollback confirm (.specific 6 1) = (.ok (), after) ∧
        after.stores.ledger.cursor = some (.specific 6 3) ∧
        after.stores.indexes.cursor = some (.specific 6 3) ∧
        after.stores.ledger.utxos = afterBoundaryBlock.utxos ∧
        after.stores.ledger.wal.findTip.map Prod.fst = some (.specific 5 9) ∧
        ¬ node.AllOrNothing confirm (.specific 6 1) := by
  let _ := NonceCrypto.still
  let _ := BlockDecoding.byron
  have notNamed : ¬ Named node.stores.ledger.wal (.specific 6 1) := by
    rintro ⟨entry, isEntry, isTarget⟩
    have points : (node.stores.ledger.wal.iterLogs none none).map Prod.fst =
        [.origin, .specific 5 9, .specific 6 3] := rfl
    have isPoint := List.mem_map_of_mem (f := Prod.fst) isEntry
    rw [points] at isPoint
    simp only [List.mem_cons, List.not_mem_nil, or_false] at isPoint
    rcases isPoint with pointEq | pointEq | pointEq
    · rw [pointEq] at isTarget
      cases isTarget
    · rw [pointEq] at isTarget
      revert isTarget
      decide
    · rw [pointEq] at isTarget
      revert isTarget
      decide
  refine ⟨notNamed, _, rfl, rfl, rfl, rfl, rfl, ?_⟩
  intro allOrNothing
  exact notNamed allOrNothing.1

end OtherFork

end Dolos
