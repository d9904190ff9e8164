import Dolos.Cardano.CrashRollback

/-!
# Runs with crashes

However often the process stops, the stores are on the way to where the units of the run
would have led them: a batch counts from the moment it is in the log, a rollback from the
moment it is out of it. What a process holds in memory between two commits fits what the
stores have already been given.
-/

namespace Dolos

open Outcome LedgerStores ArchiveStore IndexedStores

variable {O : Type} [BlockDecoding O] [NonceCrypto] [RawBlocks O]

section Phases

variable (tail : WalTail O) (entries : List (ChainPoint × LedgerLog O)) (exact : Prop)
  (spec : DomainStores O)

/-- The blocks of a batch are what the archive has not seen. -/
def ArchivePending (computed : RollBatch O) (archive : ArchiveStore) : Prop :=
  ∃ done todo, entries = done ++ todo ∧ archive.Shows (tail.blocks ++ done.map entryBlock) ∧
    computed.archivedBlocks = todo.map entryBlock

/-- The records of a batch are what the indexes have not seen. -/
def IndexesPending (computed : RollBatch O) (indexes : IndexStore) : Prop :=
  ∀ after, computed.commitIndexes indexes = .ok after →
    IndexesAt tail exact spec.indexes after entries []

/-- A rollback that has undone the state, while the log still has the undone entries. -/
structure Unwinding (stores : DomainStores O) (target : ChainPoint)
    (kept undone : List (ChainPoint × LedgerLog O)) : Prop where
  split : entries = kept ++ undone
  undoes : ∃ after, RollsBack tail spec.ledger target kept undone after ∧
    stores.ledger = { after with wal := spec.ledger.wal }
  redone : exact →
    undone.foldlM replayIndex { spec.indexes with cursor := some target } = .ok spec.indexes

/-- The cursor is back, and the records are those of the run. -/
def CursorBack (target : ChainPoint) (indexes : IndexStore) : Prop :=
  indexes.cursor = some target ∧
    (exact → indexes = { spec.indexes with cursor := some target })

/-- What a phase says of the stores and of what the process holds. -/
def Fits (stores : DomainStores O) : LifecyclePhase O → Prop
  | .idle => Arrived tail entries exact spec stores
  | .logged computed =>
      computed.commitState stores.ledger = .ok spec.ledger ∧
        ArchivePending tail entries computed stores.archive ∧
        IndexesPending tail entries exact spec computed stores.indexes
  | .stated computed =>
      stores.ledger = spec.ledger ∧
        ArchivePending tail entries computed stores.archive ∧
        IndexesPending tail entries exact spec computed stores.indexes
  | .archived computed =>
      stores.ledger = spec.ledger ∧
        stores.archive.Shows (tail.blocks ++ entries.map entryBlock) ∧
        IndexesPending tail entries exact spec computed stores.indexes
  | .unwound target indexes =>
      (∃ kept undone, Unwinding tail entries exact spec stores target kept undone) ∧
        stores.archive.Shows (tail.blocks ++ entries.map entryBlock) ∧
        CursorBack exact spec target indexes
  | .unindexed target =>
      (∃ kept undone, Unwinding tail entries exact spec stores target kept undone) ∧
        stores.archive.Shows (tail.blocks ++ entries.map entryBlock) ∧
        CursorBack exact spec target stores.indexes
  | .cut target =>
      (∃ kept undone, Unwinding tail entries exact spec stores target kept undone ∧
        stores.archive.Shows (tail.blocks ++ kept.map entryBlock)) ∧
        CursorBack exact spec target stores.indexes
  | .down => True

end Phases

/-- A process against the run that nothing interrupts. -/
structure Tracks (exact : Prop) (reach recent : List ChainPoint) (spec : DomainStores O)
    (tail : WalTail O) (entries : List (ChainPoint × LedgerLog O))
    (process : DomainProcess O) : Prop where
  stands : Stands tail entries reach recent exact spec
  behind : Behind tail entries exact spec process.stores
  fits : Fits tail entries exact spec process.stores process.phase

section Steps

variable {tail : WalTail O} {entries : List (ChainPoint × LedgerLog O)}
  {reach recent : List ChainPoint} {exact : Prop} {spec : DomainStores O}
  {process next : DomainProcess O}

/-- A process between units is where the run is. -/
theorem Arrived.tracks (stands : Stands tail entries reach recent exact spec)
    {stores : DomainStores O} (arrived : Arrived tail entries exact spec stores) :
    Tracks exact reach recent spec tail entries ⟨stores, .idle⟩ :=
  ⟨stands, arrived.behind stands, arrived⟩

theorem ArchivePending.commitArchive (stands : Stands tail entries reach recent exact spec)
    {computed : RollBatch O} {archive committed : ArchiveStore}
    (pending : ArchivePending tail entries computed archive)
    (done : computed.commitArchive archive = .ok committed) :
    committed.Shows (tail.blocks ++ entries.map entryBlock) := by
  rcases pending with ⟨seen, left, rfl, shown, blocksEq⟩
  rcases stands.sound.later_blocks shown with ⟨later, ascending⟩
  rcases shown.commitBlocks stands.sound.fits_blocks later ascending with
    ⟨reached, reachedEq, shows⟩
  rw [RollBatch.commitArchive, blocksEq, reachedEq] at done
  rcases Except.ok.inj done with rfl
  rw [List.map_append, ← List.append_assoc]
  exact shows

omit [RawBlocks O] in
/-- The state that a rollback leaves is on the way back while the log is whole. -/
theorem Unwinding.state {stores : DomainStores O} {target : ChainPoint}
    {kept undone : List (ChainPoint × LedgerLog O)}
    (unwinding : Unwinding tail entries exact spec stores target kept undone) :
    StateAt tail spec.ledger stores.ledger kept undone := by
  rcases unwinding.undoes with ⟨after, rollsBack, ledgerEq⟩
  have lastEq : lastPoint tail.cursor kept = target := by
    rw [lastPoint, List.getLast?_map, rollsBack.ends]
    rfl
  rw [ledgerEq]
  refine ⟨rfl, ?_, rollsBack.reached, rollsBack.ahead⟩
  rw [lastEq]
  exact rollsBack.cursor

omit [RawBlocks O] in
/-- So are the indexes. -/
theorem CursorBack.indexesAt {stores : DomainStores O} {target : ChainPoint}
    {indexes : IndexStore} (back : CursorBack exact spec target indexes)
    {kept undone : List (ChainPoint × LedgerLog O)}
    (unwinding : Unwinding tail entries exact spec stores target kept undone) :
    IndexesAt tail exact spec.indexes indexes kept undone := by
  rcases unwinding.undoes with ⟨after, rollsBack, -⟩
  have lastEq : lastPoint tail.indexed kept = target := by
    rw [lastPoint, List.getLast?_map, rollsBack.ends]
    rfl
  refine ⟨?_, ?_⟩
  · rw [lastEq]
    exact back.1
  · intro isExact
    rw [back.2 isExact]
    exact unwinding.redone isExact

/-- A step that is no part of the run leaves the process behind the same stores. -/
theorem Tracks.silent (tracks : Tracks exact reach recent spec tail entries process)
    (step : DomainProcess.Step .silent process next) :
    Tracks exact reach recent spec tail entries next := by
  rcases tracks with ⟨stands, behind, fits⟩
  have atEnd : entries = entries ++ [] := (List.append_nil _).symm
  have arrivedState : StateAt tail spec.ledger spec.ledger entries [] :=
    ⟨rfl, stands.sound.cursor, stands.sound.path, .nil _⟩
  cases step with
  | commitState done =>
      rcases fits with ⟨committed, archive, indexes⟩
      rw [committed] at done
      rcases Except.ok.inj done with rfl
      exact ⟨stands, ⟨⟨entries, [], atEnd, arrivedState⟩, behind.archive, behind.indexes⟩,
        rfl, archive, indexes⟩
  | commitArchive done =>
      rcases fits with ⟨ledgerEq, pending, indexes⟩
      have shown := pending.commitArchive stands done
      exact ⟨stands, ⟨behind.state, ⟨entries, [], atEnd, shown⟩, behind.indexes⟩,
        ledgerEq, shown, indexes⟩
  | @commitIndexes stores computed indexes done =>
      rcases fits with ⟨ledgerEq, shown, pending⟩
      have arrived : Arrived tail entries exact spec { stores with indexes := indexes } :=
        ⟨ledgerEq, shown, pending indexes done⟩
      exact arrived.tracks stands
  | undoIndexes =>
      rcases fits with ⟨⟨kept, undone, unwinding⟩, shown, back⟩
      refine ⟨stands, ⟨behind.state, behind.archive, ?_⟩, ?_, shown, back⟩
      · exact ⟨kept, undone, unwinding.split, back.indexesAt unwinding⟩
      · exact ⟨kept, undone, unwinding.split, unwinding.undoes, unwinding.redone⟩
  | @truncateArchive stores target =>
      rcases fits with ⟨⟨kept, undone, unwinding⟩, shown, back⟩
      rcases unwinding.undoes with ⟨after, rollsBack, ledgerEq⟩
      rcases unwinding.split with rfl
      have cut := stands.sound.truncateFront rollsBack.ends shown
      refine ⟨stands, ⟨behind.state, ⟨kept, undone, rfl, cut⟩, behind.indexes⟩, ?_, back⟩
      exact ⟨kept, undone, ⟨rfl, ⟨after, rollsBack, ledgerEq⟩, unwinding.redone⟩, cut⟩
  | crash => exact ⟨stands, behind, trivial⟩
  | crashAppending count =>
      rcases behind.archive with ⟨done, todo, split, shown⟩
      exact ⟨stands, ⟨behind.state, ⟨done, todo, split, shown.appending _ count⟩,
        behind.indexes⟩, trivial⟩
  | interrupted isCut => exact ⟨stands, behind.interrupted stands isCut, trivial⟩
  | restarted recovered =>
      have caught : ¬ spec.AheadOfLog := by
        intro ahead
        rcases (behind.checkIntegrity stands).2 ahead with ⟨wal, state, refused⟩
        rw [DomainStores.bootstrap, refused] at recovered
        cases recovered
      rcases behind.bootstrap stands caught with ⟨reached, reachedEq, arrived⟩
      rw [reachedEq] at recovered
      rcases Except.ok.inj recovered with rfl
      exact arrived.tracks stands

/-- A rollback within reach splits the tail. -/
theorem Stands.exists_split (stands : Stands tail entries reach recent exact spec)
    {target : ChainPoint} (within : target ∈ reach) (noneDeeper : exact → target ∈ recent) :
    ∃ kept undone, entries = kept ++ undone ∧ kept.getLast?.map Prod.fst = some target ∧
      (exact →
        undone.foldlM replayIndex { spec.indexes with cursor := some target } =
          .ok spec.indexes) := by
  by_cases isExact : exact
  · rcases stands.again isExact target (noneDeeper isExact) with
      ⟨kept, undone, split, ends, redone⟩
    exact ⟨kept, undone, split, ends, fun _ => redone⟩
  · rw [stands.reach] at within
    rcases List.mem_map.mp within with ⟨entry, member, rfl⟩
    rcases List.append_of_mem member with ⟨first, second, split⟩
    refine ⟨first ++ [entry], second, ?_, ?_, fun holds => absurd holds isExact⟩
    · rw [split]
      simp
    · rw [List.getLast?_concat]
      rfl

/-- The first commit of a rollback. -/
theorem Tracks.undo (tracks : Tracks exact reach recent spec tail entries process)
    {target : ChainPoint} (step : DomainProcess.Step (.undo target) process next)
    (within : target ∈ reach) (noneDeeper : exact → target ∈ recent) :
    Tracks exact reach recent spec tail entries next := by
  rcases tracks with ⟨stands, behind, fits⟩
  cases step with
  | @undoState stores _ undoneStores done =>
      have arrived : Arrived tail entries exact spec stores := fits
      rcases stands.exists_split within noneDeeper with ⟨kept, undone, rfl, ends, redone⟩
      rcases stands.sound.rollback ends with ⟨after, rollsBack⟩
      have rolledBack := rollsBack.done stores.indexes
      rw [← arrived.ledger] at rolledBack
      have whole : stores.toIndexedStores = ⟨stores.ledger, stores.indexes⟩ := rfl
      rw [whole, rolledBack] at done
      rcases Except.ok.inj done with rfl
      have unwinding : Unwinding tail (kept ++ undone) exact spec
          { stores with ledger := { after with wal := stores.ledger.wal } } target kept undone :=
        ⟨rfl, ⟨after, rollsBack, by rw [arrived.ledger]⟩, redone⟩
      refine ⟨stands, ⟨⟨kept, undone, rfl, unwinding.state⟩, behind.archive, behind.indexes⟩,
        ⟨kept, undone, unwinding⟩, arrived.archive, rfl, ?_⟩
      intro isExact
      have same : stores.indexes = spec.indexes := Except.ok.inj (arrived.indexes.ahead isExact)
      rw [same]

/-- The commit that makes a unit part of the run. -/
theorem Tracks.unit (tracks : Tracks exact reach recent spec tail entries process)
    {unit : DomainUnit O} (step : DomainProcess.Step (.unit unit) process next)
    (allowed : unit.Allowed spec) :
    ∃ after, spec.execute unit = .ok after ∧
      ((∃ tip, spec.AtTip tip) → ∃ tip, after.AtTip tip) ∧ ∃ nextTail nextEntries,
        Tracks exact (unit.reachAfter reach) (unit.recentAfter recent) after nextTail nextEntries
          next := by
  rcases tracks with ⟨stands, behind, fits⟩
  cases step with
  | @commitWal stores batch computed logged done =>
      have arrived : Arrived tail entries exact spec stores := fits
      rw [arrived.ledger] at done
      rcases stands.roll allowed done with ⟨after, new, rolls, reached⟩
      have logged : entries ++ new ≠ [] := by
        intro isNil
        have points := rolls.points
        rw [(List.append_eq_nil_iff.mp isNil).2] at points
        exact batch.nonempty (List.map_eq_nil_iff.mp points.symm)
      refine ⟨after, rolls.execute, fun _ => reached.exists_atTip logged, tail, entries ++ new,
        reached, ⟨?_, ?_, ?_⟩, rolls.state, ?_, ?_⟩
      · refine ⟨entries, new, rfl, rolls.walEq, ?_, ?_, ?_⟩
        · rw [rolls.cursor]
          exact stands.sound.cursor
        · rw [rolls.view]
          exact stands.sound.path
        · rw [rolls.view]
          exact rolls.path
      · exact ⟨entries, new, rfl, arrived.archive⟩
      · refine ⟨entries, new, rfl, arrived.indexes.cursor, ?_⟩
        intro isExact
        have same : stores.indexes = spec.indexes :=
          Except.ok.inj (arrived.indexes.ahead isExact)
        rw [same]
        exact rolls.replays
      · exact ⟨entries, new, rfl, arrived.archive, rolls.blocks⟩
      · intro committed committedEq
        rcases rolls.moves _ committed committedEq with ⟨last, lastEq, cursorEq⟩
        refine ⟨?_, ?_⟩
        · rw [cursorEq, lastPoint, List.map_append, List.getLast?_append,
            List.getLast?_map, lastEq]
          rfl
        · intro isExact
          have same : stores.indexes = spec.indexes :=
            Except.ok.inj (arrived.indexes.ahead isExact)
          rw [same, rolls.indexes] at committedEq
          rw [Except.ok.inj committedEq]
          rfl
  | boundary done =>
      have arrived : Arrived tail entries exact spec _ := fits
      rcases stands.boundary arrived allowed done with
        ⟨after, executed, stays, nextTail, reached, arrivedNext⟩
      refine ⟨after, executed, ?_, nextTail, [], arrivedNext.tracks reached⟩
      rintro ⟨tip, atTip⟩
      exact ⟨tip, stays tip atTip⟩
  | @truncateWal stores target =>
      rcases fits with ⟨⟨kept, undone, unwinding, shown⟩, back⟩
      rcases unwinding.split with rfl
      rcases unwinding.undoes with ⟨after, rollsBack, ledgerEq⟩
      rcases stands.rollback rollsBack with ⟨reached, executed, ledgerIs, indexesAre, standsAfter⟩
      have keptSome : kept ≠ [] := by
        rintro rfl
        cases rollsBack.ends
      refine ⟨reached, executed, fun _ => standsAfter.exists_atTip keptSome, tail, kept, ?_⟩
      have arrived : Arrived tail kept exact reached { stores with ledger :=
          { stores.ledger with wal := stores.ledger.wal.truncateFront target } } := by
        refine ⟨?_, shown, (back.indexesAt unwinding).cursor, ?_⟩
        · rw [ledgerIs, ledgerEq, ← rollsBack.walEq]
        · intro isExact
          rw [indexesAre, ← back.2 isExact]
          rfl
      exact arrived.tracks standsAfter

end Steps

/-- Stores that no reader tells apart: the archives show the same blocks, and the indexes
have the same records where they are to be exact. -/
structure DomainStores.Agrees (exact : Prop) (first second : DomainStores O) : Prop where
  ledger : first.ledger = second.ledger
  archive : ∃ blocks, first.archive.Shows blocks ∧ second.archive.Shows blocks
  cursor : first.indexes.cursor = second.indexes.cursor
  indexes : exact → first.indexes = second.indexes

theorem Arrived.agrees {tail : WalTail O} {entries : List (ChainPoint × LedgerLog O)}
    {reach recent : List ChainPoint} {exact : Prop} {spec stores : DomainStores O}
    (stands : Stands tail entries reach recent exact spec)
    (arrived : Arrived tail entries exact spec stores) : stores.Agrees exact spec := by
  refine ⟨arrived.ledger, ⟨_, arrived.archive, stands.shown⟩, ?_, ?_⟩
  · rw [arrived.indexes.cursor, stands.indexed]
  · exact fun isExact => Except.ok.inj (arrived.indexes.ahead isExact)

/-- However a run was interrupted, the process is behind the stores that its units lead to. -/
theorem Tracks.run {exact : Prop} {process final : DomainProcess O}
    {events : List (DomainEvent O)}
    (path : Path DomainProcess.Step events process final) :
    ∀ {tail : WalTail O} {entries : List (ChainPoint × LedgerLog O)}
      {reach recent : List ChainPoint} {spec : DomainStores O},
      Tracks exact reach recent spec tail entries process → AllAllowed reach spec events →
        (exact → NoneDeeper recent events) →
          ∃ after, spec.executeAll (events.filterMap DomainEvent.unit?) = .ok after ∧
            ((∃ tip, spec.AtTip tip) → ∃ tip, after.AtTip tip) ∧
            ∃ reach recent tail entries, Tracks exact reach recent after tail entries final := by
  induction path with
  | nil =>
      intro tail entries reach recent spec tracks _ _
      exact ⟨spec, rfl, id, reach, recent, tail, entries, tracks⟩
  | @cons event rest _ next _ step _ ih =>
      intro tail entries reach recent spec tracks allowed noneDeeper
      cases event with
      | unit unit =>
          rcases tracks.unit step allowed.1 with ⟨after, executed, stays, _, _, tracksNext⟩
          rcases ih tracksNext (allowed.2 after executed) noneDeeper with
            ⟨last, restDone, staysLater, reached⟩
          refine ⟨last, ?_, fun atTip => staysLater (stays atTip), reached⟩
          have unitIs : DomainEvent.unit? (.unit unit : DomainEvent O) = some unit := rfl
          rw [List.filterMap_cons_some unitIs, DomainStores.executeAll, executed, ok_bind,
            restDone]
      | undo target =>
          have tracksNext := tracks.undo step allowed.1 fun isExact => (noneDeeper isExact).1
          exact ih tracksNext allowed.2 fun isExact => (noneDeeper isExact).2
      | silent => exact ih (tracks.silent step) allowed noneDeeper

omit [BlockDecoding O] [NonceCrypto] [RawBlocks O] in
theorem DomainStores.Agrees.atTip {exact : Prop} {stores final : DomainStores O}
    (agrees : stores.Agrees exact final) {tip : ChainPoint} (atTip : final.AtTip tip) :
    stores.AtTip tip := by
  rcases agrees.archive with ⟨blocks, shown, finalShown⟩
  refine ⟨?_, ?_, ?_, ?_⟩
  · rw [agrees.ledger]
    exact atTip.logged
  · rw [agrees.ledger]
    exact atTip.state
  · rw [shown.getTip, ← finalShown.getTip]
    exact atTip.archived
  · rw [agrees.cursor]
    exact atTip.indexed

omit [BlockDecoding O] [NonceCrypto] [RawBlocks O] in
/-- A state that is not past the log is at its tip. -/
theorem DomainStores.AtTip.slot_eq {stores : DomainStores O} {tip : ChainPoint}
    (atTip : stores.AtTip tip) (caught : ¬ stores.AheadOfLog) :
    stores.ledger.cursor.map ChainPoint.slot = some tip.slot := by
  rcases atTip.state with ⟨point, pointEq, atLeast, -⟩
  rcases Option.map_eq_some_iff.mp atTip.logged with ⟨entry, entryEq, rfl⟩
  have atMost : point.slot ≤ entry.1.slot := by
    by_contra past
    exact caught ⟨entry, entryEq, point, pointEq, Nat.lt_of_not_le past⟩
  rw [pointEq, Option.map_some, le_antisymm atMost atLeast]

/-- A process that stops at any of its commits, and again while it catches up, still runs its
units. Where it is between units its stores agree with theirs, and a restart from wherever it
is leads there, to stores that are all at the tip of the log, except when Estart has put the
cursor past the log: then it is refused. -/
theorem crashes_agree {start : DomainStores O} (level : start.Level)
    {events : List (DomainEvent O)} {process : DomainProcess O}
    (run : Path DomainProcess.Step events ⟨start, .idle⟩ process)
    (allowed : AllAllowed [] start events) :
    ∃ final, start.executeAll (events.filterMap DomainEvent.unit?) = .ok final ∧
      (process.phase = .idle → process.stores.Agrees (NoneDeeper [] events) final) ∧
      (final.AheadOfLog → ∃ wal state, process.stores.bootstrap =
        .error (.domain (.inconsistentState wal state))) ∧
      (¬ final.AheadOfLog → ∃ recovered, process.stores.bootstrap = .ok recovered ∧
        recovered.Agrees (NoneDeeper [] events) final ∧
        ((∃ tip, start.AtTip tip) → ∃ tip, recovered.AtTip tip ∧
          recovered.ledger.cursor.map ChainPoint.slot = some tip.slot)) := by
  have started : ∃ tail, Stands tail [] [] [] (NoneDeeper [] events) start ∧
      Arrived tail [] (NoneDeeper [] events) start start := level.stands
  rcases started with ⟨tail, stands, arrived⟩
  rcases Tracks.run run (arrived.tracks stands) allowed id with
    ⟨final, executed, stays, _, _, _, _, standsFinal, behind, fits⟩
  refine ⟨final, executed, ?_, ?_, ?_⟩
  · intro isIdle
    rw [isIdle] at fits
    exact Arrived.agrees standsFinal fits
  · intro ahead
    rcases (behind.checkIntegrity standsFinal).2 ahead with ⟨wal, state, refused⟩
    refine ⟨wal, state, ?_⟩
    rw [DomainStores.bootstrap, refused]
    rfl
  · intro caught
    rcases behind.bootstrap standsFinal caught with ⟨recovered, recoveredEq, arrivedEnd⟩
    have agrees := arrivedEnd.agrees standsFinal
    refine ⟨recovered, recoveredEq, agrees, ?_⟩
    intro atTip
    rcases stays atTip with ⟨tip, finalAtTip⟩
    refine ⟨tip, agrees.atTip finalAtTip, ?_⟩
    rw [agrees.ledger]
    exact finalAtTip.slot_eq caught

section Stopped

omit [BlockDecoding O] [NonceCrypto] [RawBlocks O]

/-- Blocks of one byte. -/
@[reducible]
def RawBlocks.oneByte : RawBlocks ℕ := ⟨fun block => [block.slot.toUInt8]⟩

/-- The four stores after the boundary block. -/
def archivedBoundary : DomainStores ℕ where
  toIndexedStores := indexedBoundary
  archive := ArchiveStore.empty.redbRun [.commit [(5, [5])]]

theorem shows_archivedBoundary : archivedBoundary.archive.Shows [(5, [5])] := by
  have inOrder : CallsInOrder [] [.commit [(5, [5])]] := by
    simp [CallsInOrder, CommitsInOrder, InChainOrder]
  rcases ArchiveStore.holds_empty.run (by decide +kernel) inOrder with
    ⟨-, held, holds, blocksEq⟩
  refine ⟨held, holds, blocksEq.trans ?_⟩
  decide +kernel

theorem level_archivedBoundary : archivedBoundary.Level := by
  refine ⟨?_, by decide, ?_, [(5, [5])], shows_archivedBoundary, ?_⟩
  · refine ⟨?_, rfl, ?_, ?_⟩
    · intro index entity held
      simp [archivedBoundary, indexedBoundary, afterBoundaryBlock] at held
    · intro point cursorEq entry member
      rcases Option.some.inj cursorEq with rfl
      rcases List.mem_pair.mp member with rfl | rfl
      · decide
      · decide
    · intro cursorEq
      cases cursorEq
  · refine ⟨rfl, ?_⟩
    intro point cursorEq entry member
    rcases Option.some.inj cursorEq with rfl
    rcases List.mem_pair.mp member with rfl | rfl
    · decide
    · decide
  · intro entry member
    rcases List.mem_pair.mp member with rfl | rfl
    · exact Or.inl rfl
    · exact Or.inr ⟨(5, [5]), List.mem_singleton_self _, by decide⟩

theorem atTip_archivedBoundary : archivedBoundary.AtTip (.specific 5 9) := by
  refine ⟨rfl, ⟨_, rfl, le_refl _, Or.inl rfl⟩, ?_, rfl⟩
  rw [shows_archivedBoundary.getTip]
  rfl

theorem safe_spendingBlock :
    letI := NonceCrypto.still
    letI := RawBlocks.oneByte
    SafeBatch archivedBoundary (.forSingleBlock spendingBlock) := by
  let _ := NonceCrypto.still
  let _ := RawBlocks.oneByte
  have noMint : ∀ index, ∀ delta ∈ historyOf [spendingBlock] index,
      ∀ before, delta.EpochFree before := by
    intro index delta member before
    rw [historyOf, List.flatMap_singleton, group_spendingBlock] at member
    split_ifs at member
    · rcases List.mem_singleton.mp member with rfl
      trivial
    · cases member
  refine ⟨undoable_spendingBlock, ?_, ?_, ?_, ?_, ?_, ?_⟩
  · exact fun index => along_epochFree_of_noMint (noMint index)
  · exact List.pairwise_singleton _ _
  · intro slot slotEq work isWork
    rcases Option.some.inj slotEq with rfl
    rcases List.mem_singleton.mp isWork with rfl
    decide
  · intro tip tipEq work isWork
    rw [shows_archivedBoundary.getTip] at tipEq
    rcases Option.some.inj (Except.ok.inj tipEq) with rfl
    rcases List.mem_singleton.mp isWork with rfl
    decide
  · intro point cursorEq work isWork
    rcases Option.some.inj cursorEq with rfl
    rcases List.mem_singleton.mp isWork with rfl
    decide
  · intro work isWork
    rcases List.mem_singleton.mp isWork with rfl
    decide

/-- A process that stops after the state commit of the spending block, with its body in the
file of the archive and nothing that points to it. -/
theorem crashes_agree_spending :
    letI := NonceCrypto.still
    letI := BlockDecoding.byron
    letI := RawBlocks.oneByte
    ∃ computed logged,
      archivedBoundary.ledger.rollLogged (.forSingleBlock spendingBlock) =
        .ok (computed, logged) ∧
      ∃ recovered final,
        DomainStores.bootstrap (O := ℕ) ⟨⟨afterSpendingBlock, indexedBoundary.indexes⟩,
          archivedBoundary.archive.appending computed.archivedBlocks 1⟩ = .ok recovered ∧
        archivedBoundary.executeAll [.roll (.forSingleBlock spendingBlock)] = .ok final ∧
        recovered.Agrees True final ∧ ∃ tip, recovered.AtTip tip := by
  let _ := NonceCrypto.still
  let _ := BlockDecoding.byron
  let _ := RawBlocks.oneByte
  have rolled := rollAll_spendingBlock
  rcases bind_eq_ok.mp rolled with ⟨next, nextEq, doneEq⟩
  rcases Except.ok.inj doneEq with rfl
  rcases bind_eq_ok.mp nextEq with ⟨⟨computed, logged⟩, loggedDone, stateDone⟩
  have committed : computed.commitState logged = .ok afterSpendingBlock := stateDone
  refine ⟨computed, logged, loggedDone, ?_⟩
  have run : Path DomainProcess.Step
      [.unit (.roll (.forSingleBlock spendingBlock)), .silent, .silent] ⟨archivedBoundary, .idle⟩
      ⟨⟨⟨afterSpendingBlock, indexedBoundary.indexes⟩,
        archivedBoundary.archive.appending computed.archivedBlocks 1⟩, .down⟩ :=
    .cons (.commitWal loggedDone) (.cons (.commitState committed)
      (.cons (.crashAppending 1) (.nil _)))
  have allowed : AllAllowed [] archivedBoundary
      [.unit (.roll (.forSingleBlock spendingBlock)), .silent, .silent] :=
    ⟨safe_spendingBlock, fun _ _ => trivial⟩
  rcases crashes_agree level_archivedBoundary run allowed with ⟨final, ran, -, -, restarts⟩
  have caught : ¬ final.AheadOfLog := by
    rcases bind_eq_ok.mp ran with ⟨only, onlyDone, finalEq⟩
    rcases Except.ok.inj finalEq with rfl
    have loggedHere : archivedBoundary.ledger.rollLogged (.forSingleBlock spendingBlock) =
        .ok (computed, logged) := loggedDone
    rw [DomainStores.execute, loggedHere] at onlyDone
    rcases bind_eq_ok.mp onlyDone with ⟨both, bothEq, stateCommitted⟩
    rcases Except.ok.inj bothEq with rfl
    rcases bind_eq_ok.mp stateCommitted with ⟨ledger, ledgerDone, archiveDone⟩
    rw [committed] at ledgerDone
    rcases Except.ok.inj ledgerDone with rfl
    rcases bind_eq_ok.mp archiveDone with ⟨archive, -, indexesDone⟩
    rcases bind_eq_ok.mp indexesDone with ⟨indexes, -, onlyEq⟩
    rcases Except.ok.inj onlyEq with rfl
    rintro ⟨tip, tipEq, point, pointEq, ahead⟩
    rcases Option.some.inj tipEq with rfl
    rcases Option.some.inj pointEq with rfl
    exact absurd ahead (by decide)
  rcases restarts caught with ⟨recovered, recoveredEq, agrees, stays⟩
  rcases stays ⟨_, atTip_archivedBoundary⟩ with ⟨tip, atTip, -⟩
  exact ⟨recovered, final, recoveredEq, ran, agrees, tip, atTip⟩

/-- A child of the boundary block in the same slot, after it in the log. -/
def siblingBlock : WorkBlock ℕ :=
  ⟨⟨5, 12, some 9, [⟨2, [(0, 60)], [toLex (1, 0)]⟩]⟩, .default, none⟩

def computedSibling : RollBatch ℕ where
  blocks := [⟨siblingBlock.block, .default,
    some ⟨.ofList [(toLex (2, 0), 60)], .ofList [(toLex (1, 0), 100)], ∅, ∅⟩⟩]
  utxos := .ofList [(toLex (1, 0), 100), (toLex (2, 0), 60)]
  entities := ∅

def loggedSibling : LedgerStores ℕ :=
  { afterBoundaryBlock with
    wal := afterBoundaryBlock.wal.appendEntries [(.specific 5 12, ⟨some siblingBlock.block, [],
      .ofList [(toLex (1, 0), 100), (toLex (2, 0), 60)]⟩)] }

/-- A stop after the log commit of a block that shares its slot with the block before: the
restart is content with stores that are one block behind the log. -/
theorem crash_loses_shared_slot :
    letI := NonceCrypto.still
    letI := BlockDecoding.byron
    letI := RawBlocks.oneByte
    archivedBoundary.ledger.rollLogged (.forSingleBlock siblingBlock) =
        .ok (computedSibling, loggedSibling) ∧
      DomainStores.bootstrap (O := ℕ)
          ⟨⟨loggedSibling, indexedBoundary.indexes⟩, archivedBoundary.archive⟩ =
        .ok ⟨⟨loggedSibling, indexedBoundary.indexes⟩, archivedBoundary.archive⟩ ∧
      loggedSibling.wal.findTip.map Prod.fst = some (.specific 5 12) ∧
      loggedSibling.cursor = some (.specific 5 9) ∧
      indexedBoundary.indexes.cursor = some (.specific 5 9) ∧
      ∃ final, archivedBoundary.execute (.roll (.forSingleBlock siblingBlock)) = .ok final ∧
        final.ledger.cursor = some (.specific 5 12) ∧
        ¬ DomainStores.Agrees False
          ⟨⟨loggedSibling, indexedBoundary.indexes⟩, archivedBoundary.archive⟩ final := by
  let _ := NonceCrypto.still
  let _ := BlockDecoding.byron
  let _ := RawBlocks.oneByte
  have logged : archivedBoundary.ledger.rollLogged (.forSingleBlock siblingBlock) =
      .ok (computedSibling, loggedSibling) := by
    rw [rollLogged, RollBatch.load, WorkBatch.blocks_forSingleBlock, sortBySlot_singleton]
    rfl
  have committed : computedSibling.commitState loggedSibling = .ok { loggedSibling with
      utxos := .ofList [(toLex (2, 0), 60)]
      cursor := some (.specific 5 12) } := rfl
  have archived : (computedSibling.commitArchive archivedBoundary.archive).isOk = true := by
    decide +kernel
  have indexed : (computedSibling.commitIndexes indexedBoundary.indexes).isOk = true := by
    decide +kernel
  refine ⟨logged, rfl, by decide +kernel, rfl, rfl, ?_⟩
  cases archiveEq : computedSibling.commitArchive archivedBoundary.archive with
  | error failure =>
      rw [archiveEq] at archived
      cases archived
  | ok archive =>
      cases indexesEq : computedSibling.commitIndexes indexedBoundary.indexes with
      | error failure =>
          rw [indexesEq] at indexed
          cases indexed
      | ok indexes =>
          have loggedHere : afterBoundaryBlock.rollLogged (.forSingleBlock siblingBlock) =
              .ok (computedSibling, loggedSibling) := logged
          refine ⟨⟨⟨{ loggedSibling with
            utxos := .ofList [(toLex (2, 0), 60)]
            cursor := some (.specific 5 12) }, indexes⟩, archive⟩, ?_, rfl, ?_⟩
          · simp only [DomainStores.execute, archivedBoundary, indexedBoundary, loggedHere,
              Except.mapError, ok_bind, committed]
            simp only [archivedBoundary, indexedBoundary] at archiveEq indexesEq
            simp only [archiveEq, indexesEq, ok_bind]
          · intro agrees
            have cursors := congrArg LedgerStores.cursor agrees.ledger
            cases cursors

end Stopped

end Dolos
