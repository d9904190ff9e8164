import Dolos.Cardano.CrashTail

/-!
# A restart from anywhere on the way

Stores that a stop has left are each somewhere between the start of the tail and its end, and
none of them says where the others are. The check of the log against the state lets them
pass, unless Estart has moved the cursor past the log, and the catch-up gets all of them to
the end. Cut short, it leaves them on the way.
-/

namespace Dolos

open Outcome LedgerStores ArchiveStore

variable {O : Type} [BlockDecoding O] [NonceCrypto] [RawBlocks O]

/-- The stores of a run that nothing interrupts: the tail of the log has led all of them to
where they stand. The records of entries since the last rollback can be had again from
where that rollback has put the cursor. -/
structure Stands (tail : WalTail O) (entries : List (ChainPoint × LedgerLog O))
    (reach recent : List ChainPoint) (exact : Prop) (spec : DomainStores O) : Prop where
  sound : tail.Sound entries spec.ledger
  shown : spec.archive.Shows (tail.blocks ++ entries.map entryBlock)
  indexed : spec.indexes.cursor = some (lastPoint tail.indexed entries)
  reach : reach = entries.map Prod.fst
  again : exact → ∀ target ∈ recent, ∃ kept undone, entries = kept ++ undone ∧
    kept.getLast?.map Prod.fst = some target ∧
    undone.foldlM replayIndex { spec.indexes with cursor := some target } = .ok spec.indexes

/-- Stores on the way there, each from a point of its own. -/
structure Behind (tail : WalTail O) (entries : List (ChainPoint × LedgerLog O)) (exact : Prop)
    (spec stores : DomainStores O) : Prop where
  state : ∃ done todo, entries = done ++ todo ∧
    StateAt tail spec.ledger stores.ledger done todo
  archive : ∃ done todo, entries = done ++ todo ∧
    stores.archive.Shows (tail.blocks ++ done.map entryBlock)
  indexes : ∃ done todo, entries = done ++ todo ∧
    IndexesAt tail exact spec.indexes stores.indexes done todo

/-- Stores that are there. -/
structure Arrived (tail : WalTail O) (entries : List (ChainPoint × LedgerLog O)) (exact : Prop)
    (spec stores : DomainStores O) : Prop where
  ledger : stores.ledger = spec.ledger
  archive : stores.archive.Shows (tail.blocks ++ entries.map entryBlock)
  indexes : IndexesAt tail exact spec.indexes stores.indexes entries []

section Restart

variable {tail : WalTail O} {entries : List (ChainPoint × LedgerLog O)}
  {reach recent : List ChainPoint} {exact : Prop} {spec stores : DomainStores O}

theorem Arrived.behind (stands : Stands tail entries reach recent exact spec)
    (arrived : Arrived tail entries exact spec stores) : Behind tail entries exact spec stores := by
  refine ⟨⟨entries, [], (List.append_nil _).symm, ?_⟩, ⟨entries, [], (List.append_nil _).symm, ?_⟩,
    ⟨entries, [], (List.append_nil _).symm, arrived.indexes⟩⟩
  · rw [arrived.ledger]
    exact ⟨rfl, stands.sound.cursor, stands.sound.path, .nil _⟩
  · exact arrived.archive

omit [BlockDecoding O] in
theorem WalTail.Sound.slot_lastPoint_le {ledger : LedgerStores O}
    {done todo : List (ChainPoint × LedgerLog O)} (sound : tail.Sound (done ++ todo) ledger) :
    (lastPoint tail.cursor done).slot ≤ (lastPoint tail.cursor (done ++ todo)).slot := by
  rcases List.eq_nil_or_concat todo with rfl | ⟨init, last, rfl⟩
  · rw [List.append_nil]
  · rw [List.concat_eq_append] at sound ⊢
    have later := (sound.state.after sound.ascending).later
    rw [← stateSlot_lastPoint sound.exists_point] at later
    rw [← List.append_assoc, lastPoint_concat]
    have isLast : last ∈ init ++ [last] := by simp
    cases reached : lastPoint tail.cursor done with
    | origin => exact Nat.zero_le _
    | slotOnly slot =>
        rw [reached] at later
        exact le_of_lt (later slot rfl last isLast)
    | specific slot hash =>
        rw [reached] at later
        exact le_of_lt (later slot rfl last isLast)

/-- The state is past the log only where the tail is empty. -/
theorem Stands.aheadOfLog_iff (stands : Stands tail entries reach recent exact spec)
    {target : ChainPoint} {log : LedgerLog O}
    (tip : spec.ledger.wal.findTip = some (target, log)) :
    spec.AheadOfLog ↔ target.slot < (lastPoint tail.cursor entries).slot := by
  rw [DomainStores.AheadOfLog, tip, stands.sound.cursor]
  simp

/-- The log is at or ahead of the state, unless no entry has come since Estart. -/
theorem Behind.checkIntegrity (stands : Stands tail entries reach recent exact spec)
    (behind : Behind tail entries exact spec stores) :
    (¬ spec.AheadOfLog → stores.checkIntegrity = .ok stores) ∧
      (spec.AheadOfLog → ∃ wal state, stores.checkIntegrity =
        .error (.domain (.inconsistentState wal state))) := by
  rcases behind.state with ⟨done, todo, rfl, state⟩
  rcases behind.archive with ⟨_, _, -, shown⟩
  rcases stands.sound.exists_tip with ⟨target, log, tip, -, atEnd, -⟩
  have atMost := stands.sound.slot_lastPoint_le
  rw [stands.aheadOfLog_iff tip]
  have wals : stores.ledger.wal.findTip = some (target, log) := by rw [state.walEq, tip]
  constructor
  · intro caught
    have checked : stores.ledger.checkWalInSyncWithState = .ok stores.ledger := by
      simp only [checkWalInSyncWithState, wals, Option.map_some, state.cursor]
      exact if_pos (by omega)
    rw [DomainStores.checkIntegrity, checked, shown.getTip]
    rfl
  · intro ahead
    have noEntries : done ++ todo = [] := by
      by_contra some
      rw [← atEnd some] at ahead
      exact lt_irrefl _ ahead
    rcases List.append_eq_nil_iff.mp noEntries with ⟨rfl, rfl⟩
    have cursorEq : stores.ledger.cursor = some tail.cursor := state.cursor
    refine ⟨some target, some tail.cursor, ?_⟩
    have refused : stores.ledger.checkWalInSyncWithState =
        .error (.inconsistentState (some target) (some tail.cursor)) := by
      simp only [checkWalInSyncWithState, wals, Option.map_some, cursorEq]
      exact if_neg (Nat.not_le_of_gt ahead)
    rw [DomainStores.checkIntegrity, refused]
    rfl

/-- What the catch-up of the three stores gives, where the log has a tip to catch up with. -/
theorem Behind.caughtUp (stands : Stands tail entries reach recent exact spec)
    (behind : Behind tail entries exact spec stores) {target : ChainPoint} {log : LedgerLog O}
    (tip : spec.ledger.wal.findTip = some (target, log)) (notOrigin : target ≠ .origin) :
    stores.ledger.catchUpState target = .ok spec.ledger ∧
      (∃ archive, catchUpArchive spec.ledger.wal stores.archive target = .ok archive ∧
        archive.Shows (tail.blocks ++ entries.map entryBlock)) ∧
      ∃ indexes, catchUpIndexes spec.ledger.wal stores.indexes target = .ok indexes ∧
        IndexesAt tail exact spec.indexes indexes entries [] := by
  refine ⟨?_, ?_, ?_⟩
  · rcases behind.state with ⟨done, todo, rfl, state⟩
    exact stands.sound.catchUpState state tip notOrigin
  · rcases behind.archive with ⟨done, todo, rfl, shown⟩
    exact stands.sound.catchUpArchive shown tip
  · rcases behind.indexes with ⟨done, todo, rfl, indexed⟩
    exact stands.sound.catchUpIndexes indexed tip

/-- Nothing is behind a log whose tip is the origin. -/
theorem Behind.arrived_of_origin (stands : Stands tail entries reach recent exact spec)
    (behind : Behind tail entries exact spec stores) {log : LedgerLog O}
    (tip : spec.ledger.wal.findTip = some (.origin, log)) :
    Arrived tail entries exact spec stores := by
  rcases stands.sound.exists_tip with ⟨target, log, sameTip, upTo, -, -⟩
  rcases Option.some.inj (tip.symm.trans sameTip) with ⟨rfl, rfl⟩
  have noEntries : entries = [] := by
    rcases List.eq_nil_or_concat entries with isNil | ⟨init, last, rfl⟩
    · exact isNil
    · have isLast : last ∈ init.concat last := by simp
      have atMost := upTo last isLast
      rcases stands.sound.points last isLast with ⟨slot, hash, pointEq, nonzero⟩
      rw [pointEq] at atMost
      rcases Prod.Lex.le_iff.mp atMost with before | ⟨-, hashLe⟩
      · cases Nat.not_lt_zero _ before
      · exact absurd (Fin.le_zero_iff.mp hashLe) nonzero
  subst noEntries
  rcases behind.state with ⟨done, todo, split, state⟩
  rcases List.append_eq_nil_iff.mp split.symm with ⟨rfl, rfl⟩
  rcases behind.archive with ⟨done, todo, split, shown⟩
  rcases List.append_eq_nil_iff.mp split.symm with ⟨rfl, rfl⟩
  rcases behind.indexes with ⟨done, todo, split, indexed⟩
  rcases List.append_eq_nil_iff.mp split.symm with ⟨rfl, rfl⟩
  exact ⟨state.eq stands.sound.cursor, shown, indexed⟩

theorem Behind.findTip_eq (stands : Stands tail entries reach recent exact spec)
    (behind : Behind tail entries exact spec stores) :
    stores.ledger.wal = spec.ledger.wal ∧
      ∃ target log, spec.ledger.wal.findTip = some (target, log) := by
  rcases behind.state with ⟨_, _, -, state⟩
  rcases stands.sound.exists_tip with ⟨target, log, tip, -⟩
  exact ⟨state.walEq, target, log, tip⟩

/-- Wherever the stores stand, a restart gets them there. -/
theorem Behind.bootstrap (stands : Stands tail entries reach recent exact spec)
    (behind : Behind tail entries exact spec stores) (caught : ¬ spec.AheadOfLog) :
    ∃ recovered, stores.bootstrap = .ok recovered ∧
      Arrived tail entries exact spec recovered := by
  have checked := (behind.checkIntegrity stands).1 caught
  rcases behind.findTip_eq stands with ⟨walEq, target, log, tip⟩
  have reached : target ≠ .origin → ∃ recovered, stores.catchUpTo target = .ok recovered ∧
      Arrived tail entries exact spec recovered := by
    intro notOrigin
    rcases behind.caughtUp stands tip notOrigin with
      ⟨ledgerEq, ⟨archive, archiveEq, shown⟩, indexes, indexesEq, indexed⟩
    refine ⟨⟨⟨spec.ledger, indexes⟩, archive⟩, ?_, rfl, shown, indexed⟩
    simp only [DomainStores.catchUpTo, ledgerEq, archiveEq, indexesEq, Except.mapError, ok_bind]
  rw [DomainStores.bootstrap, checked, ok_bind, DomainStores.catchUpStores, walEq, tip]
  cases target with
  | origin => exact ⟨stores, rfl, behind.arrived_of_origin stands tip⟩
  | slotOnly slot => exact reached (by simp)
  | specific slot hash => exact reached (by simp)

/-- A restart that is cut leaves the stores on the way. -/
theorem Behind.interrupted (stands : Stands tail entries reach recent exact spec)
    (behind : Behind tail entries exact spec stores) {cut : DomainStores O}
    (interrupted : stores.Interrupted cut) : Behind tail entries exact spec cut := by
  have checkedEq : ∀ checked, stores.checkIntegrity = .ok checked → checked = stores := by
    intro checked isChecked
    rcases behind.checkIntegrity stands with ⟨passes, refuses⟩
    by_cases ahead : spec.AheadOfLog
    · rcases refuses ahead with ⟨wal, state, refused⟩
      rw [refused] at isChecked
      cases isChecked
    · rw [passes ahead] at isChecked
      exact (Except.ok.inj isChecked).symm
  rcases behind.findTip_eq stands with ⟨walEq, -⟩
  have arrivedState : ∃ done todo, entries = done ++ todo ∧
      StateAt tail spec.ledger spec.ledger done todo :=
    ⟨entries, [], (List.append_nil _).symm, rfl, stands.sound.cursor, stands.sound.path, .nil _⟩
  cases interrupted with
  | @replaying checked target log before after ledger isChecked tip notOrigin _ logsEq replayed =>
      rcases checkedEq checked isChecked with rfl
      refine ⟨?_, behind.archive, behind.indexes⟩
      rcases behind.state with ⟨done, todo, rfl, state⟩
      rcases stands.sound.exists_tip with ⟨sameTarget, sameLog, sameTip, upTo, -⟩
      rw [walEq] at tip logsEq
      rcases Option.some.inj (tip.symm.trans sameTip) with ⟨rfl, rfl⟩
      have slotEq : stateSlot checked.ledger.cursor =
          lastSlot (stateSlot (some tail.cursor)) done := by
        rw [state.cursor]
        exact stateSlot_lastPoint stands.sound.exists_point
      rcases stands.sound.state.scan stands.sound.ascending stands.sound.walEq
        (fun entry member => upTo entry (List.mem_append_right _ member)) with
        ⟨older, scanned, olderPassed, todoUnpassed⟩
      rw [← slotEq] at scanned olderPassed todoUnpassed
      rcases state.replayLogs olderPassed todoUnpassed (scanned.symm.trans logsEq) with
        ⟨reached, seen, left, reachedEq, todoEq, stateReached, -⟩
      rw [replayed] at reachedEq
      rcases Except.ok.inj reachedEq with rfl
      refine ⟨done ++ seen, left, ?_, stateReached⟩
      rw [todoEq, List.append_assoc]
  | @appending checked target log ledger reached count isChecked tip notOrigin caughtUp _ =>
      rcases checkedEq checked isChecked with rfl
      rw [walEq] at tip
      rcases behind.caughtUp stands tip notOrigin with ⟨ledgerEq, -, -⟩
      rw [ledgerEq] at caughtUp
      rcases Except.ok.inj caughtUp with rfl
      refine ⟨arrivedState, ?_, behind.indexes⟩
      rcases behind.archive with ⟨done, todo, split, shown⟩
      exact ⟨done, todo, split, shown.appending _ count⟩
  | @archived checked target log ledger archive isChecked tip notOrigin caughtUp archived =>
      rcases checkedEq checked isChecked with rfl
      rw [walEq] at tip
      rcases behind.caughtUp stands tip notOrigin with
        ⟨ledgerEq, ⟨reached, reachedEq, shown⟩, -⟩
      rw [ledgerEq] at caughtUp
      rcases Except.ok.inj caughtUp with rfl
      rw [reachedEq] at archived
      rcases Except.ok.inj archived with rfl
      exact ⟨arrivedState, ⟨entries, [], (List.append_nil _).symm, shown⟩, behind.indexes⟩

end Restart

end Dolos
