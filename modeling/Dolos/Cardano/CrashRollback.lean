import Dolos.Cardano.CrashUnits

/-!
# The tail after a rollback

A rollback to a block of the tail undoes the entries above it in the state, puts the cursor
of the indexes there and cuts the archive and the log. The entries it keeps are the tail it
leaves; as long as it has not cut the log, the undone ones lead back to where it started.
-/

namespace Dolos

open Outcome LedgerStores ArchiveStore

variable {O : Type} [BlockDecoding O] [NonceCrypto] [RawBlocks O]

section Rollback

variable {tail : WalTail O} {reach recent : List ChainPoint} {exact : Prop}
  {spec : DomainStores O}

omit [RawBlocks O] in
/-- The loop of a rollback passes over the records of the blocks it undoes. -/
theorem undoIndexes_of_path {target : ChainPoint} {undone : List (ChainPoint × LedgerLog O)}
    {before after : LedgerView O} (path : Path Linked undone before after)
    (missed : ∀ entry ∈ undone, entry.1.eq target = false)
    (rest : List (ChainPoint × LedgerLog O)) (indexes : IndexStore) :
    IndexedStores.undoIndexes target (undone.reverse ++ rest) indexes =
      IndexedStores.undoIndexes target rest indexes := by
  induction path generalizing rest with
  | nil => rfl
  | @cons entry later before next after linked _ ih =>
      rcases entry with ⟨point, log⟩
      have missedHere : point.eq target = false := missed (point, log) List.mem_cons_self
      rcases linked.retraces.utxos with ⟨block, delta, blockEq, computed, -⟩
      have undoEq : computeUndo log = .ok delta := by
        rw [computeUndo, show log.block = some block from blockEq]
        exact computed
      have one : ∃ record, computeUndoIndexes point log = .ok record := by
        rw [computeUndoIndexes, undoEq]
        exact ⟨_, rfl⟩
      rcases one with ⟨record, recordEq⟩
      rw [List.reverse_cons, List.append_assoc, List.singleton_append,
        ih (fun other member => missed other (List.mem_cons_of_mem _ member)),
        IndexedStores.undoIndexes, missedHere, if_neg Bool.false_ne_true, recordEq, ok_bind,
        IndexedStores.computeUndoIndexes_eq recordEq, IndexStore.undo_ofCursor]

/-- A rollback within the tail, whatever the indexes hold. -/
structure RollsBack (tail : WalTail O) (spec : LedgerStores O) (target : ChainPoint)
    (kept undone : List (ChainPoint × LedgerLog O)) (after : LedgerStores O) : Prop where
  ends : kept.getLast?.map Prod.fst = some target
  done : ∀ indexes : IndexStore,
    (⟨spec, indexes⟩ : IndexedStores O).rollback target =
      .ok ⟨after, { indexes with cursor := some target }⟩
  walEq : after.wal = spec.wal.truncateFront target
  entries : after.wal.entries = tail.old ++ kept.map fun entry => (entry.1.intoBytes, entry.2)
  cursor : after.cursor = some target
  reached : Path Linked kept tail.base after.view
  ahead : Path Linked undone after.view spec.view

theorem WalTail.Sound.rollback {ledger : LedgerStores O}
    {kept undone : List (ChainPoint × LedgerLog O)} (sound : tail.Sound (kept ++ undone) ledger)
    {target : ChainPoint} (ends : kept.getLast?.map Prod.fst = some target) :
    ∃ after, RollsBack tail ledger target kept undone after := by
  rcases Option.map_eq_some_iff.mp ends with ⟨last, lastEq, rfl⟩
  rcases List.getLast?_eq_some_iff.mp lastEq with ⟨init, rfl⟩
  rcases sound.points last (by simp) with ⟨slot, hash, pointEq, nonzero⟩
  rcases Path.append_iff.mp sound.path with ⟨middle, reached, ahead⟩
  have apart := (List.pairwise_append.mp sound.apart).2.2
  have later : ∀ entry ∈ undone, last.1.slot < entry.1.slot :=
    fun entry member => apart last (by simp) entry member
  have missed : ∀ entry ∈ undone, entry.1.eq last.1 = false := by
    intro entry member
    rw [Bool.eq_false_iff]
    intro same
    exact absurd (ChainPoint.slot_eq_of_eq same) (ne_of_gt (later entry member))
  have split : ledger.wal.entries =
      (tail.old ++ init.map fun entry => (entry.1.intoBytes, entry.2)) ++
        (last :: undone).map fun entry => (entry.1.intoBytes, entry.2) := by
    rw [sound.walEq]
    simp
  have decoded : ∀ entry ∈ last :: undone,
      ChainPoint.fromBytes entry.1.intoBytes = entry.1 := by
    intro entry member
    apply sound.ascending.decoded
    rcases List.mem_cons.mp member with rfl | isUndone
    · simp
    · exact List.mem_append_right _ isUndone
  rcases Wal.cut split decoded with ⟨truncated, highest, logs⟩
  have seen : ledger.entities.overlay ∅ = ledger.view.entities := OrderedMap.overlay_empty _
  rcases undoDownTo_of_path (ahead.mono fun _ _ _ linked => linked.retraces) missed seen [] with
    ⟨tracked, trackedSeen, -⟩
  have entitiesEq : (saveEntities ledger.entities tracked).get? = middle.entities := by
    rw [saveEntities, OrderedMap.get?_setAll, trackedSeen]
  let after : LedgerStores O := ⟨saveEntities ledger.entities tracked, middle.utxos,
    some last.1, ledger.wal.truncateFront last.1⟩
  have viewEq : after.view = middle := by
    rw [LedgerStores.view, entitiesEq]
  have atTip : AtTip after slot hash := by
    refine ⟨congrArg some pointEq, nonzero, ?_, ?_⟩
    · have isEntry : (last.1.intoBytes, last.2) ∈ after.wal.entries := by
        rw [truncated]
        simp
      rw [pointEq] at isEntry
      exact Option.isSome_of_eq_some (OrderedMap.mem_entries_iff.mp isEntry)
    · intro entry member
      have atMost := highest entry member
      rw [pointEq] at atMost
      exact atMost
  have added : Added after ledger undone := by
    refine ⟨?_, ?_, ?_, sound.typed_view⟩
    · rw [split, truncated]
      simp
    · exact fun entry member => decoded entry (List.mem_cons_of_mem _ member)
    · rw [viewEq]
      exact ahead.mono fun _ _ _ linked => linked.retraces
  have undoneState := rollback_added atTip added
  rw [← pointEq] at undoneState
  refine ⟨after, ends, ?_, rfl, ?_, rfl, ?_, ?_⟩
  · intro indexes
    have undoneIndexes := undoIndexes_of_path ahead missed [last] indexes
    have met : last.1.eq last.1 = true := by
      rw [pointEq]
      simp
    rw [← List.reverse_cons, IndexedStores.undoIndexes, if_pos met,
      IndexStore.apply_ofCursor] at undoneIndexes
    rw [IndexedStores.rollback]
    simp only [logs, undoneState, ok_bind, undoneIndexes]
  · rw [truncated]
    simp
  · rw [viewEq]
    exact reached
  · rw [viewEq]
    exact ahead

omit [BlockDecoding O] in
/-- A cut of the archive at the slot of the target takes the undone blocks out of it. -/
theorem WalTail.Sound.truncateFront {ledger : LedgerStores O}
    {kept undone : List (ChainPoint × LedgerLog O)} (sound : tail.Sound (kept ++ undone) ledger)
    {target : ChainPoint} (ends : kept.getLast?.map Prod.fst = some target)
    {archive : ArchiveStore}
    (shown : archive.Shows (tail.blocks ++ (kept ++ undone).map entryBlock)) :
    (redbTruncateFront archive target.slot).Shows (tail.blocks ++ kept.map entryBlock) := by
  rcases Option.map_eq_some_iff.mp ends with ⟨last, lastEq, rfl⟩
  rcases List.getLast?_eq_some_iff.mp lastEq with ⟨init, rfl⟩
  have fits := (sound.fits last (by simp)).slot
  have notLast : last.1.slot + 1 < 2 ^ 64 := by
    simp only [entryBlock, slotsPerSegment] at fits
    omega
  have cut := shown.truncateFront notLast
  have sorted := shown.sorted
  have apart := (List.pairwise_append.mp sound.apart).2.2
  have regroup : tail.blocks ++ (init ++ [last] ++ undone).map entryBlock =
      (tail.blocks ++ init.map entryBlock ++ [entryBlock last]) ++ undone.map entryBlock := by
    simp
  rw [regroup] at cut sorted
  have upToLast := (List.pairwise_append.mp (List.pairwise_append.mp sorted).1).2.2
  have keptAll : (tail.blocks ++ init.map entryBlock ++ [entryBlock last]).filter
      (fun block => block.1 ≤ last.1.slot) =
        tail.blocks ++ init.map entryBlock ++ [entryBlock last] := by
    apply List.filter_eq_self.mpr
    intro block member
    apply decide_eq_true
    rcases List.mem_append.mp member with isBefore | isLast
    · exact upToLast block isBefore (entryBlock last) (List.mem_singleton_self _)
    · rw [List.mem_singleton.mp isLast]
      exact le_refl _
  have noneAfter : (undone.map entryBlock).filter (fun block => block.1 ≤ last.1.slot) = [] := by
    apply List.filter_eq_nil_iff.mpr
    intro block member
    rcases List.mem_map.mp member with ⟨entry, isEntry, rfl⟩
    have later := apart last (by simp) entry isEntry
    rw [decide_eq_true_iff]
    exact not_le_of_gt later
  rw [List.filter_append, keptAll, noneAfter, List.append_nil] at cut
  rw [List.map_append, List.map_singleton, ← List.append_assoc]
  exact cut

omit [BlockDecoding O] in
/-- The tail after a rollback. -/
theorem RollsBack.sound {ledger after : LedgerStores O} {target : ChainPoint}
    {kept undone : List (ChainPoint × LedgerLog O)} [BlockDecoding O]
    (rollsBack : RollsBack tail ledger target kept undone after)
    (sound : tail.Sound (kept ++ undone) ledger) : tail.Sound kept after := by
  have inside : ∀ entry ∈ kept, entry ∈ kept ++ undone :=
    fun entry member => List.mem_append_left _ member
  have divided : ∀ {slot}, Divides slot tail.old (kept ++ undone) →
      Divides slot tail.old kept := by
    intro slot divides
    exact ⟨divides.passed, fun before isBefore entry member =>
      divides.later before isBefore entry (inside entry member)⟩
  rcases Option.map_eq_some_iff.mp rollsBack.ends with ⟨last, lastEq, targetEq⟩
  refine
    { walEq := rollsBack.entries
      logged := ?_
      typed := sound.typed
      path := rollsBack.reached
      cursor := ?_
      points := fun entry member => sound.points entry (inside entry member)
      apart := (List.pairwise_append.mp sound.apart).1
      fits := fun entry member => sound.fits entry (inside entry member)
      state := divided sound.state
      archive := divided sound.archive
      indexes := divided sound.indexes
      behind := sound.behind }
  · rw [rollsBack.entries]
    apply List.append_ne_nil_of_right_ne_nil
    intro none
    rw [List.map_eq_nil_iff.mp none] at lastEq
    cases lastEq
  · rw [rollsBack.cursor, lastPoint, List.getLast?_map, lastEq, ← targetEq]
    rfl

/-- A rollback takes the undone entries off the tail. -/
theorem Stands.rollback {kept undone : List (ChainPoint × LedgerLog O)}
    (stands : Stands tail (kept ++ undone) reach recent exact spec) {target : ChainPoint}
    {after : LedgerStores O}
    (rollsBack : RollsBack tail spec.ledger target kept undone after) :
    ∃ next, spec.execute (.rollback target) = .ok next ∧ next.ledger = after ∧
      next.indexes = { spec.indexes with cursor := some target } ∧
      Stands tail kept (reach.filter fun point => point.intoBytes ≤ target.intoBytes) [target]
        exact next := by
  have sound := rollsBack.sound stands.sound
  have shown := stands.sound.truncateFront rollsBack.ends stands.shown
  have lastEq : (kept.map Prod.fst).getLast? = some target := by
    rw [List.getLast?_map]
    exact rollsBack.ends
  have executed : spec.execute (.rollback target) =
      .ok ⟨⟨after, { spec.indexes with cursor := some target }⟩,
        redbTruncateFront spec.archive target.slot⟩ := by
    have done := rollsBack.done spec.indexes
    rw [DomainStores.execute]
    simp only [done, Except.mapError, ok_bind]
  have upTo : ∀ entry ∈ kept, entry.1.intoBytes ≤ target.intoBytes := by
    intro entry member
    rcases Option.map_eq_some_iff.mp rollsBack.ends with ⟨last, isLast, rfl⟩
    exact sound.le_intoBytes_last isLast member
  have below : ∀ entry ∈ undone, target.intoBytes < entry.1.intoBytes := by
    intro entry member
    rcases Option.map_eq_some_iff.mp rollsBack.ends with ⟨last, isLast, rfl⟩
    have apart := (List.pairwise_append.mp stands.sound.apart).2.2
    have later := apart last (List.mem_of_getLast? isLast) entry member
    exact Prod.Lex.lt_iff.mpr (Or.inl later)
  refine ⟨_, executed, rfl, rfl, sound, shown, ?_, ?_, ?_⟩
  · rw [lastPoint, lastEq]
    rfl
  · rw [stands.reach, List.map_append, List.filter_append, List.filter_eq_self.mpr,
      List.filter_eq_nil_iff.mpr, List.append_nil]
    · intro point member
      rcases List.mem_map.mp member with ⟨entry, isEntry, rfl⟩
      rw [decide_eq_true_iff]
      exact not_le_of_gt (below entry isEntry)
    · intro point member
      rcases List.mem_map.mp member with ⟨entry, isEntry, rfl⟩
      exact decide_eq_true (upTo entry isEntry)
  · intro _ point member
    rw [List.mem_singleton.mp member]
    exact ⟨kept, [], (List.append_nil _).symm, rollsBack.ends, rfl⟩

end Rollback

end Dolos
