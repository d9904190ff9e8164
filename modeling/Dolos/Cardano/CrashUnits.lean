import Dolos.Cardano.CrashRestart

/-!
# The tail after a unit

A batch extends the tail of the log by its entries, and a boundary ends it: the next tail
starts where the boundary leaves the stores.
-/

namespace Dolos

open Outcome LedgerStores ArchiveStore

variable {O : Type} [BlockDecoding O] [NonceCrypto] [RawBlocks O]

section Units

variable {tail : WalTail O} {entries new : List (ChainPoint × LedgerLog O)}
  {reach recent : List ChainPoint} {exact : Prop} {spec : DomainStores O}

omit [BlockDecoding O] [NonceCrypto] [RawBlocks O] in
/-- Entries in later slots than the last can be told from those before the tail as well. -/
theorem Divides.extend {slot : Option ℕ} {old : List ((ℕ ×ₗ BlockHash) × LedgerLog O)}
    (divides : Divides slot old entries)
    (later : ∀ before ∈ lastSlot slot entries, ∀ entry ∈ new, before < entry.1.slot) :
    Divides slot old (entries ++ new) := by
  refine ⟨divides.passed, ?_⟩
  intro before isBefore entry member
  rcases List.mem_append.mp member with isOld | isNew
  · exact divides.later before isBefore entry isOld
  · rcases List.eq_nil_or_concat entries with rfl | ⟨init, last, rfl⟩
    · exact later before isBefore entry isNew
    · rw [List.concat_eq_append] at divides later
      have first := divides.later before isBefore last (by simp)
      have second := later last.1.slot (by rw [lastSlot_concat]; rfl) entry isNew
      exact lt_trans first second

/-- The stores that start a run. -/
theorem DomainStores.Level.stands (level : spec.Level) :
    ∃ tail, Stands tail [] [] [] exact spec ∧ Arrived tail [] exact spec spec := by
  rcases Option.isSome_iff_exists.mp level.settled.started with ⟨point, pointEq⟩
  rcases Option.isSome_iff_exists.mp level.indexed.started with ⟨indexed, indexedEq⟩
  rcases level.archived with ⟨blocks, shown, archived⟩
  have passedState : ∀ entry ∈ spec.ledger.wal.entries,
      isPassed (stateSlot (some point)) (ChainPoint.fromBytes entry.1, entry.2) = true := by
    intro entry member
    rw [← pointEq]
    exact level.settled.isPassed_eq_true member
  have passedArchive : ∀ entry ∈ spec.ledger.wal.entries,
      isPassed (blocks.getLast?.map Prod.fst) (ChainPoint.fromBytes entry.1, entry.2) = true := by
    intro entry member
    rw [isPassed, Bool.or_eq_true]
    rcases archived entry member with none | ⟨block, isBlock, atMost⟩
    · right
      rw [none]
      rfl
    · left
      cases lastEq : blocks.getLast? with
      | none =>
          rw [List.getLast?_eq_none_iff.mp lastEq] at isBlock
          cases isBlock
      | some last =>
          have bounded := shown.le_last lastEq isBlock
          rw [Option.map_some, Option.any_some, ChainPoint.slot_fromBytes]
          exact decide_eq_true (le_trans atMost bounded)
  have passedIndexes : ∀ entry ∈ spec.ledger.wal.entries,
      isPassed (some indexed.slot) (ChainPoint.fromBytes entry.1, entry.2) = true := by
    intro entry member
    have applied := level.indexed.applied indexed indexedEq entry member
    rw [isPassed, Bool.or_eq_true, Option.any_some, ChainPoint.slot_fromBytes]
    exact Or.inl (decide_eq_true applied)
  have shownAll : spec.archive.Shows (blocks ++ ([] : List (ChainPoint × LedgerLog O)).map
      entryBlock) := by
    rw [List.map_nil, List.append_nil]
    exact shown
  have sound : WalTail.Sound ⟨spec.ledger.wal.entries, spec.ledger.view, point, blocks, indexed⟩
      [] spec.ledger :=
    { walEq := (List.append_nil _).symm
      logged := level.logged
      typed := level.settled.typed
      path := .nil _
      cursor := pointEq
      points := by simp
      apart := .nil
      fits := by simp
      state := ⟨passedState, by simp⟩
      archive := ⟨passedArchive, by simp⟩
      indexes := ⟨passedIndexes, by simp⟩
      behind := fun entry member => level.settled.applied point pointEq entry member }
  refine ⟨_, ⟨sound, shownAll, indexedEq, rfl, ?_⟩, rfl, shownAll, indexedEq, fun _ => rfl⟩
  intro _ target member
  cases member

omit [BlockDecoding O] [NonceCrypto] [RawBlocks O] in
theorem isPassed_later {slot : Option ℕ} {entry : ChainPoint × LedgerLog O} {later : ℕ}
    (atMost : ∀ held ∈ slot, held ≤ later) (passed : isPassed slot entry = true) :
    isPassed (some later) entry = true := by
  rw [isPassed, Bool.or_eq_true] at passed ⊢
  apply passed.imp_left
  intro before
  rcases Option.any_eq_true _ _ |>.mp before with ⟨held, isHeld, bounded⟩
  exact decide_eq_true (le_trans (of_decide_eq_true bounded) (atMost held isHeld))

omit [BlockDecoding O] in
theorem WalTail.Sound.typed_view {ledger : LedgerStores O} (sound : tail.Sound entries ledger) :
    WellTyped ledger.view.entities := by
  have path := sound.path
  have typed := sound.typed
  clear sound
  generalize tail.base = base at path typed
  generalize ledger.view = view at path ⊢
  induction path with
  | nil => exact typed
  | cons linked _ ih => exact ih linked.typed

omit [BlockDecoding O] in
/-- At the end of the tail every entry of the log is passed over by all three stores. -/
theorem WalTail.Sound.passed {ledger : LedgerStores O} (sound : tail.Sound entries ledger) :
    ∀ entry ∈ ledger.wal.entries,
      isPassed (stateSlot (some (lastPoint tail.cursor entries)))
          (ChainPoint.fromBytes entry.1, entry.2) = true ∧
        isPassed ((tail.blocks ++ entries.map entryBlock).getLast?.map Prod.fst)
          (ChainPoint.fromBytes entry.1, entry.2) = true ∧
        isPassed (some (lastPoint tail.indexed entries).slot)
          (ChainPoint.fromBytes entry.1, entry.2) = true ∧
        (ofLex entry.1).1 ≤ (lastPoint tail.cursor entries).slot := by
  have whole : entries = entries ++ [] := (List.append_nil _).symm
  have divided : ∀ {slot}, Divides slot tail.old entries →
      Divides (lastSlot slot entries)
        (tail.old ++ entries.map fun entry => (entry.1.intoBytes, entry.2)) [] := by
    intro slot divides
    have ascending := sound.ascending
    rw [whole] at divides ascending
    exact divides.after ascending
  have points : ∀ entry ∈ entries, ∃ slot hash, entry.1 = ChainPoint.specific slot hash := by
    intro entry member
    rcases sound.points entry member with ⟨slot, hash, pointEq, -⟩
    exact ⟨slot, hash, pointEq⟩
  intro entry member
  refine ⟨?_, ?_, ?_, ?_⟩
  · rw [stateSlot_lastPoint points]
    apply (divided sound.state).passed
    rw [← sound.walEq]
    exact member
  · rw [lastSlot_blocks]
    apply (divided sound.archive).passed
    rw [← sound.walEq]
    exact member
  · rw [slot_lastPoint]
    apply (divided sound.indexes).passed
    rw [← sound.walEq]
    exact member
  · rw [sound.walEq] at member
    rcases List.mem_append.mp member with isOld | isNew
    · have first : tail.Sound ([] ++ entries) ledger := sound
      exact le_trans (sound.behind entry isOld) first.slot_lastPoint_le
    · rcases List.mem_map.mp isNew with ⟨given, isGiven, rfl⟩
      rcases List.eq_nil_or_concat entries with rfl | ⟨init, last, rfl⟩
      · cases isGiven
      · rw [List.concat_eq_append] at sound isGiven ⊢
        rw [lastPoint_concat]
        exact ChainPoint.slot_le_of_intoBytes_le
          (sound.le_intoBytes_last List.getLast?_concat isGiven)

/-- After an entry of the tail all stores are at it. -/
theorem Stands.exists_atTip (stands : Stands tail entries reach recent exact spec)
    (some_ : entries ≠ []) : ∃ tip, spec.AtTip tip := by
  rcases List.eq_nil_or_concat entries with isNil | ⟨init, last, rfl⟩
  · exact absurd isNil some_
  · rw [List.concat_eq_append] at stands
    rcases stands.sound.points last (by simp) with ⟨slot, hash, pointEq, -⟩
    have tipEq := Wal.findTip_appended stands.sound.walEq stands.sound.ascending.decoded
      (List.getLast?_concat)
    refine ⟨last.1, ?_, ⟨last.1, ?_, le_refl _, Or.inl rfl⟩, ?_, ?_⟩
    · rw [tipEq]
      rfl
    · rw [stands.sound.cursor, lastPoint_concat]
    · have named : last.1 ≠ .origin := by
        rw [pointEq]
        exact ChainPoint.noConfusion
      rw [stands.shown.getTip, if_neg named, List.map_append, List.map_singleton,
        ← List.append_assoc, List.getLast?_concat]
      rfl
    · rw [stands.indexed, lastPoint_concat]

omit [NonceCrypto] [RawBlocks O] in
theorem DomainStores.AtTip.boundary {tip : ChainPoint} {cursor : Option ChainPoint}
    {entities : OrderedMap NsKey CardanoEntity} {utxos reclaimed : UtxoMap O}
    (atTip : spec.AtTip tip)
    (cursorIs : cursor = spec.ledger.cursor ∨ ∃ slot, cursor = some (.slotOnly slot) ∧
      ∀ point ∈ spec.ledger.cursor, point.slot ≤ slot) :
    DomainStores.AtTip ⟨⟨{ spec.ledger with
      entities := entities, utxos := utxos, cursor := cursor },
        IndexedStores.deleteReclaimed spec.indexes reclaimed⟩, spec.archive⟩ tip := by
  refine ⟨atTip.logged, ?_, atTip.archived, ?_⟩
  · rcases atTip.state with ⟨point, pointEq, atLeast, named⟩
    rcases cursorIs with rfl | ⟨slot, rfl, forward⟩
    · exact ⟨point, pointEq, atLeast, named⟩
    · exact ⟨.slotOnly slot, rfl, le_trans atLeast (forward point pointEq), Or.inr rfl⟩
  · have started : spec.indexes.cursor.isSome = true := by rw [atTip.indexed]; rfl
    change (IndexedStores.deleteReclaimed spec.indexes reclaimed).cursor = some tip
    rw [IndexedStores.cursor_deleteReclaimed started, atTip.indexed]

/-- A boundary ends the tail: the next one starts where it leaves the stores. -/
theorem Stands.boundary {stores next : DomainStores O}
    (stands : Stands tail entries reach recent exact spec)
    (arrived : Arrived tail entries exact spec stores)
    {effect : OrderedMap NsKey CardanoEntity → UtxoMap O →
      Except DomainError (OrderedMap NsKey CardanoEntity × UtxoMap O)} {estart : Option ℕ}
    {reclaimed : UtxoMap O}
    (allowed : (DomainUnit.boundary effect estart reclaimed).Allowed spec)
    (done : stores.execute (.boundary effect estart reclaimed) = .ok next) :
    ∃ after, spec.execute (.boundary effect estart reclaimed) = .ok after ∧
      (∀ tip, spec.AtTip tip → after.AtTip tip) ∧
      ∃ nextTail, Stands nextTail [] [] [] exact after ∧
        Arrived nextTail [] exact after next := by
  rcases bind_eq_ok.mp done with ⟨indexed, indexedDone, nextEq⟩
  rcases Except.ok.inj nextEq with rfl
  rcases bind_eq_ok.mp (mapError_eq_ok.mp indexedDone) with ⟨ledger, ledgerDone, indexedEq⟩
  rcases Except.ok.inj indexedEq with rfl
  rw [arrived.ledger] at ledgerDone
  have specDone : spec.execute (.boundary effect estart reclaimed) =
      .ok ⟨⟨ledger, IndexedStores.deleteReclaimed spec.indexes reclaimed⟩, spec.archive⟩ := by
    rw [DomainStores.execute, IndexedStores.execute, ledgerDone]
    rfl
  rcases bind_eq_ok.mp ledgerDone with ⟨⟨entities, utxos⟩, effectEq, ledgerEq⟩
  rcases Except.ok.inj ledgerEq with rfl
  rcases allowed with ⟨keepsTyped, forward⟩
  refine ⟨_, specDone, ?_, ?_⟩
  · intro tip atTip
    refine atTip.boundary ?_
    cases estart with
    | none => exact Or.inl rfl
    | some slot => exact Or.inr ⟨slot, rfl, forward slot rfl⟩
  have typed := keepsTyped entities utxos effectEq stands.sound.typed_view
  have passed := stands.sound.passed
  have cursorIs : ∃ point, (estart.map ChainPoint.slotOnly <|> spec.ledger.cursor) = some point ∧
      (∀ entry ∈ spec.ledger.wal.entries,
        isPassed (stateSlot (some point)) (ChainPoint.fromBytes entry.1, entry.2) = true) ∧
      ∀ entry ∈ spec.ledger.wal.entries, (ofLex entry.1).1 ≤ point.slot := by
    cases estart with
    | none =>
        exact ⟨_, stands.sound.cursor, fun entry member => (passed entry member).1,
          fun entry member => (passed entry member).2.2.2⟩
    | some slot =>
        have atMost := forward slot rfl _ stands.sound.cursor
        refine ⟨.slotOnly slot, rfl, ?_, ?_⟩
        · intro entry member
          apply isPassed_later _ (passed entry member).1
          intro held isHeld
          cases reached : lastPoint tail.cursor entries with
          | origin =>
              rw [reached] at isHeld
              cases isHeld
          | slotOnly other =>
              rw [reached] at isHeld atMost
              rcases Option.some.inj isHeld with rfl
              exact atMost
          | specific other hash =>
              rw [reached] at isHeld atMost
              rcases Option.some.inj isHeld with rfl
              exact atMost
        · exact fun entry member => le_trans (passed entry member).2.2.2 atMost
  rcases cursorIs with ⟨point, pointEq, passedState, behind⟩
  have indexedCursor : ∀ indexes : IndexStore,
      indexes.cursor = some (lastPoint tail.indexed entries) →
        (IndexedStores.deleteReclaimed indexes reclaimed).cursor =
          some (lastPoint tail.indexed entries) := by
    intro indexes cursorEq
    rw [IndexedStores.cursor_deleteReclaimed (by rw [cursorEq]; rfl), cursorEq]
  have shownAll : ∀ archive : ArchiveStore,
      archive.Shows (tail.blocks ++ entries.map entryBlock) →
        archive.Shows (tail.blocks ++ entries.map entryBlock ++
          ([] : List (ChainPoint × LedgerLog O)).map entryBlock) := by
    intro archive shown
    rw [List.map_nil, List.append_nil]
    exact shown
  refine ⟨⟨spec.ledger.wal.entries, ⟨entities.get?, utxos⟩, point,
    tail.blocks ++ entries.map entryBlock, lastPoint tail.indexed entries⟩, ?_, ?_⟩
  · have sound : WalTail.Sound ⟨spec.ledger.wal.entries, ⟨entities.get?, utxos⟩, point,
        tail.blocks ++ entries.map entryBlock, lastPoint tail.indexed entries⟩ []
        { spec.ledger with
          entities := entities
          utxos := utxos
          cursor := estart.map ChainPoint.slotOnly <|> spec.ledger.cursor } :=
      { walEq := (List.append_nil _).symm
        logged := stands.sound.logged
        typed := typed
        path := .nil _
        cursor := pointEq
        points := by simp
        apart := .nil
        fits := by simp
        state := ⟨passedState, by simp⟩
        archive := ⟨fun entry member => (passed entry member).2.1, by simp⟩
        indexes := ⟨fun entry member => (passed entry member).2.2.1, by simp⟩
        behind := behind }
    refine ⟨sound, shownAll _ stands.shown, indexedCursor _ stands.indexed, rfl, ?_⟩
    intro _ target member
    cases member
  · refine ⟨rfl, shownAll _ arrived.archive, indexedCursor _ arrived.indexes.cursor, ?_⟩
    intro isExact
    have same : stores.indexes = spec.indexes := Except.ok.inj (arrived.indexes.ahead isExact)
    simp only [List.foldlM_nil, same]
    rfl

/-- What becomes of a batch that has been logged, as far as it is not interrupted. -/
structure RollsTo (spec next : DomainStores O) (batch : WorkBatch (WorkBlock O))
    (computed : RollBatch O) (logged : LedgerStores O)
    (new : List (ChainPoint × LedgerLog O)) : Prop where
  execute : spec.execute (.roll batch) = .ok next
  walEq : logged.wal = next.ledger.wal
  cursor : logged.cursor = spec.ledger.cursor
  view : logged.view = spec.ledger.view
  state : computed.commitState logged = .ok next.ledger
  path : Path Linked new spec.ledger.view next.ledger.view
  blocks : computed.archivedBlocks = new.map entryBlock
  indexes : computed.commitIndexes spec.indexes = .ok next.indexes
  replays : new.foldlM replayIndex spec.indexes = .ok next.indexes
  points : new.map Prod.fst = batch.blocks.map WorkBlock.point
  moves : ∀ indexes after, computed.commitIndexes indexes = .ok after →
    ∃ last, new.getLast? = some last ∧ after.cursor = some last.1

omit [BlockDecoding O] in
/-- The entries of a logged batch, block by block. -/
theorem exists_work_of_entry {stores logged : LedgerStores O} {batch : WorkBatch (WorkBlock O)}
    {computed : RollBatch O} (ordered : Ordered stores batch)
    (loggedDone : stores.rollLogged batch = .ok (computed, logged))
    {entry : ChainPoint × LedgerLog O}
    (member : entry ∈ computed.blocks.map fun work => work.logEntry computed.utxos) :
    ∃ work ∈ batch.blocks, entry.1 = work.point ∧
      entryBlock entry = archivedBlock work.block := by
  rcases List.mem_map.mp member with ⟨rolled, isRolled, rfl⟩
  have isBlock : rolled.block ∈ batch.blocks.map WorkBlock.block := by
    rw [← blocks_of_rollLogged ordered loggedDone]
    exact List.mem_map_of_mem isRolled
  rcases List.mem_map.mp isBlock with ⟨work, isWork, blockEq⟩
  refine ⟨work, isWork, ?_, ?_⟩
  · exact congrArg Block.point blockEq.symm
  · exact congrArg archivedBlock blockEq.symm

/-- A logged batch extends the tail of the log. -/
theorem Stands.extended (stands : Stands tail entries reach recent exact spec)
    {batch : WorkBatch (WorkBlock O)} (safe : SafeBatch spec batch) {computed : RollBatch O}
    {logged : LedgerStores O}
    (loggedDone : spec.ledger.rollLogged batch = .ok (computed, logged))
    {after : LedgerStores O} (walEq : after.wal = logged.wal) {last : WorkBlock O}
    (lastEq : computed.blocks.getLast? = some last) (cursorEq : after.cursor = some last.point)
    (path : Path Linked (computed.blocks.map fun work => work.logEntry computed.utxos)
      spec.ledger.view after.view) :
    tail.Sound (entries ++ computed.blocks.map fun work => work.logEntry computed.utxos) after := by
  have ordered := safe.toOrdered
  have isLogged := ordered.logged loggedDone
  have sound := stands.sound
  have points : ∀ entry ∈ entries, ∃ slot hash, entry.1 = ChainPoint.specific slot hash := by
    intro entry member
    rcases sound.points entry member with ⟨slot, hash, pointEq, -⟩
    exact ⟨slot, hash, pointEq⟩
  have pastState : ∀ before ∈ lastSlot (stateSlot (some tail.cursor)) entries,
      ∀ entry ∈ computed.blocks.map fun work => work.logEntry computed.utxos,
        before < entry.1.slot := by
    intro before isBefore entry member
    rcases exists_work_of_entry ordered loggedDone member with ⟨work, isWork, pointEq, -⟩
    rw [← stateSlot_lastPoint points, ← sound.cursor] at isBefore
    rw [pointEq]
    exact safe.unapplied before isBefore work isWork
  have pastArchive : ∀ before ∈ lastSlot (tail.blocks.getLast?.map Prod.fst) entries,
      ∀ entry ∈ computed.blocks.map fun work => work.logEntry computed.utxos,
        before < entry.1.slot := by
    intro before isBefore entry member
    rcases exists_work_of_entry ordered loggedDone member with ⟨work, isWork, pointEq, -⟩
    rw [← lastSlot_blocks] at isBefore
    rcases Option.map_eq_some_iff.mp isBefore with ⟨tip, tipEq, rfl⟩
    rw [pointEq]
    apply safe.unarchived tip _ work isWork
    rw [stands.shown.getTip, tipEq]
  have pastIndexes : ∀ before ∈ lastSlot (some tail.indexed.slot) entries,
      ∀ entry ∈ computed.blocks.map fun work => work.logEntry computed.utxos,
        before < entry.1.slot := by
    intro before isBefore entry member
    rcases exists_work_of_entry ordered loggedDone member with ⟨work, isWork, pointEq, -⟩
    rw [← slot_lastPoint] at isBefore
    rcases Option.some.inj isBefore with rfl
    rw [pointEq]
    exact safe.unindexed _ stands.indexed work isWork
  refine
    { walEq := ?_
      logged := ?_
      typed := sound.typed
      path := sound.path.append path
      cursor := ?_
      points := ?_
      apart := ?_
      fits := ?_
      state := sound.state.extend pastState
      archive := sound.archive.extend pastArchive
      indexes := sound.indexes.extend pastIndexes
      behind := sound.behind }
  · rw [walEq, isLogged.walEq, sound.walEq, List.map_append, List.append_assoc]
  · rw [walEq, isLogged.walEq]
    exact List.append_ne_nil_of_left_ne_nil sound.logged _
  · rw [cursorEq, lastPoint, List.map_append, List.getLast?_append, List.getLast?_map,
      List.getLast?_map, lastEq]
    rfl
  · intro entry member
    rcases List.mem_append.mp member with isOld | isNew
    · exact sound.points entry isOld
    · rcases exists_work_of_entry ordered loggedDone isNew with ⟨work, isWork, pointEq, -⟩
      exact ⟨work.block.slot, work.block.hash, pointEq, ordered.hashed work isWork⟩
  · refine List.pairwise_append.mpr ⟨sound.apart, ?_, ?_⟩
    · have apart : (batch.blocks.map WorkBlock.point).Pairwise
          fun earlier later => earlier.slot < later.slot := List.pairwise_map.mpr safe.apart
      rw [← isLogged.points, List.pairwise_map] at apart
      exact apart
    · intro earlier isEarlier entry isNew
      rcases List.eq_nil_or_concat entries with rfl | ⟨init, final, rfl⟩
      · cases isEarlier
      · rw [List.concat_eq_append] at sound pastState isEarlier
        have atMost := ChainPoint.slot_le_of_intoBytes_le
          (sound.le_intoBytes_last List.getLast?_concat isEarlier)
        have later := pastState final.1.slot (by rw [lastSlot_concat]; rfl) entry isNew
        exact lt_of_le_of_lt atMost later
  · intro entry member
    rcases List.mem_append.mp member with isOld | isNew
    · exact sound.fits entry isOld
    · rcases exists_work_of_entry ordered loggedDone isNew with ⟨work, isWork, -, blockEq⟩
      rw [blockEq]
      exact safe.fits work isWork

omit [NonceCrypto] [RawBlocks O] in
/-- Where the records can be had again, they can be with the entries of a batch as well. -/
theorem again_extended {old next : IndexStore}
    (again : ∀ target ∈ recent, ∃ kept undone, entries = kept ++ undone ∧
      kept.getLast?.map Prod.fst = some target ∧
      undone.foldlM replayIndex { old with cursor := some target } = .ok old)
    (nonempty : new ≠ []) (replays : new.foldlM replayIndex old = .ok next) :
    ∀ target ∈ recent ++ new.map Prod.fst, ∃ kept undone, entries ++ new = kept ++ undone ∧
      kept.getLast?.map Prod.fst = some target ∧
      undone.foldlM replayIndex { next with cursor := some target } = .ok next := by
  intro target member
  rcases List.mem_append.mp member with isRecent | isNew
  · rcases again target isRecent with ⟨kept, undone, split, lastEq, redone⟩
    refine ⟨kept, undone ++ new, by rw [split, List.append_assoc], lastEq, ?_⟩
    have whole : (undone ++ new).foldlM replayIndex { old with cursor := some target } =
        .ok next := by
      rw [List.foldlM_append, redone, ok_bind, replays]
    exact foldlM_replayIndex_again (List.append_ne_nil_of_right_ne_nil _ nonempty) whole _
  · rcases List.mem_map.mp isNew with ⟨entry, isEntry, rfl⟩
    rcases List.append_of_mem isEntry with ⟨first, second, newEq⟩
    refine ⟨entries ++ (first ++ [entry]), second, ?_, ?_, ?_⟩
    · rw [newEq]
      simp
    · rw [← List.append_assoc, List.getLast?_concat]
      rfl
    · have grouped : new = (first ++ [entry]) ++ second := by
        rw [newEq]
        simp
      rw [grouped, List.foldlM_append] at replays
      rcases bind_eq_ok.mp replays with ⟨middle, reached, onward⟩
      rw [List.foldlM_append] at reached
      rcases bind_eq_ok.mp reached with ⟨before, -, lastDone⟩
      have cursorEq : middle.cursor = some entry.1 := by
        rcases bind_eq_ok.mp lastDone with ⟨moved, movedEq, middleEq⟩
        rcases Except.ok.inj middleEq with rfl
        exact cursor_of_replayIndex movedEq
      cases second with
      | nil =>
          rcases Except.ok.inj onward with rfl
          rw [← cursorEq]
          rfl
      | cons head rest => exact foldlM_replayIndex_again (by simp) onward _

theorem Stands.roll (stands : Stands tail entries reach recent exact spec)
    {batch : WorkBatch (WorkBlock O)} (safe : SafeBatch spec batch) {computed : RollBatch O}
    {logged : LedgerStores O}
    (loggedDone : spec.ledger.rollLogged batch = .ok (computed, logged)) :
    ∃ next new, RollsTo spec next batch computed logged new ∧
      Stands tail (entries ++ new) (reach ++ batch.blocks.map WorkBlock.point)
        (recent ++ batch.blocks.map WorkBlock.point) exact next := by
  have ordered := safe.toOrdered
  have isLogged := ordered.logged loggedDone
  rcases linked_roll safe.toUndoable safe.epochFree stands.sound.typed_view loggedDone with
    ⟨last, after, lastEq, committed, walEq, cursorEq, path⟩
  have sound := stands.extended safe loggedDone walEq lastEq cursorEq path
  have archived : computed.archivedBlocks =
      (computed.blocks.map fun work => work.logEntry computed.utxos).map entryBlock := by
    rw [RollBatch.archivedBlocks, List.map_map]
    rfl
  rcases sound.later_blocks stands.shown with ⟨later, ascending⟩
  rcases stands.shown.commitBlocks sound.fits_blocks later ascending with
    ⟨archive, archiveEq, shown⟩
  have indexesDone : ∃ indexes, computed.commitIndexes spec.indexes = .ok indexes := by
    rw [RollBatch.commitIndexes, lastEq]
    exact ⟨_, rfl⟩
  rcases indexesDone with ⟨indexes, indexesEq⟩
  have validRolled : ValidChain spec.ledger.utxos (computed.blocks.map WorkBlock.block) := by
    rw [blocks_of_rollLogged ordered loggedDone]
    exact safe.valid
  rcases rollLogged_spec loggedDone with ⟨loggedEq, pairs, trace⟩
  have replays := commitIndexes_replays trace.resolved_computed validRolled indexesEq
  have lastEntry : (computed.blocks.map fun work => work.logEntry computed.utxos).getLast? =
      some (last.logEntry computed.utxos) := by
    rw [List.getLast?_map, lastEq]
    rfl
  have moves : ∀ indexes after, computed.commitIndexes indexes = .ok after →
      ∃ final, (computed.blocks.map fun work => work.logEntry computed.utxos).getLast? =
        some final ∧ after.cursor = some final.1 := by
    intro other moved movedEq
    refine ⟨_, lastEntry, ?_⟩
    rw [RollBatch.commitIndexes, lastEq] at movedEq
    rcases Except.ok.inj movedEq with rfl
    rfl
  have executed : spec.execute (.roll batch) = .ok ⟨⟨after, indexes⟩, archive⟩ := by
    simp only [DomainStores.execute, loggedDone, Except.mapError, ok_bind, committed,
      RollBatch.commitArchive, archived, archiveEq, indexesEq]
  generalize newEq : (computed.blocks.map fun work => work.logEntry computed.utxos) = new
    at sound archived replays lastEntry moves path shown isLogged
  have rolls : RollsTo spec ⟨⟨after, indexes⟩, archive⟩ batch computed logged new :=
    { execute := executed
      walEq := walEq.symm
      cursor := by rw [loggedEq]; rfl
      view := by rw [loggedEq]; rfl
      state := committed
      path := path
      blocks := archived
      indexes := indexesEq
      replays := replays
      points := isLogged.points
      moves := moves }
  refine ⟨⟨⟨after, indexes⟩, archive⟩, new, rolls, sound, ?_, ?_, ?_, ?_⟩
  · rw [List.map_append, ← List.append_assoc]
    exact shown
  · rcases moves spec.indexes indexes indexesEq with ⟨final, finalEq, cursorIs⟩
    rw [cursorIs, lastPoint, List.map_append, List.getLast?_append, List.getLast?_map, finalEq]
    rfl
  · rw [List.map_append, stands.reach, isLogged.points]
  · intro isExact
    have nonempty : new ≠ [] := by
      rintro rfl
      cases lastEntry
    rw [← isLogged.points]
    exact again_extended (stands.again isExact) nonempty replays

end Units

end Dolos
