import Dolos.Cardano.CrashRedo

/-!
# The end of the log

What the log has since the last boundary, against the three stores that follow it. Each of
them has seen the entries up to some point, and stands where the last of these has left it:
the state is on the way from one view to the next, the archive holds the blocks, the indexes
are to be had from the entries they have not seen. A restart scans the log from where a store
stands, passes over what the store has seen and ends where the log ends.
-/

namespace Dolos

open Outcome LedgerStores ArchiveStore

variable {O : Type}

theorem ChainPoint.slot_le_of_intoBytes_le {point target : ChainPoint}
    (atMost : point.intoBytes ≤ target.intoBytes) : point.slot ≤ target.slot :=
  Prod.Lex.monotone_fst _ _ atMost

theorem ChainPoint.slot_eq_of_eq {point target : ChainPoint} (same : point.eq target = true) :
    point.slot = target.slot := by
  cases point <;> cases target <;> simp_all [ChainPoint.eq, ChainPoint.slot]

/-- A log cut after one of its entries, and read from it on. -/
theorem Wal.cut {V : Type} {wal : Wal V} {before : List ((ℕ ×ₗ BlockHash) × V)}
    {last : ChainPoint × V} {later : List (ChainPoint × V)}
    (split : wal.entries = before ++
      (last :: later).map fun entry => (entry.1.intoBytes, entry.2))
    (decoded : ∀ entry ∈ last :: later, ChainPoint.fromBytes entry.1.intoBytes = entry.1) :
    (wal.truncateFront last.1).entries = before ++ [(last.1.intoBytes, last.2)] ∧
      (∀ entry ∈ (wal.truncateFront last.1).entries, entry.1 ≤ last.1.intoBytes) ∧
      wal.iterLogs (some last.1) none = last :: later := by
  have sorted := wal.sorted
  rw [split] at sorted
  rcases List.pairwise_append.mp sorted with ⟨-, fromLast, across⟩
  rw [List.map_cons] at fromLast across
  have below : ∀ entry ∈ before, entry.1 < last.1.intoBytes :=
    fun entry member => across entry member (last.1.intoBytes, last.2) List.mem_cons_self
  have above : ∀ entry ∈ later.map (fun entry => (entry.1.intoBytes, entry.2)),
      last.1.intoBytes < entry.1 := (List.pairwise_cons.mp fromLast).1
  refine ⟨?_, ?_, ?_⟩
  · change wal.entries.filter (fun entry => decide (entry.1 ≤ last.1.intoBytes)) = _
    rw [split, List.map_cons, List.filter_append, List.filter_eq_self.mpr,
      List.filter_cons_of_pos, List.filter_eq_nil_iff.mpr]
    · intro entry member
      simpa using above entry member
    · simp
    · intro entry member
      exact decide_eq_true (le_of_lt (below entry member))
  · intro entry member
    exact of_decide_eq_true (List.mem_filter.mp member).2
  · rw [Wal.iterLogs_from, split, List.filter_append, List.filter_eq_nil_iff.mpr,
      List.nil_append, List.filter_eq_self.mpr, Wal.map_decoded decoded]
    · intro entry member
      rw [List.map_cons] at member
      rcases List.mem_cons.mp member with rfl | isLater
      · exact decide_eq_true (le_refl _)
      · exact decide_eq_true (le_of_lt (above entry isLater))
    · intro entry member
      simpa using below entry member

/-- The point the last entry leaves a store at. -/
def lastPoint (start : ChainPoint) (entries : List (ChainPoint × LedgerLog O)) : ChainPoint :=
  (entries.map Prod.fst).getLast?.getD start

/-- The slot a store goes by after some entries. -/
def lastSlot (start : Option ℕ) (entries : List (ChainPoint × LedgerLog O)) : Option ℕ :=
  (entries.getLast?.map fun entry => entry.1.slot).or start

section Scan

variable {slot : Option ℕ} {old : List ((ℕ ×ₗ BlockHash) × LedgerLog O)}
  {entries done todo : List (ChainPoint × LedgerLog O)}

theorem lastPoint_concat (start : ChainPoint) (last : ChainPoint × LedgerLog O) :
    lastPoint start (entries ++ [last]) = last.1 := by
  rw [lastPoint, List.map_append, List.map_singleton, List.getLast?_concat, Option.getD_some]

theorem lastSlot_concat (last : ChainPoint × LedgerLog O) :
    lastSlot slot (entries ++ [last]) = some last.1.slot := by
  rw [lastSlot, List.getLast?_concat]
  rfl

theorem slot_lastPoint (start : ChainPoint) :
    some (lastPoint start entries).slot = lastSlot (some start.slot) entries := by
  rcases List.eq_nil_or_concat entries with rfl | ⟨init, last, rfl⟩
  · rfl
  · rw [List.concat_eq_append, lastPoint_concat, lastSlot_concat]

theorem stateSlot_lastPoint {start : ChainPoint}
    (points : ∀ entry ∈ entries, ∃ slot hash, entry.1 = .specific slot hash) :
    stateSlot (some (lastPoint start entries)) = lastSlot (stateSlot (some start)) entries := by
  rcases List.eq_nil_or_concat entries with rfl | ⟨init, last, rfl⟩
  · rfl
  · rw [List.concat_eq_append] at points ⊢
    rcases points last (by simp) with ⟨slot, hash, pointEq⟩
    rw [lastPoint_concat, lastSlot_concat, pointEq]
    rfl

/-- A slot that tells the entries before from those that follow: the former are passed
over, the latter are in later slots. -/
structure Divides (slot : Option ℕ) (old : List ((ℕ ×ₗ BlockHash) × LedgerLog O))
    (entries : List (ChainPoint × LedgerLog O)) : Prop where
  passed : ∀ entry ∈ old, isPassed slot (.fromBytes entry.1, entry.2) = true
  later : ∀ before ∈ slot, ∀ entry ∈ entries, before < entry.1.slot

/-- Entries of the log that a scan can tell apart: blocks in slots of their own. -/
structure Ascending (entries : List (ChainPoint × LedgerLog O)) : Prop where
  decoded : ∀ entry ∈ entries, ChainPoint.fromBytes entry.1.intoBytes = entry.1
  blocks : ∀ entry ∈ entries, entry.2.block.isSome
  apart : entries.Pairwise fun earlier later => earlier.1.slot < later.1.slot

theorem Ascending.right (ascending : Ascending (done ++ todo)) : Ascending todo := by
  refine ⟨?_, ?_, (List.pairwise_append.mp ascending.apart).2.1⟩
  · exact fun entry member => ascending.decoded entry (List.mem_append_right _ member)
  · exact fun entry member => ascending.blocks entry (List.mem_append_right _ member)

theorem Ascending.left (ascending : Ascending (done ++ todo)) : Ascending done := by
  refine ⟨?_, ?_, (List.pairwise_append.mp ascending.apart).1⟩
  · exact fun entry member => ascending.decoded entry (List.mem_append_left _ member)
  · exact fun entry member => ascending.blocks entry (List.mem_append_left _ member)

/-- The slot after the first entries tells them from the others. -/
theorem Divides.after (divides : Divides slot old (done ++ todo))
    (ascending : Ascending (done ++ todo)) :
    Divides (lastSlot slot done)
      (old ++ done.map fun entry => (entry.1.intoBytes, entry.2)) todo := by
  rcases List.eq_nil_or_concat done with rfl | ⟨init, last, rfl⟩
  · rw [List.map_nil, List.append_nil]
    exact divides
  · rw [List.concat_eq_append] at divides ascending ⊢
    rw [lastSlot_concat]
    have isLast : last ∈ init ++ [last] ++ todo := by simp
    refine ⟨?_, ?_⟩
    · intro entry member
      rcases List.mem_append.mp member with isOld | isDone
      · have passed := divides.passed entry isOld
        rw [isPassed, Bool.or_eq_true] at passed ⊢
        apply passed.imp_left
        intro before
        rcases Option.any_eq_true _ _ |>.mp before with ⟨held, isHeld, atMost⟩
        have earlier := divides.later held isHeld last isLast
        have bounded := of_decide_eq_true atMost
        exact decide_eq_true (by omega)
      · rcases List.mem_map.mp isDone with ⟨given, isGiven, rfl⟩
        have decoded := ascending.decoded given (List.mem_append_left _ isGiven)
        rw [decoded, isPassed, Bool.or_eq_true]
        left
        apply decide_eq_true
        rcases List.mem_append.mp isGiven with isInit | isSame
        · have inits := (List.pairwise_append.mp ascending.left.apart).2.2
          exact le_of_lt (inits given isInit last (List.mem_singleton_self last))
        · rw [List.mem_singleton.mp isSame]
    · intro before beforeEq entry member
      rcases Option.some.inj beforeEq with rfl
      have across := (List.pairwise_append.mp ascending.apart).2.2
      exact across last (by simp) entry member

/-- A scan of the log from where a store stands. -/
theorem Divides.scan {wal : Wal (LedgerLog O)} (divides : Divides slot old (done ++ todo))
    (ascending : Ascending (done ++ todo))
    (walEq : wal.entries = old ++ (done ++ todo).map fun entry => (entry.1.intoBytes, entry.2))
    {target : ChainPoint} (upTo : ∀ entry ∈ todo, entry.1.intoBytes ≤ target.intoBytes) :
    ∃ older, wal.iterLogs ((lastSlot slot done).bind wal.locatePoint) (some target) =
        older ++ todo ∧
      (∀ entry ∈ older, isPassed (lastSlot slot done) entry = true) ∧
      ∀ entry ∈ todo, isPassed (lastSlot slot done) entry = false := by
  have after := divides.after ascending
  have split : wal.entries = (old ++ done.map fun entry => (entry.1.intoBytes, entry.2)) ++
      todo.map fun entry => (entry.1.intoBytes, entry.2) := by
    rw [walEq, List.map_append, List.append_assoc]
  have fromStart : ∀ start ∈ (lastSlot slot done).bind wal.locatePoint, ∀ entry ∈ todo,
      start.intoBytes ≤ entry.1.intoBytes := by
    intro start located entry member
    rcases Option.bind_eq_some_iff.mp located with ⟨before, beforeEq, startEq⟩
    have isEntry : (entry.1.intoBytes, entry.2) ∈ wal.entries := by
      rw [split]
      exact List.mem_append_right _ (List.mem_map_of_mem member)
    exact Wal.locatePoint_le startEq isEntry (after.later before beforeEq entry member)
  rcases Wal.iterLogs_appended split ascending.right.decoded fromStart upTo with
    ⟨older, logsEq, olderIs⟩
  refine ⟨older, logsEq, ?_, ?_⟩
  · intro entry member
    rcases olderIs entry member with ⟨held, isHeld, rfl⟩
    exact after.passed held isHeld
  · intro entry member
    rw [isPassed, Bool.or_eq_false_iff]
    refine ⟨?_, Option.isNone_eq_false_iff.mpr (ascending.right.blocks entry member)⟩
    cases before : lastSlot slot done with
    | none => rfl
    | some held => exact decide_eq_false (not_le_of_gt (after.later held before entry member))

/-- Where a store is at the end of a scan, it has seen every entry. -/
theorem Divides.nothing_left (divides : Divides slot old (done ++ todo))
    (ascending : Ascending (done ++ todo)) {target : ChainPoint}
    (upTo : ∀ entry ∈ todo, entry.1.intoBytes ≤ target.intoBytes)
    (atTarget : lastSlot slot done = some target.slot) : todo = [] := by
  rcases List.eq_nil_or_concat todo with rfl | ⟨init, last, rfl⟩
  · rfl
  · have isLast : last ∈ init.concat last := by simp
    have after := (divides.after ascending).later target.slot atTarget last isLast
    have below := ChainPoint.slot_le_of_intoBytes_le (upTo last isLast)
    omega

end Scan

/-- The log since the last boundary: what it had before, and where the three stores stood. -/
structure WalTail (O : Type) where
  old : List ((ℕ ×ₗ BlockHash) × LedgerLog O)
  base : LedgerView O
  cursor : ChainPoint
  blocks : List (ℕ × Bytes)
  indexed : ChainPoint

section Sound

variable [NonceCrypto] [RawBlocks O]

omit [NonceCrypto] in
/-- The block of an entry as the archive takes it. -/
def entryBlock (entry : ChainPoint × LedgerLog O) : ℕ × Bytes :=
  (entry.1.slot, (entry.2.block.map RawBlocks.raw).getD [])

/-- The entries lead from where the stores stood to the ledger of a run, and each store can
tell them from what was there before. -/
structure WalTail.Sound (tail : WalTail O) (entries : List (ChainPoint × LedgerLog O))
    (ledger : LedgerStores O) : Prop where
  walEq : ledger.wal.entries =
    tail.old ++ entries.map fun entry => (entry.1.intoBytes, entry.2)
  logged : ledger.wal.entries ≠ []
  typed : WellTyped tail.base.entities
  path : Path Linked entries tail.base ledger.view
  cursor : ledger.cursor = some (lastPoint tail.cursor entries)
  points : ∀ entry ∈ entries, ∃ slot hash, entry.1 = .specific slot hash ∧ hash ≠ 0
  apart : entries.Pairwise fun earlier later => earlier.1.slot < later.1.slot
  fits : ∀ entry ∈ entries, FitsSegments (entryBlock entry)
  state : Divides (stateSlot (some tail.cursor)) tail.old entries
  archive : Divides (tail.blocks.getLast?.map Prod.fst) tail.old entries
  indexes : Divides (some tail.indexed.slot) tail.old entries
  behind : ∀ entry ∈ tail.old, (ofLex entry.1).1 ≤ tail.cursor.slot

namespace WalTail.Sound

variable {tail : WalTail O} {entries done todo : List (ChainPoint × LedgerLog O)}
  {ledger : LedgerStores O}

theorem ascending (sound : tail.Sound entries ledger) : Ascending entries := by
  refine ⟨?_, ?_, sound.apart⟩
  · intro entry member
    rcases sound.points entry member with ⟨slot, hash, pointEq, nonzero⟩
    rw [pointEq]
    apply ChainPoint.fromBytes_specific
    intro zero
    exact nonzero (congrArg Prod.snd (toLex.injective zero))
  · intro entry member
    rcases sound.path.exists_step member with ⟨_, _, linked⟩
    rcases linked.repeats.utxos with ⟨block, _, blockEq, -⟩
    rw [blockEq]
    rfl

theorem exists_point (sound : tail.Sound (done ++ todo) ledger) :
    ∀ entry ∈ done, ∃ slot hash, entry.1 = ChainPoint.specific slot hash := by
  intro entry member
  rcases sound.points entry (List.mem_append_left _ member) with ⟨slot, hash, pointEq, -⟩
  exact ⟨slot, hash, pointEq⟩

theorem le_intoBytes_last (sound : tail.Sound entries ledger)
    {last entry : ChainPoint × LedgerLog O} (lastEq : entries.getLast? = some last)
    (member : entry ∈ entries) : entry.1.intoBytes ≤ last.1.intoBytes := by
  rcases List.getLast?_eq_some_iff.mp lastEq with ⟨init, entriesEq⟩
  have apart := sound.apart
  rw [entriesEq] at apart member
  rcases List.mem_append.mp member with isInit | isLast
  · have earlier := (List.pairwise_append.mp apart).2.2 entry isInit last (by simp)
    exact le_of_lt (Prod.Lex.lt_iff.mpr (Or.inl earlier))
  · rw [List.mem_singleton.mp isLast]

/-- The tip of the log: the last entry, or what was last before the tail. -/
theorem exists_tip (sound : tail.Sound entries ledger) :
    ∃ target log, ledger.wal.findTip = some (target, log) ∧
      (∀ entry ∈ entries, entry.1.intoBytes ≤ target.intoBytes) ∧
      (entries ≠ [] → target = lastPoint tail.cursor entries) ∧
      target.slot ≤ (lastPoint tail.cursor entries).slot := by
  rcases List.eq_nil_or_concat entries with rfl | ⟨init, last, rfl⟩
  · have walEq := sound.walEq
    rw [List.map_nil, List.append_nil] at walEq
    have logged := sound.logged
    rw [walEq] at logged
    rcases List.eq_nil_or_concat tail.old with isNil | ⟨before, tip, oldEq⟩
    · exact absurd isNil logged
    · rw [List.concat_eq_append] at oldEq
      refine ⟨.fromBytes tip.1, tip.2, ?_, by simp, fun some => absurd rfl some, ?_⟩
      · simp only [Wal.findTip, Wal.iterLogs, List.filter_true]
        rw [walEq, oldEq, List.map_append, List.getLast?_append]
        rfl
      · rw [ChainPoint.slot_fromBytes]
        apply sound.behind
        rw [oldEq]
        exact List.mem_append_right _ (List.mem_singleton_self tip)
  · rw [List.concat_eq_append] at sound ⊢
    have tipEq := Wal.findTip_appended sound.walEq sound.ascending.decoded
      (List.getLast?_concat)
    refine ⟨last.1, last.2, tipEq, ?_, ?_, ?_⟩
    · intro entry member
      exact sound.le_intoBytes_last List.getLast?_concat member
    · intro _
      rw [lastPoint_concat]
    · rw [lastPoint_concat]

end WalTail.Sound

section CatchUp

variable {tail : WalTail O} {done todo : List (ChainPoint × LedgerLog O)}
  {spec ledger : LedgerStores O} {target : ChainPoint}

omit [RawBlocks O] in
/-- The state has seen some of the entries, and the others lead it to where it should be. -/
structure StateAt (tail : WalTail O) (spec ledger : LedgerStores O)
    (done todo : List (ChainPoint × LedgerLog O)) : Prop where
  walEq : ledger.wal = spec.wal
  cursor : ledger.cursor = some (lastPoint tail.cursor done)
  reached : Path Linked done tail.base ledger.view
  ahead : Path Linked todo ledger.view spec.view

omit [RawBlocks O] in
theorem StateAt.eq (stands : StateAt tail spec ledger done [])
    (cursor : spec.cursor = some (lastPoint tail.cursor done)) : ledger = spec := by
  rcases stands with ⟨walEq, cursorEq, -, ahead⟩
  refine eq_of_view ?_ (cursorEq.trans cursor.symm) walEq
  generalize spec.view = final at ahead
  cases ahead
  rfl

omit [RawBlocks O] in
/-- The entries of a scan, up to any of them. -/
theorem StateAt.replayLogs (stands : StateAt tail spec ledger done todo)
    {older before after : List (ChainPoint × LedgerLog O)}
    (olderPassed : ∀ entry ∈ older, isPassed (stateSlot ledger.cursor) entry = true)
    (todoUnpassed : ∀ entry ∈ todo, isPassed (stateSlot ledger.cursor) entry = false)
    (split : older ++ todo = before ++ after) :
    ∃ replayed seen left, LedgerStores.replayLogs (stateSlot ledger.cursor) before ledger =
        .ok replayed ∧ todo = seen ++ left ∧ StateAt tail spec replayed (done ++ seen) left ∧
        (after = [] → left = []) := by
  rcases List.append_eq_append_iff.mp split with ⟨rest, beforeEq, todoEq⟩ | ⟨rest, olderEq, afterEq⟩
  · have ahead := stands.ahead
    rw [todoEq] at ahead
    rcases Path.append_iff.mp ahead with ⟨middle, path, onward⟩
    have unpassed : ∀ entry ∈ rest, isPassed (stateSlot ledger.cursor) entry = false := by
      intro entry member
      apply todoUnpassed
      rw [todoEq]
      exact List.mem_append_left _ member
    rcases replayLogs_of_path (path.mono fun _ _ _ linked => linked.repeats) unpassed rfl with
      ⟨replayed, replayedEq, viewEq, walEq, cursorEq⟩
    refine ⟨replayed, rest, after, ?_, todoEq, ?_, id⟩
    · rw [beforeEq, replayLogs_passed olderPassed, replayedEq]
    · rw [← viewEq] at path onward
      refine ⟨walEq.trans stands.walEq, ?_, stands.reached.append path, onward⟩
      rw [cursorEq, stands.cursor, lastPoint, lastPoint, List.map_append, List.getLast?_append]
      cases (rest.map Prod.fst).getLast? with
      | none => rfl
      | some last => rfl
  · have passed : ∀ entry ∈ before, isPassed (stateSlot ledger.cursor) entry = true := by
      intro entry member
      apply olderPassed
      rw [olderEq]
      exact List.mem_append_left _ member
    have idle : LedgerStores.replayLogs (stateSlot ledger.cursor) before ledger = .ok ledger := by
      have skipped : LedgerStores.replayLogs (stateSlot ledger.cursor) (before ++ []) ledger =
          LedgerStores.replayLogs (stateSlot ledger.cursor) [] ledger := replayLogs_passed passed
      rw [List.append_nil] at skipped
      rw [skipped, LedgerStores.replayLogs]
    refine ⟨ledger, [], todo, idle, rfl, ?_, ?_⟩
    · rw [List.append_nil]
      exact stands
    · intro none
      rw [none] at afterEq
      exact (List.append_eq_nil_iff.mp afterEq.symm).2

/-- Catching up leads the state to where it should be. -/
theorem WalTail.Sound.catchUpState (sound : tail.Sound (done ++ todo) spec)
    (stands : StateAt tail spec ledger done todo) {log : LedgerLog O}
    (tip : spec.wal.findTip = some (target, log)) (notOrigin : target ≠ .origin) :
    ledger.catchUpState target = .ok spec := by
  rcases sound.exists_tip with ⟨target, log, sameTip, upTo, -, bounded⟩
  rcases Option.some.inj (tip.symm.trans sameTip) with ⟨rfl, rfl⟩
  have upToRight : ∀ entry ∈ todo, entry.1.intoBytes ≤ target.intoBytes :=
    fun entry member => upTo entry (List.mem_append_right _ member)
  have slotEq : stateSlot ledger.cursor = lastSlot (stateSlot (some tail.cursor)) done := by
    rw [stands.cursor]
    exact stateSlot_lastPoint sound.exists_point
  rw [LedgerStores.catchUpState]
  split_ifs with atTarget
  · have nothing : todo = [] := by
      apply sound.state.nothing_left sound.ascending upToRight
      rw [← slotEq]
      rw [stands.cursor, Option.any_some] at atTarget
      rw [stands.cursor]
      have sameSlot := ChainPoint.slot_eq_of_eq atTarget
      cases reached : lastPoint tail.cursor done with
      | origin =>
          rw [reached] at atTarget
          cases target with
          | origin => exact absurd rfl notOrigin
          | slotOnly slot => cases atTarget
          | specific slot hash => cases atTarget
      | slotOnly slot =>
          rw [← sameSlot, reached]
          rfl
      | specific slot hash =>
          rw [← sameSlot, reached]
          rfl
    subst nothing
    have cursor := sound.cursor
    rw [List.append_nil] at cursor
    rw [stands.eq cursor]
  · rcases sound.state.scan sound.ascending sound.walEq upToRight with
      ⟨older, logsEq, olderPassed, todoUnpassed⟩
    rw [← slotEq] at logsEq olderPassed todoUnpassed
    rcases stands.replayLogs olderPassed todoUnpassed (List.append_nil _).symm with
      ⟨replayed, seen, left, replayedEq, todoEq, reached, noneLeft⟩
    rcases noneLeft rfl with rfl
    rw [List.append_nil] at todoEq
    subst todoEq
    rcases reached.eq sound.cursor with rfl
    have verified : verifyCaughtUp replayed.cursor target = .ok () := by
      rw [verifyCaughtUp, sound.cursor, Option.any_some, if_pos (decide_eq_true bounded)]
    rw [stands.walEq]
    simp only [logsEq, replayedEq, ok_bind, verified]

omit [NonceCrypto] [RawBlocks O] in
theorem ArchiveStore.Shows.le_last {archive : ArchiveStore} {blocks : List (ℕ × Bytes)}
    (shown : archive.Shows blocks) {last : ℕ × Bytes} (lastEq : blocks.getLast? = some last)
    {block : ℕ × Bytes} (member : block ∈ blocks) : block.1 ≤ last.1 := by
  have sorted := shown.sorted
  rcases List.getLast?_eq_some_iff.mp lastEq with ⟨init, split⟩
  rw [split] at sorted member
  rcases List.mem_append.mp member with isInit | isLast
  · exact (List.pairwise_append.mp sorted).2.2 block isInit last (List.mem_singleton_self last)
  · rw [List.mem_singleton.mp isLast]

omit [NonceCrypto] in
theorem lastSlot_blocks (blocks : List (ℕ × Bytes)) (done : List (ChainPoint × LedgerLog O)) :
    (blocks ++ done.map entryBlock).getLast?.map Prod.fst =
      lastSlot (blocks.getLast?.map Prod.fst) done := by
  rcases List.eq_nil_or_concat done with rfl | ⟨init, last, rfl⟩
  · rw [List.map_nil, List.append_nil]
    rfl
  · rw [List.concat_eq_append, lastSlot_concat, List.map_append, ← List.append_assoc,
      List.map_singleton, List.getLast?_concat]
    rfl

namespace WalTail.Sound

variable {archive : ArchiveStore}

/-- The entries an archive has not seen are past all that it shows. -/
theorem later_blocks (sound : tail.Sound (done ++ todo) spec)
    (shown : archive.Shows (tail.blocks ++ done.map entryBlock)) :
    (∀ old ∈ tail.blocks ++ done.map entryBlock, ∀ new ∈ todo.map entryBlock, old.1 < new.1) ∧
      (todo.map entryBlock).Pairwise fun earlier later => earlier.1 < later.1 := by
  refine ⟨?_, List.pairwise_map.mpr sound.ascending.right.apart⟩
  intro old isOld new isNew
  rcases List.mem_map.mp isNew with ⟨entry, member, rfl⟩
  cases lastEq : (tail.blocks ++ done.map entryBlock).getLast? with
  | none =>
      rw [List.getLast?_eq_none_iff.mp lastEq] at isOld
      cases isOld
  | some last =>
      have slotEq := lastSlot_blocks tail.blocks done
      rw [lastEq] at slotEq
      have later := (sound.archive.after sound.ascending).later last.1 slotEq.symm entry member
      exact lt_of_le_of_lt (shown.le_last lastEq isOld) later

theorem fits_blocks (sound : tail.Sound (done ++ todo) spec) :
    ∀ block ∈ todo.map entryBlock, FitsSegments block := by
  intro block isBlock
  rcases List.mem_map.mp isBlock with ⟨entry, member, rfl⟩
  exact sound.fits entry (List.mem_append_right _ member)

theorem missingBlocks_eq (sound : tail.Sound (done ++ todo) spec)
    (upTo : ∀ entry ∈ todo, entry.1.intoBytes ≤ target.intoBytes) :
    missingBlocks spec.wal (lastSlot (tail.blocks.getLast?.map Prod.fst) done) target =
      todo.map entryBlock := by
  rcases sound.archive.scan sound.ascending sound.walEq upTo with
    ⟨older, logsEq, olderPassed, todoUnpassed⟩
  rw [missingBlocks, logsEq, List.filter_append, List.filter_eq_nil_iff.mpr, List.nil_append,
    List.filter_eq_self.mpr, ← List.filterMap_eq_map]
  · apply List.filterMap_congr
    intro entry member
    rcases Option.isSome_iff_exists.mp (sound.ascending.right.blocks entry member) with
      ⟨block, blockEq⟩
    rw [blockEq, Function.comp_apply, entryBlock, blockEq]
    rfl
  · intro entry member
    simp [todoUnpassed entry member]
  · intro entry member
    simp [olderPassed entry member]

theorem catchUpArchive (sound : tail.Sound (done ++ todo) spec)
    (shown : archive.Shows (tail.blocks ++ done.map entryBlock)) {log : LedgerLog O}
    (tip : spec.wal.findTip = some (target, log)) :
    ∃ caughtUp, Dolos.catchUpArchive spec.wal archive target = .ok caughtUp ∧
      caughtUp.Shows (tail.blocks ++ (done ++ todo).map entryBlock) := by
  rcases sound.exists_tip with ⟨target, log, sameTip, upTo, -, -⟩
  rcases Option.some.inj (tip.symm.trans sameTip) with ⟨rfl, rfl⟩
  have upToRight : ∀ entry ∈ todo, entry.1.intoBytes ≤ target.intoBytes :=
    fun entry member => upTo entry (List.mem_append_right _ member)
  rw [Dolos.catchUpArchive, shown.getTip, ok_bind]
  simp only [lastSlot_blocks, sound.missingBlocks_eq upToRight]
  by_cases atTarget : lastSlot (tail.blocks.getLast?.map Prod.fst) done = some target.slot
  · have nothing := sound.archive.nothing_left sound.ascending upToRight atTarget
    subst nothing
    rw [List.append_nil, if_pos atTarget]
    exact ⟨archive, rfl, shown⟩
  · rw [if_neg atTarget]
    rcases sound.later_blocks shown with ⟨later, ascending⟩
    rcases shown.commitBlocks sound.fits_blocks later ascending with
      ⟨committed, committedEq, shows⟩
    have regroup : tail.blocks ++ (done ++ todo).map entryBlock =
        tail.blocks ++ done.map entryBlock ++ todo.map entryBlock := by
      rw [List.map_append, List.append_assoc]
    rw [regroup]
    cases todo with
    | nil =>
        refine ⟨archive, ?_, ?_⟩
        · rw [List.map_nil, List.isEmpty_nil, if_pos rfl, ok_bind, shown.getTip, ok_bind]
        · rw [List.map_nil, List.append_nil]
          exact shown
    | cons entry rest =>
        refine ⟨committed, ?_, shows⟩
        rw [List.map_cons, List.isEmpty_cons, if_neg Bool.false_ne_true]
        rw [List.map_cons] at committedEq shows
        rw [committedEq, ok_bind, shows.getTip, ok_bind]

end WalTail.Sound

section Indexes

variable [BlockDecoding O] {indexes specIndexes : IndexStore} {exact : Prop}

/-- The indexes have seen some of the entries. When they are to be exact, the others lead
them to where they should be. -/
structure IndexesAt (tail : WalTail O) (exact : Prop) (specIndexes indexes : IndexStore)
    (done todo : List (ChainPoint × LedgerLog O)) : Prop where
  cursor : indexes.cursor = some (lastPoint tail.indexed done)
  ahead : exact → todo.foldlM replayIndex indexes = .ok specIndexes

omit [RawBlocks O] in
/-- Entries that lead the state somewhere can be indexed. -/
theorem exists_replayed {before after : LedgerView O} (path : Path Linked todo before after)
    (start : ChainPoint) (cursor : indexes.cursor = some (lastPoint start done)) :
    ∃ replayed, todo.foldlM replayIndex indexes = .ok replayed ∧
      replayed.cursor = some (lastPoint start (done ++ todo)) := by
  induction path generalizing indexes done with
  | nil =>
      refine ⟨indexes, rfl, ?_⟩
      rw [List.append_nil]
      exact cursor
  | @cons entry rest _ _ _ linked _ ih =>
      rcases linked.repeats.utxos with ⟨block, delta, blockEq, computed, -⟩
      have one : ∃ next, replayIndex indexes entry = .ok next := by
        rw [replayIndex, computeCatchupIndexes, blockEq]
        simp only [computed, ok_bind]
        exact ⟨_, rfl⟩
      rcases one with ⟨next, nextEq⟩
      have nextCursor : next.cursor = some (lastPoint start (done ++ [entry])) := by
        rw [cursor_of_replayIndex nextEq, lastPoint_concat]
      rcases ih nextCursor with ⟨replayed, restEq, replayedCursor⟩
      refine ⟨replayed, ?_, ?_⟩
      · rw [List.foldlM_cons, nextEq, ok_bind, restEq]
      · rw [replayedCursor, List.append_assoc, List.singleton_append]

theorem WalTail.Sound.catchUpIndexes (sound : tail.Sound (done ++ todo) spec)
    (stands : IndexesAt tail exact specIndexes indexes done todo) {log : LedgerLog O}
    (tip : spec.wal.findTip = some (target, log)) :
    ∃ caughtUp, Dolos.catchUpIndexes spec.wal indexes target = .ok caughtUp ∧
      IndexesAt tail exact specIndexes caughtUp (done ++ todo) [] := by
  rcases sound.exists_tip with ⟨target, log, sameTip, upTo, -, -⟩
  rcases Option.some.inj (tip.symm.trans sameTip) with ⟨rfl, rfl⟩
  have upToRight : ∀ entry ∈ todo, entry.1.intoBytes ≤ target.intoBytes :=
    fun entry member => upTo entry (List.mem_append_right _ member)
  have slotEq : indexes.cursor.map ChainPoint.slot = lastSlot (some tail.indexed.slot) done := by
    rw [stands.cursor]
    exact slot_lastPoint tail.indexed
  rw [Dolos.catchUpIndexes]
  split_ifs with atTarget
  · have nothing : todo = [] := by
      apply sound.indexes.nothing_left sound.ascending upToRight
      rw [← slotEq, stands.cursor, Option.map_some]
      rw [stands.cursor, Option.any_some] at atTarget
      exact congrArg some (ChainPoint.slot_eq_of_eq atTarget)
    subst nothing
    rw [List.append_nil]
    exact ⟨indexes, rfl, stands⟩
  · rcases sound.indexes.scan sound.ascending sound.walEq upToRight with
      ⟨older, logsEq, olderPassed, todoUnpassed⟩
    rcases Path.append_iff.mp sound.path with ⟨_, -, ahead⟩
    rcases exists_replayed ahead tail.indexed stands.cursor with ⟨replayed, replayedEq, cursorEq⟩
    refine ⟨replayed, ?_, cursorEq, ?_⟩
    · simp only [slotEq, logsEq]
      rw [replayIndexes_passed olderPassed, replayIndexes_unpassed todoUnpassed, replayedEq]
    · intro isExact
      rw [stands.ahead isExact] at replayedEq
      rw [Except.ok.inj replayedEq]
      rfl

end Indexes

end CatchUp

end Sound

end Dolos
