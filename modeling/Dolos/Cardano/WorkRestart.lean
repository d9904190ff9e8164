import Dolos.Cardano.WorkRun

/-!
# Restarting the work buffer

A node that restarts rebuilds its buffer from the state cursor alone. Genesis, a
roll and an Estart unit move the cursor when they commit; the reward update and
Ewrap leave it where it was. The units popped after the last cursor move are
therefore due again after a restart, and only those.
-/

namespace Dolos

open Outcome

variable {B : Type} [Block B]

namespace InternalWorkUnit

/-- The state cursor after a work unit has committed. -/
def cursor (previous : Option ChainPoint) : InternalWorkUnit B → Option ChainPoint
  | genesis => some .origin
  | blocks batch => some batch.lastPoint
  | estart slot => some (.slotOnly slot)
  | ewrap _ => previous
  | rupd _ => previous
  | forcedStop => previous

def cursorAfter (previous : Option ChainPoint) (units : List (InternalWorkUnit B)) :
    Option ChainPoint :=
  units.foldl cursor previous

def movesCursor : InternalWorkUnit B → Bool
  | genesis => true
  | blocks _ => true
  | estart _ => true
  | _ => false

/-- The units after the last one that moved the cursor. -/
def sinceCursor (units : List (InternalWorkUnit B)) : List (InternalWorkUnit B) :=
  units.rtakeWhile fun unit => !unit.movesCursor

end InternalWorkUnit

namespace WorkItem

def seen (previous : Option ℕ) : WorkItem B → Option ℕ
  | genesis => some 0
  | block b => some (Block.slot b)
  | estart slot => some slot
  | ewrap _ => previous
  | rupd _ => previous

def seenThrough (previous : Option ℕ) (items : List (WorkItem B)) : Option ℕ :=
  items.foldl seen previous

def movesCursor : WorkItem B → Bool
  | genesis => true
  | block _ => true
  | estart _ => true
  | _ => false

def sinceCursor (items : List (WorkItem B)) : List (WorkItem B) :=
  items.rtakeWhile fun item => !item.movesCursor

@[simp]
theorem seenThrough_concat (previous : Option ℕ) (items : List (WorkItem B))
    (item : WorkItem B) :
    seenThrough previous (items ++ [item]) = item.seen (seenThrough previous items) := by
  simp [seenThrough]

omit [Block B] in
@[simp]
theorem sinceCursor_concat (items : List (WorkItem B)) (item : WorkItem B) :
    sinceCursor (items ++ [item]) =
      if item.movesCursor then [] else sinceCursor items ++ [item] := by
  rw [sinceCursor, List.rtakeWhile_concat]
  cases item.movesCursor <;> rfl

omit [Block B] in
theorem sinceCursor_append_block (left right : List (WorkItem B)) (b : B) :
    sinceCursor (left ++ block b :: right) = sinceCursor right := by
  induction right using List.reverseRecOn with
  | nil => rw [sinceCursor_concat]; rfl
  | append_singleton right item ih =>
      rw [← List.cons_append, ← List.append_assoc, sinceCursor_concat, sinceCursor_concat, ih]

end WorkItem

namespace InternalWorkUnit

@[simp]
theorem cursorAfter_concat (previous : Option ChainPoint) (units : List (InternalWorkUnit B))
    (unit : InternalWorkUnit B) :
    cursorAfter previous (units ++ [unit]) = unit.cursor (cursorAfter previous units) := by
  simp [cursorAfter]

omit [Block B] in
@[simp]
theorem sinceCursor_concat (units : List (InternalWorkUnit B)) (unit : InternalWorkUnit B) :
    sinceCursor (units ++ [unit]) =
      if unit.movesCursor then [] else sinceCursor units ++ [unit] := by
  rw [sinceCursor, List.rtakeWhile_concat]
  cases unit.movesCursor <;> rfl

theorem slot_cursorAfter (previous : Option ChainPoint) (units : List (InternalWorkUnit B)) :
    (cursorAfter previous units).map ChainPoint.slot =
      WorkItem.seenThrough (previous.map ChainPoint.slot) (itemsOf units) := by
  induction units using List.reverseRecOn with
  | nil => rfl
  | append_singleton units unit ih =>
      rw [cursorAfter_concat, itemsOf_concat]
      cases unit with
      | blocks batch =>
          rw [items, batch.blocks_eq_concat, List.map_append, ← List.append_assoc,
            List.map_singleton, WorkItem.seenThrough_concat]
          rfl
      | genesis => simp [items, cursor, WorkItem.seen]
      | ewrap slot => simp [items, cursor, WorkItem.seen, ih]
      | estart slot => simp [items, cursor, WorkItem.seen]
      | rupd slot => simp [items, cursor, WorkItem.seen, ih]
      | forcedStop => simp [items, cursor, ih]

omit [Block B] in
theorem items_sinceCursor (units : List (InternalWorkUnit B)) :
    itemsOf (sinceCursor units) = WorkItem.sinceCursor (itemsOf units) := by
  induction units using List.reverseRecOn with
  | nil => rfl
  | append_singleton units unit ih =>
      rw [sinceCursor_concat, itemsOf_concat]
      cases unit with
      | blocks batch =>
          rw [items, batch.blocks_eq_concat, List.map_append, ← List.append_assoc,
            List.map_singleton, WorkItem.sinceCursor_concat]
          rfl
      | genesis => simp [items, movesCursor, WorkItem.movesCursor, itemsOf]
      | estart slot => simp [items, movesCursor, WorkItem.movesCursor, itemsOf]
      | ewrap slot => simp [items, movesCursor, WorkItem.movesCursor, ih]
      | rupd slot => simp [items, movesCursor, WorkItem.movesCursor, ih]
      | forcedStop => simp [items, movesCursor, ih]

end InternalWorkUnit

section Resume

variable (eras : ChainSummary) (stabilityWindow : ℕ)

omit [Block B] in
/-- Between two slots lie an epoch boundary, a reward-update boundary or nothing. -/
theorem crossing_cases {eras : ChainSummary} {stabilityWindow prevSlot nextSlot : ℕ}
    {items : List (WorkItem B)}
    (crossed : crossing eras stabilityWindow prevSlot nextSlot = .ok items) :
    items = [] ∨ items = [.rupd nextSlot] ∨ items = [.ewrap nextSlot, .estart nextSlot] := by
  rcases bind_eq_ok.mp crossed with ⟨epoch, _, rest⟩
  cases epoch with
  | some epoch => simp_all
  | none =>
      rcases bind_eq_ok.mp rest with ⟨rupd, _, rest⟩
      cases rupd with
      | some rupd => simp_all
      | none => simp_all

omit [Block B] in
theorem crossing_self {eras : ChainSummary} {stabilityWindow slot : ℕ}
    (continuous : eras.Continuous) :
    crossing (B := B) eras stabilityWindow slot slot = .ok [] := by
  rcases exists_epochBoundary continuous slot slot with ⟨epoch, epochEq⟩
  rcases exists_rupdBoundary continuous stabilityWindow slot slot with ⟨rupd, rupdEq⟩
  have epochNone := epochBoundary_self epochEq
  have rupdNone := rupdBoundary_self rupdEq
  subst epochNone rupdNone
  simp [crossing, epochEq, rupdEq]

/-- After genesis alone the cursor is the origin, so the first block is classified
once more, against slot zero. -/
def reclassified (seen : Option ℕ) (popped : List (WorkItem B)) (remaining : List B) :
    Except Panic (List (WorkItem B)) :=
  match seen, popped, remaining with
  | none, [.genesis], block :: _ => crossing eras stabilityWindow 0 (Block.slot block)
  | _, _, _ => .ok []

theorem reclassified_some (slot : ℕ) (popped : List (WorkItem B)) (remaining : List B) :
    reclassified eras stabilityWindow (some slot) popped remaining = .ok [] := rfl

variable {eras stabilityWindow}

/-- The part of the schedule before its first block, cut anywhere: what remains is
what a buffer restarted at the cut would schedule. -/
theorem schedule_resume_preamble (continuous : eras.Continuous) {seen : Option ℕ} {block : B}
    {rest : List B} {left right after : List (WorkItem B)}
    (before : preamble eras stabilityWindow seen block = .ok (left ++ right))
    (later : schedule eras stabilityWindow (some (Block.slot block)) rest = .ok after) :
    ∃ again, reclassified eras stabilityWindow seen left (block :: rest) = .ok again ∧
      schedule eras stabilityWindow (WorkItem.seenThrough seen left) (block :: rest) =
        .ok (again ++ WorkItem.sinceCursor left ++ (right ++ .block block :: after)) := by
  cases left with
  | nil =>
      refine ⟨[], ?_, ?_⟩
      · cases seen <;> rfl
      · simp only [List.nil_append] at before
        simp [WorkItem.seenThrough, WorkItem.sinceCursor, schedule, before, later]
  | cons item left =>
      cases seen with
      | none =>
          simp only [preamble, Except.ok.injEq, List.cons_append, List.cons.injEq] at before
          rcases before with ⟨rfl, tail⟩
          rcases List.append_eq_nil_iff.mp tail.symm with ⟨rfl, rfl⟩
          rcases exists_crossing (B := B) eras stabilityWindow continuous 0 (Block.slot block)
            with ⟨again, crossed⟩
          refine ⟨again, crossed, ?_⟩
          simp [WorkItem.seenThrough, WorkItem.seen, WorkItem.sinceCursor,
            WorkItem.movesCursor, List.rtakeWhile, schedule, preamble, crossed, later]
      | some slot =>
          refine ⟨[], rfl, ?_⟩
          have crossed := before
          simp only [preamble] at crossed
          rcases crossing_cases crossed with shape | shape | shape
          · simp at shape
          · rcases List.cons_eq_cons.mp shape with ⟨rfl, tail⟩
            rcases List.append_eq_nil_iff.mp tail with ⟨rfl, rfl⟩
            simp_all [WorkItem.seenThrough, WorkItem.seen, WorkItem.sinceCursor,
              WorkItem.movesCursor, List.rtakeWhile, schedule]
          · rw [List.cons_append, List.cons_eq_cons] at shape
            rcases shape with ⟨rfl, tail⟩
            cases left with
            | nil =>
                simp_all [WorkItem.seenThrough, WorkItem.seen, WorkItem.sinceCursor,
                  WorkItem.movesCursor, List.rtakeWhile, schedule]
            | cons second left =>
                rw [List.cons_append, List.cons_eq_cons] at tail
                rcases tail with ⟨rfl, tail⟩
                rcases List.append_eq_nil_iff.mp tail with ⟨rfl, rfl⟩
                simp [WorkItem.seenThrough, WorkItem.seen, WorkItem.sinceCursor,
                  WorkItem.movesCursor, List.rtakeWhile, schedule, preamble, later,
                  crossing_self continuous]

theorem blocksOf_preamble {seen : Option ℕ} {block : B} {items : List (WorkItem B)}
    (before : preamble eras stabilityWindow seen block = .ok items) :
    WorkItem.blocksOf items = [] := by
  cases seen with
  | none =>
      simp only [preamble, Except.ok.injEq] at before
      subst items
      rfl
  | some slot =>
      rcases crossing_cases before with rfl | rfl | rfl
      · rfl
      · rfl
      · rfl

/-- The schedule cut anywhere: the blocks not yet popped, scheduled from the slot
the cut left behind, are due together with what followed the last cursor move. -/
theorem schedule_resume (continuous : eras.Continuous) {seen : Option ℕ} {blocks : List B}
    {left right : List (WorkItem B)}
    (scheduled : schedule eras stabilityWindow seen blocks = .ok (left ++ right)) :
    ∃ again, reclassified eras stabilityWindow seen left
        (blocks.drop (WorkItem.blocksOf left).length) = .ok again ∧
      schedule eras stabilityWindow (WorkItem.seenThrough seen left)
          (blocks.drop (WorkItem.blocksOf left).length) =
        .ok (again ++ WorkItem.sinceCursor left ++ right) := by
  induction blocks generalizing seen left with
  | nil =>
      simp only [schedule, Except.ok.injEq] at scheduled
      rcases List.append_eq_nil_iff.mp scheduled.symm with ⟨rfl, rfl⟩
      refine ⟨[], ?_, rfl⟩
      cases seen <;> rfl
  | cons block rest ih =>
      rcases bind_eq_ok.mp scheduled with ⟨before, beforeEq, scheduledRest⟩
      rcases bind_eq_ok.mp scheduledRest with ⟨after, afterEq, traceEq⟩
      simp only [Except.ok.injEq] at traceEq
      have noBlocks := blocksOf_preamble beforeEq
      rcases List.append_eq_append_iff.mp traceEq with
        ⟨tail, leftEq, tailEq⟩ | ⟨tail, beforeSplit, rightEq⟩
      · cases tail with
        | nil =>
            simp only [List.append_nil] at leftEq
            subst left
            simp only [List.nil_append] at tailEq
            subst right
            rw [noBlocks]
            rw [← List.append_nil before] at beforeEq
            exact schedule_resume_preamble continuous beforeEq afterEq
        | cons item tail =>
            rw [List.cons_append, List.cons_eq_cons] at tailEq
            rcases tailEq with ⟨rfl, afterSplit⟩
            subst left
            rw [afterSplit] at afterEq
            rcases ih afterEq with ⟨again, againEq, resumed⟩
            rw [reclassified_some, Except.ok.injEq] at againEq
            subst again
            refine ⟨[], ?_, ?_⟩
            · cases seen with
              | some slot => rfl
              | none =>
                  simp only [preamble, Except.ok.injEq] at beforeEq
                  subst before
                  rfl
            · have seenEq : WorkItem.seenThrough seen (before ++ .block block :: tail) =
                  WorkItem.seenThrough (some (Block.slot block)) tail := by
                simp [WorkItem.seenThrough, WorkItem.seen]
              have countEq : (WorkItem.blocksOf (before ++ .block block :: tail)).length =
                  (WorkItem.blocksOf tail).length + 1 := by
                rw [WorkItem.blocksOf_append, noBlocks]
                simp [WorkItem.blocksOf, WorkItem.block?]
              rw [seenEq, countEq, WorkItem.sinceCursor_append_block, List.drop_succ_cons]
              exact resumed
      · subst right
        rw [beforeSplit] at beforeEq noBlocks
        have leftBlocks : WorkItem.blocksOf left = [] := by
          rw [WorkItem.blocksOf_append] at noBlocks
          exact (List.append_eq_nil_iff.mp noBlocks).1
        rw [leftBlocks]
        exact schedule_resume_preamble continuous beforeEq afterEq

/-- A schedule holds its blocks once each, in order. -/
theorem blocksOf_schedule {seen : Option ℕ} {blocks : List B} {trace : List (WorkItem B)}
    (scheduled : schedule eras stabilityWindow seen blocks = .ok trace) :
    WorkItem.blocksOf trace = blocks := by
  induction blocks generalizing seen trace with
  | nil =>
      simp only [schedule, Except.ok.injEq] at scheduled
      subst trace
      rfl
  | cons block rest ih =>
      rcases bind_eq_ok.mp scheduled with ⟨before, beforeEq, scheduledRest⟩
      rcases bind_eq_ok.mp scheduledRest with ⟨after, afterEq, traceEq⟩
      simp only [Except.ok.injEq] at traceEq
      subst trace
      rw [WorkItem.blocksOf_append, blocksOf_preamble beforeEq, List.nil_append]
      simpa [WorkItem.blocksOf, WorkItem.block?] using ih afterEq

/-- Two consecutive blocks of a schedule, with what lies between them. -/
theorem schedule_between {seen : Option ℕ} {earlier later : List B} {first second : B}
    {trace : List (WorkItem B)}
    (scheduled : schedule eras stabilityWindow seen (earlier ++ first :: second :: later) =
      .ok trace) :
    ∃ before between after,
      trace = before ++ .block first :: between ++ .block second :: after ∧
      WorkItem.blocksOf before = earlier ∧ WorkItem.blocksOf after = later ∧
      crossing eras stabilityWindow (Block.slot first) (Block.slot second) = .ok between := by
  rw [schedule_append] at scheduled
  rcases bind_eq_ok.mp scheduled with ⟨head, headEq, scheduledTail⟩
  rcases bind_eq_ok.mp scheduledTail with ⟨tail, tailEq, traceEq⟩
  rcases bind_eq_ok.mp tailEq with ⟨before, beforeEq, tailEq⟩
  rcases bind_eq_ok.mp tailEq with ⟨rest, restEq, tailEq⟩
  rcases bind_eq_ok.mp restEq with ⟨between, betweenEq, restEq⟩
  rcases bind_eq_ok.mp restEq with ⟨after, afterEq, restEq⟩
  simp only [Except.ok.injEq] at traceEq tailEq restEq
  subst trace tail rest
  refine ⟨head ++ before, between, after, by simp, ?_, blocksOf_schedule afterEq, betweenEq⟩
  rw [WorkItem.blocksOf_append, blocksOf_schedule headEq, blocksOf_preamble beforeEq,
    List.append_nil]

omit [Block B] in
/-- Blocks of different epochs have the two halves of the boundary between them,
blocks of one epoch at most a reward update. -/
theorem crossing_of_epochs {prevSlot nextSlot : ℕ} {prev next : ℕ × ℕ}
    {items : List (WorkItem B)}
    (prevEq : eras.slotEpoch prevSlot = .ok prev) (nextEq : eras.slotEpoch nextSlot = .ok next)
    (crossed : crossing eras stabilityWindow prevSlot nextSlot = .ok items) :
    (prev.1 ≠ next.1 → items = [.ewrap nextSlot, .estart nextSlot]) ∧
      (prev.1 = next.1 → items = [] ∨ items = [.rupd nextSlot]) := by
  rcases bind_eq_ok.mp crossed with ⟨epoch, epochEq, rest⟩
  have different := epochBoundary_isSome_iff prevEq nextEq epochEq
  cases epoch with
  | some epoch =>
      simp only [Except.ok.injEq] at rest
      subst items
      simp only [Option.isSome_some, true_iff] at different
      exact ⟨fun _ => rfl, fun same => absurd same different⟩
  | none =>
      simp only [Option.isSome_none, Bool.false_eq_true, false_iff, not_not] at different
      refine ⟨fun differ => absurd different differ, fun _ => ?_⟩
      rcases bind_eq_ok.mp rest with ⟨rupd, _, rest⟩
      cases rupd with
      | some rupd => simp_all
      | none => simp_all

end Resume

namespace WorkRun

variable {eras : ChainSummary}

/-- The run law. Started from a cursor, with any blocks offered and any order of
drains: the received blocks are popped once each and in order; between two
consecutive blocks stand exactly one Ewrap and one Estart when their epochs differ
and neither when they do not; and a buffer restarted from the cursor after any
prefix of the popped units, given the blocks not yet popped, pops the units
popped since that cursor was reached and then exactly the remaining ones. -/
theorem workBuffer_run_law (continuous : eras.Continuous) (stabilityWindow : ℕ)
    (stopEpoch : Option ℕ) (cursor : Option ChainPoint) (actions : List (WorkAction B)) :
    ∃ run, (start cursor).execute eras stabilityWindow stopEpoch actions = .ok run ∧
      WorkItem.blocksOf run.trace = run.received ∧
      ((run.buffer.popWork stopEpoch).1 = none →
        run.trace = InternalWorkUnit.itemsOf run.units) ∧
      (∀ earlier first second later prev next,
        run.received = earlier ++ first :: second :: later →
        eras.slotEpoch (Block.slot first) = .ok prev →
        eras.slotEpoch (Block.slot second) = .ok next →
        ∃ before between after,
          run.trace = before ++ .block first :: between ++ .block second :: after ∧
          WorkItem.blocksOf before = earlier ∧ WorkItem.blocksOf after = later ∧
          (prev.1 ≠ next.1 →
            between = [.ewrap (Block.slot second), .estart (Block.slot second)]) ∧
          (prev.1 = next.1 → between = [] ∨ between = [.rupd (Block.slot second)])) ∧
      (∀ popped remaining laterActions resumed,
        run.units = popped ++ remaining →
        (start (InternalWorkUnit.cursorAfter cursor popped)).execute eras stabilityWindow
          stopEpoch laterActions = .ok resumed →
        resumed.received = run.received.drop
          (WorkItem.blocksOf (InternalWorkUnit.itemsOf popped)).length →
        ∃ again,
          reclassified eras stabilityWindow (cursor.map ChainPoint.slot)
            (InternalWorkUnit.itemsOf popped) resumed.received = .ok again ∧
          resumed.trace = again ++
            InternalWorkUnit.itemsOf (InternalWorkUnit.sinceCursor popped) ++
            InternalWorkUnit.itemsOf remaining ++ run.buffer.pending) := by
  rcases onSchedule_execute stopEpoch continuous
    (onSchedule_start eras stabilityWindow cursor) actions with ⟨run, runEq, onSchedule⟩
  have scheduled := onSchedule.scheduled
  refine ⟨run, runEq, blocksOf_schedule scheduled, ?_, ?_, ?_⟩
  · intro drained
    cases held : run.buffer <;> simp_all [trace, WorkBuffer.popWork, WorkBuffer.pending]
  · intro earlier first second later prev next received prevEq nextEq
    rw [received] at scheduled
    rcases schedule_between scheduled with ⟨before, between, after, split, head, tail, crossed⟩
    have shape := crossing_of_epochs prevEq nextEq crossed
    exact ⟨before, between, after, split, head, tail, shape.1, shape.2⟩
  · intro popped remaining laterActions resumed unitsEq resumedEq receivedEq
    rcases onSchedule_execute stopEpoch continuous
      (onSchedule_start eras stabilityWindow (InternalWorkUnit.cursorAfter cursor popped))
      laterActions with ⟨other, otherEq, otherSchedule⟩
    rw [resumedEq, Except.ok.injEq] at otherEq
    subst other
    rw [trace, unitsEq, InternalWorkUnit.itemsOf_append, List.append_assoc] at scheduled
    rcases schedule_resume continuous scheduled with ⟨again, againEq, resumedSchedule⟩
    rw [← receivedEq] at againEq resumedSchedule
    refine ⟨again, againEq, ?_⟩
    have resumedTrace := otherSchedule.scheduled
    rw [InternalWorkUnit.slot_cursorAfter, resumedSchedule, Except.ok.injEq] at resumedTrace
    rw [← resumedTrace, InternalWorkUnit.items_sinceCursor]
    simp

/-- One era of hundred-slot epochs, open at the end. -/
def hundredSlotEra : ChainSummary :=
  ChainSummary.default.appendEra 7
    { start := ⟨0, 0, 0⟩, «end» := none, epochLength := 100, slotLength := 1, protocol := 7 }

theorem hundredSlotEra_continuous : hundredSlotEra.Continuous :=
  ⟨_, rfl, rfl, rfl, by decide⟩

def crossingBlocks : List BlockHeader := [⟨10, 1⟩, ⟨30, 2⟩, ⟨50, 3⟩, ⟨110, 4⟩]

/-- Offer every block, popping four times after each, then pop `extra` times more. -/
def offerAll (blocks : List BlockHeader) (extra : ℕ) : List (WorkAction BlockHeader) :=
  blocks.flatMap (fun block => [.receive block, .pop, .pop, .pop, .pop]) ++
    List.replicate extra .pop

theorem workBuffer_run_law_crossing :
    ∃ run, (start (some (.slotOnly 5))).execute hundredSlotEra 40 none
        (offerAll crossingBlocks 2) = .ok run ∧
      WorkItem.blocksOf run.trace = run.received ∧ run.received = crossingBlocks := by
  rcases workBuffer_run_law hundredSlotEra_continuous 40 none (some (.slotOnly 5))
    (offerAll crossingBlocks 2) with ⟨run, runEq, blocksEq, _⟩
  refine ⟨run, runEq, blocksEq, ?_⟩
  have received : ((start (some (.slotOnly 5))).execute hundredSlotEra 40 none
      (offerAll crossingBlocks 2)).map WorkRun.received = .ok crossingBlocks := rfl
  rw [runEq] at received
  simpa [Except.map] using received

/-- A node stopped after the reward update has its cursor before it: restarted,
it pops the reward update again, although that unit is not among the remaining. -/
theorem restart_repeats_rupd :
    ∃ (run resumed : WorkRun BlockHeader) (popped remaining : List (InternalWorkUnit BlockHeader)),
      (start (some (.slotOnly 5))).execute hundredSlotEra 40 none
        [.receive ⟨10, 1⟩, .receive ⟨50, 2⟩, .pop, .pop, .pop] = .ok run ∧
      run.units = popped ++ remaining ∧
      (start (InternalWorkUnit.cursorAfter (some (.slotOnly 5)) popped)).execute
        hundredSlotEra 40 none [.receive ⟨50, 2⟩, .pop, .pop] = .ok resumed ∧
      resumed.received = run.received.drop
        (WorkItem.blocksOf (InternalWorkUnit.itemsOf popped)).length ∧
      resumed.units ≠ remaining := by
  refine ⟨⟨.restart (.specific 50 2),
      [.blocks (.forSingleBlock ⟨10, 1⟩), .rupd 50, .blocks (.forSingleBlock ⟨50, 2⟩)],
      [⟨10, 1⟩, ⟨50, 2⟩]⟩,
    ⟨.restart (.specific 50 2), [.rupd 50, .blocks (.forSingleBlock ⟨50, 2⟩)], [⟨50, 2⟩]⟩,
    [.blocks (.forSingleBlock ⟨10, 1⟩), .rupd 50], [.blocks (.forSingleBlock ⟨50, 2⟩)],
    rfl, rfl, rfl, rfl, ?_⟩
  simp

end WorkRun

end Dolos
