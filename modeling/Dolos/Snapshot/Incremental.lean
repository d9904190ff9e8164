import Dolos.Snapshot.PublishLaw

/-!
# Runs of publishes

What was published of a closed window is what its window holds, in every state a run
reaches over events that are harmless. The rows of a boundary go under epochs that no
earlier boundary has written, except that the first two both write the accounts of
epoch 0.
-/

namespace Dolos.Snapshot

open Outcome

variable {V O D : Type}

namespace Schedule

variable (schedule : Schedule)

theorem mono : StrictMono schedule.starts := strictMono_nat_of_lt_succ schedule.rises

variable {schedule}

theorem contains_fullWindow {epoch slot : ℕ} :
    (schedule.fullWindow epoch).Contains slot ↔
      schedule.starts epoch ≤ slot ∧ slot < schedule.starts (epoch + 1) := by
  have rises := schedule.rises epoch
  simp only [EpochWindow.Contains, EpochWindow.slots, fullWindow]
  omega

/-- A window holds the first slot of its own epoch only. -/
theorem eq_of_contains_start {epoch other : ℕ}
    (inside : (schedule.fullWindow epoch).Contains (schedule.starts other)) : other = epoch := by
  rw [contains_fullWindow] at inside
  have notBelow := schedule.mono.le_iff_le.mp inside.1
  have notAbove := schedule.mono.lt_iff_lt.mp inside.2
  omega

end Schedule

/-- A layer of logs that is made has a row. -/
theorem exists_row_of_writeLogs {writer : SteleWriter V O D} {decode : Bytes → Option BlockHash}
    {node : Node V O} {magic : ℕ} {ns : LogNs} {window : EpochWindow}
    {layer : LayerDescriptor D}
    (made : writeLogs writer (node.stores decode) .first magic ns window = .ok (some layer)) :
    ∃ key, window.Contains (ofLex key).1 ∧ ((node.logs.rows ns).get? key).isSome := by
  rcases bind_eq_ok.mp made with ⟨inherited, inheritedEq, made⟩
  rcases Except.ok.inj inheritedEq with rfl
  rcases bind_eq_ok.mp made with ⟨filled, filledEq, made⟩
  rw [Node.iterLogs_stores] at filledEq
  cases held : ((node.logs.rows ns).filter fun key _ => window.Contains (ofLex key).1).entries with
  | nil =>
      rw [held] at filledEq
      rcases Except.ok.inj filledEq with rfl
      cases made
  | cons entry rest =>
      have isHeld : entry ∈ ((node.logs.rows ns).filter fun key _ =>
          window.Contains (ofLex key).1).entries := by
        rw [held]
        exact List.mem_cons_self
      have found := OrderedMap.mem_entries_iff.mp isHeld
      rw [OrderedMap.get?_filter, Option.filter_eq_some_iff] at found
      exact ⟨entry.1, of_decide_eq_true found.2, Option.isSome_of_eq_some found.1⟩

namespace Publisher

variable (writer : SteleWriter V O D) (decode : Bytes → Option BlockHash) (schedule : Schedule)
  (magic : ℕ)

/-- Which rows there can be, and that what is published of a closed window is current. -/
structure Sound (publisher : Publisher V O D) : Prop where
  accounts : ∀ key, ((publisher.node.logs.rows .accountEpochs).get? key).isSome →
    ∃ closed < publisher.number, (ofLex key).1 = schedule.starts (closed - 1)
  epochs : ∀ key, ((publisher.node.logs.rows .epochs).get? key).isSome →
    ∃ closed < publisher.number, (ofLex key).1 = schedule.starts closed
  stakes : ∀ key, ((publisher.node.logs.rows .stakes).get? key).isSome →
    ∃ epoch, (ofLex key).1 = schedule.starts epoch
  cursor : ∀ published ∈ publisher.last, published.cursor.slot ≤ publisher.node.cursorSlot
  inScope : ∀ published ∈ publisher.last, ∀ layer ∈ published.layers, layer.kind.isEpoch →
    ∃ window, layer.scope = .epoch window ∧ window.epoch ≤ published.sequence
  closed : ∀ published ∈ publisher.last, ∀ layer ∈ published.layers, layer.kind.isEpoch →
    ∀ epoch, layer.scope = .epoch (schedule.fullWindow epoch) →
      schedule.starts (epoch + 1) ≤ published.cursor.slot + 1
  current : ∀ published ∈ publisher.last, ∀ layer ∈ published.layers, layer.kind.isEpoch →
    ∀ epoch, layer.scope = .epoch (schedule.fullWindow epoch) →
      freshLayer writer (publisher.node.stores decode) magic (schedule.fullWindow epoch)
        layer.kind = .ok (some layer)

variable {writer decode schedule magic} {publisher : Publisher V O D} {kind : LayerKind}
  {epoch : ℕ}

/-- The slots of a window that is listed are closed, and not after the cursor. -/
theorem Sound.closed_of_listed (sound : Sound writer decode schedule magic publisher)
    (isEpoch : kind.isEpoch) (listed : publisher.Listed schedule kind epoch) {slot : ℕ}
    (inside : (schedule.fullWindow epoch).Contains slot) :
    publisher.Closed schedule slot ∧ ∃ published ∈ publisher.last,
      schedule.starts (epoch + 1) ≤ published.cursor.slot + 1 := by
  rcases listed with ⟨published, isLast, layer, isIn, rfl, isScope⟩
  have ends := sound.closed published isLast layer isIn isEpoch epoch isScope
  exact ⟨⟨published, isLast, epoch + 1, (Schedule.contains_fullWindow.mp inside).2, ends⟩,
    published, isLast, ends⟩

/-- A log layer that is listed has a row in its window. -/
theorem Sound.exists_row (sound : Sound writer decode schedule magic publisher) {ns : LogNs}
    (listed : publisher.Listed schedule (.log ns) epoch) :
    ∃ key, (schedule.fullWindow epoch).Contains (ofLex key).1 ∧
      ((publisher.node.logs.rows ns).get? key).isSome := by
  rcases listed with ⟨published, isLast, layer, isIn, isKind, isScope⟩
  have isEpoch : layer.kind.isEpoch := by
    rw [isKind]
    rfl
  have current := sound.current published isLast layer isIn isEpoch epoch isScope
  rw [isKind] at current
  exact exists_row_of_writeLogs current

/-- Every row is under the first slot of an epoch. -/
theorem Sound.exists_start (sound : Sound writer decode schedule magic publisher) {ns : LogNs}
    {key : LogKey} (held : ((publisher.node.logs.rows ns).get? key).isSome) :
    ∃ other, (ofLex key).1 = schedule.starts other := by
  cases ns with
  | accountEpochs =>
      rcases sound.accounts key held with ⟨closed, -, isStart⟩
      exact ⟨closed - 1, isStart⟩
  | epochs =>
      rcases sound.epochs key held with ⟨closed, -, isStart⟩
      exact ⟨closed, isStart⟩
  | stakes => exact sound.stakes key held

variable [KeyHashing]

section Events

variable (sound : Sound writer decode schedule magic publisher) (isEpoch : kind.isEpoch)
  (listed : publisher.Listed schedule kind epoch)

include sound isEpoch listed

/-- A block does not touch a listed window. -/
theorem Sound.sameIn_roll {block : ChainBlock} (comes : publisher.Comes (.roll block))
    (harmless : publisher.Harmless schedule (.roll block)) :
    (publisher.node.after schedule publisher.number (.roll block)).SameIn publisher.node
      (schedule.fullWindow epoch) kind := by
  have outside : ¬ (schedule.fullWindow epoch).Contains block.slot := by
    intro inside
    rcases sound.closed_of_listed isEpoch listed inside with ⟨closed, published, isLast, ends⟩
    have before := (Schedule.contains_fullWindow.mp inside).2
    have reached := sound.cursor published isLast
    have notBack : publisher.node.cursorSlot ≤ block.slot := comes
    have shared : publisher.node.cursorSlot = block.slot := by omega
    rw [← shared] at closed
    have later := harmless.1 closed
    omega
  cases kind with
  | blocks =>
      change (storeOnce Prod.fst publisher.node.blocks (block.slot, block.body)).filter _ = _
      rw [storeOnce]
      split_ifs
      · rfl
      · rw [List.filter_append, List.filter_cons_of_neg (by simpa using outside),
          ← List.filter_append, List.takeWhile_append_dropWhile]
  | indexes =>
      refine ⟨?_, ?_⟩
      · intro tag inside
        change tag ∈ Writes.insertEach publisher.node.indexes.archiveTags
          block.index.archiveTags ↔ _
        rw [Writes.mem_insertEach]
        constructor
        · rintro (isNew | held)
          · rcases List.mem_filterMap.mp isNew with ⟨source, -, sourceEq⟩
            rcases Option.map_eq_some_iff.mp sourceEq with ⟨hash, -, rfl⟩
            exact absurd inside outside
          · exact held
        · exact Or.inr
      · intro key slot inside
        have closed := (sound.closed_of_listed isEpoch listed inside).1
        change (IndexStore.insertExact publisher.node.indexes.exact block.index).get? key =
          some slot ↔ _
        rw [IndexStore.get?_insertExact, Writes.setEach_apply]
        split_ifs with isKey
        · constructor
          · intro same
            rw [← Option.some.inj same] at inside
            exact absurd inside outside
          · intro held
            exact absurd closed (harmless.2 key isKey slot held)
        · exact Iff.rfl
  | log ns => exact fun _ _ => rfl
  | state ns => trivial
  | digests => trivial

/-- A rollback does not touch a listed window. -/
theorem Sound.sameIn_rollback {target : ChainPoint} (comes : publisher.Comes (.rollback target))
    (harmless : publisher.Harmless schedule (.rollback target)) :
    (publisher.node.after schedule publisher.number (.rollback target)).SameIn publisher.node
      (schedule.fullWindow epoch) kind := by
  have notAfter : ∀ slot, (schedule.fullWindow epoch).Contains slot → slot ≤ target.slot := by
    intro slot inside
    rcases sound.closed_of_listed isEpoch listed inside with ⟨-, published, isLast, ends⟩
    have above := comes published isLast
    have before := (Schedule.contains_fullWindow.mp inside).2
    omega
  cases kind with
  | blocks =>
      change (publisher.node.blocks.filter _).filter _ = _
      rw [List.filter_filter]
      apply List.filter_congr
      intro block _
      by_cases inside : (schedule.fullWindow epoch).Contains block.1
      · simp [inside, notAfter block.1 inside]
      · simp [inside]
  | indexes => exact ⟨fun _ _ => Iff.rfl, fun _ _ _ => Iff.rfl⟩
  | log ns =>
      intro key inside
      change ((publisher.node.logs.removeAfter target.slot).rows ns).get? key = _
      rw [LogTables.get?_removeAfter]
      split_ifs with early
      · rfl
      · cases found : (publisher.node.logs.rows ns).get? key with
        | none => rfl
        | some value =>
            -- A row at the slot of the target is at the start of a window that ends there.
            rcases sound.exists_start (Option.isSome_of_eq_some found) with ⟨other, isStart⟩
            have below := notAfter _ inside
            have atTarget : schedule.starts other = target.slot := by omega
            rw [isStart] at inside
            have same := Schedule.eq_of_contains_start inside
            rcases sound.closed_of_listed isEpoch listed inside with ⟨-, published, isLast, ends⟩
            have above := comes published isLast
            have rises := schedule.rises other
            rw [← same] at ends
            exact absurd (by omega) (harmless other atTarget)
  | state ns => trivial
  | digests => trivial

/-- A boundary does not touch a listed window. -/
theorem Sound.sameIn_boundary {slot : ℕ} {accounts : List (EntityKey × V)} {row : V}
    (harmless : publisher.Harmless schedule (.boundary slot accounts row)) :
    (publisher.node.after schedule publisher.number (.boundary slot accounts row)).SameIn
      publisher.node (schedule.fullWindow epoch) kind := by
  cases kind with
  | blocks => rfl
  | indexes => exact ⟨fun _ _ => Iff.rfl, fun _ _ _ => Iff.rfl⟩
  | log ns =>
      intro key inside
      change (((publisher.node.logs.writeRows .accountEpochs
        (schedule.starts (publisher.number - 1)) accounts).writeLog .epochs
          (logKeyOf (schedule.starts publisher.number)) row).rows ns).get? key = _
      rcases sound.exists_row listed with ⟨held, heldInside, isHeld⟩
      rw [LogTables.get?_writeLog, if_neg]
      · by_cases elsewhere : ns = .accountEpochs →
          (ofLex key).1 ≠ schedule.starts (publisher.number - 1)
        · exact LogTables.get?_writeRows_of_ne _ accounts elsewhere
        · push Not at elsewhere
          rcases elsewhere with ⟨rfl, atStart⟩
          -- Two boundaries write to one window: those that close epochs 0 and 1.
          rcases sound.accounts held isHeld with ⟨closed, before, heldStart⟩
          rw [heldStart] at heldInside
          rw [atStart] at inside
          have first := Schedule.eq_of_contains_start heldInside
          have second := Schedule.eq_of_contains_start inside
          have isOne : publisher.number = 1 := by omega
          have isZero : epoch = 0 := by omega
          subst isZero
          have there := harmless isOne listed
          rw [LogTables.writeRows_of_held]
          intro row member
          rw [isOne]
          exact there row member
      · rintro ⟨rfl, rfl⟩
        rcases sound.epochs held isHeld with ⟨closed, before, heldStart⟩
        rw [heldStart] at heldInside
        have first := Schedule.eq_of_contains_start heldInside
        have second : publisher.number = epoch := Schedule.eq_of_contains_start inside
        omega
  | state ns => trivial
  | digests => trivial

omit sound isEpoch in
/-- A reward update does not touch a listed window. -/
theorem sameIn_rewardUpdate {pools : List (EntityKey × V)}
    (harmless : publisher.Harmless schedule (.rewardUpdate pools)) :
    (publisher.node.after schedule publisher.number (.rewardUpdate pools)).SameIn
      publisher.node (schedule.fullWindow epoch) kind := by
  cases found : schedule.performanceEpoch publisher.number with
  | none =>
      simp only [Node.after, found]
      cases kind with
      | blocks => rfl
      | indexes => exact ⟨fun _ _ => Iff.rfl, fun _ _ _ => Iff.rfl⟩
      | log ns => exact fun _ _ => rfl
      | state ns => trivial
      | digests => trivial
  | some performance =>
      simp only [Node.after, found]
      cases kind with
      | blocks => rfl
      | indexes => exact ⟨fun _ _ => Iff.rfl, fun _ _ _ => Iff.rfl⟩
      | log ns =>
          intro key inside
          by_cases elsewhere : ns = .stakes → (ofLex key).1 ≠ schedule.starts performance
          · exact LogTables.get?_writeRows_of_ne _ pools elsewhere
          · push Not at elsewhere
            rcases elsewhere with ⟨rfl, atStart⟩
            rw [atStart] at inside
            have same := Schedule.eq_of_contains_start inside
            rw [← same] at listed
            rw [LogTables.writeRows_of_held (harmless performance found listed)]
      | state ns => trivial
      | digests => trivial

/-- No harmless event touches a window that is listed. -/
theorem Sound.sameIn_after {event : ChainEvent V} (comes : publisher.Comes event)
    (harmless : publisher.Harmless schedule event) :
    (publisher.node.after schedule publisher.number event).SameIn publisher.node
      (schedule.fullWindow epoch) kind := by
  cases event with
  | roll block => exact sound.sameIn_roll isEpoch listed comes harmless
  | rollback target => exact sound.sameIn_rollback isEpoch listed comes harmless
  | boundary slot accounts row => exact sound.sameIn_boundary isEpoch listed harmless
  | rewardUpdate pools => exact sameIn_rewardUpdate listed harmless

end Events

omit [KeyHashing] in
theorem sameIn_of_sameEpochs {first second : Node V O} (same : first.SameEpochs second)
    (window : EpochWindow) (kind : LayerKind) : first.SameIn second window kind := by
  cases kind with
  | blocks => simp only [Node.SameIn, same.blocks]
  | indexes => simp only [Node.SameIn, same.archiveTags, same.exact, implies_true, and_self]
  | log ns => simp only [Node.SameIn, same.logs, implies_true]
  | state ns => trivial
  | digests => trivial

/-- The rows there can be after an event. -/
theorem Sound.rows_after (sound : Sound writer decode schedule magic publisher)
    (event : ChainEvent V) {logs : LogTables V}
    (logsEq : logs = (publisher.node.after schedule publisher.number event).logs) :
    (∀ key, ((logs.rows .accountEpochs).get? key).isSome →
      ∃ closed < event.number publisher.number, (ofLex key).1 = schedule.starts (closed - 1)) ∧
    (∀ key, ((logs.rows .epochs).get? key).isSome →
      ∃ closed < event.number publisher.number, (ofLex key).1 = schedule.starts closed) ∧
    ∀ key, ((logs.rows .stakes).get? key).isSome →
      ∃ epoch, (ofLex key).1 = schedule.starts epoch := by
  subst logsEq
  cases event with
  | roll block => exact ⟨sound.accounts, sound.epochs, sound.stakes⟩
  | rollback target =>
      have kept : ∀ ns key, (((publisher.node.logs.removeAfter target.slot).rows ns).get?
          key).isSome → ((publisher.node.logs.rows ns).get? key).isSome := by
        intro ns key held
        rw [LogTables.get?_removeAfter] at held
        split_ifs at held
        · exact held
        · cases held
      exact ⟨fun key held => sound.accounts key (kept _ key held),
        fun key held => sound.epochs key (kept _ key held),
        fun key held => sound.stakes key (kept _ key held)⟩
  | boundary slot accounts row =>
      refine ⟨?_, ?_, ?_⟩
      · intro key held
        change ((((publisher.node.logs.writeRows .accountEpochs _ accounts).writeLog .epochs _
          row).rows .accountEpochs).get? key).isSome at held
        rw [LogTables.get?_writeLog, if_neg (by simp)] at held
        by_cases here : (ofLex key).1 = schedule.starts (publisher.number - 1)
        · exact ⟨publisher.number, Nat.lt_succ_self _, here⟩
        · rw [LogTables.get?_writeRows_of_ne _ _ fun _ => here] at held
          rcases sound.accounts key held with ⟨closed, before, isStart⟩
          exact ⟨closed, Nat.lt_succ_of_lt before, isStart⟩
      · intro key held
        change ((((publisher.node.logs.writeRows .accountEpochs _ accounts).writeLog .epochs _
          row).rows .epochs).get? key).isSome at held
        rw [LogTables.get?_writeLog] at held
        split_ifs at held with isRow
        · exact ⟨publisher.number, Nat.lt_succ_self _, by rw [isRow.2]; rfl⟩
        · rw [LogTables.get?_writeRows_of_ne _ _ fun same => by cases same] at held
          rcases sound.epochs key held with ⟨closed, before, isStart⟩
          exact ⟨closed, Nat.lt_succ_of_lt before, isStart⟩
      · intro key held
        change ((((publisher.node.logs.writeRows .accountEpochs _ accounts).writeLog .epochs _
          row).rows .stakes).get? key).isSome at held
        rw [LogTables.get?_writeLog, if_neg (by simp),
          LogTables.get?_writeRows_of_ne _ _ fun same => by cases same] at held
        exact sound.stakes key held
  | rewardUpdate pools =>
      cases found : schedule.performanceEpoch publisher.number with
      | none =>
          simp only [Node.after, found]
          exact ⟨sound.accounts, sound.epochs, sound.stakes⟩
      | some performance =>
          simp only [Node.after, found]
          refine ⟨?_, ?_, ?_⟩
          · intro key held
            rw [LogTables.get?_writeRows_of_ne _ _ fun same => by cases same] at held
            exact sound.accounts key held
          · intro key held
            rw [LogTables.get?_writeRows_of_ne _ _ fun same => by cases same] at held
            exact sound.epochs key held
          · intro key held
            by_cases here : (ofLex key).1 = schedule.starts performance
            · exact ⟨performance, here⟩
            · rw [LogTables.get?_writeRows_of_ne _ _ fun _ => here] at held
              exact sound.stakes key held

/-- The cursor does not fall below the last publish. -/
theorem Sound.cursor_after (sound : Sound writer decode schedule magic publisher)
    {event : ChainEvent V} (comes : publisher.Comes event) {published : Publication D}
    (isLast : published ∈ publisher.last) :
    published.cursor.slot ≤
      (publisher.node.after schedule publisher.number event).cursorSlot := by
  have reached := sound.cursor published isLast
  cases event with
  | roll block => exact reached.trans comes
  | rollback target => exact comes published isLast
  | boundary slot accounts row => exact reached.trans comes
  | rewardUpdate pools =>
      cases found : schedule.performanceEpoch publisher.number with
      | none =>
          simp only [Node.after, found]
          exact reached
      | some performance =>
          simp only [Node.after, found]
          exact reached

theorem Sound.event (sound : Sound writer decode schedule magic publisher) {event : ChainEvent V}
    (comes : publisher.Comes event) (harmless : publisher.Harmless schedule event)
    {next : Node V O}
    (same : next.SameEpochs (publisher.node.after schedule publisher.number event))
    (sameCursor : next.cursor = (publisher.node.after schedule publisher.number event).cursor) :
    Sound writer decode schedule magic
      ⟨next, event.number publisher.number, publisher.last⟩ := by
  rcases sound.rows_after event same.logs with ⟨accounts, epochs, stakes⟩
  refine ⟨accounts, epochs, stakes, ?_, sound.inScope, sound.closed, ?_⟩
  · intro published isLast
    change published.cursor.slot ≤ next.cursorSlot
    rw [Node.cursorSlot, sameCursor]
    exact sound.cursor_after comes isLast
  · intro published isLast layer isIn isEpoch epoch isScope
    have listed : publisher.Listed schedule layer.kind epoch :=
      ⟨published, isLast, layer, isIn, rfl, isScope⟩
    have untouched := sound.sameIn_after isEpoch listed comes harmless
    have current := sound.current published isLast layer isIn isEpoch epoch isScope
    rw [freshLayer_congr writer decode magic (sameIn_of_sameEpochs same _ layer.kind),
      freshLayer_congr writer decode magic untouched]
    exact current

section Publishing

omit [KeyHashing]

variable {plan : Plan} {previous : Predecessor D}

/-- What a plan of a publisher is. -/
theorem Plans.spec (plans : publisher.Plans schedule magic plan) :
    plan.magic = magic ∧ schedule.starts plan.sequence ≤ plan.cursor.slot ∧
      plan.epochs = (List.range (plan.sequence + 1)).map
        (cutWindow schedule.starts plan.cursor.slot) := by
  rcases plans.made with ⟨summary, starts, retained, isStart, made, agrees⟩
  rcases new_spec isStart made with ⟨-, isMagic, -, reached, -, epochsEq⟩
  refine ⟨isMagic, ?_, ?_⟩
  · rw [← agrees plan.sequence (Nat.le_succ _)]
    exact reached
  · rw [epochsEq]
    apply List.map_congr_left
    intro epoch isIn
    have inside := Nat.lt_succ_iff.mp (List.mem_range.mp isIn)
    rw [cutWindow, cutWindow, agrees epoch (Nat.le_succ_of_le inside),
      agrees (epoch + 1) (Nat.succ_le_succ inside)]

theorem Plans.ascending (plans : publisher.Plans schedule magic plan) : Ascending plan.epochs := by
  rcases plans.spec with ⟨-, reached, epochsEq⟩
  rw [epochsEq]
  exact ascending_cutWindows schedule.rises reached

/-- Every window of a plan is that of its epoch, cut at the cursor. -/
theorem Plans.window (plans : publisher.Plans schedule magic plan) {window : EpochWindow}
    (isWindow : window ∈ plan.epochs) :
    window.epoch ≤ plan.sequence ∧
      window = cutWindow schedule.starts plan.cursor.slot window.epoch := by
  rcases plans.spec with ⟨-, -, epochsEq⟩
  rw [epochsEq] at isWindow
  rcases List.mem_map.mp isWindow with ⟨epoch, isIn, rfl⟩
  exact ⟨Nat.lt_succ_iff.mp (List.mem_range.mp isIn), rfl⟩

theorem Plans.full (plans : publisher.Plans schedule magic plan) {window : EpochWindow}
    (isWindow : window ∈ plan.epochs) (before : window.epoch < plan.sequence) :
    window = schedule.fullWindow window.epoch := by
  rcases plans.spec with ⟨-, reached, -⟩
  have isCut := (plans.window isWindow).2
  have ends := schedule.mono.monotone (Nat.succ_le_of_lt before)
  rw [isCut]
  simp only [cutWindow, Schedule.fullWindow, EpochWindow.mk.injEq, true_and]
  have rises := schedule.rises window.epoch
  simp only [Nat.succ_eq_add_one] at ends
  omega

/-- What a predecessor has of a window is what the stores have of it. -/
theorem Sound.layerOf_eq (sound : Sound writer decode schedule magic publisher)
    (plans : publisher.Plans schedule magic plan) (adopting : Adopting previous publisher.last)
    {window : EpochWindow} (isWindow : window ∈ plan.epochs) (isEpoch : kind.isEpoch) :
    layerOf writer (publisher.node.stores decode) previous plan.magic window kind =
      freshLayer writer (publisher.node.stores decode) plan.magic window kind := by
  rcases adopting.adopts kind (.epoch window) with ⟨found, foundEq, known⟩
  cases found with
  | none => exact layerOf_made adopting.landed isEpoch foundEq
  | some layer =>
      rcases known layer rfl with ⟨published, isLast, isIn, rfl, isScope⟩
      rcases sound.inScope published isLast layer isIn isEpoch with ⟨other, otherScope, early⟩
      rw [otherScope] at isScope
      rcases DescriptorScope.epoch.inj isScope with rfl
      have isFull := plans.full isWindow (early.trans_lt (plans.later published isLast))
      rw [layerOf_adopted adopting.landed isEpoch foundEq]
      rw [isFull] at otherScope
      have current := sound.current published isLast layer isIn isEpoch _ otherScope
      rw [← isFull, ← plans.spec.1] at current
      exact current.symm

/-- The layers of the epochs that a publish lists, whatever it adopts. -/
theorem Sound.epochLayers_eq (sound : Sound writer decode schedule magic publisher)
    (plans : publisher.Plans schedule magic plan) (adopting : Adopting previous publisher.last) :
    epochLayers writer (publisher.node.stores decode) previous plan =
      epochLayers writer (publisher.node.stores decode) .first plan := by
  apply epochLayers_congr adopting.landed fun _ => rfl
  intro window isWindow kind isEpoch
  rw [sound.layerOf_eq plans adopting isWindow isEpoch, layerOf_first]

theorem Sound.listed_eq (sound : Sound writer decode schedule magic publisher)
    (lawful : writer.Lawful) (plans : publisher.Plans schedule magic plan)
    (adopting : Adopting previous publisher.last)
    {digestRecords : Option (List ImmutableDigests)} {published : Published D}
    {inscription : Inscription D}
    (run : Exports writer (publisher.node.stores decode) previous digestRecords plan published)
    (returned : published.result = .ok inscription) :
    epochLayers writer (publisher.node.stores decode) .first plan =
      .ok (inscription.layers.filter (·.kind.isEpoch)) := by
  have documented := ((exports_spec plans.ascending run).1 inscription).mp returned
  rcases bind_eq_ok.mp documented with ⟨_, -, documented⟩
  rcases bind_eq_ok.mp documented with ⟨layers, layersEq, documented⟩
  rcases bind_eq_ok.mp documented with ⟨made, madeEq, documented⟩
  rcases bind_eq_ok.mp documented with ⟨_, -, documented⟩
  rcases Except.ok.inj documented with rfl
  rcases bind_eq_ok.mp madeEq with ⟨place, -, madeEq⟩
  rcases Except.ok.inj madeEq with rfl
  rw [← sound.epochLayers_eq plans adopting]
  refine epochLayers_of_document lawful adopting ?_ layersEq
  intro window isWindow kind isEpoch layer layerEq
  rw [sound.layerOf_eq plans adopting isWindow isEpoch] at layerEq
  exact (freshLayer_spec lawful layerEq).1

theorem Sound.publish (sound : Sound writer decode schedule magic publisher)
    (lawful : writer.Lawful) (plans : publisher.Plans schedule magic plan)
    (adopting : Adopting previous publisher.last)
    {digestRecords : Option (List ImmutableDigests)} {published : Published D}
    {inscription : Inscription D}
    (run : Exports writer (publisher.node.stores decode) previous digestRecords plan published)
    (returned : published.result = .ok inscription) :
    Sound writer decode schedule magic
      { publisher with last := some ⟨plan.cursor, plan.sequence, inscription.layers⟩ } := by
  have listed := sound.listed_eq lawful plans adopting run returned
  have made : ∀ layer ∈ inscription.layers, layer.kind.isEpoch →
      ∃ window ∈ plan.epochs, layer.scope = .epoch window ∧
        freshLayer writer (publisher.node.stores decode) magic window layer.kind =
          .ok (some layer) := by
    intro layer isIn isEpoch
    have isListed : layer ∈ inscription.layers.filter (·.kind.isEpoch) :=
      List.mem_filter.mpr ⟨isIn, isEpoch⟩
    rcases mem_epochLayers (fun _ => rfl) listed isListed with
      ⟨window, isWindow, kind, -, layerEq⟩
    rw [layerOf_first, plans.spec.1] at layerEq
    rcases freshLayer_spec lawful layerEq with ⟨rfl, isScope⟩
    exact ⟨window, isWindow, isScope, layerEq⟩
  refine ⟨sound.accounts, sound.epochs, sound.stakes, ?_, ?_, ?_, ?_⟩
  · rintro _ ⟨⟩
    change plan.cursor.slot ≤ publisher.node.cursorSlot
    rw [Node.cursorSlot, plans.stands]
    exact Nat.le_refl _
  · rintro _ ⟨⟩ layer isIn isEpoch
    rcases made layer isIn isEpoch with ⟨window, isWindow, isScope, -⟩
    exact ⟨window, isScope, (plans.window isWindow).1⟩
  · rintro _ ⟨⟩ layer isIn isEpoch epoch isFull
    rcases made layer isIn isEpoch with ⟨window, isWindow, isScope, -⟩
    rw [isScope] at isFull
    have isCut := (plans.window isWindow).2
    rw [DescriptorScope.epoch.inj isFull] at isCut
    have ends := congrArg EpochWindow.endSlot isCut
    have rises := schedule.rises epoch
    simp only [Schedule.fullWindow, cutWindow] at ends
    change schedule.starts (epoch + 1) ≤ plan.cursor.slot + 1
    omega
  · rintro _ ⟨⟩ layer isIn isEpoch epoch isFull
    rcases made layer isIn isEpoch with ⟨window, isWindow, isScope, layerEq⟩
    rw [isScope] at isFull
    rw [← DescriptorScope.epoch.inj isFull]
    exact layerEq

end Publishing

variable {plan : Plan} {previous : Predecessor D}

theorem Reaches.sound (lawful : writer.Lawful)
    (reaches : Reaches writer decode schedule magic (Harmless schedule) publisher) :
    Sound writer decode schedule magic publisher := by
  induction reaches with
  | genesis same isOrigin =>
      refine ⟨?_, ?_, ?_, ?_, ?_, ?_, ?_⟩
      · intro key held
        rw [same.logs] at held
        cases held
      · intro key held
        rw [same.logs] at held
        cases held
      · intro key held
        rw [same.logs] at held
        cases held
      · rintro _ ⟨⟩
      · rintro _ ⟨⟩
      · rintro _ ⟨⟩
      · rintro _ ⟨⟩
  | event _ comes harmless same sameCursor ih => exact ih.event comes harmless same sameCursor
  | publish _ plans adopting run returned ih => exact ih.publish lawful plans adopting run returned

/-- In every run whose events are harmless, a publish lists the layers of the epochs that an
export without predecessor lists, and what was published of a closed window is what the
stores still have of it. -/
theorem incremental_publish_eq_full (lawful : writer.Lawful)
    (reaches : Reaches writer decode schedule magic (Harmless schedule) publisher)
    (plans : publisher.Plans schedule magic plan) (adopting : Adopting previous publisher.last) :
    epochLayers writer (publisher.node.stores decode) previous plan =
        epochLayers writer (publisher.node.stores decode) .first plan ∧
      (∀ digestRecords published inscription whole full,
        Exports writer (publisher.node.stores decode) previous digestRecords plan published →
        published.result = .ok inscription →
        Exports writer (publisher.node.stores decode) .first digestRecords plan full →
        full.result = .ok whole →
        inscription.layers.filter (·.kind.isEpoch) = whole.layers.filter (·.kind.isEpoch)) ∧
      ∀ published ∈ publisher.last, ∀ layer ∈ published.layers, layer.kind.isEpoch →
        ∀ epoch, layer.scope = .epoch (schedule.fullWindow epoch) →
          freshLayer writer (publisher.node.stores decode) magic (schedule.fullWindow epoch)
            layer.kind = .ok (some layer) := by
  have sound := reaches.sound lawful
  refine ⟨sound.epochLayers_eq plans adopting, ?_, sound.current⟩
  intro digestRecords published inscription whole full run returned fullRun fullReturned
  have listed := sound.listed_eq lawful plans adopting run returned
  have nothing : Adopting (Predecessor.first : Predecessor D) publisher.last :=
    ⟨fun _ => rfl, fun _ _ => ⟨none, rfl, by rintro _ ⟨⟩⟩⟩
  have fullListed := sound.listed_eq lawful plans nothing fullRun fullReturned
  rw [listed] at fullListed
  exact Except.ok.inj fullListed

end Publisher

/-- The predecessor that finds what it adopts in the layers of the last publish. -/
def Predecessor.following (layers : List (LayerDescriptor D)) : Predecessor D where
  adopt kind scope := .ok (layers.find? fun layer => layer.kind = kind ∧ layer.scope = scope)
  carriedForward kind scope :=
    .ok (layers.any fun layer => layer.kind = kind ∧ layer.scope = scope)
  landed _ := .ok ()
  history := []

theorem adopting_following (published : Publication D) :
    Adopting (.following published.layers) (some published) where
  landed _ := rfl
  adopts kind scope := by
    refine ⟨_, rfl, ?_⟩
    intro layer found
    have isAsked := List.find?_some found
    simp only [decide_eq_true_eq] at isAsked
    exact ⟨published, rfl, List.mem_of_find?_eq_some found, isAsked⟩

theorem lawful_keeping : (SteleWriter.keeping V O).Lawful := by
  refine ⟨Prod.fst, ?_, ?_, ?_, ?_⟩
  · rintro spec sink ⟨⟩
    rfl
  · rintro sink record next ⟨⟩
    rfl
  · rintro sink written ⟨⟩
    exact ⟨rfl, rfl⟩
  · rintro written scope again ⟨⟩
    rfl

section Samples

open Publisher

abbrev KeyHashing.plain : KeyHashing := ⟨id⟩

attribute [local instance] KeyHashing.plain

/-- Epochs of a hundred slots. -/
def hundred : Schedule := ⟨(· * 100), 0, fun epoch => by omega⟩

def blockAt (slot number : ℕ) (hash : BlockHash) : ChainBlock :=
  ⟨[1], ⟨slot, hash, some number, [], []⟩⟩

def anyHash : Bytes → Option BlockHash := fun _ => some 1

/-- A block of epoch 0, the first boundary with one account, and a block of epoch 1. -/
def inEpochOne : Node ℕ ℕ :=
  ((Node.empty.after hundred 0 (.roll (blockAt 50 0 1))).after hundred 0
    (.boundary 150 [(1, 7)] 0)).after hundred 1 (.roll (blockAt 150 1 2))

/-- The second boundary with some accounts, and a block of epoch 2. -/
def inEpochTwo (accounts : List (EntityKey × ℕ)) : Node ℕ ℕ :=
  (inEpochOne.after hundred 1 (.boundary 250 accounts 1)).after hundred 2
    (.roll (blockAt 250 2 3))

def planOne : Plan where
  magic := 1
  cursor := .specific 150 2
  sequence := 1
  epochs := [⟨0, 0, 99⟩, ⟨1, 100, 150⟩]
  retained := .empty
  band := Plan.defaultBand
  producers := Plan.defaultProducers
  bandPositive := Plan.defaultBand_pos
  producersPositive := Plan.defaultProducers_pos

def planTwo : Plan :=
  { planOne with
    cursor := .specific 250 3
    sequence := 2
    epochs := [⟨0, 0, 99⟩, ⟨1, 100, 199⟩, ⟨2, 200, 250⟩] }

/-- What is published in epoch 1. -/
def publishedOne : Publication (List (Record ℕ ℕ)) where
  cursor := .specific 150 2
  sequence := 1
  layers :=
    (((document (.keeping ℕ ℕ) (inEpochOne.stores anyHash) .first none planOne).toOption).map
    Inscription.layers).getD []

/-- The node in epoch 2, after the publish of epoch 1. -/
def publisherTwo (accounts : List (EntityKey × ℕ)) :
    Publisher ℕ ℕ (List (Record ℕ ℕ)) :=
  ⟨inEpochTwo accounts, 2, some publishedOne⟩

theorem plans_planTwo (accounts : List (EntityKey × ℕ)) :
    (publisherTwo accounts).Plans hundred 1 planTwo where
  made := ⟨.oneEra, (· * 100), .empty, ChainSummary.oneEra_starts, rfl, fun _ _ => rfl⟩
  stands := rfl
  later := by
    rintro _ ⟨⟩
    decide

/-- An event that does nothing to the state. -/
theorem Publisher.Reaches.step [KeyHashing] {writer : SteleWriter V O D}
    {decode : Bytes → Option BlockHash} {schedule : Schedule} {magic number : ℕ}
    {Allowed : Publisher V O D → ChainEvent V → Prop} {node : Node V O}
    {last : Option (Publication D)}
    (reaches : Reaches writer decode schedule magic Allowed ⟨node, number, last⟩)
    (event : ChainEvent V) (comes : Publisher.Comes ⟨node, number, last⟩ event)
    (allowed : Allowed ⟨node, number, last⟩ event) :
    Reaches writer decode schedule magic Allowed
      ⟨node.after schedule number event, event.number number, last⟩ :=
  .event reaches comes allowed ⟨rfl, rfl, rfl, rfl⟩ rfl

/-- The run to epoch 2, if its events are allowed. -/
theorem reaches_publisherTwo (accounts : List (EntityKey × ℕ))
    {Allowed : Publisher ℕ ℕ (List (Record ℕ ℕ)) → ChainEvent ℕ → Prop}
    (first : ∀ node number event, Allowed ⟨node, number, none⟩ event)
    (boundary : Allowed ⟨inEpochOne, 1, some publishedOne⟩ (.boundary 250 accounts 1))
    (roll : Allowed
      ⟨inEpochOne.after hundred 1 (.boundary 250 accounts 1), 2, some publishedOne⟩
      (.roll (blockAt 250 2 3))) :
    Reaches (.keeping ℕ ℕ) anyHash hundred 1 Allowed (publisherTwo accounts) := by
  have start : Reaches (.keeping ℕ ℕ) anyHash hundred 1 Allowed ⟨Node.empty, 0, none⟩ :=
    .genesis ⟨rfl, rfl, rfl, rfl⟩ rfl
  have inZero := start.step (.roll (blockAt 50 0 1)) (Nat.zero_le _) (first _ _ _)
  have closed := inZero.step (.boundary 150 [(1, 7)] 0) (show 50 ≤ 150 by decide) (first _ _ _)
  have inOne := closed.step (.roll (blockAt 150 1 2)) (Nat.le_refl 150) (first _ _ _)
  have plans : Publisher.Plans hundred 1 (⟨inEpochOne, 1, none⟩ :
      Publisher ℕ ℕ (List (Record ℕ ℕ))) planOne := by
    refine ⟨⟨.oneEra, (· * 100), .empty, ChainSummary.oneEra_starts, rfl, fun _ _ => rfl⟩, rfl, ?_⟩
    rintro _ ⟨⟩
  rcases exists_exports (.keeping ℕ ℕ) (inEpochOne.stores anyHash) .first none planOne with
    ⟨published, run⟩
  have made : (document (.keeping ℕ ℕ) (inEpochOne.stores anyHash) .first none
      planOne).toOption.isSome := by decide +kernel
  cases found : document (.keeping ℕ ℕ) (inEpochOne.stores anyHash) .first none planOne with
  | error failure =>
      rw [found] at made
      cases made
  | ok inscription =>
      have returned := ((exports_spec plans.ascending run).1 inscription).mpr found
      have nothing : Adopting (Predecessor.first : Predecessor (List (Record ℕ ℕ))) none :=
        ⟨fun _ => rfl, fun _ _ => ⟨none, rfl, by rintro _ ⟨⟩⟩⟩
      have after := Reaches.publish inOne plans nothing run returned
      have isPublished : (⟨planOne.cursor, planOne.sequence, inscription.layers⟩ :
          Publication (List (Record ℕ ℕ))) = publishedOne := by
        rw [publishedOne, found]
        rfl
      rw [isPublished] at after
      have closedOne := after.step (.boundary 250 accounts 1) (show 150 ≤ 250 by decide) boundary
      exact closedOne.step (.roll (blockAt 250 2 3)) (Nat.le_refl 250) roll

theorem incremental_publish_eq_full_epochTwo :
    epochLayers (.keeping ℕ ℕ) ((inEpochTwo []).stores anyHash) (.following publishedOne.layers)
        planTwo =
      epochLayers (.keeping ℕ ℕ) ((inEpochTwo []).stores anyHash) .first planTwo := by
  have unpublished : ∀ (node : Node ℕ ℕ) number event, Harmless hundred
      (⟨node, number, none⟩ : Publisher ℕ ℕ (List (Record ℕ ℕ))) event := by
    intro node number event
    cases event with
    | roll block =>
        refine ⟨?_, ?_⟩
        · rintro ⟨_, ⟨⟩, _⟩
        · rintro key isKey slot held ⟨_, ⟨⟩, _⟩
    | rollback target =>
        intro epoch isStart
        change epoch * 100 = target.slot at isStart
        change (epoch + 1) * 100 ≠ target.slot + 1
        omega
    | boundary slot accounts row => rintro - ⟨_, ⟨⟩, _⟩
    | rewardUpdate pools => rintro performance - ⟨_, ⟨⟩, _⟩
  have boundary : Harmless hundred (⟨inEpochOne, 1, some publishedOne⟩ :
      Publisher ℕ ℕ (List (Record ℕ ℕ))) (.boundary 250 [] 1) := by
    rintro - - row ⟨⟩
  have roll : Harmless hundred (⟨inEpochOne.after hundred 1 (.boundary 250 [] 1), 2,
      some publishedOne⟩ : Publisher ℕ ℕ (List (Record ℕ ℕ))) (.roll (blockAt 250 2 3)) := by
    refine ⟨?_, ?_⟩
    · rintro ⟨_, ⟨⟩, epoch, before, after⟩
      change 250 < epoch * 100 at before
      change epoch * 100 ≤ 150 + 1 at after
      omega
    · intro key isKey slot held
      have absent : ∀ key ∈ (blockAt 250 2 3).index.exactKeys, (inEpochOne.after hundred 1
          (.boundary 250 [] 1)).indexes.exact.get? key = none := by decide +kernel
      rw [absent key isKey] at held
      cases held
  have reaches := reaches_publisherTwo [] unpublished boundary roll
  exact (incremental_publish_eq_full lawful_keeping reaches (plans_planTwo [])
    (adopting_following publishedOne)).1

/-- The rows that the boundary after epoch 1 adds to the accounts of epoch 0 are not in the
layer that is adopted. -/
theorem account_rows_left_out :
    Reaches (.keeping ℕ ℕ) anyHash hundred 1 (fun _ _ => True) (publisherTwo [(2, 8)]) ∧
      (publisherTwo [(2, 8)]).Plans hundred 1 planTwo ∧
      Adopting (.following publishedOne.layers) (publisherTwo [(2, 8)]).last ∧
      (epochLayers (.keeping ℕ ℕ) ((inEpochTwo [(2, 8)]).stores anyHash)
        (.following publishedOne.layers) planTwo).toOption.map
          (·.map LayerDescriptor.records) = some [1, 1, 1, 2, 2, 2, 1, 1, 1] ∧
      (epochLayers (.keeping ℕ ℕ) ((inEpochTwo [(2, 8)]).stores anyHash) .first
        planTwo).toOption.map (·.map LayerDescriptor.records) =
          some [1, 1, 1, 2, 2, 2, 2, 1, 1] := by
  refine ⟨reaches_publisherTwo _ (fun _ _ _ => trivial) trivial trivial, plans_planTwo _,
    adopting_following publishedOne, ?_, ?_⟩
  · decide +kernel
  · decide +kernel

end Samples

end Dolos.Snapshot
