import Dolos.Cardano.WorkRestart

/-!
# Reward updates between epoch starts

Which epochs get a reward update. The buffer looks at two consecutive slots, and for
an epoch boundary between them first. So an update needs blocks of its epoch on
both sides of the stability boundary: where the blocks of an epoch are all before
it or all after it, the epoch ends without one.
-/

namespace Dolos

open Outcome

variable {B : Type}

namespace WorkItem

def isEstart : WorkItem B → Bool
  | estart _ => true
  | _ => false

def isRupd : WorkItem B → Bool
  | rupd _ => true
  | _ => false

/-- The items after the last epoch start. -/
def sinceEstart (items : List (WorkItem B)) : List (WorkItem B) :=
  items.rtakeWhile fun item => !item.isEstart

/-- How many reward updates stand after the last epoch start. -/
def rupdsSinceEstart (items : List (WorkItem B)) : ℕ := (sinceEstart items).countP isRupd

@[simp]
theorem rupdsSinceEstart_concat (items : List (WorkItem B)) (item : WorkItem B) :
    rupdsSinceEstart (items ++ [item]) =
      if item.isEstart then 0
      else rupdsSinceEstart items + if item.isRupd then 1 else 0 := by
  rw [rupdsSinceEstart, sinceEstart, List.rtakeWhile_concat]
  cases isStart : item.isEstart with
  | true => rfl
  | false =>
      simp only [Bool.not_false, if_true, List.countP_append, List.countP_singleton]
      rfl

end WorkItem

section Straddled

variable (eras : ChainSummary) (stabilityWindow : ℕ)

def InEpoch (epoch slot : ℕ) : Prop := ∃ inside, eras.slotEpoch slot = .ok (epoch, inside)

/-- Slots of an epoch stand on both sides of its stability boundary. -/
def Straddled (epoch : ℕ) (slots : List ℕ) : Prop :=
  ∃ start, eras.epochStart epoch = .ok start ∧
    (∃ slot ∈ slots, InEpoch eras epoch slot ∧ slot ≤ start + stabilityWindow) ∧
    ∃ slot ∈ slots, InEpoch eras epoch slot ∧ start + stabilityWindow < slot

variable {eras stabilityWindow} {epoch start : ℕ} {slots : List ℕ}

theorem straddled_iff (startEq : eras.epochStart epoch = .ok start) :
    Straddled eras stabilityWindow epoch slots ↔
      (∃ slot ∈ slots, InEpoch eras epoch slot ∧ slot ≤ start + stabilityWindow) ∧
        ∃ slot ∈ slots, InEpoch eras epoch slot ∧ start + stabilityWindow < slot := by
  constructor
  · rintro ⟨other, otherEq, sides⟩
    rcases Except.ok.inj (otherEq.symm.trans startEq) with rfl
    exact sides
  · intro sides
    exact ⟨start, startEq, sides⟩

/-- A single slot of the epoch is on one side only. -/
theorem not_straddled_of_unique (next : ℕ)
    (unique : ∀ slot ∈ slots, InEpoch eras epoch slot → slot = next) :
    ¬ Straddled eras stabilityWindow epoch slots := by
  rintro ⟨start, -, ⟨early, isEarly, inEarly, below⟩, late, isLate, inLate, above⟩
  have earlyEq := unique early isEarly inEarly
  have lateEq := unique late isLate inLate
  omega

/-- Slots up to the boundary are on one side only. -/
theorem not_straddled_of_le (startEq : eras.epochStart epoch = .ok start)
    (below : ∀ slot ∈ slots, slot ≤ start + stabilityWindow) :
    ¬ Straddled eras stabilityWindow epoch slots := by
  rw [straddled_iff startEq]
  rintro ⟨-, late, isLate, -, above⟩
  have := below late isLate
  omega

/-- After a slot beyond the boundary another one changes nothing. -/
theorem straddled_concat_of_lt (startEq : eras.epochStart epoch = .ok start) {last next : ℕ}
    (isLast : last ∈ slots) (inLast : InEpoch eras epoch last)
    (beyond : start + stabilityWindow < last) (le : last ≤ next) :
    Straddled eras stabilityWindow epoch (slots ++ [next]) ↔
      Straddled eras stabilityWindow epoch slots := by
  rw [straddled_iff startEq, straddled_iff startEq]
  constructor
  · rintro ⟨⟨early, isEarly, inEarly, below⟩, -⟩
    rcases List.mem_append.mp isEarly with isEarlier | isNext
    · exact ⟨⟨early, isEarlier, inEarly, below⟩, last, isLast, inLast, beyond⟩
    · rw [List.mem_singleton.mp isNext] at below
      omega
  · rintro ⟨⟨early, isEarly, inEarly, below⟩, late, isLate, inLate, above⟩
    exact ⟨⟨early, List.mem_append_left _ isEarly, inEarly, below⟩,
      late, List.mem_append_left _ isLate, inLate, above⟩

end Straddled

section Scheduled

variable [Block B] {eras : ChainSummary} {stabilityWindow : ℕ}

/-- The slots a buffer compares, from the one it starts with. -/
def seenSlots (seen : Option ℕ) (blocks : List B) : List ℕ :=
  seen.toList ++ blocks.map Block.slot

theorem seenSlots_concat (seen : Option ℕ) (blocks : List B) (block : B) :
    seenSlots seen (blocks ++ [block]) = seenSlots seen blocks ++ [Block.slot block] := by
  simp [seenSlots]

theorem mem_seenSlots_of_seenAfter {seen : Option ℕ} {blocks : List B} {last : ℕ}
    (lastEq : seenAfter seen blocks = some last) : last ∈ seenSlots seen blocks := by
  induction blocks using List.reverseRecOn with
  | nil =>
      rw [seenAfter_nil] at lastEq
      simp [seenSlots, lastEq]
  | append_singleton earlier block ih =>
      rw [seenAfter_concat] at lastEq
      rw [seenSlots_concat]
      simp [Option.some.inj lastEq]

theorem seenSlots_of_none {seen : Option ℕ} {blocks : List B}
    (isNone : seenAfter seen blocks = none) : seenSlots seen blocks = [] := by
  induction blocks using List.reverseRecOn with
  | nil =>
      rw [seenAfter_nil] at isNone
      simp [seenSlots, isNone]
  | append_singleton earlier block ih => simp at isNone

/-- In increasing order the slot seen last is the greatest. -/
theorem le_seenAfter {seen : Option ℕ} {blocks : List B} {last : ℕ}
    (sorted : (seenSlots seen blocks).Pairwise (· ≤ ·))
    (lastEq : seenAfter seen blocks = some last) : ∀ slot ∈ seenSlots seen blocks, slot ≤ last := by
  induction blocks using List.reverseRecOn with
  | nil =>
      rw [seenAfter_nil] at lastEq
      intro slot isSlot
      simp [seenSlots, lastEq] at isSlot
      omega
  | append_singleton earlier block ih =>
      rw [seenAfter_concat] at lastEq
      rw [seenSlots_concat] at sorted ⊢
      rcases List.pairwise_append.mp sorted with ⟨-, -, below⟩
      intro slot isSlot
      rw [← Option.some.inj lastEq]
      rcases List.mem_append.mp isSlot with isEarlier | isLast
      · exact below slot isEarlier _ (by simp)
      · rw [List.mem_singleton.mp isLast]

theorem rupdBoundary_eq_some_iff {prev next start : ℕ} {inPrev : ℕ × ℕ} {crossed : Option ℕ}
    (prevEq : eras.slotEpoch prev = .ok inPrev) (startEq : eras.epochStart inPrev.1 = .ok start)
    (crossedEq : rupdBoundary stabilityWindow eras prev next = .ok crossed) :
    crossed.isSome ↔ prev ≤ start + stabilityWindow ∧ start + stabilityWindow < next := by
  simp only [rupdBoundary, prevEq, startEq, ok_bind] at crossedEq
  split_ifs at crossedEq with between
  · rcases Except.ok.inj crossedEq with rfl
    simpa using between
  · rcases Except.ok.inj crossedEq with rfl
    simpa using between

omit [Block B] in
/-- What the boundary items between two slots are, in terms of their epochs and of the
stability boundary. -/
theorem crossing_spec {prev next start : ℕ} {inPrev inNext : ℕ × ℕ} {items : List (WorkItem B)}
    (prevEq : eras.slotEpoch prev = .ok inPrev) (nextEq : eras.slotEpoch next = .ok inNext)
    (startEq : eras.epochStart inPrev.1 = .ok start)
    (crossed : crossing eras stabilityWindow prev next = .ok items) :
    (inPrev.1 ≠ inNext.1 ∧ items = [.ewrap next, .estart next]) ∨
      (inPrev.1 = inNext.1 ∧ prev ≤ start + stabilityWindow ∧ start + stabilityWindow < next ∧
        items = [.rupd next]) ∨
      (inPrev.1 = inNext.1 ∧ ¬ (prev ≤ start + stabilityWindow ∧ start + stabilityWindow < next) ∧
        items = []) := by
  rcases bind_eq_ok.mp crossed with ⟨epoch, epochEq, rest⟩
  have different := epochBoundary_isSome_iff prevEq nextEq epochEq
  cases epoch with
  | some found =>
      left
      exact ⟨different.mp rfl, (Except.ok.inj rest).symm⟩
  | none =>
      right
      have same : inPrev.1 = inNext.1 := by
        by_contra differ
        cases different.mpr differ
      rcases bind_eq_ok.mp rest with ⟨rupd, rupdEq, last⟩
      have between := rupdBoundary_eq_some_iff prevEq startEq rupdEq
      cases rupd with
      | some found =>
          left
          rcases between.mp rfl with ⟨atOrBefore, after⟩
          exact ⟨same, atOrBefore, after, (Except.ok.inj last).symm⟩
      | none =>
          right
          refine ⟨same, ?_, (Except.ok.inj last).symm⟩
          intro both
          cases between.mpr both

/-- Since the last epoch start there is one reward update if the slots of the epoch
straddle the boundary, and none otherwise. -/
structure Counted (eras : ChainSummary) (stabilityWindow epoch : ℕ) (slots : List ℕ)
    (items : List (WorkItem B)) : Prop where
  once : Straddled eras stabilityWindow epoch slots → WorkItem.rupdsSinceEstart items = 1
  never : ¬ Straddled eras stabilityWindow epoch slots → WorkItem.rupdsSinceEstart items = 0

/-- The first slot of an epoch. -/
theorem counted_opening (continuous : eras.Continuous) {slots : List ℕ} {prev : ℕ}
    {inPrev inNext : ℕ × ℕ} {block : B} (upToPrev : ∀ slot ∈ slots, slot ≤ prev)
    (le : prev ≤ Block.slot block) (inPrevEq : eras.slotEpoch prev = .ok inPrev)
    (inNextEq : eras.slotEpoch (Block.slot block) = .ok inNext) (different : inPrev.1 ≠ inNext.1)
    (before : List (WorkItem B)) :
    Counted eras stabilityWindow inNext.1 (slots ++ [Block.slot block])
      (before ++ ([.ewrap (Block.slot block), .estart (Block.slot block)] ++ [.block block])) := by
  have alone : ¬ Straddled eras stabilityWindow inNext.1 (slots ++ [Block.slot block]) := by
    apply not_straddled_of_unique (Block.slot block)
    rintro slot isSlot ⟨inside, slotEq⟩
    rcases List.mem_append.mp isSlot with isEarlier | isNext
    · have toPrev :=
        ChainSummary.slotEpoch_mono continuous (upToPrev slot isEarlier) slotEq inPrevEq
      have toNext := ChainSummary.slotEpoch_mono continuous le inPrevEq inNextEq
      simp only at toPrev
      omega
    · exact List.mem_singleton.mp isNext
  have none : WorkItem.rupdsSinceEstart (before ++ ([.ewrap (Block.slot block),
      .estart (Block.slot block)] ++ [.block block])) = 0 := by
    rw [← List.append_assoc, WorkItem.rupdsSinceEstart_concat, List.append_cons before,
      WorkItem.rupdsSinceEstart_concat]
    rfl
  exact ⟨fun straddled => absurd straddled alone, fun _ => none⟩

/-- The slot that leaves the stability boundary behind. -/
theorem counted_updating {slots : List ℕ} {epoch prev start : ℕ} {block : B}
    {before : List (WorkItem B)} (startEq : eras.epochStart epoch = .ok start)
    (isPrev : prev ∈ slots) (upToPrev : ∀ slot ∈ slots, slot ≤ prev)
    (inPrev : InEpoch eras epoch prev) (inNext : InEpoch eras epoch (Block.slot block))
    (atOrBefore : prev ≤ start + stabilityWindow)
    (after : start + stabilityWindow < Block.slot block)
    (counted : Counted eras stabilityWindow epoch slots before) :
    Counted eras stabilityWindow epoch (slots ++ [Block.slot block])
      (before ++ ([.rupd (Block.slot block)] ++ [.block block])) := by
  have notYet : ¬ Straddled eras stabilityWindow epoch slots := by
    apply not_straddled_of_le startEq
    intro slot isSlot
    exact Nat.le_trans (upToPrev slot isSlot) atOrBefore
  have straddled : Straddled eras stabilityWindow epoch (slots ++ [Block.slot block]) := by
    rw [straddled_iff startEq]
    exact ⟨⟨prev, List.mem_append_left _ isPrev, inPrev, atOrBefore⟩,
      Block.slot block, by simp, inNext, after⟩
  have one : WorkItem.rupdsSinceEstart
      (before ++ ([.rupd (Block.slot block)] ++ [.block block])) = 1 := by
    rw [← List.append_assoc, WorkItem.rupdsSinceEstart_concat, WorkItem.rupdsSinceEstart_concat,
      counted.never notYet]
    rfl
  exact ⟨fun _ => one, fun not => absurd straddled not⟩

/-- A slot on the same side as the one before it. -/
theorem counted_extending {slots : List ℕ} {epoch prev start : ℕ} {block : B}
    {before : List (WorkItem B)} (startEq : eras.epochStart epoch = .ok start)
    (isPrev : prev ∈ slots) (upToPrev : ∀ slot ∈ slots, slot ≤ prev) (le : prev ≤ Block.slot block)
    (inPrev : InEpoch eras epoch prev)
    (notBetween : ¬ (prev ≤ start + stabilityWindow ∧ start + stabilityWindow < Block.slot block))
    (counted : Counted eras stabilityWindow epoch slots before) :
    Counted eras stabilityWindow epoch (slots ++ [Block.slot block])
      (before ++ ([] ++ [.block block])) := by
  have unchanged : Straddled eras stabilityWindow epoch (slots ++ [Block.slot block]) ↔
      Straddled eras stabilityWindow epoch slots := by
    by_cases beyond : start + stabilityWindow < prev
    · exact straddled_concat_of_lt startEq isPrev inPrev beyond le
    · have nextBefore : Block.slot block ≤ start + stabilityWindow := by omega
      apply iff_of_false
      · apply not_straddled_of_le startEq
        intro slot isSlot
        rcases List.mem_append.mp isSlot with isEarlier | isNext
        · have := upToPrev slot isEarlier
          omega
        · rw [List.mem_singleton.mp isNext]
          exact nextBefore
      · apply not_straddled_of_le startEq
        intro slot isSlot
        have := upToPrev slot isSlot
        omega
  have kept : WorkItem.rupdsSinceEstart (before ++ ([] ++ [.block block])) =
      WorkItem.rupdsSinceEstart before := by
    rw [List.nil_append, WorkItem.rupdsSinceEstart_concat]
    rfl
  constructor
  · intro straddled
    exact kept.trans (counted.once (unchanged.mp straddled))
  · intro not
    exact kept.trans (counted.never fun straddled => not (unchanged.mpr straddled))

omit [Block B] in
theorem counted_single (slot : ℕ) (epoch : ℕ) {items : List (WorkItem B)}
    (none : WorkItem.rupdsSinceEstart items = 0) :
    Counted eras stabilityWindow epoch [slot] items := by
  have alone : ¬ Straddled eras stabilityWindow epoch [slot] := by
    apply not_straddled_of_unique slot
    intro other isOther _
    exact List.mem_singleton.mp isOther
  exact ⟨fun straddled => absurd straddled alone, fun _ => none⟩

/-- A schedule has its reward updates counted, at every block. -/
theorem counted_schedule (continuous : eras.Continuous) {seen : Option ℕ} {blocks : List B}
    {items : List (WorkItem B)} (sorted : (seenSlots seen blocks).Pairwise (· ≤ ·))
    (scheduled : schedule eras stabilityWindow seen blocks = .ok items) {last : ℕ}
    {inLast : ℕ × ℕ} (lastEq : seenAfter seen blocks = some last)
    (inLastEq : eras.slotEpoch last = .ok inLast) :
    Counted eras stabilityWindow inLast.1 (seenSlots seen blocks) items := by
  induction blocks using List.reverseRecOn generalizing items last inLast with
  | nil =>
      rcases Except.ok.inj scheduled with rfl
      rw [seenAfter_nil] at lastEq
      subst lastEq
      exact counted_single last inLast.1 rfl
  | append_singleton earlier block ih =>
      rw [seenAfter_concat] at lastEq
      rcases Option.some.inj lastEq with rfl
      rw [seenSlots_concat] at sorted ⊢
      rcases List.pairwise_append.mp sorted with ⟨sortedEarlier, -, below⟩
      rw [schedule_append] at scheduled
      rcases bind_eq_ok.mp scheduled with ⟨before, beforeEq, scheduledLast⟩
      rcases bind_eq_ok.mp scheduledLast with ⟨final, finalEq, itemsEq⟩
      rcases bind_eq_ok.mp finalEq with ⟨preceding, precedingEq, finalRest⟩
      rcases Except.ok.inj finalRest with rfl
      rcases Except.ok.inj itemsEq with rfl
      cases prevEq : seenAfter seen earlier with
      | none =>
          rw [prevEq] at precedingEq
          rcases Except.ok.inj precedingEq with rfl
          have noSlots := seenSlots_of_none prevEq
          have noBlocks : earlier = [] := by
            cases earlier with
            | nil => rfl
            | cons head tail => simp [seenSlots] at noSlots
          subst noBlocks
          rcases Except.ok.inj beforeEq with rfl
          rw [noSlots]
          exact counted_single (Block.slot block) inLast.1 rfl
      | some prev =>
          rw [prevEq] at precedingEq
          rcases ChainSummary.exists_slotEpoch continuous prev with ⟨inPrev, inPrevEq⟩
          rcases ChainSummary.exists_epochStart continuous inPrev.1 with ⟨start, startEq⟩
          have counted := ih sortedEarlier beforeEq prevEq inPrevEq
          have isPrev := mem_seenSlots_of_seenAfter prevEq
          have upToPrev := le_seenAfter sortedEarlier prevEq
          have le : prev ≤ Block.slot block := below prev isPrev _ (by simp)
          rcases crossing_spec inPrevEq inLastEq startEq precedingEq with
            ⟨different, rfl⟩ | ⟨same, atOrBefore, after, rfl⟩ | ⟨same, notBetween, rfl⟩
          · exact counted_opening continuous upToPrev le inPrevEq inLastEq different before
          · have inNext : InEpoch eras inPrev.1 (Block.slot block) := by
              rw [same]
              exact ⟨inLast.2, inLastEq⟩
            rw [← same]
            exact counted_updating startEq isPrev upToPrev ⟨inPrev.2, inPrevEq⟩ inNext atOrBefore
              after counted
          · rw [← same]
            exact counted_extending startEq isPrev upToPrev le ⟨inPrev.2, inPrevEq⟩ notBetween
              counted

/-- An epoch end in a schedule stands right after what is scheduled for the blocks
before the one that crosses into another epoch. -/
theorem schedule_ewrap {seen : Option ℕ} {blocks : List B} {before after : List (WorkItem B)}
    {slot : ℕ}
    (scheduled : schedule eras stabilityWindow seen blocks = .ok (before ++ .ewrap slot :: after)) :
    ∃ earlier block later prev, blocks = earlier ++ block :: later ∧
      schedule eras stabilityWindow seen earlier = .ok before ∧
      seenAfter seen earlier = some prev ∧
      crossing (B := B) eras stabilityWindow prev (Block.slot block) =
        .ok [.ewrap (Block.slot block), .estart (Block.slot block)] := by
  induction blocks generalizing seen before with
  | nil =>
      have impossible := Except.ok.inj scheduled
      simp at impossible
  | cons block rest ih =>
      rcases bind_eq_ok.mp scheduled with ⟨preceding, precedingEq, scheduledRest⟩
      rcases bind_eq_ok.mp scheduledRest with ⟨items, itemsEq, shape⟩
      have split := Except.ok.inj shape
      -- Where the preceding items are all before the epoch end, it is in the rest.
      have inRest : ∀ skipped, before = preceding ++ .block block :: skipped →
          items = skipped ++ .ewrap slot :: after →
          ∃ earlier next later prev, block :: rest = earlier ++ next :: later ∧
            schedule eras stabilityWindow seen earlier = .ok before ∧
            seenAfter seen earlier = some prev ∧
            crossing (B := B) eras stabilityWindow prev (Block.slot next) =
              .ok [.ewrap (Block.slot next), .estart (Block.slot next)] := by
        intro skipped beforeEq restEq
        rw [restEq] at itemsEq
        rcases ih itemsEq with ⟨earlier, next, later, prev, rfl, earlierEq, prevEq, crossed⟩
        refine ⟨block :: earlier, next, later, prev, rfl, ?_, ?_, crossed⟩
        · rw [schedule, precedingEq, ok_bind, earlierEq, beforeEq]
          rfl
        · rw [seenAfter_cons]
          exact prevEq
      cases seen with
      | none =>
          rcases Except.ok.inj precedingEq with rfl
          rcases before with _ | ⟨first, _ | ⟨second, skipped⟩⟩
          · simp at split
          · simp at split
          · simp only [List.cons_append, List.nil_append, List.cons.injEq] at split
            rcases split with ⟨rfl, rfl, restEq⟩
            exact inRest skipped rfl restEq
      | some prev =>
          rcases crossing_cases precedingEq with rfl | rfl | rfl
          · rcases before with _ | ⟨first, skipped⟩
            · simp at split
            · simp only [List.cons_append, List.nil_append, List.cons.injEq] at split
              rcases split with ⟨rfl, restEq⟩
              exact inRest skipped rfl restEq
          · rcases before with _ | ⟨first, _ | ⟨second, skipped⟩⟩
            · simp at split
            · simp at split
            · simp only [List.cons_append, List.nil_append, List.cons.injEq] at split
              rcases split with ⟨rfl, rfl, restEq⟩
              exact inRest skipped rfl restEq
          · rcases before with _ | ⟨first, _ | ⟨second, _ | ⟨third, skipped⟩⟩⟩
            · exact ⟨[], block, rest, prev, rfl, rfl, rfl, precedingEq⟩
            · simp at split
            · simp at split
            · simp only [List.cons_append, List.nil_append, List.cons.injEq] at split
              rcases split with ⟨rfl, rfl, rfl, restEq⟩
              exact inRest skipped rfl restEq

end Scheduled

namespace WorkRun

variable [Block B] {eras : ChainSummary} {stabilityWindow : ℕ}

/-- In every run, whatever is offered and whenever it is drained: between an epoch end
and the epoch start before it there is exactly one reward update if, and only if,
blocks of that epoch stand on both sides of its stability boundary. -/
theorem rupd_before_ewrap_iff (continuous : eras.Continuous) (stopEpoch : Option ℕ)
    (cursor : Option ChainPoint) (actions : List (WorkAction B)) {run : WorkRun B}
    (executed : (start cursor).execute eras stabilityWindow stopEpoch actions = .ok run)
    (sorted : (seenSlots (cursor.map ChainPoint.slot) run.received).Pairwise (· ≤ ·))
    {before after : List (WorkItem B)} {slot : ℕ}
    (popped : InternalWorkUnit.itemsOf run.units = before ++ .ewrap slot :: after) :
    ∃ prev inPrev, seenAfter (cursor.map ChainPoint.slot) (WorkItem.blocksOf before) = some prev ∧
      eras.slotEpoch prev = .ok inPrev ∧
      (WorkItem.rupdsSinceEstart before = 1 ↔ Straddled eras stabilityWindow inPrev.1
        (seenSlots (cursor.map ChainPoint.slot) run.received)) := by
  rcases onSchedule_execute stopEpoch continuous
    (onSchedule_start eras stabilityWindow cursor) actions with ⟨other, otherEq, onSchedule⟩
  rcases Except.ok.inj (otherEq.symm.trans executed) with rfl
  have scheduled := onSchedule.scheduled
  rw [trace, popped, List.append_assoc, List.cons_append] at scheduled
  rcases schedule_ewrap scheduled with
    ⟨earlier, block, later, prev, receivedEq, earlierEq, prevEq, crossed⟩
  rcases ChainSummary.exists_slotEpoch continuous prev with ⟨inPrev, inPrevEq⟩
  rcases ChainSummary.exists_slotEpoch continuous (Block.slot block) with ⟨inNext, inNextEq⟩
  rcases ChainSummary.exists_epochStart continuous inPrev.1 with ⟨start, startEq⟩
  have splitSlots : seenSlots (cursor.map ChainPoint.slot) other.received =
      seenSlots (cursor.map ChainPoint.slot) earlier ++
        (Block.slot block :: later.map Block.slot) := by
    rw [receivedEq]
    simp [seenSlots]
  rw [splitSlots] at sorted ⊢
  rcases List.pairwise_append.mp sorted with ⟨sortedEarlier, sortedLater, across⟩
  have counted := counted_schedule continuous sortedEarlier earlierEq prevEq inPrevEq
  have isPrev := mem_seenSlots_of_seenAfter prevEq
  have different : inPrev.1 ≠ inNext.1 := by
    rcases crossing_spec inPrevEq inNextEq startEq crossed with
      ⟨different, -⟩ | ⟨-, -, -, isRupd⟩ | ⟨-, -, isEmpty⟩
    · exact different
    · simp at isRupd
    · simp at isEmpty
  have pastEpoch : ∀ slot ∈ Block.slot block :: later.map Block.slot,
      ¬ InEpoch eras inPrev.1 slot := by
    rintro slot isLater ⟨inside, slotEq⟩
    have fromBlock : Block.slot block ≤ slot := by
      rcases List.mem_cons.mp isLater with rfl | isRest
      · exact Nat.le_refl _
      · exact (List.pairwise_cons.mp sortedLater).1 slot isRest
    have toBlock := ChainSummary.slotEpoch_mono continuous
      (across prev isPrev _ List.mem_cons_self) inPrevEq inNextEq
    have toSlot := ChainSummary.slotEpoch_mono continuous fromBlock inNextEq slotEq
    simp only at toSlot
    omega
  have sameSide : Straddled eras stabilityWindow inPrev.1
        (seenSlots (cursor.map ChainPoint.slot) earlier ++
          (Block.slot block :: later.map Block.slot)) ↔
      Straddled eras stabilityWindow inPrev.1
        (seenSlots (cursor.map ChainPoint.slot) earlier) := by
    rw [straddled_iff startEq, straddled_iff startEq]
    have onlyEarlier : ∀ property : ℕ → Prop,
        (∃ slot ∈ seenSlots (cursor.map ChainPoint.slot) earlier ++
          (Block.slot block :: later.map Block.slot), InEpoch eras inPrev.1 slot ∧ property slot) ↔
        ∃ slot ∈ seenSlots (cursor.map ChainPoint.slot) earlier,
          InEpoch eras inPrev.1 slot ∧ property slot := by
      intro property
      constructor
      · rintro ⟨slot, isSlot, inEpoch, holds⟩
        rcases List.mem_append.mp isSlot with isEarlier | isLater
        · exact ⟨slot, isEarlier, inEpoch, holds⟩
        · exact absurd inEpoch (pastEpoch slot isLater)
      · rintro ⟨slot, isSlot, inEpoch, holds⟩
        exact ⟨slot, List.mem_append_left _ isSlot, inEpoch, holds⟩
    rw [onlyEarlier, onlyEarlier]
  refine ⟨prev, inPrev, ?_, inPrevEq, ?_⟩
  · rw [blocksOf_schedule earlierEq]
    exact prevEq
  · rw [sameSide]
    constructor
    · intro once
      by_contra not
      rw [counted.never not] at once
      cases once
    · exact counted.once

/-- An epoch with a block on each side of the boundary at slot forty. -/
theorem rupd_before_ewrap_iff_crossing :
    ∃ run before after, (start none).execute hundredSlotEra 40 none
        (offerAll crossingBlocks 2) = .ok run ∧
      InternalWorkUnit.itemsOf run.units = before ++ .ewrap 110 :: after ∧
      ∃ prev inPrev, seenAfter none (WorkItem.blocksOf before) = some prev ∧
        hundredSlotEra.slotEpoch prev = .ok inPrev ∧
        (WorkItem.rupdsSinceEstart before = 1 ↔
          Straddled hundredSlotEra 40 inPrev.1 (seenSlots none run.received)) := by
  refine ⟨_, [.genesis, .block ⟨10, 1⟩, .block ⟨30, 2⟩, .rupd 50, .block ⟨50, 3⟩],
    [.estart 110, .block ⟨110, 4⟩], rfl, rfl, ?_⟩
  exact rupd_before_ewrap_iff hundredSlotEra_continuous none none (offerAll crossingBlocks 2) rfl
    (by decide) rfl

/-- Blocks at slots 10 and 110: the boundary at slot 40 is inside the first epoch and
after its first block, but no block of the epoch is beyond it. -/
theorem ewrap_without_rupd :
    ∃ run before after, (start none).execute hundredSlotEra 40 none
        (offerAll [⟨10, 1⟩, ⟨110, 2⟩] 0) = .ok run ∧
      (seenSlots none run.received).Pairwise (· ≤ ·) ∧
      InternalWorkUnit.itemsOf run.units = before ++ .ewrap 110 :: after ∧
      hundredSlotEra.epochStart 0 = .ok 0 ∧ InEpoch hundredSlotEra 0 (0 + 40) ∧
      InEpoch hundredSlotEra 0 10 ∧ run.received.head? = some ⟨10, 1⟩ ∧
      WorkItem.rupdsSinceEstart before ≠ 1 := by
  refine ⟨_, [.genesis, .block ⟨10, 1⟩], [.estart 110, .block ⟨110, 2⟩], rfl, by decide, rfl, rfl,
    ⟨40, rfl⟩, ⟨10, rfl⟩, rfl, by decide⟩

end WorkRun

end Dolos
