import Mathlib.Data.List.Induction
import Dolos.Cardano.Model.EpochValue
import Dolos.Lib.Outcome

/-!
# Snapshots of epoch values

What `snapshot_at` of `cardano/src/model/epoch_value.rs` answers after any run of writes,
schedules and transitions. A transition moves the live value one place back and every
snapshot another one, and nothing else touches a snapshot, so a snapshot is the value that
was live when its epoch ended for as long as the epoch is one of the last three.
-/

namespace Dolos

open Outcome

namespace EpochValue

variable {T : Type}

def withScheduled (epoch : ℕ) (next : T) : EpochValue T :=
  ⟨.epoch epoch, some next, none, none, none, none⟩

/-- A value that is in force before the first epoch. -/
def withGenesis (live : T) : EpochValue T :=
  ⟨.epoch 0, none, some live, some live, none, none⟩

/-- A value as it is created at an epoch. -/
inductive Created : ℕ → EpochValue T → Prop
  | new (epoch : ℕ) : Created epoch (.new epoch)
  | withLive (epoch : ℕ) (live : T) : Created epoch (.withLive epoch live)
  | withScheduled (epoch : ℕ) (next : T) : Created epoch (.withScheduled epoch next)
  | withGenesis (live : T) : Created 0 (.withGenesis live)

/-- What is done to a value in the course of the epochs. -/
inductive Change (T : Type) where
  | liveMut (write : Option T → Option T)
  | unwrapLiveMut (write : T → T)
  | reset (live : Option T)
  | replace (live : T)
  | schedule (next : Option T)
  | nextMut (write : T → T)
  | scheduledOrDefault (write : T → T)
  | transition
  | defaultTransition

def Change.isTransition : Change T → Bool
  | transition => true
  | defaultTransition => true
  | _ => false

def change [TransitionDefault T] (value : EpochValue T) : Change T → Except Panic (EpochValue T)
  | .liveMut write => do
      let live ← value.liveMut
      .ok { value with live := write live }
  | .unwrapLiveMut write => do
      let live ← value.unwrapLive
      .ok (value.setLive (write live))
  | .reset live => .ok (value.reset live)
  | .replace live => .ok (value.replace live)
  | .schedule next => .ok (value.schedule next)
  | .nextMut write => .ok { value with next := value.next.map write }
  | .scheduledOrDefault write => do
      let next ← value.scheduledOrDefault
      .ok { value with next := some (write next) }
  | .transition => .ok value.transition
  | .defaultTransition => value.defaultTransition

def run [TransitionDefault T] (value : EpochValue T) (changes : List (Change T)) :
    Except Panic (EpochValue T) :=
  changes.foldlM change value

/-- The slot of a snapshot by how many epochs it lies back. -/
theorem snapshotAt_eq {value : EpochValue T} {current : ℕ}
    (isCurrent : value.epoch = .epoch current)
    (epoch : ℕ) :
    value.snapshotAt epoch =
      if epoch = current then value.live
      else if epoch + 1 = current then value.mark
      else if epoch + 2 = current then value.set
      else if epoch + 3 = current then value.go
      else none := by
  have live : value.epoch = .epoch epoch ↔ epoch = current := by
    rw [isCurrent, EpochPosition.epoch.injEq, eq_comm]
  have mark : value.epoch.mark = some epoch ↔ epoch + 1 = current := by
    simp only [isCurrent, EpochPosition.mark, Option.ite_none_right_eq_some, Option.some.injEq]
    omega
  have set : value.epoch.set = some epoch ↔ epoch + 2 = current := by
    simp only [isCurrent, EpochPosition.set, Option.ite_none_right_eq_some, Option.some.injEq]
    omega
  have go : value.epoch.go = some epoch ↔ epoch + 3 = current := by
    simp only [isCurrent, EpochPosition.go, Option.ite_none_right_eq_some, Option.some.injEq]
    omega
  simp only [snapshotAt, live, mark, set, go]

/-- Rotation: a transition keeps what lies at most three epochs back. -/
theorem snapshotAt_transition {value : EpochValue T} {current epoch : ℕ}
    (isCurrent : value.epoch = .epoch current) (past : epoch ≤ current) :
    value.transition.snapshotAt epoch =
      if current + 1 ≤ epoch + 3 then value.snapshotAt epoch else none := by
  have isNext : value.transition.epoch = .epoch (current + 1) := by
    rw [transition, isCurrent]
    rfl
  rw [snapshotAt_eq isNext, snapshotAt_eq isCurrent, if_neg (by omega)]
  by_cases isLast : epoch = current
  · rw [if_pos (by omega), if_pos (by omega), if_pos isLast]
    rfl
  · rw [if_neg (by omega), if_neg isLast]
    by_cases isMark : epoch + 1 = current
    · rw [if_pos (by omega), if_pos (by omega), if_pos isMark]
      rfl
    · rw [if_neg (by omega), if_neg isMark]
      by_cases isSet : epoch + 2 = current
      · rw [if_pos (by omega), if_pos (by omega), if_pos isSet]
        rfl
      · rw [if_neg (by omega), if_neg (by omega)]

/-- What a change that is no transition leaves as it was. -/
structure SameEpoch (before after : EpochValue T) : Prop where
  epoch : after.epoch = before.epoch
  mark : after.mark = before.mark
  set : after.set = before.set
  go : after.go = before.go

/-- Writes and schedules leave the snapshots of the epochs that ended. -/
theorem SameEpoch.snapshotAt {before after : EpochValue T} (same : SameEpoch before after)
    {current epoch : ℕ} (isCurrent : before.epoch = .epoch current) (other : epoch ≠ current) :
    after.snapshotAt epoch = before.snapshotAt epoch := by
  have stillCurrent := same.epoch.trans isCurrent
  rw [snapshotAt_eq isCurrent, snapshotAt_eq stillCurrent, same.mark, same.set, same.go,
    if_neg other, if_neg other]

/-- Nothing is kept of what lies more than three epochs back. -/
theorem snapshotAt_eq_none {value : EpochValue T} {current epoch : ℕ}
    (isCurrent : value.epoch = .epoch current) (far : epoch + 3 < current ∨ current < epoch) :
    value.snapshotAt epoch = none := by
  rw [snapshotAt_eq isCurrent, if_neg (by omega), if_neg (by omega), if_neg (by omega),
    if_neg (by omega)]

theorem Created.epoch {first : ℕ} {created : EpochValue T} (isCreated : Created first created) :
    created.epoch = .epoch first := by
  cases isCreated <;> rfl

/-- Nothing is known of the epochs before a value was created. -/
theorem Created.snapshotAt_before {first epoch : ℕ} {created : EpochValue T}
    (isCreated : Created first created) (before : epoch < first) :
    created.snapshotAt epoch = none := by
  rw [snapshotAt_eq isCreated.epoch, if_neg (Nat.ne_of_lt before)]
  cases isCreated with
  | new => simp only [EpochValue.new, ite_self]
  | withLive => simp only [EpochValue.withLive, ite_self]
  | withScheduled => simp only [EpochValue.withScheduled, ite_self]
  | withGenesis => cases before

variable [TransitionDefault T]

/-- A scheduled value becomes the live one. -/
theorem defaultTransition_scheduled {value : EpochValue T} {next : T}
    (scheduled : value.next = some next) :
    value.defaultTransition = .ok value.transition ∧ value.transition.live = some next := by
  rw [defaultTransition, scheduled]
  exact ⟨rfl, scheduled⟩

/-- A default transition is a transition once the default is scheduled. -/
theorem defaultTransition_eq_ok {value after : EpochValue T}
    (done : value.defaultTransition = .ok after) :
    ∃ next, after = { value with next := next }.transition := by
  unfold defaultTransition at done
  split at done
  · rcases Except.ok.inj done with rfl
    exact ⟨value.next, rfl⟩
  · rcases bind_eq_ok.mp done with ⟨next, -, afterEq⟩
    exact ⟨next, (Except.ok.inj afterEq).symm⟩

theorem change_cases {value after : EpochValue T} {step : Change T}
    (done : value.change step = .ok after) :
    (step.isTransition = false ∧ SameEpoch value after) ∨
      (step.isTransition = true ∧ ∃ next, after = { value with next := next }.transition) := by
  cases step with
  | liveMut write =>
      rcases bind_eq_ok.mp done with ⟨live, -, afterEq⟩
      rcases Except.ok.inj afterEq with rfl
      exact Or.inl ⟨rfl, rfl, rfl, rfl, rfl⟩
  | unwrapLiveMut write =>
      rcases bind_eq_ok.mp done with ⟨live, -, afterEq⟩
      rcases Except.ok.inj afterEq with rfl
      exact Or.inl ⟨rfl, rfl, rfl, rfl, rfl⟩
  | reset live =>
      rcases Except.ok.inj done with rfl
      exact Or.inl ⟨rfl, rfl, rfl, rfl, rfl⟩
  | replace live =>
      rcases Except.ok.inj done with rfl
      exact Or.inl ⟨rfl, rfl, rfl, rfl, rfl⟩
  | schedule next =>
      rcases Except.ok.inj done with rfl
      exact Or.inl ⟨rfl, rfl, rfl, rfl, rfl⟩
  | nextMut write =>
      rcases Except.ok.inj done with rfl
      exact Or.inl ⟨rfl, rfl, rfl, rfl, rfl⟩
  | scheduledOrDefault write =>
      rcases bind_eq_ok.mp done with ⟨next, -, afterEq⟩
      rcases Except.ok.inj afterEq with rfl
      exact Or.inl ⟨rfl, rfl, rfl, rfl, rfl⟩
  | transition =>
      rcases Except.ok.inj done with rfl
      exact Or.inr ⟨rfl, value.next, rfl⟩
  | defaultTransition => exact Or.inr ⟨rfl, defaultTransition_eq_ok done⟩

/-- The epoch moves with each transition and only with it. -/
theorem change_epoch {value after : EpochValue T} {step : Change T} {current : ℕ}
    (isCurrent : value.epoch = .epoch current) (done : value.change step = .ok after) :
    after.epoch = .epoch (if step.isTransition then current + 1 else current) := by
  rcases change_cases done with ⟨still, same⟩ | ⟨moves, next, rfl⟩
  · rw [still, same.epoch, isCurrent]
    rfl
  · rw [moves, transition, isCurrent]
    rfl

/-- One change and the snapshot of an epoch that has ended. -/
theorem change_snapshotAt {value after : EpochValue T} {step : Change T} {current next epoch : ℕ}
    (isCurrent : value.epoch = .epoch current) (done : value.change step = .ok after)
    (isNext : after.epoch = .epoch next) (past : epoch < current) :
    after.snapshotAt epoch =
      if next ≤ epoch + 3 then value.snapshotAt epoch else none := by
  have moved := change_epoch isCurrent done
  rw [isNext, EpochPosition.epoch.injEq] at moved
  rcases change_cases done with ⟨still, same⟩ | ⟨moves, scheduled, rfl⟩
  · rw [still] at moved
    simp only [Bool.false_eq_true, if_false] at moved
    rw [same.snapshotAt isCurrent (Nat.ne_of_lt past), moved]
    by_cases near : current ≤ epoch + 3
    · rw [if_pos near]
    · rw [if_neg near, snapshotAt_eq_none isCurrent (by omega)]
  · rw [moves] at moved
    simp only [if_true] at moved
    have sameEpoch : ({ value with next := scheduled } : EpochValue T).epoch = .epoch current :=
      isCurrent
    rw [snapshotAt_transition sameEpoch (Nat.le_of_lt past), moved, snapshotAt_eq sameEpoch,
      snapshotAt_eq isCurrent]

section Run

variable {created after : EpochValue T} {changes : List (Change T)} {current : ℕ}

theorem run_epoch (isCurrent : created.epoch = .epoch current)
    (ran : created.run changes = .ok after) :
    after.epoch = .epoch (current + changes.countP Change.isTransition) := by
  induction changes generalizing created current with
  | nil =>
      rcases Except.ok.inj ran with rfl
      exact isCurrent
  | cons step rest ih =>
      rcases bind_eq_ok.mp ran with ⟨middle, done, restRan⟩
      rw [ih (change_epoch isCurrent done) restRan, List.countP_cons]
      congr 1
      split_ifs
      · omega
      · omega

/-- A whole run and the snapshot of an epoch that had ended before it. -/
theorem run_snapshotAt {next epoch : ℕ} (isCurrent : created.epoch = .epoch current)
    (ran : created.run changes = .ok after) (isNext : after.epoch = .epoch next)
    (past : epoch < current) :
    after.snapshotAt epoch = if next ≤ epoch + 3 then created.snapshotAt epoch else none := by
  induction changes generalizing created current with
  | nil =>
      rcases Except.ok.inj ran with rfl
      by_cases near : next ≤ epoch + 3
      · rw [if_pos near]
      · rw [if_neg near, snapshotAt_eq_none isNext (by omega)]
  | cons step rest ih =>
      rcases bind_eq_ok.mp ran with ⟨middle, done, restRan⟩
      have isMiddle := change_epoch isCurrent done
      have middleLe : current ≤ if step.isTransition then current + 1 else current := by
        split_ifs
        · omega
        · omega
      have nextEq := run_epoch isMiddle restRan
      rw [isNext, EpochPosition.epoch.injEq] at nextEq
      rw [ih isMiddle restRan (by omega), change_snapshotAt isCurrent done isMiddle past]
      by_cases near : next ≤ epoch + 3
      · rw [if_pos near, if_pos near, if_pos (by omega)]
      · rw [if_neg near, if_neg near]

/-- In a run the epoch ended with a transition from this live value. -/
def EndedWith (created : EpochValue T) (changes : List (Change T)) (epoch : ℕ)
    (live : Option T) : Prop :=
  ∃ before step later ending, changes = before ++ step :: later ∧ step.isTransition = true ∧
    created.run before = .ok ending ∧ ending.epoch = .epoch epoch ∧ ending.live = live

/-- Every epoch up to the current one has ended with a transition. -/
theorem exists_endedWith {first epoch : ℕ} (isFirst : created.epoch = .epoch first)
    (ran : created.run changes = .ok after) (isCurrent : after.epoch = .epoch current)
    (notBefore : first ≤ epoch) (past : epoch < current) :
    ∃ live, EndedWith created changes epoch live := by
  induction changes using List.reverseRecOn generalizing after current with
  | nil =>
      rcases Except.ok.inj ran with rfl
      rw [isFirst, EpochPosition.epoch.injEq] at isCurrent
      omega
  | append_singleton before step ih =>
      rw [run, List.foldlM_append] at ran
      rcases bind_eq_ok.mp ran with ⟨ending, beforeRan, lastRan⟩
      rw [List.foldlM_cons] at lastRan
      rcases bind_eq_ok.mp lastRan with ⟨last, done, lastEq⟩
      rcases Except.ok.inj lastEq with rfl
      have isEnding := run_epoch isFirst beforeRan
      have moved := change_epoch isEnding done
      rw [isCurrent, EpochPosition.epoch.injEq] at moved
      by_cases earlier : epoch < first + before.countP Change.isTransition
      · rcases ih beforeRan isEnding earlier with
          ⟨live, start, other, later, ended, rfl, moves, startRan, isEpoch, isLive⟩
        exact ⟨live, start, other, later ++ [step], ended, by simp, moves, startRan, isEpoch,
          isLive⟩
      · cases moves : step.isTransition with
        | false =>
            rw [moves] at moved
            simp only [Bool.false_eq_true, if_false] at moved
            omega
        | true =>
            rw [moves] at moved
            simp only [if_true] at moved
            have same : first + before.countP Change.isTransition = epoch := by omega
            rw [same] at isEnding
            exact ⟨ending.live, before, step, [], ending, rfl, moves, beforeRan, isEnding, rfl⟩

/-- The snapshot of an epoch that ended is the value that was live then, while it is kept. -/
theorem EndedWith.snapshotAt {epoch : ℕ} {live : Option T}
    (ended : EndedWith created changes epoch live) (ran : created.run changes = .ok after)
    (isCurrent : after.epoch = .epoch current)
    (near : current ≤ epoch + 3) : after.snapshotAt epoch = live := by
  rcases ended with ⟨before, step, later, ending, rfl, moves, beforeRan, isEpoch, isLive⟩
  rw [run, List.foldlM_append] at ran
  rcases bind_eq_ok.mp ran with ⟨reached, reachedRan, lastRan⟩
  rcases Except.ok.inj (reachedRan.symm.trans beforeRan) with rfl
  rcases bind_eq_ok.mp lastRan with ⟨opened, done, laterRan⟩
  have isOpened := change_epoch isEpoch done
  rw [moves] at isOpened
  rcases change_cases done with ⟨still, -⟩ | ⟨-, scheduled, rfl⟩
  · rw [moves] at still
    cases still
  · have sameEpoch : ({ reached with next := scheduled } : EpochValue T).epoch = .epoch epoch :=
      isEpoch
    rw [run_snapshotAt isOpened laterRan isCurrent (Nat.lt_succ_self epoch), if_pos near,
      snapshotAt_transition sameEpoch (le_refl _), if_pos (by omega), snapshotAt_eq sameEpoch,
      if_pos rfl]
    exact isLive

end Run

/-- Snapshots after any run from the creation of a value on. -/
theorem snapshots_of_run {first : ℕ} {created after : EpochValue T} {changes : List (Change T)}
    (isCreated : Created first created) (ran : created.run changes = .ok after) :
    ∃ current, after.epoch = .epoch current ∧
      current = first + changes.countP Change.isTransition ∧
      after.snapshotAt current = after.live ∧
      (∀ epoch, epoch < first ∨ current < epoch ∨ epoch + 3 < current →
        after.snapshotAt epoch = none) ∧
      (∀ epoch, first ≤ epoch → epoch < current →
        ∃ live, EndedWith created changes epoch live) ∧
      (∀ epoch live, EndedWith created changes epoch live → current ≤ epoch + 3 →
        after.snapshotAt epoch = live) ∧
      (∀ next, after.next = some next →
        after.defaultTransition = .ok after.transition ∧ after.transition.live = some next) ∧
      ∀ step later, step.isTransition = false → after.change step = .ok later →
        ∀ epoch, epoch ≠ current → later.snapshotAt epoch = after.snapshotAt epoch := by
  have isCurrent := run_epoch isCreated.epoch ran
  refine ⟨_, isCurrent, rfl, ?_, ?_, ?_, ?_, ?_, ?_⟩
  · rw [snapshotAt_eq isCurrent, if_pos rfl]
  · intro epoch outside
    by_cases before : epoch < first
    · rw [run_snapshotAt isCreated.epoch ran isCurrent before,
        isCreated.snapshotAt_before before, ite_self]
    · exact snapshotAt_eq_none isCurrent (by omega)
  · intro epoch notBefore past
    exact exists_endedWith isCreated.epoch ran isCurrent notBefore past
  · intro epoch live ended near
    exact ended.snapshotAt ran isCurrent near
  · intro next scheduled
    exact defaultTransition_scheduled scheduled
  · intro step later still done epoch other
    rcases change_cases done with ⟨-, same⟩ | ⟨moves, -⟩
    · exact same.snapshotAt isCurrent other
    · rw [still] at moves
      cases moves

/-- A value that is copied at a transition unless another one was scheduled. -/
@[reducible]
def copied : TransitionDefault ℕ := ⟨fun current => .ok current⟩

/-- Four epochs, the third of which was scheduled. -/
def fourEpochs : List (Change ℕ) :=
  [.liveMut fun _ => some 1, .defaultTransition, .replace 2, .schedule (some 3),
    .defaultTransition, .defaultTransition]

theorem snapshots_of_run_fourEpochs :
    ∃ after, @run ℕ copied (.new 5) fourEpochs = .ok after ∧ after.snapshotAt 5 = some 1 ∧
      after.snapshotAt 6 = some 2 ∧ after.snapshotAt 7 = some 3 := by
  let _ := copied
  have ran : run (.new 5) fourEpochs =
      .ok ⟨.epoch 8, none, some 3, some 3, some 2, some 1⟩ := rfl
  rcases snapshots_of_run (.new 5) ran with ⟨current, isCurrent, -, -, -, -, kept, -, -⟩
  rcases EpochPosition.epoch.inj isCurrent with rfl
  refine ⟨_, ran, kept 5 (some 1) ?_ (by decide), kept 6 (some 2) ?_ (by decide),
    kept 7 (some 3) ?_ (by decide)⟩
  · exact ⟨[.liveMut fun _ => some 1], _, _, _, rfl, rfl, rfl, rfl, rfl⟩
  · exact ⟨[.liveMut fun _ => some 1, .defaultTransition, .replace 2, .schedule (some 3)], _, _, _,
      rfl, rfl, rfl, rfl, rfl⟩
  · exact ⟨[.liveMut fun _ => some 1, .defaultTransition, .replace 2, .schedule (some 3),
      .defaultTransition], _, _, _, rfl, rfl, rfl, rfl, rfl⟩

end EpochValue

end Dolos
