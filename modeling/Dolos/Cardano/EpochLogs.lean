import Dolos.Cardano.Eras
import Dolos.Cardano.Model.Epochs
import Dolos.Core.ArchiveLogs

/-!
# The log rows of an epoch boundary

The commits of `EwrapWorkUnit` and `EstartWorkUnit`, one after the other, as far as the
archive's log rows go. Every shard and the end of the wrap-up commit the state and then
the archive. After a crash both units start again from the progress the state has; the
rows that were not committed are gone with the process.

What a shard computes from the state is a parameter. Only the wrap-up has rows to log: the
merged rows of the accounts, under the first slot of the epoch before the one that ends,
and the epoch itself, under its own first slot.
-/

namespace Dolos

variable {S V : Type}

/-- `ACCOUNT_SHARDS`. -/
def accountShards : ℕ := 32

/-- What the two units go by, with the rest of the state. -/
structure BoundaryState (S : Type) where
  number : ℕ
  ewrapProgress : Option ShardProgress
  estartProgress : Option ShardProgress
  rest : S
  deriving DecidableEq

/-- What the units compute from the state they load. -/
structure BoundaryLogic (S V : Type) where
  ewrapShard : BoundaryState S → ℕ → S × List (EntityKey × V)
  ewrapFinalize : BoundaryState S → S × V
  estartShard : BoundaryState S → ℕ → S
  estartFinalize : BoundaryState S → S

@[ext]
structure BoundaryStores (S V : Type) where
  state : BoundaryState S
  logs : LogTables V

/-- The next commit of the boundary that is going on, with what it will write. -/
inductive BoundaryPhase (V : Type) where
  | ewrapState (shard : ℕ)
  | ewrapArchive (shard : ℕ) (rows : List (EntityKey × V))
  | ewrapFinalState
  | ewrapFinalArchive (row : V)
  | estartState (shard : ℕ)
  | estartFinalState
  | done
  deriving DecidableEq

structure BoundaryRun (S V : Type) where
  stores : BoundaryStores S V
  phase : BoundaryPhase V

namespace BoundaryState

/-- `total_shards` and `start_shard` of a unit, from the progress it finds. -/
def shardsOf (progress : Option ShardProgress) : ℕ :=
  (progress.map ShardProgress.total).getD accountShards

def startOf (progress : Option ShardProgress) : ℕ :=
  (progress.map ShardProgress.committed).getD 0

def ewrapTotal (state : BoundaryState S) : ℕ := shardsOf state.ewrapProgress

def estartTotal (state : BoundaryState S) : ℕ := shardsOf state.estartProgress

end BoundaryState

namespace BoundaryRun

open BoundaryState

/-- The commit after the wrap-up of the shards before this one. -/
def ewrapFrom (state : BoundaryState S) (shard : ℕ) : BoundaryPhase V :=
  if shard < state.ewrapTotal then .ewrapState shard else .ewrapFinalState

def estartFrom (state : BoundaryState S) (shard : ℕ) : BoundaryPhase V :=
  if shard < state.estartTotal then .estartState shard else .estartFinalState

/-- Where the two units begin. A wrap-up that has no shard to run takes itself for one
that was closed before, and leaves its end out. -/
def begin_ (stores : BoundaryStores S V) : BoundaryRun S V where
  stores := stores
  phase :=
    if startOf stores.state.ewrapProgress ≥ stores.state.ewrapTotal then
      estartFrom stores.state (startOf stores.state.estartProgress)
    else .ewrapState (startOf stores.state.ewrapProgress)

/-- `account_epoch_slot`. -/
def accountEpochSlot (starts : ℕ → ℕ) (state : BoundaryState S) : ℕ := starts (state.number - 1)

/-- One commit. -/
def commit (logic : BoundaryLogic S V) (starts : ℕ → ℕ) (work : BoundaryRun S V) :
    BoundaryRun S V :=
  let state := work.stores.state
  match work.phase with
  | .ewrapState shard =>
      let (rest, rows) := logic.ewrapShard state shard
      let progress :=
        (ShardProgress.advance state.ewrapProgress shard state.ewrapTotal).or state.ewrapProgress
      ⟨{ work.stores with state := { state with ewrapProgress := progress, rest := rest } },
        .ewrapArchive shard rows⟩
  | .ewrapArchive shard rows =>
      ⟨{ work.stores with
          logs := work.stores.logs.writeRows .accountEpochs (accountEpochSlot starts state) rows },
        ewrapFrom state (shard + 1)⟩
  | .ewrapFinalState =>
      let (rest, row) := logic.ewrapFinalize state
      ⟨{ work.stores with state := { state with rest := rest } }, .ewrapFinalArchive row⟩
  | .ewrapFinalArchive row =>
      ⟨{ work.stores with
          logs := work.stores.logs.writeLog .epochs (logKeyOf (starts state.number)) row },
        estartFrom state (startOf state.estartProgress)⟩
  | .estartState shard =>
      let progress :=
        (ShardProgress.advance state.estartProgress shard state.estartTotal).or state.estartProgress
      let next := { state with estartProgress := progress, rest := logic.estartShard state shard }
      ⟨{ work.stores with state := next }, estartFrom next (shard + 1)⟩
  | .estartFinalState =>
      -- A boundary whose shards are not all there is refused.
      if state.estartProgress.any fun progress => progress.committed = progress.total then
        ⟨{ work.stores with
            state := ⟨state.number + 1, none, none, logic.estartFinalize state⟩ }, .done⟩
      else work
  | .done => work

/-- A boundary goes on by commits, or starts again after a crash that loses what is not in
the stores. The predicate says where the crashes may be. -/
inductive Goes (logic : BoundaryLogic S V) (starts : ℕ → ℕ) (Crashes : BoundaryRun S V → Prop) :
    BoundaryRun S V → BoundaryRun S V → Prop
  | done {work : BoundaryRun S V} : Goes logic starts Crashes work work
  | commit {work last : BoundaryRun S V} :
      Goes logic starts Crashes (work.commit logic starts) last →
      Goes logic starts Crashes work last
  | crash {work last : BoundaryRun S V} : work.phase ≠ .done → Crashes work →
      Goes logic starts Crashes (begin_ work.stores) last → Goes logic starts Crashes work last

/-- Where a crash loses nothing: not between the commits of a shard that has rows, and not
from the last shard of the wrap-up on to its end. -/
def Harmless (work : BoundaryRun S V) : Prop :=
  match work.phase with
  | .ewrapState _ => True
  | .ewrapArchive shard rows => rows = [] ∧ shard + 1 < work.stores.state.ewrapTotal
  | .ewrapFinalState => False
  | .ewrapFinalArchive _ => False
  | .estartState _ => True
  | .estartFinalState => True
  | .done => True

end BoundaryRun

/-- What happens to a node: blocks of the epoch, a rollback to a block of it, and the
boundary to the next. What the blocks make of the state is not looked at. -/
inductive EpochEvent (S : Type) where
  | roll (rest : S)
  | rollback (slot : ℕ) (rest : S)
  | boundary

/-- The event without what a rollback does to the archive. -/
def EpochEvent.kept : EpochEvent S → EpochEvent S
  | roll rest => roll rest
  | rollback _ rest => roll rest
  | boundary => boundary

namespace BoundaryStores

open BoundaryRun

def settle (stores : BoundaryStores S V) (rest : S) : BoundaryStores S V :=
  { stores with state := { stores.state with rest := rest } }

/-- A run over whole boundaries. A rollback stays in the epoch that has just started. -/
inductive Runs (logic : BoundaryLogic S V) (starts : ℕ → ℕ) (Crashes : BoundaryRun S V → Prop) :
    BoundaryStores S V → List (EpochEvent S) → BoundaryStores S V → Prop
  | nil {stores : BoundaryStores S V} : Runs logic starts Crashes stores [] stores
  | roll {stores last : BoundaryStores S V} {rest : S} {events : List (EpochEvent S)} :
      Runs logic starts Crashes (stores.settle rest) events last →
      Runs logic starts Crashes stores (.roll rest :: events) last
  | rollback {stores last : BoundaryStores S V} {slot : ℕ} {rest : S}
      {events : List (EpochEvent S)} :
      starts stores.state.number ≤ slot →
      Runs logic starts Crashes
        { stores.settle rest with logs := stores.logs.removeAfter slot } events last →
      Runs logic starts Crashes stores (.rollback slot rest :: events) last
  | boundary {stores next last : BoundaryStores S V} {events : List (EpochEvent S)} :
      Goes logic starts Crashes (begin_ stores) ⟨next, .done⟩ →
      Runs logic starts Crashes next events last →
      Runs logic starts Crashes stores (.boundary :: events) last

end BoundaryStores

namespace BoundaryRun

open BoundaryState

variable {logic : BoundaryLogic S V} {starts : ℕ → ℕ} {work : BoundaryRun S V}

/-- The progress in the state and the place in the units belong together. -/
def InStep (work : BoundaryRun S V) : Prop :=
  let state := work.stores.state
  let closed : ShardProgress := ⟨accountShards, accountShards⟩
  match work.phase with
  | .ewrapState shard =>
      startOf state.ewrapProgress = shard ∧ state.ewrapTotal = accountShards ∧
        shard < accountShards ∧ state.estartProgress = none
  | .ewrapArchive shard _ =>
      state.ewrapProgress = some ⟨shard + 1, accountShards⟩ ∧ shard < accountShards ∧
        state.estartProgress = none
  | .ewrapFinalState => state.ewrapProgress = some closed ∧ state.estartProgress = none
  | .ewrapFinalArchive _ => state.ewrapProgress = some closed ∧ state.estartProgress = none
  | .estartState shard =>
      state.ewrapProgress = some closed ∧ startOf state.estartProgress = shard ∧
        state.estartTotal = accountShards ∧ shard < accountShards
  | .estartFinalState =>
      state.ewrapProgress = some closed ∧ state.estartProgress = some closed
  | .done => state.ewrapProgress = none ∧ state.estartProgress = none

theorem advance_next {progress : Option ShardProgress} {shard : ℕ}
    (isNext : startOf progress = shard) (total : shardsOf progress = accountShards) :
    (ShardProgress.advance progress shard (shardsOf progress)).or progress =
      some ⟨shard + 1, accountShards⟩ := by
  cases progress with
  | none =>
      rw [ShardProgress.advance, if_pos ⟨isNext, rfl⟩, total]
      rfl
  | some held =>
      rw [ShardProgress.advance, if_pos ⟨isNext, by simp [shardsOf]⟩, total]
      rfl

theorem inStep_commit (inStep : work.InStep) : (work.commit logic starts).InStep := by
  rcases work with ⟨⟨⟨number, ewrap, estart, rest⟩, logs⟩, phase⟩
  cases phase with
  | ewrapState shard =>
      rcases inStep with ⟨isNext, total, inside, fresh⟩
      exact ⟨advance_next isNext total, inside, fresh⟩
  | ewrapArchive shard rows =>
      rcases inStep with ⟨rfl, inside, fresh⟩
      by_cases more : shard + 1 < accountShards
      · simp only [commit, ewrapFrom, ewrapTotal, shardsOf, Option.map_some, Option.getD_some,
          more, if_true]
        exact ⟨rfl, rfl, more, fresh⟩
      · have isLast : shard + 1 = accountShards := by omega
        simp only [commit, ewrapFrom, ewrapTotal, shardsOf, Option.map_some, Option.getD_some,
          more, if_false]
        exact ⟨by simp only [isLast], fresh⟩
  | ewrapFinalState => exact inStep
  | ewrapFinalArchive row =>
      rcases inStep with ⟨closed, rfl⟩
      exact ⟨closed, rfl, rfl, show 0 < accountShards by decide⟩
  | estartState shard =>
      rcases inStep with ⟨closed, isNext, total, inside⟩
      have advanced := advance_next isNext total
      simp only at advanced
      simp only [commit, estartTotal, advanced]
      by_cases more : shard + 1 < accountShards
      · simp only [estartFrom, estartTotal, shardsOf, Option.map_some, Option.getD_some, more,
          if_true]
        exact ⟨closed, rfl, rfl, more⟩
      · have isLast : shard + 1 = accountShards := by omega
        simp only [estartFrom, estartTotal, shardsOf, Option.map_some, Option.getD_some, more,
          if_false]
        exact ⟨closed, by simp only [isLast]⟩
  | estartFinalState =>
      rcases inStep with ⟨rfl, rfl⟩
      simp only [commit]
      exact ⟨rfl, rfl⟩
  | done => exact inStep

/-- A boundary that starts again where a crash is harmless is where it was, or one commit
further. -/
theorem begin_of_harmless (inStep : work.InStep) (working : work.phase ≠ .done)
    (harmless : work.Harmless) :
    begin_ work.stores = work ∨ begin_ work.stores = work.commit logic starts := by
  rcases work with ⟨⟨⟨number, ewrap, estart, rest⟩, logs⟩, phase⟩
  cases phase with
  | ewrapState shard =>
      rcases inStep with ⟨isNext, total, inside, fresh⟩
      left
      simp only at isNext total
      simp only [begin_, total, isNext, ge_iff_le, Nat.not_le.mpr inside, if_false]
  | ewrapArchive shard rows =>
      rcases inStep with ⟨rfl, inside, fresh⟩
      rcases harmless with ⟨rfl, more⟩
      simp only [ewrapTotal, shardsOf, Option.map_some, Option.getD_some] at more
      right
      simp only [begin_, commit, ewrapFrom, ewrapTotal, shardsOf, startOf, Option.map_some,
        Option.getD_some, ge_iff_le, Nat.not_le.mpr more, more, if_true, if_false]
      rfl
  | ewrapFinalState => cases harmless
  | ewrapFinalArchive row => cases harmless
  | estartState shard =>
      rcases inStep with ⟨rfl, isNext, total, inside⟩
      left
      simp only at isNext total
      simp only [begin_, ewrapTotal, shardsOf, startOf, Option.map_some, Option.getD_some,
        ge_iff_le, Nat.le_refl, if_true]
      rw [← startOf, isNext, estartFrom, total, if_pos inside]
  | estartFinalState =>
      rcases inStep with ⟨rfl, rfl⟩
      left
      rfl
  | done => exact absurd rfl working

/-- A boundary that is interrupted only where that is harmless ends as one that is not. -/
theorem Goes.uninterrupted {last : BoundaryRun S V}
    (goes : Goes logic starts Harmless work last) (inStep : work.InStep) :
    Goes logic starts (fun _ => False) work last := by
  induction goes with
  | done => exact .done
  | commit _ ih => exact .commit (ih (inStep_commit inStep))
  | @crash work last working harmless _ ih =>
      rcases @begin_of_harmless S V logic starts work inStep working harmless with same | next
      · rw [same] at ih
        exact ih inStep
      · rw [next] at ih
        exact .commit (ih (inStep_commit inStep))

/-- The commits that are left. -/
def remaining (work : BoundaryRun S V) : ℕ :=
  match work.phase with
  | .ewrapState shard => 2 * (accountShards - shard) + accountShards + 3
  | .ewrapArchive shard _ => 2 * (accountShards - shard) + accountShards + 2
  | .ewrapFinalState => accountShards + 3
  | .ewrapFinalArchive _ => accountShards + 2
  | .estartState shard => accountShards - shard + 1
  | .estartFinalState => 1
  | .done => 0

theorem remaining_commit_lt (inStep : work.InStep) (working : work.phase ≠ .done) :
    (work.commit logic starts).remaining < work.remaining := by
  rcases work with ⟨⟨⟨number, ewrap, estart, rest⟩, logs⟩, phase⟩
  cases phase with
  | ewrapState shard =>
      simp only [commit, remaining]
      omega
  | ewrapArchive shard rows =>
      rcases inStep with ⟨rfl, inside, -⟩
      by_cases more : shard + 1 < accountShards
      · simp only [commit, ewrapFrom, ewrapTotal, shardsOf, Option.map_some, Option.getD_some,
          more, if_true, remaining]
        omega
      · simp only [commit, ewrapFrom, ewrapTotal, shardsOf, Option.map_some, Option.getD_some,
          more, if_false, remaining]
        omega
  | ewrapFinalState =>
      simp only [commit, remaining]
      omega
  | ewrapFinalArchive row =>
      rcases inStep with ⟨-, rfl⟩
      have opens : 0 < accountShards := by decide
      simp only [commit, estartFrom, estartTotal, shardsOf, startOf, Option.map_none,
        Option.getD_none, opens, if_true, remaining]
      omega
  | estartState shard =>
      rcases inStep with ⟨-, isNext, total, inside⟩
      have advanced := advance_next isNext total
      simp only at advanced
      simp only [commit, estartTotal, advanced]
      simp only [estartFrom, estartTotal, shardsOf, Option.map_some, Option.getD_some]
      by_cases more : shard + 1 < accountShards
      · simp only [more, if_true, remaining]
        omega
      · simp only [more, if_false, remaining]
        omega
  | estartFinalState =>
      rcases inStep with ⟨-, rfl⟩
      simp [commit, remaining]
  | done => exact absurd rfl working

/-- A boundary that is not interrupted comes to its end. -/
theorem exists_goes (inStep : work.InStep) :
    ∃ stores, Goes logic starts (fun _ => False) work ⟨stores, .done⟩ := by
  induction sizeEq : work.remaining using Nat.strong_induction_on generalizing work with
  | _ size ih =>
      by_cases ended : work.phase = .done
      · refine ⟨work.stores, ?_⟩
        rw [← ended]
        exact .done
      · have less := @remaining_commit_lt S V logic starts work inStep ended
        rw [sizeEq] at less
        rcases ih _ less (inStep_commit inStep) rfl with ⟨stores, goes⟩
        exact ⟨stores, .commit goes⟩

theorem iterate_of_goes {last : BoundaryRun S V}
    (goes : Goes logic starts (fun _ => False) work last) :
    ∃ count, (commit logic starts)^[count] work = last := by
  induction goes with
  | done => exact ⟨0, rfl⟩
  | commit _ ih =>
      rcases ih with ⟨count, reached⟩
      exact ⟨count + 1, reached⟩
  | crash _ impossible _ => exact absurd impossible id

theorem goes_of_iterate {Crashes : BoundaryRun S V → Prop} {last : BoundaryRun S V} (count : ℕ)
    (goes : Goes logic starts Crashes ((commit logic starts)^[count] work) last) :
    Goes logic starts Crashes work last := by
  induction count generalizing work with
  | zero => exact goes
  | succ count ih => exact .commit (ih goes)

theorem goes_done_of_iterate {Crashes : BoundaryRun S V → Prop} {count : ℕ}
    (isDone : ((commit logic starts)^[count] work).phase = .done) :
    Goes logic starts Crashes work ⟨((commit logic starts)^[count] work).stores, .done⟩ := by
  apply goes_of_iterate count
  rw [← isDone]
  exact .done

/-- It has one end. -/
theorem goes_unique {first second : BoundaryStores S V}
    (firstGoes : Goes logic starts (fun _ => False) work ⟨first, .done⟩)
    (secondGoes : Goes logic starts (fun _ => False) work ⟨second, .done⟩) : first = second := by
  have rests : ∀ (stores : BoundaryStores S V) count,
      (commit logic starts)^[count] ⟨stores, .done⟩ = ⟨stores, .done⟩ := by
    intro stores count
    exact Function.iterate_fixed rfl count
  have meets : ∀ {few many : ℕ} {left right : BoundaryStores S V}, few ≤ many →
      (commit logic starts)^[few] work = ⟨left, .done⟩ →
      (commit logic starts)^[many] work = ⟨right, .done⟩ → left = right := by
    intro few many left right le reached reachedLater
    rw [← Nat.sub_add_cancel le, Function.iterate_add_apply, reached, rests] at reachedLater
    exact congrArg stores reachedLater
  rcases iterate_of_goes firstGoes with ⟨few, firstReached⟩
  rcases iterate_of_goes secondGoes with ⟨many, secondReached⟩
  rcases Nat.le_total few many with le | le
  · exact meets le firstReached secondReached
  · exact (meets le secondReached firstReached).symm

/-- Where the rows of a boundary stand. -/
structure Within (starts : ℕ → ℕ) (number : ℕ) (work : BoundaryRun S V) : Prop where
  logged : work.stores.logs.Before (starts (number + 1))
  going : work.phase ≠ .done → work.stores.state.number = number
  ended : work.phase = .done → work.stores.state.number = number + 1

theorem Within.commit {number : ℕ} (within : work.Within starts number) (mono : StrictMono starts)
    (inStep : work.InStep) : (work.commit logic starts).Within starts number := by
  rcases work with ⟨⟨⟨current, ewrap, estart, rest⟩, logs⟩, phase⟩
  rcases within with ⟨logged, going, ended⟩
  cases phase with
  | ewrapState shard => exact ⟨logged, fun _ => going (by simp), fun isDone => by cases isDone⟩
  | ewrapArchive shard rows =>
      have isCurrent : current = number := going (by simp)
      refine ⟨?_, fun _ => isCurrent, ?_⟩
      · apply LogTables.Before.writeRows logged
        have earlier : number - 1 < number + 1 := by omega
        rw [accountEpochSlot]
        simp only [isCurrent]
        exact mono earlier
      · intro isDone
        simp only [BoundaryRun.commit, ewrapFrom] at isDone
        split at isDone
        · cases isDone
        · cases isDone
  | ewrapFinalState => exact ⟨logged, fun _ => going (by simp), fun isDone => by cases isDone⟩
  | ewrapFinalArchive row =>
      have isCurrent : current = number := going (by simp)
      refine ⟨?_, fun _ => isCurrent, ?_⟩
      · apply LogTables.Before.writeLog logged
        rw [isCurrent]
        exact mono (Nat.lt_succ_self number)
      · intro isDone
        simp only [BoundaryRun.commit, estartFrom] at isDone
        split at isDone
        · cases isDone
        · cases isDone
  | estartState shard =>
      refine ⟨logged, fun _ => going (by simp), ?_⟩
      intro isDone
      simp only [BoundaryRun.commit, estartFrom] at isDone
      split at isDone
      · cases isDone
      · cases isDone
  | estartFinalState =>
      rcases inStep with ⟨-, rfl⟩
      have isCurrent : current = number := going (by simp)
      refine ⟨logged, fun working => absurd rfl working, fun _ => ?_⟩
      rw [← isCurrent]
      rfl
  | done => exact ⟨logged, going, ended⟩

theorem Goes.within {last : BoundaryRun S V} {number : ℕ} (mono : StrictMono starts)
    (goes : Goes logic starts (fun _ => False) work last) (inStep : work.InStep)
    (within : work.Within starts number) : last.InStep ∧ last.Within starts number := by
  induction goes with
  | done => exact ⟨inStep, within⟩
  | commit _ ih => exact ih (inStep_commit inStep) (within.commit mono inStep)
  | crash _ impossible _ => exact absurd impossible id

end BoundaryRun

namespace BoundaryStores

open BoundaryRun

variable {logic : BoundaryLogic S V} {starts : ℕ → ℕ} {stores last : BoundaryStores S V}
  {events : List (EpochEvent S)}

/-- Between two boundaries: nothing in progress, and every row under an earlier epoch. -/
structure Settled (starts : ℕ → ℕ) (stores : BoundaryStores S V) : Prop where
  unwrapped : stores.state.ewrapProgress = none
  unstarted : stores.state.estartProgress = none
  logged : stores.logs.Before (starts stores.state.number)

theorem Settled.inStep (settled : Settled starts stores) : (begin_ stores).InStep := by
  rcases stores with ⟨⟨number, ewrap, estart, rest⟩, logs⟩
  rcases settled with ⟨rfl, rfl, -⟩
  exact ⟨rfl, rfl, show 0 < accountShards by decide, rfl⟩

theorem Settled.within (settled : Settled starts stores) (mono : StrictMono starts) :
    (begin_ stores).Within starts stores.state.number := by
  have logged := settled.logged.mono (mono (Nat.lt_succ_self stores.state.number)).le
  have working : (begin_ stores).phase ≠ .done := by
    rcases stores with ⟨⟨number, ewrap, estart, rest⟩, logs⟩
    rcases settled with ⟨rfl, rfl, -⟩
    intro isDone
    cases isDone
  exact ⟨logged, fun _ => rfl, fun isDone => absurd isDone working⟩

/-- After a boundary. -/
theorem Settled.boundary {next : BoundaryStores S V} (settled : Settled starts stores)
    (mono : StrictMono starts)
    (goes : Goes logic starts (fun _ => False) (begin_ stores) ⟨next, .done⟩) :
    Settled starts next := by
  rcases goes.within mono settled.inStep (settled.within mono) with ⟨⟨unwrapped, unstarted⟩, within⟩
  refine ⟨unwrapped, unstarted, ?_⟩
  have isNext : next.state.number = stores.state.number + 1 := within.ended rfl
  rw [isNext]
  exact within.logged

theorem Settled.settle (settled : Settled starts stores) (rest : S) :
    Settled starts (stores.settle rest) :=
  ⟨settled.unwrapped, settled.unstarted, settled.logged⟩

/-- Boundaries that are interrupted only where that is harmless leave the run as if nothing
had happened, and so do rollbacks into the epoch that has started. -/
theorem Runs.uninterrupted (mono : StrictMono starts)
    (run : Runs logic starts Harmless stores events last) (settled : Settled starts stores) :
    Runs logic starts (fun _ => False) stores (events.map EpochEvent.kept) last := by
  induction run with
  | nil => exact .nil
  | @roll stores _ rest _ _ ih => exact .roll (ih (settled.settle rest))
  | @rollback stores _ slot rest _ inEpoch _ ih =>
      have kept : stores.logs.removeAfter slot = stores.logs :=
        LogTables.removeAfter_of_before (settled.logged.mono inEpoch)
      rw [kept] at ih
      exact .roll (ih (settled.settle rest))
  | boundary goes _ ih =>
      have whole := goes.uninterrupted settled.inStep
      exact .boundary whole (ih (settled.boundary mono whole))

theorem runs_unique {first second : BoundaryStores S V}
    (firstRun : Runs logic starts (fun _ => False) stores events first)
    (secondRun : Runs logic starts (fun _ => False) stores events second) : first = second := by
  induction firstRun with
  | nil =>
      cases secondRun
      rfl
  | roll _ ih =>
      cases secondRun with
      | roll later => exact ih later
  | rollback _ _ ih =>
      cases secondRun with
      | rollback _ later => exact ih later
  | boundary goes _ ih =>
      cases secondRun with
      | boundary otherGoes later =>
          rw [← goes_unique goes otherGoes] at later
          exact ih later

theorem exists_runs (mono : StrictMono starts) (settled : Settled starts stores)
    (events : List (EpochEvent S)) :
    ∃ last, Runs logic starts (fun _ => False) stores (events.map EpochEvent.kept) last := by
  induction events generalizing stores with
  | nil => exact ⟨stores, .nil⟩
  | cons event rest ih =>
      cases event with
      | roll change =>
          rcases ih (settled.settle change) with ⟨last, run⟩
          exact ⟨last, .roll run⟩
      | rollback slot change =>
          rcases ih (settled.settle change) with ⟨last, run⟩
          exact ⟨last, .roll run⟩
      | boundary =>
          rcases exists_goes settled.inStep with ⟨next, goes⟩
          rcases ih (settled.boundary mono goes) with ⟨last, run⟩
          exact ⟨last, .boundary goes run⟩

/-- A node before its first block. -/
def genesis (rest : S) : BoundaryStores S V := ⟨⟨0, none, none, rest⟩, .empty⟩

theorem settled_genesis (starts : ℕ → ℕ) (rest : S) :
    Settled starts (genesis rest : BoundaryStores S V) :=
  ⟨rfl, rfl, LogTables.before_empty _⟩

/-- In every run whose crashes are harmless, the log rows are those of the one run with no
crash and no rollback. -/
theorem epoch_logs_complete {summary : ChainSummary} (isStart : summary.Starts starts)
    (logic : BoundaryLogic S V) (rest : S) (events : List (EpochEvent S)) :
    ∃ whole, Runs logic starts (fun _ => False) (genesis rest) (events.map EpochEvent.kept) whole ∧
      (∀ other, Runs logic starts (fun _ => False) (genesis rest) (events.map EpochEvent.kept)
        other → other = whole) ∧
      ∀ last, Runs logic starts Harmless (genesis rest) events last → last.logs = whole.logs := by
  have mono : StrictMono starts := strictMono_nat_of_lt_succ isStart.rises
  have settled := settled_genesis starts rest (V := V)
  rcases exists_runs mono settled events with ⟨whole, wholeRun⟩
  refine ⟨whole, wholeRun, fun other otherRun => runs_unique otherRun wholeRun, ?_⟩
  intro last run
  rw [runs_unique (run.uninterrupted mono settled) wholeRun]

section Sample

/-- One row for every epoch, and one account in the first shard. -/
def oneAccount : BoundaryLogic Unit ℕ where
  ewrapShard := fun _ shard => ((), if shard = 0 then [(1, 7)] else [])
  ewrapFinalize := fun state => ((), state.number)
  estartShard := fun _ _ => ()
  estartFinalize := fun _ => ()

theorem epoch_logs_complete_oneAccount :
    ∃ starts, ChainSummary.oneEra.Starts starts ∧
      ∃ whole, Runs oneAccount starts (fun _ => False) (genesis ()) [.boundary, .roll ()] whole ∧
        ∀ last, Runs oneAccount starts Harmless (genesis ()) [.boundary, .rollback 100 ()] last →
          last.logs = whole.logs := by
  rcases ChainSummary.exists_starts_of_continuous ChainSummary.oneEra_continuous with
    ⟨starts, isStart⟩
  rcases epoch_logs_complete isStart oneAccount () [.boundary, .rollback 100 ()] with
    ⟨whole, run, -, same⟩
  exact ⟨starts, isStart, whole, run, same⟩

/-- The first boundary, cut after the commits of the last shard of its wrap-up. -/
def cutWrapUp : BoundaryRun Unit ℕ :=
  (commit oneAccount (· * 100))^[2 * accountShards] (begin_ (genesis ()))

/-- What is left of the boundary when it starts again. -/
def resumedWrapUp : BoundaryRun Unit ℕ :=
  (commit oneAccount (· * 100))^[accountShards + 1] (begin_ cutWrapUp.stores)

/-- The same boundary without a crash. -/
def wholeWrapUp : BoundaryRun Unit ℕ :=
  (commit oneAccount (· * 100))^[3 * accountShards + 3] (begin_ (genesis ()))

/-- After a crash between the last shard and the end of the wrap-up, the end is left out
and the row of the epoch is never written. -/
theorem epoch_row_lost :
    Runs oneAccount (· * 100) (fun _ => True) (genesis ()) [.boundary] resumedWrapUp.stores ∧
      Runs oneAccount (· * 100) (fun _ => False) (genesis ()) [.boundary] wholeWrapUp.stores ∧
      (resumedWrapUp.stores.logs.rows .epochs).get? (logKeyOf 0) = none ∧
      (wholeWrapUp.stores.logs.rows .epochs).get? (logKeyOf 0) = some 0 := by
  have cutPhase : cutWrapUp.phase ≠ .done := by decide +kernel
  have resumedDone : resumedWrapUp.phase = .done := by decide +kernel
  have wholeDone : wholeWrapUp.phase = .done := by decide +kernel
  have resumed : Goes oneAccount (· * 100) (fun _ => True) (begin_ cutWrapUp.stores)
      ⟨resumedWrapUp.stores, .done⟩ := goes_done_of_iterate resumedDone
  have cut : Goes oneAccount (· * 100) (fun _ => True) (begin_ (genesis ()))
      ⟨resumedWrapUp.stores, .done⟩ :=
    goes_of_iterate (2 * accountShards) (.crash cutPhase trivial resumed)
  exact ⟨.boundary cut .nil, .boundary (goes_done_of_iterate wholeDone) .nil, by decide +kernel,
    by decide +kernel⟩

end Sample

end BoundaryStores

end Dolos
