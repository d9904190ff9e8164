import Mathlib.Algebra.BigOperators.Fin
import Mathlib.Data.List.Forall2
import Mathlib.Logic.Function.Basic
import Mathlib.Logic.Relation
import Dolos.Lib.Outcome

/-!
# The pool of layer producers

`produce` of `snapshot/src/export.rs`. Every job has a place in the document; with more
than one worker the jobs run in any order, the first worker takes the index bands before
it helps with the others, and each result is filed under the place of its job. The first
failure stops the queues.

A job stands here as what it returns. The flag that stops the queues is read without
synchronisation, so a worker may go on for a while after it was set.
-/

namespace Dolos.Snapshot

open Outcome

inductive Lane where
  | band
  | light
  deriving DecidableEq, Repr

structure Job (D E : Type) where
  lane : Lane
  run : Except E (List D)

/-- Where a worker is in its loop. A failed job sets the flag before its error is kept. -/
inductive Worker (D E : Type) where
  | idle
  | running (position : ℕ) (run : Except E (List D))
  | reporting (error : E)
  | stopped

structure Pool (D E : Type) (workers : ℕ) where
  bands : List (ℕ × Except E (List D))
  lights : List (ℕ × Except E (List D))
  slots : List (Option (List D))
  failed : Bool
  error : Option E
  workers : Fin workers → Worker D E

variable {D E : Type}

/-- The work a phase still stands for. -/
def Worker.weight : Worker D E → ℕ
  | .stopped => 0
  | .idle => 1
  | .reporting _ => 2
  | .running _ _ => 3

@[simp]
theorem Worker.weight_stopped : (Worker.stopped : Worker D E).weight = 0 := rfl

@[simp]
theorem Worker.weight_idle : (Worker.idle : Worker D E).weight = 1 := rfl

@[simp]
theorem Worker.weight_reporting (error : E) :
    (Worker.reporting error : Worker D E).weight = 2 := rfl

@[simp]
theorem Worker.weight_running (position : ℕ) (run : Except E (List D)) :
    (Worker.running position run).weight = 3 := rfl

/-- The jobs one after the other, on the caller's thread. -/
def produceSerially : List (Job D E) → Except E (List D)
  | [] => .ok []
  | job :: rest => do
      let layers ← job.run
      let later ← produceSerially rest
      .ok (layers ++ later)

def queueOf (lane : Lane) (jobs : List (Job D E)) : List (ℕ × Except E (List D)) :=
  (jobs.zipIdx.filter fun entry => entry.1.lane = lane).map fun entry => (entry.2, entry.1.run)

namespace Pool

variable {workers : ℕ}

def start (jobs : List (Job D E)) (workers : ℕ) : Pool D E workers where
  bands := queueOf .band jobs
  lights := queueOf .light jobs
  slots := List.replicate jobs.length none
  failed := false
  error := none
  workers := fun _ => .idle

def setWorker (pool : Pool D E workers) (worker : Fin workers) (phase : Worker D E) :
    Pool D E workers :=
  { pool with workers := Function.update pool.workers worker phase }

/-- The bands are the first worker's. -/
def Unbanded (pool : Pool D E workers) (worker : Fin workers) : Prop :=
  worker.val = 0 → pool.bands = []

/-- One worker goes on. -/
inductive Step : Pool D E workers → Pool D E workers → Prop
  | takeBand {pool : Pool D E workers} {worker : Fin workers} {job : ℕ × Except E (List D)}
      {rest : List (ℕ × Except E (List D))} :
      worker.val = 0 → pool.workers worker = .idle → pool.bands = job :: rest →
      Step pool ({ pool with bands := rest }.setWorker worker (.running job.1 job.2))
  | takeLight {pool : Pool D E workers} {worker : Fin workers} {job : ℕ × Except E (List D)}
      {rest : List (ℕ × Except E (List D))} :
      pool.Unbanded worker → pool.workers worker = .idle → pool.lights = job :: rest →
      Step pool ({ pool with lights := rest }.setWorker worker (.running job.1 job.2))
  | drained {pool : Pool D E workers} {worker : Fin workers} :
      pool.Unbanded worker → pool.workers worker = .idle → pool.lights = [] →
      Step pool (pool.setWorker worker .stopped)
  | stop {pool : Pool D E workers} {worker : Fin workers} :
      pool.workers worker = .idle → pool.failed = true →
      Step pool (pool.setWorker worker .stopped)
  | file {pool : Pool D E workers} {worker : Fin workers} {position : ℕ} {layers : List D} :
      pool.workers worker = .running position (.ok layers) →
      Step pool
        ({ pool with slots := pool.slots.set position (some layers) }.setWorker worker .idle)
  | fail {pool : Pool D E workers} {worker : Fin workers} {position : ℕ} {error : E} :
      pool.workers worker = .running position (.error error) →
      Step pool ({ pool with failed := true }.setWorker worker (.reporting error))
  | report {pool : Pool D E workers} {worker : Fin workers} {error : E} :
      pool.workers worker = .reporting error →
      Step pool ({ pool with error := pool.error.or (some error) }.setWorker worker .idle)

/-- Every worker has returned. -/
def Quiet (pool : Pool D E workers) : Prop := ∀ worker, pool.workers worker = .stopped

/-- The filled slots in order; nothing when one is empty, which the source takes for
impossible. -/
def collectSlots : List (Option (List D)) → Option (List D)
  | [] => some []
  | slot :: rest => do
      let layers ← slot
      let later ← collectSlots rest
      some (layers ++ later)

def collect (pool : Pool D E workers) : Option (Except E (List D)) :=
  match pool.error with
  | some error => some (.error error)
  | none => (collectSlots pool.slots).map .ok

end Pool

/-- What `produce` may return, for every way its workers can take turns. -/
inductive Produces (jobs : List (Job D E)) : ℕ → Except E (List D) → Prop
  | serial : Produces jobs 1 (produceSerially jobs)
  | pooled {workers : ℕ} {final : Pool D E workers} {result : Except E (List D)} :
      1 < workers → Relation.ReflTransGen Pool.Step (Pool.start jobs workers) final →
      final.Quiet → final.collect = some result → Produces jobs workers result

section Serial

theorem produceSerially_eq_ok {jobs : List (Job D E)} {layers : List D} :
    produceSerially jobs = .ok layers ↔
      ∃ parts, List.Forall₂ (fun job part => job.run = .ok part) jobs parts ∧
        layers = parts.flatten := by
  induction jobs generalizing layers with
  | nil =>
      constructor
      · intro done
        exact ⟨[], .nil, (Except.ok.inj done).symm⟩
      · rintro ⟨parts, each, rfl⟩
        cases each
        rfl
  | cons job rest ih =>
      constructor
      · intro done
        rcases bind_eq_ok.mp done with ⟨part, partEq, restDone⟩
        rcases bind_eq_ok.mp restDone with ⟨later, laterEq, layersEq⟩
        rcases ih.mp laterEq with ⟨parts, each, rfl⟩
        exact ⟨part :: parts, .cons partEq each, (Except.ok.inj layersEq).symm⟩
      · rintro ⟨_, each, rfl⟩
        cases each with
        | @cons _ part _ parts partEq laterEach =>
            have laterEq := ih.mpr ⟨parts, laterEach, rfl⟩
            rw [produceSerially, partEq, ok_bind, laterEq, ok_bind]
            rfl

/-- A failed job keeps the serial walk from returning layers. -/
theorem produceSerially_ne_ok {jobs : List (Job D E)} {job : Job D E} {error : E}
    (member : job ∈ jobs) (fails : job.run = .error error) (layers : List D) :
    produceSerially jobs ≠ .ok layers := by
  intro done
  rcases produceSerially_eq_ok.mp done with ⟨parts, each, -⟩
  have failsNot : ∀ {jobs : List (Job D E)} {parts : List (List D)},
      List.Forall₂ (fun job part => job.run = .ok part) jobs parts → job ∉ jobs := by
    intro jobs parts each
    induction each with
    | nil => simp
    | cons isOk _ ih =>
        intro inJobs
        rcases List.mem_cons.mp inJobs with rfl | isLater
        · rw [fails] at isOk
          cases isOk
        · exact ih isLater
  exact failsNot each member

theorem exists_failed_of_serial {jobs : List (Job D E)} {error : E}
    (failed : produceSerially jobs = .error error) : ∃ job ∈ jobs, job.run = .error error := by
  induction jobs with
  | nil => cases failed
  | cons job rest ih =>
      cases runEq : job.run with
      | error failure =>
          rw [produceSerially, runEq, error_bind] at failed
          rw [Except.error.inj failed] at runEq
          exact ⟨job, List.mem_cons_self, runEq⟩
      | ok part =>
          rw [produceSerially, runEq, ok_bind] at failed
          cases restEq : produceSerially rest with
          | ok later =>
              rw [restEq] at failed
              cases failed
          | error failure =>
              rw [restEq, error_bind] at failed
              rw [Except.error.inj failed] at restEq
              rcases ih restEq with ⟨culprit, member, culpritEq⟩
              exact ⟨culprit, List.mem_cons_of_mem job member, culpritEq⟩

end Serial

namespace Pool

variable {workers : ℕ} {jobs : List (Job D E)} {pool next : Pool D E workers}

/-- The job of a place, by what it returns. -/
def JobAt (jobs : List (Job D E)) (position : ℕ) (run : Except E (List D)) : Prop :=
  (jobs[position]?).map Job.run = some run

theorem mem_queueOf {lane : Lane} {entry : ℕ × Except E (List D)} :
    entry ∈ queueOf lane jobs ↔
      ∃ job, jobs[entry.1]? = some job ∧ job.lane = lane ∧ job.run = entry.2 := by
  simp only [queueOf, List.mem_map, List.mem_filter, decide_eq_true_eq]
  constructor
  · rintro ⟨⟨job, position⟩, ⟨member, inLane⟩, rfl⟩
    exact ⟨job, List.mem_zipIdx_iff_getElem?.mp member, inLane, rfl⟩
  · rintro ⟨job, found, inLane, runEq⟩
    refine ⟨(job, entry.1), ⟨List.mem_zipIdx_iff_getElem?.mpr found, inLane⟩, ?_⟩
    rw [runEq]

/-- An error that was kept or is about to be. -/
def Erring (pool : Pool D E workers) (error : E) : Prop :=
  pool.error = some error ∨ ∃ worker, pool.workers worker = .reporting error

/-- Every job is waiting, running or filed, unless one has failed. -/
structure Accounted (jobs : List (Job D E)) (pool : Pool D E workers) : Prop where
  queued : ∀ entry, entry ∈ pool.bands ∨ entry ∈ pool.lights → JobAt jobs entry.1 entry.2
  running : ∀ worker position run, pool.workers worker = .running position run →
    JobAt jobs position run
  sized : pool.slots.length = jobs.length
  filed : ∀ position layers, pool.slots[position]? = some (some layers) →
    JobAt jobs position (.ok layers)
  placed : pool.failed = false → ∀ position run, JobAt jobs position run →
    (position, run) ∈ pool.bands ∨ (position, run) ∈ pool.lights ∨
      (∃ worker, pool.workers worker = .running position run) ∨
      ∃ layers, pool.slots[position]? = some (some layers)
  raised : pool.failed = true ↔ ∃ error, pool.Erring error
  ofJob : ∀ error, pool.Erring error → ∃ job ∈ jobs, job.run = .error error
  ended : ∀ worker, pool.workers worker = .stopped →
    pool.failed = true ∨ pool.lights = [] ∧ pool.Unbanded worker

theorem accounted_start (jobs : List (Job D E)) (workers : ℕ) :
    Accounted jobs (start jobs workers) := by
  have unerring : ∀ error, ¬ (start jobs workers).Erring error := by
    rintro error (kept | ⟨worker, reporting⟩)
    · cases kept
    · cases reporting
  refine ⟨?_, ?_, ?_, ?_, ?_, ?_, ?_, ?_⟩
  · rintro entry (inBands | inLights)
    · rcases mem_queueOf.mp inBands with ⟨job, found, -, runEq⟩
      simp [JobAt, found, runEq]
    · rcases mem_queueOf.mp inLights with ⟨job, found, -, runEq⟩
      simp [JobAt, found, runEq]
  · intro worker position run atWork
    cases atWork
  · simp [start]
  · intro position layers filed
    simp [start, List.getElem?_replicate] at filed
  · intro _ position run isJob
    rcases Option.map_eq_some_iff.mp isJob with ⟨job, found, runEq⟩
    cases laneEq : job.lane with
    | band => exact Or.inl (mem_queueOf.mpr ⟨job, found, laneEq, runEq⟩)
    | light => exact Or.inr (Or.inl (mem_queueOf.mpr ⟨job, found, laneEq, runEq⟩))
  · constructor
    · intro failed
      cases failed
    · rintro ⟨error, erring⟩
      exact absurd erring (unerring error)
  · intro error erring
    exact absurd erring (unerring error)
  · intro worker stopped
    cases stopped

@[simp]
theorem failed_setWorker (pool : Pool D E workers) (worker : Fin workers) (phase : Worker D E) :
    (pool.setWorker worker phase).failed = pool.failed := rfl

/-- All but one worker and what it touches stay as they are. -/
structure Moves (pool next : Pool D E workers) (worker : Fin workers) (phase : Worker D E) :
    Prop where
  here : next.workers worker = phase
  others : ∀ other, other = worker ∨ next.workers other = pool.workers other

theorem moves_setWorker (pool changed : Pool D E workers) (worker : Fin workers)
    (phase : Worker D E) (sameWorkers : changed.workers = pool.workers) :
    Moves pool (changed.setWorker worker phase) worker phase := by
  constructor
  · exact Function.update_self _ _ _
  · intro other
    by_cases isWorker : other = worker
    · exact Or.inl isWorker
    · right
      rw [← sameWorkers]
      exact Function.update_of_ne isWorker _ _

namespace Moves

variable {worker : Fin workers} {before phase held : Worker D E}

/-- What another worker is at, it still is. -/
theorem exists_of_ne (moves : Moves pool next worker phase) (wasAt : pool.workers worker = before)
    (different : held ≠ before) (holds : ∃ other, pool.workers other = held) :
    ∃ other, next.workers other = held := by
  rcases holds with ⟨other, otherEq⟩
  rcases moves.others other with rfl | kept
  · exact absurd (otherEq.symm.trans wasAt) different
  · exact ⟨other, kept.trans otherEq⟩

/-- What a worker is at now, it was already or has just come to. -/
theorem eq_or_was (moves : Moves pool next worker phase) {other : Fin workers}
    (holds : next.workers other = held) :
    held = phase ∧ other = worker ∨ pool.workers other = held := by
  rcases moves.others other with rfl | kept
  · exact Or.inl ⟨holds.symm.trans moves.here, rfl⟩
  · exact Or.inr (kept.symm.trans holds)

/-- A step that is not about an error leaves the errors as they are. -/
theorem erring_iff (moves : Moves pool next worker phase) (wasAt : pool.workers worker = before)
    (fromNone : ∀ error, before ≠ .reporting error) (toNone : ∀ error, phase ≠ .reporting error)
    (errorEq : next.error = pool.error) (error : E) : next.Erring error ↔ pool.Erring error := by
  constructor
  · rintro (kept | ⟨other, reporting⟩)
    · exact Or.inl (errorEq.symm.trans kept)
    · rcases moves.eq_or_was reporting with ⟨same, -⟩ | was
      · exact absurd same.symm (toNone error)
      · exact Or.inr ⟨other, was⟩
  · rintro (kept | reporting)
    · exact Or.inl (errorEq.trans kept)
    · exact Or.inr (moves.exists_of_ne wasAt (fromNone error).symm reporting)

/-- A worker that goes on was not the one that ended. -/
theorem ended_of (moves : Moves pool next worker phase) (goesOn : phase ≠ .stopped)
    (flag : pool.failed = true → next.failed = true) (lights : pool.lights = [] → next.lights = [])
    (bands : pool.bands = [] → next.bands = [])
    (ended : ∀ worker, pool.workers worker = .stopped →
      pool.failed = true ∨ pool.lights = [] ∧ pool.Unbanded worker) :
    ∀ worker, next.workers worker = .stopped →
      next.failed = true ∨ next.lights = [] ∧ next.Unbanded worker := by
  intro other stopped
  rcases moves.eq_or_was stopped with ⟨same, -⟩ | was
  · exact absurd same.symm goesOn
  · rcases ended other was with failed | ⟨noLights, unbanded⟩
    · exact Or.inl (flag failed)
    · exact Or.inr ⟨lights noLights, fun isFirst => bands (unbanded isFirst)⟩

end Moves

/-- A job goes from a queue to a worker. -/
theorem accounted_take {worker : Fin workers} {job : ℕ × Except E (List D)}
    (accounted : Accounted jobs pool) (wasIdle : pool.workers worker = .idle)
    (moves : Moves pool next worker (.running job.1 job.2))
    (waiting : ∀ entry, (entry ∈ pool.bands ∨ entry ∈ pool.lights) ↔
      entry = job ∨ entry ∈ next.bands ∨ entry ∈ next.lights)
    (slotsEq : next.slots = pool.slots) (failedEq : next.failed = pool.failed)
    (errorEq : next.error = pool.error) (lights : pool.lights = [] → next.lights = [])
    (bands : pool.bands = [] → next.bands = []) : Accounted jobs next := by
  have erringIff := moves.erring_iff wasIdle (by simp) (by simp) errorEq
  refine ⟨?_, ?_, ?_, ?_, ?_, ?_, ?_, ?_⟩
  · intro entry stillWaiting
    exact accounted.queued entry ((waiting entry).mpr (Or.inr stillWaiting))
  · intro other position run atWork
    rcases moves.eq_or_was atWork with ⟨same, -⟩ | was
    · cases same
      exact accounted.queued job ((waiting job).mpr (Or.inl rfl))
    · exact accounted.running other position run was
  · rw [slotsEq]
    exact accounted.sized
  · rw [slotsEq]
    exact accounted.filed
  · intro unfailed position run isJob
    have stillQueued : (position, run) ∈ pool.bands ∨ (position, run) ∈ pool.lights →
        (∃ worker, next.workers worker = .running position run) ∨
          (position, run) ∈ next.bands ∨ (position, run) ∈ next.lights := by
      intro inQueue
      rcases (waiting _).mp inQueue with taken | kept
      · rw [← taken] at moves
        exact Or.inl ⟨worker, moves.here⟩
      · exact Or.inr kept
    rw [failedEq] at unfailed
    rw [slotsEq]
    rcases accounted.placed unfailed position run isJob with inBands | inLights | atWork | isFiled
    · rcases stillQueued (Or.inl inBands) with taken | inBands | inLights
      · exact Or.inr (Or.inr (Or.inl taken))
      · exact Or.inl inBands
      · exact Or.inr (Or.inl inLights)
    · rcases stillQueued (Or.inr inLights) with taken | inBands | inLights
      · exact Or.inr (Or.inr (Or.inl taken))
      · exact Or.inl inBands
      · exact Or.inr (Or.inl inLights)
    · exact Or.inr (Or.inr (Or.inl (moves.exists_of_ne wasIdle (by simp) atWork)))
    · exact Or.inr (Or.inr (Or.inr isFiled))
  · rw [failedEq, accounted.raised]
    simp only [erringIff]
  · intro error erring
    exact accounted.ofJob error ((erringIff error).mp erring)
  · exact moves.ended_of (by simp) (fun failed => failedEq.trans failed) lights bands
      accounted.ended

/-- A worker that ends has a reason to. -/
theorem accounted_end {worker : Fin workers} (accounted : Accounted jobs pool)
    (wasIdle : pool.workers worker = .idle)
    (reason : pool.failed = true ∨ pool.lights = [] ∧ pool.Unbanded worker) :
    Accounted jobs (pool.setWorker worker .stopped) := by
  have moves := moves_setWorker pool pool worker .stopped rfl
  have erringIff := moves.erring_iff wasIdle (by simp) (by simp) rfl
  refine ⟨accounted.queued, ?_, accounted.sized, accounted.filed, ?_, ?_, ?_, ?_⟩
  · intro other position run atWork
    rcases moves.eq_or_was atWork with ⟨same, -⟩ | was
    · cases same
    · exact accounted.running other position run was
  · intro unfailed position run isJob
    rcases accounted.placed unfailed position run isJob with inBands | inLights | atWork | isFiled
    · exact Or.inl inBands
    · exact Or.inr (Or.inl inLights)
    · exact Or.inr (Or.inr (Or.inl (moves.exists_of_ne wasIdle (by simp) atWork)))
    · exact Or.inr (Or.inr (Or.inr isFiled))
  · rw [failed_setWorker, accounted.raised]
    simp only [erringIff]
  · intro error erring
    exact accounted.ofJob error ((erringIff error).mp erring)
  · intro other stopped
    rcases moves.eq_or_was stopped with ⟨-, rfl⟩ | was
    · exact reason
    · exact accounted.ended other was

theorem accounted_file {worker : Fin workers} {position : ℕ} {layers : List D}
    (accounted : Accounted jobs pool)
    (wasRunning : pool.workers worker = .running position (.ok layers)) :
    Accounted jobs
      ({ pool with slots := pool.slots.set position (some layers) }.setWorker worker .idle) := by
  have moves := moves_setWorker pool
    { pool with slots := pool.slots.set position (some layers) } worker .idle rfl
  have erringIff := moves.erring_iff wasRunning (by simp) (by simp) rfl
  have isJob := accounted.running worker position _ wasRunning
  refine ⟨accounted.queued, ?_, ?_, ?_, ?_, ?_, ?_, ?_⟩
  · intro other place run atWork
    rcases moves.eq_or_was atWork with ⟨same, -⟩ | was
    · cases same
    · exact accounted.running other place run was
  · exact (List.length_set).trans accounted.sized
  · intro place held isFiled
    change (pool.slots.set position (some layers))[place]? = _ at isFiled
    rw [List.getElem?_set] at isFiled
    split_ifs at isFiled with same inside
    · rcases Option.some.inj (Option.some.inj isFiled) with rfl
      rw [← same]
      exact isJob
    · exact accounted.filed place held isFiled
  · intro unfailed place run otherJob
    have isFiledHere : ∃ held, (pool.slots.set position (some layers))[position]? =
        some (some held) := by
      have inside : position < pool.slots.length := by
        rcases Option.map_eq_some_iff.mp isJob with ⟨job, found, -⟩
        rw [accounted.sized]
        exact (List.getElem?_eq_some_iff.mp found).1
      exact ⟨layers, by rw [List.getElem?_set_self inside]⟩
    by_cases same : position = place
    · rw [← same]
      exact Or.inr (Or.inr (Or.inr isFiledHere))
    rcases accounted.placed unfailed place run otherJob with inBands | inLights | atWork | isFiled
    · exact Or.inl inBands
    · exact Or.inr (Or.inl inLights)
    · have different : Worker.running place run ≠ .running position (.ok layers) := by
        intro sameJob
        cases sameJob
        exact same rfl
      exact Or.inr (Or.inr (Or.inl (moves.exists_of_ne wasRunning different atWork)))
    · rcases isFiled with ⟨held, heldEq⟩
      refine Or.inr (Or.inr (Or.inr ⟨held, ?_⟩))
      change (pool.slots.set position (some layers))[place]? = _
      rw [List.getElem?_set_ne same]
      exact heldEq
  · rw [failed_setWorker, accounted.raised]
    simp only [erringIff]
  · intro error erring
    exact accounted.ofJob error ((erringIff error).mp erring)
  · exact moves.ended_of (by simp) id id id accounted.ended

theorem accounted_fail {worker : Fin workers} {position : ℕ} {error : E}
    (accounted : Accounted jobs pool)
    (wasRunning : pool.workers worker = .running position (.error error)) :
    Accounted jobs ({ pool with failed := true }.setWorker worker (.reporting error)) := by
  have moves := moves_setWorker pool { pool with failed := true } worker (.reporting error) rfl
  refine ⟨accounted.queued, ?_, accounted.sized, accounted.filed, ?_, ?_, ?_, ?_⟩
  · intro other place run atWork
    rcases moves.eq_or_was atWork with ⟨same, -⟩ | was
    · cases same
    · exact accounted.running other place run was
  · intro unfailed
    cases unfailed
  · exact ⟨fun _ => ⟨error, Or.inr ⟨worker, moves.here⟩⟩, fun _ => rfl⟩
  · rintro kept (isKept | ⟨other, reporting⟩)
    · exact accounted.ofJob kept (Or.inl isKept)
    · rcases moves.eq_or_was reporting with ⟨same, -⟩ | was
      · cases same
        rcases Option.map_eq_some_iff.mp (accounted.running worker position _ wasRunning) with
          ⟨job, found, runEq⟩
        exact ⟨job, List.mem_of_getElem? found, runEq⟩
      · exact accounted.ofJob kept (Or.inr ⟨other, was⟩)
  · intro _ _
    exact Or.inl rfl

theorem accounted_report {worker : Fin workers} {error : E} (accounted : Accounted jobs pool)
    (wasReporting : pool.workers worker = .reporting error) :
    Accounted jobs
      ({ pool with error := pool.error.or (some error) }.setWorker worker .idle) := by
  have moves := moves_setWorker pool { pool with error := pool.error.or (some error) } worker
    .idle rfl
  have failed : pool.failed = true :=
    accounted.raised.mpr ⟨error, Or.inr ⟨worker, wasReporting⟩⟩
  refine ⟨accounted.queued, ?_, accounted.sized, accounted.filed, ?_, ?_, ?_, ?_⟩
  · intro other place run atWork
    rcases moves.eq_or_was atWork with ⟨same, -⟩ | was
    · cases same
    · exact accounted.running other place run was
  · intro unfailed
    rw [failed_setWorker, failed] at unfailed
    cases unfailed
  · refine ⟨fun _ => ?_, fun _ => failed⟩
    cases keptEq : pool.error with
    | none => exact ⟨error, Or.inl (by simp [setWorker])⟩
    | some kept => exact ⟨kept, Or.inl (by simp [setWorker])⟩
  · rintro kept (isKept | ⟨other, reporting⟩)
    · change pool.error.or (some error) = some kept at isKept
      cases keptEq : pool.error with
      | none =>
          rw [keptEq] at isKept
          rcases Option.some.inj isKept with rfl
          exact accounted.ofJob _ (Or.inr ⟨worker, wasReporting⟩)
      | some first =>
          rw [keptEq] at isKept
          rcases Option.some.inj isKept with rfl
          exact accounted.ofJob _ (Or.inl keptEq)
    · rcases moves.eq_or_was reporting with ⟨same, -⟩ | was
      · cases same
      · exact accounted.ofJob kept (Or.inr ⟨other, was⟩)
  · exact moves.ended_of (by simp) id id id accounted.ended

theorem accounted_step (accounted : Accounted jobs pool) (step : Step pool next) :
    Accounted jobs next := by
  cases step with
  | @takeBand worker job rest isFirst wasIdle bandsEq =>
      have moves := moves_setWorker pool { pool with bands := rest } worker
        (.running job.1 job.2) rfl
      apply accounted_take accounted wasIdle moves _ rfl rfl rfl id
      · intro noBands
        rw [bandsEq] at noBands
        cases noBands
      · intro entry
        rw [bandsEq, List.mem_cons, or_assoc]
        rfl
  | @takeLight worker job rest unbanded wasIdle lightsEq =>
      have moves := moves_setWorker pool { pool with lights := rest } worker
        (.running job.1 job.2) rfl
      apply accounted_take accounted wasIdle moves _ rfl rfl rfl _ id
      · intro entry
        rw [lightsEq, List.mem_cons, or_left_comm]
        rfl
      · intro noLights
        rw [lightsEq] at noLights
        cases noLights
  | drained unbanded wasIdle lightsEq =>
      exact accounted_end accounted wasIdle (Or.inr ⟨lightsEq, unbanded⟩)
  | stop wasIdle failed => exact accounted_end accounted wasIdle (Or.inl failed)
  | file wasRunning => exact accounted_file accounted wasRunning
  | fail wasRunning => exact accounted_fail accounted wasRunning
  | report wasReporting => exact accounted_report accounted wasReporting

theorem accounted_of_run (run : Relation.ReflTransGen Step (start jobs workers) pool) :
    Accounted jobs pool := by
  induction run with
  | refl => exact accounted_start jobs workers
  | tail _ step ih => exact accounted_step ih step

section Outcome

/-- Slots that are filled with what the jobs return make up the document. -/
theorem collectSlots_eq {jobs : List (Job D E)} {slots : List (Option (List D))}
    (filled : List.Forall₂ (fun job slot => ∃ layers, job.run = .ok layers ∧ slot = some layers)
      jobs slots) :
    ∃ layers, collectSlots slots = some layers ∧ produceSerially jobs = .ok layers := by
  induction filled with
  | nil => exact ⟨[], rfl, rfl⟩
  | @cons job slot jobs slots isFilled _ ih =>
      rcases isFilled with ⟨part, runEq, rfl⟩
      rcases ih with ⟨layers, collected, serial⟩
      refine ⟨part ++ layers, ?_, ?_⟩
      · simp [collectSlots, collected]
      · rw [produceSerially, runEq, ok_bind, serial, ok_bind]

/-- When every worker has returned and none has failed, every slot is filled. -/
theorem filled_of_quiet (accounted : Accounted jobs pool) (positive : 0 < workers)
    (quiet : pool.Quiet) (unfailed : pool.failed = false) :
    List.Forall₂ (fun job slot => ∃ layers, job.run = .ok layers ∧ slot = some layers)
      jobs pool.slots := by
  rcases accounted.ended ⟨0, positive⟩ (quiet _) with failed | ⟨noLights, unbanded⟩
  · rw [unfailed] at failed
    cases failed
  have noBands : pool.bands = [] := unbanded rfl
  apply List.forall₂_iff_get.mpr
  refine ⟨accounted.sized.symm, ?_⟩
  intro position inJobs inSlots
  have isJob : JobAt jobs position (jobs.get ⟨position, inJobs⟩).run := by
    simp [JobAt, inJobs]
  rcases accounted.placed unfailed position _ isJob with inBands | inLights | ⟨worker, atWork⟩ |
    ⟨layers, isFiled⟩
  · rw [noBands] at inBands
    cases inBands
  · rw [noLights] at inLights
    cases inLights
  · rw [quiet worker] at atWork
    cases atWork
  · have ran := accounted.filed position layers isFiled
    rw [JobAt] at ran isJob
    rw [isJob] at ran
    refine ⟨layers, Option.some.inj ran, ?_⟩
    rw [List.get_eq_getElem]
    exact Option.some.inj ((List.getElem?_eq_getElem inSlots).symm.trans isFiled)

theorem collect_of_quiet (accounted : Accounted jobs pool) (positive : 0 < workers)
    (quiet : pool.Quiet) :
    (∃ layers, pool.collect = some (.ok layers) ∧ produceSerially jobs = .ok layers) ∨
      ∃ error, pool.collect = some (.error error) ∧ ∃ job ∈ jobs, job.run = .error error := by
  cases failedEq : pool.failed with
  | false =>
      left
      rcases collectSlots_eq (filled_of_quiet accounted positive quiet failedEq) with
        ⟨layers, collected, serial⟩
      have noError : pool.error = none := by
        by_contra kept
        rcases Option.ne_none_iff_exists'.mp kept with ⟨error, errorEq⟩
        have failed := accounted.raised.mpr ⟨error, Or.inl errorEq⟩
        rw [failedEq] at failed
        cases failed
      refine ⟨layers, ?_, serial⟩
      rw [collect, noError]
      simp only [collected, Option.map_some]
  | true =>
      right
      rcases accounted.raised.mp failedEq with ⟨error, erring⟩
      have isKept : pool.error = some error := by
        rcases erring with kept | ⟨worker, reporting⟩
        · exact kept
        · rw [quiet worker] at reporting
          cases reporting
      refine ⟨error, ?_, accounted.ofJob error erring⟩
      rw [collect, isKept]

end Outcome

section Progress

/-- The steps a pool can still make. -/
def remaining (pool : Pool D E workers) : ℕ :=
  3 * (pool.bands.length + pool.lights.length) + ∑ worker, (pool.workers worker).weight

theorem sum_setWorker (pool : Pool D E workers) (worker : Fin workers) (phase : Worker D E) :
    (∑ other, ((pool.setWorker worker phase).workers other).weight) +
        (pool.workers worker).weight =
      (∑ other, (pool.workers other).weight) + phase.weight := by
  have split := Finset.add_sum_erase Finset.univ
    (fun other => ((pool.setWorker worker phase).workers other).weight) (Finset.mem_univ worker)
  have splitBefore := Finset.add_sum_erase Finset.univ
    (fun other => (pool.workers other).weight) (Finset.mem_univ worker)
  have rest : ∑ other ∈ Finset.univ.erase worker,
      ((pool.setWorker worker phase).workers other).weight =
        ∑ other ∈ Finset.univ.erase worker, (pool.workers other).weight := by
    apply Finset.sum_congr rfl
    intro other member
    rw [setWorker]
    simp only
    rw [Function.update_of_ne (Finset.ne_of_mem_erase member)]
  have here : (pool.setWorker worker phase).workers worker = phase := Function.update_self _ _ _
  simp only [here] at split
  omega

/-- Every step brings the pool closer to its end. -/
theorem remaining_lt (step : Step pool next) : next.remaining < pool.remaining := by
  cases step with
  | @takeBand worker job rest isFirst wasIdle bandsEq =>
      have sums := sum_setWorker { pool with bands := rest } worker (.running job.1 job.2)
      simp only [wasIdle, Worker.weight_idle, Worker.weight_running] at sums
      simp only [remaining, setWorker, bandsEq, List.length_cons] at sums ⊢
      omega
  | @takeLight worker job rest unbanded wasIdle lightsEq =>
      have sums := sum_setWorker { pool with lights := rest } worker (.running job.1 job.2)
      simp only [wasIdle, Worker.weight_idle, Worker.weight_running] at sums
      simp only [remaining, setWorker, lightsEq, List.length_cons] at sums ⊢
      omega
  | @drained worker unbanded wasIdle lightsEq =>
      have sums := sum_setWorker pool worker .stopped
      simp only [wasIdle, Worker.weight_idle, Worker.weight_stopped] at sums
      simp only [remaining, setWorker] at sums ⊢
      omega
  | @stop worker wasIdle failed =>
      have sums := sum_setWorker pool worker .stopped
      simp only [wasIdle, Worker.weight_idle, Worker.weight_stopped] at sums
      simp only [remaining, setWorker] at sums ⊢
      omega
  | @file worker position layers wasRunning =>
      have sums := sum_setWorker { pool with slots := pool.slots.set position (some layers) }
        worker .idle
      simp only [wasRunning, Worker.weight_running, Worker.weight_idle] at sums
      simp only [remaining, setWorker] at sums ⊢
      omega
  | @fail worker position error wasRunning =>
      have sums := sum_setWorker { pool with failed := true } worker (.reporting error)
      simp only [wasRunning, Worker.weight_running, Worker.weight_reporting] at sums
      simp only [remaining, setWorker] at sums ⊢
      omega
  | @report worker error wasReporting =>
      have sums := sum_setWorker { pool with error := pool.error.or (some error) } worker .idle
      simp only [wasReporting, Worker.weight_reporting, Worker.weight_idle] at sums
      simp only [remaining, setWorker] at sums ⊢
      omega

/-- A worker that has not returned can go on. -/
theorem exists_step (unquiet : ¬ pool.Quiet) : ∃ next, Step pool next := by
  rcases not_forall.mp unquiet with ⟨worker, working⟩
  cases phaseEq : pool.workers worker with
  | stopped => exact absurd phaseEq working
  | running position run =>
      cases run with
      | ok layers => exact ⟨_, .file phaseEq⟩
      | error error => exact ⟨_, .fail phaseEq⟩
  | reporting error => exact ⟨_, .report phaseEq⟩
  | idle =>
      by_cases first : worker.val = 0
      · cases bandsEq : pool.bands with
        | cons job rest => exact ⟨_, .takeBand first phaseEq bandsEq⟩
        | nil =>
            cases lightsEq : pool.lights with
            | cons job rest => exact ⟨_, .takeLight (fun _ => bandsEq) phaseEq lightsEq⟩
            | nil => exact ⟨_, .drained (fun _ => bandsEq) phaseEq lightsEq⟩
      · cases lightsEq : pool.lights with
        | cons job rest =>
            exact ⟨_, .takeLight (fun isFirst => absurd isFirst first) phaseEq lightsEq⟩
        | nil => exact ⟨_, .drained (fun isFirst => absurd isFirst first) phaseEq lightsEq⟩

/-- Every run goes on to an end. -/
theorem exists_quiet (pool : Pool D E workers) :
    ∃ final, Relation.ReflTransGen Step pool final ∧ final.Quiet := by
  induction sizeEq : pool.remaining using Nat.strong_induction_on generalizing pool with
  | _ size ih =>
      by_cases quiet : pool.Quiet
      · exact ⟨pool, .refl, quiet⟩
      · rcases exists_step quiet with ⟨next, step⟩
        have less := remaining_lt step
        rw [sizeEq] at less
        rcases ih next.remaining less next rfl with ⟨final, run, finalQuiet⟩
        exact ⟨final, .head step run, finalQuiet⟩

end Progress

end Pool

section Producing

variable {jobs : List (Job D E)} {workers : ℕ} {result : Except E (List D)}

theorem produces_cases (produces : Produces jobs workers result) :
    (∃ layers, result = .ok layers ∧ produceSerially jobs = .ok layers) ∨
      ∃ error, result = .error error ∧ ∃ job ∈ jobs, job.run = .error error := by
  cases produces with
  | serial =>
      cases serialEq : produceSerially jobs with
      | ok layers => exact Or.inl ⟨layers, rfl, rfl⟩
      | error error =>
          exact Or.inr ⟨error, rfl, exists_failed_of_serial serialEq⟩
  | @pooled _ final _ several run quiet collected =>
      have accounted := Pool.accounted_of_run run
      rcases Pool.collect_of_quiet accounted (by omega) quiet with
        ⟨layers, collectedOk, serial⟩ | ⟨error, collectedError, failed⟩
      · rw [collected] at collectedOk
        exact Or.inl ⟨layers, Option.some.inj collectedOk, serial⟩
      · rw [collected] at collectedError
        exact Or.inr ⟨error, Option.some.inj collectedError, failed⟩

/-- However the workers take turns, the layers are those of the serial walk. -/
theorem produces_ok_iff (produces : Produces jobs workers result) (layers : List D) :
    result = .ok layers ↔ produceSerially jobs = .ok layers := by
  rcases produces_cases produces with ⟨made, rfl, serial⟩ | ⟨error, rfl, job, member, failed⟩
  · rw [serial]
  · constructor
    · intro isOk
      cases isOk
    · intro serial
      exact absurd serial (produceSerially_ne_ok member failed layers)

/-- Any number of workers returns something. -/
theorem exists_produces (jobs : List (Job D E)) (positive : 0 < workers) :
    ∃ result, Produces jobs workers result := by
  by_cases single : workers = 1
  · rw [single]
    exact ⟨_, .serial⟩
  · rcases Pool.exists_quiet (Pool.start jobs workers) with ⟨final, run, quiet⟩
    have accounted := Pool.accounted_of_run run
    rcases Pool.collect_of_quiet accounted positive quiet with
      ⟨layers, collected, -⟩ | ⟨error, collected, -⟩
    · exact ⟨_, .pooled (by omega) run quiet collected⟩
    · exact ⟨_, .pooled (by omega) run quiet collected⟩

end Producing

end Dolos.Snapshot
