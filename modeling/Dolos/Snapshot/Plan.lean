import Dolos.Cardano.Eras

/-!
# What a publish covers

The geometry of `snapshot/src/export.rs`: the slot windows of the epochs up to the one the
cursor stands in, the last of them cut at the cursor, and the epochs a publisher keeps a
dump of the state for.
-/

namespace Dolos.Snapshot

open Outcome

inductive PlanError where
  | unanchoredPoint (cursor : ChainPoint)
  | panic (cause : Panic)
  deriving DecidableEq, Repr

structure EpochWindow where
  epoch : ℕ
  startSlot : ℕ
  endSlot : ℕ
  deriving DecidableEq, Repr

namespace EpochWindow

/-- The half-open range of slots, whose end is past the last slot of the window. -/
def slots (window : EpochWindow) : ℕ × ℕ := (window.startSlot, window.endSlot + 1)

def Contains (window : EpochWindow) (slot : ℕ) : Prop :=
  window.slots.1 ≤ slot ∧ slot < window.slots.2

instance (window : EpochWindow) (slot : ℕ) : Decidable (window.Contains slot) :=
  inferInstanceAs (Decidable (_ ∧ _))

end EpochWindow

/-- The epochs a publisher keeps a dump for. -/
structure RetainedEpochs where
  epochs : List ℕ
  ascending : epochs.Pairwise (· < ·)
  nonzero : 0 ∉ epochs

namespace RetainedEpochs

def empty : RetainedEpochs := ⟨[], .nil, by simp⟩

def due (retained : RetainedEpochs) (sequence : ℕ) : List ℕ :=
  retained.epochs.takeWhile fun epoch => epoch ≤ sequence

def cuts (retained : RetainedEpochs) (sequence : ℕ) : Bool := sequence ∈ retained.epochs

end RetainedEpochs

/-- The band and the producers are how the work is done and not what is published. Neither
can be zero. -/
structure Plan where
  magic : ℕ
  cursor : ChainPoint
  sequence : ℕ
  epochs : List EpochWindow
  retained : RetainedEpochs
  band : ℕ
  producers : ℕ
  bandPositive : 0 < band
  producersPositive : 0 < producers

namespace Plan

def defaultBand : ℕ := (1024 * 1024 * 1024) / (12 * 1024 * 1024)

def defaultProducers : ℕ := 4

theorem defaultBand_pos : 0 < defaultBand := by decide

theorem defaultProducers_pos : 0 < defaultProducers := by decide

def windowOf (summary : ChainSummary) (tipSlot epoch : ℕ) : Except Panic EpochWindow := do
  let start ← summary.epochStart epoch
  let next ← summary.epochStart (epoch + 1)
  .ok ⟨epoch, start, min (next - 1) tipSlot⟩

/-- `Plan::new`. -/
def new (summary : ChainSummary) (magic : ℕ) (cursor : ChainPoint) (retained : RetainedEpochs) :
    Except PlanError Plan :=
  match cursor.hash with
  | none => .error (.unanchoredPoint cursor)
  | some _ => do
      let (tipEpoch, _) ← (summary.slotEpoch cursor.slot).mapError .panic
      let epochs ← ((List.range (tipEpoch + 1)).mapM (windowOf summary cursor.slot)).mapError .panic
      .ok ⟨magic, cursor, tipEpoch, epochs, retained, defaultBand, defaultProducers,
        defaultBand_pos, defaultProducers_pos⟩

def withBand (plan : Plan) (band : ℕ) (positive : 0 < band) : Plan :=
  { plan with band := band, bandPositive := positive }

def withProducers (plan : Plan) (producers : ℕ) (positive : 0 < producers) : Plan :=
  { plan with producers := producers, producersPositive := positive }

def restrictEpochs (plan : Plan) (first last : Option ℕ) : Plan :=
  { plan with
    epochs := plan.epochs.filter fun window =>
      first.all (fun first => first ≤ window.epoch) && last.all fun last => window.epoch ≤ last }

/-- The retained epochs a publish carries forward: the one it stands in is cut from the
tip. -/
def adoptableDumps (plan : Plan) : List ℕ :=
  (plan.retained.due plan.sequence).filter fun epoch => epoch < plan.sequence

def cutsADump (plan : Plan) : Bool := plan.retained.cuts plan.sequence

end Plan

/-- Windows one after the other, none of them empty. -/
structure Ascending (windows : List EpochWindow) : Prop where
  inOrder : windows.Pairwise fun earlier later => earlier.endSlot < later.startSlot
  nonempty : ∀ window ∈ windows, window.startSlot ≤ window.endSlot

theorem Ascending.filter {windows : List EpochWindow} (ascending : Ascending windows)
    (keep : EpochWindow → Bool) : Ascending (windows.filter keep) := by
  constructor
  · exact ascending.inOrder.filter keep
  · intro window member
    exact ascending.nonempty window (List.mem_of_mem_filter member)

theorem Ascending.sublist {windows part : List EpochWindow} (ascending : Ascending windows)
    (isPart : part.Sublist windows) : Ascending part := by
  constructor
  · exact ascending.inOrder.sublist isPart
  · intro window member
    exact ascending.nonempty window (isPart.subset member)

section Geometry

variable {summary : ChainSummary} {starts : ℕ → ℕ} {magic : ℕ} {cursor : ChainPoint}
  {retained : RetainedEpochs} {plan : Plan}

/-- The window of an epoch, cut at a slot. -/
def cutWindow (starts : ℕ → ℕ) (tipSlot epoch : ℕ) : EpochWindow :=
  ⟨epoch, starts epoch, min (starts (epoch + 1) - 1) tipSlot⟩

theorem windowOf_eq (isStart : summary.Starts starts) (tipSlot epoch : ℕ) :
    Plan.windowOf summary tipSlot epoch = .ok (cutWindow starts tipSlot epoch) := by
  rw [Plan.windowOf, isStart.epochStart, ok_bind, isStart.epochStart, ok_bind]
  rfl

/-- What a plan is, on a continuous summary. -/
theorem new_spec (isStart : summary.Starts starts)
    (made : Plan.new summary magic cursor retained = .ok plan) :
    plan.cursor = cursor ∧ plan.magic = magic ∧ plan.retained = retained ∧
      starts plan.sequence ≤ cursor.slot ∧ cursor.slot < starts (plan.sequence + 1) ∧
      plan.epochs = (List.range (plan.sequence + 1)).map (cutWindow starts cursor.slot) := by
  unfold Plan.new at made
  split at made
  · cases made
  · rcases bind_eq_ok.mp made with ⟨⟨tipEpoch, sub⟩, tipEq, rest⟩
    rcases bind_eq_ok.mp rest with ⟨windows, windowsEq, planEq⟩
    rcases Except.ok.inj planEq with rfl
    rcases isStart.slotEpoch _ _ (mapError_eq_ok.mp tipEq) with ⟨before, after⟩
    refine ⟨rfl, rfl, rfl, before, after, ?_⟩
    have mapped : (List.range (tipEpoch + 1)).mapM (Plan.windowOf summary cursor.slot) =
        .ok ((List.range (tipEpoch + 1)).map (cutWindow starts cursor.slot)) := by
      rw [show Plan.windowOf summary cursor.slot =
        fun epoch => pure (cutWindow starts cursor.slot epoch) from
          funext fun epoch => windowOf_eq isStart cursor.slot epoch, List.mapM_pure]
      rfl
    have windowsOk := mapError_eq_ok.mp windowsEq
    rw [mapped] at windowsOk
    exact (Except.ok.inj windowsOk).symm

theorem ascending_cutWindows (rises : ∀ epoch, starts epoch < starts (epoch + 1))
    {tipSlot tipEpoch : ℕ} (reached : starts tipEpoch ≤ tipSlot) :
    Ascending ((List.range (tipEpoch + 1)).map (cutWindow starts tipSlot)) := by
  have mono : StrictMono starts := strictMono_nat_of_lt_succ rises
  constructor
  · rw [List.pairwise_map]
    apply List.pairwise_lt_range.imp
    intro earlier later inOrder
    have risesHere : starts (earlier + 1) ≤ starts later := mono.monotone inOrder
    have positive := rises earlier
    simp only [cutWindow]
    omega
  · intro window member
    rcases List.mem_map.mp member with ⟨epoch, inRange, rfl⟩
    have before := mono.monotone (Nat.lt_succ_iff.mp (List.mem_range.mp inRange))
    have risesHere := rises epoch
    simp only [cutWindow]
    omega

/-- The windows of a plan follow each other, and still do when some are left out. -/
theorem ascending_of_new (continuous : summary.Continuous)
    (made : Plan.new summary magic cursor retained = .ok plan) : Ascending plan.epochs := by
  rcases ChainSummary.exists_starts_of_continuous continuous with ⟨starts, isStart⟩
  rcases new_spec isStart made with ⟨-, -, -, reached, -, epochsEq⟩
  rw [epochsEq]
  exact ascending_cutWindows isStart.rises reached

end Geometry

end Dolos.Snapshot
