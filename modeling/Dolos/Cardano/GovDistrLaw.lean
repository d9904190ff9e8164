import Dolos.Cardano.DrepExpiry
import Dolos.Cardano.GovScan

/-!
# The stake distributions of the boundaries

The shards of a boundary merge their sums into the governance singleton. A shard is merged
where it is the next one of the boundary in progress, or the first one of a later boundary,
and passed over otherwise, so that what the singleton holds is the sum over one delta for
each shard it counts, however often shards come again and whatever else comes in between.

The run keeps the deltas it was given, and what is counted is a sublist of them.
-/

namespace Dolos

open Outcome

namespace GovBoundaryDelta

/-- A delta as a boundary makes it. A shard comes from a scan and is one of those counted to
its total. -/
inductive Fresh : GovBoundaryDelta → Prop
  | shard {scan : DistrScan} {shardIndex totalShards : ℕ} {accounts : List (AccountState × ℕ)}
      {delta : GovDistrAccumulate} (inside : shardIndex < totalShards)
      (emitted : scan.shardDelta shardIndex totalShards accounts = some delta) :
      Fresh (.distrAccumulate delta)
  | tick : Fresh (.dormancyTick .new)
  | gc : Fresh (.committeeGc .new)
  | rotate (closingEpoch : ℕ) : Fresh (.distrRotate (.new closingEpoch))
  | credit (closingEpoch : ℕ) (credits : OrderedMap DRep ℕ) :
      Fresh (.distrBoundaryCredit (.new closingEpoch credits))

def asShard : GovBoundaryDelta → Option GovDistrAccumulate
  | distrAccumulate delta => some delta
  | _ => none

/-- The credits of a boundary. -/
def asCredits (closingEpoch : ℕ) : GovBoundaryDelta → Option (OrderedMap DRep ℕ)
  | distrBoundaryCredit delta =>
      if delta.closingEpoch = closingEpoch then some delta.credits else none
  | _ => none

def isRotate : GovBoundaryDelta → Bool
  | distrRotate _ => true
  | _ => false

end GovBoundaryDelta

def shardsOf (emitted : List GovBoundaryDelta) : List GovDistrAccumulate :=
  emitted.filterMap GovBoundaryDelta.asShard

def creditsOf (closingEpoch : ℕ) (emitted : List GovBoundaryDelta) : List (OrderedMap DRep ℕ) :=
  emitted.filterMap (GovBoundaryDelta.asCredits closingEpoch)

/-- A distribution is the sum over one delta for each shard it has counted, in their order,
and over the credits it has taken. -/
structure ShardsCounted (distr : GovDistr) (shards : List GovDistrAccumulate)
    (credits : List (OrderedMap DRep ℕ)) : Prop where
  order : shards.map GovDistrAccumulate.shard = List.range distr.committedShards
  inside : distr.committedShards ≤ distr.totalShards
  same : ∀ shard ∈ shards,
    shard.closingEpoch = distr.closingEpoch ∧ shard.totalShards = distr.totalShards
  drep : ∀ drep, distr.drepDistr.weight drep =
    (shards.map fun shard => shard.drepDistr.weight drep).sum +
      (credits.map fun credit => credit.weight drep).sum
  pool : ∀ pool, distr.poolDistr.weight pool =
    (shards.map fun shard => shard.poolDistr.weight pool).sum
  total : distr.poolTotal = distr.poolDistr.total

/-- What is counted was emitted, no delta twice. -/
def CountedFrom (distr : GovDistr) (emitted : List GovBoundaryDelta) : Prop :=
  ∃ shards credits, ShardsCounted distr shards credits ∧ shards.Sublist (shardsOf emitted) ∧
    credits.Sublist (creditsOf distr.closingEpoch emitted)

theorem CountedFrom.append {distr : GovDistr} {emitted : List GovBoundaryDelta}
    (counted : CountedFrom distr emitted) (later : List GovBoundaryDelta) :
    CountedFrom distr (emitted ++ later) := by
  rcases counted with ⟨shards, credits, isCounted, shardsSub, creditsSub⟩
  refine ⟨shards, credits, isCounted, ?_, ?_⟩
  · rw [shardsOf, List.filterMap_append]
    exact shardsSub.trans (List.sublist_append_left _ _)
  · rw [creditsOf, List.filterMap_append]
    exact creditsSub.trans (List.sublist_append_left _ _)

/-- The shards of a complete distribution are all of the boundary's, each once. -/
theorem ShardsCounted.order_of_complete {distr : GovDistr} {shards : List GovDistrAccumulate}
    {credits : List (OrderedMap DRep ℕ)} {epoch : ℕ} (counted : ShardsCounted distr shards credits)
    (complete : distr.isCompleteFor epoch) :
    shards.map GovDistrAccumulate.shard = List.range distr.totalShards ∧
      ∀ shard ∈ shards, shard.closingEpoch = epoch ∧ shard.totalShards = distr.totalShards := by
  rw [GovDistr.isCompleteFor, decide_eq_true_eq] at complete
  refine ⟨?_, ?_⟩
  · rw [counted.order, complete.2]
  · rw [← complete.1]
    exact counted.same

section Merging

variable {distr : GovDistr} {emitted : List GovBoundaryDelta} {delta : GovDistrAccumulate}

theorem shardsCounted_new (closingEpoch totalShards : ℕ) :
    ShardsCounted (.new closingEpoch totalShards) [] [] :=
  ⟨rfl, Nat.zero_le _, by simp, fun _ => rfl, fun _ => rfl, rfl⟩

/-- The next shard of the boundary is counted once more. -/
theorem CountedFrom.merged (counted : CountedFrom distr emitted)
    (epoch : delta.closingEpoch = distr.closingEpoch)
    (next : delta.shard = distr.committedShards) (shards : delta.totalShards = distr.totalShards)
    (inside : delta.shard < delta.totalShards) (total : delta.poolTotal = delta.poolDistr.total) :
    CountedFrom (delta.merged distr) (emitted ++ [.distrAccumulate delta]) := by
  rcases counted with ⟨earlier, credits, isCounted, shardsSub, creditsSub⟩
  refine ⟨earlier ++ [delta], credits, ⟨?_, ?_, ?_, ?_, ?_, ?_⟩, ?_, ?_⟩
  · rw [List.map_append, isCounted.order, ← next]
    exact List.range_succ.symm
  · have bound : delta.shard + 1 ≤ distr.totalShards := shards ▸ inside
    exact bound
  · intro shard member
    rcases List.mem_append.mp member with old | new
    · exact isCounted.same shard old
    · rw [List.mem_singleton.mp new]
      exact ⟨epoch, shards⟩
  · intro drep
    have before := isCounted.drep drep
    simp only [GovDistrAccumulate.merged, OrderedMap.weight_addWeights, List.map_append,
      List.map_cons, List.map_nil, List.sum_append, List.sum_cons, List.sum_nil]
    omega
  · intro pool
    have before := isCounted.pool pool
    simp only [GovDistrAccumulate.merged, OrderedMap.weight_addWeights, List.map_append,
      List.map_cons, List.map_nil, List.sum_append, List.sum_cons, List.sum_nil]
    omega
  · simp only [GovDistrAccumulate.merged, OrderedMap.total_addWeights, isCounted.total, total]
  · rw [shardsOf, List.filterMap_append]
    exact shardsSub.append (List.Sublist.refl _)
  · rw [creditsOf, List.filterMap_append]
    exact creditsSub.trans (List.sublist_append_left _ _)

/-- A shard that is not passed over is the next one of the boundary, or opens one. -/
theorem next_of_not_skips {held : Option GovDistr} (counts : delta.skips held = false) :
    (∃ distr ∈ held, distr.closingEpoch = delta.closingEpoch ∧
      delta.shard = distr.committedShards ∧ delta.totalShards = distr.totalShards ∧
      delta.target held = distr) ∨
    (delta.shard = 0 ∧ delta.target held = .new delta.closingEpoch delta.totalShards ∧
      ∀ distr ∈ held, distr.closingEpoch < delta.closingEpoch) := by
  cases held with
  | none =>
      right
      simpa [GovDistrAccumulate.skips, GovDistrAccumulate.target] using counts
  | some distr =>
      by_cases same : distr.closingEpoch = delta.closingEpoch
      · left
        refine ⟨distr, rfl, same, ?_⟩
        simp only [GovDistrAccumulate.skips, if_pos same, decide_eq_false_iff_not, not_or,
          not_lt, not_not] at counts
        refine ⟨le_antisymm counts.2.1 counts.1, counts.2.2.symm, ?_⟩
        rw [GovDistrAccumulate.target, if_pos same]
      · right
        simp only [GovDistrAccumulate.skips, if_neg same] at counts
        split_ifs at counts with later
        have opens : delta.shard = 0 := by simpa using counts
        refine ⟨opens, ?_, ?_⟩
        · rw [GovDistrAccumulate.target, if_neg same]
        · intro other member
          rw [← Option.some.inj member]
          omega

theorem CountedFrom.counts {held : Option GovDistr}
    (counted : ∀ distr ∈ held, CountedFrom distr emitted) (counts : delta.skips held = false)
    (inside : delta.shard < delta.totalShards) (total : delta.poolTotal = delta.poolDistr.total) :
    CountedFrom (delta.merged (delta.target held)) (emitted ++ [.distrAccumulate delta]) := by
  rcases next_of_not_skips counts with
    ⟨distr, member, epoch, next, shards, isTarget⟩ | ⟨opens, isTarget, -⟩
  · rw [isTarget]
    exact (counted distr member).merged epoch.symm next shards inside total
  · have fresh : CountedFrom (.new delta.closingEpoch delta.totalShards) emitted :=
      ⟨[], [], shardsCounted_new _ _, List.nil_sublist _, List.nil_sublist _⟩
    rw [isTarget]
    exact fresh.merged rfl opens rfl inside total

/-- Credits go to a complete distribution of their boundary. -/
theorem CountedFrom.credited (counted : CountedFrom distr emitted) {credit : GovDistrBoundaryCredit}
    (epoch : distr.closingEpoch = credit.closingEpoch) :
    CountedFrom (credit.credited distr) (emitted ++ [.distrBoundaryCredit credit]) := by
  rcases counted with ⟨shards, credits, isCounted, shardsSub, creditsSub⟩
  refine ⟨shards, credits ++ [credit.credits],
    ⟨isCounted.order, isCounted.inside, isCounted.same, ?_, isCounted.pool, isCounted.total⟩,
    ?_, ?_⟩
  · intro drep
    have before := isCounted.drep drep
    simp only [GovDistrBoundaryCredit.credited, OrderedMap.weight_addWeights, List.map_append,
      List.map_cons, List.map_nil, List.sum_append, List.sum_cons, List.sum_nil]
    omega
  · rw [shardsOf, List.filterMap_append]
    exact shardsSub.trans (List.sublist_append_left _ _)
  · rw [creditsOf, List.filterMap_append]
    refine creditsSub.append ?_
    simp [GovBoundaryDelta.asCredits, GovDistrBoundaryCredit.credited, epoch]

end Merging

/-- The previous distribution is a complete one of the boundary that rotated last, with what
was counted and credited before it did. -/
def RotatedFrom (prev : GovDistr) (emitted : List GovBoundaryDelta) : Prop :=
  ∃ earlier later, emitted = earlier ++ .distrRotate (.new prev.closingEpoch) :: later ∧
    (∀ delta ∈ later, delta.isRotate = false) ∧ prev.isCompleteFor prev.closingEpoch ∧
    CountedFrom prev earlier

theorem RotatedFrom.append {prev : GovDistr} {emitted : List GovBoundaryDelta}
    (rotated : RotatedFrom prev emitted) {delta : GovBoundaryDelta}
    (other : delta.isRotate = false) : RotatedFrom prev (emitted ++ [delta]) := by
  rcases rotated with ⟨earlier, later, rfl, others, complete, counted⟩
  refine ⟨earlier, later ++ [delta], by simp, ?_, complete, counted⟩
  intro old member
  rcases List.mem_append.mp member with before | last
  · exact others old before
  · rw [List.mem_singleton.mp last]
    exact other

/-- The distributions of the governance singleton after the deltas emitted so far. -/
structure DistrKept (emitted : List GovBoundaryDelta) (gov : GovState) : Prop where
  counted : ∀ distr ∈ gov.distr, CountedFrom distr emitted
  rotated : ∀ prev ∈ gov.prevDistr, RotatedFrom prev emitted

namespace DistrKept

variable {emitted : List GovBoundaryDelta} {gov next : GovState} {delta : GovBoundaryDelta}

/-- What leaves the distributions alone keeps what is known of them. -/
theorem same (kept : DistrKept emitted gov) (distr : next.distr = gov.distr)
    (prev : next.prevDistr = gov.prevDistr) : DistrKept emitted next := by
  refine ⟨?_, ?_⟩
  · rw [distr]
    exact kept.counted
  · rw [prev]
    exact kept.rotated

theorem passed (kept : DistrKept emitted gov) (other : delta.isRotate = false)
    (distr : next.distr = gov.distr) (prev : next.prevDistr = gov.prevDistr) :
    DistrKept (emitted ++ [delta]) next := by
  refine ⟨?_, ?_⟩
  · rw [distr]
    intro held member
    exact (kept.counted held member).append _
  · rw [prev]
    intro held member
    exact (kept.rotated held member).append other

/-- One delta of a boundary keeps the account of what is counted. -/
theorem apply (kept : DistrKept emitted gov) (fresh : delta.Fresh) {applied : GovBoundaryDelta}
    (done : delta.apply (some gov) = .ok (applied, some next)) :
    DistrKept (emitted ++ [delta]) next := by
  cases fresh with
  | @shard scan shardIndex totalShards accounts shard inside made =>
      have spec := DistrScan.shardDelta_spec made
      simp only [GovBoundaryDelta.apply, EntityDelta.apply, expect_some, ok_bind] at done
      split_ifs at done with skipped
      · cases done
        exact kept.passed rfl rfl rfl
      · cases done
        refine ⟨?_, ?_⟩
        · intro distr member
          rw [← Option.some.inj member]
          refine CountedFrom.counts kept.counted (Bool.eq_false_of_not_eq_true skipped) ?_
            spec.total
          rw [spec.shard, spec.shards]
          exact inside
        · intro prev member
          exact (kept.rotated prev member).append rfl
  | tick =>
      cases done
      exact kept.passed rfl rfl rfl
  | gc =>
      cases done
      exact kept.passed rfl rfl rfl
  | rotate closingEpoch =>
      cases done
      refine ⟨?_, ?_⟩
      · intro distr member
        exact (kept.counted distr member).append _
      · intro prev member
        rcases Option.filter_eq_some_iff.mp member with ⟨held, complete⟩
        have isEpoch : prev.closingEpoch = closingEpoch := by
          rw [GovDistr.isCompleteFor, decide_eq_true_eq] at complete
          exact complete.1
        rw [← isEpoch] at complete
        refine ⟨emitted, [], ?_, by simp, complete, kept.counted prev held⟩
        rw [isEpoch]
  | credit closingEpoch credits =>
      simp only [GovBoundaryDelta.apply, EntityDelta.apply, expect_some, ok_bind] at done
      split at done
      · cases done
        exact kept.passed rfl rfl rfl
      next distr isComplete =>
        cases done
        rcases Option.filter_eq_some_iff.mp isComplete with ⟨held, complete⟩
        rw [GovDistr.isCompleteFor, decide_eq_true_eq] at complete
        refine ⟨?_, ?_⟩
        · intro credited member
          rw [← Option.some.inj member]
          exact (kept.counted distr held).credited complete.1
        · intro prev member
          exact (kept.rotated prev member).append rfl

end DistrKept

/-- The deltas of boundaries, from a singleton without distributions. Whatever comes in
between leaves the distributions alone. -/
inductive GovRun : List GovBoundaryDelta → GovState → Prop
  | start {gov : GovState} (distr : gov.distr = none) (prev : gov.prevDistr = none) :
      GovRun [] gov
  | other {emitted : List GovBoundaryDelta} {gov next : GovState} (run : GovRun emitted gov)
      (distr : next.distr = gov.distr) (prev : next.prevDistr = gov.prevDistr) :
      GovRun emitted next
  | delta {emitted : List GovBoundaryDelta} {gov next : GovState}
      {delta applied : GovBoundaryDelta} (run : GovRun emitted gov) (fresh : delta.Fresh)
      (done : delta.apply (some gov) = .ok (applied, some next)) :
      GovRun (emitted ++ [delta]) next

theorem GovRun.kept {emitted : List GovBoundaryDelta} {gov : GovState}
    (run : GovRun emitted gov) : DistrKept emitted gov := by
  induction run with
  | start distr prev =>
      refine ⟨?_, ?_⟩
      · rw [distr]
        intro held member
        cases member
      · rw [prev]
        intro held member
        cases member
  | other run distr prev ih => exact ih.same distr prev
  | delta run fresh done ih => exact ih.apply fresh done

section Undo

namespace GovBoundaryDelta

/-- The deltas as they are after they were applied, and the singleton. -/
def applyAll (entity : Option GovState) :
    List GovBoundaryDelta → Except Panic (List GovBoundaryDelta × Option GovState)
  | [] => .ok ([], entity)
  | delta :: rest => do
      let (applied, after) ← delta.apply entity
      let (later, last) ← applyAll after rest
      .ok (applied :: later, last)

/-- The last delta is undone first. -/
def undoAll (entity : Option GovState) (applied : List GovBoundaryDelta) :
    Except Panic (Option GovState) :=
  applied.reverse.foldlM undo entity

/-- The authorizations that were dropped come back beside those that were kept. -/
theorem insertAll_removed (auths : OrderedMap StakeCredential AuthHistory)
    (keeps : StakeCredential → Bool) :
    (auths.filter fun cold _ => keeps cold).insertAll
      (auths.filter fun cold _ => !keeps cold).entries = auths := by
  apply OrderedMap.ext
  intro cold
  rw [OrderedMap.get?_insertAll_entries, OrderedMap.get?_filter, OrderedMap.get?_filter]
  cases auths.get? cold with
  | none => rfl
  | some history => cases keeps cold <;> simp

theorem undo_apply {delta applied : GovBoundaryDelta} {gov : GovState}
    {entity : Option GovState} (fresh : delta.Fresh)
    (done : delta.apply (some gov) = .ok (applied, entity)) :
    applied.undo entity = .ok (some gov) := by
  cases fresh with
  | shard inside made =>
      have spec := DistrScan.shardDelta_spec made
      simp only [apply, EntityDelta.apply, expect_some, ok_bind] at done
      split_ifs at done
      · cases done
        simp only [undo, EntityDelta.undo, spec.unapplied, if_true]
      · cases done
        rfl
  | tick =>
      cases done
      rfl
  | gc =>
      cases done
      simp only [undo, EntityDelta.undo, expect_some, ok_bind, insertAll_removed]
  | rotate closingEpoch =>
      cases done
      rfl
  | credit closingEpoch credits =>
      simp only [apply, EntityDelta.apply, expect_some, ok_bind] at done
      split at done
      · cases done
        rfl
      · cases done
        rfl

/-- Undoing what was applied last leads back to every singleton in between. -/
theorem undoAll_applyAll {deltas applied : List GovBoundaryDelta} {gov : GovState}
    {last : Option GovState} (fresh : ∀ delta ∈ deltas, delta.Fresh)
    (done : applyAll (some gov) deltas = .ok (applied, last)) (count : ℕ) :
    ∃ middle, applyAll (some gov) (deltas.take count) = .ok (applied.take count, some middle) ∧
      undoAll last (applied.drop count) = .ok (some middle) := by
  induction deltas generalizing gov applied count with
  | nil =>
      cases done
      refine ⟨gov, ?_, ?_⟩
      · rw [List.take_nil]
        rfl
      · rw [List.drop_nil]
        rfl
  | cons delta rest ih =>
      rcases bind_eq_ok.mp done with ⟨⟨first, after⟩, firstEq, laterDone⟩
      rcases bind_eq_ok.mp laterDone with ⟨⟨later, reached⟩, laterEq, same⟩
      cases same
      have freshRest : ∀ delta ∈ rest, delta.Fresh := fun other member =>
        fresh other (List.mem_cons_of_mem _ member)
      rcases count_apply firstEq with ⟨next, rfl, -, -⟩
      cases count with
      | zero =>
          rcases ih freshRest laterEq 0 with ⟨middle, middleEq, back⟩
          rcases Option.some.inj (Prod.mk.inj (Except.ok.inj middleEq)).2 with rfl
          refine ⟨gov, rfl, ?_⟩
          rw [List.drop_zero] at back
          rw [List.drop_zero, undoAll, List.reverse_cons, List.foldlM_append]
          rw [undoAll] at back
          rw [back, ok_bind, List.foldlM_cons, undo_apply (fresh _ List.mem_cons_self) firstEq]
          rfl
      | succ count =>
          rcases ih freshRest laterEq count with ⟨middle, middleEq, back⟩
          refine ⟨middle, ?_, back⟩
          simp only [List.take_succ_cons, applyAll, firstEq, ok_bind, middleEq]

end GovBoundaryDelta

end Undo

section Arrivals

variable {closing total count : ℕ}

/-- How far the shards of a boundary are counted. Before its first one, the singleton has no
distribution or one of an earlier boundary. -/
def StandsAt (closing total count : ℕ) (held : Option GovDistr) : Prop :=
  (count = 0 ∧ ∀ distr ∈ held, distr.closingEpoch < closing) ∨
  ∃ distr, held = some distr ∧ distr.closingEpoch = closing ∧ distr.totalShards = total ∧
    distr.committedShards = count

def GovDistrAccumulate.IsOf (closing total : ℕ) (delta : GovDistrAccumulate) : Prop :=
  delta.closingEpoch = closing ∧ delta.totalShards = total

instance : DecidablePred (GovDistrAccumulate.IsOf closing total) :=
  fun _ => inferInstanceAs (Decidable (_ ∧ _))

/-- A delta that does not come from a later boundary, and does not open this one with
another count of shards. -/
def GovDistrAccumulate.InTime (closing total : ℕ) (delta : GovDistrAccumulate) : Prop :=
  delta.closingEpoch ≤ closing ∧
    (delta.closingEpoch = closing → delta.shard = 0 → delta.totalShards = total)

/-- The shards of a boundary in the order they come, again or not. -/
def arrivals (closing total : ℕ) (emitted : List GovBoundaryDelta) : List ℕ :=
  ((shardsOf emitted).filter fun delta => delta.IsOf closing total).map GovDistrAccumulate.shard

/-- Only the next shard moves the count on. -/
theorem StandsAt.shard {gov next : GovState} {delta : GovDistrAccumulate}
    {applied : GovBoundaryDelta} (stands : StandsAt closing total count gov.distr)
    (inTime : delta.InTime closing total)
    (done : GovBoundaryDelta.apply (some gov) (.distrAccumulate delta) = .ok (applied, some next)) :
    StandsAt closing total
      (if delta.IsOf closing total ∧ delta.shard = count then count + 1 else count) next.distr := by
  simp only [GovBoundaryDelta.apply, EntityDelta.apply, expect_some, ok_bind] at done
  cases skips : delta.skips gov.distr with
  | true =>
      simp only [skips, if_true] at done
      cases done
      have notNext : ¬ (delta.IsOf closing total ∧ delta.shard = count) := by
        rintro ⟨⟨epoch, shards⟩, isNext⟩
        rcases stands with ⟨rfl, earlier⟩ | ⟨distr, held, distrEpoch, distrTotal, rfl⟩
        · cases held : gov.distr with
          | none => simp [GovDistrAccumulate.skips, held, isNext] at skips
          | some distr =>
              have before := earlier distr held
              simp only [GovDistrAccumulate.skips, held, epoch, if_neg before.ne,
                if_neg before.not_gt, isNext] at skips
              simp at skips
        · simp [GovDistrAccumulate.skips, held, epoch, shards, isNext, distrEpoch, distrTotal]
            at skips
      rw [if_neg notNext]
      exact stands
  | false =>
      simp only [skips, Bool.false_eq_true, if_false] at done
      cases done
      rcases next_of_not_skips skips with
        ⟨distr, member, epoch, isNext, shards, isTarget⟩ | ⟨opens, isTarget, earlier⟩
      · rcases stands with ⟨rfl, before⟩ | ⟨held, isHeld, heldEpoch, heldTotal, rfl⟩
        · have below := before distr member
          have notOf : ¬ (delta.IsOf closing total ∧ delta.shard = 0) := by
            rintro ⟨⟨isEpoch, -⟩, -⟩
            omega
          rw [if_neg notOf]
          left
          refine ⟨rfl, ?_⟩
          intro merged isMerged
          rw [← Option.some.inj isMerged, isTarget]
          exact below
        · rcases Option.some.inj (isHeld.symm.trans member) with rfl
          rw [if_pos ⟨⟨epoch.symm.trans heldEpoch, shards.trans heldTotal⟩, isNext⟩]
          right
          refine ⟨_, rfl, ?_, ?_, ?_⟩
          · rw [isTarget]
            exact heldEpoch
          · rw [isTarget]
            exact heldTotal
          · rw [← isNext]
            rfl
      · by_cases isEpoch : delta.closingEpoch = closing
        · have isTotal := inTime.2 isEpoch opens
          rcases stands with ⟨rfl, -⟩ | ⟨held, isHeld, heldEpoch, -, -⟩
          · rw [if_pos ⟨⟨isEpoch, isTotal⟩, opens⟩]
            right
            refine ⟨_, rfl, ?_, ?_, ?_⟩
            · rw [isTarget]
              exact isEpoch
            · rw [isTarget]
              exact isTotal
            · rw [← opens]
              rfl
          · have before := earlier held isHeld
            omega
        · have notOf : ¬ (delta.IsOf closing total ∧ delta.shard = count) := by
            rintro ⟨⟨same, -⟩, -⟩
            exact isEpoch same
          rw [if_neg notOf]
          have below : delta.closingEpoch < closing := lt_of_le_of_ne inTime.1 isEpoch
          rcases stands with ⟨rfl, -⟩ | ⟨held, isHeld, heldEpoch, -, -⟩
          · left
            refine ⟨rfl, ?_⟩
            intro merged isMerged
            rw [← Option.some.inj isMerged, isTarget]
            exact below
          · have before := earlier held isHeld
            omega

/-- What is not a shard leaves the count. -/
theorem StandsAt.passed {gov next : GovState} {delta applied : GovBoundaryDelta}
    (stands : StandsAt closing total count gov.distr) (notShard : delta.asShard = none)
    (done : delta.apply (some gov) = .ok (applied, some next)) :
    StandsAt closing total count next.distr := by
  cases delta with
  | distrAccumulate delta => cases notShard
  | dormancyTick delta =>
      cases done
      exact stands
  | committeeGc delta =>
      cases done
      exact stands
  | distrRotate delta =>
      cases done
      exact stands
  | distrBoundaryCredit delta =>
      simp only [GovBoundaryDelta.apply, EntityDelta.apply, expect_some, ok_bind] at done
      split at done
      · cases done
        exact stands
      next distr isComplete =>
        cases done
        have held := (Option.filter_eq_some_iff.mp isComplete).1
        rcases stands with ⟨rfl, earlier⟩ | ⟨other, isHeld, epoch, shards, committed⟩
        · left
          refine ⟨rfl, ?_⟩
          intro credited member
          rw [← Option.some.inj member]
          exact earlier distr held
        · rcases Option.some.inj (isHeld.symm.trans held) with rfl
          exact Or.inr ⟨_, rfl, epoch, shards, committed⟩

theorem arrivals_shard (delta : GovDistrAccumulate) (rest : List GovBoundaryDelta) :
    arrivals closing total (.distrAccumulate delta :: rest) =
      if delta.IsOf closing total then delta.shard :: arrivals closing total rest
      else arrivals closing total rest := by
  have isFirst : shardsOf (.distrAccumulate delta :: rest) = delta :: shardsOf rest := rfl
  by_cases isOf : delta.IsOf closing total
  · simp [arrivals, isFirst, isOf]
  · simp [arrivals, isFirst, isOf]

/-- What is still to come in order goes on with the first that comes, or without it. -/
theorem range'_sublist_of_cons {first start length : ℕ} {rest : List ℕ}
    (sub : (List.range' start (length + 1)).Sublist (first :: rest)) :
    (List.range' (if first = start then start + 1 else start)
      (if first = start then length else length + 1)).Sublist rest := by
  rw [List.range'_succ] at sub
  cases sub with
  | cons _ later =>
      split_ifs with isFirst
      · exact (List.sublist_cons_self _ _).trans later
      · rw [List.range'_succ]
        exact later
  | cons_cons _ later =>
      rw [if_pos rfl, if_pos rfl]
      exact later

/-- Once every shard of a boundary has come in its turn, all of them are counted. -/
theorem StandsAt.applyAll {deltas applied : List GovBoundaryDelta} {gov last : GovState}
    {left : ℕ} (stands : StandsAt closing total count gov.distr) (isLeft : count + left = total)
    (fresh : ∀ delta ∈ deltas, delta.Fresh)
    (inTime : ∀ delta ∈ shardsOf deltas, delta.InTime closing total)
    (arrive : (List.range' count left).Sublist (arrivals closing total deltas))
    (done : GovBoundaryDelta.applyAll (some gov) deltas = .ok (applied, some last)) :
    StandsAt closing total total last.distr := by
  induction deltas generalizing gov applied count left with
  | nil =>
      have noneLeft : left = 0 := by
        have empty := congrArg List.length (List.sublist_nil.mp arrive)
        rwa [List.length_range'] at empty
      have isTotal : count = total := by omega
      cases done
      exact isTotal ▸ stands
  | cons delta rest ih =>
      rcases bind_eq_ok.mp done with ⟨⟨first, after⟩, firstEq, laterDone⟩
      rcases bind_eq_ok.mp laterDone with ⟨⟨later, reached⟩, laterEq, same⟩
      cases same
      rcases GovBoundaryDelta.count_apply firstEq with ⟨next, rfl, -, -⟩
      have freshRest : ∀ delta ∈ rest, delta.Fresh := fun other member =>
        fresh other (List.mem_cons_of_mem _ member)
      cases isShard : delta.asShard with
      | none =>
          rw [shardsOf, List.filterMap_cons_none isShard] at inTime
          rw [arrivals, shardsOf, List.filterMap_cons_none isShard] at arrive
          exact ih (stands.passed isShard firstEq) isLeft freshRest inTime arrive laterEq
      | some shard =>
          rcases delta with delta | _ | _ | _ | _ <;> cases isShard
          have inTimeRest : ∀ other ∈ shardsOf rest, other.InTime closing total :=
            fun other member => inTime other (List.mem_cons_of_mem _ member)
          have stepped := stands.shard (inTime _ List.mem_cons_self) firstEq
          rw [arrivals_shard] at arrive
          by_cases isOf : shard.IsOf closing total
          · rw [if_pos isOf] at arrive
            cases left with
            | zero =>
                have inside : shard.shard < shard.totalShards := by
                  cases fresh _ List.mem_cons_self with
                  | shard inside made =>
                      have spec := DistrScan.shardDelta_spec made
                      rw [spec.shard, spec.shards]
                      exact inside
                have notNext : ¬ (shard.IsOf closing total ∧ shard.shard = count) := by
                  rintro ⟨⟨-, shards⟩, isNext⟩
                  omega
                rw [if_neg notNext] at stepped
                exact ih stepped isLeft freshRest inTimeRest (List.nil_sublist _) laterEq
            | succ left =>
                have arriveRest := range'_sublist_of_cons arrive
                by_cases isNext : shard.shard = count
                · rw [if_pos ⟨isOf, isNext⟩] at stepped
                  rw [if_pos isNext, if_pos isNext] at arriveRest
                  exact ih stepped (by omega) freshRest inTimeRest arriveRest laterEq
                · rw [if_neg fun both => isNext both.2] at stepped
                  rw [if_neg isNext, if_neg isNext] at arriveRest
                  exact ih stepped isLeft freshRest inTimeRest arriveRest laterEq
          · rw [if_neg fun both => isOf both.1] at stepped
            rw [if_neg isOf] at arrive
            exact ih stepped isLeft freshRest inTimeRest arrive laterEq

end Arrivals

section Boundary

/-- What a row says of the stake behind a representative, after a boundary that has a
distribution or none. -/
def DRepState.powerAfter (drep : DRepState) (power : Option (OrderedMap DRep ℕ)) : ℕ :=
  match power with
  | none => drep.votingPower
  | some distr => if drep.isRegistered then distr.weight drep.identifier else drep.votingPower

theorem votingPower_of_applyAll {power : Option (OrderedMap DRep ℕ)} {expiring : List DRep}
    {id : EntityKey} {drep : DRepState} {row : Option DRepState}
    (done : DRepDelta.applyAll (some drep) (BoundaryWork.drepDeltas power expiring id drep) =
      .ok row) :
    ∃ after, row = some after ∧ after.votingPower = drep.powerAfter power := by
  have expires : ∀ (delta : Option DRepExpiration) (held : DRepState) (row : Option DRepState),
      DRepDelta.applyAll (some held) (delta.map DRepDelta.expiration).toList = .ok row →
        ∃ after, row = some after ∧ after.votingPower = held.votingPower := by
    intro delta held row applied
    cases delta <;> cases applied <;> exact ⟨_, rfl, rfl⟩
  rw [BoundaryWork.drepDeltas] at done
  cases power with
  | none => exact expires _ drep row done
  | some distr =>
      rw [Option.bind_some, BoundaryWork.emitDRepPowerUpdate] at done
      cases isRegistered : drep.isRegistered with
      | false =>
          rw [if_pos isRegistered] at done
          rcases expires _ drep row done with ⟨after, isAfter, same⟩
          refine ⟨after, isAfter, ?_⟩
          simp [DRepState.powerAfter, isRegistered, same]
      | true =>
          simp only [isRegistered, Bool.true_eq_false, if_false] at done
          rw [DRepState.powerAfter, if_pos isRegistered]
          split_ifs at done with changed
          · exact expires _ { drep with votingPower := distr.weight drep.identifier } row done
          · rcases expires _ drep row done with ⟨after, isAfter, same⟩
            refine ⟨after, isAfter, ?_⟩
            rw [same]
            exact (not_not.mp changed).symm

/-- What the boundary published: the rotation leaves the distribution the shards completed,
with the credits, and each registered representative has its figure of it. -/
structure Published (ledger : DrepLedger) (close : DrepClose) (after : DrepLedger) : Prop where
  prev : ∃ scanned, ledger.scanned close.shards = .ok scanned ∧
    after.gov.prevDistr = (scanned.gov.distr.filter fun distr =>
      distr.isCompleteFor ledger.epoch).map
        (GovDistrBoundaryCredit.new ledger.epoch close.credits).credited
  complete : ∀ prev ∈ after.gov.prevDistr, prev.isCompleteFor ledger.epoch
  rows : ∀ id row, ledger.rows.get? id = some row → ∃ state, after.rows.get? id = some state ∧
    state.votingPower = row.powerAfter (after.gov.prevDistr.map GovDistr.drepDistr)

namespace BoundaryWork

variable {work : BoundaryWork} {ratification : Ratification}
  {proposals : OrderedMap EntityKey ProposalState} {credits : OrderedMap DRep ℕ}

theorem fresh_emitGovernanceBoundaryDeltas {delta : GovBoundaryDelta}
    (member : delta ∈ work.emitGovernanceBoundaryDeltas ratification proposals credits) :
    delta.Fresh := by
  rw [emitGovernanceBoundaryDeltas] at member
  split_ifs at member <;> simp only [List.nil_append, List.cons_append, List.mem_cons,
    List.not_mem_nil, or_false] at member
  · rcases member with rfl | rfl
    · exact .gc
    · exact .rotate _
  · rcases member with rfl | rfl | rfl
    · exact .gc
    · exact .credit _ _
    · exact .rotate _
  · rcases member with rfl | rfl | rfl
    · exact .tick
    · exact .gc
    · exact .rotate _
  · rcases member with rfl | rfl | rfl | rfl
    · exact .tick
    · exact .gc
    · exact .credit _ _
    · exact .rotate _

end BoundaryWork

theorem GovRun.deltas {emitted deltas : List GovBoundaryDelta} {gov : GovState}
    {entity : Option GovState} (run : GovRun emitted gov) (fresh : ∀ delta ∈ deltas, delta.Fresh)
    (done : deltas.foldlM (fun entity delta => Prod.snd <$> delta.apply entity) (some gov) =
      .ok entity) :
    ∃ last, entity = some last ∧ GovRun (emitted ++ deltas) last := by
  induction deltas generalizing emitted gov with
  | nil =>
      cases done
      exact ⟨gov, rfl, by simpa using run⟩
  | cons delta rest ih =>
      rw [List.foldlM_cons] at done
      rcases bind_eq_ok.mp done with ⟨next, step, later⟩
      rcases map_eq_ok.mp step with ⟨⟨applied, reached⟩, appliedEq, rfl⟩
      rcases GovBoundaryDelta.count_apply appliedEq with ⟨middle, rfl, -, -⟩
      rcases ih (run.delta (fresh _ List.mem_cons_self) appliedEq)
        (fun other member => fresh other (List.mem_cons_of_mem _ member)) later with
        ⟨last, lastEq, lastRun⟩
      refine ⟨last, lastEq, ?_⟩
      rwa [List.append_assoc, List.singleton_append] at lastRun

/-- The shards of a boundary take the run on. -/
theorem GovRun.scanned {emitted : List GovBoundaryDelta} {ledger after : DrepLedger}
    {shards : List GovDistrAccumulate} (run : GovRun emitted ledger.gov)
    (fresh : ∀ shard ∈ shards, (GovBoundaryDelta.distrAccumulate shard).Fresh)
    (done : ledger.scanned shards = .ok after) :
    GovRun (emitted ++ shards.map GovBoundaryDelta.distrAccumulate) after.gov := by
  induction shards generalizing emitted ledger with
  | nil =>
      cases done
      simpa using run
  | cons shard rest ih =>
      rw [DrepLedger.scanned, List.foldlM_cons] at done
      rcases bind_eq_ok.mp done with ⟨next, step, later⟩
      rcases bind_eq_ok.mp step with ⟨⟨applied, entity⟩, appliedEq, same⟩
      cases same
      have merged : GovBoundaryDelta.apply (some ledger.gov) (.distrAccumulate shard) =
          .ok (.distrAccumulate applied, entity) := by
        rw [GovBoundaryDelta.apply, appliedEq]
        rfl
      rcases GovBoundaryDelta.count_apply merged with ⟨gov, rfl, -, -⟩
      have lastRun := ih (run.delta (fresh _ List.mem_cons_self) merged)
        (fun other member => fresh other (List.mem_cons_of_mem _ member)) later
      rwa [List.append_assoc, List.singleton_append] at lastRun

theorem GovDistrBoundaryCredit.credited_of_empty {closingEpoch : ℕ} {credits : OrderedMap DRep ℕ}
    (empty : credits.entries = []) (distr : GovDistr) :
    (GovDistrBoundaryCredit.new closingEpoch credits).credited distr = distr := by
  simp [credited, new, OrderedMap.addWeights, empty]

/-- Credits that come before the rotation go with it. -/
theorem prevDistr_credited {closingEpoch : ℕ} {credits : OrderedMap DRep ℕ} {gov : GovState}
    {entity : Option GovState}
    (done : ((if credits.entries = [] then []
        else [GovBoundaryDelta.distrBoundaryCredit (.new closingEpoch credits)]) ++
          [GovBoundaryDelta.distrRotate (.new closingEpoch)]).foldlM
      (fun entity delta => Prod.snd <$> delta.apply entity) (some gov) = .ok entity) :
    ∃ last, entity = some last ∧
      last.prevDistr = (gov.distr.filter fun distr => distr.isCompleteFor closingEpoch).map
        (GovDistrBoundaryCredit.new closingEpoch credits).credited := by
  by_cases empty : credits.entries = []
  · rw [if_pos empty] at done
    cases done
    refine ⟨_, rfl, ?_⟩
    have same : (GovDistrBoundaryCredit.new closingEpoch credits).credited = id :=
      funext (GovDistrBoundaryCredit.credited_of_empty empty)
    rw [same, Option.map_id]
    rfl
  · rw [if_neg empty, List.singleton_append, List.foldlM_cons] at done
    rcases bind_eq_ok.mp done with ⟨next, step, rotated⟩
    rcases map_eq_ok.mp step with ⟨⟨applied, reached⟩, appliedEq, rfl⟩
    cases complete : gov.distr.filter fun distr => distr.isCompleteFor closingEpoch with
    | none =>
        simp only [GovBoundaryDelta.apply, EntityDelta.apply, expect_some, ok_bind,
          GovDistrBoundaryCredit.new, complete] at appliedEq
        cases appliedEq
        cases rotated
        exact ⟨_, rfl, complete⟩
    | some distr =>
        simp only [GovBoundaryDelta.apply, EntityDelta.apply, expect_some, ok_bind,
          GovDistrBoundaryCredit.new, complete] at appliedEq
        cases appliedEq
        cases rotated
        refine ⟨_, rfl, ?_⟩
        have isComplete := (Option.filter_eq_some_iff.mp complete).2
        have rotates : Option.filter (fun distr => distr.isCompleteFor closingEpoch)
            (some ((GovDistrBoundaryCredit.new closingEpoch credits).credited distr)) =
              some ((GovDistrBoundaryCredit.new closingEpoch credits).credited distr) :=
          Option.filter_eq_some_iff.mpr ⟨rfl, isComplete⟩
        exact rotates

theorem prevDistr_of_emitted {work : BoundaryWork} {ratification : Ratification}
    {proposals : OrderedMap EntityKey ProposalState} {credits : OrderedMap DRep ℕ}
    {gov : GovState} {entity : Option GovState} (active : work.govActive = true)
    (done : (work.emitGovernanceBoundaryDeltas ratification proposals credits).foldlM
      (fun entity delta => Prod.snd <$> delta.apply entity) (some gov) = .ok entity) :
    ∃ last, entity = some last ∧
      last.prevDistr = (gov.distr.filter fun distr => distr.isCompleteFor work.closing).map
        (GovDistrBoundaryCredit.new work.closing credits).credited := by
  rw [BoundaryWork.emitGovernanceBoundaryDeltas, if_neg (by simp [active]), List.append_assoc,
    List.cons_append] at done
  by_cases votable : work.anyVotableSurvivor ratification proposals = true
  · rw [if_pos votable, List.nil_append, List.foldlM_cons] at done
    rcases bind_eq_ok.mp done with ⟨kept, keptEq, rest⟩
    cases keptEq
    rcases prevDistr_credited rest with ⟨last, isLast, prev⟩
    exact ⟨last, isLast, prev⟩
  · rw [if_neg votable, List.singleton_append, List.foldlM_cons] at done
    rcases bind_eq_ok.mp done with ⟨ticked, tickedEq, later⟩
    cases tickedEq
    rw [List.foldlM_cons] at later
    rcases bind_eq_ok.mp later with ⟨kept, keptEq, rest⟩
    cases keptEq
    rcases prevDistr_credited rest with ⟨last, isLast, prev⟩
    exact ⟨last, isLast, prev⟩

/-- The power that a boundary writes is that of the distribution it leaves. -/
theorem drepPower_eq {work : BoundaryWork} {credits : OrderedMap DRep ℕ}
    (active : work.govActive = true) :
    work.drepPower credits =
      ((work.gov.distr.filter fun distr => distr.isCompleteFor work.closing).map
        (GovDistrBoundaryCredit.new work.closing credits).credited).map GovDistr.drepDistr := by
  cases since : work.govActiveSince with
  | none => simp [BoundaryWork.govActive, since] at active
  | some epoch =>
      simp only [BoundaryWork.drepPower, BoundaryWork.completedDRepDistr,
        BoundaryWork.distrSnapshotEpoch, since, Option.map_some, Option.map_map]
      rfl

/-- A boundary of an active governance publishes what its shards completed. -/
theorem crossBoundary_published {emitted : List GovBoundaryDelta} {ledger after : DrepLedger}
    {close : DrepClose} (run : GovRun emitted ledger.gov)
    (fresh : ∀ shard ∈ close.shards, (GovBoundaryDelta.distrAccumulate shard).Fresh)
    (active : (ledger.workOf close).govActive = true)
    (done : ledger.crossBoundary close = .ok after) :
    Published ledger close after ∧
      ∃ deltas, GovRun
        (emitted ++ close.shards.map GovBoundaryDelta.distrAccumulate ++ deltas) after.gov := by
  rcases DrepLedger.crossBoundary_eq_ok done with
    ⟨scanned, data, rows, gov, scannedEq, loaded, rowsEq, govEq, rfl⟩
  rcases DrepLedger.scanned_cases scannedEq with ⟨sameEpoch, sameRows, sameCount, sameSince⟩
  have activeScanned : (scanned.workOf close).govActive = true := by
    rw [← active, BoundaryWork.govActive, BoundaryWork.govActive]
    exact congrArg₂ (fun since closing => Option.any (fun since => decide (since ≤ closing)) since)
      sameSince sameEpoch
  have closing : (scanned.workOf close).closing = ledger.epoch := sameEpoch
  rcases bind_eq_ok.mp govEq with ⟨enacted, enactedEq, deltasEq⟩
  rcases count_foldlM_applyGov enactedEq with ⟨middle, rfl, -, middleDistr, middlePrev⟩
  rcases prevDistr_of_emitted activeScanned deltasEq with ⟨last, rfl, prevDistr⟩
  rw [closing, middleDistr] at prevDistr
  have power : (scanned.workOf close).drepPower close.credits =
      last.prevDistr.map GovDistr.drepDistr := by
    rw [drepPower_eq activeScanned, closing, prevDistr]
    rfl
  rw [sameRows] at rowsEq
  rcases DrepLedger.get?_foldlM_closeRow (fun _ _ _ => votingPower_of_applyAll)
    ledger.rows.nodup_keys rowsEq with ⟨-, each⟩
  refine ⟨⟨⟨scanned, scannedEq, prevDistr⟩, ?_, ?_⟩, ?_⟩
  · intro prev member
    rw [Option.getD_some, prevDistr] at member
    rcases Option.map_eq_some_iff.mp member with ⟨distr, complete, rfl⟩
    exact (Option.filter_eq_some_iff.mp complete).2
  · intro id row held
    rcases each (id, row) (OrderedMap.mem_entries_iff.mpr held) with ⟨state, isState, figure⟩
    rw [power] at figure
    exact ⟨state, isState, figure⟩
  · rcases ((run.scanned fresh scannedEq).other middleDistr middlePrev).deltas
      (fun delta member => BoundaryWork.fresh_emitGovernanceBoundaryDeltas member) deltasEq with
      ⟨reached, isReached, lastRun⟩
    rcases Option.some.inj isReached with rfl
    exact ⟨_, lastRun⟩

end Boundary

/-- The accumulation after any run of boundaries: what is held is the sum over one delta for
each shard counted, and the total that of its pools; it is complete with all shards only; the
shards of a boundary are counted when each has come in its turn, whatever comes again or out
of turn; applied deltas are undone to every singleton in between; and a boundary leaves the
complete distribution, credits included, whose figures it wrote to the representatives. -/
theorem govDistr_counted {emitted : List GovBoundaryDelta} {gov : GovState}
    (run : GovRun emitted gov) :
    DistrKept emitted gov ∧
      (∀ distr ∈ gov.distr, ∀ epoch, distr.isCompleteFor epoch →
        ∃ shards : List GovDistrAccumulate, shards.Sublist (shardsOf emitted) ∧
          shards.map GovDistrAccumulate.shard = List.range distr.totalShards ∧
          ∀ shard ∈ shards, shard.closingEpoch = epoch ∧
            shard.totalShards = distr.totalShards) ∧
      (∀ closing total deltas applied last, 0 < total →
        (∀ distr ∈ gov.distr, distr.closingEpoch < closing) →
        (∀ delta ∈ deltas, delta.Fresh) → (∀ delta ∈ shardsOf deltas, delta.InTime closing total) →
        (List.range total).Sublist (arrivals closing total deltas) →
        GovBoundaryDelta.applyAll (some gov) deltas = .ok (applied, some last) →
        ∃ distr, last.distr = some distr ∧ distr.totalShards = total ∧
          distr.isCompleteFor closing) ∧
      (∀ deltas applied last, (∀ delta ∈ deltas, delta.Fresh) →
        GovBoundaryDelta.applyAll (some gov) deltas = .ok (applied, last) → ∀ count, ∃ middle,
          GovBoundaryDelta.applyAll (some gov) (deltas.take count) =
              .ok (applied.take count, some middle) ∧
            GovBoundaryDelta.undoAll last (applied.drop count) = .ok (some middle)) ∧
      ∀ ledger close after, ledger.gov = gov →
        (∀ shard ∈ close.shards, (GovBoundaryDelta.distrAccumulate shard).Fresh) →
        (ledger.workOf close).govActive = true → ledger.crossBoundary close = .ok after →
        Published ledger close after ∧
          ∃ deltas, GovRun
            (emitted ++ close.shards.map GovBoundaryDelta.distrAccumulate ++ deltas)
            after.gov := by
  have kept := run.kept
  refine ⟨kept, ?_, ?_, ?_, ?_⟩
  · intro distr member epoch complete
    rcases kept.counted distr member with ⟨shards, credits, counted, shardsSub, -⟩
    exact ⟨shards, shardsSub, counted.order_of_complete complete⟩
  · intro closing total deltas applied last positive earlier fresh inTime arrive done
    have stands : StandsAt closing total 0 gov.distr := Or.inl ⟨rfl, earlier⟩
    rw [List.range_eq_range'] at arrive
    rcases stands.applyAll (Nat.zero_add total) fresh inTime arrive done with
      ⟨isZero, -⟩ | ⟨distr, held, epoch, shards, committed⟩
    · omega
    · refine ⟨distr, held, shards, ?_⟩
      rw [GovDistr.isCompleteFor, decide_eq_true_eq, committed, shards]
      exact ⟨epoch, rfl⟩
  · intro deltas applied last fresh done count
    exact GovBoundaryDelta.undoAll_applyAll fresh done count
  · intro ledger close after same fresh active done
    rw [← same] at run
    exact crossBoundary_published run fresh active done

namespace TwoShards

/-- An account of the boundary closing epoch 10 that abstains and delegates to a pool. -/
def delegator (stake : ℕ) : AccountState where
  registeredAt := some 0
  stake := .withLive 10 { Stake.default with utxoSum := stake }
  pool := .withLive 10 (.pool 1)
  drep := .withLive 10 (.delegated .abstain)
  voteDelegatedAt := some (0, 0)
  deregisteredAt := none
  credential := .addrKeyhash 1
  retiredPool := none

def scan : DistrScan := ⟨workWith 10 none, 9, ∅, ∅⟩

def shard (shardIndex stake : ℕ) : GovDistrAccumulate :=
  .new 10 shardIndex 2 (.ofList [(.abstain, stake)]) (.ofList [(1, stake)]) stake

/-- The first shard comes again before the second one. -/
def again : List GovBoundaryDelta :=
  [.distrAccumulate (shard 0 4), .distrAccumulate (shard 0 4), .distrAccumulate (shard 1 3),
    .distrBoundaryCredit (.new 10 (.ofList [(.abstain, 2)])), .distrRotate (.new 10)]

def credited : GovDistr := ⟨10, 2, 2, .ofList [(.abstain, 9)], .ofList [(1, 7)], 7⟩

theorem fresh_first : (GovBoundaryDelta.distrAccumulate (shard 0 4)).Fresh := by
  have scanned : scan.shardDelta 0 2 [(delegator 4, 0)] = some (shard 0 4) := by rfl
  exact .shard (by decide) scanned

theorem fresh_second : (GovBoundaryDelta.distrAccumulate (shard 1 3)).Fresh := by
  have scanned : scan.shardDelta 1 2 [(delegator 3, 0)] = some (shard 1 3) := by rfl
  exact .shard (by decide) scanned

theorem run_again :
    GovRun again { govWith none with distr := some credited, prevDistr := some credited } := by
  have starts : GovRun [] (govWith none) := .start rfl rfl
  have done : again.foldlM (fun entity delta => Prod.snd <$> delta.apply entity)
      (some (govWith none)) =
        .ok (some { govWith none with distr := some credited, prevDistr := some credited }) := by
    rfl
  have fresh : ∀ delta ∈ again, delta.Fresh := by
    intro delta member
    simp only [again, List.mem_cons, List.not_mem_nil, or_false] at member
    rcases member with rfl | rfl | rfl | rfl | rfl
    · exact fresh_first
    · exact fresh_first
    · exact fresh_second
    · exact .credit _ _
    · exact .rotate _
  rcases starts.deltas fresh done with ⟨last, isLast, run⟩
  rcases Option.some.inj isLast with rfl
  exact run

theorem govDistr_counted_again :
    again.length = 5 ∧
      DistrKept again
        { govWith none with distr := some credited, prevDistr := some credited } :=
  ⟨rfl, (govDistr_counted run_again).1⟩

end TwoShards

end Dolos
