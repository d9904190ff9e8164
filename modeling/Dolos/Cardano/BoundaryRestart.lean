import Dolos.Cardano.EwrapRewards
import Dolos.Cardano.NonceWindow
import Dolos.Cardano.Pots

/-!
# Restarting an epoch boundary

`EwrapWorkUnit` and `EstartWorkUnit` of `cardano/src/ewrap/work_unit.rs` and
`cardano/src/estart/work_unit.rs` in the loop of `run_lifecycle`, commit by commit, for any
number of shards. A crash loses the units and leaves the stores; both units are due again,
and go on from the progress that the epoch has.

What a pass computes from the stores and writes beside the epoch and the eras is given: any
function of what it loads. The archive and the indexes are left out.
-/

namespace Dolos

open Outcome EntityDelta

/-- The progress of the opening shards. -/
structure EStartProgress where
  completedShardIndex : ℕ
  totalShards : ℕ
  applied : Bool
  prevEstartProgress : Option ShardProgress
  deriving DecidableEq, Repr

namespace EStartProgress

def new (completedShardIndex totalShards : ℕ) : EStartProgress :=
  ⟨completedShardIndex, totalShards, false, none⟩

instance : EntityDelta EStartProgress EpochState where
  key _ := EpochState.nsKey
  apply delta entity := do
    let epoch ← expect entity "existing epoch"
    match
      ShardProgress.advance epoch.estartProgress delta.completedShardIndex delta.totalShards with
    | none => .ok (delta, some epoch)
    | some progress =>
        .ok ({ delta with applied := true, prevEstartProgress := epoch.estartProgress },
          some { epoch with estartProgress := some progress })
  undo delta entity :=
    if delta.applied then do
      let epoch ← expect entity "existing epoch"
      .ok (some { epoch with estartProgress := delta.prevEstartProgress })
    else .ok entity

end EStartProgress

/-- The end of the closing half. -/
structure EpochWrapUpV3 where
  stats : EndStats
  prevRolling : Option (EpochValue RollingStats)
  prevPparams : Option (EpochValue PParamsSet)
  prevEnd : Option EndStats
  deriving DecidableEq

namespace EpochWrapUpV3

def new (stats : EndStats) : EpochWrapUpV3 := ⟨stats, none, none, none⟩

instance : EntityDelta EpochWrapUpV3 EpochState where
  key _ := EpochState.nsKey
  apply delta entity := do
    let epoch ← expect entity "existing epoch"
    let rolling ← epoch.rolling.scheduledOrDefault
    let pparams ← epoch.pparams.scheduledOrDefault
    .ok ({ delta with
        prevRolling := some epoch.rolling
        prevPparams := some epoch.pparams
        prevEnd := epoch.endStats },
      some { epoch with
        rolling := epoch.rolling.schedule (some rolling)
        pparams := epoch.pparams.schedule (some pparams)
        endStats := some delta.stats })
  undo delta entity := do
    let epoch ← expect entity "existing epoch"
    let rolling ← expect delta.prevRolling "apply captured rolling"
    let pparams ← expect delta.prevPparams "apply captured pparams"
    .ok (some { epoch with rolling := rolling, pparams := pparams, endStats := delta.prevEnd })

end EpochWrapUpV3

/-- The stores a boundary reads and writes. -/
@[ext]
structure BoundaryTables (U R : Type) where
  epoch : EpochState
  eras : OrderedMap ℕ EraSummary
  utxos : U
  rest : R
  cursor : ChainPoint

/-- What a closing shard tells the epoch. -/
structure ShardTotals where
  effective : ℕ
  unspendableToTreasury : ℕ
  unspendableToReserves : ℕ

/-- What the passes compute. The reclaimed outputs go by the parameters and the UTxO set. -/
structure BoundaryPasses (U R : Type) where
  ewrapShard : BoundaryTables U R → ℕ → ℕ → Except OpenError (ShardTotals × R)
  ewrapFinalize : BoundaryTables U R → Except OpenError (List PParamsUpdate × EndStats × R)
  avvmAt : EpochValue PParamsSet → U → Except OpenError ℕ
  estartShard : BoundaryTables U R → ℕ → ℕ → ℕ → Except OpenError R
  estartFinalize : BoundaryTables U R → Except OpenError (U × R)

/-- A boundary of a network: the passes, the genesis, the number of shards of the build and
the slot of the block that crosses it. -/
structure BoundaryPlan (U R : Type) where
  passes : BoundaryPasses U R
  genesis : NonceGenesis
  accountShards : ℕ
  slot : ℕ

/-- Where the process is. Whether the closing unit takes itself for complete is settled when
it starts. -/
inductive UnitPhase where
  | ewrap
  | ewrapShards (total next : ℕ) (isComplete : Bool)
  | estart
  | estartShards (avvm total next : ℕ)
  | done
  deriving DecidableEq

@[ext]
structure BoundaryProcess (U R : Type) where
  tables : BoundaryTables U R
  phase : UnitPhase

namespace ShardProgress

/-- `total_shards` -/
def shardsOf (accountShards : ℕ) (progress : Option ShardProgress) : ℕ :=
  (progress.map ShardProgress.total).getD accountShards

/-- `start_shard` -/
def startOf (progress : Option ShardProgress) : ℕ :=
  (progress.map ShardProgress.committed).getD 0

end ShardProgress

section Units

variable {U R : Type} (plan : BoundaryPlan U R)

/-- `commit_shard` of the closing half. -/
def commitEwrapShard (tables : BoundaryTables U R) (shardIndex totalShards : ℕ) :
    Except OpenError (BoundaryTables U R) := do
  let (totals, rest) ← plan.passes.ewrapShard tables shardIndex totalShards
  let delta := EWrapProgress.new totals.effective totals.unspendableToTreasury
    totals.unspendableToReserves shardIndex totalShards
  let (_, epoch) ← (apply delta (some tables.epoch)).mapError .panic
  .ok { tables with epoch := epoch.getD tables.epoch, rest := rest }

/-- The changes that were enacted, in their order, and the end of the epoch. -/
def closeEpoch (epoch : EpochState) (updates : List PParamsUpdate) (stats : EndStats) :
    Except Panic EpochState := do
  let updated ← updates.foldlM (fun entity delta => Prod.snd <$> apply delta entity) (some epoch)
  let (_, closed) ← apply (EpochWrapUpV3.new stats) updated
  .ok (closed.getD epoch)

/-- `commit_finalize` of the closing half. -/
def commitEwrap (tables : BoundaryTables U R) : Except OpenError (BoundaryTables U R) := do
  let (updates, stats, rest) ← plan.passes.ewrapFinalize tables
  let epoch ← (closeEpoch tables.epoch updates stats).mapError .panic
  .ok { tables with epoch := epoch, rest := rest }

/-- `commit_shard` of the opening half. -/
def commitEstartShard (tables : BoundaryTables U R) (avvm shardIndex totalShards : ℕ) :
    Except OpenError (BoundaryTables U R) := do
  let rest ← plan.passes.estartShard tables avvm shardIndex totalShards
  let delta := EStartProgress.new shardIndex totalShards
  let (_, epoch) ← (apply delta (some tables.epoch)).mapError .panic
  .ok { tables with epoch := epoch.getD tables.epoch, rest := rest }

variable [NonceCrypto]

/-- `commit_finalize` of the opening half, which moves the cursor. -/
def commitEstart (tables : BoundaryTables U R) : Except OpenError (BoundaryTables U R) := do
  let avvm ← plan.passes.avvmAt tables.epoch.pparams tables.utxos
  let newPots ← (defineNewPots tables.epoch avvm).mapError .panic
  let opened ← openEpoch plan.genesis newPots ⟨tables.eras, tables.epoch⟩
  let (utxos, rest) ← plan.passes.estartFinalize tables
  .ok ⟨opened.epoch, opened.eras, utxos, rest, .slotOnly plan.slot⟩

/-- The next thing the process does: a unit starts, a commit, or an end without one. -/
def BoundaryProcess.step : BoundaryProcess U R → Except OpenError (BoundaryProcess U R)
  | ⟨tables, .ewrap⟩ =>
      let totalShards := ShardProgress.shardsOf plan.accountShards tables.epoch.ewrapProgress
      let startShard := ShardProgress.startOf tables.epoch.ewrapProgress
      .ok ⟨tables, .ewrapShards totalShards startShard (totalShards ≤ startShard)⟩
  | ⟨tables, .ewrapShards totalShards next isComplete⟩ =>
      if next < totalShards then do
        let committed ← commitEwrapShard plan tables next totalShards
        .ok ⟨committed, .ewrapShards totalShards (next + 1) isComplete⟩
      else if isComplete then .ok ⟨tables, .estart⟩
      else do
        let committed ← commitEwrap plan tables
        .ok ⟨committed, .estart⟩
  | ⟨tables, .estart⟩ => do
      let avvm ← plan.passes.avvmAt tables.epoch.pparams tables.utxos
      .ok ⟨tables, .estartShards avvm
        (ShardProgress.shardsOf plan.accountShards tables.epoch.estartProgress)
        (ShardProgress.startOf tables.epoch.estartProgress)⟩
  | ⟨tables, .estartShards avvm totalShards next⟩ =>
      if next < totalShards then do
        let committed ← commitEstartShard plan tables avvm next totalShards
        .ok ⟨committed, .estartShards avvm totalShards (next + 1)⟩
      else do
        let committed ← commitEstart plan tables
        .ok ⟨committed, .done⟩
  | ⟨tables, .done⟩ => .ok ⟨tables, .done⟩

/-- A boundary that is run, with crashes where the predicate allows them. -/
inductive Crosses (Crashes : BoundaryProcess U R → Prop) :
    BoundaryProcess U R → BoundaryProcess U R → Prop
  | stop {process : BoundaryProcess U R} : Crosses Crashes process process
  | step {process next last : BoundaryProcess U R} (steps : process.step plan = .ok next)
      (later : Crosses Crashes next last) : Crosses Crashes process last
  | crash {process last : BoundaryProcess U R} (crashes : Crashes process)
      (later : Crosses Crashes ⟨process.tables, .ewrap⟩ last) : Crosses Crashes process last

end Units

namespace BoundaryProcess

variable {U R : Type} {plan : BoundaryPlan U R}

/-- Not between the commit of the last closing shard and the one of the close itself, and
not past the end. -/
def Recoverable : BoundaryProcess U R → Prop
  | ⟨_, .ewrapShards totalShards next isComplete⟩ => isComplete = false → next < totalShards
  | ⟨_, .done⟩ => False
  | _ => True

/-- The closing half takes itself for complete. -/
def Closed (plan : BoundaryPlan U R) (tables : BoundaryTables U R) : Prop :=
  ShardProgress.shardsOf plan.accountShards tables.epoch.ewrapProgress ≤
    ShardProgress.startOf tables.epoch.ewrapProgress

/-- The progress of the epoch is where the process is. -/
def InStep (plan : BoundaryPlan U R) : BoundaryProcess U R → Prop
  | ⟨_, .ewrap⟩ => True
  | ⟨tables, .ewrapShards totalShards next isComplete⟩ =>
      ShardProgress.shardsOf plan.accountShards tables.epoch.ewrapProgress = totalShards ∧
        ShardProgress.startOf tables.epoch.ewrapProgress = next ∧
          if isComplete then totalShards ≤ next else next ≤ totalShards
  | ⟨tables, .estart⟩ => Closed plan tables
  | ⟨tables, .estartShards avvm totalShards next⟩ =>
      Closed plan tables ∧ plan.passes.avvmAt tables.epoch.pparams tables.utxos = .ok avvm ∧
        ShardProgress.shardsOf plan.accountShards tables.epoch.estartProgress = totalShards ∧
          ShardProgress.startOf tables.epoch.estartProgress = next
  | ⟨_, .done⟩ => True

end BoundaryProcess

section Progress

variable {U R : Type} {plan : BoundaryPlan U R} {tables committed : BoundaryTables U R}

theorem ShardProgress.advance_start (accountShards : ℕ) (progress : Option ShardProgress) :
    ShardProgress.advance progress (startOf progress) (shardsOf accountShards progress) =
      some ⟨startOf progress + 1, shardsOf accountShards progress⟩ := by
  cases progress with
  | none => rfl
  | some held => simp [advance, startOf, shardsOf]

/-- A closing shard moves the progress on by one. -/
theorem progress_commitEwrapShard {totalShards next : ℕ}
    (total : ShardProgress.shardsOf plan.accountShards tables.epoch.ewrapProgress = totalShards)
    (start : ShardProgress.startOf tables.epoch.ewrapProgress = next)
    (commits : commitEwrapShard plan tables next totalShards = .ok committed) :
    committed.epoch.ewrapProgress = some ⟨next + 1, totalShards⟩ := by
  have advanced := ShardProgress.advance_start plan.accountShards tables.epoch.ewrapProgress
  rw [total, start] at advanced
  rcases bind_eq_ok.mp commits with ⟨⟨totals, rest⟩, -, applies⟩
  rcases bind_eq_ok.mp applies with ⟨⟨applied, epoch⟩, appliedEq, same⟩
  rw [mapError_eq_ok] at appliedEq
  simp only [apply, expect_some, ok_bind, EWrapProgress.new, advanced] at appliedEq
  rcases bind_eq_ok.mp appliedEq with ⟨stats, -, epochEq⟩
  rcases Prod.mk.inj (Except.ok.inj epochEq) with ⟨-, rfl⟩
  rw [← Except.ok.inj same]
  rfl

theorem progress_foldlM_pparamsUpdate {updates : List PParamsUpdate} {epoch : EpochState}
    {updated : Option EpochState}
    (done : updates.foldlM (fun entity delta => Prod.snd <$> apply delta entity) (some epoch) =
      .ok updated) :
    ∃ after, updated = some after ∧ after.ewrapProgress = epoch.ewrapProgress := by
  induction updates generalizing epoch with
  | nil =>
      cases done
      exact ⟨epoch, rfl, rfl⟩
  | cons delta rest ih =>
      rw [List.foldlM_cons] at done
      rcases bind_eq_ok.mp done with ⟨next, step, later⟩
      rcases map_eq_ok.mp step with ⟨⟨applied, reached⟩, appliedEq, rfl⟩
      simp only [apply, expect_some, ok_bind] at appliedEq
      rcases bind_eq_ok.mp appliedEq with ⟨scheduled, -, reachedEq⟩
      rcases Prod.mk.inj (Except.ok.inj reachedEq) with ⟨-, rfl⟩
      rcases ih later with ⟨after, isAfter, same⟩
      exact ⟨after, isAfter, same⟩

/-- The close leaves the progress, so that a restart knows of it. -/
theorem progress_commitEwrap (commits : commitEwrap plan tables = .ok committed) :
    committed.epoch.ewrapProgress = tables.epoch.ewrapProgress := by
  rcases bind_eq_ok.mp commits with ⟨⟨updates, stats, rest⟩, -, closes⟩
  rcases bind_eq_ok.mp closes with ⟨epoch, epochEq, same⟩
  rw [mapError_eq_ok] at epochEq
  rcases bind_eq_ok.mp epochEq with ⟨updated, updatedEq, wraps⟩
  rcases progress_foldlM_pparamsUpdate updatedEq with ⟨after, rfl, kept⟩
  simp only [apply, expect_some, ok_bind] at wraps
  rcases bind_eq_ok.mp wraps with ⟨⟨applied, closed⟩, appliedEq, closedEq⟩
  rcases bind_eq_ok.mp appliedEq with ⟨rolling, -, paramsDone⟩
  rcases bind_eq_ok.mp paramsDone with ⟨pparams, -, reachedEq⟩
  rcases Prod.mk.inj (Except.ok.inj reachedEq) with ⟨-, rfl⟩
  rw [← Except.ok.inj same, ← Except.ok.inj closedEq]
  exact kept

/-- An opening shard moves its progress on by one and leaves what the others go by. -/
theorem progress_commitEstartShard {avvm totalShards next : ℕ}
    (total : ShardProgress.shardsOf plan.accountShards tables.epoch.estartProgress = totalShards)
    (start : ShardProgress.startOf tables.epoch.estartProgress = next)
    (commits : commitEstartShard plan tables avvm next totalShards = .ok committed) :
    committed.epoch.estartProgress = some ⟨next + 1, totalShards⟩ ∧
      committed.epoch.ewrapProgress = tables.epoch.ewrapProgress ∧
      committed.epoch.pparams = tables.epoch.pparams ∧ committed.utxos = tables.utxos := by
  have advanced := ShardProgress.advance_start plan.accountShards tables.epoch.estartProgress
  rw [total, start] at advanced
  rcases bind_eq_ok.mp commits with ⟨rest, -, applies⟩
  rcases bind_eq_ok.mp applies with ⟨⟨applied, epoch⟩, appliedEq, same⟩
  rw [mapError_eq_ok] at appliedEq
  simp only [apply, expect_some, ok_bind, EStartProgress.new, advanced] at appliedEq
  rcases Prod.mk.inj (Except.ok.inj appliedEq) with ⟨-, rfl⟩
  rw [← Except.ok.inj same]
  exact ⟨rfl, rfl, rfl, rfl⟩

end Progress

namespace BoundaryProcess

variable {U R : Type} {plan : BoundaryPlan U R} {process next : BoundaryProcess U R}
  [NonceCrypto]

/-- Every step keeps the progress and the process together. -/
theorem InStep.step (inStep : process.InStep plan) (steps : process.step plan = .ok next) :
    next.InStep plan := by
  rcases process with ⟨tables, phase⟩
  cases phase with
  | ewrap =>
      rcases Except.ok.inj steps with rfl
      refine ⟨rfl, rfl, ?_⟩
      split_ifs with complete
      · exact of_decide_eq_true complete
      · exact (not_le.mp (of_decide_eq_false (Bool.eq_false_of_not_eq_true complete))).le
  | ewrapShards totalShards shard isComplete =>
      rcases inStep with ⟨total, start, bound⟩
      by_cases more : shard < totalShards
      · rw [BoundaryProcess.step, if_pos more] at steps
        rcases bind_eq_ok.mp steps with ⟨committed, commits, nextEq⟩
        rcases Except.ok.inj nextEq with rfl
        have progress := progress_commitEwrapShard total start commits
        cases isComplete with
        | true => exact absurd more (not_lt.mpr bound)
        | false =>
            refine ⟨?_, ?_, more⟩
            · rw [progress]
              rfl
            · rw [progress]
              rfl
      · rw [BoundaryProcess.step, if_neg more] at steps
        cases isComplete with
        | true =>
            rcases Except.ok.inj steps with rfl
            rw [InStep, Closed, total, start]
            exact bound
        | false =>
            rcases bind_eq_ok.mp steps with ⟨committed, commits, nextEq⟩
            rcases Except.ok.inj nextEq with rfl
            have ended : totalShards ≤ shard := not_lt.mp more
            have kept := progress_commitEwrap commits
            rw [InStep, Closed, kept, total, start]
            exact ended
  | estart =>
      rcases bind_eq_ok.mp steps with ⟨avvm, avvmEq, nextEq⟩
      rcases Except.ok.inj nextEq with rfl
      exact ⟨inStep, avvmEq, rfl, rfl⟩
  | estartShards avvm totalShards shard =>
      rcases inStep with ⟨closed, avvmEq, total, start⟩
      by_cases more : shard < totalShards
      · rw [BoundaryProcess.step, if_pos more] at steps
        rcases bind_eq_ok.mp steps with ⟨committed, commits, nextEq⟩
        rcases Except.ok.inj nextEq with rfl
        rcases progress_commitEstartShard total start commits with ⟨progress, ewrap, params, utxos⟩
        refine ⟨?_, ?_, ?_, ?_⟩
        · rw [Closed, ewrap]
          exact closed
        · rw [params, utxos]
          exact avvmEq
        · rw [progress]
          rfl
        · rw [progress]
          rfl
      · rw [BoundaryProcess.step, if_neg more] at steps
        rcases bind_eq_ok.mp steps with ⟨committed, commits, nextEq⟩
        rcases Except.ok.inj nextEq with rfl
        trivial
  | done =>
      rcases Except.ok.inj steps with rfl
      trivial

/-- Where a crash is recoverable, a restart comes back without a commit. -/
theorem InStep.restarts (inStep : process.InStep plan) (recoverable : process.Recoverable) :
    Crosses plan (fun _ => False) ⟨process.tables, .ewrap⟩ process := by
  rcases process with ⟨tables, phase⟩
  have closedRestarts : ∀ last, Closed plan tables →
      Crosses plan (fun _ => False) ⟨tables, .estart⟩ last →
      Crosses plan (fun _ => False) ⟨tables, .ewrap⟩ last := by
    intro last closed later
    rw [Closed] at closed
    refine .step rfl (.step ?_ later)
    rw [BoundaryProcess.step, if_neg (not_lt.mpr closed), if_pos (decide_eq_true closed)]
  cases phase with
  | ewrap => exact .stop
  | ewrapShards totalShards shard isComplete =>
      rcases inStep with ⟨rfl, rfl, bound⟩
      refine .step rfl ?_
      have same : decide (ShardProgress.shardsOf plan.accountShards tables.epoch.ewrapProgress ≤
          ShardProgress.startOf tables.epoch.ewrapProgress) = isComplete := by
        cases isComplete with
        | true => exact decide_eq_true bound
        | false => exact decide_eq_false (not_le.mpr (recoverable rfl))
      rw [same]
      exact .stop
  | estart => exact closedRestarts _ inStep .stop
  | estartShards avvm totalShards shard =>
      rcases inStep with ⟨closed, avvmEq, rfl, rfl⟩
      refine closedRestarts _ closed (.step ?_ .stop)
      simp only [BoundaryProcess.step, avvmEq, ok_bind]
  | done => exact recoverable.elim

theorem step_of_done (ended : process.phase = .done) : process.step plan = .ok process := by
  rcases process with ⟨tables, phase⟩
  subst ended
  rfl

/-- What is reached without a crash is on the way. -/
theorem crosses_iff_of_crosses {last : BoundaryProcess U R}
    (run : Crosses plan (fun _ => False) process next) (ended : last.phase = .done) :
    Crosses plan (fun _ => False) process last ↔ Crosses plan (fun _ => False) next last := by
  induction run with
  | stop => rfl
  | @step process middle next steps later ih =>
      rw [← ih]
      constructor
      · intro toLast
        cases toLast with
        | stop =>
            rw [step_of_done ended] at steps
            rcases Except.ok.inj steps with rfl
            exact .stop
        | step others othersLater =>
            rcases Except.ok.inj (steps.symm.trans others) with rfl
            exact othersLater
        | crash impossible _ => exact impossible.elim
      · intro fromMiddle
        exact .step steps fromMiddle
  | crash impossible _ _ => exact impossible.elim

/-- A run with recoverable crashes is on the way that has none. -/
theorem InStep.crosses_iff {last : BoundaryProcess U R} (inStep : process.InStep plan)
    (run : Crosses plan Recoverable process next) (ended : last.phase = .done) :
    Crosses plan (fun _ => False) process last ↔ Crosses plan (fun _ => False) next last := by
  induction run with
  | stop => rfl
  | step steps later ih =>
      have once : Crosses plan (fun _ => False) _ _ := .step steps .stop
      rw [crosses_iff_of_crosses once ended]
      exact ih (inStep.step steps)
  | crash recoverable later ih =>
      rw [← crosses_iff_of_crosses (inStep.restarts recoverable) ended]
      exact ih trivial

end BoundaryProcess

/-- With recoverable crashes only, a boundary ends as it does without one, wherever it was
interrupted, and with the same stores. -/
theorem boundary_restarts {U R : Type} [NonceCrypto] (plan : BoundaryPlan U R)
    (tables : BoundaryTables U R) :
    (∀ process whole, Crosses plan BoundaryProcess.Recoverable ⟨tables, .ewrap⟩ process →
      (Crosses plan (fun _ => False) ⟨tables, .ewrap⟩ ⟨whole, .done⟩ ↔
        Crosses plan (fun _ => False) process ⟨whole, .done⟩)) ∧
      ∀ last whole, Crosses plan BoundaryProcess.Recoverable ⟨tables, .ewrap⟩ ⟨last, .done⟩ →
        (Crosses plan (fun _ => False) ⟨tables, .ewrap⟩ ⟨whole, .done⟩ ↔ whole = last) := by
  have atStart : (⟨tables, .ewrap⟩ : BoundaryProcess U R).InStep plan := trivial
  refine ⟨fun process whole run => atStart.crosses_iff run rfl, ?_⟩
  intro last whole run
  rw [atStart.crosses_iff run rfl]
  constructor
  · intro rests
    have stays : ∀ process : BoundaryProcess U R,
        Crosses plan (fun _ => False) ⟨last, .done⟩ process → process = ⟨last, .done⟩ := by
      intro process crosses
      generalize isLast : (⟨last, .done⟩ : BoundaryProcess U R) = first at crosses
      induction crosses with
      | stop => rfl
      | step steps later ih =>
          subst isLast
          rcases Except.ok.inj steps with rfl
          exact ih rfl
      | crash impossible _ _ => exact impossible.elim
    exact congrArg BoundaryProcess.tables (stays _ rests)
  · rintro rfl
    exact .stop

section EmptyLedger

/-- A ledger without accounts, pools, representatives and proposals. What closes its epoch
are the incentives. -/
def emptyPasses : BoundaryPasses Unit Unit where
  ewrapShard := fun _ _ _ => .ok (⟨0, 0, 0⟩, ())
  ewrapFinalize := fun tables =>
    let sums := tables.epoch.endStats.getD .default
    .ok ([], { sums with epochIncentives := tables.epoch.incentives.getD .default }, ())
  avvmAt := fun _ _ => .ok 0
  estartShard := fun _ _ _ _ => .ok ()
  estartFinalize := fun _ => .ok ((), ())

def emptyPlan (accountShards : ℕ) : BoundaryPlan Unit Unit :=
  ⟨emptyPasses, mainnetNonces, accountShards, 432000⟩

/-- The end of an epoch that is to pay 20 to the treasury. -/
def emptyTables : BoundaryTables Unit Unit where
  epoch :=
    { babbageEpoch with
      initialPots := { Pots.default with reserves := 1000 }
      incentives := some ⟨100, 20, 80, 0⟩ }
  eras := OrderedMap.insert ∅ 8 babbageEra
  utxos := ()
  rest := ()
  cursor := .slotOnly 431999

/-- A ledger with rows of what is owed to accounts: a closing shard pays its rows, an opening
shard counts them, and the outputs that are left are reclaimed. -/
def payingPasses : BoundaryPasses (List ℕ) (List (ℕ × ℕ)) where
  ewrapShard := fun tables shard total =>
    .ok (⟨((tables.rest.filter fun row => row.1 % total = shard).map Prod.snd).sum, 0, 0⟩,
      tables.rest.map fun row => if row.1 % total = shard then (row.1, 0) else row)
  ewrapFinalize := fun tables =>
    let sums := tables.epoch.endStats.getD .default
    .ok ([], { sums with epochIncentives := tables.epoch.incentives.getD .default }, tables.rest)
  avvmAt := fun _ outputs => .ok outputs.sum
  estartShard := fun tables _ shard total =>
    .ok (tables.rest.map fun row => if row.1 % total = shard then (row.1, row.2 + 1) else row)
  estartFinalize := fun tables => .ok ([], tables.rest)

def payingPlan (accountShards : ℕ) : BoundaryPlan (List ℕ) (List (ℕ × ℕ)) :=
  ⟨payingPasses, mainnetNonces, accountShards, 432000⟩

def payingTables : BoundaryTables (List ℕ) (List (ℕ × ℕ)) where
  epoch :=
    { babbageEpoch with
      initialPots := { Pots.default with reserves := 1000, utxos := 10 }
      incentives := some ⟨100, 20, 80, 0⟩ }
  eras := OrderedMap.insert ∅ 8 babbageEra
  utxos := [4, 3]
  rest := [(1, 30), (2, 25), (3, 20)]
  cursor := .slotOnly 431999

/-- With two shards, a crash after the first closing shard, one after the close and one
after the first opening shard: all rows are paid and counted once. -/
theorem boundary_restarts_paying :
    letI := NonceCrypto.still
    ∃ last, Crosses (payingPlan 2) BoundaryProcess.Recoverable ⟨payingTables, .ewrap⟩
        ⟨last, .done⟩ ∧
      last.rest = [(1, 1), (2, 1), (3, 1)] ∧ last.utxos = [] ∧
      last.epoch.initialPots.rewards = 75 ∧
      Crosses (payingPlan 2) (fun _ => False) ⟨payingTables, .ewrap⟩ ⟨last, .done⟩ := by
  let _ := NonceCrypto.still
  have run : ∃ last, Crosses (payingPlan 2) BoundaryProcess.Recoverable ⟨payingTables, .ewrap⟩
      ⟨last, .done⟩ ∧ last.rest = [(1, 1), (2, 1), (3, 1)] ∧ last.utxos = [] ∧
        last.epoch.initialPots.rewards = 75 := by
    refine ⟨_, .step rfl (.step rfl (.crash ?_ (.step rfl (.step rfl (.step rfl (.crash ?_
      (.step rfl (.step rfl (.step rfl (.step rfl (.crash ?_ (.step rfl (.step rfl (.step rfl
        (.step rfl (.step rfl .stop)))))))))))))))), ?_, ?_, ?_⟩
    · intro _
      decide
    · trivial
    · trivial
    all_goals rfl
  rcases run with ⟨last, run, paid, reclaimed, rewards⟩
  exact ⟨last, run, paid, reclaimed, rewards,
    ((boundary_restarts (payingPlan 2) payingTables).2 last last run).mpr rfl⟩

/-- After a crash between the last closing shard and the close, the close is left out: what
the epoch is to pay stays in the reserves. -/
theorem close_lost :
    letI := NonceCrypto.still
    ∃ lost whole, Crosses (emptyPlan 1) (fun process => process.phase = .ewrapShards 1 1 false)
        ⟨emptyTables, .ewrap⟩ ⟨lost, .done⟩ ∧
      Crosses (emptyPlan 1) (fun _ => False) ⟨emptyTables, .ewrap⟩ ⟨whole, .done⟩ ∧
      whole.epoch.initialPots.treasury = 20 ∧ whole.epoch.initialPots.reserves = 980 ∧
      lost.epoch.initialPots.treasury = 0 ∧ lost.epoch.initialPots.reserves = 1000 := by
  let _ := NonceCrypto.still
  refine ⟨_, _, .step rfl (.step rfl (.crash ?_ (.step rfl (.step rfl (.step rfl (.step rfl
    (.step rfl .stop))))))), .step rfl (.step rfl (.step rfl (.step rfl (.step rfl (.step rfl
      .stop))))), ?_, ?_, ?_, ?_⟩
  all_goals rfl

end EmptyLedger

end Dolos
