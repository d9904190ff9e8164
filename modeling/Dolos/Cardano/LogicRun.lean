import Dolos.Cardano.Logic

/-!
# Agreement of the work buffer with the cursor

A domain agrees with its stores when the chain logic restarted from them would do
the same for every next block. Rolling forward keeps a stronger invariant: the
chain logic *is* the restarted one. Rolling back keeps it when the entry the walk
stops at is the one the cursor already names, and breaks it otherwise.
-/

namespace Dolos

open Outcome

variable {B S : Type} [Block B]

inductive SyncOp (B : Type) where
  | rollForward (block : B)
  | rollback (target : ChainPoint)

namespace Domain

variable (ledger : Ledger B S)

/-- The domain as it would be after a restart. -/
def restarted (domain : Domain B S) : Domain B S where
  chain := .initializeChain ledger domain.chain.stopEpoch domain.chain.stabilityWindow
    domain.stores
  stores := domain.stores

/-- A node just started on its stores. -/
def startFrom (stopEpoch : Option ℕ) (stabilityWindow : ℕ) (stores : Stores B S) :
    Domain B S where
  chain := .initializeChain ledger stopEpoch stabilityWindow stores
  stores := stores

def step (domain : Domain B S) : SyncOp B → Except DomainError (Domain B S)
  | .rollForward block => Prod.snd <$> domain.rollForward ledger block
  | .rollback target => domain.rollback ledger target

def run (domain : Domain B S) : List (SyncOp B) → Except DomainError (Domain B S)
  | [] => .ok domain
  | op :: rest => do
      let next ← domain.step ledger op
      next.run rest

/-- The buffer's last point is the cursor, and every next block makes it pop what
a restarted chain logic would. -/
structure Agrees (domain : Domain B S) : Prop where
  lastPoint : domain.chain.work.lastPointSeen = .ok (domain.stores.cursor.getD .origin)
  units : ∀ block, Prod.fst <$> domain.rollForward ledger block =
    Prod.fst <$> (domain.restarted ledger).rollForward ledger block

def AgreesThroughout (start : Domain B S) (ops : List (SyncOp B)) : Prop :=
  ∀ earlier later domain, ops = earlier ++ later → start.run ledger earlier = .ok domain →
    domain.Agrees ledger

/-- No rollback of the run moves the cursor: the log entry its walk stops at, if
there is one, is the cursor's own. -/
def RollbacksIdle (start : Domain B S) (ops : List (SyncOp B)) : Prop :=
  ∀ earlier target later domain next, ops = earlier ++ .rollback target :: later →
    start.run ledger earlier = .ok domain → domain.rollback ledger target = .ok next →
    domain.rollbackTarget target = none ∨ domain.rollbackTarget target = domain.stores.cursor

/-- The invariant of a drained domain. -/
def Fresh (domain : Domain B S) : Prop := domain.restarted ledger = domain

end Domain

/-- What an idle buffer knows is the cursor; a loaded one will move it. -/
def WorkBuffer.Cursored (cursor : Option ChainPoint) : WorkBuffer B → Prop
  | .empty => cursor = none
  | .restart point => cursor = some point
  | _ => True

omit [Block B] in
theorem WorkBuffer.cursored_initializeWork (cursor : Option ChainPoint) :
    (initializeWork (B := B) cursor).Cursored cursor := by
  cases cursor with
  | none => rfl
  | some point => rfl

theorem WorkBuffer.cursored_popWork {buffer next : WorkBuffer B} {stopEpoch : Option ℕ}
    {unit : InternalWorkUnit B} (popped : buffer.popWork stopEpoch = (some unit, next))
    (cursor : Option ChainPoint) : next.Cursored (unit.cursor cursor) := by
  cases buffer with
  | estartBoundary block epoch =>
      simp only [popWork, Prod.mk.injEq] at popped
      rw [← popped.2]
      split_ifs
      · trivial
      · trivial
  | openBatch batch =>
      simp only [popWork, Prod.mk.injEq, Option.some.injEq] at popped
      rcases popped with ⟨rfl, rfl⟩
      rfl
  | _ =>
      simp only [popWork, Prod.mk.injEq, Option.some.injEq, reduceCtorEq, false_and] at popped <;>
      · rw [← popped.2]
        trivial

theorem WorkBuffer.eq_initializeWork_of_popWork {buffer next : WorkBuffer B}
    {stopEpoch : Option ℕ} {cursor : Option ChainPoint}
    (popped : buffer.popWork stopEpoch = (none, next)) (cursored : buffer.Cursored cursor) :
    next = initializeWork cursor := by
  cases buffer with
  | empty =>
      simp only [popWork, Prod.mk.injEq, true_and] at popped
      rw [← popped, show cursor = none from cursored]
      rfl
  | restart point =>
      simp only [popWork, Prod.mk.injEq, true_and] at popped
      rw [← popped, show cursor = some point from cursored]
      rfl
  | _ => simp [popWork] at popped

theorem WorkBuffer.cursored_receiveBlock {buffer next : WorkBuffer B} {block : B}
    {eras : ChainSummary} {stabilityWindow : ℕ} (cursor : Option ChainPoint)
    (received : buffer.receiveBlock block eras stabilityWindow = .ok next) :
    next.Cursored cursor := by
  have parked : ∀ epoch, buffer.onEwrapBoundary block epoch = .ok next → next.Cursored cursor := by
    intro epoch nextEq
    cases buffer <;> simp only [onEwrapBoundary, reduceCtorEq, Except.ok.injEq] at nextEq <;>
      (rw [← nextEq]; trivial)
  have updated : buffer.onRupdBoundary block = .ok next → next.Cursored cursor := by
    intro nextEq
    cases buffer <;> simp only [onRupdBoundary, reduceCtorEq, Except.ok.injEq] at nextEq <;>
      (rw [← nextEq]; trivial)
  have extended : buffer.extendBatch block = .ok next → next.Cursored cursor := by
    intro nextEq
    cases buffer <;> simp only [extendBatch, reduceCtorEq, Except.ok.injEq] at nextEq <;>
      (rw [← nextEq]; trivial)
  unfold receiveBlock at received
  split_ifs at received
  split at received
  · simp only [onGenesisBoundary, Except.ok.injEq] at received
    rw [← received]
    trivial
  · rcases bind_eq_ok.mp received with ⟨lastPoint, _, classified⟩
    rcases bind_eq_ok.mp classified with ⟨boundary, _, classified⟩
    split at classified
    · exact parked _ classified
    · rcases bind_eq_ok.mp classified with ⟨rupd, _, classified⟩
      split at classified
      · exact updated classified
      · exact extended classified

namespace Domain

variable {ledger : Ledger B S}

/-- The invariant while units are being popped. -/
structure Settling (ledger : Ledger B S) (domain : Domain B S) : Prop where
  cached : domain.chain.needsCacheRefresh = true ∨
    domain.chain.eras = ledger.eras domain.stores.ledger
  cursored : domain.chain.work.Cursored domain.stores.cursor

theorem fresh_of_idle {domain : Domain B S} (settling : domain.Settling ledger)
    (idle : (domain.chain.work.popWork domain.chain.stopEpoch).1 = none) :
    Fresh ledger { domain with chain := (domain.chain.popWork ledger domain.stores).2 } := by
  have workEq := WorkBuffer.eq_initializeWork_of_popWork (Prod.ext idle rfl) settling.cursored
  have erasEq : (if domain.chain.needsCacheRefresh then ledger.eras domain.stores.ledger
      else domain.chain.eras) = ledger.eras domain.stores.ledger := by
    rcases settling.cached with refresh | cached
    · rw [if_pos refresh]
    · rw [cached, ite_self]
  simp only [Fresh, restarted, CardanoLogic.initializeChain, CardanoLogic.popWork, idle, erasEq,
    workEq]

theorem settling_execute {domain : Domain B S} {unit : InternalWorkUnit B} {stores : Stores B S}
    (settling : domain.Settling ledger)
    (popped : (domain.chain.work.popWork domain.chain.stopEpoch).1 = some unit)
    (executed : executeWorkUnit ledger unit domain.stores = .ok stores) :
    Settling ledger ⟨(domain.chain.popWork ledger domain.stores).2, stores⟩ := by
  have effect : ∃ after, ledger.execute unit domain.stores = .ok after ∧
      stores = ⟨after, unit.cursor domain.stores.cursor, unit.walAfter domain.stores.wal⟩ := by
    cases unit with
    | forcedStop => simp [executeWorkUnit] at executed
    | _ =>
        rcases bind_eq_ok.mp executed with ⟨after, afterEq, storesEq⟩
        exact ⟨after, afterEq, (Except.ok.inj storesEq).symm⟩
  rcases effect with ⟨after, afterEq, rfl⟩
  constructor
  · cases changes : unit.changesEras with
    | true =>
        left
        simp [CardanoLogic.popWork, popped, changes]
    | false =>
        right
        rw [ledger.eras_execute unit domain.stores after changes afterEq]
        rcases settling.cached with refresh | cached
        · simp [CardanoLogic.popWork, popped, refresh]
        · simp [CardanoLogic.popWork, popped, cached]
  · have workEq : (domain.chain.popWork ledger domain.stores).2.work =
        (domain.chain.work.popWork domain.chain.stopEpoch).2 := by
      simp [CardanoLogic.popWork, popped]
    rw [workEq]
    exact WorkBuffer.cursored_popWork (Prod.ext popped rfl) domain.stores.cursor

theorem fresh_drainPendingWork {domain final : Domain B S} {units : List (InternalWorkUnit B)}
    (settling : domain.Settling ledger)
    (drained : domain.drainPendingWork ledger = .ok (units, final)) : final.Fresh ledger := by
  induction load : domain.chain.work.load using Nat.strong_induction_on
    generalizing domain units final with
  | _ bound ih =>
      cases popped : (domain.chain.work.popWork domain.chain.stopEpoch).1 with
      | none =>
          rw [drainPendingWork_idle ledger popped, Except.ok.injEq, Prod.mk.injEq] at drained
          rw [← drained.2]
          exact fresh_of_idle settling popped
      | some unit =>
          rw [drainPendingWork_pop ledger popped] at drained
          rcases bind_eq_ok.mp drained with ⟨stores, executed, drained⟩
          rcases bind_eq_ok.mp drained with ⟨⟨rest, last⟩, drainedRest, lastEq⟩
          simp only [Except.ok.injEq, Prod.mk.injEq] at lastEq
          rw [← lastEq.2]
          refine ih _ ?_ (settling_execute settling popped executed) drainedRest rfl
          rw [← load]
          exact load_popWork_of_executed popped executed

omit [Block B] in
theorem settling_of_fresh {domain : Domain B S} (fresh : domain.Fresh ledger) :
    domain.Settling ledger := by
  rw [← show domain.restarted ledger = domain from fresh]
  exact ⟨Or.inr rfl, WorkBuffer.cursored_initializeWork domain.stores.cursor⟩

theorem agrees_of_fresh {domain : Domain B S} (fresh : domain.Fresh ledger) :
    domain.Agrees ledger := by
  constructor
  · rw [← show domain.restarted ledger = domain from fresh]
    cases cursorEq : domain.stores.cursor with
    | none => simp [restarted, CardanoLogic.initializeChain, cursorEq, WorkBuffer.initializeWork,
        WorkBuffer.lastPointSeen]
    | some point => simp [restarted, CardanoLogic.initializeChain, cursorEq,
        WorkBuffer.initializeWork, WorkBuffer.newFromCursor, WorkBuffer.lastPointSeen]
  · intro block
    rw [show domain.restarted ledger = domain from fresh]

theorem settling_receiveBlock {domain : Domain B S} {block : B} {chain : CardanoLogic B}
    (settling : domain.Settling ledger) (received : domain.chain.receiveBlock block = .ok chain) :
    Settling ledger { domain with chain := chain } := by
  rw [CardanoLogic.receiveBlock] at received
  split_ifs at received
  split at received
  · next work workEq =>
      rw [Except.ok.injEq] at received
      subst received
      exact ⟨settling.cached, WorkBuffer.cursored_receiveBlock _ workEq⟩
  · simp at received

theorem fresh_rollForward {domain next : Domain B S} {block : B}
    {units : List (InternalWorkUnit B)} (fresh : domain.Fresh ledger)
    (rolled : domain.rollForward ledger block = .ok (units, next)) : next.Fresh ledger := by
  rcases bind_eq_ok.mp rolled with ⟨⟨_, drained⟩, drainedEq, rolled⟩
  rcases bind_eq_ok.mp rolled with ⟨chain, received, rolled⟩
  have drainedFresh := fresh_drainPendingWork (settling_of_fresh fresh) drainedEq
  exact fresh_drainPendingWork
    (settling_receiveBlock (settling_of_fresh drainedFresh) received) rolled

omit [Block B] in
theorem undoDownTo_spec {target : ChainPoint} {entries : List (ChainPoint × Option B)}
    {before after : S} {reached : Option ChainPoint}
    (walked : undoDownTo ledger target entries before = .ok (after, reached)) :
    reached = (entries.map Prod.fst).find? (fun point => point.eq target) ∧
      ledger.eras after = ledger.eras before := by
  induction entries generalizing before with
  | nil =>
      simp only [undoDownTo, Except.ok.injEq, Prod.mk.injEq] at walked
      exact ⟨walked.2.symm, by rw [walked.1]⟩
  | cons entry rest ih =>
      rw [undoDownTo] at walked
      split_ifs at walked with met
      · simp only [Except.ok.injEq, Prod.mk.injEq] at walked
        refine ⟨?_, by rw [walked.1]⟩
        simp [met, walked.2]
      · rcases bind_eq_ok.mp walked with ⟨undone, undoneEq, walkedRest⟩
        rcases ih walkedRest with ⟨reachedEq, erasEq⟩
        refine ⟨?_, ?_⟩
        · simp [met, reachedEq]
        · rw [erasEq, ledger.eras_undo _ _ _ undoneEq]

omit [Block B] in
/-- What a rollback does to everything the chain logic depends on. -/
theorem rollback_spec {domain next : Domain B S} {target : ChainPoint}
    (rolled : domain.rollback ledger target = .ok next) :
    next.chain = domain.chain ∧
      next.stores.cursor = (domain.rollbackTarget target <|> domain.stores.cursor) ∧
      ledger.eras next.stores.ledger = ledger.eras domain.stores.ledger := by
  rcases bind_eq_ok.mp rolled with ⟨⟨after, reached⟩, walked, nextEq⟩
  rcases undoDownTo_spec walked with ⟨reachedEq, erasEq⟩
  simp only [Except.ok.injEq] at nextEq
  subst nextEq
  refine ⟨rfl, ?_, erasEq⟩
  rw [reachedEq, rollbackTarget, List.map_reverse]

omit [Block B] in
theorem fresh_rollback {domain next : Domain B S} {target : ChainPoint}
    (fresh : domain.Fresh ledger) (rolled : domain.rollback ledger target = .ok next)
    (idle : domain.rollbackTarget target = none ∨
      domain.rollbackTarget target = domain.stores.cursor) : next.Fresh ledger := by
  rcases rollback_spec rolled with ⟨chainEq, cursorEq, erasEq⟩
  have sameCursor : next.stores.cursor = domain.stores.cursor := by
    rcases idle with none | same
    · rw [cursorEq, none]
      rfl
    · rw [cursorEq, same]
      cases domain.stores.cursor <;> rfl
  have chainFresh := congrArg chain (show domain.restarted ledger = domain from fresh)
  have nextChain : (next.restarted ledger).chain = next.chain := by
    rw [chainEq, ← chainFresh]
    simp [restarted, CardanoLogic.initializeChain, sameCursor, erasEq, chainEq]
  exact Domain.ext nextChain rfl

theorem run_concat {start : Domain B S} (ops : List (SyncOp B)) (op : SyncOp B) :
    start.run ledger (ops ++ [op]) = (do
      let domain ← start.run ledger ops
      domain.step ledger op) := by
  induction ops generalizing start with
  | nil =>
      cases stepped : start.step ledger op with
      | error failure => simp [run, stepped]
      | ok next => simp [run, stepped]
  | cons head rest ih =>
      rw [List.cons_append, run, run]
      cases start.step ledger head with
      | error failure => rfl
      | ok next => exact ih

theorem fresh_run {start : Domain B S} {ops : List (SyncOp B)} (fresh : start.Fresh ledger)
    (idle : start.RollbacksIdle ledger ops) {earlier later : List (SyncOp B)}
    (split : ops = earlier ++ later) {domain : Domain B S}
    (ran : start.run ledger earlier = .ok domain) : domain.Fresh ledger := by
  induction earlier using List.reverseRecOn generalizing later domain with
  | nil =>
      simp only [run, Except.ok.injEq] at ran
      rw [← ran]
      exact fresh
  | append_singleton earlier op ih =>
      rw [run_concat] at ran
      rcases bind_eq_ok.mp ran with ⟨before, beforeEq, stepped⟩
      rw [List.append_assoc] at split
      have beforeFresh := ih split beforeEq
      cases op with
      | rollForward block =>
          rcases map_eq_ok.mp stepped with ⟨⟨units, next⟩, rolled, rfl⟩
          exact fresh_rollForward beforeFresh rolled
      | rollback target =>
          exact fresh_rollback beforeFresh stepped
            (idle earlier target later before domain split beforeEq stepped)

theorem cursor_isSome_executeWorkUnit {unit : InternalWorkUnit B} {stores after : Stores B S}
    (executed : executeWorkUnit ledger unit stores = .ok after)
    (cursor : stores.cursor.isSome) : after.cursor.isSome := by
  cases unit with
  | forcedStop => simp [executeWorkUnit] at executed
  | _ =>
      rcases bind_eq_ok.mp executed with ⟨state, _, afterEq⟩
      rw [← Except.ok.inj afterEq]
      simp [InternalWorkUnit.cursor, cursor]

theorem cursor_isSome_drainPendingWork {domain final : Domain B S}
    {units : List (InternalWorkUnit B)}
    (drained : domain.drainPendingWork ledger = .ok (units, final))
    (cursor : domain.stores.cursor.isSome) : final.stores.cursor.isSome := by
  induction load : domain.chain.work.load using Nat.strong_induction_on
    generalizing domain units final with
  | _ bound ih =>
      cases popped : (domain.chain.work.popWork domain.chain.stopEpoch).1 with
      | none =>
          rw [drainPendingWork_idle ledger popped, Except.ok.injEq, Prod.mk.injEq] at drained
          rw [← drained.2]
          exact cursor
      | some unit =>
          rw [drainPendingWork_pop ledger popped] at drained
          rcases bind_eq_ok.mp drained with ⟨stores, executed, drained⟩
          rcases bind_eq_ok.mp drained with ⟨⟨rest, last⟩, drainedRest, lastEq⟩
          simp only [Except.ok.injEq, Prod.mk.injEq] at lastEq
          rw [← lastEq.2]
          refine ih _ ?_ drainedRest (cursor_isSome_executeWorkUnit executed cursor) rfl
          rw [← load]
          exact load_popWork_of_executed popped executed

theorem cursor_isSome_step {domain next : Domain B S} {op : SyncOp B}
    (stepped : domain.step ledger op = .ok next) (cursor : domain.stores.cursor.isSome) :
    next.stores.cursor.isSome := by
  cases op with
  | rollForward block =>
      rcases map_eq_ok.mp stepped with ⟨⟨units, rolledTo⟩, rolled, rfl⟩
      rcases bind_eq_ok.mp rolled with ⟨⟨_, drained⟩, drainedEq, rolled⟩
      rcases bind_eq_ok.mp rolled with ⟨chain, received, rolled⟩
      have drainedCursor := cursor_isSome_drainPendingWork drainedEq cursor
      exact cursor_isSome_drainPendingWork rolled drainedCursor
  | rollback target =>
      rw [(rollback_spec stepped).2.1]
      cases domain.rollbackTarget target with
      | none => exact cursor
      | some point => rfl

theorem cursor_isSome_run {start domain : Domain B S} {ops : List (SyncOp B)}
    (ran : start.run ledger ops = .ok domain) (cursor : start.stores.cursor.isSome) :
    domain.stores.cursor.isSome := by
  induction ops generalizing start with
  | nil =>
      simp only [run, Except.ok.injEq] at ran
      rw [← ran]
      exact cursor
  | cons op rest ih =>
      rcases bind_eq_ok.mp ran with ⟨next, stepped, ranRest⟩
      exact ih ranRest (cursor_isSome_step stepped cursor)

/-- A rollback that moves the cursor leaves the buffer behind. -/
theorem idle_of_agrees {domain next : Domain B S} {target : ChainPoint}
    (before : domain.Agrees ledger) (cursor : domain.stores.cursor.isSome)
    (rolled : domain.rollback ledger target = .ok next) (after : next.Agrees ledger) :
    domain.rollbackTarget target = none ∨
      domain.rollbackTarget target = domain.stores.cursor := by
  rcases rollback_spec rolled with ⟨chainEq, cursorEq, _⟩
  cases reached : domain.rollbackTarget target with
  | none => exact Or.inl rfl
  | some point =>
      right
      have lastPoint := after.lastPoint
      rw [chainEq, before.lastPoint, cursorEq, reached, Except.ok.injEq] at lastPoint
      rcases Option.isSome_iff_exists.mp cursor with ⟨held, heldEq⟩
      rw [heldEq] at lastPoint ⊢
      exact congrArg some lastPoint.symm

/-- Started from any stores, the chain logic agrees with them in every state a run
reaches if no rollback of the run moves the cursor, and only if, once there is a
cursor to move. -/
theorem agreesThroughout_iff (stopEpoch : Option ℕ) (stabilityWindow : ℕ)
    (stores : Stores B S) (ops : List (SyncOp B)) :
    ((startFrom ledger stopEpoch stabilityWindow stores).RollbacksIdle ledger ops →
        (startFrom ledger stopEpoch stabilityWindow stores).AgreesThroughout ledger ops) ∧
      (stores.cursor.isSome →
        (startFrom ledger stopEpoch stabilityWindow stores).AgreesThroughout ledger ops →
        (startFrom ledger stopEpoch stabilityWindow stores).RollbacksIdle ledger ops) := by
  have fresh : (startFrom ledger stopEpoch stabilityWindow stores).Fresh ledger := rfl
  refine ⟨?_, ?_⟩
  · intro idle earlier later domain split ran
    exact agrees_of_fresh (fresh_run fresh idle split ran)
  · intro cursor agrees earlier target later domain next split ran rolled
    have before : domain.Agrees ledger := agrees earlier _ domain split ran
    have after : next.Agrees ledger := by
      refine agrees (earlier ++ [.rollback target]) later next (by simp [split]) ?_
      rw [run_concat, ran]
      exact rolled
    exact idle_of_agrees before (cursor_isSome_run ran cursor) rolled after

/-- A ledger whose era summary never changes. -/
def steadyLedger : Ledger BlockHeader Unit where
  eras _ := WorkRun.hundredSlotEra
  execute _ _ := .ok ()
  undo _ _ := .ok ()
  eras_execute _ _ _ _ _ := rfl
  eras_undo _ _ _ _ := rfl

def steadyStores : Stores BlockHeader Unit where
  ledger := ()
  cursor := some (.specific 10 1)
  wal := (∅ : Wal (Option BlockHeader)).appendEntries [(.specific 10 1, some ⟨10, 1⟩)]

/-- A rollback to the cursor itself, then a block across an epoch boundary. -/
theorem agreesThroughout_idle_rollback :
    (startFrom steadyLedger none 40 steadyStores).AgreesThroughout steadyLedger
      [.rollback (.specific 10 1), .rollForward ⟨110, 4⟩] := by
  apply (agreesThroughout_iff none 40 steadyStores _).1
  intro earlier target later domain next split ran _
  cases earlier with
  | nil =>
      simp only [List.nil_append, List.cons.injEq, SyncOp.rollback.injEq] at split
      rw [← split.1]
      simp only [run, Except.ok.injEq] at ran
      rw [← ran]
      exact Or.inr rfl
  | cons first rest =>
      simp only [List.cons_append, List.cons.injEq] at split
      rcases List.append_eq_singleton_iff.mp split.2.symm with ⟨_, tail⟩ | ⟨_, tail⟩
      · simp at tail
      · simp at tail

/-- The domain once a block of the next epoch has been rolled back. -/
def forkedDomain : Domain BlockHeader Unit where
  chain := ⟨none, 40, WorkRun.hundredSlotEra, .restart (.specific 110 4), false⟩
  stores := steadyStores

/-- A fork across an epoch boundary: after the rollback the next block opens the
epoch again, but the buffer takes it for a block of an epoch already open. -/
theorem rollback_leaves_buffer_behind :
    (startFrom steadyLedger none 40 steadyStores).run steadyLedger
        [.rollForward ⟨110, 4⟩, .rollback (.specific 10 1)] = .ok forkedDomain ∧
      forkedDomain.chain.work.lastPointSeen = .ok (.specific 110 4) ∧
      forkedDomain.stores.cursor = some (.specific 10 1) ∧
      Prod.fst <$> forkedDomain.rollForward steadyLedger ⟨120, 5⟩ =
        .ok [.blocks (.forSingleBlock ⟨120, 5⟩)] ∧
      Prod.fst <$> (forkedDomain.restarted steadyLedger).rollForward steadyLedger ⟨120, 5⟩ =
        .ok [.ewrap 120, .estart 120, .blocks (.forSingleBlock ⟨120, 5⟩)] := by
  have forward : (startFrom steadyLedger none 40 steadyStores).rollForward steadyLedger ⟨110, 4⟩ =
      .ok (_, _) :=
    rollForward_of_idle _ rfl rfl <| drainPendingWork_cons _ rfl rfl <|
      drainPendingWork_cons _ rfl rfl <| drainPendingWork_cons _ rfl rfl <|
      drainPendingWork_idle _ rfl
  have live : forkedDomain.rollForward steadyLedger ⟨120, 5⟩ = .ok (_, _) :=
    rollForward_of_idle _ rfl rfl <| drainPendingWork_cons _ rfl rfl <|
      drainPendingWork_idle _ rfl
  have fresh : (forkedDomain.restarted steadyLedger).rollForward steadyLedger ⟨120, 5⟩ =
      .ok (_, _) :=
    rollForward_of_idle _ rfl rfl <| drainPendingWork_cons _ rfl rfl <|
      drainPendingWork_cons _ rfl rfl <| drainPendingWork_cons _ rfl rfl <|
      drainPendingWork_idle _ rfl
  refine ⟨?_, rfl, rfl, ?_, ?_⟩
  · rw [run, step, forward]
    rfl
  · rw [live]
    rfl
  · rw [fresh]
    rfl

end Domain

end Dolos
