import Dolos.Cardano.Deposits
import Dolos.Cardano.DrepLedger

/-!
# The flag of an expired representative

A boundary sets the flag of a representative whose expiry, with the dormant epochs added,
is behind the epoch that begins, and only a refresh clears it. The count it adds is the one
before the boundary has counted its own epoch, so a boundary that finds nothing to vote on
can set the flag of a representative that by the count it leaves has one more epoch.

The proof follows one row. Blocks keep that a set flag is right, since a release passes
over what is long expired and a refresh clears the flag; a boundary that does not fall in
the gap makes it right again for the epoch that begins.
-/

namespace Dolos

open Outcome

namespace DRepDelta

/-- A delta of a block of an epoch, made with a count of dormant epochs. -/
def Current (epoch dormant : ℕ) : DRepDelta → Prop
  | expiryUpdate delta => delta.epoch = epoch
  | dormancyRelease delta => delta.epoch = epoch ∧ delta.dormantEpochs = dormant
  | expiration _ => False
  | _ => True

end DRepDelta

/-- A set flag is right: the expiry is behind the epoch. -/
def FlagHolds (epoch dormant : ℕ) (row : DRepState) : Prop :=
  row.expired = true → ∀ expiry ∈ row.expiry, expiry.current + dormant < epoch

/-- The row knows the expiry it had at the end of the epoch before. -/
def Remembers (epoch : ℕ) (ended : Option ℕ) (row : Option DRepState) : Prop :=
  match row.bind DRepState.expiry with
  | none => ended = none
  | some expiry => expiry.updatedIn ≤ epoch ∧ expiry.asOf (epoch - 1) = ended

/-- The flag and the expiry of a row, as a new row has them where there is none. -/
def flagAndExpiry (row : Option DRepState) : Bool × Option DRepExpiry :=
  (row.any DRepState.expired, row.bind DRepState.expiry)

theorem FlagHolds.mono {epoch epoch' dormant dormant' : ℕ} {row : DRepState}
    (holds : FlagHolds epoch dormant row) (le : epoch + dormant' ≤ epoch' + dormant) :
    FlagHolds epoch' dormant' row := by
  intro expired expiry held
  have behind := holds expired expiry held
  omega

section Row

variable {epoch dormant : ℕ} {ended : Option ℕ} {row after : Option DRepState} {delta : DRepDelta}

/-- How a delta of a block changes what the flag rests on. -/
theorem expiry_cases (done : delta.apply row = .ok after) (current : delta.Current epoch dormant) :
    flagAndExpiry after = flagAndExpiry row ∨
    (∃ state value, after = some state ∧ state.expired = false ∧
      state.expiry = some (match row.bind DRepState.expiry with
        | some expiry => expiry.set value epoch
        | none => .new value epoch)) ∨
    (∃ held state expiry, row = some held ∧ after = some state ∧ held.expiry = some expiry ∧
      epoch ≤ expiry.current + dormant ∧ state.expired = held.expired ∧
        state.expiry = some (expiry.set (expiry.current + dormant) epoch)) := by
  cases delta with
  | registration delta =>
      cases done
      left
      cases row <;> rfl
  | unRegistration delta =>
      cases row with
      | none => cases done
      | some state =>
          cases done
          exact .inl rfl
  | activity delta =>
      cases done
      left
      cases row <;> rfl
  | anchorUpdate delta =>
      cases done
      left
      cases row <;> rfl
  | expiryUpdate delta =>
      simp only [DRepDelta.apply, EntityDelta.apply] at done
      split_ifs at done with skipped
      · cases done
        exact .inl rfl
      · cases done
        right
        left
        have same : delta.epoch = epoch := current
        refine ⟨_, delta.expiry, rfl, rfl, ?_⟩
        simp only [DRepExpiryUpdate.refreshed, same]
        cases row with
        | none => rfl
        | some state => cases held : state.expiry <;> simp [held]
  | dormancyRelease delta =>
      have released := current.2
      have same := current.1
      cases row with
      | none =>
          cases done
          exact .inl rfl
      | some held =>
          simp only [DRepDelta.apply, EntityDelta.apply] at done
          cases target : delta.released held with
          | none =>
              simp only [target] at done
              cases done
              exact .inl rfl
          | some expiry =>
              simp only [target] at done
              cases done
              right
              right
              have heldExpiry := DRepDormancyRelease.expiry_of_released target
              have late : epoch ≤ expiry.current + dormant := by
                by_contra early
                have behind : expiry.current + delta.dormantEpochs < delta.epoch := by
                  rw [released, same]
                  exact not_le.mp early
                simp [DRepDormancyRelease.released, heldExpiry, behind] at target
              exact ⟨held, _, expiry, rfl, rfl, heldExpiry, late, rfl, by rw [released, same]⟩
  | expiration delta => exact current.elim
  | powerUpdate delta =>
      cases row with
      | none => cases done
      | some state =>
          cases done
          exact .inl rfl

/-- Blocks keep that a set flag is right. -/
theorem flagHolds_apply (done : delta.apply row = .ok after)
    (current : delta.Current epoch dormant) (holds : ∀ held ∈ row, FlagHolds epoch dormant held) :
    ∀ state ∈ after, FlagHolds epoch dormant state := by
  intro state member expired expiry held
  rcases expiry_cases done current with same | ⟨refreshed, value, rfl, cleared, -⟩ |
    ⟨old, state', oldExpiry, rowEq, rfl, oldHeld, late, sameFlag, -⟩
  · cases member
    have fields := Prod.mk.inj same
    cases row with
    | none =>
        have flag : state.expired = false := fields.1
        rw [flag] at expired
        cases expired
    | some old =>
        have flag : state.expired = old.expired := fields.1
        have kept : state.expiry = old.expiry := fields.2
        exact holds old rfl (flag.symm.trans expired) expiry (kept ▸ held)
  · cases member
    rw [cleared] at expired
    cases expired
  · cases member
    have behind := holds old rowEq (sameFlag.symm.trans expired) oldExpiry oldHeld
    omega

/-- Writing an expiry in an epoch keeps the one from the end of the epoch before. -/
theorem DRepExpiry.asOf_set {expiry : DRepExpiry} (value : ℕ) (positive : 0 < epoch)
    (notLater : expiry.updatedIn ≤ epoch) :
    (expiry.set value epoch).updatedIn ≤ epoch ∧
      (expiry.set value epoch).asOf (epoch - 1) = expiry.asOf (epoch - 1) := by
  unfold DRepExpiry.set DRepExpiry.asOf
  split_ifs with other first first <;> simp_all <;> omega

theorem remembers_apply (done : delta.apply row = .ok after)
    (current : delta.Current epoch dormant) (positive : 0 < epoch)
    (remembers : Remembers epoch ended row) : Remembers epoch ended after := by
  have written : ∀ {old : DRepExpiry} {state : DRepState} {value : ℕ},
      row.bind DRepState.expiry = some old → state.expiry = some (old.set value epoch) →
        Remembers epoch ended (some state) := by
    intro old state value oldHeld stateHeld
    simp only [Remembers, oldHeld] at remembers
    have kept := DRepExpiry.asOf_set value positive remembers.1
    simp only [Remembers, Option.bind_some, stateHeld]
    exact ⟨kept.1, kept.2.trans remembers.2⟩
  rcases expiry_cases done current with same | ⟨state, value, rfl, -, written'⟩ |
    ⟨old, state, oldExpiry, rfl, rfl, oldHeld, -, -, written'⟩
  · have kept : after.bind DRepState.expiry = row.bind DRepState.expiry := (Prod.mk.inj same).2
    rw [Remembers, kept]
    exact remembers
  · cases held : row.bind DRepState.expiry with
    | none =>
        rw [held] at written'
        simp only [Remembers, held] at remembers
        simp only [Remembers, Option.bind_some, written', DRepExpiry.new, DRepExpiry.asOf,
          remembers]
        refine ⟨le_rfl, if_neg (by omega)⟩
    | some old =>
        rw [held] at written'
        exact written held written'
  · exact written (by simpa using oldHeld) written'

end Row

section Emission

/-- The deltas of a visit: those of rows are made with the count of the moment, and a
release ends with the reset of the count. -/
inductive Emitted (epoch : ℕ) : ℕ → List CardanoDelta → ℕ → Prop where
  | nil (dormant : ℕ) : Emitted epoch dormant [] dormant
  | other {dormant last : ℕ} {delta : CardanoDelta} {rest : List CardanoDelta}
      (current : ∀ rowDelta ∈ delta.asDRep, rowDelta.Current epoch dormant)
      (noReset : ∀ reset, delta ≠ .govDormancyReset reset)
      (later : Emitted epoch dormant rest last) :
      Emitted epoch dormant (delta :: rest) last
  | reset {dormant last : ℕ} {rest : List CardanoDelta} (reset : GovDormancyReset)
      (later : Emitted epoch 0 rest last) :
      Emitted epoch dormant (.govDormancyReset reset :: rest) last

variable {epoch dormant middle last : ℕ} {first second : List CardanoDelta}

theorem Emitted.append (emitted : Emitted epoch dormant first middle)
    (later : Emitted epoch middle second last) : Emitted epoch dormant (first ++ second) last := by
  induction emitted with
  | nil => exact later
  | other current noReset _ ih => exact .other current noReset (ih later)
  | reset delta _ ih => exact .reset delta (ih later)

theorem Emitted.of_forall
    (each : ∀ delta ∈ first, (∀ rowDelta ∈ delta.asDRep, rowDelta.Current epoch dormant) ∧
      ∀ reset, delta ≠ .govDormancyReset reset) : Emitted epoch dormant first dormant := by
  induction first with
  | nil => exact .nil dormant
  | cons delta rest ih =>
      have own := each delta List.mem_cons_self
      exact .other own.1 own.2 (ih fun other member => each other (List.mem_cons_of_mem _ member))

namespace DRepStateVisitor

variable {context : RollContext} {dormancy : DormancyContext} {slot order : ℕ}

theorem emitted_release (tx : MultiEraTx) :
    Emitted context.epoch dormancy.dormantEpochs (release context tx dormancy).1
      (release context tx dormancy).2.dormantEpochs := by
  unfold release
  split_ifs with opens
  · refine Emitted.append (Emitted.of_forall ?_) (.reset .new (.nil 0))
    intro delta member
    rcases List.mem_map.mp member with ⟨target, -, rfl⟩
    refine ⟨?_, fun reset same => nomatch same⟩
    intro rowDelta isRow
    cases isRow
    exact ⟨rfl, rfl⟩
  · exact .nil _

theorem emitted_expiryUpdate (drep : DRep) (expiry : Option ℕ) (onlyIfRegistered : Bool)
    (dormant : ℕ) :
    Emitted context.epoch dormant (expiryUpdate context drep expiry onlyIfRegistered) dormant := by
  cases expiry with
  | none => exact .nil dormant
  | some expiry =>
      refine .other ?_ (fun reset same => nomatch same) (.nil dormant)
      intro rowDelta isRow
      cases isRow
      rfl

theorem emitted_visitVoter (voter : Voter) (dormant : ℕ) :
    Emitted context.epoch dormant (visitVoter context slot dormancy voter) dormant := by
  unfold visitVoter
  split
  · exact .nil dormant
  · refine .other ?_ (fun reset same => nomatch same) (emitted_expiryUpdate _ _ _ dormant)
    intro rowDelta isRow
    cases isRow
    trivial

theorem emitted_visitTx (tx : MultiEraTx) :
    Emitted context.epoch dormancy.dormantEpochs (visitTx context slot tx dormancy).1
      (visitTx context slot tx dormancy).2.dormantEpochs := by
  unfold visitTx
  split_ifs
  · exact .nil _
  · refine Emitted.append (emitted_release tx) ?_
    induction tx.votingProcedures.getD [] with
    | nil => exact .nil _
    | cons votes rest ih =>
        rw [List.flatMap_cons]
        exact Emitted.append (emitted_visitVoter votes.1 _) ih

theorem emitted_committeeDeltas (cert : MultiEraCert) (dormant : ℕ) :
    Emitted context.epoch dormant (committeeDeltas slot cert) dormant := by
  refine Emitted.of_forall ?_
  intro delta member
  rcases List.mem_append.mp member with auth | resign
  · rcases Option.mem_map.mp (Option.mem_toList.mp auth) with ⟨found, -, rfl⟩
    exact ⟨fun rowDelta isRow => (nomatch isRow), fun reset same => nomatch same⟩
  · rcases Option.mem_map.mp (Option.mem_toList.mp resign) with ⟨found, -, rfl⟩
    exact ⟨fun rowDelta isRow => (nomatch isRow), fun reset same => nomatch same⟩

theorem emitted_drepDeltas (cert : MultiEraCert) (dormant : ℕ) :
    Emitted context.epoch dormant (drepDeltas context slot order dormancy cert) dormant := by
  have trivially : ∀ {delta : CardanoDelta} {rowDelta : DRepDelta} {rest : List CardanoDelta},
      delta.asDRep = some rowDelta → rowDelta.Current context.epoch dormant →
        Emitted context.epoch dormant rest dormant →
          Emitted context.epoch dormant (delta :: rest) dormant := by
    intro delta rowDelta rest isRow current later
    refine .other ?_ ?_ later
    · intro other isOther
      cases isRow.symm.trans isOther
      exact current
    · rintro reset rfl
      cases isRow
  unfold drepDeltas
  split
  · exact trivially rfl trivial (trivially rfl trivial (emitted_expiryUpdate _ _ _ dormant))
  · exact trivially rfl trivial (.nil dormant)
  · exact trivially rfl trivial (emitted_expiryUpdate _ _ _ dormant)
  · exact .nil dormant

theorem dormantEpochs_noteRegistration (cert : MultiEraCert) :
    (noteRegistration dormancy cert).dormantEpochs = dormancy.dormantEpochs := by
  unfold noteRegistration
  split
  · split_ifs <;> rfl
  · rfl

theorem emitted_visitCert (cert : MultiEraCert) :
    Emitted context.epoch dormancy.dormantEpochs (visitCert context slot order cert dormancy).1
      (visitCert context slot order cert dormancy).2.dormantEpochs := by
  unfold visitCert
  rw [dormantEpochs_noteRegistration]
  refine ((emitted_committeeDeltas cert _).append (emitted_drepDeltas cert _)).append ?_
  refine Emitted.of_forall ?_
  intro delta member
  rcases Option.mem_map.mp (Option.mem_toList.mp member) with ⟨found, -, rfl⟩
  refine ⟨?_, fun reset same => nomatch same⟩
  intro rowDelta isRow
  cases isRow
  trivial

end DRepStateVisitor

theorem DrepVisit.emitted (context : RollContext) (dormancy : DormancyContext)
    (visit : DrepVisit) :
    Emitted context.epoch dormancy.dormantEpochs (visit.emits context dormancy).1
      (visit.emits context dormancy).2.dormantEpochs := by
  cases visit with
  | tx slot body => exact DRepStateVisitor.emitted_visitTx body
  | cert slot order body => exact DRepStateVisitor.emitted_visitCert body

end Emission

/-- What a delta of a block keeps true of a row under a count of dormant epochs. -/
structure KeptByBlocks (epoch : ℕ) (id : EntityKey) (P : ℕ → Option DRepState → Prop) : Prop where
  apply : ∀ {dormant row after} {delta : DRepDelta}, delta.apply row = .ok after →
    delta.Current epoch dormant → delta.key = toLex (.dreps, id) → P dormant row → P dormant after
  reset : ∀ {dormant row}, P dormant row → P 0 row

namespace DrepLedger

variable {ledger after : DrepLedger} {epoch : ℕ} {id : EntityKey}
  {P : ℕ → Option DRepState → Prop}

theorem key_eq (delta : DRepDelta) : delta.key = toLex (.dreps, (ofLex delta.key).2) := by
  cases delta <;> rfl

/-- A delta of a row changes that row and nothing else. -/
theorem onRow_cases {delta : DRepDelta} (done : ledger.onRow delta = .ok after) :
    after.epoch = ledger.epoch ∧ after.gov = ledger.gov ∧
      ∃ row, delta.apply (ledger.rows.get? (ofLex delta.key).2) = .ok row ∧
        after.rows = ledger.rows.set (ofLex delta.key).2 row := by
  rcases bind_eq_ok.mp done with ⟨row, applied, same⟩
  cases same
  exact ⟨rfl, rfl, row, applied, rfl⟩

theorem onRow_keeps {delta : DRepDelta} (kept : KeptByBlocks epoch id P)
    (done : ledger.onRow delta = .ok after)
    (current : delta.Current epoch ledger.gov.numDormantEpochs)
    (holds : P ledger.gov.numDormantEpochs (ledger.rows.get? id)) :
    P after.gov.numDormantEpochs (after.rows.get? id) := by
  rcases onRow_cases done with ⟨-, sameGov, row, applied, rows⟩
  rw [sameGov, rows, OrderedMap.get?_set]
  split_ifs with same
  · subst same
    exact kept.apply applied current (key_eq delta) holds
  · exact holds

/-- A delta that is not a reset leaves the count, and keeps what blocks keep. -/
theorem applyDelta_keeps {delta : CardanoDelta} (kept : KeptByBlocks epoch id P)
    (done : ledger.applyDelta delta = .ok after)
    (current : ∀ rowDelta ∈ delta.asDRep, rowDelta.Current epoch ledger.gov.numDormantEpochs)
    (noReset : ∀ reset, delta ≠ .govDormancyReset reset)
    (holds : P ledger.gov.numDormantEpochs (ledger.rows.get? id)) :
    after.epoch = ledger.epoch ∧ after.gov.numDormantEpochs = ledger.gov.numDormantEpochs ∧
      P after.gov.numDormantEpochs (after.rows.get? id) := by
  unfold applyDelta at done
  cases isRow : delta.asDRep with
  | some rowDelta =>
      rw [isRow] at done
      have sameGov := (onRow_cases done).2.1
      exact ⟨(onRow_cases done).1, by rw [sameGov],
        onRow_keeps kept done (current rowDelta isRow) holds⟩
  | none =>
      rw [isRow] at done
      simp only at done
      split at done
      · cases done
        exact ⟨rfl, rfl, holds⟩
      · cases done
        exact ⟨rfl, rfl, holds⟩
      · exact absurd rfl (noReset _)
      · cases done
        exact ⟨rfl, rfl, holds⟩

theorem foldlM_applyDelta_keeps {deltas : List CardanoDelta} {dormant last : ℕ}
    (kept : KeptByBlocks epoch id P) (emitted : Emitted epoch dormant deltas last)
    (count : ledger.gov.numDormantEpochs = dormant)
    (done : deltas.foldlM applyDelta ledger = .ok after)
    (holds : P dormant (ledger.rows.get? id)) :
    after.epoch = ledger.epoch ∧ after.gov.numDormantEpochs = last ∧
      P last (after.rows.get? id) := by
  induction emitted generalizing ledger with
  | nil =>
      cases done
      exact ⟨rfl, count, holds⟩
  | other current noReset later ih =>
      subst count
      rw [List.foldlM_cons] at done
      rcases bind_eq_ok.mp done with ⟨next, step, rest⟩
      rcases applyDelta_keeps kept step current noReset holds with ⟨sameEpoch, sameCount, holdsNext⟩
      rw [sameCount] at holdsNext
      rcases ih sameCount rest holdsNext with ⟨lastEpoch, lastCount, lastHolds⟩
      exact ⟨lastEpoch.trans sameEpoch, lastCount, lastHolds⟩
  | reset reset later ih =>
      rw [List.foldlM_cons] at done
      rcases bind_eq_ok.mp done with ⟨next, step, rest⟩
      have sameEpoch : next.epoch = ledger.epoch := by
        cases step
        rfl
      have sameRows : next.rows = ledger.rows := by
        cases step
        rfl
      have noneCounted : next.gov.numDormantEpochs = 0 := by
        cases step
        rfl
      have holdsNext := kept.reset holds
      rw [← sameRows] at holdsNext
      rcases ih noneCounted rest holdsNext with ⟨lastEpoch, lastCount, lastHolds⟩
      exact ⟨lastEpoch.trans sameEpoch, lastCount, lastHolds⟩

theorem foldlM_visit_keeps {context : RollContext} {visits : List DrepVisit}
    {state last : DrepLedger × DormancyContext} (kept : KeptByBlocks context.epoch id P)
    (count : state.1.gov.numDormantEpochs = state.2.dormantEpochs)
    (done : visits.foldlM (visit context) state = .ok last)
    (holds : P state.1.gov.numDormantEpochs (state.1.rows.get? id)) :
    last.1.epoch = state.1.epoch ∧ P last.1.gov.numDormantEpochs (last.1.rows.get? id) := by
  induction visits generalizing state with
  | nil =>
      cases done
      exact ⟨rfl, holds⟩
  | cons visit rest ih =>
      rw [List.foldlM_cons] at done
      rcases bind_eq_ok.mp done with ⟨next, step, later⟩
      rcases bind_eq_ok.mp step with ⟨ledger, applied, same⟩
      cases same
      rw [count] at holds
      rcases foldlM_applyDelta_keeps kept (visit.emitted context state.2) count applied holds with
        ⟨sameEpoch, lastCount, holdsNext⟩
      rw [← lastCount] at holdsNext
      rcases ih lastCount later holdsNext with ⟨lastEpoch, lastHolds⟩
      exact ⟨lastEpoch.trans sameEpoch, lastHolds⟩

/-- What deltas keep, a batch keeps. -/
theorem rollBatch_keeps {batch : DrepBatch} (kept : KeptByBlocks ledger.epoch id P)
    (done : ledger.rollBatch batch = .ok after)
    (holds : P ledger.gov.numDormantEpochs (ledger.rows.get? id)) :
    after.epoch = ledger.epoch ∧ P after.gov.numDormantEpochs (after.rows.get? id) := by
  rcases bind_eq_ok.mp done with ⟨⟨last, dormancy⟩, visited, same⟩
  cases same
  have whole := @foldlM_visit_keeps id P { batch.context with epoch := ledger.epoch } batch.visits
    (ledger, ledger.dormancy) (after, dormancy) kept rfl visited holds
  exact whole

end DrepLedger

theorem keptByBlocks_flagHolds (epoch : ℕ) (id : EntityKey) :
    KeptByBlocks epoch id fun dormant row => ∀ state ∈ row, FlagHolds epoch dormant state where
  apply done current _ holds := flagHolds_apply done current holds
  reset holds state member := (holds state member).mono (by omega)

theorem keptByBlocks_remembers {epoch : ℕ} (positive : 0 < epoch) (id : EntityKey)
    (ended : Option ℕ) : KeptByBlocks epoch id fun _ row => Remembers epoch ended row where
  apply done current _ remembers := remembers_apply done current positive remembers
  reset remembers := remembers

/-- An expiry was not written in a later epoch. -/
theorem keptByBlocks_written (epoch : ℕ) (id : EntityKey) :
    KeptByBlocks epoch id fun _ row =>
      ∀ state ∈ row, ∀ expiry ∈ state.expiry, expiry.updatedIn ≤ epoch where
  apply {dormant row after delta} done current _ written := by
    have setLe : ∀ {old : DRepExpiry} (value : ℕ), (old.set value epoch).updatedIn ≤ epoch := by
      intro old value
      unfold DRepExpiry.set
      split_ifs with other
      · exact le_rfl
      · exact (not_not.mp other).le
    intro state member expiry held
    rcases expiry_cases done current with same | ⟨refreshed, value, rfl, -, writtenNow⟩ |
      ⟨old, released, oldExpiry, rfl, rfl, oldHeld, -, -, writtenNow⟩
    · cases member
      have kept := (Prod.mk.inj same).2
      rw [Option.bind_some, held] at kept
      rcases Option.bind_eq_some_iff.mp kept.symm with ⟨old, rfl, oldHeld⟩
      exact written old rfl expiry oldHeld
    · cases member
      rw [held, Option.some.injEq] at writtenNow
      rw [writtenNow]
      cases row.bind DRepState.expiry with
      | none => exact le_rfl
      | some old => exact setLe value
    · cases member
      rw [held, Option.some.injEq] at writtenNow
      rw [writtenNow]
      exact setLe _
  reset written := written

/-- Each row is under the key of its representative. -/
theorem keptByBlocks_keyed (epoch : ℕ) (id : EntityKey) :
    KeptByBlocks epoch id fun _ row => ∀ state ∈ row, state.identifier.entityKey = id where
  apply {dormant row after delta} done _ key keyed := by
    have keyedRow : ∀ state ∈ row, DRepState.nsKey state.identifier = delta.key := by
      intro state member
      rw [key, DRepState.nsKey, keyed state member]
    intro state member
    have same := (DRepDelta.nsKey_identifier_apply done keyedRow state member).trans key
    exact congrArg (fun key => (ofLex key).2) same
  reset keyed := keyed

section Boundary

namespace DrepBoundary

variable {boundary : DrepBoundary} {boundarySlot ratifySlot : ℕ} {data after : DrepData}

/-- The row is one the boundary sets the flag of. -/
def Expires (boundary : DrepBoundary) (drep : DRepState) : Prop :=
  boundary.isRetiringDrep drep = .ok none ∧ boundary.shouldExpireDrep drep = .ok true

theorem mem_expiringDreps_of_loadDrep {row : EntityKey × DRepState} {drep : DRep}
    (loaded : boundary.loadDrep boundarySlot ratifySlot data row = .ok after) :
    drep ∈ after.expiringDreps ↔
      drep ∈ data.expiringDreps ∨ row.2.identifier = drep ∧ boundary.Expires row.2 := by
  rcases bind_eq_ok.mp loaded with ⟨retiring, retiringEq, rest⟩
  rw [mapError_eq_ok] at retiringEq
  cases retiring with
  | some position =>
      cases rest
      simp [noteRegistered, Expires, retiringEq]
  | none =>
      rcases bind_eq_ok.mp rest with ⟨expires, expiresEq, same⟩
      cases expires with
      | false =>
          cases same
          simp [noteRegistered, Expires, expiresEq]
      | true =>
          cases same
          have holds : boundary.Expires row.2 := ⟨retiringEq, expiresEq⟩
          simp only [if_true, noteRegistered, List.mem_append, List.mem_singleton, holds, and_true]
          exact or_congr_right eq_comm

theorem mem_expiringDreps_of_foldlM {rows : List (EntityKey × DRepState)} {drep : DRep}
    (loaded : rows.foldlM (boundary.loadDrep boundarySlot ratifySlot) data = .ok after) :
    drep ∈ after.expiringDreps ↔ drep ∈ data.expiringDreps ∨
      ∃ row ∈ rows, row.2.identifier = drep ∧ boundary.Expires row.2 := by
  induction rows generalizing data with
  | nil =>
      cases loaded
      simp
  | cons row rest ih =>
      rw [List.foldlM_cons] at loaded
      rcases bind_eq_ok.mp loaded with ⟨next, step, last⟩
      rw [ih last, mem_expiringDreps_of_loadDrep step, List.exists_mem_cons_iff, or_assoc]

theorem mem_expiringDreps {rows : List (EntityKey × DRepState)} {drep : DRep}
    (loaded : boundary.loadDrepData rows = .ok after) :
    drep ∈ after.expiringDreps ↔
      ∃ row ∈ rows, row.2.identifier = drep ∧ boundary.Expires row.2 := by
  rcases bind_eq_ok.mp loaded with ⟨boundarySlot, -, rest⟩
  rcases bind_eq_ok.mp rest with ⟨ratifySlot, -, folded⟩
  rw [mem_expiringDreps_of_foldlM folded]
  simp [DrepData.default]

theorem shouldExpireDrep_of_expiry {drep : DRepState} {expiry : DRepExpiry}
    (held : drep.expiry = some expiry) :
    boundary.shouldExpireDrep drep = .ok (!drep.expired && !drep.isUnregistered &&
      decide (expiry.current + boundary.numDormantEpochs < boundary.startingEpochNo)) := by
  unfold shouldExpireDrep
  rw [held]
  cases drep.expired <;> cases drep.isUnregistered <;> rfl

end DrepBoundary

/-- A row as a boundary leaves it. -/
structure Closed (expiring : List DRep) (drep after : DRepState) : Prop where
  expired : after.expired = (drep.expired || decide (drep.identifier ∈ expiring))
  expiry : after.expiry = drep.expiry
  isUnregistered : after.isUnregistered = drep.isUnregistered
  identifier : after.identifier = drep.identifier

theorem closed_of_applyAll {power : Option (OrderedMap DRep ℕ)} {expiring : List DRep}
    {id : EntityKey} {drep : DRepState} {row : Option DRepState}
    (done : DRepDelta.applyAll (some drep) (BoundaryWork.drepDeltas power expiring id drep) =
      .ok row) :
    ∃ after, row = some after ∧ Closed expiring drep after := by
  unfold BoundaryWork.drepDeltas at done
  generalize power.bind (fun distr => BoundaryWork.emitDRepPowerUpdate distr id drep) = written
    at done
  unfold BoundaryWork.visitDRep at done
  by_cases flagged : drep.identifier ∈ expiring
  · rw [if_pos flagged] at done
    cases written <;> cases done <;>
      exact ⟨_, rfl, by simp [flagged], rfl, rfl, rfl⟩
  · rw [if_neg flagged] at done
    cases written <;> cases done <;>
      exact ⟨_, rfl, by simp [flagged], rfl, rfl, rfl⟩

namespace DrepLedger

/-- The pass over the rows leaves each under its key. -/
theorem get?_foldlM_closeRow {power : Option (OrderedMap DRep ℕ)} {expiring : List DRep}
    {entries : List (EntityKey × DRepState)} {rows last : OrderedMap EntityKey DRepState}
    {Left : DRepState → DRepState → Prop}
    (leaves : ∀ id drep row, DRepDelta.applyAll (some drep)
      (BoundaryWork.drepDeltas power expiring id drep) = .ok row →
        ∃ after, row = some after ∧ Left drep after)
    (distinct : (entries.map Prod.fst).Nodup)
    (done : entries.foldlM (closeRow power expiring) rows = .ok last) :
    (∀ id, id ∉ entries.map Prod.fst → last.get? id = rows.get? id) ∧
      ∀ entry ∈ entries, ∃ state, last.get? entry.1 = some state ∧ Left entry.2 state := by
  induction entries generalizing rows with
  | nil =>
      cases done
      simp
  | cons entry rest ih =>
      rw [List.foldlM_cons] at done
      rcases bind_eq_ok.mp done with ⟨next, step, later⟩
      rcases bind_eq_ok.mp step with ⟨row, applied, same⟩
      cases same
      rcases leaves entry.1 entry.2 row applied with ⟨state, rfl, left⟩
      rw [List.map_cons, List.nodup_cons] at distinct
      rcases ih distinct.2 later with ⟨others, each⟩
      refine ⟨?_, ?_⟩
      · intro id absent
        rw [List.map_cons, List.mem_cons, not_or] at absent
        rw [others id absent.2, OrderedMap.get?_set, if_neg absent.1]
      · intro other member
        rcases List.mem_cons.mp member with rfl | later
        · refine ⟨state, ?_, left⟩
          rw [others other.1 distinct.1, OrderedMap.get?_set, if_pos rfl]
        · exact each other later

end DrepLedger

end Boundary

section Count

/-- A delta of the boundary that counts its epoch. -/
def GovBoundaryDelta.isTick : GovBoundaryDelta → Bool
  | dormancyTick _ => true
  | _ => false

theorem GovBoundaryDelta.count_apply {delta applied : GovBoundaryDelta} {gov : GovState}
    {entity : Option GovState} (done : delta.apply (some gov) = .ok (applied, entity)) :
    ∃ after, entity = some after ∧ after.activeSince = gov.activeSince ∧
      after.numDormantEpochs = gov.numDormantEpochs + if delta.isTick then 1 else 0 := by
  cases delta with
  | distrAccumulate delta =>
      simp only [apply, EntityDelta.apply, expect_some, ok_bind] at done
      split_ifs at done
      · cases done
        exact ⟨_, rfl, rfl, rfl⟩
      · cases done
        exact ⟨_, rfl, rfl, rfl⟩
  | dormancyTick delta =>
      cases done
      exact ⟨_, rfl, rfl, rfl⟩
  | committeeGc delta =>
      cases done
      exact ⟨_, rfl, rfl, rfl⟩
  | distrRotate delta =>
      cases done
      exact ⟨_, rfl, rfl, rfl⟩
  | distrBoundaryCredit delta =>
      simp only [apply, EntityDelta.apply, expect_some, ok_bind] at done
      split at done
      · cases done
        exact ⟨_, rfl, rfl, rfl⟩
      · cases done
        exact ⟨_, rfl, rfl, rfl⟩

theorem count_foldlM_apply {deltas : List GovBoundaryDelta} {gov : GovState}
    {entity : Option GovState}
    (done : deltas.foldlM (fun entity delta => Prod.snd <$> delta.apply entity) (some gov) =
      .ok entity) :
    ∃ after, entity = some after ∧
      after.numDormantEpochs = gov.numDormantEpochs + deltas.countP GovBoundaryDelta.isTick := by
  induction deltas generalizing gov with
  | nil =>
      cases done
      exact ⟨gov, rfl, rfl⟩
  | cons delta rest ih =>
      rw [List.foldlM_cons] at done
      rcases bind_eq_ok.mp done with ⟨next, step, later⟩
      rcases map_eq_ok.mp step with ⟨⟨applied, reached⟩, appliedEq, rfl⟩
      rcases GovBoundaryDelta.count_apply appliedEq with ⟨middle, rfl, -, middleCount⟩
      rcases ih later with ⟨after, afterEq, count⟩
      refine ⟨after, afterEq, ?_⟩
      rw [count, middleCount, List.countP_cons]
      omega

/-- Enactments leave the count and the distributions. -/
theorem count_foldlM_applyGov {enactments : List EnactmentDelta} {gov : GovState}
    {entity : Option GovState}
    (done : enactments.foldlM EnactmentDelta.applyGov (some gov) = .ok entity) :
    ∃ after, entity = some after ∧ after.numDormantEpochs = gov.numDormantEpochs ∧
      after.distr = gov.distr ∧ after.prevDistr = gov.prevDistr := by
  induction enactments generalizing gov with
  | nil =>
      cases done
      exact ⟨gov, rfl, rfl, rfl, rfl⟩
  | cons delta rest ih =>
      rw [List.foldlM_cons] at done
      rcases bind_eq_ok.mp done with ⟨next, step, later⟩
      have kept : ∃ middle, next = some middle ∧
          middle.numDormantEpochs = gov.numDormantEpochs ∧ middle.distr = gov.distr ∧
            middle.prevDistr = gov.prevDistr := by
        cases delta <;> cases step <;> exact ⟨_, rfl, rfl, rfl, rfl⟩
      rcases kept with ⟨middle, rfl, middleCount, middleDistr, middlePrev⟩
      rcases ih later with ⟨after, afterEq, count, distr, prev⟩
      exact ⟨after, afterEq, count.trans middleCount, distr.trans middleDistr,
        prev.trans middlePrev⟩

theorem BoundaryWork.countP_emitGovernanceBoundaryDeltas (work : BoundaryWork)
    (ratification : Ratification) (proposals : OrderedMap EntityKey ProposalState)
    (credits : OrderedMap DRep ℕ) :
    (work.emitGovernanceBoundaryDeltas ratification proposals credits).countP
        GovBoundaryDelta.isTick =
      if work.govActive && !work.anyVotableSurvivor ratification proposals then 1 else 0 := by
  unfold emitGovernanceBoundaryDeltas
  cases work.govActive with
  | false => simp
  | true =>
      cases work.anyVotableSurvivor ratification proposals <;>
        by_cases none : credits.entries = [] <;>
          simp [none, GovBoundaryDelta.isTick, List.countP_cons]

namespace DrepLedger

variable {ledger after : DrepLedger}

/-- The scan changes the distributions only. -/
theorem scanned_cases {shards : List GovDistrAccumulate}
    (done : ledger.scanned shards = .ok after) :
    after.epoch = ledger.epoch ∧ after.rows = ledger.rows ∧
      after.gov.numDormantEpochs = ledger.gov.numDormantEpochs ∧
      after.gov.activeSince = ledger.gov.activeSince := by
  induction shards generalizing ledger with
  | nil =>
      cases done
      exact ⟨rfl, rfl, rfl, rfl⟩
  | cons shard rest ih =>
      rw [scanned, List.foldlM_cons] at done
      rcases bind_eq_ok.mp done with ⟨next, step, later⟩
      rcases bind_eq_ok.mp step with ⟨⟨applied, entity⟩, appliedEq, same⟩
      cases same
      have merged : GovBoundaryDelta.apply (some ledger.gov) (.distrAccumulate shard) =
          .ok (.distrAccumulate applied, entity) := by
        rw [GovBoundaryDelta.apply, appliedEq]
        rfl
      rcases GovBoundaryDelta.count_apply merged with ⟨gov, rfl, since, count⟩
      rcases ih later with ⟨sameEpoch, sameRows, sameCount, sameSince⟩
      exact ⟨sameEpoch, sameRows, sameCount.trans count, sameSince.trans since⟩

/-- What a boundary leaves: each row closed, and the count with its own epoch. -/
structure Crossed (ledger : DrepLedger) (close : DrepClose) (expiring : List DRep)
    (after : DrepLedger) : Prop where
  epoch : after.epoch = ledger.epoch + 1
  count : after.gov.numDormantEpochs =
    ledger.gov.numDormantEpochs + if ledger.ticks close then 1 else 0
  flagged : ∀ drep, drep ∈ expiring ↔ ∃ row ∈ ledger.rows.entries,
    row.2.identifier = drep ∧ (ledger.boundaryOf close).Expires row.2
  absent : ∀ id, ledger.rows.get? id = none → after.rows.get? id = none
  row : ∀ id row, ledger.rows.get? id = some row →
    ∃ state, after.rows.get? id = some state ∧ Closed expiring row state

/-- The passes of a boundary: the shards, the rows, and the singleton. -/
theorem crossBoundary_eq_ok {close : DrepClose} (done : ledger.crossBoundary close = .ok after) :
    ∃ scanned data rows gov, ledger.scanned close.shards = .ok scanned ∧
      (scanned.boundaryOf close).loadDrepData scanned.rows.entries = .ok data ∧
      scanned.rows.entries.foldlM (closeRow ((scanned.workOf close).drepPower close.credits)
        data.expiringDreps) scanned.rows = .ok rows ∧
      closeGov scanned.gov close.enactments ((scanned.workOf close).emitGovernanceBoundaryDeltas
        close.ratification close.proposals close.credits) = .ok gov ∧
      after = ⟨ledger.epoch + 1, rows, gov.getD scanned.gov⟩ := by
  rcases bind_eq_ok.mp done with ⟨scanned, scannedEq, restData⟩
  rcases bind_eq_ok.mp restData with ⟨data, loaded, restRows⟩
  rcases bind_eq_ok.mp restRows with ⟨rows, rowsEq, restGov⟩
  rcases bind_eq_ok.mp restGov with ⟨gov, govEq, same⟩
  rw [mapError_eq_ok] at scannedEq rowsEq govEq
  exact ⟨scanned, data, rows, gov, scannedEq, loaded, rowsEq, govEq, (Except.ok.inj same).symm⟩

theorem exists_crossed {close : DrepClose} (done : ledger.crossBoundary close = .ok after) :
    ∃ expiring, Crossed ledger close expiring after := by
  rcases crossBoundary_eq_ok done with
    ⟨scanned, data, rows, gov, scannedEq, loaded, rowsEq, govEq, rfl⟩
  rcases scanned_cases scannedEq with ⟨sameEpoch, sameRows, sameCount, sameSince⟩
  have boundaryEq : scanned.boundaryOf close = ledger.boundaryOf close := by
    rw [boundaryOf, boundaryOf, sameEpoch, sameCount]
  have closingEq : (scanned.workOf close).closing = (ledger.workOf close).closing := sameEpoch
  have sinceEq : (scanned.workOf close).govActiveSince = (ledger.workOf close).govActiveSince :=
    sameSince
  have ticksEq : scanned.ticks close = ledger.ticks close := by
    unfold ticks BoundaryWork.govActive BoundaryWork.anyVotableSurvivor
    rw [closingEq, sinceEq]
  rcases bind_eq_ok.mp govEq with ⟨enacted, enactedEq, deltasEq⟩
  rcases count_foldlM_applyGov enactedEq with ⟨middle, rfl, middleCount, -⟩
  rcases count_foldlM_apply deltasEq with ⟨last, rfl, lastCount⟩
  rw [sameRows] at loaded rowsEq
  rcases get?_foldlM_closeRow (fun _ _ _ => closed_of_applyAll) ledger.rows.nodup_keys rowsEq with
    ⟨others, each⟩
  refine ⟨data.expiringDreps, ⟨rfl, ?_, ?_, ?_, ?_⟩⟩
  · have counted := BoundaryWork.countP_emitGovernanceBoundaryDeltas (scanned.workOf close)
      close.ratification close.proposals close.credits
    rw [counted, middleCount, sameCount] at lastCount
    rw [← ticksEq]
    exact lastCount
  · intro drep
    rw [← boundaryEq]
    exact DrepBoundary.mem_expiringDreps loaded
  · intro id missing
    rw [others id ?_]
    · exact missing
    · intro member
      have present := OrderedMap.mem_keys_iff.mp member
      simp [missing] at present
  · intro id row held
    exact each (id, row) (OrderedMap.mem_entries_iff.mpr held)

end DrepLedger

end Count

section Run

namespace DrepLedger

variable {ledger after : DrepLedger} {id : EntityKey} {close : DrepClose}

/-- What holds of a row at every moment of an epoch. -/
structure Sound (ledger : DrepLedger) (id : EntityKey) : Prop where
  keyed : ∀ key row, ledger.rows.get? key = some row → row.identifier.entityKey = key
  flag : ∀ row ∈ ledger.rows.get? id, FlagHolds ledger.epoch ledger.gov.numDormantEpochs row
  written : ∀ row ∈ ledger.rows.get? id, ∀ expiry ∈ row.expiry, expiry.updatedIn ≤ ledger.epoch

/-- The flag of a representative that has not left says whether its expiry, with the
dormant epochs added, is behind the epoch. -/
def FlagExact (ledger : DrepLedger) (id : EntityKey) : Prop :=
  ∀ row, ledger.rows.get? id = some row → row.isUnregistered = false → ∀ expiry ∈ row.expiry,
    (row.expired = true ↔ expiry.current + ledger.gov.numDormantEpochs < ledger.epoch)

/-- The boundary does not fall in the gap of a row whose flag is clear: it does not count
its epoch as dormant when the row's last epoch is the one that ends, and a representative
that left and came back in the epoch that ends is not past its expiry. -/
def Timely (ledger : DrepLedger) (close : DrepClose) (id : EntityKey) : Prop :=
  ∀ row, ledger.rows.get? id = some row → row.isUnregistered = false → row.expired = false →
    ∀ expiry ∈ row.expiry,
      ((ledger.boundaryOf close).isRetiringDrep row = .ok none → ledger.ticks close = true →
        expiry.current + ledger.gov.numDormantEpochs ≠ ledger.epoch) ∧
      ((ledger.boundaryOf close).isRetiringDrep row ≠ .ok none →
        ledger.epoch < expiry.current + ledger.gov.numDormantEpochs +
          if ledger.ticks close then 1 else 0)

/-- The flag a boundary leaves is the one it found, or it sets it for this row. -/
theorem Crossed.expired {expiring : List DRep} (crossed : Crossed ledger close expiring after)
    (keyed : ∀ key row, ledger.rows.get? key = some row → row.identifier.entityKey = key)
    {row state : DRepState} (held : ledger.rows.get? id = some row)
    (closed : Closed expiring row state) :
    state.expired = true ↔ row.expired = true ∨ (ledger.boundaryOf close).Expires row := by
  have own : row.identifier ∈ expiring ↔ (ledger.boundaryOf close).Expires row := by
    rw [crossed.flagged]
    constructor
    · rintro ⟨⟨key, other⟩, member, same, expires⟩
      have otherHeld := OrderedMap.mem_entries_iff.mp member
      have sameKey : key = id := by
        rw [← keyed key other otherHeld, ← keyed id row held, same]
      subst sameKey
      rw [held] at otherHeld
      cases otherHeld
      exact expires
    · intro expires
      exact ⟨(id, row), OrderedMap.mem_entries_iff.mpr held, rfl, expires⟩
  rw [closed.expired]
  simp [own]

theorem expires_iff {row : DRepState} {expiry : DRepExpiry} (held : row.expiry = some expiry) :
    (ledger.boundaryOf close).Expires row ↔
      (ledger.boundaryOf close).isRetiringDrep row = .ok none ∧ row.expired = false ∧
        row.isUnregistered = false ∧
          expiry.current + ledger.gov.numDormantEpochs < ledger.epoch + 1 := by
  unfold DrepBoundary.Expires
  rw [DrepBoundary.shouldExpireDrep_of_expiry held]
  simp only [Except.ok.injEq, Bool.and_eq_true, Bool.not_eq_true', decide_eq_true_eq, and_assoc]
  rfl

/-- A boundary outside the gap makes the flag right for the epoch that begins. -/
theorem Sound.crossed {expiring : List DRep} (sound : ledger.Sound id)
    (timely : ledger.Timely close id) (crossed : Crossed ledger close expiring after) :
    after.Sound id ∧ after.FlagExact id := by
  have rowOf : ∀ key state, after.rows.get? key = some state →
      ∃ row, ledger.rows.get? key = some row ∧ Closed expiring row state := by
    intro key state found
    cases held : ledger.rows.get? key with
    | none =>
        rw [crossed.absent key held] at found
        cases found
    | some row =>
        rcases crossed.row key row held with ⟨other, otherFound, closed⟩
        rw [found] at otherFound
        cases otherFound
        exact ⟨row, rfl, closed⟩
  have counts := crossed.count
  have epochs := crossed.epoch
  -- what the flag says, one way for every row and the other for those that have not left
  have behind : ∀ state, after.rows.get? id = some state → ∀ expiry, state.expiry = some expiry →
      state.expired = true → expiry.current + after.gov.numDormantEpochs < after.epoch := by
    intro state found expiry stateExpiry expired
    rcases rowOf id state found with ⟨row, held, closed⟩
    have rowExpiry : row.expiry = some expiry := closed.expiry ▸ stateExpiry
    rcases (crossed.expired sound.keyed held closed).mp expired with already | expires
    · have before := sound.flag row held already expiry rowExpiry
      split_ifs at counts <;> omega
    · rcases (expires_iff rowExpiry).mp expires with ⟨staying, clear, registered, due⟩
      have inTime := (timely row held registered clear expiry rowExpiry).1 staying
      split_ifs at counts with ticked
      · have gap := inTime ticked
        omega
      · omega
  refine ⟨⟨?_, ?_, ?_⟩, ?_⟩
  · intro key state found
    rcases rowOf key state found with ⟨row, held, closed⟩
    rw [closed.identifier]
    exact sound.keyed key row held
  · intro state found expired expiry stateExpiry
    exact behind state found expiry stateExpiry expired
  · intro state found expiry stateExpiry
    rcases rowOf id state found with ⟨row, held, closed⟩
    have before := sound.written row held expiry (closed.expiry ▸ stateExpiry)
    omega
  · intro state found registered expiry stateExpiry
    refine ⟨behind state found expiry stateExpiry, ?_⟩
    intro due
    rcases rowOf id state found with ⟨row, held, closed⟩
    have rowExpiry : row.expiry = some expiry := closed.expiry ▸ stateExpiry
    have rowRegistered : row.isUnregistered = false := closed.isUnregistered ▸ registered
    apply (crossed.expired sound.keyed held closed).mpr
    cases clear : row.expired with
    | true => exact .inl rfl
    | false =>
        right
        have inTime := timely row held rowRegistered clear expiry rowExpiry
        have staying : (ledger.boundaryOf close).isRetiringDrep row = .ok none := by
          by_contra retiring
          have late := inTime.2 retiring
          split_ifs at counts late <;> omega
        refine (expires_iff rowExpiry).mpr ⟨staying, clear, rowRegistered, ?_⟩
        split_ifs at counts <;> omega

theorem Sound.rolled {batch : DrepBatch} (sound : ledger.Sound id)
    (done : ledger.rollBatch batch = .ok after) : after.Sound id := by
  have flag := rollBatch_keeps (keptByBlocks_flagHolds ledger.epoch id) done sound.flag
  have written := rollBatch_keeps (keptByBlocks_written ledger.epoch id) done sound.written
  refine ⟨?_, ?_, ?_⟩
  · intro key row found
    have keyed := (rollBatch_keeps (keptByBlocks_keyed ledger.epoch key) done
      fun state held => sound.keyed key state held).2
    exact keyed row found
  · rw [flag.1]
    exact flag.2
  · rw [flag.1]
    exact written.2

theorem run_append {first second : List DrepEvent} :
    ledger.run (first ++ second) = ledger.run first >>= fun middle => middle.run second := by
  rw [run, List.foldlM_append]
  rfl

/-- The row is sound at every moment of a run whose boundaries do not fall in its gap. -/
theorem Sound.run {start last : DrepLedger} (empty : start.rows = ∅) {events : List DrepEvent}
    (ran : start.run events = .ok last)
    (timely : ∀ first close rest reached, events = first ++ .boundary close :: rest →
      start.run first = .ok reached → reached.Timely close id) : last.Sound id := by
  induction events using List.reverseRecOn generalizing last with
  | nil =>
      cases ran
      refine ⟨?_, ?_, ?_⟩
      · intro key row found
        rw [empty] at found
        cases found
      · intro row found
        rw [empty] at found
        cases found
      · intro row found
        rw [empty] at found
        cases found
  | append_singleton earlier event ih =>
      rw [run_append] at ran
      rcases bind_eq_ok.mp ran with ⟨middle, ranEarlier, step⟩
      have soundMiddle : middle.Sound id := by
        refine ih ranEarlier ?_
        intro first close rest reached split isReached
        refine timely first close (rest ++ [event]) reached ?_ isReached
        rw [split]
        simp
      rw [DrepLedger.run, List.foldlM_cons] at step
      rcases bind_eq_ok.mp step with ⟨reached, stepped, same⟩
      cases same
      cases event with
      | batch batch => exact soundMiddle.rolled (mapError_eq_ok.mp stepped)
      | boundary close =>
          rcases exists_crossed stepped with ⟨expiring, crossed⟩
          exact (soundMiddle.crossed (timely earlier close [] middle rfl ranEarlier) crossed).1

theorem remembers_rollAll {batches : List DrepBatch} {ended : Option ℕ}
    (positive : 0 < ledger.epoch) (done : ledger.rollAll batches = .ok after)
    (remembers : Remembers ledger.epoch ended (ledger.rows.get? id)) :
    Remembers ledger.epoch ended (after.rows.get? id) := by
  induction batches generalizing ledger with
  | nil =>
      cases done
      exact remembers
  | cons batch rest ih =>
      rw [rollAll, List.foldlM_cons] at done
      rcases bind_eq_ok.mp done with ⟨next, step, later⟩
      have kept := rollBatch_keeps (keptByBlocks_remembers positive id ended) step remembers
      rw [← kept.1] at positive ⊢
      exact ih positive later (kept.1 ▸ kept.2)

end DrepLedger

/-- In every run whose boundaries do not fall in the gap of a representative, right after a
boundary the flag of the representative is exact by the count the boundary leaves; and all
through the epoch that begins, whatever the order of refreshes, releases and registrations,
its row still gives the expiry it had when the epoch before ended. -/
theorem expired_iff_of_timely {start before entered later : DrepLedger} {events : List DrepEvent}
    {close : DrepClose} {batches : List DrepBatch} {id : EntityKey} (empty : start.rows = ∅)
    (ran : start.run events = .ok before) (crossed : before.crossBoundary close = .ok entered)
    (rolled : entered.rollAll batches = .ok later)
    (timely : ∀ first other rest reached,
      events ++ [.boundary close] = first ++ .boundary other :: rest →
        start.run first = .ok reached → reached.Timely other id) :
    (∀ row, entered.rows.get? id = some row → row.isUnregistered = false →
      ∀ expiry ∈ row.expiry,
        (row.expired = true ↔
          expiry.current + entered.gov.numDormantEpochs < entered.epoch)) ∧
    ∀ row, later.rows.get? id = some row →
      row.expiry.bind (fun expiry => expiry.asOf (entered.epoch - 1)) =
        ((before.rows.get? id).bind DRepState.expiry).map DRepExpiry.current := by
  have sound : before.Sound id := by
    refine DrepLedger.Sound.run empty ran ?_
    intro first other rest reached split isReached
    refine timely first other (rest ++ [.boundary close]) reached ?_ isReached
    rw [split]
    simp
  rcases DrepLedger.exists_crossed crossed with ⟨expiring, passed⟩
  have exact := (sound.crossed (timely events close [] before rfl ran) passed).2
  refine ⟨exact, ?_⟩
  have epochs := passed.epoch
  have remembered : Remembers entered.epoch
      (((before.rows.get? id).bind DRepState.expiry).map DRepExpiry.current)
        (entered.rows.get? id) := by
    cases held : before.rows.get? id with
    | none =>
        rw [passed.absent id held]
        rfl
    | some row =>
        rcases passed.row id row held with ⟨state, found, closed⟩
        rw [found, Option.bind_some]
        simp only [Remembers, Option.bind_some, closed.expiry]
        cases expiryHeld : row.expiry with
        | none => rfl
        | some expiry =>
            have written := sound.written row held expiry expiryHeld
            simp only [DRepExpiry.asOf, Option.map_some]
            exact ⟨by omega, if_pos (by omega)⟩
  have kept := DrepLedger.remembers_rollAll (by omega) rolled remembered
  intro row found
  rw [found] at kept
  cases held : row.expiry with
  | none =>
      simp only [Remembers, Option.bind_some, held] at kept
      simp [kept]
  | some expiry =>
      simp only [Remembers, Option.bind_some, held] at kept
      rw [Option.bind_some]
      exact kept.2

end Run

namespace Lapse

/-- In epoch 10, with expiries one epoch out. -/
def start : DrepLedger := ⟨10, ∅, govWith none⟩

def registering : DrepBatch :=
  ⟨⟨1, ⟨[⟨.drepInactivityPeriod, .amount 1⟩]⟩, 10, 1000, 10⟩,
    [.cert 1010 0 (.conway (.regDRepCert (.addrKeyhash 1) 500 none))]⟩

/-- A boundary that finds one proposal, votable until epoch 11. -/
def close : DrepClose where
  chainSummary := .oneEra
  work := workWith 10 none
  shards := []
  ratification := .default
  enactments := []
  proposals := infoRows
  credits := ∅

def events : List DrepEvent := [.batch registering, .boundary close]

def row : DRepState := { DRepState.new (.key 1) with
  registeredAt := some (1010, 0)
  votingPower := 500
  lastActiveSlot := some 1010
  deposit := 500
  expiry := some ⟨11, 10, none⟩ }

def id : EntityKey := (DRep.key 1).entityKey

/-- The second boundary has nothing to vote on. -/
def before : DrepLedger := ⟨11, OrderedMap.insert ∅ id row, govWith none⟩

def entered : DrepLedger :=
  ⟨12, OrderedMap.insert ∅ id { row with expired := true },
    { govWith none with numDormantEpochs := 1 }⟩

def registered : DrepLedger := ⟨10, OrderedMap.insert ∅ id row, govWith none⟩

theorem run_registering : start.run [.batch registering] = .ok registered := by decide +kernel

theorem crossBoundary_registered : registered.crossBoundary close = .ok before := by
  decide +kernel

theorem timely_registered : registered.Timely close id := by
  intro row held notLeft clear expiry expiryHeld
  cases held
  cases expiryHeld
  refine ⟨?_, ?_⟩
  · intro _ ticked
    exact absurd ticked (by decide +kernel)
  · intro retiring
    exact absurd rfl retiring

theorem run_events : start.run events = .ok before := by decide +kernel

theorem crossBoundary_before : before.crossBoundary close = .ok entered := by decide +kernel

def active : RollContext := ⟨1, ⟨[⟨.drepInactivityPeriod, .amount 1⟩]⟩, 11, 1100, 10⟩

def refreshing : DrepVisit := .cert 1110 0 (.conway (.updateDRepCert (.addrKeyhash 1) none))

/-- In epoch 11 the representative is active twice, with another one registered in between. -/
def batches : List DrepBatch :=
  [⟨active, [refreshing]⟩,
    ⟨active, [.cert 1120 0 (.conway (.regDRepCert (.addrKeyhash 2) 500 none)), refreshing]⟩]

end Lapse

/-- The boundary into epoch 12 counts epoch 11 as dormant, and before that has set the flag
of a representative whose expiry is then exactly 12. -/
theorem lapse_flagged_early :
    ¬∀ (start before entered later : DrepLedger) (events : List DrepEvent) (close : DrepClose)
      (batches : List DrepBatch) (id : EntityKey), start.rows = ∅ →
        start.run events = .ok before → before.crossBoundary close = .ok entered →
        entered.rollAll batches = .ok later →
        (∀ row, entered.rows.get? id = some row → row.isUnregistered = false →
          ∀ expiry ∈ row.expiry,
            (row.expired = true ↔
              expiry.current + entered.gov.numDormantEpochs < entered.epoch)) ∧
        ∀ row, later.rows.get? id = some row →
          row.expiry.bind (fun expiry => expiry.asOf (entered.epoch - 1)) =
            ((before.rows.get? id).bind DRepState.expiry).map DRepExpiry.current := by
  intro claim
  have exact := (claim Lapse.start Lapse.before Lapse.entered Lapse.entered Lapse.events
    Lapse.close [] Lapse.id rfl Lapse.run_events Lapse.crossBoundary_before rfl).1
  have flag := exact { Lapse.row with expired := true } rfl rfl ⟨11, 10, none⟩ rfl
  exact absurd (flag.mp rfl) (by decide)

/-- The boundary into epoch 11 still has a proposal to vote on, and leaves the flag clear. The
batches that follow move the expiry on, and the one of epoch 10 can still be read. -/
theorem expired_iff_of_timely_lapse :
    (Lapse.row.expired = true ↔ 11 + 0 < 11) ∧
      ∃ later row expiry, Lapse.before.rollAll Lapse.batches = .ok later ∧
        later.rows.get? Lapse.id = some row ∧ row.expiry = some expiry ∧ expiry.current = 12 ∧
          expiry.asOf 10 = some 11 := by
  have evaluated : (fun later : DrepLedger => ((later.rows.get? Lapse.id).bind
      DRepState.expiry).map DRepExpiry.current) <$>
        Lapse.before.rollAll Lapse.batches = .ok (some 12) := by
    decide +kernel
  rcases map_eq_ok.mp evaluated with ⟨later, rolled, moved⟩
  have both := @expired_iff_of_timely Lapse.start Lapse.registered Lapse.before later
    [.batch Lapse.registering] Lapse.close Lapse.batches Lapse.id rfl Lapse.run_registering
    Lapse.crossBoundary_registered rolled ?_
  · refine ⟨both.1 Lapse.row rfl rfl ⟨11, 10, none⟩ rfl, later, ?_⟩
    rcases Option.map_eq_some_iff.mp moved with ⟨expiry, expiryEq, isCurrent⟩
    rcases Option.bind_eq_some_iff.mp expiryEq with ⟨row, found, held⟩
    have kept := both.2 row found
    rw [held] at kept
    exact ⟨row, expiry, rolled, found, held, isCurrent, kept⟩
  · intro first other rest reached split isReached
    cases first with
    | nil => simp at split
    | cons event later =>
        cases later with
        | nil =>
            simp only [List.cons_append, List.nil_append, List.cons.injEq,
              DrepEvent.boundary.injEq] at split
            rcases split with ⟨rfl, rfl, -⟩
            rw [Lapse.run_registering] at isReached
            cases isReached
            exact Lapse.timely_registered
        | cons next last => simp at split

end Dolos
