import Dolos.Cardano.DrepExpiry

/-!
# The dormancy context and the rows

A release is sent to the representatives that were on record when the batch began, and to
those registered since. A context that is loaded later knows of more rows: those that a
vote has made. Nothing was ever registered there and no expiry is set, so that the release
leaves them.
-/

namespace Dolos

open Outcome Keyed EntityDelta CardanoDelta DeltaBuilder EntityVariant

/-- The row of a representative. -/
def drepAt (rows : NsKey → Option CardanoEntity) (id : EntityKey) : Option DRepState :=
  (rows (toLex (.dreps, id))).bind project

/-- Never registered and without an expiry, so that no release moves it. -/
def Quiet (row : Option DRepState) : Prop :=
  ∀ state ∈ row, state.registeredAt = none ∧ state.expiry = none

theorem quiet_some {state : DRepState} (quiet : state.registeredAt = none ∧ state.expiry = none) :
    Quiet (some state) := by
  intro held isHeld
  cases isHeld
  exact quiet

namespace DRepDelta

variable {delta : DRepDelta} {row after : Option DRepState}

/-- A delta that gives a row an expiry whether it is registered or not. -/
def Stirs : DRepDelta → Prop
  | registration _ => True
  | expiryUpdate delta => delta.onlyIfRegistered = false
  | _ => False

theorem release_of_quiet {release : DRepDormancyRelease} (quiet : Quiet row) :
    (dormancyRelease release).apply row = .ok row := by
  cases row with
  | none => rfl
  | some held =>
      have unmoved : release.released held = none := by
        simp [DRepDormancyRelease.released, (quiet held rfl).2]
      simp only [apply, EntityDelta.apply, unmoved]
      rfl

theorem quiet_apply (done : delta.apply row = .ok after) (calm : ¬ delta.Stirs)
    (quiet : Quiet row) : Quiet after := by
  have fresh : ∀ drep : DRep, (row.getD (DRepState.new drep)).registeredAt = none ∧
      (row.getD (DRepState.new drep)).expiry = none := by
    intro drep
    cases row with
    | none => exact ⟨rfl, rfl⟩
    | some held => exact quiet held rfl
  cases delta with
  | registration delta => exact absurd trivial calm
  | unRegistration delta =>
      cases row with
      | none => cases done
      | some held =>
          cases done
          exact quiet_some (quiet held rfl)
  | activity delta =>
      cases done
      exact quiet_some (fresh delta.drep)
  | anchorUpdate delta =>
      cases done
      exact quiet_some (fresh delta.drep)
  | expiryUpdate delta =>
      have skipped : delta.skips row = true := by
        have voting : delta.onlyIfRegistered = true := eq_true_of_ne_false calm
        cases row with
        | none => simp [DRepExpiryUpdate.skips, voting]
        | some held =>
            simp [DRepExpiryUpdate.skips, voting, DRepState.isRegistered, (quiet held rfl).1]
      simp only [apply, EntityDelta.apply, if_pos skipped] at done
      cases done
      exact quiet
  | dormancyRelease delta =>
      rw [release_of_quiet quiet] at done
      rcases Except.ok.inj done with rfl
      exact quiet
  | expiration delta =>
      cases row with
      | none => cases done
      | some held =>
          cases done
          exact quiet_some (quiet held rfl)
  | powerUpdate delta =>
      cases row with
      | none => cases done
      | some held =>
          cases done
          exact quiet_some (quiet held rfl)

/-- A row stays, and a registration makes one. -/
theorem isSome_apply (done : delta.apply row = .ok after)
    (held : row.isSome ∨ ∃ registered, delta = .registration registered) : after.isSome := by
  cases delta with
  | registration delta =>
      cases done
      rfl
  | unRegistration delta =>
      cases row with
      | none => cases done
      | some state =>
          cases done
          rfl
  | activity delta =>
      cases done
      rfl
  | anchorUpdate delta =>
      cases done
      rfl
  | expiryUpdate delta =>
      simp only [apply, EntityDelta.apply] at done
      split_ifs at done with skipped
      · cases done
        simpa using held
      · cases done
        rfl
  | dormancyRelease delta =>
      cases row with
      | none => simp at held
      | some state =>
          simp only [apply, EntityDelta.apply] at done
          cases target : delta.released state with
          | none =>
              simp only [target] at done
              cases done
              rfl
          | some expiry =>
              simp only [target] at done
              cases done
              rfl
  | expiration delta =>
      cases row with
      | none => cases done
      | some state =>
          cases done
          rfl
  | powerUpdate delta =>
      cases row with
      | none => cases done
      | some state =>
          cases done
          rfl

end DRepDelta

section Certificates

/-- The representative that a certificate registers. -/
def MultiEraCert.registersDRep : MultiEraCert → Option EntityKey
  | .conway (.regDRepCert cred _ _) => some (stakeCredToDRep cred).entityKey
  | _ => none

def MultiEraCert.updatesDRep : MultiEraCert → Option EntityKey
  | .conway (.updateDRepCert cred _) => some (stakeCredToDRep cred).entityKey
  | _ => none

/-- The certificates that take effect. -/
def MultiEraTx.effectiveCerts (tx : MultiEraTx) : List MultiEraCert :=
  if tx.isValid then tx.certs else []

def registeredBy (certs : List MultiEraCert) : List EntityKey :=
  certs.filterMap MultiEraCert.registersDRep

/-- Updates name representatives that are known, or registered before. -/
def UpdatesKnown : List EntityKey → List MultiEraCert → Prop
  | _, [] => True
  | known, cert :: rest =>
      (∀ id ∈ cert.updatesDRep, id ∈ known) ∧
        UpdatesKnown (known ++ cert.registersDRep.toList) rest

variable {known more : List EntityKey} {first second : List MultiEraCert}

theorem registeredBy_cons (cert : MultiEraCert) (rest : List MultiEraCert) :
    registeredBy (cert :: rest) = cert.registersDRep.toList ++ registeredBy rest := by
  cases registers : cert.registersDRep with
  | none => simp [registeredBy, registers]
  | some id => simp [registeredBy, registers]

theorem registeredBy_append :
    registeredBy (first ++ second) = registeredBy first ++ registeredBy second :=
  List.filterMap_append

theorem updatesKnown_append :
    UpdatesKnown known (first ++ second) ↔
      UpdatesKnown known first ∧ UpdatesKnown (known ++ registeredBy first) second := by
  induction first generalizing known with
  | nil => simp [UpdatesKnown, registeredBy]
  | cons cert rest ih =>
      rw [List.cons_append, UpdatesKnown, UpdatesKnown, ih, registeredBy_cons, and_assoc,
        List.append_assoc]

theorem UpdatesKnown.mono {certs : List MultiEraCert} (updates : UpdatesKnown known certs)
    (wider : ∀ id ∈ known, id ∈ more) : UpdatesKnown more certs := by
  induction certs generalizing known more with
  | nil => trivial
  | cons cert rest ih =>
      refine ⟨fun id isUpdated => wider id (updates.1 id isUpdated), ih updates.2 ?_⟩
      intro id member
      rcases List.mem_append.mp member with isKnown | registers
      · exact List.mem_append_left _ (wider id isKnown)
      · exact List.mem_append_right _ registers

theorem UpdatesKnown.mem {certs : List MultiEraCert} (updates : UpdatesKnown known certs)
    {cert : MultiEraCert} (member : cert ∈ certs) {id : EntityKey}
    (isUpdated : id ∈ cert.updatesDRep) : id ∈ known ++ registeredBy certs := by
  rcases List.append_of_mem member with ⟨before, after, rfl⟩
  have here := (updatesKnown_append.mp updates).2.1 id isUpdated
  rw [registeredBy_append, ← List.append_assoc]
  exact List.mem_append_left _ here

end Certificates

namespace DormancyContext

variable {dormancy first second : DormancyContext} {id : EntityKey}

theorem mem_releaseTargets :
    id ∈ dormancy.releaseTargets ↔ id ∈ dormancy.drepKeys ++ dormancy.batchRegistrations := by
  rw [releaseTargets, List.mem_dedup, List.mem_mergeSort]

theorem nodup_releaseTargets (dormancy : DormancyContext) : dormancy.releaseTargets.Nodup :=
  List.nodup_dedup _

/-- Registrations are noted while the stretch lasts. -/
theorem mem_releaseTargets_noted {certs : List MultiEraCert} (lasts : 0 < dormancy.dormantEpochs) :
    id ∈ (certs.foldl DRepStateVisitor.noteRegistration dormancy).releaseTargets ↔
      id ∈ dormancy.releaseTargets ∨ id ∈ registeredBy certs := by
  induction certs generalizing dormancy with
  | nil => simp [registeredBy]
  | cons cert rest ih =>
      have stillLasts : 0 < (DRepStateVisitor.noteRegistration dormancy cert).dormantEpochs := by
        rw [Dolos.dormantEpochs_noteRegistration]
        exact lasts
      have once : id ∈ (DRepStateVisitor.noteRegistration dormancy cert).releaseTargets ↔
          id ∈ dormancy.releaseTargets ∨ id ∈ cert.registersDRep.toList := by
        rw [mem_releaseTargets, mem_releaseTargets]
        unfold DRepStateVisitor.noteRegistration MultiEraCert.registersDRep
        split
        · rw [if_pos lasts]
          simp [or_assoc]
        · simp
      rw [List.foldl_cons, ih stillLasts, once, registeredBy_cons, List.mem_append, or_assoc]

/-- Two contexts on some rows: the same count, and while it lasts the same targets but for
quiet rows that are not known. -/
structure Agrees (known : List EntityKey) (rows : NsKey → Option CardanoEntity)
    (first second : DormancyContext) : Prop where
  count : second.dormantEpochs = first.dormantEpochs
  targets : 0 < first.dormantEpochs → ∀ id,
    (id ∈ first.releaseTargets ↔ id ∈ second.releaseTargets) ∨
      id ∉ known ∧ Quiet (drepAt rows id)

end DormancyContext

section Rows

variable [NonceCrypto]

theorem effect_asDRep {delta : CardanoDelta} {rowDelta : DRepDelta} {row : Option CardanoEntity}
    (isRow : delta.asDRep = some rowDelta) :
    effect delta row =
      (rowDelta.apply (row.bind project)).map fun reached => reached.map CardanoEntity.drep := by
  have lift : ∀ {D : Type} [EntityDelta D DRepState] (wrap : D → CardanoDelta) (inner : D),
      (∀ entity, apply (wrap inner) entity = downcastApply wrap inner entity) →
      effect (wrap inner) row = (Prod.snd <$> apply inner (row.bind project)).map
        fun reached : Option DRepState => reached.map CardanoEntity.drep := by
    intro D _ wrap inner applies
    rw [effect, applies, downcastApply]
    cases apply inner (row.bind (project (E := DRepState))) with
    | error panic => rfl
    | ok result => rfl
  cases delta with
  | drepRegistration inner =>
      cases isRow
      exact lift drepRegistration inner fun _ => rfl
  | drepUnRegistration inner =>
      cases isRow
      exact lift drepUnRegistration inner fun _ => rfl
  | drepActivity inner =>
      cases isRow
      exact lift drepActivity inner fun _ => rfl
  | drepAnchorUpdate inner =>
      cases isRow
      exact lift drepAnchorUpdate inner fun _ => rfl
  | drepExpiryUpdate inner =>
      cases isRow
      exact lift drepExpiryUpdate inner fun _ => rfl
  | drepDormancyRelease inner =>
      cases isRow
      exact lift drepDormancyRelease inner fun _ => rfl
  | _ => cases isRow

theorem exists_asDRep {delta : CardanoDelta} (isRow : delta.ns = .dreps) :
    ∃ rowDelta, delta.asDRep = some rowDelta := by
  cases delta with
  | drepRegistration inner => exact ⟨_, rfl⟩
  | drepUnRegistration inner => exact ⟨_, rfl⟩
  | drepActivity inner => exact ⟨_, rfl⟩
  | drepAnchorUpdate inner => exact ⟨_, rfl⟩
  | drepExpiryUpdate inner => exact ⟨_, rfl⟩
  | drepDormancyRelease inner => exact ⟨_, rfl⟩
  | _ => cases isRow

/-- What a delta makes of the row. -/
theorem drepAt_effect {delta : CardanoDelta} {rowDelta : DRepDelta}
    {row next : Option CardanoEntity} (isRow : delta.asDRep = some rowDelta)
    (done : effect delta row = .ok next) :
    rowDelta.apply (row.bind project) = .ok (next.bind project) := by
  rw [effect_asDRep isRow] at done
  cases applied : rowDelta.apply (row.bind project) with
  | error panic => rw [applied] at done; cases done
  | ok reached =>
      rw [applied] at done
      rcases Except.ok.inj done with rfl
      cases reached <;> rfl

end Rows

section Release

theorem filter_eq_of_nodup {targets others : List EntityKey} {id : EntityKey}
    (nodup : targets.Nodup) (othersNodup : others.Nodup) (same : id ∈ targets ↔ id ∈ others) :
    targets.filter (fun target => target = id) = others.filter fun target => target = id := by
  rw [List.filter_eq, List.filter_eq, nodup.count, othersNodup.count]
  simp only [same]

variable [NonceCrypto] {context : RollContext} {rows after : NsKey → Option CardanoEntity}
variable {known : List EntityKey} {first second : DormancyContext}

/-- The releases of a stretch, for some targets. -/
def releases (context : RollContext) (dormantEpochs : ℕ) (targets : List EntityKey) :
    List CardanoDelta :=
  targets.map fun target => drepDormancyRelease (.new target dormantEpochs context.epoch)

theorem filter_releases (dormantEpochs : ℕ) (targets : List EntityKey) (id : EntityKey) :
    (releases context dormantEpochs targets).filter
        (fun delta => key delta = toLex (Namespace.dreps, id)) =
      releases context dormantEpochs (targets.filter fun target => target = id) := by
  rw [releases, List.filter_map, releases]
  congr 1
  apply List.filter_congr
  intro target _
  have keyEq : key (drepDormancyRelease (.new target dormantEpochs context.epoch)) =
      toLex (Namespace.dreps, target) := rfl
  simp [keyEq]

theorem filter_releases_of_ne (dormantEpochs : ℕ) (targets : List EntityKey) {space : Namespace}
    (other : space ≠ .dreps) (id : EntityKey) :
    (releases context dormantEpochs targets).filter
      (fun delta => key delta = toLex (space, id)) = [] := by
  have within : Within [.dreps] (releases context dormantEpochs targets) :=
    Within.map fun _ => ⟨List.mem_singleton.mpr rfl, trivial⟩
  have isSpace : (ofLex (toLex (space, id))).1 = space := rfl
  refine within.filter_eq_nil isSpace ?_
  simpa using other

/-- A release leaves a quiet row. -/
theorem effect_release_of_quiet {release : DRepDormancyRelease} {row : Option CardanoEntity}
    (typed : TypedAt (toLex (Namespace.dreps, release.drepId)) row)
    (quiet : Quiet (row.bind project)) :
    effect (drepDormancyRelease release) row = .ok row := by
  rcases exists_map_inject (E := DRepState) typed with ⟨state, rfl⟩
  rw [bind_project_map_inject] at quiet
  have isRow : (drepDormancyRelease release).asDRep = some (.dormancyRelease release) := rfl
  rw [effect_asDRep isRow, bind_project_map_inject, DRepDelta.release_of_quiet quiet]
  rfl

theorem runAll_releases_of_quiet (dormantEpochs : ℕ) {targets : List EntityKey} {id : EntityKey}
    {row : Option CardanoEntity} (only : ∀ target ∈ targets, target = id)
    (typed : TypedAt (toLex (Namespace.dreps, id)) row) (quiet : Quiet (row.bind project)) :
    runAll effect (releases context dormantEpochs targets) row = .ok row := by
  induction targets with
  | nil => rfl
  | cons target rest ih =>
      rcases only target List.mem_cons_self with rfl
      have idle : effect (drepDormancyRelease (.new target dormantEpochs context.epoch)) row =
          .ok row := effect_release_of_quiet typed quiet
      rw [releases, List.map_cons, runAll, idle]
      exact ih fun other member => only other (List.mem_cons_of_mem _ member)

/-- Contexts that agree release the same. -/
theorem runOn_release_iff (typed : WellTyped rows) (agrees : first.Agrees known rows second)
    (tx : MultiEraTx) :
    runOn key effect (DRepStateVisitor.release context tx first).1 rows = .ok after ↔
      runOn key effect (DRepStateVisitor.release context tx second).1 rows = .ok after := by
  unfold DRepStateVisitor.release
  rw [agrees.count]
  split_ifs with opens
  · rw [runOn_eq_ok_iff, runOn_eq_ok_iff]
    apply forall_congr'
    intro index
    obtain ⟨space, id, rfl⟩ : ∃ space id, index = toLex (space, id) := ⟨_, _, rfl⟩
    rw [List.filter_append, List.filter_append]
    by_cases isDRep : space = .dreps
    · subst isDRep
      have split : ∀ targets : List EntityKey,
          runAll effect (((releases context first.dormantEpochs targets).filter
              fun delta => key delta = toLex (Namespace.dreps, id)) ++
            [govDormancyReset .new].filter
              fun delta => key delta = toLex (Namespace.dreps, id))
            (rows (toLex (.dreps, id))) = .ok (after (toLex (.dreps, id))) ↔
          runAll effect (releases context first.dormantEpochs
            (targets.filter fun target => target = id)) (rows (toLex (.dreps, id))) =
              .ok (after (toLex (.dreps, id))) := by
        intro targets
        have isRow : (ofLex (toLex (Namespace.dreps, id))).1 = Namespace.dreps := rfl
        have within : Within [.gov] [govDormancyReset .new] :=
          Within.cons List.mem_cons_self trivial (Within.nil _)
        have resets : [govDormancyReset .new].filter
            (fun delta => key delta = toLex (Namespace.dreps, id)) = [] :=
          within.filter_eq_nil isRow
        rw [filter_releases, resets, List.append_nil]
      refine (split first.releaseTargets).trans (Iff.trans ?_ (split second.releaseTargets).symm)
      rcases agrees.targets opens.1 id with same | ⟨-, quiet⟩
      · rw [filter_eq_of_nodup first.nodup_releaseTargets second.nodup_releaseTargets same]
      · have idle : ∀ targets : List EntityKey,
            runAll effect (releases context first.dormantEpochs
              (targets.filter fun target => target = id)) (rows (toLex (.dreps, id))) =
                .ok (rows (toLex (.dreps, id))) := by
          intro targets
          refine runAll_releases_of_quiet _ ?_ (typed _) quiet
          intro target member
          exact of_decide_eq_true (List.mem_filter.mp member).2
        rw [idle, idle]
    · have others : ∀ targets : List EntityKey, (targets.map fun target =>
          drepDormancyRelease (.new target first.dormantEpochs context.epoch)).filter
            (fun delta => key delta = toLex (space, id)) = [] := fun targets =>
        filter_releases_of_ne first.dormantEpochs targets isDRep id
      rw [others, others]
  · rfl

end Release

section Transactions

variable {context : RollContext} {slot : ℕ}
variable {known : List EntityKey} {dormancy first second : DormancyContext}

theorem visitVoter_congr (count : second.dormantEpochs = first.dormantEpochs) (voter : Voter) :
    DRepStateVisitor.visitVoter context slot second voter =
      DRepStateVisitor.visitVoter context slot first voter := by
  unfold DRepStateVisitor.visitVoter
  rw [refreshExpiry_congr context count]

/-- The release of a transaction, if it has one. -/
def releaseOf (context : RollContext) (tx : MultiEraTx) (dormancy : DormancyContext) :
    List CardanoDelta × DormancyContext :=
  if tx.era ≠ .conway ∨ tx.isValid = false then ([], dormancy)
  else DRepStateVisitor.release context tx dormancy

theorem count_release_congr (count : second.dormantEpochs = first.dormantEpochs)
    (tx : MultiEraTx) : (DRepStateVisitor.release context tx second).2.dormantEpochs =
      (DRepStateVisitor.release context tx first).2.dormantEpochs := by
  unfold DRepStateVisitor.release
  rw [count]
  split_ifs
  · rfl
  · exact count

theorem count_releaseOf_congr (count : second.dormantEpochs = first.dormantEpochs)
    (tx : MultiEraTx) : (releaseOf context tx second).2.dormantEpochs =
      (releaseOf context tx first).2.dormantEpochs := by
  unfold releaseOf
  split_ifs
  · exact count
  · exact count_release_congr count tx

theorem snd_visitTx (tx : MultiEraTx) :
    (DRepStateVisitor.visitTx context slot tx dormancy).2 = (releaseOf context tx dormancy).2 := by
  unfold DRepStateVisitor.visitTx releaseOf
  split_ifs
  · rfl
  · rfl

theorem txDormancy_eq (tx : MultiEraTx) :
    txDormancy context slot dormancy tx =
      tx.effectiveCerts.foldl DRepStateVisitor.noteRegistration
        (releaseOf context tx dormancy).2 := by
  rw [txDormancy, snd_visitTx, MultiEraTx.effectiveCerts]
  split_ifs
  · rfl
  · rfl

theorem count_txDormancy (tx : MultiEraTx) :
    (txDormancy context slot dormancy tx).dormantEpochs =
      (releaseOf context tx dormancy).2.dormantEpochs := by
  rw [txDormancy_eq, dormantEpochs_foldl_noteRegistration]

/-- A stretch that goes on has had no release. -/
theorem releaseOf_of_lasting {tx : MultiEraTx}
    (lasts : 0 < (releaseOf context tx dormancy).2.dormantEpochs) :
    releaseOf context tx dormancy = ([], dormancy) := by
  unfold releaseOf DRepStateVisitor.release at lasts ⊢
  split_ifs at lasts ⊢ with skipped opens
  · rfl
  · cases lasts
  · rfl

variable [AssetDigest] (context slot) (utxos : UtxoMap MultiEraOutput)

/-- What a transaction adds besides. -/
def afterRelease (dormancy : DormancyContext) (tx : MultiEraTx × ℕ) : List CardanoDelta :=
  (if tx.1.era ≠ .conway ∨ tx.1.isValid = false then []
    else (tx.1.votingProcedures.getD []).flatMap fun votes =>
      DRepStateVisitor.visitVoter context slot dormancy votes.1) ++
    tx.1.consumes.flatMap (inputDeltas utxos) ++
    tx.1.produces.flatMap (outputDeltas context tx.1.hash (DatumVisitor.visitTx tx.1)) ++
    if tx.1.isValid then bodyDeltas context slot tx.2 dormancy tx.1 else []

theorem txDeltas_eq_release (dormancy : DormancyContext) (tx : MultiEraTx × ℕ) :
    txDeltas context slot utxos dormancy tx =
      (releaseOf context tx.1 dormancy).1 ++
        afterRelease context slot utxos (releaseOf context tx.1 dormancy).2 tx := by
  unfold txDeltas afterRelease releaseOf DRepStateVisitor.visitTx
  split_ifs <;> simp only [List.append_assoc, List.nil_append]

variable {context slot utxos}

theorem afterRelease_congr (count : second.dormantEpochs = first.dormantEpochs)
    (tx : MultiEraTx × ℕ) :
    afterRelease context slot utxos second tx = afterRelease context slot utxos first tx := by
  have certs : tx.1.certs.flatMap (certDeltas context slot tx.2 second) =
      tx.1.certs.flatMap (certDeltas context slot tx.2 first) := by
    apply List.flatMap_congr
    intro cert _
    exact certDeltas_congr context slot tx.2 count cert
  unfold afterRelease
  simp only [visitVoter_congr count, bodyDeltas, certs]

variable [NonceCrypto]

/-- A transaction does the same to the entities in contexts that agree. -/
theorem runOn_tx_iff {rows after : NsKey → Option CardanoEntity} (typed : WellTyped rows)
    (agrees : first.Agrees known rows second) (tx : MultiEraTx × ℕ) :
    runOn key effect (txDeltas context slot utxos first tx) rows = .ok after ↔
      runOn key effect (txDeltas context slot utxos second tx) rows = .ok after := by
  have released : ∀ reached,
      runOn key effect (releaseOf context tx.1 first).1 rows = .ok reached ↔
        runOn key effect (releaseOf context tx.1 second).1 rows = .ok reached := by
    intro reached
    unfold releaseOf
    split_ifs
    · rfl
    · exact runOn_release_iff typed agrees tx.1
  rw [txDeltas_eq_release, txDeltas_eq_release, runOn_append_iff, runOn_append_iff,
    afterRelease_congr (count_releaseOf_congr agrees.count tx.1)]
  simp only [released]

omit [AssetDigest] [NonceCrypto] in
/-- Who is told of a release after the transaction, when there has been none. -/
theorem txDormancy_lasting {tx : MultiEraTx}
    (lasts : 0 < (txDormancy context slot dormancy tx).dormantEpochs) :
    0 < dormancy.dormantEpochs ∧
      ∀ id, id ∈ (txDormancy context slot dormancy tx).releaseTargets ↔
        id ∈ dormancy.releaseTargets ∨ id ∈ registeredBy tx.effectiveCerts := by
  rw [count_txDormancy] at lasts
  have unreleased := releaseOf_of_lasting lasts
  rw [unreleased] at lasts
  refine ⟨lasts, ?_⟩
  intro id
  rw [txDormancy_eq, unreleased]
  exact DormancyContext.mem_releaseTargets_noted lasts

omit [AssetDigest] in
theorem calm_expiryUpdate {drep : DRep} {expiry : Option ℕ} {onlyIfRegistered : Bool}
    {delta : CardanoDelta} {rowDelta : DRepDelta}
    (member : delta ∈ DRepStateVisitor.expiryUpdate context drep expiry onlyIfRegistered)
    (isRow : delta.asDRep = some rowDelta) (stirs : rowDelta.Stirs) :
    onlyIfRegistered = false ∧ key delta = DRepState.nsKey drep := by
  cases expiry with
  | none => simp [DRepStateVisitor.expiryUpdate] at member
  | some value =>
      rcases List.mem_singleton.mp member with rfl
      cases isRow
      exact ⟨stirs, rfl⟩

omit [AssetDigest] in
theorem calm_visitTx {tx : MultiEraTx} {delta : CardanoDelta} {rowDelta : DRepDelta}
    (member : delta ∈ (DRepStateVisitor.visitTx context slot tx dormancy).1)
    (isRow : delta.asDRep = some rowDelta) : ¬ rowDelta.Stirs := by
  intro stirs
  unfold DRepStateVisitor.visitTx at member
  split_ifs at member
  · simp at member
  · rcases List.mem_append.mp member with released | voted
    · unfold DRepStateVisitor.release at released
      split_ifs at released
      · rcases List.mem_append.mp released with isRelease | isReset
        · rcases List.mem_map.mp isRelease with ⟨target, -, rfl⟩
          cases isRow
          exact stirs
        · rcases List.mem_singleton.mp isReset with rfl
          cases isRow
      · simp at released
    · rcases List.mem_flatMap.mp voted with ⟨votes, -, voter⟩
      unfold DRepStateVisitor.visitVoter at voter
      split at voter
      · simp at voter
      · rcases List.mem_cons.mp voter with rfl | refreshed
        · cases isRow
          exact stirs
        · cases (calm_expiryUpdate refreshed isRow stirs).1

omit [AssetDigest] in
theorem key_of_stirs_visitCert {order : ℕ} {cert : MultiEraCert} {delta : CardanoDelta}
    {rowDelta : DRepDelta}
    (member : delta ∈ (DRepStateVisitor.visitCert context slot order cert dormancy).1)
    (isRow : delta.asDRep = some rowDelta) (stirs : rowDelta.Stirs) :
    ∃ id, key delta = toLex (.dreps, id) ∧
      (id ∈ cert.registersDRep ∨ id ∈ cert.updatesDRep) := by
  rcases List.mem_append.mp member with own | active
  · rcases List.mem_append.mp own with committee | certified
    · rcases List.mem_append.mp committee with auth | resign
      · rcases Option.mem_map.mp (Option.mem_toList.mp auth) with ⟨found, -, rfl⟩
        cases isRow
      · rcases Option.mem_map.mp (Option.mem_toList.mp resign) with ⟨found, -, rfl⟩
        cases isRow
    · unfold DRepStateVisitor.drepDeltas at certified
      split at certified
      · rcases List.mem_cons.mp certified with rfl | later
        · cases isRow
          exact ⟨_, rfl, .inl rfl⟩
        · rcases List.mem_cons.mp later with rfl | refreshed
          · cases isRow
            exact stirs.elim
          · exact ⟨_, (calm_expiryUpdate refreshed isRow stirs).2, .inl rfl⟩
      · rcases List.mem_singleton.mp certified with rfl
        cases isRow
        exact stirs.elim
      · rcases List.mem_cons.mp certified with rfl | refreshed
        · cases isRow
          exact stirs.elim
        · exact ⟨_, (calm_expiryUpdate refreshed isRow stirs).2, .inr rfl⟩
      · simp at certified
  · rcases Option.mem_map.mp (Option.mem_toList.mp active) with ⟨drep, -, rfl⟩
    cases isRow
    exact stirs.elim

omit [AssetDigest] in
theorem ns_of_asDRep {delta : CardanoDelta} {rowDelta : DRepDelta}
    (isRow : delta.asDRep = some rowDelta) : delta.ns = .dreps := by
  cases delta <;> first | rfl | cases isRow

/-- Whatever gives a row an expiry by itself comes from a certificate for it. -/
theorem exists_cert_of_stirs {tx : MultiEraTx × ℕ} {delta : CardanoDelta} {rowDelta : DRepDelta}
    (member : delta ∈ txDeltas context slot utxos dormancy tx)
    (isRow : delta.asDRep = some rowDelta) (stirs : rowDelta.Stirs) :
    ∃ cert ∈ tx.1.effectiveCerts, ∃ id, key delta = toLex (.dreps, id) ∧
      (id ∈ cert.registersDRep ∨ id ∈ cert.updatesDRep) := by
  have isDRep : delta.ns ∈ drepSpaces := by
    rw [ns_of_asDRep isRow]
    exact List.mem_cons_self
  have fromVisitor := (mem_tx_drep context slot utxos isDRep dormancy tx).mp member
  rcases List.mem_append.mp fromVisitor with visited | certified
  · exact absurd stirs (calm_visitTx visited isRow)
  · split_ifs at certified with valid
    · rcases List.mem_flatMap.mp certified with ⟨cert, isCert, emitted⟩
      refine ⟨cert, ?_, key_of_stirs_visitCert emitted isRow stirs⟩
      rw [MultiEraTx.effectiveCerts, if_pos valid]
      exact isCert
    · simp at certified

/-- A row that is neither known nor registered by a transaction stays quiet. -/
theorem quiet_of_runOn_tx {rows after : NsKey → Option CardanoEntity} {tx : MultiEraTx × ℕ}
    {id : EntityKey} (updates : UpdatesKnown known tx.1.effectiveCerts)
    (ran : runOn key effect (txDeltas context slot utxos dormancy tx) rows = .ok after)
    (unknown : id ∉ known ++ registeredBy tx.1.effectiveCerts)
    (quiet : Quiet (drepAt rows id)) : Quiet (drepAt after id) := by
  refine runOn_keeps (P := fun row => Quiet (row.bind project)) ?_ ran quiet
  intro delta member here row next done before
  have isDRep : delta.ns = .dreps := by
    rw [ns, here]
    rfl
  rcases exists_asDRep isDRep with ⟨rowDelta, isRow⟩
  refine DRepDelta.quiet_apply (drepAt_effect isRow done) ?_ before
  intro stirs
  rcases exists_cert_of_stirs member isRow stirs with ⟨cert, isCert, other, keyEq, names⟩
  rcases Prod.mk.inj (toLex.injective (keyEq.symm.trans here)) with ⟨-, rfl⟩
  rcases names with registers | isUpdated
  · exact unknown (List.mem_append_right _
      (List.mem_filterMap.mpr ⟨cert, isCert, registers⟩))
  · exact unknown (updates.mem isCert isUpdated)

/-- Contexts that agree before a transaction agree after it. -/
theorem DormancyContext.Agrees.tx {rows after : NsKey → Option CardanoEntity}
    {tx : MultiEraTx × ℕ} (agrees : first.Agrees known rows second)
    (updates : UpdatesKnown known tx.1.effectiveCerts)
    (ran : runOn key effect (txDeltas context slot utxos first tx) rows = .ok after) :
    (txDormancy context slot first tx.1).Agrees (known ++ registeredBy tx.1.effectiveCerts) after
      (txDormancy context slot second tx.1) := by
  have count : (txDormancy context slot second tx.1).dormantEpochs =
      (txDormancy context slot first tx.1).dormantEpochs := by
    rw [count_txDormancy, count_txDormancy]
    exact count_releaseOf_congr agrees.count tx.1
  refine ⟨count, ?_⟩
  intro lasts id
  rcases txDormancy_lasting lasts with ⟨lasted, firstTargets⟩
  have secondTargets := (txDormancy_lasting (count.symm ▸ lasts)).2
  rw [firstTargets, secondTargets]
  rcases agrees.targets lasted id with same | ⟨unknown, quiet⟩
  · exact .inl (or_congr same Iff.rfl)
  · by_cases registers : id ∈ registeredBy tx.1.effectiveCerts
    · exact .inl (iff_of_true (.inr registers) (.inr registers))
    · have stillUnknown : id ∉ known ++ registeredBy tx.1.effectiveCerts := by
        intro member
        rcases List.mem_append.mp member with isKnown | isRegistered
        · exact unknown isKnown
        · exact registers isRegistered
      exact .inr ⟨stillUnknown, quiet_of_runOn_tx updates ran stillUnknown quiet⟩

end Transactions

end Dolos
