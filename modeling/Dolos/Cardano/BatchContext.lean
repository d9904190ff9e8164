import Dolos.Cardano.CrawlReads
import Dolos.Cardano.Dormancy

/-!
# What the blocks of a batch are told

The blocks of a batch are crawled with the parameters, the dormancy context and the outputs
that were loaded before the first of them. A block that is loaded for by itself finds the
same parameters, the same count, and a context that agrees with the one it is handed.
-/

namespace Dolos

open Outcome Keyed EntityDelta CardanoDelta DeltaBuilder EntityVariant

variable [NonceCrypto]

section Rows

variable {spaces : List Namespace} {deltas : List CardanoDelta}
variable {before after : NsKey → Option CardanoEntity}

theorem wellTyped_runOn (within : Within spaces deltas) (typed : WellTyped before)
    (ran : runOn key effect deltas before = .ok after) : WellTyped after := by
  intro index
  refine runOn_keeps (P := TypedAt index) ?_ ran (typed index)
  intro delta member here row next done held
  rcases effect_eq_ok.mp done with ⟨applied, appliedEq⟩
  exact (applied_at here (within delta member).2 held appliedEq).2

/-- Deltas for other namespaces leave the rows of one. -/
theorem runOn_outside (within : Within spaces deltas)
    (ran : runOn key effect deltas before = .ok after) {index : NsKey} {space : Namespace}
    (isSpace : (ofLex index).1 = space) (outside : space ∉ spaces) :
    after index = before index := by
  refine runOn_untouched ran ?_
  intro delta member here
  apply outside
  rw [← isSpace, ← here]
  exact (within delta member).1

end Rows

namespace DormancyContext.Agrees

variable {known : List EntityKey} {first second : DormancyContext}
variable {rows after : NsKey → Option CardanoEntity}

omit [NonceCrypto] in
theorem of_rows (agrees : first.Agrees known rows second)
    (same : ∀ id, after (toLex (.dreps, id)) = rows (toLex (.dreps, id))) :
    first.Agrees known after second := by
  refine ⟨agrees.count, ?_⟩
  intro lasts id
  rw [drepAt, same]
  exact agrees.targets lasts id

theorem outside {spaces : List Namespace} {deltas : List CardanoDelta}
    (agrees : first.Agrees known rows second) (within : Within spaces deltas)
    (ran : runOn key effect deltas rows = .ok after)
    (apart : Namespace.dreps ∉ spaces := by decide) : first.Agrees known after second :=
  agrees.of_rows fun _ => runOn_outside within ran rfl apart

end DormancyContext.Agrees

section Blocks

variable [AssetDigest] {context : RollContext} {slot : ℕ} {utxos other : UtxoMap MultiEraOutput}
variable {known : List EntityKey} {first second : DormancyContext}

/-- The certificates of a list of transactions that take effect. -/
def effectiveCertsOf (txs : List MultiEraTx) : List MultiEraCert :=
  txs.flatMap MultiEraTx.effectiveCerts

theorem runOn_txs_iff {txs : List (MultiEraTx × ℕ)} {rows after : NsKey → Option CardanoEntity}
    (typed : WellTyped rows) (agrees : first.Agrees known rows second)
    (updates : UpdatesKnown known (effectiveCertsOf (txs.map Prod.fst))) :
    runOn key effect (txsDeltas context slot utxos first txs) rows = .ok after ↔
      runOn key effect (txsDeltas context slot utxos second txs) rows = .ok after := by
  induction txs generalizing known first second rows with
  | nil => rfl
  | cons tx rest ih =>
      rw [List.map_cons, effectiveCertsOf, List.flatMap_cons, updatesKnown_append] at updates
      rw [txsDeltas, txsDeltas, runOn_append_iff, runOn_append_iff]
      apply exists_congr
      intro middle
      rw [← runOn_tx_iff typed agrees tx]
      apply and_congr_right
      intro ran
      exact ih (wellTyped_runOn (within_tx context slot utxos first tx) typed ran)
        (agrees.tx updates.1 ran) updates.2

theorem DormancyContext.Agrees.txs {txs : List (MultiEraTx × ℕ)}
    {rows after : NsKey → Option CardanoEntity} (agrees : first.Agrees known rows second)
    (updates : UpdatesKnown known (effectiveCertsOf (txs.map Prod.fst)))
    (ran : runOn key effect (txsDeltas context slot utxos first txs) rows = .ok after) :
    (txsDormancy context slot first txs).Agrees
      (known ++ registeredBy (effectiveCertsOf (txs.map Prod.fst))) after
      (txsDormancy context slot second txs) := by
  induction txs generalizing known first second rows with
  | nil =>
      rcases Except.ok.inj ran with rfl
      rw [List.map_nil, effectiveCertsOf, List.flatMap_nil, registeredBy, List.filterMap_nil,
        List.append_nil]
      exact agrees
  | cons tx rest ih =>
      rw [List.map_cons, effectiveCertsOf, List.flatMap_cons, updatesKnown_append] at updates
      rw [txsDeltas, runOn_append_iff] at ran
      rcases ran with ⟨middle, ranFirst, ranRest⟩
      have later := ih (agrees.tx updates.1 ranFirst) updates.2 ranRest
      rw [List.map_cons, effectiveCertsOf, List.flatMap_cons, registeredBy_append,
        ← List.append_assoc]
      exact later

/-- The certificates of a block that take effect. -/
def DecodedBlock.effectiveCerts (block : DecodedBlock) : List MultiEraCert :=
  effectiveCertsOf block.txs

/-- What a block adds for no transaction of its own. -/
def blockTail (context : RollContext) (utxos : UtxoMap MultiEraOutput) (block : DecodedBlock) :
    List CardanoDelta :=
  (block.update.map (ProposalVisitor.visitUpdate context block.slot block.hash)).toList ++
    [.epochStatsUpdate (txsStats utxos (EpochStateVisitor.rootStats context block)
      block.txs.zipIdx)] ++
    ((valueOr none (EpochStateVisitor.rootNonces block)).map .noncesUpdate).toList ++
    (block.txs.zipIdx.flatMap fun tx =>
      ProposalVisitor.visitTx block.slot tx.1).map .voteCast

omit [AssetDigest] in
theorem within_blockTail (block : DecodedBlock) :
    Within [.proposals, .epochs] (blockTail context utxos block) := by
  refine Within.append (Within.append (Within.append ?_ ?_) ?_) ?_
  · exact (within_update context block.slot block.hash block.update).mono (by simp)
  · exact (within_kept context utxos block).mono (by simp)
  · exact (within_nonces block).mono (by simp)
  · exact (within_votes block).mono (by simp)

omit [NonceCrypto] in
theorem blockDeltas_eq_tail (dormancy : DormancyContext) (block : DecodedBlock) :
    blockDeltas context utxos dormancy block =
      PoolStateVisitor.visitRoot context block ++
        (txsDeltas context block.slot utxos dormancy block.txs.zipIdx ++
          blockTail context utxos block) := by
  rw [blockDeltas_eq, blockTail]
  simp only [List.append_assoc]

variable {before after : NsKey → Option CardanoEntity} {block : DecodedBlock}

/-- A block does the same to the entities in contexts that agree. -/
theorem runOn_block_iff (typed : WellTyped before) (agrees : first.Agrees known before second)
    (updates : UpdatesKnown known block.effectiveCerts) :
    runOn key effect (blockDeltas context utxos first block) before = .ok after ↔
      runOn key effect (blockDeltas context utxos second block) before = .ok after := by
  have certs : effectiveCertsOf (block.txs.zipIdx.map Prod.fst) = block.effectiveCerts := by
    rw [List.zipIdx_map_fst]
    rfl
  rw [blockDeltas_eq_tail, blockDeltas_eq_tail, runOn_append_iff, runOn_append_iff]
  apply exists_congr
  intro opened
  apply and_congr_right
  intro ranRoot
  have root := within_poolRoot context block
  rw [runOn_append_iff, runOn_append_iff]
  apply exists_congr
  intro crawled
  rw [← certs] at updates
  rw [runOn_txs_iff (wellTyped_runOn root typed ranRoot) (agrees.outside root ranRoot) updates]

theorem DormancyContext.Agrees.afterBlock (agrees : first.Agrees known before second)
    (updates : UpdatesKnown known block.effectiveCerts)
    (ran : runOn key effect (blockDeltas context utxos first block) before = .ok after) :
    (txsDormancy context block.slot first block.txs.zipIdx).Agrees
      (known ++ registeredBy block.effectiveCerts) after
      (txsDormancy context block.slot second block.txs.zipIdx) := by
  have certs : effectiveCertsOf (block.txs.zipIdx.map Prod.fst) = block.effectiveCerts := by
    rw [List.zipIdx_map_fst]
    rfl
  rw [blockDeltas_eq_tail, runOn_append_iff] at ran
  rcases ran with ⟨opened, ranRoot, ran⟩
  rw [runOn_append_iff] at ran
  rcases ran with ⟨crawled, ranTxs, ranTail⟩
  rw [← certs] at updates ⊢
  have visited := (agrees.outside (within_poolRoot context block) ranRoot).txs updates ranTxs
  exact visited.outside (within_blockTail block) ranTail

omit [NonceCrypto] [AssetDigest] in
/-- What a block consumes, its transactions consume. -/
theorem mem_consumed_view {txo : TxoRef} (spent : txo ∈ block.view.consumed) :
    ∃ tx ∈ block.txs, txo ∈ tx.consumes := by
  rcases List.mem_flatMap.mp spent with ⟨⟨hash, view⟩, listed, isInput⟩
  have held := OrderedMap.mem_entries_iff.mp listed
  rcases OrderedMap.get?_insertAll_cases _ held with isTx | absent
  · rcases List.mem_map.mp isTx with ⟨viewed, isViewed, same⟩
    rcases List.mem_map.mp isViewed with ⟨tx, member, rfl⟩
    rcases Prod.mk.inj same with ⟨-, rfl⟩
    exact ⟨tx, member, isInput⟩
  · cases absent

theorem blockApplies_iff (typed : WellTyped before) (agrees : first.Agrees known before second)
    (updates : UpdatesKnown known block.effectiveCerts)
    (same : ∀ tx ∈ block.txs, SameInputs utxos other tx) :
    BlockApplies context utxos first block before after ↔
      BlockApplies context other second block before after := by
  have deltas : computeApplyDelta block.view other = computeApplyDelta block.view utxos := by
    apply computeApplyDelta_congr
    intro txo spent
    rcases mem_consumed_view spent with ⟨tx, isTx, isInput⟩
    exact same tx isTx txo isInput
  constructor
  · rintro ⟨fits, resolved, ran⟩
    refine ⟨(blockFits_sameInputs same).mpr fits, ?_, ?_⟩
    · rw [deltas]
      exact resolved
    · rw [blockDeltas_sameInputs same]
      exact (runOn_block_iff typed agrees updates).mp ran
  · rintro ⟨fits, resolved, ran⟩
    rw [deltas] at resolved
    rw [blockDeltas_sameInputs same] at ran
    exact ⟨(blockFits_sameInputs same).mp fits, resolved,
      (runOn_block_iff typed agrees updates).mpr ran⟩

/-- Blocks apply alike with outputs that are the same for their inputs, in contexts that
agree. -/
theorem appliesAll_congr {blocks : List DecodedBlock} (typed : WellTyped before)
    (agrees : first.Agrees known before second)
    (updates : UpdatesKnown known (blocks.flatMap DecodedBlock.effectiveCerts))
    (same : ∀ block ∈ blocks, ∀ tx ∈ block.txs, SameInputs utxos other tx) :
    AppliesAll context utxos first blocks before after ↔
      AppliesAll context other second blocks before after := by
  induction blocks generalizing known first second before with
  | nil => rfl
  | cons block rest ih =>
      rw [List.flatMap_cons, updatesKnown_append] at updates
      rw [AppliesAll, AppliesAll]
      apply exists_congr
      intro next
      rw [← blockApplies_iff typed agrees updates.1 (same block List.mem_cons_self)]
      apply and_congr_right
      intro applies
      exact ih (wellTyped_runOn (within_block context utxos first block) typed applies.ran)
        (agrees.afterBlock updates.1 applies.ran) updates.2
        fun later member => same later (List.mem_cons_of_mem _ member)

end Blocks

section Singletons

variable {row next : Option CardanoEntity}

/-- A delta of one entity type, on an entity of it. -/
theorem effect_of_project {D E : Type} [EntityDelta D E] [EntityVariant E]
    (wrap : D → CardanoDelta) {inner : D} {entity : CardanoEntity} {state : E}
    (isState : project entity = some state)
    (applies : ∀ held, apply (wrap inner) held = downcastApply wrap inner held)
    (done : effect (wrap inner) (some entity) = .ok next) :
    ∃ applied reached, apply inner (some state) = .ok (applied, reached) ∧
      next = reached.map inject := by
  rcases effect_eq_ok.mp done with ⟨delta, deltaEq⟩
  rw [applies, downcastApply, Option.bind_some, isState] at deltaEq
  rcases bind_eq_ok.mp deltaEq with ⟨⟨applied, reached⟩, innerEq, same⟩
  exact ⟨applied, reached, innerEq, (Prod.mk.inj (Except.ok.inj same)).2.symm⟩

/-- The epoch is there, with these parameters. -/
def HasPParams (pparams : EpochValue PParamsSet) (row : Option CardanoEntity) : Prop :=
  ∃ state, row = some (.epoch state) ∧ state.pparams = pparams

/-- What blocks write to the epoch leaves its parameters. -/
theorem hasPParams_effect {delta : CardanoDelta} {pparams : EpochValue PParamsSet}
    (isEpoch : delta.ns = .epochs) (done : effect delta row = .ok next)
    (held : HasPParams pparams row) : HasPParams pparams next := by
  rcases held with ⟨state, rfl, rfl⟩
  have isState : project (CardanoEntity.epoch state) = some state := rfl
  cases delta with
  | epochStatsUpdate inner =>
      rcases effect_of_project epochStatsUpdate isState (fun _ => rfl) done with
        ⟨applied, reached, innerEq, rfl⟩
      simp only [apply, expect_some, ok_bind] at innerEq
      rcases bind_eq_ok.mp innerEq with ⟨rolled, -, same⟩
      rcases Prod.mk.inj (Except.ok.inj same) with ⟨-, rfl⟩
      exact ⟨_, rfl, rfl⟩
  | noncesUpdate inner =>
      rcases effect_of_project noncesUpdate isState (fun _ => rfl) done with
        ⟨applied, reached, innerEq, rfl⟩
      simp only [apply] at innerEq
      split at innerEq
      · rcases Prod.mk.inj (Except.ok.inj innerEq) with ⟨-, rfl⟩
        exact ⟨_, rfl, rfl⟩
      · rcases Prod.mk.inj (Except.ok.inj innerEq) with ⟨-, rfl⟩
        exact ⟨_, rfl, rfl⟩
  | _ => cases isEpoch

/-- The governance singleton is there, with this count of dormant epochs. -/
def HasDormant (dormantEpochs : ℕ) (row : Option CardanoEntity) : Prop :=
  ∃ gov, row = some (.gov gov) ∧ gov.numDormantEpochs = dormantEpochs

omit [NonceCrypto] in
theorem numDormantEpochs_pushAuth {gov : GovState} {cold : StakeCredential}
    {entry : ℕ × CommitteeAuthorization} {created : Bool} {after : Option GovState}
    (done : GovState.pushAuth (some gov) cold entry = .ok (created, after)) :
    ∃ reached, after = some reached ∧ reached.numDormantEpochs = gov.numDormantEpochs := by
  simp only [GovState.pushAuth, expect_some, ok_bind, Except.ok.injEq, Prod.mk.injEq] at done
  exact ⟨_, done.2.symm, rfl⟩

/-- Besides a reset nothing that blocks write changes the count. -/
theorem hasDormant_effect {delta : CardanoDelta} {dormantEpochs : ℕ}
    (isGov : delta.ns = .gov) (noReset : ∀ reset, delta ≠ .govDormancyReset reset)
    (done : effect delta row = .ok next) (held : HasDormant dormantEpochs row) :
    HasDormant dormantEpochs next := by
  rcases held with ⟨gov, rfl, rfl⟩
  have isState : project (CardanoEntity.gov gov) = some gov := rfl
  cases delta with
  | committeeAuth inner =>
      rcases effect_of_project committeeAuth isState (fun _ => rfl) done with
        ⟨applied, reached, innerEq, rfl⟩
      rcases bind_eq_ok.mp innerEq with ⟨⟨created, after⟩, pushed, same⟩
      rcases Prod.mk.inj (Except.ok.inj same) with ⟨-, rfl⟩
      rcases numDormantEpochs_pushAuth pushed with ⟨state, rfl, kept⟩
      exact ⟨state, rfl, kept⟩
  | committeeResign inner =>
      rcases effect_of_project committeeResign isState (fun _ => rfl) done with
        ⟨applied, reached, innerEq, rfl⟩
      rcases bind_eq_ok.mp innerEq with ⟨⟨created, after⟩, pushed, same⟩
      rcases Prod.mk.inj (Except.ok.inj same) with ⟨-, rfl⟩
      rcases numDormantEpochs_pushAuth pushed with ⟨state, rfl, kept⟩
      exact ⟨state, rfl, kept⟩
  | govDormancyReset inner => exact absurd rfl (noReset inner)
  | _ => cases isGov

theorem hasDormant_reset {reset : GovDormancyReset} {dormantEpochs : ℕ}
    (done : effect (govDormancyReset reset) row = .ok next)
    (held : HasDormant dormantEpochs row) : HasDormant 0 next := by
  rcases held with ⟨gov, rfl, rfl⟩
  have isState : project (CardanoEntity.gov gov) = some gov := rfl
  rcases effect_of_project govDormancyReset isState (fun _ => rfl) done with
    ⟨applied, reached, innerEq, rfl⟩
  simp only [apply, expect_some, ok_bind] at innerEq
  rcases Prod.mk.inj (Except.ok.inj innerEq) with ⟨-, rfl⟩
  exact ⟨_, rfl, rfl⟩

end Singletons

section Dormant

variable [AssetDigest] {context : RollContext} {slot : ℕ} {utxos : UtxoMap MultiEraOutput}
variable {dormancy : DormancyContext} {before after : NsKey → Option CardanoEntity}

omit [AssetDigest] in
theorem notMem_of_ns {spaces : List Namespace} {space : Namespace} {deltas : List CardanoDelta}
    {delta : CardanoDelta} (within : Within spaces deltas) (isSpace : delta.ns = space)
    (outside : space ∉ spaces := by decide) : delta ∉ deltas := by
  intro member
  rw [← isSpace] at outside
  exact outside (within delta member).1

omit [AssetDigest] in
theorem reset_notMem_visitCert {order : ℕ} {cert : MultiEraCert} (reset : GovDormancyReset) :
    govDormancyReset reset ∉ (DRepStateVisitor.visitCert context slot order cert dormancy).1 := by
  intro member
  have isReset : (govDormancyReset reset).ns = .gov := rfl
  rcases List.mem_append.mp member with own | active
  · rcases List.mem_append.mp own with committee | certified
    · rcases List.mem_append.mp committee with auth | resign
      · rcases Option.mem_map.mp (Option.mem_toList.mp auth) with ⟨found, -, same⟩
        cases same
      · rcases Option.mem_map.mp (Option.mem_toList.mp resign) with ⟨found, -, same⟩
        cases same
    · exact absurd certified
        (notMem_of_ns (within_drepDeltas context slot order dormancy cert) isReset)
  · rcases Option.mem_map.mp (Option.mem_toList.mp active) with ⟨drep, -, same⟩
    cases same

/-- Only a release resets the count. -/
theorem reset_notMem_afterRelease (tx : MultiEraTx × ℕ) (reset : GovDormancyReset) :
    govDormancyReset reset ∉ afterRelease context slot utxos dormancy tx := by
  intro member
  have isReset : (govDormancyReset reset).ns = .gov := rfl
  have isGov : (govDormancyReset reset).ns ∈ drepSpaces := List.mem_cons_of_mem _ List.mem_cons_self
  rcases List.mem_append.mp member with outer | body
  · rcases List.mem_append.mp outer with inner | outputs
    · rcases List.mem_append.mp inner with voters | inputs
      · split_ifs at voters
        · simp at voters
        · rcases List.mem_flatMap.mp voters with ⟨votes, -, voter⟩
          exact absurd voter (notMem_of_ns (within_voter context slot dormancy votes.1) isReset)
      · exact absurd inputs (notMem_of_ns (within_inputs utxos tx.1) isReset)
    · have within := within_outputs context tx.1 (DatumVisitor.visitTx tx.1)
      exact absurd outputs (notMem_of_ns within isReset)
  · split_ifs at body
    · rw [mem_body_drep context slot isGov] at body
      rcases List.mem_flatMap.mp body with ⟨cert, -, certified⟩
      exact reset_notMem_visitCert reset certified
    · simp at body

omit [AssetDigest] in
theorem hasDormant_releaseOf {tx : MultiEraTx}
    (ran : runOn key effect (releaseOf context tx dormancy).1 before = .ok after)
    (held : HasDormant dormancy.dormantEpochs (before GovState.nsKey)) :
    HasDormant (releaseOf context tx dormancy).2.dormantEpochs (after GovState.nsKey) := by
  unfold releaseOf DRepStateVisitor.release at ran ⊢
  split_ifs at ran ⊢ with skipped opens
  · rcases Except.ok.inj ran with rfl
    exact held
  · rw [runOn_append_iff] at ran
    rcases ran with ⟨released, ranReleases, ranReset⟩
    have within : Within [.dreps]
        (releases context dormancy.dormantEpochs dormancy.releaseTargets) :=
      Within.map fun _ => ⟨List.mem_singleton.mpr rfl, trivial⟩
    have outside : Namespace.gov ∉ [Namespace.dreps] := by decide
    have isGov : (ofLex GovState.nsKey).1 = Namespace.gov := rfl
    rw [← runOn_outside within ranReleases isGov outside] at held
    rcases bind_eq_ok.mp ranReset with ⟨next, acted, ended⟩
    rcases Except.ok.inj ended with rfl
    have isKey : key (govDormancyReset .new) = GovState.nsKey := rfl
    rw [isKey] at acted ⊢
    rw [Function.update_self]
    exact hasDormant_reset acted held
  · rcases Except.ok.inj ran with rfl
    exact held

theorem hasDormant_tx {tx : MultiEraTx × ℕ}
    (ran : runOn key effect (txDeltas context slot utxos dormancy tx) before = .ok after)
    (held : HasDormant dormancy.dormantEpochs (before GovState.nsKey)) :
    HasDormant (txDormancy context slot dormancy tx.1).dormantEpochs (after GovState.nsKey) := by
  rw [txDeltas_eq_release, runOn_append_iff] at ran
  rcases ran with ⟨released, ranRelease, ranRest⟩
  rw [count_txDormancy]
  refine runOn_keeps (P := HasDormant _) ?_ ranRest (hasDormant_releaseOf ranRelease held)
  intro delta member here row next done counted
  refine hasDormant_effect ?_ ?_ done counted
  · rw [ns, here]
    rfl
  · rintro reset rfl
    exact reset_notMem_afterRelease tx reset member

theorem hasDormant_txs {txs : List (MultiEraTx × ℕ)}
    (ran : runOn key effect (txsDeltas context slot utxos dormancy txs) before = .ok after)
    (held : HasDormant dormancy.dormantEpochs (before GovState.nsKey)) :
    HasDormant (txsDormancy context slot dormancy txs).dormantEpochs (after GovState.nsKey) := by
  induction txs generalizing dormancy before with
  | nil =>
      rcases Except.ok.inj ran with rfl
      exact held
  | cons tx rest ih =>
      rw [txsDeltas, runOn_append_iff] at ran
      rcases ran with ⟨middle, ranFirst, ranRest⟩
      exact ih ranRest (hasDormant_tx ranFirst held)

/-- The count in the store goes along with the one of the context. -/
theorem hasDormant_block {block : DecodedBlock}
    (ran : runOn key effect (blockDeltas context utxos dormancy block) before = .ok after)
    (held : HasDormant dormancy.dormantEpochs (before GovState.nsKey)) :
    HasDormant (txsDormancy context block.slot dormancy block.txs.zipIdx).dormantEpochs
      (after GovState.nsKey) := by
  have isGov : (ofLex GovState.nsKey).1 = Namespace.gov := rfl
  rw [blockDeltas_eq_tail, runOn_append_iff] at ran
  rcases ran with ⟨opened, ranRoot, ran⟩
  rw [runOn_append_iff] at ran
  rcases ran with ⟨crawled, ranTxs, ranTail⟩
  rw [← runOn_outside (within_poolRoot context block) ranRoot isGov (by decide)] at held
  rw [runOn_outside (within_blockTail block) ranTail isGov (by decide)]
  exact hasDormant_txs ranTxs held

/-- A block leaves the parameters in force. -/
theorem hasPParams_block {block : DecodedBlock} {pparams : EpochValue PParamsSet}
    (ran : runOn key effect (blockDeltas context utxos dormancy block) before = .ok after)
    (held : HasPParams pparams (before EpochState.nsKey)) :
    HasPParams pparams (after EpochState.nsKey) := by
  refine runOn_keeps (P := HasPParams pparams) ?_ ran held
  intro delta _ here row next done inForce
  refine hasPParams_effect ?_ done inForce
  rw [ns, here]
  rfl

end Dormant

section Records

variable [AssetDigest] {context : RollContext} {slot : ℕ} {utxos : UtxoMap MultiEraOutput}
variable {dormancy : DormancyContext} {id : EntityKey}

omit [NonceCrypto] [AssetDigest] in
theorem DRep.entityKey_lt_rangeEnd (drep : DRep) : drep.entityKey < EntityKey.rangeEnd := by
  rw [Fin.lt_def]
  cases drep with
  | key hash =>
      have bound := hash.isLt
      simp only [DRep.entityKey, EntityKey.rangeEnd]
      omega
  | script hash =>
      have bound := hash.isLt
      simp only [DRep.entityKey, EntityKey.rangeEnd]
      omega
  | abstain => decide
  | noConfidence => decide

omit [NonceCrypto] [AssetDigest] in
theorem lt_rangeEnd_of_registers {cert : MultiEraCert} (registers : id ∈ cert.registersDRep) :
    id < EntityKey.rangeEnd := by
  unfold MultiEraCert.registersDRep at registers
  split at registers
  · cases registers
    exact DRep.entityKey_lt_rangeEnd _
  · cases registers

omit [NonceCrypto] [AssetDigest] in
theorem mem_iterDRepKeys {entities : OrderedMap NsKey CardanoEntity} :
    id ∈ iterDRepKeys entities ↔
      id < EntityKey.rangeEnd ∧ (entities.get? (toLex (.dreps, id))).isSome := by
  simp only [iterDRepKeys, List.mem_map, List.mem_filter, decide_eq_true_eq,
    OrderedMap.mem_keys_iff]
  constructor
  · rintro ⟨index, ⟨held, isDRep, bound⟩, rfl⟩
    rw [← isDRep]
    exact ⟨bound, held⟩
  · rintro ⟨bound, held⟩
    exact ⟨toLex (.dreps, id), ⟨held, rfl, bound⟩, rfl⟩

omit [NonceCrypto] [AssetDigest] in
/-- A row is there when it is one of a representative. -/
theorem isSome_drepAt {rows : NsKey → Option CardanoEntity} (typed : WellTyped rows) :
    (drepAt rows id).isSome = (rows (toLex (.dreps, id))).isSome := by
  rcases exists_map_inject (E := DRepState) (typed (toLex (.dreps, id))) with ⟨state, isRow⟩
  rw [drepAt, isRow, bind_project_map_inject, Option.isSome_map]

variable {before after : NsKey → Option CardanoEntity}

omit [AssetDigest] in
theorem isSome_drepAt_runOn {deltas : List CardanoDelta}
    (ran : runOn key effect deltas before = .ok after) (held : (drepAt before id).isSome) :
    (drepAt after id).isSome := by
  refine runOn_keeps (P := fun row => (row.bind (project (E := DRepState))).isSome) ?_ ran held
  intro delta _ here row next done isThere
  have isDRep : delta.ns = .dreps := by
    rw [ns, here]
    rfl
  rcases exists_asDRep isDRep with ⟨rowDelta, isRow⟩
  exact DRepDelta.isSome_apply (drepAt_effect isRow done) (.inl isThere)

omit [AssetDigest] in
/-- A registration leaves a row. -/
theorem isSome_drepAt_registered {deltas : List CardanoDelta} {registered : DRepRegistration}
    (ran : runOn key effect deltas before = .ok after)
    (member : drepRegistration registered ∈ deltas)
    (isKey : key (drepRegistration registered) = toLex (.dreps, id)) :
    (drepAt after id).isSome := by
  rcases List.append_of_mem member with ⟨earlier, later, rfl⟩
  rw [runOn_append_iff] at ran
  rcases ran with ⟨middle, -, ranLater⟩
  rcases bind_eq_ok.mp ranLater with ⟨next, acted, ranRest⟩
  refine isSome_drepAt_runOn ranRest ?_
  have isRow : (drepRegistration registered).asDRep = some (.registration registered) := rfl
  rw [drepAt, isKey, Function.update_self]
  exact DRepDelta.isSome_apply (drepAt_effect isRow acted) (.inr ⟨registered, rfl⟩)

/-- A registration that takes effect is among the deltas. -/
theorem exists_registration_tx {tx : MultiEraTx × ℕ}
    (registers : id ∈ registeredBy tx.1.effectiveCerts) :
    ∃ registered, drepRegistration registered ∈ txDeltas context slot utxos dormancy tx ∧
      key (drepRegistration registered) = toLex (.dreps, id) := by
  rcases List.mem_filterMap.mp registers with ⟨cert, isCert, isRegistered⟩
  have valid : tx.1.isValid = true := by
    by_contra invalid
    rw [MultiEraTx.effectiveCerts, if_neg invalid] at isCert
    simp at isCert
  rw [MultiEraTx.effectiveCerts, if_pos valid] at isCert
  unfold MultiEraCert.registersDRep at isRegistered
  split at isRegistered
  · next cred deposit anchor =>
      cases isRegistered
      refine ⟨.new (stakeCredToDRep cred) slot tx.2 deposit.toNat anchor, ?_, rfl⟩
      rw [mem_tx_drep context slot utxos List.mem_cons_self]
      refine List.mem_append_right _ ?_
      rw [if_pos valid]
      refine List.mem_flatMap.mpr ⟨_, isCert, ?_⟩
      refine List.mem_append_left _ (List.mem_append_right _ ?_)
      exact List.mem_cons_self
  · cases isRegistered

theorem exists_registration_txs {txs : List (MultiEraTx × ℕ)}
    (registers : id ∈ registeredBy (effectiveCertsOf (txs.map Prod.fst))) :
    ∃ registered, drepRegistration registered ∈ txsDeltas context slot utxos dormancy txs ∧
      key (drepRegistration registered) = toLex (.dreps, id) := by
  induction txs generalizing dormancy with
  | nil => simp [effectiveCertsOf, registeredBy] at registers
  | cons tx rest ih =>
      rw [List.map_cons, effectiveCertsOf, List.flatMap_cons, registeredBy_append] at registers
      rcases List.mem_append.mp registers with first | later
      · rcases exists_registration_tx first with ⟨registered, member, isKey⟩
        exact ⟨registered, List.mem_append_left _ member, isKey⟩
      · rcases ih later with ⟨registered, member, isKey⟩
        exact ⟨registered, List.mem_append_right _ member, isKey⟩

theorem isSome_drepAt_block {block : DecodedBlock}
    (ran : runOn key effect (blockDeltas context utxos dormancy block) before = .ok after)
    (registers : id ∈ registeredBy block.effectiveCerts) : (drepAt after id).isSome := by
  have certs : effectiveCertsOf (block.txs.zipIdx.map Prod.fst) = block.effectiveCerts := by
    rw [List.zipIdx_map_fst]
    rfl
  rw [← certs] at registers
  rcases exists_registration_txs registers with ⟨registered, member, isKey⟩
  refine isSome_drepAt_registered ran ?_ isKey
  rw [blockDeltas_eq_tail]
  exact List.mem_append_right _ (List.mem_append_left _ member)

end Records

section Loads

variable [AssetDigest] {context : RollContext} {utxos : UtxoMap MultiEraOutput}
variable {before after : OrderedMap NsKey CardanoEntity} {block : DecodedBlock}
variable {dormancy : DormancyContext}

omit [NonceCrypto] [AssetDigest] in
theorem loadDormancy_eq_ok {entities : OrderedMap NsKey CardanoEntity} :
    loadDormancy entities = .ok dormancy ↔
      HasDormant dormancy.dormantEpochs (entities.get? GovState.nsKey) ∧
        dormancy.drepKeys = (if dormancy.dormantEpochs > 0 then iterDRepKeys entities else []) ∧
        dormancy.batchRegistrations = [] := by
  rw [loadDormancy, bind_eq_ok]
  constructor
  · rintro ⟨gov, govEq, same⟩
    rcases Except.ok.inj same with rfl
    unfold loadGov at govEq
    split at govEq
    · next state held =>
        rcases Except.ok.inj govEq with rfl
        exact ⟨⟨state, held, rfl⟩, rfl, rfl⟩
    · cases govEq
    · cases govEq
  · rintro ⟨⟨gov, held, count⟩, keys, registrations⟩
    refine ⟨gov, ?_, ?_⟩
    · rw [loadGov, held]
    · rcases dormancy with ⟨dormantEpochs, drepKeys, batchRegistrations⟩
      simp only at count keys registrations
      rw [count, keys, registrations]

omit [NonceCrypto] [AssetDigest] in
theorem txsDormancy_lasting {slot : ℕ} {txs : List (MultiEraTx × ℕ)}
    (lasts : 0 < (txsDormancy context slot dormancy txs).dormantEpochs) :
    0 < dormancy.dormantEpochs ∧
      ∀ id, id ∈ (txsDormancy context slot dormancy txs).releaseTargets ↔
        id ∈ dormancy.releaseTargets ∨
          id ∈ registeredBy (effectiveCertsOf (txs.map Prod.fst)) := by
  induction txs generalizing dormancy with
  | nil =>
      refine ⟨lasts, ?_⟩
      intro id
      simp [effectiveCertsOf, registeredBy, txsDormancy]
  | cons tx rest ih =>
      rcases ih lasts with ⟨lasted, later⟩
      rcases txDormancy_lasting lasted with ⟨first, once⟩
      refine ⟨first, ?_⟩
      intro id
      rw [List.map_cons, effectiveCertsOf, List.flatMap_cons, registeredBy_append,
        List.mem_append, ← or_assoc, ← once]
      exact later id

/-- A context loaded after a block agrees with the one that the block before has left, and
knows of everyone it knows of. -/
theorem exists_loadDormancy (typed : WellTyped before.get?)
    (loaded : loadDormancy before = .ok dormancy)
    (updates : UpdatesKnown (iterDRepKeys before) block.effectiveCerts)
    (ran : runOn key effect (blockDeltas context utxos dormancy block) before.get? =
      .ok after.get?) :
    (∀ id ∈ iterDRepKeys before ++ registeredBy block.effectiveCerts, id ∈ iterDRepKeys after) ∧
      ∃ reached, loadDormancy after = .ok reached ∧
        (txsDormancy context block.slot dormancy block.txs.zipIdx).Agrees
          (iterDRepKeys before ++ registeredBy block.effectiveCerts) after.get? reached := by
  have afterTyped := wellTyped_runOn (within_block context utxos dormancy block) typed ran
  have kept : ∀ id ∈ iterDRepKeys before ++ registeredBy block.effectiveCerts,
      id ∈ iterDRepKeys after := by
    intro id member
    rw [mem_iterDRepKeys, ← isSome_drepAt afterTyped]
    rcases List.mem_append.mp member with held | registers
    · rw [mem_iterDRepKeys, ← isSome_drepAt typed] at held
      exact ⟨held.1, isSome_drepAt_runOn ran held.2⟩
    · rcases List.mem_filterMap.mp registers with ⟨cert, -, isRegistered⟩
      exact ⟨lt_rangeEnd_of_registers isRegistered, isSome_drepAt_block ran registers⟩
  refine ⟨kept, ?_⟩
  rcases loadDormancy_eq_ok.mp loaded with ⟨held, keys, registrations⟩
  let wider : DormancyContext := { dormancy with drepKeys := iterDRepKeys after }
  have agrees : dormancy.Agrees (iterDRepKeys before) before.get? wider := by
    refine ⟨rfl, ?_⟩
    intro lasts id
    rw [if_pos lasts] at keys
    rw [DormancyContext.mem_releaseTargets, DormancyContext.mem_releaseTargets, keys,
      registrations, List.append_nil, List.append_nil]
    by_cases recorded : id ∈ iterDRepKeys before
    · exact .inl (iff_of_true recorded (kept id (List.mem_append_left _ recorded)))
    · by_cases appears : id ∈ iterDRepKeys after
      · refine .inr ⟨recorded, ?_⟩
        have absent : (drepAt before.get? id).isSome = false := by
          rw [isSome_drepAt typed]
          by_contra present
          exact recorded (mem_iterDRepKeys.mpr
            ⟨(mem_iterDRepKeys.mp appears).1, eq_true_of_ne_false present⟩)
        rw [Option.isSome_eq_false_iff, Option.isNone_iff_eq_none] at absent
        intro state isState
        rw [absent] at isState
        cases isState
      · exact .inl (iff_of_false recorded appears)
  have through := agrees.afterBlock updates ran
  let count := (txsDormancy context block.slot dormancy block.txs.zipIdx).dormantEpochs
  let reached : DormancyContext := ⟨count, if count > 0 then iterDRepKeys after else [], []⟩
  refine ⟨reached, ?_, rfl, ?_⟩
  · exact loadDormancy_eq_ok.mpr ⟨hasDormant_block ran held, rfl, rfl⟩
  · intro lasts id
    have targets : id ∈ reached.releaseTargets ↔ id ∈ iterDRepKeys after := by
      rw [DormancyContext.mem_releaseTargets, List.append_nil]
      exact iff_of_eq (congrArg (id ∈ ·) (if_pos lasts))
    have widerLasts :
        0 < (txsDormancy context block.slot wider block.txs.zipIdx).dormantEpochs := by
      rw [through.count]
      exact lasts
    have widerTargets := (txsDormancy_lasting widerLasts).2 id
    have certs : effectiveCertsOf (block.txs.zipIdx.map Prod.fst) = block.effectiveCerts := by
      rw [List.zipIdx_map_fst]
      rfl
    have known : id ∈ wider.releaseTargets ↔ id ∈ iterDRepKeys after := by
      rw [DormancyContext.mem_releaseTargets]
      simp [wider, registrations]
    rw [certs, known,
      or_iff_left_of_imp fun registers => kept id (List.mem_append_right _ registers)]
      at widerTargets
    rw [targets, ← widerTargets]
    exact through.targets lasts id

end Loads

end Dolos
