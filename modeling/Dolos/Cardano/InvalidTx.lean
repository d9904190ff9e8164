import Dolos.Cardano.CrawlSpec

/-!
# Transactions whose scripts fail

A phase-2-invalid transaction moves its collateral and pays its fee. Two such
transactions that agree on these leave a block with the same deltas, but for two things
the visitors read besides: the treasury donation, which is counted without a look at the
validity, and the witness of the datum that the collateral return refers to.
-/

namespace Dolos

open Outcome DeltaBuilder EntityDelta

/-- What an invalid transaction may be known by: its identity, its collateral inputs and
return, and the fee it pays. -/
structure SameCollateral (utxos : UtxoMap MultiEraOutput) (tx other : MultiEraTx) : Prop where
  hash : other.hash = tx.hash
  consumes : other.consumes = tx.consumes
  produces : other.produces = tx.produces
  fee : EpochStateVisitor.defineTxFees other utxos = EpochStateVisitor.defineTxFees tx utxos

/-- The datums behind the produced outputs are witnessed alike. -/
def SameWitnesses (tx other : MultiEraTx) : Prop :=
  ∀ output ∈ tx.produces, ∀ hash, output.2.datum = some (.hash hash) →
    (DatumVisitor.visitTx other).get? hash = (DatumVisitor.visitTx tx).get? hash

/-- Statistics with a donation more. -/
def donate (donation : UInt64) (stats : EpochStatsUpdate) : EpochStatsUpdate :=
  { stats with treasuryDonations := stats.treasuryDonations + donation }

section Donations

variable (utxos : UtxoMap MultiEraOutput) (donation : UInt64)

theorem foldl_donate {ι : Type} (change : EpochStatsUpdate → ι → EpochStatsUpdate)
    (commutes : ∀ item stats, change (donate donation stats) item =
      donate donation (change stats item))
    (items : List ι) (stats : EpochStatsUpdate) :
    items.foldl change (donate donation stats) = donate donation (items.foldl change stats) := by
  induction items generalizing stats with
  | nil => rfl
  | cons item rest ih => rw [List.foldl_cons, commutes, ih, List.foldl_cons]

theorem bodyStats_donate (tx : MultiEraTx) (stats : EpochStatsUpdate) :
    bodyStats tx (donate donation stats) = donate donation (bodyStats tx stats) := by
  rw [bodyStats, foldl_donate donation _ (fun _ _ => rfl), foldl_donate donation _ (fun _ _ => rfl),
    foldl_donate donation _ (fun _ _ => rfl)]
  rfl

theorem visitTx_donate (tx : MultiEraTx) (fees : UInt64) (stats : EpochStatsUpdate) :
    EpochStateVisitor.visitTx tx fees (donate donation stats) =
      donate donation (EpochStateVisitor.visitTx tx fees stats) := by
  simp only [EpochStateVisitor.visitTx, donate, EpochStatsUpdate.mk.injEq, true_and, and_true]
  rw [UInt64.add_assoc, UInt64.add_comm donation, ← UInt64.add_assoc]

theorem inputStats_donate (txo : TxoRef) (stats : EpochStatsUpdate) :
    inputStats utxos txo (donate donation stats) =
      donate donation (inputStats utxos txo stats) := by
  cases held : utxos.get? txo with
  | none => simp [inputStats, held]
  | some resolved =>
      simp only [inputStats, held, Option.map_some, Option.getD_some]
      rfl

/-- What was donated earlier does not show in what a transaction counts. -/
theorem txStats_donate (tx : MultiEraTx) (stats : EpochStatsUpdate) :
    txStats utxos tx (donate donation stats) = donate donation (txStats utxos tx stats) := by
  rw [txStats, visitTx_donate, foldl_donate donation _ (inputStats_donate utxos donation),
    foldl_donate donation _ (fun _ _ => rfl), txStats]
  split_ifs
  · exact bodyStats_donate donation tx _
  · rfl

theorem txsStats_donate (txs : List (MultiEraTx × ℕ)) (stats : EpochStatsUpdate) :
    txsStats utxos (donate donation stats) txs = donate donation (txsStats utxos stats txs) :=
  foldl_donate donation _ (fun tx stats => txStats_donate utxos donation tx.1 stats) txs stats

end Donations

section Invalid

variable {context : RollContext} {utxos : UtxoMap MultiEraOutput} {slot : ℕ}
variable {tx other : MultiEraTx}

theorem drepVisit_of_invalid (failed : tx.isValid = false) (dormancy : DormancyContext) :
    DRepStateVisitor.visitTx context slot tx dormancy = ([], dormancy) := by
  simp [DRepStateVisitor.visitTx, failed]

theorem votes_of_invalid (failed : tx.isValid = false) : ProposalVisitor.visitTx slot tx = [] := by
  simp [ProposalVisitor.visitTx, failed]

theorem txDormancy_of_invalid (failed : tx.isValid = false) (dormancy : DormancyContext) :
    txDormancy context slot dormancy tx = dormancy := by
  simp [txDormancy, drepVisit_of_invalid failed, failed]

/-- The statistics of an invalid transaction: what the other one counts, and the
difference of the donations. -/
theorem txStats_of_invalid (failed : tx.isValid = false) (otherFailed : other.isValid = false)
    (same : SameCollateral utxos tx other) (stats : EpochStatsUpdate) :
    txStats utxos other stats =
      donate (other.treasuryDonation.getD 0 - tx.treasuryDonation.getD 0)
        (txStats utxos tx stats) := by
  have visited : EpochStateVisitor.visitTx other
        (valueOr 0 (EpochStateVisitor.defineTxFees other utxos)) stats =
      donate (other.treasuryDonation.getD 0 - tx.treasuryDonation.getD 0)
        (EpochStateVisitor.visitTx tx (valueOr 0 (EpochStateVisitor.defineTxFees tx utxos))
          stats) := by
    simp only [EpochStateVisitor.visitTx, donate, EpochStatsUpdate.mk.injEq, same.fee, true_and,
      and_true]
    rw [UInt64.add_assoc, UInt64.add_comm (tx.treasuryDonation.getD 0), UInt64.sub_add_cancel]
  rw [txStats, visited, same.consumes, same.produces,
    foldl_donate _ _ (inputStats_donate utxos _), foldl_donate _ _ (fun _ _ => rfl), txStats]
  simp [failed, otherFailed]

theorem txFits_of_invalid (otherFailed : other.isValid = false)
    (same : SameCollateral utxos tx other) {order : ℕ}
    (fits : TxFits context slot utxos (tx, order)) : TxFits context slot utxos (other, order) := by
  refine ⟨?_, ?_, ?_, ?_⟩
  · rw [same.fee]
    exact fits.fees
  · rw [same.consumes]
    exact fits.inputs
  · rw [same.produces]
    exact fits.outputs
  · intro valid
    simp [otherFailed] at valid

variable [AssetDigest]

theorem txDeltas_of_invalid (failed : tx.isValid = false) (dormancy : DormancyContext)
    (order : ℕ) :
    txDeltas context slot utxos dormancy (tx, order) =
      tx.consumes.flatMap (inputDeltas utxos) ++
        tx.produces.flatMap (outputDeltas context tx.hash (DatumVisitor.visitTx tx)) := by
  simp [txDeltas, drepVisit_of_invalid failed, failed]

/-- The deltas of two invalid transactions differ in what their witnesses add for the
produced outputs. -/
theorem txDeltas_of_sameWitnesses (failed : tx.isValid = false)
    (otherFailed : other.isValid = false) (same : SameCollateral utxos tx other)
    (witnesses : SameWitnesses tx other) (dormancy : DormancyContext) (order : ℕ) :
    txDeltas context slot utxos dormancy (other, order) =
      txDeltas context slot utxos dormancy (tx, order) := by
  rw [txDeltas_of_invalid failed, txDeltas_of_invalid otherFailed, same.consumes, same.produces,
    same.hash]
  congr 1
  apply List.flatMap_congr
  intro output member
  have datumEq : DatumVisitor.visitOutput (DatumVisitor.visitTx other) output.2 =
      DatumVisitor.visitOutput (DatumVisitor.visitTx tx) output.2 := by
    have agree := witnesses output member
    unfold DatumVisitor.visitOutput
    split
    · next hash datum => rw [agree hash datum]
    · rfl
  rw [outputDeltas, outputDeltas, datumEq]

end Invalid

section Blocks

variable {context : RollContext} {utxos : UtxoMap MultiEraOutput}
variable {dormancy : DormancyContext} {block : DecodedBlock} {before after : List MultiEraTx}
variable {tx other : MultiEraTx}

theorem SameCollateral.refl (utxos : UtxoMap MultiEraOutput) (tx : MultiEraTx) :
    SameCollateral utxos tx tx := ⟨rfl, rfl, rfl, rfl⟩

theorem donate_zero (stats : EpochStatsUpdate) : donate 0 stats = stats := by
  simp [donate]

theorem eq_zero_of_donate {donation : UInt64} {stats : EpochStatsUpdate}
    (same : donate donation stats = stats) : donation = 0 := by
  have donationsEq := congrArg EpochStatsUpdate.treasuryDonations same
  simpa [donate] using donationsEq

theorem blockFits_of_invalid (otherFailed : other.isValid = false)
    (same : SameCollateral utxos tx other)
    (fits : BlockFits context utxos { block with txs := before ++ tx :: after }) :
    BlockFits context utxos { block with txs := before ++ other :: after } := by
  refine ⟨fits.nonces, ?_⟩
  intro visited member
  have each := fits.txs
  simp only [List.zipIdx_append, List.zipIdx_cons, List.mem_append, List.mem_cons] at each member
  rcases member with isEarlier | isTx | isLater
  · exact each visited (Or.inl isEarlier)
  · subst isTx
    exact txFits_of_invalid otherFailed same (each _ (Or.inr (Or.inl rfl)))
  · exact each visited (Or.inr (Or.inr isLater))

theorem txsDormancy_of_invalid (failed : tx.isValid = false) (slot : ℕ) :
    txsDormancy context slot dormancy (before ++ tx :: after).zipIdx =
      txsDormancy context slot dormancy (before.zipIdx ++ after.zipIdx (before.length + 1)) := by
  simp [txsDormancy, List.zipIdx_append, txDormancy_of_invalid failed]

theorem view_of_sameCollateral (same : SameCollateral utxos tx other) :
    DecodedBlock.view { block with txs := before ++ other :: after } =
      DecodedBlock.view { block with txs := before ++ tx :: after } := by
  have viewEq : other.view = tx.view := by
    simp [MultiEraTx.view, same.hash, same.produces, same.consumes]
  simp [DecodedBlock.view, viewEq]

variable [AssetDigest]

/-- Around an invalid transaction, the deltas of a block are the same for every
transaction with its collateral; only the donation moves the statistics. -/
theorem exists_frame (context : RollContext) (utxos : UtxoMap MultiEraOutput)
    (dormancy : DormancyContext) (block : DecodedBlock) (before after : List MultiEraTx)
    (failed : tx.isValid = false) :
    ∃ reached head middle stats tail, ∀ candidate, candidate.isValid = false →
      SameCollateral utxos tx candidate →
        blockDeltas context utxos dormancy { block with txs := before ++ candidate :: after } =
          head ++ txDeltas context block.slot utxos reached (candidate, before.length) ++ middle ++
            [.epochStatsUpdate (donate
              (candidate.treasuryDonation.getD 0 - tx.treasuryDonation.getD 0) stats)] ++ tail := by
  let first := before.zipIdx
  let last := after.zipIdx (before.length + 1)
  let reached := txsDormancy context block.slot dormancy first
  let counted := txStats utxos tx
    (txsStats utxos (EpochStateVisitor.rootStats context block) first)
  refine ⟨reached,
    PoolStateVisitor.visitRoot context block ++ txsDeltas context block.slot utxos dormancy first,
    txsDeltas context block.slot utxos reached last ++
      (block.update.map (ProposalVisitor.visitUpdate context block.slot block.hash)).toList,
    txsStats utxos counted last,
    ((valueOr none (EpochStateVisitor.rootNonces block)).map .noncesUpdate).toList ++
      ((first ++ last).flatMap fun visited =>
        ProposalVisitor.visitTx block.slot visited.1).map .voteCast, ?_⟩
  intro candidate candidateFailed same
  have split : (before ++ candidate :: after).zipIdx =
      first ++ (candidate, before.length) :: last := by
    simp [first, last, List.zipIdx_append]
  have statsEq : txsStats utxos (EpochStateVisitor.rootStats context block)
        (first ++ (candidate, before.length) :: last) =
      donate (candidate.treasuryDonation.getD 0 - tx.treasuryDonation.getD 0)
        (txsStats utxos counted last) := by
    rw [txsStats, List.foldl_append, List.foldl_cons,
      txStats_of_invalid failed candidateFailed same]
    exact txsStats_donate utxos _ last counted
  rw [blockDeltas_eq]
  change PoolStateVisitor.visitRoot context block ++
    txsDeltas context block.slot utxos dormancy (before ++ candidate :: after).zipIdx ++ _ ++
      [CardanoDelta.epochStatsUpdate (txsStats utxos (EpochStateVisitor.rootStats context block)
        (before ++ candidate :: after).zipIdx)] ++ _ ++
      ((before ++ candidate :: after).zipIdx.flatMap fun visited =>
        ProposalVisitor.visitTx block.slot visited.1).map .voteCast = _
  rw [split, statsEq, txsDeltas_append, txsDeltas, txDormancy_of_invalid candidateFailed]
  simp [reached, votes_of_invalid candidateFailed, EpochStateVisitor.rootNonces]

section Told

variable [NonceCrypto]

omit [AssetDigest] in
theorem ns_of_mem_visitOutput {witnesses : OrderedMap BlockHash (List UInt8)}
    {output : MultiEraOutput} {delta : CardanoDelta}
    (member : delta ∈ DatumVisitor.visitOutput witnesses output) :
    ∃ hash, output.datum = some (.hash hash) ∧ key delta = DatumState.nsKey hash := by
  unfold DatumVisitor.visitOutput at member
  split at member
  · next hash datum =>
      split at member
      · rw [List.mem_singleton.mp member]
        exact ⟨hash, datum, rfl⟩
      · simp at member
  · simp at member

omit [AssetDigest] [NonceCrypto] in
/-- What is added for an output tells what its datum is witnessed by. -/
theorem get?_eq_of_visitOutput {witnesses others : OrderedMap BlockHash (List UInt8)}
    {output : MultiEraOutput} {hash : BlockHash} (datum : output.datum = some (.hash hash))
    (same : DatumVisitor.visitOutput others output = DatumVisitor.visitOutput witnesses output) :
    others.get? hash = witnesses.get? hash := by
  simp only [DatumVisitor.visitOutput, datum] at same
  cases held : witnesses.get? hash with
  | none =>
      cases otherHeld : others.get? hash with
      | none => rfl
      | some bytes => simp [held, otherHeld] at same
  | some bytes =>
      cases otherHeld : others.get? hash with
      | none => simp [held, otherHeld] at same
      | some otherBytes => simpa [held, otherHeld, DatumRefIncrement.new] using same

/-- The deltas of an entity other than a datum do not tell the witnesses. -/
theorem filter_txDeltas_congr (failed : tx.isValid = false) (otherFailed : other.isValid = false)
    (same : SameCollateral utxos tx other) {index : NsKey}
    (noDatum : ∀ hash, index ≠ DatumState.nsKey hash) (slot order : ℕ) :
    (txDeltas context slot utxos dormancy (other, order)).filter (fun delta => key delta = index) =
      (txDeltas context slot utxos dormancy (tx, order)).filter fun delta => key delta = index := by
  have without : ∀ witnesses (output : ℕ × MultiEraOutput),
      (outputDeltas context tx.hash witnesses output).filter (fun delta => key delta = index) =
        (valueOr [] (AccountVisitor.visitOutput context output.2) ++
          AssetStateVisitor.visitOutput tx.hash output.2).filter
            fun delta => key delta = index := by
    intro witnesses output
    rw [outputDeltas, List.filter_append]
    have none : (DatumVisitor.visitOutput witnesses output.2).filter
        (fun delta => key delta = index) = [] := by
      apply List.filter_eq_nil_iff.mpr
      intro delta member
      rcases ns_of_mem_visitOutput member with ⟨hash, -, keyEq⟩
      simpa [keyEq] using Ne.symm (noDatum hash)
    rw [none, List.append_nil]
  rw [txDeltas_of_invalid failed, txDeltas_of_invalid otherFailed, same.consumes, same.produces,
    same.hash]
  simp only [List.filter_append, List.filter_flatMap, without]

/-- The deltas of a datum tell its witness. -/
theorem sameWitnesses_of_filter (failed : tx.isValid = false) (otherFailed : other.isValid = false)
    (same : SameCollateral utxos tx other) {slot order : ℕ}
    (agree : ∀ hash,
      (txDeltas context slot utxos dormancy (other, order)).filter
          (fun delta => key delta = DatumState.nsKey hash) =
        (txDeltas context slot utxos dormancy (tx, order)).filter
          fun delta => key delta = DatumState.nsKey hash) :
    SameWitnesses tx other := by
  intro output member hash datum
  have single : tx.produces = [output] := by
    simp only [MultiEraTx.produces, failed, Bool.false_eq_true, if_false] at member ⊢
    cases returned : tx.collateralReturn with
    | none => simp [returned] at member
    | some body =>
        simp only [returned, Option.toList_some, List.map_cons, List.map_nil,
          List.mem_singleton] at member ⊢
        rw [member]
  have kept : ∀ witnesses : OrderedMap BlockHash (List UInt8),
      (DatumVisitor.visitOutput witnesses output.2).filter
        (fun delta => key delta = DatumState.nsKey hash) =
          DatumVisitor.visitOutput witnesses output.2 := by
    intro witnesses
    apply List.filter_eq_self.mpr
    intro delta isDelta
    rcases ns_of_mem_visitOutput isDelta with ⟨found, foundDatum, keyEq⟩
    rw [datum] at foundDatum
    simp only [Option.some.injEq, DatumOption.hash.injEq] at foundDatum
    simp [keyEq, foundDatum]
  have filtered := agree hash
  rw [txDeltas_of_invalid failed, txDeltas_of_invalid otherFailed, same.consumes, same.produces,
    same.hash, single] at filtered
  simp only [List.flatMap_cons, List.flatMap_nil, List.append_nil, outputDeltas,
    List.filter_append, List.append_cancel_left_eq, kept] at filtered
  exact get?_eq_of_visitOutput datum filtered

/-- Two invalid transactions with the same collateral in the same place of a block give
the same deltas, statistics and outputs exactly when they donate as much to the treasury
and have the same witnesses for the datums of their collateral return. -/
theorem sameDelta_iff_donation (failed : tx.isValid = false) (otherFailed : other.isValid = false)
    (same : SameCollateral utxos tx other)
    {result : WorkBlock MultiEraOutput × DormancyContext}
    (computed : computeBlockDelta context utxos dormancy
      { block with txs := before ++ tx :: after } = .ok result) :
    computeBlockDelta context utxos dormancy { block with txs := before ++ other :: after } =
        .ok result ↔
      other.treasuryDonation.getD 0 = tx.treasuryDonation.getD 0 ∧ SameWitnesses tx other := by
  rcases result with ⟨work, reached⟩
  rcases (computeBlockDelta_eq_ok_iff context utxos).mp computed with
    ⟨fits, rfl, delta, applied, rfl⟩
  rcases exists_frame context utxos dormancy block before after failed with
    ⟨between, head, middle, stats, tail, frame⟩
  have deltasTx := frame tx failed (SameCollateral.refl utxos tx)
  have deltasOther := frame other otherFailed same
  rw [UInt64.sub_self, donate_zero] at deltasTx
  rw [computeBlockDelta_eq_ok_iff, view_of_sameCollateral same]
  constructor
  · rintro ⟨-, -, _, -, workEq⟩
    have groupsEq : ∀ index,
        (blockDeltas context utxos dormancy
            { block with txs := before ++ other :: after }).filter
              (fun delta => key delta = index) =
          (blockDeltas context utxos dormancy
            { block with txs := before ++ tx :: after }).filter fun delta => key delta = index := by
      intro index
      rw [← WorkDeltas.group_ofList, ← WorkDeltas.group_ofList]
      exact congrArg (fun work => work.deltas.group index) workEq.symm
    rw [deltasTx, deltasOther] at groupsEq
    constructor
    · have noDatum : ∀ hash, EpochState.nsKey ≠ DatumState.nsKey hash := by
        intro hash
        simp [EpochState.nsKey, DatumState.nsKey]
      have epochEq := groupsEq EpochState.nsKey
      have isEpoch : ∀ update : EpochStatsUpdate,
          key (CardanoDelta.epochStatsUpdate update) = EpochState.nsKey := fun _ => rfl
      simp only [List.filter_append, List.filter_cons, isEpoch, decide_true, if_true,
        List.filter_nil, filter_txDeltas_congr failed otherFailed same noDatum,
        List.append_cancel_right_eq, List.append_cancel_left_eq, List.cons.injEq,
        CardanoDelta.epochStatsUpdate.injEq, and_true] at epochEq
      have difference := eq_zero_of_donate epochEq
      rw [UInt64.sub_eq_iff_eq_add, UInt64.zero_add] at difference
      exact difference
    · apply sameWitnesses_of_filter failed otherFailed same
      intro hash
      have datumEq := groupsEq (DatumState.nsKey hash)
      have noStats : ∀ update : EpochStatsUpdate,
          key (CardanoDelta.epochStatsUpdate update) ≠ DatumState.nsKey hash := by
        intro update
        change EpochState.nsKey ≠ _
        simp [EpochState.nsKey, DatumState.nsKey]
      simp only [List.filter_append, List.filter_cons, noStats, decide_false, Bool.false_eq_true,
        if_false, List.filter_nil, List.append_nil, List.append_cancel_right_eq,
        List.append_cancel_left_eq] at datumEq
      exact datumEq
  · rintro ⟨donationEq, witnesses⟩
    have deltasEq : blockDeltas context utxos dormancy
          { block with txs := before ++ other :: after } =
        blockDeltas context utxos dormancy { block with txs := before ++ tx :: after } := by
      rw [deltasTx, deltasOther, donationEq, UInt64.sub_self, donate_zero,
        txDeltas_of_sameWitnesses failed otherFailed same witnesses]
    refine ⟨blockFits_of_invalid otherFailed same fits, ?_, delta, applied, ?_⟩
    · change txsDormancy context block.slot dormancy _ = txsDormancy context block.slot dormancy _
      rw [txsDormancy_of_invalid failed, txsDormancy_of_invalid otherFailed]
    · rw [deltasEq]

end Told

end Blocks

namespace FailedScript

@[reducible]
def digest : AssetDigest := ⟨fun policy _ => EntityKey.ofHash28 policy⟩

attribute [local instance] digest NonceCrypto.still

def context : RollContext := ⟨2, .default, 42, 900, 10⟩

def dormancy : DormancyContext := ⟨0, [], []⟩

def pledged : MultiEraOutput := ⟨some (.shelley (.key 5)), 5000000, [], none⟩

def returned : MultiEraOutput := ⟨some (.shelley (.key 5)), 4000000, [], none⟩

def utxos : UtxoMap MultiEraOutput := .ofList [(toLex (1, 0), pledged)]

/-- A transaction with a failed script and a donation. -/
def donating : MultiEraTx where
  era := .conway
  hash := 9
  isValid := false
  inputs := []
  outputs := []
  collateral := [toLex (1, 0)]
  collateralReturn := some returned
  totalCollateral := some 1000000
  fee := some 170000
  byronFee := 0
  mints := []
  metadata := []
  certs := []
  withdrawals := []
  update := none
  plutusData := []
  votingProcedures := none
  govProposals := []
  donation := some 7

def silent : MultiEraTx := { donating with donation := none }

/-- It differs in everything else of the body. -/
def loaded : MultiEraTx :=
  { silent with
    inputs := [toLex (2, 0)]
    certs := [.conway (.stakeRegistration (.addrKeyhash 3))]
    withdrawals := [(none, 5)]
    mints := [(7, [([1], 5)])] }

def block : DecodedBlock := ⟨1000, 4, some 3, false, some 6, none, [silent], none⟩

def donations (work : WorkBlock MultiEraOutput) : List UInt64 :=
  (work.deltas.group EpochState.nsKey).filterMap fun
    | .epochStatsUpdate stats => some stats.treasuryDonations
    | _ => none

theorem sameCollateral_donating : SameCollateral utxos silent donating := ⟨rfl, rfl, rfl, rfl⟩

theorem sameCollateral_loaded : SameCollateral utxos silent loaded := ⟨rfl, rfl, rfl, rfl⟩

/-- The donation of a transaction that failed reaches the statistics. -/
theorem donation_of_failed_counted :
    silent.isValid = false ∧ donating.isValid = false ∧ SameCollateral utxos silent donating ∧
      (computeBlockDelta context utxos dormancy { block with txs := [silent] }).map
          (fun result => donations result.1) = .ok [0] ∧
      (computeBlockDelta context utxos dormancy { block with txs := [donating] }).map
          (fun result => donations result.1) = .ok [7] :=
  ⟨rfl, rfl, sameCollateral_donating, rfl, rfl⟩

/-- Without a donation, what else is in its body makes no difference. -/
theorem loaded_as_silent :
    ∃ result,
      computeBlockDelta context utxos dormancy { block with txs := [silent] } = .ok result ∧
        computeBlockDelta context utxos dormancy { block with txs := [loaded] } = .ok result := by
  have succeeds :
      (computeBlockDelta context utxos dormancy { block with txs := [silent] }).isOk = true := rfl
  cases computed : computeBlockDelta context utxos dormancy { block with txs := [silent] } with
  | error failure => simp [computed, Except.isOk, Except.toBool] at succeeds
  | ok result =>
      have witnesses : SameWitnesses silent loaded := by
        intro output member hash datum
        rfl
      exact ⟨result, rfl, (@sameDelta_iff_donation context utxos dormancy block [] [] silent loaded
        _ _ rfl rfl sameCollateral_loaded result computed).mpr ⟨rfl, witnesses⟩⟩

end FailedScript

end Dolos
