import Dolos.Cardano.CrawlSpec

/-!
# What a crawl reads of the outputs

The outputs that a batch has loaded are asked for what its transactions consume, and for
nothing else. On outputs that are the same there, a block is crawled alike.
-/

namespace Dolos

open Outcome DeltaBuilder

section Inputs

variable {utxos other : UtxoMap MultiEraOutput}

/-- Both have the same for the inputs of a transaction. -/
def SameInputs (utxos other : UtxoMap MultiEraOutput) (tx : MultiEraTx) : Prop :=
  ∀ txo ∈ tx.consumes, other.get? txo = utxos.get? txo

theorem defineTxFees_congr {tx : MultiEraTx} (same : SameInputs utxos other tx) :
    EpochStateVisitor.defineTxFees tx other = EpochStateVisitor.defineTxFees tx utxos := by
  have collateral : EpochStateVisitor.computeCollateralValue tx other =
      EpochStateVisitor.computeCollateralValue tx utxos := by
    unfold EpochStateVisitor.computeCollateralValue
    congr 1
    apply Outcome.foldlM_congr
    intro txo spent total
    rw [same txo spent]
  unfold EpochStateVisitor.defineTxFees
  rw [collateral]

theorem inputDeltas_congr {txo : TxoRef} (same : other.get? txo = utxos.get? txo) :
    inputDeltas other txo = inputDeltas utxos txo := by
  rw [inputDeltas, inputDeltas, same]

theorem inputStats_congr {txo : TxoRef} (same : other.get? txo = utxos.get? txo) :
    inputStats other txo = inputStats utxos txo := by
  funext stats
  rw [inputStats, inputStats, same]

theorem foldl_inputStats_congr {tx : MultiEraTx} (same : SameInputs utxos other tx)
    (stats : EpochStatsUpdate) :
    tx.consumes.foldl (fun stats txo => inputStats other txo stats) stats =
      tx.consumes.foldl (fun stats txo => inputStats utxos txo stats) stats := by
  apply List.foldl_ext
  intro reached txo spent
  rw [inputStats_congr (same txo spent)]

variable [AssetDigest] {context : RollContext} {slot : ℕ}

omit [AssetDigest] in
theorem txFits_congr {tx : MultiEraTx × ℕ} (same : SameInputs utxos other tx.1) :
    TxFits context slot other tx ↔ TxFits context slot utxos tx := by
  have inputs : (∀ txo ∈ tx.1.consumes, InputFits other txo) ↔
      ∀ txo ∈ tx.1.consumes, InputFits utxos txo := by
    apply forall₂_congr
    intro txo spent
    rw [InputFits, InputFits, same txo spent]
  constructor
  · rintro ⟨fees, fit, outputs, body⟩
    rw [defineTxFees_congr same] at fees
    exact ⟨fees, inputs.mp fit, outputs, body⟩
  · rintro ⟨fees, fit, outputs, body⟩
    rw [← defineTxFees_congr same] at fees
    exact ⟨fees, inputs.mpr fit, outputs, body⟩

theorem txDeltas_sameInputs {tx : MultiEraTx × ℕ} (same : SameInputs utxos other tx.1)
    (dormancy : DormancyContext) :
    txDeltas context slot other dormancy tx = txDeltas context slot utxos dormancy tx := by
  have inputs : tx.1.consumes.flatMap (inputDeltas other) =
      tx.1.consumes.flatMap (inputDeltas utxos) := by
    apply List.flatMap_congr
    intro txo spent
    exact inputDeltas_congr (same txo spent)
  rw [txDeltas, txDeltas, inputs]

omit [AssetDigest] in
theorem txStats_sameInputs {tx : MultiEraTx} (same : SameInputs utxos other tx)
    (stats : EpochStatsUpdate) : txStats other tx stats = txStats utxos tx stats := by
  simp only [txStats, defineTxFees_congr same, foldl_inputStats_congr same]

theorem txsDeltas_sameInputs {txs : List (MultiEraTx × ℕ)}
    (same : ∀ tx ∈ txs, SameInputs utxos other tx.1) (dormancy : DormancyContext) :
    txsDeltas context slot other dormancy txs = txsDeltas context slot utxos dormancy txs := by
  induction txs generalizing dormancy with
  | nil => rfl
  | cons tx rest ih =>
      rw [txsDeltas, txsDeltas, txDeltas_sameInputs (same tx List.mem_cons_self),
        ih fun later member => same later (List.mem_cons_of_mem _ member)]

omit [AssetDigest] in
theorem txsStats_sameInputs {txs : List (MultiEraTx × ℕ)}
    (same : ∀ tx ∈ txs, SameInputs utxos other tx.1) (stats : EpochStatsUpdate) :
    txsStats other stats txs = txsStats utxos stats txs := by
  apply List.foldl_ext
  intro reached tx member
  exact txStats_sameInputs (same tx member) reached

omit [AssetDigest] in
theorem computeApplyDelta_congr {O : Type} {block : MultiEraBlock O} {loaded reached : UtxoMap O}
    (same : ∀ txo ∈ block.consumed, reached.get? txo = loaded.get? txo) :
    computeApplyDelta block reached = computeApplyDelta block loaded := by
  have resolved : ∀ refs : List TxoRef, (∀ txo ∈ refs, reached.get? txo = loaded.get? txo) →
      resolve reached refs = resolve loaded refs := by
    intro refs
    induction refs with
    | nil => intro _; rfl
    | cons txo rest ih =>
        intro each
        rw [resolve, resolve, each txo List.mem_cons_self,
          ih fun later member => each later (List.mem_cons_of_mem _ member)]
  rw [computeApplyDelta, computeApplyDelta, resolved block.consumed same]

omit [AssetDigest] in
theorem mem_txs_of_zipIdx {block : DecodedBlock} {tx : MultiEraTx × ℕ}
    (member : tx ∈ block.txs.zipIdx) : tx.1 ∈ block.txs := by
  have listed := List.mem_map_of_mem (f := Prod.fst) member
  rw [List.zipIdx_map_fst] at listed
  exact listed

/-- A block is crawled alike on outputs that are the same for its inputs. -/
theorem blockDeltas_sameInputs {block : DecodedBlock}
    (same : ∀ tx ∈ block.txs, SameInputs utxos other tx) (dormancy : DormancyContext) :
    blockDeltas context other dormancy block = blockDeltas context utxos dormancy block := by
  have each : ∀ tx ∈ block.txs.zipIdx, SameInputs utxos other tx.1 := by
    intro tx member
    exact same tx.1 (mem_txs_of_zipIdx member)
  rw [blockDeltas_eq, blockDeltas_eq, txsDeltas_sameInputs each, txsStats_sameInputs each]

omit [AssetDigest] in
theorem blockFits_sameInputs {block : DecodedBlock}
    (same : ∀ tx ∈ block.txs, SameInputs utxos other tx) :
    BlockFits context other block ↔ BlockFits context utxos block := by
  have txs : (∀ tx ∈ block.txs.zipIdx, TxFits context block.slot other tx) ↔
      ∀ tx ∈ block.txs.zipIdx, TxFits context block.slot utxos tx := by
    apply forall₂_congr
    intro tx member
    exact txFits_congr (same tx.1 (mem_txs_of_zipIdx member))
  constructor
  · rintro ⟨nonces, fit⟩
    exact ⟨nonces, txs.mp fit⟩
  · rintro ⟨nonces, fit⟩
    exact ⟨nonces, txs.mpr fit⟩

end Inputs

end Dolos
