import Dolos.Cardano.DeltaBuilder
import Dolos.Cardano.RollTrace

/-!
# What a crawl leaves

A crawl fails on an input that is not there, on an address that is none and on a
parameter that was never set, whatever it has gathered before. When it does not, each
transaction adds its own deltas, which depend on what came before it only through the
dormancy context.
-/

namespace Dolos

open Outcome DeltaBuilder

section Parts

variable (context : RollContext) (utxos : UtxoMap MultiEraOutput) (slot order : ℕ)

def InputFits (txo : TxoRef) : Prop :=
  ∃ resolved, utxos.get? txo = some resolved ∧ (AccountVisitor.visitInput resolved).isOk

def inputDeltas (txo : TxoRef) : List CardanoDelta :=
  ((utxos.get? txo).map fun resolved =>
    valueOr [] (AccountVisitor.visitInput resolved) ++ DatumVisitor.visitInput resolved).getD []

def inputStats (txo : TxoRef) (stats : EpochStatsUpdate) : EpochStatsUpdate :=
  ((utxos.get? txo).map fun resolved => EpochStateVisitor.visitInput resolved stats).getD stats

theorem visitInput_eq_ok_iff {txo : TxoRef} {builder result : DeltaBuilder} :
    visitInput utxos builder txo = .ok result ↔ InputFits utxos txo ∧
      result = (builder.add (inputDeltas utxos txo)).count (inputStats utxos txo) := by
  cases held : utxos.get? txo with
  | none => simp [visitInput, InputFits, held]
  | some resolved =>
      have statsEq : inputStats utxos txo = EpochStateVisitor.visitInput resolved := by
        funext stats
        simp [inputStats, held]
      simp only [visitInput, InputFits, inputDeltas, held, Option.map_some, Option.getD_some,
        Option.some.injEq, exists_eq_left', bind_ok_eq_ok_iff [], statsEq]

variable [AssetDigest]

def outputDeltas (hash : BlockHash) (witnessDatums : OrderedMap BlockHash (List UInt8))
    (output : ℕ × MultiEraOutput) : List CardanoDelta :=
  valueOr [] (AccountVisitor.visitOutput context output.2) ++
    AssetStateVisitor.visitOutput hash output.2 ++
      DatumVisitor.visitOutput witnessDatums output.2

theorem visitOutput_eq_ok_iff {hash : BlockHash} {output : ℕ × MultiEraOutput}
    {builder result : DeltaBuilder} :
    visitOutput context hash builder output = .ok result ↔
      (AccountVisitor.visitOutput context output.2).isOk ∧
        result = (builder.add (outputDeltas context hash builder.witnessDatums output)).count
          (EpochStateVisitor.visitOutput output.2) := by
  rw [visitOutput, bind_ok_eq_ok_iff []]
  rfl

omit [AssetDigest]

def CertFits (cert : MultiEraCert) : Prop :=
  (AccountVisitor.visitCert context slot order cert).isOk ∧
    (PoolStateVisitor.visitCert context slot cert).isOk

def certDeltas (dormancy : DormancyContext) (cert : MultiEraCert) : List CardanoDelta :=
  valueOr [] (AccountVisitor.visitCert context slot order cert) ++
    (DRepStateVisitor.visitCert context slot order cert dormancy).1 ++
      valueOr [] (PoolStateVisitor.visitCert context slot cert)

/-- What a certificate leaves in the builder. -/
def certVisited (builder : DeltaBuilder) (cert : MultiEraCert) : DeltaBuilder :=
  ({ builder with dormancy := DRepStateVisitor.noteRegistration builder.dormancy cert }.add
    (certDeltas context slot order builder.dormancy cert)).count (EpochStateVisitor.visitCert cert)

theorem visitCert_eq_ok_iff {cert : MultiEraCert} {builder result : DeltaBuilder} :
    visitCert context slot order builder cert = .ok result ↔
      CertFits context slot order cert ∧ result = certVisited context slot order builder cert := by
  simp only [visitCert, bind_eq_ok, CertFits]
  constructor
  · rintro ⟨account, accountEq, pool, poolEq, resultEq⟩
    rcases (eq_ok_iff_valueOr []).mp accountEq with ⟨accountFits, rfl⟩
    rcases (eq_ok_iff_valueOr []).mp poolEq with ⟨poolFits, rfl⟩
    exact ⟨⟨accountFits, poolFits⟩, (Except.ok.inj resultEq).symm⟩
  · rintro ⟨⟨accountFits, poolFits⟩, rfl⟩
    exact ⟨_, (eq_ok_iff_valueOr []).mpr ⟨accountFits, rfl⟩, _,
      (eq_ok_iff_valueOr []).mpr ⟨poolFits, rfl⟩, rfl⟩

theorem visitWithdrawal_eq_ok_iff {withdrawal : Option DecodedAddress × UInt64}
    {builder result : DeltaBuilder} :
    visitWithdrawal builder withdrawal = .ok result ↔
      (AccountVisitor.visitWithdrawal withdrawal).isOk ∧
        result = (builder.add (valueOr [] (AccountVisitor.visitWithdrawal withdrawal))).count
          (EpochStateVisitor.visitWithdrawal withdrawal.2) := by
  rw [visitWithdrawal, bind_ok_eq_ok_iff []]

def proposalDeltas (hash : BlockHash) (proposal : ProposalProcedure × ℕ) : List CardanoDelta :=
  valueOr [] (ProposalVisitor.visitProposal context slot hash proposal.2 proposal.1)

theorem visitProposal_eq_ok_iff {hash : BlockHash} {proposal : ProposalProcedure × ℕ}
    {builder result : DeltaBuilder} :
    visitProposal context slot hash builder proposal = .ok result ↔
      (ProposalVisitor.visitProposal context slot hash proposal.2 proposal.1).isOk ∧
        result = (builder.add (proposalDeltas context slot hash proposal)).count
          (EpochStateVisitor.visitProposal proposal.1) := by
  rw [visitProposal, bind_ok_eq_ok_iff []]
  rfl

end Parts

namespace DeltaBuilder

theorem add_add (builder : DeltaBuilder) (first second : List CardanoDelta) :
    (builder.add first).add second = builder.add (first ++ second) := by
  simp [add]

theorem count_count (builder : DeltaBuilder) (first second : EpochStatsUpdate → EpochStatsUpdate) :
    (builder.count first).count second = builder.count fun stats => second (first stats) := rfl

theorem count_add (builder : DeltaBuilder) (change : EpochStatsUpdate → EpochStatsUpdate)
    (added : List CardanoDelta) :
    (builder.count change).add added = (builder.add added).count change := rfl

/-- Rounds that add and count, as one round. -/
theorem foldl_add_count {ι : Type} (added : ι → List CardanoDelta)
    (change : ι → EpochStatsUpdate → EpochStatsUpdate) (items : List ι) (builder : DeltaBuilder) :
    items.foldl (fun builder item => (builder.add (added item)).count (change item)) builder =
      (builder.add (items.flatMap added)).count fun stats =>
        items.foldl (fun stats item => change item stats) stats := by
  induction items generalizing builder with
  | nil => simp [add, count]
  | cons item rest ih =>
      rw [List.foldl_cons, ih, count_add, add_add, count_count, List.flatMap_cons]
      rfl

theorem foldl_add {ι : Type} (added : ι → List CardanoDelta) (items : List ι)
    (builder : DeltaBuilder) :
    items.foldl (fun builder item => builder.add (added item)) builder =
      builder.add (items.flatMap added) := by
  induction items generalizing builder with
  | nil => simp [add]
  | cons item rest ih => rw [List.foldl_cons, ih, add_add, List.flatMap_cons]

end DeltaBuilder

section Transaction

variable (context : RollContext) (slot order : ℕ)

theorem dormantEpochs_noteRegistration (dormancy : DormancyContext) (cert : MultiEraCert) :
    (DRepStateVisitor.noteRegistration dormancy cert).dormantEpochs = dormancy.dormantEpochs := by
  unfold DRepStateVisitor.noteRegistration
  split
  · split_ifs
    · rfl
    · rfl
  · rfl

theorem dormantEpochs_foldl_noteRegistration (certs : List MultiEraCert)
    (dormancy : DormancyContext) :
    (certs.foldl DRepStateVisitor.noteRegistration dormancy).dormantEpochs =
      dormancy.dormantEpochs := by
  induction certs generalizing dormancy with
  | nil => rfl
  | cons cert rest ih => rw [List.foldl_cons, ih, dormantEpochs_noteRegistration]

theorem refreshExpiry_congr {dormancy other : DormancyContext}
    (same : other.dormantEpochs = dormancy.dormantEpochs) :
    DRepStateVisitor.refreshExpiry context other =
      DRepStateVisitor.refreshExpiry context dormancy := by
  simp [DRepStateVisitor.refreshExpiry, same]

/-- Certificates read the length of the dormant stretch and nothing else of the context. -/
theorem certDeltas_congr {dormancy other : DormancyContext}
    (same : other.dormantEpochs = dormancy.dormantEpochs) (cert : MultiEraCert) :
    certDeltas context slot order other cert = certDeltas context slot order dormancy cert := by
  have refreshed := refreshExpiry_congr context same
  have registered : DRepStateVisitor.registrationExpiry context other =
      DRepStateVisitor.registrationExpiry context dormancy := by
    simp [DRepStateVisitor.registrationExpiry, refreshed]
  have drepEq : DRepStateVisitor.drepDeltas context slot order other cert =
      DRepStateVisitor.drepDeltas context slot order dormancy cert := by
    unfold DRepStateVisitor.drepDeltas
    split
    · rw [registered]
    · rfl
    · rw [refreshed]
    · rfl
  simp [certDeltas, DRepStateVisitor.visitCert, drepEq]

theorem foldl_certVisited (certs : List MultiEraCert) (builder : DeltaBuilder) :
    certs.foldl (certVisited context slot order) builder =
      ({ builder with
        dormancy := certs.foldl DRepStateVisitor.noteRegistration builder.dormancy }.add
          (certs.flatMap (certDeltas context slot order builder.dormancy))).count fun stats =>
            certs.foldl (fun stats cert => EpochStateVisitor.visitCert cert stats) stats := by
  induction certs generalizing builder with
  | nil => simp [add, count]
  | cons cert rest ih =>
      have later : certDeltas context slot order
          (DRepStateVisitor.noteRegistration builder.dormancy cert) =
            certDeltas context slot order builder.dormancy := by
        funext other
        exact certDeltas_congr context slot order
          (dormantEpochs_noteRegistration builder.dormancy cert) other
      rw [List.foldl_cons, ih]
      simp [certVisited, add, count, later]

variable [AssetDigest]

def BodyFits (tx : MultiEraTx) : Prop :=
  (∀ cert ∈ tx.certs, CertFits context slot order cert) ∧
    (∀ withdrawal ∈ tx.withdrawals, (AccountVisitor.visitWithdrawal withdrawal).isOk) ∧
      ∀ proposal ∈ tx.govProposals.zipIdx,
        (ProposalVisitor.visitProposal context slot tx.hash proposal.2 proposal.1).isOk

def bodyDeltas (dormancy : DormancyContext) (tx : MultiEraTx) : List CardanoDelta :=
  tx.mints.flatMap (AssetStateVisitor.visitMint slot tx) ++
    tx.certs.flatMap (certDeltas context slot order dormancy) ++
    (tx.withdrawals.flatMap fun withdrawal =>
      valueOr [] (AccountVisitor.visitWithdrawal withdrawal)) ++
    (tx.update.map (ProposalVisitor.visitUpdate context slot tx.hash)).toList ++
    tx.govProposals.zipIdx.flatMap (proposalDeltas context slot tx.hash)

omit [AssetDigest] in
def bodyStats (tx : MultiEraTx) (stats : EpochStatsUpdate) : EpochStatsUpdate :=
  let stats := tx.certs.foldl (fun stats cert => EpochStateVisitor.visitCert cert stats) stats
  let stats := tx.withdrawals.foldl
    (fun stats withdrawal => EpochStateVisitor.visitWithdrawal withdrawal.2 stats) stats
  tx.govProposals.zipIdx.foldl
    (fun stats proposal => EpochStateVisitor.visitProposal proposal.1 stats) stats

theorem visitBody_eq_ok_iff {tx : MultiEraTx} {builder result : DeltaBuilder} :
    visitBody context slot order tx builder = .ok result ↔
      BodyFits context slot order tx ∧
        result = ({ builder with
          dormancy := tx.certs.foldl DRepStateVisitor.noteRegistration builder.dormancy }.add
            (bodyDeltas context slot order builder.dormancy tx)).count (bodyStats tx) := by
  have mintsEq : tx.mints.foldl (visitMint slot tx) builder =
      builder.add (tx.mints.flatMap (AssetStateVisitor.visitMint slot tx)) :=
    foldl_add _ tx.mints builder
  have certsIff : ∀ first last, tx.certs.foldlM (visitCert context slot order) first = .ok last ↔
      (∀ cert ∈ tx.certs, CertFits context slot order cert) ∧
        last = tx.certs.foldl (certVisited context slot order) first := by
    intro first last
    apply foldlM_eq_ok_iff
    intro cert _ value reached
    exact visitCert_eq_ok_iff context slot order
  have withdrawalsIff : ∀ first last, tx.withdrawals.foldlM visitWithdrawal first = .ok last ↔
      (∀ withdrawal ∈ tx.withdrawals, (AccountVisitor.visitWithdrawal withdrawal).isOk) ∧
        last = tx.withdrawals.foldl (fun builder withdrawal =>
          (builder.add (valueOr [] (AccountVisitor.visitWithdrawal withdrawal))).count
            (EpochStateVisitor.visitWithdrawal withdrawal.2)) first := by
    intro first last
    apply foldlM_eq_ok_iff
    intro withdrawal _ value reached
    exact visitWithdrawal_eq_ok_iff
  have proposalsIff : ∀ first last,
      tx.govProposals.zipIdx.foldlM (visitProposal context slot tx.hash) first = .ok last ↔
        (∀ proposal ∈ tx.govProposals.zipIdx,
          (ProposalVisitor.visitProposal context slot tx.hash proposal.2 proposal.1).isOk) ∧
        last = tx.govProposals.zipIdx.foldl (fun builder proposal =>
          (builder.add (proposalDeltas context slot tx.hash proposal)).count
            (EpochStateVisitor.visitProposal proposal.1)) first := by
    intro first last
    apply foldlM_eq_ok_iff
    intro proposal _ value reached
    exact visitProposal_eq_ok_iff context slot
  simp only [visitBody, bind_eq_ok, mintsEq, certsIff, withdrawalsIff, proposalsIff]
  constructor
  · rintro ⟨afterCerts, ⟨certsFit, rfl⟩, afterWithdrawals, ⟨withdrawalsFit, rfl⟩, proposalsFit, rfl⟩
    refine ⟨⟨certsFit, withdrawalsFit, proposalsFit⟩, ?_⟩
    rw [foldl_certVisited, foldl_add_count, foldl_add_count]
    simp [bodyDeltas, bodyStats, add, count, visitUpdate]
  · rintro ⟨⟨certsFit, withdrawalsFit, proposalsFit⟩, rfl⟩
    refine ⟨_, ⟨certsFit, rfl⟩, _, ⟨withdrawalsFit, rfl⟩, proposalsFit, ?_⟩
    rw [foldl_certVisited, foldl_add_count, foldl_add_count]
    simp [bodyDeltas, bodyStats, add, count, visitUpdate]

variable (utxos : UtxoMap MultiEraOutput)

omit [AssetDigest] in
/-- The dormancy context after a transaction. -/
def txDormancy (dormancy : DormancyContext) (tx : MultiEraTx) : DormancyContext :=
  let visited := (DRepStateVisitor.visitTx context slot tx dormancy).2
  if tx.isValid then tx.certs.foldl DRepStateVisitor.noteRegistration visited else visited

structure TxFits (tx : MultiEraTx × ℕ) : Prop where
  fees : (EpochStateVisitor.defineTxFees tx.1 utxos).isOk
  inputs : ∀ txo ∈ tx.1.consumes, InputFits utxos txo
  outputs : ∀ output ∈ tx.1.produces, (AccountVisitor.visitOutput context output.2).isOk
  body : tx.1.isValid → BodyFits context slot tx.2 tx.1

def txDeltas (dormancy : DormancyContext) (tx : MultiEraTx × ℕ) : List CardanoDelta :=
  let (visited, dormancy) := DRepStateVisitor.visitTx context slot tx.1 dormancy
  visited ++ tx.1.consumes.flatMap (inputDeltas utxos) ++
    tx.1.produces.flatMap (outputDeltas context tx.1.hash (DatumVisitor.visitTx tx.1)) ++
    if tx.1.isValid then bodyDeltas context slot tx.2 dormancy tx.1 else []

omit [AssetDigest] in
def txStats (tx : MultiEraTx) (stats : EpochStatsUpdate) : EpochStatsUpdate :=
  let fees := valueOr 0 (EpochStateVisitor.defineTxFees tx utxos)
  let stats := EpochStateVisitor.visitTx tx fees stats
  let stats := tx.consumes.foldl (fun stats txo => inputStats utxos txo stats) stats
  let stats := tx.produces.foldl
    (fun stats output => EpochStateVisitor.visitOutput output.2 stats) stats
  if tx.isValid then bodyStats tx stats else stats

/-- What a transaction leaves in the builder. -/
def txVisited (builder : DeltaBuilder) (tx : MultiEraTx × ℕ) : DeltaBuilder where
  deltas := builder.deltas ++ txDeltas context slot utxos builder.dormancy tx
  witnessDatums := DatumVisitor.visitTx tx.1
  dormancy := txDormancy context slot builder.dormancy tx.1
  stats := txStats utxos tx.1 builder.stats
  pendingVotes := builder.pendingVotes ++ ProposalVisitor.visitTx slot tx.1

theorem foldl_outputs (hash : BlockHash) (outputs : List (ℕ × MultiEraOutput))
    (builder : DeltaBuilder) :
    outputs.foldl (fun builder output =>
      (builder.add (outputDeltas context hash builder.witnessDatums output)).count
        (EpochStateVisitor.visitOutput output.2)) builder =
      (builder.add (outputs.flatMap (outputDeltas context hash builder.witnessDatums))).count
        fun stats => outputs.foldl
          (fun stats output => EpochStateVisitor.visitOutput output.2 stats) stats := by
  induction outputs generalizing builder with
  | nil => simp [add, count]
  | cons output rest ih =>
      rw [List.foldl_cons, ih]
      simp [add, count]

omit [AssetDigest] in
theorem visitTx_eq_ok_iff {tx : MultiEraTx} {builder result : DeltaBuilder} :
    DeltaBuilder.visitTx context utxos slot tx builder = .ok result ↔
      (EpochStateVisitor.defineTxFees tx utxos).isOk ∧ result = {
        deltas := builder.deltas ++ (DRepStateVisitor.visitTx context slot tx builder.dormancy).1
        witnessDatums := DatumVisitor.visitTx tx
        dormancy := (DRepStateVisitor.visitTx context slot tx builder.dormancy).2
        stats := EpochStateVisitor.visitTx tx
          (valueOr 0 (EpochStateVisitor.defineTxFees tx utxos)) builder.stats
        pendingVotes := builder.pendingVotes ++ ProposalVisitor.visitTx slot tx } := by
  rw [DeltaBuilder.visitTx]
  exact bind_ok_eq_ok_iff 0

theorem crawlTx_eq_ok_iff {tx : MultiEraTx × ℕ} {builder result : DeltaBuilder} :
    crawlTx context utxos slot builder tx = .ok result ↔
      TxFits context slot utxos tx ∧ result = txVisited context slot utxos builder tx := by
  have inputsIff : ∀ first last, tx.1.consumes.foldlM (visitInput utxos) first = .ok last ↔
      (∀ txo ∈ tx.1.consumes, InputFits utxos txo) ∧
        last = tx.1.consumes.foldl (fun builder txo =>
          (builder.add (inputDeltas utxos txo)).count (inputStats utxos txo)) first := by
    intro first last
    apply foldlM_eq_ok_iff
    intro txo _ value reached
    exact visitInput_eq_ok_iff utxos
  have outputsIff : ∀ first last,
      tx.1.produces.foldlM (visitOutput context tx.1.hash) first = .ok last ↔
        (∀ output ∈ tx.1.produces, (AccountVisitor.visitOutput context output.2).isOk) ∧
        last = tx.1.produces.foldl (fun builder output =>
          (builder.add (outputDeltas context tx.1.hash builder.witnessDatums output)).count
            (EpochStateVisitor.visitOutput output.2)) first := by
    intro first last
    apply foldlM_eq_ok_iff
    intro output _ value reached
    exact visitOutput_eq_ok_iff context
  simp only [crawlTx, visitTx_eq_ok_iff, bind_eq_ok, inputsIff, outputsIff,
    foldl_add_count, foldl_outputs]
  by_cases valid : tx.1.isValid
  · simp only [valid, if_true, visitBody_eq_ok_iff]
    constructor
    · rintro ⟨_, ⟨fees, rfl⟩, _, ⟨inputs, rfl⟩, _, ⟨outputs, rfl⟩, body, rfl⟩
      refine ⟨⟨fees, inputs, outputs, fun _ => body⟩, ?_⟩
      simp [txVisited, txDeltas, txDormancy, txStats, valid, add, count]
    · rintro ⟨fits, rfl⟩
      refine ⟨_, ⟨fits.fees, rfl⟩, _, ⟨fits.inputs, rfl⟩, _, ⟨fits.outputs, rfl⟩,
        fits.body valid, ?_⟩
      simp [txVisited, txDeltas, txDormancy, txStats, valid, add, count]
  · simp only [valid, if_false, Bool.false_eq_true, Except.ok.injEq]
    constructor
    · rintro ⟨_, ⟨fees, rfl⟩, _, ⟨inputs, rfl⟩, _, ⟨outputs, rfl⟩, rfl⟩
      refine ⟨⟨fees, inputs, outputs, fun isValid => absurd isValid valid⟩, ?_⟩
      simp [txVisited, txDeltas, txDormancy, txStats, valid, add, count]
    · rintro ⟨fits, rfl⟩
      refine ⟨_, ⟨fits.fees, rfl⟩, _, ⟨fits.inputs, rfl⟩, _, ⟨fits.outputs, rfl⟩, ?_⟩
      simp [txVisited, txDeltas, txDormancy, txStats, valid, add, count]

end Transaction

section Transactions

variable [AssetDigest] (context : RollContext) (slot : ℕ) (utxos : UtxoMap MultiEraOutput)

omit [AssetDigest] in
def txsDormancy (dormancy : DormancyContext) (txs : List (MultiEraTx × ℕ)) : DormancyContext :=
  txs.foldl (fun dormancy tx => txDormancy context slot dormancy tx.1) dormancy

/-- The deltas of transactions one after the other. -/
def txsDeltas : DormancyContext → List (MultiEraTx × ℕ) → List CardanoDelta
  | _, [] => []
  | dormancy, tx :: rest =>
      txDeltas context slot utxos dormancy tx ++
        txsDeltas (txDormancy context slot dormancy tx.1) rest

omit [AssetDigest] in
def txsStats (stats : EpochStatsUpdate) (txs : List (MultiEraTx × ℕ)) : EpochStatsUpdate :=
  txs.foldl (fun stats tx => txStats utxos tx.1 stats) stats

theorem txsDeltas_append (dormancy : DormancyContext) (first second : List (MultiEraTx × ℕ)) :
    txsDeltas context slot utxos dormancy (first ++ second) =
      txsDeltas context slot utxos dormancy first ++
        txsDeltas context slot utxos (txsDormancy context slot dormancy first) second := by
  induction first generalizing dormancy with
  | nil => rfl
  | cons tx rest ih =>
      rw [List.cons_append, txsDeltas, ih, txsDeltas, List.append_assoc]
      rfl

theorem dormancy_foldl_txVisited (txs : List (MultiEraTx × ℕ)) (builder : DeltaBuilder) :
    (txs.foldl (txVisited context slot utxos) builder).dormancy =
      txsDormancy context slot builder.dormancy txs := by
  induction txs generalizing builder with
  | nil => rfl
  | cons tx rest ih => exact ih (txVisited context slot utxos builder tx)

theorem deltas_foldl_txVisited (txs : List (MultiEraTx × ℕ)) (builder : DeltaBuilder) :
    (txs.foldl (txVisited context slot utxos) builder).deltas =
      builder.deltas ++ txsDeltas context slot utxos builder.dormancy txs := by
  induction txs generalizing builder with
  | nil => simp [txsDeltas]
  | cons tx rest ih =>
      rw [List.foldl_cons, ih, txsDeltas, ← List.append_assoc]
      rfl

theorem stats_foldl_txVisited (txs : List (MultiEraTx × ℕ)) (builder : DeltaBuilder) :
    (txs.foldl (txVisited context slot utxos) builder).stats =
      txsStats utxos builder.stats txs := by
  induction txs generalizing builder with
  | nil => rfl
  | cons tx rest ih => exact ih (txVisited context slot utxos builder tx)

theorem pendingVotes_foldl_txVisited (txs : List (MultiEraTx × ℕ)) (builder : DeltaBuilder) :
    (txs.foldl (txVisited context slot utxos) builder).pendingVotes =
      builder.pendingVotes ++ txs.flatMap fun tx => ProposalVisitor.visitTx slot tx.1 := by
  induction txs generalizing builder with
  | nil => simp
  | cons tx rest ih =>
      rw [List.foldl_cons, ih, List.flatMap_cons, ← List.append_assoc]
      rfl

end Transactions

section Block

variable [AssetDigest] (context : RollContext) (utxos : UtxoMap MultiEraOutput)

/-- A block on which no visitor fails. -/
structure BlockFits (block : DecodedBlock) : Prop where
  nonces : (EpochStateVisitor.rootNonces block).isOk
  txs : ∀ tx ∈ block.txs.zipIdx, TxFits context block.slot utxos tx

/-- The builder after the transactions of a block. -/
def visitedAll (dormancy : DormancyContext) (block : DecodedBlock) : DeltaBuilder :=
  block.txs.zipIdx.foldl (txVisited context block.slot utxos) (visitRoot context block dormancy)

def blockDeltas (dormancy : DormancyContext) (block : DecodedBlock) : List CardanoDelta :=
  (visitUpdate context block.slot block.hash block.update
    (visitedAll context utxos dormancy block)).flush
      (valueOr none (EpochStateVisitor.rootNonces block))

/-- The block's own deltas, those of its transactions, and what was kept back. -/
theorem blockDeltas_eq (dormancy : DormancyContext) (block : DecodedBlock) :
    blockDeltas context utxos dormancy block =
      PoolStateVisitor.visitRoot context block ++
        txsDeltas context block.slot utxos dormancy block.txs.zipIdx ++
        (block.update.map (ProposalVisitor.visitUpdate context block.slot block.hash)).toList ++
        [.epochStatsUpdate (txsStats utxos (EpochStateVisitor.rootStats context block)
          block.txs.zipIdx)] ++
        ((valueOr none (EpochStateVisitor.rootNonces block)).map .noncesUpdate).toList ++
        (block.txs.zipIdx.flatMap fun tx =>
          ProposalVisitor.visitTx block.slot tx.1).map .voteCast := by
  simp only [blockDeltas, flush, visitUpdate, add, visitedAll, deltas_foldl_txVisited,
    stats_foldl_txVisited, pendingVotes_foldl_txVisited]
  rfl

theorem dormancy_visitedAll (dormancy : DormancyContext) (block : DecodedBlock) :
    (visitedAll context utxos dormancy block).dormancy =
      txsDormancy context block.slot dormancy block.txs.zipIdx :=
  dormancy_foldl_txVisited context block.slot utxos _ _

theorem emit_eq_ok_iff {dormancy after : DormancyContext} {block : DecodedBlock}
    {deltas : List CardanoDelta} :
    emit context utxos dormancy block = .ok (deltas, after) ↔
      BlockFits context utxos block ∧ deltas = blockDeltas context utxos dormancy block ∧
        after = txsDormancy context block.slot dormancy block.txs.zipIdx := by
  rw [← dormancy_visitedAll context utxos dormancy block]
  have txsIff : ∀ first last,
      block.txs.zipIdx.foldlM (crawlTx context utxos block.slot) first = .ok last ↔
        (∀ tx ∈ block.txs.zipIdx, TxFits context block.slot utxos tx) ∧
        last = block.txs.zipIdx.foldl (txVisited context block.slot utxos) first := by
    intro first last
    apply foldlM_eq_ok_iff
    intro tx _ value reached
    exact crawlTx_eq_ok_iff context block.slot utxos
  simp only [emit, bind_eq_ok, txsIff, eq_ok_iff_valueOr none]
  constructor
  · rintro ⟨_, ⟨nonces, rfl⟩, _, ⟨txs, rfl⟩, same⟩
    simp only [Except.ok.injEq, Prod.mk.injEq] at same
    rcases same with ⟨rfl, rfl⟩
    exact ⟨⟨nonces, txs⟩, rfl, rfl⟩
  · rintro ⟨fits, rfl, rfl⟩
    exact ⟨_, ⟨fits.nonces, rfl⟩, _, ⟨fits.txs, rfl⟩, rfl⟩

variable [NonceCrypto]

theorem computeBlockDelta_eq_ok_iff {dormancy after : DormancyContext} {block : DecodedBlock}
    {work : WorkBlock MultiEraOutput} :
    computeBlockDelta context utxos dormancy block = .ok (work, after) ↔
      BlockFits context utxos block ∧
        after = txsDormancy context block.slot dormancy block.txs.zipIdx ∧
          ∃ delta, computeApplyDelta block.view utxos = .ok delta ∧
            work = ⟨block.view, .ofList (blockDeltas context utxos dormancy block),
              some delta⟩ := by
  simp only [computeBlockDelta, bind_eq_ok, Prod.exists, emit_eq_ok_iff, mapError_eq_ok,
    Except.ok.injEq, Prod.mk.injEq]
  constructor
  · rintro ⟨_, _, ⟨fits, rfl, rfl⟩, delta, computed, rfl, rfl⟩
    exact ⟨fits, rfl, delta, computed, rfl⟩
  · rintro ⟨fits, rfl, delta, computed, rfl⟩
    exact ⟨_, _, ⟨fits, rfl, rfl⟩, delta, computed, rfl, rfl⟩

end Block

namespace WorkDeltas

open EntityDelta

variable [NonceCrypto]

theorem get?_addForEntity (deltas : WorkDeltas) (delta : CardanoDelta) (index : NsKey) :
    (deltas.addForEntity delta).get? index =
      if index = key delta then some (deltas.group index ++ [delta]) else deltas.get? index := by
  unfold addForEntity
  split
  · next group held =>
      rw [get?_setGroup]
      split_ifs with same
      · subst same
        simp [WorkDeltas.group, held]
      · simp
  · next held =>
      rw [get?, OrderedMap.lookup_append]
      split_ifs with same
      · subst same
        have absent : OrderedMap.lookup (key delta) deltas.groups = none := held
        simp [OrderedMap.lookup, WorkDeltas.group, held, absent]
      · simp [OrderedMap.lookup, same, get?]

theorem ofList_concat (deltas : List CardanoDelta) (delta : CardanoDelta) :
    WorkDeltas.ofList (deltas ++ [delta]) = (WorkDeltas.ofList deltas).addForEntity delta := by
  simp [WorkDeltas.ofList]

/-- The group of an entity has its deltas, in the order they were added. -/
theorem group_ofList (deltas : List CardanoDelta) (index : NsKey) :
    (WorkDeltas.ofList deltas).group index = deltas.filter fun delta => key delta = index := by
  induction deltas using List.reverseRecOn with
  | nil => rfl
  | append_singleton earlier delta ih =>
      rw [ofList_concat, WorkDeltas.group, get?_addForEntity, List.filter_append]
      by_cases same : key delta = index
      · simp [same, ih]
      · have different : index ≠ key delta := Ne.symm same
        rw [WorkDeltas.group] at ih
        simpa [same, different] using ih

end WorkDeltas

end Dolos
