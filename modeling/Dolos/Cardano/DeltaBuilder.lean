import Dolos.Cardano.Visitors

/-!
# The crawl of a block

`DeltaBuilder::crawl` and `compute_delta` of `cardano/src/roll/mod.rs`. The builder goes
through a block once, hands every part of it to the visitors in their order, and keeps
what they keep. What is in the body of a transaction besides its inputs and outputs is
handed on only when the transaction is valid; the visit of the transaction as a whole is
not, so that its fee or collateral is counted.
-/

namespace Dolos

open Outcome

/-- The visitors in the middle of a block. -/
structure DeltaBuilder where
  deltas : List CardanoDelta
  witnessDatums : OrderedMap BlockHash (List UInt8)
  dormancy : DormancyContext
  stats : EpochStatsUpdate
  pendingVotes : List VoteCast

namespace DeltaBuilder

def add (builder : DeltaBuilder) (added : List CardanoDelta) : DeltaBuilder :=
  { builder with deltas := builder.deltas ++ added }

def count (builder : DeltaBuilder) (change : EpochStatsUpdate → EpochStatsUpdate) :
    DeltaBuilder :=
  { builder with stats := change builder.stats }

variable [AssetDigest]

section Hooks

variable (context : RollContext) (utxos : UtxoMap MultiEraOutput) (slot : ℕ)

def visitRoot (block : DecodedBlock) (dormancy : DormancyContext) : DeltaBuilder where
  deltas := PoolStateVisitor.visitRoot context block
  witnessDatums := ∅
  dormancy := dormancy
  stats := EpochStateVisitor.rootStats context block
  pendingVotes := []

def visitTx (tx : MultiEraTx) (builder : DeltaBuilder) : Except ChainError DeltaBuilder := do
  let (added, dormancy) := DRepStateVisitor.visitTx context slot tx builder.dormancy
  let fees ← EpochStateVisitor.defineTxFees tx utxos
  .ok {
    deltas := builder.deltas ++ added
    witnessDatums := DatumVisitor.visitTx tx
    dormancy := dormancy
    stats := EpochStateVisitor.visitTx tx fees builder.stats
    pendingVotes := builder.pendingVotes ++ ProposalVisitor.visitTx slot tx }

def visitInput (builder : DeltaBuilder) (txo : TxoRef) : Except ChainError DeltaBuilder :=
  match utxos.get? txo with
  | none => .error (.inputNotFound txo)
  | some resolved => do
      let account ← AccountVisitor.visitInput resolved
      .ok ((builder.add (account ++ DatumVisitor.visitInput resolved)).count
        (EpochStateVisitor.visitInput resolved))

def visitOutput (hash : BlockHash) (builder : DeltaBuilder) (output : ℕ × MultiEraOutput) :
    Except ChainError DeltaBuilder := do
  let account ← AccountVisitor.visitOutput context output.2
  .ok ((builder.add (account ++ AssetStateVisitor.visitOutput hash output.2 ++
    DatumVisitor.visitOutput builder.witnessDatums output.2)).count
      (EpochStateVisitor.visitOutput output.2))

def visitMint (tx : MultiEraTx) (builder : DeltaBuilder)
    (mint : Hash28 × List (List UInt8 × ℤ)) : DeltaBuilder :=
  builder.add (AssetStateVisitor.visitMint slot tx mint)

def visitCert (order : ℕ) (builder : DeltaBuilder) (cert : MultiEraCert) :
    Except ChainError DeltaBuilder := do
  let account ← AccountVisitor.visitCert context slot order cert
  let (drep, dormancy) := DRepStateVisitor.visitCert context slot order cert builder.dormancy
  let pool ← PoolStateVisitor.visitCert context slot cert
  .ok (({ builder with dormancy := dormancy }.add (account ++ drep ++ pool)).count
    (EpochStateVisitor.visitCert cert))

def visitWithdrawal (builder : DeltaBuilder) (withdrawal : Option DecodedAddress × UInt64) :
    Except ChainError DeltaBuilder := do
  let account ← AccountVisitor.visitWithdrawal withdrawal
  .ok ((builder.add account).count (EpochStateVisitor.visitWithdrawal withdrawal.2))

def visitUpdate (carrier : BlockHash) (update : Option PParamsSet) (builder : DeltaBuilder) :
    DeltaBuilder :=
  builder.add (update.map (ProposalVisitor.visitUpdate context slot carrier)).toList

def visitProposal (hash : BlockHash) (builder : DeltaBuilder)
    (proposal : ProposalProcedure × ℕ) : Except ChainError DeltaBuilder := do
  let added ← ProposalVisitor.visitProposal context slot hash proposal.2 proposal.1
  .ok ((builder.add added).count (EpochStateVisitor.visitProposal proposal.1))

/-- What is handed on of a valid transaction besides its inputs and outputs. -/
def visitBody (order : ℕ) (tx : MultiEraTx) (builder : DeltaBuilder) :
    Except ChainError DeltaBuilder := do
  let builder := tx.mints.foldl (visitMint slot tx) builder
  let builder ← tx.certs.foldlM (visitCert context slot order) builder
  let builder ← tx.withdrawals.foldlM visitWithdrawal builder
  let builder := visitUpdate context slot tx.hash tx.update builder
  tx.govProposals.zipIdx.foldlM (visitProposal context slot tx.hash) builder

def crawlTx (builder : DeltaBuilder) (tx : MultiEraTx × ℕ) : Except ChainError DeltaBuilder := do
  let builder ← visitTx context utxos slot tx.1 builder
  let builder ← tx.1.consumes.foldlM (visitInput utxos) builder
  let builder ← tx.1.produces.foldlM (visitOutput context tx.1.hash) builder
  if tx.1.isValid then visitBody context slot tx.2 tx.1 builder else .ok builder

end Hooks

variable [NonceCrypto]

omit [AssetDigest] in
/-- What the visitors have left at the end, with what they kept back until then. -/
def flush (nonces : Option NoncesUpdate) (builder : DeltaBuilder) : List CardanoDelta :=
  builder.deltas ++ [.epochStatsUpdate builder.stats] ++ (nonces.map .noncesUpdate).toList ++
    builder.pendingVotes.map .voteCast

end DeltaBuilder

/-- The groups of deltas added one after the other. -/
def WorkDeltas.ofList [NonceCrypto] (deltas : List CardanoDelta) : WorkDeltas :=
  deltas.foldl WorkDeltas.addForEntity .default

section Crawl

variable [AssetDigest]

open DeltaBuilder

/-- The deltas of a block in the order they are added, and the dormancy after it. -/
def emit (context : RollContext) (utxos : UtxoMap MultiEraOutput) (dormancy : DormancyContext)
    (block : DecodedBlock) : Except ChainError (List CardanoDelta × DormancyContext) := do
  let nonces ← EpochStateVisitor.rootNonces block
  let visited ← block.txs.zipIdx.foldlM (crawlTx context utxos block.slot)
    (visitRoot context block dormancy)
  let visited := visitUpdate context block.slot block.hash block.update visited
  .ok (visited.flush nonces, visited.dormancy)

variable [NonceCrypto]

/-- One round of `compute_delta`: the deltas of a block and its changes to the UTxO set. -/
def computeBlockDelta (context : RollContext) (utxos : UtxoMap MultiEraOutput)
    (dormancy : DormancyContext) (block : DecodedBlock) :
    Except ChainError (WorkBlock MultiEraOutput × DormancyContext) := do
  let (deltas, after) ← emit context utxos dormancy block
  let utxoDelta ← (computeApplyDelta block.view utxos).mapError .domain
  .ok (⟨block.view, .ofList deltas, some utxoDelta⟩, after)

def computeBlockDeltas (context : RollContext) (utxos : UtxoMap MultiEraOutput) :
    DormancyContext → List DecodedBlock → Except ChainError (List (WorkBlock MultiEraOutput))
  | _, [] => .ok []
  | dormancy, block :: rest => do
      let (work, after) ← computeBlockDelta context utxos dormancy block
      let later ← computeBlockDeltas context utxos after rest
      .ok (work :: later)

end Crawl

end Dolos
