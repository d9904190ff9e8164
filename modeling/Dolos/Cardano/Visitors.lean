import Dolos.Cardano.Traverse

/-!
# The visitors of a block

`cardano/src/roll/`: the visitors that read a block and the crawl of `DeltaBuilder` that
leads them through it. Each hook of a visitor stands with the deltas it adds; a visitor
that keeps something between hooks gives it back beside them. Hooks that a visitor does
not implement add nothing and are left out, and so are the loops over witness datums and
redeemers, which no visitor looks at.

Deltas are kept in the order they are added and are grouped by entity at the end.
-/

namespace Dolos

inductive ChainError where
  | domain (error : DomainError)
  | decodingError
  | addressDecoding
  | inputNotFound (txo : TxoRef)
  | invalidProposalParams
  | missingGovState
  deriving DecidableEq

/-- A panic inside a hook. -/
def ChainError.panicked (panic : Panic) : ChainError := .domain (.panic panic)

/-- The digest of a policy and an asset name. -/
class AssetDigest where
  subject : Hash28 → List UInt8 → EntityKey

/-- What a batch tells its visitors. -/
structure RollContext where
  networkMagic : ℕ
  activeParams : PParamsSet
  epoch : ℕ
  epochStart : ℕ
  protocol : ℕ

structure DormancyContext where
  dormantEpochs : ℕ
  drepKeys : List EntityKey
  batchRegistrations : List EntityKey
  deriving DecidableEq, Repr

/-- Everyone a release is sent to, once. -/
def DormancyContext.releaseTargets (dormancy : DormancyContext) : List EntityKey :=
  ((dormancy.drepKeys ++ dormancy.batchRegistrations).mergeSort (· ≤ ·)).dedup

namespace AccountVisitor

open CardanoDelta

def visitInput (resolved : MultiEraOutput) : Except ChainError (List CardanoDelta) :=
  match resolved.address with
  | none => .error (.panicked .unwrapNone)
  | some address => do
      match ← (addressAsStakeCred address).mapError .panicked with
      | none => .ok []
      | some (cred, isPointer) =>
          .ok [controlledAmountDec (.new cred isPointer resolved.coin.toNat)]

def visitOutput (context : RollContext) (output : MultiEraOutput) :
    Except ChainError (List CardanoDelta) := do
  let address ← (expect output.address "valid address").mapError .panicked
  match ← (addressAsStakeCred address).mapError .panicked with
  | none => .ok []
  | some (cred, isPointer) =>
      .ok [controlledAmountInc (.new cred isPointer output.coin.toNat context.epoch)]

/-- Before Alonzo a later reward overwrites an earlier one. -/
def mirOverwrites (context : RollContext) : Bool := context.activeParams.protocolMajor.getD 0 < 5

def enqueueMirs (overwrite : Bool) (mir : MoveInstantaneousReward) : List CardanoDelta :=
  match mir.target with
  | .otherAccountingPot _ => []
  | .stakeCredentials creds =>
      creds.map fun entry =>
        let amount := UInt64.ofNat entry.2.toNat
        match mir.source with
        | .reserves => enqueueMir (.new entry.1 amount 0 overwrite)
        | .treasury => enqueueMir (.new entry.1 0 amount overwrite)

def visitRegistration (context : RollContext) (slot : ℕ) (cert : MultiEraCert) :
    Except ChainError (List CardanoDelta) :=
  match cert.asStakeRegistration with
  | none => .ok []
  | some cred => do
      let deposit ← (expect (context.activeParams.amount .keyDeposit)
        "value set in root").mapError .panicked
      .ok [stakeRegistration (.new cred slot context.epoch deposit)]

def visitCert (context : RollContext) (slot order : ℕ) (cert : MultiEraCert) :
    Except ChainError (List CardanoDelta) := do
  let registered ← visitRegistration context slot cert
  .ok (registered ++
    (cert.asStakeDelegation.map fun delegation =>
      stakeDelegation (.new delegation.1 delegation.2 context.epoch)).toList ++
    (cert.asStakeDeregistration.map fun cred =>
      stakeDeregistration (.new cred slot context.epoch)).toList ++
    (cert.asVoteDelegation.map fun delegation =>
      voteDelegation (.new delegation.1 delegation.2 slot order context.epoch)).toList ++
    (cert.asMirCertificate.map (enqueueMirs (mirOverwrites context))).getD [])

def visitWithdrawal (withdrawal : Option DecodedAddress × UInt64) :
    Except ChainError (List CardanoDelta) :=
  match withdrawal.1 with
  | none => .error .addressDecoding
  | some address => do
      match ← (addressAsStakeCred address).mapError .panicked with
      | none => .ok []
      | some (cred, _) => .ok [withdrawalInc (.new cred withdrawal.2.toNat)]

end AccountVisitor

namespace AssetStateVisitor

open CardanoDelta

variable [AssetDigest]

def visitAsset (slot : ℕ) (tx : MultiEraTx) (policy : Hash28) (asset : List UInt8 × ℤ) :
    List CardanoDelta :=
  let subject := AssetDigest.subject policy asset.1
  mintStatsUpdate (.new subject asset.2 tx.hash slot) ::
    if asset.2 > 0 ∧ tx.cip25Metadata.any (fun metadata => metadata.hasAsset policy asset.1) then
      [metadataTxUpdate (.new subject tx.hash)]
    else []

def visitMint (slot : ℕ) (tx : MultiEraTx) (mint : Hash28 × List (List UInt8 × ℤ)) :
    List CardanoDelta :=
  mint.2.flatMap (visitAsset slot tx mint.1)

/-- A reference token comes with a datum, which is where its metadata is. -/
def visitOutput (hash : BlockHash) (output : MultiEraOutput) : List CardanoDelta :=
  match output.datum with
  | none => []
  | some _ =>
      output.assets.flatMap fun held =>
        (held.2.filter fun name => parseCip67Label name = some 100).map fun name =>
          metadataTxUpdate (.new (AssetDigest.subject held.1 name) hash)

end AssetStateVisitor

namespace DatumVisitor

open CardanoDelta

def visitTx (tx : MultiEraTx) : OrderedMap BlockHash (List UInt8) := .ofList tx.plutusData

def visitInput (resolved : MultiEraOutput) : List CardanoDelta :=
  match resolved.datum with
  | some (.hash hash) => [datumRefDecrement (.new hash)]
  | _ => []

def visitOutput (witnessDatums : OrderedMap BlockHash (List UInt8)) (output : MultiEraOutput) :
    List CardanoDelta :=
  match output.datum with
  | some (.hash hash) =>
      match witnessDatums.get? hash with
      | some bytes => [datumRefIncrement (.new hash bytes)]
      | none => []
  | _ => []

end DatumVisitor

namespace DRepStateVisitor

open CardanoDelta

/-- `refresh_expiry` -/
def refreshExpiry (context : RollContext) (dormancy : DormancyContext) : Option ℕ :=
  (context.activeParams.amount .drepInactivityPeriod).map fun activity =>
    context.epoch + activity - dormancy.dormantEpochs

/-- The first version of the rules ignored dormancy here. -/
def registrationExpiry (context : RollContext) (dormancy : DormancyContext) : Option ℕ :=
  if context.protocol = 9 then
    (context.activeParams.amount .drepInactivityPeriod).map (context.epoch + ·)
  else refreshExpiry context dormancy

/-- A proposal ends a dormant stretch. -/
def release (context : RollContext) (tx : MultiEraTx) (dormancy : DormancyContext) :
    List CardanoDelta × DormancyContext :=
  if dormancy.dormantEpochs > 0 ∧ tx.govProposals ≠ [] then
    ((dormancy.releaseTargets.map fun target =>
        drepDormancyRelease (.new target dormancy.dormantEpochs context.epoch)) ++
      [govDormancyReset .new],
      { dormancy with dormantEpochs := 0, batchRegistrations := [] })
  else ([], dormancy)

def voterDRep : Voter → Option DRep
  | .drepKey hash => some (.key hash)
  | .drepScript hash => some (.script hash)
  | _ => none

def expiryUpdate (context : RollContext) (drep : DRep) (expiry : Option ℕ)
    (onlyIfRegistered : Bool) : List CardanoDelta :=
  (expiry.map fun expiry =>
    drepExpiryUpdate (.new drep expiry context.epoch onlyIfRegistered)).toList

def visitVoter (context : RollContext) (slot : ℕ) (dormancy : DormancyContext) (voter : Voter) :
    List CardanoDelta :=
  match voterDRep voter with
  | none => []
  | some drep =>
      drepActivity (.new drep slot) ::
        expiryUpdate context drep (refreshExpiry context dormancy) true

def visitTx (context : RollContext) (slot : ℕ) (tx : MultiEraTx) (dormancy : DormancyContext) :
    List CardanoDelta × DormancyContext :=
  if tx.era ≠ .conway ∨ tx.isValid = false then ([], dormancy)
  else
    let (released, dormancy) := release context tx dormancy
    (released ++ (tx.votingProcedures.getD []).flatMap fun votes =>
      visitVoter context slot dormancy votes.1, dormancy)

def committeeDeltas (slot : ℕ) (cert : MultiEraCert) : List CardanoDelta :=
  (cert.asCommitteeAuth.map fun auth => committeeAuth (.new auth.1 auth.2 slot)).toList ++
    (cert.asCommitteeResign.map fun resign =>
      committeeResign (.new resign.1 resign.2 slot)).toList

/-- What the certificate itself does to the representative, before its activity is
noted. -/
def drepDeltas (context : RollContext) (slot order : ℕ) (dormancy : DormancyContext) :
    MultiEraCert → List CardanoDelta
  | .conway (.regDRepCert cred deposit anchor) =>
      let drep := stakeCredToDRep cred
      drepRegistration (.new drep slot order deposit.toNat anchor) ::
        drepAnchorUpdate (.new drep anchor) ::
          expiryUpdate context drep (registrationExpiry context dormancy) false
  | .conway (.unRegDRepCert cred _) =>
      [drepUnRegistration (.new (stakeCredToDRep cred) slot order)]
  | .conway (.updateDRepCert cred anchor) =>
      let drep := stakeCredToDRep cred
      drepAnchorUpdate (.new drep anchor) ::
        expiryUpdate context drep (refreshExpiry context dormancy) false
  | _ => []

def noteRegistration (dormancy : DormancyContext) : MultiEraCert → DormancyContext
  | .conway (.regDRepCert cred _ _) =>
      if dormancy.dormantEpochs > 0 then
        { dormancy with
          batchRegistrations :=
            dormancy.batchRegistrations ++ [(stakeCredToDRep cred).entityKey] }
      else dormancy
  | _ => dormancy

def visitCert (context : RollContext) (slot order : ℕ) (cert : MultiEraCert)
    (dormancy : DormancyContext) : List CardanoDelta × DormancyContext :=
  (committeeDeltas slot cert ++ drepDeltas context slot order dormancy cert ++
    (cert.drep.map fun drep => drepActivity (.new drep slot)).toList,
    noteRegistration dormancy cert)

end DRepStateVisitor

namespace EpochStateVisitor

/-- What the consumed outputs hold more than the produced ones. -/
def computeCollateralValue (tx : MultiEraTx) (utxos : UtxoMap MultiEraOutput) :
    Except ChainError UInt64 := do
  let consumed ← tx.consumes.foldlM (fun total txo =>
    match utxos.get? txo with
    | some output => .ok (total + output.coin)
    | none => .error (.domain (.missingUtxo txo))) 0
  .ok (tx.produces.foldl (fun total output => total - output.2.coin) consumed)

def defineTxFees (tx : MultiEraTx) (utxos : UtxoMap MultiEraOutput) :
    Except ChainError UInt64 :=
  if tx.era = .byron then .ok tx.byronFee
  else if tx.isValid then .ok (tx.fee.getD 0)
  else
    match tx.totalCollateral with
    | some collateral => .ok collateral
    | none => computeCollateralValue tx utxos

def saturatingMul128 (left right : ℕ) : ℕ := min (left * right) (2 ^ 128 - 1)

def isOverlaySlot (firstSlot : ℕ) (d : RationalNumber) (slot : ℕ) : Bool :=
  let s := slot - firstSlot
  if d.denominator = 0 then false
  else
    let step := fun x =>
      min (saturatingMul128 x d.numerator + (d.denominator - 1)) (2 ^ 128 - 1) / d.denominator
    step s < step (s + 1)

def defaultStats (epoch blockSlot : ℕ) : EpochStatsUpdate where
  epoch := epoch
  blockFees := 0
  utxoDelta := 0
  newAccounts := 0
  removedAccounts := 0
  withdrawals := 0
  registeredPools := ∅
  drepDeposits := 0
  proposalDeposits := 0
  drepRefunds := 0
  treasuryDonations := 0
  reserveMirs := 0
  treasuryMirs := 0
  nonOverlayBlocksMinted := 0
  txCount := 0
  output := 0
  blockSlot := blockSlot
  wasNew := false
  prevRegisteredPools := ∅
  prevFirstBlockSlot := 0
  prevLastBlockSlot := 0

def rootStats (context : RollContext) (block : DecodedBlock) : EpochStatsUpdate :=
  let stats := defaultStats context.epoch block.slot
  let isOverlay := (context.activeParams.ratio .decentralizationConstant).any fun d =>
    isOverlaySlot context.epochStart d block.slot
  if isOverlay then stats
  else { stats with nonOverlayBlocksMinted := stats.nonOverlayBlocksMinted + 1 }

/-- Nonces are tracked from Shelley on. -/
def rootNonces (block : DecodedBlock) : Except ChainError (Option NoncesUpdate) :=
  if block.isShelley then
    match block.nonceVrfOutput with
    | some output => .ok (some (.new block.slot block.previousHash output))
    | none => .error .decodingError
  else .ok none

def visitTx (tx : MultiEraTx) (fees : UInt64) (stats : EpochStatsUpdate) : EpochStatsUpdate :=
  { stats with
    blockFees := stats.blockFees + fees
    txCount := stats.txCount + 1
    treasuryDonations := stats.treasuryDonations + tx.treasuryDonation.getD 0 }

/-- A value of a 64-bit signed integer. -/
def wrapInt64 (value : ℤ) : ℤ := value.bmod (2 ^ 64)

def visitInput (resolved : MultiEraOutput) (stats : EpochStatsUpdate) : EpochStatsUpdate :=
  { stats with utxoDelta := wrapInt64 (stats.utxoDelta - wrapInt64 resolved.coin.toNat) }

def visitOutput (output : MultiEraOutput) (stats : EpochStatsUpdate) : EpochStatsUpdate :=
  { stats with
    utxoDelta := wrapInt64 (stats.utxoDelta + wrapInt64 output.coin.toNat)
    output := stats.output + output.coin.toBitVec.setWidth 128 }

/-- The sum of the rewards moved out of a source, negative ones clamped. -/
def mirTotal (source : InstantaneousRewardSource) (mir : MoveInstantaneousReward) : UInt64 :=
  match mir.target with
  | .otherAccountingPot _ => 0
  | .stakeCredentials creds =>
      if mir.source = source then
        creds.foldl (fun total entry => total + UInt64.ofNat entry.2.toNat) 0
      else 0

def visitCert (cert : MultiEraCert) (stats : EpochStatsUpdate) : EpochStatsUpdate :=
  { stats with
    newAccounts := stats.newAccounts + if cert.asStakeRegistration.isSome then 1 else 0
    removedAccounts := stats.removedAccounts + if cert.asStakeDeregistration.isSome then 1 else 0
    registeredPools :=
      match cert.asPoolRegistration with
      | some registration => stats.registeredPools.insert registration.operator ()
      | none => stats.registeredPools
    drepDeposits := stats.drepDeposits + (cert.asDRepRegistration.map Prod.snd).getD 0
    drepRefunds := stats.drepRefunds + (cert.asDRepUnregistration.map Prod.snd).getD 0
    reserveMirs := stats.reserveMirs + (cert.asMirCertificate.map (mirTotal .reserves)).getD 0
    treasuryMirs :=
      stats.treasuryMirs + (cert.asMirCertificate.map (mirTotal .treasury)).getD 0 }

def visitProposal (proposal : ProposalProcedure) (stats : EpochStatsUpdate) : EpochStatsUpdate :=
  { stats with proposalDeposits := stats.proposalDeposits + proposal.deposit }

def visitWithdrawal (amount : UInt64) (stats : EpochStatsUpdate) : EpochStatsUpdate :=
  { stats with withdrawals := stats.withdrawals + amount }

end EpochStateVisitor

namespace PoolStateVisitor

open CardanoDelta

def visitRoot (context : RollContext) (block : DecodedBlock) : List CardanoDelta :=
  (block.issuer.map fun operator => mintedBlocksInc ⟨operator, 1, context.epoch⟩).toList

def visitRegistration (context : RollContext) (slot : ℕ) (cert : MultiEraCert) :
    Except ChainError (List CardanoDelta) :=
  match cert.asPoolRegistration with
  | none => .ok []
  | some registration => do
      let deposit ← (expect (context.activeParams.amount .poolDeposit)
        "value set in root").mapError .panicked
      .ok [poolRegistration (.new registration slot context.epoch deposit)]

def visitCert (context : RollContext) (slot : ℕ) (cert : MultiEraCert) :
    Except ChainError (List CardanoDelta) := do
  let registered ← visitRegistration context slot cert
  .ok (registered ++ (cert.asPoolRetirement.map fun retirement =>
    poolDeRegistration (.new retirement.1 retirement.2)).toList)

end PoolStateVisitor

namespace ProposalVisitor

open CardanoDelta

def visitTx (slot : ℕ) (tx : MultiEraTx) : List VoteCast :=
  if tx.era ≠ .conway ∨ tx.isValid = false then []
  else (tx.votingProcedures.getD []).flatMap fun votes =>
    votes.2.map fun vote => .new vote.1.1 vote.1.2 votes.1 vote.2 slot

/-- Updates before Conway carry no lineage, deposit or anchor. -/
def visitUpdate (context : RollContext) (slot : ℕ) (carrier : BlockHash) (update : PParamsSet) :
    CardanoDelta :=
  newProposalV2 {
    slot := slot
    tx := carrier
    idx := 0
    action := .paramChange update
    deposit := none
    rewardAccount := none
    validityPeriod := context.activeParams.amount .governanceActionValidityPeriod
    currentEpoch := context.epoch
    networkMagic := context.networkMagic
    protocol := context.protocol
    parent := none
    purpose := none
    anchor := none
    prev := none }

def visitProposal (context : RollContext) (slot : ℕ) (tx : BlockHash) (idx : ℕ)
    (proposal : ProposalProcedure) : Except ChainError (List CardanoDelta) := do
  let action ← (expect proposal.govAction "reward account should be valid").mapError .panicked
  match ← (parseRewardAccount proposal.rewardAccount).mapError .panicked with
  | none => .error .invalidProposalParams
  | some account =>
      let (parsed, parent, purpose) := parseGovAction action
      .ok [newProposalV2 {
        slot := slot
        tx := tx
        idx := Fin.ofNat _ idx
        action := parsed
        deposit := some proposal.deposit.toNat
        rewardAccount := some account
        validityPeriod := context.activeParams.amount .governanceActionValidityPeriod
        currentEpoch := context.epoch
        networkMagic := context.networkMagic
        protocol := context.protocol
        parent := parent
        purpose := purpose
        anchor := some proposal.anchor
        prev := none }]

end ProposalVisitor

end Dolos
