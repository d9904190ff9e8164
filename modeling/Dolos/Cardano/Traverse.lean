import Dolos.Cardano.Enactment
import Dolos.Cardano.Roll

/-!
# Blocks as the visitors read them

`cardano/src/pallas_extras.rs`, `hacks.rs`, `cip25.rs` and `cip68.rs`, over the views of
blocks, transactions and certificates that the decoder gives: addresses and parameter
updates stand decoded, hashes of keys and datums are given with what they are hashes of.

Which inputs a transaction consumes and which outputs it produces depends on its
validity: after a failed script the collateral takes the place of both.
-/

namespace Dolos

inductive ShelleyDelegationPart where
  | key (hash : Hash28)
  | script (hash : Hash28)
  | pointer (slot txIdx certIdx : ℕ)
  | null
  deriving DecidableEq, Repr

inductive StakePayload where
  | stake (hash : Hash28)
  | script (hash : Hash28)
  deriving DecidableEq, Repr

/-- An address as far as stake is found through it. -/
inductive DecodedAddress where
  | byron
  | shelley (delegation : ShelleyDelegationPart)
  | stake (payload : StakePayload)
  deriving DecidableEq, Repr

/-- The pointers met on the three networks. One that is not among them is a panic. -/
def pointerToCred : ℕ × ℕ × ℕ → Except Panic (Option StakeCredential)
  | (2940289, 1, 0) =>
      .ok (some (.addrKeyhash 0x0c90492bbe7eb33f38173255e547dc3194abcec5cd29cdf504bb4f03))
  | (100, 2, 0) => .ok none
  | (1, 1, 1) => .ok none
  | (0, 0, 0) => .ok none
  | (0, 1, 10000) => .ok none
  | (10000000, 1, 1) => .ok none
  | (100, 100, 1) => .ok none
  | (1, 1, 1000) => .ok none
  | (1, 1, 0) => .ok none
  | (50, 50, 5) => .ok none
  | (10612742, 0, 0) =>
      .ok (some (.addrKeyhash 0x4dcca876aac2fcc561f7df3da772d747e2148c9a05c7b27e49a05ea2))
  | (70549345, 1, 0) =>
      .ok (some (.addrKeyhash 0xb1a3b1ef9460dc7bef8ffdf49ce4e01b1cc2505c614ee62b3223f458))
  | (82626550, 0, 0) => .ok none
  | (2498243, 27, 3) => .ok none
  | (4495800, 11, 0) =>
      .ok (some (.addrKeyhash 0xbc1597ad71c55d2d009a9274b3831ded155118dd769f5376decc1369))
  | (20095460, 2, 0) =>
      .ok (some (.addrKeyhash 0x1332d859dd71f5b1089052a049690d81f7367eac9fafaef80b4da395))
  | (12, 12, 12) => .ok none
  | (62, 96, 105) => .ok none
  | (116, 49, 0) => .ok none
  | (124, 21, 3807) => .ok none
  | (13005, 15312, 1878946283) => .ok none
  | (13200, 526450, 149104513) => .ok none
  | (222624, 45784521, 167387965) => .ok none
  | (105, 13146, 24) => .ok none
  | (16292793057, 1011302, 20) => .ok none
  | (18446744073709551615, 1221092, 2) =>
      .ok (some (.addrKeyhash 0x1332d859dd71f5b1089052a049690d81f7367eac9fafaef80b4da395))
  | (53004562, 9, 0) =>
      .ok (some (.addrKeyhash 0xe46c33afa9ca60cfeb3b7452a415c271772020b3f57ac90c496a6127))
  | (156960568, 15, 0) =>
      .ok (some (.addrKeyhash 0xa3d3ba720c11bb6b7364bb0ee2abfca79ec135aaafe0bd0b89f24121))
  | (78312587, 5, 0) =>
      .ok (some (.addrKeyhash 0xa773914d934899b3656f7f4edc3293c5804dc288faa468f6587f05e6))
  | _ => .error (.explicit "explicit panic")

def shelleyAddressToStakeCred : ShelleyDelegationPart →
    Except Panic (Option (StakeCredential × Bool))
  | .key hash => .ok (some (.addrKeyhash hash, false))
  | .script hash => .ok (some (.scriptHash hash, false))
  | .pointer slot txIdx certIdx => do
      let cred ← pointerToCred (slot, txIdx, certIdx)
      .ok (cred.map fun cred => (cred, true))
  | .null => .ok none

def stakeAddressToCred : StakePayload → StakeCredential
  | .stake hash => .addrKeyhash hash
  | .script hash => .scriptHash hash

/-- The credential behind an address, and whether a pointer led to it. -/
def addressAsStakeCred : DecodedAddress → Except Panic (Option (StakeCredential × Bool))
  | .byron => .ok none
  | .shelley delegation => shelleyAddressToStakeCred delegation
  | .stake payload => .ok (some (stakeAddressToCred payload, false))

/-- The account of a reward address; the bytes may not be an address at all. -/
def parseRewardAccount : Option DecodedAddress → Except Panic (Option StakeCredential)
  | none => .ok none
  | some address => do
      let cred ← addressAsStakeCred address
      .ok (cred.map Prod.fst)

inductive DatumOption where
  | hash (hash : BlockHash)
  | data
  deriving DecidableEq, Repr

/-- An output. The address is absent where its bytes do not decode. -/
structure MultiEraOutput where
  address : Option DecodedAddress
  coin : UInt64
  assets : List (Hash28 × List (List UInt8))
  datum : Option DatumOption
  deriving DecidableEq, Repr

inductive InstantaneousRewardSource where
  | reserves
  | treasury
  deriving DecidableEq, Repr

inductive InstantaneousRewardTarget where
  | stakeCredentials (creds : List (StakeCredential × ℤ))
  | otherAccountingPot (coin : ℕ)
  deriving DecidableEq, Repr

structure MoveInstantaneousReward where
  source : InstantaneousRewardSource
  target : InstantaneousRewardTarget
  deriving DecidableEq, Repr

inductive AlonzoCert where
  | stakeRegistration (cred : StakeCredential)
  | stakeDeregistration (cred : StakeCredential)
  | stakeDelegation (cred : StakeCredential) (pool : Hash28)
  | poolRegistration (cert : MultiEraPoolRegistration)
  | poolRetirement (operator : Hash28) (epoch : ℕ)
  | genesisKeyDelegation
  | moveInstantaneousRewardsCert (mir : MoveInstantaneousReward)
  deriving DecidableEq, Repr

inductive ConwayCert where
  | stakeRegistration (cred : StakeCredential)
  | stakeDeregistration (cred : StakeCredential)
  | stakeDelegation (cred : StakeCredential) (pool : Hash28)
  | poolRegistration (cert : MultiEraPoolRegistration)
  | poolRetirement (operator : Hash28) (epoch : ℕ)
  | reg (cred : StakeCredential) (deposit : ℕ)
  | unReg (cred : StakeCredential) (deposit : ℕ)
  | voteDeleg (cred : StakeCredential) (drep : DRep)
  | stakeVoteDeleg (cred : StakeCredential) (pool : Hash28) (drep : DRep)
  | stakeRegDeleg (cred : StakeCredential) (pool : Hash28) (deposit : ℕ)
  | voteRegDeleg (cred : StakeCredential) (drep : DRep) (deposit : ℕ)
  | stakeVoteRegDeleg (cred : StakeCredential) (pool : Hash28) (drep : DRep) (deposit : ℕ)
  | authCommitteeHot (cold hot : StakeCredential)
  | resignCommitteeCold (cold : StakeCredential) (anchor : Option Anchor)
  | regDRepCert (cred : StakeCredential) (deposit : UInt64) (anchor : Option Anchor)
  | unRegDRepCert (cred : StakeCredential) (deposit : UInt64)
  | updateDRepCert (cred : StakeCredential) (anchor : Option Anchor)
  deriving DecidableEq, Repr

inductive MultiEraCert where
  | notApplicable
  | alonzoCompatible (cert : AlonzoCert)
  | conway (cert : ConwayCert)
  deriving DecidableEq, Repr

def stakeCredToDRep : StakeCredential → DRep
  | .addrKeyhash hash => .key hash
  | .scriptHash hash => .script hash

namespace MultiEraCert

def asPoolRegistration : MultiEraCert → Option MultiEraPoolRegistration
  | alonzoCompatible (.poolRegistration cert) => some cert
  | conway (.poolRegistration cert) => some cert
  | _ => none

def asPoolRetirement : MultiEraCert → Option (Hash28 × ℕ)
  | alonzoCompatible (.poolRetirement operator epoch) => some (operator, epoch)
  | conway (.poolRetirement operator epoch) => some (operator, epoch)
  | _ => none

def asVoteDelegation : MultiEraCert → Option (StakeCredential × DRep)
  | conway (.voteDeleg cred drep) => some (cred, drep)
  | conway (.voteRegDeleg cred drep _) => some (cred, drep)
  | conway (.stakeVoteRegDeleg cred _ drep _) => some (cred, drep)
  | conway (.stakeVoteDeleg cred _ drep) => some (cred, drep)
  | _ => none

def asDRepRegistration : MultiEraCert → Option (StakeCredential × UInt64)
  | conway (.regDRepCert cred deposit _) => some (cred, deposit)
  | _ => none

def asDRepUnregistration : MultiEraCert → Option (StakeCredential × UInt64)
  | conway (.unRegDRepCert cred deposit) => some (cred, deposit)
  | _ => none

def asCommitteeAuth : MultiEraCert → Option (StakeCredential × StakeCredential)
  | conway (.authCommitteeHot cold hot) => some (cold, hot)
  | _ => none

def asCommitteeResign : MultiEraCert → Option (StakeCredential × Option Anchor)
  | conway (.resignCommitteeCold cold anchor) => some (cold, anchor)
  | _ => none

def asStakeDelegation : MultiEraCert → Option (StakeCredential × Hash28)
  | alonzoCompatible (.stakeDelegation cred pool) => some (cred, pool)
  | conway (.stakeDelegation cred pool) => some (cred, pool)
  | conway (.stakeRegDeleg cred pool _) => some (cred, pool)
  | conway (.stakeVoteRegDeleg cred pool _ _) => some (cred, pool)
  | conway (.stakeVoteDeleg cred pool _) => some (cred, pool)
  | _ => none

def asStakeRegistration : MultiEraCert → Option StakeCredential
  | alonzoCompatible (.stakeRegistration cred) => some cred
  | conway (.stakeRegistration cred) => some cred
  | conway (.reg cred _) => some cred
  | conway (.stakeRegDeleg cred _ _) => some cred
  | conway (.voteRegDeleg cred _ _) => some cred
  | conway (.stakeVoteRegDeleg cred _ _ _) => some cred
  | _ => none

def asStakeDeregistration : MultiEraCert → Option StakeCredential
  | alonzoCompatible (.stakeDeregistration cred) => some cred
  | conway (.stakeDeregistration cred) => some cred
  | conway (.unReg cred _) => some cred
  | _ => none

def asMirCertificate : MultiEraCert → Option MoveInstantaneousReward
  | alonzoCompatible (.moveInstantaneousRewardsCert mir) => some mir
  | _ => none

/-- `cert_drep`: the representative a certificate registers, updates or retires. -/
def drep : MultiEraCert → Option DRep
  | conway (.regDRepCert cred _ _) => some (stakeCredToDRep cred)
  | conway (.unRegDRepCert cred _) => some (stakeCredToDRep cred)
  | conway (.updateDRepCert cred _) => some (stakeCredToDRep cred)
  | _ => none

end MultiEraCert

inductive Metadatum where
  | int (value : ℤ)
  | bytes (value : List UInt8)
  | text (value : String)
  | array (items : List Metadatum)
  | map (entries : List (Metadatum × Metadatum))

/-- `hex::encode`. -/
def hexEncode (bytes : List UInt8) : String :=
  String.ofList (bytes.flatMap fun byte =>
    [Nat.digitChar (byte.toNat / 16), Nat.digitChar (byte.toNat % 16)])

def eqIgnoreAsciiCase (left right : String) : Bool := left.toLower = right.toLower

namespace Metadatum

def keyMatchesPolicy (policy : Hash28) : Metadatum → Bool
  | bytes value => hexEncode value = policy.hex
  | text value => eqIgnoreAsciiCase value policy.hex
  | _ => false

def keyMatchesAsset (asset : List UInt8) : Metadatum → Bool
  | bytes value => value = asset
  | text value =>
      String.fromUTF8? ⟨asset.toArray⟩ = some value || eqIgnoreAsciiCase value (hexEncode asset)
  | _ => false

/-- `cip25_metadata_has_asset`. -/
def hasAsset (metadata : Metadatum) (policy : Hash28) (asset : List UInt8) : Bool :=
  match metadata with
  | map policies =>
      match policies.find? fun entry => entry.1.keyMatchesPolicy policy with
      | some (_, map assets) => assets.any fun entry => entry.1.keyMatchesAsset asset
      | _ => false
  | _ => false

end Metadatum

/-- One bit of the checksum's division. -/
def crc8Step (crc : UInt8) : UInt8 :=
  if crc &&& 0x80 = 0 then crc <<< 1 else (crc <<< 1) ^^^ 0x07

/-- The `CRC_8_SMBUS` checksum. -/
def crc8 (bytes : List UInt8) : UInt8 :=
  bytes.foldl (fun crc byte => crc8Step^[8] (crc ^^^ byte)) 0

/-- `parse_cip67_label_from_asset_name`: four bytes that hold a zero, four digits, two
digits of checksum and a zero. -/
def parseCip67Label : List UInt8 → Option ℕ
  | first :: second :: third :: fourth :: _ =>
      let high := first <<< 4 ||| second >>> 4
      let low := second <<< 4 ||| third >>> 4
      let checksum := third <<< 4 ||| fourth >>> 4
      if first < 16 ∧ fourth &&& 0x0f = 0 ∧ checksum = crc8 [high, low] then
        some (high.toNat * 256 + low.toNat)
      else none
  | _ => none

/-- A proposal. The action is absent where it is a withdrawal to something that is no
account. -/
structure ProposalProcedure where
  deposit : UInt64
  rewardAccount : Option DecodedAddress
  govAction : Option GovAction
  anchor : Anchor
  deriving DecidableEq, Repr

inductive TxEra where
  | byron
  | alonzoCompatible
  | babbage
  | conway
  deriving DecidableEq, Repr

/-- A transaction. Witness datums stand with their hashes, the fee of a Byron
transaction is the one its size amounts to. -/
structure MultiEraTx where
  era : TxEra
  hash : BlockHash
  isValid : Bool
  inputs : List TxoRef
  outputs : List MultiEraOutput
  collateral : List TxoRef
  collateralReturn : Option MultiEraOutput
  totalCollateral : Option UInt64
  fee : Option UInt64
  byronFee : UInt64
  mints : List (Hash28 × List (List UInt8 × ℤ))
  metadata : List (ℕ × Metadatum)
  certs : List MultiEraCert
  withdrawals : List (Option DecodedAddress × UInt64)
  update : Option PParamsSet
  plutusData : List (BlockHash × List UInt8)
  votingProcedures : Option (List (Voter × List ((BlockHash × Fin (2 ^ 32)) × Vote)))
  govProposals : List ProposalProcedure
  donation : Option UInt64

namespace MultiEraTx

def consumes (tx : MultiEraTx) : List TxoRef :=
  (if tx.isValid then tx.inputs else tx.collateral).eraseDups

/-- The collateral return takes the index after the regular outputs. -/
def produces (tx : MultiEraTx) : List (ℕ × MultiEraOutput) :=
  if tx.isValid then tx.outputs.zipIdx.map Prod.swap
  else tx.collateralReturn.toList.map fun output => (tx.outputs.length, output)

def treasuryDonation (tx : MultiEraTx) : Option UInt64 :=
  match tx.era with
  | .conway => tx.donation
  | _ => none

/-- What the metadata has under the label of CIP-25. -/
def cip25Metadata (tx : MultiEraTx) : Option Metadatum :=
  (tx.metadata.find? fun entry => entry.1 = 721).map Prod.snd

/-- What the UTxO set reads of a transaction. -/
def view (tx : MultiEraTx) : Tx MultiEraOutput := ⟨tx.hash, tx.produces, tx.consumes⟩

end MultiEraTx

/-- A decoded block: the issuer is the hash of its verification key. -/
structure DecodedBlock where
  slot : ℕ
  hash : BlockHash
  previousHash : Option BlockHash
  isShelley : Bool
  issuer : Option Hash28
  nonceVrfOutput : Option (List UInt8)
  txs : List MultiEraTx
  update : Option PParamsSet

def DecodedBlock.view (block : DecodedBlock) : MultiEraBlock MultiEraOutput :=
  ⟨block.slot, block.hash, block.previousHash, block.txs.map MultiEraTx.view⟩

end Dolos
