import Dolos.Cardano.EraTransitions

/-!
# Forks

`cardano/src/forks.rs`: the parameters of a protocol version made from those of the version
before it and from the genesis file of its era.

Ratios that the files give as decimals are taken as they are read, and so is the time that
the start of the system parses to.
-/

namespace Dolos

open Outcome

namespace PParamsSet

theorem find_replaceF {values : List PParamValue} {value : PParamValue} (kind : PParamKind)
    (held : (values.find? fun old => old.kind = value.kind).isSome) :
    (values.replaceF fun old => if old.kind = value.kind then some value else none).find?
        (fun old => old.kind = kind) =
      if kind = value.kind then some value else values.find? fun old => old.kind = kind := by
  induction values with
  | nil => cases held
  | cons first rest ih =>
      rw [List.replaceF_cons]
      by_cases isHere : first.kind = value.kind
      · rw [if_pos isHere]
        by_cases wanted : kind = value.kind
        · simp [wanted]
        · have other : ¬ value.kind = kind := fun same => wanted same.symm
          have otherFirst : ¬ first.kind = kind := fun same => wanted (same.symm.trans isHere)
          simp [other, otherFirst, wanted]
      · rw [if_neg isHere]
        have heldLater : (rest.find? fun old => old.kind = value.kind).isSome := by
          simpa [List.find?_cons, isHere] using held
        by_cases firstWanted : first.kind = kind
        · have other : ¬ kind = value.kind := fun same => isHere (firstWanted.trans same)
          simp [firstWanted, other]
        · simpa [List.find?_cons, firstWanted] using ih heldLater

/-- Setting a value answers for its own kind and leaves the others. -/
theorem get_set (params : PParamsSet) (value : PParamValue) (kind : PParamKind) :
    (params.set value).get kind = if kind = value.kind then some value else params.get kind := by
  rw [set]
  split_ifs with held wanted wanted
  · rw [get, find_replaceF kind held, if_pos wanted]
  · rw [get, find_replaceF kind held, if_neg wanted]
    rfl
  · have absent : params.get value.kind = none := Option.not_isSome_iff_eq_none.mp held
    rw [get] at absent
    rw [get, List.find?_append, wanted, absent]
    simp
  · rw [get, List.find?_append]
    have other : ¬ value.kind = kind := fun same => wanted same.symm
    simp [get, other]

/-- Parameters of other kinds keep the protocol version. -/
theorem protocolMajor_merge (params : PParamsSet) {values : List PParamValue}
    (others : ∀ value ∈ values, value.kind ≠ .protocolVersion) :
    (params.merge ⟨values⟩).protocolMajor = params.protocolMajor := by
  induction values generalizing params with
  | nil => rfl
  | cons first rest ih =>
      have kept : (params.set first).protocolMajor = params.protocolMajor := by
        rw [protocolMajor, get_set, if_neg (others first List.mem_cons_self).symm]
        rfl
      rw [← kept]
      exact ih (params.set first) fun value member => others value (List.mem_cons_of_mem _ member)

theorem protocolMajor_merge_version (params : PParamsSet) {major minor : ℕ}
    {values : List PParamValue} (others : ∀ value ∈ values, value.kind ≠ .protocolVersion) :
    (params.merge ⟨⟨.protocolVersion, .version major minor⟩ :: values⟩).protocolMajor =
      some (major % 2 ^ 16) := by
  have isSet : (params.set ⟨.protocolVersion, .version major minor⟩).protocolMajor =
      some (major % 2 ^ 16) := by
    rw [protocolMajor, get_set, if_pos rfl]
  rw [← isSet]
  exact protocolMajor_merge _ others

end PParamsSet

structure ShelleyGenesis where
  systemStart : ℕ
  protocolVersion : ℕ × ℕ
  maxBlockBodySize : ℕ
  maxTxSize : ℕ
  maxBlockHeaderSize : ℕ
  keyDeposit : ℕ
  minUtxoValue : ℕ
  minFeeA : ℕ
  minFeeB : ℕ
  poolDeposit : ℕ
  nOpt : ℕ
  minPoolCost : ℕ
  rho : RationalNumber
  tau : RationalNumber
  eMax : ℕ
  a0 : RationalNumber
  decentralisationParam : RationalNumber
  extraEntropy : Option BlockHash
  deriving DecidableEq, Repr

structure AlonzoGenesis where
  lovelacePerUtxoWord : ℕ
  executionPrices : List RationalNumber
  maxTxExUnits : ℕ × ℕ
  maxBlockExUnits : ℕ × ℕ
  maxValueSize : ℕ
  collateralPercentage : ℕ
  maxCollateralInputs : ℕ
  costModelPlutusV1 : Option (List ℤ)
  costModelPlutusV2 : Option (List ℤ)
  deriving DecidableEq, Repr

structure ConwayGenesis where
  plutusV3CostModel : List ℤ
  poolVotingThresholds : List RationalNumber
  dRepVotingThresholds : List RationalNumber
  committeeMinSize : ℕ
  committeeMaxTermLength : ℕ
  govActionLifetime : ℕ
  govActionDeposit : ℕ
  dRepDeposit : ℕ
  dRepActivity : ℕ
  minFeeRefScriptCostPerByte : ℕ
  deriving DecidableEq, Repr

/-- The genesis files, as far as the forks read them. -/
structure ForkGenesis where
  eras : EraGenesis
  shelley : ShelleyGenesis
  alonzo : AlonzoGenesis
  conway : ConwayGenesis
  deriving DecidableEq, Repr

def fromShelleyGenesis (genesis : ForkGenesis) : PParamsSet :=
  let shelley := genesis.shelley
  (PParamsSet.default.set ⟨.systemStart, .amount shelley.systemStart⟩).merge
    ⟨[⟨.protocolVersion, .version shelley.protocolVersion.1 shelley.protocolVersion.2⟩,
      ⟨.epochLength, .amount (genesis.eras.shelleyEpochLength.getD 0)⟩,
      ⟨.slotLength, .amount (genesis.eras.shelleySlotLength.getD 0)⟩,
      ⟨.maxBlockBodySize, .amount shelley.maxBlockBodySize⟩,
      ⟨.maxTransactionSize, .amount shelley.maxTxSize⟩,
      ⟨.maxBlockHeaderSize, .amount shelley.maxBlockHeaderSize⟩,
      ⟨.keyDeposit, .amount shelley.keyDeposit⟩,
      ⟨.minUtxoValue, .amount shelley.minUtxoValue⟩,
      ⟨.minFeeA, .amount shelley.minFeeA⟩,
      ⟨.minFeeB, .amount shelley.minFeeB⟩,
      ⟨.poolDeposit, .amount shelley.poolDeposit⟩,
      ⟨.desiredNumberOfStakePools, .amount shelley.nOpt⟩,
      ⟨.minPoolCost, .amount shelley.minPoolCost⟩,
      ⟨.expansionRate, .ratio shelley.rho⟩,
      ⟨.treasuryGrowthRate, .ratio shelley.tau⟩,
      ⟨.maximumEpoch, .amount shelley.eMax⟩,
      ⟨.poolPledgeInfluence, .ratio shelley.a0⟩,
      ⟨.decentralizationConstant, .ratio shelley.decentralisationParam⟩,
      ⟨.extraEntropy, .entropy shelley.extraEntropy⟩]⟩

def intoAlonzo (previous : PParamsSet) (genesis : AlonzoGenesis) : PParamsSet :=
  previous.merge
    ⟨[⟨.protocolVersion, .version 5 0⟩,
      ⟨.adaPerUtxoByte, .amount genesis.lovelacePerUtxoWord⟩,
      ⟨.executionCosts, .ratios genesis.executionPrices⟩,
      ⟨.maxTxExUnits, .units genesis.maxTxExUnits.1 genesis.maxTxExUnits.2⟩,
      ⟨.maxBlockExUnits, .units genesis.maxBlockExUnits.1 genesis.maxBlockExUnits.2⟩,
      ⟨.maxValueSize, .amount genesis.maxValueSize⟩,
      ⟨.collateralPercentage, .amount genesis.collateralPercentage⟩,
      ⟨.maxCollateralInputs, .amount genesis.maxCollateralInputs⟩] ++
      (genesis.costModelPlutusV1.map fun costs => ⟨.costModelsPlutusV1, .costs costs⟩).toList⟩

/-- The price of an output by words becomes one by bytes. -/
def intoBabbage (previous : PParamsSet) (genesis : AlonzoGenesis) : PParamsSet :=
  previous.merge
    ⟨[⟨.protocolVersion, .version 7 0⟩,
      ⟨.adaPerUtxoByte, .amount ((previous.amount .adaPerUtxoByte).getD 0 / 8)⟩] ++
      (genesis.costModelPlutusV2.map fun costs => ⟨.costModelsPlutusV2, .costs costs⟩).toList⟩

def intoConway (previous : PParamsSet) (genesis : ConwayGenesis) : PParamsSet :=
  previous.merge
    ⟨[⟨.protocolVersion, .version 9 0⟩,
      ⟨.costModelsPlutusV3, .costs genesis.plutusV3CostModel⟩,
      ⟨.poolVotingThresholds, .ratios genesis.poolVotingThresholds⟩,
      ⟨.drepVotingThresholds, .ratios genesis.dRepVotingThresholds⟩,
      ⟨.minCommitteeSize, .amount genesis.committeeMinSize⟩,
      ⟨.committeeTermLimit, .amount genesis.committeeMaxTermLength⟩,
      ⟨.governanceActionValidityPeriod, .amount genesis.govActionLifetime⟩,
      ⟨.governanceActionDeposit, .amount genesis.govActionDeposit⟩,
      ⟨.drepDeposit, .amount genesis.dRepDeposit⟩,
      ⟨.drepInactivityPeriod, .amount genesis.dRepActivity⟩,
      ⟨.minFeeRefScriptCostPerByte, .ratio ⟨genesis.minFeeRefScriptCostPerByte, 1⟩⟩]⟩

def intraEraHardfork (current : PParamsSet) (target : ℕ) : PParamsSet :=
  current.merge ⟨[⟨.protocolVersion, .version target 0⟩]⟩

/-- Versions are left one at a time; there is no way from one to any other. -/
def migratePparamsVersion (source target : ℕ) (current : PParamsSet) (genesis : ForkGenesis) :
    Except Panic PParamsSet :=
  match source, target with
  | 0, 1 => .ok (intraEraHardfork current 1)
  | 1, 2 => .ok (fromShelleyGenesis genesis)
  | 2, 3 => .ok (intraEraHardfork current 3)
  | 3, 4 => .ok (intraEraHardfork current 4)
  | 4, 5 => .ok (intoAlonzo current genesis.alonzo)
  | 5, 6 => .ok (intraEraHardfork current 6)
  | 6, 7 => .ok (intoBabbage current genesis.alonzo)
  | 7, 8 => .ok (intraEraHardfork current 8)
  | 8, 9 => .ok (intoConway current genesis.conway)
  | 9, 10 => .ok (intraEraHardfork current 10)
  | 10, 11 => .ok (intraEraHardfork current 11)
  | source, target =>
      .error (.explicit s!"not implemented: don't know how to bump from version {source} to {target} (#1033)")

section Migrated

variable {genesis : ForkGenesis} {current : PParamsSet}

theorem protocolMajor_fromShelleyGenesis :
    (fromShelleyGenesis genesis).protocolMajor =
      some (genesis.shelley.protocolVersion.1 % 2 ^ 16) :=
  PParamsSet.protocolMajor_merge_version _ (by simp)

theorem protocolMajor_intoAlonzo :
    (intoAlonzo current genesis.alonzo).protocolMajor = some (5 % 2 ^ 16) :=
  PParamsSet.protocolMajor_merge_version _ (by simp)

theorem protocolMajor_intoBabbage :
    (intoBabbage current genesis.alonzo).protocolMajor = some (7 % 2 ^ 16) :=
  PParamsSet.protocolMajor_merge_version _ (by simp)

theorem protocolMajor_intoConway :
    (intoConway current genesis.conway).protocolMajor = some (9 % 2 ^ 16) :=
  PParamsSet.protocolMajor_merge_version _ (by simp)

theorem protocolMajor_intraEraHardfork (target : ℕ) :
    (intraEraHardfork current target).protocolMajor = some (target % 2 ^ 16) :=
  PParamsSet.protocolMajor_merge_version _ (by simp)

/-- A migration leads to the next version, and the parameters are those of that version. Of
the parameters of Shelley that is so where the genesis file has version 2. -/
theorem migratePparamsVersion_spec {source target : ℕ} {migrated : PParamsSet}
    (done : migratePparamsVersion source target current genesis = .ok migrated)
    (shelley : target = 2 → genesis.shelley.protocolVersion.1 = 2) :
    target = source + 1 ∧ migrated.protocolMajor = some target := by
  rw [migratePparamsVersion.eq_def] at done
  split at done
  case h_12 => cases done
  all_goals
    rw [← Except.ok.inj done]
    refine ⟨rfl, ?_⟩
  case h_2 => simp [protocolMajor_fromShelleyGenesis, shelley rfl]
  case h_5 => simp [protocolMajor_intoAlonzo]
  case h_7 => simp [protocolMajor_intoBabbage]
  case h_9 => simp [protocolMajor_intoConway]
  all_goals simp [protocolMajor_intraEraHardfork]

end Migrated

end Dolos
