import Mathlib.Tactic.LinearCombination
import Dolos.Lib.Saturating
import Dolos.Cardano.Rewards

/-!
# The pots at an epoch boundary

`cardano/src/pots.rs` and `define_new_pots` of `estart/reset.rs`: what the
transactions of an epoch, its rewards and the closing boundary move between the
pots. All sums saturate, pot by pot, in the order of the source.

The supply is the sum of the pots and of the deposits, which are kept as counts
and a price.
-/

namespace Dolos

open Outcome Saturating

structure PotDelta where
  producedUtxos : ℕ
  consumedUtxos : ℕ
  gatheredFees : ℕ
  newAccounts : ℕ
  removedAccounts : ℕ
  poolDepositCount : ℕ
  poolRefundCount : ℕ
  poolInvalidRefundCount : ℕ
  withdrawals : ℕ
  effectiveRewards : ℕ
  unspendableToTreasury : ℕ
  unspendableToReserves : ℕ
  drepDeposits : ℕ
  proposalDeposits : ℕ
  drepRefunds : ℕ
  proposalRefunds : ℕ
  treasuryDonations : ℕ
  proposalInvalidRefunds : ℕ
  depositPerAccount : Option ℕ
  depositPerPool : Option ℕ
  protocolVersion : ℕ
  reserveMirs : ℕ
  markProtocolVersion : ℕ
  avvmReclamation : ℕ
  treasuryMirs : ℕ
  treasuryWithdrawals : ℕ
  deriving DecidableEq, Repr

/-- The range of `u64`, where `add!` saturates. -/
def potLimit : ℕ := 2 ^ 64 - 1

/-- The incentives of an epoch. Arithmetic outside the saturating macros panics where
it leaves its range. -/
def epochIncentives (reserves feeSs : ℕ) (rho tau eta : ℚ) : Except Panic EpochIncentives := do
  let deltaR1 ← floorInt (eta * rho * reserves)
  let rewardPot := feeSs + deltaR1
  if potLimit < rewardPot then .error .overflow
  else
    let treasuryTax ← floorInt (tau * rewardPot)
    if rewardPot < treasuryTax then .error .overflow
    else .ok ⟨deltaR1, treasuryTax, rewardPot - treasuryTax, feeSs⟩

namespace PotDelta

variable (pots : Pots) (incentives : EpochIncentives) (delta : PotDelta)

def consumedIncentives : ℕ := delta.effectiveRewards + delta.unspendableToTreasury

def incentivesBackToTreasury : ℕ := delta.unspendableToTreasury

def returnedRewards : ℕ :=
  run potLimit incentives.availableRewards [.sub delta.consumedIncentives]

/-- The price of a pool deposit after the update of the parameters. -/
def poolDeposit : ℕ := delta.depositPerPool.getD pots.depositPerPool

def accountDeposit : ℕ := delta.depositPerAccount.getD pots.depositPerAccount

def reservesSteps : List Step :=
  [.sub incentives.total, .sub delta.reserveMirs, .add (delta.returnedRewards incentives),
    .add delta.avvmReclamation]

def treasurySteps : List Step :=
  [.add incentives.treasuryTax, .add delta.incentivesBackToTreasury,
    .add (delta.poolInvalidRefundCount * delta.poolDeposit pots),
    .add delta.proposalInvalidRefunds, .add delta.treasuryDonations, .sub delta.treasuryMirs,
    .sub delta.treasuryWithdrawals]

def feesSteps : List Step := [.sub incentives.usedFees, .add delta.gatheredFees]

def rewardsSteps : List Step :=
  [.add delta.effectiveRewards, .sub delta.withdrawals,
    .add (delta.poolRefundCount * delta.poolDeposit pots), .add delta.proposalRefunds,
    .add delta.reserveMirs, .add delta.treasuryMirs, .add delta.treasuryWithdrawals]

def utxosSteps : List Step :=
  [.add delta.producedUtxos, .sub delta.consumedUtxos, .sub delta.avvmReclamation]

def poolCountSteps : List Step :=
  [.add delta.poolDepositCount, .sub delta.poolRefundCount, .sub delta.poolInvalidRefundCount]

def accountCountSteps : List Step := [.add delta.newAccounts, .sub delta.removedAccounts]

def drepDepositsSteps : List Step := [.add delta.drepDeposits, .sub delta.drepRefunds]

def proposalDepositsSteps : List Step :=
  [.add delta.proposalDeposits, .sub delta.proposalRefunds, .sub delta.proposalInvalidRefunds]

end PotDelta

def applyByronDelta (pots : Pots) (delta : PotDelta) : Pots where
  reserves := run potLimit pots.reserves [.sub delta.producedUtxos, .add delta.consumedUtxos]
  treasury := 0
  utxos := run potLimit pots.utxos [.add delta.producedUtxos, .sub delta.consumedUtxos]
  rewards := 0
  fees := 0
  poolCount := 0
  accountCount := 0
  depositPerPool := 0
  depositPerAccount := 0
  nominalDeposits := pots.nominalDeposits
  drepDeposits := 0
  proposalDeposits := 0

def applyShelleyDelta (pots : Pots) (incentives : EpochIncentives) (delta : PotDelta) : Pots where
  reserves := run potLimit pots.reserves (delta.reservesSteps incentives)
  treasury := run potLimit pots.treasury (delta.treasurySteps pots incentives)
  utxos := run potLimit pots.utxos delta.utxosSteps
  rewards := run potLimit pots.rewards (delta.rewardsSteps pots)
  fees := run potLimit pots.fees (delta.feesSteps incentives)
  poolCount := run potLimit pots.poolCount delta.poolCountSteps
  accountCount := run potLimit pots.accountCount delta.accountCountSteps
  depositPerPool := delta.poolDeposit pots
  depositPerAccount := delta.accountDeposit pots
  nominalDeposits := pots.nominalDeposits
  drepDeposits := run potLimit pots.drepDeposits delta.drepDepositsSteps
  proposalDeposits := run potLimit pots.proposalDeposits delta.proposalDepositsSteps

def applyDelta (pots : Pots) (incentives : EpochIncentives) (delta : PotDelta) : Pots :=
  if delta.protocolVersion ≤ 1 then applyByronDelta pots delta
  else applyShelleyDelta pots incentives delta

/-- The delta of `define_new_pots`. -/
def potDeltaOf (rolling : RollingStats) (stats : EndStats) (pparams : PParamsSet)
    (mark : Option PParamsSet) (avvmReclamation : ℕ) : PotDelta where
  producedUtxos := rolling.producedUtxos.toNat
  consumedUtxos := rolling.consumedUtxos.toNat
  gatheredFees := rolling.gatheredFees.toNat
  depositPerAccount := pparams.amount .keyDeposit
  depositPerPool := some ((pparams.amount .poolDeposit).getD 0)
  newAccounts := rolling.newAccounts.toNat
  removedAccounts := rolling.removedAccounts.toNat
  withdrawals := rolling.withdrawals.toNat
  drepDeposits := rolling.drepDeposits.toNat
  proposalDeposits := rolling.proposalDeposits.toNat
  drepRefunds := rolling.drepRefunds.toNat
  treasuryDonations := rolling.treasuryDonations.toNat
  reserveMirs := stats.reserveMirs
  treasuryMirs := stats.treasuryMirs
  treasuryWithdrawals := stats.treasuryWithdrawals
  proposalRefunds := stats.proposalRefunds
  proposalInvalidRefunds := stats.proposalInvalidRefunds
  effectiveRewards := stats.effectiveRewards
  unspendableToTreasury := stats.unspendableToTreasury
  unspendableToReserves := stats.unspendableToReserves
  poolDepositCount := stats.poolDepositCount
  poolRefundCount := stats.poolRefundCount
  poolInvalidRefundCount := stats.poolInvalidRefundCount
  protocolVersion := pparams.protocolMajorOrDefault
  markProtocolVersion := (mark.map PParamsSet.protocolMajorOrDefault).getD
    pparams.protocolMajorOrDefault
  avvmReclamation := avvmReclamation

/-- `define_new_pots`; the debug assertion on the supply is left to the callers. -/
def defineNewPots (epoch : EpochState) (avvmReclamation : ℕ) : Except Panic Pots := do
  let rolling ← epoch.rolling.unwrapLive
  let stats ← expect epoch.endStats "no end stats available"
  let pparams ← epoch.pparams.unwrapLive
  let delta := potDeltaOf rolling stats pparams epoch.pparams.mark avvmReclamation
  .ok (applyDelta epoch.initialPots stats.epochIncentives delta)

section Supply

/-- The transactions of an epoch balance: what they take from outputs, rewards and
deposits is what they make of outputs, fees, donations and deposits. -/
def PotDelta.Balanced (pots : Pots) (delta : PotDelta) : Prop :=
  delta.consumedUtxos + delta.withdrawals + delta.removedAccounts * delta.accountDeposit pots +
      delta.drepRefunds =
    delta.producedUtxos + delta.gatheredFees + delta.treasuryDonations +
      delta.newAccounts * delta.accountDeposit pots +
      delta.poolDepositCount * delta.poolDeposit pots + delta.drepDeposits +
      delta.proposalDeposits

/-- No pot gives more than it holds and has received. -/
structure PotDelta.NotOverdrawn (pots : Pots) (incentives : EpochIncentives) (delta : PotDelta) :
    Prop where
  reserves : incentives.total + delta.reserveMirs ≤ pots.reserves
  treasury : delta.treasuryMirs + delta.treasuryWithdrawals ≤
    pots.treasury + incentives.treasuryTax + delta.unspendableToTreasury +
      delta.poolInvalidRefundCount * delta.poolDeposit pots + delta.proposalInvalidRefunds +
      delta.treasuryDonations
  fees : incentives.usedFees ≤ pots.fees
  rewards : delta.withdrawals ≤ pots.rewards + delta.effectiveRewards
  utxos : delta.consumedUtxos + delta.avvmReclamation ≤ pots.utxos + delta.producedUtxos
  pools : delta.poolRefundCount + delta.poolInvalidRefundCount ≤
    pots.poolCount + delta.poolDepositCount
  accounts : delta.removedAccounts ≤ pots.accountCount + delta.newAccounts
  dreps : delta.drepRefunds ≤ pots.drepDeposits + delta.drepDeposits
  proposals : delta.proposalRefunds + delta.proposalInvalidRefunds ≤
    pots.proposalDeposits + delta.proposalDeposits

/-- No pot outgrows 64 bits on the way. -/
structure PotDelta.Fits (pots : Pots) (incentives : EpochIncentives) (delta : PotDelta) : Prop where
  reserves : pots.reserves - (incentives.total + delta.reserveMirs) +
    (incentives.availableRewards - delta.consumedIncentives) + delta.avvmReclamation ≤ potLimit
  treasury : pots.treasury + incentives.treasuryTax + delta.unspendableToTreasury +
    delta.poolInvalidRefundCount * delta.poolDeposit pots + delta.proposalInvalidRefunds +
    delta.treasuryDonations ≤ potLimit
  fees : pots.fees - incentives.usedFees + delta.gatheredFees ≤ potLimit
  earned : pots.rewards + delta.effectiveRewards ≤ potLimit
  rewards : pots.rewards + delta.effectiveRewards - delta.withdrawals +
    delta.poolRefundCount * delta.poolDeposit pots + delta.proposalRefunds + delta.reserveMirs +
    delta.treasuryMirs + delta.treasuryWithdrawals ≤ potLimit
  utxos : pots.utxos + delta.producedUtxos ≤ potLimit
  pools : pots.poolCount + delta.poolDepositCount ≤ potLimit
  accounts : pots.accountCount + delta.newAccounts ≤ potLimit
  dreps : pots.drepDeposits + delta.drepDeposits ≤ potLimit
  proposals : pots.proposalDeposits + delta.proposalDeposits ≤ potLimit

/-- No `add!` and no `sub!` of the Shelley delta saturates. -/
structure PotDelta.Unsaturated (pots : Pots) (incentives : EpochIncentives) (delta : PotDelta) :
    Prop where
  returned : AllExact potLimit incentives.availableRewards [.sub delta.consumedIncentives]
  reserves : AllExact potLimit pots.reserves (delta.reservesSteps incentives)
  treasury : AllExact potLimit pots.treasury (delta.treasurySteps pots incentives)
  fees : AllExact potLimit pots.fees (delta.feesSteps incentives)
  rewards : AllExact potLimit pots.rewards (delta.rewardsSteps pots)
  utxos : AllExact potLimit pots.utxos delta.utxosSteps
  pools : AllExact potLimit pots.poolCount delta.poolCountSteps
  accounts : AllExact potLimit pots.accountCount delta.accountCountSteps
  dreps : AllExact potLimit pots.drepDeposits delta.drepDepositsSteps
  proposals : AllExact potLimit pots.proposalDeposits delta.proposalDepositsSteps

/-- The deposits of the pools and accounts counted so far, at the prices of the epoch. -/
def PotDelta.repricedDeposits (pots : Pots) (delta : PotDelta) : ℕ :=
  delta.poolDeposit pots * pots.poolCount + delta.accountDeposit pots * pots.accountCount

variable {pots : Pots} {incentives : EpochIncentives} {delta : PotDelta}

theorem PotDelta.unsaturated_iff (funded : delta.consumedIncentives ≤ incentives.availableRewards)
    (sound : delta.NotOverdrawn pots incentives) :
    delta.Unsaturated pots incentives ↔ delta.Fits pots incentives := by
  rcases sound with ⟨reserves, treasury, fees, rewards, utxos, pools, accounts, dreps, proposals⟩
  constructor
  · intro exact
    rcases exact with ⟨-, exactReserves, exactTreasury, exactFees, exactRewards, exactUtxos,
      exactPools, exactAccounts, exactDreps, exactProposals⟩
    simp only [reservesSteps, returnedRewards, run, List.foldl_cons, List.foldl_nil, apply,
      treasurySteps, incentivesBackToTreasury, feesSteps, rewardsSteps, allExact_add,
      allExact_sub, allExact_nil] at exactReserves exactTreasury exactFees exactRewards
    constructor
    · omega
    · omega
    · omega
    · exact exactRewards.1
    · omega
    · exact exactUtxos.1
    · exact exactPools.1
    · exact exactAccounts.1
    · exact exactDreps.1
    · exact exactProposals.1
  · intro fits
    rcases fits with ⟨fitReserves, fitTreasury, fitFees, fitEarned, fitRewards, fitUtxos, fitPools,
      fitAccounts, fitDreps, fitProposals⟩
    constructor
    · exact ⟨funded, trivial⟩
    · simp only [reservesSteps, returnedRewards, run, List.foldl_cons, List.foldl_nil, apply,
        allExact_add, allExact_sub, allExact_nil, and_true]
      omega
    · simp only [treasurySteps, incentivesBackToTreasury, allExact_add, allExact_sub,
        allExact_nil, and_true]
      omega
    · simp only [feesSteps, allExact_add, allExact_sub, allExact_nil, and_true]
      omega
    · simp only [rewardsSteps, allExact_add, allExact_sub, allExact_nil, and_true]
      omega
    · simp only [utxosSteps, allExact_add, allExact_sub, allExact_nil, and_true]
      omega
    · simp only [poolCountSteps, allExact_add, allExact_sub, allExact_nil, and_true]
      omega
    · simp only [accountCountSteps, allExact_add, allExact_sub, allExact_nil, and_true]
      omega
    · simp only [drepDepositsSteps, allExact_add, allExact_sub, allExact_nil, and_true]
      omega
    · simp only [proposalDepositsSteps, allExact_add, allExact_sub, allExact_nil, and_true]
      omega

theorem epochIncentives_eq_ok {reserves feeSs : ℕ} {rho tau eta : ℚ}
    (computed : epochIncentives reserves feeSs rho tau eta = .ok incentives) :
    incentives.usedFees = feeSs ∧
      incentives.treasuryTax + incentives.availableRewards =
        incentives.total + incentives.usedFees := by
  unfold epochIncentives at computed
  cases minted : floorInt (eta * rho * reserves) with
  | error panic => simp [minted] at computed
  | ok deltaR1 =>
      simp only [minted, ok_bind] at computed
      split at computed
      · cases computed
      · cases taxed : floorInt (tau * (feeSs + deltaR1 : ℕ)) with
        | error panic =>
            rw [taxed] at computed
            cases computed
        | ok treasuryTax =>
            simp only [taxed, ok_bind] at computed
            split at computed
            · cases computed
            · cases computed
              refine ⟨rfl, ?_⟩
              simp only
              omega

/-- What the deposits already held gain by the prices of the epoch is what the supply
gains. -/
theorem maxSupply_applyShelleyDelta
    (computed : incentives.treasuryTax + incentives.availableRewards =
      incentives.total + incentives.usedFees)
    (balanced : delta.Balanced pots) (exact : delta.Unsaturated pots incentives) :
    (applyShelleyDelta pots incentives delta).maxSupply + pots.stakeDeposits =
      pots.maxSupply + delta.repricedDeposits pots := by
  rcases exact with ⟨returned, reserves, treasury, fees, rewards, utxos, pools, accounts, dreps,
    proposals⟩
  have returned := run_exact returned
  have reserves := run_exact reserves
  have treasury := run_exact treasury
  have fees := run_exact fees
  have rewards := run_exact rewards
  have utxos := run_exact utxos
  have pools := run_exact pools
  have accounts := run_exact accounts
  have dreps := run_exact dreps
  have proposals := run_exact proposals
  have computed : (incentives.treasuryTax : ℤ) + incentives.availableRewards =
      incentives.total + incentives.usedFees := by exact_mod_cast computed
  have balanced : (delta.consumedUtxos : ℤ) + delta.withdrawals +
      delta.removedAccounts * delta.accountDeposit pots + delta.drepRefunds =
      delta.producedUtxos + delta.gatheredFees + delta.treasuryDonations +
      delta.newAccounts * delta.accountDeposit pots +
      delta.poolDepositCount * delta.poolDeposit pots + delta.drepDeposits +
      delta.proposalDeposits := by exact_mod_cast balanced
  have supply : ((applyShelleyDelta pots incentives delta).maxSupply : ℤ) + pots.stakeDeposits =
      pots.maxSupply + delta.repricedDeposits pots := by
    simp only [Pots.maxSupply, Pots.obligations, Pots.stakeDeposits, PotDelta.repricedDeposits,
      applyShelleyDelta, Nat.cast_add, Nat.cast_mul]
    rw [reserves, treasury, fees, rewards, utxos, pools, accounts, dreps, proposals]
    simp only [PotDelta.reservesSteps, PotDelta.treasurySteps, PotDelta.feesSteps,
      PotDelta.rewardsSteps, PotDelta.utxosSteps, PotDelta.poolCountSteps,
      PotDelta.accountCountSteps, PotDelta.drepDepositsSteps, PotDelta.proposalDepositsSteps,
      PotDelta.returnedRewards, PotDelta.incentivesBackToTreasury, List.map_cons, List.map_nil,
      List.sum_cons, List.sum_nil, signed, Nat.cast_mul]
    rw [returned]
    simp only [PotDelta.consumedIncentives, List.map_cons, List.map_nil, List.sum_cons,
      List.sum_nil, signed, Nat.cast_add]
    linear_combination computed - balanced
  exact_mod_cast supply

variable {epoch : EpochState} {rolling : RollingStats} {stats : EndStats} {pparams : PParamsSet}
  {avvmReclamation : ℕ}

theorem defineNewPots_eq (avvmReclamation : ℕ) (live : epoch.rolling.live = some rolling)
    (ended : epoch.endStats = some stats) (liveParams : epoch.pparams.live = some pparams)
    (shelley : 2 ≤ pparams.protocolMajorOrDefault) :
    defineNewPots epoch avvmReclamation = .ok (applyShelleyDelta epoch.initialPots
      stats.epochIncentives
      (potDeltaOf rolling stats pparams epoch.pparams.mark avvmReclamation)) := by
  have rollingEq := EpochValue.unwrapLive_eq_ok.mpr live
  have pparamsEq := EpochValue.unwrapLive_eq_ok.mpr liveParams
  have late : ¬ pparams.protocolMajorOrDefault ≤ 1 := by omega
  simp only [defineNewPots, rollingEq, ended, pparamsEq, expect, ok_bind, applyDelta]
  simp only [potDeltaOf, late, if_false]

/-- The supply is conserved and no step saturates exactly where the deposits already
held are worth the same at the prices of the closed epoch and every pot stays in its
range. -/
theorem defineNewPots_conserves_iff {feeSs : ℕ} {rho tau eta : ℚ}
    (live : epoch.rolling.live = some rolling) (ended : epoch.endStats = some stats)
    (liveParams : epoch.pparams.live = some pparams)
    (shelley : 2 ≤ pparams.protocolMajorOrDefault)
    (computed : epochIncentives epoch.initialPots.reserves feeSs rho tau eta =
      .ok stats.epochIncentives)
    (delta : PotDelta)
    (deltaEq : delta = potDeltaOf rolling stats pparams epoch.pparams.mark avvmReclamation)
    (funded : delta.consumedIncentives ≤ stats.epochIncentives.availableRewards)
    (balanced : delta.Balanced epoch.initialPots)
    (sound : delta.NotOverdrawn epoch.initialPots stats.epochIncentives) :
    ((∃ pots, defineNewPots epoch avvmReclamation = .ok pots ∧
        pots.maxSupply = epoch.initialPots.maxSupply) ∧
      delta.Unsaturated epoch.initialPots stats.epochIncentives) ↔
      delta.repricedDeposits epoch.initialPots = epoch.initialPots.stakeDeposits ∧
      delta.Fits epoch.initialPots stats.epochIncentives := by
  have result := defineNewPots_eq avvmReclamation live ended liveParams shelley
  rw [← deltaEq] at result
  have unsaturated := PotDelta.unsaturated_iff funded sound
  have total := (epochIncentives_eq_ok computed).2
  constructor
  · rintro ⟨⟨pots, potsEq, supplyEq⟩, exact⟩
    have supply := maxSupply_applyShelleyDelta total balanced exact
    rw [result] at potsEq
    cases potsEq
    refine ⟨?_, unsaturated.mp exact⟩
    omega
  · rintro ⟨priceEq, fits⟩
    have exact := unsaturated.mpr fits
    have supply := maxSupply_applyShelleyDelta total balanced exact
    refine ⟨⟨_, result, ?_⟩, exact⟩
    omega

def closedStats : EndStats := ⟨0, 0, 0, ⟨100, 22, 88, 10⟩, 50, 8, 0, 0, 0, 0, 0, 0, 0, 0, 0⟩

/-- An epoch of two accounts with a deposit of 20 each, closed at a given price. -/
def closedEpoch (keyDeposit : ℕ) : EpochState where
  number := 7
  initialPots := { Pots.default with
    reserves := 1000, utxos := 500, fees := 10, accountCount := 2, depositPerAccount := 20 }
  rolling := .withLive 7 { RollingStats.default with
    producedUtxos := 95, consumedUtxos := 100, gatheredFees := 5 }
  pparams := .withLive 7 ⟨[⟨.keyDeposit, .amount keyDeposit⟩, ⟨.protocolVersion, .version 9 0⟩]⟩
  largestStableSlot := 0
  previousNonceTail := none
  nonces := none
  endStats := some closedStats
  incentives := none
  ewrapProgress := none
  estartProgress := none
  rupdProgress := none

def closedDelta (keyDeposit : ℕ) : PotDelta :=
  potDeltaOf { RollingStats.default with
    producedUtxos := 95, consumedUtxos := 100, gatheredFees := 5 } closedStats
    ⟨[⟨.keyDeposit, .amount keyDeposit⟩, ⟨.protocolVersion, .version 9 0⟩]⟩ none 0

theorem epochIncentives_closedEpoch (keyDeposit : ℕ) :
    epochIncentives (closedEpoch keyDeposit).initialPots.reserves 10 (1 / 10) (1 / 5) 1 =
      .ok closedStats.epochIncentives := by
  change epochIncentives 1000 10 (1 / 10) (1 / 5) 1 = .ok ⟨100, 22, 88, 10⟩
  decide +kernel

theorem balanced_closedDelta (keyDeposit : ℕ) :
    (closedDelta keyDeposit).Balanced (closedEpoch keyDeposit).initialPots := by
  simp [PotDelta.Balanced, closedDelta, potDeltaOf, closedStats, RollingStats.default]

theorem notOverdrawn_closedDelta (keyDeposit : ℕ) :
    (closedDelta keyDeposit).NotOverdrawn (closedEpoch keyDeposit).initialPots
      closedStats.epochIncentives := by
  constructor <;>
    simp [closedDelta, closedEpoch, potDeltaOf, closedStats, RollingStats.default, Pots.default]

theorem defineNewPots_conserves_iff_unchanged :
    ((∃ pots, defineNewPots (closedEpoch 20) 0 = .ok pots ∧
        pots.maxSupply = (closedEpoch 20).initialPots.maxSupply) ∧
      (closedDelta 20).Unsaturated (closedEpoch 20).initialPots closedStats.epochIncentives) ↔
      (closedDelta 20).repricedDeposits (closedEpoch 20).initialPots =
        (closedEpoch 20).initialPots.stakeDeposits ∧
      (closedDelta 20).Fits (closedEpoch 20).initialPots closedStats.epochIncentives := by
  apply defineNewPots_conserves_iff
  · rfl
  · rfl
  · rfl
  · decide
  · exact epochIncentives_closedEpoch 20
  · rfl
  · decide
  · exact balanced_closedDelta 20
  · exact notOverdrawn_closedDelta 20

/-- Where the price of a key deposit rises from 20 to 30, the deposits of the two
accounts grow out of nothing. -/
theorem defineNewPots_not_conserved :
    epochIncentives (closedEpoch 30).initialPots.reserves 10 (1 / 10) (1 / 5) 1 =
        .ok closedStats.epochIncentives ∧
      10 ≤ (closedEpoch 30).initialPots.fees ∧
      (closedDelta 30).consumedIncentives ≤ closedStats.epochIncentives.availableRewards ∧
      (closedDelta 30).Balanced (closedEpoch 30).initialPots ∧
      (closedDelta 30).NotOverdrawn (closedEpoch 30).initialPots closedStats.epochIncentives ∧
      (defineNewPots (closedEpoch 30) 0).toOption.map Pots.maxSupply = some 1570 ∧
      (closedEpoch 30).initialPots.maxSupply = 1550 := by
  refine ⟨epochIncentives_closedEpoch 30, by decide, by decide, balanced_closedDelta 30,
    notOverdrawn_closedDelta 30, ?_, rfl⟩
  rfl

end Supply

end Dolos
