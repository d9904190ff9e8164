import Dolos.Cardano.Formulas
import Dolos.Cardano.Model.Epochs
import Dolos.Core.State

/-!
# Defining the rewards of an epoch

`cardano/src/rewards/mod.rs`: pool by pool, the reward of the pool, the share of its
operator and the rewards of its delegators are computed from a rewards context and
merged into a map by account.

Before Allegra an account keeps a single reward, the least in the order of the
ledger, afterwards one for each pool and role. The totals of rewards already
applied stand still here and are left out, and delegators are taken in one chunk.
-/

namespace Dolos

open Outcome

/-- The address decoder, for the reward accounts of pools. -/
class AddressDecoding where
  parseRewardAccount : List UInt8 → Option StakeCredential

structure MultiPoolReward where
  isSpendable : Bool
  asLeader : OrderedMap Hash28 ℕ
  asDelegator : OrderedMap Hash28 ℕ
  deriving DecidableEq

structure PreAllegraReward where
  isSpendable : Bool
  asLeader : Bool
  pool : Hash28
  value : ℕ
  deriving DecidableEq

inductive Reward where
  | multiPool (reward : MultiPoolReward)
  | preAllegra (reward : PreAllegraReward)
  deriving DecidableEq

namespace MultiPoolReward

def merge (reward other : MultiPoolReward) : MultiPoolReward where
  isSpendable := reward.isSpendable
  asLeader := reward.asLeader.insertAll other.asLeader.entries
  asDelegator := reward.asDelegator.insertAll other.asDelegator.entries

def totalValue (reward : MultiPoolReward) : ℕ :=
  reward.asLeader.sumBy id + reward.asDelegator.sumBy id

end MultiPoolReward

/-- Leader rewards come first, then lower pool ids. -/
def PreAllegraReward.merge (reward other : PreAllegraReward) : PreAllegraReward :=
  match reward.asLeader, other.asLeader with
  | true, false => reward
  | false, true => other
  | _, _ => if reward.pool ≤ other.pool then reward else other

namespace Reward

def merge : Reward → Reward → Except Panic Reward
  | multiPool reward, multiPool other => .ok (multiPool (reward.merge other))
  | preAllegra reward, preAllegra other => .ok (preAllegra (reward.merge other))
  | _, _ => .error .unreachable

/-- A reward on top of what the account has. -/
def onto (added : Reward) : Option Reward → Except Panic Reward
  | some previous => previous.merge added
  | none => .ok added

def isSpendable : Reward → Bool
  | multiPool reward => reward.isSpendable
  | preAllegra reward => reward.isSpendable

def isPreAllegra : Reward → Bool
  | multiPool _ => false
  | preAllegra _ => true

def totalValue : Reward → ℕ
  | multiPool reward => reward.totalValue
  | preAllegra reward => reward.value

end Reward

def Pots.stakeDeposits (pots : Pots) : ℕ :=
  pots.depositPerPool * pots.poolCount + pots.depositPerAccount * pots.accountCount

def Pots.obligations (pots : Pots) : ℕ :=
  pots.nominalDeposits + pots.stakeDeposits + pots.drepDeposits + pots.proposalDeposits

def Pots.maxSupply (pots : Pots) : ℕ :=
  pots.reserves + pots.treasury + pots.utxos + pots.rewards + pots.fees + pots.obligations

def Pots.circulating (pots : Pots) : ℕ := pots.maxSupply - pots.reserves

/-- What the computation reads. The parameters of a pool, its blocks and the protocol
parameters are looked up where they may be missing; the era is only asked for once
the protocol parameters were found. -/
structure RewardsContext where
  incentives : EpochIncentives
  pots : Pots
  preAllegra : Bool
  activeStake : ℕ
  epochBlocks : ℕ
  poolBlocks : Hash28 → Except Panic ℕ
  poolStake : Hash28 → ℕ
  accountStake : Hash28 → StakeCredential → ℕ
  isAccountRegistered : StakeCredential → Bool
  iterAllPools : List Hash28
  poolParams : Hash28 → Except Panic PoolParams
  poolDelegators : Hash28 → List StakeCredential
  pparams : Except Panic PParamsSet
  livePledge : Hash28 → List StakeCredential → ℕ
  shouldInclude : StakeCredential → Bool

/-- The owners of a pool as credentials. -/
def PoolParams.owners (params : PoolParams) : List StakeCredential :=
  params.poolOwners.map StakeCredential.addrKeyhash

/-- `pallas_ratio!`. -/
def RationalNumber.toRatio (number : RationalNumber) : Except Panic ℚ :=
  ratio number.numerator number.denominator

namespace PParamsSet

def ensureK (params : PParamsSet) : Except DomainError ℕ :=
  match params.amount .desiredNumberOfStakePools with
  | some nopt => .ok nopt
  | none => .error (.pparamsNotFound "k")

def ensureA0 (params : PParamsSet) : Except DomainError RationalNumber :=
  match params.ratio .poolPledgeInfluence with
  | some a0 => .ok a0
  | none => .error (.pparamsNotFound "a0")

def ensureD (params : PParamsSet) : Except DomainError RationalNumber :=
  match params.ratio .decentralizationConstant with
  | some d => .ok d
  | none => .error (.pparamsNotFound "d")

end PParamsSet

abbrev PendingRewards := OrderedMap StakeCredential Reward

namespace RewardsContext

/-- `Reward::new`. -/
def newReward (ctx : RewardsContext) (account : StakeCredential) (value : ℕ) (fromPool : Hash28)
    (asLeader : Bool) : Reward :=
  let isSpendable := ctx.isAccountRegistered account
  if ctx.preAllegra then .preAllegra ⟨isSpendable, asLeader, fromPool, value⟩
  else if asLeader then .multiPool ⟨isSpendable, .ofList [(fromPool, value)], ∅⟩
  else .multiPool ⟨isSpendable, ∅, .ofList [(fromPool, value)]⟩

/-- `RewardMap::include`. -/
def includeReward (ctx : RewardsContext) (pending : PendingRewards) (account : StakeCredential)
    (value : ℕ) (fromPool : Hash28) (asLeader : Bool) : Except Panic PendingRewards := do
  let merged ← (ctx.newReward account value fromPool asLeader).onto (pending.get? account)
  .ok (pending.insert account merged)

def computeDelegatorChunk (ctx : RewardsContext) (pool : Hash28)
    (totalPoolReward poolStake circulatingSupply poolCost : ℕ) (poolMargin : ℚ)
    (owners : List StakeCredential) (babbageOrLater : Bool) :
    List StakeCredential → Except Panic (List (StakeCredential × ℕ))
  | [] => .ok []
  | delegator :: rest =>
      if delegator ∈ owners ∨
        (babbageOrLater = false ∧ ctx.isAccountRegistered delegator = false) then
        computeDelegatorChunk ctx pool totalPoolReward poolStake circulatingSupply poolCost
          poolMargin owners babbageOrLater rest
      else do
        let reward ← delegatorReward totalPoolReward (ctx.accountStake pool delegator) poolStake
          circulatingSupply poolCost poolMargin
        let later ← computeDelegatorChunk ctx pool totalPoolReward poolStake circulatingSupply
          poolCost poolMargin owners babbageOrLater rest
        .ok ((delegator, reward) :: later)

/-- What the delegators of a pool are paid from. -/
structure PoolTerms where
  totalReward : ℕ
  operatorAccount : StakeCredential
  operatorShare : ℕ
  cost : ℕ
  margin : ℚ
  owners : List StakeCredential
  babbageOrLater : Bool

/-- What a pool pays: nothing to an operator that is not due any. -/
structure PoolPayout where
  totalReward : ℕ
  operatorAccount : StakeCredential
  operatorShare : ℕ
  operatorPaid : Bool
  delegatorRewards : List (StakeCredential × ℕ)

variable [AddressDecoding]

/-- The part of the loop of `define_rewards` that is about the pool as a whole; a pool
without blocks is left out. -/
def computeTerms (ctx : RewardsContext) (pool : Hash28) :
    Except DomainError (Option PoolTerms) := do
  let params ← (ctx.poolParams pool).mapError .panic
  let operatorAccount ← (expect (AddressDecoding.parseRewardAccount params.rewardAccount)
    "invalid pool reward account").mapError .panic
  let livePledge := ctx.livePledge pool params.owners
  let poolBlocks ← (ctx.poolBlocks pool).mapError .panic
  if poolBlocks = 0 then .ok none
  else do
    let pparams ← ctx.pparams.mapError .panic
    let k ← pparams.ensureK
    let a0 ← pparams.ensureA0
    let d ← pparams.ensureD
    let a0 ← a0.toRatio.mapError .panic
    let d ← d.toRatio.mapError .panic
    let totalReward ← (poolRewards ctx.incentives.availableRewards ctx.pots.circulating
      ctx.activeStake (ctx.poolStake pool) params.pledge livePledge k a0 d poolBlocks
      ctx.epochBlocks).mapError .panic
    let margin ← params.margin.toRatio.mapError .panic
    let operatorShare ← (poolOperatorShare totalReward params.cost margin (ctx.poolStake pool)
      livePledge ctx.pots.circulating).mapError .panic
    .ok (some ⟨totalReward, operatorAccount, operatorShare, params.cost, margin, params.owners,
      7 ≤ pparams.protocolMajorOrDefault⟩)

def computePayout (ctx : RewardsContext) (pool : Hash28) :
    Except DomainError (Option PoolPayout) := do
  match ← ctx.computeTerms pool with
  | none => .ok none
  | some terms => do
      let delegatorRewards ← (ctx.computeDelegatorChunk pool terms.totalReward (ctx.poolStake pool)
        ctx.pots.circulating terms.cost terms.margin terms.owners terms.babbageOrLater
        (ctx.poolDelegators pool)).mapError .panic
      .ok (some ⟨terms.totalReward, terms.operatorAccount, terms.operatorShare,
        terms.babbageOrLater || ctx.isAccountRegistered terms.operatorAccount, delegatorRewards⟩)

omit [AddressDecoding] in
def includeDelegators (ctx : RewardsContext) (pool : Hash28) :
    List (StakeCredential × ℕ) → PendingRewards → Except Panic PendingRewards
  | [], pending => .ok pending
  | (delegator, reward) :: rest, pending =>
      if ctx.shouldInclude delegator then do
        let included ← ctx.includeReward pending delegator reward pool false
        includeDelegators ctx pool rest included
      else includeDelegators ctx pool rest pending

omit [AddressDecoding] in
def includePayout (ctx : RewardsContext) (pool : Hash28) (payout : PoolPayout)
    (pending : PendingRewards) : Except Panic PendingRewards := do
  let withOperator ←
    if payout.operatorPaid && ctx.shouldInclude payout.operatorAccount then
      ctx.includeReward pending payout.operatorAccount payout.operatorShare pool true
    else .ok pending
  ctx.includeDelegators pool payout.delegatorRewards withOperator

/-- The loop of `define_rewards`. -/
def defineRewardsOver (ctx : RewardsContext) :
    List Hash28 → PendingRewards → Except DomainError PendingRewards
  | [], pending => .ok pending
  | pool :: rest, pending => do
      match ← ctx.computePayout pool with
      | none => defineRewardsOver ctx rest pending
      | some payout => do
          let included ← (ctx.includePayout pool payout pending).mapError .panic
          defineRewardsOver ctx rest included

def defineRewards (ctx : RewardsContext) : Except DomainError PendingRewards :=
  ctx.defineRewardsOver ctx.iterAllPools ∅

end RewardsContext

end Dolos
