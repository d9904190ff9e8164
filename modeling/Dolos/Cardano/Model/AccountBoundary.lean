import Dolos.Cardano.Model.Accounts

/-!
# Accounts at a boundary

The deltas of `cardano/src/model/accounts.rs` that pay accounts at a boundary and take them
to the next epoch. Rewards are added to the live stake, refunds of deposits to the stake
scheduled for the epoch that begins.
-/

namespace Dolos

open Outcome

namespace Stake

/-- `u64` addition that wraps. -/
def refund (stake : Stake) (amount : ℕ) : Stake :=
  { stake with rewardsSum := (stake.rewardsSum + amount) % 2 ^ 64 }

def reward (stake : Stake) (amount : ℕ) : Stake :=
  { stake with rewardsSum := saturatingAdd stake.rewardsSum amount }

end Stake

namespace AccountState

/-- A refund goes to the scheduled stake, which is the live one until there is another. -/
def refundStake (account : AccountState) (amount : ℕ) : Except Panic AccountState := do
  let next ← account.stake.scheduledOrDefault
  .ok { account with stake := account.stake.schedule (some (next.refund amount)) }

/-- The undo the refunds share. -/
def restoreSchedule (captured : Option (EpochValue Stake)) (entity : Option AccountState) :
    Except Panic (Option AccountState) := do
  let account ← expect entity "existing account"
  let stake ← expect captured "apply captured stake"
  .ok (some { account with stake := stake })

end AccountState

structure PoolDepositRefund where
  poolDeposit : ℕ
  account : StakeCredential
  prevStake : Option (EpochValue Stake)
  deriving DecidableEq, Repr

namespace PoolDepositRefund

def new (poolDeposit : ℕ) (account : StakeCredential) : PoolDepositRefund :=
  ⟨poolDeposit, account, none⟩

instance : EntityDelta PoolDepositRefund AccountState where
  key delta := AccountState.nsKey delta.account
  apply delta entity := do
    let account ← expect entity "existing account"
    let refunded ← account.refundStake delta.poolDeposit
    .ok ({ delta with prevStake := some account.stake }, some refunded)
  undo delta entity := AccountState.restoreSchedule delta.prevStake entity

end PoolDepositRefund

structure ProposalDepositRefund where
  proposalDeposit : ℕ
  account : StakeCredential
  prevStake : Option (EpochValue Stake)
  deriving DecidableEq, Repr

namespace ProposalDepositRefund

def new (proposalDeposit : ℕ) (account : StakeCredential) : ProposalDepositRefund :=
  ⟨proposalDeposit, account, none⟩

instance : EntityDelta ProposalDepositRefund AccountState where
  key delta := AccountState.nsKey delta.account
  apply delta entity := do
    let account ← expect entity "existing account"
    let refunded ← account.refundStake delta.proposalDeposit
    .ok ({ delta with prevStake := some account.stake }, some refunded)
  undo delta entity := AccountState.restoreSchedule delta.prevStake entity

end ProposalDepositRefund

/-- Rewards of an account and its instantaneous rewards. -/
structure AssignRewards where
  account : EntityKey
  reward : ℕ
  prevStakeLive : Option Stake
  deriving DecidableEq, Repr

namespace AssignRewards

def new (account : EntityKey) (reward : ℕ) : AssignRewards := ⟨account, reward, none⟩

instance : EntityDelta AssignRewards AccountState where
  key delta := toLex (.accounts, delta.account)
  apply delta entity := do
    let account ← expect entity "existing account"
    let (stake, changed) ← account.changeStake fun stake => stake.reward delta.reward
    .ok ({ delta with prevStakeLive := some stake }, some changed)
  undo delta entity := AccountState.restoreStake delta.prevStakeLive entity

end AssignRewards

structure PoolDelegatorRetire where
  delegator : EntityKey
  epoch : ℕ
  prevPool : Option (EpochValue PoolDelegation)
  prevRetiredPool : Option Hash28
  deriving DecidableEq, Repr

namespace PoolDelegatorRetire

def new (delegator : EntityKey) (epoch : ℕ) : PoolDelegatorRetire := ⟨delegator, epoch, none, none⟩

instance : EntityDelta PoolDelegatorRetire AccountState where
  key delta := toLex (.accounts, delta.delegator)
  apply delta entity := do
    let account ← expect entity "account should exist"
    match account.pool.live with
    | some (.pool hash) =>
        .ok ({ delta with
            prevPool := some account.pool
            prevRetiredPool := account.retiredPool },
          some { account with
            pool := account.pool.schedule (some .notDelegated)
            retiredPool := some hash })
    | _ => .error .unreachable
  undo delta entity := do
    let account ← expect entity "existing account"
    let pool ← expect delta.prevPool "apply captured pool"
    .ok (some { account with pool := pool, retiredPool := delta.prevRetiredPool })

end PoolDelegatorRetire

structure DRepDelegatorDrop where
  delegator : EntityKey
  epoch : ℕ
  prevDRep : Option (EpochValue DRepDelegation)
  deriving DecidableEq, Repr

namespace DRepDelegatorDrop

def new (delegator : EntityKey) (epoch : ℕ) : DRepDelegatorDrop := ⟨delegator, epoch, none⟩

instance : EntityDelta DRepDelegatorDrop AccountState where
  key delta := toLex (.accounts, delta.delegator)
  apply delta entity := do
    let account ← expect entity "existing account"
    .ok ({ delta with prevDRep := some account.drep },
      some { account with drep := account.drep.schedule (some .notDelegated) })
  undo delta entity := do
    let account ← expect entity "existing account"
    let drep ← expect delta.prevDRep "apply captured drep"
    .ok (some { account with drep := drep })

end DRepDelegatorDrop

/-- An account moves on to the next epoch. -/
structure AccountTransition where
  account : EntityKey
  nextEpoch : ℕ
  prevStake : Option (EpochValue Stake)
  prevPool : Option (EpochValue PoolDelegation)
  prevDRep : Option (EpochValue DRepDelegation)
  deriving DecidableEq, Repr

namespace AccountTransition

def new (account : EntityKey) (nextEpoch : ℕ) : AccountTransition :=
  ⟨account, nextEpoch, none, none, none⟩

instance : EntityDelta AccountTransition AccountState where
  key delta := toLex (.accounts, delta.account)
  apply delta entity := do
    let account ← expect entity "existing account"
    let stake ← account.stake.defaultTransition
    let pool ← account.pool.defaultTransition
    let drep ← account.drep.defaultTransition
    .ok ({ delta with
        prevStake := some account.stake
        prevPool := some account.pool
        prevDRep := some account.drep },
      some { account with stake := stake, pool := pool, drep := drep })
  undo delta entity := do
    let account ← expect entity "existing account"
    let stake ← expect delta.prevStake "apply captured stake"
    let pool ← expect delta.prevPool "apply captured pool"
    let drep ← expect delta.prevDRep "apply captured drep"
    .ok (some { account with stake := stake, pool := pool, drep := drep })

end AccountTransition

end Dolos
