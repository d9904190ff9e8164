import Dolos.Cardano.Model.EpochValue

/-!
# Accounts

`cardano/src/model/accounts.rs`: the account entity and the deltas a block emits
for it.
-/

namespace Dolos

open Outcome

inductive StakeCredential where
  | scriptHash (hash : Hash28)
  | addrKeyhash (hash : Hash28)
  deriving DecidableEq, Repr

/-- The CBOR of a credential, which fills the key exactly: an array of two, the
variant, and a byte string of 28 bytes. -/
def StakeCredential.key : StakeCredential → EntityKey
  | addrKeyhash hash => .ofHead 0x8200581c hash
  | scriptHash hash => .ofHead 0x8201581c hash

inductive DRep where
  | key (hash : Hash28)
  | script (hash : Hash28)
  | abstain
  | noConfidence
  deriving DecidableEq, Repr

structure Stake where
  utxoSum : ℕ
  rewardsSum : ℕ
  withdrawalsSum : ℕ
  utxoSumAtPointerAddresses : ℕ
  deriving DecidableEq, Repr

namespace Stake

def default : Stake := ⟨0, 0, 0, 0⟩

def total (stake : Stake) : ℕ :=
  saturatingAdd stake.utxoSum stake.rewardsSum - stake.withdrawalsSum

def totalPreConway (stake : Stake) : ℕ :=
  saturatingAdd (saturatingAdd stake.utxoSum stake.utxoSumAtPointerAddresses) stake.rewardsSum -
    stake.withdrawalsSum

def totalForEra (stake : Stake) (protocol : ℕ) : ℕ :=
  if protocol < 9 then stake.totalPreConway else stake.total

instance : TransitionDefault Stake := ⟨fun current => .ok current⟩

end Stake

inductive PoolDelegation where
  | pool (hash : Hash28)
  | notDelegated
  deriving DecidableEq, Repr

inductive DRepDelegation where
  | delegated (drep : DRep)
  | notDelegated
  deriving DecidableEq, Repr

instance : TransitionDefault PoolDelegation := ⟨fun current => .ok current⟩

instance : TransitionDefault DRepDelegation := ⟨fun current => .ok current⟩

structure AccountState where
  registeredAt : Option ℕ
  stake : EpochValue Stake
  pool : EpochValue PoolDelegation
  drep : EpochValue DRepDelegation
  voteDelegatedAt : Option (ℕ × ℕ)
  deregisteredAt : Option ℕ
  credential : StakeCredential
  retiredPool : Option Hash28
  deriving DecidableEq, Repr

namespace AccountState

def new (epoch : ℕ) (credential : StakeCredential) : AccountState where
  registeredAt := none
  stake := .withLive epoch .default
  pool := .new epoch
  drep := .new epoch
  voteDelegatedAt := none
  deregisteredAt := none
  credential := credential
  retiredPool := none

def isRegistered (account : AccountState) : Bool :=
  match account.registeredAt, account.deregisteredAt with
  | some _, none => true
  | some start, some stop => start ≥ stop
  | none, _ => false

def delegatedPoolAt (account : AccountState) (epoch : ℕ) : Option Hash28 :=
  match account.pool.snapshotAt epoch with
  | some (.pool hash) => some hash
  | _ => none

def delegatedDRepAt (account : AccountState) (epoch : ℕ) : Option DRep :=
  match account.drep.snapshotAt epoch with
  | some (.delegated drep) => some drep
  | _ => none

/-- The key of the account of a credential. -/
def nsKey (credential : StakeCredential) : NsKey := toLex (.accounts, credential.key)

/-- Several deltas change the live stake of an account and nothing else. -/
def changeStake (account : AccountState) (change : Stake → Stake) :
    Except Panic (Stake × AccountState) := do
  let stake ← account.stake.unwrapLive
  .ok (stake, { account with stake := account.stake.setLive (change stake) })

/-- The undo these deltas share: the live stake captured by `apply` goes back. -/
def restoreStake (captured : Option Stake) (entity : Option AccountState) :
    Except Panic (Option AccountState) := do
  let account ← expect entity "existing account"
  let _ ← account.stake.unwrapLive
  let stake ← expect captured "apply captured stake"
  .ok (some { account with stake := account.stake.setLive stake })

theorem restoreStake_changeStake {account changed : AccountState} {change : Stake → Stake}
    {stake : Stake} (applied : account.changeStake change = .ok (stake, changed)) :
    restoreStake (some stake) (some changed) = .ok (some account) := by
  rcases bind_eq_ok.mp applied with ⟨held, heldEq, changedEq⟩
  simp only [Except.ok.injEq, Prod.mk.injEq] at changedEq
  rcases changedEq with ⟨rfl, rfl⟩
  rw [EpochValue.unwrapLive_eq_ok] at heldEq
  simp [restoreStake, EpochValue.unwrapLive, EpochValue.setLive_self heldEq]

end AccountState

structure ControlledAmountInc where
  cred : StakeCredential
  isPointer : Bool
  amount : ℕ
  epoch : ℕ
  wasNew : Bool
  prevStakeLive : Option Stake
  deriving DecidableEq, Repr

namespace ControlledAmountInc

def new (cred : StakeCredential) (isPointer : Bool) (amount epoch : ℕ) : ControlledAmountInc :=
  ⟨cred, isPointer, amount, epoch, false, none⟩

def change (delta : ControlledAmountInc) (stake : Stake) : Stake :=
  if delta.isPointer then
    { stake with
      utxoSumAtPointerAddresses := saturatingAdd stake.utxoSumAtPointerAddresses delta.amount }
  else { stake with utxoSum := saturatingAdd stake.utxoSum delta.amount }

instance : EntityDelta ControlledAmountInc AccountState where
  key delta := AccountState.nsKey delta.cred
  apply delta entity := do
    let account := entity.getD (.new delta.epoch delta.cred)
    let (stake, changed) ← account.changeStake delta.change
    .ok ({ delta with wasNew := entity.isNone, prevStakeLive := some stake }, some changed)
  undo delta entity :=
    if delta.wasNew then .ok none else AccountState.restoreStake delta.prevStakeLive entity

end ControlledAmountInc

structure ControlledAmountDec where
  cred : StakeCredential
  isPointer : Bool
  amount : ℕ
  prevStakeLive : Option Stake
  deriving DecidableEq, Repr

namespace ControlledAmountDec

def new (cred : StakeCredential) (isPointer : Bool) (amount : ℕ) : ControlledAmountDec :=
  ⟨cred, isPointer, amount, none⟩

def change (delta : ControlledAmountDec) (stake : Stake) : Stake :=
  if delta.isPointer then
    { stake with utxoSumAtPointerAddresses := stake.utxoSumAtPointerAddresses - delta.amount }
  else { stake with utxoSum := stake.utxoSum - delta.amount }

instance : EntityDelta ControlledAmountDec AccountState where
  key delta := AccountState.nsKey delta.cred
  apply delta entity := do
    let account ← expect entity "existing account"
    let (stake, changed) ← account.changeStake delta.change
    .ok ({ delta with prevStakeLive := some stake }, some changed)
  undo delta entity := AccountState.restoreStake delta.prevStakeLive entity

end ControlledAmountDec

structure WithdrawalInc where
  cred : StakeCredential
  amount : ℕ
  prevStakeLive : Option Stake
  deriving DecidableEq, Repr

namespace WithdrawalInc

def new (cred : StakeCredential) (amount : ℕ) : WithdrawalInc := ⟨cred, amount, none⟩

def change (delta : WithdrawalInc) (stake : Stake) : Stake :=
  { stake with withdrawalsSum := saturatingAdd stake.withdrawalsSum delta.amount }

instance : EntityDelta WithdrawalInc AccountState where
  key delta := AccountState.nsKey delta.cred
  apply delta entity := do
    let account ← expect entity "existing account"
    let (stake, changed) ← account.changeStake delta.change
    .ok ({ delta with prevStakeLive := some stake }, some changed)
  undo delta entity := AccountState.restoreStake delta.prevStakeLive entity

end WithdrawalInc

/-- A treasury withdrawal enacted in favour of the account. -/
structure TreasuryWithdrawal where
  account : StakeCredential
  amount : ℕ
  prevStakeLive : Option Stake
  deriving DecidableEq, Repr

namespace TreasuryWithdrawal

def new (account : StakeCredential) (amount : ℕ) : TreasuryWithdrawal := ⟨account, amount, none⟩

def change (delta : TreasuryWithdrawal) (stake : Stake) : Stake :=
  { stake with rewardsSum := saturatingAdd stake.rewardsSum delta.amount }

instance : EntityDelta TreasuryWithdrawal AccountState where
  key delta := AccountState.nsKey delta.account
  apply delta entity := do
    let account ← expect entity "existing account"
    let (stake, changed) ← account.changeStake delta.change
    .ok ({ delta with prevStakeLive := some stake }, some changed)
  undo delta entity := AccountState.restoreStake delta.prevStakeLive entity

end TreasuryWithdrawal

structure StakeRegistration where
  cred : StakeCredential
  slot : ℕ
  epoch : ℕ
  deposit : ℕ
  wasNew : Bool
  prevRegisteredAt : Option ℕ
  prevDeregisteredAt : Option ℕ
  deriving DecidableEq, Repr

namespace StakeRegistration

def new (cred : StakeCredential) (slot epoch deposit : ℕ) : StakeRegistration :=
  ⟨cred, slot, epoch, deposit, false, none, none⟩

instance : EntityDelta StakeRegistration AccountState where
  key delta := AccountState.nsKey delta.cred
  apply delta entity :=
    let account := entity.getD (.new delta.epoch delta.cred)
    .ok ({ delta with
        wasNew := entity.isNone
        prevRegisteredAt := account.registeredAt
        prevDeregisteredAt := account.deregisteredAt },
      some { account with registeredAt := some delta.slot, deregisteredAt := none })
  undo delta entity :=
    if delta.wasNew then .ok none
    else do
      let account ← expect entity "existing account"
      .ok (some { account with
        registeredAt := delta.prevRegisteredAt
        deregisteredAt := delta.prevDeregisteredAt })

end StakeRegistration

structure StakeDelegation where
  cred : StakeCredential
  pool : Hash28
  epoch : ℕ
  prevPool : Option (EpochValue PoolDelegation)
  prevRetiredPool : Option Hash28
  deriving DecidableEq, Repr

namespace StakeDelegation

def new (cred : StakeCredential) (pool : Hash28) (epoch : ℕ) : StakeDelegation :=
  ⟨cred, pool, epoch, none, none⟩

instance : EntityDelta StakeDelegation AccountState where
  key delta := AccountState.nsKey delta.cred
  apply delta entity := do
    let account ← expect entity "existing account"
    .ok ({ delta with prevPool := some account.pool, prevRetiredPool := account.retiredPool },
      some { account with pool := account.pool.replace (.pool delta.pool), retiredPool := none })
  undo delta entity := do
    let account ← expect entity "existing account"
    let pool ← expect delta.prevPool "apply captured pool"
    .ok (some { account with pool := pool, retiredPool := delta.prevRetiredPool })

end StakeDelegation

structure VoteDelegation where
  cred : StakeCredential
  drep : DRep
  voteDelegatedAt : ℕ × ℕ
  epoch : ℕ
  prevDRep : Option (EpochValue DRepDelegation)
  prevVoteDelegatedAt : Option (ℕ × ℕ)
  deriving DecidableEq, Repr

namespace VoteDelegation

def new (cred : StakeCredential) (drep : DRep) (slot order epoch : ℕ) : VoteDelegation :=
  ⟨cred, drep, (slot, order), epoch, none, none⟩

instance : EntityDelta VoteDelegation AccountState where
  key delta := AccountState.nsKey delta.cred
  apply delta entity := do
    let account ← expect entity "existing account"
    .ok ({ delta with
        prevDRep := some account.drep
        prevVoteDelegatedAt := account.voteDelegatedAt },
      some { account with
        voteDelegatedAt := some delta.voteDelegatedAt
        drep := account.drep.replace (.delegated delta.drep) })
  undo delta entity := do
    let account ← expect entity "existing account"
    let drep ← expect delta.prevDRep "apply captured drep"
    .ok (some { account with voteDelegatedAt := delta.prevVoteDelegatedAt, drep := drep })

end VoteDelegation

structure StakeDeregistration where
  cred : StakeCredential
  slot : ℕ
  epoch : ℕ
  prevRegisteredAt : Option ℕ
  prevDeregisteredAt : Option ℕ
  prevPool : Option (EpochValue PoolDelegation)
  prevDRep : Option (EpochValue DRepDelegation)
  prevRetiredPool : Option Hash28
  deriving DecidableEq, Repr

namespace StakeDeregistration

def new (cred : StakeCredential) (slot epoch : ℕ) : StakeDeregistration :=
  ⟨cred, slot, epoch, none, none, none, none, none⟩

instance : EntityDelta StakeDeregistration AccountState where
  key delta := AccountState.nsKey delta.cred
  apply delta entity := do
    let account ← expect entity "existing account"
    .ok ({ delta with
        prevRegisteredAt := account.registeredAt
        prevDeregisteredAt := account.deregisteredAt
        prevPool := some account.pool
        prevDRep := some account.drep
        prevRetiredPool := account.retiredPool },
      some { account with
        registeredAt := none
        deregisteredAt := some delta.slot
        pool := account.pool.replace .notDelegated
        retiredPool := none
        drep := account.drep.replace .notDelegated })
  undo delta entity := do
    let account ← expect entity "existing account"
    let pool ← expect delta.prevPool "apply captured pool"
    let drep ← expect delta.prevDRep "apply captured drep"
    .ok (some { account with
      registeredAt := delta.prevRegisteredAt
      deregisteredAt := delta.prevDeregisteredAt
      pool := pool
      drep := drep
      retiredPool := delta.prevRetiredPool })

end StakeDeregistration

section Faithful

open EntityDelta

variable {before after : Option AccountState}

theorem ControlledAmountInc.faithful {delta applied : ControlledAmountInc}
    (done : apply delta before = .ok (applied, after)) : Faithful delta applied before after := by
  rcases bind_eq_ok.mp done with ⟨⟨stake, changed⟩, changedEq, appliedEq⟩
  simp only [Except.ok.injEq, Prod.mk.injEq] at appliedEq
  rcases appliedEq with ⟨rfl, rfl⟩
  refine ⟨rfl, ?_, _, done⟩
  cases before with
  | none => rfl
  | some account => exact AccountState.restoreStake_changeStake changedEq

theorem ControlledAmountDec.faithful {delta applied : ControlledAmountDec}
    (done : apply delta before = .ok (applied, after)) : Faithful delta applied before after := by
  cases before with
  | none => simp [apply] at done
  | some account =>
      have peeled := done
      simp only [apply, expect_some, ok_bind] at peeled
      rcases bind_eq_ok.mp peeled with ⟨⟨stake, changed⟩, changedEq, appliedEq⟩
      simp only [Except.ok.injEq, Prod.mk.injEq] at appliedEq
      rcases appliedEq with ⟨rfl, rfl⟩
      exact ⟨rfl, AccountState.restoreStake_changeStake changedEq, _, done⟩

theorem WithdrawalInc.faithful {delta applied : WithdrawalInc}
    (done : apply delta before = .ok (applied, after)) : Faithful delta applied before after := by
  cases before with
  | none => simp [apply] at done
  | some account =>
      have peeled := done
      simp only [apply, expect_some, ok_bind] at peeled
      rcases bind_eq_ok.mp peeled with ⟨⟨stake, changed⟩, changedEq, appliedEq⟩
      simp only [Except.ok.injEq, Prod.mk.injEq] at appliedEq
      rcases appliedEq with ⟨rfl, rfl⟩
      exact ⟨rfl, AccountState.restoreStake_changeStake changedEq, _, done⟩

theorem TreasuryWithdrawal.faithful {delta applied : TreasuryWithdrawal}
    (done : apply delta before = .ok (applied, after)) : Faithful delta applied before after := by
  cases before with
  | none => simp [apply] at done
  | some account =>
      have peeled := done
      simp only [apply, expect_some, ok_bind] at peeled
      rcases bind_eq_ok.mp peeled with ⟨⟨stake, changed⟩, changedEq, appliedEq⟩
      simp only [Except.ok.injEq, Prod.mk.injEq] at appliedEq
      rcases appliedEq with ⟨rfl, rfl⟩
      exact ⟨rfl, AccountState.restoreStake_changeStake changedEq, _, done⟩

theorem StakeRegistration.faithful {delta applied : StakeRegistration}
    (done : apply delta before = .ok (applied, after)) : Faithful delta applied before after := by
  have appliedEq := done
  simp only [apply, Except.ok.injEq, Prod.mk.injEq] at appliedEq
  rcases appliedEq with ⟨rfl, rfl⟩
  refine ⟨rfl, ?_, _, done⟩
  cases before with
  | none => rfl
  | some account => rfl

theorem StakeDelegation.faithful {delta applied : StakeDelegation}
    (done : apply delta before = .ok (applied, after)) : Faithful delta applied before after := by
  cases before with
  | none => simp [apply] at done
  | some account =>
      have appliedEq := done
      simp only [apply, expect_some, ok_bind, Except.ok.injEq, Prod.mk.injEq] at appliedEq
      rcases appliedEq with ⟨rfl, rfl⟩
      exact ⟨rfl, rfl, _, done⟩

theorem VoteDelegation.faithful {delta applied : VoteDelegation}
    (done : apply delta before = .ok (applied, after)) : Faithful delta applied before after := by
  cases before with
  | none => simp [apply] at done
  | some account =>
      have appliedEq := done
      simp only [apply, expect_some, ok_bind, Except.ok.injEq, Prod.mk.injEq] at appliedEq
      rcases appliedEq with ⟨rfl, rfl⟩
      exact ⟨rfl, rfl, _, done⟩

theorem StakeDeregistration.faithful {delta applied : StakeDeregistration}
    (done : apply delta before = .ok (applied, after)) : Faithful delta applied before after := by
  cases before with
  | none => simp [apply] at done
  | some account =>
      have appliedEq := done
      simp only [apply, expect_some, ok_bind, Except.ok.injEq, Prod.mk.injEq] at appliedEq
      rcases appliedEq with ⟨rfl, rfl⟩
      exact ⟨rfl, rfl, _, done⟩

end Faithful

end Dolos
