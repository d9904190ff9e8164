import Dolos.Cardano.Model.Proposals

/-!
# The epoch entity

`cardano/src/model/epochs.rs` and the pots of `pots.rs`: the singleton that holds
the running totals of the current epoch, and the two deltas a block emits for it.
The totals are machine words whose arithmetic wraps, so that subtracting what was
added is always exact.

The nonce functions hash with a primitive outside the repository, which is a
parameter.
-/

namespace Dolos

open Outcome

/-- The nonce generators of the ledger primitives. -/
class NonceCrypto where
  generateRollingNonce : BlockHash → List UInt8 → BlockHash
  generateEpochNonce : BlockHash → BlockHash → Option (List UInt8) → BlockHash

/-- Nonces that stay as they are, for concrete runs. -/
@[reducible]
def NonceCrypto.still : NonceCrypto where
  generateRollingNonce evolving _ := evolving
  generateEpochNonce candidate _ _ := candidate

structure Pots where
  reserves : ℕ
  treasury : ℕ
  utxos : ℕ
  rewards : ℕ
  fees : ℕ
  poolCount : ℕ
  accountCount : ℕ
  depositPerPool : ℕ
  depositPerAccount : ℕ
  nominalDeposits : ℕ
  drepDeposits : ℕ
  proposalDeposits : ℕ
  deriving DecidableEq, Repr

def Pots.default : Pots := ⟨0, 0, 0, 0, 0, 0, 0, 0, 0, 0, 0, 0⟩

structure EpochIncentives where
  total : ℕ
  treasuryTax : ℕ
  availableRewards : ℕ
  usedFees : ℕ
  deriving DecidableEq, Repr

def EpochIncentives.default : EpochIncentives := ⟨0, 0, 0, 0⟩

structure Nonces where
  active : BlockHash
  evolving : BlockHash
  candidate : BlockHash
  tail : Option BlockHash
  deriving DecidableEq, Repr

namespace Nonces

variable [NonceCrypto]

def roll (nonces : Nonces) (updateCandidate : Bool) (nonceVrfOutput : List UInt8)
    (tail : Option BlockHash) : Nonces :=
  let evolving := NonceCrypto.generateRollingNonce nonces.evolving nonceVrfOutput
  ⟨nonces.active, evolving, if updateCandidate then evolving else nonces.candidate, tail⟩

/-- The nonces of the next epoch. -/
def sweep (nonces : Nonces) (previousTail : Option BlockHash)
    (extraEntropy : Option (List UInt8)) : Nonces where
  active :=
    match previousTail with
    | some tail => NonceCrypto.generateEpochNonce nonces.candidate tail extraEntropy
    | none => nonces.candidate
  candidate := nonces.evolving
  evolving := nonces.evolving
  tail := nonces.tail

end Nonces

structure RollingStats where
  producedUtxos : UInt64
  consumedUtxos : UInt64
  gatheredFees : UInt64
  newAccounts : UInt64
  removedAccounts : UInt64
  withdrawals : UInt64
  registeredPools : OrderedMap Hash28 Unit
  blocksMinted : UInt32
  drepDeposits : UInt64
  proposalDeposits : UInt64
  drepRefunds : UInt64
  treasuryDonations : UInt64
  reserveMirs : UInt64
  nonOverlayBlocksMinted : UInt32
  treasuryMirs : UInt64
  txCount : UInt64
  output : BitVec 128
  firstBlockSlot : ℕ
  lastBlockSlot : ℕ
  deriving DecidableEq

namespace RollingStats

def default : RollingStats :=
  ⟨0, 0, 0, 0, 0, 0, ∅, 0, 0, 0, 0, 0, 0, 0, 0, 0, 0, 0, 0⟩

instance : TransitionDefault RollingStats := ⟨fun _ => .ok (some default)⟩

end RollingStats

structure EndStats where
  poolDepositCount : ℕ
  poolRefundCount : ℕ
  poolInvalidRefundCount : ℕ
  epochIncentives : EpochIncentives
  effectiveRewards : ℕ
  unspendableToTreasury : ℕ
  unspendableToReserves : ℕ
  treasuryMirs : ℕ
  reserveMirs : ℕ
  invalidTreasuryMirs : ℕ
  invalidReserveMirs : ℕ
  treasuryWithdrawals : ℕ
  invalidTreasuryWithdrawals : ℕ
  proposalInvalidRefunds : ℕ
  proposalRefunds : ℕ
  deriving DecidableEq, Repr

/-- How far a sharded phase has come within one epoch boundary. -/
structure ShardProgress where
  committed : ℕ
  total : ℕ
  deriving DecidableEq, Repr

/-- The cursor after a shard, if that shard is next and its run has as many shards. -/
def ShardProgress.advance (stored : Option ShardProgress) (completedShardIndex totalShards : ℕ) :
    Option ShardProgress :=
  if (stored.map ShardProgress.committed).getD 0 = completedShardIndex ∧
      stored.all (fun progress => progress.total = totalShards) then
    some ⟨completedShardIndex + 1, totalShards⟩
  else none

structure EpochState where
  number : ℕ
  initialPots : Pots
  rolling : EpochValue RollingStats
  pparams : EpochValue PParamsSet
  largestStableSlot : ℕ
  previousNonceTail : Option BlockHash
  nonces : Option Nonces
  endStats : Option EndStats
  incentives : Option EpochIncentives
  ewrapProgress : Option ShardProgress
  estartProgress : Option ShardProgress
  rupdProgress : Option ShardProgress
  deriving DecidableEq

def EpochState.nsKey : NsKey := toLex (.epochs, .singleton)

structure EpochStatsUpdate where
  epoch : ℕ
  blockFees : UInt64
  utxoDelta : ℤ
  newAccounts : UInt64
  removedAccounts : UInt64
  withdrawals : UInt64
  registeredPools : OrderedMap Hash28 Unit
  drepDeposits : UInt64
  proposalDeposits : UInt64
  drepRefunds : UInt64
  treasuryDonations : UInt64
  reserveMirs : UInt64
  treasuryMirs : UInt64
  nonOverlayBlocksMinted : UInt32
  txCount : UInt64
  output : BitVec 128
  blockSlot : ℕ
  wasNew : Bool
  prevRegisteredPools : OrderedMap Hash28 Unit
  prevFirstBlockSlot : ℕ
  prevLastBlockSlot : ℕ
  deriving DecidableEq

namespace EpochStatsUpdate

def moved (delta : EpochStatsUpdate) : UInt64 := UInt64.ofNat delta.utxoDelta.natAbs

/-- The totals with one block more. -/
def rolled (delta : EpochStatsUpdate) (stats : RollingStats) : RollingStats where
  producedUtxos :=
    if delta.utxoDelta > 0 then stats.producedUtxos + delta.moved else stats.producedUtxos
  consumedUtxos :=
    if delta.utxoDelta > 0 then stats.consumedUtxos else stats.consumedUtxos + delta.moved
  gatheredFees := stats.gatheredFees + delta.blockFees
  newAccounts := stats.newAccounts + delta.newAccounts
  removedAccounts := stats.removedAccounts + delta.removedAccounts
  withdrawals := stats.withdrawals + delta.withdrawals
  registeredPools := stats.registeredPools.insertAll delta.registeredPools.entries
  blocksMinted := stats.blocksMinted + 1
  drepDeposits := stats.drepDeposits + delta.drepDeposits
  proposalDeposits := stats.proposalDeposits + delta.proposalDeposits
  drepRefunds := stats.drepRefunds + delta.drepRefunds
  treasuryDonations := stats.treasuryDonations + delta.treasuryDonations
  reserveMirs := stats.reserveMirs + delta.reserveMirs
  nonOverlayBlocksMinted := stats.nonOverlayBlocksMinted + delta.nonOverlayBlocksMinted
  treasuryMirs := stats.treasuryMirs + delta.treasuryMirs
  txCount := stats.txCount + delta.txCount
  output := stats.output + delta.output
  firstBlockSlot := if stats.firstBlockSlot = 0 then delta.blockSlot else stats.firstBlockSlot
  lastBlockSlot := delta.blockSlot

/-- The totals with the block taken out again. -/
def unrolled (delta : EpochStatsUpdate) (stats : RollingStats) : RollingStats where
  producedUtxos :=
    if delta.utxoDelta > 0 then stats.producedUtxos - delta.moved else stats.producedUtxos
  consumedUtxos :=
    if delta.utxoDelta > 0 then stats.consumedUtxos else stats.consumedUtxos - delta.moved
  gatheredFees := stats.gatheredFees - delta.blockFees
  newAccounts := stats.newAccounts - delta.newAccounts
  removedAccounts := stats.removedAccounts - delta.removedAccounts
  withdrawals := stats.withdrawals - delta.withdrawals
  registeredPools := delta.prevRegisteredPools
  blocksMinted := stats.blocksMinted - 1
  drepDeposits := stats.drepDeposits - delta.drepDeposits
  proposalDeposits := stats.proposalDeposits - delta.proposalDeposits
  drepRefunds := stats.drepRefunds - delta.drepRefunds
  treasuryDonations := stats.treasuryDonations - delta.treasuryDonations
  reserveMirs := stats.reserveMirs - delta.reserveMirs
  nonOverlayBlocksMinted := stats.nonOverlayBlocksMinted - delta.nonOverlayBlocksMinted
  treasuryMirs := stats.treasuryMirs - delta.treasuryMirs
  txCount := stats.txCount - delta.txCount
  output := stats.output - delta.output
  firstBlockSlot := delta.prevFirstBlockSlot
  lastBlockSlot := delta.prevLastBlockSlot

/-- What `apply` does to the totals of the epoch, and what it keeps for `undo`. -/
def rollIn (delta : EpochStatsUpdate) (rolling : EpochValue RollingStats) :
    Except Panic (EpochStatsUpdate × EpochValue RollingStats) := do
  let live ← rolling.liveMut
  let stats := live.getD .default
  .ok ({ delta with
      wasNew := live.isNone
      prevRegisteredPools := stats.registeredPools
      prevFirstBlockSlot := stats.firstBlockSlot
      prevLastBlockSlot := stats.lastBlockSlot },
    rolling.reset (some (delta.rolled stats)))

def rollOut (delta : EpochStatsUpdate) (rolling : EpochValue RollingStats) :
    Except Panic (EpochValue RollingStats) := do
  let live ← rolling.liveMut
  if delta.wasNew then .ok (rolling.reset none)
  else
    let stats ← expect live "rolling.live populated"
    .ok (rolling.reset (some (delta.unrolled stats)))

instance : EntityDelta EpochStatsUpdate EpochState where
  key _ := EpochState.nsKey
  apply delta entity := do
    let state ← expect entity "existing epoch"
    let (filled, rolling) ← delta.rollIn state.rolling
    .ok (filled, some { state with rolling := rolling })
  undo delta entity := do
    let state ← expect entity "existing epoch"
    let rolling ← delta.rollOut state.rolling
    .ok (some { state with rolling := rolling })

end EpochStatsUpdate

structure NoncesUpdate where
  slot : ℕ
  tail : Option BlockHash
  nonceVrfOutput : List UInt8
  previous : Option Nonces
  deriving DecidableEq, Repr

namespace NoncesUpdate

def new (slot : ℕ) (tail : Option BlockHash) (nonceVrfOutput : List UInt8) : NoncesUpdate :=
  ⟨slot, tail, nonceVrfOutput, none⟩

instance [NonceCrypto] : EntityDelta NoncesUpdate EpochState where
  key _ := EpochState.nsKey
  apply delta entity :=
    match entity with
    | none => .ok (delta, none)
    | some state =>
        match state.nonces with
        | none => .ok (delta, some state)
        | some nonces =>
            .ok ({ delta with previous := some nonces },
              some { state with
                nonces := some (nonces.roll (delta.slot < state.largestStableSlot)
                  delta.nonceVrfOutput delta.tail) })
  undo delta entity :=
    match entity with
    | none => .ok none
    | some state =>
        if delta.previous.isSome then .ok (some { state with nonces := delta.previous })
        else .ok (some state)

end NoncesUpdate

/-- Parameters enacted at a boundary are scheduled for the epoch it opens. -/
structure PParamsUpdate where
  toUpdate : PParamsSet
  prevPparams : Option (EpochValue PParamsSet)
  deriving DecidableEq, Repr

namespace PParamsUpdate

def new (toUpdate : PParamsSet) : PParamsUpdate := ⟨toUpdate, none⟩

instance : EntityDelta PParamsUpdate EpochState where
  key _ := EpochState.nsKey
  apply delta entity := do
    let state ← expect entity "epoch state missing"
    let next ← state.pparams.scheduledOrDefault
    .ok ({ delta with prevPparams := some state.pparams },
      some { state with
        pparams := { state.pparams with next := some (next.merge delta.toUpdate) } })
  undo delta entity := do
    let state ← expect entity "epoch state missing"
    let pparams ← expect delta.prevPparams "apply captured pparams"
    .ok (some { state with pparams := pparams })

end PParamsUpdate

section Faithful

open EntityDelta

variable {before after : Option EpochState}

theorem PParamsUpdate.faithful {delta applied : PParamsUpdate}
    (done : apply delta before = .ok (applied, after)) : Faithful delta applied before after := by
  cases before with
  | none => simp [apply] at done
  | some state =>
      have peeled := done
      simp only [apply, expect_some, ok_bind] at peeled
      rcases bind_eq_ok.mp peeled with ⟨next, nextEq, appliedEq⟩
      simp only [Except.ok.injEq, Prod.mk.injEq] at appliedEq
      rcases appliedEq with ⟨rfl, rfl⟩
      exact ⟨rfl, rfl, _, done⟩

theorem EpochStatsUpdate.unrolled_rolled {delta : EpochStatsUpdate} {stats : RollingStats}
    (pools : delta.prevRegisteredPools = stats.registeredPools)
    (first : delta.prevFirstBlockSlot = stats.firstBlockSlot)
    (last : delta.prevLastBlockSlot = stats.lastBlockSlot) :
    delta.unrolled (delta.rolled stats) = stats := by
  by_cases produced : delta.utxoDelta > 0
  · simp only [unrolled, rolled, produced, ↓reduceIte, UInt64.add_sub_cancel,
      UInt32.add_sub_cancel, BitVec.add_sub_cancel, pools, first, last]
  · simp only [unrolled, rolled, produced, ↓reduceIte, UInt64.add_sub_cancel,
      UInt32.add_sub_cancel, BitVec.add_sub_cancel, pools, first, last]

theorem EpochStatsUpdate.rollOut_rollIn {delta filled : EpochStatsUpdate}
    {rolling after : EpochValue RollingStats}
    (rolled : delta.rollIn rolling = .ok (filled, after)) :
    filled.rollOut after = .ok rolling := by
  rcases bind_eq_ok.mp rolled with ⟨held, heldEq, filledEq⟩
  rw [EpochValue.liveMut] at heldEq
  split_ifs at heldEq with unscheduled
  simp only [Except.ok.injEq, Prod.mk.injEq] at heldEq filledEq
  subst heldEq
  rcases filledEq with ⟨rfl, rfl⟩
  rcases rolling with ⟨epoch, next, live, mark, set, go⟩
  cases live with
  | none => simp_all [rollOut, EpochValue.liveMut, EpochValue.reset]
  | some stats =>
      have restored : unrolled { delta with
          wasNew := false
          prevRegisteredPools := stats.registeredPools
          prevFirstBlockSlot := stats.firstBlockSlot
          prevLastBlockSlot := stats.lastBlockSlot } (delta.rolled stats) = stats :=
        unrolled_rolled rfl rfl rfl
      simp only at unscheduled
      simp [rollOut, EpochValue.liveMut, EpochValue.reset, unscheduled, restored]

theorem EpochStatsUpdate.faithful {delta applied : EpochStatsUpdate}
    (done : apply delta before = .ok (applied, after)) : Faithful delta applied before after := by
  cases before with
  | none => simp [apply] at done
  | some state =>
      have peeled := done
      simp only [apply, expect_some, ok_bind] at peeled
      rcases bind_eq_ok.mp peeled with ⟨⟨filled, rolling⟩, rolledEq, appliedEq⟩
      simp only [Except.ok.injEq, Prod.mk.injEq] at appliedEq
      rcases appliedEq with ⟨rfl, rfl⟩
      refine ⟨rfl, ?_, ?_⟩
      · simp [undo, rollOut_rollIn rolledEq]
      · rcases bind_eq_ok.mp rolledEq with ⟨live, liveEq, filledEq⟩
        simp only [Except.ok.injEq, Prod.mk.injEq] at filledEq
        rcases filledEq with ⟨rfl, rfl⟩
        exact ⟨_, done⟩

theorem NoncesUpdate.faithful [NonceCrypto] {delta applied : NoncesUpdate}
    (fresh : delta.previous = none) (done : apply delta before = .ok (applied, after)) :
    Faithful delta applied before after := by
  cases before with
  | none =>
      have appliedEq := done
      simp only [apply, Except.ok.injEq, Prod.mk.injEq] at appliedEq
      rcases appliedEq with ⟨rfl, rfl⟩
      exact ⟨rfl, rfl, _, done⟩
  | some state =>
      have appliedEq := done
      simp only [apply] at appliedEq
      cases held : state.nonces with
      | none =>
          simp only [held, Except.ok.injEq, Prod.mk.injEq] at appliedEq
          rcases appliedEq with ⟨rfl, rfl⟩
          refine ⟨rfl, ?_, _, done⟩
          simp [undo, fresh]
      | some nonces =>
          simp only [held, Except.ok.injEq, Prod.mk.injEq] at appliedEq
          rcases appliedEq with ⟨rfl, rfl⟩
          refine ⟨rfl, ?_, { delta with previous := some nonces }, ?_⟩
          · have restored : { state with nonces := some nonces } = state := by rw [← held]
            simp [undo, restored]
          · simp [apply, held]

end Faithful

end Dolos
