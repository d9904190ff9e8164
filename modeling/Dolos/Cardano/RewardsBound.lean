import Dolos.Cardano.RewardsMerge

/-!
# Rewards stay within the pot

What a pool pays out is at most its reward, and the rewards of all pools are at
most the pot: by the blocks they made once the network is decentralised, by their
stake before. Merging a reward into the map adds at most its value.

Both bounds are relative to the circulating supply, so there has to be some, and
the stake of the pools has to be counted in the active stake.
-/

namespace Dolos

open Outcome RewardsContext

namespace RewardsContext

section Premises

def stakeOf (ctx : RewardsContext) (pool : Hash28) (accounts : List StakeCredential) : ℕ :=
  (accounts.map (ctx.accountStake pool)).sum

def blocksOf (ctx : RewardsContext) (pool : Hash28) : ℕ := (ctx.poolBlocks pool).toOption.getD 0

/-- A pool with its parameters and blocks, whose stake is that of its delegators and
whose pledge is that of the owners among them. -/
structure KnownPool (ctx : RewardsContext) (pool : Hash28) (params : PoolParams) (blocks : ℕ) :
    Prop where
  paramsEq : ctx.poolParams pool = .ok params
  blocksEq : ctx.poolBlocks pool = .ok blocks
  marginDefined : 0 < params.margin.denominator
  marginLe : params.margin.numerator ≤ params.margin.denominator
  stake : ctx.poolStake pool = ctx.stakeOf pool (ctx.poolDelegators pool)
  pledge : ctx.livePledge pool params.owners =
    ctx.stakeOf pool ((ctx.poolDelegators pool).filter (· ∈ params.owners))

/-- The protocol parameters the formulas read. -/
structure KnownParams (ctx : RewardsContext) (pparams : PParamsSet) (nopt : ℕ)
    (a0 d : RationalNumber) : Prop where
  pparamsEq : ctx.pparams = .ok pparams
  kEq : pparams.ensureK = .ok nopt
  nonzero : 1 ≤ nopt
  a0Eq : pparams.ensureA0 = .ok a0
  a0Defined : 0 < a0.denominator
  dEq : pparams.ensureD = .ok d
  dDefined : 0 < d.denominator
  dLe : d.numerator ≤ d.denominator

structure Premises (ctx : RewardsContext) : Prop where
  word : ctx.incentives.availableRewards < 2 ^ 64
  active : ctx.activeStake ≤ ctx.pots.circulating
  pools : ∀ pool ∈ ctx.iterAllPools, ∃ params blocks, KnownPool ctx pool params blocks
  made : (ctx.iterAllPools.map ctx.blocksOf).sum ≤ ctx.epochBlocks
  params : ∃ pparams nopt a0 d, KnownParams ctx pparams nopt a0 d

/-- There is a supply, the active stake covers the stake of the pools, and operators
have accounts. -/
structure Funded [AddressDecoding] (ctx : RewardsContext) : Prop where
  circulating : 0 < ctx.pots.circulating
  counted : (ctx.iterAllPools.map ctx.poolStake).sum ≤ ctx.activeStake
  accounts : ∀ pool ∈ ctx.iterAllPools, ∀ params, ctx.poolParams pool = .ok params →
    (AddressDecoding.parseRewardAccount params.rewardAccount).isSome

theorem toRatio_of_pos {number : RationalNumber} (defined : 0 < number.denominator) :
    number.toRatio = .ok (number.numerator / number.denominator : ℚ) :=
  ratio_of_pos _ defined

end Premises

section Delegators

variable {ctx : RewardsContext} {pool : Hash28} {reward poolStake supply cost : ℕ} {margin : ℚ}

theorem memberPart_nonneg (marginLe : margin ≤ 1) (stake : ℕ) :
    0 ≤ memberPart reward cost margin poolStake stake := by
  unfold memberPart
  split_ifs
  · exact le_refl 0
  · have restNonneg : 0 ≤ 1 - margin := sub_nonneg.mpr marginLe
    positivity

/-- The delegators of a pool that are no owners share what their stake may take. -/
theorem computeDelegatorChunk_spec (listed : List StakeCredential) (babbageOrLater : Bool)
    (word : reward < 2 ^ 64) (funded : 0 < supply)
    (marginNonneg : 0 ≤ margin) (marginLe : margin ≤ 1) (staked : cost < reward → 0 < poolStake)
    {delegators : List StakeCredential} (counted : ctx.stakeOf pool delegators ≤ poolStake) :
    ∃ rewards, ctx.computeDelegatorChunk pool reward poolStake supply cost margin listed
        babbageOrLater delegators = .ok rewards ∧
      ((rewards.map Prod.snd).sum : ℚ) ≤ memberPart reward cost margin poolStake
        (ctx.stakeOf pool (delegators.filter (· ∉ listed))) := by
  induction delegators with
  | nil => exact ⟨[], rfl, by simpa using memberPart_nonneg marginLe _⟩
  | cons delegator rest ih =>
      have consEq : ctx.stakeOf pool (delegator :: rest) =
          ctx.accountStake pool delegator + ctx.stakeOf pool rest := by
        simp [stakeOf]
      rw [consEq] at counted
      rcases ih (by omega) with ⟨later, laterEq, laterLe⟩
      by_cases isOwner : delegator ∈ listed
      · refine ⟨later, ?_, ?_⟩
        · rw [computeDelegatorChunk, if_pos (Or.inl isOwner), laterEq]
        · rw [List.filter_cons_of_neg (by simpa using isOwner)]
          exact laterLe
      · have keptEq : ctx.stakeOf pool ((delegator :: rest).filter (· ∉ listed)) =
            ctx.accountStake pool delegator + ctx.stakeOf pool (rest.filter (· ∉ listed)) := by
          rw [List.filter_cons_of_pos (by simpa using isOwner)]
          simp [stakeOf]
        rw [keptEq, memberPart_add]
        by_cases skipped : babbageOrLater = false ∧ ctx.isAccountRegistered delegator = false
        · refine ⟨later, ?_, ?_⟩
          · rw [computeDelegatorChunk, if_pos (Or.inr skipped), laterEq]
          · have own : 0 ≤ memberPart reward cost margin poolStake
                (ctx.accountStake pool delegator) := memberPart_nonneg marginLe _
            linarith
        · rcases delegatorReward_spec word funded marginNonneg marginLe
            (show ctx.accountStake pool delegator ≤ poolStake by omega) staked with
            ⟨value, valueEq, valueLe⟩
          refine ⟨(delegator, value) :: later, ?_, ?_⟩
          · rw [computeDelegatorChunk, if_neg (not_or.mpr ⟨isOwner, skipped⟩), valueEq, ok_bind,
              laterEq, ok_bind]
          · rw [List.map_cons, List.sum_cons, Nat.cast_add]
            linarith

end Delegators

section Payout

/-- The part of the pot a pool of the context may claim. -/
def shareOf (ctx : RewardsContext) (d : RationalNumber) (pool : Hash28) : ℚ :=
  potShare (d.numerator / d.denominator) (ctx.blocksOf pool) ctx.epochBlocks (ctx.poolStake pool)
    ctx.pots.circulating

/-- Owners and the other delegators make up the stake of a pool. -/
theorem stakeOf_filter_add (ctx : RewardsContext) (pool : Hash28)
    (listed accounts : List StakeCredential) :
    ctx.stakeOf pool (accounts.filter (· ∈ listed)) +
      ctx.stakeOf pool (accounts.filter (· ∉ listed)) = ctx.stakeOf pool accounts := by
  induction accounts with
  | nil => rfl
  | cons account rest ih =>
      simp only [stakeOf] at ih ⊢
      by_cases isListed : account ∈ listed
      · simp only [List.filter_cons, isListed, decide_true, if_true, not_true_eq_false,
          decide_false, Bool.false_eq_true, if_false, List.map_cons, List.sum_cons]
        omega
      · simp only [List.filter_cons, isListed, decide_false, Bool.false_eq_true, if_false,
          not_false_eq_true, decide_true, if_true, List.map_cons, List.sum_cons]
        omega

variable [AddressDecoding] {ctx : RewardsContext} {pparams : PParamsSet} {nopt : ℕ}
  {a0 d : RationalNumber}

/-- A pool pays out at most its reward, which is within its part of the pot. -/
theorem computePayout_spec (premises : Premises ctx) (funded : Funded ctx)
    (known : KnownParams ctx pparams nopt a0 d) {pool : Hash28} (member : pool ∈ ctx.iterAllPools) :
    ∃ result, ctx.computePayout pool = .ok result ∧ ∀ payout, result = some payout →
      payout.paid ≤ payout.totalReward ∧
        (payout.totalReward : ℚ) ≤ ctx.incentives.availableRewards * ctx.shareOf d pool := by
  rcases premises.pools pool member with ⟨params, blocks, poolKnown⟩
  rcases Option.isSome_iff_exists.mp (funded.accounts pool member params poolKnown.paramsEq) with
    ⟨operatorAccount, accountEq⟩
  have blocksOfEq : ctx.blocksOf pool = blocks := by
    rw [blocksOf, poolKnown.blocksEq]
    rfl
  have madeLe : blocks ≤ ctx.epochBlocks := by
    rw [← blocksOfEq]
    exact (List.single_le_sum (by simp) _ (List.mem_map_of_mem member)).trans premises.made
  have countedLe : ctx.poolStake pool ≤ ctx.activeStake :=
    (List.single_le_sum (by simp) _ (List.mem_map_of_mem member)).trans funded.counted
  have wholeStake := ctx.stakeOf_filter_add pool params.owners (ctx.poolDelegators pool)
  rw [← poolKnown.pledge, ← poolKnown.stake] at wholeStake
  have pledgedLe : ctx.livePledge pool params.owners ≤ ctx.poolStake pool := by omega
  have a0Nonneg : (0 : ℚ) ≤ a0.numerator / a0.denominator := by positivity
  have marginNonneg : (0 : ℚ) ≤ params.margin.numerator / params.margin.denominator := by positivity
  have marginLe : (params.margin.numerator : ℚ) / params.margin.denominator ≤ 1 := by
    rw [div_le_one (by exact_mod_cast poolKnown.marginDefined)]
    exact_mod_cast poolKnown.marginLe
  rcases poolRewards_spec params.pledge (d.numerator / d.denominator) premises.word
    funded.circulating premises.active pledgedLe countedLe known.nonzero a0Nonneg madeLe with
    ⟨reward, rewardEq, rewardShare, rewardLe, unstaked⟩
  have rewardWord : reward < 2 ^ 64 := rewardLe.trans_lt premises.word
  have staked : params.cost < reward → 0 < ctx.poolStake pool := by
    intro above
    by_contra none
    have zero := unstaked (by omega)
    omega
  rcases poolOperatorShare_spec rewardWord funded.circulating marginNonneg marginLe pledgedLe
    staked with ⟨operatorShare, operatorEq, operatorLe⟩
  have delegatorsLe : ctx.stakeOf pool (ctx.poolDelegators pool) ≤ ctx.poolStake pool :=
    poolKnown.stake.ge
  rcases computeDelegatorChunk_spec params.owners (7 ≤ pparams.protocolMajorOrDefault) rewardWord
    funded.circulating marginNonneg marginLe staked delegatorsLe with
    ⟨rewards, rewardsEq, rewardsLe⟩
  by_cases blockless : blocks = 0
  · refine ⟨none, ?_, by simp⟩
    simp only [computePayout, computeTerms, poolKnown.paramsEq, accountEq, expect_some,
      poolKnown.blocksEq,
      mapError_ok, ok_bind, if_pos blockless]
  refine ⟨some ⟨reward, operatorAccount, operatorShare,
    decide (7 ≤ pparams.protocolMajorOrDefault) || ctx.isAccountRegistered operatorAccount,
    rewards⟩, ?_, ?_⟩
  · simp only [computePayout, computeTerms, poolKnown.paramsEq, accountEq, expect_some,
      poolKnown.blocksEq,
      mapError_ok, ok_bind, if_neg blockless, known.pparamsEq, known.kEq, known.a0Eq, known.dEq,
      toRatio_of_pos known.a0Defined, toRatio_of_pos known.dDefined, rewardEq,
      toRatio_of_pos poolKnown.marginDefined, operatorEq, rewardsEq]
  · rintro payout ⟨⟩
    constructor
    · have parts := leaderPart_add_memberPart
        (params.margin.numerator / params.margin.denominator : ℚ) wholeStake staked
      have paidLe : ((operatorShare + (rewards.map Prod.snd).sum : ℕ) : ℚ) ≤ reward := by
        rw [Nat.cast_add]
        linarith
      exact Nat.cast_le.mp paidLe
    · rw [shareOf, blocksOfEq]
      exact rewardShare

end Payout

section Pot

variable [AddressDecoding] {ctx : RewardsContext} {pparams : PParamsSet} {nopt : ℕ}
  {a0 d : RationalNumber}

theorem defineRewardsOver_spec (premises : Premises ctx) (funded : Funded ctx)
    (known : KnownParams ctx pparams nopt a0 d) {pools : List Hash28}
    (listed : ∀ pool ∈ pools, pool ∈ ctx.iterAllPools) {pending : PendingRewards}
    (ofEra : OfEra ctx.preAllegra pending) :
    ∃ final, ctx.defineRewardsOver pools pending = .ok final ∧
      (total final : ℚ) ≤ total pending +
        ctx.incentives.availableRewards * (pools.map (ctx.shareOf d)).sum := by
  induction pools generalizing pending with
  | nil => exact ⟨pending, rfl, by simp⟩
  | cons pool rest ih =>
      have listedRest : ∀ other ∈ rest, other ∈ ctx.iterAllPools := by
        intro other member
        exact listed other (List.mem_cons_of_mem _ member)
      have potNonneg : (0 : ℚ) ≤ ctx.incentives.availableRewards := Nat.cast_nonneg _
      rcases computePayout_spec premises funded known (listed pool List.mem_cons_self) with
        ⟨result, resultEq, resultLe⟩
      rw [defineRewardsOver, resultEq, ok_bind, List.map_cons, List.sum_cons]
      cases result with
      | none =>
          rcases ih listedRest ofEra with ⟨final, finalEq, finalLe⟩
          have shareNonneg : 0 ≤ ctx.shareOf d pool := by
            unfold shareOf potShare
            split_ifs <;> positivity
          refine ⟨final, finalEq, ?_⟩
          have own := mul_nonneg potNonneg shareNonneg
          linarith
      | some payout =>
          rcases resultLe payout rfl with ⟨paidLe, totalLe⟩
          rcases includePayout_spec pool ofEra payout with
            ⟨included, includedEq, includedEra, includedLe⟩
          rcases ih listedRest includedEra with ⟨final, finalEq, finalLe⟩
          refine ⟨final, ?_, ?_⟩
          · simp only [includedEq, mapError_ok, ok_bind, finalEq]
          · have paidCast : (payout.paid : ℚ) ≤ payout.totalReward := by exact_mod_cast paidLe
            have includedCast : (total included : ℚ) ≤ total pending + payout.paid := by
              exact_mod_cast includedLe
            linarith

omit [AddressDecoding] in
theorem sum_map_div (pools : List Hash28) (measure : Hash28 → ℕ) (whole : ℕ) :
    (pools.map fun pool => (measure pool / whole : ℚ)).sum = (pools.map measure).sum / whole := by
  induction pools with
  | nil => simp
  | cons pool rest ih =>
      simp only [List.map_cons, List.sum_cons, ih]
      push_cast
      ring

/-- The parts of the pools make up at most the whole pot. -/
theorem sum_shareOf_le (premises : Premises ctx) (funded : Funded ctx) :
    (ctx.iterAllPools.map (ctx.shareOf d)).sum ≤ 1 := by
  by_cases decentralised : (d.numerator / d.denominator : ℚ) < 4 / 5
  · have shareEq : ctx.shareOf d =
        fun pool => (ctx.blocksOf pool / (max ctx.epochBlocks 1 : ℕ) : ℚ) := by
      funext pool
      exact if_pos decentralised
    rw [shareEq, sum_map_div, div_le_one (by positivity)]
    have made := premises.made
    have below : (ctx.iterAllPools.map ctx.blocksOf).sum ≤ max ctx.epochBlocks 1 := by omega
    exact_mod_cast below
  · have shareEq : ctx.shareOf d =
        fun pool => (ctx.poolStake pool / ctx.pots.circulating : ℚ) := by
      funext pool
      exact if_neg decentralised
    rw [shareEq, sum_map_div, div_le_one (by exact_mod_cast funded.circulating)]
    exact_mod_cast funded.counted.trans premises.active

/-- Rewards are defined without a panic, no pool pays out more than its reward, and
together they are within the pot. -/
theorem defineRewards_le_available (premises : Premises ctx) (funded : Funded ctx) :
    ∃ pending, ctx.defineRewards = .ok pending ∧
      total pending ≤ ctx.incentives.availableRewards ∧
      ∀ pool ∈ ctx.iterAllPools, ∃ result, ctx.computePayout pool = .ok result ∧
        ∀ payout, result = some payout → payout.paid ≤ payout.totalReward := by
  rcases premises.params with ⟨pparams, nopt, a0, d, known⟩
  rcases defineRewardsOver_spec premises funded known (fun _ member => member)
    (ofEra_empty ctx.preAllegra) with
    ⟨pending, pendingEq, pendingLe⟩
  refine ⟨pending, pendingEq, ?_, ?_⟩
  · have potNonneg : (0 : ℚ) ≤ ctx.incentives.availableRewards := Nat.cast_nonneg _
    have sharesLe : (ctx.iterAllPools.map (ctx.shareOf d)).sum ≤ 1 := sum_shareOf_le premises funded
    have withinPot := mul_le_of_le_one_right potNonneg sharesLe
    have empty : total ∅ = 0 := rfl
    rw [empty, Nat.cast_zero, zero_add] at pendingLe
    have castLe : (total pending : ℚ) ≤ ctx.incentives.availableRewards := by linarith
    exact_mod_cast castLe
  · intro pool member
    rcases computePayout_spec premises funded known member with ⟨result, resultEq, resultLe⟩
    exact ⟨result, resultEq, fun payout isPayout => (resultLe payout isPayout).1⟩

end Pot

section Federated

/-- Stake addresses: a header and a hash of 28 bytes. -/
@[reducible]
def stakeAddresses : AddressDecoding where
  parseRewardAccount
    | [] => none
    | header :: hash =>
        let value := hash.foldl (fun value byte => 256 * value + byte.toNat) 0
        if hash.length = 28 then
          if header.toNat / 16 = 14 then some (.addrKeyhash (Fin.ofNat _ value))
          else if header.toNat / 16 = 15 then some (.scriptHash (Fin.ofNat _ value))
          else none
        else none

/-- Pools of one stake whose operators take everything, in a federated network with
room for a single saturated pool. -/
def federated (supply active : ℕ) (pools : List Hash28) (stake : ℕ) : RewardsContext where
  incentives := ⟨100, 0, 100, 0⟩
  pots := { Pots.default with utxos := supply }
  preAllegra := false
  activeStake := active
  epochBlocks := 2
  poolBlocks _ := .ok 1
  poolStake _ := stake
  accountStake _ _ := stake
  isAccountRegistered _ := true
  iterAllPools := pools
  poolParams _ := .ok ⟨0, 0, 0, ⟨1, 1⟩, 0xe1 :: (List.replicate 27 0 ++ [1]), []⟩
  poolDelegators _ := [.addrKeyhash 5]
  pparams := .ok ⟨[⟨.desiredNumberOfStakePools, .amount 1⟩, ⟨.poolPledgeInfluence, .ratio ⟨0, 1⟩⟩,
    ⟨.decentralizationConstant, .ratio ⟨1, 1⟩⟩, ⟨.protocolVersion, .version 9 0⟩]⟩
  livePledge _ _ := 0
  shouldInclude _ := true

theorem premises_federated {supply active : ℕ} {pools : List Hash28} (stake : ℕ)
    (within : active ≤ supply) (few : pools.length ≤ 2) :
    Premises (federated supply active pools stake) := by
  refine ⟨?_, ?_, ?_, ?_, ?_⟩
  · change 100 < 2 ^ 64
    decide
  · simpa [federated, Pots.circulating, Pots.maxSupply, Pots.obligations, Pots.stakeDeposits,
      Pots.default] using within
  · intro pool _
    exact ⟨_, _, rfl, rfl, by decide, by decide, by simp [stakeOf, federated], rfl⟩
  · have one : (federated supply active pools stake).blocksOf = fun _ => 1 := rfl
    rw [one]
    simpa [federated] using few
  · exact ⟨_, _, _, _, rfl, rfl, by decide, rfl, by decide, rfl, by decide, by decide⟩

/-- Two pools that have half of the supply each. -/
theorem defineRewards_le_available_federated :
    letI := stakeAddresses
    ∃ pending, (federated 20 20 [1, 2] 10).defineRewards = .ok pending ∧
      total pending ≤ (federated 20 20 [1, 2] 10).incentives.availableRewards ∧
      ∀ pool ∈ (federated 20 20 [1, 2] 10).iterAllPools, ∃ result,
        (federated 20 20 [1, 2] 10).computePayout pool = .ok result ∧
        ∀ payout, result = some payout → payout.paid ≤ payout.totalReward := by
  let _ := stakeAddresses
  apply defineRewards_le_available
  · exact premises_federated 10 (by decide) (by decide)
  · refine ⟨by decide, by decide, ?_⟩
    intro pool _ params paramsEq
    rcases Except.ok.inj paramsEq with rfl
    rfl

/-- Without a supply a pool with a block has no relative stake, and where the active
stake leaves a pool out, both are paid the whole pot. -/
theorem defineRewards_unfunded :
    letI := stakeAddresses
    (Premises (federated 0 0 [1] 0) ∧ (federated 0 0 [1] 0).defineRewards =
        .error (.panic (.explicit "denominator == 0"))) ∧
      Premises (federated 10 10 [1, 2] 10) ∧
      (federated 10 10 [1, 2] 10).defineRewards.toOption.map total = some 200 ∧
      (federated 10 10 [1, 2] 10).incentives.availableRewards = 100 := by
  refine ⟨⟨?_, rfl⟩, ?_, ?_, rfl⟩
  · exact premises_federated 0 (by decide) (by decide)
  · exact premises_federated 10 (by decide) (by decide)
  · decide +kernel

end Federated

end RewardsContext

end Dolos
