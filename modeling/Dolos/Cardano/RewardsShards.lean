import Dolos.Cardano.RewardsMerge

/-!
# Rewards of a part of the accounts

A context that knows the pools as a whole but only some of the accounts defines
their rewards as the context of all accounts does, whatever the order in which
either goes through pools and delegators. What a pool pays is a list of events, and
the map a context defines is what its events amount to.
-/

namespace Dolos

open Outcome

namespace RewardsContext

section Chunk

variable (ctx : RewardsContext) (pool : Hash28) (terms : PoolTerms)

/-- Whether a delegator is paid as one. -/
def eligible (delegator : StakeCredential) : Bool :=
  decide (delegator ∉ terms.owners) &&
    (terms.babbageOrLater || ctx.isAccountRegistered delegator)

def memberReward (delegator : StakeCredential) : Except Panic ℕ :=
  delegatorReward terms.totalReward (ctx.accountStake pool delegator) (ctx.poolStake pool)
    ctx.pots.circulating terms.cost terms.margin

def payDelegators (delegators : List StakeCredential) :
    Except Panic (List (StakeCredential × ℕ)) :=
  ctx.computeDelegatorChunk pool terms.totalReward (ctx.poolStake pool) ctx.pots.circulating
    terms.cost terms.margin terms.owners terms.babbageOrLater delegators

def memberValue (delegator : StakeCredential) : ℕ :=
  (ctx.memberReward pool terms delegator).toOption.getD 0

variable {ctx pool terms}

theorem payDelegators_cons (delegator : StakeCredential) (rest : List StakeCredential) :
    ctx.payDelegators pool terms (delegator :: rest) =
      if ctx.eligible terms delegator then do
        let reward ← ctx.memberReward pool terms delegator
        let later ← ctx.payDelegators pool terms rest
        .ok ((delegator, reward) :: later)
      else ctx.payDelegators pool terms rest := by
  rw [payDelegators, computeDelegatorChunk]
  by_cases owner : delegator ∈ terms.owners
  · simp [eligible, owner, payDelegators]
  · cases babbage : terms.babbageOrLater <;>
      cases registered : ctx.isAccountRegistered delegator <;>
      simp [eligible, owner, babbage, registered, payDelegators, memberReward]

/-- Delegators are paid if each of the eligible ones has a reward. -/
theorem payDelegators_eq_ok {delegators : List StakeCredential}
    {rewards : List (StakeCredential × ℕ)} :
    ctx.payDelegators pool terms delegators = .ok rewards ↔
      (∀ delegator ∈ delegators, ctx.eligible terms delegator →
        ∃ value, ctx.memberReward pool terms delegator = .ok value) ∧
      rewards = (delegators.filter (ctx.eligible terms)).map fun delegator =>
        (delegator, ctx.memberValue pool terms delegator) := by
  induction delegators generalizing rewards with
  | nil =>
      have empty : ctx.payDelegators pool terms [] = .ok [] := rfl
      rw [empty]
      constructor
      · intro isEmpty
        exact ⟨by simp, (Except.ok.inj isEmpty).symm⟩
      · rintro ⟨-, rfl⟩
        rfl
  | cons delegator rest ih =>
      rw [payDelegators_cons]
      cases isEligible : ctx.eligible terms delegator with
      | false => simp [isEligible, ih]
      | true =>
          cases paid : ctx.memberReward pool terms delegator with
          | error panic => simp [isEligible, paid]
          | ok value =>
              have valueEq : ctx.memberValue pool terms delegator = value := by
                rw [memberValue, paid]
                rfl
              simp only [if_true, ok_bind, bind_eq_ok, ih, List.filter_cons, isEligible,
                List.map_cons, valueEq, List.forall_mem_cons, paid]
              constructor
              · rintro ⟨later, ⟨each, rfl⟩, laterEq⟩
                exact ⟨⟨fun _ => ⟨value, rfl⟩, each⟩, (Except.ok.inj laterEq).symm⟩
              · rintro ⟨⟨-, each⟩, rfl⟩
                exact ⟨_, ⟨each, rfl⟩, rfl⟩

end Chunk

section Events

def leaderEvents (paid : Bool) (account : StakeCredential) (value : ℕ) (pool : Hash28) :
    List RewardEvent :=
  if paid then [⟨account, value, pool, true⟩] else []

def PoolPayout.events (pool : Hash28) (payout : PoolPayout) : List RewardEvent :=
  leaderEvents payout.operatorPaid payout.operatorAccount payout.operatorShare pool ++
  payout.delegatorRewards.map fun reward => ⟨reward.1, reward.2, pool, false⟩

variable [AddressDecoding] {ctx : RewardsContext}

/-- The events of a pool, none if it has no payout. -/
def eventsOf (ctx : RewardsContext) (pool : Hash28) : List RewardEvent :=
  match ctx.computePayout pool with
  | .ok (some payout) => payout.events pool
  | _ => []

def included (ctx : RewardsContext) (event : RewardEvent) : Bool := ctx.shouldInclude event.account

omit [AddressDecoding] in
theorem includeAll_append (first second : List RewardEvent) (pending : PendingRewards) :
    ctx.includeAll (first ++ second) pending =
      ctx.includeAll first pending >>= ctx.includeAll second := by
  induction first generalizing pending with
  | nil => rfl
  | cons event rest ih =>
      simp only [List.cons_append, includeAll, bind_assoc]
      congr
      funext includedOne
      exact ih includedOne

omit [AddressDecoding] in
theorem includeDelegators_eq (pool : Hash28) (rewards : List (StakeCredential × ℕ))
    (pending : PendingRewards) :
    ctx.includeDelegators pool rewards pending = ctx.includeAll
      ((rewards.map fun reward => ⟨reward.1, reward.2, pool, false⟩).filter ctx.included)
      pending := by
  induction rewards generalizing pending with
  | nil => rfl
  | cons head rest ih =>
      rcases head with ⟨delegator, reward⟩
      rw [includeDelegators, List.map_cons, List.filter_cons]
      by_cases isIncluded : ctx.shouldInclude delegator = true
      · simp only [included, isIncluded, if_true]
        rw [includeAll]
        congr
        funext includedOne
        exact ih includedOne
      · simp only [included, isIncluded]
        exact ih pending

omit [AddressDecoding] in
theorem includePayout_eq (pool : Hash28) (payout : PoolPayout) (pending : PendingRewards) :
    ctx.includePayout pool payout pending =
      ctx.includeAll ((payout.events pool).filter ctx.included) pending := by
  rw [PoolPayout.events, leaderEvents, List.filter_append, includeAll_append, includePayout]
  cases paid : payout.operatorPaid with
  | false =>
      simp only [Bool.false_and, Bool.false_eq_true, if_false, List.filter_nil, includeAll, ok_bind]
      exact includeDelegators_eq pool payout.delegatorRewards pending
  | true =>
      by_cases isIncluded : ctx.shouldInclude payout.operatorAccount = true
      · simp only [isIncluded, Bool.true_and, if_true, List.filter_cons, included, List.filter_nil,
          includeAll, includeEvent]
        rw [bind_assoc]
        congr
        funext withOperator
        exact includeDelegators_eq pool payout.delegatorRewards withOperator
      · simp only [isIncluded, Bool.and_false, Bool.false_eq_true, if_false, if_true,
          List.filter_cons, included, List.filter_nil, includeAll, ok_bind]
        exact includeDelegators_eq pool payout.delegatorRewards pending

/-- Rewards are defined if every pool has its payout, and then are what the events of
the pools amount to. -/
theorem defineRewardsOver_eq_ok {pools : List Hash28} {pending final : PendingRewards}
    (ofEra : OfEra ctx.preAllegra pending) :
    ctx.defineRewardsOver pools pending = .ok final ↔
      (∀ pool ∈ pools, ∃ result, ctx.computePayout pool = .ok result) ∧
        ctx.includeAll ((pools.flatMap ctx.eventsOf).filter ctx.included) pending = .ok final := by
  induction pools generalizing pending with
  | nil =>
      have empty : ctx.defineRewardsOver [] pending = .ok pending := rfl
      have none : ctx.includeAll [] pending = .ok pending := rfl
      simp [empty, none]
  | cons pool rest ih =>
      rw [defineRewardsOver, List.flatMap_cons, List.filter_append, includeAll_append,
        List.forall_mem_cons]
      cases computed : ctx.computePayout pool with
      | error failure => simp
      | ok result =>
          cases result with
          | none =>
              have none : ctx.includeAll [] pending = .ok pending := rfl
              simp [eventsOf, computed, none, ih ofEra]
          | some payout =>
              rcases includePayout_spec pool ofEra payout with ⟨after, afterEq, afterEra, -⟩
              have eventsEq : ctx.eventsOf pool = payout.events pool := by
                simp [eventsOf, computed]
              rw [eventsEq, ← includePayout_eq, afterEq]
              simp [afterEq, ih afterEra]

end Events

section Part

/-- A context that knows some accounts of another one. Pools and delegators may come
in any order. -/
structure PartOf (full part : RewardsContext) (owned : StakeCredential → Bool) : Prop where
  incentives : part.incentives = full.incentives
  pots : part.pots = full.pots
  preAllegra : part.preAllegra = full.preAllegra
  activeStake : part.activeStake = full.activeStake
  epochBlocks : part.epochBlocks = full.epochBlocks
  poolBlocks : part.poolBlocks = full.poolBlocks
  poolStake : part.poolStake = full.poolStake
  poolParams : part.poolParams = full.poolParams
  pparams : part.pparams = full.pparams
  livePledge : part.livePledge = full.livePledge
  pools : part.iterAllPools.Perm full.iterAllPools
  accountStake : ∀ pool account, owned account →
    part.accountStake pool account = full.accountStake pool account
  registered : ∀ account, owned account →
    part.isAccountRegistered account = full.isAccountRegistered account
  delegators : ∀ pool, (part.poolDelegators pool).Perm ((full.poolDelegators pool).filter owned)
  includes : ∀ account, part.shouldInclude account = owned account

variable [AddressDecoding] {full part : RewardsContext} {owned : StakeCredential → Bool}

theorem PartOf.computeTerms_eq (isPart : PartOf full part owned) (pool : Hash28) :
    part.computeTerms pool = full.computeTerms pool := by
  simp only [computeTerms, isPart.poolParams, isPart.livePledge, isPart.poolBlocks,
    isPart.pparams, isPart.incentives, isPart.pots, isPart.activeStake, isPart.poolStake,
    isPart.epochBlocks]

omit [AddressDecoding] in
theorem PartOf.eligible_eq (isPart : PartOf full part owned) (terms : PoolTerms)
    {account : StakeCredential} (isOwned : owned account) :
    part.eligible terms account = full.eligible terms account := by
  rw [eligible, eligible, isPart.registered account isOwned]

omit [AddressDecoding] in
theorem PartOf.memberReward_eq (isPart : PartOf full part owned) (pool : Hash28) (terms : PoolTerms)
    {account : StakeCredential} (isOwned : owned account) :
    part.memberReward pool terms account = full.memberReward pool terms account := by
  rw [memberReward, memberReward, isPart.accountStake pool account isOwned, isPart.poolStake,
    isPart.pots]

/-- What a context pays as a pool with these terms. -/
def payoutOf (ctx : RewardsContext) (terms : PoolTerms) (rewards : List (StakeCredential × ℕ)) :
    PoolPayout :=
  ⟨terms.totalReward, terms.operatorAccount, terms.operatorShare,
    terms.babbageOrLater || ctx.isAccountRegistered terms.operatorAccount, rewards⟩

theorem computePayout_eq_ok {ctx : RewardsContext} {pool : Hash28} {result : Option PoolPayout} :
    ctx.computePayout pool = .ok result ↔
      (ctx.computeTerms pool = .ok none ∧ result = none) ∨
        ∃ terms rewards, ctx.computeTerms pool = .ok (some terms) ∧
          ctx.payDelegators pool terms (ctx.poolDelegators pool) = .ok rewards ∧
          result = some (ctx.payoutOf terms rewards) := by
  rw [computePayout]
  cases computed : ctx.computeTerms pool with
  | error failure => simp
  | ok found =>
      cases found with
      | none => simp [eq_comm (a := result)]
      | some terms =>
          simp only [ok_bind, bind_eq_ok, mapError_eq_ok, Except.ok.injEq, reduceCtorEq, false_and,
            Option.some.injEq, false_or]
          constructor
          · rintro ⟨rewards, paid, rfl⟩
            exact ⟨terms, rewards, rfl, paid, rfl⟩
          · rintro ⟨_, rewards, rfl, paid, rfl⟩
            exact ⟨rewards, paid, rfl⟩

omit [AddressDecoding] in
theorem PartOf.payDelegators_ok (isPart : PartOf full part owned) {pool : Hash28}
    {terms : PoolTerms} {rewards : List (StakeCredential × ℕ)}
    (paid : full.payDelegators pool terms (full.poolDelegators pool) = .ok rewards) :
    ∃ owning, part.payDelegators pool terms (part.poolDelegators pool) = .ok owning ∧
      owning.Perm (rewards.filter fun reward => owned reward.1) := by
  rcases payDelegators_eq_ok.mp paid with ⟨each, rfl⟩
  refine ⟨_, payDelegators_eq_ok.mpr ⟨?_, rfl⟩, ?_⟩
  · intro account member isEligible
    have isFull := (isPart.delegators pool).mem_iff.mp member
    rcases List.mem_filter.mp isFull with ⟨isMember, isOwned⟩
    rw [isPart.eligible_eq terms isOwned] at isEligible
    rw [isPart.memberReward_eq pool terms isOwned]
    exact each account isMember isEligible
  · have ownedPart : ∀ account ∈ part.poolDelegators pool, owned account := by
      intro account member
      exact (List.mem_filter.mp ((isPart.delegators pool).mem_iff.mp member)).2
    have partEq : ((part.poolDelegators pool).filter (part.eligible terms)).map
          (fun account => (account, part.memberValue pool terms account)) =
        ((part.poolDelegators pool).filter (full.eligible terms)).map
          (fun account => (account, full.memberValue pool terms account)) := by
      have sameFilter : (part.poolDelegators pool).filter (part.eligible terms) =
          (part.poolDelegators pool).filter (full.eligible terms) := by
        apply List.filter_congr
        intro account member
        exact isPart.eligible_eq terms (ownedPart account member)
      rw [sameFilter]
      apply List.map_congr_left
      intro account member
      have isOwned := ownedPart account (List.mem_of_mem_filter member)
      rw [memberValue, memberValue, isPart.memberReward_eq pool terms isOwned]
    have fullEq : (((full.poolDelegators pool).filter (full.eligible terms)).map
          (fun account => (account, full.memberValue pool terms account))).filter
            (fun reward => owned reward.1) =
        (((full.poolDelegators pool).filter owned).filter (full.eligible terms)).map
          (fun account => (account, full.memberValue pool terms account)) := by
      rw [List.filter_map, List.filter_comm]
      rfl
    rw [partEq, fullEq]
    exact ((isPart.delegators pool).filter _).map _

omit [AddressDecoding] in
theorem filter_leaderEvents {paid other : Bool} {account : StakeCredential} (value : ℕ)
    (pool : Hash28) (agree : owned account → paid = other) :
    (leaderEvents paid account value pool).filter (fun event => owned event.account) =
      (leaderEvents other account value pool).filter fun event => owned event.account := by
  cases isOwned : owned account with
  | true => rw [agree isOwned]
  | false => cases paid <;> cases other <;> simp [leaderEvents, isOwned]

omit [AddressDecoding] in
/-- The events of a part are those of its accounts. -/
theorem PartOf.events_perm (isPart : PartOf full part owned) (pool : Hash28) (terms : PoolTerms)
    {rewards owning : List (StakeCredential × ℕ)}
    (perm : owning.Perm (rewards.filter fun reward => owned reward.1)) :
    (((part.payoutOf terms owning).events pool).filter part.included).Perm
      (((full.payoutOf terms rewards).events pool).filter fun event => owned event.account) := by
  have includedEq : part.included = fun event => owned event.account := by
    funext event
    exact isPart.includes event.account
  rw [PoolPayout.events, PoolPayout.events, List.filter_append, List.filter_append, includedEq]
  apply List.Perm.append
  · apply List.Perm.of_eq
    apply filter_leaderEvents
    intro isOwned
    have registered := isPart.registered terms.operatorAccount isOwned
    simp only [payoutOf, registered]
  · simp only [payoutOf, List.filter_map]
    apply List.Perm.map
    have mapped : ((fun event : RewardEvent => owned event.account) ∘
        fun reward : StakeCredential × ℕ => ⟨reward.1, reward.2, pool, false⟩) =
          fun reward => owned reward.1 := rfl
    rw [mapped]
    have allOwned : owning.filter (fun reward => owned reward.1) = owning := by
      apply List.filter_eq_self.mpr
      intro reward member
      exact (List.mem_filter.mp (perm.mem_iff.mp member)).2
    rw [allOwned]
    exact perm

theorem PartOf.eventsOf_perm (isPart : PartOf full part owned) {pool : Hash28}
    {result : Option PoolPayout} (computed : full.computePayout pool = .ok result) :
    (∃ owning, part.computePayout pool = .ok owning) ∧
      ((part.eventsOf pool).filter part.included).Perm
        ((full.eventsOf pool).filter fun event => owned event.account) := by
  rcases computePayout_eq_ok.mp computed with ⟨noTerms, rfl⟩ | ⟨terms, rewards, termsEq, paid, rfl⟩
  · have partComputed : part.computePayout pool = .ok none := by
      apply computePayout_eq_ok.mpr
      exact Or.inl ⟨(isPart.computeTerms_eq pool).trans noTerms, rfl⟩
    refine ⟨⟨_, partComputed⟩, ?_⟩
    simp [eventsOf, computed, partComputed]
  · rcases isPart.payDelegators_ok paid with ⟨owning, owningEq, perm⟩
    have partComputed : part.computePayout pool = .ok (some (part.payoutOf terms owning)) := by
      apply computePayout_eq_ok.mpr
      exact Or.inr ⟨terms, owning, (isPart.computeTerms_eq pool).trans termsEq, owningEq, rfl⟩
    refine ⟨⟨_, partComputed⟩, ?_⟩
    simp only [eventsOf, computed, partComputed]
    exact isPart.events_perm pool terms perm

omit [AddressDecoding] in
/-- Events of other accounts do not change what the accounts of a part have. -/
theorem PartOf.includeAll_filter (isPart : PartOf full part owned) {events : List RewardEvent}
    {pending final : PendingRewards} (done : full.includeAll events pending = .ok final) :
    part.includeAll (events.filter fun event => owned event.account)
      (pending.filter fun account _ => owned account) =
        .ok (final.filter fun account _ => owned account) := by
  induction events generalizing pending with
  | nil =>
      rcases Except.ok.inj done with rfl
      rfl
  | cons event rest ih =>
      rcases bind_eq_ok.mp done with ⟨next, nextEq, restDone⟩
      rw [includeEvent_eq] at nextEq
      rcases bind_eq_ok.mp nextEq with ⟨merged, mergedEq, insertEq⟩
      rcases Except.ok.inj insertEq with rfl
      have later := ih restDone
      cases isOwned : owned event.account with
      | false =>
          rw [List.filter_cons_of_neg (by simp [isOwned]), ← later]
          congr 1
          ext1 account
          simp only [OrderedMap.get?_filter, OrderedMap.get?_insert]
          by_cases same : account = event.account
          · subst same
            simp [isOwned]
          · rw [if_neg same]
      | true =>
          have rewardEq : part.rewardOf event = full.rewardOf event := by
            simp only [rewardOf, newReward, isPart.preAllegra, isPart.registered _ isOwned]
          have heldEq : (pending.filter fun account _ => owned account).get? event.account =
              pending.get? event.account := by
            rw [OrderedMap.get?_filter]
            cases pending.get? event.account <;> simp [isOwned, Option.filter]
          have insertFilter : (pending.filter fun account _ => owned account).insert event.account
              merged = (pending.insert event.account merged).filter
                fun account _ => owned account := by
            ext1 account
            simp only [OrderedMap.get?_filter, OrderedMap.get?_insert]
            by_cases same : account = event.account
            · subst same
              simp [isOwned, Option.filter]
            · rw [if_neg same, if_neg same]
          rw [List.filter_cons_of_pos (by simpa using isOwned), includeAll, includeEvent_eq,
            rewardEq, heldEq, mergedEq, ok_bind, ok_bind, insertFilter, later]

/-- The events of a pool are those of a payout to distinct delegators. -/
theorem eventsOf_cases {ctx : RewardsContext} {pool : Hash28}
    (distinct : (ctx.poolDelegators pool).Nodup) :
    ctx.eventsOf pool = [] ∨ ∃ payout : PoolPayout, ctx.eventsOf pool = payout.events pool ∧
      (payout.delegatorRewards.map Prod.fst).Nodup := by
  unfold eventsOf
  split
  next payout computed =>
    rcases computePayout_eq_ok.mp computed with ⟨-, isNone⟩ | ⟨terms, rewards, -, paid, isPayout⟩
    · cases isNone
    · rcases Option.some.inj isPayout with rfl
      rcases payDelegators_eq_ok.mp paid with ⟨-, rfl⟩
      refine Or.inr ⟨_, rfl, ?_⟩
      simp only [payoutOf, List.map_map]
      change (List.map id _).Nodup
      rw [List.map_id]
      exact distinct.filter _
  next => exact Or.inl rfl

omit [AddressDecoding] in
theorem pool_of_mem_events {payout : PoolPayout} {pool : Hash28} {event : RewardEvent}
    (member : event ∈ payout.events pool) : event.pool = pool := by
  rcases List.mem_append.mp member with leads | follows
  · unfold leaderEvents at leads
    split_ifs at leads
    · rw [List.mem_singleton.mp leads]
    · cases leads
  · rcases List.mem_map.mp follows with ⟨reward, -, rfl⟩
    rfl

omit [AddressDecoding] in
theorem nodup_events {payout : PoolPayout} (pool : Hash28)
    (distinct : (payout.delegatorRewards.map Prod.fst).Nodup) :
    ((payout.events pool).map RewardEvent.role).Nodup := by
  rw [PoolPayout.events, List.map_append, List.nodup_append]
  refine ⟨?_, ?_, ?_⟩
  · unfold leaderEvents
    split_ifs <;> simp
  · rw [List.map_map]
    have roles : (RewardEvent.role ∘ fun reward : StakeCredential × ℕ =>
        (⟨reward.1, reward.2, pool, false⟩ : RewardEvent)) =
          (fun account => (account, pool, false)) ∘ Prod.fst := rfl
    rw [roles, ← List.map_map]
    apply distinct.map
    intro first second same
    exact congrArg Prod.fst same
  · intro role leads other follows same
    unfold leaderEvents at leads
    split_ifs at leads
    · rw [List.map_singleton, List.mem_singleton] at leads
      rcases List.mem_map.mp follows with ⟨event, isEvent, rfl⟩
      rcases List.mem_map.mp isEvent with ⟨reward, -, rfl⟩
      rw [leads] at same
      simp [RewardEvent.role] at same
    · cases leads

/-- Each reward of a context has a role of its own. -/
theorem nodup_roles {ctx : RewardsContext} (poolsDistinct : ctx.iterAllPools.Nodup)
    (delegatorsDistinct : ∀ pool, (ctx.poolDelegators pool).Nodup) :
    ((ctx.iterAllPools.flatMap ctx.eventsOf).map RewardEvent.role).Nodup := by
  rw [List.map_flatMap, List.nodup_flatMap]
  constructor
  · intro pool _
    rcases eventsOf_cases (delegatorsDistinct pool) with none | ⟨payout, eventsEq, distinct⟩
    · simp [none]
    · rw [eventsEq]
      exact nodup_events pool distinct
  · apply poolsDistinct.imp
    intro first second different role isFirst isSecond
    rcases List.mem_map.mp isFirst with ⟨event, isEvent, rfl⟩
    rcases List.mem_map.mp isSecond with ⟨other, isOther, sameRole⟩
    have eventPool : event.pool = first := by
      rcases eventsOf_cases (delegatorsDistinct first) with none | ⟨payout, eventsEq, -⟩
      · simp [none] at isEvent
      · rw [eventsEq] at isEvent
        exact pool_of_mem_events isEvent
    have otherPool : other.pool = second := by
      rcases eventsOf_cases (delegatorsDistinct second) with none | ⟨payout, eventsEq, -⟩
      · simp [none] at isOther
      · rw [eventsEq] at isOther
        exact pool_of_mem_events isOther
    apply different
    rw [← eventPool, ← otherPool]
    exact congrArg (fun role => role.2.1) sameRole.symm

/-- The rewards a part defines are those of its accounts. -/
theorem PartOf.defineRewards_eq (isPart : PartOf full part owned)
    (all : ∀ account, full.shouldInclude account = true)
    (poolsDistinct : full.iterAllPools.Nodup)
    (delegatorsDistinct : ∀ pool, (full.poolDelegators pool).Nodup) {pending : PendingRewards}
    (defined : full.defineRewards = .ok pending) :
    part.defineRewards = .ok (pending.filter fun account _ => owned account) := by
  rcases (defineRewardsOver_eq_ok (ofEra_empty full.preAllegra)).mp defined with ⟨computed, merged⟩
  have everything : (full.iterAllPools.flatMap full.eventsOf).filter full.included =
      full.iterAllPools.flatMap full.eventsOf := by
    apply List.filter_eq_self.mpr
    intro event _
    exact all event.account
  rw [everything] at merged
  have perm : ((part.iterAllPools.flatMap part.eventsOf).filter part.included).Perm
      ((full.iterAllPools.flatMap full.eventsOf).filter fun event => owned event.account) := by
    rw [List.filter_flatMap, List.filter_flatMap]
    apply isPart.pools.flatMap
    intro pool member
    rcases computed pool (isPart.pools.mem_iff.mp member) with ⟨result, resultEq⟩
    exact (isPart.eventsOf_perm resultEq).2
  have distinct : (((full.iterAllPools.flatMap full.eventsOf).filter
      fun event => owned event.account).map RewardEvent.role).Nodup :=
    (nodup_roles poolsDistinct delegatorsDistinct).sublist
      (List.Sublist.map _ List.filter_sublist)
  apply (defineRewardsOver_eq_ok (ofEra_empty part.preAllegra)).mpr
  constructor
  · intro pool member
    rcases computed pool (isPart.pools.mem_iff.mp member) with ⟨result, resultEq⟩
    exact (isPart.eventsOf_perm resultEq).1
  · rw [includeAll_perm perm ((perm.map _).nodup_iff.mpr distinct) (ofEra_empty _)]
    exact isPart.includeAll_filter merged

/-- If parts that together own every account define their rewards, the whole does. -/
theorem PartOf.defineRewards_ok {ι : Type} {parts : ι → RewardsContext}
    {ownedBy : ι → StakeCredential → Bool}
    (arePart : ∀ index, PartOf full (parts index) (ownedBy index))
    (covering : ∀ account, ∃ index, ownedBy index account)
    (defined : ∀ index, ∃ pending, (parts index).defineRewards = .ok pending) :
    ∃ pending, full.defineRewards = .ok pending := by
  have computed : ∀ pool ∈ full.iterAllPools, ∃ result, full.computePayout pool = .ok result := by
    intro pool member
    have partComputed : ∀ index, ∃ result, (parts index).computePayout pool = .ok result := by
      intro index
      rcases defined index with ⟨pending, pendingEq⟩
      rcases (defineRewardsOver_eq_ok (ofEra_empty _)).mp pendingEq with ⟨each, -⟩
      exact each pool ((arePart index).pools.mem_iff.mpr member)
    rcases covering (.scriptHash 0) with ⟨first, -⟩
    rcases partComputed first with ⟨result, resultEq⟩
    rcases computePayout_eq_ok.mp resultEq with ⟨noTerms, -⟩ | ⟨terms, -, termsEq, -, -⟩
    · rw [(arePart first).computeTerms_eq] at noTerms
      exact ⟨none, computePayout_eq_ok.mpr (Or.inl ⟨noTerms, rfl⟩)⟩
    · rw [(arePart first).computeTerms_eq] at termsEq
      refine ⟨_, computePayout_eq_ok.mpr (Or.inr ⟨terms, _, termsEq,
        payDelegators_eq_ok.mpr ⟨?_, rfl⟩, rfl⟩)⟩
      intro account isDelegator isEligible
      rcases covering account with ⟨index, isOwned⟩
      have isPart := arePart index
      rcases partComputed index with ⟨owning, owningEq⟩
      rcases computePayout_eq_ok.mp owningEq with ⟨noTerms, -⟩ | ⟨own, rewards, ownEq, paid, -⟩
      · rw [isPart.computeTerms_eq, termsEq] at noTerms
        cases noTerms
      · rw [isPart.computeTerms_eq, termsEq] at ownEq
        rcases Option.some.inj (Except.ok.inj ownEq) with rfl
        have isMember : account ∈ (parts index).poolDelegators pool := by
          apply (isPart.delegators pool).mem_iff.mpr
          exact List.mem_filter.mpr ⟨isDelegator, isOwned⟩
        have each := (payDelegators_eq_ok.mp paid).1 account isMember
        rw [isPart.eligible_eq terms isOwned, isPart.memberReward_eq pool terms isOwned] at each
        exact each isEligible
  rcases includeAll_spec (ofEra_empty full.preAllegra)
    ((full.iterAllPools.flatMap full.eventsOf).filter full.included) with ⟨pending, pendingEq⟩
  exact ⟨pending, (defineRewardsOver_eq_ok (ofEra_empty _)).mpr ⟨computed, pendingEq⟩⟩

end Part

end RewardsContext

end Dolos
