import Mathlib.Tactic.Order
import Dolos.Cardano.Rewards

/-!
# Merging rewards

Rewards of one era merge without a panic into no more than they are worth together.
-/

namespace Dolos

open Outcome

namespace PreAllegraReward

/-- Leaders before members, then by pool. -/
def rank (reward : PreAllegraReward) : ℕ ×ₗ Hash28 :=
  toLex (if reward.asLeader then 0 else 1, reward.pool)

/-- A merge keeps the least of the two. -/
theorem merge_eq (reward other : PreAllegraReward) :
    reward.merge other = if reward.rank ≤ other.rank then reward else other := by
  rcases reward with ⟨_, leads, pool, _⟩
  rcases other with ⟨_, otherLeads, otherPool, _⟩
  cases leads <;> cases otherLeads <;> simp [merge, rank, Prod.Lex.le_iff]

theorem role_of_rank {reward other : PreAllegraReward} (same : reward.rank = other.rank) :
    reward.asLeader = other.asLeader ∧ reward.pool = other.pool := by
  have parts := toLex.injective same
  simp only [Prod.mk.injEq] at parts
  refine ⟨?_, parts.2⟩
  have leads := parts.1
  cases own : reward.asLeader <;> cases others : other.asLeader <;> simp [own, others] at leads ⊢

theorem merge_comm {first second : PreAllegraReward} (different : first.rank ≠ second.rank) :
    first.merge second = second.merge first := by
  simp only [merge_eq]
  split_ifs <;> first | rfl | (exfalso; order)

theorem merge_right_comm (previous : PreAllegraReward) {first second : PreAllegraReward}
    (different : first.rank ≠ second.rank) :
    (previous.merge first).merge second = (previous.merge second).merge first := by
  simp only [merge_eq, apply_ite rank]
  split_ifs <;> first | rfl | (exfalso; order)

end PreAllegraReward

namespace RewardsContext

section Merging

variable {ctx : RewardsContext}

/-- The rewards of a map are all of one era. -/
def OfEra (preAllegra : Bool) (pending : PendingRewards) : Prop :=
  ∀ account reward, pending.get? account = some reward → reward.isPreAllegra = preAllegra

theorem ofEra_empty (preAllegra : Bool) : OfEra preAllegra ∅ := by
  intro account reward held
  cases held

def total (pending : PendingRewards) : ℕ := pending.sumBy Reward.totalValue

theorem sumBy_single (pool : Hash28) (value : ℕ) :
    (OrderedMap.ofList [(pool, value)]).sumBy id = value :=
  List.sum_singleton

theorem newReward_spec (ctx : RewardsContext) (account : StakeCredential) (value : ℕ)
    (pool : Hash28) (asLeader : Bool) :
    (ctx.newReward account value pool asLeader).isPreAllegra = ctx.preAllegra ∧
      (ctx.newReward account value pool asLeader).totalValue = value := by
  cases era : ctx.preAllegra with
  | true =>
      simp only [newReward, era, if_true]
      exact ⟨rfl, rfl⟩
  | false =>
      cases asLeader with
      | true =>
          simp only [newReward, era, Bool.false_eq_true, if_false, if_true]
          exact ⟨rfl, sumBy_single pool value⟩
      | false =>
          simp only [newReward, era, Bool.false_eq_true, if_false]
          exact ⟨rfl, (Nat.zero_add _).trans (sumBy_single pool value)⟩

/-- Rewards of one era merge, into no more than they are worth together. -/
theorem merge_spec {previous added : Reward}
    (same : previous.isPreAllegra = added.isPreAllegra) :
    ∃ merged, previous.merge added = .ok merged ∧
      merged.isPreAllegra = added.isPreAllegra ∧
      merged.totalValue ≤ previous.totalValue + added.totalValue := by
  cases previous with
  | multiPool previous =>
      cases added with
      | preAllegra added => cases same
      | multiPool added =>
          refine ⟨_, rfl, rfl, ?_⟩
          have leader := OrderedMap.sumBy_insertAll_le id previous.asLeader added.asLeader.entries
          have delegator :=
            OrderedMap.sumBy_insertAll_le id previous.asDelegator added.asDelegator.entries
          simp only [Reward.totalValue, MultiPoolReward.totalValue, MultiPoolReward.merge]
          change _ ≤ _ + added.asLeader.sumBy id at leader
          change _ ≤ _ + added.asDelegator.sumBy id at delegator
          omega
  | preAllegra previous =>
      cases added with
      | multiPool added => cases same
      | preAllegra added =>
          refine ⟨_, rfl, rfl, ?_⟩
          simp only [Reward.totalValue, PreAllegraReward.merge]
          split
          · omega
          · omega
          · split_ifs <;> omega

theorem includeReward_spec {pending : PendingRewards}
    (ofEra : OfEra ctx.preAllegra pending) (account : StakeCredential) (value : ℕ) (pool : Hash28)
    (asLeader : Bool) :
    ∃ included, ctx.includeReward pending account value pool asLeader = .ok included ∧
      OfEra ctx.preAllegra included ∧ total included ≤ total pending + value := by
  rcases newReward_spec ctx account value pool asLeader with ⟨addedEra, addedValue⟩
  set added := ctx.newReward account value pool asLeader with addedEq
  have inserted : ∀ merged : Reward, merged.isPreAllegra = ctx.preAllegra →
      OfEra ctx.preAllegra (pending.insert account merged) := by
    intro merged mergedEra other reward held
    rw [OrderedMap.get?_insert] at held
    split_ifs at held
    · rw [← Option.some.inj held]
      exact mergedEra
    · exact ofEra other reward held
  rw [includeReward, ← addedEq]
  cases held : pending.get? account with
  | none =>
      refine ⟨pending.insert account added, rfl, inserted added addedEra, ?_⟩
      have summed := OrderedMap.sumBy_insert Reward.totalValue pending account added
      rw [held, addedValue] at summed
      exact (Nat.le_add_right _ _).trans summed.le
  | some previous =>
      have previousEra := ofEra account previous held
      rcases merge_spec (previousEra.trans addedEra.symm) with
        ⟨merged, mergedEq, mergedEra, mergedLe⟩
      refine ⟨pending.insert account merged, ?_, inserted merged (mergedEra.trans addedEra), ?_⟩
      · rw [Reward.onto, mergedEq, ok_bind]
      · have summed := OrderedMap.sumBy_insert Reward.totalValue pending account merged
        rw [held] at summed
        simp only [Option.map_some, Option.getD_some] at summed
        simp only [total]
        omega

theorem includeDelegators_spec (pool : Hash28)
    {pending : PendingRewards} (ofEra : OfEra ctx.preAllegra pending)
    (rewards : List (StakeCredential × ℕ)) :
    ∃ included, ctx.includeDelegators pool rewards pending = .ok included ∧
      OfEra ctx.preAllegra included ∧
      total included ≤ total pending + (rewards.map Prod.snd).sum := by
  induction rewards generalizing pending with
  | nil => exact ⟨pending, rfl, ofEra, by simp⟩
  | cons head rest ih =>
      rcases head with ⟨delegator, reward⟩
      simp only [includeDelegators, List.map_cons, List.sum_cons]
      split_ifs
      · rcases includeReward_spec ofEra delegator reward pool false with
          ⟨included, includedEq, includedEra, includedLe⟩
        rcases ih includedEra with ⟨final, finalEq, finalEra, finalLe⟩
        refine ⟨final, ?_, finalEra, by omega⟩
        rw [includedEq, ok_bind, finalEq]
      · rcases ih ofEra with ⟨final, finalEq, finalEra, finalLe⟩
        exact ⟨final, finalEq, finalEra, by omega⟩

def PoolPayout.paid (payout : PoolPayout) : ℕ :=
  payout.operatorShare + (payout.delegatorRewards.map Prod.snd).sum

theorem includePayout_spec (pool : Hash28)
    {pending : PendingRewards} (ofEra : OfEra ctx.preAllegra pending) (payout : PoolPayout) :
    ∃ included, ctx.includePayout pool payout pending = .ok included ∧
      OfEra ctx.preAllegra included ∧ total included ≤ total pending + payout.paid := by
  unfold includePayout PoolPayout.paid
  split_ifs
  · rcases includeReward_spec ofEra payout.operatorAccount payout.operatorShare pool true with
      ⟨withOperator, operatorEq, operatorEra, operatorLe⟩
    rcases includeDelegators_spec pool operatorEra payout.delegatorRewards with
      ⟨final, finalEq, finalEra, finalLe⟩
    refine ⟨final, ?_, finalEra, by omega⟩
    rw [operatorEq]
    exact finalEq
  · rcases includeDelegators_spec pool ofEra payout.delegatorRewards with
      ⟨final, finalEq, finalEra, finalLe⟩
    exact ⟨final, finalEq, finalEra, by omega⟩

end Merging

section Order

variable {ctx : RewardsContext}

/-- A reward on its way into the map. -/
structure RewardEvent where
  account : StakeCredential
  value : ℕ
  pool : Hash28
  asLeader : Bool

/-- What tells the rewards of an account apart. -/
def RewardEvent.role (event : RewardEvent) : StakeCredential × Hash28 × Bool :=
  (event.account, event.pool, event.asLeader)

def includeEvent (ctx : RewardsContext) (pending : PendingRewards) (event : RewardEvent) :
    Except Panic PendingRewards :=
  ctx.includeReward pending event.account event.value event.pool event.asLeader

def includeAll (ctx : RewardsContext) : List RewardEvent → PendingRewards →
    Except Panic PendingRewards
  | [], pending => .ok pending
  | event :: rest, pending => do
      let included ← ctx.includeEvent pending event
      ctx.includeAll rest included

theorem get?_ofList_single (pool other : Hash28) (value : ℕ) :
    (OrderedMap.ofList [(pool, value)]).get? other = if other = pool then some value else none := by
  change (OrderedMap.insert ∅ pool value).get? other = _
  rw [OrderedMap.get?_insert, OrderedMap.get?_empty]

def rewardOf (ctx : RewardsContext) (event : RewardEvent) : Reward :=
  ctx.newReward event.account event.value event.pool event.asLeader

/-- After Allegra an event is an entry in one of two maps. -/
def RewardEvent.entries (event : RewardEvent) (asLeader : Bool) : OrderedMap Hash28 ℕ :=
  if event.asLeader = asLeader then .ofList [(event.pool, event.value)] else ∅

theorem rewardOf_multiPool (era : ctx.preAllegra = false) (event : RewardEvent) :
    ctx.rewardOf event = .multiPool ⟨ctx.isAccountRegistered event.account, event.entries true,
      event.entries false⟩ := by
  cases leads : event.asLeader with
  | true => simp [rewardOf, newReward, era, RewardEvent.entries, leads]
  | false => simp [rewardOf, newReward, era, RewardEvent.entries, leads]

theorem get?_entries (event : RewardEvent) (asLeader : Bool) (pool : Hash28) :
    (event.entries asLeader).get? pool =
      if event.asLeader = asLeader ∧ pool = event.pool then some event.value else none := by
  by_cases role : event.asLeader = asLeader
  · simp [RewardEvent.entries, role, get?_ofList_single]
  · simp [RewardEvent.entries, role]

theorem entries_disjoint {first second : RewardEvent} (same : first.account = second.account)
    (different : first.role ≠ second.role) (asLeader : Bool) (pool : Hash28)
    (held : ((first.entries asLeader).get? pool).isSome) :
    (second.entries asLeader).get? pool = none := by
  rw [get?_entries] at held ⊢
  apply if_neg
  rintro ⟨secondLeads, isSecond⟩
  split_ifs at held with isFirst
  · apply different
    simp only [RewardEvent.role, same, secondLeads, isFirst.1, ← isSecond, ← isFirst.2]
  · cases held

variable (ctx) in
/-- Two rewards of an account go on top of what it has in either order. -/
theorem onto_comm {first second : RewardEvent} (same : first.account = second.account)
    (different : first.role ≠ second.role) (previous : Option Reward) :
    ((ctx.rewardOf first).onto previous >>=
        fun merged => (ctx.rewardOf second).onto (some merged)) =
      ((ctx.rewardOf second).onto previous >>=
        fun merged => (ctx.rewardOf first).onto (some merged)) := by
  cases era : ctx.preAllegra with
  | true =>
      have ranks : (PreAllegraReward.mk (ctx.isAccountRegistered first.account) first.asLeader
            first.pool first.value).rank ≠
          (PreAllegraReward.mk (ctx.isAccountRegistered second.account) second.asLeader
            second.pool second.value).rank := by
        intro rankEq
        rcases PreAllegraReward.role_of_rank rankEq with ⟨leads, pools⟩
        apply different
        simp only [RewardEvent.role, same, Prod.mk.injEq, true_and]
        exact ⟨pools, leads⟩
      have firstIs : ctx.rewardOf first = .preAllegra ⟨ctx.isAccountRegistered first.account,
          first.asLeader, first.pool, first.value⟩ := by simp [rewardOf, newReward, era]
      have secondIs : ctx.rewardOf second = .preAllegra ⟨ctx.isAccountRegistered second.account,
          second.asLeader, second.pool, second.value⟩ := by simp [rewardOf, newReward, era]
      rw [firstIs, secondIs]
      cases previous with
      | none =>
          simp only [Reward.onto, ok_bind, Reward.merge]
          rw [PreAllegraReward.merge_comm ranks]
      | some previous =>
          cases previous with
          | multiPool previous => simp [Reward.onto, Reward.merge]
          | preAllegra previous =>
              simp only [Reward.onto, ok_bind, Reward.merge]
              rw [PreAllegraReward.merge_right_comm previous ranks]
  | false =>
      have leaders := entries_disjoint same different true
      have delegators := entries_disjoint same different false
      rw [rewardOf_multiPool era, rewardOf_multiPool era, same]
      cases previous with
      | none =>
          simp only [Reward.onto, ok_bind, Reward.merge, MultiPoolReward.merge]
          rw [OrderedMap.insertAll_swap leaders, OrderedMap.insertAll_swap delegators]
      | some previous =>
          cases previous with
          | preAllegra previous => simp [Reward.onto, Reward.merge]
          | multiPool previous =>
              simp only [Reward.onto, ok_bind, Reward.merge, MultiPoolReward.merge]
              rw [OrderedMap.insertAll_comm _ leaders, OrderedMap.insertAll_comm _ delegators]

theorem includeEvent_eq (ctx : RewardsContext) (pending : PendingRewards) (event : RewardEvent) :
    ctx.includeEvent pending event = (ctx.rewardOf event).onto (pending.get? event.account) >>=
      fun merged => .ok (pending.insert event.account merged) := rfl

theorem onto_ok {pending : PendingRewards} (ofEra : OfEra ctx.preAllegra pending)
    (event : RewardEvent) :
    ∃ merged, (ctx.rewardOf event).onto (pending.get? event.account) = .ok merged ∧
      OfEra ctx.preAllegra (pending.insert event.account merged) := by
  rcases includeReward_spec ofEra event.account event.value event.pool event.asLeader with
    ⟨included, includedEq, includedEra, -⟩
  rcases bind_eq_ok.mp includedEq with ⟨merged, mergedEq, insertEq⟩
  rcases Except.ok.inj insertEq with rfl
  exact ⟨merged, mergedEq, includedEra⟩

/-- Rewards in different roles are included in either order. -/
theorem includeEvent_comm {pending : PendingRewards} (ofEra : OfEra ctx.preAllegra pending)
    {first second : RewardEvent} (different : first.role ≠ second.role) :
    (ctx.includeEvent pending first >>= fun included => ctx.includeEvent included second) =
      (ctx.includeEvent pending second >>= fun included => ctx.includeEvent included first) := by
  rcases onto_ok ofEra first with ⟨afterFirst, firstEq, firstEra⟩
  rcases onto_ok ofEra second with ⟨afterSecond, secondEq, secondEra⟩
  rcases onto_ok firstEra second with ⟨firstSecond, firstSecondEq, -⟩
  rcases onto_ok secondEra first with ⟨secondFirst, secondFirstEq, -⟩
  have left :
      (ctx.includeEvent pending first >>= fun included => ctx.includeEvent included second) =
      .ok ((pending.insert first.account afterFirst).insert second.account firstSecond) := by
    rw [includeEvent_eq, firstEq, ok_bind, ok_bind, includeEvent_eq, firstSecondEq, ok_bind]
  have right :
      (ctx.includeEvent pending second >>= fun included => ctx.includeEvent included first) =
      .ok ((pending.insert second.account afterSecond).insert first.account secondFirst) := by
    rw [includeEvent_eq, secondEq, ok_bind, ok_bind, includeEvent_eq, secondFirstEq, ok_bind]
  rw [left, right]
  congr 1
  by_cases same : first.account = second.account
  · have swapped := onto_comm ctx same different (pending.get? first.account)
    rw [same] at firstSecondEq firstEq swapped
    rw [same, OrderedMap.get?_insert_self] at secondFirstEq
    rw [OrderedMap.get?_insert_self] at firstSecondEq
    rw [firstEq, secondEq, ok_bind, ok_bind, firstSecondEq, secondFirstEq] at swapped
    rcases Except.ok.inj swapped with rfl
    ext1 account
    simp only [OrderedMap.get?_insert, same]
    split_ifs <;> rfl
  · have apart : ¬ second.account = first.account := fun reversed => same reversed.symm
    rw [OrderedMap.get?_insert, if_neg apart, secondEq] at firstSecondEq
    rw [OrderedMap.get?_insert, if_neg same, firstEq] at secondFirstEq
    rcases Except.ok.inj firstSecondEq with rfl
    rcases Except.ok.inj secondFirstEq with rfl
    ext1 account
    simp only [OrderedMap.get?_insert]
    split_ifs with isSecond isFirst
    · exact absurd (isFirst.symm.trans isSecond) same
    · rfl
    · rfl
    · rfl

theorem includeAll_spec {pending : PendingRewards} (ofEra : OfEra ctx.preAllegra pending)
    (events : List RewardEvent) : ∃ included, ctx.includeAll events pending = .ok included := by
  induction events generalizing pending with
  | nil => exact ⟨pending, rfl⟩
  | cons event rest ih =>
      rcases onto_ok ofEra event with ⟨merged, mergedEq, mergedEra⟩
      rw [includeAll, includeEvent_eq, mergedEq, ok_bind, ok_bind]
      exact ih mergedEra

/-- The order in which pools and delegators are visited does not matter. -/
theorem includeAll_perm {events others : List RewardEvent} (perm : events.Perm others)
    (distinct : (events.map RewardEvent.role).Nodup) {pending : PendingRewards}
    (ofEra : OfEra ctx.preAllegra pending) :
    ctx.includeAll events pending = ctx.includeAll others pending := by
  induction perm generalizing pending with
  | nil => rfl
  | cons event _ ih =>
      rcases onto_ok ofEra event with ⟨merged, mergedEq, mergedEra⟩
      have restDistinct := (List.nodup_cons.mp distinct).2
      rw [includeAll, includeAll, includeEvent_eq, mergedEq, ok_bind, ok_bind, ok_bind]
      exact ih restDistinct mergedEra
  | swap first second rest =>
      have different : second.role ≠ first.role := by
        intro same
        rw [List.map_cons, List.map_cons, same] at distinct
        exact (List.nodup_cons.mp distinct).1 List.mem_cons_self
      have swapped := includeEvent_comm ofEra different
      have left : ctx.includeAll (second :: first :: rest) pending =
          (ctx.includeEvent pending second >>= fun included => ctx.includeEvent included first) >>=
            ctx.includeAll rest := by
        rw [bind_assoc]
        rfl
      have right : ctx.includeAll (first :: second :: rest) pending =
          (ctx.includeEvent pending first >>= fun included => ctx.includeEvent included second) >>=
            ctx.includeAll rest := by
        rw [bind_assoc]
        rfl
      rw [left, right, swapped]
  | trans firstPerm _ firstIh secondIh =>
      rw [firstIh distinct ofEra]
      exact secondIh ((firstPerm.map _).nodup_iff.mp distinct) ofEra

end Order

end RewardsContext

end Dolos
