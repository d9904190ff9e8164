import Dolos.Cardano.BoundaryCredits
import Dolos.Lib.TwoSlot

/-!
# Credits of an account

The stake of an account is a cell of two slots: rewards, instantaneous rewards and
withdrawals go to the live one, refunds to the scheduled one, and the move to the next epoch
promotes the latter. A run of deltas on an account is a run of credits on that cell, and a
commit gives every account the deltas under its own key.
-/

namespace Dolos

open Outcome

/-- The stake holds the rewards of a cell, and is as it was otherwise. -/
structure Carries (base : Stake) (slots : TwoSlot ℕ) (value : EpochValue Stake) : Prop where
  live : value.live = some { base with rewardsSum := slots.live }
  next : value.next = slots.next.map fun amount => { base with rewardsSum := amount }

/-- The parts of an account that a boundary leaves alone. -/
structure SameOwner (before after : AccountState) : Prop where
  credential : after.credential = before.credential
  registeredAt : after.registeredAt = before.registeredAt
  deregisteredAt : after.deregisteredAt = before.deregisteredAt

/-- There is room for an amount in both slots. -/
structure Room (slots : TwoSlot ℕ) (amount : ℕ) : Prop where
  live : slots.live + amount < 2 ^ 64
  next : ∀ next, slots.next = some next → next + amount < 2 ^ 64

theorem SameOwner.trans {first second third : AccountState} (one : SameOwner first second)
    (two : SameOwner second third) : SameOwner first third :=
  ⟨two.credential.trans one.credential, two.registeredAt.trans one.registeredAt,
    two.deregisteredAt.trans one.deregisteredAt⟩

theorem SameOwner.isRegistered {before after : AccountState} (same : SameOwner before after) :
    after.isRegistered = before.isRegistered := by
  simp only [AccountState.isRegistered, same.registeredAt, same.deregisteredAt]

theorem Room.mono {slots : TwoSlot ℕ} {small large : ℕ} (room : Room slots large)
    (le : small ≤ large) : Room slots small := by
  refine ⟨?_, ?_⟩
  · have := room.live
    omega
  · intro next isNext
    have := room.next next isNext
    omega

theorem Room.credit {slots : TwoSlot ℕ} {credit : SlotCredit ℕ} {rest : List (SlotCredit ℕ)}
    (room : Room slots (TwoSlot.total (credit :: rest))) :
    Room (slots.credit credit) (TwoSlot.total rest) := by
  have live := room.live
  have next := room.next
  have split : TwoSlot.total (credit :: rest) = credit.amount + TwoSlot.total rest := rfl
  rw [split] at live next
  cases credit with
  | live amount =>
      simp only [SlotCredit.amount] at live next
      refine ⟨?_, ?_⟩
      · simp only [TwoSlot.credit]
        omega
      · intro held isNext
        have := next held isNext
        omega
  | next amount =>
      simp only [SlotCredit.amount] at live next
      refine ⟨?_, ?_⟩
      · simp only [TwoSlot.credit]
        omega
      · intro held isNext
        rcases Option.some.inj isNext with rfl
        cases nextEq : slots.next with
        | none =>
            simp only [Option.getD_none]
            omega
        | some scheduled =>
            have := next scheduled nextEq
            simp only [Option.getD_some]
            omega

namespace AccountDelta

/-- The slot a delta writes to, and how much. -/
def credit? : AccountDelta → Option (SlotCredit ℕ)
  | assignRewards delta => some (.live delta.reward)
  | treasuryWithdrawal delta => some (.live delta.amount)
  | poolDepositRefund delta => some (.next delta.poolDeposit)
  | proposalDepositRefund delta => some (.next delta.proposalDeposit)
  | _ => none

def creditsOf (deltas : List AccountDelta) : List (SlotCredit ℕ) := deltas.filterMap credit?

def isTransition : AccountDelta → Bool
  | accountTransition _ => true
  | _ => false

end AccountDelta

section Owner

variable {account : AccountState}

theorem SameOwner.changeStake {change : Stake → Stake} {stake : Stake} {changed : AccountState}
    (done : account.changeStake change = .ok (stake, changed)) : SameOwner account changed := by
  rcases bind_eq_ok.mp done with ⟨live, -, changedEq⟩
  rcases Except.ok.inj changedEq with ⟨⟩
  exact ⟨rfl, rfl, rfl⟩

theorem SameOwner.refundStake {amount : ℕ} {changed : AccountState}
    (done : account.refundStake amount = .ok changed) : SameOwner account changed := by
  rcases bind_eq_ok.mp done with ⟨live, -, changedEq⟩
  rcases Except.ok.inj changedEq with rfl
  exact ⟨rfl, rfl, rfl⟩

theorem SameOwner.apply {delta : AccountDelta} {row : Option AccountState}
    (applied : delta.apply (some account) = .ok row) :
    ∃ after, row = some after ∧ SameOwner account after := by
  cases delta with
  | assignRewards delta =>
      rcases map_eq_ok.mp applied with ⟨⟨filled, entity⟩, done, rfl⟩
      simp only [EntityDelta.apply, expect_some, ok_bind] at done
      rcases bind_eq_ok.mp done with ⟨⟨stake, changed⟩, one, last⟩
      rcases Except.ok.inj last with ⟨⟩
      exact ⟨changed, rfl, .changeStake one⟩
  | treasuryWithdrawal delta =>
      rcases map_eq_ok.mp applied with ⟨⟨filled, entity⟩, done, rfl⟩
      simp only [EntityDelta.apply, expect_some, ok_bind] at done
      rcases bind_eq_ok.mp done with ⟨⟨stake, changed⟩, one, last⟩
      rcases Except.ok.inj last with ⟨⟩
      exact ⟨changed, rfl, .changeStake one⟩
  | poolDepositRefund delta =>
      rcases map_eq_ok.mp applied with ⟨⟨filled, entity⟩, done, rfl⟩
      simp only [EntityDelta.apply, expect_some, ok_bind] at done
      rcases bind_eq_ok.mp done with ⟨changed, one, last⟩
      rcases Except.ok.inj last with ⟨⟩
      exact ⟨changed, rfl, .refundStake one⟩
  | proposalDepositRefund delta =>
      rcases map_eq_ok.mp applied with ⟨⟨filled, entity⟩, done, rfl⟩
      simp only [EntityDelta.apply, expect_some, ok_bind] at done
      rcases bind_eq_ok.mp done with ⟨changed, one, last⟩
      rcases Except.ok.inj last with ⟨⟩
      exact ⟨changed, rfl, .refundStake one⟩
  | poolDelegatorRetire delta =>
      simp only [AccountDelta.apply, EntityDelta.apply, expect_some, ok_bind] at applied
      split at applied
      · rcases Except.ok.inj applied with rfl
        exact ⟨_, rfl, rfl, rfl, rfl⟩
      · cases applied
  | drepDelegatorDrop delta =>
      rcases Except.ok.inj applied with rfl
      exact ⟨_, rfl, rfl, rfl, rfl⟩
  | accountTransition delta =>
      rcases map_eq_ok.mp applied with ⟨⟨filled, entity⟩, done, rfl⟩
      simp only [EntityDelta.apply, expect_some, ok_bind] at done
      rcases bind_eq_ok.mp done with ⟨stake, -, withStake⟩
      rcases bind_eq_ok.mp withStake with ⟨pool, -, withPool⟩
      rcases bind_eq_ok.mp withPool with ⟨drep, -, last⟩
      rcases Except.ok.inj last with ⟨⟩
      exact ⟨_, rfl, rfl, rfl, rfl⟩

theorem SameOwner.applyAll {deltas : List AccountDelta} {row : Option AccountState}
    (applied : AccountDelta.applyAll (some account) deltas = .ok row) :
    ∃ after, row = some after ∧ SameOwner account after := by
  induction deltas generalizing account with
  | nil =>
      rcases Except.ok.inj applied with rfl
      exact ⟨account, rfl, rfl, rfl, rfl⟩
  | cons delta rest ih =>
      rw [AccountDelta.applyAll, List.foldlM_cons] at applied
      rcases bind_eq_ok.mp applied with ⟨next, one, others⟩
      rcases SameOwner.apply one with ⟨middle, rfl, same⟩
      rcases ih others with ⟨after, rowEq, later⟩
      exact ⟨after, rowEq, same.trans later⟩

end Owner

section Account

variable {base : Stake} {slots : TwoSlot ℕ} {account : AccountState}

theorem Carries.changeStake (carries : Carries base slots account.stake) {amount : ℕ}
    {change : Stake → Stake} (room : slots.live + amount < 2 ^ 64)
    (isAddition : ∀ stake, change stake =
      { stake with rewardsSum := saturatingAdd stake.rewardsSum amount }) :
    ∃ stake value, account.changeStake change = .ok (stake, { account with stake := value }) ∧
      Carries base (slots.credit (.live amount)) value := by
  have word : saturatingAdd slots.live amount = slots.live + amount := by
    unfold saturatingAdd
    omega
  have live := EpochValue.unwrapLive_eq_ok.mpr carries.live
  refine ⟨{ base with rewardsSum := slots.live },
    account.stake.setLive { base with rewardsSum := slots.live + amount }, ?_, rfl, carries.next⟩
  simp only [AccountState.changeStake, live, ok_bind, isAddition, word]

theorem Carries.refundStake (carries : Carries base slots account.stake) {amount : ℕ}
    (room : Room slots amount) :
    ∃ value, account.refundStake amount = .ok { account with stake := value } ∧
      Carries base (slots.credit (.next amount)) value := by
  have scheduled : account.stake.scheduledOrDefault =
      .ok { base with rewardsSum := slots.next.getD slots.live } := by
    unfold EpochValue.scheduledOrDefault
    rw [carries.next]
    cases nextEq : slots.next with
    | none => simp [carries.live, TransitionDefault.nextValue]
    | some next => rfl
  have small : slots.next.getD slots.live + amount < 2 ^ 64 := by
    cases nextEq : slots.next with
    | none => exact room.live
    | some next => exact room.next next nextEq
  refine ⟨account.stake.schedule
    (some { base with rewardsSum := slots.next.getD slots.live + amount }), ?_, carries.live, rfl⟩
  simp only [AccountState.refundStake, scheduled, ok_bind, Stake.refund, Nat.mod_eq_of_lt small]

/-- One delta does to the stake what its credit does to the cell. -/
theorem Carries.apply (carries : Carries base slots account.stake) {delta : AccountDelta}
    {credits : List (SlotCredit ℕ)} (isCredits : delta.credit?.toList = credits)
    (room : Room slots (TwoSlot.total credits)) (stays : delta.isTransition = false)
    {row : Option AccountState} (applied : delta.apply (some account) = .ok row) :
    ∃ after, row = some after ∧ Carries base (credits.foldl TwoSlot.credit slots) after.stake := by
  subst isCredits
  cases delta with
  | assignRewards delta =>
      have total : slots.live + delta.reward < 2 ^ 64 := room.live
      have isAddition : ∀ stake : Stake, stake.reward delta.reward =
          { stake with rewardsSum := saturatingAdd stake.rewardsSum delta.reward } :=
        fun _ => rfl
      rcases carries.changeStake total isAddition with ⟨stake, value, changed, carried⟩
      simp only [AccountDelta.apply, EntityDelta.apply, expect_some, ok_bind, changed] at applied
      rcases Except.ok.inj applied with rfl
      exact ⟨_, rfl, carried⟩
  | treasuryWithdrawal delta =>
      have total : slots.live + delta.amount < 2 ^ 64 := room.live
      have isAddition : ∀ stake, delta.change stake =
          { stake with rewardsSum := saturatingAdd stake.rewardsSum delta.amount } :=
        fun _ => rfl
      rcases carries.changeStake total isAddition with ⟨stake, value, changed, carried⟩
      simp only [AccountDelta.apply, EntityDelta.apply, expect_some, ok_bind, changed] at applied
      rcases Except.ok.inj applied with rfl
      exact ⟨_, rfl, carried⟩
  | poolDepositRefund delta =>
      have total : Room slots delta.poolDeposit := room
      rcases carries.refundStake total with ⟨value, refunded, carried⟩
      simp only [AccountDelta.apply, EntityDelta.apply, expect_some, ok_bind, refunded] at applied
      rcases Except.ok.inj applied with rfl
      exact ⟨_, rfl, carried⟩
  | proposalDepositRefund delta =>
      have total : Room slots delta.proposalDeposit := room
      rcases carries.refundStake total with ⟨value, refunded, carried⟩
      simp only [AccountDelta.apply, EntityDelta.apply, expect_some, ok_bind, refunded] at applied
      rcases Except.ok.inj applied with rfl
      exact ⟨_, rfl, carried⟩
  | poolDelegatorRetire delta =>
      simp only [AccountDelta.apply, EntityDelta.apply, expect_some, ok_bind] at applied
      split at applied
      · rcases Except.ok.inj applied with rfl
        exact ⟨_, rfl, carries⟩
      · cases applied
  | drepDelegatorDrop delta =>
      simp only [AccountDelta.apply, EntityDelta.apply, expect_some, ok_bind] at applied
      rcases Except.ok.inj applied with rfl
      exact ⟨_, rfl, carries⟩
  | accountTransition delta => cases stays

/-- A run of deltas on an account is a run of credits on the cell. -/
theorem Carries.applyAll {deltas : List AccountDelta}
    (stays : ∀ delta ∈ deltas, delta.isTransition = false) {row : Option AccountState}
    (applied : AccountDelta.applyAll (some account) deltas = .ok row)
    (carries : Carries base slots account.stake)
    (room : Room slots (TwoSlot.total (AccountDelta.creditsOf deltas))) :
    ∃ after, row = some after ∧
      Carries base ((AccountDelta.creditsOf deltas).foldl TwoSlot.credit slots) after.stake := by
  induction deltas generalizing slots account with
  | nil =>
      rcases Except.ok.inj applied with rfl
      exact ⟨account, rfl, carries⟩
  | cons delta rest ih =>
      rw [AccountDelta.applyAll, List.foldlM_cons] at applied
      rcases bind_eq_ok.mp applied with ⟨next, one, others⟩
      have headStays := stays delta List.mem_cons_self
      have restStays := fun other member => stays other (List.mem_cons_of_mem delta member)
      cases credited : delta.credit? with
      | none =>
          have split : AccountDelta.creditsOf (delta :: rest) = AccountDelta.creditsOf rest :=
            List.filterMap_cons_none credited
          rw [split] at room ⊢
          rcases carries.apply (by rw [credited]) (room.mono (Nat.zero_le _)) headStays one
            with ⟨after, rfl, carried⟩
          exact ih restStays others carried room
      | some credit =>
          have split : AccountDelta.creditsOf (delta :: rest) =
              credit :: AccountDelta.creditsOf rest := List.filterMap_cons_some credited
          rw [split] at room ⊢
          rcases carries.apply (by rw [credited]) (room.mono (Nat.le_add_right _ _)) headStays
            one with ⟨after, rfl, carried⟩
          exact ih restStays others carried room.credit

theorem Carries.defaultTransition (carries : Carries base slots account.stake) :
    ∃ value, account.stake.defaultTransition = .ok value ∧
      Carries base ⟨slots.promote, none⟩ value := by
  unfold EpochValue.defaultTransition TwoSlot.promote
  cases nextEq : slots.next with
  | none =>
      have unscheduled := carries.next
      rw [nextEq] at unscheduled
      rw [unscheduled]
      exact ⟨{ account.stake with next := account.stake.live }.transition, rfl, carries.live, rfl⟩
  | some next =>
      have scheduled := carries.next
      rw [nextEq] at scheduled
      rw [scheduled]
      exact ⟨account.stake.transition, rfl, scheduled, rfl⟩

/-- The move to the next epoch promotes what is scheduled. -/
theorem Carries.transition (carries : Carries base slots account.stake)
    {delta : AccountTransition} {row : Option AccountState}
    (applied : AccountDelta.apply (some account) (.accountTransition delta) = .ok row) :
    ∃ after, row = some after ∧ Carries base ⟨slots.promote, none⟩ after.stake := by
  rcases carries.defaultTransition with ⟨value, moved, carried⟩
  simp only [AccountDelta.apply, EntityDelta.apply, expect_some, ok_bind, moved] at applied
  rcases map_eq_ok.mp applied with ⟨⟨filled, entity⟩, done, rfl⟩
  rcases bind_eq_ok.mp done with ⟨pool, -, rest⟩
  rcases bind_eq_ok.mp rest with ⟨drep, -, last⟩
  rcases Except.ok.inj last with ⟨⟩
  exact ⟨_, rfl, carried⟩

end Account

section Stream

variable {store final : OrderedMap NsKey CardanoEntity} {deltas : List AccountDelta}
  {rows : List (EntityKey × AccountState)}

/-- Every row that is read becomes what its own deltas make of it, and nothing else changes. -/
theorem get?_streamAndApply (nodup : (rows.map Prod.fst).Nodup)
    (held : ∀ row ∈ rows, store.get? (toLex (.accounts, row.1)) = some (.account row.2))
    (ran : streamAndApply deltas rows store = .ok final) :
    (∀ row ∈ rows, ∃ account,
      AccountDelta.applyAll (some row.2) (AccountDelta.groupOf deltas row.1) = .ok account ∧
        final.get? (toLex (.accounts, row.1)) = account.map CardanoEntity.account) ∧
      ∀ index, (∀ row ∈ rows, index ≠ toLex (.accounts, row.1)) →
        final.get? index = store.get? index := by
  induction rows generalizing store with
  | nil =>
      rcases Except.ok.inj ran with rfl
      exact ⟨fun row member => absurd member List.not_mem_nil, fun index _ => rfl⟩
  | cons head rest ih =>
      rcases List.nodup_cons.mp nodup with ⟨headOnce, restNodup⟩
      rw [streamAndApply, List.foldlM_cons] at ran
      rcases bind_eq_ok.mp ran with ⟨written, one, others⟩
      have step : ∃ account,
          AccountDelta.applyAll (some head.2) (AccountDelta.groupOf deltas head.1) =
            .ok account ∧ ∀ index, written.get? index =
              if index = toLex (.accounts, head.1) then account.map CardanoEntity.account
              else store.get? index := by
        cases groupEq : AccountDelta.groupOf deltas head.1 with
        | nil =>
            rw [groupEq] at one
            rcases Except.ok.inj one with rfl
            refine ⟨some head.2, rfl, ?_⟩
            intro index
            split_ifs with same
            · rw [same, held head List.mem_cons_self]
              rfl
            · rfl
        | cons first others =>
            rw [groupEq] at one
            rcases bind_eq_ok.mp one with ⟨account, applied, writtenEq⟩
            rcases Except.ok.inj writtenEq with rfl
            refine ⟨account, applied, ?_⟩
            intro index
            rw [OrderedMap.get?_set]
            split_ifs <;> rfl
      rcases step with ⟨account, applied, writtenEq⟩
      have apart : ∀ row ∈ rest, (toLex (Namespace.accounts, row.1) : NsKey) ≠
          toLex (.accounts, head.1) := by
        intro row member same
        refine headOnce (List.mem_map.mpr ⟨row, member, ?_⟩)
        exact congrArg (fun index : NsKey => (ofLex index).2) same
      have restHeld : ∀ row ∈ rest,
          written.get? (toLex (.accounts, row.1)) = some (.account row.2) := by
        intro row member
        rw [writtenEq, if_neg (apart row member)]
        exact held row (List.mem_cons_of_mem _ member)
      rcases ih restNodup restHeld others with ⟨inRest, outside⟩
      refine ⟨?_, ?_⟩
      · intro row member
        rcases List.mem_cons.mp member with rfl | isLater
        · refine ⟨account, applied, ?_⟩
          rw [outside _ fun other isOther => (apart other isOther).symm, writtenEq, if_pos rfl]
        · exact inRest row isLater
      · intro index absent
        rw [outside index fun row member => absent row (List.mem_cons_of_mem _ member), writtenEq,
          if_neg (absent head List.mem_cons_self)]

theorem keyed_streamAndApply (keyed : AccountsKeyed store) (nodup : (rows.map Prod.fst).Nodup)
    (held : ∀ row ∈ rows, store.get? (toLex (.accounts, row.1)) = some (.account row.2))
    (ran : streamAndApply deltas rows store = .ok final) : AccountsKeyed final := by
  rcases get?_streamAndApply nodup held ran with ⟨inRows, outside⟩
  intro key account heldAfter
  by_cases isRow : ∃ row ∈ rows, row.1 = key
  · rcases isRow with ⟨row, member, rfl⟩
    rcases inRows row member with ⟨after, groupRan, finalEq⟩
    rcases SameOwner.applyAll groupRan with ⟨same, rfl, owner⟩
    rw [finalEq] at heldAfter
    rcases CardanoEntity.account.inj (Option.some.inj heldAfter) with rfl
    rw [owner.credential]
    exact keyed _ _ (held row member)
  · have unread : ∀ row ∈ rows,
        (toLex (Namespace.accounts, key) : NsKey) ≠ toLex (.accounts, row.1) := by
      intro row member same
      have sameKey : key = row.1 := congrArg (fun index : NsKey => (ofLex index).2) same
      exact isRow ⟨row, member, sameKey.symm⟩
    rw [outside _ unread] at heldAfter
    exact keyed _ _ heldAfter

end Stream

/-- What deltas assign to the account under a key. -/
def assignedTo (deltas : List AssignRewards) (key : EntityKey) : ℕ :=
  ((deltas.filter fun delta => delta.account = key).map AssignRewards.reward).sum

theorem assignedTo_concat (deltas : List AssignRewards) (delta : AssignRewards) (key : EntityKey) :
    assignedTo (deltas ++ [delta]) key =
      assignedTo deltas key + if delta.account = key then delta.reward else 0 := by
  by_cases same : delta.account = key
  · simp [assignedTo, same]
  · simp [assignedTo, same]

/-- Credits that all go to one slot, with their sum. -/
def AllOn (slot : ℕ → SlotCredit ℕ) (credits : List (SlotCredit ℕ)) (total : ℕ) : Prop :=
  ∃ amounts : List ℕ, credits = amounts.map slot ∧ amounts.sum = total

section AllOn

variable {slot : ℕ → SlotCredit ℕ}

theorem AllOn.append {first second : List (SlotCredit ℕ)} {one two : ℕ}
    (left : AllOn slot first one) (right : AllOn slot second two) :
    AllOn slot (first ++ second) (one + two) := by
  rcases left with ⟨amounts, rfl, rfl⟩
  rcases right with ⟨others, rfl, rfl⟩
  exact ⟨amounts ++ others, (List.map_append ..).symm, List.sum_append⟩

theorem AllOn.flatMap {D : Type} {credits : D → List (SlotCredit ℕ)} {total : D → ℕ}
    {sources : List D} (each : ∀ source ∈ sources, AllOn slot (credits source) (total source)) :
    AllOn slot (sources.flatMap credits) (sources.map total).sum := by
  induction sources with
  | nil => exact ⟨[], rfl, rfl⟩
  | cons source rest ih =>
      rw [List.flatMap_cons, List.map_cons, List.sum_cons]
      exact (each source List.mem_cons_self).append
        (ih fun other member => each other (List.mem_cons_of_mem _ member))

end AllOn

section Groups

open AccountDelta

theorem groupOf_append (first second : List AccountDelta) (key : EntityKey) :
    groupOf (first ++ second) key = groupOf first key ++ groupOf second key :=
  List.filter_append ..

theorem creditsOf_append (first second : List AccountDelta) :
    creditsOf (first ++ second) = creditsOf first ++ creditsOf second :=
  List.filterMap_append ..

/-- The credits of an account are those of the deltas under its key. -/
theorem creditsOf_groupOf_map {D : Type} (wrap : D → AccountDelta) (keyOf : D → EntityKey)
    (creditOf : D → SlotCredit ℕ)
    (isKey : ∀ delta, (wrap delta).key = toLex (.accounts, keyOf delta))
    (isCredit : ∀ delta, (wrap delta).credit? = some (creditOf delta)) (deltas : List D)
    (key : EntityKey) :
    creditsOf (groupOf (deltas.map wrap) key) =
      (deltas.filter fun delta => keyOf delta = key).map creditOf := by
  have sameKey : ∀ delta, (wrap delta).key = toLex (.accounts, key) ↔ keyOf delta = key := by
    intro delta
    rw [isKey]
    constructor
    · intro same
      exact congrArg (fun index : NsKey => (ofLex index).2) same
    · rintro rfl
      rfl
  induction deltas with
  | nil => rfl
  | cons delta rest ih =>
      simp only [groupOf, creditsOf, List.map_cons, List.filter_cons, sameKey] at ih ⊢
      split_ifs with here
      · rw [List.filterMap_cons_some (isCredit delta), ih, List.map_cons]
      · exact ih

theorem creditsOf_drops (drops : List DelegationDrop) (key : EntityKey) :
    creditsOf (groupOf (drops.map DelegationDrop.toDelta) key) = [] := by
  apply List.filterMap_eq_nil_iff.mpr
  intro delta member
  rcases List.mem_map.mp (List.mem_of_mem_filter member) with ⟨drop, -, rfl⟩
  cases drop <;> rfl

end Groups

section Queues

open AccountDelta

theorem creditsOf_groupOf_flatMap {D : Type} (queue : D → List AccountDelta) (sources : List D)
    (key : EntityKey) :
    creditsOf (groupOf (sources.flatMap queue) key) =
      sources.flatMap fun source => creditsOf (groupOf (queue source) key) := by
  induction sources with
  | nil => rfl
  | cons source rest ih =>
      rw [List.flatMap_cons, List.flatMap_cons, groupOf_append, creditsOf_append, ih]

/-- One delta on the key of an account, whose credit it is. -/
theorem creditsOf_singleton {delta : AccountDelta} {credential owner : StakeCredential}
    {credit : SlotCredit ℕ} (isKey : delta.key = AccountState.nsKey owner)
    (isCredit : delta.credit? = some credit) :
    creditsOf (groupOf [delta] credential.key) = if owner = credential then [credit] else [] := by
  have sameKey : delta.key = toLex (.accounts, credential.key) ↔ owner = credential := by
    rw [isKey]
    constructor
    · intro same
      exact StakeCredential.key_injective (congrArg (fun index : NsKey => (ofLex index).2) same)
    · rintro rfl
      rfl
  rw [groupOf, List.filter_cons]
  simp only [sameKey, decide_eq_true_eq, List.filter_nil]
  split_ifs with same
  · simp [creditsOf, isCredit]
  · rfl

end Queues

end Dolos
