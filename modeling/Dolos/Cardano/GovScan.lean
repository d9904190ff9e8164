import Dolos.Cardano.GovBoundary

/-!
# The scan of a shard

`accumulate_gov_distr` and the end of `compute_shard_deltas` in
`cardano/src/ewrap/loading.rs`: each account of a shard adds its stake, the reward the pass
assigns it and the deposits of its proposals to the representative and to the pool it
delegates to, and the shard hands over what its accounts add up to.

The reward assigned to an account comes with it.
-/

namespace Dolos

open Outcome

namespace OrderedMap

variable {κ : Type*} [LinearOrder κ]

/-- The weight of a key that a map may not have. -/
def weight (map : OrderedMap κ ℕ) (key : κ) : ℕ := (map.get? key).getD 0

/-- `*map.entry(key).or_default() += weight` -/
def addWeight (map : OrderedMap κ ℕ) (key : κ) (weight : ℕ) : OrderedMap κ ℕ :=
  map.insert key ((map.get? key).getD 0 + weight)

def total (map : OrderedMap κ ℕ) : ℕ := map.sumBy id

@[simp]
theorem weight_empty (key : κ) : (∅ : OrderedMap κ ℕ).weight key = 0 := rfl

@[simp]
theorem total_empty : (∅ : OrderedMap κ ℕ).total = 0 := rfl

theorem weight_addWeight (map : OrderedMap κ ℕ) (key other : κ) (added : ℕ) :
    (map.addWeight key added).weight other =
      map.weight other + if other = key then added else 0 := by
  rw [weight, addWeight, get?_insert]
  split_ifs with same
  · rw [same]
    rfl
  · rfl

theorem total_addWeight (map : OrderedMap κ ℕ) (key : κ) (added : ℕ) :
    (map.addWeight key added).total = map.total + added := by
  have step := sumBy_insert id map key ((map.get? key).getD 0 + added)
  rw [total, addWeight, total]
  simp only [Option.map_id_fun, id_eq] at step
  omega

/-- Merging adds up the weights key by key. -/
theorem weight_addWeights (map added : OrderedMap κ ℕ) (key : κ) :
    (map.addWeights added).weight key = map.weight key + added.weight key := by
  have step : ∀ (entries : List (κ × ℕ)) (map : OrderedMap κ ℕ),
      (entries.map Prod.fst).Nodup →
      (entries.foldl (fun map entry => map.addWeight entry.1 entry.2) map).weight key =
        map.weight key + (lookup key entries).getD 0 := by
    intro entries
    induction entries with
    | nil => intro map _; rfl
    | cons entry rest ih =>
        intro map distinct
        rw [List.map_cons, List.nodup_cons] at distinct
        rw [List.foldl_cons, ih _ distinct.2, weight_addWeight, lookup]
        by_cases same : key = entry.1
        · subst same
          have absent : lookup entry.1 rest = none := by
            apply lookup_eq_none
            intro other member isSame
            exact distinct.1 (List.mem_map.mpr ⟨other, member, isSame⟩)
          simp [absent]
        · simp [same]
  exact step added.entries map added.nodup_keys

theorem total_addWeights (map added : OrderedMap κ ℕ) :
    (map.addWeights added).total = map.total + added.total := by
  have step : ∀ (entries : List (κ × ℕ)) (map : OrderedMap κ ℕ),
      (entries.foldl (fun map entry => map.addWeight entry.1 entry.2) map).total =
        map.total + (entries.map Prod.snd).sum := by
    intro entries
    induction entries with
    | nil => intro map; rfl
    | cons entry rest ih =>
        intro map
        rw [List.foldl_cons, ih, total_addWeight, List.map_cons, List.sum_cons, Nat.add_assoc]
  exact step added.entries map

end OrderedMap

/-- What the accounts of a shard add up to. -/
structure DistrSums where
  drepDistr : OrderedMap DRep ℕ
  poolDistr : OrderedMap Hash28 ℕ
  poolTotal : ℕ
  deriving DecidableEq

def DistrSums.default : DistrSums := ⟨∅, ∅, 0⟩

/-- What the boundary work reads to scan a shard. -/
structure DistrScan where
  work : BoundaryWork
  activeProtocol : ℕ
  proposals : OrderedMap EntityKey ProposalState
  snapshotRegisteredDreps : Finset EntityKey

namespace DistrScan

variable (scan : DistrScan)

/-- What a live proposal of the snapshot locks in, and whose it is. -/
def depositOf (proposal : ProposalState) : Option (StakeCredential × ℕ) :=
  if proposal.isUnresolvedAtClose scan.work.closing &&
      proposal.proposedIn.any (fun epoch => epoch ≤ scan.work.closing) then
    match proposal.deposit, proposal.rewardAccount with
    | some deposit, some credential => some (credential, deposit)
    | _, _ => none
  else none

/-- `load_proposal_deposits` -/
def proposalDeposits : OrderedMap StakeCredential ℕ :=
  (scan.proposals.entries.filterMap fun entry => scan.depositOf entry.2).foldl
    (fun deposits entry => deposits.addWeight entry.1 entry.2) ∅

/-- The representative an account counts for, among those registered at the snapshot. -/
def snapshotDRepOf (account : AccountState) : Option DRep :=
  match scan.work.distrSnapshotEpoch with
  | none => none
  | some snapshotEpoch =>
      (account.delegatedDRepAt snapshotEpoch).filter fun drep =>
        match drep with
        | .abstain | .noConfidence => true
        | _ => drep.entityKey ∈ scan.snapshotRegisteredDreps

def accumulateGovDistr (snapshotEpoch : ℕ) (sums : DistrSums) (account : AccountState)
    (boundaryReward : ℕ) : DistrSums :=
  match account.stake.snapshotAt snapshotEpoch with
  | none => sums
  | some stake =>
      let deposits := (scan.proposalDeposits.get? account.credential).getD 0
      let weight := stake.totalForEra scan.activeProtocol + boundaryReward + deposits
      if weight = 0 then sums
      else
        let drepDistr :=
          match scan.snapshotDRepOf account with
          | some drep => sums.drepDistr.addWeight drep weight
          | none => sums.drepDistr
        match account.delegatedPoolAt snapshotEpoch with
        | some pool =>
            ⟨drepDistr, sums.poolDistr.addWeight pool weight, sums.poolTotal + weight⟩
        | none => { sums with drepDistr := drepDistr }

def shardSums (snapshotEpoch : ℕ) (accounts : List (AccountState × ℕ)) : DistrSums :=
  accounts.foldl (fun sums entry => scan.accumulateGovDistr snapshotEpoch sums entry.1 entry.2)
    .default

/-- The delta of a shard, with empty maps too, so that the count of shards goes on. -/
def shardDelta (shardIndex totalShards : ℕ) (accounts : List (AccountState × ℕ)) :
    Option GovDistrAccumulate :=
  scan.work.distrSnapshotEpoch.map fun snapshotEpoch =>
    let sums := scan.shardSums snapshotEpoch accounts
    .new scan.work.closing shardIndex totalShards sums.drepDistr sums.poolDistr sums.poolTotal

variable {scan}

/-- The total goes up with the map of the pools. -/
theorem poolTotal_accumulateGovDistr {snapshotEpoch boundaryReward : ℕ} {sums : DistrSums}
    {account : AccountState} (isTotal : sums.poolTotal = sums.poolDistr.total) :
    (scan.accumulateGovDistr snapshotEpoch sums account boundaryReward).poolTotal =
      (scan.accumulateGovDistr snapshotEpoch sums account boundaryReward).poolDistr.total := by
  unfold accumulateGovDistr
  cases account.stake.snapshotAt snapshotEpoch with
  | none => exact isTotal
  | some stake =>
      dsimp only
      split_ifs
      · exact isTotal
      · cases account.delegatedPoolAt snapshotEpoch with
        | none => exact isTotal
        | some pool =>
            dsimp only
            rw [OrderedMap.total_addWeight, isTotal]

theorem poolTotal_shardSums (snapshotEpoch : ℕ) (accounts : List (AccountState × ℕ)) :
    (scan.shardSums snapshotEpoch accounts).poolTotal =
      (scan.shardSums snapshotEpoch accounts).poolDistr.total := by
  have step : ∀ (accounts : List (AccountState × ℕ)) (sums : DistrSums),
      sums.poolTotal = sums.poolDistr.total →
      (accounts.foldl (fun sums entry =>
          scan.accumulateGovDistr snapshotEpoch sums entry.1 entry.2) sums).poolTotal =
        (accounts.foldl (fun sums entry =>
          scan.accumulateGovDistr snapshotEpoch sums entry.1 entry.2) sums).poolDistr.total := by
    intro accounts
    induction accounts with
    | nil => intro sums isTotal; exact isTotal
    | cons entry rest ih =>
        intro sums isTotal
        exact ih _ (poolTotal_accumulateGovDistr isTotal)
  exact step accounts .default rfl

/-- A shard is of the boundary, and its total is that of its pools. -/
structure OfShard (delta : GovDistrAccumulate) (closing shardIndex totalShards : ℕ) : Prop where
  epoch : delta.closingEpoch = closing
  shard : delta.shard = shardIndex
  shards : delta.totalShards = totalShards
  total : delta.poolTotal = delta.poolDistr.total
  unapplied : delta.applied = false

theorem shardDelta_spec {shardIndex totalShards : ℕ} {accounts : List (AccountState × ℕ)}
    {delta : GovDistrAccumulate}
    (emitted : scan.shardDelta shardIndex totalShards accounts = some delta) :
    OfShard delta scan.work.closing shardIndex totalShards := by
  rcases Option.map_eq_some_iff.mp emitted with ⟨snapshotEpoch, -, rfl⟩
  exact ⟨rfl, rfl, rfl, poolTotal_shardSums snapshotEpoch accounts, rfl⟩

end DistrScan

end Dolos
