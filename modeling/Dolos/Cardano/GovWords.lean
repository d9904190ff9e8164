import Dolos.Cardano.GovScan

/-!
# The distributions in machine words

The source adds up lovelace in words of 64 bits, the model in natural numbers. Cut to words,
the sums of the model are those of the source at every step of the scan and of the merges, and
below `2 ^ 64` they are the figures themselves.
-/

namespace Dolos

namespace OrderedMap

variable {κ : Type*} [LinearOrder κ]

def words (map : OrderedMap κ ℕ) : OrderedMap κ UInt64 := map.mapValues UInt64.ofNat

/-- `*map.entry(key).or_default() += weight` -/
def addWord (map : OrderedMap κ UInt64) (key : κ) (weight : UInt64) : OrderedMap κ UInt64 :=
  map.insert key ((map.get? key).getD 0 + weight)

def addWords (map added : OrderedMap κ UInt64) : OrderedMap κ UInt64 :=
  added.entries.foldl (fun map entry => map.addWord entry.1 entry.2) map

theorem words_addWeight (map : OrderedMap κ ℕ) (key : κ) (weight : ℕ) :
    (map.addWeight key weight).words = map.words.addWord key (.ofNat weight) := by
  rw [words, addWeight, mapValues_insert, addWord, words, get?_mapValues]
  cases map.get? key with
  | none => simp
  | some held => simp

theorem words_addWeights (map added : OrderedMap κ ℕ) :
    (map.addWeights added).words = map.words.addWords added.words := by
  have step : ∀ (entries : List (κ × ℕ)) (map : OrderedMap κ ℕ),
      (entries.foldl (fun map entry => map.addWeight entry.1 entry.2) map).words =
        (entries.map fun entry => (entry.1, UInt64.ofNat entry.2)).foldl
          (fun map entry => map.addWord entry.1 entry.2) map.words := by
    intro entries
    induction entries with
    | nil => intro map; rfl
    | cons entry rest ih =>
        intro map
        rw [List.foldl_cons, ih, words_addWeight, List.map_cons, List.foldl_cons]
  exact step added.entries map

/-- A weight that fits is in the word. -/
theorem toNat_words {map : OrderedMap κ ℕ} {key : κ} (fits : map.weight key < 2 ^ 64) :
    ((map.words.get? key).getD 0).toNat = map.weight key := by
  rw [words, get?_mapValues, weight]
  rw [weight] at fits
  cases held : map.get? key with
  | none => rfl
  | some found =>
      rw [held] at fits
      exact UInt64.toNat_ofNat_of_lt' fits

end OrderedMap

/-- The distributions as the source holds them. -/
@[ext]
structure DistrWords where
  drepDistr : OrderedMap DRep UInt64
  poolDistr : OrderedMap Hash28 UInt64
  poolTotal : UInt64

def DistrSums.words (sums : DistrSums) : DistrWords :=
  ⟨sums.drepDistr.words, sums.poolDistr.words, .ofNat sums.poolTotal⟩

def GovDistr.words (distr : GovDistr) : DistrWords :=
  ⟨distr.drepDistr.words, distr.poolDistr.words, .ofNat distr.poolTotal⟩

def GovDistrAccumulate.words (delta : GovDistrAccumulate) : DistrWords :=
  ⟨delta.drepDistr.words, delta.poolDistr.words, .ofNat delta.poolTotal⟩

def DistrWords.merge (words shard : DistrWords) : DistrWords :=
  ⟨words.drepDistr.addWords shard.drepDistr, words.poolDistr.addWords shard.poolDistr,
    words.poolTotal + shard.poolTotal⟩

theorem GovDistrAccumulate.words_merged (delta : GovDistrAccumulate) (distr : GovDistr) :
    (delta.merged distr).words = distr.words.merge delta.words := by
  ext1
  · exact OrderedMap.words_addWeights _ _
  · exact OrderedMap.words_addWeights _ _
  · exact UInt64.ofNat_add _ _

theorem GovDistrBoundaryCredit.words_credited (delta : GovDistrBoundaryCredit)
    (distr : GovDistr) : (delta.credited distr).words =
      { distr.words with drepDistr := distr.words.drepDistr.addWords delta.credits.words } := by
  ext1
  · exact OrderedMap.words_addWeights _ _
  · rfl
  · rfl

/-- The figures of a distribution that fit can be read off its words. -/
theorem GovDistr.toNat_words {distr : GovDistr}
    (dreps : ∀ drep, distr.drepDistr.weight drep < 2 ^ 64)
    (pools : ∀ pool, distr.poolDistr.weight pool < 2 ^ 64) (total : distr.poolTotal < 2 ^ 64) :
    (∀ drep, ((distr.words.drepDistr.get? drep).getD 0).toNat = distr.drepDistr.weight drep) ∧
      (∀ pool, ((distr.words.poolDistr.get? pool).getD 0).toNat = distr.poolDistr.weight pool) ∧
        distr.words.poolTotal.toNat = distr.poolTotal :=
  ⟨fun drep => OrderedMap.toNat_words (dreps drep),
    fun pool => OrderedMap.toNat_words (pools pool), UInt64.toNat_ofNat_of_lt' total⟩

namespace DistrScan

variable (scan : DistrScan)

/-- `load_proposal_deposits`, in words. -/
def depositWords : OrderedMap StakeCredential UInt64 :=
  (scan.proposals.entries.filterMap fun entry => scan.depositOf entry.2).foldl
    (fun deposits entry => deposits.addWord entry.1 (.ofNat entry.2)) ∅

def weightWord (account : AccountState) (stake : Stake) (boundaryReward : ℕ) : UInt64 :=
  .ofNat (stake.totalForEra scan.activeProtocol) + .ofNat boundaryReward +
    (scan.depositWords.get? account.credential).getD 0

/-- `accumulate_gov_distr`, in words. -/
def accumulateWords (snapshotEpoch : ℕ) (words : DistrWords) (account : AccountState)
    (boundaryReward : ℕ) : DistrWords :=
  match account.stake.snapshotAt snapshotEpoch with
  | none => words
  | some stake =>
      let weight := scan.weightWord account stake boundaryReward
      if weight = 0 then words
      else
        let drepDistr :=
          match scan.snapshotDRepOf account with
          | some drep => words.drepDistr.addWord drep weight
          | none => words.drepDistr
        match account.delegatedPoolAt snapshotEpoch with
        | some pool => ⟨drepDistr, words.poolDistr.addWord pool weight, words.poolTotal + weight⟩
        | none => { words with drepDistr := drepDistr }

variable {scan}

theorem depositWords_eq : scan.depositWords = scan.proposalDeposits.words := by
  have step : ∀ (deposits : List (StakeCredential × ℕ)) (map : OrderedMap StakeCredential ℕ),
      deposits.foldl (fun map entry => map.addWord entry.1 (.ofNat entry.2)) map.words =
        (deposits.foldl (fun map entry => map.addWeight entry.1 entry.2) map).words := by
    intro deposits
    induction deposits with
    | nil => intro map; rfl
    | cons entry rest ih =>
        intro map
        rw [List.foldl_cons, List.foldl_cons, ← OrderedMap.words_addWeight, ih]
  exact step _ ∅

theorem weightWord_eq (account : AccountState) (stake : Stake) (boundaryReward : ℕ) :
    scan.weightWord account stake boundaryReward =
      .ofNat (stake.totalForEra scan.activeProtocol + boundaryReward +
        (scan.proposalDeposits.get? account.credential).getD 0) := by
  rw [weightWord, depositWords_eq, OrderedMap.words, OrderedMap.get?_mapValues]
  cases scan.proposalDeposits.get? account.credential with
  | none => simp
  | some deposit => simp

/-- What the account adds to the distributions is a word. -/
def WeightFits (scan : DistrScan) (snapshotEpoch : ℕ) (entry : AccountState × ℕ) : Prop :=
  ∀ stake ∈ entry.1.stake.snapshotAt snapshotEpoch,
    stake.totalForEra scan.activeProtocol + entry.2 +
      (scan.proposalDeposits.get? entry.1.credential).getD 0 < 2 ^ 64

theorem words_accumulateGovDistr {snapshotEpoch : ℕ} {sums : DistrSums}
    {entry : AccountState × ℕ} (fits : WeightFits scan snapshotEpoch entry) :
    (scan.accumulateGovDistr snapshotEpoch sums entry.1 entry.2).words =
      scan.accumulateWords snapshotEpoch sums.words entry.1 entry.2 := by
  unfold accumulateGovDistr accumulateWords
  cases held : entry.1.stake.snapshotAt snapshotEpoch with
  | none => rfl
  | some stake =>
      have isWord := fits stake held
      have zeroIff : scan.weightWord entry.1 stake entry.2 = 0 ↔
          stake.totalForEra scan.activeProtocol + entry.2 +
            (scan.proposalDeposits.get? entry.1.credential).getD 0 = 0 := by
        rw [weightWord_eq, ← UInt64.toNat_inj, UInt64.toNat_ofNat_of_lt' isWord]
        rfl
      simp only [zeroIff]
      split_ifs
      · rfl
      · rw [weightWord_eq]
        cases scan.snapshotDRepOf entry.1 with
        | none =>
            cases entry.1.delegatedPoolAt snapshotEpoch with
            | none => rfl
            | some pool =>
                simp only [DistrSums.words, OrderedMap.words_addWeight, UInt64.ofNat_add]
        | some drep =>
            cases entry.1.delegatedPoolAt snapshotEpoch with
            | none => simp only [DistrSums.words, OrderedMap.words_addWeight]
            | some pool =>
                simp only [DistrSums.words, OrderedMap.words_addWeight, UInt64.ofNat_add]

/-- While the weight of every account is a word, the scan of a shard adds up in words what it
adds up in the model. -/
theorem words_shardSums {snapshotEpoch : ℕ} {accounts : List (AccountState × ℕ)}
    (fits : ∀ entry ∈ accounts, WeightFits scan snapshotEpoch entry) :
    (scan.shardSums snapshotEpoch accounts).words =
      accounts.foldl
        (fun words entry => scan.accumulateWords snapshotEpoch words entry.1 entry.2)
        DistrSums.default.words := by
  have step : ∀ (accounts : List (AccountState × ℕ)) (sums : DistrSums),
      (∀ entry ∈ accounts, WeightFits scan snapshotEpoch entry) →
        (accounts.foldl (fun sums entry =>
            scan.accumulateGovDistr snapshotEpoch sums entry.1 entry.2) sums).words =
          accounts.foldl (fun words entry =>
            scan.accumulateWords snapshotEpoch words entry.1 entry.2) sums.words := by
    intro accounts
    induction accounts with
    | nil => intro sums _; rfl
    | cons entry rest ih =>
        intro sums allFit
        rw [List.foldl_cons, ih _ fun other member => allFit other (List.mem_cons_of_mem _ member),
          words_accumulateGovDistr (allFit entry List.mem_cons_self), List.foldl_cons]
  exact step accounts .default fits

end DistrScan

end Dolos
