import Mathlib.Algebra.Order.Field.Rat
import Mathlib.Algebra.Order.Floor.Ring
import Mathlib.Data.Rat.Floor
import Mathlib.Tactic.FieldSimp
import Mathlib.Tactic.Positivity
import Mathlib.Tactic.Linarith
import Dolos.Core.Point
import Dolos.Lib.Outcome

/-!
# The reward formulas

`cardano/src/math_macros.rs` and `rewards/formulas.rs`. The arithmetic is exact, on
rationals; it panics on a zero denominator and where a floor is no 64-bit number.
-/

namespace Dolos

open Outcome

/-- `ratio!`. -/
def ratio (numer denom : ℕ) : Except Panic ℚ :=
  if denom = 0 then .error (.explicit "denominator == 0") else .ok (numer / denom)

/-- Division of big rationals. -/
def divide (numer denom : ℚ) : Except Panic ℚ :=
  if denom = 0 then .error .divisionByZero else .ok (numer / denom)

/-- `floor_int!` to `u64`. -/
def floorInt (value : ℚ) : Except Panic ℕ :=
  if 0 ≤ ⌊value⌋ ∧ ⌊value⌋ < 2 ^ 64 then .ok ⌊value⌋.toNat else .error .unwrapNone

def poolMaximalRewards (r : ℚ) (nopt : ℕ) (a0 relativeStake relativePledge : ℚ) :
    Except Panic ℕ := do
  let z0 ← ratio 1 nopt
  let s := min relativeStake z0
  let p := min relativePledge z0
  let unsaturated ← divide (z0 - s) z0
  let pledged ← divide (s - p * unsaturated) z0
  let perInfluence ← divide r (1 + a0)
  floorInt (perInfluence * (s + p * a0 * pledged))

def delegatorReward (poolRewards memberStake poolStake totalStake fixedCost : ℕ)
    (marginCost : ℚ) : Except Panic ℕ :=
  if poolRewards ≤ fixedCost then .ok 0
  else do
    let memberRelativeStake ← ratio memberStake totalStake
    let afterCost := poolRewards - fixedCost
    let poolRelativeStake ← ratio poolStake totalStake
    let out ← divide ((1 - marginCost) * afterCost * memberRelativeStake) poolRelativeStake
    floorInt out

def poolApparentPerformance (d : ℚ) (poolBlocks epochBlocks poolStake totalActiveStake : ℕ) :
    Except Panic ℚ :=
  if totalActiveStake = 0 then .ok 0
  else do
    let sigmaA ← ratio poolStake totalActiveStake
    if sigmaA = 0 then .ok 0
    else do
      let beta ← ratio poolBlocks (max epochBlocks 1)
      if d < 4 / 5 then divide beta sigmaA else .ok 1

def poolRewards (epochRewards circulatingSupply activeStake poolStake declaredPledge livePledge
    nopt : ℕ) (a0 d : ℚ) (poolBlocks epochBlocks : ℕ) : Except Panic ℕ :=
  if livePledge < declaredPledge then .ok 0
  else do
    let relativeStake ← ratio poolStake circulatingSupply
    let relativePledge ← ratio declaredPledge circulatingSupply
    let optimal ← poolMaximalRewards epochRewards nopt a0 relativeStake relativePledge
    let pbar ← poolApparentPerformance d poolBlocks epochBlocks poolStake activeStake
    floorInt (optimal * pbar)

def poolOperatorShare (poolRewards fixedCost : ℕ) (marginCost : ℚ)
    (poolStake livePledge circulatingSupply : ℕ) : Except Panic ℕ :=
  if poolRewards ≤ fixedCost then .ok poolRewards
  else do
    let afterCost := poolRewards - fixedCost
    let s ← ratio livePledge circulatingSupply
    let theta ← ratio poolStake circulatingSupply
    let sOverSigma ← divide s theta
    let variableCost ← floorInt (afterCost * (marginCost + (1 - marginCost) * sOverSigma))
    if fixedCost + variableCost < 2 ^ 64 then .ok (fixedCost + variableCost) else .error .overflow

section Arithmetic

theorem ratio_of_pos {denom : ℕ} (numer : ℕ) (positive : 0 < denom) :
    ratio numer denom = .ok (numer / denom : ℚ) :=
  if_neg (Nat.ne_of_gt positive)

theorem divide_of_ne {denom : ℚ} (numer : ℚ) (nonzero : denom ≠ 0) :
    divide numer denom = .ok (numer / denom) :=
  if_neg nonzero

/-- A value from zero to a machine word has a floor, which does not exceed it. -/
theorem floorInt_of_mem {value : ℚ} {bound : ℕ} (nonneg : 0 ≤ value) (small : value ≤ bound)
    (word : bound < 2 ^ 64) :
    ∃ floor, floorInt value = .ok floor ∧ (floor : ℚ) ≤ value ∧ floor ≤ bound := by
  have floorNonneg : 0 ≤ ⌊value⌋ := Int.floor_nonneg.mpr nonneg
  have floorLe : (⌊value⌋ : ℚ) ≤ value := Int.floor_le value
  have castEq : ((⌊value⌋.toNat : ℕ) : ℚ) = (⌊value⌋ : ℚ) := by
    have toNatEq : ((⌊value⌋.toNat : ℕ) : ℤ) = ⌊value⌋ := Int.toNat_of_nonneg floorNonneg
    exact_mod_cast toNatEq
  have natLe : ⌊value⌋.toNat ≤ bound := by
    have castLe : ((⌊value⌋.toNat : ℕ) : ℚ) ≤ bound := by
      rw [castEq]
      exact floorLe.trans small
    exact_mod_cast castLe
  have floorLt : ⌊value⌋ < 2 ^ 64 := by
    omega
  refine ⟨⌊value⌋.toNat, if_pos ⟨floorNonneg, floorLt⟩, ?_, natLe⟩
  rw [castEq]
  exact floorLe

end Arithmetic

section Maximal

variable {a0 z0 s p : ℚ}

/-- The part of a pool's stake that its pledge has an influence on, relative to the
saturation point. -/
theorem pledged_mem (positive : 0 < z0) (pledgeNonneg : 0 ≤ p) (pledgeLe : p ≤ s)
    (stakeLe : s ≤ z0) :
    0 ≤ (s - p * ((z0 - s) / z0)) / z0 ∧ p * ((s - p * ((z0 - s) / z0)) / z0) ≤ s := by
  have unsaturatedNonneg : 0 ≤ (z0 - s) / z0 := div_nonneg (sub_nonneg.mpr stakeLe) positive.le
  have unsaturatedLe : (z0 - s) / z0 ≤ 1 := by
    rw [div_le_one positive]
    linarith
  have removedLe : p * ((z0 - s) / z0) ≤ p := mul_le_of_le_one_right pledgeNonneg unsaturatedLe
  have removedNonneg : 0 ≤ p * ((z0 - s) / z0) := mul_nonneg pledgeNonneg unsaturatedNonneg
  constructor
  · apply div_nonneg _ positive.le
    linarith
  · have relative : p / z0 ≤ 1 := by
      rw [div_le_one positive]
      linarith
    calc
      p * ((s - p * ((z0 - s) / z0)) / z0) = p / z0 * (s - p * ((z0 - s) / z0)) := by ring
      _ ≤ p / z0 * s := by
        apply mul_le_mul_of_nonneg_left _ (div_nonneg pledgeNonneg positive.le)
        linarith
      _ ≤ s := mul_le_of_le_one_left (by linarith) relative

/-- The optimal reward of a pool is at most its share of the supply. -/
theorem poolMaximalRewards_spec {r nopt : ℕ} {relativeStake relativePledge : ℚ}
    (word : r < 2 ^ 64) (nonzero : 1 ≤ nopt) (influence : 0 ≤ a0)
    (pledgeNonneg : 0 ≤ relativePledge) (pledgeLe : relativePledge ≤ relativeStake) :
    ∃ optimal, poolMaximalRewards r nopt a0 relativeStake relativePledge = .ok optimal ∧
      (optimal : ℚ) ≤ r * relativeStake ∧ optimal ≤ r := by
  have noptPos : (0 : ℚ) < nopt := by exact_mod_cast nonzero
  have positive : (0 : ℚ) < 1 / nopt := by positivity
  have zLe : (1 : ℚ) / nopt ≤ 1 := by
    rw [div_le_one noptPos]
    exact_mod_cast nonzero
  set z0 : ℚ := 1 / nopt with z0Eq
  set s : ℚ := min relativeStake z0 with sEq
  set p : ℚ := min relativePledge z0 with pEq
  have pNonneg : 0 ≤ p := le_min pledgeNonneg positive.le
  have pLe : p ≤ s := min_le_min_right z0 pledgeLe
  have sLe : s ≤ z0 := min_le_right _ _
  rcases pledged_mem positive pNonneg pLe sLe with ⟨pledgedNonneg, pledgedLe⟩
  set pledged : ℚ := (s - p * ((z0 - s) / z0)) / z0 with pledgedEq
  have denomPos : 0 < 1 + a0 := by linarith
  have factorLe : s + p * a0 * pledged ≤ (1 + a0) * s := by
    have scaled : a0 * (p * pledged) ≤ a0 * s := mul_le_mul_of_nonneg_left pledgedLe influence
    calc
      s + p * a0 * pledged = s + a0 * (p * pledged) := by ring
      _ ≤ s + a0 * s := by linarith
      _ = (1 + a0) * s := by ring
  have rNonneg : (0 : ℚ) ≤ r := Nat.cast_nonneg r
  have valueLe : (r : ℚ) / (1 + a0) * (s + p * a0 * pledged) ≤ r * s := by
    calc
      (r : ℚ) / (1 + a0) * (s + p * a0 * pledged) ≤ r / (1 + a0) * ((1 + a0) * s) :=
        mul_le_mul_of_nonneg_left factorLe (div_nonneg rNonneg denomPos.le)
      _ = r * s := by field_simp
  have valueNonneg : 0 ≤ (r : ℚ) / (1 + a0) * (s + p * a0 * pledged) := by
    have sNonneg : 0 ≤ s := pNonneg.trans pLe
    positivity
  have valueSmall : (r : ℚ) / (1 + a0) * (s + p * a0 * pledged) ≤ r :=
    valueLe.trans (mul_le_of_le_one_right rNonneg (sLe.trans zLe))
  rcases floorInt_of_mem valueNonneg valueSmall word with ⟨optimal, floorEq, optimalLe, wordLe⟩
  refine ⟨optimal, ?_, ?_, wordLe⟩
  · have zeroRatio : ratio 1 nopt = .ok z0 := by
      rw [ratio_of_pos 1 nonzero, Nat.cast_one]
    simp only [poolMaximalRewards, zeroRatio, ok_bind, divide_of_ne _ positive.ne',
      divide_of_ne _ denomPos.ne']
    exact floorEq
  · calc
      (optimal : ℚ) ≤ r * s := optimalLe.trans valueLe
      _ ≤ r * relativeStake := mul_le_mul_of_nonneg_left (min_le_left _ _) rNonneg

end Maximal

section Pool

/-- The part of the pot a pool may claim: by its blocks, or by its stake as long as
most blocks are federated. -/
def potShare (d : ℚ) (poolBlocks epochBlocks poolStake circulatingSupply : ℕ) : ℚ :=
  if d < 4 / 5 then poolBlocks / (max epochBlocks 1 : ℕ) else poolStake / circulatingSupply

theorem poolApparentPerformance_of_pos (d : ℚ) (poolBlocks epochBlocks : ℕ)
    {poolStake totalActiveStake : ℕ} (staked : 0 < poolStake) (active : 0 < totalActiveStake) :
    poolApparentPerformance d poolBlocks epochBlocks poolStake totalActiveStake =
      .ok (if d < 4 / 5 then
        (poolBlocks / (max epochBlocks 1 : ℕ) : ℚ) / (poolStake / totalActiveStake) else 1) := by
  have sigmaPos : (0 : ℚ) < poolStake / totalActiveStake := by positivity
  have blocksPos : 0 < max epochBlocks 1 := by omega
  rw [poolApparentPerformance, if_neg active.ne', ratio_of_pos _ active, ok_bind,
    if_neg sigmaPos.ne', ratio_of_pos _ blocksPos, ok_bind]
  split_ifs
  · exact divide_of_ne _ sigmaPos.ne'
  · rfl

theorem poolApparentPerformance_of_zero (d : ℚ) (poolBlocks epochBlocks totalActiveStake : ℕ) :
    poolApparentPerformance d poolBlocks epochBlocks 0 totalActiveStake = .ok 0 := by
  by_cases inactive : totalActiveStake = 0
  · exact if_pos inactive
  · rw [poolApparentPerformance, if_neg inactive, ratio_of_pos _ (Nat.pos_of_ne_zero inactive),
      ok_bind, if_pos (by simp)]

/-- The reward of a pool exists and is within its part of the pot. -/
theorem poolRewards_spec {epochRewards circulatingSupply activeStake poolStake livePledge nopt
    poolBlocks epochBlocks : ℕ} {a0 : ℚ} (declaredPledge : ℕ) (d : ℚ) (word : epochRewards < 2 ^ 64)
    (funded : 0 < circulatingSupply) (active : activeStake ≤ circulatingSupply)
    (pledged : livePledge ≤ poolStake) (counted : poolStake ≤ activeStake) (nonzero : 1 ≤ nopt)
    (influence : 0 ≤ a0) (made : poolBlocks ≤ epochBlocks) :
    ∃ reward, poolRewards epochRewards circulatingSupply activeStake poolStake declaredPledge
        livePledge nopt a0 d poolBlocks epochBlocks = .ok reward ∧
      (reward : ℚ) ≤ epochRewards * potShare d poolBlocks epochBlocks poolStake circulatingSupply ∧
      reward ≤ epochRewards ∧ (poolStake = 0 → reward = 0) := by
  have shareNonneg : 0 ≤ potShare d poolBlocks epochBlocks poolStake circulatingSupply := by
    unfold potShare
    split_ifs <;> positivity
  have potNonneg : (0 : ℚ) ≤ epochRewards := Nat.cast_nonneg _
  by_cases declared : livePledge < declaredPledge
  · refine ⟨0, if_pos declared, ?_, Nat.zero_le _, fun _ => rfl⟩
    rw [Nat.cast_zero]
    exact mul_nonneg potNonneg shareNonneg
  have supplyPos : (0 : ℚ) < circulatingSupply := by exact_mod_cast funded
  have pledgeLe : (declaredPledge : ℚ) / circulatingSupply ≤ poolStake / circulatingSupply := by
    have below : declaredPledge ≤ poolStake := by omega
    gcongr
  have pledgeNonneg : (0 : ℚ) ≤ declaredPledge / circulatingSupply := by positivity
  rcases poolMaximalRewards_spec word nonzero influence pledgeNonneg pledgeLe with
    ⟨optimal, optimalEq, optimalLe, optimalWord⟩
  rw [poolRewards, if_neg declared, ratio_of_pos _ funded, ok_bind, ratio_of_pos _ funded, ok_bind,
    optimalEq, ok_bind]
  rcases Nat.eq_zero_or_pos poolStake with rfl | staked
  · refine ⟨0, ?_, ?_, Nat.zero_le _, fun _ => rfl⟩
    · rw [poolApparentPerformance_of_zero, ok_bind, mul_zero]
      rfl
    · rw [Nat.cast_zero]
      exact mul_nonneg potNonneg shareNonneg
  have activePos : 0 < activeStake := by omega
  rw [poolApparentPerformance_of_pos d poolBlocks epochBlocks staked activePos, ok_bind]
  have blocksLe : (poolBlocks : ℚ) / (max epochBlocks 1 : ℕ) ≤ 1 := by
    rw [div_le_one (by positivity)]
    have below : poolBlocks ≤ max epochBlocks 1 := by omega
    exact_mod_cast below
  have stakeLe : (poolStake : ℚ) / circulatingSupply ≤ 1 := by
    rw [div_le_one supplyPos]
    exact_mod_cast counted.trans active
  have shareLe : potShare d poolBlocks epochBlocks poolStake circulatingSupply ≤ 1 := by
    unfold potShare
    split_ifs
    · exact blocksLe
    · exact stakeLe
  set pbar : ℚ := if d < 4 / 5 then
    (poolBlocks / (max epochBlocks 1 : ℕ) : ℚ) / (poolStake / activeStake) else 1 with pbarEq
  have pbarNonneg : 0 ≤ pbar := by
    rw [pbarEq]
    split_ifs <;> positivity
  have outLe : (optimal : ℚ) * pbar ≤
      epochRewards * potShare d poolBlocks epochBlocks poolStake circulatingSupply := by
    rw [pbarEq, potShare]
    split_ifs
    · have activeLe : (activeStake : ℚ) / circulatingSupply ≤ 1 := by
        rw [div_le_one supplyPos]
        exact_mod_cast active
      have stakePos : (0 : ℚ) < poolStake := by exact_mod_cast staked
      calc
        (optimal : ℚ) * ((poolBlocks / (max epochBlocks 1 : ℕ) : ℚ) / (poolStake / activeStake))
          ≤ epochRewards * (poolStake / circulatingSupply) *
              ((poolBlocks / (max epochBlocks 1 : ℕ) : ℚ) / (poolStake / activeStake)) := by
            apply mul_le_mul_of_nonneg_right optimalLe
            positivity
        _ = epochRewards * (poolBlocks / (max epochBlocks 1 : ℕ)) *
              (activeStake / circulatingSupply) := by
            field_simp
        _ ≤ epochRewards * (poolBlocks / (max epochBlocks 1 : ℕ)) := by
            apply mul_le_of_le_one_right _ activeLe
            positivity
    · rw [mul_one]
      exact optimalLe
  have outSmall : (optimal : ℚ) * pbar ≤ epochRewards :=
    outLe.trans (mul_le_of_le_one_right potNonneg shareLe)
  rcases floorInt_of_mem (by positivity) outSmall word with ⟨reward, rewardEq, rewardLe, rewardWord⟩
  exact ⟨reward, rewardEq, rewardLe.trans outLe, rewardWord, by omega⟩

end Pool

section Split

variable {reward fixedCost poolStake livePledge circulatingSupply : ℕ} {margin : ℚ}

/-- What the operator may take of the reward of a pool, before rounding. -/
def leaderPart (reward fixedCost : ℕ) (margin : ℚ) (poolStake livePledge : ℕ) : ℚ :=
  if reward ≤ fixedCost then reward
  else fixedCost + (reward - fixedCost : ℕ) * (margin + (1 - margin) * (livePledge / poolStake))

/-- What a stake may take of it. -/
def memberPart (reward fixedCost : ℕ) (margin : ℚ) (poolStake stake : ℕ) : ℚ :=
  if reward ≤ fixedCost then 0 else (reward - fixedCost : ℕ) * ((1 - margin) * (stake / poolStake))

theorem memberPart_add (first second : ℕ) :
    memberPart reward fixedCost margin poolStake (first + second) =
      memberPart reward fixedCost margin poolStake first +
        memberPart reward fixedCost margin poolStake second := by
  unfold memberPart
  split_ifs
  · rw [add_zero]
  · push_cast
    ring

variable (margin) in
/-- The pledge and the rest of the stake have all of the reward between them. -/
theorem leaderPart_add_memberPart {rest : ℕ} (whole : livePledge + rest = poolStake)
    (staked : fixedCost < reward → 0 < poolStake) :
    leaderPart reward fixedCost margin poolStake livePledge +
      memberPart reward fixedCost margin poolStake rest = reward := by
  unfold leaderPart memberPart
  split_ifs with covered
  · rw [add_zero]
  · have stakePos : (0 : ℚ) < poolStake := by exact_mod_cast staked (by omega)
    have split : (livePledge : ℚ) / poolStake + rest / poolStake = 1 := by
      rw [← add_div, div_eq_one_iff_eq stakePos.ne']
      exact_mod_cast whole
    have restEq : (rest : ℚ) / poolStake = 1 - livePledge / poolStake := by linarith
    have costLe : fixedCost ≤ reward := by omega
    rw [restEq]
    push_cast [Nat.cast_sub costLe]
    ring

theorem poolOperatorShare_spec (word : reward < 2 ^ 64) (funded : 0 < circulatingSupply)
    (marginNonneg : 0 ≤ margin) (marginLe : margin ≤ 1) (pledged : livePledge ≤ poolStake)
    (staked : fixedCost < reward → 0 < poolStake) :
    ∃ share, poolOperatorShare reward fixedCost margin poolStake livePledge circulatingSupply =
        .ok share ∧ (share : ℚ) ≤ leaderPart reward fixedCost margin poolStake livePledge := by
  unfold poolOperatorShare leaderPart
  split_ifs with covered
  · exact ⟨reward, rfl, le_refl _⟩
  · have stakePos : 0 < poolStake := staked (by omega)
    have supplyPos : (0 : ℚ) < circulatingSupply := by exact_mod_cast funded
    have thetaPos : (0 : ℚ) < poolStake / circulatingSupply := by positivity
    have overEq : (livePledge : ℚ) / circulatingSupply / (poolStake / circulatingSupply) =
        livePledge / poolStake := by field_simp
    have pledgeLe : (livePledge : ℚ) / poolStake ≤ 1 := by
      rw [div_le_one (by positivity)]
      exact_mod_cast pledged
    have pledgeNonneg : (0 : ℚ) ≤ livePledge / poolStake := by positivity
    have termNonneg : 0 ≤ margin + (1 - margin) * (livePledge / poolStake : ℚ) := by
      have rest := mul_nonneg (sub_nonneg.mpr marginLe) pledgeNonneg
      linarith
    have termLe : margin + (1 - margin) * (livePledge / poolStake : ℚ) ≤ 1 := by
      have rest := mul_le_of_le_one_right (sub_nonneg.mpr marginLe) pledgeLe
      linarith
    have afterNonneg : (0 : ℚ) ≤ (reward - fixedCost : ℕ) := Nat.cast_nonneg _
    have afterWord : reward - fixedCost < 2 ^ 64 := by omega
    rcases floorInt_of_mem (mul_nonneg afterNonneg termNonneg)
      (mul_le_of_le_one_right afterNonneg termLe) afterWord with
      ⟨variableCost, floorEq, floorLe, floorWord⟩
    refine ⟨fixedCost + variableCost, ?_, ?_⟩
    · rw [ratio_of_pos _ funded, ok_bind, ratio_of_pos _ funded, ok_bind,
        divide_of_ne _ thetaPos.ne', ok_bind, overEq, floorEq, ok_bind, if_pos (by omega)]
    · push_cast
      linarith

theorem delegatorReward_spec {stake : ℕ} (word : reward < 2 ^ 64) (funded : 0 < circulatingSupply)
    (marginNonneg : 0 ≤ margin) (marginLe : margin ≤ 1) (counted : stake ≤ poolStake)
    (staked : fixedCost < reward → 0 < poolStake) :
    ∃ value, delegatorReward reward stake poolStake circulatingSupply fixedCost margin =
        .ok value ∧ (value : ℚ) ≤ memberPart reward fixedCost margin poolStake stake := by
  unfold delegatorReward memberPart
  split_ifs with covered
  · exact ⟨0, rfl, by simp⟩
  · have stakePos : 0 < poolStake := staked (by omega)
    have supplyPos : (0 : ℚ) < circulatingSupply := by exact_mod_cast funded
    have poolPos : (0 : ℚ) < poolStake / circulatingSupply := by positivity
    have outEq : (1 - margin) * (reward - fixedCost : ℕ) * (stake / circulatingSupply) /
        (poolStake / circulatingSupply) =
          (reward - fixedCost : ℕ) * ((1 - margin) * (stake / poolStake)) := by field_simp
    have stakeLe : (stake : ℚ) / poolStake ≤ 1 := by
      rw [div_le_one (by positivity)]
      exact_mod_cast counted
    have stakeNonneg : (0 : ℚ) ≤ stake / poolStake := by positivity
    have restNonneg : 0 ≤ 1 - margin := sub_nonneg.mpr marginLe
    have partLe : (1 - margin) * (stake / poolStake : ℚ) ≤ 1 := by
      have scaled := mul_le_of_le_one_right restNonneg stakeLe
      linarith
    have afterNonneg : (0 : ℚ) ≤ (reward - fixedCost : ℕ) := Nat.cast_nonneg _
    have afterWord : reward - fixedCost < 2 ^ 64 := by omega
    rcases floorInt_of_mem (mul_nonneg afterNonneg (mul_nonneg restNonneg stakeNonneg))
      (mul_le_of_le_one_right afterNonneg partLe) afterWord with
      ⟨value, floorEq, floorLe, -⟩
    refine ⟨value, ?_, floorLe⟩
    rw [ratio_of_pos _ funded, ok_bind, ratio_of_pos _ funded, ok_bind,
      divide_of_ne _ poolPos.ne', ok_bind, outEq, floorEq]

end Split

end Dolos
