import Dolos.Cardano.Model.Accounts

/-!
# Account shards

`cardano/src/shard.rs`: the keys of credentials are cut into ranges by the first
byte of the hash, one range for each kind of credential, and a shard covers the two
ranges of its index. The number of shards divides 256.

`shardOf` is the shard a credential belongs to; its key is in the ranges of that
shard and of no other.
-/

namespace Dolos

open Outcome

abbrev KeyRange := EntityKey × EntityKey

def KeyRange.contains (range : KeyRange) (key : EntityKey) : Bool :=
  range.1 ≤ key ∧ key < range.2

/-- `EntityKey::full_range`, which leaves out the last key. -/
def KeyRange.full : KeyRange := (0, Fin.last _)

def prefixSpace : ℕ := 256

def validateTotalShards (totalShards : ℕ) : Except String Unit :=
  if totalShards = 0 then .error "total_shards must be >= 1"
  else if ¬ totalShards ∣ prefixSpace then
    .error s!"total_shards ({totalShards}) must divide {prefixSpace}"
  else .ok ()

/-- The four bytes before the hash in the key of a credential, by variant. -/
def credentialHead (variant : Fin 2) : Fin (2 ^ 32) :=
  if variant = 0 then 0x8200581c else 0x8201581c

/-- A key that starts with four given bytes and another one, zeros after them. -/
def keyOfHead (head lead : ℕ) : EntityKey := Fin.ofNat _ (head * 2 ^ 224 + lead * 2 ^ 216)

def variantRange (variant : Fin 2) (shardIndex totalShards : ℕ) : KeyRange :=
  let step := prefixSpace / totalShards
  let head := (credentialHead variant).val
  (keyOfHead head (shardIndex * step % 256),
    if shardIndex + 1 = totalShards then keyOfHead (head + 1) 0
    else keyOfHead head ((shardIndex + 1) * step % 256))

def shardKeyRanges (shardIndex totalShards : ℕ) : Except Panic (List KeyRange) :=
  match validateTotalShards totalShards with
  | .error message => .error (.explicit s!"shard_key_ranges: {message}")
  | .ok () =>
      if shardIndex < totalShards then
        .ok [variantRange 0 shardIndex totalShards, variantRange 1 shardIndex totalShards]
      else .error (.assertFailed s!"shard_key_ranges: shard_index ({shardIndex}) must be < total_shards ({totalShards})")

def StakeCredential.variant : StakeCredential → Fin 2
  | addrKeyhash _ => 0
  | scriptHash _ => 1

def StakeCredential.hash : StakeCredential → Hash28
  | addrKeyhash hash => hash
  | scriptHash hash => hash

/-- The shard a credential belongs to. -/
def shardOf (totalShards : ℕ) (credential : StakeCredential) : ℕ :=
  credential.hash.val / 2 ^ 216 / (prefixSpace / totalShards)

theorem StakeCredential.key_eq (credential : StakeCredential) :
    credential.key = .ofHead (credentialHead credential.variant) credential.hash := by
  cases credential <;> rfl

/-- A number of shards the code accepts. -/
structure ValidShards (totalShards : ℕ) : Prop where
  nonzero : 1 ≤ totalShards
  divides : totalShards ∣ prefixSpace

section Partition

variable {totalShards shardIndex : ℕ}

theorem credentialHead_lt (variant : Fin 2) : (credentialHead variant).val + 1 < 2 ^ 32 := by
  revert variant
  decide

theorem variant_cases (variant : Fin 2) : variant = 0 ∨ variant = 1 := by
  revert variant
  decide

theorem StakeCredential.val_key (credential : StakeCredential) : credential.key.val =
    (credentialHead credential.variant).val * 2 ^ 224 + credential.hash.val := by
  rw [credential.key_eq]
  rfl

theorem val_keyOfHead {head lead : ℕ} (headLt : head < 2 ^ 32) (leadLt : lead < 256) :
    (keyOfHead head lead).val = head * 2 ^ 224 + lead * 2 ^ 216 := by
  apply Nat.mod_eq_of_lt
  omega

theorem ValidShards.step_mul (valid : ValidShards totalShards) :
    prefixSpace / totalShards * totalShards = 256 :=
  Nat.div_mul_cancel valid.divides

theorem ValidShards.step_pos (valid : ValidShards totalShards) :
    0 < prefixSpace / totalShards := by
  have cancelled := valid.step_mul
  rcases Nat.eq_zero_or_pos (prefixSpace / totalShards) with zero | positive
  · rw [zero, Nat.zero_mul] at cancelled
    cases cancelled
  · exact positive

theorem StakeCredential.key_injective : Function.Injective StakeCredential.key := by
  intro left right same
  have valEq := congrArg Fin.val same
  rw [left.val_key, right.val_key] at valEq
  have leftLt := left.hash.isLt
  have rightLt := right.hash.isLt
  have keyHead : (credentialHead 0).val = 0x8200581c := rfl
  have scriptHead : (credentialHead 1).val = 0x8201581c := rfl
  cases left with
  | addrKeyhash leftHash =>
      cases right with
      | addrKeyhash rightHash =>
          simp only [variant, hash] at valEq
          rw [show leftHash = rightHash from Fin.ext (by omega)]
      | scriptHash rightHash =>
          simp only [variant, hash, keyHead, scriptHead] at valEq leftLt rightLt
          omega
  | scriptHash leftHash =>
      cases right with
      | scriptHash rightHash =>
          simp only [variant, hash] at valEq
          rw [show leftHash = rightHash from Fin.ext (by omega)]
      | addrKeyhash rightHash =>
          simp only [variant, hash, keyHead, scriptHead] at valEq leftLt rightLt
          omega

/-- The end of a range as the first byte it leaves out. -/
theorem val_variantRange (valid : ValidShards totalShards) (below : shardIndex < totalShards)
    (variant : Fin 2) :
    (variantRange variant shardIndex totalShards).1.val =
        (credentialHead variant).val * 2 ^ 224 +
          shardIndex * (prefixSpace / totalShards) * 2 ^ 216 ∧
      (variantRange variant shardIndex totalShards).2.val =
        (credentialHead variant).val * 2 ^ 224 +
          (shardIndex + 1) * (prefixSpace / totalShards) * 2 ^ 216 := by
  have cancelled := valid.step_mul
  have positive := valid.step_pos
  have headLt := credentialHead_lt variant
  have endLe : (shardIndex + 1) * (prefixSpace / totalShards) ≤ 256 := by
    rw [← cancelled, Nat.mul_comm (prefixSpace / totalShards)]
    exact Nat.mul_le_mul_right _ below
  have startLt : shardIndex * (prefixSpace / totalShards) < 256 := by
    have next := Nat.add_one_mul shardIndex (prefixSpace / totalShards)
    omega
  constructor
  · simp only [variantRange]
    rw [Nat.mod_eq_of_lt startLt, val_keyOfHead (by omega) startLt]
  · simp only [variantRange]
    split_ifs with isLast
    · rw [val_keyOfHead headLt (by omega), isLast, Nat.mul_comm totalShards, cancelled]
      omega
    · have endLt : (shardIndex + 1) * (prefixSpace / totalShards) < 256 := by
        have strictly : shardIndex + 1 + 1 ≤ totalShards := by omega
        have nextLe := Nat.mul_le_mul_right (prefixSpace / totalShards) strictly
        rw [Nat.mul_comm totalShards, cancelled] at nextLe
        have next := Nat.add_one_mul (shardIndex + 1) (prefixSpace / totalShards)
        omega
      rw [Nat.mod_eq_of_lt endLt, val_keyOfHead (by omega) endLt]

/-- A range has the keys of its kind and shard. -/
theorem contains_variantRange (valid : ValidShards totalShards) (below : shardIndex < totalShards)
    (variant : Fin 2) (credential : StakeCredential) :
    (variantRange variant shardIndex totalShards).contains credential.key ↔
      credential.variant = variant ∧ shardOf totalShards credential = shardIndex := by
  have positive := valid.step_pos
  have cancelled := valid.step_mul
  rcases val_variantRange valid below variant with ⟨startEq, endEq⟩
  have hashLt := credential.hash.isLt
  have endLe : (shardIndex + 1) * (prefixSpace / totalShards) ≤ 256 := by
    rw [← cancelled, Nat.mul_comm (prefixSpace / totalShards)]
    exact Nat.mul_le_mul_right _ below
  have sameShard : shardOf totalShards credential = shardIndex ↔
      shardIndex * (prefixSpace / totalShards) ≤ credential.hash.val / 2 ^ 216 ∧
        credential.hash.val / 2 ^ 216 < (shardIndex + 1) * (prefixSpace / totalShards) := by
    rw [shardOf, Nat.div_eq_iff positive, Nat.succ_mul]
    omega
  rw [sameShard, KeyRange.contains, decide_eq_true_iff, Fin.le_def, Fin.lt_def, startEq, endEq,
    credential.val_key]
  generalize shardIndex * (prefixSpace / totalShards) = low at *
  generalize (shardIndex + 1) * (prefixSpace / totalShards) = high at *
  have keyHead : (credentialHead 0).val = 0x8200581c := rfl
  have scriptHead : (credentialHead 1).val = 0x8201581c := rfl
  rcases variant_cases variant with rfl | rfl
  · rcases variant_cases credential.variant with own | own
    · rw [own, keyHead]
      omega
    · rw [own, keyHead, scriptHead]
      omega
  · rcases variant_cases credential.variant with own | own
    · rw [own, keyHead, scriptHead]
      omega
    · rw [own, scriptHead]
      omega

/-- The key of a credential is in the ranges of its shard and of no other. -/
theorem exists_shardKeyRanges (valid : ValidShards totalShards) (below : shardIndex < totalShards) :
    ∃ ranges, shardKeyRanges shardIndex totalShards = .ok ranges ∧
      ∀ credential : StakeCredential, (ranges.any fun range => range.contains credential.key) =
        decide (shardOf totalShards credential = shardIndex) := by
  have nonzero : totalShards ≠ 0 := by
    have := valid.nonzero
    omega
  refine ⟨[variantRange 0 shardIndex totalShards, variantRange 1 shardIndex totalShards], ?_, ?_⟩
  · rw [shardKeyRanges, validateTotalShards, if_neg nonzero, if_neg (not_not.mpr valid.divides)]
    exact if_pos below
  · intro credential
    rw [Bool.eq_iff_iff, decide_eq_true_iff]
    simp only [List.any_cons, List.any_nil, Bool.or_false, Bool.or_eq_true,
      contains_variantRange valid below]
    rcases variant_cases credential.variant with own | own
    · simp [own]
    · simp [own]

theorem shardKeyRanges_eq_ok {ranges : List KeyRange}
    (isRanges : shardKeyRanges shardIndex totalShards = .ok ranges) :
    ValidShards totalShards ∧ shardIndex < totalShards ∧
      ranges = [variantRange 0 shardIndex totalShards, variantRange 1 shardIndex totalShards] := by
  unfold shardKeyRanges validateTotalShards at isRanges
  split_ifs at isRanges with zero divides below
  cases isRanges
  exact ⟨⟨Nat.one_le_iff_ne_zero.mpr zero, divides⟩, below, rfl⟩

theorem shardOf_lt (valid : ValidShards totalShards) (credential : StakeCredential) :
    shardOf totalShards credential < totalShards := by
  have hashLt := credential.hash.isLt
  rw [shardOf, Nat.div_lt_iff_lt_mul valid.step_pos, Nat.mul_comm, valid.step_mul]
  omega

theorem contains_full (credential : StakeCredential) :
    KeyRange.full.contains credential.key = true := by
  have hashLt := credential.hash.isLt
  have headLt := credentialHead_lt credential.variant
  rw [KeyRange.contains, decide_eq_true_iff, Fin.le_def, Fin.lt_def, credential.val_key]
  simp only [KeyRange.full, Fin.val_last]
  constructor
  · exact Nat.zero_le _
  · omega

end Partition

end Dolos
