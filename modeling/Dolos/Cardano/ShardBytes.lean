import Dolos.Lib.BigEndian
import Dolos.Cardano.ShardCredits

/-!
# The key ranges of the shards, byte by byte

`variant_range` of `cardano/src/shard.rs` writes the bounds of a range as 32 bytes, with one
byte of the hash taken modulo 256 and, in the last shard, the header byte before it bumped.
The numbers of `Shard` are the values of these bytes, so that a credential's key is in one
range of one shard, and a pass over all shards meets every row once.
-/

namespace Dolos

open Outcome BigEndian

def keySize : ℕ := 32

def credKeyArrayTag : UInt8 := 0x82

def credKeyVariantAddrkeyhash : UInt8 := 0x00

def credKeyVariantScripthash : UInt8 := 0x01

def credKeyBytesHeader : UInt8 × UInt8 := (0x58, 0x1c)

def credKeyHashOffset : ℕ := 4

/-- A half-open range of byte keys, in the order of their bytes. -/
structure ByteRange where
  start : List UInt8
  «end» : List UInt8
  deriving DecidableEq, Repr

def ByteRange.contains (range : ByteRange) (key : List UInt8) : Bool :=
  range.start ≤ key ∧ key < range.end

/-- The variant byte the keys of a range have. -/
def ByteRange.variant (range : ByteRange) : Option UInt8 := range.start[1]?

def variantByteRange (variant : UInt8) (shardIndex totalShards : ℕ) : ByteRange :=
  let step := prefixSpace / totalShards
  let lo := UInt8.ofNat (shardIndex * step)
  let start := (((((List.replicate keySize 0).set 0 credKeyArrayTag).set 1 variant).set 2
    credKeyBytesHeader.1).set 3 credKeyBytesHeader.2).set credKeyHashOffset lo
  let unfinished := (((List.replicate keySize 0).set 0 credKeyArrayTag).set 1 variant).set 2
    credKeyBytesHeader.1
  ⟨start,
    if shardIndex + 1 = totalShards then unfinished.set 3 (credKeyBytesHeader.2 + 1)
    else (unfinished.set 3 credKeyBytesHeader.2).set credKeyHashOffset
      (UInt8.ofNat ((shardIndex + 1) * step))⟩

def shardByteRanges (shardIndex totalShards : ℕ) : Except Panic (List ByteRange) :=
  match validateTotalShards totalShards with
  | .error message => .error (.explicit s!"shard_key_ranges: {message}")
  | .ok () =>
      if shardIndex < totalShards then
        .ok ([credKeyVariantAddrkeyhash, credKeyVariantScripthash].map fun variant =>
          variantByteRange variant shardIndex totalShards)
      else .error (.assertFailed s!"shard_key_ranges: shard_index ({shardIndex}) must be < total_shards ({totalShards})")

def StakeCredential.variantByte : StakeCredential → UInt8
  | addrKeyhash _ => credKeyVariantAddrkeyhash
  | scriptHash _ => credKeyVariantScripthash

/-- The CBOR of a credential, an array of the variant and the 28 bytes of the hash. -/
def StakeCredential.keyBytes (credential : StakeCredential) : List UInt8 :=
  [credKeyArrayTag, credential.variantByte, credKeyBytesHeader.1, credKeyBytesHeader.2] ++
    bytes 28 credential.hash.val

section Values

variable {totalShards shardIndex : ℕ}

def variantByteOf (variant : Fin 2) : UInt8 :=
  if variant = 0 then credKeyVariantAddrkeyhash else credKeyVariantScripthash

theorem value_head (first second third fourth : UInt8) :
    value [first, second, third, fourth] =
      ((first.toNat * 256 + second.toNat) * 256 + third.toNat) * 256 + fourth.toNat := by
  simp only [value_cons, value_nil, List.length_cons, List.length_nil]
  omega

/-- Four bytes and one more, zeros after them. -/
theorem value_leading (first second third fourth lead : UInt8) :
    value ([first, second, third, fourth, lead] ++ List.replicate 27 0) =
      (((first.toNat * 256 + second.toNat) * 256 + third.toNat) * 256 + fourth.toNat) * 2 ^ 224 +
        lead.toNat * 2 ^ 216 := by
  rw [value_append, value_replicate_zero]
  simp only [value_cons, value_nil, List.length_cons, List.length_nil, List.length_replicate]
  omega

theorem head_eq (variant : Fin 2) :
    ((credKeyArrayTag.toNat * 256 + (variantByteOf variant).toNat) * 256 +
      credKeyBytesHeader.1.toNat) * 256 + credKeyBytesHeader.2.toNat =
        (credentialHead variant).val := by
  rcases variant_cases variant with rfl | rfl <;> rfl

theorem variantByteOf_variant (credential : StakeCredential) :
    variantByteOf credential.variant = credential.variantByte := by
  cases credential <;> rfl

theorem value_keyBytes (credential : StakeCredential) :
    value credential.keyBytes = credential.key.val := by
  have power : 256 ^ 28 = 2 ^ 224 := rfl
  have hashLt : credential.hash.val < 256 ^ 28 := lt_of_lt_of_eq credential.hash.isLt power.symm
  rw [StakeCredential.keyBytes, value_append, value_head, value_bytes_of_lt hashLt, length_bytes,
    credential.val_key, ← head_eq credential.variant, variantByteOf_variant, power]

theorem length_keyBytes (credential : StakeCredential) :
    credential.keyBytes.length = keySize := by
  simp [StakeCredential.keyBytes, keySize]

/-- The bytes of a range stand for the bounds of the range of numbers. -/
theorem value_variantByteRange (valid : ValidShards totalShards)
    (below : shardIndex < totalShards) (variant : Fin 2) :
    value (variantByteRange (variantByteOf variant) shardIndex totalShards).start =
        (variantRange variant shardIndex totalShards).1.val ∧
      value (variantByteRange (variantByteOf variant) shardIndex totalShards).end =
        (variantRange variant shardIndex totalShards).2.val := by
  have cancelled := valid.step_mul
  have positive := valid.step_pos
  have endLe : (shardIndex + 1) * (prefixSpace / totalShards) ≤ 256 := by
    rw [← cancelled, Nat.mul_comm (prefixSpace / totalShards)]
    exact Nat.mul_le_mul_right _ below
  have next := Nat.add_one_mul shardIndex (prefixSpace / totalShards)
  have head := head_eq variant
  rcases val_variantRange valid below variant with ⟨startEq, endEq⟩
  rw [startEq, endEq]
  constructor
  · have startBytes : (variantByteRange (variantByteOf variant) shardIndex totalShards).start =
        [credKeyArrayTag, variantByteOf variant, credKeyBytesHeader.1, credKeyBytesHeader.2,
          UInt8.ofNat (shardIndex * (prefixSpace / totalShards))] ++ List.replicate 27 0 := rfl
    rw [startBytes, value_leading, head, UInt8.toNat_ofNat', Nat.mod_eq_of_lt (by omega)]
  · by_cases isLast : shardIndex + 1 = totalShards
    · have endBytes : (variantByteRange (variantByteOf variant) shardIndex totalShards).end =
          [credKeyArrayTag, variantByteOf variant, credKeyBytesHeader.1,
            credKeyBytesHeader.2 + 1, 0] ++ List.replicate 27 0 := by
        simp only [variantByteRange, if_pos isLast]
        rfl
      have bumped : (credKeyBytesHeader.2 + 1).toNat = credKeyBytesHeader.2.toNat + 1 := rfl
      have whole : (shardIndex + 1) * (prefixSpace / totalShards) = 256 := by
        rw [isLast, Nat.mul_comm, cancelled]
      rw [endBytes, value_leading, bumped, ← Nat.add_assoc, head, whole]
      have power : 2 ^ 224 = 256 * 2 ^ 216 := rfl
      rw [UInt8.toNat_zero, Nat.zero_mul, Nat.add_zero, Nat.add_mul, Nat.one_mul, ← power]
    · have endBytes : (variantByteRange (variantByteOf variant) shardIndex totalShards).end =
          [credKeyArrayTag, variantByteOf variant, credKeyBytesHeader.1, credKeyBytesHeader.2,
            UInt8.ofNat ((shardIndex + 1) * (prefixSpace / totalShards))] ++
              List.replicate 27 0 := by
        simp only [variantByteRange, if_neg isLast]
        rfl
      have endLt : (shardIndex + 1) * (prefixSpace / totalShards) < 256 := by
        have strictly : shardIndex + 1 + 1 ≤ totalShards := by omega
        have nextLe := Nat.mul_le_mul_right (prefixSpace / totalShards) strictly
        rw [Nat.mul_comm totalShards, cancelled] at nextLe
        have afterNext := Nat.add_one_mul (shardIndex + 1) (prefixSpace / totalShards)
        omega
      rw [endBytes, value_leading, head, UInt8.toNat_ofNat', Nat.mod_eq_of_lt (by omega)]

theorem length_variantByteRange (variant : UInt8) :
    (variantByteRange variant shardIndex totalShards).start.length = keySize ∧
      (variantByteRange variant shardIndex totalShards).end.length = keySize := by
  unfold variantByteRange
  constructor
  · simp
  · split_ifs
    · simp
    · simp

/-- Byte order on the keys is the order of the numbers they stand for. -/
theorem contains_variantByteRange (valid : ValidShards totalShards)
    (below : shardIndex < totalShards) (variant : Fin 2) (credential : StakeCredential) :
    (variantByteRange (variantByteOf variant) shardIndex totalShards).contains
        credential.keyBytes ↔
      credential.variant = variant ∧ shardOf totalShards credential = shardIndex := by
  rcases value_variantByteRange valid below variant with ⟨startEq, endEq⟩
  rcases @length_variantByteRange totalShards shardIndex (variantByteOf variant) with
    ⟨startLength, endLength⟩
  have keyLength := length_keyBytes credential
  rw [← contains_variantRange valid below, ByteRange.contains, KeyRange.contains,
    decide_eq_true_iff, decide_eq_true_iff,
    le_iff_value_le (startLength.trans keyLength.symm),
    lt_iff_value_lt (keyLength.trans endLength.symm), startEq, endEq, value_keyBytes, Fin.le_def,
    Fin.lt_def]

end Values

section Pass

variable {α ρ : Type}

/-- Cutting a list by tests of which each element passes one. -/
theorem perm_flatMap_filter {tests : List ρ} {rows : List α} (passes : ρ → α → Bool)
    (once : ∀ row ∈ rows, tests.countP (passes · row) = 1) :
    (tests.flatMap fun test => rows.filter (passes test)).Perm rows := by
  classical
  refine List.perm_iff_count.mpr ?_
  intro row
  rw [List.count_flatMap]
  by_cases member : row ∈ rows
  · have counted : ∀ remaining : List ρ,
        (remaining.map (List.count row ∘ fun test => rows.filter (passes test))).sum =
          remaining.countP (passes · row) * rows.count row := by
      intro remaining
      induction remaining with
      | nil => simp
      | cons test rest ih =>
          rw [List.map_cons, List.sum_cons, ih, List.countP_cons, Function.comp_apply]
          cases isPassed : passes test row with
          | true =>
              rw [List.count_filter isPassed]
              simp only [if_true]
              ring
          | false =>
              rw [List.count_eq_zero_of_not_mem (by simp [isPassed])]
              simp
    rw [counted, once row member, Nat.one_mul]
  · rw [List.count_eq_zero_of_not_mem member]
    refine List.sum_eq_zero ?_
    intro count isCount
    rcases List.mem_map.mp isCount with ⟨test, -, rfl⟩
    exact List.count_eq_zero_of_not_mem fun filtered => member (List.mem_filter.mp filtered).1

/-- What the shards read of a namespace, one after the other. -/
def passOverShards (store : OrderedMap NsKey CardanoEntity) (E : Type) [EntityVariant E]
    (totalShards : ℕ) : Except Panic (List (EntityKey × E)) :=
  List.flatten <$> (List.range totalShards).mapM fun shardIndex => do
    let ranges ← shardKeyRanges shardIndex totalShards
    .ok (ranges.flatMap fun range => iterEntityRows store E (some range))

variable {totalShards : ℕ}

theorem validShards_of_validate (accepted : validateTotalShards totalShards = .ok ()) :
    ValidShards totalShards := by
  unfold validateTotalShards at accepted
  split_ifs at accepted with zero divides
  exact ⟨Nat.one_le_iff_ne_zero.mpr zero, divides⟩

/-- The ranges of a shard, by number and by byte. -/
theorem shardRanges_eq (accepted : validateTotalShards totalShards = .ok ()) {shardIndex : ℕ}
    (below : shardIndex < totalShards) :
    shardKeyRanges shardIndex totalShards =
        .ok [variantRange 0 shardIndex totalShards, variantRange 1 shardIndex totalShards] ∧
      shardByteRanges shardIndex totalShards =
        .ok [variantByteRange (variantByteOf 0) shardIndex totalShards,
          variantByteRange (variantByteOf 1) shardIndex totalShards] := by
  constructor
  · rw [shardKeyRanges, accepted]
    exact if_pos below
  · rw [shardByteRanges, accepted]
    exact if_pos below

theorem iterEntityRows_some (store : OrderedMap NsKey CardanoEntity) (E : Type) [EntityVariant E]
    (range : KeyRange) :
    iterEntityRows store E (some range) =
      (iterEntityRows store E none).filter fun row => range.contains row.1 := by
  rw [iterEntityRows, iterEntityRows, List.filter_filterMap]
  refine List.filterMap_congr ?_
  intro entry _
  by_cases isRow : (ofLex entry.1).1 = EntityVariant.namespaceOf E
  · cases contained : range.contains (ofLex entry.1).2 with
    | false =>
        cases EntityVariant.project (E := E) entry.2 <;> simp [isRow, contained, Option.filter]
    | true =>
        cases EntityVariant.project (E := E) entry.2 <;> simp [isRow, contained, Option.filter]
  · simp [isRow]

/-- Of the two ranges of a shard one has the key of a credential, if it is its shard. -/
theorem countP_pair {R : Type} (contains : R → Bool) (ranges : Fin 2 → R)
    {credential : StakeCredential} {shardIndex : ℕ}
    (own : ∀ variant, contains (ranges variant) ↔
      credential.variant = variant ∧ shardOf totalShards credential = shardIndex) :
    [ranges 0, ranges 1].countP contains =
      if shardIndex = shardOf totalShards credential then 1 else 0 := by
  have first := own 0
  have second := own 1
  by_cases isShard : shardIndex = shardOf totalShards credential
  · rw [if_pos isShard]
    rcases variant_cases credential.variant with isVariant | isVariant
    · have has : contains (ranges 0) = true := first.mpr ⟨isVariant, isShard.symm⟩
      have hasNot : contains (ranges 1) = false := by
        rw [Bool.eq_false_iff]
        intro contained
        have other := (second.mp contained).1
        rw [isVariant] at other
        cases other
      simp [has, hasNot]
    · have has : contains (ranges 1) = true := second.mpr ⟨isVariant, isShard.symm⟩
      have hasNot : contains (ranges 0) = false := by
        rw [Bool.eq_false_iff]
        intro contained
        have other := (first.mp contained).1
        rw [isVariant] at other
        cases other
      simp [has, hasNot]
  · rw [if_neg isShard]
    have hasNeither : ∀ variant, contains (ranges variant) = false := by
      intro variant
      rw [Bool.eq_false_iff]
      intro contained
      exact isShard ((own variant).mp contained).2.symm
    simp [hasNeither]

/-- Of all ranges of all shards one has the key of a credential. -/
theorem countP_ranges (valid : ValidShards totalShards) (credential : StakeCredential) :
    ((List.range totalShards).flatMap fun shardIndex =>
      [variantRange 0 shardIndex totalShards, variantRange 1 shardIndex totalShards]).countP
        (KeyRange.contains · credential.key) = 1 := by
  have upTo : ∀ bound ≤ totalShards, ((List.range bound).flatMap fun shardIndex =>
      [variantRange 0 shardIndex totalShards, variantRange 1 shardIndex totalShards]).countP
        (KeyRange.contains · credential.key) =
          if shardOf totalShards credential < bound then 1 else 0 := by
    intro bound
    induction bound with
    | zero => simp
    | succ bound ih =>
        intro bounded
        have own : ∀ variant, (variantRange variant bound totalShards).contains credential.key ↔
            credential.variant = variant ∧ shardOf totalShards credential = bound :=
          fun variant => contains_variantRange valid bounded variant credential
        have counted : [variantRange 0 bound totalShards, variantRange 1 bound totalShards].countP
            (KeyRange.contains · credential.key) =
              if bound = shardOf totalShards credential then 1 else 0 :=
          countP_pair (KeyRange.contains · credential.key)
            (fun variant => variantRange variant bound totalShards) own
        rw [List.range_succ, List.flatMap_append, List.countP_append,
          ih (Nat.le_of_succ_le bounded), List.flatMap_singleton, counted]
        split_ifs <;> omega
  rw [upTo totalShards (le_refl _), if_pos (shardOf_lt valid credential)]

/-- The shards together read every row under the key of a credential once. -/
theorem exists_passOverShards (accepted : validateTotalShards totalShards = .ok ()) (E : Type)
    [EntityVariant E] {store : OrderedMap NsKey CardanoEntity}
    (keyed : ∀ row ∈ iterEntityRows store E none, ∃ credential : StakeCredential,
      row.1 = credential.key) :
    ∃ visited, passOverShards store E totalShards = .ok visited ∧
      visited.Perm (iterEntityRows store E none) := by
  have valid := validShards_of_validate accepted
  have each : (List.range totalShards).mapM (fun shardIndex => do
      let ranges ← shardKeyRanges shardIndex totalShards
      .ok (ranges.flatMap fun range => iterEntityRows store E (some range))) =
        .ok ((List.range totalShards).map fun shardIndex =>
          [variantRange 0 shardIndex totalShards, variantRange 1 shardIndex totalShards].flatMap
            fun range => iterEntityRows store E (some range)) := by
    rw [mapM_eq_ok, List.forall₂_map_right_iff, List.forall₂_same]
    intro shardIndex member
    rw [(shardRanges_eq accepted (List.mem_range.mp member)).1]
    rfl
  refine ⟨_, map_eq_ok.mpr ⟨_, each, rfl⟩, ?_⟩
  rw [← List.flatMap_def, ← List.flatMap_assoc]
  simp only [iterEntityRows_some]
  refine perm_flatMap_filter (fun (range : KeyRange) (row : EntityKey × E) =>
    range.contains row.1) ?_
  intro row member
  rcases keyed row member with ⟨credential, isKey⟩
  rw [isKey]
  exact countP_ranges valid credential

/-- The ranges of the shards partition the keys of credentials. -/
theorem shard_ranges_partition (accepted : validateTotalShards totalShards = .ok ()) :
    (∀ credential : StakeCredential, ∃ owner, owner < totalShards ∧
      ∀ shardIndex, shardIndex < totalShards →
        ∃ ranges, shardByteRanges shardIndex totalShards = .ok ranges ∧
          ranges.countP (ByteRange.contains · credential.keyBytes) =
            (if shardIndex = owner then 1 else 0) ∧
          ∀ range ∈ ranges, range.contains credential.keyBytes →
            range.variant = some credential.variantByte) ∧
      ∀ (E : Type) [EntityVariant E] (store : OrderedMap NsKey CardanoEntity),
        (∀ row ∈ iterEntityRows store E none, ∃ credential : StakeCredential,
          row.1 = credential.key) →
        ∃ visited, passOverShards store E totalShards = .ok visited ∧
          visited.Perm (iterEntityRows store E none) := by
  have valid := validShards_of_validate accepted
  constructor
  · intro credential
    refine ⟨shardOf totalShards credential, shardOf_lt valid credential, ?_⟩
    intro shardIndex below
    have own : ∀ variant,
        (variantByteRange (variantByteOf variant) shardIndex totalShards).contains
          credential.keyBytes ↔
            credential.variant = variant ∧ shardOf totalShards credential = shardIndex :=
      fun variant => contains_variantByteRange valid below variant credential
    refine ⟨_, (shardRanges_eq accepted below).2,
      countP_pair (ByteRange.contains · credential.keyBytes)
        (fun variant => variantByteRange (variantByteOf variant) shardIndex totalShards) own, ?_⟩
    have ownVariant : ∀ variant,
        (variantByteRange (variantByteOf variant) shardIndex totalShards).contains
          credential.keyBytes →
            (variantByteRange (variantByteOf variant) shardIndex totalShards).variant =
              some credential.variantByte := by
      intro variant contained
      rw [← variantByteOf_variant, ((own variant).mp contained).1]
      rfl
    intro range member contained
    simp only [List.mem_cons, List.not_mem_nil, or_false] at member
    rcases member with rfl | rfl
    · exact ownVariant 0 contained
    · exact ownVariant 1 contained
  · intro E _ store keyed
    exact exists_passOverShards accepted E keyed

theorem shard_ranges_partition_sixteen :
    ∃ owner, owner < 16 ∧ ∃ ranges, shardByteRanges owner 16 = .ok ranges ∧
      ranges.countP (ByteRange.contains · (StakeCredential.addrKeyhash 0x42).keyBytes) = 1 := by
  have accepted : validateTotalShards 16 = .ok () := by decide +kernel
  rcases (shard_ranges_partition accepted).1 (.addrKeyhash 0x42) with ⟨owner, below, each⟩
  rcases each owner below with ⟨ranges, isRanges, counted, -⟩
  exact ⟨owner, below, ranges, isRanges, by rw [counted, if_pos rfl]⟩

end Pass

end Dolos
