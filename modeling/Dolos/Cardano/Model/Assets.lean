import Dolos.Cardano.Model.Accounts

/-!
# Assets, datums and pending rewards

`cardano/src/model/assets.rs`, `datums.rs` and `pending.rs`: small entities, each
with one or two deltas of its own.

The key of an asset is a hash of its policy and name; the hash function is a
parameter of the delta.
-/

namespace Dolos

open Outcome

/-- Quantities are 128-bit signed integers kept as their bytes. -/
structure AssetState where
  quantity : ℤ
  initialTx : Option BlockHash
  initialSlot : Option ℕ
  mintTxCount : UInt64
  metadataTx : Option BlockHash
  deriving DecidableEq, Repr

namespace AssetState

def default : AssetState := ⟨0, none, none, 0, none⟩

/-- `add_quantity` saturates at both ends of the 128-bit range. -/
def addQuantity (asset : AssetState) (value : ℤ) : AssetState :=
  { asset with quantity := max (-2 ^ 127) (min (asset.quantity + value) (2 ^ 127 - 1)) }

def nsKey (subject : EntityKey) : NsKey := toLex (.assets, subject)

end AssetState

/-- The `subject` is the digest of policy and asset name. -/
structure MintStatsUpdate where
  subject : EntityKey
  quantity : ℤ
  seenInTx : BlockHash
  seenInSlot : ℕ
  wasNew : Bool
  prevQuantity : ℤ
  prevInitialSlot : Option ℕ
  prevInitialTx : Option BlockHash
  deriving DecidableEq, Repr

namespace MintStatsUpdate

def new (subject : EntityKey) (quantity : ℤ) (seenInTx : BlockHash) (seenInSlot : ℕ) :
    MintStatsUpdate :=
  ⟨subject, quantity, seenInTx, seenInSlot, false, 0, none, none⟩

def mint (delta : MintStatsUpdate) (asset : AssetState) : AssetState :=
  let minted := { asset.addQuantity delta.quantity with mintTxCount := asset.mintTxCount + 1 }
  if asset.initialSlot.getD (2 ^ 64 - 1) > delta.seenInSlot then
    { minted with initialSlot := some delta.seenInSlot, initialTx := some delta.seenInTx }
  else minted

instance : EntityDelta MintStatsUpdate AssetState where
  key delta := AssetState.nsKey delta.subject
  apply delta entity :=
    let asset := entity.getD .default
    .ok ({ delta with
        wasNew := entity.isNone
        prevQuantity := asset.quantity
        prevInitialSlot := asset.initialSlot
        prevInitialTx := asset.initialTx },
      some (delta.mint asset))
  undo delta entity :=
    if delta.wasNew then .ok none
    else do
      let asset ← expect entity "existing asset"
      .ok (some { asset with
        quantity := delta.prevQuantity
        mintTxCount := asset.mintTxCount - 1
        initialSlot := delta.prevInitialSlot
        initialTx := delta.prevInitialTx })

end MintStatsUpdate

structure MetadataTxUpdate where
  subject : EntityKey
  metadataTx : BlockHash
  wasNew : Bool
  prevMetadataTx : Option BlockHash
  deriving DecidableEq, Repr

namespace MetadataTxUpdate

def new (subject : EntityKey) (metadataTx : BlockHash) : MetadataTxUpdate :=
  ⟨subject, metadataTx, false, none⟩

instance : EntityDelta MetadataTxUpdate AssetState where
  key delta := AssetState.nsKey delta.subject
  apply delta entity :=
    let asset := entity.getD .default
    .ok ({ delta with wasNew := entity.isNone, prevMetadataTx := asset.metadataTx },
      some { asset with metadataTx := some delta.metadataTx })
  undo delta entity :=
    if delta.wasNew then .ok none
    else do
      let asset ← expect entity "existing asset"
      .ok (some { asset with metadataTx := delta.prevMetadataTx })

end MetadataTxUpdate

/-- A witness datum with the number of outputs that refer to it. -/
structure DatumState where
  refcount : ℕ
  bytes : List UInt8
  deriving DecidableEq, Repr

namespace DatumState

def new (bytes : List UInt8) : DatumState := ⟨1, bytes⟩

def nsKey (hash : BlockHash) : NsKey := toLex (.datums, hash)

end DatumState

structure DatumRefIncrement where
  datumHash : BlockHash
  datumBytes : List UInt8
  wasNew : Bool
  deriving DecidableEq, Repr

namespace DatumRefIncrement

def new (datumHash : BlockHash) (datumBytes : List UInt8) : DatumRefIncrement :=
  ⟨datumHash, datumBytes, false⟩

instance : EntityDelta DatumRefIncrement DatumState where
  key delta := DatumState.nsKey delta.datumHash
  apply delta entity :=
    match entity with
    | some datum =>
        .ok ({ delta with wasNew := false },
          some { datum with refcount := saturatingAdd datum.refcount 1 })
    | none => .ok ({ delta with wasNew := true }, some (.new delta.datumBytes))
  undo delta entity :=
    if delta.wasNew then .ok none
    else .ok (entity.map fun datum => { datum with refcount := datum.refcount - 1 })

end DatumRefIncrement

structure DatumRefDecrement where
  datumHash : BlockHash
  prevState : Option DatumState
  deriving DecidableEq, Repr

namespace DatumRefDecrement

def new (datumHash : BlockHash) : DatumRefDecrement := ⟨datumHash, none⟩

instance : EntityDelta DatumRefDecrement DatumState where
  key delta := DatumState.nsKey delta.datumHash
  apply delta entity :=
    match entity with
    | some datum =>
        .ok ({ delta with prevState := some datum },
          if datum.refcount ≤ 1 then none else some { datum with refcount := datum.refcount - 1 })
    | none => .ok (delta, none)
  undo delta _ := .ok delta.prevState

end DatumRefDecrement

/-- The rewards of an account waiting for the epoch boundary, as operator and as
delegator of pools. -/
structure PendingRewardState where
  credential : StakeCredential
  isSpendable : Bool
  asLeader : List (Hash28 × ℕ)
  asDelegator : List (Hash28 × ℕ)
  deriving DecidableEq, Repr

def PendingRewardState.nsKey (credential : StakeCredential) : NsKey :=
  toLex (.pendingRewards, credential.key)

/-- A move of instantaneous rewards waiting for the epoch boundary. -/
structure PendingMirState where
  credential : StakeCredential
  fromReserves : UInt64
  fromTreasury : UInt64
  deriving DecidableEq, Repr

def PendingMirState.nsKey (credential : StakeCredential) : NsKey :=
  toLex (.pendingMirs, credential.key)

structure EnqueueMir where
  credential : StakeCredential
  fromReserves : UInt64
  fromTreasury : UInt64
  overwrite : Bool
  prev : Option PendingMirState
  deriving DecidableEq, Repr

namespace EnqueueMir

def new (credential : StakeCredential) (fromReserves fromTreasury : UInt64) (overwrite : Bool) :
    EnqueueMir :=
  ⟨credential, fromReserves, fromTreasury, overwrite, none⟩

/-- Before Alonzo a later move overwrites an earlier one, from then on they add
up. -/
def enqueued (delta : EnqueueMir) (entity : Option PendingMirState) : PendingMirState :=
  match entity, delta.overwrite with
  | some existing, false =>
      { existing with
        fromReserves := existing.fromReserves + delta.fromReserves
        fromTreasury := existing.fromTreasury + delta.fromTreasury }
  | _, _ => ⟨delta.credential, delta.fromReserves, delta.fromTreasury⟩

instance : EntityDelta EnqueueMir PendingMirState where
  key delta := PendingMirState.nsKey delta.credential
  apply delta entity := .ok ({ delta with prev := entity }, some (delta.enqueued entity))
  undo delta _ := .ok delta.prev

end EnqueueMir

section Faithful

open EntityDelta

theorem MintStatsUpdate.faithful {before after : Option AssetState}
    {delta applied : MintStatsUpdate} (done : apply delta before = .ok (applied, after)) :
    Faithful delta applied before after := by
  have appliedEq := done
  simp only [apply, Except.ok.injEq, Prod.mk.injEq] at appliedEq
  rcases appliedEq with ⟨rfl, rfl⟩
  refine ⟨rfl, ?_, _, done⟩
  cases before with
  | none => rfl
  | some asset =>
      simp only [undo, Option.isNone_some, Bool.false_eq_true, if_false, expect_some, ok_bind,
        Option.getD_some, Except.ok.injEq, Option.some.injEq]
      rw [mint]
      split_ifs
      · simp [AssetState.addQuantity]
      · simp [AssetState.addQuantity]

theorem MetadataTxUpdate.faithful {before after : Option AssetState}
    {delta applied : MetadataTxUpdate} (done : apply delta before = .ok (applied, after)) :
    Faithful delta applied before after := by
  have appliedEq := done
  simp only [apply, Except.ok.injEq, Prod.mk.injEq] at appliedEq
  rcases appliedEq with ⟨rfl, rfl⟩
  refine ⟨rfl, ?_, _, done⟩
  cases before with
  | none => rfl
  | some asset => rfl

theorem DatumRefIncrement.keyed {before after : Option DatumState}
    {delta applied : DatumRefIncrement} (done : apply delta before = .ok (applied, after)) :
    key applied = key delta := by
  cases before with
  | none =>
      simp only [apply, Except.ok.injEq, Prod.mk.injEq] at done
      rcases done with ⟨rfl, rfl⟩
      rfl
  | some datum =>
      simp only [apply, Except.ok.injEq, Prod.mk.injEq] at done
      rcases done with ⟨rfl, rfl⟩
      rfl

/-- A reference count at the top of its range is lost: one more reference leaves it
there and the undo takes it down. -/
theorem DatumRefIncrement.undone_iff {before after : Option DatumState}
    {delta applied : DatumRefIncrement} (done : apply delta before = .ok (applied, after)) :
    undo applied after = .ok before ↔ ∀ datum ∈ before, datum.refcount < 2 ^ 64 - 1 := by
  cases before with
  | none =>
      simp only [apply, Except.ok.injEq, Prod.mk.injEq] at done
      rcases done with ⟨rfl, rfl⟩
      simp [undo]
  | some datum =>
      simp only [apply, Except.ok.injEq, Prod.mk.injEq] at done
      rcases done with ⟨rfl, rfl⟩
      have countIff : saturatingAdd datum.refcount 1 - 1 = datum.refcount ↔
          datum.refcount < 2 ^ 64 - 1 := by
        rw [saturatingAdd]
        omega
      rcases datum with ⟨refcount, bytes⟩
      simpa [undo] using countIff

theorem DatumRefIncrement.replayed {before after : Option DatumState}
    {delta applied : DatumRefIncrement} (done : apply delta before = .ok (applied, after)) :
    ∃ again, apply applied before = .ok (again, after) := by
  cases before with
  | none =>
      have appliedEq := done
      simp only [apply, Except.ok.injEq, Prod.mk.injEq] at appliedEq
      rcases appliedEq with ⟨rfl, rfl⟩
      exact ⟨_, done⟩
  | some datum =>
      have appliedEq := done
      simp only [apply, Except.ok.injEq, Prod.mk.injEq] at appliedEq
      rcases appliedEq with ⟨rfl, rfl⟩
      exact ⟨_, done⟩

theorem DatumRefDecrement.faithful {before after : Option DatumState}
    {delta applied : DatumRefDecrement} (fresh : delta.prevState = none)
    (done : apply delta before = .ok (applied, after)) : Faithful delta applied before after := by
  cases before with
  | none =>
      have appliedEq := done
      simp only [apply, Except.ok.injEq, Prod.mk.injEq] at appliedEq
      rcases appliedEq with ⟨rfl, rfl⟩
      refine ⟨rfl, ?_, _, done⟩
      simp [undo, fresh]
  | some datum =>
      have appliedEq := done
      simp only [apply, Except.ok.injEq, Prod.mk.injEq] at appliedEq
      rcases appliedEq with ⟨rfl, rfl⟩
      exact ⟨rfl, rfl, _, done⟩

theorem EnqueueMir.faithful {before after : Option PendingMirState}
    {delta applied : EnqueueMir} (done : apply delta before = .ok (applied, after)) :
    Faithful delta applied before after := by
  have appliedEq := done
  simp only [apply, Except.ok.injEq, Prod.mk.injEq] at appliedEq
  rcases appliedEq with ⟨rfl, rfl⟩
  exact ⟨rfl, rfl, _, done⟩

end Faithful

end Dolos
