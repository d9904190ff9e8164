import Dolos.Cardano.Model.AccountBoundary
import Dolos.Cardano.Rupd

/-!
# Instantaneous rewards at a boundary

`process_pending_mirs` of `cardano/src/ewrap/loading.rs`: every pending row is taken, what
it holds goes to its account if that is registered and stays in the pots if it is not, and
the commit deletes the rows.
-/

namespace Dolos

namespace PendingMirState

def totalValue (mir : PendingMirState) : UInt64 := mir.fromReserves + mir.fromTreasury

end PendingMirState

/-- `read_entity_typed`. -/
def readEntityTyped (store : OrderedMap NsKey CardanoEntity) (E : Type) [EntityVariant E]
    (key : EntityKey) : Option E :=
  (store.get? (toLex (EntityVariant.namespaceOf E, key))).bind EntityVariant.project

structure MirTally where
  appliedMirCredentials : List StakeCredential
  effectiveTreasuryMirs : UInt64
  effectiveReserveMirs : UInt64
  invalidTreasuryMirs : UInt64
  invalidReserveMirs : UInt64
  deltas : List AssignRewards
  deriving DecidableEq, Repr

namespace MirTally

def default : MirTally := ⟨[], 0, 0, 0, 0, []⟩

def processPendingMir (store : OrderedMap NsKey CardanoEntity) (tally : MirTally)
    (pending : PendingMirState) : MirTally :=
  let taken := { tally with
    appliedMirCredentials := tally.appliedMirCredentials ++ [pending.credential] }
  match readEntityTyped store AccountState pending.credential.key with
  | some account =>
      if account.isRegistered then
        { taken with
          effectiveTreasuryMirs := taken.effectiveTreasuryMirs + pending.fromTreasury
          effectiveReserveMirs := taken.effectiveReserveMirs + pending.fromReserves
          deltas :=
            if pending.totalValue > 0 then
              taken.deltas ++ [.new pending.credential.key pending.totalValue.toNat]
            else taken.deltas }
      else
        { taken with
          invalidTreasuryMirs := taken.invalidTreasuryMirs + pending.fromTreasury
          invalidReserveMirs := taken.invalidReserveMirs + pending.fromReserves }
  | none =>
      { taken with
        invalidTreasuryMirs := taken.invalidTreasuryMirs + pending.fromTreasury
        invalidReserveMirs := taken.invalidReserveMirs + pending.fromReserves }

def processPendingMirs (store : OrderedMap NsKey CardanoEntity) : MirTally :=
  (iterEntitiesTyped store PendingMirState none).foldl (processPendingMir store) default

/-- The rows the commit of the boundary deletes. -/
def deleteMirs (tally : MirTally) (store : OrderedMap NsKey CardanoEntity) :
    OrderedMap NsKey CardanoEntity :=
  store.eraseAll (tally.appliedMirCredentials.map PendingMirState.nsKey)

end MirTally

/-- A row is under the key of its own credential. -/
def MirKeyed (index : NsKey) (held : Option CardanoEntity) : Prop :=
  ∀ entity, held = some entity →
    ∃ state, entity = .pendingMir state ∧ index = PendingMirState.nsKey state.credential

def MirsKeyed (values : NsKey → Option CardanoEntity) : Prop :=
  ∀ index, (ofLex index).1 = .pendingMirs → MirKeyed index (values index)

def NothingPending (values : NsKey → Option CardanoEntity) : Prop :=
  ∀ index, (ofLex index).1 = .pendingMirs → values index = none

theorem NothingPending.keyed {values : NsKey → Option CardanoEntity}
    (nothing : NothingPending values) : MirsKeyed values := by
  intro index isMir entity held
  rw [nothing index isMir] at held
  cases held

namespace MirTally

variable {store : OrderedMap NsKey CardanoEntity}

theorem credentials_processPendingMir (tally : MirTally) (pending : PendingMirState) :
    (processPendingMir store tally pending).appliedMirCredentials =
      tally.appliedMirCredentials ++ [pending.credential] := by
  unfold processPendingMir
  split
  · split_ifs <;> rfl
  · rfl

theorem credentials_processPendingMirs :
    (processPendingMirs store).appliedMirCredentials =
      (iterEntitiesTyped store PendingMirState none).map PendingMirState.credential := by
  have folded : ∀ (pendings : List PendingMirState) (tally : MirTally),
      (pendings.foldl (processPendingMir store) tally).appliedMirCredentials =
        tally.appliedMirCredentials ++ pendings.map PendingMirState.credential := by
    intro pendings
    induction pendings with
    | nil => simp
    | cons pending rest ih =>
        intro tally
        rw [List.foldl_cons, ih, credentials_processPendingMir]
        simp
  exact folded _ default

/-- A boundary leaves nothing pending. -/
theorem nothingPending_deleteMirs (keyed : MirsKeyed store.get?) :
    NothingPending ((processPendingMirs store).deleteMirs store).get? := by
  intro index isMir
  rw [deleteMirs, OrderedMap.get?_eraseAll]
  split_ifs with listed
  · rfl
  · cases held : store.get? index with
    | none => rfl
    | some entity =>
        rcases keyed index isMir entity held with ⟨state, rfl, rfl⟩
        refine absurd ?_ listed
        rw [credentials_processPendingMirs, List.mem_map]
        refine ⟨state.credential, List.mem_map.mpr ⟨state, ?_, rfl⟩, rfl⟩
        refine List.mem_filterMap.mpr ⟨_, OrderedMap.mem_entries_iff.mpr held, ?_⟩
        simp [PendingMirState.nsKey, EntityVariant.namespaceOf, EntityVariant.project]

end MirTally

end Dolos
