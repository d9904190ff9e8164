import Dolos.Cardano.DatumRefs
import Dolos.Cardano.PendingMirs

/-!
# The queue of instantaneous rewards

A certificate that moves instantaneous rewards has one pot and names credentials with an
amount each. The row of a credential keeps what is pending from the two pots until the
boundary. Before Alonzo a later certificate takes the place of an earlier one, from then on
they add up, and the ledger has that rule for each pot by itself.
-/

namespace Dolos

open Outcome Keyed EntityDelta CardanoDelta DeltaBuilder

/-- What a certificate has for a credential. -/
structure MirEntry where
  source : InstantaneousRewardSource
  amount : ℤ
  deriving DecidableEq, Repr

namespace MirEntry

/-- An amount is a signed 64-bit word. -/
def IsWord (entry : MirEntry) : Prop := -2 ^ 63 ≤ entry.amount ∧ entry.amount < 2 ^ 63

/-- Negative amounts are cut off at zero. -/
def granted (entry : MirEntry) : UInt64 := UInt64.ofNat entry.amount.toNat

def delta (credential : StakeCredential) (overwrite : Bool) (entry : MirEntry) : EnqueueMir :=
  match entry.source with
  | .reserves => .new credential entry.granted 0 overwrite
  | .treasury => .new credential 0 entry.granted overwrite

end MirEntry

def MoveInstantaneousReward.entriesOf (credential : StakeCredential)
    (mir : MoveInstantaneousReward) : List MirEntry :=
  match mir.target with
  | .otherAccountingPot _ => []
  | .stakeCredentials creds =>
      (creds.filter fun entry => entry.1 = credential).map fun entry => ⟨mir.source, entry.2⟩

/-- The certificates of invalid transactions do not count. -/
def MultiEraTx.mirEntries (credential : StakeCredential) (tx : MultiEraTx) : List MirEntry :=
  if tx.isValid then
    tx.certs.flatMap fun cert =>
      (cert.asMirCertificate.map (MoveInstantaneousReward.entriesOf credential)).getD []
  else []

namespace PendingMirState

/-- What is pending from a pot, by the row of a credential. -/
def pending (row : Option PendingMirState) (source : InstantaneousRewardSource) : UInt64 :=
  match row, source with
  | none, _ => 0
  | some state, .reserves => state.fromReserves
  | some state, .treasury => state.fromTreasury

@[simp]
theorem pending_none (source : InstantaneousRewardSource) : pending none source = 0 := rfl

end PendingMirState

namespace MirQueue

open PendingMirState

/-- A row after entries, one after the other. -/
def enqueueAll (credential : StakeCredential) (overwrite : Bool) (entries : List MirEntry)
    (row : Option PendingMirState) : Option PendingMirState :=
  entries.foldl (fun row entry => some ((entry.delta credential overwrite).enqueued row)) row

def ofPot (source : InstantaneousRewardSource) (entries : List MirEntry) : List MirEntry :=
  entries.filter fun entry => entry.source = source

/-- The rule of the ledger for a pot. -/
def ledgerPending (overwrite : Bool) (entries : List MirEntry) : ℤ :=
  entries.foldl (fun held entry => if overwrite then entry.amount else held + entry.amount) 0

section Step

variable {credential : StakeCredential}

/-- What an entry does to a row, pot by pot. -/
theorem pending_enqueued (overwrite : Bool) (entry : MirEntry) (row : Option PendingMirState)
    (source : InstantaneousRewardSource) :
    pending (some ((entry.delta credential overwrite).enqueued row)) source =
      if source = entry.source then
        if overwrite then entry.granted else pending row source + entry.granted
      else if overwrite then 0 else pending row source := by
  rcases entry with ⟨pot, amount⟩
  cases row <;> cases pot <;> cases source <;> cases overwrite <;>
    simp [MirEntry.delta, EnqueueMir.enqueued, EnqueueMir.new, pending]

theorem enqueueAll_concat (overwrite : Bool) (done : List MirEntry) (entry : MirEntry)
    (row : Option PendingMirState) :
    enqueueAll credential overwrite (done ++ [entry]) row =
      some ((entry.delta credential overwrite).enqueued
        (enqueueAll credential overwrite done row)) := by
  simp [enqueueAll]

end Step

/-- The two pots of a credential hold what the ledger has for each, and no entry of one pot
touched the other. -/
structure PotByPot (credential : StakeCredential) (overwrite : Bool) (entries : List MirEntry) :
    Prop where
  folded : ∀ source,
    ((pending (enqueueAll credential overwrite entries none) source).toNat : ℤ) =
      ledgerPending overwrite (ofPot source entries)
  apart : ∀ done entry later, entries = done ++ entry :: later → ∀ source ≠ entry.source,
    pending (enqueueAll credential overwrite (done ++ [entry]) none) source =
      pending (enqueueAll credential overwrite done none) source

/-- Before Alonzo: the last amount of a pot is not negative, and an entry that one of the
other pot follows has nothing to lose. -/
structure NothingLost (entries : List MirEntry) : Prop where
  last : ∀ source, ∀ entry ∈ (ofPot source entries).getLast?, 0 ≤ entry.amount
  followed : ∀ done entry next later, entries = done ++ entry :: next :: later →
    entry.source ≠ next.source → entry.amount ≤ 0

def negatives (entries : List MirEntry) : ℕ := (entries.map fun entry => (-entry.amount).toNat).sum

/-- From Alonzo on: the sum is an amount, and what is cut off is none, up to whole words. -/
structure SumKept (entries : List MirEntry) : Prop where
  nonneg : 0 ≤ (entries.map MirEntry.amount).sum
  word : (entries.map MirEntry.amount).sum < 2 ^ 64
  cut : 2 ^ 64 ∣ negatives entries

def Orderly (overwrite : Bool) (entries : List MirEntry) : Prop :=
  if overwrite then NothingLost entries else ∀ source, SumKept (ofPot source entries)

section Overwriting

variable {credential : StakeCredential} {entries : List MirEntry}

theorem pending_overwritten_concat (done : List MirEntry) (entry : MirEntry)
    (source : InstantaneousRewardSource) :
    pending (enqueueAll credential true (done ++ [entry]) none) source =
      if source = entry.source then entry.granted else 0 := by
  rw [enqueueAll_concat, pending_enqueued]
  rfl

theorem ledgerPending_overwriting (entries : List MirEntry) :
    ledgerPending true entries = (entries.getLast?.map MirEntry.amount).getD 0 := by
  induction entries using List.reverseRecOn with
  | nil => rfl
  | append_singleton done entry ih => simp [ledgerPending]

theorem granted_eq {entry : MirEntry} (word : entry.IsWord) :
    (entry.granted.toNat : ℤ) = max entry.amount 0 := by
  rcases word with ⟨-, above⟩
  simp only [MirEntry.granted, UInt64.toNat_ofNat']
  omega

/-- The last entry of a pot, when the last of all is of the other, is followed by one of
the other. -/
theorem followed_of_last {source : InstantaneousRewardSource} {done : List MirEntry}
    {entry last : MirEntry} (found : entry ∈ (ofPot source (done ++ [last])).getLast?)
    (other : last.source ≠ source) :
    ∃ before next after, done ++ [last] = before ++ entry :: next :: after ∧
      entry.source = source ∧ next.source ≠ source := by
  rcases List.getLast?_eq_some_iff.mp found with ⟨earlier, isLast⟩
  rcases List.filter_eq_append_iff.mp isLast with ⟨front, back, split, -, backEq⟩
  rcases List.filter_eq_cons_iff.mp backEq with ⟨skipped, after, backIs, -, isSource, rest⟩
  have ofSource : entry.source = source := by simpa using isSource
  cases after with
  | nil =>
      have same : last = entry := by
        have lasts := congrArg List.getLast? split
        rw [backIs] at lasts
        simpa using lasts
      rw [same] at other
      exact absurd ofSource other
  | cons next after =>
      refine ⟨front ++ skipped, next, after, by simp [split, backIs], ofSource, ?_⟩
      have others := List.filter_eq_nil_iff.mp rest next List.mem_cons_self
      simpa using others

theorem NothingLost.potByPot (kept : NothingLost entries)
    (words : ∀ entry ∈ entries, entry.IsWord) : PotByPot credential true entries := by
  refine ⟨?_, ?_⟩
  · intro source
    rw [ledgerPending_overwriting]
    rcases List.eq_nil_or_concat' entries with rfl | ⟨done, last, rfl⟩
    · rfl
    · rw [pending_overwritten_concat]
      split_ifs with same
      · have isLast : (ofPot source (done ++ [last])).getLast? = some last := by
          simp [ofPot, same]
        have nonneg := kept.last source last isLast
        rw [isLast, granted_eq (words last (by simp))]
        exact max_eq_left nonneg
      · cases found : (ofPot source (done ++ [last])).getLast? with
        | none => rfl
        | some entry =>
            rcases followed_of_last found (Ne.symm same) with
              ⟨before, next, after, split, ofSource, notSource⟩
            have nonneg := kept.last source entry found
            have lost := kept.followed before entry next after split
              (ofSource.trans_ne (Ne.symm notSource))
            change (0 : ℤ) = entry.amount
            omega
  · rintro done entry later split source other
    rw [pending_overwritten_concat, if_neg other]
    rcases List.eq_nil_or_concat' done with rfl | ⟨before, last, rfl⟩
    · rfl
    · rw [pending_overwritten_concat]
      split_ifs with same
      · subst same
        have lost := kept.followed before last entry later (by simp [split]) other
        have none := granted_eq (words last (by simp [split]))
        rw [max_eq_right lost] at none
        have zero : last.granted.toNat = 0 := by exact_mod_cast none
        exact (UInt64.toNat_inj.mp zero).symm
      · rfl

theorem PotByPot.nothingLost (law : PotByPot credential true entries)
    (words : ∀ entry ∈ entries, entry.IsWord) : NothingLost entries := by
  refine ⟨?_, ?_⟩
  · intro source entry found
    have held := law.folded source
    rw [ledgerPending_overwriting, found] at held
    change _ = entry.amount at held
    omega
  · rintro done entry next later rfl other
    have kept := law.apart (done ++ [entry]) next later (by simp) entry.source other
    rw [pending_overwritten_concat, pending_overwritten_concat, if_neg other, if_pos rfl] at kept
    have granted := granted_eq (words entry (by simp))
    rw [← kept] at granted
    have zero : max entry.amount 0 = 0 := granted.symm
    omega

end Overwriting

section Accumulating

variable {credential : StakeCredential} {entries : List MirEntry}

theorem pending_accumulated (entries : List MirEntry) (row : Option PendingMirState)
    (source : InstantaneousRewardSource) :
    (pending (enqueueAll credential false entries row) source).toNat =
      ((pending row source).toNat +
        ((ofPot source entries).map fun entry => entry.amount.toNat).sum) % 2 ^ 64 := by
  induction entries generalizing row with
  | nil =>
      have word := (pending row source).toNat_lt
      simp only [enqueueAll, List.foldl_nil, ofPot, List.filter_nil, List.map_nil, List.sum_nil]
      omega
  | cons entry rest ih =>
      change (pending (enqueueAll credential false rest _) source).toNat = _
      rw [ih, pending_enqueued]
      by_cases same : source = entry.source
      · simp only [same, if_true, Bool.false_eq_true, if_false, MirEntry.granted, ofPot,
          UInt64.toNat_add, UInt64.toNat_ofNat', decide_true, List.filter_cons_of_pos,
          List.map_cons, List.sum_cons]
        omega
      · simp [same, Ne.symm same, ofPot]

theorem ledgerPending_accumulating (entries : List MirEntry) :
    ledgerPending false entries = (entries.map MirEntry.amount).sum := by
  simp only [ledgerPending, Bool.false_eq_true, if_false]
  rw [← List.foldl_map, List.sum_eq_foldl]

theorem sum_granted (entries : List MirEntry) :
    (((entries.map fun entry => entry.amount.toNat).sum : ℕ) : ℤ) =
      (entries.map MirEntry.amount).sum + negatives entries := by
  induction entries with
  | nil => rfl
  | cons entry rest ih =>
      simp only [List.map_cons, List.sum_cons, negatives, Nat.cast_add] at ih ⊢
      omega

theorem folded_iff_sumKept (source : InstantaneousRewardSource) :
    ((pending (enqueueAll credential false entries none) source).toNat : ℤ) =
        ledgerPending false (ofPot source entries) ↔ SumKept (ofPot source entries) := by
  have granted := sum_granted (ofPot source entries)
  rw [pending_accumulated, ledgerPending_accumulating, pending_none, UInt64.toNat_zero]
  constructor
  · intro held
    exact ⟨by omega, by omega, by omega⟩
  · rintro ⟨nonneg, word, cut⟩
    omega

theorem potByPot_accumulating_iff :
    PotByPot credential false entries ↔ ∀ source, SumKept (ofPot source entries) := by
  constructor
  · intro law source
    exact (folded_iff_sumKept source).mp (law.folded source)
  · intro kept
    refine ⟨fun source => (folded_iff_sumKept source).mpr (kept source), ?_⟩
    intro done entry later _ source other
    rw [enqueueAll_concat, pending_enqueued, if_neg other]
    rfl

end Accumulating

theorem potByPot_iff {credential : StakeCredential} {overwrite : Bool} {entries : List MirEntry}
    (words : ∀ entry ∈ entries, entry.IsWord) :
    PotByPot credential overwrite entries ↔ Orderly overwrite entries := by
  cases overwrite with
  | true => exact ⟨fun law => law.nothingLost words, fun kept => NothingLost.potByPot kept words⟩
  | false => exact potByPot_accumulating_iff

section Emitted

variable [NonceCrypto] {credential : StakeCredential}

/-- The deltas for the row of the credential, as the log has them. -/
def mirDeltas (credential : StakeCredential) (overwrite : Bool) (entries : List MirEntry) :
    List CardanoDelta :=
  entries.map fun entry => .enqueueMir (entry.delta credential overwrite)

omit [NonceCrypto] in
theorem nsKey_eq_iff {first second : StakeCredential} :
    PendingMirState.nsKey first = PendingMirState.nsKey second ↔ first = second := by
  constructor
  · intro same
    exact StakeCredential.key_injective (congrArg (fun index => (ofLex index).2) same)
  · rintro rfl
    rfl

theorem key_delta (overwrite : Bool) (entry : MirEntry) :
    key (CardanoDelta.enqueueMir (entry.delta credential overwrite)) =
      PendingMirState.nsKey credential := by
  rcases entry with ⟨source, amount⟩
  cases source <;> rfl

omit [NonceCrypto] in
theorem enqueueMirs_eq (overwrite : Bool) (source : InstantaneousRewardSource)
    (creds : List (StakeCredential × ℤ)) :
    AccountVisitor.enqueueMirs overwrite ⟨source, .stakeCredentials creds⟩ =
      creds.map fun named => .enqueueMir (MirEntry.delta named.1 overwrite ⟨source, named.2⟩) := by
  cases source <;> rfl

theorem filter_enqueueMirs (overwrite : Bool) (mir : MoveInstantaneousReward) :
    (AccountVisitor.enqueueMirs overwrite mir).filter
        (fun delta => key delta = PendingMirState.nsKey credential) =
      mirDeltas credential overwrite (mir.entriesOf credential) := by
  rcases mir with ⟨source, creds | coin⟩
  · rw [enqueueMirs_eq]
    simp only [MoveInstantaneousReward.entriesOf, mirDeltas]
    induction creds with
    | nil => rfl
    | cons named rest ih =>
        rw [List.map_cons, List.filter_cons, List.filter_cons, key_delta, ih]
        by_cases same : named.1 = credential
        · simp [same]
        · simp [nsKey_eq_iff, same]
  · rfl

variable (context : RollContext) (slot : ℕ)

/-- The pools and representatives of a certificate have rows of their own. -/
theorem filter_cert_mir {order : ℕ} (dormancy : DormancyContext) {cert : MultiEraCert}
    (fits : CertFits context slot order cert) :
    (certDeltas context slot order dormancy cert).filter
        (fun delta => key delta = PendingMirState.nsKey credential) =
      mirDeltas credential (AccountVisitor.mirOverwrites context)
        ((cert.asMirCertificate.map (MoveInstantaneousReward.entriesOf credential)).getD []) := by
  have isMir : (ofLex (PendingMirState.nsKey credential)).1 = Namespace.pendingMirs := rfl
  have visited := (eq_ok_iff_valueOr []).mpr ⟨fits.1, rfl⟩
  rcases accountCert_spec context slot order visited with ⟨own, within, deltasEq⟩
  rw [certDeltas, List.filter_append, List.filter_append,
    (within_drepCert context slot order dormancy cert).filter_eq_nil isMir,
    (within_poolCert context slot cert).filter_eq_nil isMir, deltasEq, List.filter_append,
    within.filter_eq_nil isMir]
  cases cert.asMirCertificate with
  | none => rfl
  | some mir => simp [filter_enqueueMirs]

variable [AssetDigest] (utxos : UtxoMap MultiEraOutput)

theorem filter_tx_mir (dormancy : DormancyContext) {tx : MultiEraTx × ℕ}
    (fits : TxFits context slot utxos tx) :
    (txDeltas context slot utxos dormancy tx).filter
        (fun delta => key delta = PendingMirState.nsKey credential) =
      mirDeltas credential (AccountVisitor.mirOverwrites context)
        (tx.1.mirEntries credential) := by
  have isMir : (ofLex (PendingMirState.nsKey credential)).1 = Namespace.pendingMirs := rfl
  simp only [txDeltas, List.filter_append,
    (within_drepTx context slot tx.1 dormancy).filter_eq_nil isMir,
    (within_inputs utxos tx.1).filter_eq_nil isMir,
    (within_outputs context tx.1 _).filter_eq_nil isMir, List.nil_append]
  unfold MultiEraTx.mirEntries
  split_ifs with valid
  · have certs := (fits.body valid).1
    have outside : ∀ {spaces : List Namespace} {deltas : List CardanoDelta},
        Within spaces deltas → Namespace.pendingMirs ∉ spaces →
          deltas.filter (fun delta => key delta = PendingMirState.nsKey credential) = [] :=
      fun within notIn => within.filter_eq_nil isMir notIn
    have mints : (tx.1.mints.flatMap (AssetStateVisitor.visitMint slot tx.1)).filter
        (fun delta => key delta = PendingMirState.nsKey credential) = [] :=
      outside (Within.flatMap fun mint _ => within_mint slot tx.1 mint) (by decide)
    have withdrawals : (tx.1.withdrawals.flatMap fun withdrawal =>
        valueOr [] (AccountVisitor.visitWithdrawal withdrawal)).filter
          (fun delta => key delta = PendingMirState.nsKey credential) = [] :=
      outside (Within.flatMap fun withdrawal _ => within_accountWithdrawal withdrawal) (by decide)
    have update := (within_update context slot tx.1.hash tx.1.update).filter_eq_nil isMir
    have proposals : (tx.1.govProposals.zipIdx.flatMap
        (proposalDeltas context slot tx.1.hash)).filter
          (fun delta => key delta = PendingMirState.nsKey credential) = [] :=
      outside (Within.flatMap fun proposal _ => within_proposal context slot tx.1.hash proposal)
        (by decide)
    simp only [bodyDeltas, List.filter_append, mints, withdrawals, update, proposals,
      List.nil_append, List.append_nil, List.filter_flatMap, mirDeltas, List.map_flatMap]
    apply List.flatMap_congr
    intro cert isCert
    exact filter_cert_mir context slot _ (certs cert isCert)
  · rfl

theorem filter_txs_mir (dormancy : DormancyContext) {txs : List (MultiEraTx × ℕ)}
    (fits : ∀ tx ∈ txs, TxFits context slot utxos tx) :
    (txsDeltas context slot utxos dormancy txs).filter
        (fun delta => key delta = PendingMirState.nsKey credential) =
      mirDeltas credential (AccountVisitor.mirOverwrites context)
        (txs.flatMap fun tx => tx.1.mirEntries credential) := by
  induction txs generalizing dormancy with
  | nil => rfl
  | cons tx rest ih =>
      have later := fun other member => fits other (List.mem_cons_of_mem tx member)
      rw [txsDeltas, List.filter_append, ih _ later,
        filter_tx_mir context slot utxos _ (fits tx List.mem_cons_self)]
      simp [mirDeltas]

/-- The group of the row in a block is what the certificates of the block have for the
credential, in their order. -/
theorem filter_block_mir (dormancy : DormancyContext) {block : DecodedBlock}
    (fits : BlockFits context utxos block) :
    (blockDeltas context utxos dormancy block).filter
        (fun delta => key delta = PendingMirState.nsKey credential) =
      mirDeltas credential (AccountVisitor.mirOverwrites context)
        (block.txs.flatMap (MultiEraTx.mirEntries credential)) := by
  have isMir : (ofLex (PendingMirState.nsKey credential)).1 = Namespace.pendingMirs := rfl
  have ofTxs : (block.txs.zipIdx.flatMap fun tx => tx.1.mirEntries credential) =
      block.txs.flatMap (MultiEraTx.mirEntries credential) := by
    rw [← List.flatMap_map, List.zipIdx_map_fst]
  rw [blockDeltas_eq]
  simp only [List.filter_append, filter_txs_mir context block.slot utxos dormancy fits.txs, ofTxs,
    (within_poolRoot context block).filter_eq_nil isMir,
    (within_update context block.slot block.hash block.update).filter_eq_nil isMir,
    (within_kept context utxos block).filter_eq_nil isMir,
    (within_nonces block).filter_eq_nil isMir,
    (within_votes block).filter_eq_nil isMir, List.nil_append, List.append_nil]

end Emitted

section Runs

variable [NonceCrypto] {credential : StakeCredential}

/-- The deltas leave the row as the entries do. -/
theorem runAll_mirDeltas (overwrite : Bool) (entries : List MirEntry)
    (row : Option PendingMirState) :
    runAll effect (mirDeltas credential overwrite entries) (row.map CardanoEntity.pendingMir) =
      .ok ((enqueueAll credential overwrite entries row).map CardanoEntity.pendingMir) := by
  induction entries generalizing row with
  | nil => rfl
  | cons entry rest ih =>
      have step : effect (CardanoDelta.enqueueMir (entry.delta credential overwrite))
          (row.map CardanoEntity.pendingMir) =
            .ok ((some ((entry.delta credential overwrite).enqueued row)).map
              CardanoEntity.pendingMir) := by
        cases row <;> rfl
      rw [mirDeltas, List.map_cons, runAll, step, ok_bind]
      exact ih _

/-- The parameters in force, by the row of the epoch. -/
def ParamsAt (held : Option CardanoEntity) (params : PParamsSet) : Prop :=
  ∃ epoch, held = some (.epoch epoch) ∧ epoch.pparams.unwrapLive = .ok params

omit [NonceCrypto] in
theorem loadEffectivePparams_iff {entities : OrderedMap NsKey CardanoEntity}
    {params : PParamsSet} :
    loadEffectivePparams entities = .ok params ↔
      ParamsAt (entities.get? EpochState.nsKey) params := by
  unfold loadEffectivePparams loadEpoch ParamsAt
  split
  · rename_i epoch held
    simp [held, mapError_eq_ok]
  · rename_i other held
    simp only [error_bind, reduceCtorEq, false_iff, not_exists, not_and]
    intro epoch isEpoch
    rw [held] at isEpoch
    exact absurd (Option.some.inj isEpoch) (by simpa using other epoch)
  · rename_i absent
    simp [absent]

/-- The blocks of an epoch do not touch its parameters. -/
theorem ParamsAt.kept {held after : Option CardanoEntity} {params : PParamsSet}
    {delta : CardanoDelta} (inForce : ParamsAt held params)
    (isEpoch : key delta = EpochState.nsKey) (done : effect delta held = .ok after) :
    ParamsAt after params := by
  rcases inForce with ⟨epoch, rfl, live⟩
  rcases effect_eq_ok.mp done with ⟨applied, appliedEq⟩
  cases delta with
  | epochStatsUpdate delta =>
      rcases bind_eq_ok.mp appliedEq with ⟨⟨filled, reached⟩, inner, same⟩
      rcases bind_eq_ok.mp inner with ⟨state, stateEq, rest⟩
      rcases bind_eq_ok.mp rest with ⟨⟨again, rolling⟩, -, isReached⟩
      cases stateEq
      cases isReached
      cases same
      exact ⟨_, rfl, live⟩
  | noncesUpdate delta =>
      rcases bind_eq_ok.mp appliedEq with ⟨⟨filled, reached⟩, inner, same⟩
      cases same
      cases nonces : epoch.nonces with
      | none =>
          have reachedEq : (delta, some epoch) = (filled, reached) := by
            simpa [apply, EntityVariant.project, nonces] using inner
          cases reachedEq
          exact ⟨_, rfl, live⟩
      | some held =>
          simp only [apply, Option.bind_some, EntityVariant.project, nonces, Except.ok.injEq,
            Prod.mk.injEq] at inner
          rw [← inner.2]
          exact ⟨_, rfl, live⟩
  | _ => cases congrArg (fun index : NsKey => (ofLex index).1) isEpoch

theorem ParamsAt.ran {held after : Option CardanoEntity} {params : PParamsSet}
    {deltas : List CardanoDelta} (inForce : ParamsAt held params)
    (ofEpoch : ∀ delta ∈ deltas, key delta = EpochState.nsKey)
    (done : runAll effect deltas held = .ok after) : ParamsAt after params := by
  induction deltas generalizing held with
  | nil =>
      rcases Except.ok.inj done with rfl
      exact inForce
  | cons delta rest ih =>
      rcases bind_eq_ok.mp done with ⟨next, step, later⟩
      exact ih (inForce.kept (ofEpoch delta List.mem_cons_self) step)
        (fun other member => ofEpoch other (List.mem_cons_of_mem _ member)) later

variable [AssetDigest]

/-- What the store has for a credential and the parameters it goes by. -/
structure Holds (credential : StakeCredential) (params : PParamsSet)
    (row : Option PendingMirState) (values : NsKey → Option CardanoEntity) : Prop where
  row : values (PendingMirState.nsKey credential) = row.map .pendingMir
  inForce : ParamsAt (values EpochState.nsKey) params

omit [NonceCrypto] [AssetDigest] in
/-- The rule of the era, as the visitor has it. -/
def overwrites (params : PParamsSet) : Bool := params.protocolMajor.getD 0 < 5

theorem Holds.applies {context : RollContext} {utxos : UtxoMap MultiEraOutput}
    {dormancy : DormancyContext} {blocks : List DecodedBlock} {row : Option PendingMirState}
    {before after : NsKey → Option CardanoEntity}
    (holds : Holds credential context.activeParams row before)
    (applies : AppliesAll context utxos dormancy blocks before after) :
    Holds credential context.activeParams
      (enqueueAll credential (overwrites context.activeParams)
        ((blocks.flatMap DecodedBlock.txs).flatMap (MultiEraTx.mirEntries credential)) row)
      after := by
  induction blocks generalizing dormancy before row with
  | nil =>
      rw [show after = before from applies]
      exact holds
  | cons block rest ih =>
      rcases applies with ⟨next, head, later⟩
      have groups := (runOn_eq_ok_iff key effect).mp head.ran
      have mirs := groups (PendingMirState.nsKey credential)
      rw [filter_block_mir context utxos dormancy head.fits, holds.row, runAll_mirDeltas] at mirs
      have inForce := holds.inForce.ran (fun delta member => by
        simpa using (List.mem_filter.mp member).2) (groups EpochState.nsKey)
      have reached := ih ⟨(Except.ok.inj mirs).symm, inForce⟩ later
      simpa [enqueueAll, overwrites, AccountVisitor.mirOverwrites] using reached

theorem Holds.rolled {cache : RollCache} {stores after : LedgerStores MultiEraOutput}
    {batch : WorkBatch DecodedBlock} {params : PParamsSet} {row : Option PendingMirState}
    (holds : Holds credential params row stores.entities.get?)
    (rolled : cache.roll stores batch = .ok after) :
    Holds credential params
      (enqueueAll credential (overwrites params)
        ((batchTxs batch).flatMap (MultiEraTx.mirEntries credential)) row)
      after.entities.get? := by
  rcases roll_iff.mp ⟨after, rolled, rfl⟩ with
    ⟨-, ⟨first, context, dormancy, -, contextEq, -, applies⟩, -, -⟩
  rcases bind_eq_ok.mp contextEq with ⟨_, -, rest⟩
  rcases bind_eq_ok.mp rest with ⟨_, -, rest⟩
  rcases bind_eq_ok.mp rest with ⟨_, -, rest⟩
  rcases bind_eq_ok.mp rest with ⟨loaded, loadedEq, isContext⟩
  have sameParams : loaded = params := by
    have again := loadEffectivePparams_iff.mpr holds.inForce
    exact Except.ok.inj (loadedEq.symm.trans again)
  subst sameParams
  cases isContext
  exact Holds.applies holds applies

/-- A run within an epoch: batches, and between them units that leave what is pending and the
parameters in force as they are. -/
inductive EpochRun : LedgerStores MultiEraOutput → List (WorkBatch DecodedBlock) →
    LedgerStores MultiEraOutput → Prop
  | done {stores : LedgerStores MultiEraOutput} : EpochRun stores [] stores
  | rolled {cache : RollCache} {stores next final : LedgerStores MultiEraOutput}
      {batch : WorkBatch DecodedBlock} {batches : List (WorkBatch DecodedBlock)} :
      cache.roll stores batch = .ok next → EpochRun next batches final →
        EpochRun stores (batch :: batches) final
  | other {stores next final : LedgerStores MultiEraOutput}
      {batches : List (WorkBatch DecodedBlock)} :
      (∀ index, (ofLex index).1 = .pendingMirs →
        next.entities.get? index = stores.entities.get? index) →
        loadEffectivePparams next.entities = loadEffectivePparams stores.entities →
        EpochRun next batches final → EpochRun stores batches final

theorem Holds.ran {stores final : LedgerStores MultiEraOutput}
    {batches : List (WorkBatch DecodedBlock)} {params : PParamsSet} {row : Option PendingMirState}
    (holds : Holds credential params row stores.entities.get?)
    (run : EpochRun stores batches final) :
    Holds credential params
      (enqueueAll credential (overwrites params)
        ((rolledTxs batches).flatMap (MultiEraTx.mirEntries credential)) row)
      final.entities.get? := by
  induction run generalizing row with
  | done => exact holds
  | rolled rolled _ ih =>
      have reached := ih (holds.rolled rolled)
      simpa [enqueueAll, rolledTxs] using reached
  | other samePending sameParams _ ih =>
      apply ih
      refine ⟨?_, ?_⟩
      · rw [samePending _ rfl]
        exact holds.row
      · rw [← loadEffectivePparams_iff, sameParams, loadEffectivePparams_iff]
        exact holds.inForce

omit [AssetDigest] in
theorem MirKeyed.ran {index : NsKey} {held after : Option CardanoEntity}
    {deltas : List CardanoDelta} (keyed : MirKeyed index held)
    (isMir : (ofLex index).1 = .pendingMirs) (ofIndex : ∀ delta ∈ deltas, key delta = index)
    (done : runAll effect deltas held = .ok after) : MirKeyed index after := by
  induction deltas generalizing held with
  | nil =>
      rcases Except.ok.inj done with rfl
      exact keyed
  | cons delta rest ih =>
      rcases bind_eq_ok.mp done with ⟨next, step, later⟩
      refine ih ?_ (fun other member => ofIndex other (List.mem_cons_of_mem _ member)) later
      have isIndex := ofIndex delta List.mem_cons_self
      subst isIndex
      rcases effect_eq_ok.mp step with ⟨applied, appliedEq⟩
      cases delta with
      | enqueueMir delta =>
          have appliedIs : apply (CardanoDelta.enqueueMir delta) held =
              .ok (.enqueueMir { delta with prev := held.bind EntityVariant.project },
                some (.pendingMir (delta.enqueued (held.bind EntityVariant.project)))) := rfl
          cases appliedEq.symm.trans appliedIs
          rintro entity isEntity
          rcases Option.some.inj isEntity with rfl
          refine ⟨_, rfl, ?_⟩
          cases held with
          | none => cases delta.overwrite <;> rfl
          | some entity =>
              rcases keyed entity rfl with ⟨state, rfl, isKey⟩
              unfold EnqueueMir.enqueued
              split
              · rename_i existing _ found _
                cases found
                exact isKey
              · rfl
      | _ => cases isMir

theorem mirsKeyed_applies {context : RollContext} {utxos : UtxoMap MultiEraOutput}
    {dormancy : DormancyContext} {blocks : List DecodedBlock}
    {before after : NsKey → Option CardanoEntity} (keyed : MirsKeyed before)
    (applies : AppliesAll context utxos dormancy blocks before after) : MirsKeyed after := by
  induction blocks generalizing dormancy before with
  | nil =>
      rw [show after = before from applies]
      exact keyed
  | cons block rest ih =>
      rcases applies with ⟨next, head, later⟩
      refine ih ?_ later
      intro index isMir
      exact MirKeyed.ran (keyed index isMir) isMir (fun delta member => by
        simpa using (List.mem_filter.mp member).2)
        ((runOn_eq_ok_iff key effect).mp head.ran index)

theorem EpochRun.mirsKeyed {stores final : LedgerStores MultiEraOutput}
    {batches : List (WorkBatch DecodedBlock)} (run : EpochRun stores batches final)
    (keyed : MirsKeyed stores.entities.get?) : MirsKeyed final.entities.get? := by
  induction run with
  | done => exact keyed
  | rolled rolled _ ih =>
      rcases roll_iff.mp ⟨_, rolled, rfl⟩ with ⟨-, ⟨_, _, _, -, -, -, applies⟩, -, -⟩
      exact ih (mirsKeyed_applies keyed applies)
  | other samePending _ _ ih =>
      apply ih
      intro index isMir
      rw [samePending index isMir]
      exact keyed index isMir

/-- The first state of an epoch: what is pending at its end is taken by the boundary, which
may do anything else besides. -/
inductive EpochStart : LedgerStores MultiEraOutput → Prop
  | genesis {stores : LedgerStores MultiEraOutput} :
      NothingPending stores.entities.get? → EpochStart stores
  | crossed {start ended stores : LedgerStores MultiEraOutput}
      {batches : List (WorkBatch DecodedBlock)} :
      EpochStart start → EpochRun start batches ended →
        (∀ index, (ofLex index).1 = .pendingMirs → stores.entities.get? index =
          ((MirTally.processPendingMirs ended.entities).deleteMirs ended.entities).get? index) →
          EpochStart stores

theorem EpochStart.nothingPending {stores : LedgerStores MultiEraOutput}
    (start : EpochStart stores) : NothingPending stores.entities.get? := by
  induction start with
  | genesis nothing => exact nothing
  | crossed _ run taken ih =>
      have keyed := run.mirsKeyed ih.keyed
      intro index isMir
      rw [taken index isMir]
      exact MirTally.nothingPending_deleteMirs keyed index isMir

omit [NonceCrypto] [AssetDigest] in
def pendingIn (entities : OrderedMap NsKey CardanoEntity) (credential : StakeCredential)
    (source : InstantaneousRewardSource) : UInt64 :=
  pending (readEntityTyped entities PendingMirState credential.key) source

/-- At the end of an epoch each pot of a credential holds what the ledger has for it, with no
certificate of the other pot in between, exactly when the certificates are orderly. -/
theorem mir_queue_law_iff {stores final : LedgerStores MultiEraOutput}
    {batches : List (WorkBatch DecodedBlock)} {params : PParamsSet} {entries : List MirEntry}
    (start : EpochStart stores) (inForce : loadEffectivePparams stores.entities = .ok params)
    (run : EpochRun stores batches final)
    (isEntries : entries = (rolledTxs batches).flatMap (MultiEraTx.mirEntries credential))
    (words : ∀ entry ∈ entries, entry.IsWord) :
    ((∀ source, ((pendingIn final.entities credential source).toNat : ℤ) =
        ledgerPending (overwrites params) (ofPot source entries)) ∧
      ∀ done entry later, entries = done ++ entry :: later → ∀ source ≠ entry.source,
        pending (enqueueAll credential (overwrites params) (done ++ [entry]) none) source =
          pending (enqueueAll credential (overwrites params) done none) source) ↔
      Orderly (overwrites params) entries := by
  have holds : Holds credential params none stores.entities.get? :=
    ⟨start.nothingPending _ rfl, loadEffectivePparams_iff.mp inForce⟩
  have reached := (holds.ran run).row
  rw [← isEntries] at reached
  have row : readEntityTyped final.entities PendingMirState credential.key =
      enqueueAll credential (overwrites params) entries none := by
    change (final.entities.get? (PendingMirState.nsKey credential)).bind EntityVariant.project = _
    rw [reached]
    exact EntityVariant.bind_project_map_inject _
  simp only [pendingIn, row]
  rw [← potByPot_iff words]
  exact ⟨fun law => ⟨law.1, law.2⟩, fun law => ⟨law.folded, law.apart⟩⟩

end Runs

end MirQueue

namespace TwoPots

attribute [local instance] Devnet.digest NonceCrypto.still

open MirQueue

def credential : StakeCredential := .addrKeyhash 7

def moving (source : InstantaneousRewardSource) (amount : ℤ) : MultiEraCert :=
  .alonzoCompatible (.moveInstantaneousRewardsCert
    ⟨source, .stakeCredentials [(credential, amount)]⟩)

def stores : LedgerStores MultiEraOutput := Devnet.stores 0 [] []

def batch (certs : List MultiEraCert) : WorkBatch DecodedBlock :=
  .forSingleBlock (Devnet.block 1 11 none [{ Devnet.transfer 2 [] [] with certs := certs }])

def params : PParamsSet := ⟨[⟨.drepInactivityPeriod, .amount 20⟩]⟩

theorem start : EpochStart stores := by
  refine .genesis ?_
  intro index isMir
  apply OrderedMap.get?_insertAll_of_notMem
  simp only [List.map_cons, List.map_nil, List.mem_cons, List.not_mem_nil, or_false, not_or]
  constructor
  · rintro rfl
    cases isMir
  · rintro rfl
    cases isMir

def crossed : List (WorkBatch DecodedBlock) := [batch [moving .reserves 5, moving .treasury 3]]

theorem entries_crossed : (rolledTxs crossed).flatMap (MultiEraTx.mirEntries credential) =
    [⟨.reserves, 5⟩, ⟨.treasury, 3⟩] := by
  simp [rolledTxs, batchTxs, crossed, batch, Devnet.block, Devnet.transfer, MultiEraTx.mirEntries,
    moving, MultiEraCert.asMirCertificate, MoveInstantaneousReward.entriesOf]

/-- What the reserves have for the credential is lost when the treasury has more for it. -/
theorem other_pot_lost :
    EpochStart stores ∧ loadEffectivePparams stores.entities = .ok params ∧
      ∃ final, Devnet.cache.rollAll stores crossed = .ok final ∧
        pendingIn final.entities credential .reserves = 0 ∧
          ledgerPending (overwrites params) (ofPot .reserves
            ((rolledTxs crossed).flatMap (MultiEraTx.mirEntries credential))) = 5 := by
  have evaluated : (fun final : LedgerStores MultiEraOutput =>
      pendingIn final.entities credential .reserves) <$>
        Devnet.cache.rollAll stores crossed = .ok 0 := by
    decide +kernel
  rcases map_eq_ok.mp evaluated with ⟨final, ran, none⟩
  exact ⟨start, rfl, final, ran, none, by rw [entries_crossed]; decide⟩

def first : WorkBatch DecodedBlock := batch [moving .treasury 0, moving .reserves 2]

def second : WorkBatch DecodedBlock :=
  .forSingleBlock (Devnet.block 2 12 (some 11)
    [{ Devnet.transfer 3 [] [] with certs := [moving .reserves 5] }])

/-- A reward update has come in between, with a reward for the credential. -/
def updated (reached : LedgerStores MultiEraOutput) : LedgerStores MultiEraOutput :=
  { reached with
    entities := reached.entities.insert (PendingRewardState.nsKey credential)
      (.pendingReward ⟨credential, true, [], [(7, 5)]⟩) }

theorem entries_apart : (rolledTxs [first, second]).flatMap (MultiEraTx.mirEntries credential) =
    [⟨.treasury, 0⟩, ⟨.reserves, 2⟩, ⟨.reserves, 5⟩] := by
  simp [rolledTxs, batchTxs, first, second, batch, Devnet.block, Devnet.transfer,
    MultiEraTx.mirEntries, moving, MultiEraCert.asMirCertificate,
    MoveInstantaneousReward.entriesOf]

/-- The last amount of the reserves is pending after both batches. -/
theorem mir_queue_law_iff_apart :
    ∃ reached final, Devnet.cache.roll stores first = .ok reached ∧
      Devnet.cache.roll (updated reached) second = .ok final ∧
      ((pendingIn final.entities credential .reserves).toNat : ℤ) = 5 := by
  have evaluated : ((fun _ => ()) <$> do
      let reached ← Devnet.cache.roll stores first
      Devnet.cache.roll (updated reached) second) = .ok () := by
    decide +kernel
  rcases map_eq_ok.mp evaluated with ⟨final, ran, -⟩
  rcases bind_eq_ok.mp ran with ⟨reached, rolledFirst, rolledSecond⟩
  refine ⟨reached, final, rolledFirst, rolledSecond, ?_⟩
  have run : EpochRun stores [first, second] final := by
    refine .rolled rolledFirst (.other ?_ ?_ (.rolled rolledSecond .done))
    · intro index isMir
      rw [updated, OrderedMap.get?_insert, if_neg]
      rintro rfl
      cases isMir
    · rw [loadEffectivePparams, loadEffectivePparams, loadEpoch, loadEpoch, updated,
        OrderedMap.get?_insert, if_neg (by decide)]
  have words : ∀ entry ∈ (rolledTxs [first, second]).flatMap (MultiEraTx.mirEntries credential),
      entry.IsWord := by
    rw [entries_apart]
    simp [MirEntry.IsWord]
  have orderly : Orderly (overwrites params)
      ((rolledTxs [first, second]).flatMap (MultiEraTx.mirEntries credential)) := by
    rw [entries_apart, Orderly, if_pos (by decide)]
    refine ⟨?_, ?_⟩
    · intro source entry found
      cases source <;> cases found <;> decide
    · intro done entry next later split other
      have len := congrArg List.length split
      rcases done with _ | ⟨head, _ | ⟨middle, rest⟩⟩
      · cases split
        decide
      · cases split
        exact absurd rfl other
      · simp only [List.length_cons, List.length_nil, List.length_append] at len
        omega
  rw [((mir_queue_law_iff start rfl run rfl words).mpr orderly).1 .reserves, entries_apart]
  decide

end TwoPots

end Dolos
