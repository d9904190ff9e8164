import Mathlib.Data.Finset.Card
import Dolos.Cardano.BlockRoll

/-!
# Datums and the outputs that refer to them

`roll/datums.rs` counts, for each datum, the outputs that refer to it by its hash. A
reference is added when the transaction that makes the output also carries the datum; one
is taken away whenever an output that refers to the hash is spent, whoever made it.

The count is right as long as no transaction spends an output that was made without its
datum, unless it spends all those that were made with it too: then there is nothing left
to be taken away by mistake.
-/

namespace Dolos

open Outcome Keyed EntityDelta CardanoDelta

section References

/-- An output in the set that refers to a datum. -/
def RefersTo (utxos : UtxoMap MultiEraOutput) (hash : BlockHash) (txo : TxoRef) : Prop :=
  (utxos.get? txo).bind MultiEraOutput.datum = some (.hash hash)

instance (utxos : UtxoMap MultiEraOutput) (hash : BlockHash) :
    DecidablePred (RefersTo utxos hash) := fun _ => inferInstanceAs (Decidable (_ = _))

namespace MultiEraTx

/-- The datum an output refers to is among those the transaction carries. -/
def Carries (tx : MultiEraTx) (output : MultiEraOutput) (hash : BlockHash) : Prop :=
  output.datum = some (.hash hash) ∧ ((DatumVisitor.visitTx tx).get? hash).isSome

instance (tx : MultiEraTx) (output : MultiEraOutput) (hash : BlockHash) :
    Decidable (tx.Carries output hash) := inferInstanceAs (Decidable (_ ∧ _))

/-- The outputs made together with one datum. -/
def madeWith (tx : MultiEraTx) (hash : BlockHash) : List TxoRef :=
  (tx.produces.filter fun output => tx.Carries output.2 hash).map fun output =>
    tx.view.txo output.1

/-- The outputs made together with their datums. -/
def witnessed (tx : MultiEraTx) : Finset TxoRef :=
  ((DatumVisitor.visitTx tx).keys.flatMap tx.madeWith).toFinset

end MultiEraTx

/-- The live outputs that were made together with their datums. -/
def carry (carried : Finset TxoRef) (tx : MultiEraTx) : Finset TxoRef :=
  (carried \ tx.consumes.toFinset) ∪ tx.witnessed

def carryAll (carried : Finset TxoRef) (txs : List MultiEraTx) : Finset TxoRef :=
  txs.foldl carry carried

/-- Those of them that refer to one datum. -/
def refs (utxos : UtxoMap MultiEraOutput) (carried : Finset TxoRef) (hash : BlockHash) :
    Finset TxoRef :=
  carried.filter (RefersTo utxos hash)

end References

section Counting

variable [NonceCrypto]

/-- A datum with a number of references: without any, it is not there. -/
def DatumAt (held : Option CardanoEntity) (count : ℕ) : Prop :=
  (count = 0 ∧ held = none) ∨ 0 < count ∧ ∃ bytes, held = some (.datum ⟨count, bytes⟩)

theorem effect_decrement {held : Option CardanoEntity} {count : ℕ} (counted : DatumAt held count)
    (hash : BlockHash) :
    ∃ after, effect (datumRefDecrement (.new hash)) held = .ok after ∧
      DatumAt after (count - 1) := by
  rcases counted with ⟨rfl, rfl⟩ | ⟨positive, bytes, rfl⟩
  · exact ⟨none, rfl, Or.inl ⟨rfl, rfl⟩⟩
  · have decremented : effect (datumRefDecrement (.new hash)) (some (.datum ⟨count, bytes⟩)) =
        .ok ((if count ≤ 1 then none else some ⟨count - 1, bytes⟩).map .datum) := rfl
    refine ⟨_, decremented, ?_⟩
    split_ifs with last
    · exact Or.inl ⟨by omega, rfl⟩
    · exact Or.inr ⟨by omega, bytes, rfl⟩

theorem effect_increment {held : Option CardanoEntity} {count : ℕ} (counted : DatumAt held count)
    (fits : count + 1 < 2 ^ 64) (hash : BlockHash) (bytes : List UInt8) :
    ∃ after, effect (datumRefIncrement (.new hash bytes)) held = .ok after ∧
      DatumAt after (count + 1) := by
  rcases counted with ⟨rfl, rfl⟩ | ⟨positive, held, rfl⟩
  · exact ⟨_, rfl, Or.inr ⟨by omega, _, rfl⟩⟩
  · have counts : saturatingAdd count 1 = count + 1 := by
      rw [saturatingAdd]
      omega
    refine ⟨some (.datum ⟨count + 1, held⟩), ?_, Or.inr ⟨by omega, held, rfl⟩⟩
    rw [← counts]
    rfl

theorem datumAt_of_decrements {held after : Option CardanoEntity} {count times : ℕ}
    {hash : BlockHash} (counted : DatumAt held count)
    (ran : runAll effect (List.replicate times (datumRefDecrement (.new hash))) held = .ok after) :
    DatumAt after (count - times) := by
  induction times generalizing held count with
  | zero =>
      rcases Except.ok.inj ran with rfl
      exact counted
  | succ earlier ih =>
      rcases effect_decrement counted hash with ⟨next, nextEq, nextCounted⟩
      rw [List.replicate_succ, runAll, nextEq, ok_bind] at ran
      have reached := ih nextCounted ran
      rwa [Nat.sub_sub, Nat.add_comm] at reached

theorem datumAt_of_increments {held after : Option CardanoEntity} {count : ℕ} {hash : BlockHash}
    {carried : List (List UInt8)} (counted : DatumAt held count)
    (fits : count + carried.length < 2 ^ 64)
    (ran : runAll effect (carried.map fun bytes => datumRefIncrement (.new hash bytes)) held =
      .ok after) :
    DatumAt after (count + carried.length) := by
  induction carried generalizing held count with
  | nil =>
      rcases Except.ok.inj ran with rfl
      exact counted
  | cons bytes rest ih =>
      rw [List.length_cons] at fits ⊢
      rcases effect_increment counted (by omega) hash bytes with ⟨next, nextEq, nextCounted⟩
      rw [List.map_cons, runAll, nextEq, ok_bind] at ran
      have reached := ih nextCounted (by omega) ran
      rwa [Nat.add_assoc, Nat.add_comm 1] at reached

end Counting

section Deltas

variable [NonceCrypto]

omit [NonceCrypto] in
theorem nsKey_eq_iff {first second : BlockHash} :
    DatumState.nsKey first = DatumState.nsKey second ↔ first = second := by
  simp [DatumState.nsKey]

omit [NonceCrypto] in
/-- Parts that keep at most one delta each. -/
theorem filter_flatMap_eq_map {ι : Type} {items : List ι} {added : ι → List CardanoDelta}
    {keep : CardanoDelta → Bool} {chosen : ι → Prop} [DecidablePred chosen]
    {kept : ι → CardanoDelta}
    (each : ∀ item, (added item).filter keep = if chosen item then [kept item] else []) :
    (items.flatMap added).filter keep = (items.filter fun item => chosen item).map kept := by
  induction items with
  | nil => rfl
  | cons item rest ih =>
      rw [List.flatMap_cons, List.filter_append, ih, each, List.filter_cons]
      by_cases isChosen : chosen item
      · simp [isChosen]
      · simp [isChosen]

/-- The references a transaction takes away. -/
theorem filter_decrements (utxos : UtxoMap MultiEraOutput) (refs : List TxoRef)
    (hash : BlockHash) :
    (refs.flatMap fun txo => ((utxos.get? txo).map DatumVisitor.visitInput).getD []).filter
        (fun delta => key delta = DatumState.nsKey hash) =
      List.replicate (refs.filter fun txo => RefersTo utxos hash txo).length
        (datumRefDecrement (.new hash)) := by
  rw [← List.map_const]
  apply filter_flatMap_eq_map
  intro txo
  cases held : utxos.get? txo with
  | none => simp [RefersTo, held]
  | some output =>
      have keyEq : ∀ other : BlockHash,
          key (datumRefDecrement (.new other)) = DatumState.nsKey other := fun _ => rfl
      cases datumIs : output.datum with
      | none => simp [RefersTo, held, DatumVisitor.visitInput, datumIs]
      | some datum =>
          cases datum with
          | data => simp [RefersTo, held, DatumVisitor.visitInput, datumIs]
          | hash other =>
              by_cases same : other = hash
              · simp [RefersTo, held, DatumVisitor.visitInput, datumIs, same, keyEq]
              · simp [RefersTo, held, DatumVisitor.visitInput, datumIs, same, keyEq, nsKey_eq_iff]

/-- The references it adds. -/
theorem filter_increments (tx : MultiEraTx) (hash : BlockHash) :
    ∃ carried : List (List UInt8), carried.length = (tx.madeWith hash).length ∧
      (tx.produces.flatMap fun output =>
        DatumVisitor.visitOutput (DatumVisitor.visitTx tx) output.2).filter
          (fun delta => key delta = DatumState.nsKey hash) =
        carried.map fun bytes => datumRefIncrement (.new hash bytes) := by
  let bytes := ((DatumVisitor.visitTx tx).get? hash).getD []
  refine ⟨(tx.produces.filter fun output => tx.Carries output.2 hash).map fun _ => bytes,
    by simp [MultiEraTx.madeWith], ?_⟩
  rw [List.map_map]
  apply filter_flatMap_eq_map
  intro output
  have keyEq : ∀ (other : BlockHash) (bytes : List UInt8),
      key (datumRefIncrement (.new other bytes)) = DatumState.nsKey other := fun _ _ => rfl
  cases datumIs : output.2.datum with
  | none => simp [MultiEraTx.Carries, DatumVisitor.visitOutput, datumIs]
  | some datum =>
      cases datum with
      | data => simp [MultiEraTx.Carries, DatumVisitor.visitOutput, datumIs]
      | hash other =>
          by_cases same : other = hash
          · subst same
            cases held : (DatumVisitor.visitTx tx).get? other with
            | none => simp [MultiEraTx.Carries, DatumVisitor.visitOutput, datumIs, held]
            | some found =>
                simp [MultiEraTx.Carries, DatumVisitor.visitOutput, datumIs, held, keyEq, bytes]
          · cases held : (DatumVisitor.visitTx tx).get? other with
            | none => simp [MultiEraTx.Carries, DatumVisitor.visitOutput, datumIs, held, same]
            | some found =>
                simp [MultiEraTx.Carries, DatumVisitor.visitOutput, datumIs, held, keyEq, same,
                  nsKey_eq_iff]

end Deltas

section Sets

theorem nodup_eraseDups {α : Type} [BEq α] [LawfulBEq α] (items : List α) :
    items.eraseDups.Nodup := by
  induction sized : items.length using Nat.strong_induction_on generalizing items with
  | _ size ih =>
      cases items with
      | nil => simp
      | cons head rest =>
          have shorter : (rest.filter fun item => !item == head).length < size := by
            have kept := List.length_filter_le (fun item => !item == head) rest
            rw [List.length_cons] at sized
            omega
          rw [List.eraseDups_cons, List.nodup_cons]
          refine ⟨?_, ih _ shorter _ rfl⟩
          simp

theorem MultiEraTx.nodup_consumes (tx : MultiEraTx) : tx.consumes.Nodup := nodup_eraseDups _

variable {utxos : UtxoMap MultiEraOutput} {carried : Finset TxoRef} {tx : MultiEraTx}

theorem mem_madeWith {hash : BlockHash} {txo : TxoRef} :
    txo ∈ tx.madeWith hash ↔
      ∃ output ∈ tx.produces, tx.Carries output.2 hash ∧ tx.view.txo output.1 = txo := by
  simp [MultiEraTx.madeWith, and_assoc]

theorem mem_witnessed {txo : TxoRef} :
    txo ∈ tx.witnessed ↔
      ∃ output ∈ tx.produces, (∃ hash, tx.Carries output.2 hash) ∧ tx.view.txo output.1 = txo := by
  simp only [MultiEraTx.witnessed, List.mem_toFinset, List.mem_flatMap, mem_madeWith]
  constructor
  · rintro ⟨hash, -, output, made, carries, rfl⟩
    exact ⟨output, made, ⟨hash, carries⟩, rfl⟩
  · rintro ⟨output, made, ⟨hash, carries⟩, rfl⟩
    exact ⟨hash, OrderedMap.mem_keys_iff.mpr carries.2, output, made, carries, rfl⟩

theorem mem_producedBy_view {output : ℕ × MultiEraOutput} (made : output ∈ tx.produces) :
    (tx.view.txo output.1, output.2) ∈ producedBy [tx.view] := by
  simp only [producedBy, List.flatMap_cons, List.flatMap_nil, List.append_nil, List.mem_map]
  exact ⟨output, made, rfl⟩

/-- What the transaction makes is there after it. -/
theorem get?_processTx_made (outputs : OutputsNew utxos [tx.view]) {output : ℕ × MultiEraOutput}
    (made : output ∈ tx.produces) :
    (processTx utxos tx.view).get? (tx.view.txo output.1) = some output.2 :=
  (OrderedMap.get?_insertAll_iff _ outputs.nodup).mpr (Or.inl (mem_producedBy_view made))

/-- What was there and was not spent still is. -/
theorem get?_processTx_kept (outputs : OutputsNew utxos [tx.view]) {txo : TxoRef}
    (held : (utxos.get? txo).isSome) (unspent : txo ∉ tx.consumes) :
    (processTx utxos tx.view).get? txo = utxos.get? txo := by
  rcases Option.isSome_iff_exists.mp held with ⟨body, bodyEq⟩
  rw [bodyEq]
  apply (OrderedMap.get?_insertAll_iff _ outputs.nodup).mpr
  right
  refine ⟨?_, ?_⟩
  · intro isKey
    rcases List.mem_map.mp isKey with ⟨⟨_, made⟩, isMade, rfl⟩
    rw [outputs.fresh _ made isMade] at bodyEq
    cases bodyEq
  · rw [OrderedMap.get?_eraseAll]
    exact (if_neg unspent).trans bodyEq

theorem refersTo_made (outputs : OutputsNew utxos [tx.view]) {output : ℕ × MultiEraOutput}
    (made : output ∈ tx.produces) {hash : BlockHash} :
    RefersTo (processTx utxos tx.view) hash (tx.view.txo output.1) ↔
      output.2.datum = some (.hash hash) := by
  rw [RefersTo, get?_processTx_made outputs made, Option.bind_some]

/-- The references after a transaction: those it leaves, and those it makes. -/
theorem refs_processTx (outputs : OutputsNew utxos [tx.view])
    (held : ∀ txo ∈ carried, (utxos.get? txo).isSome) (hash : BlockHash) :
    refs (processTx utxos tx.view) (carry carried tx) hash =
      (refs utxos carried hash \ tx.consumes.toFinset) ∪ (tx.madeWith hash).toFinset := by
  ext txo
  simp only [refs, carry, Finset.mem_filter, Finset.mem_union, Finset.mem_sdiff,
    List.mem_toFinset]
  have keptIff : txo ∈ carried → txo ∉ tx.consumes →
      (RefersTo (processTx utxos tx.view) hash txo ↔ RefersTo utxos hash txo) := by
    intro isCarried unspent
    rw [RefersTo, RefersTo, get?_processTx_kept outputs (held txo isCarried) unspent]
  have madeIff : txo ∈ tx.witnessed ∧ RefersTo (processTx utxos tx.view) hash txo ↔
      txo ∈ tx.madeWith hash := by
    rw [mem_witnessed, mem_madeWith]
    constructor
    · rintro ⟨⟨output, made, ⟨other, carries⟩, rfl⟩, refers⟩
      have datumIs := (refersTo_made outputs made).mp refers
      have same : other = hash := by simpa [carries.1] using datumIs
      exact ⟨output, made, same ▸ carries, rfl⟩
    · rintro ⟨output, made, carries, rfl⟩
      exact ⟨⟨output, made, ⟨hash, carries⟩, rfl⟩, (refersTo_made outputs made).mpr carries.1⟩
  rw [or_and_right, madeIff]
  constructor
  · rintro (⟨⟨isCarried, unspent⟩, refers⟩ | isMade)
    · exact Or.inl ⟨⟨isCarried, (keptIff isCarried unspent).mp refers⟩, unspent⟩
    · exact Or.inr isMade
  · rintro (⟨⟨isCarried, refers⟩, unspent⟩ | isMade)
    · exact Or.inl ⟨⟨isCarried, unspent⟩, (keptIff isCarried unspent).mpr refers⟩
    · exact Or.inr isMade

theorem card_refs_processTx (outputs : OutputsNew utxos [tx.view])
    (held : ∀ txo ∈ carried, (utxos.get? txo).isSome) (hash : BlockHash) :
    (refs (processTx utxos tx.view) (carry carried tx) hash).card =
      (refs utxos carried hash \ tx.consumes.toFinset).card + (tx.madeWith hash).length := by
  have nodup : (tx.madeWith hash).Nodup := by
    have indexes := outputs.indexes tx.view (List.mem_singleton.mpr rfl)
    have sublist := (List.filter_sublist (l := tx.produces)
      (p := fun output => tx.Carries output.2 hash)).map Prod.fst
    have chosen := (indexes.sublist sublist).map (f := tx.view.txo) ?_
    · rw [List.map_map] at chosen
      exact chosen
    · intro first second same
      exact (Prod.mk.inj same).2
  rw [refs_processTx outputs held, Finset.card_union_of_disjoint,
    List.toFinset_card_of_nodup nodup]
  rw [Finset.disjoint_left]
  intro txo isKept isMade
  rcases mem_madeWith.mp (List.mem_toFinset.mp isMade) with ⟨output, made, -, rfl⟩
  have present := held _ (Finset.mem_filter.mp (Finset.mem_sdiff.mp isKept).1).1
  rw [outputs.fresh _ _ (mem_producedBy_view made)] at present
  cases present

end Sets

section Runs

variable {utxos loaded : UtxoMap MultiEraOutput} {carried : Finset TxoRef}

/-- The store counts, for every datum, the live outputs made together with it. -/
structure DatumsCounted (datums : BlockHash → Option CardanoEntity)
    (utxos : UtxoMap MultiEraOutput) (carried : Finset TxoRef) : Prop where
  held : ∀ txo ∈ carried, (utxos.get? txo).isSome
  counts : ∀ hash, DatumAt (datums hash) (refs utxos carried hash).card

/-- Of the outputs that refer to a datum, a transaction spends only those made together
with it, or else all of those. -/
def SpendsWitnessed (utxos : UtxoMap MultiEraOutput) (carried : Finset TxoRef) (tx : MultiEraTx) :
    Prop :=
  ∀ hash, (∀ txo ∈ tx.consumes, RefersTo utxos hash txo → txo ∈ carried) ∨
    refs utxos carried hash ⊆ tx.consumes.toFinset

/-- Transactions that do so one after the other, while no count outgrows its field. -/
def AllSpendWitnessed : UtxoMap MultiEraOutput → Finset TxoRef → List MultiEraTx → Prop
  | _, _, [] => True
  | utxos, carried, tx :: rest =>
      SpendsWitnessed utxos carried tx ∧
        (∀ hash, (refs (processTx utxos tx.view) (carry carried tx) hash).card < 2 ^ 64) ∧
        AllSpendWitnessed (processTx utxos tx.view) (carry carried tx) rest

/-- What is taken away is what was counted. -/
theorem card_spent {tx : MultiEraTx} (spends : SpendsWitnessed utxos carried tx)
    (hash : BlockHash) :
    (refs utxos carried hash).card -
        (tx.consumes.filter fun txo => RefersTo utxos hash txo).length =
      (refs utxos carried hash \ tx.consumes.toFinset).card := by
  have nodup : (tx.consumes.filter fun txo => RefersTo utxos hash txo).Nodup :=
    (MultiEraTx.nodup_consumes tx).filter _
  rw [← List.toFinset_card_of_nodup nodup, Finset.card_sdiff]
  have counted : tx.consumes.toFinset ∩ refs utxos carried hash ⊆
      (tx.consumes.filter fun txo => RefersTo utxos hash txo).toFinset := by
    intro txo member
    simp only [refs, Finset.mem_inter, List.mem_toFinset, Finset.mem_filter] at member
    simpa using ⟨member.1, member.2.2⟩
  rcases spends hash with onlyCarried | allSpent
  · have same : (tx.consumes.filter fun txo => RefersTo utxos hash txo).toFinset =
        tx.consumes.toFinset ∩ refs utxos carried hash := by
      apply Finset.Subset.antisymm ?_ counted
      intro txo member
      simp only [List.mem_toFinset, List.mem_filter, decide_eq_true_eq] at member
      simp only [refs, Finset.mem_inter, List.mem_toFinset, Finset.mem_filter]
      exact ⟨member.1, onlyCarried txo member.1 member.2, member.2⟩
    rw [same]
  · rw [Finset.inter_eq_right.mpr allSpent] at counted ⊢
    have atLeast := Finset.card_le_card counted
    omega

variable [NonceCrypto]

theorem DatumsCounted.step {tx : MultiEraTx} {before after : BlockHash → Option CardanoEntity}
    (counted : DatumsCounted before utxos carried) (outputs : OutputsNew utxos [tx.view])
    (spends : SpendsWitnessed utxos carried tx)
    (fits : ∀ hash, (refs (processTx utxos tx.view) (carry carried tx) hash).card < 2 ^ 64)
    (agrees : ∀ txo ∈ tx.consumes, loaded.get? txo = utxos.get? txo)
    (ran : ∀ hash, runAll effect ((datumDeltas loaded tx).filter fun delta =>
      key delta = DatumState.nsKey hash) (before hash) = .ok (after hash)) :
    DatumsCounted after (processTx utxos tx.view) (carry carried tx) := by
  refine ⟨?_, ?_⟩
  · intro txo member
    rcases Finset.mem_union.mp member with isKept | isMade
    · rcases Finset.mem_sdiff.mp isKept with ⟨isCarried, unspent⟩
      rw [List.mem_toFinset] at unspent
      rw [get?_processTx_kept outputs (counted.held txo isCarried) unspent]
      exact counted.held txo isCarried
    · rcases mem_witnessed.mp isMade with ⟨output, made, -, rfl⟩
      rw [get?_processTx_made outputs made]
      rfl
  · intro hash
    have refersEq : (tx.consumes.filter fun txo => RefersTo loaded hash txo) =
        tx.consumes.filter fun txo => RefersTo utxos hash txo := by
      apply List.filter_congr
      intro txo spent
      have refersIff : RefersTo loaded hash txo ↔ RefersTo utxos hash txo := by
        rw [RefersTo, RefersTo, agrees txo spent]
      simp only [refersIff]
    have fitsHash := fits hash
    rw [card_refs_processTx outputs counted.held] at fitsHash ⊢
    rcases filter_increments tx hash with ⟨bytes, lengthEq, incrementsEq⟩
    have ranHash := ran hash
    rw [datumDeltas, List.filter_append, filter_decrements, incrementsEq, refersEq,
      runAll_append_iff] at ranHash
    rcases ranHash with ⟨middle, taken, added⟩
    have taken := datumAt_of_decrements (counted.counts hash) taken
    rw [card_spent spends] at taken
    rw [← lengthEq] at fitsHash ⊢
    exact datumAt_of_increments taken fitsHash added

omit [NonceCrypto] in
theorem allSpendWitnessed_append {first second : List MultiEraTx} :
    AllSpendWitnessed utxos carried (first ++ second) ↔
      AllSpendWitnessed utxos carried first ∧
        AllSpendWitnessed (processTxs utxos (first.map MultiEraTx.view)) (carryAll carried first)
          second := by
  induction first generalizing utxos carried with
  | nil => simp [AllSpendWitnessed, processTxs, carryAll]
  | cons tx rest ih =>
      rw [List.cons_append, AllSpendWitnessed, AllSpendWitnessed, ih, and_assoc, and_assoc]
      rfl

theorem DatumsCounted.run {txs : List MultiEraTx} {before after : BlockHash → Option CardanoEntity}
    (counted : DatumsCounted before utxos carried)
    (valid : ValidTxs utxos (txs.map MultiEraTx.view))
    (spends : AllSpendWitnessed utxos carried txs)
    (agrees : LoadedFor loaded utxos (txs.map MultiEraTx.view))
    (ran : ∀ hash, runAll effect ((txs.flatMap (datumDeltas loaded)).filter fun delta =>
      key delta = DatumState.nsKey hash) (before hash) = .ok (after hash)) :
    DatumsCounted after (processTxs utxos (txs.map MultiEraTx.view)) (carryAll carried txs) := by
  induction txs generalizing utxos carried before with
  | nil =>
      have same : before = after := by
        funext hash
        exact Except.ok.inj (ran hash)
      rw [← same]
      exact counted
  | cons tx rest ih =>
      have splits : ∀ hash, ∃ middle,
          runAll effect ((datumDeltas loaded tx).filter fun delta =>
            key delta = DatumState.nsKey hash) (before hash) = .ok middle ∧
          runAll effect ((rest.flatMap (datumDeltas loaded)).filter fun delta =>
            key delta = DatumState.nsKey hash) middle = .ok (after hash) := by
        intro hash
        have ranHash := ran hash
        rwa [List.flatMap_cons, List.filter_append, runAll_append_iff] at ranHash
      choose middle ranHead ranRest using splits
      rcases spends with ⟨spendsHead, fits, spendsRest⟩
      rw [List.map_cons, ← List.singleton_append] at valid
      have stepped := counted.step valid.left.outputs spendsHead fits agrees.1 ranHead
      exact ih stepped valid.right spendsRest agrees.2 ranRest

omit [NonceCrypto] in
theorem txsOf_view (blocks : List DecodedBlock) :
    txsOf (blocks.map DecodedBlock.view) =
      (blocks.flatMap DecodedBlock.txs).map MultiEraTx.view := by
  simp [txsOf, DecodedBlock.view, List.flatMap_map, List.map_flatMap]

variable [AssetDigest]

theorem DatumsCounted.applies {context : RollContext} {dormancy : DormancyContext}
    {blocks : List DecodedBlock} {before after : NsKey → Option CardanoEntity}
    (counted : DatumsCounted (fun hash => before (DatumState.nsKey hash)) utxos carried)
    (applies : AppliesAll context loaded dormancy blocks before after)
    (valid : ValidTxs utxos ((blocks.flatMap DecodedBlock.txs).map MultiEraTx.view))
    (spends : AllSpendWitnessed utxos carried (blocks.flatMap DecodedBlock.txs))
    (agrees : LoadedFor loaded utxos ((blocks.flatMap DecodedBlock.txs).map MultiEraTx.view)) :
    DatumsCounted (fun hash => after (DatumState.nsKey hash))
      (processTxs utxos ((blocks.flatMap DecodedBlock.txs).map MultiEraTx.view))
      (carryAll carried (blocks.flatMap DecodedBlock.txs)) := by
  induction blocks generalizing utxos carried dormancy before with
  | nil =>
      rw [show after = before from applies]
      exact counted
  | cons block rest ih =>
      rcases applies with ⟨next, headApplies, restApplies⟩
      rw [List.flatMap_cons] at valid spends agrees ⊢
      rw [List.map_append] at valid agrees ⊢
      rw [allSpendWitnessed_append] at spends
      rw [loadedFor_append] at agrees
      have ran : ∀ hash, runAll effect ((block.txs.flatMap (datumDeltas loaded)).filter fun delta =>
          key delta = DatumState.nsKey hash) (before (DatumState.nsKey hash)) =
            .ok (next (DatumState.nsKey hash)) := by
        intro hash
        rw [← filter_block_datum context loaded dormancy block hash]
        exact (runOn_eq_ok_iff key effect).mp headApplies.ran (DatumState.nsKey hash)
      have reached := counted.run valid.left spends.1 agrees.1 ran
      have final := ih reached restApplies valid.right spends.2 agrees.2
      rw [← processTxs_append] at final
      simpa [carryAll] using final

omit [NonceCrypto] [AssetDigest] in
/-- The transactions of a batch in the order they are rolled. -/
def batchTxs (batch : WorkBatch DecodedBlock) : List MultiEraTx :=
  (batch.blocks.mergeSort fun earlier later => earlier.slot ≤ later.slot).flatMap DecodedBlock.txs

omit [NonceCrypto] [AssetDigest] in
def rolledTxs (batches : List (WorkBatch DecodedBlock)) : List MultiEraTx :=
  batches.flatMap batchTxs

omit [NonceCrypto] [AssetDigest] in
def datumsOf (entities : OrderedMap NsKey CardanoEntity) (hash : BlockHash) :
    Option CardanoEntity :=
  entities.get? (DatumState.nsKey hash)

theorem DatumsCounted.rolled {cache : RollCache} {stores after : LedgerStores MultiEraOutput}
    {batch : WorkBatch DecodedBlock} (rolled : cache.roll stores batch = .ok after)
    (counted : DatumsCounted (datumsOf stores.entities) stores.utxos carried)
    (valid : ValidTxs stores.utxos ((batchTxs batch).map MultiEraTx.view))
    (spends : AllSpendWitnessed stores.utxos carried (batchTxs batch)) :
    after.utxos = processTxs stores.utxos ((batchTxs batch).map MultiEraTx.view) ∧
      DatumsCounted (datumsOf after.entities) after.utxos (carryAll carried (batchTxs batch)) := by
  rcases roll_iff.mp ⟨after, rolled, rfl⟩ with
    ⟨-, ⟨first, context, dormancy, -, -, -, applies⟩, utxosEq, -⟩
  have validBlocks := valid
  rw [batchTxs, ← txsOf_view] at validBlocks
  have agrees := loadedFor_loadUtxos validBlocks
  have reached : after.utxos = processTxs stores.utxos ((batchTxs batch).map MultiEraTx.view) := by
    rw [batchTxs, ← txsOf_view, ← advanceAll_eq_processTxs validBlocks]
    exact utxosEq
  rw [txsOf_view] at agrees
  refine ⟨reached, ?_⟩
  rw [reached]
  exact DatumsCounted.applies counted applies valid spends agrees

omit [NonceCrypto] [AssetDigest] in
/-- References that no transaction spends stay. -/
theorem refs_subset_processTxs {txs : List MultiEraTx} {hash : BlockHash}
    (valid : ValidTxs utxos (txs.map MultiEraTx.view))
    (held : ∀ txo ∈ carried, (utxos.get? txo).isSome)
    (unspent : ∀ txo ∈ refs utxos carried hash, ∀ tx ∈ txs, txo ∉ tx.consumes) :
    refs utxos carried hash ⊆
      refs (processTxs utxos (txs.map MultiEraTx.view)) (carryAll carried txs) hash := by
  intro txo member
  rcases Finset.mem_filter.mp member with ⟨isCarried, refers⟩
  have stays := unspent txo member
  have present := held txo isCarried
  clear unspent held member
  induction txs generalizing utxos carried with
  | nil => exact Finset.mem_filter.mpr ⟨isCarried, refers⟩
  | cons tx rest ih =>
      rw [List.map_cons, ← List.singleton_append] at valid
      have kept := get?_processTx_kept valid.left.outputs present (stays tx List.mem_cons_self)
      apply ih valid.right
      · apply Finset.mem_union_left
        simpa using ⟨isCarried, stays tx List.mem_cons_self⟩
      · change RefersTo (processTx utxos tx.view) hash txo
        rwa [RefersTo, kept]
      · intro later member
        exact stays later (List.mem_cons_of_mem tx member)
      · change ((processTx utxos tx.view).get? txo).isSome
        rwa [kept]

omit [NonceCrypto] [AssetDigest] in
/-- The count the store has for a datum. -/
def refcountOf (entities : OrderedMap NsKey CardanoEntity) (hash : BlockHash) : ℕ :=
  match datumsOf entities hash with
  | some (.datum datum) => datum.refcount
  | _ => 0

omit [NonceCrypto] [AssetDigest] in
theorem DatumsCounted.refcountOf_eq {entities : OrderedMap NsKey CardanoEntity}
    (counted : DatumsCounted (datumsOf entities) utxos carried) (hash : BlockHash) :
    refcountOf entities hash = (refs utxos carried hash).card := by
  rcases counted.counts hash with ⟨none, absent⟩ | ⟨-, bytes, present⟩
  · rw [refcountOf, absent, none]
  · rw [refcountOf, present]

omit [NonceCrypto] [AssetDigest] in
/-- Datums with live references made together with them are there, with their number. -/
def RefcountsHold (entities : OrderedMap NsKey CardanoEntity) (utxos : UtxoMap MultiEraOutput)
    (carried : Finset TxoRef) : Prop :=
  ∀ hash, (refs utxos carried hash).Nonempty →
    ∃ datum, datumsOf entities hash = some (.datum datum) ∧
    datum.refcount = (refs utxos carried hash).card

omit [NonceCrypto] [AssetDigest] in
theorem DatumsCounted.refcountsHold {entities : OrderedMap NsKey CardanoEntity}
    (counted : DatumsCounted (datumsOf entities) utxos carried) :
    RefcountsHold entities utxos carried := by
  intro hash referred
  have positive := Finset.card_pos.mpr referred
  rcases counted.counts hash with ⟨none, -⟩ | ⟨-, bytes, present⟩
  · omega
  · exact ⟨_, present, rfl⟩

omit [NonceCrypto] [AssetDigest] in
/-- The counts look only at the datums and at the outputs made together with them. -/
theorem DatumsCounted.of_kept {datums others : BlockHash → Option CardanoEntity}
    {left : UtxoMap MultiEraOutput} (counted : DatumsCounted datums utxos carried)
    (sameDatums : ∀ hash, others hash = datums hash)
    (sameOutputs : ∀ txo ∈ carried, left.get? txo = utxos.get? txo) :
    DatumsCounted others left carried := by
  refine ⟨?_, ?_⟩
  · intro txo member
    rw [sameOutputs txo member]
    exact counted.held txo member
  · intro hash
    have sameRefs : refs left carried hash = refs utxos carried hash := by
      apply Finset.filter_congr
      intro txo member
      rw [RefersTo, RefersTo, sameOutputs txo member]
    rw [sameDatums, sameRefs]
    exact counted.counts hash

/-- The states that batches of valid transactions lead to, each batch in its own epoch, with the
outputs made together with their datum. Units that come between leave the datums and those
outputs alone. -/
inductive DatumRun : LedgerStores MultiEraOutput → Finset TxoRef → Prop
  | start {stores : LedgerStores MultiEraOutput} {carried : Finset TxoRef} :
      DatumsCounted (datumsOf stores.entities) stores.utxos carried → DatumRun stores carried
  | rolled {cache : RollCache} {stores next : LedgerStores MultiEraOutput}
      {carried : Finset TxoRef} {batch : WorkBatch DecodedBlock} :
      DatumRun stores carried → cache.roll stores batch = .ok next →
        ValidTxs stores.utxos ((batchTxs batch).map MultiEraTx.view) →
        AllSpendWitnessed stores.utxos carried (batchTxs batch) →
        DatumRun next (carryAll carried (batchTxs batch))
  | other {stores next : LedgerStores MultiEraOutput} {carried : Finset TxoRef} :
      DatumRun stores carried →
        (∀ hash, datumsOf next.entities hash = datumsOf stores.entities hash) →
        (∀ txo ∈ carried, next.utxos.get? txo = stores.utxos.get? txo) → DatumRun next carried

theorem DatumRun.counted {stores : LedgerStores MultiEraOutput} (run : DatumRun stores carried) :
    DatumsCounted (datumsOf stores.entities) stores.utxos carried := by
  induction run with
  | start counted => exact counted
  | rolled _ rolled valid spends ih => exact (ih.rolled rolled valid spends).2
  | other _ sameDatums sameOutputs ih => exact ih.of_kept sameDatums sameOutputs

/-- While outputs made without their datum are spent only together with all those made
with it, every state of a run has the right counts, and a batch that spends others does not
lower them. -/
theorem refcounts_hold_along_run {stores : LedgerStores MultiEraOutput}
    (run : DatumRun stores carried) :
    RefcountsHold stores.entities stores.utxos carried ∧
      ∀ (cache : RollCache) batch next, cache.roll stores batch = .ok next →
        ValidTxs stores.utxos ((batchTxs batch).map MultiEraTx.view) →
        AllSpendWitnessed stores.utxos carried (batchTxs batch) →
        ∀ hash, (∀ txo ∈ refs stores.utxos carried hash, ∀ tx ∈ batchTxs batch,
            txo ∉ tx.consumes) →
          refcountOf stores.entities hash ≤ refcountOf next.entities hash := by
  have counted := run.counted
  refine ⟨counted.refcountsHold, ?_⟩
  intro cache batch next rolled valid spends hash unspent
  rcases counted.rolled rolled valid spends with ⟨nextUtxos, nextCounted⟩
  rw [counted.refcountOf_eq, nextCounted.refcountOf_eq, nextUtxos]
  exact Finset.card_le_card (refs_subset_processTxs valid counted.held unspent)

end Runs

namespace SharedDatum

attribute [local instance] Devnet.digest NonceCrypto.still

def plain : MultiEraOutput := ⟨some .byron, 5, [], none⟩

def referring : MultiEraOutput := ⟨some .byron, 5, [], some (.hash 7)⟩

def stores : LedgerStores MultiEraOutput :=
  Devnet.stores 0 [] [(toLex (1, 0), plain), (toLex (1, 1), plain)]

/-- It carries the datum its output refers to. -/
def bearing : MultiEraTx :=
  { Devnet.transfer 2 [toLex (1, 0)] [referring] with plutusData := [(7, [1])] }

/-- It refers to the same datum without carrying it. -/
def referringOnly : MultiEraTx := Devnet.transfer 3 [toLex (1, 1)] [referring]

def spending : MultiEraTx := Devnet.transfer 4 [toLex (3, 0)] [plain]

def first : WorkBatch DecodedBlock :=
  .forSingleBlock (Devnet.block 1 11 none [bearing, referringOnly])

def batches : List (WorkBatch DecodedBlock) :=
  [first, .forSingleBlock (Devnet.block 2 12 (some 11) [spending])]

theorem rolledTxs_batches : rolledTxs batches = [bearing, referringOnly, spending] := by
  simp [rolledTxs, batchTxs, batches, first, Devnet.block]

theorem datumsCounted_stores : DatumsCounted (datumsOf stores.entities) stores.utxos ∅ := by
  refine ⟨by simp, ?_⟩
  intro hash
  left
  refine ⟨by simp [refs], ?_⟩
  apply OrderedMap.get?_insertAll_of_notMem
  simp [DatumState.nsKey, EpochState.nsKey, GovState.nsKey]

theorem valid_of_spendable {txs : List MultiEraTx}
    (outputs : ((txs.map MultiEraTx.view).map Tx.hash).Nodup ∧
      (∀ tx ∈ txs.map MultiEraTx.view, (tx.produces.map Prod.fst).Nodup) ∧
      ∀ made ∈ producedBy (txs.map MultiEraTx.view), stores.utxos.get? made.1 = none)
    (spendable : Spendable stores.utxos (txs.map MultiEraTx.view)) :
    ValidTxs stores.utxos (txs.map MultiEraTx.view) :=
  ⟨⟨outputs.1, outputs.2.1, fun _ _ made => outputs.2.2 _ made⟩, spendable⟩

/-- A datum that a live output was made together with is dropped when another output
that refers to it is spent. -/
theorem shared_datum_dropped :
    DatumsCounted (datumsOf stores.entities) stores.utxos ∅ ∧
      ValidTxs stores.utxos ((rolledTxs batches).map MultiEraTx.view) ∧
      ∃ final, Devnet.cache.rollAll stores batches = .ok final ∧
        ¬ RefcountsHold final.entities final.utxos (carryAll ∅ (rolledTxs batches)) := by
  have evaluated : (fun final : LedgerStores MultiEraOutput =>
      (datumsOf final.entities 7, final.utxos.get? (toLex (2, 0)))) <$>
        Devnet.cache.rollAll stores batches = .ok (none, some referring) := by
    decide +kernel
  rcases map_eq_ok.mp evaluated with ⟨final, ran, finalIs⟩
  rw [Prod.mk.injEq] at finalIs
  refine ⟨datumsCounted_stores, ?_, final, ran, ?_⟩
  · rw [rolledTxs_batches]
    apply valid_of_spendable
    · decide +kernel
    · refine ⟨?_, ?_, ?_, trivial⟩
      · decide +kernel
      · decide +kernel
      · decide +kernel
  · intro holds
    have referred : toLex (2, 0) ∈ refs final.utxos (carryAll ∅ (rolledTxs batches)) 7 := by
      rw [rolledTxs_batches]
      refine Finset.mem_filter.mpr ⟨by decide +kernel, ?_⟩
      rw [RefersTo, finalIs.2]
      rfl
    rcases holds 7 ⟨_, referred⟩ with ⟨datum, present, -⟩
    rw [finalIs.1] at present
    cases present

def sweeping : MultiEraTx := Devnet.transfer 4 [toLex (2, 0), toLex (3, 0)] [plain]

def sweep : WorkBatch DecodedBlock := .forSingleBlock (Devnet.block 2 12 (some 11) [sweeping])

/-- Spent together after the first block and an epoch boundary, the two leave the count right. -/
theorem refcounts_hold_swept :
    ∃ reached final, Devnet.cache.roll stores first = .ok reached ∧
      Devnet.cache.roll { reached with cursor := some (.slotOnly 2) } sweep = .ok final ∧
      RefcountsHold reached.entities reached.utxos (carryAll ∅ (batchTxs first)) ∧
      RefcountsHold final.entities final.utxos
        (carryAll (carryAll ∅ (batchTxs first)) (batchTxs sweep)) := by
  have firstTxs : batchTxs first = [bearing, referringOnly] := by
    simp [batchTxs, first, Devnet.block]
  have sweepTxs : batchTxs sweep = [sweeping] := by
    simp [batchTxs, sweep, Devnet.block]
  have evaluated : ((fun _ => ()) <$> do
      let reached ← Devnet.cache.roll stores first
      Devnet.cache.roll { reached with cursor := some (.slotOnly 2) } sweep) = .ok () := by
    decide +kernel
  rcases map_eq_ok.mp evaluated with ⟨final, ran, -⟩
  rcases bind_eq_ok.mp ran with ⟨reached, rolledFirst, rolledSweep⟩
  have valid : ValidTxs stores.utxos
      (([bearing, referringOnly] ++ [sweeping]).map MultiEraTx.view) := by
    apply valid_of_spendable
    · decide +kernel
    · refine ⟨?_, ?_, ?_, trivial⟩
      · decide +kernel
      · decide +kernel
      · decide +kernel
  have spends : AllSpendWitnessed stores.utxos ∅ ([bearing, referringOnly] ++ [sweeping]) := by
    have small : ∀ (utxos : UtxoMap MultiEraOutput) (carried : Finset TxoRef),
        carried.card < 2 ^ 64 → ∀ hash, (refs utxos carried hash).card < 2 ^ 64 := by
      intro utxos carried fits hash
      exact lt_of_le_of_lt (Finset.card_filter_le _ _) fits
    have spendsAll : ∀ (utxos : UtxoMap MultiEraOutput) {carried : Finset TxoRef}
        {tx : MultiEraTx}, carried ⊆ tx.consumes.toFinset → SpendsWitnessed utxos carried tx := by
      intro utxos carried tx all hash
      exact Or.inr ((Finset.filter_subset _ _).trans all)
    refine ⟨spendsAll _ (by decide +kernel), small _ _ (by decide +kernel), ?_,
      small _ _ (by decide +kernel), spendsAll _ (by decide +kernel),
      small _ _ (by decide +kernel), trivial⟩
    intro hash
    left
    intro txo spent refers
    have isInput : txo = toLex (1, 1) := by
      have listed : referringOnly.consumes = [toLex (1, 1)] := by decide +kernel
      rw [listed, List.mem_singleton] at spent
      exact spent
    have held : (processTx stores.utxos bearing.view).get? (toLex (1, 1)) = some plain := by
      decide +kernel
    rw [RefersTo, isInput, held] at refers
    cases refers
  rw [List.map_append] at valid
  rw [allSpendWitnessed_append] at spends
  have validFirst := valid.left
  have validSweep := valid.right
  rcases spends with ⟨spendsFirst, spendsSweep⟩
  rw [← firstTxs] at validFirst spendsFirst validSweep spendsSweep
  rcases datumsCounted_stores.rolled rolledFirst validFirst spendsFirst with ⟨utxosEq, -⟩
  rw [← utxosEq, ← sweepTxs] at validSweep spendsSweep
  have run := DatumRun.rolled (.start datumsCounted_stores) rolledFirst validFirst spendsFirst
  have crossed : DatumRun { reached with cursor := some (.slotOnly 2) } _ :=
    run.other (fun _ => rfl) fun _ _ => rfl
  exact ⟨reached, final, rolledFirst, rolledSweep, (refcounts_hold_along_run run).1,
    (refcounts_hold_along_run (crossed.rolled rolledSweep validSweep spendsSweep)).1⟩

end SharedDatum

end Dolos
