import Mathlib.Data.List.Dedup
import Dolos.Core.State

/-!
# The UTxO set

`cardano/src/utxoset.rs` and the loading of outputs in `roll/batch.rs`. A block
writes the outputs it produces and removes those it consumes; undoing it writes the
consumed ones back, with the bodies its batch resolved, and removes the produced
ones. Spending chains inside a block or a batch cancel out because removals come
after writes.

Blocks have been validated before they reach the ledger: outputs are produced
once, and consumed while they are there. That is `ValidChain`.
-/

namespace Dolos

open Outcome

/-- What the ledger reads of a transaction. -/
structure Tx (O : Type) where
  hash : BlockHash
  produces : List (ℕ × O)
  consumes : List TxoRef

structure MultiEraBlock (O : Type) where
  slot : ℕ
  hash : BlockHash
  previousHash : Option BlockHash
  txs : List (Tx O)

variable {O : Type}

instance : Block (MultiEraBlock O) := ⟨MultiEraBlock.slot, MultiEraBlock.hash⟩

def Tx.txo (tx : Tx O) (index : ℕ) : TxoRef := toLex (tx.hash, index)

def producedBy (txs : List (Tx O)) : List (TxoRef × O) :=
  txs.flatMap fun tx => tx.produces.map fun output => (tx.txo output.1, output.2)

def consumedBy (txs : List (Tx O)) : List TxoRef := txs.flatMap Tx.consumes

abbrev UtxoMap (O : Type) := OrderedMap TxoRef O

namespace MultiEraBlock

def txsByHash (block : MultiEraBlock O) : OrderedMap BlockHash (Tx O) :=
  .ofList (block.txs.map fun tx => (tx.hash, tx))

def produced (block : MultiEraBlock O) : UtxoMap O :=
  .ofList (block.txsByHash.entries.flatMap fun entry =>
    entry.2.produces.map fun output => (toLex (entry.1, output.1), output.2))

def consumed (block : MultiEraBlock O) : List TxoRef :=
  block.txsByHash.entries.flatMap fun entry => entry.2.consumes

end MultiEraBlock

open MultiEraBlock

/-- `compute_block_dependencies`: the outputs loaded so far with those of the block,
and what it consumes beyond them. -/
def computeBlockDependencies (block : MultiEraBlock O) (loaded : UtxoMap O) :
    UtxoMap O × List TxoRef :=
  let loaded := loaded.insertAll block.produced.entries
  (loaded, block.consumed.dedup.filter fun txo => (loaded.get? txo).isNone)

/-- The bodies of consumed outputs; a missing one breaks an invariant. -/
def resolve (loaded : UtxoMap O) : List TxoRef → Except DomainError (List (TxoRef × O))
  | [] => .ok []
  | txo :: rest =>
      match loaded.get? txo with
      | none => .error (.missingUtxo txo)
      | some body => do
          let resolved ← resolve loaded rest
          .ok ((txo, body) :: resolved)

def computeApplyDelta (block : MultiEraBlock O) (loaded : UtxoMap O) :
    Except DomainError (UtxoSetDelta O) := do
  let resolved ← resolve loaded block.consumed
  .ok { UtxoSetDelta.default with
    producedUtxo := block.produced
    consumedUtxo := .ofList resolved }

def computeUndoDelta (block : MultiEraBlock O) (context : UtxoMap O) :
    Except DomainError (UtxoSetDelta O) := do
  let resolved ← resolve context block.consumed
  .ok { UtxoSetDelta.default with
    undoneUtxo := block.produced
    recoveredStxi := .ofList resolved }

/-- The loop of `load_utxos` over the blocks of a batch. -/
def gatherDependencies : List (MultiEraBlock O) → UtxoMap O → UtxoMap O × List TxoRef
  | [], loaded => (loaded, [])
  | block :: rest, loaded =>
      let (withBlock, missing) := computeBlockDependencies block loaded
      let (gathered, later) := gatherDependencies rest withBlock
      (gathered, missing ++ later)

def getUtxos (utxos : UtxoMap O) (refs : List TxoRef) : UtxoMap O :=
  .ofList (refs.filterMap fun txo => (utxos.get? txo).map fun body => (txo, body))

/-- `load_utxos`: what the batch produces, and what it needs from the store. -/
def loadUtxos (blocks : List (MultiEraBlock O)) (utxos : UtxoMap O) : UtxoMap O :=
  let (gathered, refs) := gatherDependencies blocks ∅
  gathered.insertAll (getUtxos utxos refs.dedup).entries

section Effect

/-- The effect of a block on the set. -/
def advance (utxos : UtxoMap O) (block : MultiEraBlock O) : UtxoMap O :=
  (utxos.insertAll block.produced.entries).eraseAll block.consumed

def advanceAll (utxos : UtxoMap O) (blocks : List (MultiEraBlock O)) : UtxoMap O :=
  blocks.foldl advance utxos

theorem get?_advance (utxos : UtxoMap O) (block : MultiEraBlock O) (txo : TxoRef) :
    (advance utxos block).get? txo =
      if txo ∈ block.consumed then none else (block.produced.get? txo).or (utxos.get? txo) := by
  rw [advance, OrderedMap.get?_eraseAll, OrderedMap.get?_insertAll_entries]
  congr

theorem get?_resolve {loaded : UtxoMap O} {refs : List TxoRef} {resolved : List (TxoRef × O)}
    (done : resolve loaded refs = .ok resolved) (txo : TxoRef) :
    (OrderedMap.ofList resolved).get? txo =
      if txo ∈ refs then loaded.get? txo else none := by
  have members : ∀ entry, entry ∈ resolved ↔
      entry.1 ∈ refs ∧ loaded.get? entry.1 = some entry.2 := by
    induction refs generalizing resolved with
    | nil =>
        rcases Except.ok.inj done with rfl
        simp
    | cons head rest ih =>
        cases held : loaded.get? head with
        | none => simp [resolve, held] at done
        | some body =>
            simp only [resolve, held] at done
            rcases bind_eq_ok.mp done with ⟨later, laterEq, resolvedEq⟩
            rcases Except.ok.inj resolvedEq with rfl
            rintro ⟨other, found⟩
            rw [List.mem_cons, ih laterEq, List.mem_cons]
            grind
  exact OrderedMap.get?_ofList_restrict members txo

theorem isSome_of_resolve {loaded : UtxoMap O} {refs : List TxoRef}
    {resolved : List (TxoRef × O)} (done : resolve loaded refs = .ok resolved) {txo : TxoRef}
    (listed : txo ∈ refs) : (loaded.get? txo).isSome := by
  induction refs generalizing resolved with
  | nil => simp at listed
  | cons head rest ih =>
      cases held : loaded.get? head with
      | none => simp [resolve, held] at done
      | some body =>
          simp only [resolve, held] at done
          rcases bind_eq_ok.mp done with ⟨later, laterEq, -⟩
          rcases List.mem_cons.mp listed with rfl | listedLater
          · simp [held]
          · exact ih laterEq listedLater

/-- Whatever the bodies it was computed with, the delta of a block has the block's
effect. -/
theorem applyUtxoset_computeApplyDelta {block : MultiEraBlock O} {loaded utxos : UtxoMap O}
    {delta : UtxoSetDelta O} (computed : computeApplyDelta block loaded = .ok delta) :
    applyUtxoset utxos delta = advance utxos block := by
  rcases bind_eq_ok.mp computed with ⟨resolved, resolvedEq, deltaEq⟩
  rcases Except.ok.inj deltaEq with rfl
  ext1 txo
  rw [get?_applyUtxoset, get?_advance]
  simp only [UtxoSetDelta.default, OrderedMap.get?_empty, get?_resolve resolvedEq]
  by_cases spent : txo ∈ block.consumed
  · simp [spent, isSome_of_resolve resolvedEq spent]
  · simp [spent]

/-- Undoing a block takes its effect back, if it produced nothing that was there
before and the context has the bodies that were. -/
theorem applyUtxoset_computeUndoDelta {block : MultiEraBlock O} {loaded utxos : UtxoMap O}
    {delta : UtxoSetDelta O} (computed : computeApplyDelta block loaded = .ok delta)
    (fresh : ∀ txo, (block.produced.get? txo).isSome → utxos.get? txo = none)
    (bodies : ∀ txo ∈ block.consumed, block.produced.get? txo = none →
      loaded.get? txo = utxos.get? txo) :
    ∃ undo, computeUndoDelta block loaded = .ok undo ∧
      applyUtxoset (advance utxos block) undo = utxos := by
  rcases bind_eq_ok.mp computed with ⟨resolved, resolvedEq, -⟩
  refine ⟨{ UtxoSetDelta.default with
    undoneUtxo := block.produced
    recoveredStxi := .ofList resolved }, ?_, ?_⟩
  · rw [computeUndoDelta, resolvedEq, ok_bind]
  · ext1 txo
    rw [get?_applyUtxoset, get?_advance]
    simp only [UtxoSetDelta.default, OrderedMap.get?_empty, get?_resolve resolvedEq]
    cases made : block.produced.get? txo with
    | some body =>
        have absent := fresh txo (by simp [made])
        simp [absent]
    | none =>
        by_cases spent : txo ∈ block.consumed
        · have body := bodies txo spent made
          simp [spent, body]
        · simp [spent]

end Effect

/-- What validation promises of the blocks to come: an output is produced once and
never while it is there, and it is consumed from the block itself or from what the
blocks before have left. -/
structure ValidChain (utxos : UtxoMap O) (blocks : List (MultiEraBlock O)) : Prop where
  fresh : ∀ block ∈ blocks, ∀ txo, (block.produced.get? txo).isSome → utxos.get? txo = none
  distinct : blocks.Pairwise fun earlier later =>
    ∀ txo, (earlier.produced.get? txo).isSome → later.produced.get? txo = none
  available : ∀ earlier block later, blocks = earlier ++ block :: later →
    ∀ txo ∈ block.consumed, block.produced.get? txo = none →
      ((advanceAll utxos earlier).get? txo).isSome

namespace ValidChain

variable {utxos : UtxoMap O} {first second : List (MultiEraBlock O)}

theorem advanceAll_append (utxos : UtxoMap O) (first second : List (MultiEraBlock O)) :
    advanceAll utxos (first ++ second) = advanceAll (advanceAll utxos first) second :=
  List.foldl_append

theorem left (valid : ValidChain utxos (first ++ second)) : ValidChain utxos first := by
  refine ⟨?_, (List.pairwise_append.mp valid.distinct).1, ?_⟩
  · intro block member
    exact valid.fresh block (List.mem_append_left second member)
  · intro earlier block later split
    apply valid.available earlier block (later ++ second)
    rw [split, List.append_assoc, List.cons_append]

/-- An output held after some blocks was there before or is one of theirs. -/
theorem advanceAll_eq_none {blocks : List (MultiEraBlock O)} {txo : TxoRef}
    (absent : utxos.get? txo = none)
    (unmade : ∀ block ∈ blocks, block.produced.get? txo = none) :
    (advanceAll utxos blocks).get? txo = none := by
  induction blocks generalizing utxos with
  | nil => exact absent
  | cons block rest ih =>
      apply ih
      · rw [get?_advance, unmade block List.mem_cons_self, absent]
        simp
      · intro later member
        exact unmade later (List.mem_cons_of_mem block member)

theorem right (valid : ValidChain utxos (first ++ second)) :
    ValidChain (advanceAll utxos first) second := by
  rcases List.pairwise_append.mp valid.distinct with ⟨-, distinctLater, across⟩
  refine ⟨?_, distinctLater, ?_⟩
  · intro block member txo made
    apply advanceAll_eq_none
    · exact valid.fresh block (List.mem_append_right first member) txo made
    · intro earlier isEarlier
      by_contra madeEarlier
      have unmade := across earlier isEarlier block member txo
        (Option.isSome_iff_ne_none.mpr madeEarlier)
      simp [unmade] at made
  · intro earlier block later split
    rw [← advanceAll_append]
    apply valid.available (first ++ earlier) block later
    rw [split, List.append_assoc]

end ValidChain

section Loading

/-- The outputs of some blocks, the later ones on top. -/
def gathered (blocks : List (MultiEraBlock O)) (loaded : UtxoMap O) : UtxoMap O :=
  (gatherDependencies blocks loaded).1

theorem gathered_cons (block : MultiEraBlock O) (rest : List (MultiEraBlock O))
    (loaded : UtxoMap O) :
    gathered (block :: rest) loaded = gathered rest (loaded.insertAll block.produced.entries) :=
  rfl

theorem get?_gathered_of_unmade {blocks : List (MultiEraBlock O)} {loaded : UtxoMap O}
    {txo : TxoRef} (unmade : ∀ block ∈ blocks, block.produced.get? txo = none) :
    (gathered blocks loaded).get? txo = loaded.get? txo := by
  induction blocks generalizing loaded with
  | nil => rfl
  | cons block rest ih =>
      rw [gathered_cons, ih, OrderedMap.get?_insertAll_entries,
        unmade block List.mem_cons_self, Option.none_or]
      intro later member
      exact unmade later (List.mem_cons_of_mem block member)

theorem get?_gathered_of_made {blocks : List (MultiEraBlock O)} {loaded : UtxoMap O}
    {maker : MultiEraBlock O} {txo : TxoRef} {body : O}
    (distinct : blocks.Pairwise fun earlier later =>
      ∀ txo, (earlier.produced.get? txo).isSome → later.produced.get? txo = none)
    (member : maker ∈ blocks) (made : maker.produced.get? txo = some body) :
    (gathered blocks loaded).get? txo = some body := by
  induction blocks generalizing loaded with
  | nil => simp at member
  | cons block rest ih =>
      rcases List.pairwise_cons.mp distinct with ⟨headDistinct, restDistinct⟩
      rw [gathered_cons]
      rcases List.mem_cons.mp member with rfl | later
      · have unmade : ∀ other ∈ rest, other.produced.get? txo = none := by
          intro other isOther
          exact headDistinct other isOther txo (by simp [made])
        rw [get?_gathered_of_unmade unmade, OrderedMap.get?_insertAll_entries, made,
          Option.some_or]
      · exact ih restDistinct later

/-- An output consumed from outside the batch is asked for. -/
theorem mem_gatherDependencies {earlier later : List (MultiEraBlock O)}
    {block : MultiEraBlock O} {loaded : UtxoMap O} {txo : TxoRef}
    (spent : txo ∈ block.consumed) (absent : loaded.get? txo = none)
    (unmade : ∀ other ∈ earlier ++ block :: later, other.produced.get? txo = none) :
    txo ∈ (gatherDependencies (earlier ++ block :: later) loaded).2 := by
  induction earlier generalizing loaded with
  | nil =>
      have unmadeHere := unmade block (by simp)
      have stillAbsent : (loaded.insertAll block.produced.entries).get? txo = none := by
        rw [OrderedMap.get?_insertAll_entries, unmadeHere, absent, Option.none_or]
      simp only [List.nil_append, gatherDependencies, computeBlockDependencies, List.mem_append,
        List.mem_filter, List.mem_dedup]
      left
      simp [spent, stillAbsent]
  | cons head rest ih =>
      have unmadeHere := unmade head (by simp)
      have stillAbsent : (loaded.insertAll head.produced.entries).get? txo = none := by
        rw [OrderedMap.get?_insertAll_entries, unmadeHere, absent, Option.none_or]
      simp only [List.cons_append, gatherDependencies, computeBlockDependencies, List.mem_append]
      right
      apply ih stillAbsent
      intro other member
      exact unmade other (List.mem_cons_of_mem head member)

theorem get?_getUtxos (utxos : UtxoMap O) (refs : List TxoRef) (txo : TxoRef) :
    (getUtxos utxos refs).get? txo = if txo ∈ refs then utxos.get? txo else none := by
  have members : ∀ entry : TxoRef × O,
      entry ∈ refs.filterMap (fun txo => (utxos.get? txo).map fun body => (txo, body)) ↔
        entry.1 ∈ refs ∧ utxos.get? entry.1 = some entry.2 := by
    rintro ⟨other, body⟩
    simp only [List.mem_filterMap, Option.map_eq_some_iff, Prod.mk.injEq]
    constructor
    · rintro ⟨asked, isAsked, found, foundEq, rfl, rfl⟩
      exact ⟨isAsked, foundEq⟩
    · rintro ⟨isAsked, foundEq⟩
      exact ⟨other, isAsked, body, foundEq, rfl, rfl⟩
  exact OrderedMap.get?_ofList_restrict members txo

theorem advanceAll_eq_some {utxos : UtxoMap O} {blocks : List (MultiEraBlock O)} {txo : TxoRef}
    {body : O} (held : (advanceAll utxos blocks).get? txo = some body) :
    (∃ maker ∈ blocks, maker.produced.get? txo = some body) ∨ utxos.get? txo = some body := by
  induction blocks generalizing utxos with
  | nil => exact Or.inr held
  | cons block rest ih =>
      rcases ih held with ⟨maker, member, made⟩ | before
      · exact Or.inl ⟨maker, List.mem_cons_of_mem block member, made⟩
      · rw [get?_advance] at before
        split_ifs at before
        cases made : block.produced.get? txo with
        | none =>
            rw [made, Option.none_or] at before
            exact Or.inr before
        | some output =>
            rw [made, Option.some_or] at before
            exact Or.inl ⟨block, List.mem_cons_self, made.trans before⟩

/-- The batch-wide bodies are those each block found when it was applied. -/
theorem get?_loadUtxos {utxos : UtxoMap O} {earlier later : List (MultiEraBlock O)}
    {block : MultiEraBlock O} (valid : ValidChain utxos (earlier ++ block :: later))
    {txo : TxoRef} (spent : txo ∈ block.consumed) (unmade : block.produced.get? txo = none) :
    (loadUtxos (earlier ++ block :: later) utxos).get? txo =
      (advanceAll utxos earlier).get? txo := by
  have present := valid.available earlier block later rfl txo spent unmade
  rcases Option.isSome_iff_exists.mp present with ⟨body, bodyEq⟩
  rw [bodyEq, loadUtxos, OrderedMap.get?_insertAll_entries, get?_getUtxos]
  change Option.or _ ((gathered _ _).get? txo) = some body
  rcases advanceAll_eq_some bodyEq with ⟨maker, member, made⟩ | stored
  · have isBlock : maker ∈ earlier ++ block :: later := List.mem_append_left _ member
    have absent := valid.fresh maker isBlock txo (by simp [made])
    rw [get?_gathered_of_made valid.distinct isBlock made, absent]
    simp
  · have unmadeByAll : ∀ other ∈ earlier ++ block :: later, other.produced.get? txo = none := by
      intro other isOther
      by_contra made
      have absent := valid.fresh other isOther txo (Option.isSome_iff_ne_none.mpr made)
      simp [absent] at stored
    have unloaded : (∅ : UtxoMap O).get? txo = none := rfl
    have asked := mem_gatherDependencies spent unloaded unmadeByAll
    rw [if_pos (List.mem_dedup.mpr asked), stored, Option.some_or]

end Loading

end Dolos
