import Dolos.Cardano.BatchCuts

/-!
# What the blocks of a batch read

A batch loads its outputs and the dormancy context once, before the first of its blocks. What
a block finds there is what it would find in the stores if it were a batch of its own: the
same outputs for its inputs, also those that the batch itself has made, and the same stretch
of dormant epochs with the same representatives to be released from it.
-/

namespace Dolos

open Outcome Keyed EntityDelta CardanoDelta

namespace DormancyContext

variable {known wider : List EntityKey} {rows : NsKey → Option CardanoEntity}
  {first second third : DormancyContext}

/-- The same count, and while it lasts the same targets among the representatives on record.
(A row that never was registered is not one: a release leaves it as it is.) -/
structure SameFor (rows : NsKey → Option CardanoEntity) (first second : DormancyContext) :
    Prop where
  count : second.dormantEpochs = first.dormantEpochs
  targets : 0 < first.dormantEpochs → ∀ id, ∀ state ∈ drepAt rows id,
    state.registeredAt.isSome = true → (id ∈ first.releaseTargets ↔ id ∈ second.releaseTargets)

theorem Agrees.sameFor (agrees : first.Agrees known rows second) : SameFor rows first second := by
  refine ⟨agrees.count, ?_⟩
  intro lasts id state isState registered
  rcases agrees.targets lasts id with same | ⟨-, quiet⟩
  · exact same
  · rw [(quiet state isState).1] at registered
    cases registered

theorem Agrees.trans (agrees : first.Agrees known rows second)
    (later : second.Agrees wider rows third) (covers : ∀ id ∈ known, id ∈ wider) :
    first.Agrees known rows third := by
  refine ⟨later.count.trans agrees.count, ?_⟩
  intro lasts id
  rcases agrees.targets lasts id with same | quiet
  · rcases later.targets (agrees.count ▸ lasts) id with sameLater | ⟨unknown, quiet⟩
    · exact .inl (same.trans sameLater)
    · exact .inr ⟨fun isKnown => unknown (covers id isKnown), quiet⟩
  · exact .inr quiet

end DormancyContext

section Reads

variable [NonceCrypto] [AssetDigest] {cache : RollCache} {before : CommittedState}
  {loaded : UtxoMap MultiEraOutput}

/-- What the blocks are given, against what each would load for itself. -/
def SeesAlike (cache : RollCache) (loaded : UtxoMap MultiEraOutput) :
    DormancyContext → CommittedState → List DecodedBlock → Prop
  | _, _, [] => True
  | dormancy, before, block :: rest =>
      (∀ tx ∈ block.txs,
        SameInputs loaded (loadUtxos ([block].map DecodedBlock.view) before.utxos) tx) ∧
      (∃ own, loadDormancy before.entities = .ok own ∧
        dormancy.SameFor before.entities.get? own) ∧
      ∀ context middle, cache.context before.entities block.slot = .ok context →
        RolledTo cache [block] before middle →
          SeesAlike cache loaded (txsDormancy context block.slot dormancy block.txs.zipIdx) middle
            rest

theorem ValidSegment.seesAlike {blocks : List DecodedBlock} {dormancy own : DormancyContext}
    {known : List EntityKey} (valid : ValidSegment cache before blocks)
    (inputs : ∀ block ∈ blocks, ∀ tx ∈ block.txs,
      SameInputs loaded (loadUtxos (blocks.map DecodedBlock.view) before.utxos) tx)
    (isOwn : loadDormancy before.entities = .ok own)
    (agrees : dormancy.Agrees known before.entities.get? own)
    (onRecord : ∀ id ∈ known, id ∈ iterDRepKeys before.entities)
    (updates : UpdatesKnown known (blocks.flatMap DecodedBlock.effectiveCerts)) :
    SeesAlike cache loaded dormancy before blocks := by
  induction blocks generalizing before dormancy own known with
  | nil => trivial
  | cons block rest ih =>
      rcases sameInputs_cons valid.txs with ⟨here, later⟩
      refine ⟨?_, ⟨own, isOwn, agrees.sameFor⟩, ?_⟩
      · intro tx member txo spent
        rw [here tx member txo spent]
        exact inputs block List.mem_cons_self tx member txo spent
      · intro context middle isContext rolled
        rcases rolledTo_single_iff.mp rolled with
          ⟨-, ⟨ownContext, ownDormancy, contextEq, dormancyEq, applies⟩, utxosEq, -⟩
        rcases Except.ok.inj (contextEq.symm.trans isContext) with rfl
        rcases Except.ok.inj (dormancyEq.symm.trans isOwn) with rfl
        rw [List.flatMap_cons, updatesKnown_append] at updates
        have ownUpdates := updates.1.mono onRecord
        rcases exists_loadDormancy valid.typed isOwn ownUpdates applies.ran with
          ⟨kept, reached, reachedEq, reloaded⟩
        have ranGiven := (runOn_block_iff valid.typed agrees updates.1).mpr applies.ran
        have through := agrees.afterBlock updates.1 ranGiven
        have covers : ∀ id ∈ known ++ registeredBy block.effectiveCerts,
            id ∈ iterDRepKeys before.entities ++ registeredBy block.effectiveCerts := by
          intro id member
          rcases List.mem_append.mp member with isKnown | registers
          · exact List.mem_append_left _ (onRecord id isKnown)
          · exact List.mem_append_right _ registers
        refine ih (valid.tail rolled) ?_ reachedEq (through.trans reloaded covers)
          (fun id member => kept id (covers id member)) updates.2
        intro other isOther tx member txo spent
        rw [utxosEq, later other isOther tx member txo spent]
        exact inputs other (List.mem_cons_of_mem _ isOther) tx member txo spent

/-- A segment that crosses no boundary leaves the same entities, outputs and cursor however it
is cut into batches, and each block of a batch reads what it would read in a batch of its
own. -/
theorem batch_size_independence {stores : LedgerStores MultiEraOutput}
    {batches : List (WorkBatch DecodedBlock)}
    (valid : ValidSegment cache stores.committed (batches.flatMap WorkBatch.blocks)) :
    (∀ state, (∃ final, cache.rollAll stores batches = .ok final ∧ final.committed = state) ↔
      ∃ final, cache.rollAll stores
          ((batches.flatMap WorkBatch.blocks).map WorkBatch.forSingleBlock) = .ok final ∧
        final.committed = state) ∧
    ∀ earlier batch later, batches = earlier ++ batch :: later →
      ∀ reached, cache.rollAll stores earlier = .ok reached →
        ∀ dormancy, loadDormancy reached.entities = .ok dormancy →
          SeesAlike cache (loadUtxos (batch.blocks.map DecodedBlock.view) reached.utxos) dormancy
            reached.committed batch.blocks := by
  refine ⟨?_, ?_⟩
  · intro state
    rw [rollAll_iff_singles valid, rollAll_singles_iff]
  · rintro earlier batch later rfl reached ran dormancy isLoaded
    rw [List.flatMap_append, List.flatMap_cons] at valid
    have walked := (rollAll_iff_singles valid.take).mp ⟨reached, ran, rfl⟩
    have here : ValidSegment cache reached.committed batch.blocks := (valid.drop walked).take
    have own : dormancy.Agrees (iterDRepKeys reached.entities) reached.entities.get? dormancy :=
      ⟨rfl, fun _ _ => .inl Iff.rfl⟩
    exact here.seesAlike (fun _ _ _ _ _ _ => rfl) isLoaded own (fun _ isKnown => isKnown)
      here.updates

end Reads

namespace DormantSegment

attribute [local instance] Devnet.digest NonceCrypto.still

theorem batch_size_independence_dormant :
    (∃ state, (∃ final, Devnet.cache.rollAll stores [batch] = .ok final ∧
        final.committed = state ∧ expiryOf final = some 20) ∧
      ∃ final, Devnet.cache.rollAll stores [.forSingleBlock first, .forSingleBlock second] =
        .ok final ∧ final.committed = state) ∧
      ∃ dormancy, loadDormancy stores.entities = .ok dormancy ∧ dormancy.dormantEpochs = 2 ∧
        SeesAlike Devnet.cache (loadUtxos ([first, second].map DecodedBlock.view) stores.utxos)
          dormancy stores.committed [first, second] := by
  rcases @batch_size_independence _ _ Devnet.cache stores [batch] validSegment with ⟨cut, reads⟩
  refine ⟨?_, ?_⟩
  · have evaluated : expiryOf <$> Devnet.cache.rollAll stores
        [.forSingleBlock first, .forSingleBlock second] = .ok (some 20) := by
      decide +kernel
    rcases map_eq_ok.mp evaluated with ⟨final, ran, expiry⟩
    rcases (cut final.committed).mpr ⟨final, ran, rfl⟩ with ⟨other, otherRan, same⟩
    have entities : other.entities = final.entities := congrArg CommittedState.entities same
    refine ⟨final.committed, ⟨other, otherRan, same, ?_⟩, final, ran, rfl⟩
    rw [← expiry, expiryOf, expiryOf, entities]
  · have evaluated : DormancyContext.dormantEpochs <$> loadDormancy stores.entities = .ok 2 := by
      decide +kernel
    rcases map_eq_ok.mp evaluated with ⟨dormancy, isLoaded, count⟩
    exact ⟨dormancy, isLoaded, count, reads [] batch [] rfl stores rfl dormancy isLoaded⟩

end DormantSegment

end Dolos
