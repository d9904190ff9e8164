import Dolos.Snapshot.LayerRecords
import Dolos.Snapshot.SelectionLaw

/-!
# What a document lists

The document of an export without a predecessor: no kind and scope come twice in it, every
window has its layers and every namespace its shards, and each layer holds the records the
stores had for it.
-/

namespace Dolos.Snapshot

open Outcome BlockDecoding

variable {V O D : Type}

section Keys

variable {A E : Type} {items : List A}

theorem keys_of_mapM {f : A → Except E (LayerDescriptor D)} {layers : List (LayerDescriptor D)}
    (done : items.mapM f = .ok layers) {listed : A → LayerKind × DescriptorScope}
    (each : ∀ item layer, f item = .ok layer → layer.key = listed item) :
    layers.map LayerDescriptor.key = items.map listed := by
  have made := mapM_eq_ok.mp done
  induction made with
  | nil => rfl
  | cons headDone restDone ih =>
      rw [List.map_cons, List.map_cons, each _ _ headDone, ih (mapM_eq_ok.mpr restDone)]

theorem keys_of_mapM_flatten {f : A → Except E (List (LayerDescriptor D))}
    {parts : List (List (LayerDescriptor D))} (done : items.mapM f = .ok parts)
    {listed : A → List (LayerKind × DescriptorScope)}
    (each : ∀ item part, f item = .ok part →
      (part.map LayerDescriptor.key).Sublist (listed item)) :
    (parts.flatten.map LayerDescriptor.key).Sublist (items.flatMap listed) := by
  have made := mapM_eq_ok.mp done
  induction made with
  | nil => exact List.Sublist.refl _
  | cons headDone restDone ih =>
      rw [List.flatten_cons, List.map_append, List.flatMap_cons]
      exact (each _ _ headDone).append (ih (mapM_eq_ok.mpr restDone))

end Keys

namespace Plan

/-- What the state layers of a namespace are listed under. -/
def stateKeys (plan : Plan) (ns : StateNs) : List (LayerKind × DescriptorScope) :=
  (if plan.cutsADump then List.range ns.shards else []).map
      (fun shard => (.state ns, .dump plan.sequence shard)) ++
    (List.range ns.shards).map fun shard => (.state ns, .tip shard)

/-- What the layers of an export can be listed under, in the order of the document. -/
def layerKeys (plan : Plan) (digests : List ℕ) : List (LayerKind × DescriptorScope) :=
  (plan.epochs.flatMap fun window => [(.blocks, .epoch window)]) ++
    (plan.epochs.map fun window => (.indexes, .epoch window)) ++
    ((LogNs.all.flatMap fun ns => plan.epochs.map fun window => (ns, window)).flatMap
      fun entry => [(.log entry.1, .epoch entry.2)]) ++
    StateNs.all.flatMap plan.stateKeys ++
    digests.map fun lastImmutable => (.digests, .digests lastImmutable)

theorem nodup_stateKeys (plan : Plan) (ns : StateNs) : (plan.stateKeys ns).Nodup := by
  have shards : ∀ {scope : ℕ → DescriptorScope}, Function.Injective scope →
      ∀ {places : List ℕ}, places.Nodup →
        (places.map fun shard => (LayerKind.state ns, scope shard)).Nodup := by
    intro scope injective places nodup
    exact nodup.map fun first second same => injective (Prod.mk.inj same).2
  rw [stateKeys, List.nodup_append]
  refine ⟨shards (fun first second same => (DescriptorScope.dump.inj same).2) ?_,
    shards (fun first second same => DescriptorScope.tip.inj same) List.nodup_range, ?_⟩
  · split_ifs
    · exact List.nodup_range
    · exact List.nodup_nil
  · intro dump isDump tip isTip same
    rcases List.mem_map.mp isDump with ⟨first, -, rfl⟩
    rcases List.mem_map.mp isTip with ⟨second, -, rfl⟩
    cases same

theorem kind_stateKeys {plan : Plan} {ns : StateNs} {key : LayerKind × DescriptorScope}
    (member : key ∈ plan.stateKeys ns) : key.1 = .state ns := by
  rcases List.mem_append.mp member with isDump | isTip
  · rcases List.mem_map.mp isDump with ⟨_, -, rfl⟩
    rfl
  · rcases List.mem_map.mp isTip with ⟨_, -, rfl⟩
    rfl

/-- No kind and scope come twice in a document. -/
theorem nodup_layerKeys {plan : Plan} (windows : plan.epochs.Nodup) {digests : List ℕ}
    (once : digests.Nodup) : (plan.layerKeys digests).Nodup := by
  have logs : (LogNs.all.flatMap fun ns => plan.epochs.map fun window => (ns, window)).Nodup := by
    rw [List.nodup_flatMap]
    refine ⟨fun ns _ => windows.map fun first second same => (Prod.mk.inj same).2, ?_⟩
    refine List.Pairwise.imp ?_ (show LogNs.all.Nodup by decide)
    intro first second apart entry isFirst isSecond
    rcases List.mem_map.mp isFirst with ⟨_, -, rfl⟩
    rcases List.mem_map.mp isSecond with ⟨_, -, same⟩
    exact apart (Prod.mk.inj same).1.symm
  have state : (StateNs.all.flatMap plan.stateKeys).Nodup := by
    rw [List.nodup_flatMap]
    refine ⟨fun ns _ => plan.nodup_stateKeys ns, ?_⟩
    refine List.Pairwise.imp ?_ (show StateNs.all.Nodup by decide)
    intro first second apart key isFirst isSecond
    exact apart (LayerKind.state.inj
      ((kind_stateKeys isFirst).symm.trans (kind_stateKeys isSecond)))
  have apart : ∀ {first second : List (LayerKind × DescriptorScope)},
      (∀ key ∈ first, ∀ other ∈ second, key.1 ≠ other.1) → first.Disjoint second :=
    fun kinds key isFirst isSecond => kinds key isFirst key isSecond rfl
  simp only [layerKeys, ← List.map_eq_flatMap]
  refine List.nodup_append'.mpr ⟨List.nodup_append'.mpr ⟨List.nodup_append'.mpr
    ⟨List.nodup_append'.mpr ⟨?_, ?_, ?_⟩, ?_, ?_⟩, state, ?_⟩, ?_, ?_⟩
  · exact windows.map fun first second same => DescriptorScope.epoch.inj (Prod.mk.inj same).2
  · exact windows.map fun first second same => DescriptorScope.epoch.inj (Prod.mk.inj same).2
  · apply apart
    simp
  · refine logs.map fun first second same => ?_
    rcases Prod.mk.inj same with ⟨sameKind, sameScope⟩
    exact Prod.ext (LayerKind.log.inj sameKind) (DescriptorScope.epoch.inj sameScope)
  · apply apart
    intro key isFirst other isLog
    rcases List.mem_map.mp isLog with ⟨_, -, rfl⟩
    rcases List.mem_append.mp isFirst with isKey | isKey <;>
      rcases List.mem_map.mp isKey with ⟨_, -, rfl⟩ <;> exact LayerKind.noConfusion
  · apply apart
    intro key isEpoch other isState
    rw [kind_stateKeys (List.mem_flatMap.mp isState).choose_spec.2]
    rcases List.mem_append.mp isEpoch with inFirst | inLogs
    · rcases List.mem_append.mp inFirst with inBlocks | inIndexes
      · rcases List.mem_map.mp inBlocks with ⟨_, -, rfl⟩
        exact LayerKind.noConfusion
      · rcases List.mem_map.mp inIndexes with ⟨_, -, rfl⟩
        exact LayerKind.noConfusion
    · rcases List.mem_map.mp inLogs with ⟨_, -, rfl⟩
      exact LayerKind.noConfusion
  · exact once.map fun first second same => DescriptorScope.digests.inj (Prod.mk.inj same).2
  · apply apart
    intro key isKey other isDigests
    rcases List.mem_map.mp isDigests with ⟨_, -, rfl⟩
    rcases List.mem_append.mp isKey with isEpoch | isState
    · simp only [List.mem_append, List.mem_map] at isEpoch
      rcases isEpoch with (⟨_, -, rfl⟩ | ⟨_, -, rfl⟩) | ⟨_, -, rfl⟩ <;> exact LayerKind.noConfusion
    · rcases List.mem_flatMap.mp isState with ⟨ns, -, isKey⟩
      rw [kind_stateKeys isKey]
      exact LayerKind.noConfusion

theorem mem_layerKeys {plan : Plan} {digests : List ℕ} {key : LayerKind × DescriptorScope}
    (member : key ∈ plan.layerKeys digests) :
    (key.1.isEpoch ∧ ∃ window ∈ plan.epochs, key.2 = .epoch window) ∨
      (∃ ns, key ∈ plan.stateKeys ns) ∨ key.1 = .digests := by
  simp only [layerKeys, List.mem_append, List.mem_flatMap, List.mem_map, List.mem_singleton]
    at member
  rcases member with (((⟨window, isWindow, rfl⟩ | ⟨window, isWindow, rfl⟩) |
    ⟨_, ⟨ns, -, window, isWindow, rfl⟩, rfl⟩) | ⟨ns, -, isKey⟩) | ⟨_, -, rfl⟩
  · exact Or.inl ⟨rfl, window, isWindow, rfl⟩
  · exact Or.inl ⟨rfl, window, isWindow, rfl⟩
  · exact Or.inl ⟨rfl, window, isWindow, rfl⟩
  · exact Or.inr (Or.inl ⟨ns, isKey⟩)
  · exact Or.inr (Or.inr rfl)

end Plan

section Documents

variable {writer : SteleWriter V O D} {read : D → LayerSpec × List (Record V O)}
  {held : writer.Sink → LayerSpec × List (Record V O)} {decode : Bytes → Option BlockHash}
  {node : Node V O} {plan : Plan} {digestRecords : Option (List ImmutableDigests)}
  {layers : List (LayerDescriptor D)}

/-- What the document of a node lists. -/
structure Exported (read : D → LayerSpec × List (Record V O)) (decode : Bytes → Option BlockHash)
    (node : Node V O) (plan : Plan) (layers : List (LayerDescriptor D)) : Prop where
  selectable : Selectable plan.epochs layers
  blocks : ∀ window ∈ plan.epochs, ∃ layer ∈ layers,
    Carries read layer (window.spec plan.magic .blocks) (node.layerRecords decode window .blocks)
  epochs : ∀ kind : LayerKind, kind.isEpoch → ∀ window ∈ plan.epochs,
    (∃ layer, listedAt layers kind (.epoch window) = some layer ∧
      Carries read layer (window.spec plan.magic kind) (node.layerRecords decode window kind)) ∨
    listedAt layers kind (.epoch window) = none ∧ node.layerRecords decode window kind = []
  tip : ∀ ns shard,
    (∃ layer, listedAt layers (.state ns) (.tip shard) = some layer ∧ shard < ns.shards ∧
      Carries read layer ⟨.state ns, .tip plan.magic plan.sequence shard⟩
        (node.shardRecords ns shard)) ∨
    listedAt layers (.state ns) (.tip shard) = none ∧ ns.shards ≤ shard

theorem key_of_carries {layer : LayerDescriptor D} {spec : LayerSpec}
    {records : List (Record V O)} (carries : Carries read layer spec records) :
    layer.key = (spec.kind, spec.scope.descriptor) := by
  rw [LayerDescriptor.key, carries.kind, carries.scope]

theorem StateLayersOf.keys {ns : StateNs} (layersOf : StateLayersOf read node plan ns layers) :
    layers.map LayerDescriptor.key = plan.stateKeys ns := by
  rcases layersOf with ⟨cut, tip, rfl, isCut, isTip⟩
  have mapped : ∀ {shards : List ℕ} {part : List (LayerDescriptor D)} {scope : ℕ → DescriptorScope},
      List.Forall₂ (fun shard layer => layer.key = (LayerKind.state ns, scope shard)) shards part →
        part.map LayerDescriptor.key = shards.map fun shard => (.state ns, scope shard) := by
    intro shards part scope each
    induction each with
    | nil => rfl
    | cons isKey rest ih => rw [List.map_cons, List.map_cons, isKey, ih]
  rw [List.map_append, Plan.stateKeys]
  congr 1
  · exact mapped (isCut.imp fun shard layer isKey => Prod.ext isKey.1 isKey.2)
  · exact mapped (isTip.imp fun shard layer carries => key_of_carries carries)

/-- The document of a node without a predecessor. -/
theorem ReadsBack.exported (readsBack : ReadsBack writer read held) (windows : plan.epochs.Nodup)
    (made : documentLayers writer (node.stores decode) .first digestRecords plan = .ok layers) :
    Exported read decode node plan layers := by
  rcases bind_eq_ok.mp made with ⟨blocks, blocksEq, made⟩
  rcases bind_eq_ok.mp made with ⟨indexes, indexesEq, made⟩
  rcases bind_eq_ok.mp made with ⟨logs, logsEq, made⟩
  rcases bind_eq_ok.mp made with ⟨state, stateEq, made⟩
  rcases bind_eq_ok.mp made with ⟨digests, digestsEq, made⟩
  rcases Except.ok.inj made with rfl
  have blockLayers : ∀ window part, blockJob writer (node.stores decode) .first plan window =
      .ok part → ∃ layer, part = [layer] ∧ Carries read layer (window.spec plan.magic .blocks)
        (node.layerRecords decode window .blocks) := by
    intro window part partEq
    rcases bind_eq_ok.mp partEq with ⟨layer, layerEq, partEq⟩
    rcases bind_eq_ok.mp partEq with ⟨_, -, partEq⟩
    exact ⟨layer, (Except.ok.inj partEq).symm, readsBack.writeBlocks layerEq⟩
  have logLayers : ∀ (entry : LogNs × EpochWindow) part,
      logJob writer (node.stores decode) .first plan entry.1 entry.2 = .ok part →
      (∀ layer ∈ part, Carries read layer (entry.2.spec plan.magic (.log entry.1))
          (node.layerRecords decode entry.2 (.log entry.1))) ∧ part.length ≤ 1 ∧
        (part = [] → node.layerRecords decode entry.2 (.log entry.1) = []) := by
    rintro ⟨ns, window⟩ part partEq
    rcases bind_eq_ok.mp partEq with ⟨written, writtenEq, partEq⟩
    rcases readsBack.writeLogs writtenEq with ⟨carries, empty⟩
    cases written with
    | none =>
        rcases Except.ok.inj partEq with rfl
        exact ⟨fun layer member => (by cases member), Nat.zero_le _, fun _ => empty rfl⟩
    | some layer =>
        rcases bind_eq_ok.mp partEq with ⟨_, -, partEq⟩
        rcases Except.ok.inj partEq with rfl
        refine ⟨?_, le_rfl, fun isEmpty => by cases isEmpty⟩
        intro other member
        rw [List.mem_singleton.mp member]
        exact carries layer rfl
  have digestLayers : ∀ records part, digestJob writer plan records = .ok part →
      (part.map LayerDescriptor.key).Sublist (records.getLast?.toList.map fun last =>
        (LayerKind.digests, DescriptorScope.digests last.immutableNumber)) := by
    intro records part partEq
    rcases bind_eq_ok.mp partEq with ⟨layer, layerEq, partEq⟩
    rcases Except.ok.inj partEq with rfl
    rcases bind_eq_ok.mp layerEq with ⟨_, -, layerEq⟩
    split at layerEq
    · cases layerEq
    · rename_i last lastEq
      rcases bind_eq_ok.mp layerEq with ⟨sink, sinkEq, layerEq⟩
      rcases bind_eq_ok.mp layerEq with ⟨filled, filledEq, layerEq⟩
      rcases bind_eq_ok.mp layerEq with ⟨written, writtenEq, layerEq⟩
      rcases Except.ok.inj layerEq with rfl
      have holds := held_foldlM held _ (fun _ _ _ done => readsBack.wrote _ _ _ done)
        filledEq
      rw [readsBack.opened _ _ sinkEq] at holds
      have isKey := key_of_carries (readsBack.carries writtenEq holds)
      rw [lastEq, List.map_singleton, isKey]
      exact List.Sublist.refl _
  have keys : ((blocks.flatten ++ indexes ++ logs.flatten ++ state.flatten ++
      digests.flatten).map LayerDescriptor.key).Sublist (plan.layerKeys
        (digestRecords.toList.flatMap fun records =>
          records.getLast?.toList.map ImmutableDigests.immutableNumber)) := by
    simp only [List.map_append, Plan.layerKeys]
    refine (((List.Sublist.append ?_ ?_).append ?_).append ?_).append ?_
    · refine keys_of_mapM_flatten blocksEq fun window part partEq => ?_
      rcases blockLayers window part partEq with ⟨layer, rfl, carries⟩
      rw [List.map_singleton, key_of_carries carries]
      exact List.Sublist.refl _
    · rw [keys_of_mapM indexesEq fun window layer layerEq =>
        key_of_carries (readsBack.indexLayer layerEq)]
      exact List.Sublist.refl _
    · refine keys_of_mapM_flatten logsEq fun entry part partEq => ?_
      rcases logLayers entry part partEq with ⟨carries, length, -⟩
      match part, carries, length with
      | [], _, _ => exact List.nil_sublist _
      | [layer], carries, _ =>
          rw [List.map_singleton, key_of_carries (carries layer (List.mem_singleton_self _))]
          exact List.Sublist.refl _
    · refine keys_of_mapM_flatten stateEq fun ns part partEq => ?_
      rw [(readsBack.writeStateKind partEq).keys]
    · rw [List.map_flatMap]
      refine keys_of_mapM_flatten digestsEq fun records part partEq => ?_
      rw [List.map_map]
      exact digestLayers records part partEq
  have digestsOnce : (digestRecords.toList.flatMap fun records =>
      records.getLast?.toList.map ImmutableDigests.immutableNumber).Nodup := by
    cases digestRecords with
    | none => exact List.nodup_nil
    | some records => cases found : records.getLast? <;> simp [found]
  have once := (Plan.nodup_layerKeys windows digestsOnce).sublist keys
  have selectable : Selectable plan.epochs (blocks.flatten ++ indexes ++ logs.flatten ++
      state.flatten ++ digests.flatten) := by
    refine ⟨once, ?_, ?_⟩
    · intro layer member isEpoch
      have isKey := keys.subset (List.mem_map_of_mem member)
      rcases Plan.mem_layerKeys isKey with ⟨-, isWindow⟩ | ⟨ns, isState⟩ | isDigests
      · exact isWindow
      · have isKind : layer.kind = .state ns := Plan.kind_stateKeys isState
        rw [isKind] at isEpoch
        cases isEpoch
      · have isKind : layer.kind = .digests := isDigests
        rw [isKind] at isEpoch
        cases isEpoch
    · intro layer member ns isKind
      have isKey := keys.subset (List.mem_map_of_mem member)
      rcases Plan.mem_layerKeys isKey with ⟨isEpoch, -⟩ | ⟨other, isState⟩ | isDigests
      · rw [LayerDescriptor.key, isKind] at isEpoch
        cases isEpoch
      · rcases List.mem_append.mp isState with isDump | isTip
        · rcases List.mem_map.mp isDump with ⟨shard, -, same⟩
          exact ⟨shard, Or.inr ⟨_, (Prod.mk.inj same).2.symm⟩⟩
        · rcases List.mem_map.mp isTip with ⟨shard, -, same⟩
          exact ⟨shard, Or.inl (Prod.mk.inj same).2.symm⟩
      · rw [LayerDescriptor.key, isKind] at isDigests
        cases isDigests
  have blocksOf : ∀ window ∈ plan.epochs, ∃ layer ∈ blocks.flatten, Carries read layer
      (window.spec plan.magic .blocks) (node.layerRecords decode window .blocks) := by
    intro window isWindow
    rcases mem_mapM_of_mem blocksEq isWindow with ⟨part, isPart, partEq⟩
    rcases blockLayers window part partEq with ⟨layer, rfl, carries⟩
    exact ⟨layer, List.mem_flatten.mpr ⟨_, isPart, List.mem_singleton_self _⟩, carries⟩
  have sources : ∀ {layer : LayerDescriptor D}, layer ∈ blocks.flatten ++ indexes ++
      logs.flatten ++ state.flatten ++ digests.flatten →
      layer.kind = .blocks ∨ layer.kind = .indexes ∨
        (∃ entry : LogNs × EpochWindow, Carries read layer (entry.2.spec plan.magic (.log entry.1))
          (node.layerRecords decode entry.2 (.log entry.1))) ∨
        (∃ ns, layer.key ∈ plan.stateKeys ns) ∨ layer.kind = .digests := by
    intro layer member
    simp only [List.mem_append] at member
    rcases member with (((inBlocks | inIndexes) | inLogs) | inState) | inDigests
    · rcases List.mem_flatten.mp inBlocks with ⟨part, isPart, isIn⟩
      rcases mem_of_mapM_ok blocksEq isPart with ⟨window, -, partEq⟩
      rcases blockLayers window part partEq with ⟨found, rfl, carries⟩
      rw [List.mem_singleton.mp isIn]
      exact Or.inl carries.kind
    · rcases mem_of_mapM_ok indexesEq inIndexes with ⟨window, -, layerEq⟩
      exact Or.inr (Or.inl (readsBack.indexLayer layerEq).kind)
    · rcases List.mem_flatten.mp inLogs with ⟨part, isPart, isIn⟩
      rcases mem_of_mapM_ok logsEq isPart with ⟨entry, -, partEq⟩
      exact Or.inr (Or.inr (Or.inl ⟨entry, (logLayers entry part partEq).1 layer isIn⟩))
    · rcases List.mem_flatten.mp inState with ⟨part, isPart, isIn⟩
      rcases mem_of_mapM_ok stateEq isPart with ⟨ns, -, partEq⟩
      refine Or.inr (Or.inr (Or.inr (Or.inl ⟨ns, ?_⟩)))
      rw [← (readsBack.writeStateKind partEq).keys]
      exact List.mem_map_of_mem isIn
    · rcases List.mem_flatten.mp inDigests with ⟨part, isPart, isIn⟩
      rcases mem_of_mapM_ok digestsEq isPart with ⟨records, -, partEq⟩
      have isKey := (digestLayers records part partEq).subset (List.mem_map_of_mem isIn)
      rcases List.mem_map.mp isKey with ⟨last, -, same⟩
      exact Or.inr (Or.inr (Or.inr (Or.inr (Prod.mk.inj same).1.symm)))
  refine ⟨selectable, ?_, ?_, ?_⟩
  · intro window isWindow
    rcases blocksOf window isWindow with ⟨layer, member, carries⟩
    exact ⟨layer, by simp only [List.mem_append, member, true_or], carries⟩
  · intro kind isEpoch window isWindow
    cases kind with
    | blocks =>
        rcases blocksOf window isWindow with ⟨layer, member, carries⟩
        exact Or.inl ⟨layer, (listedAt_eq_some once).mpr
          ⟨by simp only [List.mem_append, member, true_or], key_of_carries carries⟩, carries⟩
    | indexes =>
        rcases mem_mapM_of_mem indexesEq isWindow with ⟨layer, member, layerEq⟩
        have carries := readsBack.indexLayer layerEq
        exact Or.inl ⟨layer, (listedAt_eq_some once).mpr
          ⟨by simp only [List.mem_append, member, true_or, or_true], key_of_carries carries⟩,
          carries⟩
    | log ns =>
        cases found : listedAt (blocks.flatten ++ indexes ++ logs.flatten ++ state.flatten ++
            digests.flatten) (.log ns) (.epoch window) with
        | some layer =>
            rcases (listedAt_eq_some once).mp found with ⟨member, isKey⟩
            have isKind : layer.kind = .log ns := (Prod.mk.inj isKey).1
            rcases sources member with isBlocks | isIndexes | ⟨⟨other, held⟩, carries⟩ |
              ⟨other, isState⟩ | isDigests
            · rw [isKind] at isBlocks
              cases isBlocks
            · rw [isKind] at isIndexes
              cases isIndexes
            · rcases Prod.mk.inj ((key_of_carries carries).symm.trans isKey) with
                ⟨sameKind, sameScope⟩
              cases sameKind
              cases sameScope
              exact Or.inl ⟨layer, rfl, carries⟩
            · have isOther : layer.kind = .state other := Plan.kind_stateKeys isState
              rw [isKind] at isOther
              cases isOther
            · rw [isKind] at isDigests
              cases isDigests
        | none =>
            refine Or.inr ⟨rfl, ?_⟩
            have isEntry : (ns, window) ∈ LogNs.all.flatMap fun ns =>
                plan.epochs.map fun window => (ns, window) :=
              List.mem_flatMap.mpr ⟨ns, by cases ns <;> decide,
                List.mem_map.mpr ⟨window, isWindow, rfl⟩⟩
            rcases mem_mapM_of_mem logsEq isEntry with ⟨part, isPart, partEq⟩
            rcases logLayers _ part partEq with ⟨carries, -, empty⟩
            apply empty
            cases part with
            | nil => rfl
            | cons layer rest =>
                have member : layer ∈ logs.flatten :=
                  List.mem_flatten.mpr ⟨_, isPart, List.mem_cons_self⟩
                exact absurd (key_of_carries (carries layer List.mem_cons_self))
                  (listedAt_eq_none.mp found layer
                    (by simp only [List.mem_append, member, true_or, or_true]))
    | state ns => cases isEpoch
    | digests => cases isEpoch
  · intro ns shard
    have isNs : ns ∈ StateNs.all := by cases ns <;> decide
    by_cases inside : shard < ns.shards
    · rcases mem_mapM_of_mem stateEq isNs with ⟨part, isPart, partEq⟩
      rcases readsBack.writeStateKind partEq with ⟨cut, tip, rfl, -, isTip⟩
      have inTip : shard < tip.length := by
        rw [← isTip.length_eq, List.length_range]
        exact inside
      have carries := isTip.get (by simpa using inside) inTip
      simp only [List.get_eq_getElem, List.getElem_range] at carries
      have member : tip[shard] ∈ state.flatten :=
        List.mem_flatten.mpr ⟨_, isPart, List.mem_append_right _ (List.getElem_mem inTip)⟩
      exact Or.inl ⟨tip[shard], (listedAt_eq_some once).mpr
        ⟨by simp only [List.mem_append, member, true_or, or_true], key_of_carries carries⟩,
        inside, carries⟩
    · refine Or.inr ⟨?_, Nat.le_of_not_lt inside⟩
      rw [listedAt_eq_none]
      intro layer member isKey
      have isListed := keys.subset (List.mem_map_of_mem member)
      rw [isKey] at isListed
      rcases Plan.mem_layerKeys isListed with ⟨isEpoch, -⟩ | ⟨other, isState⟩ | isDigests
      · cases isEpoch
      · have isNs : LayerKind.state ns = .state other := Plan.kind_stateKeys isState
        rcases List.mem_append.mp isState with isDump | isTip
        · rcases List.mem_map.mp isDump with ⟨_, -, same⟩
          cases same
        · rcases List.mem_map.mp isTip with ⟨place, inRange, same⟩
          cases same
          exact inside (List.mem_range.mp inRange)
      · cases isDigests

end Documents

end Dolos.Snapshot
