import Dolos.Snapshot.Selection

/-!
# Every layer finds its place

A document in which no kind and scope come twice, and whose epoch scopes are windows of one
plan, is selected without a refusal: the layers of an epoch are those its window names, and
the tip and the dumps are those their shards name.
-/

namespace Dolos.Snapshot

open Outcome

variable {V O D : Type}

/-- What a layer is listed under. -/
def LayerDescriptor.key (layer : LayerDescriptor D) : LayerKind × DescriptorScope :=
  (layer.kind, layer.scope)

/-- The first layer listed under a kind and a scope. -/
def listedAt (layers : List (LayerDescriptor D)) (kind : LayerKind) (scope : DescriptorScope) :
    Option (LayerDescriptor D) :=
  layers.find? fun layer => layer.key = (kind, scope)

/-- The layers that name a window. -/
def collected (layers : List (LayerDescriptor D)) (window : EpochWindow) : EpochLayers D where
  window := window
  blocks := listedAt layers .blocks (.epoch window)
  logs ns := listedAt layers (.log ns) (.epoch window)
  indexes := listedAt layers .indexes (.epoch window)

section Listed

variable {layers : List (LayerDescriptor D)} {layer : LayerDescriptor D} {kind : LayerKind}
  {scope : DescriptorScope} {window : EpochWindow}

theorem listedAt_eq_none : listedAt layers kind scope = none ↔
    ∀ layer ∈ layers, layer.key ≠ (kind, scope) := by
  simp only [listedAt, List.find?_eq_none, decide_eq_true_eq, ne_eq]

theorem listedAt_eq_some (once : (layers.map LayerDescriptor.key).Nodup) :
    listedAt layers kind scope = some layer ↔ layer ∈ layers ∧ layer.key = (kind, scope) := by
  constructor
  · intro found
    exact ⟨List.mem_of_find?_eq_some found, by simpa using List.find?_some found⟩
  · rintro ⟨member, isKey⟩
    cases found : listedAt layers kind scope with
    | none => exact absurd isKey (listedAt_eq_none.mp found layer member)
    | some other =>
        have otherKey : other.key = (kind, scope) := by simpa using List.find?_some found
        have same := List.inj_on_of_nodup_map once (List.mem_of_find?_eq_some found) member
          (otherKey.trans isKey.symm)
        rw [same]

theorem listedAt_concat : listedAt (layers ++ [layer]) kind scope =
    (listedAt layers kind scope).or (if layer.key = (kind, scope) then some layer else none) := by
  rw [listedAt, List.find?_append, List.find?_singleton]
  simp only [decide_eq_true_eq]
  rfl

theorem layer_collected (isEpoch : kind.isEpoch) :
    (collected layers window).layer kind = listedAt layers kind (.epoch window) := by
  cases kind with
  | blocks => rfl
  | indexes => rfl
  | log ns => rfl
  | state ns => cases isEpoch
  | digests => cases isEpoch

/-- A layer that names another window, or none. -/
theorem collected_concat_of_ne (elsewhere : layer.kind.isEpoch → layer.scope ≠ .epoch window) :
    collected (layers ++ [layer]) window = collected layers window := by
  have kept : ∀ kind : LayerKind, kind.isEpoch →
      listedAt (layers ++ [layer]) kind (.epoch window) =
        listedAt layers kind (.epoch window) := by
    intro kind isEpoch
    have other : layer.key ≠ (kind, .epoch window) := by
      intro same
      rcases Prod.mk.inj same with ⟨isKind, isScope⟩
      exact elsewhere (isKind ▸ isEpoch) isScope
    rw [listedAt_concat, if_neg other, Option.or_none]
  simp only [collected, kept _ (rfl : LayerKind.blocks.isEpoch = true),
    kept _ (rfl : LayerKind.indexes.isEpoch = true),
    kept _ (rfl : (LayerKind.log _).isEpoch = true)]

/-- The first layer of its kind that names the window takes its place. -/
theorem collected_concat (isEpoch : layer.kind.isEpoch) (isScope : layer.scope = .epoch window)
    (fresh : listedAt layers layer.kind (.epoch window) = none) :
    collected (layers ++ [layer]) window = (collected layers window).place layer := by
  have added : ∀ kind : LayerKind, listedAt (layers ++ [layer]) kind (.epoch window) =
      (listedAt layers kind (.epoch window)).or
        (if layer.kind = kind then some layer else none) := by
    intro kind
    rw [listedAt_concat]
    simp only [LayerDescriptor.key, isScope, Prod.mk.injEq, and_true]
  simp only [collected, added]
  cases isKind : layer.kind with
  | blocks =>
      rw [isKind] at fresh
      simp [EpochLayers.place, isKind, fresh]
  | indexes =>
      rw [isKind] at fresh
      simp [EpochLayers.place, isKind, fresh]
  | log ns =>
      rw [isKind] at fresh
      simp only [EpochLayers.place, isKind, reduceCtorEq, if_false, Option.or_none,
        LayerKind.log.injEq]
      congr 1
      funext other
      by_cases same : other = ns
      · subst same
        rw [fresh, Option.none_or, if_pos rfl]
      · rw [if_neg (Ne.symm same), if_neg same, Option.or_none]
  | state ns => simp [isKind, LayerKind.isEpoch] at isEpoch
  | digests => simp [isKind, LayerKind.isEpoch] at isEpoch

end Listed

/-- No kind and scope come twice, and every scope is one its kind can have. -/
structure Selectable (windows : List EpochWindow) (layers : List (LayerDescriptor D)) : Prop where
  once : (layers.map LayerDescriptor.key).Nodup
  epochs : ∀ layer ∈ layers, layer.kind.isEpoch →
    ∃ window ∈ windows, layer.scope = .epoch window
  states : ∀ layer ∈ layers, ∀ ns, layer.kind = .state ns →
    ∃ shard, layer.scope = .tip shard ∨ ∃ epoch, layer.scope = .dump epoch shard

namespace Selectable

variable {windows : List EpochWindow} {layers : List (LayerDescriptor D)}
  {layer : LayerDescriptor D}

theorem init (selectable : Selectable windows (layers ++ [layer])) : Selectable windows layers where
  once := by
    have once := selectable.once
    rw [List.map_append] at once
    exact (List.nodup_append.mp once).1
  epochs other member := selectable.epochs other (List.mem_append_left _ member)
  states other member := selectable.states other (List.mem_append_left _ member)

theorem fresh (selectable : Selectable windows (layers ++ [layer])) {kind : LayerKind}
    {scope : DescriptorScope} (isKey : layer.key = (kind, scope)) :
    listedAt layers kind scope = none := by
  have once := selectable.once
  rw [List.map_append] at once
  rw [listedAt_eq_none]
  intro other member same
  have isIn : layer.key ∈ layers.map LayerDescriptor.key :=
    List.mem_map.mpr ⟨other, member, same.trans isKey.symm⟩
  exact (List.nodup_append.mp once).2.2 _ isIn _ (List.mem_singleton_self _) rfl

/-- What `selectEpoch` makes of a document, layer by layer. -/
theorem foldlM_selectEpoch (selectable : Selectable windows layers)
    (distinct : ∀ first ∈ windows, ∀ second ∈ windows, first.epoch = second.epoch →
      first = second) :
    ∃ selected, layers.foldlM selectEpoch ∅ = .ok selected ∧
      ∀ epoch entry, selected.get? epoch = some entry ↔
        ∃ window ∈ windows, window.epoch = epoch ∧ entry = collected layers window ∧
          ∃ layer ∈ layers, layer.kind.isEpoch ∧ layer.scope = .epoch window := by
  induction layers using List.reverseRecOn with
  | nil =>
      refine ⟨∅, rfl, ?_⟩
      intro epoch entry
      rw [OrderedMap.get?_empty]
      simp
  | append_singleton layers layer ih =>
      rcases ih selectable.init with ⟨selected, selectedEq, holds⟩
      rw [List.foldlM_append, selectedEq, ok_bind, List.foldlM_cons]
      by_cases isEpoch : layer.kind.isEpoch
      · rcases selectable.epochs layer (by simp) isEpoch with ⟨window, isWindow, isScope⟩
        have fresh := selectable.fresh (show layer.key = (layer.kind, .epoch window) by
          rw [LayerDescriptor.key, isScope])
        -- An epoch that was not met yet has no layer that names its window.
        have entryEq : (selected.get? window.epoch).getD (.empty window) =
            collected layers window := by
          cases found : selected.get? window.epoch with
          | some entry =>
              rcases (holds _ _).mp found with ⟨other, isOther, sameEpoch, rfl, -⟩
              rw [distinct other isOther window isWindow sameEpoch]
              rfl
          | none =>
              have none_ : ∀ kind : LayerKind, kind.isEpoch →
                  listedAt layers kind (.epoch window) = none := by
                intro kind isKind
                rw [listedAt_eq_none]
                intro other member same
                rcases Prod.mk.inj same with ⟨otherKind, otherScope⟩
                have some_ := (holds window.epoch (collected layers window)).mpr
                  ⟨window, isWindow, rfl, rfl, other, member, otherKind ▸ isKind, otherScope⟩
                rw [found] at some_
                cases some_
              simp only [Option.getD_none, EpochLayers.empty, collected,
                none_ _ (rfl : LayerKind.blocks.isEpoch = true),
                none_ _ (rfl : LayerKind.indexes.isEpoch = true),
                none_ _ (rfl : (LayerKind.log _).isEpoch = true)]
        have round : selectEpoch selected layer =
            .ok (selected.insert window.epoch (collected (layers ++ [layer]) window)) := by
          rw [selectEpoch, if_pos isEpoch, scopeWindow, isScope]
          simp only [ok_bind, entryEq]
          rw [if_neg (by simp [collected]), layer_collected isEpoch, fresh,
            collected_concat isEpoch isScope fresh]
          simp
        refine ⟨_, by rw [round]; rfl, ?_⟩
        intro epoch entry
        rw [OrderedMap.get?_insert]
        split_ifs with here
        · constructor
          · intro same
            exact ⟨window, isWindow, here.symm, (Option.some.inj same).symm, layer, by simp,
              isEpoch, isScope⟩
          · rintro ⟨other, isOther, sameEpoch, rfl, -⟩
            rw [distinct other isOther window isWindow (sameEpoch.trans here)]
        · rw [holds]
          constructor
          · rintro ⟨other, isOther, sameEpoch, rfl, named, member, rest⟩
            refine ⟨other, isOther, sameEpoch, ?_, named, List.mem_append_left _ member, rest⟩
            refine (collected_concat_of_ne fun _ same => here ?_).symm
            rw [isScope] at same
            rw [← sameEpoch, DescriptorScope.epoch.inj same]
          · rintro ⟨other, isOther, sameEpoch, rfl, named, member, isKind, namedScope⟩
            have apart : layer.scope ≠ .epoch other := by
              intro same
              rw [isScope] at same
              exact here (sameEpoch.symm.trans (congrArg _ (DescriptorScope.epoch.inj same).symm))
            refine ⟨other, isOther, sameEpoch, collected_concat_of_ne fun _ => apart, named, ?_,
              isKind, namedScope⟩
            rcases List.mem_append.mp member with before | isLast
            · exact before
            · rw [List.mem_singleton.mp isLast] at namedScope
              exact absurd namedScope apart
      · refine ⟨selected, by rw [selectEpoch, if_neg isEpoch]; rfl, ?_⟩
        intro epoch entry
        rw [holds]
        constructor
        · rintro ⟨window, isWindow, sameEpoch, rfl, named, member, rest⟩
          exact ⟨window, isWindow, sameEpoch,
            (collected_concat_of_ne fun isKind => absurd isKind isEpoch).symm, named,
            List.mem_append_left _ member, rest⟩
        · rintro ⟨window, isWindow, sameEpoch, rfl, named, member, isKind, namedScope⟩
          refine ⟨window, isWindow, sameEpoch,
            collected_concat_of_ne fun isKind => absurd isKind isEpoch, named, ?_, isKind,
            namedScope⟩
          rcases List.mem_append.mp member with before | isLast
          · exact before
          · rw [List.mem_singleton.mp isLast] at isKind
            exact absurd isKind isEpoch

/-- The epochs of a document are the windows of its plan, when each of them has a layer. -/
theorem selectEpochs (selectable : Selectable windows layers)
    (inOrder : windows.Pairwise fun earlier later => earlier.epoch < later.epoch)
    (covered : ∀ window ∈ windows, ∃ layer ∈ layers, layer.kind.isEpoch ∧
      layer.scope = .epoch window) :
    Snapshot.selectEpochs layers = .ok (windows.map (collected layers)) := by
  have distinct : ∀ first ∈ windows, ∀ second ∈ windows, first.epoch = second.epoch →
      first = second := by
    have once : (windows.map EpochWindow.epoch).Nodup := by
      rw [List.Nodup, List.pairwise_map]
      exact inOrder.imp fun below => below.ne
    intro first isFirst second isSecond same
    exact List.inj_on_of_nodup_map once isFirst isSecond same
  rcases selectable.foldlM_selectEpoch distinct with ⟨selected, selectedEq, holds⟩
  have entries :
      selected.entries = windows.map fun window => (window.epoch, collected layers window) := by
    apply OrderedMap.sorted_ext selected.sorted
    · rw [List.pairwise_map]
      exact inOrder
    · rintro ⟨epoch, entry⟩
      rw [OrderedMap.mem_entries_iff, holds, List.mem_map]
      constructor
      · rintro ⟨window, isWindow, rfl, rfl, -⟩
        exact ⟨window, isWindow, rfl⟩
      · rintro ⟨window, isWindow, same⟩
        rcases Prod.mk.inj same with ⟨rfl, rfl⟩
        exact ⟨window, isWindow, rfl, rfl, covered window isWindow⟩
  rw [Snapshot.selectEpochs, selectedEq, ok_bind, entries, List.map_map]
  rfl

/-- A shard that is not held yet is added under its namespace. -/
theorem add_eq_ok {shards : Shards D} {ns : StateNs} {shard : ℕ} (layer : LayerDescriptor D)
    (fresh : (shards ns).get? shard = none) :
    ∃ next, shards.add ns shard layer = .ok next ∧ ∀ other place,
      (next other).get? place =
        if other = ns ∧ place = shard then some layer else (shards other).get? place := by
  refine ⟨_, by rw [Shards.add, fresh]; rfl, ?_⟩
  intro other place
  by_cases isNs : other = ns
  · subst isNs
    rw [if_pos rfl, OrderedMap.get?_insert]
    simp
  · rw [if_neg isNs, if_neg fun both => isNs both.1]

/-- What `selectShard` makes of a document, layer by layer. -/
theorem foldlM_selectShard (selectable : Selectable windows layers) :
    ∃ state, layers.foldlM selectShard ⟨.empty, ∅⟩ = .ok state ∧
      (∀ ns shard, (state.tip ns).get? shard = listedAt layers (.state ns) (.tip shard)) ∧
      ∀ epoch ns shard, (((state.dumps.get? epoch).getD .empty) ns).get? shard =
        listedAt layers (.state ns) (.dump epoch shard) := by
  induction layers using List.reverseRecOn with
  | nil => exact ⟨_, rfl, fun _ _ => rfl, fun _ _ _ => rfl⟩
  | append_singleton layers layer ih =>
      rcases ih selectable.init with ⟨state, stateEq, tip, dumps⟩
      rw [List.foldlM_append, stateEq, ok_bind, List.foldlM_cons]
      by_cases isState : ∃ ns, layer.kind = .state ns
      · rcases isState with ⟨ns, isKind⟩
        rcases selectable.states layer (by simp) ns isKind with
          ⟨shard, isScope | ⟨epoch, isScope⟩⟩
        · have isKey : layer.key = (.state ns, .tip shard) := by
            rw [LayerDescriptor.key, isKind, isScope]
          have fresh := selectable.fresh isKey
          rw [← tip] at fresh
          rcases add_eq_ok layer fresh with ⟨next, nextEq, nextGet⟩
          refine ⟨⟨next, state.dumps⟩, ?_, ?_, ?_⟩
          · simp only [selectShard, isKind, isScope, nextEq, ok_bind, List.foldlM_nil]
            rfl
          · intro other place
            rw [nextGet, listedAt_concat, ← tip, isKey]
            by_cases same : other = ns ∧ place = shard
            · rcases same with ⟨rfl, rfl⟩
              rw [if_pos ⟨rfl, rfl⟩, fresh, if_pos rfl, Option.none_or]
            · rw [if_neg same, if_neg (by simpa [eq_comm] using same), Option.or_none]
          · intro epoch other place
            rw [dumps, listedAt_concat, isKey, if_neg (by simp), Option.or_none]
        · have isKey : layer.key = (.state ns, .dump epoch shard) := by
            rw [LayerDescriptor.key, isKind, isScope]
          have fresh := selectable.fresh isKey
          rw [← dumps] at fresh
          rcases add_eq_ok layer fresh with ⟨next, nextEq, nextGet⟩
          refine ⟨⟨state.tip, state.dumps.insert epoch next⟩, ?_, ?_, ?_⟩
          · simp only [selectShard, isKind, isScope, nextEq, ok_bind, List.foldlM_nil]
            rfl
          · intro other place
            rw [tip, listedAt_concat, isKey, if_neg (by simp), Option.or_none]
          · intro named other place
            rw [OrderedMap.get?_insert, listedAt_concat, ← dumps, isKey]
            by_cases sameEpoch : named = epoch
            · subst sameEpoch
              rw [if_pos rfl, Option.getD_some, nextGet]
              by_cases same : other = ns ∧ place = shard
              · rcases same with ⟨rfl, rfl⟩
                rw [if_pos ⟨rfl, rfl⟩, fresh, if_pos rfl, Option.none_or]
              · rw [if_neg same, if_neg (by simpa [eq_comm] using same), Option.or_none]
            · rw [if_neg sameEpoch, if_neg (by simp [Ne.symm sameEpoch]), Option.or_none]
      · have otherKind : ∀ ns, layer.kind ≠ .state ns := fun ns same => isState ⟨ns, same⟩
        have apart : ∀ ns scope, layer.key ≠ (.state ns, scope) :=
          fun ns scope same => otherKind ns (Prod.mk.inj same).1
        refine ⟨state, ?_, ?_, ?_⟩
        · have round : selectShard state layer = .ok state := by
            rw [selectShard]
            split
            · rename_i ns isKind
              exact absurd isKind (otherKind ns)
            · rfl
          rw [round]
          rfl
        · intro ns shard
          rw [tip, listedAt_concat, if_neg (apart ns _), Option.or_none]
        · intro epoch ns shard
          rw [dumps, listedAt_concat, if_neg (apart ns _), Option.or_none]

/-- The tip of a document that has exactly the shards of every namespace. -/
theorem selectState (selectable : Selectable windows layers)
    (whole : ∀ ns shard, (listedAt layers (.state ns) (.tip shard)).isSome ↔ shard < ns.shards) :
    ∃ state, Snapshot.selectState layers = .ok state ∧
      ∀ ns shard, (state.tip ns).get? shard = listedAt layers (.state ns) (.tip shard) := by
  rcases selectable.foldlM_selectShard with ⟨state, stateEq, tip, -⟩
  have keys : ∀ ns, (state.tip ns).keys = List.range ns.shards := by
    intro ns
    have sorted : (state.tip ns).keys.Pairwise (· < ·) := by
      rw [OrderedMap.keys, List.pairwise_map]
      exact (state.tip ns).sorted
    refine List.Perm.eq_of_pairwise (fun _ _ _ _ below above => absurd below above.not_gt) sorted
      List.pairwise_lt_range ?_
    rw [List.perm_ext_iff_of_nodup (sorted.imp fun below => below.ne) List.nodup_range]
    intro shard
    rw [OrderedMap.mem_keys_iff, tip, whole, List.mem_range]
  have checked : checkTip state.tip = .ok () := by
    rw [checkTip]
    simp only [keys]
    rfl
  exact ⟨state, by rw [Snapshot.selectState, stateEq, ok_bind, checked]; rfl, tip⟩

end Selectable

end Dolos.Snapshot
