import Dolos.Snapshot.Exported
import Dolos.Snapshot.Incremental

/-!
# Restoring undoes exporting

A node exported whole and restored into empty stores is the node again, as far as its
records fall into the windows of the plan and the history window of the restore: every
layer finds its place, every record is written back under the key it was read from, and
the tags of the unspent outputs, which no layer has, are rebuilt from them.
-/

namespace Dolos.Snapshot

open Outcome BlockDecoding

variable {V O D : Type}

def EpochWrite.slot : EpochWrite V → ℕ
  | block slot _ => slot
  | log _ key _ => (ofLex key).1
  | tag record => record.2.2
  | exact _ slot => slot

namespace Plan

/-- Whether the records of a slot are exported, and restored under a history window. -/
def Remembers (plan : Plan) (maxHistory : Option ℕ) (slot : ℕ) : Prop :=
  ∃ window ∈ plan.epochs.filter (fun window =>
    maxHistory.all fun maxHistory => plan.cursor.slot - maxHistory ≤ window.endSlot),
    window.Contains slot

instance (plan : Plan) (maxHistory : Option ℕ) (slot : ℕ) :
    Decidable (plan.Remembers maxHistory slot) :=
  inferInstanceAs (Decidable (∃ window ∈ _, _))

end Plan

namespace Node

/-- The node with the blocks, log rows and index records of some slots only. -/
def within (node : Node V O) (keep : ℕ → Prop) [DecidablePred keep] : Node V O :=
  { node with
    blocks := node.blocks.filter (keep ·.1)
    logs := ⟨fun ns => (node.logs.rows ns).filter fun key _ => keep (ofLex key).1⟩
    indexes := { node.indexes with
      archiveTags := node.indexes.archiveTags.filter (keep ·.2.2)
      exact := node.indexes.exact.filter fun _ slot => keep slot } }

theorem holdsEpoch_within {node : Node V O} {keep : ℕ → Prop} [DecidablePred keep]
    {write : EpochWrite V} :
    (node.within keep).HoldsEpoch write ↔ node.HoldsEpoch write ∧ keep write.slot := by
  cases write with
  | block slot body => simp [HoldsEpoch, within, EpochWrite.slot]
  | log ns key value =>
      simp [HoldsEpoch, within, EpochWrite.slot, OrderedMap.get?_filter, Option.filter_eq_some_iff]
  | tag record => simp [HoldsEpoch, within, EpochWrite.slot]
  | exact key slot =>
      simp [HoldsEpoch, within, EpochWrite.slot, OrderedMap.get?_filter, Option.filter_eq_some_iff]

theorem holdsTip_within {node : Node V O} {keep : ℕ → Prop} [DecidablePred keep]
    {write : TipWrite V O} : (node.within keep).HoldsTip write ↔ node.HoldsTip write := by
  cases write <;> rfl

/-- Nothing is left out when every record is of a kept slot. -/
theorem within_eq_self {node : Node V O} {keep : ℕ → Prop} [DecidablePred keep]
    (all : ∀ write, node.HoldsEpoch write → keep write.slot) : node.within keep = node := by
  refine eq_of_holds (rfl : (node.within keep).cursor = node.cursor) rfl ?_ ?_ ?_ rfl
  · apply List.filter_eq_self.mpr
    rintro ⟨slot, body⟩ member
    exact decide_eq_true (all (.block slot body) member)
  · intro write
    rw [holdsEpoch_within]
    exact ⟨And.left, fun holds => ⟨holds, all write holds⟩⟩
  · intro write
    exact holdsTip_within

/-- What holds of the stores between two blocks: both cursors are at the point, the blocks are
in the order of their slots, no entity has the last key, and the tags are those of the
unspent outputs. -/
structure Settled [BlockDecoding O] (node : Node V O) (point : ChainPoint) : Prop where
  cursor : node.cursor = some point
  indexCursor : node.indexes.cursor = some point
  blocks : node.blocks.Nodup
  inOrder : node.blocks.Pairwise fun first second => first.1 ≤ second.1
  outputs : node.entities .utxos = ∅
  keys : ∀ ns, (node.entities ns).get? lastEntityKey = none
  tags : ∀ entry, entry ∈ node.indexes.utxoTags ↔
    ∃ body, node.utxos.get? entry.2 = some body ∧ entry.1 ∈ extractUtxoTags (output body)

end Node

section Lists

variable {A : Type} {rank : A → ℕ}

/-- A sorted list in two parts, the one below the other. -/
theorem filter_or_of_sorted (below above : A → Prop) [DecidablePred below] [DecidablePred above]
    (apart : ∀ first second, below first → above second → rank first < rank second)
    {items : List A} (sorted : items.Pairwise fun first second => rank first ≤ rank second) :
    items.filter (fun item => below item ∨ above item) =
      items.filter (below ·) ++ items.filter (above ·) := by
  induction sorted with
  | nil => rfl
  | @cons item rest least _ ih =>
      by_cases isBelow : below item
      · have notAbove : ¬ above item := fun isAbove =>
          (apart item item isBelow isAbove).false
        simp only [List.filter_cons, isBelow, notAbove, true_or, decide_true, decide_false, if_true,
          Bool.false_eq_true, if_false, ih, List.cons_append]
      · by_cases isAbove : above item
        · have noneBelow : rest.filter (below ·) = [] := by
            apply List.filter_eq_nil_iff.mpr
            intro later member
            have atLeast := least later member
            intro isLaterBelow
            have under := apart later item (of_decide_eq_true isLaterBelow) isAbove
            omega
          simp only [List.filter_cons, isBelow, isAbove, or_true, decide_true, decide_false,
            if_true, Bool.false_eq_true, if_false, ih, noneBelow, List.nil_append]
        · simp only [List.filter_cons, isBelow, isAbove, or_self, decide_false,
            Bool.false_eq_true, if_false, ih]

/-- Blocks in the order of their slots, window by window. -/
theorem flatMap_filter_windows {windows : List EpochWindow} (ascending : Ascending windows)
    {items : List A} (sorted : items.Pairwise fun first second => rank first ≤ rank second) :
    windows.flatMap (fun window => items.filter fun item => window.Contains (rank item)) =
      items.filter fun item => ∃ window ∈ windows, window.Contains (rank item) := by
  induction windows with
  | nil => simp
  | cons window rest ih =>
      rcases List.pairwise_cons.mp ascending.inOrder with ⟨later, -⟩
      have split := filter_or_of_sorted (fun item => window.Contains (rank item))
        (fun item => ∃ other ∈ rest, other.Contains (rank item))
        (by
          rintro first second isFirst ⟨other, isOther, isSecond⟩
          have before := later other isOther
          have endOf : rank first < window.endSlot + 1 := isFirst.2
          have startOf : other.startSlot ≤ rank second := isSecond.1
          omega) sorted
      rw [List.flatMap_cons, ih (ascending.sublist (List.sublist_cons_self _ _)), ← split]
      simp only [List.mem_cons, exists_eq_or_imp]

theorem forM_eq_ok {E : Type} {check : A → Except E Unit} {items : List A}
    (each : ∀ item ∈ items, check item = .ok ()) : items.forM check = .ok () := by
  induction items with
  | nil => rfl
  | cons item rest ih =>
      rcases List.forall_mem_cons.mp each with ⟨head, later⟩
      change (check item >>= fun _ => rest.forM check) = .ok ()
      rw [head, ok_bind]
      exact ih later

end Lists

section Records

variable {read : D → LayerSpec × List (Record V O)} {epochSize : EpochWrite V → ℕ}
  {tipSize : TipWrite V O → ℕ} {decode : Bytes → Option BlockHash} {node : Node V O} {plan : Plan}
  {layers : List (LayerDescriptor D)} {window : EpochWindow}

/-- The kinds of an epoch, as a restore reads them. -/
def epochKinds : List LayerKind := .blocks :: LogNs.all.map .log ++ [.indexes]

/-- What the records of a window are written as. -/
def windowWrites (decode : Bytes → Option BlockHash) (node : Node V O) (window : EpochWindow) :
    List (EpochWrite V) :=
  epochKinds.flatMap fun kind =>
    (node.layerRecords decode window kind).filterMap (epochWrite kind)

theorem contents_epoch {layer : LayerDescriptor D} {spec : LayerSpec}
    {records : List (Record V O)} (carries : Carries read layer spec records) :
    (contentsOf read epochSize tipSize).epoch layer.diffId =
      records.filterMap (epochWrite spec.kind) := by
  simp only [contentsOf, carries.records]

theorem contents_tip {layer : LayerDescriptor D} {spec : LayerSpec}
    {records : List (Record V O)} (carries : Carries read layer spec records) :
    (contentsOf read epochSize tipSize).tip layer.diffId =
      records.filterMap (tipWrite spec.kind) := by
  simp only [contentsOf, carries.records]

theorem mem_descriptors {layer : LayerDescriptor D}
    (member : layer ∈ (collected layers window).descriptors) :
    ∃ kind : LayerKind, kind.isEpoch ∧ listedAt layers kind (.epoch window) = some layer := by
  simp only [EpochLayers.descriptors, List.mem_append, Option.mem_toList,
    List.mem_filterMap] at member
  rcases member with (isBlocks | ⟨ns, -, isLog⟩) | isIndexes
  · exact ⟨.blocks, rfl, isBlocks⟩
  · exact ⟨.log ns, rfl, isLog⟩
  · exact ⟨.indexes, rfl, isIndexes⟩

/-- The layers of a window are written as its records. -/
theorem epochRecords_collected (exported : Exported read decode node plan layers)
    (isWindow : window ∈ plan.epochs) :
    epochRecords (contentsOf read epochSize tipSize)
        ((collected layers window).descriptors.map LayerDescriptor.diffId) =
      windowWrites decode node window := by
  have one : ∀ kind : LayerKind, kind.isEpoch →
      (listedAt layers kind (.epoch window)).toList.flatMap
          (fun layer => (contentsOf read epochSize tipSize).epoch layer.diffId) =
        (node.layerRecords decode window kind).filterMap (epochWrite kind) := by
    intro kind isEpoch
    rcases exported.epochs kind isEpoch window isWindow with
      ⟨layer, found, carries⟩ | ⟨found, empty⟩
    · rw [found, Option.toList_some, List.flatMap_singleton]
      exact contents_epoch carries
    · rw [found, empty]
      rfl
  have logs : ∀ namespaces : List LogNs,
      (namespaces.filterMap (collected layers window).logs).flatMap
        (fun layer => (contentsOf read epochSize tipSize).epoch layer.diffId) =
        namespaces.flatMap fun ns =>
          (node.layerRecords decode window (.log ns)).filterMap (epochWrite (.log ns)) := by
    intro namespaces
    induction namespaces with
    | nil => rfl
    | cons ns rest ih =>
        rw [List.flatMap_cons, ← ih, ← one (.log ns) rfl]
        cases found : (collected layers window).logs ns with
        | none =>
            have isNone : listedAt layers (.log ns) (.epoch window) = none := found
            rw [List.filterMap_cons_none found, isNone]
            rfl
        | some layer =>
            have isSome : listedAt layers (.log ns) (.epoch window) = some layer := found
            rw [List.filterMap_cons_some found, isSome, List.flatMap_cons, Option.toList_some,
              List.flatMap_singleton]
  rw [epochRecords, List.flatMap_map, EpochLayers.descriptors, List.flatMap_append,
    List.flatMap_append, logs, windowWrites, epochKinds, List.cons_append, List.flatMap_cons,
    List.flatMap_append, List.flatMap_map, List.flatMap_singleton, List.append_assoc]
  exact congrArg₂ _ (one .blocks rfl) (congrArg₂ _ rfl (one .indexes rfl))

theorem mem_windowWrites {write : EpochWrite V} : write ∈ windowWrites decode node window ↔
    node.HoldsEpoch write ∧ window.Contains write.slot := by
  have kinds : write ∈ windowWrites decode node window ↔ ∃ kind ∈ epochKinds,
      ∃ record ∈ node.layerRecords decode window kind, epochWrite kind record = some write := by
    simp only [windowWrites, List.mem_flatMap, List.mem_filterMap]
  have logs : ∀ ns, LayerKind.log ns ∈ epochKinds := by
    intro ns
    cases ns <;> decide
  rw [kinds]
  constructor
  · rintro ⟨kind, isKind, record, member, written⟩
    cases kind with
    | blocks =>
        rcases List.mem_map.mp member with ⟨⟨slot, body⟩, isIn, rfl⟩
        rcases Option.some.inj written with rfl
        rcases List.mem_filter.mp isIn with ⟨isHeld, inside⟩
        exact ⟨isHeld, of_decide_eq_true inside⟩
    | indexes =>
        rcases List.mem_append.mp member with isTag | isExact
        · rcases List.mem_map.mp isTag with ⟨tag, isIn, rfl⟩
          rcases Option.some.inj written with rfl
          rw [Finset.mem_sort, Finset.mem_filter] at isIn
          exact isIn
        · rcases List.mem_map.mp isExact with ⟨⟨key, slot⟩, isIn, rfl⟩
          rcases Option.some.inj written with rfl
          rw [OrderedMap.mem_entries_iff, OrderedMap.get?_filter,
            Option.filter_eq_some_iff] at isIn
          exact ⟨isIn.1, of_decide_eq_true isIn.2⟩
    | log ns =>
        rcases List.mem_map.mp member with ⟨⟨key, value⟩, isIn, rfl⟩
        rcases Option.some.inj written with rfl
        rw [OrderedMap.mem_entries_iff, OrderedMap.get?_filter, Option.filter_eq_some_iff] at isIn
        exact ⟨isIn.1, of_decide_eq_true isIn.2⟩
    | state ns => cases member
    | digests => cases member
  · rintro ⟨holds, inside⟩
    cases write with
    | block slot body =>
        exact ⟨.blocks, by decide, _, List.mem_map.mpr
          ⟨(slot, body), List.mem_filter.mpr ⟨holds, decide_eq_true inside⟩, rfl⟩, rfl⟩
    | log ns key value =>
        refine ⟨.log ns, logs ns, .log key value, List.mem_map.mpr ⟨(key, value), ?_, rfl⟩, rfl⟩
        rw [OrderedMap.mem_entries_iff, OrderedMap.get?_filter, Option.filter_eq_some_iff]
        exact ⟨holds, decide_eq_true inside⟩
    | tag record =>
        refine ⟨.indexes, by decide, .index (.tag record),
          List.mem_append_left _ (List.mem_map.mpr ⟨record, ?_, rfl⟩), rfl⟩
        rw [Finset.mem_sort, Finset.mem_filter]
        exact ⟨holds, inside⟩
    | exact key slot =>
        refine ⟨.indexes, by decide, .index (.exact key slot),
          List.mem_append_right _ (List.mem_map.mpr ⟨(key, slot), ?_, rfl⟩), rfl⟩
        rw [OrderedMap.mem_entries_iff, OrderedMap.get?_filter, Option.filter_eq_some_iff]
        exact ⟨holds, decide_eq_true inside⟩

/-- The blocks of a window, in their order. -/
theorem blocksOf_windowWrites : blocksOf (windowWrites decode node window) =
    node.blocks.filter (window.Contains ·.1) := by
  have noBlocks : ∀ kind : LayerKind, kind ≠ .blocks → ∀ records : List (Record V O),
      (records.filterMap (epochWrite kind)).filterMap EpochWrite.asBlock? = [] := by
    intro kind apart records
    rw [List.filterMap_eq_nil_iff]
    intro write member
    rcases List.mem_filterMap.mp member with ⟨record, -, written⟩
    unfold epochWrite at written
    split at written
    · exact absurd rfl apart
    · rcases Option.some.inj written with rfl
      rfl
    · rcases Option.some.inj written with rfl
      rfl
    · rcases Option.some.inj written with rfl
      rfl
    · cases written
  have later : ∀ kinds : List LayerKind, .blocks ∉ kinds →
      (kinds.flatMap fun kind => (node.layerRecords decode window kind).filterMap
        (epochWrite kind)).filterMap EpochWrite.asBlock? = [] := by
    intro kinds apart
    rw [List.filterMap_flatMap, List.flatMap_eq_nil_iff]
    exact fun kind isKind => noBlocks kind (fun same => apart (same ▸ isKind)) _
  rw [blocksOf, windowWrites, epochKinds, List.cons_append, List.flatMap_cons,
    List.filterMap_append, later _ (by decide), List.append_nil, Node.layerRecords,
    List.filterMap_map, List.filterMap_filterMap]
  exact List.filterMap_some_fun ▸ rfl

theorem shardOf_lt (leading : Fin (2 ^ 256)) (ns : StateNs) :
    shardOf leading ns.shards < ns.shards := by
  have below : leading.val / 2 ^ 252 < 16 := by
    have bound := leading.isLt
    omega
  cases ns <;> simp only [shardOf, StateNs.shards] <;> first
    | exact below
    | exact Nat.zero_lt_one

/-- Every entity and every output is in the layer of its shard. -/
theorem mem_shardRecords {point : ChainPoint} [BlockDecoding O] (settled : node.Settled point)
    {write : TipWrite V O} :
    (∃ ns, ∃ shard < ns.shards, ∃ record ∈ node.shardRecords ns shard,
      tipWrite (.state ns) record = some write) ↔ node.HoldsTip write := by
  constructor
  · rintro ⟨ns, shard, -, record, member, written⟩
    by_cases isUtxos : ns = .utxos
    · subst isUtxos
      rw [Node.shardRecords, if_pos rfl] at member
      rcases List.mem_map.mp member with ⟨⟨txo, value⟩, isIn, rfl⟩
      rcases Option.some.inj written with rfl
      exact OrderedMap.mem_entries_iff.mp (List.mem_filter.mp isIn).1
    · rw [Node.shardRecords, if_neg isUtxos] at member
      rcases List.mem_map.mp member with ⟨⟨key, value⟩, isIn, rfl⟩
      have same : write = .entity ns key value := by
        cases ns <;> first | exact absurd rfl isUtxos | exact (Option.some.inj written).symm
      rw [same]
      exact OrderedMap.mem_entries_iff.mp (List.mem_filter.mp (List.mem_filter.mp isIn).1).1
  · intro holds
    cases write with
    | entity ns key value =>
        have isEntity : ns ≠ .utxos := by
          rintro rfl
          rw [Node.HoldsTip, settled.outputs] at holds
          cases holds
        have below : key < lastEntityKey := by
          refine lt_of_le_of_ne (Fin.le_last key) ?_
          rintro rfl
          rw [Node.HoldsTip, settled.keys] at holds
          cases holds
        refine ⟨ns, _, shardOf_lt key ns, .entity key value, ?_, ?_⟩
        · rw [Node.shardRecords, if_neg isEntity]
          refine List.mem_map.mpr ⟨(key, value), List.mem_filter.mpr ⟨List.mem_filter.mpr
            ⟨OrderedMap.mem_entries_iff.mpr holds, decide_eq_true below⟩, decide_eq_true rfl⟩, rfl⟩
        · cases ns <;> first | exact absurd rfl isEntity | rfl
    | utxo txo value =>
        refine ⟨.utxos, _, shardOf_lt (ofLex txo).1 .utxos, .utxo txo value, ?_, rfl⟩
        rw [Node.shardRecords, if_pos rfl]
        exact List.mem_map.mpr ⟨(txo, value), List.mem_filter.mpr
          ⟨OrderedMap.mem_entries_iff.mpr holds, decide_eq_true rfl⟩, rfl⟩

/-- Every record of an export is one its layer's kind can have. -/
theorem checkLayer_epoch {layer : LayerDescriptor D} {kind : LayerKind} {magic : ℕ}
    (carries : Carries read layer (window.spec magic kind) (node.layerRecords decode window kind)) :
    checkLayer read magic layer = .ok () := by
  have all : ∀ record ∈ node.layerRecords decode window kind, (epochWrite kind record).isSome := by
    intro record member
    cases kind with
    | blocks =>
        rcases List.mem_map.mp member with ⟨_, -, rfl⟩
        rfl
    | indexes =>
        rcases List.mem_append.mp member with isTag | isExact
        · rcases List.mem_map.mp isTag with ⟨_, -, rfl⟩
          rfl
        · rcases List.mem_map.mp isExact with ⟨_, -, rfl⟩
          rfl
    | log ns =>
        rcases List.mem_map.mp member with ⟨_, -, rfl⟩
        rfl
    | state ns => cases member
    | digests => cases member
  rw [checkLayer, carries.records]
  simp only [EpochWindow.spec, LayerScope.magic, ne_eq, not_true_eq_false, if_false]
  refine if_pos (List.all_eq_true.mpr fun record member => ?_)
  rw [carries.kind]
  exact Bool.or_eq_true_iff.mpr (Or.inl (all record member))

theorem checkLayer_tip {layer : LayerDescriptor D} {ns : StateNs} {magic sequence shard : ℕ}
    (carries : Carries read layer ⟨.state ns, .tip magic sequence shard⟩
      (node.shardRecords ns shard)) : checkLayer read magic layer = .ok () := by
  have all : ∀ record ∈ node.shardRecords ns shard,
      (tipWrite (.state ns) record).isSome := by
    intro record member
    by_cases isUtxos : ns = .utxos
    · subst isUtxos
      rw [Node.shardRecords, if_pos rfl] at member
      rcases List.mem_map.mp member with ⟨_, -, rfl⟩
      rfl
    · rw [Node.shardRecords, if_neg isUtxos] at member
      rcases List.mem_map.mp member with ⟨_, -, rfl⟩
      cases ns <;> first | exact absurd rfl isUtxos | rfl
  rw [checkLayer, carries.records]
  simp only [LayerScope.magic, ne_eq, not_true_eq_false, if_false]
  refine if_pos (List.all_eq_true.mpr fun record member => ?_)
  rw [carries.kind]
  exact Bool.or_eq_true_iff.mpr (Or.inr (all record member))

end Records

section Restored

variable {read : D → LayerSpec × List (Record V O)} {epochSize : EpochWrite V → ℕ}
  {tipSize : TipWrite V O → ℕ} {decode : Bytes → Option BlockHash} {node : Node V O} {plan : Plan}
  {inscription : Inscription D} {maxHistory : Option ℕ}

/-- The document of a node, listed where its plan stands. -/
structure Documents (read : D → LayerSpec × List (Record V O)) (decode : Bytes → Option BlockHash)
    (node : Node V O) (plan : Plan) (inscription : Inscription D) : Prop where
  position : inscription.position = ⟨plan.magic, plan.cursor, plan.sequence⟩
  exported : Exported read decode node plan inscription.layers

/-- What a restore reads of the document of a node. -/
structure Reads (plan : Plan) (inscription : Inscription D) (maxHistory : Option ℕ)
    (reading : RestorePlan D) : Prop where
  position : reading.position.point = plan.cursor
  epochs : reading.epochs = (plan.epochs.filter fun window =>
    maxHistory.all fun maxHistory => plan.cursor.slot - maxHistory ≤ window.endSlot).map
      (collected inscription.layers)
  state : ∀ ns shard, (reading.state ns).get? shard =
    listedAt inscription.layers (.state ns) (.tip shard)

/-- A restore selects every window in its history, and the whole tip. -/
theorem Documents.reads (documents : Documents read decode node plan inscription)
    (inOrder : plan.epochs.Pairwise fun earlier later => earlier.epoch < later.epoch)
    (maxHistory : Option ℕ) :
    ∃ reading, RestorePlan.new inscription plan.magic maxHistory = .ok reading ∧
      Reads plan inscription maxHistory reading := by
  rcases documents with ⟨position, exported⟩
  have epochsEq := exported.selectable.selectEpochs inOrder fun window isWindow => by
    rcases exported.blocks window isWindow with ⟨layer, member, carries⟩
    exact ⟨layer, member, by rw [carries.kind]; rfl, carries.scope⟩
  have whole : ∀ ns shard,
      (listedAt inscription.layers (.state ns) (.tip shard)).isSome ↔ shard < ns.shards := by
    intro ns shard
    rcases exported.tip ns shard with ⟨layer, found, inside, -⟩ | ⟨found, outside⟩
    · simp [found, inside]
    · simp [found, outside]
  rcases exported.selectable.selectState whole with ⟨state, stateEq, tip⟩
  let kept := retainHistory (plan.epochs.map (collected inscription.layers)) plan.cursor.slot
    maxHistory
  refine ⟨⟨⟨plan.magic, plan.cursor, plan.sequence⟩, inscription.sequence, kept.1, state.tip,
    state.dumps, kept.2⟩, ?_, rfl, ?_, tip⟩
  · rw [RestorePlan.new, position, if_neg (by simp), epochsEq, stateEq]
    rfl
  · cases maxHistory with
    | none => simp [kept, retainHistory]
    | some maxHistory =>
        simp only [kept, retainHistory, Option.all_some, List.filter_map]
        rfl

variable {reading : RestorePlan D}

theorem Reads.mem_tipLayers (reads : Reads plan inscription maxHistory reading)
    {layer : LayerDescriptor D} : layer ∈ reading.tipLayers ↔
      ∃ ns shard, listedAt inscription.layers (.state ns) (.tip shard) = some layer := by
  rw [RestorePlan.tipLayers, List.mem_flatMap]
  constructor
  · rintro ⟨ns, -, member⟩
    rcases List.mem_map.mp member with ⟨⟨shard, _⟩, isEntry, rfl⟩
    exact ⟨ns, shard, by rw [← reads.state, OrderedMap.mem_entries_iff.mp isEntry]⟩
  · rintro ⟨ns, shard, found⟩
    refine ⟨ns, by cases ns <;> decide, List.mem_map.mpr ⟨(shard, layer), ?_, rfl⟩⟩
    rw [OrderedMap.mem_entries_iff, reads.state, found]

theorem Reads.epochRecords (reads : Reads plan inscription maxHistory reading)
    (exported : Exported read decode node plan inscription.layers) :
    Snapshot.epochRecords (contentsOf read epochSize tipSize) reading.reading.epochs =
      (plan.epochs.filter fun window => maxHistory.all fun maxHistory =>
        plan.cursor.slot - maxHistory ≤ window.endSlot).flatMap (windowWrites decode node) := by
  rw [RestorePlan.reading, RestorePlan.immutableLayers, reads.epochs]
  have each : ∀ windows : List EpochWindow, (∀ window ∈ windows, window ∈ plan.epochs) →
      Snapshot.epochRecords (contentsOf read epochSize tipSize)
        (((windows.map (collected inscription.layers)).flatMap EpochLayers.descriptors).map
          LayerDescriptor.diffId) = windows.flatMap (windowWrites decode node) := by
    intro windows inPlan
    induction windows with
    | nil => rfl
    | cons window rest ih =>
        rcases List.forall_mem_cons.mp inPlan with ⟨isWindow, later⟩
        rw [List.flatMap_cons, ← ih later, ← epochRecords_collected exported isWindow,
          Snapshot.epochRecords, Snapshot.epochRecords, Snapshot.epochRecords,
          ← List.flatMap_append, List.map_cons, List.flatMap_cons, List.map_append]
  exact each _ fun window member => List.mem_of_mem_filter member

theorem Reads.mem_epochRecords (reads : Reads plan inscription maxHistory reading)
    (exported : Exported read decode node plan inscription.layers) {write : EpochWrite V} :
    write ∈ Snapshot.epochRecords (contentsOf read epochSize tipSize) reading.reading.epochs ↔
      (node.within (plan.Remembers maxHistory)).HoldsEpoch write := by
  rw [reads.epochRecords exported, List.mem_flatMap, Node.holdsEpoch_within, Plan.Remembers]
  constructor
  · rintro ⟨window, isWindow, member⟩
    rcases mem_windowWrites.mp member with ⟨holds, inside⟩
    exact ⟨holds, window, isWindow, inside⟩
  · rintro ⟨holds, window, isWindow, inside⟩
    exact ⟨window, isWindow, mem_windowWrites.mpr ⟨holds, inside⟩⟩

/-- The blocks of a document follow each other as they do in the archive. -/
theorem Reads.epochBlocks (reads : Reads plan inscription maxHistory reading)
    (exported : Exported read decode node plan inscription.layers)
    (ascending : Ascending plan.epochs)
    (inOrder : node.blocks.Pairwise fun first second => first.1 ≤ second.1) :
    Snapshot.epochBlocks (contentsOf read epochSize tipSize) reading.reading.epochs =
      (node.within (plan.Remembers maxHistory)).blocks := by
  rw [Snapshot.epochBlocks, reads.epochRecords exported, blocksOf, List.filterMap_flatMap]
  have windows := flatMap_filter_windows (ascending.filter fun window =>
    maxHistory.all fun maxHistory => plan.cursor.slot - maxHistory ≤ window.endSlot) inOrder
  exact (List.flatMap_congr fun window _ => blocksOf_windowWrites).trans windows

variable [BlockDecoding O]

theorem Reads.mem_tipRecords (reads : Reads plan inscription maxHistory reading)
    (exported : Exported read decode node plan inscription.layers) {point : ChainPoint}
    (settled : node.Settled point) {write : TipWrite V O} :
    write ∈ tipRecords (contentsOf read epochSize tipSize) reading.reading.tip ↔
      node.HoldsTip write := by
  rw [← mem_shardRecords settled, tipRecords, RestorePlan.reading, List.flatMap_map,
    List.mem_flatMap]
  constructor
  · rintro ⟨layer, member, written⟩
    rcases reads.mem_tipLayers.mp member with ⟨ns, shard, found⟩
    rcases exported.tip ns shard with ⟨other, otherFound, inside, carries⟩ | ⟨missing, -⟩
    · rw [found] at otherFound
      rcases Option.some.inj otherFound with rfl
      rw [contents_tip carries] at written
      rcases List.mem_filterMap.mp written with ⟨record, isRecord, isWrite⟩
      exact ⟨ns, shard, inside, record, isRecord, isWrite⟩
    · rw [found] at missing
      cases missing
  · rintro ⟨ns, shard, inside, record, isRecord, isWrite⟩
    rcases exported.tip ns shard with ⟨layer, found, -, carries⟩ | ⟨-, outside⟩
    · refine ⟨layer, reads.mem_tipLayers.mpr ⟨ns, shard, found⟩, ?_⟩
      rw [contents_tip carries]
      exact List.mem_filterMap.mpr ⟨record, isRecord, isWrite⟩
    · omega

omit [BlockDecoding O] in
/-- No layer of the document is refused. -/
theorem Reads.checkLayers (reads : Reads plan inscription maxHistory reading)
    (exported : Exported read decode node plan inscription.layers) :
    (reading.immutableLayers ++ reading.tipLayers).forM (checkLayer read plan.magic) = .ok () := by
  apply forM_eq_ok
  intro layer member
  rcases List.mem_append.mp member with isEpoch | isTip
  · rw [RestorePlan.immutableLayers, reads.epochs, List.mem_flatMap] at isEpoch
    rcases isEpoch with ⟨entry, isEntry, isIn⟩
    rcases List.mem_map.mp isEntry with ⟨window, isWindow, rfl⟩
    rcases mem_descriptors isIn with ⟨kind, isKind, found⟩
    rcases exported.epochs kind isKind window (List.mem_of_mem_filter isWindow) with
      ⟨other, otherFound, carries⟩ | ⟨missing, -⟩
    · rw [found] at otherFound
      rcases Option.some.inj otherFound with rfl
      exact checkLayer_epoch carries
    · rw [found] at missing
      cases missing
  · rcases reads.mem_tipLayers.mp isTip with ⟨ns, shard, found⟩
    rcases exported.tip ns shard with ⟨other, otherFound, -, carries⟩ | ⟨missing, -⟩
    · rw [found] at otherFound
      rcases Option.some.inj otherFound with rfl
      exact checkLayer_tip carries
    · rw [found] at missing
      cases missing

variable [DecidableEq D]

/-- What a restore of the document of a node comes to. -/
theorem Documents.restores (documents : Documents read decode node plan inscription)
    (epochSize : EpochWrite V → ℕ) (tipSize : TipWrite V O → ℕ) (maxHistory : Option ℕ)
    (settled : node.Settled plan.cursor) (ascending : Ascending plan.epochs)
    (inOrder : plan.epochs.Pairwise fun earlier later => earlier.epoch < later.epoch)
    (budget : Budget) :
    restoreStele read epochSize tipSize inscription plan.magic maxHistory budget =
      .ok (node.within (plan.Remembers maxHistory)) := by
  rcases documents.reads inOrder maxHistory with ⟨reading, readingEq, reads⟩
  have exported := documents.exported
  have checked := reads.checkLayers exported
  have stele : Stele (contentsOf read epochSize tipSize) reading.reading := by
    refine ⟨?_, ?_, ?_, ?_⟩
    · intro first isFirst second isSecond same
      exact Node.epochStore.unique _ first second ((reads.mem_epochRecords exported).mp isFirst)
        ((reads.mem_epochRecords exported).mp isSecond) same
    · intro first isFirst second isSecond same
      exact Node.tipStore.unique _ first second ((reads.mem_tipRecords exported settled).mp isFirst)
        ((reads.mem_tipRecords exported settled).mp isSecond) same
    · rw [reads.epochBlocks exported ascending settled.inOrder]
      exact settled.blocks.filter _
    · rw [reads.epochBlocks exported ascending settled.inOrder]
      exact settled.inOrder.filter _
  have restored : RestoredTo (contentsOf read epochSize tipSize) reading.reading
      (node.within (plan.Remembers maxHistory)) := by
    refine ⟨?_, ?_, ?_, ?_, ?_, ?_⟩
    · exact settled.cursor.trans (congrArg some reads.position.symm)
    · exact settled.indexCursor.trans (congrArg some reads.position.symm)
    · exact (reads.epochBlocks exported ascending settled.inOrder).symm
    · intro write
      exact (reads.mem_epochRecords exported).symm
    · intro write
      rw [Node.holdsTip_within]
      exact (reads.mem_tipRecords exported settled).symm
    · intro entry
      refine (settled.tags entry).trans ?_
      constructor
      · rintro ⟨body, isHeld, isTag⟩
        exact ⟨body, (reads.mem_tipRecords exported settled).mpr isHeld, isTag⟩
      · rintro ⟨body, isIn, isTag⟩
        exact ⟨body, (reads.mem_tipRecords exported settled).mp isIn, isTag⟩
  rw [restoreStele, readingEq, ok_bind, checked, ok_bind]
  exact congrArg Except.ok ((Underway.empty.restore stele budget).unique restored)

end Restored

section Windows

variable {summary : ChainSummary} {magic : ℕ} {cursor : ChainPoint} {retained : RetainedEpochs}
  {whole : Plan}

/-- Every slot up to the cursor is in a window of a whole plan. -/
theorem remembers_of_new (continuous : summary.Continuous)
    (made : Plan.new summary magic cursor retained = .ok whole) {slot : ℕ}
    (reached : slot ≤ cursor.slot) : whole.Remembers none slot := by
  rcases ChainSummary.exists_starts_of_continuous continuous with ⟨starts, isStart⟩
  rcases new_spec isStart made with ⟨-, -, -, -, below, epochsEq⟩
  have found : ∀ epoch, slot < starts (epoch + 1) →
      ∃ named ≤ epoch, starts named ≤ slot ∧ slot < starts (named + 1) := by
    intro epoch
    induction epoch with
    | zero => exact fun under => ⟨0, le_rfl, isStart.zero.le.trans (Nat.zero_le _), under⟩
    | succ epoch ih =>
        intro under
        by_cases inside : starts (epoch + 1) ≤ slot
        · exact ⟨epoch + 1, le_rfl, inside, under⟩
        · rcases ih (Nat.lt_of_not_le inside) with ⟨named, before, isIn⟩
          exact ⟨named, Nat.le_succ_of_le before, isIn⟩
  rcases found whole.sequence (by omega) with ⟨epoch, before, startsBelow, endsAbove⟩
  refine ⟨cutWindow starts cursor.slot epoch, ?_, startsBelow, ?_⟩
  · refine List.mem_filter.mpr ⟨?_, rfl⟩
    rw [epochsEq]
    exact List.mem_map.mpr ⟨epoch, List.mem_range.mpr (by omega), rfl⟩
  · simp only [cutWindow, EpochWindow.slots]
    omega

theorem epochs_inOrder (continuous : summary.Continuous)
    (made : Plan.new summary magic cursor retained = .ok whole) :
    whole.epochs.Pairwise fun earlier later => earlier.epoch < later.epoch := by
  rcases ChainSummary.exists_starts_of_continuous continuous with ⟨starts, isStart⟩
  rcases new_spec isStart made with ⟨-, -, -, -, -, epochsEq⟩
  rw [epochsEq, List.pairwise_map]
  exact List.pairwise_lt_range

end Windows

/-- Restoring undoes exporting. Whatever turns an export takes, and whatever windows an
operator selects, restoring its document into empty stores gives the node with the records
of the windows and of the history kept; a whole export restored with the whole history gives
the node itself, if its records are of slots up to the cursor. -/
theorem restore_export [BlockDecoding O] [DecidableEq D] {summary : ChainSummary} {magic : ℕ}
    {cursor : ChainPoint} {retained : RetainedEpochs} {whole : Plan}
    (continuous : summary.Continuous)
    (made : Plan.new summary magic cursor retained = .ok whole) {writer : SteleWriter V O D}
    {read : D → LayerSpec × List (Record V O)} {held : writer.Sink → LayerSpec × List (Record V O)}
    (readsBack : ReadsBack writer read held) {decode : Bytes → Option BlockHash} {node : Node V O}
    (settled : node.Settled cursor) (first last : Option ℕ) {band producers : ℕ}
    (bandPositive : 0 < band) (producersPositive : 0 < producers) {plan : Plan}
    (planEq : plan = ((whole.restrictEpochs first last).withBand band bandPositive).withProducers
      producers producersPositive)
    {digestRecords : Option (List ImmutableDigests)} {published : Published D}
    (run : Exports writer (node.stores decode) .first digestRecords plan published)
    {inscription : Inscription D} (returned : published.result = .ok inscription)
    (epochSize : EpochWrite V → ℕ) (tipSize : TipWrite V O → ℕ) (maxHistory : Option ℕ)
    (budget : Budget) :
    restoreStele read epochSize tipSize inscription magic maxHistory budget =
        .ok (node.within (plan.Remembers maxHistory)) ∧
      (first = none → last = none → maxHistory = none →
        (∀ write, node.HoldsEpoch write → write.slot ≤ cursor.slot) →
        restoreStele read epochSize tipSize inscription magic maxHistory budget = .ok node) := by
  rcases ChainSummary.exists_starts_of_continuous continuous with ⟨starts, isStart⟩
  rcases new_spec isStart made with ⟨cursorEq, magicEq, -, -, -, -⟩
  have ascending : Ascending plan.epochs := by
    rw [planEq]
    exact (ascending_of_new continuous made).filter _
  have inOrder : plan.epochs.Pairwise fun earlier later => earlier.epoch < later.epoch := by
    rw [planEq]
    exact (epochs_inOrder continuous made).filter _
  have planCursor : plan.cursor = cursor := by
    rw [planEq]
    exact cursorEq
  have planMagic : plan.magic = magic := by
    rw [planEq]
    exact magicEq
  have documented := ((exports_spec ascending run).1 inscription).mp returned
  rcases bind_eq_ok.mp documented with ⟨_, -, documented⟩
  rcases bind_eq_ok.mp documented with ⟨layers, layersEq, documented⟩
  rcases bind_eq_ok.mp documented with ⟨listed, inscribed, documented⟩
  rcases bind_eq_ok.mp documented with ⟨_, -, documented⟩
  rcases Except.ok.inj documented with rfl
  rcases bind_eq_ok.mp inscribed with ⟨place, placeEq, inscribed⟩
  rcases Except.ok.inj inscribed with rfl
  have positionEq : place = ⟨plan.magic, plan.cursor, plan.sequence⟩ := by
    unfold position at placeEq
    split at placeEq
    · cases placeEq
    · exact (Except.ok.inj placeEq).symm
  have documents : Documents read decode node plan
      ⟨plan.sequence, place, plan.retained.epochs, (.first : Predecessor D).history, layers⟩ :=
    ⟨positionEq, readsBack.exported (inOrder.imp fun below same => below.ne (congrArg _ same))
      layersEq⟩
  rw [← planCursor] at settled
  have restores := documents.restores epochSize tipSize maxHistory settled ascending inOrder budget
  rw [planMagic] at restores
  refine ⟨restores, ?_⟩
  rintro rfl rfl rfl early
  rw [restores]
  refine congrArg Except.ok (Node.within_eq_self fun write holds => ?_)
  rcases remembers_of_new continuous made (early write holds) with ⟨window, isWindow, inside⟩
  rw [planEq]
  exact ⟨window, List.mem_filter.mpr
    ⟨List.mem_filter.mpr ⟨(List.mem_filter.mp isWindow).1, rfl⟩, rfl⟩, inside⟩

section Samples

attribute [local instance] BlockDecoding.byron

deriving instance DecidableEq for Record

/-- A writer whose digests are what they name: the header of a layer and its records. -/
def SteleWriter.recording (V O : Type) : SteleWriter V O (LayerSpec × List (Record V O)) where
  Sink := LayerSpec × List (Record V O)
  Written := LayerDescriptor (LayerSpec × List (Record V O))
  descriptor := id
  layerSink := fun spec => .ok (spec, [])
  writeRecord := fun sink record => .ok (sink.1, sink.2 ++ [record])
  finish := fun sink =>
    .ok ⟨sink.1.kind, sink.1.scope.descriptor, sink, sink.2.length, sink.2.length⟩
  carryAgain := fun written scope => .ok { written with scope := scope }
  sealStele := fun _ => .ok ()

theorem readsBack_recording : ReadsBack (.recording V O) id id where
  opened := fun _ _ done => (Except.ok.inj done).symm
  wrote := fun _ _ _ done => (Except.ok.inj done).symm
  finished := by
    intro sink written done
    rcases Except.ok.inj done with rfl
    exact ⟨rfl, rfl, rfl⟩
  carried := by
    intro written scope again done
    rcases Except.ok.inj done with rfl
    exact ⟨rfl, rfl⟩

/-- Four blocks, two of them Byron blocks of one slot, a row of each kind, an entity and an
output. -/
def stocked : Node ℕ ℕ where
  cursor := some (.specific 250 1)
  entities := fun ns => if ns = .accounts then .ofList [(7, 9)] else ∅
  utxos := .ofList [(toLex (1, 0), 5)]
  blocks := [(50, [0]), (100, [1]), (100, [2]), (250, [3])]
  logs := ⟨fun ns => if ns = .epochs then .ofList [(logKeyOf 100, 8)] else ∅⟩
  indexes :=
    { cursor := some (.specific 250 1)
      utxoTags := {(⟨.address, [5]⟩, toLex (1, 0))}
      archiveTags := {(.address, [1], 100)}
      exact := .ofList [(toLex (.blockHash, 2), 250)] }

theorem settled_stocked : stocked.Settled (.specific 250 1) where
  cursor := rfl
  indexCursor := rfl
  blocks := by decide
  inOrder := by decide
  outputs := rfl
  keys := by
    intro ns
    cases ns <;> decide +kernel
  tags := by
    rintro ⟨tag, txo⟩
    have outputs : stocked.utxos.entries = [(toLex (1, 0), 5)] := by decide +kernel
    have tags : extractUtxoTags (output 5) = [⟨.address, [5]⟩] := by decide +kernel
    constructor
    · intro member
      rcases Prod.mk.inj (Finset.mem_singleton.mp member) with ⟨rfl, rfl⟩
      exact ⟨5, by decide +kernel, by rw [tags]; exact List.mem_singleton_self _⟩
    · rintro ⟨body, held, isTag⟩
      have isIn := OrderedMap.mem_entries_iff.mpr held
      rw [outputs, List.mem_singleton] at isIn
      rcases Prod.mk.inj isIn with ⟨rfl, rfl⟩
      rw [tags, List.mem_singleton] at isTag
      exact Finset.mem_singleton.mpr (Prod.ext isTag rfl)

theorem slot_stocked {write : EpochWrite ℕ} (holds : stocked.HoldsEpoch write) :
    write.slot ≤ 250 := by
  have ofEntries : ∀ {K A : Type} [LinearOrder K] {map : OrderedMap K A} (slotOf : K × A → ℕ),
      (∀ entry ∈ map.entries, slotOf entry ≤ 250) → ∀ {key : K} {value : A},
        map.get? key = some value → slotOf (key, value) ≤ 250 :=
    fun _ all key value held => all _ (OrderedMap.mem_entries_iff.mpr held)
  cases write with
  | block slot body =>
      have all : ∀ block ∈ stocked.blocks, block.1 ≤ 250 := by decide
      exact all (slot, body) holds
  | log ns key value =>
      refine ofEntries (fun entry => (ofLex entry.1).1) ?_ holds
      cases ns <;> decide +kernel
  | tag record =>
      rw [Finset.mem_singleton.mp holds]
      decide
  | exact key slot =>
      refine ofEntries Prod.snd ?_ holds
      decide +kernel

/-- The three epochs in bands of two, by three workers. -/
def inBands : Plan :=
  ((threeEpochs.restrictEpochs none none).withBand 2 (by decide)).withProducers 3 (by decide)

theorem ascending_inBands : Ascending inBands.epochs := by
  have ascending : Ascending threeEpochs.epochs :=
    ascending_of_new ChainSummary.oneEra_continuous new_threeEpochs
  exact ascending

theorem restore_export_stocked :
    ∃ published inscription restored,
      Exports (.recording ℕ ℕ) (stocked.stores anyHash) .first none
        inBands published ∧
      published.result = .ok inscription ∧
      restoreStele id (fun _ => 1) (fun _ => 1) inscription 1 none ⟨1, 1⟩ = .ok stocked ∧
      restoreStele id (fun _ => 1) (fun _ => 1) inscription 1 (some 60) ⟨1, 1⟩ = .ok restored ∧
      restored.blocks = [(100, [1]), (100, [2]), (250, [3])] := by
  rcases exists_exports (.recording ℕ ℕ) (stocked.stores anyHash) .first none inBands with
    ⟨published, run⟩
  have documented : (document (.recording ℕ ℕ) (stocked.stores anyHash) .first none
      inBands).toOption.isSome := by decide +kernel
  cases found : document (.recording ℕ ℕ) (stocked.stores anyHash) .first none inBands with
  | error failure =>
      rw [found] at documented
      cases documented
  | ok inscription =>
      have returned := ((exports_spec ascending_inBands run).1 inscription).mpr found
      have law := restore_export ChainSummary.oneEra_continuous new_threeEpochs
        readsBack_recording settled_stocked none none (show 0 < 2 by decide)
        (show 0 < 3 by decide) rfl run returned (fun _ => 1) (fun _ => 1)
      exact ⟨published, inscription, _, run, returned,
        (law none ⟨1, 1⟩).2 rfl rfl rfl fun write holds => slot_stocked holds,
        (law (some 60) ⟨1, 1⟩).1, by decide +kernel⟩

end Samples

end Dolos.Snapshot
