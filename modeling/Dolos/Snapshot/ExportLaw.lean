import Dolos.Snapshot.Export

/-!
# How an export is carried out does not show

A band of index layers filled by one pass holds what each layer would hold if it were
filled by itself, because the windows of a band are disjoint and a record is sent to the
one it falls in. With the pool's own law the layers of a document depend on the plan and
the stores, and not on the band, the number of workers or their turns.
-/

namespace Dolos.Snapshot

open Outcome

variable {V O D : Type}

section Reference

variable (writer : SteleWriter V O D) (stores : Stores V O) (previous : Predecessor D)

/-- The index records of a range of slots, each once and in the order of the store. -/
def fillIndex (slots : ℕ × ℕ) (filling : Checked writer IndexOrder) :
    Except SnapshotError (Checked writer IndexOrder) := do
  let tagged ← (stores.iterArchiveTags slots).each
    (fun filling tag => put writer checkIndex .index filling (.tag tag)) filling
  (stores.iterExactRecords slots).each
    (fun filling record => put writer checkIndex .index filling (.exact record.1 record.2)) tagged

/-- One index layer by itself. -/
def indexLayer (magic : ℕ) (window : EpochWindow) :
    Except SnapshotError (LayerDescriptor D) := do
  let (spec, adopted) ← inherit previous magic window .indexes
  match adopted with
  | some descriptor => do
      previous.landed descriptor
      .ok descriptor
  | none => do
      let sink ← writer.layerSink spec
      let filled ← fillIndex writer stores window.slots (sink, .default)
      let written ← writer.finish filled.1
      previous.landed (writer.descriptor written)
      .ok (writer.descriptor written)

end Reference

section Routing

variable {writer : SteleWriter V O D}

/-- What a record does to one layer. -/
def receive (record : IndexRecord) (layer : Building writer) :
    Except SnapshotError (Building writer) :=
  if layer.slots.1 ≤ record.slot ∧ record.slot < layer.slots.2 then do
    let filling ← put writer checkIndex .index layer.filling record
    .ok { layer with filling := filling }
  else .ok layer

theorem slots_of_receive {record : IndexRecord} {layer next : Building writer}
    (received : receive record layer = .ok next) : next.slots = layer.slots := by
  rw [receive] at received
  split_ifs at received
  · rcases bind_eq_ok.mp received with ⟨filling, -, nextEq⟩
    rw [← Except.ok.inj nextEq]
  · rw [← Except.ok.inj received]

/-- Layers whose slots follow each other. -/
structure Disjoint (building : List (Building writer)) : Prop where
  inOrder : building.Pairwise fun earlier later => earlier.slots.2 ≤ later.slots.1
  nonempty : ∀ layer ∈ building, layer.slots.1 < layer.slots.2

theorem disjoint_iff_slots {building : List (Building writer)} :
    Disjoint building ↔
      (building.map Building.slots).Pairwise (fun earlier later => earlier.2 ≤ later.1) ∧
        ∀ slots ∈ building.map Building.slots, slots.1 < slots.2 := by
  constructor
  · rintro ⟨inOrder, nonempty⟩
    refine ⟨List.pairwise_map.mpr inOrder, ?_⟩
    intro slots member
    rcases List.mem_map.mp member with ⟨layer, inBuilding, rfl⟩
    exact nonempty layer inBuilding
  · rintro ⟨inOrder, nonempty⟩
    exact ⟨List.pairwise_map.mp inOrder, fun layer member =>
      nonempty layer.slots (List.mem_map_of_mem member)⟩

theorem Disjoint.tail {layer : Building writer} {rest : List (Building writer)}
    (disjoint : Disjoint (layer :: rest)) : Disjoint rest :=
  ⟨disjoint.inOrder.of_cons, fun other member =>
    disjoint.nonempty other (List.mem_cons_of_mem layer member)⟩

/-- A record below every layer is nobody's. -/
theorem mapM_receive_of_below {building : List (Building writer)} {record : IndexRecord}
    (below : ∀ layer ∈ building, record.slot < layer.slots.1) :
    building.mapM (receive record) = .ok building := by
  apply mapM_eq_ok.mpr
  apply List.forall₂_same.mpr
  intro layer member
  rw [receive, if_neg]
  rintro ⟨starts, -⟩
  exact absurd (below layer member) (Nat.not_lt.mpr starts)

theorem routeIndex_cons_of_later {layer next : Building writer} {rest : List (Building writer)}
    {record : IndexRecord} (starts : layer.slots.1 ≤ record.slot)
    (nextStarts : next.slots.1 ≤ record.slot) :
    routeIndex writer (layer :: next :: rest) record =
      (routeIndex writer (next :: rest) record).map (layer :: ·) := by
  simp only [routeIndex, partitionPoint, List.takeWhile_cons, starts, nextStarts, decide_true,
    if_true, List.length_cons]
  rw [show (layer :: next :: rest)[(rest.takeWhile fun layer =>
    decide (layer.slots.1 ≤ record.slot)).length + 1]? = (next :: rest)[(rest.takeWhile fun layer =>
    decide (layer.slots.1 ≤ record.slot)).length]? from List.getElem?_cons_succ]
  cases (next :: rest)[(rest.takeWhile fun layer =>
      decide (layer.slots.1 ≤ record.slot)).length]? with
  | none => rfl
  | some found =>
      simp only
      split_ifs
      · cases put writer checkIndex .index found.filling record with
        | error failure => rfl
        | ok filling => rfl
      · rfl

/-- The search finds the layer a record falls in, and no other layer is touched. -/
theorem routeIndex_eq {building : List (Building writer)} (disjoint : Disjoint building)
    (record : IndexRecord) :
    routeIndex writer building record = building.mapM (receive record) := by
  induction building with
  | nil => rfl
  | cons layer rest ih =>
      have above := List.pairwise_cons.mp disjoint.inOrder
      by_cases starts : layer.slots.1 ≤ record.slot
      · cases rest with
        | nil =>
            simp only [routeIndex, partitionPoint, List.takeWhile_cons, starts, decide_true,
              if_true, List.takeWhile_nil, List.length_cons, List.length_nil,
              List.getElem?_cons_zero, List.mapM_cons, List.mapM_nil, receive, true_and]
            split_ifs
            · cases put writer checkIndex .index layer.filling record with
              | error failure => rfl
              | ok filling => rfl
            · rfl
        | cons next later =>
            by_cases nextStarts : next.slots.1 ≤ record.slot
            · have passed : receive record layer = .ok layer := by
                have ended := above.1 next List.mem_cons_self
                rw [receive, if_neg (by omega)]
              rw [routeIndex_cons_of_later starts nextStarts, ih disjoint.tail,
                List.mapM_cons (l := next :: later), passed, ok_bind]
              cases (next :: later).mapM (receive record) with
              | error failure => rfl
              | ok moved => rfl
            · have below : ∀ other ∈ next :: later, record.slot < other.slots.1 := by
                intro other member
                rcases List.mem_cons.mp member with rfl | isLater
                · exact Nat.lt_of_not_le nextStarts
                · have ordered := (List.pairwise_cons.mp above.2).1 other isLater
                  have wide := disjoint.nonempty next (by simp)
                  omega
              rw [List.mapM_cons, mapM_receive_of_below below]
              simp only [routeIndex, partitionPoint, List.takeWhile_cons, starts, nextStarts,
                decide_true, decide_false, if_true, Bool.false_eq_true, if_false,
                List.length_cons, List.length_nil, List.getElem?_cons_zero, receive, true_and]
              split_ifs
              · cases put writer checkIndex .index layer.filling record with
                | error failure => rfl
                | ok filling => rfl
              · rfl
      · have below : ∀ other ∈ layer :: rest, record.slot < other.slots.1 := by
          intro other member
          rcases List.mem_cons.mp member with rfl | isLater
          · exact Nat.lt_of_not_le starts
          · have ordered := above.1 other isLater
            have wide := disjoint.nonempty layer List.mem_cons_self
            omega
        rw [mapM_receive_of_below below]
        simp only [routeIndex, partitionPoint, List.takeWhile_cons, starts, decide_false,
          Bool.false_eq_true, if_false, List.length_nil]

theorem slots_of_mapM_receive {building next : List (Building writer)} {record : IndexRecord}
    (moved : building.mapM (receive record) = .ok next) :
    next.map Building.slots = building.map Building.slots := by
  have moves := mapM_eq_ok.mp moved
  clear moved
  induction moves with
  | nil => rfl
  | cons received _ ih =>
      rw [List.map_cons, List.map_cons, slots_of_receive received, ih]

theorem Disjoint.of_slots {building next : List (Building writer)} (disjoint : Disjoint building)
    (same : next.map Building.slots = building.map Building.slots) : Disjoint next := by
  rw [disjoint_iff_slots] at disjoint ⊢
  rw [same]
  exact disjoint

/-- A whole pass is a pass for each layer. -/
theorem foldlM_routeIndex {A : Type} (toIndex : A → IndexRecord)
    {items : List (Except SnapshotError A)} {building : List (Building writer)}
    (disjoint : Disjoint building) :
    items.foldlM (fun building item =>
        item >>= fun record => routeIndex writer building (toIndex record)) building =
      items.foldlM (fun building item =>
        item >>= fun record => building.mapM (receive (toIndex record))) building := by
  induction items generalizing building with
  | nil => rfl
  | cons item rest ih =>
      cases item with
      | error failure => rfl
      | ok record =>
          simp only [List.foldlM_cons, ok_bind]
          rw [routeIndex_eq disjoint]
          cases movedEq : building.mapM (receive (toIndex record)) with
          | error failure => rfl
          | ok moved =>
              simp only [ok_bind]
              exact ih (disjoint.of_slots (slots_of_mapM_receive movedEq))

/-- A layer that passes over the records of a wider range receives those of its own. -/
theorem foldlM_receive {A : Type} (toIndex : A → IndexRecord) {span : ℕ × ℕ}
    {items : List (Except SnapshotError A)} {layer final : Building writer}
    (starts : span.1 ≤ layer.slots.1) (ends : layer.slots.2 ≤ span.2) :
    (items.filter (Feed.inRange (fun record => (toIndex record).slot) span)).foldlM
        (fun layer item => item >>= fun record => receive (toIndex record) layer) layer =
        .ok final ↔
      ∃ filling,
        (items.filter (Feed.inRange (fun record => (toIndex record).slot) layer.slots)).foldlM
          (fun filling item => item >>= fun record =>
            put writer checkIndex .index filling (toIndex record)) layer.filling = .ok filling ∧
          final = { layer with filling := filling } := by
  induction items generalizing layer with
  | nil =>
      simp only [List.filter_nil, List.foldlM_nil]
      constructor
      · intro same
        exact ⟨layer.filling, rfl, (Except.ok.inj same).symm⟩
      · rintro ⟨filling, same, rfl⟩
        rw [← Except.ok.inj same]
        rfl
  | cons item rest ih =>
      cases item with
      | error failure =>
          rw [List.filter_cons_of_pos rfl, List.filter_cons_of_pos rfl, List.foldlM_cons,
            List.foldlM_cons]
          constructor
          · intro done
            cases done
          · rintro ⟨filling, done, -⟩
            cases done
      | ok record =>
          simp only [List.filter_cons, Feed.inRange, decide_eq_true_eq]
          by_cases inside : layer.slots.1 ≤ (toIndex record).slot ∧
              (toIndex record).slot < layer.slots.2
          · have inSpan : span.1 ≤ (toIndex record).slot ∧ (toIndex record).slot < span.2 := by
              omega
            rw [if_pos inSpan, if_pos inside, List.foldlM_cons, List.foldlM_cons, ok_bind, ok_bind,
              receive, if_pos inside]
            cases put writer checkIndex .index layer.filling (toIndex record) with
            | error failure =>
                simp only [error_bind]
                constructor
                · intro done
                  cases done
                · rintro ⟨filling, done, -⟩
                  cases done
            | ok filling =>
                simp only [ok_bind]
                exact @ih { layer with filling := filling } starts ends
          · rw [if_neg inside]
            by_cases inSpan : span.1 ≤ (toIndex record).slot ∧ (toIndex record).slot < span.2
            · rw [if_pos inSpan, List.foldlM_cons, ok_bind, receive, if_neg inside, ok_bind]
              exact ih starts ends
            · rw [if_neg inSpan]
              exact ih starts ends

/-- A range that holds the slots of every layer. -/
def Spans (span : ℕ × ℕ) (building : List (Building writer)) : Prop :=
  ∀ layer ∈ building, span.1 ≤ layer.slots.1 ∧ layer.slots.2 ≤ span.2

/-- One pass of a feed over a band. -/
theorem each_routeIndex {A : Type} (toIndex : A → IndexRecord) {feed : Feed A}
    {building filled : List (Building writer)} {span : ℕ × ℕ} (disjoint : Disjoint building)
    (some_ : building ≠ []) (spans : Spans span building) :
    (feed.within (fun record => (toIndex record).slot) span).each
        (fun building record => routeIndex writer building (toIndex record)) building =
        .ok filled ↔
      List.Forall₂ (fun layer final => ∃ filling,
        (feed.within (fun record => (toIndex record).slot) layer.slots).each
          (fun filling record => put writer checkIndex .index filling (toIndex record))
          layer.filling = .ok filling ∧ final = { layer with filling := filling })
        building filled := by
  cases feed with
  | error failure =>
      constructor
      · intro done
        cases done
      · intro each
        cases each with
        | nil => exact absurd rfl some_
        | cons head _ =>
            rcases head with ⟨filling, done, -⟩
            cases done
  | ok items =>
      simp only [Feed.within, Feed.each, Except.map, ok_bind]
      rw [foldlM_routeIndex toIndex disjoint, foldlM_mapM_eq_ok some_]
      constructor
      · intro each
        apply ((List.forall₂_and_left _ _).mpr ⟨spans, each⟩).imp
        rintro layer final ⟨⟨starts, ends⟩, done⟩
        exact (foldlM_receive toIndex starts ends).mp done
      · intro each
        apply ((List.forall₂_and_left _ _).mpr ⟨spans, each⟩).imp
        rintro layer final ⟨⟨starts, ends⟩, done⟩
        exact (foldlM_receive toIndex starts ends).mpr done

end Routing

section Bands

variable {writer : SteleWriter V O D} {stores : Stores V O} {previous : Predecessor D} {magic : ℕ}

/-- The layers a band announces, from a place on. -/
inductive Announcement (writer : SteleWriter V O D) (previous : Predecessor D) (magic : ℕ) :
    ℕ → List EpochWindow → List (Option (LayerDescriptor D)) → List (Building writer) → Prop
  | done {place : ℕ} : Announcement writer previous magic place [] [] []
  | adopted {place : ℕ} {window : EpochWindow} {rest : List EpochWindow} {spec : LayerSpec}
      {descriptor : LayerDescriptor D} {descriptors : List (Option (LayerDescriptor D))}
      {building : List (Building writer)} :
      inherit previous magic window .indexes = .ok (spec, some descriptor) →
      previous.landed descriptor = .ok () →
      Announcement writer previous magic (place + 1) rest descriptors building →
      Announcement writer previous magic place (window :: rest) (some descriptor :: descriptors)
        building
  | begun {place : ℕ} {window : EpochWindow} {rest : List EpochWindow} {spec : LayerSpec}
      {sink : writer.Sink} {descriptors : List (Option (LayerDescriptor D))}
      {building : List (Building writer)} :
      inherit previous magic window .indexes = .ok (spec, none) →
      writer.layerSink spec = .ok sink →
      Announcement writer previous magic (place + 1) rest descriptors building →
      Announcement writer previous magic place (window :: rest) (none :: descriptors)
        (⟨window.slots, place, (sink, .default)⟩ :: building)

theorem announce_eq_ok {announced next : Announced writer} {window : EpochWindow} :
    announce writer previous magic announced window = .ok next ↔
      (∃ spec descriptor, inherit previous magic window .indexes = .ok (spec, some descriptor) ∧
        previous.landed descriptor = .ok () ∧
        next = { announced with descriptors := announced.descriptors ++ [some descriptor] }) ∨
      ∃ spec sink, inherit previous magic window .indexes = .ok (spec, none) ∧
        writer.layerSink spec = .ok sink ∧
        next = ⟨announced.descriptors ++ [none], announced.building ++
          [⟨window.slots, announced.descriptors.length, (sink, .default)⟩]⟩ := by
  rw [announce, bind_eq_ok]
  constructor
  · rintro ⟨⟨spec, adopted⟩, inherited, done⟩
    cases adopted with
    | some descriptor =>
        rcases bind_eq_ok.mp done with ⟨_, landed, nextEq⟩
        exact Or.inl ⟨spec, descriptor, inherited, landed, (Except.ok.inj nextEq).symm⟩
    | none =>
        rcases bind_eq_ok.mp done with ⟨sink, opened, nextEq⟩
        exact Or.inr ⟨spec, sink, inherited, opened, (Except.ok.inj nextEq).symm⟩
  · rintro (⟨spec, descriptor, inherited, landed, rfl⟩ | ⟨spec, sink, inherited, opened, rfl⟩)
    · exact ⟨(spec, some descriptor), inherited, bind_eq_ok.mpr ⟨(), landed, rfl⟩⟩
    · exact ⟨(spec, none), inherited, bind_eq_ok.mpr ⟨sink, opened, rfl⟩⟩

theorem foldlM_announce {band : List EpochWindow} {announced final : Announced writer} :
    band.foldlM (announce writer previous magic) announced = .ok final ↔
      ∃ descriptors building,
        Announcement writer previous magic announced.descriptors.length band descriptors building ∧
        final = ⟨announced.descriptors ++ descriptors, announced.building ++ building⟩ := by
  induction band generalizing announced with
  | nil =>
      rw [List.foldlM_nil]
      constructor
      · intro same
        refine ⟨[], [], .done, ?_⟩
        rw [← Except.ok.inj same, List.append_nil, List.append_nil]
      · rintro ⟨descriptors, building, announcement, rfl⟩
        cases announcement
        rw [List.append_nil, List.append_nil]
        rfl
  | cons window rest ih =>
      rw [List.foldlM_cons, bind_eq_ok]
      constructor
      · rintro ⟨next, announcedHere, restDone⟩
        rcases ih.mp restDone with ⟨descriptors, building, announcement, rfl⟩
        rcases announce_eq_ok.mp announcedHere with
          ⟨spec, descriptor, inherited, landed, rfl⟩ | ⟨spec, sink, inherited, opened, rfl⟩
        · rw [List.length_append] at announcement
          refine ⟨_, _, .adopted inherited landed announcement, ?_⟩
          rw [List.append_assoc]
          rfl
        · rw [List.length_append] at announcement
          refine ⟨_, _, .begun inherited opened announcement, ?_⟩
          rw [List.append_assoc, List.append_assoc]
          rfl
      · rintro ⟨_, building, announcement, rfl⟩
        cases announcement with
        | @adopted _ _ _ spec descriptor descriptors _ inherited landed restAnnounced =>
            refine ⟨_, announce_eq_ok.mpr (Or.inl ⟨spec, descriptor, inherited, landed, rfl⟩), ?_⟩
            refine ih.mpr ⟨descriptors, building, ?_, ?_⟩
            · rw [List.length_append]
              exact restAnnounced
            · rw [List.append_assoc]
              rfl
        | @begun _ _ _ spec sink descriptors later inherited opened restAnnounced =>
            refine ⟨_, announce_eq_ok.mpr (Or.inr ⟨spec, sink, inherited, opened, rfl⟩), ?_⟩
            refine ih.mpr ⟨descriptors, later, ?_, ?_⟩
            · rw [List.length_append]
              exact restAnnounced
            · rw [List.append_assoc, List.append_assoc]
              rfl

/-- The layers to fill are some of the windows. -/
theorem Announcement.slots_sublist {place : ℕ} {band : List EpochWindow}
    {descriptors : List (Option (LayerDescriptor D))} {building : List (Building writer)}
    (announcement : Announcement writer previous magic place band descriptors building) :
    (building.map Building.slots).Sublist (band.map EpochWindow.slots) := by
  induction announcement with
  | done => exact .refl _
  | adopted _ _ _ ih => exact .cons _ ih
  | begun _ _ _ ih => exact .cons_cons _ ih

theorem Announcement.disjoint {place : ℕ} {band : List EpochWindow}
    {descriptors : List (Option (LayerDescriptor D))} {building : List (Building writer)}
    (announcement : Announcement writer previous magic place band descriptors building)
    (ascending : Ascending band) : Disjoint building := by
  rw [disjoint_iff_slots]
  constructor
  · refine List.Pairwise.sublist announcement.slots_sublist (List.pairwise_map.mpr ?_)
    exact ascending.inOrder.imp fun before => before
  · intro slots member
    rcases List.mem_map.mp (announcement.slots_sublist.subset member) with ⟨window, inBand, rfl⟩
    exact Nat.lt_succ_of_le (ascending.nonempty window inBand)

/-- What a pass makes of a layer. -/
def Filled (stores : Stores V O) (layer final : Building writer) : Prop :=
  ∃ filling, fillIndex writer stores layer.slots layer.filling = .ok filling ∧
    final = { layer with filling := filling }

theorem settle_eq_ok {descriptors next : List (Option (LayerDescriptor D))}
    {layer : Building writer} :
    settle writer previous descriptors layer = .ok next ↔
      ∃ written, writer.finish layer.filling.1 = .ok written ∧
        previous.landed (writer.descriptor written) = .ok () ∧
        next = descriptors.set layer.position (some (writer.descriptor written)) := by
  rw [settle, bind_eq_ok]
  constructor
  · rintro ⟨written, finished, done⟩
    rcases bind_eq_ok.mp done with ⟨_, landed, nextEq⟩
    exact ⟨written, finished, landed, (Except.ok.inj nextEq).symm⟩
  · rintro ⟨written, finished, landed, rfl⟩
    exact ⟨written, finished, bind_eq_ok.mpr ⟨(), landed, rfl⟩⟩

theorem indexLayer_adopted {window : EpochWindow} {spec : LayerSpec}
    {descriptor found : LayerDescriptor D}
    (inherited : inherit previous magic window .indexes = .ok (spec, some descriptor)) :
    indexLayer writer stores previous magic window = .ok found ↔
      previous.landed descriptor = .ok () ∧ found = descriptor := by
  simp only [indexLayer, inherited, ok_bind]
  rw [bind_eq_ok]
  constructor
  · rintro ⟨_, landed, same⟩
    exact ⟨landed, (Except.ok.inj same).symm⟩
  · rintro ⟨landed, rfl⟩
    exact ⟨(), landed, rfl⟩

theorem indexLayer_begun {window : EpochWindow} {spec : LayerSpec} {found : LayerDescriptor D}
    (inherited : inherit previous magic window .indexes = .ok (spec, none)) :
    indexLayer writer stores previous magic window = .ok found ↔
      ∃ sink filling written, writer.layerSink spec = .ok sink ∧
        fillIndex writer stores window.slots (sink, .default) = .ok filling ∧
        writer.finish filling.1 = .ok written ∧
        previous.landed (writer.descriptor written) = .ok () ∧
        found = writer.descriptor written := by
  simp only [indexLayer, inherited, ok_bind]
  rw [bind_eq_ok]
  constructor
  · rintro ⟨sink, opened, done⟩
    rcases bind_eq_ok.mp done with ⟨filling, filled, done⟩
    rcases bind_eq_ok.mp done with ⟨written, finished, done⟩
    rcases bind_eq_ok.mp done with ⟨_, landed, same⟩
    exact ⟨sink, filling, written, opened, filled, finished, landed, (Except.ok.inj same).symm⟩
  · rintro ⟨sink, filling, written, opened, filled, finished, landed, rfl⟩
    exact ⟨sink, opened, bind_eq_ok.mpr ⟨filling, filled, bind_eq_ok.mpr ⟨written, finished,
      bind_eq_ok.mpr ⟨(), landed, rfl⟩⟩⟩⟩

theorem set_append_cons {A : Type} (before after : List A) (old new : A) :
    (before ++ old :: after).set before.length new = before ++ new :: after := by
  rw [List.set_append_right _ _ (Nat.le_refl _), Nat.sub_self, List.set_cons_zero]

/-- Announcing, filling and settling a band is making each of its layers. -/
theorem settled_iff {band : List EpochWindow}
    {before final : List (Option (LayerDescriptor D))} :
    (∃ descriptors building filled,
      Announcement writer previous magic before.length band descriptors building ∧
      List.Forall₂ (Filled stores) building filled ∧
      filled.foldlM (settle writer previous) (before ++ descriptors) = .ok final) ↔
    ∃ layers, band.mapM (indexLayer writer stores previous magic) = .ok layers ∧
      final = before ++ layers.map some := by
  simp only [mapM_eq_ok]
  induction band generalizing before with
  | nil =>
      constructor
      · rintro ⟨_, _, _, announcement, fills, settled⟩
        cases announcement
        cases fills
        exact ⟨[], .nil, (Except.ok.inj settled).symm⟩
      · rintro ⟨_, each, rfl⟩
        cases each
        exact ⟨[], [], [], .done, .nil, rfl⟩
  | cons window rest ih =>
      have length : ∀ descriptor : Option (LayerDescriptor D),
          (before ++ [descriptor]).length = before.length + 1 := by
        intro descriptor
        rw [List.length_append, List.length_singleton]
      constructor
      · rintro ⟨_, _, _, announcement, fills, settled⟩
        cases announcement with
        | @adopted _ _ _ spec descriptor descriptors _ inherited landed restAnnounced =>
            rw [← length (some descriptor)] at restAnnounced
            rw [← List.singleton_append, ← List.append_assoc] at settled
            rcases ih.mp ⟨_, _, _, restAnnounced, fills, settled⟩ with ⟨layers, each, rfl⟩
            refine ⟨descriptor :: layers, .cons ?_ each, ?_⟩
            · exact (indexLayer_adopted inherited).mpr ⟨landed, rfl⟩
            · rw [List.append_assoc]
              rfl
        | @begun _ _ _ spec sink descriptors building inherited opened restAnnounced =>
            cases fills with
            | @cons _ _ _ filled isFilled restFills =>
                rcases isFilled with ⟨filling, filledEq, rfl⟩
                rw [List.foldlM_cons] at settled
                rcases bind_eq_ok.mp settled with ⟨next, settledHere, restSettled⟩
                rcases settle_eq_ok.mp settledHere with ⟨written, finished, landed, rfl⟩
                simp only at restSettled
                rw [set_append_cons, ← List.singleton_append, ← List.append_assoc] at restSettled
                rw [← length (some (writer.descriptor written))] at restAnnounced
                rcases ih.mp ⟨_, _, _, restAnnounced, restFills, restSettled⟩ with
                  ⟨layers, each, rfl⟩
                refine ⟨writer.descriptor written :: layers, .cons ?_ each, ?_⟩
                · exact (indexLayer_begun inherited).mpr
                    ⟨sink, filling, written, opened, filledEq, finished, landed, rfl⟩
                · rw [List.append_assoc]
                  rfl
      · rintro ⟨_, each, rfl⟩
        cases each with
        | @cons _ found _ layers made restEach =>
            rcases bind_eq_ok.mp made with ⟨⟨spec, adopted⟩, inherited, -⟩
            have same : before ++ (found :: layers).map some =
                before ++ [some found] ++ layers.map some := by
              rw [List.append_assoc]
              rfl
            rcases ih.mpr ⟨layers, restEach, same⟩ with
              ⟨descriptors, building, filled, announcement, fills, settled⟩
            rw [length] at announcement
            rw [List.append_assoc, List.singleton_append] at settled
            cases adopted with
            | some descriptor =>
                rcases (indexLayer_adopted inherited).mp made with ⟨landed, rfl⟩
                exact ⟨_, _, _, .adopted inherited landed announcement, fills, settled⟩
            | none =>
                rcases (indexLayer_begun inherited).mp made with
                  ⟨sink, filling, written, opened, filledEq, finished, landed, rfl⟩
                refine ⟨_, _, _, .begun inherited opened announcement,
                  .cons ⟨filling, filledEq, rfl⟩ fills, ?_⟩
                rw [List.foldlM_cons, bind_eq_ok]
                refine ⟨_, settle_eq_ok.mpr ⟨written, finished, landed, rfl⟩, ?_⟩
                rw [set_append_cons]
                exact settled

theorem spans_of_disjoint {first : Building writer} {later : List (Building writer)}
    (disjoint : Disjoint (first :: later)) :
    Spans (first.slots.1, ((first :: later).getLast (by simp)).slots.2) (first :: later) := by
  intro layer member
  constructor
  · rcases List.mem_cons.mp member with rfl | isLater
    · exact Nat.le_refl _
    · have ordered := (List.pairwise_cons.mp disjoint.inOrder).1 layer isLater
      have wide := disjoint.nonempty first List.mem_cons_self
      simp only
      omega
  · have split := List.dropLast_append_getLast (List.cons_ne_nil first later)
    have inOrder := disjoint.inOrder
    rw [← split] at inOrder member
    rcases List.mem_append.mp member with isEarlier | isLast
    · have ordered :=
        (List.pairwise_append.mp inOrder).2.2 layer isEarlier _ (List.mem_singleton_self _)
      have wide := disjoint.nonempty _ (List.getLast_mem (List.cons_ne_nil first later))
      simp only
      omega
    · rw [List.mem_singleton.mp isLast]

/-- What a pass over some of the records makes of a layer. -/
def Passed {A : Type} (toIndex : A → IndexRecord) (feed : Feed A) (layer final : Building writer) :
    Prop :=
  ∃ filling, (feed.within (fun record => (toIndex record).slot) layer.slots).each
    (fun filling record => put writer checkIndex .index filling (toIndex record))
    layer.filling = .ok filling ∧ final = { layer with filling := filling }

theorem slots_of_passed {A : Type} {toIndex : A → IndexRecord} {feed : Feed A}
    {building next : List (Building writer)}
    (passes : List.Forall₂ (Passed toIndex feed) building next) :
    next.map Building.slots = building.map Building.slots := by
  induction passes with
  | nil => rfl
  | cons passed _ ih =>
      rcases passed with ⟨filling, -, rfl⟩
      rw [List.map_cons, List.map_cons, ih]

theorem Spans.of_slots {span : ℕ × ℕ} {building next : List (Building writer)}
    (spans : Spans span building)
    (same : next.map Building.slots = building.map Building.slots) : Spans span next := by
  intro layer member
  have inSlots := List.mem_map_of_mem (f := Building.slots) member
  rw [same] at inSlots
  rcases List.mem_map.mp inSlots with ⟨other, inBuilding, slotsEq⟩
  rw [← slotsEq]
  exact spans other inBuilding

theorem filled_iff {layer final : Building writer} :
    Filled stores layer final ↔
      ∃ middle, Passed IndexRecord.tag stores.archiveTags layer middle ∧
        Passed (fun record => .exact record.1 record.2) stores.exactRecords middle final := by
  constructor
  · rintro ⟨filling, filled, rfl⟩
    rcases bind_eq_ok.mp filled with ⟨tagged, tagsDone, exactDone⟩
    exact ⟨{ layer with filling := tagged }, ⟨tagged, tagsDone, rfl⟩, ⟨filling, exactDone, rfl⟩⟩
  · rintro ⟨_, ⟨tagged, tagsDone, rfl⟩, ⟨filling, exactDone, rfl⟩⟩
    exact ⟨filling, bind_eq_ok.mpr ⟨tagged, tagsDone, exactDone⟩, rfl⟩

/-- One pass over a band fills every layer with what is its own. -/
theorem fill_band {building filled : List (Building writer)} {span : ℕ × ℕ}
    (disjoint : Disjoint building) (some_ : building ≠ []) (spans : Spans span building) :
    ((stores.iterArchiveTags span).each
        (fun building tag => routeIndex writer building (.tag tag)) building >>= fun tagged =>
      (stores.iterExactRecords span).each
        (fun building record => routeIndex writer building (.exact record.1 record.2)) tagged) =
        .ok filled ↔
      List.Forall₂ (Filled stores) building filled := by
  rw [bind_eq_ok]
  constructor
  · rintro ⟨tagged, tagsDone, exactDone⟩
    have passes : List.Forall₂ (Passed IndexRecord.tag stores.archiveTags) building tagged :=
      (each_routeIndex IndexRecord.tag disjoint some_ spans).mp tagsDone
    have same := slots_of_passed passes
    have someTagged : tagged ≠ [] := by
      rintro rfl
      exact some_ (List.forall₂_nil_right_iff.mp passes)
    have exactPasses : List.Forall₂
        (Passed (fun record => .exact record.1 record.2) stores.exactRecords) tagged filled :=
      (each_routeIndex (fun record : ExactKey × ℕ => .exact record.1 record.2)
        (disjoint.of_slots same) someTagged (spans.of_slots same)).mp exactDone
    exact (forall₂_comp passes exactPasses).imp fun _ _ passed => filled_iff.mpr passed
  · intro fills
    rcases exists_forall₂_of_comp (fills.imp fun _ _ isFilled => filled_iff.mp isFilled) with
      ⟨tagged, passes, exactPasses⟩
    have same := slots_of_passed passes
    have someTagged : tagged ≠ [] := by
      rintro rfl
      exact some_ (List.forall₂_nil_right_iff.mp passes)
    refine ⟨tagged, (each_routeIndex IndexRecord.tag disjoint some_ spans).mpr passes, ?_⟩
    exact (each_routeIndex (fun record : ExactKey × ℕ => .exact record.1 record.2)
      (disjoint.of_slots same) someTagged (spans.of_slots same)).mpr exactPasses

/-- A band is each of its layers. -/
theorem writeIndexes_eq_ok {band : List EpochWindow} (ascending : Ascending band)
    {layers : List (LayerDescriptor D)} :
    writeIndexes writer stores previous magic band = .ok layers ↔
      band.mapM (indexLayer writer stores previous magic) = .ok layers := by
  have settled := @settled_iff V O D writer stores previous magic band []
  simp only [List.length_nil, List.nil_append] at settled
  have whole : writeIndexes writer stores previous magic band = .ok layers ↔
      ∃ final, final.reduceOption = layers ∧
        ∃ descriptors building filled,
          Announcement writer previous magic 0 band descriptors building ∧
          List.Forall₂ (Filled stores) building filled ∧
          filled.foldlM (settle writer previous) descriptors = .ok final := by
    rw [writeIndexes, bind_eq_ok]
    constructor
    · rintro ⟨announced, announcedEq, done⟩
      rcases foldlM_announce.mp announcedEq with ⟨descriptors, building, announcement, rfl⟩
      have disjoint := announcement.disjoint ascending
      simp only [List.nil_append] at done
      cases building with
      | nil =>
          exact ⟨descriptors, Except.ok.inj done, descriptors, [], [], announcement, .nil, rfl⟩
      | cons first later =>
          rcases bind_eq_ok.mp done with ⟨tagged, tagsDone, done⟩
          rcases bind_eq_ok.mp done with ⟨filled, exactDone, done⟩
          rcases bind_eq_ok.mp done with ⟨final, settledEq, layersEq⟩
          refine ⟨final, Except.ok.inj layersEq, descriptors, first :: later, filled, announcement,
            ?_, settledEq⟩
          exact (fill_band disjoint (List.cons_ne_nil _ _) (spans_of_disjoint disjoint)).mp
            (bind_eq_ok.mpr ⟨tagged, tagsDone, exactDone⟩)
    · rintro ⟨final, rfl, descriptors, building, filled, announcement, fills, settledEq⟩
      refine ⟨⟨descriptors, building⟩, ?_, ?_⟩
      · exact foldlM_announce.mpr ⟨descriptors, building, announcement, rfl⟩
      · cases building with
        | nil =>
            cases fills
            rw [Except.ok.inj settledEq]
        | cons first later =>
            have disjoint := announcement.disjoint ascending
            rcases bind_eq_ok.mp ((fill_band disjoint (List.cons_ne_nil _ _)
              (spans_of_disjoint disjoint)).mpr fills) with ⟨tagged, tagsDone, exactDone⟩
            exact bind_eq_ok.mpr ⟨tagged, tagsDone, bind_eq_ok.mpr ⟨filled, exactDone,
              bind_eq_ok.mpr ⟨final, settledEq, rfl⟩⟩⟩
  rw [whole]
  have reduced : ∀ found : List (LayerDescriptor D), (found.map some).reduceOption = found := by
    intro found
    change (found.map some).filterMap id = found
    rw [List.filterMap_map]
    exact List.filterMap_some
  constructor
  · rintro ⟨final, rfl, isSettled⟩
    rcases settled.mp isSettled with ⟨found, made, rfl⟩
    rw [reduced]
    exact made
  · intro made
    exact ⟨layers.map some, reduced layers, settled.mpr ⟨layers, made, rfl⟩⟩

end Bands

section Documents

variable (writer : SteleWriter V O D) (stores : Stores V O) (previous : Predecessor D)
  (digestRecords : Option (List ImmutableDigests))

/-- The layers a plan stands for, one after the other. -/
def documentLayers (plan : Plan) : Except SnapshotError (List (LayerDescriptor D)) := do
  let blocks ← plan.epochs.mapM (blockJob writer stores previous plan)
  let indexes ← plan.epochs.mapM (indexLayer writer stores previous plan.magic)
  let logs ← (LogNs.all.flatMap fun ns => plan.epochs.map fun window => (ns, window)).mapM
    fun entry => logJob writer stores previous plan entry.1 entry.2
  let state ← StateNs.all.mapM (writeStateKind writer stores previous plan)
  let digests ← digestRecords.toList.mapM (digestJob writer plan)
  .ok (blocks.flatten ++ indexes ++ logs.flatten ++ state.flatten ++ digests.flatten)

/-- The document a plan stands for. -/
def document (plan : Plan) : Except SnapshotError (Inscription D) := do
  preflight stores previous plan
  let layers ← documentLayers writer stores previous digestRecords plan
  let inscription ← inscribe previous plan layers
  writer.sealStele inscription
  .ok inscription

end Documents

section Independence

variable {writer : SteleWriter V O D} {stores : Stores V O} {previous : Predecessor D}
  {digestRecords : Option (List ImmutableDigests)} {plan : Plan}

theorem flatten_chunks {A : Type} (size : ℕ) (positive : 0 < size) (items : List A) :
    (chunks size positive items).flatten = items := by
  fun_induction chunks size positive items with
  | case1 => rfl
  | case2 item rest ih => rw [List.flatten_cons, ih, List.take_append_drop]

theorem produceSerially_append {E : Type} (first second : List (Job D E)) :
    produceSerially (first ++ second) =
      produceSerially first >>= fun layers =>
        produceSerially second >>= fun later => .ok (layers ++ later) := by
  induction first with
  | nil =>
      rw [List.nil_append, produceSerially, ok_bind]
      cases produceSerially second with
      | error failure => rfl
      | ok later => rfl
  | cons job rest ih =>
      rw [List.cons_append, produceSerially, produceSerially, ih]
      cases job.run with
      | error failure => rfl
      | ok layers =>
          cases produceSerially rest with
          | error failure => rfl
          | ok middle =>
              cases produceSerially second with
              | error failure => rfl
              | ok later => simp only [ok_bind, List.append_assoc]

/-- Jobs of one kind, one after the other. -/
theorem produceSerially_map {A E : Type} (lane : Lane) (run : A → Except E (List D))
    (items : List A) :
    produceSerially (items.map fun item => (⟨lane, run item⟩ : Job D E)) =
      List.flatten <$> items.mapM run := by
  induction items with
  | nil => rfl
  | cons item rest ih =>
      rw [List.map_cons, produceSerially, ih, List.mapM_cons]
      cases run item with
      | error failure => rfl
      | ok layers =>
          cases rest.mapM run with
          | error failure => rfl
          | ok later => rfl

/-- However the index layers are banded, they are the same. -/
theorem bands_eq_ok (ascending : Ascending plan.epochs) {layers : List (LayerDescriptor D)} :
    List.flatten <$> (chunks plan.band plan.bandPositive plan.epochs).mapM
        (writeIndexes writer stores previous plan.magic) = .ok layers ↔
      plan.epochs.mapM (indexLayer writer stores previous plan.magic) = .ok layers := by
  have each : ∀ bands : List (List EpochWindow), Ascending bands.flatten → ∀ {layers},
      (List.flatten <$> bands.mapM (writeIndexes writer stores previous plan.magic) = .ok layers ↔
        bands.flatten.mapM (indexLayer writer stores previous plan.magic) = .ok layers) := by
    intro bands
    induction bands with
    | nil =>
        intro _ layers
        rfl
    | cons band rest ih =>
        intro ascending layers
        have here : Ascending band := ascending.sublist (List.sublist_append_left _ _)
        have later : Ascending rest.flatten := ascending.sublist (List.sublist_append_right _ _)
        rw [List.flatten_cons, List.mapM_append, List.mapM_cons, map_eq_ok, bind_eq_ok]
        constructor
        · rintro ⟨_, made, rfl⟩
          rcases bind_eq_ok.mp made with ⟨part, partEq, made⟩
          rcases bind_eq_ok.mp made with ⟨parts, partsEq, same⟩
          rcases Except.ok.inj same with rfl
          refine ⟨part, (writeIndexes_eq_ok here).mp partEq,
            bind_eq_ok.mpr ⟨parts.flatten, ?_, rfl⟩⟩
          exact (ih later).mp (map_eq_ok.mpr ⟨parts, partsEq, rfl⟩)
        · rintro ⟨part, partEq, made⟩
          rcases bind_eq_ok.mp made with ⟨rest, restEq, same⟩
          rcases Except.ok.inj same with rfl
          rcases map_eq_ok.mp ((ih later).mpr restEq) with ⟨parts, partsEq, rfl⟩
          exact ⟨part :: parts, bind_eq_ok.mpr ⟨part, (writeIndexes_eq_ok here).mpr partEq,
            bind_eq_ok.mpr ⟨parts, partsEq, rfl⟩⟩, rfl⟩
  have banded := each (chunks plan.band plan.bandPositive plan.epochs)
  rw [flatten_chunks] at banded
  exact banded ascending

/-- The serial walk makes the layers of the document. -/
theorem produceSerially_exportJobs (ascending : Ascending plan.epochs)
    {layers : List (LayerDescriptor D)} :
    produceSerially (exportJobs writer stores previous digestRecords plan) = .ok layers ↔
      documentLayers writer stores previous digestRecords plan = .ok layers := by
  have logs : (LogNs.all.flatMap fun ns => plan.epochs.map fun window =>
      (⟨.light, logJob writer stores previous plan ns window⟩ :
        Job (LayerDescriptor D) SnapshotError)) =
      (LogNs.all.flatMap fun ns => plan.epochs.map fun window => (ns, window)).map fun entry =>
        ⟨.light, logJob writer stores previous plan entry.1 entry.2⟩ := by
    rw [List.map_flatMap]
    simp only [List.map_map]
    rfl
  rw [exportJobs, logs]
  simp only [produceSerially_append, produceSerially_map]
  rw [documentLayers]
  constructor
  · intro made
    rcases bind_eq_ok.mp made with ⟨_, made, digestsMade⟩
    rcases bind_eq_ok.mp made with ⟨_, made, stateMade⟩
    rcases bind_eq_ok.mp made with ⟨_, made, logsMade⟩
    rcases bind_eq_ok.mp made with ⟨_, blocksMade, indexesMade⟩
    rcases map_eq_ok.mp blocksMade with ⟨blocks, blocksEq, rfl⟩
    rcases bind_eq_ok.mp indexesMade with ⟨indexes, indexesEq, same⟩
    rcases Except.ok.inj same with rfl
    rcases bind_eq_ok.mp logsMade with ⟨_, logsMade, same⟩
    rcases map_eq_ok.mp logsMade with ⟨logs, logsEq, rfl⟩
    rcases Except.ok.inj same with rfl
    rcases bind_eq_ok.mp stateMade with ⟨_, stateMade, same⟩
    rcases map_eq_ok.mp stateMade with ⟨state, stateEq, rfl⟩
    rcases Except.ok.inj same with rfl
    rcases bind_eq_ok.mp digestsMade with ⟨_, digestsMade, same⟩
    rcases map_eq_ok.mp digestsMade with ⟨digests, digestsEq, rfl⟩
    rcases Except.ok.inj same with rfl
    exact bind_eq_ok.mpr ⟨blocks, blocksEq, bind_eq_ok.mpr ⟨indexes,
      (bands_eq_ok ascending).mp indexesEq, bind_eq_ok.mpr ⟨logs, logsEq,
        bind_eq_ok.mpr ⟨state, stateEq, bind_eq_ok.mpr ⟨digests, digestsEq, rfl⟩⟩⟩⟩⟩
  · intro made
    rcases bind_eq_ok.mp made with ⟨blocks, blocksEq, made⟩
    rcases bind_eq_ok.mp made with ⟨indexes, indexesEq, made⟩
    rcases bind_eq_ok.mp made with ⟨logs, logsEq, made⟩
    rcases bind_eq_ok.mp made with ⟨state, stateEq, made⟩
    rcases bind_eq_ok.mp made with ⟨digests, digestsEq, same⟩
    rcases Except.ok.inj same with rfl
    rw [blocksEq, logsEq, stateEq, digestsEq, (bands_eq_ok ascending).mpr indexesEq]
    rfl

theorem result_conclude_eq_ok {layers : Except SnapshotError (List (LayerDescriptor D))}
    {inscription : Inscription D} :
    (conclude writer previous plan layers).result = .ok inscription ↔
      ∃ found, layers = .ok found ∧ inscribe previous plan found = .ok inscription ∧
        writer.sealStele inscription = .ok () := by
  rw [conclude]
  split
  · rename_i failure failedEq
    constructor
    · intro done
      cases done
    · rintro ⟨found, rfl, inscribed, -⟩
      rw [ok_bind, inscribed] at failedEq
      cases failedEq
  · rename_i made madeEq
    rcases bind_eq_ok.mp madeEq with ⟨found, rfl, inscribed⟩
    split
    · rename_i failure failedEq
      constructor
      · intro done
        cases done
      · rintro ⟨other, same, otherEq, isSealed⟩
        rw [← Except.ok.inj same, inscribed] at otherEq
        rw [← Except.ok.inj otherEq, failedEq] at isSealed
        cases isSealed
    · rename_i sealedEq
      constructor
      · intro done
        rcases Except.ok.inj done with rfl
        exact ⟨found, rfl, inscribed, sealedEq⟩
      · rintro ⟨other, same, otherEq, -⟩
        rw [← Except.ok.inj same, inscribed] at otherEq
        exact otherEq

/-- An export returns the document of its plan, and seals what it returns. -/
theorem exports_spec (ascending : Ascending plan.epochs) {published : Published D}
    (run : Exports writer stores previous digestRecords plan published) :
    (∀ inscription, published.result = .ok inscription ↔
      document writer stores previous digestRecords plan = .ok inscription) ∧
      published.sealed = published.result.toOption := by
  cases run with
  | @refused failure refusedEq =>
      refine ⟨?_, rfl⟩
      intro inscription
      rw [document, refusedEq, error_bind]
  | @produced layers cleared produces =>
      constructor
      · intro inscription
        rw [document, cleared, ok_bind]
        have made : ∀ found, layers = .ok found ↔
            documentLayers writer stores previous digestRecords plan = .ok found := by
          intro found
          rw [produces_ok_iff produces, produceSerially_exportJobs ascending]
        rw [result_conclude_eq_ok]
        constructor
        · rintro ⟨found, layersEq, inscribed, isSealed⟩
          exact bind_eq_ok.mpr ⟨found, (made found).mp layersEq, bind_eq_ok.mpr ⟨inscription,
            inscribed, bind_eq_ok.mpr ⟨(), isSealed, rfl⟩⟩⟩
        · intro documented
          rcases bind_eq_ok.mp documented with ⟨found, foundEq, documented⟩
          rcases bind_eq_ok.mp documented with ⟨_, inscribed, documented⟩
          rcases bind_eq_ok.mp documented with ⟨_, isSealed, same⟩
          rcases Except.ok.inj same with rfl
          exact ⟨found, (made found).mpr foundEq, inscribed, isSealed⟩
      · rw [conclude]
        split
        · rfl
        · split
          · rfl
          · rfl

theorem exists_exports (writer : SteleWriter V O D) (stores : Stores V O)
    (previous : Predecessor D) (digestRecords : Option (List ImmutableDigests)) (plan : Plan) :
    ∃ published, Exports writer stores previous digestRecords plan published := by
  cases clearedEq : preflight stores previous plan with
  | error failure => exact ⟨_, .refused clearedEq⟩
  | ok cleared =>
      rcases exists_produces (exportJobs writer stores previous digestRecords plan)
        plan.producersPositive with ⟨layers, produces⟩
      exact ⟨_, .produced clearedEq produces⟩

end Independence

section Sample

/-- A writer that keeps what it is given: the records of a layer are its digest. -/
def SteleWriter.keeping (V O : Type) : SteleWriter V O (List (Record V O)) where
  Sink := LayerSpec × List (Record V O)
  Written := LayerDescriptor (List (Record V O))
  descriptor := id
  layerSink := fun spec => .ok (spec, [])
  writeRecord := fun sink record => .ok (sink.1, sink.2 ++ [record])
  finish := fun sink =>
    .ok ⟨sink.1.kind, sink.1.scope.descriptor, sink.2, sink.2.length, sink.2.length⟩
  carryAgain := fun written scope => .ok { written with scope := scope }
  sealStele := fun _ => .ok ()

/-- The plan of that node. -/
def threeEpochs : Plan where
  magic := 1
  cursor := .specific 250 1
  sequence := 2
  epochs := [⟨0, 0, 99⟩, ⟨1, 100, 199⟩, ⟨2, 200, 250⟩]
  retained := .empty
  band := Plan.defaultBand
  producers := Plan.defaultProducers
  bandPositive := Plan.defaultBand_pos
  producersPositive := Plan.defaultProducers_pos

theorem new_threeEpochs : Plan.new .oneEra 1 (.specific 250 1) .empty = .ok threeEpochs := rfl

end Sample

end Dolos.Snapshot
