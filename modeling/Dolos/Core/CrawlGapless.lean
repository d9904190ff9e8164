import Mathlib.Data.List.Nodup
import Dolos.Core.Crawl

/-!
# Which crawls have no gaps

The node writes each block to the archive and to the log. The archive has the chain from
its first block on; the log has its last blocks, after an entry for the point it was
reset to, if that has not been pruned.

A crawl that starts in the log gives the log past its first point, in the order of the
keys. Where blocks share a slot, as a Byron boundary block does with the block after it,
that is the order of their hashes. A crawl that starts in the archive never comes to its
end: the bare slot it reaches the end of the archive with is no point of the log.
-/

namespace Dolos

open Outcome

variable {B D O : Type} [Block B]

/-- The point that a log was reset to, between the blocks it does not have and those it
has. -/
def Anchors (unlogged logged : List B) : ChainPoint → Prop
  | .origin => unlogged = []
  | .slotOnly slot =>
      (∀ block ∈ unlogged, Block.slot block < slot) ∧ ∀ block ∈ logged, slot ≤ Block.slot block
  | .specific slot hash => ∃ earlier last,
      unlogged = earlier ++ [last] ∧ Block.point last = .specific slot hash

/-- What the node has written: the chain, in two parts, and its log of the second. -/
structure ChainContent (B D O : Type) [Block B] where
  unlogged : List B
  logged : List B
  anchor : Option ChainPoint
  value : B → LogValue B D O
  value_block : ∀ block, (value block).block = some block
  slots : (unlogged ++ logged).Pairwise fun earlier later => Block.slot earlier ≤ Block.slot later
  hashed : ∀ block ∈ unlogged ++ logged, Block.hash block ≠ 0
  distinct : ((unlogged ++ logged).map Block.point).Nodup
  anchored : ∀ point, anchor = some point → Anchors unlogged logged point

/-- The blocks past a point: past the block it names, or from its slot on. -/
def blocksAfter (chain : List B) (point : ChainPoint) : List B :=
  if point ∈ chain.map Block.point then
    (chain.dropWhile fun block => Block.point block ≠ point).tail
  else chain.filter fun block => point.slot ≤ Block.slot block

namespace ChainContent

variable (content : ChainContent B D O)

def chain : List B := content.unlogged ++ content.logged

/-- The entries of the log in the order they were written. -/
def logEntries : List ((ℕ ×ₗ BlockHash) × LogValue B D O) :=
  content.anchor.toList.map (fun point => (point.intoBytes, LogValue.origin)) ++
    content.logged.map fun block => ((Block.point block).intoBytes, content.value block)

def logKeys : List (ℕ ×ₗ BlockHash) := content.logEntries.map Prod.fst

def stores [DecidableEq B] : ChainStores B D O where
  archive := content.chain.foldl BlocksTable.apply ∅
  wal :=
    (Wal.appendEntries ∅ (content.anchor.toList.map fun point => (point, .origin))).appendEntries
    (content.logged.map fun block => (Block.point block, content.value block))

/-- The crawl goes through all blocks past the point it has found. -/
def Gapless [DecidableEq B] (points : List ChainPoint) : Prop :=
  ∃ batch point, content.stores.start points = .ok (some (batch, point)) ∧
    content.stores.Yields batch ((blocksAfter content.chain point).map some)

/-- From a point of the log on, the keys of the log go with the chain. -/
def InOrderFrom (point : ChainPoint) : Prop :=
  ∃ before after, content.logKeys = before ++ point.intoBytes :: after ∧
    (∀ key ∈ before, key < point.intoBytes) ∧
    (point.intoBytes :: after).Pairwise fun earlier later => earlier < later

end ChainContent

/-- The point that a crawl starts from in the log. -/
def Wal.located {V : Type} (wal : Wal V) (points : List ChainPoint) : Option ChainPoint :=
  if points.isEmpty then wal.findTip.map Prod.fst else (wal.findIntersect points).map Prod.fst

theorem blocksAfter_split {before after : List B} {block : B}
    (distinct : ((before ++ block :: after).map Block.point).Nodup) :
    blocksAfter (before ++ block :: after) (Block.point block) = after := by
  have isPoint : Block.point block ∈ (before ++ block :: after).map Block.point :=
    List.mem_map_of_mem (by simp)
  have others : ∀ earlier ∈ before, decide (Block.point earlier ≠ Block.point block) = true := by
    intro earlier isEarlier
    apply decide_eq_true
    intro same
    rw [List.map_append, List.nodup_append] at distinct
    exact distinct.2.2 _ (List.mem_map_of_mem isEarlier) _ (by simp) same
  rw [blocksAfter, if_pos isPoint, List.dropWhile_append_of_pos others]
  simp

theorem blocksAfter_sublist (chain : List B) (point : ChainPoint) :
    (blocksAfter chain point).Sublist chain := by
  rw [blocksAfter]
  split_ifs
  · exact (List.tail_sublist _).trans (List.dropWhile_sublist _)
  · exact List.filter_sublist

/-- A point with a zero hash is no block's. -/
theorem blocksAfter_synthetic {chain : List B} {point : ChainPoint}
    (hashed : ∀ block ∈ chain, Block.hash block ≠ 0) (zero : (ofLex point.intoBytes).2 = 0) :
    blocksAfter chain point = chain.filter fun block => point.slot ≤ Block.slot block := by
  rw [blocksAfter, if_neg]
  intro isPoint
  rcases List.mem_map.mp isPoint with ⟨block, isBlock, rfl⟩
  exact hashed block isBlock zero

namespace ChainContent

variable {content : ChainContent B D O}

section Log

def logEntry (content : ChainContent B D O) (block : B) : (ℕ ×ₗ BlockHash) × LogValue B D O :=
  ((Block.point block).intoBytes, content.value block)

/-- The anchor is no block, or the last block before the log. -/
theorem anchor_cases {point : ChainPoint} (isAnchor : content.anchor = some point) :
    (ofLex point.intoBytes).2 = 0 ∨
      ∃ earlier last, content.unlogged = earlier ++ [last] ∧ point = Block.point last := by
  have anchored := content.anchored point isAnchor
  cases point with
  | origin => exact Or.inl rfl
  | slotOnly slot => exact Or.inl rfl
  | specific slot hash =>
      rcases anchored with ⟨earlier, last, unloggedEq, pointEq⟩
      exact Or.inr ⟨earlier, last, unloggedEq, pointEq.symm⟩

theorem intoBytes_point_injective {first second : B}
    (same : (Block.point first).intoBytes = (Block.point second).intoBytes) :
    Block.point first = Block.point second := by
  rcases Prod.mk.inj (toLex.injective same) with ⟨sameSlot, sameHash⟩
  exact congrArg₂ ChainPoint.specific sameSlot sameHash

theorem anchor_notMem_logged {point : ChainPoint} (isAnchor : content.anchor = some point)
    {block : B} (isLogged : block ∈ content.logged) :
    point.intoBytes ≠ (Block.point block).intoBytes := by
  intro same
  rcases anchor_cases isAnchor with zero | ⟨earlier, last, unloggedEq, rfl⟩
  · rw [same] at zero
    exact content.hashed block (List.mem_append_right _ isLogged) zero
  · have distinct := content.distinct
    rw [unloggedEq, List.map_append, List.nodup_append] at distinct
    exact distinct.2.2 _ (List.mem_map_of_mem (by simp)) _ (List.mem_map_of_mem isLogged)
      (intoBytes_point_injective same)

theorem nodup_logKeys : content.logKeys.Nodup := by
  have loggedKeys : (content.logged.map fun block => (Block.point block).intoBytes).Nodup := by
    have distinct := content.distinct
    rw [List.map_append] at distinct
    have loggedPoints := distinct.of_append_right
    rw [List.Nodup, List.pairwise_map] at loggedPoints ⊢
    apply loggedPoints.imp
    intro first second different same
    exact different (intoBytes_point_injective same)
  have keysEq : content.logKeys = content.anchor.toList.map ChainPoint.intoBytes ++
      content.logged.map fun block => (Block.point block).intoBytes := by
    simp [logKeys, logEntries, Function.comp_def]
  rw [keysEq]
  cases anchorEq : content.anchor with
  | none => simpa using loggedKeys
  | some point =>
      refine List.nodup_cons.mpr ⟨?_, loggedKeys⟩
      intro isLogged
      rcases List.mem_map.mp isLogged with ⟨block, isBlock, same⟩
      exact anchor_notMem_logged anchorEq isBlock same.symm

theorem mem_wal [DecidableEq B] {entry : (ℕ ×ₗ BlockHash) × LogValue B D O} :
    entry ∈ content.stores.wal.entries ↔ entry ∈ content.logEntries := by
  have walEq : content.stores.wal = OrderedMap.ofList content.logEntries := by
    simp only [stores, Wal.appendEntries, OrderedMap.ofList, OrderedMap.insertAll, logEntries,
      List.foldl_append, List.map_map]
    rfl
  rcases entry with ⟨key, value⟩
  rw [OrderedMap.mem_entries_iff, walEq, OrderedMap.get?_ofList_iff nodup_logKeys]

/-- Past the entry of a block, the log has the blocks after it. -/
theorem logged_split {before after : List ((ℕ ×ₗ BlockHash) × LogValue B D O)}
    {entry : (ℕ ×ₗ BlockHash) × LogValue B D O}
    (split : content.logged.map content.logEntry = before ++ entry :: after) :
    ∃ earlier block later, content.logged = earlier ++ block :: later ∧
      entry = content.logEntry block ∧ after = later.map content.logEntry := by
  rcases List.map_eq_append_iff.mp split with ⟨earlier, rest, loggedEq, -, restEq⟩
  rcases List.map_eq_cons_iff.mp restEq with ⟨block, later, rfl, rfl, rfl⟩
  exact ⟨earlier, block, later, loggedEq, rfl, rfl⟩

theorem map_block_logEntry (blocks : List B) :
    (blocks.map content.logEntry).map (fun entry => entry.2.block) = blocks.map some := by
  rw [List.map_map]
  apply List.map_congr_left
  intro block _
  exact content.value_block block

/-- An anchor that is no block stands between the slots of the two parts. -/
theorem anchor_between {anchor : ChainPoint} (isAnchor : content.anchor = some anchor)
    (zero : (ofLex anchor.intoBytes).2 = 0) :
    (∀ block ∈ content.unlogged, Block.slot block < anchor.slot) ∧
      ∀ block ∈ content.logged, anchor.slot ≤ Block.slot block := by
  have anchored := content.anchored anchor isAnchor
  cases anchor with
  | origin =>
      refine ⟨?_, ?_⟩
      · intro block isUnlogged
        rw [show content.unlogged = [] from anchored] at isUnlogged
        cases isUnlogged
      · intro block _
        exact Nat.zero_le _
  | slotOnly slot => exact anchored
  | specific slot hash =>
      rcases anchored with ⟨earlier, last, unloggedEq, lastEq⟩
      have lastHash := content.hashed last (by rw [unloggedEq]; simp)
      rw [← lastEq] at zero
      exact absurd zero lastHash

/-- Past the anchor are the logged blocks. -/
theorem blocksAfter_anchor {anchor point : ChainPoint} (isAnchor : content.anchor = some anchor)
    (decoded : ChainPoint.fromBytes point.intoBytes = point)
    (same : anchor.intoBytes = point.intoBytes) :
    blocksAfter content.chain point = content.logged := by
  rcases anchor_cases isAnchor with zero | ⟨earlier, last, unloggedEq, rfl⟩
  · rcases anchor_between isAnchor zero with ⟨below, above⟩
    have slotEq : point.slot = anchor.slot := congrArg (fun key => (ofLex key).1) same.symm
    rw [same] at zero
    rw [chain, blocksAfter_synthetic content.hashed zero, List.filter_append, slotEq,
      List.filter_eq_nil_iff.mpr, List.filter_eq_self.mpr, List.nil_append]
    · intro block isLogged
      exact decide_eq_true (above block isLogged)
    · intro block isUnlogged
      simpa using below block isUnlogged
  · have pointEq : point = Block.point last := by
      have lastHash := content.hashed last (by rw [unloggedEq]; simp)
      rw [← decoded, ← same]
      apply ChainPoint.fromBytes_specific
      intro isZero
      exact lastHash (congrArg Prod.snd (toLex.injective isZero))
    have chainEq : content.chain = earlier ++ last :: content.logged := by
      rw [chain, unloggedEq, List.append_assoc]
      rfl
    have distinct := content.distinct
    rw [show content.unlogged ++ content.logged = _ from chainEq] at distinct
    rw [pointEq, chainEq, blocksAfter_split distinct]

/-- What was logged after a point is what the chain has after it. -/
theorem blocksAfter_logged {point : ChainPoint}
    (decoded : ChainPoint.fromBytes point.intoBytes = point)
    {before after : List ((ℕ ×ₗ BlockHash) × LogValue B D O)} {value : LogValue B D O}
    (split : content.logEntries = before ++ (point.intoBytes, value) :: after) :
    after.map (fun entry => entry.2.block) = (blocksAfter content.chain point).map some := by
  have atBlock : ∀ before : List ((ℕ ×ₗ BlockHash) × LogValue B D O),
      content.logged.map content.logEntry = before ++ (point.intoBytes, value) :: after →
      after.map (fun entry => entry.2.block) = (blocksAfter content.chain point).map some := by
    intro before loggedSplit
    rcases logged_split loggedSplit with ⟨earlier, block, later, loggedEq, entryEq, rfl⟩
    have isBlock : block ∈ content.unlogged ++ content.logged := by
      rw [loggedEq]
      simp
    have pointEq : point = Block.point block := by
      rw [← decoded, (Prod.mk.inj entryEq).1]
      apply ChainPoint.fromBytes_specific
      intro isZero
      exact content.hashed block isBlock (congrArg Prod.snd (toLex.injective isZero))
    have chainEq : content.chain = (content.unlogged ++ earlier) ++ block :: later := by
      rw [chain, loggedEq, List.append_assoc]
    have distinct := content.distinct
    rw [show content.unlogged ++ content.logged = _ from chainEq] at distinct
    rw [pointEq, chainEq, blocksAfter_split distinct, map_block_logEntry]
  cases anchorEq : content.anchor with
  | none =>
      apply atBlock before
      rw [← split, logEntries, anchorEq]
      rfl
  | some anchor =>
      have entriesEq : content.logEntries =
          (anchor.intoBytes, LogValue.origin) :: content.logged.map content.logEntry := by
        rw [logEntries, anchorEq]
        rfl
      rw [entriesEq] at split
      cases before with
      | nil =>
          rcases List.cons.inj split with ⟨headEq, rfl⟩
          rw [map_block_logEntry,
            blocksAfter_anchor anchorEq decoded (Prod.mk.inj headEq).1]
      | cons first before => exact atBlock before (List.cons.inj split).2

end Log

section Order

variable {point : ChainPoint}

/-- An entry with a block is that block's. -/
theorem key_of_block {entry : (ℕ ×ₗ BlockHash) × LogValue B D O} {block : B}
    (isEntry : entry ∈ content.logEntries) (hasBlock : entry.2.block = some block) :
    entry.1 = (Block.point block).intoBytes := by
  rcases List.mem_append.mp isEntry with synthetic | real
  · rcases List.mem_map.mp synthetic with ⟨anchor, -, rfl⟩
    cases hasBlock
  · rcases List.mem_map.mp real with ⟨logged, -, rfl⟩
    have sameBlock := (content.value_block logged).symm.trans hasBlock
    rw [Option.some.inj sameBlock]

theorem keys_of_blocks {entries : List ((ℕ ×ₗ BlockHash) × LogValue B D O)}
    (areLogged : ∀ entry ∈ entries, entry ∈ content.logEntries) {blocks : List B}
    (blocksEq : entries.map (fun entry => entry.2.block) = blocks.map some) :
    entries.map Prod.fst = blocks.map fun block => (Block.point block).intoBytes := by
  induction entries generalizing blocks with
  | nil =>
      rcases List.map_eq_nil_iff.mp blocksEq.symm with rfl
      rfl
  | cons entry rest ih =>
      rcases List.map_eq_cons_iff.mp blocksEq.symm with ⟨block, later, rfl, blockEq, laterEq⟩
      rw [List.map_cons, List.map_cons,
        key_of_block (areLogged entry List.mem_cons_self) blockEq.symm, ih _ laterEq.symm]
      intro other isOther
      exact areLogged other (List.mem_cons_of_mem entry isOther)

variable [DecidableEq B]

theorem logAfter_blocks (point : ChainPoint) :
    (content.stores.logAfter point).map Prod.snd =
      (content.stores.wal.entries.filter fun entry => point.intoBytes < entry.1).map
        fun entry => entry.2.block := by
  rw [ChainStores.logAfter, List.map_map]
  rfl

/-- Past a point, the log goes with the chain exactly when its keys do. -/
theorem logAfter_eq_iff (decoded : ChainPoint.fromBytes point.intoBytes = point)
    (held : (content.stores.wal.readEntry point).isSome) :
    (content.stores.logAfter point).map Prod.snd = (blocksAfter content.chain point).map some ↔
      content.InOrderFrom point := by
  rw [logAfter_blocks]
  have pastSorted := content.stores.wal.sorted.filter fun entry => point.intoBytes < entry.1
  constructor
  · intro same
    rcases Option.isSome_iff_exists.mp held with ⟨value, valueEq⟩
    have isEntry := mem_wal.mp (OrderedMap.mem_entries_iff.mpr valueEq)
    rcases List.append_of_mem isEntry with ⟨before, after, split⟩
    have pastLogged : ∀ entry ∈ content.stores.wal.entries.filter
        (fun entry => point.intoBytes < entry.1), entry ∈ content.logEntries := by
      intro entry isPast
      exact mem_wal.mp (List.mem_of_mem_filter isPast)
    have afterLogged : ∀ entry ∈ after, entry ∈ content.logEntries := by
      intro entry isAfter
      rw [split]
      simp [isAfter]
    have keysEq := (keys_of_blocks pastLogged same).trans
      (keys_of_blocks afterLogged (blocksAfter_logged decoded split)).symm
    have keysSplit : content.logKeys =
        before.map Prod.fst ++ point.intoBytes :: after.map Prod.fst := by
      rw [logKeys, split, List.map_append, List.map_cons]
    have nodup := @nodup_logKeys _ _ _ _ content
    rw [keysSplit, List.nodup_append] at nodup
    refine ⟨before.map Prod.fst, after.map Prod.fst, keysSplit, ?_, ?_⟩
    · intro key isBefore
      have different : key ≠ point.intoBytes := nodup.2.2 key isBefore _ List.mem_cons_self
      apply lt_of_le_of_ne _ different
      by_contra notBelow
      rcases List.mem_map.mp isBefore with ⟨entry, isEntry, rfl⟩
      have isPast : entry ∈ content.stores.wal.entries.filter
          fun entry => point.intoBytes < entry.1 := by
        refine List.mem_filter.mpr ⟨mem_wal.mpr ?_, decide_eq_true (not_le.mp notBelow)⟩
        rw [split]
        exact List.mem_append_left _ isEntry
      have isAfter : entry.1 ∈ after.map Prod.fst := by
        rw [← keysEq]
        exact List.mem_map_of_mem isPast
      exact nodup.2.2 entry.1 isBefore entry.1 (List.mem_cons_of_mem _ isAfter) rfl
    · rw [← keysEq, List.pairwise_cons]
      refine ⟨?_, List.pairwise_map.mpr pastSorted⟩
      intro key isKey
      rcases List.mem_map.mp isKey with ⟨entry, isPast, rfl⟩
      exact of_decide_eq_true (List.mem_filter.mp isPast).2
  · rintro ⟨beforeKeys, afterKeys, keysSplit, below, increasing⟩
    rcases List.map_eq_append_iff.mp keysSplit with ⟨before, rest, split, rfl, restEq⟩
    rcases List.map_eq_cons_iff.mp restEq with ⟨⟨key, value⟩, after, rfl, rfl, rfl⟩
    rcases List.pairwise_cons.mp increasing with ⟨above, afterSorted⟩
    rw [← blocksAfter_logged decoded split]
    congr 1
    apply OrderedMap.sorted_ext pastSorted (List.pairwise_map.mp afterSorted)
    intro entry
    rw [List.mem_filter, mem_wal, split]
    simp only [List.mem_append, List.mem_cons, decide_eq_true_eq]
    constructor
    · rintro ⟨isBefore | rfl | isAfter, past⟩
      · exact absurd past (below entry.1 (List.mem_map_of_mem isBefore)).not_gt
      · exact absurd past (lt_irrefl _)
      · exact isAfter
    · intro isAfter
      exact ⟨Or.inr (Or.inr isAfter), above entry.1 (List.mem_map_of_mem isAfter)⟩

end Order

section Archive

theorem nodup_chain (content : ChainContent B D O) : content.chain.Nodup :=
  List.Nodup.of_map _ content.distinct

variable [DecidableEq B]

theorem scanned_archive (content : ChainContent B D O) :
    content.stores.archive.scanned =
      content.chain.map fun block => (Block.slot block, block) :=
  (BlocksTable.scanned_foldl content.nodup_chain content.slots).1

theorem getRange_archive (first : ℕ) :
    content.stores.archive.getRange first =
      (content.chain.filter fun block => first ≤ Block.slot block).map
        fun block => (Block.slot block, block) := by
  rw [BlocksTable.getRange_eq, scanned_archive, List.filter_map]
  rfl

theorem mem_getAllBySlot {slot : ℕ} {block : B} :
    block ∈ content.stores.archive.getAllBySlot slot ↔
      block ∈ content.chain ∧ Block.slot block = slot := by
  rw [← BlocksTable.mem_scanned, scanned_archive]
  simp only [List.mem_map, Prod.mk.injEq]
  grind

/-- The archive finds a point it was asked for. -/
theorem archive_findIntersect {points : List ChainPoint} {point : ChainPoint}
    (defined : ∀ point ∈ points, point.isFullyDefined)
    (found : content.stores.archive.findIntersect points = some point) : point ∈ points := by
  induction points with
  | nil => cases found
  | cons candidate rest ih =>
      cases candidate with
      | origin =>
          cases found
          exact List.mem_cons_self
      | slotOnly slot =>
          have undefined := defined (.slotOnly slot) List.mem_cons_self
          cases undefined
      | specific slot hash =>
          rw [BlocksTable.findIntersect] at found
          split at found
          · rename_i block isFound
            cases found
            have slotEq := (mem_getAllBySlot.mp (List.mem_of_find?_eq_some isFound)).2
            have hashEq : Block.hash block = hash := by
              simpa using List.find?_some isFound
            rw [Block.point, slotEq, hashEq]
            exact List.mem_cons_self
          · apply List.mem_cons_of_mem
            apply ih _ found
            intro other isOther
            exact defined other (List.mem_cons_of_mem _ isOther)

/-- A key of the log with a zero hash is that of the anchor. -/
theorem anchor_of_zero {key : ℕ ×ₗ BlockHash} {value : LogValue B D O}
    (held : content.stores.wal.get? key = some value) (zero : (ofLex key).2 = 0) :
    ∃ anchor, content.anchor = some anchor ∧ anchor.intoBytes = key := by
  have isEntry := mem_wal.mp (OrderedMap.mem_entries_iff.mpr held)
  rcases List.mem_append.mp isEntry with synthetic | real
  · rcases List.mem_map.mp synthetic with ⟨anchor, isAnchor, entryEq⟩
    exact ⟨anchor, Option.mem_toList.mp isAnchor, (Prod.mk.inj entryEq).1⟩
  · rcases List.mem_map.mp real with ⟨block, isLogged, entryEq⟩
    rw [← (Prod.mk.inj entryEq).1] at zero
    exact absurd zero (content.hashed block (List.mem_append_right _ isLogged))

/-- A crawl on the archive: its pages are blocks of the chain, and its point is one the
log does not have, or the slot of a block it has given. -/
structure Archived (content : ChainContent B D O) (seen : List (Option B)) (point : ChainPoint)
    (pending : List (ChainPoint × Option B)) : Prop where
  blocks : ∀ entry ∈ pending, ∃ block ∈ content.chain,
    entry = (.slotOnly (Block.slot block), some block)
  point : content.stores.wal.readEntry point = none ∨
    ∃ block ∈ content.chain, some block ∈ seen ∧ point = .slotOnly (Block.slot block)

theorem archivePage_blocks {lastPoint : ChainPoint} :
    ∀ entry ∈ content.stores.archivePage lastPoint, ∃ block ∈ content.chain,
      entry = (.slotOnly (Block.slot block), some block) := by
  intro entry isEntry
  rcases List.mem_map.mp isEntry with ⟨found, isFound, rfl⟩
  have isRanged := List.mem_of_mem_drop (List.mem_of_mem_take isFound)
  rw [getRange_archive] at isRanged
  rcases List.mem_map.mp isRanged with ⟨block, isBlock, rfl⟩
  exact ⟨block, List.mem_of_mem_filter isBlock, rfl⟩

/-- Where a page comes out empty, one block at most is left from the point's slot on. -/
theorem eq_of_archivePage_nil {lastPoint : ChainPoint}
    (empty : content.stores.archivePage lastPoint = []) {first second : B}
    (isFirst : first ∈ content.chain) (isSecond : second ∈ content.chain)
    (firstSlot : lastPoint.slot ≤ Block.slot first)
    (secondSlot : lastPoint.slot ≤ Block.slot second) : first = second := by
  rw [ChainStores.archivePage, List.map_eq_nil_iff, List.take_eq_nil_iff, getRange_archive,
    List.drop_eq_nil_iff, List.length_map] at empty
  rcases empty with zero | short
  · cases zero
  · have firstKept : first ∈ content.chain.filter fun block => lastPoint.slot ≤ Block.slot block :=
      List.mem_filter.mpr ⟨isFirst, decide_eq_true firstSlot⟩
    have secondKept :
        second ∈ content.chain.filter fun block => lastPoint.slot ≤ Block.slot block :=
      List.mem_filter.mpr ⟨isSecond, decide_eq_true secondSlot⟩
    generalize content.chain.filter (fun block => lastPoint.slot ≤ Block.slot block) = kept at *
    rcases kept with _ | ⟨only, _ | ⟨next, later⟩⟩
    · cases firstKept
    · rw [List.mem_singleton.mp firstKept, List.mem_singleton.mp secondKept]
    · simp at short

/-- At a bare slot, the log goes on with a block that was given already. -/
theorem handover_repeats {seen : List (Option B)} {block : B} (isBlock : block ∈ content.chain)
    (isSeen : some block ∈ seen)
    (empty : content.stores.archivePage (.slotOnly (Block.slot block)) = [])
    {value : LogValue B D O}
    (held : content.stores.wal.readEntry (.slotOnly (Block.slot block)) = some value) :
    ∃ entry, (content.stores.logAfter (.slotOnly (Block.slot block))).head? = some entry ∧
      entry.2 ∈ seen := by
  rcases anchor_of_zero held rfl with ⟨anchor, isAnchor, anchorEq⟩
  have zero : (ofLex anchor.intoBytes).2 = 0 := by
    rw [anchorEq]
    rfl
  have slotEq : anchor.slot = Block.slot block := congrArg (fun key => (ofLex key).1) anchorEq
  rcases anchor_between isAnchor zero with ⟨below, above⟩
  have isLogged : block ∈ content.logged := by
    rcases List.mem_append.mp isBlock with isUnlogged | isLogged
    · have slotBelow := below block isUnlogged
      omega
    · exact isLogged
  have isPast : content.logEntry block ∈ content.stores.wal.entries.filter
      fun entry => (ChainPoint.slotOnly (Block.slot block)).intoBytes < entry.1 := by
    refine List.mem_filter.mpr ⟨mem_wal.mpr ?_, decide_eq_true ?_⟩
    · exact List.mem_append_right _ (List.mem_map_of_mem isLogged)
    · apply Prod.Lex.lt_iff.mpr
      right
      exact ⟨rfl, Fin.pos_iff_ne_zero.mpr (content.hashed block isBlock)⟩
  rw [ChainStores.logAfter, List.head?_map]
  rcases List.exists_cons_of_ne_nil (List.ne_nil_of_mem isPast) with ⟨first, rest, pastEq⟩
  rw [pastEq]
  refine ⟨_, rfl, ?_⟩
  have firstPast : first ∈ content.stores.wal.entries.filter
      fun entry => (ChainPoint.slotOnly (Block.slot block)).intoBytes < entry.1 := by
    rw [pastEq]
    exact List.mem_cons_self
  rcases List.mem_filter.mp firstPast with ⟨isEntry, past⟩
  rcases List.mem_append.mp (mem_wal.mp isEntry) with synthetic | real
  · rcases List.mem_map.mp synthetic with ⟨other, isOther, rfl⟩
    have sameAnchor := Option.some.inj (isAnchor.symm.trans (Option.mem_toList.mp isOther))
    rw [← sameAnchor, anchorEq] at past
    exact absurd (of_decide_eq_true past) (lt_irrefl _)
  · rcases List.mem_map.mp real with ⟨other, isOther, rfl⟩
    have otherSlot := above other isOther
    rw [slotEq] at otherSlot
    have sameBlock := eq_of_archivePage_nil empty (List.mem_append_right _ isOther) isBlock
      otherSlot (le_refl _)
    simp only [content.value_block, sameBlock]
    exact isSeen

/-- A call on an archive page gives a block, one that was given already or the next of
the archive. -/
theorem nextBlock_archived {seen : List (Option B)} {point : ChainPoint}
    {pending : List (ChainPoint × Option B)} (archived : content.Archived seen point pending)
    {answer : Option (ChainPoint × Option B)} {next : Batch B}
    (called : content.stores.nextBlock (.archivePage point pending) = .ok (answer, next)) :
    ∃ entry, answer = some entry ∧ (entry.2 ∈ seen ∨ ∃ later lastPoint,
      next = .archivePage lastPoint later ∧
        content.Archived (seen ++ [entry.2]) lastPoint later) := by
  have popped : ∀ {page}, (∀ entry ∈ page, ∃ block ∈ content.chain,
      entry = (ChainPoint.slotOnly (Block.slot block), some block)) → page ≠ [] →
      ChainStores.popUnlessTip (.archivePage point page) = .ok (answer, next) →
      ∃ entry, answer = some entry ∧ (entry.2 ∈ seen ∨ ∃ later lastPoint,
        next = .archivePage lastPoint later ∧
          content.Archived (seen ++ [entry.2]) lastPoint later) := by
    intro page blocks nonempty poppedEq
    cases page with
    | nil => exact absurd rfl nonempty
    | cons first later =>
        rcases Except.ok.inj poppedEq with ⟨rfl, rfl⟩
        rcases blocks first List.mem_cons_self with ⟨block, isBlock, rfl⟩
        refine ⟨_, rfl, Or.inr ⟨later, _, rfl, ?_, Or.inr ⟨block, isBlock, by simp, rfl⟩⟩⟩
        intro entry isLater
        exact blocks entry (List.mem_cons_of_mem _ isLater)
  by_cases drained : pending = []
  · subst drained
    rcases bind_eq_ok.mp called with ⟨batch, loaded, poppedEq⟩
    change content.stores.fromArchive point = .ok batch at loaded
    rw [ChainStores.fromArchive] at loaded
    split at loaded
    · rename_i empty
      split at loaded
      · rename_i located value found
        rcases Except.ok.inj loaded with rfl
        rcases Wal.findIntersect_some found with ⟨isPoint, held⟩
        rcases List.mem_singleton.mp isPoint with rfl
        rcases archived.point with absent | ⟨block, isBlock, isSeen, rfl⟩
        · rw [absent] at held
          cases held
        · have isHeld : (content.stores.wal.readEntry (.slotOnly (Block.slot block))).isSome := by
            rw [held]
            rfl
          rcases ChainStores.popUnlessTip_fromWal isHeld with ⟨first, rest, poppedFirst, firstEq, -⟩
          rcases Except.ok.inj (poppedFirst.symm.trans poppedEq) with ⟨rfl, rfl⟩
          rcases handover_repeats isBlock isSeen empty held with ⟨entry, headEq, seenBefore⟩
          exact ⟨entry, firstEq.trans headEq, Or.inl seenBefore⟩
      · cases loaded
    · rename_i nonempty
      rcases Except.ok.inj loaded with rfl
      exact popped archivePage_blocks nonempty poppedEq
  · have calledEq : content.stores.nextBlock (.archivePage point pending) =
        ChainStores.popUnlessTip (.archivePage point pending) := by
      simp [ChainStores.nextBlock, ChainStores.isDrained, drained]
    rw [calledEq] at called
    exact popped archived.blocks drained called

/-- So it does not come to an end with blocks that are all different. -/
theorem not_yields_archived {seen blocks : List (Option B)} {point : ChainPoint}
    {pending : List (ChainPoint × Option B)} (archived : content.Archived seen point pending)
    (nodup : (seen ++ blocks).Nodup) :
    ¬ content.stores.Yields (.archivePage point pending) blocks := by
  induction blocks generalizing seen point pending with
  | nil =>
      intro yields
      rcases yields.step with ⟨answer, next, called, answerEq, -⟩
      rcases nextBlock_archived archived called with ⟨entry, rfl, -⟩
      cases answerEq
  | cons block rest ih =>
      intro yields
      rcases yields.step with ⟨answer, next, called, answerEq, nextYields⟩
      rcases nextBlock_archived archived called with ⟨entry, rfl, repeated | goesOn⟩
      · rcases Option.some.inj answerEq with rfl
        rw [List.nodup_append] at nodup
        exact nodup.2.2 _ repeated _ List.mem_cons_self rfl
      · rcases goesOn with ⟨later, lastPoint, rfl, archivedNext⟩
        rcases Option.some.inj answerEq with rfl
        apply ih archivedNext _ nextYields
        rw [List.append_assoc]
        exact nodup

end Archive

section Crawls

variable [DecidableEq B] {points : List ChainPoint} {point : ChainPoint}

omit [Block B] [DecidableEq B] in
theorem fromBytes_of_isFullyDefined (defined : point.isFullyDefined) :
    ChainPoint.fromBytes point.intoBytes = point := by
  cases point with
  | origin => rfl
  | slotOnly slot => cases defined
  | specific slot hash =>
      apply ChainPoint.fromBytes_specific
      intro isZero
      have hashZero : hash = 0 := congrArg Prod.snd (toLex.injective isZero)
      simp [ChainPoint.isFullyDefined, hashZero] at defined

omit [Block B] [DecidableEq B] in
theorem findTip_spec {stores : ChainStores B D O} {value : LogValue B D O}
    (found : stores.wal.findTip = some (point, value)) :
    (stores.wal.readEntry point).isSome ∧ ChainPoint.fromBytes point.intoBytes = point ∧
      stores.logAfter point = [] := by
  rw [Wal.findTip, Wal.iterLogs, List.getLast?_map, Option.map_eq_some_iff] at found
  simp only [List.filter_true] at found
  rcases found with ⟨entry, isLast, entryEq⟩
  rcases Prod.mk.inj entryEq with ⟨rfl, rfl⟩
  have held := OrderedMap.mem_entries_iff.mp (List.mem_of_getLast? isLast)
  rw [Wal.readEntry, ChainStores.logAfter, ChainPoint.intoBytes_fromBytes, held]
  refine ⟨rfl, rfl, ?_⟩
  rw [List.map_eq_nil_iff, List.filter_eq_nil_iff]
  intro other isOther
  simpa using OrderedMap.le_of_getLast? isLast other isOther

/-- A crawl from a point of the log. -/
theorem start_located (defined : ∀ point ∈ points, point.isFullyDefined)
    (located : content.stores.wal.located points = some point) :
    (content.stores.wal.readEntry point).isSome ∧
      ChainPoint.fromBytes point.intoBytes = point ∧
      ∃ batch, content.stores.start points = .ok (some (batch, point)) ∧
        content.stores.WalRemains batch (content.stores.logAfter point) := by
  rw [Wal.located] at located
  split_ifs at located with noPoints
  · rcases Option.map_eq_some_iff.mp located with ⟨⟨tip, value⟩, found, rfl⟩
    rcases findTip_spec found with ⟨held, decoded, nothingAfter⟩
    refine ⟨held, decoded, .tip tip, ?_, nothingAfter⟩
    rw [ChainStores.start, if_pos noPoints, found]
  · rcases Option.map_eq_some_iff.mp located with ⟨⟨candidate, value⟩, found, rfl⟩
    rcases Wal.findIntersect_some found with ⟨isPoint, held⟩
    have isHeld : (content.stores.wal.readEntry candidate).isSome := by
      rw [held]
      rfl
    refine ⟨isHeld, fromBytes_of_isFullyDefined (defined candidate isPoint),
      content.stores.fromWal candidate, ?_, ChainStores.fromWal_remains isHeld⟩
    rw [ChainStores.start, if_neg noPoints, found]

/-- A crawl that does not start in the log has gaps or panics. -/
theorem not_gapless_of_unlocated (defined : ∀ point ∈ points, point.isFullyDefined)
    (unlocated : content.stores.wal.located points = none) : ¬ content.Gapless points := by
  rintro ⟨batch, point, started, yields⟩
  rw [Wal.located] at unlocated
  rw [ChainStores.start] at started
  split_ifs at unlocated started with noPoints
  · rw [Option.map_eq_none_iff.mp unlocated] at started
    cases started
  · have unheld := Option.map_eq_none_iff.mp unlocated
    rw [unheld] at started
    cases found : content.stores.archive.findIntersect points with
    | none =>
        rw [found] at started
        cases started
    | some located =>
        rw [found] at started
        rcases bind_eq_ok.mp started with ⟨loaded, loadedEq, startedEq⟩
        rcases Except.ok.inj startedEq with ⟨rfl, rfl⟩
        have isPoint := archive_findIntersect defined found
        have absent := Wal.findIntersect_none unheld isPoint
        rw [ChainStores.fromArchive] at loadedEq
        split at loadedEq
        · rw [Wal.findIntersect, absent] at loadedEq
          cases loadedEq
        · rcases Except.ok.inj loadedEq with rfl
          have archived : content.Archived [] point (content.stores.archivePage point) :=
            ⟨archivePage_blocks, Or.inl absent⟩
          refine not_yields_archived archived ?_ yields
          have nodup := content.nodup_chain.sublist (blocksAfter_sublist content.chain point)
          exact nodup.map (Option.some_injective B)

/-- A crawl has no gaps exactly when it starts from a point of the log and the keys of
the log go with the chain from there on. -/
theorem gapless_iff (content : ChainContent B D O)
    (defined : ∀ point ∈ points, point.isFullyDefined) :
    content.Gapless points ↔ ∃ point,
      content.stores.wal.located points = some point ∧ content.InOrderFrom point := by
  constructor
  · intro gapless
    cases located : content.stores.wal.located points with
    | none => exact absurd gapless (not_gapless_of_unlocated defined located)
    | some point =>
        rcases start_located defined located with ⟨held, decoded, batch, started, remains⟩
        rcases gapless with ⟨_, _, startedAgain, yields⟩
        rcases Except.ok.inj (started.symm.trans startedAgain) with ⟨rfl, rfl⟩
        have same := (ChainStores.yields_of_walRemains remains).unique yields
        exact ⟨point, rfl, (logAfter_eq_iff decoded held).mp same⟩
  · rintro ⟨point, located, inOrder⟩
    rcases start_located defined located with ⟨held, decoded, batch, started, remains⟩
    refine ⟨batch, point, started, ?_⟩
    rw [← (logAfter_eq_iff decoded held).mpr inOrder]
    exact ChainStores.yields_of_walRemains remains

end Crawls

end ChainContent

namespace Handover

/-- Three blocks that the log no longer has, and a boundary block of the log that shares
its slot with the block after it. -/
def content : ChainContent BlockHeader Unit Unit where
  unlogged := [⟨1, 1⟩, ⟨2, 2⟩, ⟨3, 3⟩]
  logged := [⟨4, 4⟩, ⟨4, 5⟩, ⟨5, 6⟩]
  anchor := none
  value := fun block => ⟨some block, [], ∅⟩
  value_block := fun _ => rfl
  slots := by decide
  hashed := by decide
  distinct := by decide
  anchored := fun _ isAnchor => by cases isAnchor

/-- From a point of the log, a crawl comes to the tip. -/
theorem gapless_from_log : content.Gapless [.specific 9 9, .specific 4 4] := by
  apply (content.gapless_iff (by decide)).mpr
  refine ⟨.specific 4 4, by decide, [], [toLex (4, 5), toLex (5, 6)], by decide, ?_, ?_⟩
  · intro key isKey
    cases isKey
  · decide

/-- From a point of the archive, it gives all blocks and then panics. -/
theorem crawl_from_archive_panics :
    ∃ batch answers last, content.stores.start [.specific 1 1] = .ok (some (batch, .specific 1 1)) ∧
      content.stores.calls 5 batch = .ok (answers, last) ∧
      content.stores.calls 6 batch = .error (.explicit "no overlap between archive and wal") :=
  ⟨_, _, _, rfl, rfl, rfl⟩

end Handover

end Dolos
