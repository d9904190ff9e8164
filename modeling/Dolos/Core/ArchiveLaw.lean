import Mathlib.Data.Finset.Card
import Dolos.Core.Archive

/-!
# What the archives hold

Both archives against the list of the blocks they were given, in the order of the chain.
Each block that is held has a body where its location says, in the segment of its slot,
and within a segment the bodies come in the order of the chain: a cut at the first body
that goes is past the end of every body that stays.
-/

namespace Dolos

open Grouping FlatFileStore ArchiveStore Outcome

/-- A block that is held, with where its body is. -/
structure ArchivedBlock where
  slot : ℕ
  body : Bytes
  location : BlockLocation

def ArchivedBlock.block (held : ArchivedBlock) : ℕ × Bytes := (held.slot, held.body)

/-- What the files are made for: a segment number of six digits, and a body whose length
has 32 bits and is not zero. -/
structure FitsSegments (block : ℕ × Bytes) : Prop where
  slot : block.1 < slotsPerSegment * 10 ^ 6
  nonempty : block.2 ≠ []
  short : block.2.length < 2 ^ 32

instance (block : ℕ × Bytes) : Decidable (FitsSegments block) :=
  decidable_of_iff
    (block.1 < slotsPerSegment * 10 ^ 6 ∧ block.2 ≠ [] ∧ block.2.length < 2 ^ 32)
    ⟨fun ⟨slot, nonempty, short⟩ => ⟨slot, nonempty, short⟩,
      fun fits => ⟨fits.slot, fits.nonempty, fits.short⟩⟩

/-- The table and the files hold these blocks, in this order. -/
structure ArchiveStore.Holds (archive : ArchiveStore) (held : List ArchivedBlock) : Prop where
  index : archive.index = grouped ArchivedBlock.slot ArchivedBlock.location held
  sorted : held.Pairwise fun earlier later => earlier.slot ≤ later.slot
  fits : ∀ kept ∈ held, FitsSegments kept.block
  placed : ∀ kept ∈ held, kept.location.segmentId = BlockLocation.segmentForSlot kept.slot
  stored : ∀ kept ∈ held, Stored archive.files kept.location kept.body
  ordered : held.Pairwise fun earlier later =>
    earlier.location.segmentId = later.location.segmentId →
      earlier.location.offset + earlier.body.length ≤ later.location.offset

section Writers

/-- The two writers have done the same: the batch leads to the table as the transaction
sees it. -/
structure SameWrites (redb : RedbWriter) (fjall : FjallWriter) : Prop where
  committed : fjall.committed = redb.committed
  files : fjall.files = redb.files
  pending : fjall.pending = redb.pending
  written : FjallWriter.writeBatch fjall.committed fjall.batch = redb.index
  resolved : ∀ slot, FjallWriter.resolveLocations fjall.committed fjall.overlay slot =
    (redb.index.get? slot).getD []

namespace SameWrites

variable {redb : RedbWriter} {fjall : FjallWriter}

theorem start (archive : ArchiveStore) :
    SameWrites (RedbWriter.start archive) (FjallWriter.start archive) :=
  ⟨rfl, rfl, rfl, rfl, fun _ => rfl⟩

theorem apply (same : SameWrites redb fjall) (block : ℕ × Bytes) :
    SameWrites (redb.apply block) (fjall.apply block) := by
  refine ⟨same.committed, same.files, ?_, same.written, same.resolved⟩
  simp only [RedbWriter.apply, FjallWriter.apply, same.pending]

theorem writeBatch_concat (table : BlocksIndex) (batch : BlocksBatch) (slot : ℕ)
    (value : Option (List BlockLocation)) :
    FjallWriter.writeBatch table (batch ++ [(slot, value)]) =
      (FjallWriter.writeBatch table batch).set slot value := by
  rw [FjallWriter.writeBatch, List.foldl_append]
  rfl

theorem resolve_insert (committed : BlocksIndex) (overlay : OrderedMap ℕ (List BlockLocation))
    (slot other : ℕ) (locations : List BlockLocation) :
    FjallWriter.resolveLocations committed (overlay.insert slot locations) other =
      if other = slot then locations
      else FjallWriter.resolveLocations committed overlay other := by
  rw [FjallWriter.resolveLocations, OrderedMap.get?_insert]
  split_ifs
  · rfl
  · rfl

theorem undo (same : SameWrites redb fjall) (slot : ℕ) :
    SameWrites (redb.undo slot) (fjall.undo slot) := by
  unfold RedbWriter.undo FjallWriter.undo
  rw [same.resolved]
  cases held : (redb.index.get? slot).getD [] with
  | nil => exact same
  | cons removed rest =>
      refine ⟨same.committed, ?_, same.pending, ?_, ?_⟩
      · simp only [same.files]
      · simp only [writeBatch_concat, same.written]
        split_ifs
        · rfl
        · rfl
      · intro other
        simp only [resolve_insert]
        split_ifs with isSlot isEmpty isEmpty
        · rw [OrderedMap.get?_erase, if_pos isSlot, isEmpty]
          rfl
        · rw [OrderedMap.get?_insert, if_pos isSlot]
          rfl
        · rw [OrderedMap.get?_erase, if_neg isSlot]
          exact same.resolved other
        · rw [OrderedMap.get?_insert, if_neg isSlot]
          exact same.resolved other

/-- The loop over the blocks of a batch. -/
theorem indexBlocks (files : FlatFileStore) {committed index : BlocksIndex}
    {overlay : OrderedMap ℕ (List BlockLocation)} {batch : BlocksBatch}
    (written : FjallWriter.writeBatch committed batch = index)
    (resolved : ∀ slot, FjallWriter.resolveLocations committed overlay slot =
      (index.get? slot).getD [])
    (blocks : List ((ℕ × Bytes) × BlockLocation)) :
    FjallWriter.writeBatch committed <$>
        FjallWriter.indexBlocks files committed overlay batch blocks =
      RedbWriter.indexBlocks files index blocks := by
  induction blocks generalizing index overlay batch with
  | nil =>
      simp only [FjallWriter.indexBlocks, RedbWriter.indexBlocks, ← written]
      rfl
  | cons first rest ih =>
      rcases first with ⟨block, location⟩
      have mergedAlike : RedbWriter.indexBlock files index block location =
          (mergeLocation files ((index.get? block.1).getD []) location block.2 >>= fun merged =>
            .ok (index.insert block.1 merged)) := by
        unfold RedbWriter.indexBlock
        cases index.get? block.1 with
        | none => rfl
        | some occupied => rfl
      rw [RedbWriter.indexBlocks, FjallWriter.indexBlocks, mergedAlike, resolved]
      cases mergeLocation files ((index.get? block.1).getD []) location block.2 with
      | error failure => rfl
      | ok merged =>
          apply ih
          · rw [writeBatch_concat, written]
            rfl
          · intro slot
            rw [resolve_insert, OrderedMap.get?_insert]
            split_ifs
            · rfl
            · exact resolved slot

theorem commit (same : SameWrites redb fjall) : fjall.commit = redb.commit := by
  have looped := indexBlocks (redb.files.appendBatch (segmentItems redb.pending)).2
    same.written same.resolved
    (redb.pending.zip (redb.files.appendBatch (segmentItems redb.pending)).1)
  unfold FjallWriter.commit RedbWriter.commit
  simp only [same.files, same.pending]
  rw [← looped, ← same.committed]
  cases FjallWriter.indexBlocks _ fjall.committed fjall.overlay fjall.batch _ with
  | error failure => rfl
  | ok batch => rfl

end SameWrites

/-- Batches of both archives leave the same. -/
theorem fjallCommit_eq_redbCommit (archive : ArchiveStore) (blocks : List (ℕ × Bytes)) :
    (blocks.foldl FjallWriter.apply (.start archive)).commit =
      (blocks.foldl RedbWriter.apply (.start archive)).commit := by
  apply SameWrites.commit
  have started := SameWrites.start archive
  revert started
  generalize RedbWriter.start archive = redb
  generalize FjallWriter.start archive = fjall
  intro same
  induction blocks generalizing redb fjall with
  | nil => exact same
  | cons block rest ih => exact ih (redb.apply block) (fjall.apply block) (same.apply block)

theorem pending_foldl_apply (writer : RedbWriter) (blocks : List (ℕ × Bytes)) :
    blocks.foldl RedbWriter.apply writer =
      { writer with pending := writer.pending ++ blocks } := by
  induction blocks generalizing writer with
  | nil => simp
  | cons block rest ih =>
      rw [List.foldl_cons, ih]
      simp [RedbWriter.apply]

end Writers

section Storing

variable {files after : FlatFileStore} {index : BlocksIndex} {held : List ArchivedBlock}

/-- A block is stored once. -/
def storeBlock (blocks : List (ℕ × Bytes)) (block : ℕ × Bytes) : List (ℕ × Bytes) :=
  if block ∈ blocks then blocks else blocks ++ [block]

/-- A block that comes after all that is held, or is held already. -/
def InChainOrder (blocks : List (ℕ × Bytes)) (block : ℕ × Bytes) : Prop :=
  block ∈ blocks ∨ ∀ earlier ∈ blocks, earlier.1 ≤ block.1

theorem alreadyHeld_eq (files : FlatFileStore) {kept : List ArchivedBlock}
    (stored : ∀ block ∈ kept, Stored files block.location block.body) (body : Bytes) :
    alreadyHeld files body (kept.map ArchivedBlock.location) =
      .ok (decide (body ∈ kept.map ArchivedBlock.body)) := by
  induction kept with
  | nil => rfl
  | cons first rest ih =>
      have firstStored := stored first List.mem_cons_self
      have later := ih fun block member => stored block (List.mem_cons_of_mem _ member)
      rw [List.map_cons, alreadyHeld, firstStored.length, firstStored.read, later]
      by_cases same : first.body = body
      · subst same
        simp
      · have different : body ≠ first.body := Ne.symm same
        simp only [same, if_false, List.map_cons, List.mem_cons, different, false_or]
        split_ifs
        · rfl
        · rfl

theorem mem_bodies_iff {held : List ArchivedBlock} {block : ℕ × Bytes} :
    block.2 ∈ ((held.filter fun kept => kept.slot = block.1).reverse).map ArchivedBlock.body ↔
      block ∈ held.map ArchivedBlock.block := by
  simp only [List.mem_map, List.mem_reverse, List.mem_filter, decide_eq_true_eq]
  constructor
  · rintro ⟨kept, ⟨isKept, slotEq⟩, bodyEq⟩
    exact ⟨kept, isKept, Prod.ext slotEq bodyEq⟩
  · rintro ⟨kept, isKept, rfl⟩
    exact ⟨kept, ⟨isKept, rfl⟩, rfl⟩

/-- One block in the loop of a batch. -/
theorem indexBlock_eq (files : FlatFileStore)
    (indexEq : index = grouped ArchivedBlock.slot ArchivedBlock.location held)
    (stored : ∀ kept ∈ held, Stored files kept.location kept.body) (block : ℕ × Bytes)
    (location : BlockLocation) :
    RedbWriter.indexBlock files index block location =
      .ok (if block ∈ held.map ArchivedBlock.block then index
        else push index block.1 location) := by
  have locationsEq : itemsAt ArchivedBlock.slot ArchivedBlock.location held block.1 =
      ((held.filter fun kept => kept.slot = block.1).reverse).map ArchivedBlock.location := by
    rw [itemsAt, List.map_reverse]
  have atSlot : ∀ kept ∈ (held.filter fun kept => kept.slot = block.1).reverse,
      Stored files kept.location kept.body := by
    intro kept member
    exact stored kept (List.mem_of_mem_filter (List.mem_reverse.mp member))
  have known := alreadyHeld_eq files atSlot block.2
  rw [← locationsEq] at known
  unfold RedbWriter.indexBlock
  cases found : index.get? block.1 with
  | none =>
      have nothing : itemsAt ArchivedBlock.slot ArchivedBlock.location held block.1 = [] := by
        rw [← getD_grouped, ← indexEq, found]
        rfl
      have isNew : block ∉ held.map ArchivedBlock.block := by
        rw [← mem_bodies_iff]
        intro isHeld
        rw [nothing] at locationsEq
        have empty := List.map_eq_nil_iff.mp locationsEq.symm
        rw [empty] at isHeld
        cases isHeld
      rw [if_neg isNew, push, found]
      rfl
  | some occupied =>
      have occupiedEq : itemsAt ArchivedBlock.slot ArchivedBlock.location held block.1 =
          occupied := by
        rw [← getD_grouped, ← indexEq, found]
        rfl
      rw [occupiedEq] at known
      simp only [mergeLocation, known, ok_bind]
      by_cases isHeld : block ∈ held.map ArchivedBlock.block
      · have inBodies := mem_bodies_iff.mpr isHeld
        simp only [inBodies, decide_true, if_true, isHeld]
        congr 1
        ext1 slot
        rw [OrderedMap.get?_insert]
        split_ifs with isSlot
        · rw [isSlot, found]
        · rfl
      · have notInBodies := mt mem_bodies_iff.mp isHeld
        simp only [notInBodies, decide_false, Bool.false_eq_true, if_false, isHeld, push, found,
          Option.getD_some]

/-- What is held after one more block. -/
def holdBlock (files : FlatFileStore) (held : List ArchivedBlock) (block : ℕ × Bytes) :
    List ArchivedBlock :=
  if block ∈ held.map ArchivedBlock.block then held
  else held ++ [⟨block.1, block.2,
    files.nextLocation (BlockLocation.segmentForSlot block.1, block.2)⟩]

theorem map_holdBlock (files : FlatFileStore) (held : List ArchivedBlock) (block : ℕ × Bytes) :
    (holdBlock files held block).map ArchivedBlock.block =
      storeBlock (held.map ArchivedBlock.block) block := by
  unfold holdBlock storeBlock
  split_ifs
  · rfl
  · rw [List.map_append]
    rfl

theorem ArchiveStore.Holds.store (holds : Holds ⟨index, files⟩ held) {block : ℕ × Bytes}
    (fits : FitsSegments block) (inOrder : InChainOrder (held.map ArchivedBlock.block) block) :
    Holds ⟨if block ∈ held.map ArchivedBlock.block then index
        else push index block.1
          (files.nextLocation (BlockLocation.segmentForSlot block.1, block.2)),
      files.append (BlockLocation.segmentForSlot block.1, block.2)⟩
      (holdBlock files held block) := by
  have kept : ∀ old ∈ held, Stored
      (files.append (BlockLocation.segmentForSlot block.1, block.2)) old.location old.body :=
    fun old member => (holds.stored old member).append _
  unfold holdBlock
  split_ifs with isHeld
  · exact ⟨holds.index, holds.sorted, holds.fits, holds.placed, kept, holds.ordered⟩
  · refine ⟨?_, ?_, ?_, ?_, ?_, ?_⟩
    · rw [grouped_concat, ← holds.index]
    · refine List.pairwise_append.mpr ⟨holds.sorted, List.pairwise_singleton _ _, ?_⟩
      intro old member new isNew
      rw [List.mem_singleton.mp isNew]
      rcases inOrder with isOld | after
      · exact absurd isOld isHeld
      · exact after old.block (List.mem_map_of_mem member)
    · intro old member
      rcases List.mem_append.mp member with isOld | isNew
      · exact holds.fits old isOld
      · rw [List.mem_singleton.mp isNew]
        exact fits
    · intro old member
      rcases List.mem_append.mp member with isOld | isNew
      · exact holds.placed old isOld
      · rw [List.mem_singleton.mp isNew]
        rfl
    · intro old member
      rcases List.mem_append.mp member with isOld | isNew
      · exact kept old isOld
      · rw [List.mem_singleton.mp isNew]
        exact stored_nextLocation files fits.short
    · refine List.pairwise_append.mpr ⟨holds.ordered, List.pairwise_singleton _ _, ?_⟩
      intro old member new isNew sameSegment
      rw [List.mem_singleton.mp isNew] at sameSegment ⊢
      have ends := (holds.stored old member).fits
      rw [sameSegment] at ends
      exact ends

/-- The blocks of a batch, one after the other. -/
def CommitsInOrder : List (ℕ × Bytes) → List (ℕ × Bytes) → Prop
  | _, [] => True
  | blocks, block :: rest =>
      InChainOrder blocks block ∧ CommitsInOrder (storeBlock blocks block) rest

/-- The loop of a batch, once all its bodies are in the files. -/
theorem ArchiveStore.Holds.indexBlocks (holds : Holds ⟨index, files⟩ held)
    {blocks : List (ℕ × Bytes)} (fits : ∀ block ∈ blocks, FitsSegments block)
    (inOrder : CommitsInOrder (held.map ArchivedBlock.block) blocks) :
    ∃ indexed heldAfter,
      RedbWriter.indexBlocks (files.appendBatch (segmentItems blocks)).2 index
          (blocks.zip (files.appendBatch (segmentItems blocks)).1) = .ok indexed ∧
        Holds ⟨indexed, (files.appendBatch (segmentItems blocks)).2⟩ heldAfter ∧
        heldAfter.map ArchivedBlock.block =
          blocks.foldl storeBlock (held.map ArchivedBlock.block) := by
  induction blocks generalizing index files held with
  | nil => exact ⟨index, held, rfl, holds, rfl⟩
  | cons block rest ih =>
      rcases inOrder with ⟨chained, later⟩
      have next := holds.store (fits block List.mem_cons_self) chained
      rw [← map_holdBlock files] at later
      have fitsLater : ∀ other ∈ rest, FitsSegments other := by
        intro other member
        exact fits other (List.mem_cons_of_mem _ member)
      rcases ih next fitsLater later with ⟨indexed, heldAfter, looped, holdsAfter, archivedAfter⟩
      refine ⟨indexed, heldAfter, ?_, holdsAfter, ?_⟩
      · have indexedFirst := indexBlock_eq
          (files.appendBatch (segmentItems (block :: rest))).2 holds.index
          (fun kept member => (holds.stored kept member).appendBatch _) block
          (files.nextLocation (BlockLocation.segmentForSlot block.1, block.2))
        change RedbWriter.indexBlocks _ index ((block, files.nextLocation _) ::
          rest.zip _) = _
        rw [RedbWriter.indexBlocks, indexedFirst, ok_bind]
        exact looped
      · rw [archivedAfter, map_holdBlock]
        rfl

end Storing

section Calls

variable {archive : ArchiveStore} {held : List ArchivedBlock}

theorem ArchiveStore.Holds.commit (holds : archive.Holds held) {blocks : List (ℕ × Bytes)}
    (fits : ∀ block ∈ blocks, FitsSegments block)
    (inOrder : CommitsInOrder (held.map ArchivedBlock.block) blocks) :
    ∃ heldAfter, (archive.redbCall (.commit blocks)).Holds heldAfter ∧
      heldAfter.map ArchivedBlock.block =
        blocks.foldl storeBlock (held.map ArchivedBlock.block) := by
  rcases ArchiveStore.Holds.indexBlocks holds fits inOrder with
    ⟨indexed, heldAfter, looped, holdsAfter, archivedAfter⟩
  refine ⟨heldAfter, ?_, archivedAfter⟩
  have committed : archive.redbCall (.commit blocks) =
      ⟨indexed, (archive.files.appendBatch (segmentItems blocks)).2⟩ := by
    rw [redbCall, pending_foldl_apply]
    simp only [RedbWriter.start, RedbWriter.commit, List.nil_append, looped]
  rw [committed]
  exact holdsAfter

/-- A fold that keeps what it has found or takes the next element. -/
def Chooses {α : Type} (step : Option α → α → Option α) : Prop :=
  ∀ found next, step found next = some next ∨
    ∃ kept, found = some kept ∧ step found next = some kept

theorem Chooses.mem_of_foldl {α : Type} {step : Option α → α → Option α} (chooses : Chooses step)
    {elements : List α} {start : Option α} {chosen : α}
    (found : elements.foldl step start = some chosen) :
    start = some chosen ∨ chosen ∈ elements := by
  induction elements generalizing start with
  | nil => exact Or.inl found
  | cons first rest ih =>
      rcases ih found with isHere | isLater
      · rcases chooses start first with taken | ⟨kept, startEq, keptEq⟩
        · rw [taken] at isHere
          rw [← Option.some.inj isHere]
          exact Or.inr List.mem_cons_self
        · rw [keptEq] at isHere
          exact Or.inl (startEq.trans isHere)
      · exact Or.inr (List.mem_cons_of_mem _ isLater)

theorem Chooses.isSome_foldl {α : Type} {step : Option α → α → Option α} (chooses : Chooses step)
    {elements : List α} {start : Option α} (some : start.isSome ∨ elements ≠ []) :
    (elements.foldl step start).isSome := by
  induction elements generalizing start with
  | nil =>
      rcases some with isSome | absurdity
      · exact isSome
      · exact absurd rfl absurdity
  | cons first rest ih =>
      apply ih
      left
      rcases chooses start first with taken | ⟨kept, -, keptEq⟩
      · rw [taken]
        rfl
      · rw [keptEq]
        rfl

/-- Cuts are made at the choice of a fold over the locations. -/
theorem exists_earliest : ∃ step, Chooses step ∧
    ∀ entries, earliest entries = (entries.flatMap Prod.snd).foldl step none := by
  refine ⟨_, ?_, fun entries => rfl⟩
  intro found next
  cases found with
  | none => exact Or.inl rfl
  | some previous =>
      simp only
      split_ifs
      · exact Or.inl rfl
      · exact Or.inr ⟨previous, rfl, rfl⟩

/-- The location a cut is made at is one of those that go. -/
theorem mem_of_earliest {entries : List (ℕ × List BlockLocation)} {location : BlockLocation}
    (found : earliest entries = some location) : ∃ entry ∈ entries, location ∈ entry.2 := by
  rcases exists_earliest with ⟨step, chooses, earliestEq⟩
  rw [earliestEq] at found
  rcases chooses.mem_of_foldl found with isNone | member
  · cases isNone
  · rcases List.mem_flatMap.mp member with ⟨entry, isEntry, isLocation⟩
    exact ⟨entry, isEntry, isLocation⟩

/-- An entry of the table has the locations of blocks of its slot. -/
theorem ArchiveStore.Holds.mem_entry (holds : archive.Holds held)
    {entry : ℕ × List BlockLocation} (member : entry ∈ archive.index.entries)
    {location : BlockLocation} (isLocation : location ∈ entry.2) :
    ∃ kept ∈ held, kept.slot = entry.1 ∧ kept.location = location := by
  have found := OrderedMap.mem_entries_iff.mp (show (entry.1, entry.2) ∈ _ from member)
  rw [holds.index, get?_grouped] at found
  split_ifs at found
  rw [← Option.some.inj found] at isLocation
  exact mem_itemsAt.mp isLocation

theorem filter_append_filter_not (slot : ℕ) {blocks : List ArchivedBlock}
    (sorted : blocks.Pairwise fun earlier later => earlier.slot ≤ later.slot) :
    blocks = (blocks.filter fun block => block.slot ≤ slot) ++
      blocks.filter fun block => ¬ block.slot ≤ slot := by
  induction blocks with
  | nil => rfl
  | cons first rest ih =>
      rcases List.pairwise_cons.mp sorted with ⟨above, restSorted⟩
      by_cases below : first.slot ≤ slot
      · rw [List.filter_cons_of_pos (by simpa using below),
          List.filter_cons_of_neg (by simpa using below), List.cons_append, ← ih restSorted]
      · have noneBelow : (rest.filter fun block => block.slot ≤ slot) = [] := by
          apply List.filter_eq_nil_iff.mpr
          intro block member
          have later := above block member
          simp only [decide_eq_true_eq]
          omega
        have allAbove : (rest.filter fun block => ¬ block.slot ≤ slot) = rest := by
          apply List.filter_eq_self.mpr
          intro block member
          have later := above block member
          simp only [decide_eq_true_eq]
          omega
        rw [List.filter_cons_of_neg (by simpa using below),
          List.filter_cons_of_pos (by simpa using below), noneBelow, allAbove, List.nil_append]

/-- The blocks up to a slot, after a cut at a body past it. -/
theorem ArchiveStore.Holds.cut (holds : archive.Holds held) (slot : ℕ)
    {location : Option BlockLocation}
    (goes : ∀ found ∈ location, ∃ gone ∈ held, slot < gone.slot ∧ gone.location = found) :
    Holds ⟨archive.index.filter fun kept _ => kept ≤ slot, cutAt archive.files location⟩
      (held.filter fun kept => kept.slot ≤ slot) := by
  refine ⟨?_, holds.sorted.filter _, ?_, ?_, ?_, holds.ordered.filter _⟩
  · simp only
    rw [holds.index]
    exact filter_grouped (fun kept => decide (kept ≤ slot)) held
  · intro kept member
    exact holds.fits kept (List.mem_of_mem_filter member)
  · intro kept member
    exact holds.placed kept (List.mem_of_mem_filter member)
  · intro kept member
    rcases List.mem_filter.mp member with ⟨isKept, below⟩
    cases location with
    | none => exact holds.stored kept isKept
    | some found =>
        rcases goes found rfl with ⟨gone, isGone, above, rfl⟩
        apply (holds.stored kept isKept).truncate (holds.fits kept isKept).nonempty
        intro sameSegment
        have ordered := holds.ordered
        rw [filter_append_filter_not slot holds.sorted] at ordered
        apply (List.pairwise_append.mp ordered).2.2 kept member gone _ sameSegment
        refine List.mem_filter.mpr ⟨isGone, ?_⟩
        simpa using above

theorem ArchiveStore.Holds.truncateFront (holds : archive.Holds held) {slot : ℕ}
    (notLast : slot + 1 < 2 ^ 64) :
    (archive.redbCall (.truncateFront slot)).Holds (held.filter fun kept => kept.slot ≤ slot) := by
  apply holds.cut
  intro found isFound
  rcases mem_of_earliest isFound with ⟨entry, isEntry, isLocation⟩
  rcases List.mem_filter.mp isEntry with ⟨inIndex, past⟩
  rcases holds.mem_entry inIndex isLocation with ⟨kept, isKept, slotEq, locationEq⟩
  refine ⟨kept, isKept, ?_, locationEq⟩
  rw [Nat.mod_eq_of_lt notLast, decide_eq_true_eq] at past
  omega

theorem segmentForSlot_eq {slot : ℕ} (bounded : slot < slotsPerSegment * 10 ^ 6) :
    BlockLocation.segmentForSlot slot = slot / slotsPerSegment ∧
      leadingSix (BlockLocation.segmentForSlot slot) = slot / slotsPerSegment := by
  have small : slot / slotsPerSegment < 10 ^ 6 := Nat.div_lt_of_lt_mul bounded
  have unwrapped : BlockLocation.segmentForSlot slot = slot / slotsPerSegment := by
    apply Nat.mod_eq_of_lt
    omega
  refine ⟨unwrapped, ?_⟩
  rw [unwrapped, leadingSix, if_pos small]

theorem ArchiveStore.Holds.prune (holds : archive.Holds held) {slot : ℕ}
    (bounded : slot < slotsPerSegment * 10 ^ 6) :
    Holds ⟨archive.index.filter fun kept _ => slot ≤ kept,
        archive.files.deleteSegmentsBefore (BlockLocation.segmentForSlot slot)⟩
      (held.filter fun kept => slot ≤ kept.slot) := by
  refine ⟨?_, holds.sorted.filter _, ?_, ?_, ?_, holds.ordered.filter _⟩
  · simp only
    rw [holds.index]
    exact filter_grouped (fun kept => decide (slot ≤ kept)) held
  · intro kept member
    exact holds.fits kept (List.mem_of_mem_filter member)
  · intro kept member
    exact holds.placed kept (List.mem_of_mem_filter member)
  · intro kept member
    rcases List.mem_filter.mp member with ⟨isKept, above⟩
    apply (holds.stored kept isKept).deleteSegmentsBefore
    have keptBounded : kept.slot < slotsPerSegment * 10 ^ 6 := (holds.fits kept isKept).slot
    rw [holds.placed kept isKept, (segmentForSlot_eq keptBounded).2, (segmentForSlot_eq bounded).1]
    exact Nat.div_le_div_right (of_decide_eq_true above)

/-- The blocks from the slot on that `prune_history` prunes before. -/
def prunedBlocks (blocks : List (ℕ × Bytes)) (maxSlots : ℕ) (maxPrune : Option ℕ) :
    List (ℕ × Bytes) :=
  match blocks.head?, blocks.getLast? with
  | some first, some last =>
      let excess := last.1 - first.1 - maxSlots
      let pruned := maxPrune.elim excess fun most => min excess most
      blocks.filter fun block => first.1 + pruned ≤ block.1
  | _, _ => blocks

theorem ArchiveStore.Holds.head?_index (holds : archive.Holds held) :
    archive.index.entries.head?.map Prod.fst =
      (held.map ArchivedBlock.block).head?.map Prod.fst := by
  rw [holds.index, head?_grouped _ holds.sorted, List.head?_map, Option.map_map]
  rfl

theorem ArchiveStore.Holds.getLast?_index (holds : archive.Holds held) :
    archive.index.entries.getLast?.map (fun entry => (entry.1, entry.2.head?)) =
      held.getLast?.map fun kept => (kept.slot, some kept.location) := by
  rw [holds.index]
  exact getLast?_grouped _ holds.sorted

theorem ArchiveStore.Holds.getLast?_slot (holds : archive.Holds held) :
    archive.index.entries.getLast?.map Prod.fst =
      (held.map ArchivedBlock.block).getLast?.map Prod.fst := by
  have lasts := congrArg (Option.map Prod.fst) holds.getLast?_index
  rw [Option.map_map, Option.map_map] at lasts
  rw [List.getLast?_map, Option.map_map]
  exact lasts

theorem ArchiveStore.Holds.head_le (holds : archive.Holds held) {first : ℕ × Bytes}
    (firstEq : (held.map ArchivedBlock.block).head? = some first) {kept : ArchivedBlock}
    (member : kept ∈ held) : first.1 ≤ kept.slot := by
  cases held with
  | nil => cases member
  | cons head rest =>
      rcases Option.some.inj firstEq with rfl
      rcases List.mem_cons.mp member with rfl | isLater
      · exact Nat.le_refl _
      · exact (List.pairwise_cons.mp holds.sorted).1 kept isLater

theorem ArchiveStore.Holds.pruneHistory (holds : archive.Holds held) (maxSlots : ℕ)
    (maxPrune : Option ℕ) :
    ∃ heldAfter, (archive.redbCall (.pruneHistory maxSlots maxPrune)).Holds heldAfter ∧
      heldAfter.map ArchivedBlock.block =
        prunedBlocks (held.map ArchivedBlock.block) maxSlots maxPrune := by
  have heads := holds.head?_index
  have lasts := holds.getLast?_slot
  simp only [redbCall, ArchiveStore.pruneHistory, pruneBefore, prunedBlocks]
  cases firstEq : (held.map ArchivedBlock.block).head? with
  | none =>
      rw [firstEq, Option.map_none, Option.map_eq_none_iff] at heads
      rw [heads]
      exact ⟨held, holds, rfl⟩
  | some first =>
      cases lastEq : (held.map ArchivedBlock.block).getLast? with
      | none =>
          rw [List.getLast?_eq_none_iff.mp lastEq] at firstEq
          cases firstEq
      | some last =>
          rw [firstEq, Option.map_some] at heads
          rw [lastEq, Option.map_some] at lasts
          rcases Option.map_eq_some_iff.mp heads with ⟨firstEntry, firstEntryEq, firstSlot⟩
          rcases Option.map_eq_some_iff.mp lasts with ⟨lastEntry, lastEntryEq, lastSlot⟩
          rcases List.mem_map.mp (List.mem_of_getLast? lastEq) with ⟨lastHeld, isLast, lastIs⟩
          have bounded := (holds.fits lastHeld isLast).slot
          rw [lastIs] at bounded
          have firstBelow := holds.head_le firstEq isLast
          rw [show lastHeld.slot = last.1 from congrArg Prod.fst lastIs] at firstBelow
          have pruneAt : ∀ slot, slot ≤ last.1 →
              ∃ heldAfter, Holds ⟨archive.index.filter fun kept _ => slot ≤ kept,
                  archive.files.deleteSegmentsBefore (BlockLocation.segmentForSlot slot)⟩
                heldAfter ∧ heldAfter.map ArchivedBlock.block =
                  (held.map ArchivedBlock.block).filter fun block => slot ≤ block.1 := by
            intro slot below
            refine ⟨_, holds.prune (by omega), ?_⟩
            rw [List.filter_map]
            rfl
          have keepAll : (held.map ArchivedBlock.block).filter (fun block => first.1 ≤ block.1) =
              held.map ArchivedBlock.block := by
            apply List.filter_eq_self.mpr
            intro block member
            rcases List.mem_map.mp member with ⟨kept, isKept, rfl⟩
            exact decide_eq_true (holds.head_le firstEq isKept)
          rw [firstEntryEq, lastEntryEq]
          simp only [firstSlot, lastSlot]
          by_cases noExcess : last.1 - first.1 - maxSlots = 0
          · refine ⟨held, ?_, ?_⟩
            · rw [if_pos noExcess]
              exact holds
            · cases maxPrune with
              | none => simp only [Option.elim, noExcess, Nat.add_zero, keepAll]
              | some most => simp only [Option.elim, noExcess, Nat.zero_min, Nat.add_zero, keepAll]
          · rw [if_neg noExcess]
            cases maxPrune with
            | none => exact pruneAt (first.1 + (last.1 - first.1 - maxSlots)) (by omega)
            | some most =>
                exact pruneAt (first.1 + min (last.1 - first.1 - maxSlots) most) (by omega)

end Calls

section Answers

variable {archive : ArchiveStore} {held : List ArchivedBlock}

/-- What an archive answers when it holds some blocks: every location reads back its
block, the slots and ranges give the blocks in the order of the chain, and the newest
block of a slot is the one it resolves to. -/
structure ArchiveStore.Answers (archive : ArchiveStore) (blocks : List (ℕ × Bytes)) : Prop where
  readsBack : ∀ slot locations, archive.index.get? slot = some locations →
    locations.map archive.files.read =
      ((blocks.filter fun block => block.1 = slot).map fun block => some block.2).reverse
  bySlot : ∀ slot, archive.getBlockBySlot slot =
    .ok ((blocks.filter fun block => block.1 = slot).getLast?.map Prod.snd)
  allBySlot : ∀ slot, archive.getBlocksBySlot slot =
    .ok ((blocks.filter fun block => block.1 = slot).map Prod.snd)
  range : ∀ start stop, archive.getRange start stop = blocks.filter fun block =>
    (∀ slot ∈ start, slot ≤ block.1) ∧ ∀ slot ∈ stop, block.1 < slot
  tip : archive.getTip = .ok blocks.getLast?

theorem ArchiveStore.Holds.readOrFail (holds : archive.Holds held) {kept : ArchivedBlock}
    (member : kept ∈ held) : readOrFail archive.files kept.location = .ok kept.body := by
  rw [ArchiveStore.readOrFail, (holds.stored kept member).read]

theorem ArchiveStore.Holds.getD_index (holds : archive.Holds held) (slot : ℕ) :
    (archive.index.get? slot).getD [] =
      (((held.filter fun kept => kept.slot = slot).map ArchivedBlock.location)).reverse := by
  rw [holds.index, getD_grouped]
  rfl

theorem filter_slot_map (held : List ArchivedBlock) (slot : ℕ) :
    ((held.map ArchivedBlock.block).filter fun block => block.1 = slot) =
      (held.filter fun kept => kept.slot = slot).map ArchivedBlock.block := by
  rw [List.filter_map]
  rfl

theorem mapM_readOrFail {files : FlatFileStore} {kept : List ArchivedBlock}
    (read : ∀ block ∈ kept, ArchiveStore.readOrFail files block.location = .ok block.body) :
    (kept.map ArchivedBlock.location).mapM (ArchiveStore.readOrFail files) =
      .ok (kept.map ArchivedBlock.body) := by
  induction kept with
  | nil => rfl
  | cons first rest ih =>
      have later := ih fun block member => read block (List.mem_cons_of_mem _ member)
      rw [List.map_cons, List.mapM_cons, read first List.mem_cons_self, later]
      rfl

theorem ArchiveStore.Holds.answers (holds : archive.Holds held) :
    archive.Answers (held.map ArchivedBlock.block) := by
  refine ⟨?_, ?_, ?_, ?_, ?_⟩
  · intro slot locations found
    have locationsEq := holds.getD_index slot
    rw [found, Option.getD_some] at locationsEq
    rw [locationsEq, filter_slot_map, List.map_reverse, List.map_map, List.map_map]
    congr 1
    apply List.map_congr_left
    intro kept member
    exact (holds.stored kept (List.mem_of_mem_filter member)).read
  · intro slot
    rw [getBlockBySlot, holds.getD_index, List.head?_reverse, filter_slot_map]
    cases lastEq : (held.filter fun kept => kept.slot = slot).getLast? with
    | none => simp [lastEq]
    | some last =>
        have isHeld := List.mem_of_mem_filter (List.mem_of_getLast? lastEq)
        simp only [List.getLast?_map, lastEq, Option.map_some, holds.readOrFail isHeld]
        rfl
  · intro slot
    rw [getBlocksBySlot, holds.getD_index, List.reverse_reverse, filter_slot_map,
      mapM_readOrFail]
    · rw [List.map_map]
      rfl
    · intro kept member
      exact holds.readOrFail (List.mem_of_mem_filter member)
  · intro start stop
    have filtered : (archive.index.entries.filter fun entry =>
        (∀ bound ∈ start, bound ≤ entry.1) ∧ ∀ bound ∈ stop, entry.1 < bound) =
          (grouped ArchivedBlock.slot ArchivedBlock.location (held.filter fun kept =>
            (∀ bound ∈ start, bound ≤ kept.slot) ∧ ∀ bound ∈ stop, kept.slot < bound)).entries := by
      rw [← filter_grouped (fun slot => decide ((∀ bound ∈ start, bound ≤ slot) ∧
        ∀ bound ∈ stop, slot < bound)) held, ← holds.index]
      rfl
    rw [getRange, filtered, flatten_grouped _ (holds.sorted.filter _), List.filterMap_map,
      List.filter_map]
    have readAll : ∀ kept ∈ held.filter (fun kept =>
        (∀ bound ∈ start, bound ≤ kept.slot) ∧ ∀ bound ∈ stop, kept.slot < bound),
        ((fun entry => (archive.files.read entry.2).map fun body => (entry.1, body)) ∘
          fun kept : ArchivedBlock => (kept.slot, kept.location)) kept =
            (some ∘ ArchivedBlock.block) kept := by
      intro kept member
      simp only [Function.comp, (holds.stored kept (List.mem_of_mem_filter member)).read]
      rfl
    rw [List.filterMap_congr readAll, ← List.filterMap_eq_map]
    rfl
  · have lasts := holds.getLast?_index
    rw [getTip, List.getLast?_map]
    cases lastEq : held.getLast? with
    | none =>
        rw [lastEq, Option.map_none, Option.map_eq_none_iff] at lasts
        rw [lasts]
        rfl
    | some last =>
        rw [lastEq, Option.map_some] at lasts
        rcases Option.map_eq_some_iff.mp lasts with ⟨⟨slot, locations⟩, entryEq, same⟩
        rcases Prod.mk.inj same with ⟨slotEq, headEq⟩
        rw [entryEq]
        simp only at slotEq headEq ⊢
        rw [headEq]
        simp only [holds.readOrFail (List.mem_of_getLast? lastEq), slotEq]
        rfl

end Answers

section Runs

/-- What a call leaves of the blocks. -/
def ArchiveCall.blocks (held : List (ℕ × Bytes)) : ArchiveCall → List (ℕ × Bytes)
  | commit added => added.foldl storeBlock held
  | truncateFront slot => held.filter fun block => block.1 ≤ slot
  | pruneHistory maxSlots maxPrune => prunedBlocks held maxSlots maxPrune

def archivedAfter (calls : List ArchiveCall) : List (ℕ × Bytes) :=
  calls.foldl ArchiveCall.blocks []

/-- Every batch of a run applies its blocks in the order of the chain. -/
def CallsInOrder : List (ℕ × Bytes) → List ArchiveCall → Prop
  | _, [] => True
  | held, call :: rest =>
      (∀ added, call = .commit added → CommitsInOrder held added) ∧
        CallsInOrder (call.blocks held) rest

/-- Blocks the segments are made for, and a cut that has a slot after it. -/
def ArchiveCall.Fits : ArchiveCall → Prop
  | commit added => ∀ block ∈ added, FitsSegments block
  | truncateFront slot => slot + 1 < 2 ^ 64
  | pruneHistory _ _ => True

instance (call : ArchiveCall) : Decidable call.Fits :=
  match call with
  | .commit added => inferInstanceAs (Decidable (∀ block ∈ added, FitsSegments block))
  | .truncateFront slot => inferInstanceAs (Decidable (slot + 1 < 2 ^ 64))
  | .pruneHistory _ _ => inferInstanceAs (Decidable True)

variable {archive : ArchiveStore} {held : List ArchivedBlock}

theorem ArchiveStore.Holds.call (holds : archive.Holds held) {call : ArchiveCall}
    (fits : call.Fits)
    (inOrder : ∀ added, call = .commit added →
      CommitsInOrder (held.map ArchivedBlock.block) added) :
    archive.fjallCall call = archive.redbCall call ∧
      ∃ heldAfter, (archive.redbCall call).Holds heldAfter ∧
        heldAfter.map ArchivedBlock.block = call.blocks (held.map ArchivedBlock.block) := by
  cases call with
  | commit added =>
      refine ⟨?_, holds.commit fits (inOrder added rfl)⟩
      rw [fjallCall, fjallCommit_eq_redbCommit]
      rfl
  | truncateFront slot =>
      refine ⟨?_, _, holds.truncateFront fits, ?_⟩
      · have notLast : slot + 1 < 2 ^ 64 := fits
        rw [fjallCall, redbCall, fjallTruncateFront, if_pos notLast, redbTruncateFront]
        simp only [Nat.mod_eq_of_lt notLast, Nat.not_le, Nat.lt_succ_iff]
      · rw [ArchiveCall.blocks, List.filter_map]
        rfl
  | pruneHistory maxSlots maxPrune => exact ⟨rfl, holds.pruneHistory maxSlots maxPrune⟩

theorem ArchiveStore.Holds.run (holds : archive.Holds held) {calls : List ArchiveCall}
    (fits : ∀ call ∈ calls, call.Fits)
    (inOrder : CallsInOrder (held.map ArchivedBlock.block) calls) :
    archive.fjallRun calls = archive.redbRun calls ∧
      ∃ heldAfter, (archive.redbRun calls).Holds heldAfter ∧
        heldAfter.map ArchivedBlock.block =
          calls.foldl ArchiveCall.blocks (held.map ArchivedBlock.block) := by
  induction calls generalizing archive held with
  | nil => exact ⟨rfl, held, holds, rfl⟩
  | cons call rest ih =>
      rcases holds.call (fits call List.mem_cons_self) inOrder.1 with
        ⟨same, heldAfter, holdsAfter, blocksEq⟩
      have fitsLater : ∀ later ∈ rest, later.Fits := by
        intro later member
        exact fits later (List.mem_cons_of_mem _ member)
      have later := inOrder.2
      rw [← blocksEq] at later
      rcases ih holdsAfter fitsLater later with ⟨sameLater, heldLast, holdsLast, lastEq⟩
      refine ⟨?_, heldLast, holdsLast, ?_⟩
      · rw [fjallRun, redbRun, List.foldl_cons, List.foldl_cons, same]
        exact sameLater
      · rw [lastEq, blocksEq, List.foldl_cons]

theorem ArchiveStore.holds_empty : ArchiveStore.empty.Holds [] :=
  ⟨rfl, .nil, by simp, by simp, by simp, .nil⟩

theorem nodup_storeBlock {blocks : List (ℕ × Bytes)} (nodup : blocks.Nodup) (block : ℕ × Bytes) :
    (storeBlock blocks block).Nodup := by
  unfold storeBlock
  split_ifs with isHeld
  · exact nodup
  · refine List.nodup_append.mpr ⟨nodup, List.nodup_singleton block, ?_⟩
    intro earlier member later isLast
    rw [List.mem_singleton.mp isLast]
    rintro rfl
    exact isHeld member

theorem nodup_callBlocks {blocks : List (ℕ × Bytes)} (nodup : blocks.Nodup) (call : ArchiveCall) :
    (call.blocks blocks).Nodup := by
  cases call with
  | commit added =>
      change (added.foldl storeBlock blocks).Nodup
      induction added generalizing blocks with
      | nil => exact nodup
      | cons block rest ih => exact ih (nodup_storeBlock nodup block)
  | truncateFront slot => exact nodup.filter _
  | pruneHistory maxSlots maxPrune =>
      simp only [ArchiveCall.blocks, prunedBlocks]
      split
      · exact nodup.filter _
      · exact nodup

theorem nodup_blocksAfter (calls : List ArchiveCall) : (archivedAfter calls).Nodup := by
  have general : ∀ blocks : List (ℕ × Bytes), blocks.Nodup →
      (calls.foldl ArchiveCall.blocks blocks).Nodup := by
    induction calls with
    | nil => exact fun blocks nodup => nodup
    | cons call rest ih => exact fun blocks nodup => ih _ (nodup_callBlocks nodup call)
  exact general [] List.nodup_nil

/-- Both archives hold the blocks of every run they are made for: whatever is indexed
reads back, each block once and in the order of the chain. -/
theorem archive_content {calls : List ArchiveCall} (inOrder : CallsInOrder [] calls)
    (fits : ∀ call ∈ calls, call.Fits) :
    (ArchiveStore.empty.redbRun calls).Answers (archivedAfter calls) ∧
      (ArchiveStore.empty.fjallRun calls).Answers (archivedAfter calls) ∧
      (archivedAfter calls).Nodup := by
  rcases ArchiveStore.holds_empty.run fits inOrder with ⟨same, held, holds, blocksEq⟩
  have answers := holds.answers
  rw [blocksEq] at answers
  refine ⟨answers, ?_, nodup_blocksAfter calls⟩
  rw [same]
  exact answers

end Runs

namespace SharedSegment

/-- A boundary block with the first block of its epoch, the next block, and both again
by a restore that starts over. -/
def calls : List ArchiveCall :=
  [.commit [(5, [1]), (5, [2, 2])], .commit [(5, [1]), (5, [2, 2]), (8, [3])], .truncateFront 5,
    .commit [(9, [4])], .pruneHistory 2 none]

theorem archive_content_restored :
    archivedAfter calls = [(9, [4])] ∧
      (ArchiveStore.empty.redbRun calls).Answers (archivedAfter calls) := by
  refine ⟨by decide +kernel, (archive_content ?_ ?_).1⟩
  · simp [calls, CallsInOrder, CommitsInOrder, InChainOrder, storeBlock, ArchiveCall.blocks]
  · decide +kernel

/-- A cut after the last slot there is. -/
def cutAfterAll : List ArchiveCall := [.commit [(1, [7])], .truncateFront (2 ^ 64 - 1)]

/-- The redb archive looks for the slot after the last one, finds slot zero, and cuts the
first body, which is still indexed. The other archive keeps it. -/
theorem redb_cuts_indexed_body :
    CallsInOrder [] cutAfterAll ∧ archivedAfter cutAfterAll = [(1, [7])] ∧
      (ArchiveStore.empty.redbRun cutAfterAll).index.get? 1 = some [⟨0, 0, 1⟩] ∧
      (ArchiveStore.empty.redbRun cutAfterAll).files.read ⟨0, 0, 1⟩ = none ∧
      (ArchiveStore.empty.redbRun cutAfterAll).getRange none none = [] ∧
      (ArchiveStore.empty.fjallRun cutAfterAll).getRange none none = [(1, [7])] := by
  refine ⟨?_, ?_, ?_, ?_, ?_, ?_⟩
  · simp [cutAfterAll, CallsInOrder, CommitsInOrder, InChainOrder]
  · decide +kernel
  · decide +kernel
  · decide +kernel
  · decide +kernel
  · decide +kernel

end SharedSegment

end Dolos
