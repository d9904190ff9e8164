import Dolos.Core.ArchiveLaw

/-!
# A crash between the files and the table

A batch appends to the files before its table is committed, and so does a cut truncate
them. When the process stops in between, the table of before is opened again over the
files of after: bodies it knows nothing of do no harm, bodies that are gone do.
-/

namespace Dolos

open Grouping FlatFileStore ArchiveStore

/-- What writes to the files before it commits the table. A batch that only applies
undoes nothing. -/
inductive ArchiveOperation where
  | write (undone : List ℕ) (blocks : List (ℕ × Bytes))
  | truncateFront (slot : ℕ)

namespace ArchiveOperation

/-- The files when the process stops before the table is committed: after some undos, or
after all of them and some appends. -/
def RedbCrash (archive : ArchiveStore) : ArchiveOperation → FlatFileStore → Prop
  | write undone blocks, files =>
      (∃ count, files = ((undone.take count).foldl RedbWriter.undo (.start archive)).files) ∨
        ∃ count, files = ((undone.foldl RedbWriter.undo (.start archive)).files.appendBatch
          ((segmentItems blocks).take count)).2
  | truncateFront slot, files =>
      files = archive.files ∨ files = (redbTruncateFront archive slot).files

def FjallCrash (archive : ArchiveStore) : ArchiveOperation → FlatFileStore → Prop
  | write undone blocks, files =>
      (∃ count, files = ((undone.take count).foldl FjallWriter.undo (.start archive)).files) ∨
        ∃ count, files = ((undone.foldl FjallWriter.undo (.start archive)).files.appendBatch
          ((segmentItems blocks).take count)).2
  | truncateFront slot, files =>
      files = archive.files ∨ files = (fjallTruncateFront archive slot).files

/-- Nothing that is held goes: no block at the slots that are undone, none after the
slot of a cut. -/
def CutsNothing (blocks : List (ℕ × Bytes)) : ArchiveOperation → Prop
  | write undone _ => ∀ slot ∈ undone, ∀ block ∈ blocks, block.1 ≠ slot
  | truncateFront slot => ∀ block ∈ blocks, block.1 ≤ slot

/-- A cut that has a slot after it. -/
def Fits : ArchiveOperation → Prop
  | write _ _ => True
  | truncateFront slot => slot + 1 < 2 ^ 64

end ArchiveOperation

/-- Over the files of a crash, and after any batches that follow, every location in the
table reads what it read before. -/
def ArchiveStore.KeepsReading (archive : ArchiveStore) (crash : FlatFileStore → Prop)
    (call : ArchiveStore → ArchiveCall → ArchiveStore) : Prop :=
  ∀ files, crash files → ∀ further : List (List (ℕ × Bytes)), ∀ slot locations,
    archive.index.get? slot = some locations → ∀ location ∈ locations,
      (further.foldl (fun reopened blocks => call reopened (.commit blocks))
        ⟨archive.index, files⟩).files.read location = archive.files.read location

section Crash

variable {archive : ArchiveStore} {held : List ArchivedBlock}

theorem files_commit (archive : ArchiveStore) (blocks : List (ℕ × Bytes)) :
    (archive.redbCall (.commit blocks)).files =
      (archive.files.appendBatch (segmentItems blocks)).2 := by
  rw [redbCall, pending_foldl_apply]
  simp only [RedbWriter.start, RedbWriter.commit, List.nil_append]
  split
  · rfl
  · rfl

/-- A body that is there after a crash stays, whatever is appended. -/
theorem stored_after_commits {location : BlockLocation} {body : Bytes}
    (stored : Stored archive.files location body) (further : List (List (ℕ × Bytes))) :
    Stored (further.foldl (fun reopened blocks => reopened.redbCall (.commit blocks))
      archive).files location body := by
  induction further generalizing archive with
  | nil => exact stored
  | cons blocks rest ih =>
      apply ih
      rw [files_commit]
      exact stored.appendBatch _

theorem foldl_fjallCommit (archive : ArchiveStore) (further : List (List (ℕ × Bytes))) :
    further.foldl (fun reopened blocks => reopened.fjallCall (.commit blocks)) archive =
      further.foldl (fun reopened blocks => reopened.redbCall (.commit blocks)) archive := by
  congr 1
  funext reopened blocks
  rw [fjallCall, fjallCommit_eq_redbCommit]
  rfl

theorem ArchiveStore.Holds.mem_index (holds : archive.Holds held) {slot : ℕ}
    {locations : List BlockLocation} (found : archive.index.get? slot = some locations)
    {location : BlockLocation} (member : location ∈ locations) :
    ∃ kept ∈ held, kept.location = location := by
  rcases holds.mem_entry (OrderedMap.mem_entries_iff.mpr found) member with
    ⟨kept, isKept, -, locationEq⟩
  exact ⟨kept, isKept, locationEq⟩

theorem ArchiveStore.Holds.exists_index (holds : archive.Holds held) {kept : ArchivedBlock}
    (member : kept ∈ held) :
    ∃ locations, archive.index.get? kept.slot = some locations ∧ kept.location ∈ locations := by
  have isItem : kept.location ∈
      itemsAt ArchivedBlock.slot ArchivedBlock.location held kept.slot :=
    mem_itemsAt.mpr ⟨kept, member, rfl, rfl⟩
  refine ⟨_, ?_, isItem⟩
  rw [holds.index, get?_grouped, if_neg (List.ne_nil_of_mem isItem)]

/-- Files that hold every body keep the table readable. -/
theorem ArchiveStore.Holds.keepsReading (holds : archive.Holds held)
    {crash : FlatFileStore → Prop}
    (safe : ∀ files, crash files → ∀ kept ∈ held, Stored files kept.location kept.body) :
    archive.KeepsReading crash redbCall := by
  intro files crashed further slot locations found location member
  rcases holds.mem_index found member with ⟨kept, isKept, rfl⟩
  have stays := @stored_after_commits ⟨archive.index, files⟩ _ _
    (safe files crashed kept isKept) further
  rw [stays.read, (holds.stored kept isKept).read]

/-- Files cut at a body that is held do not. -/
theorem ArchiveStore.Holds.not_keepsReading (holds : archive.Holds held)
    {crash : FlatFileStore → Prop} {gone : ArchivedBlock} (isGone : gone ∈ held)
    (crashed : crash (archive.files.truncate gone.location.segmentId gone.location.offset)) :
    ¬ archive.KeepsReading crash redbCall := by
  intro keeps
  rcases holds.exists_index isGone with ⟨locations, found, member⟩
  have reads := keeps _ crashed [] gone.slot locations found gone.location member
  have stored := holds.stored gone isGone
  rw [stored.read] at reads
  have cut := stored.read_truncate (holds.fits gone isGone).nonempty (Nat.le_refl _)
  change (archive.files.truncate gone.location.segmentId gone.location.offset).read
    gone.location = some gone.body at reads
  rw [cut] at reads
  cases reads

theorem earliest_isSome {entries : List (ℕ × List BlockLocation)} {entry : ℕ × List BlockLocation}
    (isEntry : entry ∈ entries) (nonempty : entry.2 ≠ []) : (earliest entries).isSome := by
  rcases exists_earliest with ⟨step, chooses, earliestEq⟩
  rw [earliestEq]
  apply chooses.isSome_foldl
  right
  intro none
  rcases List.exists_mem_of_ne_nil _ nonempty with ⟨location, isLocation⟩
  have member : location ∈ entries.flatMap Prod.snd :=
    List.mem_flatMap.mpr ⟨entry, isEntry, isLocation⟩
  rw [none] at member
  cases member

theorem undo_of_absent {writer : RedbWriter} {slot : ℕ}
    (absent : (writer.index.get? slot).getD [] = []) : writer.undo slot = writer := by
  unfold RedbWriter.undo
  rw [absent]

theorem foldl_undo_of_absent {writer : RedbWriter} {undone : List ℕ}
    (absent : ∀ slot ∈ undone, (writer.index.get? slot).getD [] = []) :
    undone.foldl RedbWriter.undo writer = writer := by
  induction undone with
  | nil => rfl
  | cons slot rest ih =>
      rw [List.foldl_cons, undo_of_absent (absent slot List.mem_cons_self)]
      exact ih fun later member => absent later (List.mem_cons_of_mem _ member)

theorem ArchiveStore.Holds.absent_iff (holds : archive.Holds held) (slot : ℕ) :
    (archive.index.get? slot).getD [] = [] ↔
      ∀ block ∈ held.map ArchivedBlock.block, block.1 ≠ slot := by
  rw [holds.getD_index, List.reverse_eq_nil_iff, List.map_eq_nil_iff, List.filter_eq_nil_iff]
  simp only [decide_eq_true_eq, List.forall_mem_map]
  rfl

/-- The first undone slot that holds a block truncates the file of its newest one. -/
theorem ArchiveStore.Holds.undo_cuts (holds : archive.Holds held) {undone : List ℕ}
    (cuts : ∃ slot ∈ undone, (archive.index.get? slot).getD [] ≠ []) :
    ∃ count, ∃ gone ∈ held,
      ((undone.take count).foldl RedbWriter.undo (.start archive)).files =
        archive.files.truncate gone.location.segmentId gone.location.offset := by
  induction undone with
  | nil =>
      rcases cuts with ⟨slot, member, -⟩
      cases member
  | cons slot rest ih =>
      cases here : (archive.index.get? slot).getD [] with
      | nil =>
          have later : ∃ slot ∈ rest, (archive.index.get? slot).getD [] ≠ [] := by
            rcases cuts with ⟨other, member, isHeld⟩
            rcases List.mem_cons.mp member with rfl | isLater
            · exact absurd here isHeld
            · exact ⟨other, isLater, isHeld⟩
          rcases ih later with ⟨count, gone, isGone, filesEq⟩
          refine ⟨count + 1, gone, isGone, ?_⟩
          have idle : (RedbWriter.start archive).undo slot = .start archive := undo_of_absent here
          rw [List.take_succ_cons, List.foldl_cons, idle]
          exact filesEq
      | cons removed others =>
          have isLocation : removed ∈ (archive.index.get? slot).getD [] := by
            rw [here]
            exact List.mem_cons_self
          rw [holds.getD_index, List.mem_reverse] at isLocation
          rcases List.mem_map.mp isLocation with ⟨gone, isGone, rfl⟩
          refine ⟨1, gone, List.mem_of_mem_filter isGone, ?_⟩
          change ((RedbWriter.start archive).undo slot).files = _
          rw [RedbWriter.undo, RedbWriter.start, here]

theorem ArchiveStore.Holds.crash_safe_iff (holds : archive.Holds held)
    (operation : ArchiveOperation) (fits : operation.Fits) :
    archive.KeepsReading (operation.RedbCrash archive) redbCall ↔
      operation.CutsNothing (held.map ArchivedBlock.block) := by
  cases operation with
  | write undone blocks =>
      constructor
      · intro keeps slot isUndone
        rw [← holds.absent_iff]
        by_contra isHeld
        rcases holds.undo_cuts ⟨slot, isUndone, isHeld⟩ with ⟨count, gone, isGone, filesEq⟩
        refine holds.not_keepsReading isGone ?_ keeps
        exact Or.inl ⟨count, filesEq.symm⟩
      · intro nothing
        have idle : ∀ some ⊆ undone,
            some.foldl RedbWriter.undo (.start archive) = .start archive := by
          intro some subset
          apply foldl_undo_of_absent
          intro slot member
          exact (holds.absent_iff slot).mpr (nothing slot (subset member))
        apply holds.keepsReading
        rintro files (⟨count, rfl⟩ | ⟨count, rfl⟩) kept isKept
        · rw [idle _ (List.take_subset _ _)]
          exact holds.stored kept isKept
        · rw [idle _ (List.Subset.refl _)]
          exact (holds.stored kept isKept).appendBatch _
  | truncateFront slot =>
      have notLast : slot + 1 < 2 ^ 64 := fits
      constructor
      · intro keeps block member
        rcases List.mem_map.mp member with ⟨kept, isKept, rfl⟩
        by_contra after
        have past : slot + 1 ≤ kept.slot := Nat.lt_of_not_ge after
        rcases holds.exists_index isKept with ⟨locations, found, isLocation⟩
        have isEntry : (kept.slot, locations) ∈ archive.index.entries.filter
            (fun entry => slot + 1 ≤ entry.1) :=
          List.mem_filter.mpr ⟨OrderedMap.mem_entries_iff.mpr found, decide_eq_true past⟩
        have someCut := earliest_isSome isEntry (List.ne_nil_of_mem isLocation)
        rcases Option.isSome_iff_exists.mp someCut with ⟨location, cutEq⟩
        rcases mem_of_earliest cutEq with ⟨entry, inEntries, inLocations⟩
        rcases holds.mem_entry (List.mem_of_mem_filter inEntries) inLocations with
          ⟨gone, isGone, -, rfl⟩
        refine holds.not_keepsReading isGone (Or.inr ?_) keeps
        simp only [redbTruncateFront, Nat.mod_eq_of_lt notLast, cutEq, cutAt]
      · intro nothing
        apply holds.keepsReading
        rintro files (rfl | rfl) kept isKept
        · exact holds.stored kept isKept
        · have cut := holds.truncateFront notLast
          apply cut.stored kept
          refine List.mem_filter.mpr ⟨isKept, ?_⟩
          exact decide_eq_true (nothing kept.block (List.mem_map_of_mem isKept))

theorem fjallCrash_iff (archive : ArchiveStore) (operation : ArchiveOperation)
    (fits : operation.Fits) (files : FlatFileStore) :
    operation.FjallCrash archive files ↔ operation.RedbCrash archive files := by
  have undoneAlike : ∀ undone : List ℕ,
      (undone.foldl FjallWriter.undo (.start archive)).files =
        (undone.foldl RedbWriter.undo (.start archive)).files := by
    have general : ∀ (undone : List ℕ) (redb : RedbWriter) (fjall : FjallWriter),
        SameWrites redb fjall →
          SameWrites (undone.foldl RedbWriter.undo redb) (undone.foldl FjallWriter.undo fjall) := by
      intro undone
      induction undone with
      | nil => exact fun _ _ same => same
      | cons slot rest ih => exact fun _ _ same => ih _ _ (same.undo slot)
    exact fun undone => (general undone _ _ (.start archive)).files
  cases operation with
  | write undone blocks =>
      simp only [ArchiveOperation.FjallCrash, ArchiveOperation.RedbCrash, undoneAlike]
  | truncateFront slot =>
      have notLast : slot + 1 < 2 ^ 64 := fits
      simp only [ArchiveOperation.FjallCrash, ArchiveOperation.RedbCrash]
      rw [fjallTruncateFront, if_pos notLast, redbTruncateFront]
      simp only [Nat.mod_eq_of_lt notLast]

/-- From any state of either archive, a crash in the middle of an operation leaves the
table readable, for good, exactly when the operation takes no block away. -/
theorem crash_keeps_reading_iff {calls : List ArchiveCall} (inOrder : CallsInOrder [] calls)
    (fits : ∀ call ∈ calls, call.Fits) (operation : ArchiveOperation)
    (cutFits : operation.Fits) :
    ((ArchiveStore.empty.redbRun calls).KeepsReading
        (operation.RedbCrash (ArchiveStore.empty.redbRun calls)) redbCall ↔
      operation.CutsNothing (archivedAfter calls)) ∧
    ((ArchiveStore.empty.fjallRun calls).KeepsReading
        (operation.FjallCrash (ArchiveStore.empty.fjallRun calls)) fjallCall ↔
      operation.CutsNothing (archivedAfter calls)) := by
  rcases ArchiveStore.holds_empty.run fits inOrder with ⟨same, held, holds, blocksEq⟩
  have redb := holds.crash_safe_iff operation cutFits
  rw [blocksEq] at redb
  refine ⟨redb, ?_⟩
  rw [same]
  refine Iff.trans ?_ redb
  unfold KeepsReading
  simp only [foldl_fjallCommit, fjallCrash_iff _ operation cutFits]

end Crash

namespace CutShort

def calls : List ArchiveCall := [.commit [(1, [7]), (2, [8, 8])]]

theorem inOrder_calls : CallsInOrder [] calls := by
  simp [calls, CallsInOrder, CommitsInOrder, InChainOrder, storeBlock]

/-- The process stops after the file was cut and before the table was: the table still has
the second block, whose body is gone, and then is another one. -/
theorem cut_body_still_indexed :
    ArchiveOperation.RedbCrash (ArchiveStore.empty.redbRun calls) (.truncateFront 1)
        (.ofList [(0, [7])]) ∧
      (ArchiveStore.empty.redbRun calls).index.get? 2 = some [⟨0, 1, 2⟩] ∧
      (ArchiveStore.empty.redbRun calls).files.read ⟨0, 1, 2⟩ = some [8, 8] ∧
      FlatFileStore.read (.ofList [(0, [7])]) ⟨0, 1, 2⟩ = none ∧
      (redbCall ⟨(ArchiveStore.empty.redbRun calls).index, .ofList [(0, [7])]⟩
        (.commit [(3, [9, 9])])).files.read ⟨0, 1, 2⟩ = some [9, 9] := by
  refine ⟨Or.inr ?_, ?_, ?_, ?_, ?_⟩
  · apply OrderedMap.eq_of_entries
    decide +kernel
  · decide +kernel
  · decide +kernel
  · decide +kernel
  · decide +kernel

/-- A batch that only applies is safe. -/
theorem crash_keeps_reading_applied :
    (ArchiveStore.empty.redbRun calls).KeepsReading
      ((ArchiveOperation.write [] [(3, [9])]).RedbCrash (ArchiveStore.empty.redbRun calls))
      redbCall := by
  apply (crash_keeps_reading_iff inOrder_calls (by decide +kernel) (.write [] [(3, [9])])
    trivial).1.mpr
  intro slot member
  cases member

end CutShort

end Dolos
