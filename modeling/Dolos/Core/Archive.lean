import Dolos.Core.FlatFiles
import Dolos.Lib.Grouping
import Dolos.Lib.Outcome

/-!
# The archive of blocks

`redb3/src/archive` and `fjall/src/archive`: a table from slots to the locations of the
blocks recorded there, the newest first, over the segment files. A batch appends its
bodies to the files before the table is written; a cut removes entries by slot and
truncates one segment at the earliest body it drops; pruning removes the entries before
a slot and the files of the segments before it.

Both archives are compared with the list of the blocks in the order of the chain.
-/

namespace Dolos

open Grouping FlatFileStore

inductive ArchiveError where
  | internalError
  deriving DecidableEq, Repr

abbrev BlocksIndex := OrderedMap ℕ (List BlockLocation)

/-- The table and the files. -/
structure ArchiveStore where
  index : BlocksIndex
  files : FlatFileStore

namespace ArchiveStore

def empty : ArchiveStore := ⟨∅, ∅⟩

/-- The loop of `merge_location`: a body is read only where the length fits. -/
def alreadyHeld (files : FlatFileStore) (body : Bytes) :
    List BlockLocation → Except ArchiveError Bool
  | [] => .ok false
  | location :: rest =>
      if location.length ≠ body.length then alreadyHeld files body rest
      else
        match files.read location with
        | none => .error .internalError
        | some stored => if stored = body then .ok true else alreadyHeld files body rest

/-- The same block again keeps its place; another one at its slot goes first. -/
def mergeLocation (files : FlatFileStore) (existing : List BlockLocation)
    (incoming : BlockLocation) (body : Bytes) : Except ArchiveError (List BlockLocation) := do
  let held ← alreadyHeld files body existing
  .ok (if held then existing else incoming :: existing)

/-- The segments the bodies of a batch go to. -/
def segmentItems (blocks : List (ℕ × Bytes)) : List (ℕ × Bytes) :=
  blocks.map fun block => (BlockLocation.segmentForSlot block.1, block.2)

/-- The earliest of the locations under some entries, by segment and offset. -/
def earliest (entries : List (ℕ × List BlockLocation)) : Option BlockLocation :=
  (entries.flatMap Prod.snd).foldl (fun found location =>
    match found with
    | none => some location
    | some previous =>
        if location.segmentId < previous.segmentId ∨
            location.segmentId = previous.segmentId ∧ location.offset < previous.offset then
          some location
        else some previous) none

def cutAt (files : FlatFileStore) : Option BlockLocation → FlatFileStore
  | none => files
  | some location => files.truncate location.segmentId location.offset

/-- The slot `prune_history` prunes before, and whether that is all there is to prune. -/
def pruneBefore (index : BlocksIndex) (maxSlots : ℕ) (maxPrune : Option ℕ) :
    Option (ℕ × Bool) :=
  match index.entries.head?, index.entries.getLast? with
  | some first, some last =>
      let excess := last.1 - first.1 - maxSlots
      if excess = 0 then none
      else
        match maxPrune with
        | some most => some (first.1 + min excess most, decide (excess ≤ most))
        | none => some (first.1 + excess, true)
  | _, _ => none

/-- `prune_history`, the same in both archives. -/
def pruneHistory (archive : ArchiveStore) (maxSlots : ℕ) (maxPrune : Option ℕ) :
    Bool × ArchiveStore :=
  match pruneBefore archive.index maxSlots maxPrune with
  | none => (true, archive)
  | some (slot, done) =>
      (done, ⟨archive.index.filter fun held _ => slot ≤ held,
        archive.files.deleteSegmentsBefore (BlockLocation.segmentForSlot slot)⟩)

section Reading

/-- `read`, as the readers of a single slot use it. -/
def readOrFail (files : FlatFileStore) (location : BlockLocation) :
    Except ArchiveError Bytes :=
  match files.read location with
  | none => .error .internalError
  | some body => .ok body

def getBlockBySlot (archive : ArchiveStore) (slot : ℕ) : Except ArchiveError (Option Bytes) :=
  match ((archive.index.get? slot).getD []).head? with
  | none => .ok none
  | some location => some <$> readOrFail archive.files location

def getBlocksBySlot (archive : ArchiveStore) (slot : ℕ) : Except ArchiveError (List Bytes) :=
  ((archive.index.get? slot).getD []).reverse.mapM (readOrFail archive.files)

/-- The blocks of a range of slots. What cannot be read is skipped. -/
def getRange (archive : ArchiveStore) (start stop : Option ℕ) : List (ℕ × Bytes) :=
  (flatten (archive.index.entries.filter fun entry =>
    (∀ slot ∈ start, slot ≤ entry.1) ∧ ∀ slot ∈ stop, entry.1 < slot)).filterMap fun entry =>
      (archive.files.read entry.2).map fun body => (entry.1, body)

def getTip (archive : ArchiveStore) : Except ArchiveError (Option (ℕ × Bytes)) :=
  match archive.index.entries.getLast? with
  | none => .ok none
  | some (slot, locations) =>
      match locations.head? with
      | none => .ok none
      | some location => (fun body => some (slot, body)) <$> readOrFail archive.files location

end Reading

end ArchiveStore

section Redb

open ArchiveStore

/-- An open write transaction: the table as it sees it, and the blocks held back until
the commit. -/
structure RedbWriter where
  committed : BlocksIndex
  index : BlocksIndex
  files : FlatFileStore
  pending : List (ℕ × Bytes)

namespace RedbWriter

def start (archive : ArchiveStore) : RedbWriter :=
  ⟨archive.index, archive.index, archive.files, []⟩

def apply (writer : RedbWriter) (block : ℕ × Bytes) : RedbWriter :=
  { writer with pending := writer.pending ++ [block] }

/-- The newest block of a slot goes, and its segment is truncated at once. -/
def undo (writer : RedbWriter) (slot : ℕ) : RedbWriter :=
  match (writer.index.get? slot).getD [] with
  | [] => writer
  | removed :: rest =>
      { writer with
        index := if rest = [] then writer.index.erase slot else writer.index.insert slot rest
        files := writer.files.truncate removed.segmentId removed.offset }

def indexBlock (files : FlatFileStore) (index : BlocksIndex) (block : ℕ × Bytes)
    (location : BlockLocation) : Except ArchiveError BlocksIndex :=
  match index.get? block.1 with
  | none => .ok (index.insert block.1 [location])
  | some occupied => do
      let merged ← mergeLocation files occupied location block.2
      .ok (index.insert block.1 merged)

def indexBlocks (files : FlatFileStore) :
    BlocksIndex → List ((ℕ × Bytes) × BlockLocation) → Except ArchiveError BlocksIndex
  | index, [] => .ok index
  | index, (block, location) :: rest => do
      let next ← indexBlock files index block location
      indexBlocks files next rest

/-- The files first, then the table. -/
def commit (writer : RedbWriter) : Except ArchiveError Unit × ArchiveStore :=
  let (locations, files) := writer.files.appendBatch (segmentItems writer.pending)
  match indexBlocks files writer.index (writer.pending.zip locations) with
  | .error failure => (.error failure, ⟨writer.committed, files⟩)
  | .ok index => (.ok (), ⟨index, files⟩)

end RedbWriter

/-- `remove_after`. The slot after the last one wraps around. -/
def redbTruncateFront (archive : ArchiveStore) (slot : ℕ) : ArchiveStore :=
  let start := (slot + 1) % 2 ^ 64
  ⟨archive.index.filter fun held _ => held ≤ slot,
    cutAt archive.files (earliest (archive.index.entries.filter fun entry => start ≤ entry.1))⟩

end Redb

section Fjall

open ArchiveStore

/-- What a batch writes under a slot: locations, or that it goes. -/
abbrev BlocksBatch := List (ℕ × Option (List BlockLocation))

/-- A writer whose batch is not visible before the commit. The overlay holds every slot
it has touched. -/
structure FjallWriter where
  committed : BlocksIndex
  files : FlatFileStore
  pending : List (ℕ × Bytes)
  overlay : OrderedMap ℕ (List BlockLocation)
  batch : BlocksBatch

namespace FjallWriter

def start (archive : ArchiveStore) : FjallWriter := ⟨archive.index, archive.files, [], ∅, []⟩

def apply (writer : FjallWriter) (block : ℕ × Bytes) : FjallWriter :=
  { writer with pending := writer.pending ++ [block] }

def resolveLocations (committed : BlocksIndex) (overlay : OrderedMap ℕ (List BlockLocation))
    (slot : ℕ) : List BlockLocation :=
  (overlay.get? slot).getD ((committed.get? slot).getD [])

def undo (writer : FjallWriter) (slot : ℕ) : FjallWriter :=
  match resolveLocations writer.committed writer.overlay slot with
  | [] => writer
  | removed :: rest =>
      { writer with
        batch := writer.batch ++ [(slot, if rest = [] then none else some rest)]
        overlay := writer.overlay.insert slot rest
        files := writer.files.truncate removed.segmentId removed.offset }

def indexBlocks (files : FlatFileStore) (committed : BlocksIndex) :
    OrderedMap ℕ (List BlockLocation) → BlocksBatch → List ((ℕ × Bytes) × BlockLocation) →
      Except ArchiveError BlocksBatch
  | _, batch, [] => .ok batch
  | overlay, batch, (block, location) :: rest => do
      let merged ← mergeLocation files (resolveLocations committed overlay block.1) location block.2
      indexBlocks files committed (overlay.insert block.1 merged)
        (batch ++ [(block.1, some merged)]) rest

def writeBatch (table : BlocksIndex) (batch : BlocksBatch) : BlocksIndex :=
  batch.foldl (fun table write => table.set write.1 write.2) table

def commit (writer : FjallWriter) : Except ArchiveError Unit × ArchiveStore :=
  let (locations, files) := writer.files.appendBatch (segmentItems writer.pending)
  match indexBlocks files writer.committed writer.overlay writer.batch
      (writer.pending.zip locations) with
  | .error failure => (.error failure, ⟨writer.committed, files⟩)
  | .ok batch => (.ok (), ⟨writeBatch writer.committed batch, files⟩)

end FjallWriter

/-- `truncate_front`. There is nothing after the last slot. -/
def fjallTruncateFront (archive : ArchiveStore) (slot : ℕ) : ArchiveStore :=
  if slot + 1 < 2 ^ 64 then
    ⟨archive.index.filter fun held _ => ¬ slot + 1 ≤ held,
      cutAt archive.files
        (earliest (archive.index.entries.filter fun entry => slot + 1 ≤ entry.1))⟩
  else archive

end Fjall

/-- What is done to an archive. -/
inductive ArchiveCall where
  | commit (blocks : List (ℕ × Bytes))
  | truncateFront (slot : ℕ)
  | pruneHistory (maxSlots : ℕ) (maxPrune : Option ℕ)

namespace ArchiveStore

def redbCall (archive : ArchiveStore) : ArchiveCall → ArchiveStore
  | .commit blocks => (blocks.foldl RedbWriter.apply (.start archive)).commit.2
  | .truncateFront slot => redbTruncateFront archive slot
  | .pruneHistory maxSlots maxPrune => (archive.pruneHistory maxSlots maxPrune).2

def fjallCall (archive : ArchiveStore) : ArchiveCall → ArchiveStore
  | .commit blocks => (blocks.foldl FjallWriter.apply (.start archive)).commit.2
  | .truncateFront slot => fjallTruncateFront archive slot
  | .pruneHistory maxSlots maxPrune => (archive.pruneHistory maxSlots maxPrune).2

def redbRun (archive : ArchiveStore) (calls : List ArchiveCall) : ArchiveStore :=
  calls.foldl redbCall archive

def fjallRun (archive : ArchiveStore) (calls : List ArchiveCall) : ArchiveStore :=
  calls.foldl fjallCall archive

end ArchiveStore

end Dolos
