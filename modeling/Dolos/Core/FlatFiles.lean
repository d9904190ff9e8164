import Dolos.Core.Indexes

/-!
# The segment files of the archive

`flatfiles/src/lib.rs`: the bodies of the blocks are appended to numbered files, one for
each 432000 slots, and found again by their segment, offset and length. Both archives
keep their bodies in these files.

A location stands here as its three fields; the sixteen bytes it is packed in hold each
at a fixed width.
-/

namespace Dolos

/-- Where a body is. The segment and the length are 32 bits wide. -/
structure BlockLocation where
  segmentId : ℕ
  offset : ℕ
  length : ℕ
  deriving DecidableEq, Repr

def slotsPerSegment : ℕ := 432000

def BlockLocation.segmentForSlot (slot : ℕ) : ℕ := slot / slotsPerSegment % 2 ^ 32

/-- The number a file is taken to have by its name: a name has at least six digits, and
the first six are read back. -/
def leadingSix (id : ℕ) : ℕ :=
  if id < 10 ^ 6 then id
  else if id < 10 ^ 7 then id / 10
  else if id < 10 ^ 8 then id / 10 ^ 2
  else if id < 10 ^ 9 then id / 10 ^ 3
  else id / 10 ^ 4

/-- The files, by the number of their segment. -/
abbrev FlatFileStore := OrderedMap ℕ Bytes

namespace FlatFileStore

/-- What a file holds, nothing when it is not there. -/
def segment (files : FlatFileStore) (id : ℕ) : Bytes := (files.get? id).getD []

/-- One body at the end of its segment. -/
def append (files : FlatFileStore) (item : ℕ × Bytes) : FlatFileStore :=
  files.insert item.1 (files.segment item.1 ++ item.2)

def nextLocation (files : FlatFileStore) (item : ℕ × Bytes) : BlockLocation :=
  ⟨item.1, (files.segment item.1).length, item.2.length % 2 ^ 32⟩

def appendBatch : FlatFileStore → List (ℕ × Bytes) → List BlockLocation × FlatFileStore
  | files, [] => ([], files)
  | files, item :: rest =>
      let (locations, after) := appendBatch (files.append item) rest
      (files.nextLocation item :: locations, after)

/-- Reading past the end of a file fails. -/
def read (files : FlatFileStore) (location : BlockLocation) : Option Bytes :=
  match files.get? location.segmentId with
  | none => none
  | some held =>
      let found := (held.drop location.offset).take location.length
      if found.length = location.length then some found else none

/-- A file cut to nothing is removed; one that is shorter is filled with zeros. -/
def truncate (files : FlatFileStore) (id offset : ℕ) : FlatFileStore :=
  match files.get? id with
  | none => files
  | some held =>
      if offset = 0 then files.erase id
      else files.insert id (held.take offset ++ List.replicate (offset - held.length) 0)

def deleteSegmentsBefore (files : FlatFileStore) (id : ℕ) : FlatFileStore :=
  files.filter fun file _ => id ≤ leadingSix file

section Stored

variable {files : FlatFileStore} {location : BlockLocation} {body : Bytes}

/-- A body is where its location says. -/
structure Stored (files : FlatFileStore) (location : BlockLocation) (body : Bytes) : Prop where
  length : location.length = body.length
  placed : ∃ before after, files.get? location.segmentId = some (before ++ (body ++ after)) ∧
    before.length = location.offset

theorem Stored.read (stored : Stored files location body) :
    files.read location = some body := by
  rcases stored.placed with ⟨before, after, held, offset⟩
  unfold FlatFileStore.read
  rw [held]
  have dropped : (before ++ (body ++ after)).drop location.offset = body ++ after := by
    rw [← offset, List.drop_left]
  simp only [dropped, stored.length, List.take_left, if_true]

/-- It ends within its segment. -/
theorem Stored.fits (stored : Stored files location body) :
    location.offset + body.length ≤ (files.segment location.segmentId).length := by
  rcases stored.placed with ⟨before, after, held, offset⟩
  rw [segment, held, Option.getD_some, List.length_append, List.length_append, offset]
  omega

theorem Stored.append (stored : Stored files location body) (item : ℕ × Bytes) :
    Stored (files.append item) location body := by
  rcases stored.placed with ⟨before, after, held, offset⟩
  refine ⟨stored.length, ?_⟩
  by_cases same : location.segmentId = item.1
  · refine ⟨before, after ++ item.2, ?_, offset⟩
    rw [FlatFileStore.append, OrderedMap.get?_insert, if_pos same, segment, ← same, held,
      Option.getD_some]
    simp
  · refine ⟨before, after, ?_, offset⟩
    rw [FlatFileStore.append, OrderedMap.get?_insert, if_neg same]
    exact held

theorem stored_nextLocation (files : FlatFileStore) {item : ℕ × Bytes}
    (fits : item.2.length < 2 ^ 32) :
    Stored (files.append item) (files.nextLocation item) item.2 := by
  refine ⟨Nat.mod_eq_of_lt fits, files.segment item.1, [], ?_, rfl⟩
  rw [List.append_nil]
  exact OrderedMap.get?_insert_self _ _ _

theorem Stored.appendBatch (stored : Stored files location body) (items : List (ℕ × Bytes)) :
    Stored (files.appendBatch items).2 location body := by
  induction items generalizing files with
  | nil => exact stored
  | cons item rest ih => exact ih (stored.append item)

/-- A cut past the end of a body leaves it. -/
theorem Stored.truncate (stored : Stored files location body) (nonempty : body ≠ [])
    {id offset : ℕ}
    (past : location.segmentId = id → location.offset + body.length ≤ offset) :
    Stored (files.truncate id offset) location body := by
  rcases stored.placed with ⟨before, after, held, offsetEq⟩
  refine ⟨stored.length, ?_⟩
  unfold FlatFileStore.truncate
  by_cases same : location.segmentId = id
  · have long := past same
    have someBytes := List.length_pos_iff.mpr nonempty
    rw [← same, held]
    simp only
    rw [if_neg (by omega)]
    refine ⟨before, after.take (offset - (location.offset + body.length)) ++
      List.replicate (offset - (before ++ (body ++ after)).length) 0, ?_, offsetEq⟩
    rw [OrderedMap.get?_insert_self]
    have cut : (before ++ (body ++ after)).take offset =
        before ++ (body ++ after.take (offset - (location.offset + body.length))) := by
      rw [List.take_append, List.take_append, List.take_of_length_le (by omega),
        List.take_of_length_le (by omega), offsetEq, Nat.sub_sub]
    rw [cut, List.append_assoc, List.append_assoc]
  · refine ⟨before, after, ?_, offsetEq⟩
    cases files.get? id with
    | none => exact held
    | some other =>
        simp only
        split_ifs
        · rw [OrderedMap.get?_erase, if_neg same]
          exact held
        · rw [OrderedMap.get?_insert, if_neg same]
          exact held

theorem Stored.deleteSegmentsBefore (stored : Stored files location body) {id : ℕ}
    (kept : id ≤ leadingSix location.segmentId) :
    Stored (files.deleteSegmentsBefore id) location body := by
  rcases stored.placed with ⟨before, after, held, offsetEq⟩
  refine ⟨stored.length, before, after, ?_, offsetEq⟩
  rw [FlatFileStore.deleteSegmentsBefore, OrderedMap.get?_filter, held]
  simp [kept]

/-- A cut takes what begins at it or after it. -/
theorem Stored.read_truncate (stored : Stored files location body) (nonempty : body ≠ [])
    {offset : ℕ} (cut : offset ≤ location.offset) :
    (files.truncate location.segmentId offset).read location = none := by
  rcases stored.placed with ⟨before, after, held, offsetEq⟩
  have someBytes := List.length_pos_iff.mpr nonempty
  unfold FlatFileStore.truncate
  rw [held]
  simp only
  split_ifs with isZero
  · rw [FlatFileStore.read, OrderedMap.get?_erase, if_pos rfl]
  · rw [FlatFileStore.read, OrderedMap.get?_insert_self]
    have noPadding : offset - (before ++ (body ++ after)).length = 0 := by
      rw [List.length_append, List.length_append]
      omega
    have nothing : ((before ++ (body ++ after)).take offset).drop location.offset = [] := by
      apply List.drop_eq_nil_of_le
      rw [List.length_take]
      omega
    simp only [noPadding, List.replicate_zero, List.append_nil, nothing, List.take_nil,
      List.length_nil]
    rw [stored.length, if_neg (by omega)]

end Stored

end FlatFileStore

end Dolos
