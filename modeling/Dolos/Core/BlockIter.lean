import Dolos.Core.Archive

/-!
# The two ends of a range of blocks

`BlockIter` of `fjall/src/archive` and `ArchiveRangeIter` of `redb3/src/archive`, which are
the same loops over the range of either database. An entry of the table expands to the run
of its locations, so each end keeps what is left of the entry it works through in a buffer
of its own, and an end whose range has run dry takes from the buffer of the other.

What the two ends have still to give is one list: the front buffer, the range in chain
order, and the back buffer. Each end takes from its own end of that list.
-/

namespace Dolos

open Grouping

abbrev IndexEntry := ℕ × BlockLocation

/-- An entry of the range stands as nothing when the database fails to give it. -/
structure BlockIter where
  range : List (Option (ℕ × List BlockLocation))
  front : List IndexEntry
  back : List IndexEntry
  files : FlatFileStore

abbrev ArchiveRangeIter := BlockIter

namespace BlockIter

/-- The locations of a slot, the oldest first. -/
def expand (entry : ℕ × List BlockLocation) : List IndexEntry :=
  entry.2.reverse.map fun location => (entry.1, location)

def nextEntry (iter : BlockIter) : Option IndexEntry × BlockIter :=
  match iter.front with
  | entry :: rest => (some entry, { iter with front := rest })
  | [] =>
      match _ranged : iter.range with
      | [] =>
          match iter.back with
          | [] => (none, iter)
          | entry :: rest => (some entry, { iter with back := rest })
      | none :: others => (none, { iter with range := others })
      | some found :: others =>
          nextEntry { iter with range := others, front := expand found }
termination_by iter.range.length
decreasing_by simp [_ranged]

def nextEntryBack (iter : BlockIter) : Option IndexEntry × BlockIter :=
  match iter.back.getLast? with
  | some entry => (some entry, { iter with back := iter.back.dropLast })
  | none =>
      match _ranged : iter.range.getLast? with
      | none =>
          match iter.front.getLast? with
          | none => (none, iter)
          | some entry => (some entry, { iter with front := iter.front.dropLast })
      | some none => (none, { iter with range := iter.range.dropLast })
      | some (some found) =>
          nextEntryBack { iter with range := iter.range.dropLast, back := expand found }
termination_by iter.range.length
decreasing_by
  have nonempty := List.length_pos_iff.mpr (List.ne_nil_of_mem (List.mem_of_getLast? _ranged))
  simp only [List.length_dropLast]
  omega

/-- What an entry of the range has to give. -/
def given : Option (ℕ × List BlockLocation) → List IndexEntry
  | none => []
  | some found => expand found

/-- What is still to come, from the front to the back. -/
def content (iter : BlockIter) : List IndexEntry :=
  iter.front ++ (iter.range.flatMap given ++ iter.back)

/-- Every entry of the range can be had. -/
def Decoded (iter : BlockIter) : Prop := none ∉ iter.range

/-- An entry from the front is the first of what is to come. -/
theorem content_of_nextEntry {iter after : BlockIter} {entry : IndexEntry}
    (gives : iter.nextEntry = (some entry, after)) :
    iter.content = entry :: after.content ∧ after.files = iter.files ∧
      (iter.Decoded → after.Decoded) := by
  fun_induction nextEntry iter with
  | case1 iter first rest fronted =>
      cases gives
      simp [content, fronted, Decoded]
  | case2 => cases gives
  | case3 iter fronted ranged first rest backed =>
      cases gives
      simp [content, fronted, ranged, backed, Decoded]
  | case4 => cases gives
  | case5 iter fronted found others ranged ih =>
      rcases ih gives with ⟨same, files, decoded⟩
      refine ⟨?_, files, ?_⟩
      · rw [← same]
        simp [content, fronted, ranged, given]
      · intro all
        apply decoded
        intro missing
        exact all (ranged ▸ List.mem_cons_of_mem _ missing)

theorem content_of_nextEntry_none {iter after : BlockIter} (decoded : iter.Decoded)
    (nothing : iter.nextEntry = (none, after)) :
    iter.content = [] ∧ after.content = [] ∧ after.Decoded := by
  fun_induction nextEntry iter with
  | case1 => cases nothing
  | case2 iter fronted ranged backed =>
      cases nothing
      exact ⟨by simp [content, fronted, ranged, backed], by simp [content, fronted, ranged, backed],
        decoded⟩
  | case3 => cases nothing
  | case4 iter fronted others ranged => exact absurd (ranged ▸ List.mem_cons_self) decoded
  | case5 iter fronted found others ranged ih =>
      have decodedAfter : Decoded { iter with range := others, front := expand found } :=
        fun missing => decoded (ranged ▸ List.mem_cons_of_mem _ missing)
      rcases ih decodedAfter nothing with ⟨empty, emptyAfter, decodedLast⟩
      refine ⟨?_, emptyAfter, decodedLast⟩
      rw [← empty]
      simp [content, fronted, ranged, given]

/-- An entry from the back is the last of what is to come. -/
theorem content_of_nextEntryBack {iter after : BlockIter} {entry : IndexEntry}
    (gives : iter.nextEntryBack = (some entry, after)) :
    iter.content = after.content ++ [entry] ∧ after.files = iter.files ∧
      (iter.Decoded → after.Decoded) := by
  fun_induction nextEntryBack iter with
  | case1 iter last backed =>
      cases gives
      have split := List.dropLast_append_getLast? _ backed
      refine ⟨?_, rfl, id⟩
      rw [content, content, List.append_assoc, List.append_assoc, split]
  | case2 => cases gives
  | case3 iter backed ranged last fronted =>
      cases gives
      have split := List.dropLast_append_getLast? _ fronted
      rw [List.getLast?_eq_none_iff] at backed ranged
      refine ⟨?_, rfl, id⟩
      simp [content, ranged, backed, split]
  | case4 => cases gives
  | case5 iter backed found ranged ih =>
      have split := List.dropLast_append_getLast? _ ranged
      rcases ih gives with ⟨same, files, decoded⟩
      rw [List.getLast?_eq_none_iff] at backed
      refine ⟨?_, files, ?_⟩
      · rw [← same, content, ← split]
        simp [content, backed, given]
      · intro all
        apply decoded
        intro missing
        exact all (List.mem_of_mem_dropLast missing)

theorem content_of_nextEntryBack_none {iter after : BlockIter} (decoded : iter.Decoded)
    (nothing : iter.nextEntryBack = (none, after)) :
    iter.content = [] ∧ after.content = [] ∧ after.Decoded := by
  fun_induction nextEntryBack iter with
  | case1 => cases nothing
  | case2 iter backed ranged fronted =>
      cases nothing
      rw [List.getLast?_eq_none_iff] at backed ranged fronted
      exact ⟨by simp [content, fronted, ranged, backed], by simp [content, fronted, ranged, backed],
        decoded⟩
  | case3 => cases nothing
  | case4 iter backed ranged => exact absurd (List.mem_of_getLast? ranged) decoded
  | case5 iter backed found ranged ih =>
      have decodedAfter :
          Decoded { iter with range := iter.range.dropLast, back := expand found } :=
        fun missing => decoded (List.mem_of_mem_dropLast missing)
      have split := List.dropLast_append_getLast? _ ranged
      rcases ih decodedAfter nothing with ⟨empty, emptyAfter, decodedLast⟩
      rw [List.getLast?_eq_none_iff] at backed
      refine ⟨?_, emptyAfter, decodedLast⟩
      rw [← empty, content, ← split]
      simp [content, backed, given]

/-- The block at an entry, unless its location cannot be read. -/
def readEntry (files : FlatFileStore) (entry : IndexEntry) : Option (ℕ × Bytes) :=
  (files.read entry.2).map fun data => (entry.1, data)

def next (iter : BlockIter) : Option (ℕ × Bytes) × BlockIter :=
  match _gives : iter.nextEntry with
  | (none, after) => (none, after)
  | (some entry, after) =>
      match readEntry after.files entry with
      | some block => (some block, after)
      | none => next after
termination_by iter.content.length
decreasing_by
  rw [(content_of_nextEntry _gives).1]
  exact Nat.lt_succ_self _

def nextBack (iter : BlockIter) : Option (ℕ × Bytes) × BlockIter :=
  match _gives : iter.nextEntryBack with
  | (none, after) => (none, after)
  | (some entry, after) =>
      match readEntry after.files entry with
      | some block => (some block, after)
      | none => nextBack after
termination_by iter.content.length
decreasing_by
  rw [(content_of_nextEntryBack _gives).1, List.length_append]
  exact Nat.lt_succ_self _

/-- The entries it goes past stand beside the iterator it leaves. -/
def skipForward : ℕ → BlockIter → List IndexEntry × BlockIter
  | 0, iter => ([], iter)
  | n + 1, iter =>
      match iter.nextEntry with
      | (none, after) => ([], after)
      | (some entry, after) => (entry :: (skipForward n after).1, (skipForward n after).2)

def skipBackward : ℕ → BlockIter → List IndexEntry × BlockIter
  | 0, iter => ([], iter)
  | n + 1, iter =>
      match iter.nextEntryBack with
      | (none, after) => ([], after)
      | (some entry, after) => ((skipBackward n after).1 ++ [entry], (skipBackward n after).2)

/-- The blocks still to come, from the front to the back. -/
def blocks (iter : BlockIter) : List (ℕ × Bytes) := iter.content.filterMap (readEntry iter.files)

/-- An iterator part of the way through a range that can be read. -/
structure Sound (iter : BlockIter) : Prop where
  decoded : iter.Decoded
  readable : ∀ entry ∈ iter.content, (readEntry iter.files entry).isSome

section Ends

variable {iter : BlockIter}

theorem Sound.nextEntry (sound : iter.Sound) {entry : IndexEntry} {after : BlockIter}
    (gives : iter.nextEntry = (some entry, after)) : after.Sound := by
  rcases content_of_nextEntry gives with ⟨split, files, decoded⟩
  refine ⟨decoded sound.decoded, ?_⟩
  intro other member
  rw [files]
  exact sound.readable other (split ▸ List.mem_cons_of_mem _ member)

theorem Sound.nextEntryBack (sound : iter.Sound) {entry : IndexEntry} {after : BlockIter}
    (gives : iter.nextEntryBack = (some entry, after)) : after.Sound := by
  rcases content_of_nextEntryBack gives with ⟨split, files, decoded⟩
  refine ⟨decoded sound.decoded, ?_⟩
  intro other member
  rw [files]
  exact sound.readable other (split ▸ List.mem_append_left _ member)

theorem Sound.nextEntry_none (sound : iter.Sound) {after : BlockIter}
    (nothing : iter.nextEntry = (none, after)) :
    after.Sound ∧ iter.blocks = [] ∧ after.blocks = [] := by
  rcases content_of_nextEntry_none sound.decoded nothing with ⟨empty, emptyAfter, decoded⟩
  refine ⟨⟨decoded, ?_⟩, ?_, ?_⟩
  · simp [emptyAfter]
  · simp [blocks, empty]
  · simp [blocks, emptyAfter]

theorem Sound.nextEntryBack_none (sound : iter.Sound) {after : BlockIter}
    (nothing : iter.nextEntryBack = (none, after)) :
    after.Sound ∧ iter.blocks = [] ∧ after.blocks = [] := by
  rcases content_of_nextEntryBack_none sound.decoded nothing with ⟨empty, emptyAfter, decoded⟩
  refine ⟨⟨decoded, ?_⟩, ?_, ?_⟩
  · simp [emptyAfter]
  · simp [blocks, empty]
  · simp [blocks, emptyAfter]

/-- The entry an end gives has a block, the one at that end. -/
theorem Sound.blocks_of_nextEntry (sound : iter.Sound) {entry : IndexEntry} {after : BlockIter}
    (gives : iter.nextEntry = (some entry, after)) :
    ∃ block, readEntry iter.files entry = some block ∧ iter.blocks = block :: after.blocks := by
  rcases content_of_nextEntry gives with ⟨split, files, -⟩
  have present := sound.readable entry (split ▸ List.mem_cons_self)
  rcases Option.isSome_iff_exists.mp present with ⟨block, read⟩
  refine ⟨block, read, ?_⟩
  rw [blocks, blocks, split, files, List.filterMap_cons_some read]

theorem Sound.blocks_of_nextEntryBack (sound : iter.Sound) {entry : IndexEntry}
    {after : BlockIter} (gives : iter.nextEntryBack = (some entry, after)) :
    ∃ block, readEntry iter.files entry = some block ∧ iter.blocks = after.blocks ++ [block] := by
  rcases content_of_nextEntryBack gives with ⟨split, files, -⟩
  have present := sound.readable entry
    (split ▸ List.mem_append_right _ (List.mem_singleton_self entry))
  rcases Option.isSome_iff_exists.mp present with ⟨block, read⟩
  refine ⟨block, read, ?_⟩
  rw [blocks, blocks, split, files, List.filterMap_append, List.filterMap_cons_some read]
  rfl

/-- `next` gives the first block there is, and nothing only when there is none. -/
theorem Sound.next (sound : iter.Sound) :
    iter.next.2.Sound ∧ iter.blocks = iter.next.1.toList ++ iter.next.2.blocks ∧
      (iter.next.1 = none → iter.blocks = []) := by
  unfold BlockIter.next
  split
  next after nothing =>
      rcases sound.nextEntry_none nothing with ⟨soundAfter, empty, emptyAfter⟩
      exact ⟨soundAfter, by simp [empty, emptyAfter], fun _ => empty⟩
  next entry after gives =>
      rcases sound.blocks_of_nextEntry gives with ⟨block, read, split⟩
      rw [← (content_of_nextEntry gives).2.1] at read
      simp only [read]
      exact ⟨sound.nextEntry gives, split, fun absent => nomatch absent⟩

theorem Sound.nextBack (sound : iter.Sound) :
    iter.nextBack.2.Sound ∧ iter.blocks = iter.nextBack.2.blocks ++ iter.nextBack.1.toList ∧
      (iter.nextBack.1 = none → iter.blocks = []) := by
  unfold BlockIter.nextBack
  split
  next after nothing =>
      rcases sound.nextEntryBack_none nothing with ⟨soundAfter, empty, emptyAfter⟩
      exact ⟨soundAfter, by simp [empty, emptyAfter], fun _ => empty⟩
  next entry after gives =>
      rcases sound.blocks_of_nextEntryBack gives with ⟨block, read, split⟩
      rw [← (content_of_nextEntryBack gives).2.1] at read
      simp only [read]
      exact ⟨sound.nextEntryBack gives, split, fun absent => nomatch absent⟩

/-- As many blocks as asked for are gone past, or all there are. -/
theorem Sound.skipForward (sound : iter.Sound) (n : ℕ) :
    (iter.skipForward n).2.Sound ∧
      (iter.skipForward n).1.filterMap (readEntry iter.files) = iter.blocks.take n ∧
      (iter.skipForward n).2.blocks = iter.blocks.drop n := by
  induction n generalizing iter with
  | zero => exact ⟨sound, rfl, rfl⟩
  | succ n ih =>
      unfold BlockIter.skipForward
      split
      next after nothing =>
          rcases sound.nextEntry_none nothing with ⟨soundAfter, empty, emptyAfter⟩
          exact ⟨soundAfter, by simp [empty], by simp [empty, emptyAfter]⟩
      next entry after gives =>
          rcases sound.blocks_of_nextEntry gives with ⟨block, read, split⟩
          rcases ih (sound.nextEntry gives) with ⟨soundAfter, passed, left⟩
          rw [(content_of_nextEntry gives).2.1] at passed
          refine ⟨soundAfter, ?_, ?_⟩
          · rw [List.filterMap_cons_some read, passed, split, List.take_succ_cons]
          · rw [left, split, List.drop_succ_cons]

theorem Sound.skipBackward (sound : iter.Sound) (n : ℕ) :
    (iter.skipBackward n).2.Sound ∧
      (iter.skipBackward n).1.filterMap (readEntry iter.files) =
        iter.blocks.drop (iter.blocks.length - n) ∧
      (iter.skipBackward n).2.blocks = iter.blocks.take (iter.blocks.length - n) := by
  induction n generalizing iter with
  | zero => exact ⟨sound, by simp [BlockIter.skipBackward], by simp [BlockIter.skipBackward]⟩
  | succ n ih =>
      unfold BlockIter.skipBackward
      split
      next after nothing =>
          rcases sound.nextEntryBack_none nothing with ⟨soundAfter, empty, emptyAfter⟩
          exact ⟨soundAfter, by simp [empty], by simp [empty, emptyAfter]⟩
      next entry after gives =>
          rcases sound.blocks_of_nextEntryBack gives with ⟨block, read, split⟩
          rcases ih (sound.nextEntryBack gives) with ⟨soundAfter, passed, left⟩
          rw [(content_of_nextEntryBack gives).2.1] at passed
          have shorter : iter.blocks.length - (n + 1) = after.blocks.length - n := by
            rw [split, List.length_append, List.length_singleton]
            omega
          refine ⟨soundAfter, ?_, ?_⟩
          · rw [List.filterMap_append, List.filterMap_cons_some read, passed, shorter, split,
              List.drop_append_of_le_length (Nat.sub_le _ _)]
            rfl
          · rw [left, shorter, split, List.take_append_of_le_length (Nat.sub_le _ _)]

end Ends

section Walk

inductive Move where
  | next
  | nextBack
  | skipForward (n : ℕ)
  | skipBackward (n : ℕ)
  deriving DecidableEq, Repr

/-- What a user of the iterator has had: the blocks taken or skipped from the front and
from the back, both in chain order, and the iterator it is left with. -/
structure Walk where
  front : List (ℕ × Bytes)
  back : List (ℕ × Bytes)
  left : BlockIter

def Walk.step (walk : Walk) : Move → Walk
  | .next => ⟨walk.front ++ walk.left.next.1.toList, walk.back, walk.left.next.2⟩
  | .nextBack => ⟨walk.front, walk.left.nextBack.1.toList ++ walk.back, walk.left.nextBack.2⟩
  | .skipForward n =>
      ⟨walk.front ++ (walk.left.skipForward n).1.filterMap (readEntry walk.left.files), walk.back,
        (walk.left.skipForward n).2⟩
  | .skipBackward n =>
      ⟨walk.front, (walk.left.skipBackward n).1.filterMap (readEntry walk.left.files) ++ walk.back,
        (walk.left.skipBackward n).2⟩

def walk (iter : BlockIter) (moves : List Move) : Walk := moves.foldl Walk.step ⟨[], [], iter⟩

/-- The blocks had from the front, those still to come, and those had from the back. -/
def Walk.all (walk : Walk) : List (ℕ × Bytes) := walk.front ++ (walk.left.blocks ++ walk.back)

theorem Walk.step_all {walk : Walk} (sound : walk.left.Sound) (move : Move) :
    (walk.step move).left.Sound ∧ (walk.step move).all = walk.all := by
  cases move with
  | next =>
      rcases sound.next with ⟨after, split, -⟩
      refine ⟨after, ?_⟩
      rw [all, all, split]
      simp [step]
  | nextBack =>
      rcases sound.nextBack with ⟨after, split, -⟩
      refine ⟨after, ?_⟩
      rw [all, all, split]
      simp [step]
  | skipForward n =>
      rcases sound.skipForward n with ⟨after, passed, left⟩
      refine ⟨after, ?_⟩
      simp only [all, step, passed, left, List.append_assoc]
      rw [← List.append_assoc (List.take n _), List.take_append_drop]
  | skipBackward n =>
      rcases sound.skipBackward n with ⟨after, passed, left⟩
      refine ⟨after, ?_⟩
      simp only [all, step, passed, left]
      rw [← List.append_assoc (List.take _ _), List.take_append_drop]

theorem Walk.foldl_all (walk : Walk) (sound : walk.left.Sound) (moves : List Move) :
    (moves.foldl Walk.step walk).left.Sound ∧ (moves.foldl Walk.step walk).all = walk.all := by
  induction moves generalizing walk with
  | nil => exact ⟨sound, rfl⟩
  | cons move rest ih =>
      rcases step_all sound move with ⟨soundAfter, same⟩
      rcases ih _ soundAfter with ⟨soundLast, sameLast⟩
      exact ⟨soundLast, sameLast.trans same⟩

/-- The iterator over some entries of the table, as `get_range` opens it. -/
def opened (files : FlatFileStore) (entries : List (ℕ × List BlockLocation)) : BlockIter :=
  ⟨entries.map some, [], [], files⟩

theorem blocks_opened (files : FlatFileStore) (entries : List (ℕ × List BlockLocation)) :
    (opened files entries).blocks = (flatten entries).filterMap (readEntry files) := by
  simp [blocks, content, opened, flatten, List.flatMap_map, given, expand]

theorem sound_opened {files : FlatFileStore} {entries : List (ℕ × List BlockLocation)}
    (readable : ∀ entry ∈ entries, ∀ location ∈ entry.2, (files.read location).isSome) :
    (opened files entries).Sound := by
  refine ⟨by simp [Decoded, opened], ?_⟩
  intro entry member
  simp only [content, opened, List.nil_append, List.append_nil, List.flatMap_map, given, expand,
    List.mem_flatMap, List.mem_map, List.mem_reverse] at member
  rcases member with ⟨held, isHeld, location, isLocation, rfl⟩
  simpa [readEntry, opened] using readable held isHeld location isLocation

/-- However the calls from the two ends are mixed, what was had from the front is the
beginning of the blocks in chain order and what was had from the back is the end of them,
with what is still to come between the two. Once an end gives nothing the two make up all
of the blocks. -/
theorem two_ended_iteration (files : FlatFileStore) (entries : List (ℕ × List BlockLocation))
    (readable : ∀ entry ∈ entries, ∀ location ∈ entry.2, (files.read location).isSome)
    (moves : List Move) :
    let chain := (flatten entries).filterMap (readEntry files)
    let walked := (opened files entries).walk moves
    chain = walked.front ++ (walked.left.blocks ++ walked.back) ∧
      (walked.left.next.1 = none ∨ walked.left.nextBack.1 = none →
        chain = walked.front ++ walked.back) := by
  intro chain walked
  have whole := Walk.foldl_all ⟨[], [], opened files entries⟩ (sound_opened readable) moves
  have split : chain = walked.front ++ (walked.left.blocks ++ walked.back) := by
    have start := blocks_opened files entries
    simp only [Walk.all, List.nil_append, List.append_nil, start] at whole
    exact whole.2.symm
  refine ⟨split, ?_⟩
  intro exhausted
  have empty : walked.left.blocks = [] := by
    rcases exhausted with front | back
    · exact whole.1.next.2.2 front
    · exact whole.1.nextBack.2.2 back
  rw [split, empty, List.nil_append]

/-- Two blocks of one slot and one of the next, taken from both ends. -/
theorem two_ended_iteration_sharedSlot :
    let files : FlatFileStore := OrderedMap.insert ∅ 0 [1, 2, 3]
    let entries : List (ℕ × List BlockLocation) := [(4, [⟨0, 1, 1⟩, ⟨0, 0, 1⟩]), (5, [⟨0, 2, 1⟩])]
    let walked := (opened files entries).walk [.next, .nextBack, .skipBackward 2]
    (∀ entry ∈ entries, ∀ location ∈ entry.2, (files.read location).isSome) ∧
      [(4, [1]), (4, [2]), (5, [3])] = walked.front ++ (walked.left.blocks ++ walked.back) := by
  intro files entries walked
  have readable : ∀ entry ∈ entries, ∀ location ∈ entry.2, (files.read location).isSome := by
    decide +kernel
  refine ⟨readable, ?_⟩
  have split := (two_ended_iteration files entries readable [.next, .nextBack, .skipBackward 2]).1
  have chain : (flatten entries).filterMap (readEntry files) =
      [(4, [1]), (4, [2]), (5, [3])] := by decide +kernel
  rw [← chain]
  exact split

end Walk

end BlockIter

/-- `get_range` of either archive. -/
def ArchiveStore.rangeIter (archive : ArchiveStore) (start stop : Option ℕ) : BlockIter :=
  BlockIter.opened archive.files (archive.index.entries.filter fun entry =>
    (∀ slot ∈ start, slot ≤ entry.1) ∧ ∀ slot ∈ stop, entry.1 < slot)

/-- Taken from the front to its end, it gives the blocks of the range. -/
theorem ArchiveStore.blocks_rangeIter (archive : ArchiveStore) (start stop : Option ℕ) :
    (archive.rangeIter start stop).blocks = archive.getRange start stop :=
  BlockIter.blocks_opened _ _

end Dolos
