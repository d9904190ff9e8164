import Dolos.Snapshot.NodeLaw

/-!
# Resuming a restore

A restore clears nothing: it relies on every write taking the place of what is there under
its key. Attempts at earlier steles of the chain leave records behind that the stele which
completes has, or overwrites, as long as they committed nothing under a key that is gone
from its tip, and nothing else under a key of a layer that it will skip.
-/

namespace Dolos.Snapshot

open BlockDecoding

variable {V O D : Type}

section Steles

variable (contents : Contents V O D)

/-- The records of the epoch layers. -/
def epochRecords (digests : List D) : List (EpochWrite V) := digests.flatMap contents.epoch

def blocksOf (writes : List (EpochWrite V)) : List (ℕ × Bytes) :=
  writes.filterMap EpochWrite.asBlock?

def epochBlocks (digests : List D) : List (ℕ × Bytes) := blocksOf (epochRecords contents digests)

/-- What an export gives: a key has one value, and the blocks come once each, in the order
of their slots. -/
structure Stele (reading : Reading D) : Prop where
  epochs : ∀ first ∈ epochRecords contents reading.epochs,
    ∀ second ∈ epochRecords contents reading.epochs, first.SameKey second → first = second
  tip : ∀ first ∈ tipRecords contents reading.tip,
    ∀ second ∈ tipRecords contents reading.tip, first.SameKey second → first = second
  once : (epochBlocks contents reading.epochs).Nodup
  inOrder : (epochBlocks contents reading.epochs).Pairwise fun first second => first.1 ≤ second.1

/-- What the chain had already when the earlier stele was made. Blocks follow it, its rows and
index records stay under their keys, and an output does not change. -/
structure Earlier (reading target : Reading D) : Prop where
  blocks : epochBlocks contents reading.epochs <+: epochBlocks contents target.epochs
  known : ∀ write ∈ epochRecords contents reading.epochs,
    ∃ later ∈ epochRecords contents target.epochs, write.SameKey later
  outputs : ∀ txo value other, .utxo txo value ∈ tipRecords contents reading.tip →
    .utxo txo other ∈ tipRecords contents target.tip → value = other

/-- Neither layer has another value under a key of the other. -/
def Agree (first second : D) : Prop :=
  ∀ write ∈ contents.epoch first, ∀ other ∈ contents.epoch second,
    write.SameKey other → write = other

variable {contents} {reading target : Reading D}

theorem Stele.earlier_self (stele : Stele contents target) : Earlier contents target target where
  blocks := List.prefix_rfl
  known write member := ⟨write, member, EpochWrite.SameKey.refl write⟩
  outputs txo value other member otherMember := by
    have same := stele.tip _ member _ otherMember rfl
    cases same
    rfl

theorem mem_epochRecords {digests : List D} {digest : D} (member : digest ∈ digests)
    {write : EpochWrite V} (isIn : write ∈ contents.epoch digest) :
    write ∈ epochRecords contents digests :=
  List.mem_flatMap.mpr ⟨digest, member, isIn⟩

theorem Stele.agree (stele : Stele contents target) {first second : D}
    (memberFirst : first ∈ target.epochs) (memberSecond : second ∈ target.epochs) :
    Agree contents first second := by
  intro write isIn other otherIsIn
  exact stele.epochs write (mem_epochRecords memberFirst isIn) other
    (mem_epochRecords memberSecond otherIsIn)

theorem epochBlocks_append (first second : List D) :
    epochBlocks contents (first ++ second) =
      epochBlocks contents first ++ epochBlocks contents second := by
  rw [epochBlocks, epochRecords, List.flatMap_append, blocksOf, List.filterMap_append]
  rfl

theorem epochBlocks_isPrefix {first second : List D} (begins : first <+: second) :
    epochBlocks contents first <+: epochBlocks contents second := by
  rcases begins with ⟨rest, rfl⟩
  rw [epochBlocks_append]
  exact List.prefix_append _ _

theorem epochBlocks_singleton (digest : D) :
    epochBlocks contents [digest] = blocksOf (contents.epoch digest) := by
  rw [epochBlocks, epochRecords, List.flatMap_singleton]

theorem flatten_take_isPrefix {A : Type} (chunks : List (List A)) (taken : ℕ) :
    (chunks.take taken).flatten <+: chunks.flatten := by
  refine ⟨(chunks.drop taken).flatten, ?_⟩
  rw [← List.flatten_append, List.take_append_drop]

theorem chunkRecords_isPrefix {A : Type} (budget : Budget) (size : A → ℕ) (records : List A)
    (chunks : ℕ) : chunkRecords budget size records chunks <+: records := by
  have begins := flatten_take_isPrefix (gather (budget.full size) [] records) chunks
  rw [flatten_gather] at begins
  exact begins

end Steles

variable [DecidableEq D] (contents : Contents V O D) (target : Reading D)

/-- The layers an attempt comes to before it is cut. -/
def RestoreAttempt.reached (attempt : RestoreAttempt D) : List D :=
  match attempt.cut with
  | .epochs layers _ => attempt.reading.epochs.take (layers + 1)
  | _ => attempt.reading.epochs

/-- An attempt that leaves nothing behind which the target does not overwrite. -/
structure LeavesNothing (attempt : RestoreAttempt D) (progress : Progress V O D) : Prop where
  tip : ∀ write ∈ committedTip contents attempt.reading attempt.budget attempt.cut,
    ∃ later ∈ tipRecords contents target.tip, write.SameKey later
  epochs : ∀ digest ∈ attempt.reached, digest ∉ (progress.opened attempt.resume).recorded →
    ∀ later ∈ target.epochs,
      (later ∈ (progress.opened attempt.resume).recorded ∨ later ∈ attempt.reached) →
        Agree contents digest later

/-- The stores and the checkpoint after attempts that were all cut. -/
inductive Attempts [BlockDecoding O] : Progress V O D → Prop
  | start : Attempts .empty
  | attempt {progress : Progress V O D} {attempt : RestoreAttempt D} :
      Attempts progress → Earlier contents attempt.reading target →
      LeavesNothing contents target attempt progress →
      Attempts (attempt.run contents progress)

/-- What holds of the stores at any time. -/
structure Underway [BlockDecoding O] (progress : Progress V O D) : Prop where
  begins : progress.node.blocks <+: epochBlocks contents target.epochs
  archived : ∀ digest ∈ progress.recorded,
    blocksOf (contents.epoch digest) ⊆ progress.node.blocks
  covered : ∀ write, progress.node.HoldsEpoch write →
    ∃ later ∈ epochRecords contents target.epochs, write.SameKey later
  kept : ∀ digest ∈ progress.recorded, digest ∈ target.epochs →
    ∀ write ∈ contents.epoch digest, progress.node.HoldsEpoch write
  tip : ∀ write, progress.node.HoldsTip write →
    ∃ later ∈ tipRecords contents target.tip, write.SameKey later
  outputs : ∀ txo value, progress.node.utxos.get? txo = some value →
    .utxo txo value ∈ tipRecords contents target.tip
  tags : ∀ entry ∈ progress.node.indexes.utxoTags,
    ∃ body, .utxo entry.2 body ∈ tipRecords contents target.tip ∧
      entry.1 ∈ extractUtxoTags (output body)

namespace Underway

variable [BlockDecoding O] {contents target} {progress : Progress V O D}

section

omit [DecidableEq D]

theorem empty : Underway contents target (.empty : Progress V O D) where
  begins := List.nil_prefix
  archived digest member := by cases member
  covered write holds := by
    cases write <;> simp [Progress.empty, Node.empty, Node.HoldsEpoch, LogTables.empty] at holds
  kept digest member := by cases member
  tip write holds := by
    cases write <;> simp [Progress.empty, Node.empty, Node.HoldsTip] at holds
  outputs txo value held := by
    simp [Progress.empty, Node.empty] at held
  tags entry member := by
    simp [Progress.empty, Node.empty] at member

theorem opened (underway : Underway contents target progress) (resume : Bool) :
    Underway contents target (progress.opened resume) := by
  cases resume with
  | true => exact underway
  | false =>
      refine ⟨underway.begins, ?_, underway.covered, ?_, underway.tip, underway.outputs,
        underway.tags⟩
      · intro digest member
        cases member
      · intro digest member
        cases member

/-- The next records of an epoch layer. -/
theorem writes (underway : Underway contents target progress) (stele : Stele contents target)
    {before : List (ℕ × Bytes)} {writes : List (EpochWrite V)}
    (isHeld : before ⊆ progress.node.blocks)
    (next : before ++ blocksOf writes <+: epochBlocks contents target.epochs)
    (known : ∀ write ∈ writes,
      ∃ later ∈ epochRecords contents target.epochs, write.SameKey later)
    (agrees : ∀ write ∈ writes, ∀ digest ∈ progress.recorded, digest ∈ target.epochs →
      ∀ other ∈ contents.epoch digest, write.SameKey other → write = other) :
    Underway contents target
      { progress with node := writes.foldl Node.writeEpoch progress.node } := by
  have sameTip := Node.sameTip_writeEpochs progress.node writes
  have blocks := Node.blocks_writeEpochs progress.node writes
  refine ⟨?_, ?_, ?_, ?_, ?_, ?_, ?_⟩
  · rw [blocks]
    exact foldl_storeOnce_isPrefix stele.once stele.inOrder underway.begins isHeld next
  · intro digest member block isIn
    rw [blocks, mem_foldl_storeOnce]
    exact Or.inr (underway.archived digest member isIn)
  · intro write holds
    rcases Node.epochStore.holds_writeAll_cases holds with isNew | before
    · exact known write isNew
    · exact underway.covered write before
  · intro digest member isTarget write isIn
    apply Node.epochStore.holds_writeAll_of_holds (underway.kept digest member isTarget write isIn)
    intro written isWritten same
    exact agrees written isWritten digest member isTarget write isIn same
  · intro write holds
    exact underway.tip write ((sameTip.holds write).mp holds)
  · intro txo value held
    rw [sameTip.utxos] at held
    exact underway.outputs txo value held
  · intro entry member
    rw [sameTip.utxoTags] at member
    exact underway.tags entry member

/-- Records of the tip. -/
theorem tips (underway : Underway contents target progress) {writes : List (TipWrite V O)}
    (known : ∀ write ∈ writes, ∃ later ∈ tipRecords contents target.tip, write.SameKey later)
    (outputs : ∀ txo value, .utxo txo value ∈ writes →
      .utxo txo value ∈ tipRecords contents target.tip) :
    Underway contents target
      { progress with node := writes.foldl Node.writeTip progress.node } := by
  rcases Node.writeTips_eq progress.node writes with ⟨-, indexes, sameEpochs⟩
  refine ⟨?_, ?_, ?_, ?_, ?_, ?_, ?_⟩
  · rw [sameEpochs.blocks]
    exact underway.begins
  · intro digest member
    rw [sameEpochs.blocks]
    exact underway.archived digest member
  · intro write holds
    exact underway.covered write ((sameEpochs.holds write).mp holds)
  · intro digest member isTarget write isIn
    exact (sameEpochs.holds write).mpr (underway.kept digest member isTarget write isIn)
  · intro write holds
    rcases Node.tipStore.holds_writeAll_cases holds with isNew | before
    · exact known write isNew
    · exact underway.tip write before
  · intro txo value held
    have holds : Node.tipStore.Holds (writes.foldl Node.writeTip progress.node)
      (.utxo txo value) := held
    rcases Node.tipStore.holds_writeAll_cases holds with isNew | before
    · exact outputs txo value isNew
    · exact underway.outputs txo value before
  · intro entry member
    rw [indexes] at member
    exact underway.tags entry member

/-- Chunks of the unspent outputs. -/
theorem tagged (underway : Underway contents target progress) (point : ChainPoint)
    (budget : Budget) (chunks : ℕ) :
    Underway contents target { progress with
      node := tagChunks point progress.node
        ((utxoChunks budget progress.node.utxos).take chunks) } := by
  have sameEpochs := (tagChunks_eq point progress.node
    ((utxoChunks budget progress.node.utxos).take chunks)).2
  refine ⟨underway.begins, underway.archived, ?_, ?_, underway.tip, underway.outputs, ?_⟩
  · intro write holds
    exact underway.covered write ((sameEpochs.holds write).mp holds)
  · intro digest member isTarget write isIn
    exact (sameEpochs.holds write).mpr (underway.kept digest member isTarget write isIn)
  · intro entry member
    have begins := flatten_take_isPrefix (utxoChunks budget progress.node.utxos) chunks
    rw [flatten_utxoChunks] at begins
    have nodup := progress.node.utxos.nodup_keys.sublist (begins.sublist.map Prod.fst)
    rcases (mem_utxoTags_tagChunks nodup).mp member with ⟨body, isHeld, isTag⟩ | before
    · have held := OrderedMap.mem_entries_iff.mp (begins.subset isHeld)
      exact ⟨body, underway.outputs entry.2 body held, isTag⟩
    · exact underway.tags entry before

end

theorem fetch (underway : Underway contents target progress) (stele : Stele contents target)
    {before : List (ℕ × Bytes)} {digest : D} (isHeld : before ⊆ progress.node.blocks)
    (next : before ++ blocksOf (contents.epoch digest) <+: epochBlocks contents target.epochs)
    (known : ∀ write ∈ contents.epoch digest,
      ∃ later ∈ epochRecords contents target.epochs, write.SameKey later)
    (agrees : digest ∉ progress.recorded → ∀ later ∈ target.epochs,
      (later ∈ progress.recorded ∨ later = digest) → Agree contents digest later) :
    Underway contents target (Snapshot.fetch contents progress digest) ∧
      before ++ blocksOf (contents.epoch digest) ⊆
        (Snapshot.fetch contents progress digest).node.blocks := by
  rw [Snapshot.fetch]
  split_ifs with isRecorded
  · exact ⟨underway, List.append_subset.mpr ⟨isHeld, underway.archived digest isRecorded⟩⟩
  · have agreesNew := agrees isRecorded
    have written := underway.writes stele isHeld next known
      fun write isIn later member isTarget other otherIsIn =>
        agreesNew later isTarget (Or.inl member) write isIn other otherIsIn
    have blocks := Node.blocks_writeEpochs progress.node (contents.epoch digest)
    have stored : before ++ blocksOf (contents.epoch digest) ⊆
        (writeEpochLayer contents progress.node digest).blocks := by
      intro block member
      rw [writeEpochLayer, blocks, mem_foldl_storeOnce]
      rcases List.mem_append.mp member with earlier | isIn
      · exact Or.inr (isHeld earlier)
      · exact Or.inl isIn
    refine ⟨⟨written.begins, ?_, written.covered, ?_, written.tip, written.outputs,
      written.tags⟩, stored⟩
    · intro other member
      rcases List.mem_cons.mp member with rfl | isEarlier
      · exact (List.append_subset.mp stored).2
      · exact written.archived other isEarlier
    · intro other member isTarget write isIn
      rcases List.mem_cons.mp member with rfl | isEarlier
      · apply Node.epochStore.holds_writeAll_of_mem isIn
        intro first isFirst same
        exact agreesNew other isTarget (Or.inr rfl) first isFirst write isIn same
      · exact written.kept other isEarlier isTarget write isIn

end Underway

theorem mem_recorded_fetch {progress : Progress V O D} {digest other : D} :
    other ∈ (fetch contents progress digest).recorded ↔
      other = digest ∨ other ∈ progress.recorded := by
  rw [fetch]
  split_ifs with isRecorded
  · constructor
    · exact Or.inr
    · rintro (rfl | member)
      · exact isRecorded
      · exact member
  · exact List.mem_cons

theorem mem_recorded_fetchAll {progress : Progress V O D} {digests : List D} {other : D} :
    other ∈ (fetchAll contents progress digests).recorded ↔
      other ∈ digests ∨ other ∈ progress.recorded := by
  induction digests generalizing progress with
  | nil => simp [fetchAll]
  | cons digest rest ih =>
      have step : fetchAll contents progress (digest :: rest) =
        fetchAll contents (fetch contents progress digest) rest := rfl
      rw [step, ih, mem_recorded_fetch, List.mem_cons]
      tauto

namespace Underway

variable [BlockDecoding O] {contents target} {progress : Progress V O D}

/-- The next layers of a stele, after those the attempt has come past. -/
theorem fetchAll (underway : Underway contents target progress) (stele : Stele contents target)
    (past : List D) {digests : List D}
    (isHeld : epochBlocks contents past ⊆ progress.node.blocks)
    (next : epochBlocks contents (past ++ digests) <+: epochBlocks contents target.epochs)
    (known : ∀ write ∈ epochRecords contents digests,
      ∃ later ∈ epochRecords contents target.epochs, write.SameKey later)
    (agrees : ∀ digest ∈ digests, digest ∉ progress.recorded → ∀ later ∈ target.epochs,
      (later ∈ progress.recorded ∨ later ∈ digests) → Agree contents digest later) :
    Underway contents target (Snapshot.fetchAll contents progress digests) ∧
      epochBlocks contents (past ++ digests) ⊆
        (Snapshot.fetchAll contents progress digests).node.blocks := by
  induction digests generalizing progress past with
  | nil =>
      rw [List.append_nil]
      exact ⟨underway, isHeld⟩
  | cons digest rest ih =>
      have split : past ++ digest :: rest = (past ++ [digest]) ++ rest := by
        rw [List.append_assoc]
        rfl
      rw [split] at next ⊢
      have blocksEq : epochBlocks contents (past ++ [digest]) =
          epochBlocks contents past ++ blocksOf (contents.epoch digest) := by
        rw [epochBlocks_append, epochBlocks_singleton]
      have nextLayer : epochBlocks contents past ++ blocksOf (contents.epoch digest) <+:
          epochBlocks contents target.epochs := by
        rw [← blocksEq]
        exact (epochBlocks_isPrefix (List.prefix_append _ rest)).trans next
      rcases underway.fetch stele isHeld nextLayer
        (fun write isIn => known write (mem_epochRecords List.mem_cons_self isIn))
        (fun isNew later isTarget early => agrees digest List.mem_cons_self isNew later isTarget
          (early.imp_right fun same => List.mem_cons.mpr (Or.inl same))) with ⟨fetched, stored⟩
      apply ih fetched (past ++ [digest])
      · rw [blocksEq]
        exact stored
      · exact next
      · intro write member
        rcases List.mem_flatMap.mp member with ⟨other, isIn, isWrite⟩
        exact known write (mem_epochRecords (List.mem_cons_of_mem digest isIn) isWrite)
      · intro other isIn isNew later isTarget early
        rw [mem_recorded_fetch] at isNew early
        refine agrees other (List.mem_cons_of_mem digest isIn) (fun held => isNew (Or.inr held))
          later isTarget ?_
        rcases early with (rfl | held) | isLater
        · exact Or.inr List.mem_cons_self
        · exact Or.inl held
        · exact Or.inr (List.mem_cons_of_mem digest isLater)

end Underway

section Runs

variable [BlockDecoding O] {contents target} {progress : Progress V O D}
  {attempt : RestoreAttempt D}

omit [DecidableEq D] [BlockDecoding O] in
theorem committedTip_subset (reading : Reading D) (budget : Budget) (cut : CutPoint) :
    committedTip contents reading budget cut ⊆ tipRecords contents reading.tip := by
  intro write member
  cases cut with
  | epochs layers chunks => cases member
  | tip layers chunks =>
      rcases List.mem_append.mp member with whole | cutOff
      · rcases List.mem_flatMap.mp whole with ⟨digest, isIn, isWrite⟩
        exact List.mem_flatMap.mpr ⟨digest, List.mem_of_mem_take isIn, isWrite⟩
      · cases found : reading.tip[layers]? with
        | none => simp [found] at cutOff
        | some digest =>
            simp only [found] at cutOff
            exact List.mem_flatMap.mpr ⟨digest, List.mem_of_getElem? found,
              (chunkRecords_isPrefix budget _ _ _).subset cutOff⟩
  | rebuild chunks => exact member

omit [DecidableEq D] in
theorem Underway.committed (underway : Underway contents target progress)
    (earlier : Earlier contents attempt.reading target)
    (known : ∀ write ∈ committedTip contents attempt.reading attempt.budget attempt.cut,
      ∃ later ∈ tipRecords contents target.tip, write.SameKey later) :
    Underway contents target { progress with
      node := (committedTip contents attempt.reading attempt.budget attempt.cut).foldl
        Node.writeTip progress.node } := by
  apply underway.tips known
  intro txo value member
  rcases known _ member with ⟨later, isLater, same⟩
  cases later with
  | entity ns key other => cases same
  | utxo other body =>
      have sameTxo : txo = other := same
      subst sameTxo
      rw [earlier.outputs txo value body (committedTip_subset _ _ _ member) isLater]
      exact isLater

/-- The layers an attempt fetches whole. -/
theorem Underway.reach (underway : Underway contents target progress)
    (stele : Stele contents target) (earlier : Earlier contents attempt.reading target)
    (leaves : LeavesNothing contents target attempt progress) {digests : List D}
    (isReached : digests <+: attempt.reached) (isRead : digests <+: attempt.reading.epochs) :
    Underway contents target
        (Snapshot.fetchAll contents (progress.opened attempt.resume) digests) ∧
      epochBlocks contents digests ⊆
        (Snapshot.fetchAll contents (progress.opened attempt.resume) digests).node.blocks := by
  have readBlocks : epochBlocks contents digests <+: epochBlocks contents target.epochs :=
    (epochBlocks_isPrefix isRead).trans earlier.blocks
  refine (underway.opened attempt.resume).fetchAll stele [] (List.nil_subset _) readBlocks ?_ ?_
  · intro write member
    rcases List.mem_flatMap.mp member with ⟨digest, isIn, isWrite⟩
    exact earlier.known write (mem_epochRecords (isRead.subset isIn) isWrite)
  · intro digest isIn isNew later isTarget early
    exact leaves.epochs digest (isReached.subset isIn) isNew later isTarget
      (early.imp_right fun isLater => isReached.subset isLater)

/-- One attempt, wherever it is cut. -/
theorem Underway.run (underway : Underway contents target progress)
    (stele : Stele contents target) (earlier : Earlier contents attempt.reading target)
    (leaves : LeavesNothing contents target attempt progress) :
    Underway contents target (attempt.run contents progress) := by
  rcases attempt with ⟨reading, resume, budget, cut⟩
  cases cut with
  | epochs layers chunks =>
      have taken : reading.epochs.take layers <+: reading.epochs.take (layers + 1) :=
        List.take_prefix_take_left (Nat.le_succ layers)
      rcases underway.reach stele earlier leaves taken (List.take_prefix _ _) with
        ⟨fetched, stored⟩
      simp only [RestoreAttempt.run, restoreSome]
      cases found : reading.epochs[layers]? with
      | none => exact fetched
      | some digest =>
          have takeEq : reading.epochs.take (layers + 1) =
              reading.epochs.take layers ++ [digest] := by
            rw [List.take_add_one, found]
            rfl
          have isRead : digest ∈ reading.epochs := List.mem_of_getElem? found
          have isReached : digest ∈ reading.epochs.take (layers + 1) := by
            rw [takeEq]
            exact List.mem_append_right _ (List.mem_singleton_self digest)
          have begins := chunkRecords_isPrefix budget contents.epochSize
            (contents.epoch digest) chunks
          simp only [fetchSome]
          split_ifs with isRecorded
          · exact fetched
          · refine fetched.writes stele stored ?_ ?_ ?_
            · have whole :=
                (epochBlocks_isPrefix (List.take_prefix (layers + 1) reading.epochs)).trans
                earlier.blocks
              rw [takeEq, epochBlocks_append, epochBlocks_singleton] at whole
              refine List.IsPrefix.trans ?_ whole
              rw [List.prefix_append_right_inj]
              exact begins.filterMap _
            · intro write member
              exact earlier.known write (mem_epochRecords isRead (begins.subset member))
            · intro write member later isRecordedLater isTarget other isOther
              rw [mem_recorded_fetchAll] at isRecorded isRecordedLater
              refine leaves.epochs digest isReached (fun held => isRecorded (Or.inr held)) later
                isTarget ?_ write (begins.subset member) other isOther
              rcases isRecordedLater with isTaken | held
              · exact Or.inr (taken.subset isTaken)
              · exact Or.inl held
  | tip layers chunks =>
      have fetched := (underway.reach stele earlier leaves List.prefix_rfl List.prefix_rfl).1
      exact fetched.committed earlier leaves.tip
  | rebuild chunks =>
      have fetched := (underway.reach stele earlier leaves List.prefix_rfl List.prefix_rfl).1
      exact (fetched.committed earlier leaves.tip).tagged reading.point budget chunks

theorem Attempts.underway (attempts : Attempts contents target progress)
    (stele : Stele contents target) : Underway contents target progress := by
  induction attempts with
  | start => exact .empty
  | attempt _ earlier leaves ih => exact ih.run stele earlier leaves

variable (contents target)

/-- The stores of a node that has the stele and nothing else. -/
structure RestoredTo (node : Node V O) : Prop where
  cursor : node.cursor = some target.point
  indexCursor : node.indexes.cursor = some target.point
  blocks : node.blocks = epochBlocks contents target.epochs
  epochs : ∀ write, node.HoldsEpoch write ↔ write ∈ epochRecords contents target.epochs
  tip : ∀ write, node.HoldsTip write ↔ write ∈ tipRecords contents target.tip
  tags : ∀ entry, entry ∈ node.indexes.utxoTags ↔
    ∃ body, .utxo entry.2 body ∈ tipRecords contents target.tip ∧
      entry.1 ∈ extractUtxoTags (output body)

variable {contents target}

omit [DecidableEq D] in
theorem RestoredTo.unique {first second : Node V O} (isFirst : RestoredTo contents target first)
    (isSecond : RestoredTo contents target second) : first = second := by
  apply Node.eq_of_holds
  · rw [isFirst.cursor, isSecond.cursor]
  · rw [isFirst.indexCursor, isSecond.indexCursor]
  · rw [isFirst.blocks, isSecond.blocks]
  · intro write
    rw [isFirst.epochs, isSecond.epochs]
  · intro write
    rw [isFirst.tip, isSecond.tip]
  · apply Finset.ext
    intro entry
    rw [isFirst.tags, isSecond.tags]

/-- An attempt of the target that completes, whatever was underway before it. -/
theorem Underway.restore (underway : Underway contents target progress)
    (stele : Stele contents target) (budget : Budget) :
    RestoredTo contents target (Snapshot.restore contents target budget progress) := by
  rcases underway.fetchAll stele [] (List.nil_subset _) List.prefix_rfl
    stele.earlier_self.known (fun digest isIn _ later isTarget _ => stele.agree isIn isTarget)
    with ⟨fetched, stored⟩
  rw [List.nil_append] at stored
  have tipped := fetched.tips (fun write member => ⟨write, member, TipWrite.SameKey.refl write⟩)
    (fun _ _ member => member)
  have tipComplete : ∀ write ∈ tipRecords contents target.tip, Node.tipStore.Holds
      ((tipRecords contents target.tip).foldl Node.writeTip
        (Snapshot.fetchAll contents progress target.epochs).node) write :=
    fun write member => Node.tipStore.holds_writeAll_of_mem member
      fun written isWritten same => stele.tip written isWritten write member same
  rcases Node.writeTips_eq (Snapshot.fetchAll contents progress target.epochs).node
    (tipRecords contents target.tip) with ⟨-, -, tipEpochs⟩
  generalize tipEq : (tipRecords contents target.tip).foldl Node.writeTip
    (Snapshot.fetchAll contents progress target.epochs).node = tip at *
  have restoreEq : Snapshot.restore contents target budget progress =
      { rebuildUtxoIndexes budget target.point tip with cursor := some target.point } := by
    rw [Snapshot.restore, tipEq]
  rcases tagChunks_eq target.point tip (utxoChunks budget tip.utxos) with
    ⟨indexCursor, tagEpochs⟩
  rw [if_neg (utxoChunks_ne_nil budget tip.utxos)] at indexCursor
  rw [restoreEq]
  refine ⟨rfl, indexCursor, ?_, ?_, ?_, ?_⟩
  · change tip.blocks = _
    rw [tipEpochs.blocks]
    exact eq_of_isPrefix_of_subset stele.once fetched.begins stored
  · intro write
    have holdsEq : Node.HoldsEpoch { rebuildUtxoIndexes budget target.point tip with
        cursor := some target.point } write ↔
        (Snapshot.fetchAll contents progress target.epochs).node.HoldsEpoch write := by
      rw [← tipEpochs.holds, ← tagEpochs.holds]
      cases write <;> rfl
    rw [holdsEq]
    apply Node.epochStore.holds_iff_mem fetched.covered
    intro known member
    rcases List.mem_flatMap.mp member with ⟨digest, isIn, isWrite⟩
    exact fetched.kept digest ((mem_recorded_fetchAll contents).mpr (Or.inl isIn))
      isIn known isWrite
  · intro write
    have holdsEq : Node.HoldsTip { rebuildUtxoIndexes budget target.point tip with
        cursor := some target.point } write ↔ tip.HoldsTip write := by
      cases write <;> rfl
    rw [holdsEq]
    exact Node.tipStore.holds_iff_mem tipped.tip tipComplete
  · intro entry
    have nodup : ((utxoChunks budget tip.utxos).flatten.map Prod.fst).Nodup := by
      rw [flatten_utxoChunks]
      exact tip.utxos.nodup_keys
    refine (mem_utxoTags_tagChunks nodup).trans ?_
    rw [flatten_utxoChunks]
    constructor
    · rintro (⟨body, isHeld, isTag⟩ | before)
      · have held := OrderedMap.mem_entries_iff.mp isHeld
        exact ⟨body, tipped.outputs entry.2 body held, isTag⟩
      · exact tipped.tags entry before
    · rintro ⟨body, isIn, isTag⟩
      have held := OrderedMap.mem_entries_iff.mpr (tipComplete _ isIn)
      exact Or.inl ⟨body, held, isTag⟩

/-- A restore that resumes ends with the stores of a restore into empty ones, if each attempt
before it left nothing that is not overwritten. -/
theorem resumed_restore_eq_fresh (stele : Stele contents target)
    (attempts : Attempts contents target progress) (resume : Bool) (budget fresh : Budget) :
    restore contents target budget (progress.opened resume) =
      restore contents target fresh .empty := by
  have underway := (attempts.underway stele).opened resume
  exact (underway.restore stele budget).unique (Underway.empty.restore stele fresh)

end Runs

section Samples

attribute [local instance] BlockDecoding.byron

/-- A block, a spent output and a pending reward, and the block and the output that came
later. -/
def spentContents : Contents ℕ ℕ ℕ where
  epoch
    | 0 => [.block 1 [1]]
    | 1 => [.block 2 [2]]
    | _ => []
  tip
    | 2 => [.entity .pendingRewards 7 9]
    | 3 => [.utxo (toLex (1, 0)) 5]
    | 4 => [.utxo (toLex (2, 0)) 5]
    | _ => []
  epochSize _ := 1
  tipSize _ := 1

def beforeSpending : Reading ℕ := ⟨[0], [2, 3], .specific 1 1⟩

def afterSpending : Reading ℕ := ⟨[0, 1], [4], .specific 2 2⟩

/-- Cut when the tip was there. -/
def abandonedTip : RestoreAttempt ℕ := ⟨beforeSpending, true, ⟨1, 1⟩, .tip 2 0⟩

theorem stele_beforeSpending : Stele spentContents beforeSpending where
  epochs := by simp [epochRecords, beforeSpending, spentContents]
  tip := by simp [tipRecords, beforeSpending, spentContents, TipWrite.SameKey]
  once := by decide
  inOrder := by decide

theorem stele_afterSpending : Stele spentContents afterSpending where
  epochs := by simp [epochRecords, afterSpending, spentContents, EpochWrite.SameKey]
  tip := by simp [tipRecords, afterSpending, spentContents]
  once := by decide
  inOrder := by decide

theorem earlier_beforeSpending : Earlier spentContents beforeSpending afterSpending where
  blocks := by decide
  known := by simp [epochRecords, beforeSpending, afterSpending, spentContents, EpochWrite.SameKey]
  outputs := by
    simp only [tipRecords, beforeSpending, afterSpending, spentContents]
    simp +contextual

/-- The output that was spent in between and the reward that was paid out are still there when
the newer stele has been restored. -/
theorem abandoned_tip_survives :
    Stele spentContents beforeSpending ∧ Stele spentContents afterSpending ∧
      Earlier spentContents abandonedTip.reading afterSpending ∧
      (restore spentContents afterSpending ⟨1, 1⟩
          (abandonedTip.run spentContents .empty)).utxos.get? (toLex (1, 0)) = some 5 ∧
      (restore spentContents afterSpending ⟨1, 1⟩ .empty).utxos.get? (toLex (1, 0)) = none ∧
      ((restore spentContents afterSpending ⟨1, 1⟩
          (abandonedTip.run spentContents .empty)).entities .pendingRewards).get? 7 = some 9 ∧
      ((restore spentContents afterSpending ⟨1, 1⟩ .empty).entities .pendingRewards).get? 7 =
        none := by
  refine ⟨stele_beforeSpending, stele_afterSpending, earlier_beforeSpending, ?_⟩
  decide +kernel

/-- The older tip has an output and two accounts that the newer one has as well, and after them a
reward that is paid out by then. -/
def heldContents : Contents ℕ ℕ ℕ where
  epoch := spentContents.epoch
  tip
    | 2 => [.entity .pendingRewards 7 9]
    | 3 => [.utxo (toLex (1, 0)) 5]
    | 4 => [.utxo (toLex (1, 0)) 5, .utxo (toLex (2, 0)) 5]
    | 5 => [.entity .accounts 7 9, .entity .accounts 8 1]
    | 6 => [.entity .accounts 7 10, .entity .accounts 8 2]
    | _ => []
  epochSize _ := 1
  tipSize _ := 1

def older : Reading ℕ := ⟨[0], [3, 5, 2], .specific 1 1⟩

def newer : Reading ℕ := ⟨[0, 1], [4, 6], .specific 2 2⟩

/-- Cut inside the tip, after the first account. -/
def abandonedAccounts : RestoreAttempt ℕ := ⟨older, true, ⟨1, 1⟩, .tip 1 1⟩

theorem stele_newer : Stele heldContents newer where
  epochs := by
    simp [epochRecords, newer, heldContents, spentContents, EpochWrite.SameKey]
  tip := by
    simp [tipRecords, newer, heldContents, TipWrite.SameKey]
  once := by decide
  inOrder := by decide

theorem earlier_older : Earlier heldContents older newer where
  blocks := by decide
  known := by
    simp [epochRecords, older, newer, heldContents, spentContents, EpochWrite.SameKey]
  outputs := by
    simp only [tipRecords, older, newer, heldContents]
    simp +contextual

theorem leavesNothing_abandonedAccounts :
    LeavesNothing heldContents newer abandonedAccounts .empty where
  tip := by
    have committed : committedTip heldContents older ⟨1, 1⟩ (.tip 1 1) =
        [.utxo (toLex (1, 0)) 5, .entity .accounts 7 9] := by
      rfl
    intro write member
    change write ∈ committedTip heldContents older ⟨1, 1⟩ (.tip 1 1) at member
    rw [committed] at member
    rcases List.mem_pair.mp member with rfl | rfl
    · exact ⟨.utxo (toLex (1, 0)) 5, by simp [tipRecords, newer, heldContents], rfl⟩
    · exact ⟨.entity .accounts 7 10, by simp [tipRecords, newer, heldContents], rfl, rfl⟩
  epochs := by
    simp [RestoreAttempt.reached, abandonedAccounts, older, newer, Agree, heldContents,
      spentContents, Progress.opened, Progress.empty]

/-- What the cut attempt has committed of the tip is there when it is taken up again, and
overwritten in the end. -/
theorem resumed_restore_eq_fresh_spending :
    (abandonedAccounts.run heldContents .empty).recorded = [0] ∧
      ((abandonedAccounts.run heldContents .empty).node.entities .accounts).get? 7 = some 9 ∧
      ((restore heldContents newer ⟨1, 1⟩
        (abandonedAccounts.run heldContents .empty)).entities .accounts).get? 7 = some 10 ∧
      restore heldContents newer ⟨1, 1⟩ (abandonedAccounts.run heldContents .empty) =
        restore heldContents newer ⟨2, 2⟩ .empty := by
  have same := resumed_restore_eq_fresh stele_newer
    (.attempt .start earlier_older leavesNothing_abandonedAccounts) true ⟨1, 1⟩ ⟨2, 2⟩
  exact ⟨by decide, by decide +kernel, by decide +kernel, same⟩

end Samples

end Dolos.Snapshot
