import Dolos.Snapshot.Node

/-!
# Restoring a stele

`restore` of `snapshot/src/restore.rs`: the epoch layers one after the other, each skipped
when the checkpoint has its digest, then every layer of the tip, then the tags of the
unspent outputs, and the cursor last. A layer is committed chunk by chunk, so an attempt
can be cut after any chunk of it; a layer is recorded once all of it is committed.

A digest stands for the records it names.
-/

namespace Dolos.Snapshot

variable {V O D : Type}

/-- What is committed at a time. -/
structure Budget where
  commitRecords : ℕ
  commitBytes : ℕ
  deriving DecidableEq, Repr

namespace Budget

def full {A : Type} (budget : Budget) (size : A → ℕ) (chunk : List A) : Bool :=
  budget.commitRecords ≤ chunk.length || budget.commitBytes ≤ (chunk.map size).sum

end Budget

/-- The chunks of a stream, the last of them possibly empty. -/
def gather {A : Type} (full : List A → Bool) : List A → List A → List (List A)
  | chunk, [] => [chunk]
  | chunk, item :: rest =>
      if full (chunk ++ [item]) then (chunk ++ [item]) :: gather full [] rest
      else gather full (chunk ++ [item]) rest

theorem flatten_gather {A : Type} (full : List A → Bool) (chunk items : List A) :
    (gather full chunk items).flatten = chunk ++ items := by
  induction items generalizing chunk with
  | nil => simp [gather]
  | cons item rest ih =>
      rw [gather]
      split_ifs
      · rw [List.flatten_cons, ih, List.nil_append, List.append_assoc]
        rfl
      · rw [ih, List.append_assoc]
        rfl

/-- The records behind the digests, with the bytes they are counted as. -/
structure Contents (V O D : Type) where
  epoch : D → List (EpochWrite V)
  tip : D → List (TipWrite V O)
  epochSize : EpochWrite V → ℕ
  tipSize : TipWrite V O → ℕ

/-- The layers of a stele in the order they are read. -/
structure Reading (D : Type) where
  epochs : List D
  tip : List D
  point : ChainPoint

/-- The stores with the checkpoint. -/
structure Progress (V O D : Type) where
  node : Node V O
  recorded : List D

section Attempts

variable [DecidableEq D] (contents : Contents V O D)

def writeEpochLayer (node : Node V O) (digest : D) : Node V O :=
  (contents.epoch digest).foldl Node.writeEpoch node

/-- `Checkpoint::fetch`. -/
def fetch (progress : Progress V O D) (digest : D) : Progress V O D :=
  if digest ∈ progress.recorded then progress
  else ⟨writeEpochLayer contents progress.node digest, digest :: progress.recorded⟩

/-- The records of some chunks of a layer. -/
def chunkRecords {A : Type} (budget : Budget) (size : A → ℕ) (records : List A) (chunks : ℕ) :
    List A :=
  ((gather (budget.full size) [] records).take chunks).flatten

/-- A layer that is cut. -/
def fetchSome (budget : Budget) (progress : Progress V O D) (digest : D) (chunks : ℕ) :
    Progress V O D :=
  if digest ∈ progress.recorded then progress
  else { progress with
    node := (chunkRecords budget contents.epochSize (contents.epoch digest) chunks).foldl
      Node.writeEpoch progress.node }

def fetchAll (progress : Progress V O D) (digests : List D) : Progress V O D :=
  digests.foldl (fetch contents) progress

/-- The tip records of whole layers. -/
def tipRecords (digests : List D) : List (TipWrite V O) := digests.flatMap contents.tip

/-- Where an attempt is cut: after so many whole layers and some chunks of the next. -/
inductive CutPoint where
  | epochs (layers chunks : ℕ)
  | tip (layers chunks : ℕ)
  | rebuild (chunks : ℕ)
  deriving DecidableEq, Repr

/-- The tip records an attempt has committed. -/
def committedTip (reading : Reading D) (budget : Budget) : CutPoint → List (TipWrite V O)
  | .epochs _ _ => []
  | .tip layers chunks =>
      tipRecords contents (reading.tip.take layers) ++
        (match reading.tip[layers]? with
        | none => []
        | some digest => chunkRecords budget contents.tipSize (contents.tip digest) chunks)
  | .rebuild _ => tipRecords contents reading.tip

/-- One try at one stele. Without resume the checkpoint starts empty. -/
structure RestoreAttempt (D : Type) where
  reading : Reading D
  resume : Bool
  budget : Budget
  cut : CutPoint

def Progress.empty : Progress V O D := ⟨.empty, []⟩

def Progress.opened (progress : Progress V O D) (resume : Bool) : Progress V O D :=
  if resume then progress else { progress with recorded := [] }

variable [BlockDecoding O]

/-- The tags of one chunk of outputs, and the cursor with them. -/
def tagChunk (point : ChainPoint) (indexes : IndexStore) (chunk : List (TxoRef × O)) :
    IndexStore :=
  indexes.apply (indexDeltaFromUtxoDelta point { (.default : UtxoSetDelta O) with
    producedUtxo := .ofList chunk })

/-- The chunks the unspent outputs are tagged in. Only records are counted. -/
def utxoChunks (budget : Budget) (utxos : UtxoMap O) : List (List (TxoRef × O)) :=
  gather (fun chunk => budget.commitRecords ≤ chunk.length) [] utxos.entries

def tagChunks (point : ChainPoint) (node : Node V O) (chunks : List (List (TxoRef × O))) :
    Node V O :=
  { node with indexes := chunks.foldl (tagChunk point) node.indexes }

/-- `rebuild_utxo_indexes`. -/
def rebuildUtxoIndexes (budget : Budget) (point : ChainPoint) (node : Node V O) : Node V O :=
  tagChunks point node (utxoChunks budget node.utxos)

/-- An attempt that completes. The checkpoint goes after the cursor has landed. -/
def restore (reading : Reading D) (budget : Budget) (progress : Progress V O D) : Node V O :=
  let fetched := fetchAll contents progress reading.epochs
  let tip := (tipRecords contents reading.tip).foldl Node.writeTip fetched.node
  { rebuildUtxoIndexes budget reading.point tip with cursor := some reading.point }

/-- An attempt that is cut. -/
def restoreSome (reading : Reading D) (budget : Budget) (progress : Progress V O D) :
    CutPoint → Progress V O D
  | .epochs layers chunks =>
      let fetched := fetchAll contents progress (reading.epochs.take layers)
      match reading.epochs[layers]? with
      | none => fetched
      | some digest => fetchSome contents budget fetched digest chunks
  | .tip layers chunks =>
      let fetched := fetchAll contents progress reading.epochs
      { fetched with
        node := (committedTip contents reading budget (.tip layers chunks)).foldl Node.writeTip
          fetched.node }
  | .rebuild chunks =>
      let fetched := fetchAll contents progress reading.epochs
      let tip := (committedTip contents reading budget (.rebuild chunks)).foldl Node.writeTip
        fetched.node
      { fetched with
        node := tagChunks reading.point tip ((utxoChunks budget tip.utxos).take chunks) }

def RestoreAttempt.run (attempt : RestoreAttempt D) (progress : Progress V O D) :
    Progress V O D :=
  restoreSome contents attempt.reading attempt.budget (progress.opened attempt.resume) attempt.cut

end Attempts

end Dolos.Snapshot
