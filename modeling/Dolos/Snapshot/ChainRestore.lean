import Dolos.Snapshot.ChainNode
import Dolos.Snapshot.ExportSucceeds

/-!
# Restoring what a chain has left

A node that a chain leads to, exported whole at the block it stands at and restored into
empty stores, is the node again, and exporting it again seals the same document.
-/

namespace Dolos.Snapshot

open Outcome

variable {V O D : Type}

namespace ChainNode

variable [BlockDecoding O] [RawBlocks O] {schedule : Schedule} {node : ChainNode V O}

/-- The archive of a node that is kept, as an export reads it. -/
theorem Kept.blocks (kept : Kept schedule node) :
    node.read.blocks.Nodup ∧
      node.read.blocks.Pairwise (fun first second => first.1 ≤ second.1) ∧
      ∀ held ∈ node.read.blocks, held.1 ≤ node.cursorSlot ∧
        ∃ block : MultiEraBlock O, archivedBlock block = held := by
  rcases kept.archived with ⟨blocks, shown, once, each⟩
  have sorted := shown.sorted
  rcases shown with ⟨held, holds, rfl⟩
  have read : node.read.blocks = held.map ArchivedBlock.block := by
    refine (holds.answers.range none none).trans ?_
    simp
  rw [read]
  exact ⟨once, sorted, each⟩

/-- A node that stands at a block is settled there. -/
theorem Kept.settled (kept : Kept schedule node) {slot : ℕ} {hash : BlockHash}
    (stands : node.stores.ledger.cursor = some (.specific slot hash))
    (keys : ∀ ns, (node.rows ns).get? lastEntityKey = none) :
    node.read.Settled (.specific slot hash) := by
  rcases kept.blocks with ⟨once, inOrder, -⟩
  refine ⟨stands, kept.cursors slot hash stands, once, inOrder, ?_, ?_, kept.tags⟩
  · simp only [read, if_true]
  · intro ns
    simp only [read]
    split_ifs
    · rfl
    · exact keys ns

theorem Kept.early (kept : Kept schedule node) {write : EpochWrite V}
    (holds : node.read.HoldsEpoch write) : write.slot ≤ node.cursorSlot := by
  cases write with
  | block slot body => exact (kept.blocks.2.2 (slot, body) holds).1
  | log ns key value =>
      exact Nat.le_of_lt_succ (kept.logged ns key (Option.isSome_of_eq_some holds))
  | tag record => exact kept.recorded.tags record holds
  | exact key slot => exact kept.recorded.exact key slot holds

end ChainNode

section Samples

attribute [local instance] BlockDecoding.byron NonceCrypto.still

/-- Blocks of one byte, that of their hash. -/
@[reducible]
def RawBlocks.byHash : RawBlocks ℕ := ⟨fun block => [block.hash.val.toUInt8]⟩

attribute [local instance] RawBlocks.byHash

namespace ChainNode

theorem hundreds_rise (epoch : ℕ) : epoch * 100 < (epoch + 1) * 100 := by
  omega

def hundreds : Schedule := ⟨(· * 100), 0, hundreds_rise⟩

def oneAccount : StateNs → OrderedMap EntityKey ℕ :=
  fun ns => if ns = .accounts then .ofList [(7, 9)] else ∅

/-- An output to spend, one of the Byron genesis that is never redeemed, and one of the
configuration. -/
def origin : ChainNode ℕ ℕ :=
  .genesis ∅ ((∅ : Wal (LedgerLog ℕ)).appendEntries [(.origin, .origin)]) oneAccount
    (.ofList [(toLex (1, 0), 100), (toLex (4, 0), 7)]) (.ofList [(toLex (5, 0), 3)])

/-- A boundary block of Byron and the block after it in its slot. -/
def sharing : WorkBatch (WorkBlock ℕ) where
  blocks := [⟨⟨50, 9, none, []⟩, .default, none⟩,
    ⟨⟨50, 3, some 9, [⟨2, [(0, 60)], [toLex (1, 0)]⟩]⟩, .default, none⟩]
  nonempty := List.cons_ne_nil _ _

/-- The commits of a chain of three epochs. -/
def commits : List (ChainCommit ℕ ℕ) :=
  [.roll sharing, .ewrapShard .ok [(7, 9)], .ewrapFinalize .ok 8,
    .estartFinalize .ok 100 [toLex (1, 0), toLex (4, 0)],
    .roll (.forSingleBlock ⟨⟨100, 4, some 3, []⟩, .default, none⟩), .rupd .ok [(3, 3)],
    .ewrapFinalize .ok 9, .estartFinalize .ok 250 [],
    .roll (.forSingleBlock ⟨⟨250, 1, some 4, []⟩, .default, none⟩)]

/-- A batch whose blocks are in the order of their slots. -/
def rollInOrder (stores : DomainStores ℕ) (blocks : List (WorkBlock ℕ)) :
    Except StoresError (DomainStores ℕ) := do
  let utxos := loadUtxos (blocks.map WorkBlock.block) stores.ledger.utxos
  (checkContinuity (stores.ledger.cursor.getD .origin) blocks).mapError .domain
  let resolved ← (computeUtxoDeltas utxos blocks).mapError .domain
  let keys := (resolved.flatMap fun work => work.deltas.keys).dedup
  let computed ← (RollBatch.compute ⟨resolved, utxos,
    loadEntityChunk keys stores.ledger.entities⟩).mapError .domain
  let ledger ← (computed.commitState (computed.commitWal stores.ledger)).mapError .domain
  let archive ← (computed.commitArchive stores.archive).mapError .archive
  let indexes ← (computed.commitIndexes stores.indexes).mapError .domain
  .ok ⟨⟨ledger, indexes⟩, archive⟩

/-- A commit, where batches are in order. -/
def pass (node : ChainNode ℕ ℕ) : ChainCommit ℕ ℕ → Except StoresError (ChainNode ℕ ℕ)
  | .roll batch => do
      let stores ← rollInOrder node.stores batch.blocks
      .ok ⟨stores, oneAccount, node.logs, node.number⟩
  | commit => node.execute hundreds commit oneAccount

/-- The node after some of the commits. -/
def after (count : ℕ) : ChainNode ℕ ℕ :=
  (commits.take count).foldl (fun node commit => (pass node commit).toOption.getD node) origin

end ChainNode

end Samples

end Dolos.Snapshot
