import Dolos.Core.MempoolConfirm

/-!
# The depth of a confirmed transaction

`core/src/sync.rs` calls `confirm` on the mempool for every block it rolls forward,
with the transactions of the block as seen, and for every block it undoes, with them
as unseen. Either store then counts one more confirmation for every other confirmed
transaction, and one more miss for every other inflight one, also when the block goes
away.

The counters are compared with the chain over runs of submissions, rolls and undos.
What a run needs of a store is stated once, and both stores have it.
-/

namespace Dolos

/-- A block as the mempool sees it. -/
structure MempoolBlock where
  point : ChainPoint
  txs : List TxHash
  deriving DecidableEq, Repr

section Counting

variable {P : Type}

/-- A transaction sits in a block with a number of blocks from there to the tip. -/
def AtDepth (chain : List MempoolBlock) (hash : TxHash) (depth : ℕ) : Prop :=
  ∃ earlier block later, chain = earlier ++ block :: later ∧ hash ∈ block.txs ∧
    depth = later.length + 1

/-- The last blocks rolled forward, a given number of them, do not have a transaction. -/
def MissedBy (rolled : List MempoolBlock) (hash : TxHash) (misses : ℕ) : Prop :=
  ∃ older recent, rolled = older ++ recent ∧ recent.length = misses ∧
    ∀ block ∈ recent, hash ∉ block.txs

/-- The counters of an inflight transaction say where it is. -/
structure DepthCounted (chain rolled : List MempoolBlock) (hash : TxHash) (tx : MempoolTx P) :
    Prop where
  confirmed : tx.stage = .confirmed → AtDepth chain hash tx.confirmations
  waiting : tx.stage ≠ .confirmed → tx.confirmations = 0 ∧ MissedBy rolled hash tx.nonConfirmations

/-- A transaction that was just sent. -/
def Unmet (tx : MempoolTx P) : Prop :=
  tx.stage ≠ .confirmed ∧ tx.confirmations = 0 ∧ tx.nonConfirmations = 0

/-- Two records of one transaction with the same counters. -/
def SameCount (before after : MempoolTx P) : Prop :=
  (after.stage = .confirmed ↔ before.stage = .confirmed) ∧
    after.confirmations = before.confirmations ∧ after.nonConfirmations = before.nonConfirmations

variable {chain rolled : List MempoolBlock} {hash : TxHash} {block : MempoolBlock}

theorem AtDepth.extend {depth : ℕ} (deep : AtDepth chain hash depth) (block : MempoolBlock) :
    AtDepth (chain ++ [block]) hash (depth + 1) := by
  rcases deep with ⟨earlier, inclusion, later, chainEq, included, depthEq⟩
  refine ⟨earlier, inclusion, later ++ [block], ?_, included, ?_⟩
  · rw [chainEq, List.append_assoc, List.cons_append]
  · rw [depthEq, List.length_append, List.length_singleton]

theorem atDepth_tip (included : hash ∈ block.txs) : AtDepth (chain ++ [block]) hash 1 :=
  ⟨chain, block, [], rfl, included, rfl⟩

theorem MissedBy.extend {misses : ℕ} (missed : MissedBy rolled hash misses)
    (absent : hash ∉ block.txs) : MissedBy (rolled ++ [block]) hash (misses + 1) := by
  rcases missed with ⟨older, recent, rolledEq, lengthEq, without⟩
  refine ⟨older, recent ++ [block], ?_, ?_, ?_⟩
  · rw [rolledEq, List.append_assoc]
  · rw [List.length_append, lengthEq, List.length_singleton]
  · intro other member
    rcases List.mem_append.mp member with old | new
    · exact without other old
    · rw [List.mem_singleton.mp new]
      exact absent

theorem depthCounted_of_unmet {tx : MempoolTx P} (unmet : Unmet tx) :
    DepthCounted chain rolled hash tx := by
  rcases unmet with ⟨notConfirmed, noConfirmations, noMisses⟩
  refine ⟨fun confirmed => absurd confirmed notConfirmed, fun _ => ⟨noConfirmations, ?_⟩⟩
  refine ⟨rolled, [], (List.append_nil _).symm, noMisses.symm, ?_⟩
  intro block member
  cases member

theorem DepthCounted.of_sameCount {before after : MempoolTx P} (same : SameCount before after)
    (counted : DepthCounted chain rolled hash before) : DepthCounted chain rolled hash after := by
  rcases same with ⟨stageIff, confirmationsEq, missesEq⟩
  refine ⟨?_, ?_⟩
  · intro confirmed
    rw [confirmationsEq]
    exact counted.confirmed (stageIff.mp confirmed)
  · intro waiting
    rw [confirmationsEq, missesEq]
    exact counted.waiting (fun confirmed => waiting (stageIff.mpr confirmed))

/-- One more confirmation, for a transaction of the block or of an earlier one. -/
theorem DepthCounted.atDepth_confirm {tx : MempoolTx P}
    (counted : DepthCounted chain rolled hash tx) (block : MempoolBlock)
    (met : hash ∈ block.txs ∨ tx.stage = .confirmed) (point : ChainPoint) :
    AtDepth (chain ++ [block]) hash (tx.confirm point).confirmations := by
  by_cases confirmed : tx.stage = .confirmed
  · exact (counted.confirmed confirmed).extend block
  · rcases met with included | stage
    · have first := (counted.waiting confirmed).1
      change AtDepth (chain ++ [block]) hash (tx.confirmations + 1)
      rw [first]
      exact atDepth_tip included
    · exact absurd stage confirmed

/-- The verdict on a counted transaction when a block is rolled forward. -/
theorem DepthCounted.roll {tx : MempoolTx P} {point : ChainPoint}
    {finalizeThreshold dropThreshold : ℕ}
    (counted : DepthCounted chain rolled hash tx) :
    match verdict ⟨point, block.txs, [], finalizeThreshold, dropThreshold⟩ hash tx with
    | .stay kept => DepthCounted (chain ++ [block]) (rolled ++ [block]) hash kept
    | .leave (.retried _) => False
    | .leave (.finalized _) => ∃ depth, finalizeThreshold ≤ depth ∧
        AtDepth (chain ++ [block]) hash depth
    | .leave (.dropped _) => ∃ misses, dropThreshold ≤ misses ∧
        MissedBy (rolled ++ [block]) hash misses := by
  have settles : ∀ met : hash ∈ block.txs ∨ tx.stage = .confirmed,
      match settled ⟨point, block.txs, [], finalizeThreshold, dropThreshold⟩ (tx.confirm point) with
      | .stay kept => DepthCounted (chain ++ [block]) (rolled ++ [block]) hash kept
      | .leave (.retried _) => False
      | .leave (.finalized _) => ∃ depth, finalizeThreshold ≤ depth ∧
          AtDepth (chain ++ [block]) hash depth
      | .leave (.dropped _) => ∃ misses, dropThreshold ≤ misses ∧
          MissedBy (rolled ++ [block]) hash misses := by
    intro met
    have deep := counted.atDepth_confirm block met point
    unfold settled
    split_ifs with enough
    · exact ⟨_, enough, deep⟩
    · exact ⟨fun _ => deep, fun waiting => absurd rfl waiting⟩
  unfold verdict
  split_ifs with seen unseen confirmed stale
  · exact settles (Or.inl seen)
  · cases unseen
  · exact settles (Or.inr confirmed)
  · have missed := (counted.waiting confirmed).2.extend seen
    exact ⟨_, stale, missed⟩
  · have missed := (counted.waiting confirmed).2.extend seen
    exact ⟨fun stage => absurd stage confirmed, fun _ => ⟨(counted.waiting confirmed).1, missed⟩⟩

theorem DepthCounted.roll_kept {tx kept : MempoolTx P} {point : ChainPoint}
    {finalizeThreshold dropThreshold : ℕ} (counted : DepthCounted chain rolled hash tx)
    (keptEq : (verdict ⟨point, block.txs, [], finalizeThreshold, dropThreshold⟩ hash tx).kept =
      some kept) :
    DepthCounted (chain ++ [block]) (rolled ++ [block]) hash kept := by
  have rolledOn := @DepthCounted.roll P chain rolled hash block tx point finalizeThreshold
    dropThreshold counted
  cases fated : verdict ⟨point, block.txs, [], finalizeThreshold, dropThreshold⟩ hash tx with
  | stay changed =>
      rw [fated] at rolledOn keptEq
      cases keptEq
      exact rolledOn
  | leave handed =>
      rw [fated] at keptEq
      cases keptEq

theorem DepthCounted.roll_noted {tx : MempoolTx P} {handed : Handed (MempoolTx P)}
    {note : TxHash × Bool} {point : ChainPoint} {finalizeThreshold dropThreshold : ℕ}
    (counted : DepthCounted chain rolled hash tx)
    (handedEq : (verdict ⟨point, block.txs, [], finalizeThreshold, dropThreshold⟩ hash tx).handed =
      some handed) (noteEq : handed.note = some note) :
    (note.2 = false → ∃ depth, finalizeThreshold ≤ depth ∧
        AtDepth (chain ++ [block]) hash depth) ∧
      (note.2 = true → ∃ misses, dropThreshold ≤ misses ∧
        MissedBy (rolled ++ [block]) hash misses) := by
  have rolledOn := @DepthCounted.roll P chain rolled hash block tx point finalizeThreshold
    dropThreshold counted
  cases fated : verdict ⟨point, block.txs, [], finalizeThreshold, dropThreshold⟩ hash tx with
  | stay changed =>
      rw [fated] at handedEq
      cases handedEq
  | leave given =>
      rw [fated] at rolledOn handedEq
      cases handedEq
      cases handed with
      | retried tx => cases noteEq
      | finalized tx =>
          cases noteEq
          refine ⟨fun _ => rolledOn, ?_⟩
          intro isDropped
          cases isDropped
      | dropped tx =>
          cases noteEq
          refine ⟨?_, fun _ => rolledOn⟩
          intro isFinalized
          cases isFinalized

/-- A transaction of an undone block goes back to the queue. -/
theorem verdict_undo {tx : MempoolTx P} {point : ChainPoint} {finalizeThreshold dropThreshold : ℕ}
    (undone : hash ∈ block.txs) :
    verdict ⟨point, [], block.txs, finalizeThreshold, dropThreshold⟩ hash tx =
      .leave (.retried tx) := by
  simp [verdict, undone]

end Counting

/-- A call that is not a confirmation, with a transaction as it is made for a store. -/
def MempoolCall.Quiet {P : Type} : MempoolCall P → Prop
  | .receive tx => tx = .new tx.hash tx.payload
  | .markInflight _ => True
  | .markAcknowledged _ => True
  | .confirm _ => False

/-- A mempool store with the transactions it tracks as inflight, by hash, and its log.
Calls may go several ways, where a map has no order of its own. -/
structure MempoolModel (P : Type) where
  State : Type
  start : State
  Performs : State → MempoolCall P → State → Prop
  Tracks : State → TxHash → MempoolTx P → Prop
  logged : State → List (TxHash × Bool)
  Sound : State → Prop
  sound_start : Sound start
  untracked_start : ∀ hash tx, ¬ Tracks start hash tx
  quiet : ∀ {state call next}, Sound state → Performs state call next → call.Quiet →
    Sound next ∧ logged next = logged state ∧
      ∀ hash tx, Tracks next hash tx →
        Unmet tx ∨ ∃ before, Tracks state hash before ∧ SameCount before tx
  confirms : ∀ {state call next}, Sound state → Performs state (.confirm call) next →
    Sound next ∧ ∃ point,
      (∀ hash tx, Tracks next hash tx → ∃ before, Tracks state hash before ∧
        (verdict { call with point := point } hash before).kept = some tx) ∧
      ∃ notes surplus, logged next = (logged state ++ notes).drop surplus ∧
        ∀ note ∈ notes, ∃ before handed, Tracks state note.1 before ∧
          (verdict { call with point := point } note.1 before).handed = some handed ∧
          handed.note = some note

section Runs

variable {P : Type} (model : MempoolModel P) (finalizeThreshold dropThreshold : ℕ)

/-- The chain, all blocks rolled forward so far, and the mempool. -/
structure SyncState where
  chain : List MempoolBlock
  rolled : List MempoolBlock
  store : model.State

inductive SyncEvent (P : Type) where
  | submit (hash : TxHash) (payload : P)
  | markInflight (hashes : List TxHash)
  | markAcknowledged (hashes : List TxHash)
  | roll (block : MempoolBlock)
  | undo (block : MempoolBlock)

/-- The calls the sync and submission stages make. A rollback undoes the blocks of the
chain from the tip on. -/
inductive SyncStep : SyncState model → SyncEvent P → SyncState model → Prop where
  | submit {chain rolled : List MempoolBlock} {store next : model.State} {hash : TxHash}
      {payload : P} (performed : model.Performs store (.receive (.new hash payload)) next) :
      SyncStep ⟨chain, rolled, store⟩ (.submit hash payload) ⟨chain, rolled, next⟩
  | markInflight {chain rolled : List MempoolBlock} {store next : model.State}
      {hashes : List TxHash} (performed : model.Performs store (.markInflight hashes) next) :
      SyncStep ⟨chain, rolled, store⟩ (.markInflight hashes) ⟨chain, rolled, next⟩
  | markAcknowledged {chain rolled : List MempoolBlock} {store next : model.State}
      {hashes : List TxHash} (performed : model.Performs store (.markAcknowledged hashes) next) :
      SyncStep ⟨chain, rolled, store⟩ (.markAcknowledged hashes) ⟨chain, rolled, next⟩
  | roll {chain rolled : List MempoolBlock} {store next : model.State} {block : MempoolBlock}
      (performed : model.Performs store
        (.confirm ⟨block.point, block.txs, [], finalizeThreshold, dropThreshold⟩) next) :
      SyncStep ⟨chain, rolled, store⟩ (.roll block) ⟨chain ++ [block], rolled ++ [block], next⟩
  | undo {chain rolled : List MempoolBlock} {store next : model.State} {block : MempoolBlock}
      (performed : model.Performs store
        (.confirm ⟨block.point, [], block.txs, finalizeThreshold, dropThreshold⟩) next) :
      SyncStep ⟨chain ++ [block], rolled, store⟩ (.undo block) ⟨chain, rolled, next⟩

def SyncRun : SyncState model → List (SyncEvent P × SyncState model) → Prop
  | _, [] => True
  | state, (event, next) :: rest =>
      SyncStep model finalizeThreshold dropThreshold state event next ∧ SyncRun next rest

/-- Whenever a block is undone, every inflight transaction is one of its own. -/
def UndoesSettle : SyncState model → List (SyncEvent P × SyncState model) → Prop
  | _, [] => True
  | state, (event, next) :: rest =>
      (∀ block, event = .undo block →
        ∀ hash tx, model.Tracks state.store hash tx → hash ∈ block.txs) ∧
      UndoesSettle next rest

/-- The counters after a step are the depths on the chain, and what the step has
logged was deep enough, or missed often enough. -/
structure FinalityKept (before after : SyncState model) : Prop where
  depth : ∀ hash tx, model.Tracks after.store hash tx → tx.stage = .confirmed →
    AtDepth after.chain hash tx.confirmations
  logged : ∃ notes surplus,
    model.logged after.store = (model.logged before.store ++ notes).drop surplus ∧
    ∀ note ∈ notes,
      (note.2 = false → ∃ depth, finalizeThreshold ≤ depth ∧ AtDepth after.chain note.1 depth) ∧
      (note.2 = true → ∃ misses, dropThreshold ≤ misses ∧ MissedBy after.rolled note.1 misses)

def FinalityAlong : SyncState model → List (SyncEvent P × SyncState model) → Prop
  | _, [] => True
  | state, (_, next) :: rest =>
      FinalityKept model finalizeThreshold dropThreshold state next ∧ FinalityAlong next rest

structure SyncInvariant (state : SyncState model) : Prop where
  sound : model.Sound state.store
  counted : ∀ hash tx, model.Tracks state.store hash tx →
    DepthCounted state.chain state.rolled hash tx

variable {model finalizeThreshold dropThreshold}

theorem finality_of_quiet {chain rolled : List MempoolBlock} {store next : model.State}
    {call : MempoolCall P} (invariant : SyncInvariant model ⟨chain, rolled, store⟩)
    (performed : model.Performs store call next) (isQuiet : call.Quiet) :
    SyncInvariant model ⟨chain, rolled, next⟩ ∧
      FinalityKept model finalizeThreshold dropThreshold ⟨chain, rolled, store⟩
        ⟨chain, rolled, next⟩ := by
  rcases model.quiet invariant.sound performed isQuiet with ⟨sound, loggedEq, tracked⟩
  have counted : ∀ hash tx, model.Tracks next hash tx → DepthCounted chain rolled hash tx := by
    intro hash tx tracks
    rcases tracked hash tx tracks with unmet | ⟨before, trackedBefore, same⟩
    · exact depthCounted_of_unmet unmet
    · exact (invariant.counted hash before trackedBefore).of_sameCount same
  refine ⟨⟨sound, counted⟩, ?_, [], 0, ?_, ?_⟩
  · intro hash tx tracks
    exact (counted hash tx tracks).confirmed
  · rw [loggedEq, List.append_nil, List.drop_zero]
  · intro note member
    cases member

theorem finality_of_roll {chain rolled : List MempoolBlock} {store next : model.State}
    {block : MempoolBlock} (invariant : SyncInvariant model ⟨chain, rolled, store⟩)
    (performed : model.Performs store
      (.confirm ⟨block.point, block.txs, [], finalizeThreshold, dropThreshold⟩) next) :
    SyncInvariant model ⟨chain ++ [block], rolled ++ [block], next⟩ ∧
      FinalityKept model finalizeThreshold dropThreshold ⟨chain, rolled, store⟩
        ⟨chain ++ [block], rolled ++ [block], next⟩ := by
  rcases model.confirms invariant.sound performed with
    ⟨sound, point, tracked, notes, surplus, loggedEq, noted⟩
  have counted : ∀ hash tx, model.Tracks next hash tx →
      DepthCounted (chain ++ [block]) (rolled ++ [block]) hash tx := by
    intro hash tx tracks
    rcases tracked hash tx tracks with ⟨before, trackedBefore, keptEq⟩
    exact (invariant.counted hash before trackedBefore).roll_kept keptEq
  refine ⟨⟨sound, counted⟩, ?_, notes, surplus, loggedEq, ?_⟩
  · intro hash tx tracks
    exact (counted hash tx tracks).confirmed
  · intro note member
    rcases noted note member with ⟨before, handed, trackedBefore, handedEq, noteEq⟩
    exact (invariant.counted note.1 before trackedBefore).roll_noted handedEq noteEq

/-- Where every inflight transaction is of the undone block, none is left. -/
theorem finality_of_undo {chain rolled : List MempoolBlock} {store next : model.State}
    {block : MempoolBlock} (invariant : SyncInvariant model ⟨chain ++ [block], rolled, store⟩)
    (settles : ∀ hash tx, model.Tracks store hash tx → hash ∈ block.txs)
    (performed : model.Performs store
      (.confirm ⟨block.point, [], block.txs, finalizeThreshold, dropThreshold⟩) next) :
    SyncInvariant model ⟨chain, rolled, next⟩ ∧
      FinalityKept model finalizeThreshold dropThreshold ⟨chain ++ [block], rolled, store⟩
        ⟨chain, rolled, next⟩ := by
  rcases model.confirms invariant.sound performed with
    ⟨sound, point, tracked, notes, surplus, loggedEq, noted⟩
  have untracked : ∀ hash tx, ¬ model.Tracks next hash tx := by
    intro hash tx tracks
    rcases tracked hash tx tracks with ⟨before, trackedBefore, keptEq⟩
    rw [verdict_undo (settles hash before trackedBefore)] at keptEq
    cases keptEq
  refine ⟨⟨sound, fun hash tx tracks => absurd tracks (untracked hash tx)⟩, ?_, notes, surplus,
    loggedEq, ?_⟩
  · intro hash tx tracks
    exact absurd tracks (untracked hash tx)
  · intro note member
    rcases noted note member with ⟨before, handed, trackedBefore, handedEq, noteEq⟩
    rw [verdict_undo (settles note.1 before trackedBefore)] at handedEq
    cases handedEq
    cases noteEq

theorem finality_step {state next : SyncState model} {event : SyncEvent P}
    (step : SyncStep model finalizeThreshold dropThreshold state event next)
    (settles : ∀ block, event = .undo block →
      ∀ hash tx, model.Tracks state.store hash tx → hash ∈ block.txs)
    (invariant : SyncInvariant model state) :
    SyncInvariant model next ∧
      FinalityKept model finalizeThreshold dropThreshold state next := by
  cases step with
  | submit performed => exact finality_of_quiet invariant performed rfl
  | markInflight performed => exact finality_of_quiet invariant performed trivial
  | markAcknowledged performed => exact finality_of_quiet invariant performed trivial
  | roll performed => exact finality_of_roll invariant performed
  | @undo _ _ _ _ block performed =>
      exact finality_of_undo invariant (settles block rfl) performed

theorem finality_run {state : SyncState model} {run : List (SyncEvent P × SyncState model)}
    (isRun : SyncRun model finalizeThreshold dropThreshold state run)
    (settles : UndoesSettle model state run) (invariant : SyncInvariant model state) :
    FinalityAlong model finalizeThreshold dropThreshold state run := by
  induction run generalizing state with
  | nil => trivial
  | cons visited rest ih =>
      rcases finality_step isRun.1 settles.1 invariant with ⟨nextInvariant, kept⟩
      exact ⟨kept, ih isRun.2 settles.2 nextInvariant⟩

end Runs

theorem sameCount_refl {P : Type} (tx : MempoolTx P) : SameCount tx tx := ⟨Iff.rfl, rfl, rfl⟩

theorem mem_handedOver {P : Type} {call : ConfirmCall} {order : List TxHash}
    {find : TxHash → Option (MempoolTx P)} {handed : Handed (MempoolTx P)}
    (member : handed ∈ handedOver call order find) :
    ∃ hash tx, find hash = some tx ∧ (verdict call hash tx).handed = some handed := by
  rcases List.mem_filterMap.mp member with ⟨hash, _, handedEq⟩
  rcases Option.bind_eq_some_iff.mp handedEq with ⟨tx, found, fated⟩
  exact ⟨hash, tx, found, fated⟩

/-- A transaction that leaves is the one the verdict was on. -/
theorem hash_noted {P : Type} {call : ConfirmCall} {hash : TxHash} {tx : MempoolTx P}
    {handed : Handed (MempoolTx P)} {note : TxHash × Bool}
    (handedEq : (verdict call hash tx).handed = some handed) (noteEq : handed.note = some note) :
    note.1 = tx.hash := by
  simp only [verdict, settled] at handedEq
  split_ifs at handedEq
  all_goals
    first
    | (cases handedEq; cases noteEq; rfl)
    | (cases handedEq; cases noteEq)
    | cases handedEq

namespace MempoolState

variable {P : Type}

def Tracks (state : MempoolState P) (hash : TxHash) (tx : MempoolTx P) : Prop :=
  (tx ∈ state.inflight ∧ tx.hash = hash) ∨ state.acknowledged.get? hash = some tx

structure Sound (state : MempoolState P) : Prop where
  queued : ∀ tx ∈ state.pending, tx.confirmations = 0 ∧ tx.nonConfirmations = 0
  sent : ∀ tx ∈ state.inflight, Unmet tx
  keyed : ∀ hash tx, state.acknowledged.get? hash = some tx → tx.hash = hash

def logged (state : MempoolState P) : List (TxHash × Bool) :=
  state.finalizedLog.map fun tx => (tx.hash, decide (tx.stage = .dropped))

theorem get?_promoted {state : MempoolState P} {hash : TxHash} {tx : MempoolTx P}
    (held : state.promoted.acknowledged.get? hash = some tx) : state.Tracks hash tx := by
  rcases OrderedMap.get?_insertAll_cases state.acknowledged held with moved | old
  · left
    rcases List.mem_map.mp moved with ⟨sent, isSent, entryEq⟩
    cases entryEq
    exact ⟨isSent, rfl⟩
  · exact Or.inr old

theorem sound_receive {state next : MempoolState P} {tx : MempoolTx P} (sound : state.Sound)
    (made : tx = .new tx.hash tx.payload) (received : state.receive tx = .ok next) :
    next.Sound := by
  unfold receive at received
  split_ifs at received
  cases received
  refine ⟨?_, sound.sent, sound.keyed⟩
  intro held member
  rcases List.mem_append.mp member with old | new
  · exact sound.queued held old
  · rw [List.mem_singleton.mp new, made]
    exact ⟨rfl, rfl⟩

theorem tracks_markInflight {state : MempoolState P} (sound : state.Sound) (hashes : List TxHash) :
    (state.markInflight hashes).Sound ∧
      ∀ hash tx, (state.markInflight hashes).Tracks hash tx → Unmet tx ∨ state.Tracks hash tx := by
  have moved : ∀ tx ∈ (state.pending.filter fun tx => tx.hash ∈ hashes).map
      (fun tx => { tx with stage := MempoolTxStage.propagated }), Unmet tx := by
    intro tx member
    rcases List.mem_map.mp member with ⟨queued, isQueued, rfl⟩
    have counters := sound.queued queued (List.mem_of_mem_filter isQueued)
    exact ⟨by simp, counters.1, counters.2⟩
  refine ⟨⟨?_, ?_, sound.keyed⟩, ?_⟩
  · intro tx member
    exact sound.queued tx (List.mem_of_mem_filter member)
  · intro tx member
    rcases List.mem_append.mp member with old | new
    · exact sound.sent tx old
    · exact moved tx new
  · rintro hash tx (⟨member, hashEq⟩ | held)
    · rcases List.mem_append.mp member with old | new
      · exact Or.inr (Or.inl ⟨old, hashEq⟩)
      · exact Or.inl (moved tx new)
    · exact Or.inr (Or.inr held)

theorem tracks_markAcknowledged {state : MempoolState P} (sound : state.Sound)
    (hashes : List TxHash) :
    (state.markAcknowledged hashes).Sound ∧
      ∀ hash tx, (state.markAcknowledged hashes).Tracks hash tx →
        ∃ before, state.Tracks hash before ∧ SameCount before tx := by
  have written : ∀ {hash tx}, (state.markAcknowledged hashes).acknowledged.get? hash = some tx →
      tx.hash = hash ∧ ∃ before, state.Tracks hash before ∧ SameCount before tx := by
    intro hash tx held
    rcases OrderedMap.get?_insertAll_cases state.acknowledged held with moved | old
    · rcases List.mem_map.mp moved with ⟨sent, isSent, entryEq⟩
      have member := List.mem_of_mem_filter isSent
      cases entryEq
      refine ⟨rfl, sent, Or.inl ⟨member, rfl⟩, ?_, rfl, rfl⟩
      have notConfirmed := (sound.sent sent member).1
      simp [notConfirmed]
    · exact ⟨sound.keyed hash tx old, tx, Or.inr old, sameCount_refl tx⟩
  refine ⟨⟨sound.queued, ?_, ?_⟩, ?_⟩
  · intro tx member
    exact sound.sent tx (List.mem_of_mem_filter member)
  · intro hash tx held
    exact (written held).1
  · rintro hash tx (⟨member, hashEq⟩ | held)
    · exact ⟨tx, Or.inl ⟨List.mem_of_mem_filter member, hashEq⟩, sameCount_refl tx⟩
    · exact (written held).2

theorem keyed_promoted {state : MempoolState P} (sound : state.Sound) {hash : TxHash}
    {tx : MempoolTx P} (held : state.promoted.acknowledged.get? hash = some tx) :
    tx.hash = hash := by
  rcases get?_promoted held with ⟨_, hashEq⟩ | old
  · exact hashEq
  · exact sound.keyed hash tx old

theorem sound_confirm {state : MempoolState P} (sound : state.Sound) {order : List TxHash}
    (isOrder : order.Perm state.promoted.acknowledged.keys) (call : ConfirmCall) :
    (state.confirm order call).Sound := by
  refine ⟨?_, ?_, ?_⟩
  · intro tx member
    rw [pending_confirm isOrder] at member
    rcases List.mem_append.mp member with old | new
    · exact sound.queued tx old
    · rcases List.mem_map.mp new with ⟨retried, _, rfl⟩
      exact ⟨rfl, rfl⟩
  · intro tx member
    rw [inflight_confirm isOrder] at member
    cases member
  · intro hash tx held
    rw [get?_confirm isOrder] at held
    rcases Option.bind_eq_some_iff.mp held with ⟨before, heldBefore, keptEq⟩
    rw [hash_kept keptEq]
    exact keyed_promoted sound heldBefore

theorem logged_confirm {state : MempoolState P} {order : List TxHash}
    (isOrder : order.Perm state.promoted.acknowledged.keys) (call : ConfirmCall) :
    ∃ surplus, (state.confirm order call).logged = (state.logged ++
      (handedOver call order state.promoted.acknowledged.get?).filterMap Handed.note).drop
        surplus := by
  rcases finalizedLog_confirm isOrder call with ⟨surplus, _, logEq⟩
  refine ⟨surplus, ?_⟩
  rw [logged, logEq, List.map_drop, List.map_append, List.map_filterMap]
  congr 2
  apply List.filterMap_congr
  intro handed member
  cases handed with
  | retried tx => rfl
  | finalized tx => rfl
  | dropped tx => rfl

/-- The in-memory store, whose hash map may give its keys in any order. -/
def model (P : Type) : MempoolModel P where
  State := MempoolState P
  start := default
  Performs state call next :=
    ∃ order, order.Perm state.promoted.acknowledged.keys ∧ (state.perform order call).2 = next
  Tracks := Tracks
  logged := logged
  Sound := Sound
  sound_start := by
    refine ⟨?_, ?_, ?_⟩
    · intro tx member
      cases member
    · intro tx member
      cases member
    · intro hash tx held
      cases held
  untracked_start := by
    rintro hash tx (⟨member, _⟩ | held)
    · cases member
    · cases held
  quiet := by
    rintro state call next sound ⟨order, isOrder, rfl⟩ isQuiet
    have unchanged : ∀ hash tx, state.Tracks hash tx →
        Unmet tx ∨ ∃ before, state.Tracks hash before ∧ SameCount before tx :=
      fun hash tx tracks => Or.inr ⟨tx, tracks, sameCount_refl tx⟩
    cases call with
    | receive tx =>
        simp only [perform]
        cases received : state.receive tx with
        | error failure => exact ⟨sound, rfl, unchanged⟩
        | ok next =>
            refine ⟨sound_receive sound isQuiet received, ?_⟩
            unfold receive at received
            split_ifs at received
            cases received
            exact ⟨rfl, unchanged⟩
    | markInflight hashes =>
        rcases tracks_markInflight sound hashes with ⟨nextSound, tracked⟩
        refine ⟨nextSound, rfl, ?_⟩
        intro hash tx tracks
        rcases tracked hash tx tracks with unmet | before
        · exact Or.inl unmet
        · exact unchanged hash tx before
    | markAcknowledged hashes =>
        rcases tracks_markAcknowledged sound hashes with ⟨nextSound, tracked⟩
        exact ⟨nextSound, rfl, fun hash tx tracks => Or.inr (tracked hash tx tracks)⟩
    | confirm call => exact absurd isQuiet id
  confirms := by
    rintro state call next sound ⟨order, isOrder, rfl⟩
    refine ⟨sound_confirm sound isOrder call, call.point, ?_, ?_⟩
    · rintro hash tx (⟨member, _⟩ | held)
      · simp only [perform, inflight_confirm isOrder] at member
        cases member
      · simp only [perform, get?_confirm isOrder] at held
        rcases Option.bind_eq_some_iff.mp held with ⟨before, heldBefore, keptEq⟩
        exact ⟨before, get?_promoted heldBefore, keptEq⟩
    · rcases logged_confirm isOrder call with ⟨surplus, loggedEq⟩
      refine ⟨_, surplus, loggedEq, ?_⟩
      intro note member
      rcases List.mem_filterMap.mp member with ⟨handed, isHanded, noteEq⟩
      rcases mem_handedOver isHanded with ⟨hash, before, heldBefore, handedEq⟩
      have hashEq : note.1 = hash :=
        (hash_noted handedEq noteEq).trans (keyed_promoted sound heldBefore)
      rw [hashEq]
      exact ⟨before, handed, get?_promoted heldBefore, handedEq, noteEq⟩

end MempoolState

namespace RedbMempool

variable {P : Type}

theorem findInflight_markInflight {store : RedbMempool P} {hashes : List TxHash} {hash : TxHash}
    {tx : MempoolTx P} (found : (store.markInflight hashes).findInflight hash = some tx) :
    Unmet tx ∨ store.findInflight hash = some tx := by
  rcases Option.map_eq_some_iff.mp found with ⟨record, held, rfl⟩
  rcases OrderedMap.get?_insertAll_cases store.inflight held with drained | old
  · left
    rcases List.mem_map.mp drained with ⟨entry, _, entryEq⟩
    cases entryEq
    exact ⟨by simp [InflightRecord.toMempoolTx, InflightRecord.new, InflightStage.toTxStage],
      rfl, rfl⟩
  · right
    rw [findInflight, old]
    rfl

theorem findInflight_markAcknowledged {store : RedbMempool P} {hashes : List TxHash}
    {hash : TxHash} {tx : MempoolTx P}
    (found : (store.markAcknowledged hashes).findInflight hash = some tx) :
    ∃ before, store.findInflight hash = some before ∧ SameCount before tx := by
  rcases Option.map_eq_some_iff.mp found with ⟨record, held, rfl⟩
  rw [get?_markAcknowledged] at held
  split_ifs at held with listed
  · rcases Option.map_eq_some_iff.mp held with ⟨before, heldBefore, rfl⟩
    refine ⟨before.toMempoolTx hash, ?_, ?_⟩
    · rw [findInflight, heldBefore]
      rfl
    · unfold InflightRecord.acknowledge
      split_ifs with propagated
      · refine ⟨?_, rfl, rfl⟩
        simp [InflightRecord.toMempoolTx, propagated, InflightStage.toTxStage]
      · exact sameCount_refl _
  · refine ⟨record.toMempoolTx hash, ?_, sameCount_refl _⟩
    rw [findInflight, held]
    rfl

/-- The store on tables. -/
def model (P : Type) : MempoolModel P where
  State := RedbMempool P
  start := default
  Performs store call next := (store.perform call).2 = next
  Tracks store hash tx := store.findInflight hash = some tx
  logged := logged
  Sound _ := True
  sound_start := trivial
  untracked_start := by
    intro hash tx found
    cases found
  quiet := by
    rintro store call next - rfl isQuiet
    refine ⟨trivial, ?_⟩
    cases call with
    | receive tx =>
        simp only [perform]
        cases received : store.receive tx with
        | error failure =>
            exact ⟨rfl, fun hash held found => Or.inr ⟨held, found, sameCount_refl held⟩⟩
        | ok next =>
            unfold receive at received
            split_ifs at received
            cases received
            exact ⟨rfl, fun hash held found => Or.inr ⟨held, found, sameCount_refl held⟩⟩
    | markInflight hashes =>
        refine ⟨rfl, ?_⟩
        intro hash tx found
        rcases findInflight_markInflight found with unmet | before
        · exact Or.inl unmet
        · exact Or.inr ⟨tx, before, sameCount_refl tx⟩
    | markAcknowledged hashes =>
        exact ⟨rfl, fun hash tx found => Or.inr (findInflight_markAcknowledged found)⟩
    | confirm call => exact absurd isQuiet id
  confirms := by
    rintro store call next - rfl
    refine ⟨trivial, call.decoded.point, ?_, ?_⟩
    · intro hash tx found
      simp only [perform, findInflight_confirm] at found
      exact Option.bind_eq_some_iff.mp found
    · refine ⟨_, 0, (logged_confirm store).trans (List.drop_zero).symm, ?_⟩
      intro note member
      rcases List.mem_filterMap.mp member with ⟨handed, isHanded, noteEq⟩
      rcases mem_handedOver isHanded with ⟨hash, before, found, handedEq⟩
      have hashEq : note.1 = hash := by
        rw [hash_noted handedEq noteEq]
        rcases Option.map_eq_some_iff.mp found with ⟨record, _, rfl⟩
        rfl
      rw [hashEq]
      exact ⟨before, handed, found, handedEq, noteEq⟩

end RedbMempool

inductive MempoolBackend where
  | ephemeral
  | redb
  deriving DecidableEq, Repr

def MempoolBackend.model (P : Type) : MempoolBackend → MempoolModel P
  | ephemeral => MempoolState.model P
  | redb => RedbMempool.model P

/-- On either backend, from any chain with an empty mempool: where a block is undone
only while every inflight transaction is one of its own, confirmations are depths on
the chain, and transactions are finalized and dropped at their thresholds. -/
theorem finality_depth {P : Type} (backend : MempoolBackend) {finalizeThreshold dropThreshold : ℕ}
    {chain rolled : List MempoolBlock}
    {run : List (SyncEvent P × SyncState (backend.model P))}
    (isRun : SyncRun (backend.model P) finalizeThreshold dropThreshold
      ⟨chain, rolled, (backend.model P).start⟩ run)
    (settles : UndoesSettle (backend.model P) ⟨chain, rolled, (backend.model P).start⟩ run) :
    FinalityAlong (backend.model P) finalizeThreshold dropThreshold
      ⟨chain, rolled, (backend.model P).start⟩ run := by
  apply finality_run isRun settles
  refine ⟨(backend.model P).sound_start, ?_⟩
  intro hash tx tracks
  exact absurd tracks ((backend.model P).untracked_start hash tx)

namespace MempoolForks

def inclusionBlock : MempoolBlock := ⟨.specific 1 1, [1]⟩

def emptyBlock : MempoolBlock := ⟨.specific 2 2, []⟩

def received : RedbMempool Unit := (RedbMempool.default.perform (.receive (.new 1 ()))).2

def sent : RedbMempool Unit := (received.perform (.markInflight [1])).2

def rolledOn (store : RedbMempool Unit) (block : MempoolBlock) : RedbMempool Unit :=
  (store.perform (.confirm ⟨block.point, block.txs, [], 6, 2⟩)).2

def undoneFrom (store : RedbMempool Unit) (block : MempoolBlock) : RedbMempool Unit :=
  (store.perform (.confirm ⟨block.point, [], block.txs, 6, 2⟩)).2

/-- The inclusion block is rolled forward and undone. -/
def shortFork : List (SyncEvent Unit × SyncState (MempoolBackend.redb.model Unit)) :=
  [(.submit 1 (), ⟨[], [], received⟩), (.markInflight [1], ⟨[], [], sent⟩),
    (.roll inclusionBlock, ⟨[inclusionBlock], [inclusionBlock], rolledOn sent inclusionBlock⟩),
    (.undo inclusionBlock,
      ⟨[], [inclusionBlock], undoneFrom (rolledOn sent inclusionBlock) inclusionBlock⟩)]

theorem isRun_shortFork : SyncRun (MempoolBackend.redb.model Unit) 6 2
    ⟨[], [], (MempoolBackend.redb.model Unit).start⟩ shortFork := by
  refine ⟨?_, ?_, ?_, ?_, trivial⟩
  · exact .submit rfl
  · exact .markInflight rfl
  · exact @SyncStep.roll _ _ _ _ [] [] _ _ _ rfl
  · exact @SyncStep.undo _ _ _ _ [] _ _ _ _ rfl

theorem undoesSettle_shortFork : UndoesSettle (MempoolBackend.redb.model Unit)
    ⟨[], [], (MempoolBackend.redb.model Unit).start⟩ shortFork := by
  refine ⟨?_, ?_, ?_, ?_, trivial⟩
  · intro block isUndo
    cases isUndo
  · intro block isUndo
    cases isUndo
  · intro block isUndo
    cases isUndo
  · intro block isUndo hash tx tracks
    cases isUndo
    rcases Option.map_eq_some_iff.mp tracks with ⟨record, held, _⟩
    have member := OrderedMap.mem_entries_iff.mpr held
    have entries : (rolledOn sent inclusionBlock).inflight.entries =
        [(1, ⟨.confirmed, 1, (), some (toLex (1, 1)), 0⟩)] := by
      rfl
    change (hash, record) ∈ (rolledOn sent inclusionBlock).inflight.entries at member
    rw [entries] at member
    cases List.mem_singleton.mp member
    exact List.mem_singleton_self 1

theorem finality_depth_shortFork : FinalityAlong (MempoolBackend.redb.model Unit) 6 2
    ⟨[], [], (MempoolBackend.redb.model Unit).start⟩ shortFork :=
  finality_depth .redb isRun_shortFork undoesSettle_shortFork

/-- An empty block on top of the inclusion block comes and goes twice, and comes. -/
def longFork : List (SyncEvent Unit × SyncState (MempoolBackend.redb.model Unit)) :=
  let base := [inclusionBlock]
  let tall := [inclusionBlock, emptyBlock]
  let included := rolledOn sent inclusionBlock
  let second := rolledOn included emptyBlock
  let third := undoneFrom second emptyBlock
  let fourth := rolledOn third emptyBlock
  let fifth := undoneFrom fourth emptyBlock
  let sixth := rolledOn fifth emptyBlock
  [(.submit 1 (), ⟨[], [], received⟩), (.markInflight [1], ⟨[], [], sent⟩),
    (.roll inclusionBlock, ⟨base, base, included⟩),
    (.roll emptyBlock, ⟨tall, tall, second⟩), (.undo emptyBlock, ⟨base, tall, third⟩),
    (.roll emptyBlock, ⟨tall, tall ++ [emptyBlock], fourth⟩),
    (.undo emptyBlock, ⟨base, tall ++ [emptyBlock], fifth⟩),
    (.roll emptyBlock, ⟨tall, tall ++ [emptyBlock] ++ [emptyBlock], sixth⟩)]

theorem isRun_longFork : SyncRun (MempoolBackend.redb.model Unit) 6 2
    ⟨[], [], (MempoolBackend.redb.model Unit).start⟩ longFork := by
  refine ⟨?_, ?_, ?_, ?_, ?_, ?_, ?_, ?_, trivial⟩
  · exact .submit rfl
  · exact .markInflight rfl
  · exact @SyncStep.roll _ _ _ _ [] [] _ _ _ rfl
  · exact @SyncStep.roll _ _ _ _ [inclusionBlock] [inclusionBlock] _ _ _ rfl
  · exact @SyncStep.undo _ _ _ _ [inclusionBlock] _ _ _ _ rfl
  · exact @SyncStep.roll _ _ _ _ [inclusionBlock] _ _ _ _ rfl
  · exact @SyncStep.undo _ _ _ _ [inclusionBlock] _ _ _ _ rfl
  · exact @SyncStep.roll _ _ _ _ [inclusionBlock] _ _ _ _ rfl

theorem depth_le_length {chain : List MempoolBlock} {hash : TxHash} {depth : ℕ}
    (deep : AtDepth chain hash depth) : depth ≤ chain.length := by
  rcases deep with ⟨earlier, block, later, rfl, _, rfl⟩
  rw [List.length_append, List.length_cons]
  omega

/-- The transaction has 3 confirmations with one block on the chain, and is finalized
at a depth of at most 2 where 6 are asked for. -/
theorem longFork_finalized_early :
    SyncRun (MempoolBackend.redb.model Unit) 6 2
        ⟨[], [], (MempoolBackend.redb.model Unit).start⟩ longFork ∧
      longFork.map (fun visited => visited.2.chain.length) = [0, 0, 1, 2, 1, 2, 1, 2] ∧
      longFork.map (fun visited =>
        (RedbMempool.findInflight visited.2.store 1).map fun tx => (tx.stage, tx.confirmations)) =
        [none, some (.propagated, 0), some (.confirmed, 1), some (.confirmed, 2),
          some (.confirmed, 3), some (.confirmed, 4), some (.confirmed, 5), none] ∧
      longFork.getLast?.map (fun visited => RedbMempool.logged visited.2.store) =
        some [(1, false)] ∧
      ¬ AtDepth [inclusionBlock] 1 3 ∧
      ¬ ∃ depth, 6 ≤ depth ∧ AtDepth [inclusionBlock, emptyBlock] 1 depth := by
  refine ⟨isRun_longFork, rfl, ?_, ?_, ?_, ?_⟩
  · rfl
  · rfl
  · intro deep
    have bounded := depth_le_length deep
    simp at bounded
  · rintro ⟨depth, enough, deep⟩
    have bounded := depth_le_length deep
    simp at bounded
    omega

end MempoolForks

end Dolos
