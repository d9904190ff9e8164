import Dolos.Cardano.WalChain

/-!
# Following the headers of a peer

`ChainFragment` of `cardano/src/consensus.rs` and `Worker::pull_headers` of
`src/sync/pull.rs`. The worker asks a peer for headers, keeps the points it has accepted
until a batch is full, and hands on either a batch of points to fetch or a rollback that
reaches below the batch.

What it hands on, replayed, is the chain of the peer: whatever a rollback takes back
inside the batch is never handed on.
-/

namespace Dolos

/-- A header as the worker reads it. -/
structure Header where
  slot : ℕ
  hash : BlockHash
  previousHash : Option BlockHash
  deriving DecidableEq, Repr

def Header.point (header : Header) : ChainPoint := .specific header.slot header.hash

/-- A point as it is on the wire. -/
inductive PallasPoint where
  | origin
  | specific (slot : ℕ) (hash : BlockHash)
  deriving DecidableEq, Repr

def PallasPoint.toChainPoint : PallasPoint → ChainPoint
  | origin => .origin
  | specific slot hash => .specific slot hash

inductive NextResponse where
  | rollForward (header : Header)
  | rollBackward (point : PallasPoint)
  | await
  deriving DecidableEq, Repr

inductive RollbackResult where
  | handled
  | outOfScope (point : ChainPoint)
  deriving DecidableEq, Repr

namespace ChainFragment

def rollBack (chain : ChainFragment) (point : ChainPoint) : RollbackResult × ChainFragment :=
  match chain.pending.findIdx? fun held => held.eq point with
  | some position => (.handled, ⟨point, chain.pending.take (position + 1)⟩)
  | none => (.outOfScope point, ⟨point, []⟩)

def takePending (chain : ChainFragment) : List ChainPoint × ChainFragment :=
  (chain.pending, ⟨chain.tip, []⟩)

end ChainFragment

inductive PullResult where
  | blocks (points : List ChainPoint)
  | rollback (point : ChainPoint)
  | empty
  deriving DecidableEq, Repr

/-- How a call ends, with the responses that are still to be read. A call may also be
waiting for the next one. -/
inductive PullOutcome where
  | returned (result : PullResult) (chain : ChainFragment) (unread : List NextResponse)
  | restarted (chain : ChainFragment) (unread : List NextResponse)
  | waiting (chain : ChainFragment)
  deriving DecidableEq, Repr

/-- What follows the loop of `pull_headers`. -/
def finishPull (chain : ChainFragment) (unread : List NextResponse) : PullOutcome :=
  let (points, chain) := chain.takePending
  if points.isEmpty then .returned .empty chain unread else .returned (.blocks points) chain unread

/-- The loop of `pull_headers`: handled rollbacks do not count as gathered. -/
def pullHeaders (maxHeaders : ℕ) : ℕ → ChainFragment → List NextResponse → PullOutcome
  | gathered, chain, [] => if gathered < maxHeaders then .waiting chain else finishPull chain []
  | gathered, chain, response :: rest =>
      if gathered < maxHeaders then
        match response with
        | .rollForward header =>
            match chain.rollForward header.point header.previousHash with
            | (.error _, chain) => .restarted chain (response :: rest)
            | (.ok _, chain) => pullHeaders maxHeaders (gathered + 1) chain rest
        | .rollBackward point =>
            match chain.rollBack point.toChainPoint with
            | (.outOfScope point, chain) => .returned (.rollback point) chain rest
            | (.handled, chain) => pullHeaders maxHeaders gathered chain rest
        | .await => finishPull chain rest
      else finishPull chain (response :: rest)

inductive PullStatus where
  | idle
  | restarted
  | waiting
  deriving DecidableEq, Repr

/-- What a worker has handed on after some calls. -/
structure PullRun where
  results : List PullResult
  chain : ChainFragment
  unread : List NextResponse
  status : PullStatus
  deriving DecidableEq, Repr

/-- Calls one after the other, each with its own limit. -/
def pullAll : List ℕ → ChainFragment → List NextResponse → PullRun
  | [], chain, responses => ⟨[], chain, responses, .idle⟩
  | maxHeaders :: calls, chain, responses =>
      match pullHeaders maxHeaders 0 chain responses with
      | .returned result chain unread =>
          let later := pullAll calls chain unread
          { later with results := result :: later.results }
      | .restarted chain unread => ⟨[], chain, unread, .restarted⟩
      | .waiting chain => ⟨[], chain, [], .waiting⟩

section Replay

/-- A chain cut after a point; a point below it leaves nothing. -/
def truncateTo (chain : List ChainPoint) (point : ChainPoint) : List ChainPoint :=
  match chain.findIdx? fun held => held.eq point with
  | some position => chain.take (position + 1)
  | none => []

/-- What is downstream of the worker does with a result. -/
def replayResult (chain : List ChainPoint) : PullResult → List ChainPoint
  | .blocks points => chain ++ points
  | .rollback point => truncateTo chain point
  | .empty => chain

def replay (known : List ChainPoint) (results : List PullResult) : List ChainPoint :=
  results.foldl replayResult known

/-- The point a result leaves the worker at. -/
def handOn (since : ChainPoint) : PullResult → ChainPoint
  | .blocks points => points.getLastD since
  | .rollback point => point
  | .empty => since

/-- The point the next batch starts from. -/
def handedOn (base : ChainPoint) (results : List PullResult) : ChainPoint :=
  results.foldl handOn base

/-- The chain a peer tells of. -/
def tell (chain : List ChainPoint) : NextResponse → List ChainPoint
  | .rollForward header => chain ++ [header.point]
  | .rollBackward point => truncateTo chain point.toChainPoint
  | .await => chain

def peerChain (known : List ChainPoint) (responses : List NextResponse) : List ChainPoint :=
  responses.foldl tell known

/-- A peer never announces a block that is on its chain already. -/
def Announces : List ChainPoint → List NextResponse → Prop
  | _, [] => True
  | chain, response :: rest =>
      (∀ header, response = .rollForward header → header.point ∉ chain) ∧
        Announces (tell chain response) rest

/-- Headers that extend each other from a point on, up to the tip. -/
def Contiguous : ChainPoint → List Header → ChainPoint → Prop
  | base, [], tip => tip = base
  | base, header :: rest, tip =>
      checkExtension base header.slot header.previousHash = .ok () ∧
        Contiguous header.point rest tip

/-- Points of headers that were announced and extend each other between two points. -/
def Continues (handled : List NextResponse) (since : ChainPoint) (points : List ChainPoint)
    (tip : ChainPoint) : Prop :=
  ∃ headers : List Header, headers.map Header.point = points ∧ Contiguous since headers tip ∧
    ∀ header ∈ headers, .rollForward header ∈ handled

/-- Every batch among the results extends the point where the results before it have left
the worker, and leaves it at its own last point. -/
def BatchesContinue (handled : List NextResponse) (base : ChainPoint)
    (results : List PullResult) : Prop :=
  ∀ earlier points later, results = earlier ++ .blocks points :: later →
    points ≠ [] ∧ Continues handled (handedOn base earlier) points
      (handedOn base (earlier ++ [.blocks points]))

end Replay

namespace ChainFragment

variable {chain : ChainFragment}

theorem rollForward_of_error {point : ChainPoint} {previousHash : Option BlockHash}
    {failure : DomainError} (rejected : (chain.rollForward point previousHash).1 = .error failure) :
    (chain.rollForward point previousHash).2 = chain := by
  unfold rollForward at rejected ⊢
  split
  · rfl
  · next accepted => simp [accepted] at rejected

end ChainFragment

section Truncation

variable {first second : List ChainPoint} {point : PallasPoint}

theorem PallasPoint.eq_imp {held : ChainPoint} (same : held.eq point.toChainPoint = true) :
    held = point.toChainPoint := by
  cases point with
  | origin =>
      cases held with
      | origin => rfl
      | slotOnly slot => cases same
      | specific slot hash => cases same
  | specific slot hash => exact ChainPoint.eq_of_eq_specific same

/-- A point that is not in the last part cuts what comes before it. -/
theorem truncateTo_append_of_none
    (absent : (second.findIdx? fun held => held.eq point.toChainPoint) = none) :
    truncateTo (first ++ second) point.toChainPoint = truncateTo first point.toChainPoint := by
  unfold truncateTo
  rw [List.findIdx?_append, absent, Option.map_none, Option.or_none]
  cases found : first.findIdx? fun held => held.eq point.toChainPoint with
  | none => rfl
  | some position =>
      have inside := (List.findIdx?_eq_some_iff_getElem.mp found).1
      have fits : position + 1 ≤ first.length := by omega
      exact List.take_append_of_le_length fits

/-- A point of the last part cuts there, as it is nowhere else. -/
theorem truncateTo_append_of_some {position : ℕ} (nodup : (first ++ second).Nodup)
    (found : (second.findIdx? fun held => held.eq point.toChainPoint) = some position) :
    truncateTo (first ++ second) point.toChainPoint = first ++ second.take (position + 1) := by
  rcases List.findIdx?_eq_some_iff_getElem.mp found with ⟨inside, same, -⟩
  have isPoint := PallasPoint.eq_imp same
  have absent : (first.findIdx? fun held => held.eq point.toChainPoint) = none := by
    apply List.findIdx?_eq_none_iff.mpr
    intro held member
    by_contra isSame
    have heldEq := PallasPoint.eq_imp (Bool.of_not_eq_false isSame)
    apply (List.nodup_append.mp nodup).2.2 held member second[position] (List.getElem_mem inside)
    rw [heldEq, isPoint]
  unfold truncateTo
  rw [List.findIdx?_append, absent, found, Option.map_some, Option.none_or]
  change (first ++ second).take (position + first.length + 1) = _
  rw [show position + first.length + 1 = first.length + (position + 1) by omega,
    List.take_length_add_append]

theorem announces_append {known : List ChainPoint} {earlier later : List NextResponse} :
    Announces known (earlier ++ later) ↔
      Announces known earlier ∧ Announces (peerChain known earlier) later := by
  induction earlier generalizing known with
  | nil => simp [Announces, peerChain]
  | cons response rest ih =>
      rw [List.cons_append, Announces, Announces, ih, and_assoc]
      rfl

theorem contiguous_append {base tip : ChainPoint} {earlier later : List Header} :
    Contiguous base (earlier ++ later) tip ↔
      ∃ middle, Contiguous base earlier middle ∧ Contiguous middle later tip := by
  induction earlier generalizing base with
  | nil => simp [Contiguous]
  | cons header rest ih =>
      simp only [List.cons_append, Contiguous, ih, ← exists_and_left, and_assoc]

theorem tip_of_contiguous {base tip : ChainPoint} {headers : List Header} {last : Header}
    (contiguous : Contiguous base (headers ++ [last]) tip) : tip = last.point := by
  rcases contiguous_append.mp contiguous with ⟨middle, -, -, tipEq⟩
  exact tipEq

end Truncation

theorem handedOn_concat (base : ChainPoint) (results : List PullResult) (result : PullResult) :
    handedOn base (results ++ [result]) = handOn (handedOn base results) result := by
  simp [handedOn]

theorem replay_concat (known : List ChainPoint) (results : List PullResult)
    (result : PullResult) :
    replay known (results ++ [result]) = replayResult (replay known results) result := by
  simp [replay]

namespace Continues

variable {handled : List NextResponse} {since tip : ChainPoint} {points : List ChainPoint}

theorem mono (extended : Continues handled since points tip) (later : List NextResponse) :
    Continues (handled ++ later) since points tip := by
  rcases extended with ⟨headers, pointsEq, contiguous, announced⟩
  refine ⟨headers, pointsEq, contiguous, ?_⟩
  intro header member
  exact List.mem_append_left _ (announced header member)

/-- Some points end at the last of them. -/
theorem getLastD_eq (extended : Continues handled since points tip) :
    points.getLastD since = tip := by
  rcases extended with ⟨headers, rfl, contiguous, -⟩
  rcases List.eq_nil_or_concat headers with rfl | ⟨init, last, rfl⟩
  · exact contiguous.symm
  · rw [List.concat_eq_append] at contiguous ⊢
    rw [tip_of_contiguous contiguous, List.map_append, List.map_singleton, List.getLastD_concat]

theorem take (extended : Continues handled since points tip) {position : ℕ}
    (inside : position < points.length) :
    Continues handled since (points.take (position + 1)) points[position] := by
  rcases extended with ⟨headers, rfl, contiguous, announced⟩
  have longEnough : position < headers.length := by simpa using inside
  refine ⟨headers.take (position + 1), List.map_take, ?_, ?_⟩
  · rw [← List.take_append_drop (position + 1) headers] at contiguous
    rcases contiguous_append.mp contiguous with ⟨middle, upTo, -⟩
    have lastIs : headers.take (position + 1) =
        headers.take position ++ [headers[position]] :=
      (List.take_append_getElem longEnough).symm
    have middleIs : middle = (headers.map Header.point)[position] := by
      rw [lastIs] at upTo
      rw [tip_of_contiguous upTo, List.getElem_map]
    rw [← middleIs]
    exact upTo
  · intro header member
    exact announced header (List.mem_of_mem_take member)

end Continues

namespace BatchesContinue

variable {handled : List NextResponse} {base : ChainPoint} {results : List PullResult}

theorem mono (batches : BatchesContinue handled base results) (later : List NextResponse) :
    BatchesContinue (handled ++ later) base results := by
  intro earlier points rest split
  rcases batches earlier points rest split with ⟨nonempty, extended⟩
  exact ⟨nonempty, extended.mono later⟩

theorem concat (batches : BatchesContinue handled base results) {result : PullResult}
    (last : ∀ points, result = .blocks points →
      points ≠ [] ∧ Continues handled (handedOn base results) points
        (handedOn base (results ++ [.blocks points]))) :
    BatchesContinue handled base (results ++ [result]) := by
  intro earlier points rest split
  rcases List.eq_nil_or_concat rest with rfl | ⟨init, final, rfl⟩
  · rcases List.append_inj' split rfl with ⟨rfl, resultEq⟩
    exact last points (List.singleton_inj.mp resultEq)
  · rw [List.concat_eq_append, ← List.cons_append, ← List.append_assoc] at split
    rcases List.append_inj' split rfl with ⟨resultsEq, -⟩
    exact batches earlier points init resultsEq

end BatchesContinue

/-- A worker that has handled some responses: what is pending extends the point where the
results have left it, and with what it has handed on it is the chain of the peer. -/
structure Following (known : List ChainPoint) (base : ChainPoint) (results : List PullResult)
    (handled : List NextResponse) (chain : ChainFragment) : Prop where
  tracked : Continues handled (handedOn base results) chain.pending chain.tip
  batches : BatchesContinue handled base results
  follows : known.Nodup → Announces known handled →
    (replay known results ++ chain.pending).Nodup ∧
      replay known results ++ chain.pending = peerChain known handled

namespace Following

variable {known : List ChainPoint} {base : ChainPoint} {results : List PullResult}
  {handled : List NextResponse} {chain : ChainFragment}

theorem start (known : List ChainPoint) (base : ChainPoint) :
    Following known base [] [] (.start base) := by
  refine ⟨⟨[], rfl, rfl, by simp⟩, by simp [BatchesContinue], ?_⟩
  intro nodup _
  simpa [ChainFragment.start, peerChain, replay] using nodup

theorem peerChain_concat (known : List ChainPoint) (handled : List NextResponse)
    (response : NextResponse) :
    peerChain known (handled ++ [response]) = tell (peerChain known handled) response := by
  simp [peerChain]

theorem forward (following : Following known base results handled chain) {header : Header}
    {point : ChainPoint} {after : ChainFragment}
    (accepted : chain.rollForward header.point header.previousHash = (.ok point, after)) :
    Following known base results (handled ++ [.rollForward header]) after := by
  unfold ChainFragment.rollForward at accepted
  split at accepted
  · cases accepted
  · next extended =>
      rcases Prod.mk.inj accepted with ⟨-, rfl⟩
      refine ⟨?_, following.batches.mono _, ?_⟩
      · rcases following.tracked with ⟨headers, pendingEq, contiguous, announced⟩
        refine ⟨headers ++ [header], ?_, ?_, ?_⟩
        · rw [List.map_append, pendingEq]
          rfl
        · exact contiguous_append.mpr ⟨chain.tip, contiguous, extended, rfl⟩
        · intro other member
          rcases List.mem_append.mp member with isEarlier | isLast
          · exact List.mem_append_left _ (announced other isEarlier)
          · rw [List.mem_singleton.mp isLast]
            exact List.mem_append_right _ (List.mem_singleton.mpr rfl)
      · intro nodup announces
        rcases announces_append.mp announces with ⟨before, fresh, -⟩
        rcases following.follows nodup before with ⟨held, same⟩
        have unseen := fresh header rfl
        rw [← same] at unseen
        rw [peerChain_concat, ← same, tell, ← List.append_assoc]
        refine ⟨?_, rfl⟩
        rw [List.nodup_append]
        refine ⟨held, by simp, ?_⟩
        intro earlier member later isLast
        rw [List.mem_singleton.mp isLast]
        rintro rfl
        exact unseen member

theorem backHandled (following : Following known base results handled chain)
    {point : PallasPoint} {after : ChainFragment}
    (handledEq : chain.rollBack point.toChainPoint = (.handled, after)) :
    Following known base results (handled ++ [.rollBackward point]) after := by
  unfold ChainFragment.rollBack at handledEq
  split at handledEq
  · next position found =>
      rcases Prod.mk.inj handledEq with ⟨-, rfl⟩
      rcases List.findIdx?_eq_some_iff_getElem.mp found with ⟨inside, same, -⟩
      have isPoint := PallasPoint.eq_imp same
      refine ⟨?_, following.batches.mono _, ?_⟩
      · rw [← isPoint]
        exact (following.tracked.take inside).mono _
      · intro nodup announces
        rcases announces_append.mp announces with ⟨before, -⟩
        rcases following.follows nodup before with ⟨held, same⟩
        rw [peerChain_concat, ← same, tell, truncateTo_append_of_some held found]
        refine ⟨?_, rfl⟩
        exact held.sublist (List.Sublist.append_left (List.take_sublist _ _) _)
  · cases handledEq

theorem backOutOfScope (following : Following known base results handled chain)
    {point : PallasPoint} {reported : ChainPoint} {after : ChainFragment}
    (outEq : chain.rollBack point.toChainPoint = (.outOfScope reported, after)) :
    after.pending = [] ∧ Following known base (results ++ [.rollback reported])
      (handled ++ [.rollBackward point]) after := by
  unfold ChainFragment.rollBack at outEq
  split at outEq
  · cases outEq
  · next absent =>
      rcases Prod.mk.inj outEq with ⟨reportedEq, rfl⟩
      rcases RollbackResult.outOfScope.inj reportedEq with rfl
      refine ⟨rfl, ⟨[], rfl, ?_, by simp⟩, (following.batches.mono _).concat (by simp), ?_⟩
      · rw [handedOn_concat]
        rfl
      · intro nodup announces
        rcases announces_append.mp announces with ⟨before, -⟩
        rcases following.follows nodup before with ⟨held, same⟩
        rw [replay_concat, replayResult, peerChain_concat, ← same, tell,
          truncateTo_append_of_none absent, List.append_nil]
        refine ⟨?_, rfl⟩
        have kept : (truncateTo (replay known results) point.toChainPoint).Sublist
            (replay known results) := by
          unfold truncateTo
          split
          · exact List.take_sublist _ _
          · exact List.nil_sublist _
        exact (held.sublist (List.sublist_append_left _ _)).sublist kept

theorem await (following : Following known base results handled chain) :
    Following known base results (handled ++ [.await]) chain := by
  refine ⟨following.tracked.mono _, following.batches.mono _, ?_⟩
  intro nodup announces
  rw [peerChain_concat]
  exact following.follows nodup (announces_append.mp announces).1

/-- What a call leaves of what was followed before it. -/
def Outcome (known : List ChainPoint) (base : ChainPoint) (results : List PullResult)
    (handled responses : List NextResponse) : PullOutcome → Prop
  | .returned result chain unread =>
      chain.pending = [] ∧ ∃ read, responses = read ++ unread ∧
        Following known base (results ++ [result]) (handled ++ read) chain
  | .restarted chain unread =>
      ∃ read, responses = read ++ unread ∧ Following known base results (handled ++ read) chain
  | .waiting chain => Following known base results (handled ++ responses) chain

theorem finish (following : Following known base results handled chain)
    (unread : List NextResponse) :
    Outcome known base results handled unread (finishPull chain unread) := by
  have tipIs := following.tracked.getLastD_eq
  unfold finishPull ChainFragment.takePending
  simp only
  split_ifs with isEmpty
  · have nonePending := List.isEmpty_iff.mp isEmpty
    rw [nonePending] at tipIs
    refine ⟨rfl, [], rfl, ⟨[], rfl, ?_, by simp⟩, ?_, ?_⟩
    · rw [handedOn_concat]
      exact tipIs.symm
    · rw [List.append_nil]
      exact following.batches.concat (by simp)
    · intro nodup announces
      rw [List.append_nil] at announces ⊢
      have followed := following.follows nodup announces
      rw [nonePending, List.append_nil] at followed
      rw [replay_concat, List.append_nil]
      exact followed
  · have tipAfter : handedOn base (results ++ [.blocks chain.pending]) = chain.tip := by
      rw [handedOn_concat]
      exact tipIs
    refine ⟨rfl, [], rfl, ⟨[], rfl, tipAfter.symm, by simp⟩, ?_, ?_⟩
    · rw [List.append_nil]
      apply following.batches.concat
      intro points pointsEq
      rcases PullResult.blocks.inj pointsEq with rfl
      rw [tipAfter]
      exact ⟨fun none => isEmpty (List.isEmpty_iff.mpr none), following.tracked⟩
    · intro nodup announces
      rw [List.append_nil] at announces ⊢
      rw [replay_concat, List.append_nil]
      exact following.follows nodup announces

/-- An outcome after one more response. -/
theorem outcome_cons {response : NextResponse} {responses : List NextResponse}
    {outcome : PullOutcome}
    (later : Outcome known base results (handled ++ [response]) responses outcome) :
    Outcome known base results handled (response :: responses) outcome := by
  cases outcome with
  | returned result chain unread =>
      rcases later with ⟨drained, read, split, following⟩
      refine ⟨drained, response :: read, by rw [split, List.cons_append], ?_⟩
      rwa [List.append_assoc] at following
  | restarted chain unread =>
      rcases later with ⟨read, split, following⟩
      refine ⟨response :: read, by rw [split, List.cons_append], ?_⟩
      rwa [List.append_assoc] at following
  | waiting chain =>
      rw [Outcome, List.append_assoc] at later
      exact later

theorem pulled (following : Following known base results handled chain)
    (maxHeaders gathered : ℕ) (responses : List NextResponse) :
    Outcome known base results handled responses
      (pullHeaders maxHeaders gathered chain responses) := by
  induction responses generalizing gathered chain handled with
  | nil =>
      rw [pullHeaders.eq_def]
      simp only
      split_ifs
      · rw [Outcome, List.append_nil]
        exact following
      · exact following.finish []
  | cons response rest ih =>
      rw [pullHeaders.eq_def]
      simp only
      split_ifs
      · cases response with
        | rollForward header =>
            cases step : chain.rollForward header.point header.previousHash with
            | mk outcome after =>
                simp only [step]
                cases outcome with
                | error failure =>
                    have unchanged : after = chain := by
                      have kept := ChainFragment.rollForward_of_error (by rw [step])
                      rwa [step] at kept
                    refine ⟨[], rfl, ?_⟩
                    rw [unchanged, List.append_nil]
                    exact following
                | ok point => exact outcome_cons (ih (following.forward step) (gathered + 1))
        | rollBackward point =>
            cases step : chain.rollBack point.toChainPoint with
            | mk outcome after =>
                simp only [step]
                cases outcome with
                | handled => exact outcome_cons (ih (following.backHandled step) gathered)
                | outOfScope reported =>
                    rcases following.backOutOfScope step with ⟨drained, later⟩
                    exact ⟨drained, [.rollBackward point], rfl, later⟩
        | await => exact outcome_cons (following.await.finish rest)
      · exact following.finish (response :: rest)

/-- What calls one after the other leave. -/
theorem pulledAll (following : Following known base results handled chain) (calls : List ℕ)
    (responses : List NextResponse) :
    ∃ read, responses = read ++ (pullAll calls chain responses).unread ∧
      Following known base (results ++ (pullAll calls chain responses).results)
        (handled ++ read) (pullAll calls chain responses).chain := by
  induction calls generalizing chain responses results handled with
  | nil =>
      refine ⟨[], rfl, ?_⟩
      rw [pullAll, List.append_nil, List.append_nil]
      exact following
  | cons maxHeaders calls ih =>
      have outcome := following.pulled maxHeaders 0 responses
      rw [pullAll]
      cases ended : pullHeaders maxHeaders 0 chain responses with
      | returned result after unread =>
          rw [ended] at outcome
          rcases outcome with ⟨-, read, split, later⟩
          rcases ih later unread with ⟨further, splitLater, last⟩
          refine ⟨read ++ further, ?_, ?_⟩
          · rw [List.append_assoc, split, ← splitLater]
          · rw [List.append_assoc, List.singleton_append] at last
            rw [← List.append_assoc]
            exact last
      | restarted after unread =>
          rw [ended] at outcome
          rw [List.append_nil]
          exact outcome
      | waiting after =>
          rw [ended] at outcome
          rw [List.append_nil]
          exact ⟨responses, by simp, outcome⟩

theorem drained_of_idle (following : Following known base results handled chain)
    (drained : chain.pending = []) (calls : List ℕ) (responses : List NextResponse)
    (idle : (pullAll calls chain responses).status = .idle) :
    (pullAll calls chain responses).chain.pending = [] := by
  induction calls generalizing chain responses results handled with
  | nil => exact drained
  | cons maxHeaders calls ih =>
      have outcome := following.pulled maxHeaders 0 responses
      rw [pullAll] at idle ⊢
      cases ended : pullHeaders maxHeaders 0 chain responses with
      | returned result after unread =>
          rw [ended] at outcome idle
          rcases outcome with ⟨isEmpty, read, split, later⟩
          exact ih later isEmpty unread idle
      | restarted after unread =>
          rw [ended] at idle
          cases idle
      | waiting after =>
          rw [ended] at idle
          cases idle

end Following

/-- Whatever a peer answers and however many headers each call may gather, a refused header
changes nothing, every batch handed on extends the point where the results before it have
left the worker, what is pending extends the point where all of them have, up to the tip, and
what was handed on, with what is pending, is the chain the peer told of. -/
theorem header_tracking (known : List ChainPoint) (base : ChainPoint) (calls : List ℕ)
    (responses : List NextResponse) :
    (∀ (chain : ChainFragment) point previousHash failure,
      (chain.rollForward point previousHash).1 = .error failure →
        (chain.rollForward point previousHash).2 = chain) ∧
    ∃ handled, responses = handled ++ (pullAll calls (.start base) responses).unread ∧
      BatchesContinue handled base (pullAll calls (.start base) responses).results ∧
      Continues handled (handedOn base (pullAll calls (.start base) responses).results)
        (pullAll calls (.start base) responses).chain.pending
        (pullAll calls (.start base) responses).chain.tip ∧
      ((pullAll calls (.start base) responses).status = .idle →
        (pullAll calls (.start base) responses).chain.pending = []) ∧
      (known.Nodup → Announces known handled →
        replay known (pullAll calls (.start base) responses).results ++
            (pullAll calls (.start base) responses).chain.pending =
          peerChain known handled) := by
  refine ⟨?_, ?_⟩
  · intro chain point previousHash failure rejected
    exact ChainFragment.rollForward_of_error rejected
  · have started := Following.start known base
    rcases started.pulledAll calls responses with ⟨handled, split, following⟩
    rw [List.nil_append, List.nil_append] at following
    refine ⟨handled, split, following.batches, following.tracked, ?_, ?_⟩
    · exact started.drained_of_idle rfl calls responses
    · intro nodup announces
      exact (following.follows nodup announces).2

namespace ForkedPeer

def base : ChainPoint := .specific 5 0

def first : Header := ⟨10, 1, some 0⟩

def second : Header := ⟨20, 2, some 1⟩

def other : Header := ⟨21, 3, some 1⟩

/-- The second block is taken back after it was handed on. -/
def responses : List NextResponse :=
  [.rollForward first, .rollForward second, .rollBackward (.specific 10 1), .rollForward other,
    .await]

theorem announces_responses : Announces [base] responses := by
  simp [Announces, responses, tell, truncateTo, base, first, second, other, Header.point,
    PallasPoint.toChainPoint, List.findIdx?_cons]

theorem pulled_responses : pullAll [2, 3, 3] (.start base) responses =
    ⟨[.blocks [first.point, second.point], .rollback first.point, .blocks [other.point]],
      ⟨other.point, []⟩, [], .idle⟩ := by
  decide

theorem header_tracking_forked :
    replay [base] [.blocks [first.point, second.point], .rollback first.point,
      .blocks [other.point]] = peerChain [base] responses := by
  rcases header_tracking [base] base [2, 3, 3] responses with ⟨-, handled, split, -, -, -, follows⟩
  rw [pulled_responses] at split follows
  rw [List.append_nil] at split
  rw [← split] at follows
  have told := follows (List.nodup_singleton base) announces_responses
  rwa [List.append_nil] at told

end ForkedPeer

end Dolos
