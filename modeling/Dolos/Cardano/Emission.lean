import Dolos.Cardano.CrawlSpec

/-!
# Where the deltas of a block go

Each visitor writes to namespaces of its own, with deltas whose undo fields are still
empty. Only the DRep visitor writes to representatives and to the governance singleton,
only the datum visitor to datums, and only the flush of the epoch visitor to the epoch.
-/

namespace Dolos

open Outcome DeltaBuilder EntityDelta CardanoDelta

variable [NonceCrypto]

/-- The namespace a delta writes to. -/
def CardanoDelta.ns (delta : CardanoDelta) : Namespace := (ofLex (key delta)).1

/-- Deltas as visitors emit them, for some namespaces. -/
def Within (spaces : List Namespace) (deltas : List CardanoDelta) : Prop :=
  ∀ delta ∈ deltas, delta.ns ∈ spaces ∧ delta.Unapplied

namespace Within

variable {spaces more : List Namespace} {first second : List CardanoDelta}

theorem nil (spaces : List Namespace) : Within spaces [] := by
  intro delta member
  simp at member

theorem cons {delta : CardanoDelta} {rest : List CardanoDelta} (inside : delta.ns ∈ spaces)
    (fresh : delta.Unapplied) (later : Within spaces rest) : Within spaces (delta :: rest) := by
  intro other member
  rcases List.mem_cons.mp member with rfl | isLater
  · exact ⟨inside, fresh⟩
  · exact later other isLater

theorem single {space : Namespace} {delta : CardanoDelta} (inside : delta.ns = space)
    (fresh : delta.Unapplied) : Within [space] [delta] :=
  cons (List.mem_singleton.mpr inside) fresh (nil _)

theorem append (left : Within spaces first) (right : Within spaces second) :
    Within spaces (first ++ second) := by
  intro delta member
  rcases List.mem_append.mp member with isLeft | isRight
  · exact left delta isLeft
  · exact right delta isRight

theorem flatMap {ι : Type} {items : List ι} {added : ι → List CardanoDelta}
    (each : ∀ item ∈ items, Within spaces (added item)) : Within spaces (items.flatMap added) := by
  intro delta member
  rcases List.mem_flatMap.mp member with ⟨item, isItem, isAdded⟩
  exact each item isItem delta isAdded

theorem mono (within : Within spaces first) (wider : ∀ space ∈ spaces, space ∈ more) :
    Within more first := by
  intro delta member
  rcases within delta member with ⟨inside, fresh⟩
  exact ⟨wider _ inside, fresh⟩

theorem map {ι : Type} {items : List ι} {added : ι → CardanoDelta}
    (each : ∀ item, (added item).ns ∈ spaces ∧ (added item).Unapplied) :
    Within spaces (items.map added) := by
  intro delta member
  rcases List.mem_map.mp member with ⟨item, -, rfl⟩
  exact each item

theorem toList {ι : Type} {item : Option ι} {added : ι → CardanoDelta}
    (each : ∀ item, (added item).ns ∈ spaces ∧ (added item).Unapplied) :
    Within spaces (item.map added).toList := by
  cases item with
  | none => exact nil spaces
  | some held => exact cons (each held).1 (each held).2 (nil spaces)

theorem valueOr {outcome : Except ChainError (List CardanoDelta)}
    (granted : ∀ deltas, outcome = .ok deltas → Within spaces deltas) :
    Within spaces (Outcome.valueOr [] outcome) := by
  cases outcome with
  | error failure => exact nil spaces
  | ok deltas => exact granted deltas rfl

/-- Nothing is added for an entity of another namespace. -/
theorem filter_eq_nil (within : Within spaces first) {index : NsKey} {space : Namespace}
    (isSpace : (ofLex index).1 = space) (outside : space ∉ spaces := by decide) :
    first.filter (fun delta => key delta = index) = [] := by
  apply List.filter_eq_nil_iff.mpr
  intro delta member
  rcases within delta member with ⟨inside, -⟩
  simp only [decide_eq_true_eq]
  intro same
  rw [ns, same, isSpace] at inside
  exact outside inside

end Within

section Hooks

variable (context : RollContext) (slot order : ℕ)

theorem within_accountInput (resolved : MultiEraOutput) :
    Within [.accounts] (valueOr [] (AccountVisitor.visitInput resolved)) := by
  apply Within.valueOr
  intro deltas done
  unfold AccountVisitor.visitInput at done
  split at done
  · cases done
  · rcases bind_eq_ok.mp done with ⟨cred, -, granted⟩
    split at granted
    · rw [← Except.ok.inj granted]
      exact Within.nil _
    · rw [← Except.ok.inj granted]
      exact Within.single rfl trivial

theorem within_accountOutput (output : MultiEraOutput) :
    Within [.accounts] (valueOr [] (AccountVisitor.visitOutput context output)) := by
  apply Within.valueOr
  intro deltas done
  rcases bind_eq_ok.mp done with ⟨address, -, found⟩
  rcases bind_eq_ok.mp found with ⟨cred, -, granted⟩
  split at granted
  · rw [← Except.ok.inj granted]
    exact Within.nil _
  · rw [← Except.ok.inj granted]
    exact Within.single rfl trivial

theorem within_accountWithdrawal (withdrawal : Option DecodedAddress × UInt64) :
    Within [.accounts] (valueOr [] (AccountVisitor.visitWithdrawal withdrawal)) := by
  apply Within.valueOr
  intro deltas done
  unfold AccountVisitor.visitWithdrawal at done
  split at done
  · cases done
  · rcases bind_eq_ok.mp done with ⟨cred, -, granted⟩
    split at granted
    · rw [← Except.ok.inj granted]
      exact Within.nil _
    · rw [← Except.ok.inj granted]
      exact Within.single rfl trivial

theorem within_enqueueMirs (overwrite : Bool) (mir : MoveInstantaneousReward) :
    Within [.pendingMirs] (AccountVisitor.enqueueMirs overwrite mir) := by
  unfold AccountVisitor.enqueueMirs
  split
  · exact Within.nil _
  · apply Within.map
    intro entry
    cases mir.source with
    | reserves => exact ⟨List.mem_singleton.mpr rfl, trivial⟩
    | treasury => exact ⟨List.mem_singleton.mpr rfl, trivial⟩

/-- What a certificate adds besides is for accounts. -/
theorem accountCert_spec {cert : MultiEraCert} {deltas : List CardanoDelta}
    (done : AccountVisitor.visitCert context slot order cert = .ok deltas) :
    ∃ own, Within [.accounts] own ∧ deltas = own ++ (cert.asMirCertificate.map
      (AccountVisitor.enqueueMirs (AccountVisitor.mirOverwrites context))).getD [] := by
  have isAccount : Namespace.accounts ∈ [Namespace.accounts] := by simp
  rcases bind_eq_ok.mp done with ⟨registered, registeredEq, granted⟩
  refine ⟨_, ?_, (Except.ok.inj granted).symm⟩
  refine Within.append (Within.append (Within.append ?_ ?_) ?_) ?_
  · unfold AccountVisitor.visitRegistration at registeredEq
    split at registeredEq
    · rw [← Except.ok.inj registeredEq]
      exact Within.nil _
    · rcases bind_eq_ok.mp registeredEq with ⟨deposit, -, isRegistered⟩
      rw [← Except.ok.inj isRegistered]
      exact Within.cons isAccount trivial (Within.nil _)
  · exact Within.toList fun _ => ⟨isAccount, trivial⟩
  · exact Within.toList fun _ => ⟨isAccount, trivial⟩
  · exact Within.toList fun _ => ⟨isAccount, trivial⟩

theorem within_accountCert (cert : MultiEraCert) :
    Within [.accounts, .pendingMirs]
      (valueOr [] (AccountVisitor.visitCert context slot order cert)) := by
  apply Within.valueOr
  intro deltas done
  rcases accountCert_spec context slot order done with ⟨own, within, rfl⟩
  refine (within.mono (by simp)).append ?_
  cases cert.asMirCertificate with
  | none => exact Within.nil _
  | some mir => exact (within_enqueueMirs _ mir).mono (by simp)

theorem within_poolRoot (block : DecodedBlock) :
    Within [.pools] (PoolStateVisitor.visitRoot context block) :=
  Within.toList fun _ => ⟨List.mem_singleton.mpr rfl, trivial⟩

theorem within_poolCert (cert : MultiEraCert) :
    Within [.pools] (valueOr [] (PoolStateVisitor.visitCert context slot cert)) := by
  apply Within.valueOr
  intro deltas done
  rcases bind_eq_ok.mp done with ⟨registered, registeredEq, granted⟩
  rw [← Except.ok.inj granted]
  apply Within.append
  · unfold PoolStateVisitor.visitRegistration at registeredEq
    split at registeredEq
    · rw [← Except.ok.inj registeredEq]
      exact Within.nil _
    · rcases bind_eq_ok.mp registeredEq with ⟨deposit, -, isRegistered⟩
      rw [← Except.ok.inj isRegistered]
      exact Within.single rfl rfl
  · exact Within.toList fun _ => ⟨List.mem_singleton.mpr rfl, trivial⟩

theorem within_datumInput (resolved : MultiEraOutput) :
    Within [.datums] (DatumVisitor.visitInput resolved) := by
  unfold DatumVisitor.visitInput
  split
  · exact Within.single rfl rfl
  · exact Within.nil _

theorem within_datumOutput (witnessDatums : OrderedMap BlockHash (List UInt8))
    (output : MultiEraOutput) :
    Within [.datums] (DatumVisitor.visitOutput witnessDatums output) := by
  unfold DatumVisitor.visitOutput
  split
  · split
    · exact Within.single rfl trivial
    · exact Within.nil _
  · exact Within.nil _

theorem within_update (carrier : BlockHash) (update : Option PParamsSet) :
    Within [.proposals]
      (update.map (ProposalVisitor.visitUpdate context slot carrier)).toList :=
  Within.toList fun _ => ⟨List.mem_singleton.mpr rfl, trivial⟩

theorem within_proposal (hash : BlockHash) (proposal : ProposalProcedure × ℕ) :
    Within [.proposals] (proposalDeltas context slot hash proposal) := by
  apply Within.valueOr
  intro deltas done
  rcases bind_eq_ok.mp done with ⟨action, -, parsed⟩
  rcases bind_eq_ok.mp parsed with ⟨account, -, granted⟩
  split at granted
  · cases granted
  · rw [← Except.ok.inj granted]
    exact Within.single rfl trivial

theorem within_expiryUpdate (drep : DRep) (expiry : Option ℕ) (onlyIfRegistered : Bool) :
    Within [.dreps] (DRepStateVisitor.expiryUpdate context drep expiry onlyIfRegistered) :=
  Within.toList fun _ => ⟨List.mem_singleton.mpr rfl, trivial⟩

theorem within_voter (dormancy : DormancyContext) (voter : Voter) :
    Within [.dreps] (DRepStateVisitor.visitVoter context slot dormancy voter) := by
  unfold DRepStateVisitor.visitVoter
  split
  · exact Within.nil _
  · exact Within.cons (List.mem_singleton.mpr rfl) trivial (within_expiryUpdate context _ _ _)

theorem within_drepTx (tx : MultiEraTx) (dormancy : DormancyContext) :
    Within [.dreps, .gov] (DRepStateVisitor.visitTx context slot tx dormancy).1 := by
  have wider : ∀ space ∈ [Namespace.dreps], space ∈ [Namespace.dreps, .gov] := by simp
  unfold DRepStateVisitor.visitTx
  split_ifs with skipped
  · exact Within.nil _
  · apply Within.append
    · unfold DRepStateVisitor.release
      split_ifs
      · apply Within.append
        · apply Within.map
          intro target
          exact ⟨List.mem_cons_self, trivial⟩
        · exact Within.cons (List.mem_cons_of_mem _ (List.mem_singleton.mpr rfl)) trivial
            (Within.nil _)
      · exact Within.nil _
    · apply Within.flatMap
      intro votes _
      exact (within_voter context slot _ votes.1).mono wider

theorem within_drepDeltas (dormancy : DormancyContext) (cert : MultiEraCert) :
    Within [.dreps] (DRepStateVisitor.drepDeltas context slot order dormancy cert) := by
  have isDRep : Namespace.dreps ∈ [Namespace.dreps] := List.mem_singleton.mpr rfl
  unfold DRepStateVisitor.drepDeltas
  split
  · exact Within.cons isDRep trivial
      (Within.cons isDRep trivial (within_expiryUpdate context _ _ _))
  · exact Within.single rfl trivial
  · exact Within.cons isDRep trivial (within_expiryUpdate context _ _ _)
  · exact Within.nil _

theorem within_drepCert (dormancy : DormancyContext) (cert : MultiEraCert) :
    Within [.dreps, .gov] (DRepStateVisitor.visitCert context slot order cert dormancy).1 := by
  have wider : ∀ space ∈ [Namespace.dreps], space ∈ [Namespace.dreps, .gov] := by simp
  refine Within.append (Within.append (Within.append ?_ ?_) ?_) ?_
  · exact Within.toList fun _ => ⟨List.mem_cons_of_mem _ (List.mem_singleton.mpr rfl), trivial⟩
  · exact Within.toList fun _ => ⟨List.mem_cons_of_mem _ (List.mem_singleton.mpr rfl), trivial⟩
  · exact (within_drepDeltas context slot order dormancy cert).mono wider
  · exact Within.toList fun _ => ⟨List.mem_cons_self, trivial⟩

variable [AssetDigest]

theorem within_assetOutput (hash : BlockHash) (output : MultiEraOutput) :
    Within [.assets] (AssetStateVisitor.visitOutput hash output) := by
  unfold AssetStateVisitor.visitOutput
  split
  · exact Within.nil _
  · apply Within.flatMap
    intro held _
    exact Within.map fun _ => ⟨List.mem_singleton.mpr rfl, trivial⟩

theorem within_mint (tx : MultiEraTx) (mint : Hash28 × List (List UInt8 × ℤ)) :
    Within [.assets] (AssetStateVisitor.visitMint slot tx mint) := by
  apply Within.flatMap
  intro asset _
  refine Within.cons (List.mem_singleton.mpr rfl) trivial ?_
  split_ifs
  · exact Within.single rfl trivial
  · exact Within.nil _

end Hooks

section Blocks

variable (context : RollContext) (slot : ℕ) (utxos : UtxoMap MultiEraOutput)

/-- What a transaction adds for datums: the references it takes away, then those it
makes. -/
def datumDeltas (tx : MultiEraTx) : List CardanoDelta :=
  (tx.consumes.flatMap fun txo => ((utxos.get? txo).map DatumVisitor.visitInput).getD []) ++
    tx.produces.flatMap fun output => DatumVisitor.visitOutput (DatumVisitor.visitTx tx) output.2

/-- What it adds for representatives and governance. -/
def drepTxDeltas (dormancy : DormancyContext) (tx : MultiEraTx × ℕ) : List CardanoDelta :=
  let (visited, reached) := DRepStateVisitor.visitTx context slot tx.1 dormancy
  visited ++ if tx.1.isValid then
    tx.1.certs.flatMap fun cert =>
      (DRepStateVisitor.visitCert context slot tx.2 cert reached).1
  else []

def drepTxsDeltas : DormancyContext → List (MultiEraTx × ℕ) → List CardanoDelta
  | _, [] => []
  | dormancy, tx :: rest =>
      drepTxDeltas context slot dormancy tx ++
        drepTxsDeltas (txDormancy context slot dormancy tx.1) rest

omit [NonceCrypto] in
theorem inputDeltas_eq (txo : TxoRef) :
    inputDeltas utxos txo =
      ((utxos.get? txo).map fun resolved =>
        valueOr [] (AccountVisitor.visitInput resolved)).getD [] ++
      ((utxos.get? txo).map DatumVisitor.visitInput).getD [] := by
  cases held : utxos.get? txo with
  | none => simp [inputDeltas, held]
  | some resolved => simp [inputDeltas, held]

theorem within_inputAccount (txo : TxoRef) :
    Within [.accounts] (((utxos.get? txo).map fun resolved =>
      valueOr [] (AccountVisitor.visitInput resolved)).getD []) := by
  cases utxos.get? txo with
  | none => exact Within.nil _
  | some resolved => exact within_accountInput resolved

theorem within_inputDatum (txo : TxoRef) :
    Within [.datums] (((utxos.get? txo).map DatumVisitor.visitInput).getD []) := by
  cases utxos.get? txo with
  | none => exact Within.nil _
  | some resolved => exact within_datumInput resolved

theorem within_inputs (tx : MultiEraTx) :
    Within [.accounts, .datums] (tx.consumes.flatMap (inputDeltas utxos)) := by
  apply Within.flatMap
  intro txo _
  rw [inputDeltas_eq]
  apply Within.append
  · exact (within_inputAccount utxos txo).mono (by simp)
  · exact (within_inputDatum utxos txo).mono (by simp)

variable [AssetDigest]

theorem within_outputs (tx : MultiEraTx) (witnessDatums : OrderedMap BlockHash (List UInt8)) :
    Within [.accounts, .assets, .datums]
      (tx.produces.flatMap (outputDeltas context tx.hash witnessDatums)) := by
  apply Within.flatMap
  intro output _
  refine Within.append (Within.append ?_ ?_) ?_
  · exact (within_accountOutput context output.2).mono (by simp)
  · exact (within_assetOutput tx.hash output.2).mono (by simp)
  · exact (within_datumOutput witnessDatums output.2).mono (by simp)

omit [AssetDigest] in
theorem within_cert (order : ℕ) (dormancy : DormancyContext) (cert : MultiEraCert) :
    Within [.accounts, .pendingMirs, .dreps, .gov, .pools]
      (certDeltas context slot order dormancy cert) := by
  refine Within.append (Within.append ?_ ?_) ?_
  · exact (within_accountCert context slot order cert).mono (by simp)
  · exact (within_drepCert context slot order dormancy cert).mono (by simp)
  · exact (within_poolCert context slot cert).mono (by simp)

theorem within_body (order : ℕ) (dormancy : DormancyContext) (tx : MultiEraTx) :
    Within [.assets, .accounts, .pendingMirs, .dreps, .gov, .pools, .proposals]
      (bodyDeltas context slot order dormancy tx) := by
  refine Within.append (Within.append (Within.append (Within.append ?_ ?_) ?_) ?_) ?_
  · apply Within.flatMap
    intro mint _
    exact (within_mint slot tx mint).mono (by simp)
  · apply Within.flatMap
    intro cert _
    exact (within_cert context slot order dormancy cert).mono (by simp)
  · apply Within.flatMap
    intro withdrawal _
    exact (within_accountWithdrawal withdrawal).mono (by simp)
  · exact (within_update context slot tx.hash tx.update).mono (by simp)
  · apply Within.flatMap
    intro proposal _
    exact (within_proposal context slot tx.hash proposal).mono (by simp)

/-- Everything a block may be written to by a transaction. -/
def txSpaces : List Namespace :=
  [.accounts, .assets, .datums, .dreps, .gov, .pendingMirs, .pools, .proposals]

theorem within_tx (dormancy : DormancyContext) (tx : MultiEraTx × ℕ) :
    Within txSpaces (txDeltas context slot utxos dormancy tx) := by
  refine Within.append (Within.append (Within.append ?_ ?_) ?_) ?_
  · exact (within_drepTx context slot tx.1 dormancy).mono (by simp [txSpaces])
  · exact (within_inputs utxos tx.1).mono (by simp [txSpaces])
  · exact (within_outputs context tx.1 _).mono (by simp [txSpaces])
  · split_ifs
    · exact (within_body context slot tx.2 _ tx.1).mono (by simp [txSpaces])
    · exact Within.nil _

theorem within_txs (dormancy : DormancyContext) (txs : List (MultiEraTx × ℕ)) :
    Within txSpaces (txsDeltas context slot utxos dormancy txs) := by
  induction txs generalizing dormancy with
  | nil => exact Within.nil _
  | cons tx rest ih => exact Within.append (within_tx context slot utxos dormancy tx) (ih _)

omit [AssetDigest] in
theorem within_kept (block : DecodedBlock) :
    Within [.epochs] [.epochStatsUpdate (txsStats utxos
      (EpochStateVisitor.rootStats context block) block.txs.zipIdx)] :=
  Within.single rfl trivial

omit [AssetDigest] in
theorem within_nonces (block : DecodedBlock) :
    Within [.epochs]
      ((valueOr none (EpochStateVisitor.rootNonces block)).map .noncesUpdate).toList := by
  unfold EpochStateVisitor.rootNonces
  split_ifs
  · split
    · exact Within.single rfl rfl
    · exact Within.nil _
  · exact Within.nil _

omit [AssetDigest] in
theorem within_votes (block : DecodedBlock) :
    Within [.proposals] ((block.txs.zipIdx.flatMap fun tx =>
      ProposalVisitor.visitTx block.slot tx.1).map .voteCast) :=
  Within.map fun _ => ⟨List.mem_singleton.mpr rfl, trivial⟩

theorem within_block (dormancy : DormancyContext) (block : DecodedBlock) :
    Within (.epochs :: txSpaces) (blockDeltas context utxos dormancy block) := by
  rw [blockDeltas_eq]
  refine Within.append (Within.append (Within.append (Within.append (Within.append ?_ ?_) ?_) ?_)
    ?_) ?_
  · exact (within_poolRoot context block).mono (by simp [txSpaces])
  · exact (within_txs context block.slot utxos dormancy _).mono fun _ => List.mem_cons_of_mem _
  · exact (within_update context block.slot block.hash block.update).mono (by simp [txSpaces])
  · exact (within_kept context utxos block).mono (by simp)
  · exact (within_nonces block).mono (by simp)
  · exact (within_votes block).mono (by simp [txSpaces])

/-- The groups of a crawled block are as the log expects them. -/
theorem emitted_of_computeBlockDelta {dormancy after : DormancyContext} {block : DecodedBlock}
    {work : WorkBlock MultiEraOutput}
    (computed : computeBlockDelta context utxos dormancy block = .ok (work, after)) :
    work.Emitted := by
  rcases (computeBlockDelta_eq_ok_iff context utxos).mp computed with ⟨-, -, delta, -, rfl⟩
  intro index delta member
  simp only [WorkDeltas.group_ofList, List.mem_filter, decide_eq_true_eq] at member
  exact ⟨member.2, (within_block context utxos dormancy block delta member.1).2⟩

end Blocks

section Groups

variable (context : RollContext) (slot : ℕ) (utxos : UtxoMap MultiEraOutput) [AssetDigest]

omit [NonceCrypto] [AssetDigest] in
theorem filter_flatMap_congr {ι : Type} {items : List ι} {first second : ι → List CardanoDelta}
    {keep : CardanoDelta → Bool}
    (same : ∀ item, (first item).filter keep = (second item).filter keep) :
    (items.flatMap first).filter keep = (items.flatMap second).filter keep := by
  rw [List.filter_flatMap, List.filter_flatMap]
  simp only [same]

omit [AssetDigest] in
/-- Of the inputs, only what the datum visitor adds is for datums. -/
theorem filter_inputs_datum (tx : MultiEraTx) (hash : BlockHash) :
    (tx.consumes.flatMap (inputDeltas utxos)).filter
        (fun delta => key delta = DatumState.nsKey hash) =
      (tx.consumes.flatMap fun txo => ((utxos.get? txo).map DatumVisitor.visitInput).getD []).filter
        fun delta => key delta = DatumState.nsKey hash := by
  have isDatum : (ofLex (DatumState.nsKey hash)).1 = Namespace.datums := rfl
  apply filter_flatMap_congr
  intro txo
  rw [inputDeltas_eq, List.filter_append,
    (within_inputAccount utxos txo).filter_eq_nil isDatum,
    List.nil_append]

theorem filter_outputs_datum (tx : MultiEraTx) (hash : BlockHash)
    (witnessDatums : OrderedMap BlockHash (List UInt8)) :
    (tx.produces.flatMap (outputDeltas context tx.hash witnessDatums)).filter
        (fun delta => key delta = DatumState.nsKey hash) =
      (tx.produces.flatMap fun output =>
        DatumVisitor.visitOutput witnessDatums output.2).filter
          fun delta => key delta = DatumState.nsKey hash := by
  have isDatum : (ofLex (DatumState.nsKey hash)).1 = Namespace.datums := rfl
  apply filter_flatMap_congr
  intro output
  rw [outputDeltas, List.filter_append, List.filter_append,
    (within_accountOutput context output.2).filter_eq_nil isDatum,
    (within_assetOutput tx.hash output.2).filter_eq_nil isDatum,
    List.nil_append, List.nil_append]

theorem filter_tx_datum (dormancy : DormancyContext) (tx : MultiEraTx × ℕ) (hash : BlockHash) :
    (txDeltas context slot utxos dormancy tx).filter
        (fun delta => key delta = DatumState.nsKey hash) =
      (datumDeltas utxos tx.1).filter fun delta => key delta = DatumState.nsKey hash := by
  have isDatum : (ofLex (DatumState.nsKey hash)).1 = Namespace.datums := rfl
  have body : (if tx.1.isValid then bodyDeltas context slot tx.2
      (DRepStateVisitor.visitTx context slot tx.1 dormancy).2 tx.1 else []).filter
        (fun delta => key delta = DatumState.nsKey hash) = [] := by
    split_ifs
    · exact (within_body context slot tx.2 _ tx.1).filter_eq_nil isDatum
    · rfl
  simp only [txDeltas, datumDeltas, List.filter_append, filter_inputs_datum, filter_outputs_datum,
    body, List.append_nil,
    (within_drepTx context slot tx.1 dormancy).filter_eq_nil isDatum,
    List.nil_append]

theorem filter_txs_datum (dormancy : DormancyContext) (txs : List (MultiEraTx × ℕ))
    (hash : BlockHash) :
    (txsDeltas context slot utxos dormancy txs).filter
        (fun delta => key delta = DatumState.nsKey hash) =
      (txs.flatMap fun tx => datumDeltas utxos tx.1).filter
        fun delta => key delta = DatumState.nsKey hash := by
  induction txs generalizing dormancy with
  | nil => rfl
  | cons tx rest ih =>
      rw [txsDeltas, List.filter_append, filter_tx_datum, ih, List.flatMap_cons,
        List.filter_append]

/-- The group of a datum is what the transactions add for it, one after the other. -/
theorem filter_block_datum (dormancy : DormancyContext) (block : DecodedBlock) (hash : BlockHash) :
    (blockDeltas context utxos dormancy block).filter
        (fun delta => key delta = DatumState.nsKey hash) =
      (block.txs.flatMap (datumDeltas utxos)).filter
        fun delta => key delta = DatumState.nsKey hash := by
  have isDatum : (ofLex (DatumState.nsKey hash)).1 = Namespace.datums := rfl
  have ofTxs : (block.txs.zipIdx.flatMap fun tx => datumDeltas utxos tx.1) =
      block.txs.flatMap (datumDeltas utxos) := by
    rw [← List.flatMap_map, List.zipIdx_map_fst]
  rw [blockDeltas_eq]
  simp only [List.filter_append, filter_txs_datum, ofTxs,
    (within_poolRoot context block).filter_eq_nil isDatum,
    (within_update context block.slot block.hash block.update).filter_eq_nil isDatum,
    (within_kept context utxos block).filter_eq_nil isDatum,
    (within_nonces block).filter_eq_nil isDatum,
    (within_votes block).filter_eq_nil isDatum, List.nil_append, List.append_nil]

end Groups

section Members

variable (context : RollContext) (slot : ℕ) (utxos : UtxoMap MultiEraOutput) [AssetDigest]
variable {delta : CardanoDelta}

/-- The namespaces that only the DRep visitor writes to. -/
def drepSpaces : List Namespace := [.dreps, .gov]

omit [AssetDigest] in
theorem notMem_of_within {spaces : List Namespace} {deltas : List CardanoDelta}
    (within : Within spaces deltas) (isDRep : delta.ns ∈ drepSpaces)
    (outside : ∀ space ∈ drepSpaces, space ∉ spaces := by decide) : delta ∉ deltas := by
  intro member
  exact outside _ isDRep (within delta member).1

theorem mem_body_drep (isDRep : delta.ns ∈ drepSpaces) (order : ℕ) (dormancy : DormancyContext)
    (tx : MultiEraTx) :
    delta ∈ bodyDeltas context slot order dormancy tx ↔
      delta ∈ tx.certs.flatMap fun cert =>
        (DRepStateVisitor.visitCert context slot order cert dormancy).1 := by
  have mints : delta ∉ tx.mints.flatMap (AssetStateVisitor.visitMint slot tx) :=
    notMem_of_within (Within.flatMap fun mint _ => within_mint slot tx mint) isDRep
  have withdrawals : delta ∉ tx.withdrawals.flatMap fun withdrawal =>
      valueOr [] (AccountVisitor.visitWithdrawal withdrawal) :=
    notMem_of_within (Within.flatMap fun withdrawal _ => within_accountWithdrawal withdrawal) isDRep
  have update := notMem_of_within (within_update context slot tx.hash tx.update) isDRep
  have proposals : delta ∉ tx.govProposals.zipIdx.flatMap (proposalDeltas context slot tx.hash) :=
    notMem_of_within
      (Within.flatMap fun proposal _ => within_proposal context slot tx.hash proposal)
      isDRep
  simp only [bodyDeltas, List.mem_append, mints, withdrawals, update, proposals, false_or, or_false,
    List.mem_flatMap, certDeltas]
  constructor
  · rintro ⟨cert, isCert, (account | drep) | pool⟩
    · exact absurd account (notMem_of_within (within_accountCert context slot order cert) isDRep)
    · exact ⟨cert, isCert, drep⟩
    · exact absurd pool (notMem_of_within (within_poolCert context slot cert) isDRep)
  · rintro ⟨cert, isCert, drep⟩
    exact ⟨cert, isCert, Or.inl (Or.inr drep)⟩

theorem mem_tx_drep (isDRep : delta.ns ∈ drepSpaces) (dormancy : DormancyContext)
    (tx : MultiEraTx × ℕ) :
    delta ∈ txDeltas context slot utxos dormancy tx ↔
      delta ∈ drepTxDeltas context slot dormancy tx := by
  have inputs := notMem_of_within (within_inputs utxos tx.1) isDRep
  have outputs := notMem_of_within
    (within_outputs context tx.1 (DatumVisitor.visitTx tx.1)) isDRep
  simp only [txDeltas, drepTxDeltas, List.mem_append, inputs, outputs, or_false]
  by_cases valid : tx.1.isValid
  · simp only [valid, if_true, mem_body_drep context slot isDRep]
  · simp [valid]

end Members

end Dolos
