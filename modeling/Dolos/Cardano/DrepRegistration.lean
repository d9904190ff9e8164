import Dolos.Cardano.DrepLoading

/-!
# Who was registered at a slot

The certificates of a representative alternate between registrations and unregistrations,
and a row keeps the place of the last one of each kind. Whether the representative was
registered before a slot, and whether it has left, is here compared with the replay of
the certificates. Two places are not always enough: a representative that has left and
come back since the slot has lost the registration it held then, and two certificates of
one transaction have one place.
-/

namespace Dolos

open Outcome

/-- A certificate of a representative: what it does, its slot and its transaction. -/
structure DRepCert where
  registers : Bool
  slot : ℕ
  order : ℕ
  deriving DecidableEq, Repr

namespace DRepCert

def position (cert : DRepCert) : ℕ × ℕ := (cert.slot, cert.order)

@[simp] theorem fst_position (cert : DRepCert) : cert.position.1 = cert.slot := rfl

end DRepCert

/-- The certificate behind a delta of the row. -/
def DRepDelta.cert : DRepDelta → Option DRepCert
  | registration delta => some ⟨true, delta.slot, delta.txorder⟩
  | unRegistration delta => some ⟨false, delta.slot, delta.txorder⟩
  | _ => none

inductive DRepStatus where
  | never
  | registered
  | unregistered
  deriving DecidableEq, Repr

namespace DRepStatus

/-- Where a representative stands after its certificates. -/
def replay (certs : List DRepCert) : DRepStatus :=
  certs.foldl (fun _ cert => if cert.registers then registered else unregistered) never

theorem replay_concat (certs : List DRepCert) (cert : DRepCert) :
    replay (certs ++ [cert]) = if cert.registers then registered else unregistered := by
  rw [replay, List.foldl_append]
  rfl

end DRepStatus

section Certs

variable (certs : List DRepCert)

/-- In the order of the chain, the first a registration, and none the same as the one
before it. -/
structure ValidCerts : Prop where
  ordered : certs.Pairwise fun first second => toLex first.position ≤ toLex second.position
  opens : ∀ cert ∈ certs.head?, cert.registers
  alternates : certs.IsChain fun first second => first.registers ≠ second.registers

def certsBefore (slot : ℕ) : List DRepCert := certs.filter fun cert => cert.slot < slot

def certsSince (slot : ℕ) : List DRepCert := certs.filter fun cert => slot ≤ cert.slot

/-- The place of the last certificate of a kind. -/
def lastPlace (registers : Bool) : Option (ℕ × ℕ) :=
  ((certs.filter fun cert => cert.registers = registers).getLast?).map DRepCert.position

/-- The last two certificates are of one transaction. -/
def EndsTogether : Prop :=
  ∃ earlier first second, certs = earlier ++ [first, second] ∧ first.position = second.position

/-- The two places are enough for a slot: one who was registered then has not left and
come back since, and one who came back by the certificate right after it had left, in one
transaction, did so since the slot. -/
structure Recoverable (slot : ℕ) : Prop where
  notBack : DRepStatus.replay (certsBefore certs slot) = .registered →
    (certsSince certs slot).length < 2
  apart : EndsTogether certs → DRepStatus.replay certs = .registered →
    certsSince certs slot ≠ []

/-- The last unregistration is not of the transaction of the registration it ends. -/
def LeavesApart : Prop := EndsTogether certs → DRepStatus.replay certs = .registered

end Certs

theorem lastPlace_concat (certs : List DRepCert) (cert : DRepCert) (registers : Bool) :
    lastPlace (certs ++ [cert]) registers =
      if cert.registers = registers then some cert.position else lastPlace certs registers := by
  unfold lastPlace
  rw [List.filter_append]
  split_ifs with same
  · simp [same]
  · simp [same]

namespace DRepDelta

variable {row after : Option DRepState} {delta : DRepDelta}

/-- The places a row has. -/
def places (row : Option DRepState) (registers : Bool) : Option (ℕ × ℕ) :=
  row.bind fun state => if registers then state.registeredAt else state.unregisteredAt

theorem places_apply (done : delta.apply row = .ok after) (registers : Bool) :
    places after registers =
      match delta.cert with
      | some cert => if cert.registers = registers then some cert.position else places row registers
      | none => places row registers := by
  cases delta with
  | registration delta =>
      cases row <;> cases registers <;> cases done <;> rfl
  | unRegistration delta =>
      cases row <;> cases registers <;> cases done <;> rfl
  | activity delta =>
      cases row <;> cases registers <;> cases done <;> rfl
  | anchorUpdate delta =>
      cases row <;> cases registers <;> cases done <;> rfl
  | expiryUpdate delta =>
      simp only [apply, EntityDelta.apply] at done
      split_ifs at done with skipped
      · cases done
        rfl
      · cases row <;> cases registers <;> cases done <;> rfl
  | dormancyRelease delta =>
      cases row with
      | none =>
          cases done
          rfl
      | some state =>
          simp only [apply, EntityDelta.apply] at done
          split at done <;> cases done <;> rfl
  | expiration delta =>
      cases row <;> cases registers <;> cases done <;> rfl
  | powerUpdate delta =>
      cases row <;> cases registers <;> cases done <;> rfl

/-- A row has the place of the last certificate of each kind. -/
theorem places_applyAll {deltas : List DRepDelta} (done : applyAll none deltas = .ok after)
    (registers : Bool) :
    places after registers = lastPlace (deltas.filterMap cert) registers := by
  induction deltas using List.reverseRecOn generalizing after with
  | nil =>
      cases done
      rfl
  | append_singleton deltas delta ih =>
      rw [applyAll, List.foldlM_append] at done
      rcases bind_eq_ok.mp done with ⟨before, earlier, last⟩
      rw [List.foldlM_cons] at last
      rcases bind_eq_ok.mp last with ⟨reached, applied, same⟩
      cases same
      rw [places_apply applied registers, List.filterMap_append]
      cases certified : delta.cert with
      | none => simp [certified, ih earlier]
      | some cert => simp [certified, ih earlier, lastPlace_concat]

end DRepDelta

section Recovery

variable {certs : List DRepCert} {slot : ℕ} {state : DRepState}

/-- The row of a representative with these certificates. -/
structure RowOf (certs : List DRepCert) (state : DRepState) : Prop where
  registered : state.registeredAt = lastPlace certs true
  unregistered : state.unregisteredAt = lastPlace certs false

theorem DRepDelta.rowOf {deltas : List DRepDelta} (done : applyAll none deltas = .ok (some state)) :
    RowOf (deltas.filterMap cert) state :=
  ⟨places_applyAll done true, places_applyAll done false⟩

/-- What is asked of a row at a slot. -/
def RegistrationJudged (certs : List DRepCert) (state : DRepState) (slot : ℕ) : Prop :=
  state.isRegisteredAsOf slot = decide (DRepStatus.replay (certsBefore certs slot) = .registered)

def LeftJudged (certs : List DRepCert) (state : DRepState) : Prop :=
  state.isUnregistered = decide (DRepStatus.replay certs = .unregistered)

theorem certsBefore_concat (certs : List DRepCert) (cert : DRepCert) (slot : ℕ) :
    certsBefore (certs ++ [cert]) slot =
      if cert.slot < slot then certsBefore certs slot ++ [cert] else certsBefore certs slot := by
  unfold certsBefore
  rw [List.filter_append]
  split_ifs with early <;> simp [early]

theorem certsSince_concat (certs : List DRepCert) (cert : DRepCert) (slot : ℕ) :
    certsSince (certs ++ [cert]) slot =
      if slot ≤ cert.slot then certsSince certs slot ++ [cert] else certsSince certs slot := by
  unfold certsSince
  rw [List.filter_append]
  split_ifs with late <;> simp [late]

theorem slot_le_of_position {first second : DRepCert}
    (le : toLex first.position ≤ toLex second.position) : first.slot ≤ second.slot := by
  rcases Prod.Lex.le_iff.mp le with less | same
  · exact less.le
  · exact same.1.le

/-- Before a certificate that is earlier than the slot, they all are. -/
theorem certsSince_of_last {certs : List DRepCert} {cert : DRepCert}
    (ordered : (certs ++ [cert]).Pairwise fun first second =>
      toLex first.position ≤ toLex second.position)
    (early : cert.slot < slot) : certsSince certs slot = [] := by
  unfold certsSince
  rw [List.filter_eq_nil_iff]
  intro other member late
  have slots := slot_le_of_position
    ((List.pairwise_append.mp ordered).2.2 other member cert (by simp))
  simp only [decide_eq_true_eq] at late
  omega

theorem isRegisteredAsOf_of_both {registered unregistered : ℕ × ℕ}
    (registeredEq : state.registeredAt = some registered)
    (unregisteredEq : state.unregisteredAt = some unregistered) :
    state.isRegisteredAsOf slot =
      decide (registered.1 < slot ∧
        (unregistered.1 < slot → toLex unregistered < toLex registered)) := by
  unfold DRepState.isRegisteredAsOf
  rw [registeredEq, unregisteredEq]
  by_cases first : registered.1 < slot <;> by_cases second : unregistered.1 < slot <;>
    simp [Option.filter, first, second]

theorem isUnregistered_of_both {registered unregistered : ℕ × ℕ}
    (registeredEq : state.registeredAt = some registered)
    (unregisteredEq : state.unregisteredAt = some unregistered) :
    state.isUnregistered = decide (toLex registered < toLex unregistered) := by
  simp [DRepState.isUnregistered, registeredEq, unregisteredEq]

/-- The last two of some certificates: one of each kind, in the order of the chain. -/
structure LastTwo (earlier : List DRepCert) (first second : DRepCert) : Prop where
  ordered : toLex first.position ≤ toLex second.position
  differ : first.registers = !second.registers

theorem ValidCerts.lastTwo {earlier : List DRepCert} {first second : DRepCert}
    (valid : ValidCerts (earlier ++ [first] ++ [second])) : LastTwo earlier first second := by
  refine ⟨?_, ?_⟩
  · exact (List.pairwise_append.mp valid.ordered).2.2 first (by simp) second (by simp)
  · have differ := (List.isChain_append.mp valid.alternates).2.2 first (by simp) second (by simp)
    cases one : first.registers <;> cases other : second.registers <;> simp_all

theorem endsTogether_iff {earlier : List DRepCert} {first second : DRepCert} :
    EndsTogether (earlier ++ [first] ++ [second]) ↔ first.position = second.position := by
  constructor
  · rintro ⟨other, one, two, same, together⟩
    rw [List.append_assoc] at same
    have tails := List.append_inj_right' same rfl
    simp only [List.cons_append, List.nil_append, List.cons.injEq, and_true] at tails
    rw [tails.1, tails.2]
    exact together
  · intro together
    exact ⟨earlier, first, second, by simp, together⟩

theorem not_endsTogether_of_length {certs : List DRepCert} (short : certs.length < 2) :
    ¬EndsTogether certs := by
  rintro ⟨earlier, first, second, rfl, -⟩
  simp only [List.length_append, List.length_cons, List.length_nil] at short
  omega

/-- No certificates, one, or two and more. -/
theorem certs_cases (certs : List DRepCert) :
    certs = [] ∨ (∃ cert, certs = [cert]) ∨
      ∃ earlier first second, certs = earlier ++ [first] ++ [second] := by
  rcases List.eq_nil_or_concat certs with rfl | ⟨rest, second, rfl⟩
  · exact .inl rfl
  · rcases List.eq_nil_or_concat rest with rfl | ⟨earlier, first, rfl⟩
    · exact .inr (.inl ⟨second, by simp⟩)
    · exact .inr (.inr ⟨earlier, first, second, by simp⟩)

/-- The places after two certificates, by which of them brings the representative in. -/
theorem RowOf.places {earlier : List DRepCert} {first second : DRepCert}
    (row : RowOf (earlier ++ [first] ++ [second]) state) (lastTwo : LastTwo earlier first second) :
    (second.registers = true ∧ state.registeredAt = some second.position ∧
      state.unregisteredAt = some first.position) ∨
    (second.registers = false ∧ state.registeredAt = some first.position ∧
      state.unregisteredAt = some second.position) := by
  have differ := lastTwo.differ
  cases kind : second.registers with
  | true =>
      refine .inl ⟨rfl, ?_, ?_⟩
      · rw [row.registered, lastPlace_concat, if_pos kind]
      · rw [row.unregistered, lastPlace_concat, if_neg (by simp [kind]), lastPlace_concat,
          if_pos (by simp [differ, kind])]
  | false =>
      refine .inr ⟨rfl, ?_, ?_⟩
      · rw [row.registered, lastPlace_concat, if_neg (by simp [kind]), lastPlace_concat,
          if_pos (by simp [differ, kind])]
      · rw [row.unregistered, lastPlace_concat, if_pos kind]

/-- Whether a representative has left is right unless it left in the transaction it had
come in by. -/
theorem leftJudged_iff (valid : ValidCerts certs) (row : RowOf certs state) :
    LeftJudged certs state ↔ LeavesApart certs := by
  rcases certs_cases certs with rfl | ⟨cert, rfl⟩ | ⟨earlier, first, second, rfl⟩
  · have left : LeftJudged [] state := by
      have absent : state.unregisteredAt = none := row.unregistered
      unfold LeftJudged DRepState.isUnregistered
      rw [absent]
      cases state.registeredAt <;> rfl
    exact iff_of_true left fun together =>
      absurd together (not_endsTogether_of_length (by simp))
  · have registers : cert.registers = true := valid.opens cert rfl
    have left : LeftJudged [cert] state := by
      have absent : state.unregisteredAt = none := by
        rw [row.unregistered]
        simp [lastPlace, registers]
      unfold LeftJudged DRepState.isUnregistered
      rw [absent]
      cases state.registeredAt <;> simp [DRepStatus.replay, registers]
    exact iff_of_true left fun together =>
      absurd together (not_endsTogether_of_length (by simp))
  · have lastTwo := valid.lastTwo
    unfold LeavesApart LeftJudged
    rw [endsTogether_iff, DRepStatus.replay_concat]
    rcases row.places lastTwo with ⟨kind, registeredEq, unregisteredEq⟩ |
      ⟨kind, registeredEq, unregisteredEq⟩
    · rw [isUnregistered_of_both registeredEq unregisteredEq, kind]
      simpa using lastTwo.ordered
    · rw [isUnregistered_of_both registeredEq unregisteredEq, kind]
      have apart : toLex first.position < toLex second.position ↔
          first.position ≠ second.position := by
        rw [lt_iff_le_and_ne]
        simp [lastTwo.ordered]
      simp [apart]

section LastTwo

variable {earlier : List DRepCert} {first second : DRepCert}

/-- Both certificates are earlier than the slot. -/
theorem judged_iff_of_before (valid : ValidCerts (earlier ++ [first] ++ [second]))
    (row : RowOf (earlier ++ [first] ++ [second]) state) (early : second.slot < slot) :
    RegistrationJudged (earlier ++ [first] ++ [second]) state slot ↔
      Recoverable (earlier ++ [first] ++ [second]) slot := by
  have lastTwo := valid.lastTwo
  have firstEarly : first.slot < slot := (slot_le_of_position lastTwo.ordered).trans_lt early
  have since : certsSince (earlier ++ [first] ++ [second]) slot = [] := by
    rw [certsSince_concat, if_neg (by omega), certsSince_of_last valid.ordered early]
  have recoverable : Recoverable (earlier ++ [first] ++ [second]) slot ↔
      (first.position = second.position → second.registers = false) := by
    constructor
    · intro enough together
      by_contra registers
      refine enough.apart (endsTogether_iff.mpr together) ?_ since
      rw [DRepStatus.replay_concat, if_pos (by simpa using registers)]
    · intro apart
      refine ⟨fun _ => by rw [since]; exact Nat.zero_lt_two, ?_⟩
      intro together registered
      rw [DRepStatus.replay_concat, apart (endsTogether_iff.mp together)] at registered
      cases registered
  rw [recoverable, RegistrationJudged, certsBefore_concat, if_pos early, DRepStatus.replay_concat]
  rcases row.places lastTwo with ⟨kind, registeredEq, unregisteredEq⟩ |
    ⟨kind, registeredEq, unregisteredEq⟩
  · rw [isRegisteredAsOf_of_both registeredEq unregisteredEq, kind]
    have apart : toLex first.position < toLex second.position ↔
        first.position ≠ second.position := by
      rw [lt_iff_le_and_ne]
      simp [lastTwo.ordered]
    simp [apart, early, firstEarly]
  · rw [isRegisteredAsOf_of_both registeredEq unregisteredEq, kind]
    simpa [early, firstEarly] using lastTwo.ordered

/-- The slot is between the two certificates. -/
theorem judged_and_recoverable_of_between (valid : ValidCerts (earlier ++ [first] ++ [second]))
    (row : RowOf (earlier ++ [first] ++ [second]) state) (firstEarly : first.slot < slot)
    (late : slot ≤ second.slot) :
    RegistrationJudged (earlier ++ [first] ++ [second]) state slot ∧
      Recoverable (earlier ++ [first] ++ [second]) slot := by
  have lastTwo := valid.lastTwo
  have ordered := (List.pairwise_append.mp valid.ordered).1
  have since : certsSince (earlier ++ [first] ++ [second]) slot = [second] := by
    rw [certsSince_concat, if_pos late, certsSince_concat, if_neg (by omega),
      certsSince_of_last ordered firstEarly, List.nil_append]
  refine ⟨?_, fun _ => by rw [since]; exact Nat.one_lt_two,
    fun _ _ => by rw [since]; exact List.cons_ne_nil _ _⟩
  rw [RegistrationJudged, certsBefore_concat, if_neg (by omega), certsBefore_concat,
    if_pos firstEarly,
    DRepStatus.replay_concat]
  have differ := lastTwo.differ
  rcases row.places lastTwo with ⟨kind, registeredEq, unregisteredEq⟩ |
    ⟨kind, registeredEq, unregisteredEq⟩
  · rw [isRegisteredAsOf_of_both registeredEq unregisteredEq, differ, kind]
    simp [not_lt.mpr late]
  · rw [isRegisteredAsOf_of_both registeredEq unregisteredEq, differ, kind]
    simp [firstEarly, not_lt.mpr late]

/-- Both certificates are since the slot. -/
theorem judged_iff_of_since (valid : ValidCerts (earlier ++ [first] ++ [second]))
    (row : RowOf (earlier ++ [first] ++ [second]) state) (firstLate : slot ≤ first.slot) :
    RegistrationJudged (earlier ++ [first] ++ [second]) state slot ↔
      Recoverable (earlier ++ [first] ++ [second]) slot := by
  have lastTwo := valid.lastTwo
  have late : slot ≤ second.slot := firstLate.trans (slot_le_of_position lastTwo.ordered)
  have before : certsBefore (earlier ++ [first] ++ [second]) slot = certsBefore earlier slot := by
    rw [certsBefore_concat, if_neg (by omega), certsBefore_concat, if_neg (by omega)]
  have since : certsSince (earlier ++ [first] ++ [second]) slot =
      certsSince earlier slot ++ [first] ++ [second] := by
    rw [certsSince_concat, if_pos late, certsSince_concat, if_pos firstLate]
  have judged : state.isRegisteredAsOf slot = false := by
    rcases row.places lastTwo with ⟨-, registeredEq, unregisteredEq⟩ |
      ⟨-, registeredEq, unregisteredEq⟩
    · rw [isRegisteredAsOf_of_both registeredEq unregisteredEq]
      simp [not_lt.mpr late]
    · rw [isRegisteredAsOf_of_both registeredEq unregisteredEq]
      simp [not_lt.mpr firstLate]
  rw [RegistrationJudged, judged, before]
  constructor
  · intro notRegistered
    refine ⟨?_, ?_⟩
    · intro registered
      rw [before] at registered
      simp [registered] at notRegistered
    · intro _ _
      rw [since]
      simp
  · intro enough
    have short := enough.notBack
    rw [before, since] at short
    symm
    rw [decide_eq_false_iff_not]
    intro registered
    have impossible := short registered
    simp only [List.length_append, List.length_singleton] at impossible
    omega

end LastTwo

/-- Whether a representative was registered at a slot is right exactly when the two places
are enough for it. -/
theorem judged_iff (valid : ValidCerts certs) (row : RowOf certs state) :
    RegistrationJudged certs state slot ↔ Recoverable certs slot := by
  rcases certs_cases certs with rfl | ⟨cert, rfl⟩ | ⟨earlier, first, second, rfl⟩
  · have judged : RegistrationJudged [] state slot := by
      have absent : state.registeredAt = none := row.registered
      unfold RegistrationJudged DRepState.isRegisteredAsOf
      rw [absent]
      rfl
    refine iff_of_true judged ⟨by simp [certsSince], ?_⟩
    exact fun together => absurd together (not_endsTogether_of_length (by simp))
  · have registers : cert.registers = true := valid.opens cert rfl
    have judged : RegistrationJudged [cert] state slot := by
      have present : state.registeredAt = some cert.position := by
        rw [row.registered]
        simp [lastPlace, registers]
      have absent : state.unregisteredAt = none := by
        rw [row.unregistered]
        simp [lastPlace, registers]
      unfold RegistrationJudged DRepState.isRegisteredAsOf
      rw [present, absent]
      by_cases early : cert.slot < slot <;>
        simp [Option.filter, DRepCert.position, certsBefore, DRepStatus.replay, early, registers]
    refine iff_of_true judged ⟨fun _ => ?_, ?_⟩
    · exact Nat.lt_succ_of_le (List.length_filter_le _ _)
    · exact fun together => absurd together (not_endsTogether_of_length (by simp))
  · by_cases early : second.slot < slot
    · exact judged_iff_of_before valid row early
    · by_cases firstEarly : first.slot < slot
      · have both := judged_and_recoverable_of_between valid row firstEarly (not_lt.mp early)
        exact iff_of_true both.1 both.2
      · exact judged_iff_of_since valid row (not_lt.mp firstEarly)

end Recovery

section Boundary

/-- Different representatives have different keys. -/
theorem DRep.entityKey_injective : Function.Injective DRep.entityKey := by
  intro left right same
  have values := congrArg Fin.val same
  cases left <;> cases right <;> simp only [entityKey] at values
  all_goals first
    | rfl
    | exfalso; omega
    | congr 1; apply Fin.ext; omega

theorem DRepState.nsKey_injective {first second : DRep}
    (same : nsKey first = nsKey second) : first = second :=
  DRep.entityKey_injective (congrArg (fun key => (ofLex key).2) same)

theorem credential_stakeCredToDRep (credential : StakeCredential) :
    (stakeCredToDRep credential).credential = some credential := by
  cases credential <;> rfl

namespace DRepDelta

/-- A row is of the representative its deltas are for. -/
theorem nsKey_identifier_apply {row after : Option DRepState} {delta : DRepDelta}
    (done : delta.apply row = .ok after)
    (same : ∀ state ∈ row, DRepState.nsKey state.identifier = delta.key) :
    ∀ state ∈ after, DRepState.nsKey state.identifier = delta.key := by
  have opened : ∀ other : DRep, DRepState.nsKey other = delta.key →
      DRepState.nsKey (row.getD (.new other)).identifier = delta.key := by
    intro other sameKey
    cases row with
    | none => exact sameKey
    | some state => exact same state rfl
  cases delta with
  | registration delta =>
      cases done
      intro state member
      cases member
      exact opened delta.drep rfl
  | unRegistration delta =>
      cases row with
      | none => cases done
      | some state =>
          cases done
          intro after member
          cases member
          exact same state rfl
  | activity delta =>
      cases done
      intro state member
      cases member
      exact opened delta.drep rfl
  | anchorUpdate delta =>
      cases done
      intro state member
      cases member
      exact opened delta.drep rfl
  | expiryUpdate delta =>
      simp only [apply, EntityDelta.apply] at done
      split_ifs at done with skipped
      · cases done
        exact same
      · cases done
        intro state member
        cases member
        exact opened delta.drep rfl
  | dormancyRelease delta =>
      cases row with
      | none =>
          cases done
          exact same
      | some state =>
          simp only [apply, EntityDelta.apply] at done
          split at done
          · cases done
            exact same
          · cases done
            intro after member
            cases member
            exact same state rfl
  | expiration delta =>
      cases row with
      | none => cases done
      | some state =>
          cases done
          intro after member
          cases member
          exact same state rfl
  | powerUpdate delta =>
      cases row with
      | none => cases done
      | some state =>
          cases done
          intro after member
          cases member
          exact same state rfl

theorem identifier_apply {drep : DRep} {row after : Option DRepState} {delta : DRepDelta}
    (done : delta.apply row = .ok after) (keyed : delta.key = DRepState.nsKey drep)
    (same : ∀ state ∈ row, state.identifier = drep) : ∀ state ∈ after, state.identifier = drep := by
  intro state member
  apply DRepState.nsKey_injective
  rw [← keyed]
  refine nsKey_identifier_apply done ?_ state member
  intro held isHeld
  rw [same held isHeld, keyed]

theorem identifier_applyAll {drep : DRep} {row after : Option DRepState} {deltas : List DRepDelta}
    (done : applyAll row deltas = .ok after)
    (keyed : ∀ delta ∈ deltas, delta.key = DRepState.nsKey drep)
    (same : ∀ state ∈ row, state.identifier = drep) : ∀ state ∈ after, state.identifier = drep := by
  induction deltas generalizing row with
  | nil =>
      cases done
      exact same
  | cons delta rest ih =>
      rw [applyAll, List.foldlM_cons] at done
      rcases bind_eq_ok.mp done with ⟨next, applied, last⟩
      have sameNext := identifier_apply applied (keyed delta List.mem_cons_self) same
      exact ih last (fun other member => keyed other (List.mem_cons_of_mem _ member)) sameNext

end DRepDelta

/-- A representative on chain: its credential, the deltas its row has had, and the row. -/
structure DRepRecord where
  credential : StakeCredential
  deltas : List DRepDelta
  state : DRepState
  keyed : ∀ delta ∈ deltas, delta.key = DRepState.nsKey (stakeCredToDRep credential)
  applied : DRepDelta.applyAll none deltas = .ok (some state)
  valid : ValidCerts (deltas.filterMap DRepDelta.cert)

namespace DRepRecord

variable (record : DRepRecord)

def certs : List DRepCert := record.deltas.filterMap DRepDelta.cert

def id : EntityKey := (stakeCredToDRep record.credential).entityKey

def row : EntityKey × DRepState := (record.id, record.state)

def registeredBefore (slot : ℕ) : Prop :=
  DRepStatus.replay (certsBefore record.certs slot) = .registered

instance (slot : ℕ) : Decidable (record.registeredBefore slot) :=
  inferInstanceAs (Decidable (_ = _))

theorem identifier : record.state.identifier = stakeCredToDRep record.credential :=
  DRepDelta.identifier_applyAll record.applied record.keyed (fun _ member => nomatch member)
    record.state rfl

theorem judged_iff_recoverable (slot : ℕ) :
    (record.state.isRegisteredAsOf slot = true ↔ record.registeredBefore slot) ↔
      Recoverable record.certs slot := by
  rw [← @judged_iff record.certs slot record.state record.valid (DRepDelta.rowOf record.applied)]
  unfold RegistrationJudged registeredBefore
  cases record.state.isRegisteredAsOf slot <;> simp [eq_comm]

end DRepRecord

namespace DrepBoundary

variable {boundary : DrepBoundary} {boundarySlot ratifySlot : ℕ} {data after : DrepData}

/-- A row only joins the sets, by what it says of the two slots. -/
theorem noted_of_loadDrep {row : EntityKey × DRepState}
    (loaded : boundary.loadDrep boundarySlot ratifySlot data row = .ok after) :
    after.snapshotRegisteredDreps =
        (boundary.noteRegistered boundarySlot ratifySlot data row.1 row.2).snapshotRegisteredDreps ∧
      after.ratifyDReps =
        (boundary.noteRegistered boundarySlot ratifySlot data row.1 row.2).ratifyDReps := by
  rcases bind_eq_ok.mp loaded with ⟨retiring, -, rest⟩
  cases retiring with
  | some position =>
      cases rest
      exact ⟨rfl, rfl⟩
  | none =>
      rcases bind_eq_ok.mp rest with ⟨expires, -, same⟩
      cases expires <;> cases same <;> exact ⟨rfl, rfl⟩

theorem mem_noteRegistered {row : EntityKey × DRepState} {id : EntityKey} :
    id ∈ (boundary.noteRegistered boundarySlot ratifySlot data row.1
        row.2).snapshotRegisteredDreps ↔
      id ∈ data.snapshotRegisteredDreps ∨
        row.1 = id ∧ row.2.isRegisteredAsOf boundarySlot = true := by
  by_cases registered : row.2.isRegisteredAsOf boundarySlot = true
  · simp only [noteRegistered, registered, if_true, Finset.mem_insert, and_true]
    rw [or_comm, eq_comm]
  · simp [noteRegistered, registered]

theorem get?_noteRegistered {row : EntityKey × DRepState} {credential : StakeCredential} :
    ((boundary.noteRegistered boundarySlot ratifySlot data row.1 row.2).ratifyDReps.get?
        credential).isSome ↔
      (data.ratifyDReps.get? credential).isSome ∨
        row.2.identifier.credential = some credential ∧
          row.2.isRegisteredAsOf ratifySlot = true := by
  by_cases registered : row.2.isRegisteredAsOf ratifySlot = true
  · cases held : row.2.identifier.credential with
    | none => simp [noteRegistered, registered, held]
    | some own =>
        by_cases same : credential = own
        · simp [noteRegistered, registered, held, same]
        · simp [noteRegistered, registered, held, OrderedMap.get?_insert, same, Ne.symm same]
  · simp [noteRegistered, registered]

theorem sets_of_foldlM {rows : List (EntityKey × DRepState)}
    (loaded : rows.foldlM (boundary.loadDrep boundarySlot ratifySlot) data = .ok after) :
    (∀ id, id ∈ after.snapshotRegisteredDreps ↔ id ∈ data.snapshotRegisteredDreps ∨
      ∃ row ∈ rows, row.1 = id ∧ row.2.isRegisteredAsOf boundarySlot = true) ∧
    ∀ credential, (after.ratifyDReps.get? credential).isSome ↔
      (data.ratifyDReps.get? credential).isSome ∨
        ∃ row ∈ rows, row.2.identifier.credential = some credential ∧
          row.2.isRegisteredAsOf ratifySlot = true := by
  induction rows generalizing data with
  | nil =>
      cases loaded
      simp
  | cons row rest ih =>
      rw [List.foldlM_cons] at loaded
      rcases bind_eq_ok.mp loaded with ⟨next, step, last⟩
      rcases ih last with ⟨snapshot, ratify⟩
      rcases noted_of_loadDrep step with ⟨snapshotNext, ratifyNext⟩
      refine ⟨?_, ?_⟩
      · intro id
        rw [snapshot, snapshotNext, mem_noteRegistered, List.exists_mem_cons_iff, or_assoc]
      · intro credential
        rw [ratify, ratifyNext, get?_noteRegistered, List.exists_mem_cons_iff, or_assoc]

/-- The two sets of the boundary are of exactly those registered at its two slots. -/
structure SetsExact (records : List DRepRecord) (boundarySlot ratifySlot : ℕ)
    (data : DrepData) : Prop where
  snapshot : ∀ id, id ∈ data.snapshotRegisteredDreps ↔
    ∃ record ∈ records, record.id = id ∧ record.registeredBefore boundarySlot
  ratify : ∀ credential, (data.ratifyDReps.get? credential).isSome ↔
    ∃ record ∈ records, record.credential = credential ∧ record.registeredBefore ratifySlot

/-- Where the names of the items differ, two selections of them agree by name only if they
agree. -/
theorem selections_agree_iff {ι κ : Type*} {items : List ι} {name : ι → κ} {first second : ι → Prop}
    (distinct : ∀ one ∈ items, ∀ other ∈ items, name one = name other → one = other) :
    (∀ found, (∃ item ∈ items, name item = found ∧ first item) ↔
      ∃ item ∈ items, name item = found ∧ second item) ↔
    ∀ item ∈ items, first item ↔ second item := by
  constructor
  · intro agree item member
    constructor
    · intro selected
      rcases (agree (name item)).mp ⟨item, member, rfl, selected⟩ with ⟨other, isOther, same, holds⟩
      exact distinct other isOther item member same ▸ holds
    · intro selected
      rcases (agree (name item)).mpr ⟨item, member, rfl, selected⟩ with
        ⟨other, isOther, same, holds⟩
      exact distinct other isOther item member same ▸ holds
  · intro agree found
    constructor
    · rintro ⟨item, member, same, selected⟩
      exact ⟨item, member, same, (agree item member).mp selected⟩
    · rintro ⟨item, member, same, selected⟩
      exact ⟨item, member, same, (agree item member).mpr selected⟩

theorem setsExact_iff {records : List DRepRecord} (distinct : (records.map DRepRecord.id).Nodup)
    (boundaryStart : boundary.chainSummary.epochStart boundary.startingEpochNo = .ok boundarySlot)
    (ratifyStart :
      boundary.chainSummary.epochStart boundary.endingState.number = .ok ratifySlot)
    (loaded : boundary.loadDrepData (records.map DRepRecord.row) = .ok data) :
    SetsExact records boundarySlot ratifySlot data ↔
      ∀ record ∈ records, Recoverable record.certs boundarySlot ∧
        Recoverable record.certs ratifySlot := by
  have byId : ∀ one ∈ records, ∀ other ∈ records, one.id = other.id → one = other :=
    fun one isOne other isOther same => List.inj_on_of_nodup_map distinct isOne isOther same
  have byCredential : ∀ one ∈ records, ∀ other ∈ records,
      one.credential = other.credential → one = other := by
    intro one isOne other isOther same
    refine byId one isOne other isOther ?_
    rw [DRepRecord.id, DRepRecord.id, same]
  rw [loadDrepData, boundaryStart, ratifyStart] at loaded
  rcases sets_of_foldlM loaded with ⟨snapshot, ratify⟩
  have snapshotSets : (∀ id, id ∈ data.snapshotRegisteredDreps ↔
      ∃ record ∈ records, record.id = id ∧ record.registeredBefore boundarySlot) ↔
      ∀ record ∈ records, Recoverable record.certs boundarySlot := by
    rw [← forall₂_congr fun record _ => record.judged_iff_recoverable boundarySlot,
      ← selections_agree_iff byId]
    refine forall_congr' fun id => ?_
    rw [snapshot]
    simp [DrepData.default, DRepRecord.row]
  have ratifySets : (∀ credential, (data.ratifyDReps.get? credential).isSome ↔
      ∃ record ∈ records, record.credential = credential ∧ record.registeredBefore ratifySlot) ↔
      ∀ record ∈ records, Recoverable record.certs ratifySlot := by
    rw [← forall₂_congr fun record _ => record.judged_iff_recoverable ratifySlot,
      ← selections_agree_iff byCredential]
    refine forall_congr' fun credential => ?_
    rw [ratify]
    simp [DrepData.default, DRepRecord.row, DRepRecord.identifier, credential_stakeCredToDRep]
  constructor
  · intro exact record member
    exact ⟨snapshotSets.mp exact.snapshot record member, ratifySets.mp exact.ratify record member⟩
  · intro enough
    exact ⟨snapshotSets.mpr fun record member => (enough record member).1,
      ratifySets.mpr fun record member => (enough record member).2⟩

end DrepBoundary

/-- The two places a row keeps tell where its representative stood before a slot, and
whether it has left, exactly when no certificates got lost between them; and the sets of a
boundary are of those registered at its two slots exactly when this is so of every row at
both. -/
theorem registration_recovered_iff (records : List DRepRecord)
    (distinct : (records.map DRepRecord.id).Nodup) :
    (∀ record ∈ records, ∀ slot,
      (RegistrationJudged record.certs record.state slot ∧ LeftJudged record.certs record.state ↔
        Recoverable record.certs slot ∧ LeavesApart record.certs)) ∧
    ∀ (boundary : DrepBoundary) (boundarySlot ratifySlot : ℕ) (data : DrepData),
      boundary.chainSummary.epochStart boundary.startingEpochNo = .ok boundarySlot →
      boundary.chainSummary.epochStart boundary.endingState.number = .ok ratifySlot →
      boundary.loadDrepData (records.map DRepRecord.row) = .ok data →
      (DrepBoundary.SetsExact records boundarySlot ratifySlot data ↔
        ∀ record ∈ records, Recoverable record.certs boundarySlot ∧
          Recoverable record.certs ratifySlot) := by
  refine ⟨?_, ?_⟩
  · intro record _ slot
    have row := DRepDelta.rowOf record.applied
    exact and_congr (judged_iff record.valid row) (leftJudged_iff record.valid row)
  · intro boundary boundarySlot ratifySlot data boundaryStart ratifyStart loaded
    exact DrepBoundary.setsExact_iff distinct boundaryStart ratifyStart loaded

end Boundary

namespace Comeback

/-- In by slot 10, out by slot 130 and in again by slot 150. -/
def deltas : List DRepDelta :=
  [.registration (.new (.key 1) 10 0 500 none), .unRegistration (.new (.key 1) 130 0),
    .registration (.new (.key 1) 150 0 500 none)]

def record : DRepRecord where
  credential := .addrKeyhash 1
  deltas := deltas
  state := { DRepState.new (.key 1) with
    registeredAt := some (150, 0), unregisteredAt := some (130, 0), votingPower := 500
    deposit := 500 }
  keyed := by simp [deltas, DRepDelta.key, EntityDelta.key, DRepRegistration.new,
    DRepUnRegistration.new, stakeCredToDRep]
  applied := by rfl
  valid := ⟨by decide, by decide, by decide⟩

def closingEpoch : EpochState where
  number := 1
  initialPots := .default
  rolling := .withLive 1 .default
  pparams := .withLive 1 .default
  largestStableSlot := 0
  previousNonceTail := none
  nonces := none
  endStats := none
  incentives := none
  ewrapProgress := none
  estartProgress := none
  rupdProgress := none

/-- The boundary at slot 200, whose ruling goes by slot 100. -/
def boundary : DrepBoundary := ⟨.oneEra, closingEpoch, 0⟩

def loaded : DrepData := ⟨{record.id}, ∅, [(.key 1, (130, 0))], []⟩

theorem loadDrepData_record : boundary.loadDrepData [record.row] = .ok loaded := by rfl

end Comeback

/-- It was registered at the first slot of the epoch that ends, and the ruling leaves it
out. -/
theorem comeback_left_out :
    ¬((∀ (record : DRepRecord) (slot : ℕ),
        RegistrationJudged record.certs record.state slot ∧ LeftJudged record.certs record.state) ∧
      ∀ (records : List DRepRecord) (boundary : DrepBoundary) (boundarySlot ratifySlot : ℕ)
        (data : DrepData),
        boundary.chainSummary.epochStart boundary.startingEpochNo = .ok boundarySlot →
        boundary.chainSummary.epochStart boundary.endingState.number = .ok ratifySlot →
        boundary.loadDrepData (records.map DRepRecord.row) = .ok data →
        DrepBoundary.SetsExact records boundarySlot ratifySlot data) := by
  rintro ⟨-, exact⟩
  have ratify := (exact [Comeback.record] Comeback.boundary 200 100 Comeback.loaded rfl rfl
    Comeback.loadDrepData_record).ratify (.addrKeyhash 1)
  have registered : Comeback.record.registeredBefore 100 := by decide
  have present := ratify.mpr ⟨Comeback.record, by simp, rfl, registered⟩
  simp [Comeback.loaded] at present

/-- At slots 200 and 100 the row of the representative that came back is not enough. -/
theorem registration_recovered_iff_comeback :
    (RegistrationJudged Comeback.record.certs Comeback.record.state 200 ∧
      ¬RegistrationJudged Comeback.record.certs Comeback.record.state 100) ∧
    ¬DrepBoundary.SetsExact [Comeback.record] 200 100 Comeback.loaded := by
  have both := registration_recovered_iff [Comeback.record] (by decide)
  have lost : ¬Recoverable Comeback.record.certs 100 := by
    intro enough
    exact absurd (enough.notBack (by decide)) (by decide)
  have apart : ¬EndsTogether Comeback.record.certs := by
    have split : Comeback.record.certs =
        [⟨true, 10, 0⟩] ++ [⟨false, 130, 0⟩] ++ [⟨true, 150, 0⟩] := rfl
    rw [split, endsTogether_iff]
    decide
  have kept : Recoverable Comeback.record.certs 200 :=
    ⟨fun _ => by decide, fun together => absurd together apart⟩
  have settled : LeavesApart Comeback.record.certs := fun together => absurd together apart
  have atBoundary := (both.1 Comeback.record (by simp) 200).mpr ⟨kept, settled⟩
  refine ⟨⟨atBoundary.1, ?_⟩, ?_⟩
  · intro judged
    exact lost ((both.1 Comeback.record (by simp) 100).mp ⟨judged, atBoundary.2⟩).1
  · intro exact
    exact lost ((both.2 Comeback.boundary 200 100 Comeback.loaded rfl rfl
      Comeback.loadDrepData_record).mp exact Comeback.record (by simp)).2

end Dolos
