import Mathlib.Data.List.Forall2
import Mathlib.Tactic.Common

/-!
# Computations that may fail

How a successful `Except` computation comes apart. Proofs about modelled code
peel a `do` block one step at a time with these instead of unfolding the monad.
-/

namespace Dolos.Outcome

universe u v

variable {ε : Type u} {α β : Type v}

theorem bind_eq_ok {first : Except ε α} {next : α → Except ε β} {result : β} :
    first >>= next = .ok result ↔ ∃ value, first = .ok value ∧ next value = .ok result := by
  cases first with
  | error failure => simp [bind, Except.bind]
  | ok value => simp [bind, Except.bind]

@[simp]
theorem ok_bind (value : α) (next : α → Except ε β) :
    (Except.ok value >>= next) = next value := rfl

@[simp]
theorem error_bind (failure : ε) (next : α → Except ε β) :
    (Except.error failure >>= next) = Except.error failure := rfl

theorem map_eq_ok {first : Except ε α} {f : α → β} {result : β} :
    f <$> first = .ok result ↔ ∃ value, first = .ok value ∧ f value = result := by
  cases first with
  | error failure => simp [Functor.map, Except.map]
  | ok value => simp [Functor.map, Except.map]

@[simp]
theorem mapError_ok {ε' : Type u} (value : α) (f : ε → ε') :
    (Except.ok value : Except ε α).mapError f = .ok value := rfl

theorem mapError_eq_ok {ε' : Type u} {first : Except ε α} {f : ε → ε'} {result : α} :
    first.mapError f = .ok result ↔ first = .ok result := by
  cases first with
  | error failure => simp [Except.mapError]
  | ok value => simp [Except.mapError]

theorem mapError_map {ε' : Type u} (f : ε → ε') (first : Except ε α) (change : α → β) :
    (change <$> first).mapError f = change <$> first.mapError f := by
  cases first with
  | error failure => rfl
  | ok value => rfl

/-- The value of a computation, or another one in its place. -/
def valueOr (other : α) : Except ε α → α
  | .ok value => value
  | .error _ => other

theorem eq_ok_iff_valueOr (other : α) {outcome : Except ε α} {value : α} :
    outcome = .ok value ↔ outcome.isOk ∧ value = valueOr other outcome := by
  cases outcome with
  | error failure => simp [Except.isOk, Except.toBool]
  | ok held => simp [Except.isOk, Except.toBool, valueOr, eq_comm]

/-- A computation that goes on without failing. -/
theorem bind_ok_eq_ok_iff (other : α) {first : Except ε α} {next : α → β} {result : β} :
    (first >>= fun value => Except.ok (next value)) = .ok result ↔
      first.isOk ∧ result = next (valueOr other first) := by
  cases first with
  | error failure => simp [Except.isOk, Except.toBool]
  | ok held => simp [Except.isOk, Except.toBool, valueOr, eq_comm]

/-- A loop whose rounds are known: when each of them succeeds, and with what. -/
theorem foldlM_eq_ok_iff {ι : Type*} {round : α → ι → Except ε α} {next : α → ι → α}
    {Fits : ι → Prop} {items : List ι}
    (known : ∀ item ∈ items, ∀ value result, round value item = .ok result ↔
      Fits item ∧ result = next value item)
    {first last : α} :
    items.foldlM round first = .ok last ↔
      (∀ item ∈ items, Fits item) ∧ last = items.foldl next first := by
  induction items generalizing first with
  | nil =>
      simp only [List.foldlM_nil, List.foldl_nil, List.not_mem_nil, false_implies, implies_true,
        true_and]
      exact ⟨fun same => (Except.ok.inj same).symm, fun same => by rw [same]; rfl⟩
  | cons item rest ih =>
      have knownRest : ∀ later ∈ rest, ∀ value result, round value later = .ok result ↔
          Fits later ∧ result = next value later := by
        intro later member
        exact known later (List.mem_cons_of_mem item member)
      rw [List.foldlM_cons, bind_eq_ok]
      constructor
      · rintro ⟨middle, headDone, restDone⟩
        rcases (known item List.mem_cons_self first middle).mp headDone with ⟨fits, rfl⟩
        rcases (ih knownRest).mp restDone with ⟨fitsRest, rfl⟩
        exact ⟨List.forall_mem_cons.mpr ⟨fits, fitsRest⟩, rfl⟩
      · rintro ⟨fits, rfl⟩
        rcases List.forall_mem_cons.mp fits with ⟨fitsHead, fitsRest⟩
        exact ⟨next first item,
          (known item List.mem_cons_self first _).mpr ⟨fitsHead, rfl⟩,
          (ih knownRest).mpr ⟨fitsRest, rfl⟩⟩

/-- A walk over a list succeeds when each of its steps does. -/
theorem mapM_eq_ok {ι : Type*} {f : ι → Except ε α} {items : List ι} {results : List α} :
    items.mapM f = .ok results ↔
      List.Forall₂ (fun item result => f item = .ok result) items results := by
  induction items generalizing results with
  | nil =>
      rw [List.mapM_nil, List.forall₂_nil_left_iff]
      exact ⟨fun same => (Except.ok.inj same).symm, fun same => by rw [same]; rfl⟩
  | cons item rest ih =>
      rw [List.mapM_cons, bind_eq_ok]
      constructor
      · rintro ⟨head, headEq, restDone⟩
        rcases bind_eq_ok.mp restDone with ⟨tail, tailEq, resultsEq⟩
        rcases Except.ok.inj resultsEq with rfl
        exact .cons headEq (ih.mp tailEq)
      · rintro (_ | ⟨headEq, restEach⟩)
        exact ⟨_, headEq, bind_eq_ok.mpr ⟨_, ih.mpr restEach, rfl⟩⟩

theorem mem_of_mapM_ok {ι : Type*} {f : ι → Except ε α} {items : List ι} {results : List α}
    (done : items.mapM f = .ok results) {result : α} (member : result ∈ results) :
    ∃ item ∈ items, f item = .ok result := by
  have each := mapM_eq_ok.mp done
  induction each with
  | nil => cases member
  | cons made _ ih =>
      rcases List.mem_cons.mp member with rfl | later
      · exact ⟨_, List.mem_cons_self, made⟩
      · rename_i rest _
        rcases ih (mapM_eq_ok.mpr ‹_›) later with ⟨item, isItem, itemEq⟩
        exact ⟨item, List.mem_cons_of_mem _ isItem, itemEq⟩

/-- What every round keeps holds after all of them. -/
theorem foldlM_keeps {ι : Type*} {σ : Type v} {round : σ → ι → Except ε σ} {Keeps : σ → Prop}
    (step : ∀ state item next, Keeps state → round state item = .ok next → Keeps next)
    {items : List ι} {first last : σ} (start : Keeps first)
    (folded : items.foldlM round first = .ok last) : Keeps last := by
  induction items generalizing first with
  | nil =>
      rw [List.foldlM_nil] at folded
      rcases Except.ok.inj folded with rfl
      exact start
  | cons item rest ih =>
      rw [List.foldlM_cons] at folded
      rcases bind_eq_ok.mp folded with ⟨next, stepEq, rest⟩
      exact ih (step first item next start stepEq) rest

theorem exists_forall₂_of_comp {ι κ τ : Type*} {first : ι → κ → Prop} {second : κ → τ → Prop}
    {items : List ι} {results : List τ}
    (each : List.Forall₂ (fun item result => ∃ middle, first item middle ∧ second middle result)
      items results) :
    ∃ middles, List.Forall₂ first items middles ∧ List.Forall₂ second middles results := by
  induction each with
  | nil => exact ⟨[], .nil, .nil⟩
  | cons head _ ih =>
      rcases head with ⟨middle, isFirst, isSecond⟩
      rcases ih with ⟨middles, firsts, seconds⟩
      exact ⟨middle :: middles, .cons isFirst firsts, .cons isSecond seconds⟩

theorem forall₂_comp {ι κ τ : Type*} {first : ι → κ → Prop} {second : κ → τ → Prop}
    {items : List ι} {middles : List κ} {results : List τ}
    (firsts : List.Forall₂ first items middles)
    (seconds : List.Forall₂ second middles results) :
    List.Forall₂ (fun item result => ∃ middle, first item middle ∧ second middle result)
      items results := by
  induction firsts generalizing results with
  | nil =>
      cases seconds
      exact .nil
  | cons isFirst _ ih =>
      cases seconds with
      | cons isSecond restSeconds => exact .cons ⟨_, isFirst, isSecond⟩ (ih restSeconds)

/-- One pass that moves several states on at once is a pass for each of them. -/
theorem foldlM_mapM_eq_ok {ι S : Type v} {step : ι → S → Except ε S} {items : List (Except ε ι)}
    {states finals : List S} (some_ : states ≠ []) :
    items.foldlM (fun states item => item >>= fun value => states.mapM (step value)) states =
        .ok finals ↔
      List.Forall₂ (fun state final =>
        items.foldlM (fun state item => item >>= fun value => step value state) state = .ok final)
        states finals := by
  induction items generalizing states with
  | nil =>
      simp only [List.foldlM_nil]
      constructor
      · intro same
        rw [Except.ok.inj same]
        exact List.forall₂_same.mpr fun _ _ => rfl
      · intro each
        have same : List.Forall₂ Eq states finals := each.imp fun _ _ done => Except.ok.inj done
        rw [List.forall₂_eq_eq_eq] at same
        rw [same]
        rfl
  | cons item rest ih =>
      cases item with
      | error failure =>
          constructor
          · intro done
            cases done
          · intro each
            cases each with
            | nil => exact absurd rfl some_
            | cons head _ => cases head
      | ok value =>
          simp only [List.foldlM_cons, ok_bind, bind_eq_ok]
          constructor
          · rintro ⟨middles, moved, restDone⟩
            have moves := mapM_eq_ok.mp moved
            have someMiddle : middles ≠ [] := by
              rintro rfl
              exact some_ (List.forall₂_nil_right_iff.mp moves)
            exact forall₂_comp moves ((ih someMiddle).mp restDone)
          · intro each
            rcases exists_forall₂_of_comp each with ⟨middles, moves, restEach⟩
            have someMiddle : middles ≠ [] := by
              rintro rfl
              exact some_ (List.forall₂_nil_right_iff.mp moves)
            exact ⟨middles, mapM_eq_ok.mpr moves, (ih someMiddle).mpr restEach⟩

/-- What follows a computation goes along with a change of its result. -/
theorem bind_along {α β γ ε : Type} {change : β → γ} {first : Except ε α} {after : α → Except ε γ}
    {before : α → Except ε β} (along : ∀ value, after value = change <$> before value) :
    first >>= after = change <$> (first >>= before) := by
  cases first with
  | error failure => rfl
  | ok value => exact along value

/-- A fold goes along with a change of the state that every round goes along with. -/
theorem foldlM_along {ι σ τ ε : Type} {change : σ → τ} {before : σ → ι → Except ε σ}
    {after : τ → ι → Except ε τ} {items : List ι}
    (round : ∀ item ∈ items, ∀ state, after (change state) item = change <$> before state item)
    (state : σ) : items.foldlM after (change state) = change <$> items.foldlM before state := by
  induction items generalizing state with
  | nil => rfl
  | cons item rest ih =>
      rw [List.foldlM_cons, List.foldlM_cons, round item List.mem_cons_self]
      cases before state item with
      | error failure => rfl
      | ok next => exact ih (fun other member => round other (List.mem_cons_of_mem _ member)) next

/-- Folds over actions that agree on the items. -/
theorem foldlM_congr {α β ε : Type} {items : List α} {first second : β → α → Except ε β}
    (same : ∀ item ∈ items, ∀ value, first value item = second value item) (value : β) :
    items.foldlM first value = items.foldlM second value := by
  induction items generalizing value with
  | nil => rfl
  | cons item rest ih =>
      rw [List.foldlM_cons, List.foldlM_cons, same item List.mem_cons_self]
      congr 1
      funext next
      exact ih (fun other member => same other (List.mem_cons_of_mem _ member)) next

end Dolos.Outcome
