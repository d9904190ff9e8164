import Mathlib.Data.List.Basic
import Dolos.Lib.Path

/-!
# Reading a log by pages

A reader asks for the page at a cursor and goes on at the cursor that the page gives,
until a page gives none. Between two pages the store takes any number of steps of its
own. As long as these only add to the end of the log, the pages put together are the
log at the end of the read.
-/

namespace Dolos

variable {α β σ : Type*}

structure Page (α : Type*) where
  items : List α
  nextCursor : Option ℕ

/-- The page covers the log from its cursor up to the next cursor, or up to the end. -/
structure Page.Covers (page : Page α) (log : List α) (cursor : ℕ) : Prop where
  stretch : page.items <+: log.drop cursor
  ended : page.nextCursor = none → page.items = log.drop cursor
  goesOn : ∀ next, page.nextCursor = some next →
    next = cursor + page.items.length ∧ page.items ≠ []

/-- A whole read: the items of its pages, and the states of the store at its first and
last page. -/
inductive Reads (dump : σ → ℕ → Page α) (step : β → σ → σ → Prop) :
    ℕ → σ → List α → σ → Prop
  | finish {cursor : ℕ} {state : σ} :
      (dump state cursor).nextCursor = none →
      Reads dump step cursor state (dump state cursor).items state
  | turn {cursor next : ℕ} {state resumed last : σ} {labels : List β} {later : List α} :
      (dump state cursor).nextCursor = some next →
      Path step labels state resumed →
      Reads dump step next resumed later last →
      Reads dump step cursor state ((dump state cursor).items ++ later) last

theorem Page.Covers.next_le {page : Page α} {log : List α} {cursor next : ℕ}
    (covers : page.Covers log cursor) (within : cursor ≤ log.length)
    (more : page.nextCursor = some next) : cursor < next ∧ next ≤ log.length := by
  rcases covers.goesOn next more with ⟨nextEq, nonempty⟩
  have bounded := covers.stretch.length_le
  have positive : 0 < page.items.length := List.length_pos_iff.mpr nonempty
  simp only [List.length_drop] at bounded
  omega

theorem Page.Covers.head?_eq {page : Page α} {log : List α} {cursor : ℕ}
    (covers : page.Covers log cursor) : page.items.head? = log[cursor]? := by
  have atCursor : log[cursor]? = (log.drop cursor).head? := by
    simp [List.head?_drop]
  rw [atCursor]
  cases itemsEq : page.items with
  | nil =>
      have ended : page.nextCursor = none := by
        cases more : page.nextCursor with
        | none => rfl
        | some next => exact absurd itemsEq (covers.goesOn next more).2
      rw [← covers.ended ended, itemsEq]
  | cons item rest =>
      rcases covers.stretch with ⟨later, laterEq⟩
      rw [← laterEq, itemsEq]
      rfl

theorem getElem?_of_isPrefix {before after : List α} (grown : before <+: after) {cursor : ℕ}
    {entry : α} (held : before[cursor]? = some entry) : after[cursor]? = some entry := by
  rcases grown with ⟨added, rfl⟩
  have within : cursor < before.length := (List.getElem?_eq_some_iff.mp held).1
  simpa [List.getElem?_append_left within] using held

section Growing

variable {dump : σ → ℕ → Page α} {step : β → σ → σ → Prop} {Sound : σ → Prop}
  {log : σ → List α}
  (covers : ∀ state cursor, Sound state → (dump state cursor).Covers (log state) cursor)
  (grows : ∀ label state next, Sound state → step label state next →
    Sound next ∧ log state <+: log next)

include grows in
theorem Path.log_grows {labels : List β} {state last : σ} (path : Path step labels state last)
    (sound : Sound state) : Sound last ∧ log state <+: log last := by
  induction path with
  | nil state => exact ⟨sound, List.prefix_refl _⟩
  | cons stepped _ ih =>
      rcases grows _ _ _ sound stepped with ⟨soundNext, grown⟩
      rcases ih soundNext with ⟨soundLast, grownLast⟩
      exact ⟨soundLast, grown.trans grownLast⟩

include covers grows in
/-- A read gives the log as it is at the last page, from the cursor on. -/
theorem Reads.eq_drop {cursor : ℕ} {state last : σ} {items : List α}
    (read : Reads dump step cursor state items last) (sound : Sound state)
    (within : cursor ≤ (log state).length) :
    log state <+: log last ∧ items = (log last).drop cursor := by
  induction read with
  | finish ended => exact ⟨List.prefix_refl _, (covers _ _ sound).ended ended⟩
  | @turn cursor next state resumed last labels later more path _ ih =>
      have covered := covers state cursor sound
      have nextLe := (covered.next_le within more).2
      rcases covered.goesOn next more with ⟨nextEq, _⟩
      rcases path.log_grows grows sound with ⟨soundResumed, grown⟩
      rcases ih soundResumed (Nat.le_trans nextLe grown.length_le) with ⟨grownLast, laterEq⟩
      have whole : log state <+: log last := grown.trans grownLast
      refine ⟨whole, ?_⟩
      have page : (dump state cursor).items <+: (log last).drop cursor := by
        rcases whole with ⟨added, addedEq⟩
        rw [← addedEq, List.drop_append_of_le_length within]
        exact covered.stretch.trans (List.prefix_append _ _)
      have taken := List.prefix_iff_eq_take.mp page
      calc (dump state cursor).items ++ later
          = ((log last).drop cursor).take (dump state cursor).items.length ++
              (log last).drop next := by rw [← taken, laterEq]
        _ = ((log last).drop cursor).take (dump state cursor).items.length ++
              ((log last).drop cursor).drop (dump state cursor).items.length := by
            rw [List.drop_drop, nextEq]
        _ = (log last).drop cursor := List.take_append_drop _ _

include covers in
/-- A read of a store that rests comes to its end. -/
theorem exists_reads {state : σ} (sound : Sound state) {cursor : ℕ}
    (within : cursor ≤ (log state).length) :
    ∃ items, Reads dump step cursor state items state := by
  induction measured : (log state).length - cursor using Nat.strongRecOn
    generalizing cursor with
  | _ remaining ih =>
      have covered := covers state cursor sound
      cases more : (dump state cursor).nextCursor with
      | none => exact ⟨_, .finish more⟩
      | some next =>
          rcases covered.next_le within more with ⟨advanced, nextLe⟩
          have fewer : (log state).length - next < remaining := by omega
          rcases ih _ fewer nextLe rfl with ⟨later, read⟩
          exact ⟨_, .turn more (.nil state) read⟩

end Growing

end Dolos
