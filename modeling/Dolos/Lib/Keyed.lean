import Mathlib.Logic.Function.Basic
import Mathlib.Data.List.Basic
import Dolos.Lib.Outcome

/-!
# Actions on a family of values

A list of fallible actions, each with a key, run over a family of values indexed by
these keys. What becomes of the value at one key is decided by the actions of that
key alone, in their order: lists that agree key by key do the same, however the
keys are interleaved.
-/

namespace Dolos.Keyed

open Outcome

universe u v

variable {K V : Type u} {D ε : Type v} (key : D → K) (act : D → V → Except ε V)

/-- Actions one after another on a single value. -/
def runAll : List D → V → Except ε V
  | [], value => .ok value
  | action :: rest, value => do
      let next ← act action value
      runAll rest next

/-- Actions one after another, each on the value at its own key. -/
def runOn [DecidableEq K] : List D → (K → V) → Except ε (K → V)
  | [], values => .ok values
  | action :: rest, values => do
      let next ← act action (values (key action))
      runOn rest (Function.update values (key action) next)

theorem runAll_append_iff {first second : List D} {value final : V} :
    runAll act (first ++ second) value = .ok final ↔
      ∃ middle, runAll act first value = .ok middle ∧ runAll act second middle = .ok final := by
  induction first generalizing value with
  | nil => simp [runAll]
  | cons action rest ih =>
      simp only [List.cons_append, runAll, bind_eq_ok, ih]
      constructor
      · rintro ⟨next, acted, middle, ranRest, ranSecond⟩
        exact ⟨middle, ⟨next, acted, ranRest⟩, ranSecond⟩
      · rintro ⟨middle, ⟨next, acted, ranRest⟩, ranSecond⟩
        exact ⟨next, acted, middle, ranRest, ranSecond⟩

variable [DecidableEq K]

/-- The value at each key sees the actions of that key only. -/
theorem runAll_filter_of_runOn {actions : List D} {values final : K → V}
    (ran : runOn key act actions values = .ok final) (index : K) :
    runAll act (actions.filter fun action => key action = index) (values index) =
      .ok (final index) := by
  induction actions generalizing values with
  | nil =>
      rcases Except.ok.inj ran with rfl
      rfl
  | cons action rest ih =>
      rcases bind_eq_ok.mp ran with ⟨next, acted, ranRest⟩
      have later := ih ranRest
      by_cases here : key action = index
      · subst here
        rw [Function.update_self] at later
        simp only [List.filter_cons, decide_true, if_true, runAll, acted, ok_bind, later]
      · rw [Function.update_of_ne (Ne.symm here)] at later
        simpa only [List.filter_cons, here, decide_false, Bool.false_eq_true, if_false] using later

/-- Running key by key is running the whole list. -/
theorem runOn_of_runAll_filter {actions : List D} {values final : K → V}
    (each : ∀ index, runAll act (actions.filter fun action => key action = index) (values index) =
      .ok (final index)) :
    runOn key act actions values = .ok final := by
  induction actions generalizing values with
  | nil =>
      have same : values = final := by
        funext index
        exact Except.ok.inj (each index)
      rw [same]
      rfl
  | cons action rest ih =>
      have here := each (key action)
      simp only [List.filter_cons, decide_true, if_true] at here
      rcases bind_eq_ok.mp here with ⟨next, acted, ranRest⟩
      simp only [runOn, acted, ok_bind]
      apply ih
      intro index
      by_cases same : key action = index
      · subst same
        rw [Function.update_self]
        exact ranRest
      · have other := each index
        simp only [List.filter_cons, same, decide_false, Bool.false_eq_true, if_false] at other
        rw [Function.update_of_ne (Ne.symm same)]
        exact other

theorem runOn_eq_ok_iff {actions : List D} {values final : K → V} :
    runOn key act actions values = .ok final ↔
      ∀ index, runAll act (actions.filter fun action => key action = index) (values index) =
        .ok (final index) :=
  ⟨runAll_filter_of_runOn key act, runOn_of_runAll_filter key act⟩

section Runs

variable {key act}

theorem runOn_append_iff {first second : List D} {values final : K → V} :
    runOn key act (first ++ second) values = .ok final ↔
      ∃ middle, runOn key act first values = .ok middle ∧
        runOn key act second middle = .ok final := by
  induction first generalizing values with
  | nil => simp [runOn]
  | cons action rest ih =>
      simp only [List.cons_append, runOn, bind_eq_ok, ih]
      constructor
      · rintro ⟨next, acted, middle, ranRest, ranSecond⟩
        exact ⟨middle, ⟨next, acted, ranRest⟩, ranSecond⟩
      · rintro ⟨middle, ⟨next, acted, ranRest⟩, ranSecond⟩
        exact ⟨next, acted, middle, ranRest, ranSecond⟩

/-- What every action at a key keeps of its value is kept by the run. -/
theorem runOn_keeps {actions : List D} {values final : K → V} {index : K} {P : V → Prop}
    (step : ∀ action ∈ actions, key action = index → ∀ {value next},
      act action value = .ok next → P value → P next)
    (ran : runOn key act actions values = .ok final) (holds : P (values index)) :
    P (final index) := by
  induction actions generalizing values with
  | nil =>
      rcases Except.ok.inj ran with rfl
      exact holds
  | cons action rest ih =>
      rcases bind_eq_ok.mp ran with ⟨next, acted, ranRest⟩
      refine ih (fun other member => step other (List.mem_cons_of_mem _ member)) ranRest ?_
      by_cases here : key action = index
      · subst here
        rw [Function.update_self]
        exact step action List.mem_cons_self rfl acted holds
      · rw [Function.update_of_ne (Ne.symm here)]
        exact holds

/-- A value whose key no action has is left. -/
theorem runOn_untouched {actions : List D} {values final : K → V} {index : K}
    (ran : runOn key act actions values = .ok final)
    (untouched : ∀ action ∈ actions, key action ≠ index) : final index = values index :=
  runOn_keeps (P := fun value => value = values index)
    (fun action member here => absurd here (untouched action member)) ran rfl

end Runs

/-- Grouped by key, the actions of one key are the group under it. -/
theorem filter_flatMap_groups {groups : List (K × List D)} (nodup : (groups.map Prod.fst).Nodup)
    (keyed : ∀ group ∈ groups, ∀ action ∈ group.2, key action = group.1) {index : K}
    {group : List D} (member : (index, group) ∈ groups) :
    (groups.flatMap Prod.snd).filter (fun action => key action = index) = group := by
  induction groups with
  | nil => simp at member
  | cons head rest ih =>
      rcases head with ⟨other, actions⟩
      rcases List.nodup_cons.mp nodup with ⟨headOnce, restNodup⟩
      have restKeyed : ∀ group ∈ rest, ∀ action ∈ group.2, key action = group.1 := by
        intro later isLater
        exact keyed later (List.mem_cons_of_mem _ isLater)
      have headKeyed : ∀ action ∈ actions, key action = other := keyed _ List.mem_cons_self
      rw [List.flatMap_cons, List.filter_append]
      rcases List.mem_cons.mp member with isHead | isLater
      · rw [Prod.mk.injEq] at isHead
        rcases isHead with ⟨rfl, rfl⟩
        have allOfHead : group.filter (fun action => key action = index) = group := by
          apply List.filter_eq_self.mpr
          intro action isAction
          simp [headKeyed action isAction]
        have noneOfRest :
            (rest.flatMap Prod.snd).filter (fun action => key action = index) = [] := by
          apply List.filter_eq_nil_iff.mpr
          intro action isAction
          rcases List.mem_flatMap.mp isAction with ⟨later, laterMember, inLater⟩
          have laterKey := restKeyed later laterMember action inLater
          simp only [decide_eq_true_eq, laterKey]
          intro same
          exact headOnce (List.mem_map.mpr ⟨later, laterMember, same⟩)
        rw [allOfHead, noneOfRest, List.append_nil]
      · have otherKey : other ≠ index := by
          intro same
          subst same
          exact headOnce (List.mem_map.mpr ⟨_, isLater, rfl⟩)
        have noneOfHead : actions.filter (fun action => key action = index) = [] := by
          apply List.filter_eq_nil_iff.mpr
          intro action isAction
          simp [headKeyed action isAction, otherKey]
        rw [noneOfHead, List.nil_append]
        exact ih restNodup restKeyed isLater

/-- No group under a key, no action of it. -/
theorem filter_flatMap_absent {groups : List (K × List D)}
    (keyed : ∀ group ∈ groups, ∀ action ∈ group.2, key action = group.1) {index : K}
    (absent : index ∉ groups.map Prod.fst) :
    (groups.flatMap Prod.snd).filter (fun action => key action = index) = [] := by
  apply List.filter_eq_nil_iff.mpr
  intro action isAction
  rcases List.mem_flatMap.mp isAction with ⟨group, member, inGroup⟩
  simp only [decide_eq_true_eq, keyed group member action inGroup]
  intro same
  exact absent (List.mem_map.mpr ⟨group, member, same⟩)

end Dolos.Keyed
