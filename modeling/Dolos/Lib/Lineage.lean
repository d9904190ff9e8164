import Mathlib.Data.List.Basic
import Mathlib.Data.List.Induction
import Mathlib.Tactic.Common

/-!
# Lineages

Elements that name a parent by its id. A parent chain leads from a given id, each
element naming the one before it, to the id of its last element. A walk follows the
parents upwards, for a bounded number of steps, until it meets a given id.
-/

namespace Dolos

variable {α ι : Type*}

def ParentChain (parent : α → Option ι) (id : α → ι) : Option ι → List α → Option ι → Prop
  | start, [], stop => start = stop
  | start, element :: rest, stop =>
      parent element = start ∧ ParentChain parent id (some (id element)) rest stop

namespace ParentChain

variable {parent : α → Option ι} {id : α → ι} {start stop : Option ι} {element : α}
  {rest : List α}

@[simp]
theorem nil_iff : ParentChain parent id start [] stop ↔ start = stop := Iff.rfl

@[simp]
theorem cons_iff :
    ParentChain parent id start (element :: rest) stop ↔
      parent element = start ∧ ParentChain parent id (some (id element)) rest stop := Iff.rfl

theorem stop_eq {elements : List α} (chain : ParentChain parent id start elements stop) :
    stop = (elements.getLast?.map id).or start := by
  induction elements generalizing start with
  | nil => simpa using chain.symm
  | cons element rest ih =>
      rw [ih chain.2]
      cases rest with
      | nil => simp
      | cons next later =>
          have last : ((next :: later).getLast?.map id).isSome := by simp
          rcases Option.isSome_iff_exists.mp last with ⟨held, heldEq⟩
          simp [List.getLast?_cons_cons, heldEq]

/-- The element before an element of the chain is its parent. -/
theorem parent_of_append {before after : List α}
    (chain : ParentChain parent id start (before ++ element :: after) stop) :
    parent element = (before.getLast?.map id).or start := by
  induction before generalizing start with
  | nil => simpa using chain.1
  | cons first rest ih =>
      rw [ih chain.2]
      cases rest with
      | nil => simp
      | cons next later =>
          have last : ((next :: later).getLast?.map id).isSome := by simp
          rcases Option.isSome_iff_exists.mp last with ⟨held, heldEq⟩
          simp [List.getLast?_cons_cons, heldEq]

end ParentChain

section Walk

variable [DecidableEq ι] {next : ι → Option ι} {goal : ι}

/-- The walk from a cursor, with the steps it may still take. -/
def walkReaches (next : ι → Option ι) (goal : ι) : ℕ → Option ι → Bool
  | _, none => false
  | 0, some cursor => cursor = goal
  | left + 1, some cursor =>
      if cursor = goal then true else walkReaches next goal left (next cursor)

theorem walkReaches_succ {left : ℕ} {cursor : Option ι}
    (reached : walkReaches next goal left cursor = true) :
    walkReaches next goal (left + 1) cursor = true := by
  induction left generalizing cursor with
  | zero =>
      cases cursor with
      | none => simp [walkReaches] at reached
      | some cursor =>
          have found : cursor = goal := by simpa [walkReaches] using reached
          simp [walkReaches, found]
  | succ left ih =>
      cases cursor with
      | none => simp [walkReaches] at reached
      | some cursor =>
          rw [walkReaches] at reached ⊢
          split_ifs at reached ⊢ with found
          · rfl
          · exact ih reached

/-- A walk that reaches the goal from elsewhere reaches it from the next cursor. -/
theorem walkReaches_next {left : ℕ} {cursor : ι}
    (reached : walkReaches next goal left (some cursor) = true) (elsewhere : cursor ≠ goal) :
    walkReaches next goal left (next cursor) = true := by
  cases left with
  | zero => simp [walkReaches, elsewhere] at reached
  | succ left =>
      rw [walkReaches, if_neg elsewhere] at reached
      exact walkReaches_succ reached

/-- From inside a parent chain the walk leads back to its start, past no later element. -/
theorem ParentChain.not_walkReaches {parent : α → Option ι} {id : α → ι} {start stop : Option ι}
    {before after : List α} {element : α}
    (chain : ParentChain parent id start (before ++ element :: after) stop)
    (resolves : ∀ held ∈ before, next (id held) = parent held)
    (passed : goal ∉ before.map id)
    (blocked : ∀ left, walkReaches next goal left start = false) (left : ℕ) :
    walkReaches next goal left (parent element) = false := by
  induction before using List.reverseRecOn generalizing element after with
  | nil =>
      rw [chain.parent_of_append]
      exact blocked left
  | append_singleton earlier last ih =>
      have parentEq : parent element = some (id last) := by
        rw [chain.parent_of_append]
        simp
      have chainLast : ParentChain parent id start (earlier ++ last :: element :: after) stop := by
        simpa using chain
      have lastNe : id last ≠ goal := by
        intro same
        apply passed
        simp [← same]
      have lastBlocked := ih chainLast
        (fun held member => resolves held (by simp [member]))
        (fun member =>
          passed (by simp only [List.map_append, List.mem_append]; exact Or.inl member))
      rw [parentEq, Bool.eq_false_iff]
      intro reached
      have onward := walkReaches_next reached lastNe
      rw [resolves last (by simp), lastBlocked] at onward
      cases onward

end Walk

end Dolos
