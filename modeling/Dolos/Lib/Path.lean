import Mathlib.Data.List.Basic

/-!
# Labelled paths

A list of labels that leads from one state to another, one step for each label.
-/

namespace Dolos

variable {α σ : Type*}

inductive Path (step : α → σ → σ → Prop) : List α → σ → σ → Prop
  | nil (state : σ) : Path step [] state state
  | cons {label : α} {rest : List α} {before next after : σ} :
      step label before next → Path step rest next after → Path step (label :: rest) before after

namespace Path

variable {step : α → σ → σ → Prop} {before middle after : σ} {first second : List α}

theorem append (path : Path step first before middle) (later : Path step second middle after) :
    Path step (first ++ second) before after := by
  induction path with
  | nil => exact later
  | cons stepped _ ih => exact .cons stepped (ih later)

theorem append_iff :
    Path step (first ++ second) before after ↔
      ∃ middle, Path step first before middle ∧ Path step second middle after := by
  constructor
  · intro path
    induction first generalizing before with
    | nil => exact ⟨before, .nil before, path⟩
    | cons label rest ih =>
        cases path with
        | cons stepped later =>
            rcases ih later with ⟨middle, reached, finished⟩
            exact ⟨middle, .cons stepped reached, finished⟩
  · rintro ⟨middle, reached, finished⟩
    exact reached.append finished

theorem mono {other : α → σ → σ → Prop} (path : Path step first before after)
    (implies : ∀ label state next, step label state next → other label state next) :
    Path other first before after := by
  induction path with
  | nil => exact .nil _
  | cons stepped _ ih => exact .cons (implies _ _ _ stepped) ih

theorem exists_step (path : Path step first before after) {label : α} (member : label ∈ first) :
    ∃ state next, step label state next := by
  induction path with
  | nil => cases member
  | cons stepped _ ih =>
      rcases List.mem_cons.mp member with rfl | isLater
      · exact ⟨_, _, stepped⟩
      · exact ih isLater

end Path

end Dolos
