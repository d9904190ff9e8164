import Mathlib.Data.List.Basic
import Dolos.Lib.OrderedMap

/-!
# Items under a key of their own

A table that keeps, under each key, the items of a list that have this key, the newest
first. When the items come in the order of their keys the table read from its first key
to its last gives the list back.
-/

namespace Dolos

namespace Grouping

variable {κ ι α : Type*} [LinearOrder κ] (key : ι → κ) (value : ι → α)

/-- Put an item in front of those under its key. -/
def push (map : OrderedMap κ (List α)) (under : κ) (item : α) : OrderedMap κ (List α) :=
  map.insert under (item :: (map.get? under).getD [])

def grouped (items : List ι) : OrderedMap κ (List α) :=
  items.foldl (fun map item => push map (key item) (value item)) ∅

/-- The items under a key, the newest first. -/
def itemsAt (items : List ι) (under : κ) : List α :=
  ((items.filter fun item => key item = under).map value).reverse

variable {key value}

theorem grouped_concat (items : List ι) (item : ι) :
    grouped key value (items ++ [item]) =
      push (grouped key value items) (key item) (value item) := by
  rw [grouped, List.foldl_append]
  rfl

theorem itemsAt_concat (items : List ι) (item : ι) (under : κ) :
    itemsAt key value (items ++ [item]) under =
      if key item = under then value item :: itemsAt key value items under
      else itemsAt key value items under := by
  rw [itemsAt, List.filter_append]
  split_ifs with same
  · simp [itemsAt, same]
  · simp [itemsAt, same]

theorem get?_grouped (items : List ι) (under : κ) :
    (grouped key value items).get? under =
      if itemsAt key value items under = [] then none
      else some (itemsAt key value items under) := by
  induction items using List.reverseRecOn with
  | nil => simp [grouped, itemsAt]
  | append_singleton items item ih =>
      rw [grouped_concat, push, OrderedMap.get?_insert, itemsAt_concat]
      by_cases same : under = key item
      · subst same
        rw [if_pos rfl, if_pos rfl, if_neg (List.cons_ne_nil _ _), ih]
        split_ifs with none
        · rw [none]
          rfl
        · rfl
      · rw [if_neg same, if_neg (Ne.symm same)]
        exact ih

theorem getD_grouped (items : List ι) (under : κ) :
    ((grouped key value items).get? under).getD [] = itemsAt key value items under := by
  rw [get?_grouped]
  split_ifs with none
  · rw [none]
    rfl
  · rfl

theorem mem_itemsAt {items : List ι} {under : κ} {held : α} :
    held ∈ itemsAt key value items under ↔
      ∃ item ∈ items, key item = under ∧ value item = held := by
  simp [itemsAt, and_assoc]

theorem filter_grouped (keep : κ → Bool) (items : List ι) :
    (grouped key value items).filter (fun under _ => keep under) =
      grouped key value (items.filter fun item => keep (key item)) := by
  have kept : ∀ under, itemsAt key value (items.filter fun item => keep (key item)) under =
      if keep under then itemsAt key value items under else [] := by
    intro under
    unfold itemsAt
    rw [List.filter_filter]
    split_ifs with isKept
    · congr 2
      apply List.filter_congr
      intro item _
      by_cases same : key item = under
      · simp [same, isKept]
      · simp [same]
    · rw [List.filter_eq_nil_iff.mpr]
      · rfl
      · intro item _
        simp only [Bool.and_eq_true, decide_eq_true_eq, not_and]
        rintro rfl
        exact isKept
  ext1 under
  rw [OrderedMap.get?_filter, get?_grouped, get?_grouped, kept]
  by_cases isKept : keep under
  · simp only [isKept, if_true]
    split_ifs
    · rfl
    · simp
  · simp only [isKept, Bool.false_eq_true, if_false, if_true]
    split_ifs
    · rfl
    · simp

/-- The entries under a key, oldest first. -/
def flatten (entries : List (κ × List α)) : List (κ × α) :=
  entries.flatMap fun entry => entry.2.reverse.map fun item => (entry.1, item)

omit [LinearOrder κ] in
theorem flatten_append (first second : List (κ × List α)) :
    flatten (first ++ second) = flatten first ++ flatten second := by
  simp [flatten]

theorem le_key_of_mem_grouped {items : List ι} {entry : κ × List α}
    (member : entry ∈ (grouped key value items).entries) :
    entry.2 ≠ [] ∧ ∃ item ∈ items, key item = entry.1 := by
  have held := OrderedMap.mem_entries_iff.mp (show (entry.1, entry.2) ∈ _ from member)
  rw [get?_grouped] at held
  split_ifs at held with none
  rcases Option.some.inj held with here
  rw [← here]
  refine ⟨none, ?_⟩
  rcases List.exists_mem_of_ne_nil _ none with ⟨first, isFirst⟩
  rcases mem_itemsAt.mp isFirst with ⟨item, isItem, keyEq, -⟩
  exact ⟨item, isItem, keyEq⟩

variable (value)

/-- Items in the order of their keys end at the last key of the table, in front. -/
theorem entries_grouped_concat {items : List ι} {last : ι}
    (sorted : ∀ item ∈ items, key item ≤ key last) :
    ∃ before, (grouped key value (items ++ [last])).entries =
        before ++ [(key last, value last :: itemsAt key value items (key last))] ∧
      flatten (grouped key value items).entries =
        flatten before ++ (itemsAt key value items (key last)).reverse.map fun item =>
          (key last, item) := by
  have greatest : ∀ entry ∈ (grouped key value items).entries, entry.1 ≤ key last := by
    intro entry member
    rcases (le_key_of_mem_grouped member).2 with ⟨item, isItem, keyEq⟩
    rw [← keyEq]
    exact sorted item isItem
  rw [grouped_concat, push, getD_grouped]
  cases held : (grouped key value items).get? (key last) with
  | none =>
      have absent : itemsAt key value items (key last) = [] := by
        rw [← getD_grouped, held]
        rfl
      refine ⟨(grouped key value items).entries, ?_, by simp [absent]⟩
      apply OrderedMap.entries_insert_above
      intro entry member
      apply lt_of_le_of_ne (greatest entry member)
      intro same
      have found := OrderedMap.mem_entries_iff.mp (show (entry.1, entry.2) ∈ _ from member)
      rw [same, held] at found
      cases found
  | some old =>
      have here : itemsAt key value items (key last) = old := by
        rw [← getD_grouped, held]
        rfl
      rcases OrderedMap.entries_of_greatest held greatest with ⟨before, entriesEq⟩
      refine ⟨before, OrderedMap.entries_insert_last entriesEq _, ?_⟩
      rw [entriesEq, flatten_append, here]
      simp [flatten]

/-- The table read from its first key to its last is the list. -/
theorem flatten_grouped {items : List ι}
    (sorted : items.Pairwise fun earlier later => key earlier ≤ key later) :
    flatten (grouped key value items).entries = items.map fun item => (key item, value item) := by
  induction items using List.reverseRecOn with
  | nil => rfl
  | append_singleton items last ih =>
      rcases List.pairwise_append.mp sorted with ⟨earlier, -, below⟩
      rcases entries_grouped_concat value
          (fun item member => below item member last (List.mem_singleton.mpr rfl)) with
        ⟨before, entriesEq, flattened⟩
      rw [entriesEq, flatten_append, List.map_append, ← ih earlier, flattened, List.append_assoc]
      simp [flatten]

/-- The last key has the last item in front. -/
theorem getLast?_grouped {items : List ι}
    (sorted : items.Pairwise fun earlier later => key earlier ≤ key later) :
    (grouped key value items).entries.getLast?.map (fun entry => (entry.1, entry.2.head?)) =
      items.getLast?.map fun item => (key item, some (value item)) := by
  rcases List.eq_nil_or_concat items with rfl | ⟨before, last, concat⟩
  · rfl
  · rw [List.concat_eq_append] at concat
    subst concat
    rcases List.pairwise_append.mp sorted with ⟨-, -, below⟩
    rcases entries_grouped_concat value
        (fun item member => below item member last (List.mem_singleton.mpr rfl)) with
      ⟨earlier, entriesEq, -⟩
    rw [entriesEq]
    simp

/-- The first key is that of the first item. -/
theorem head?_grouped {items : List ι}
    (sorted : items.Pairwise fun earlier later => key earlier ≤ key later) :
    (grouped key value items).entries.head?.map Prod.fst = items.head?.map key := by
  have whole := flatten_grouped value sorted
  cases entriesEq : (grouped key value items).entries with
  | nil =>
      rw [entriesEq] at whole
      have none : items = [] := List.map_eq_nil_iff.mp whole.symm
      rw [none]
      rfl
  | cons entry rest =>
      have nonempty : entry.2 ≠ [] :=
        (le_key_of_mem_grouped (by rw [entriesEq]; exact List.mem_cons_self)).1
      rw [entriesEq] at whole
      have first := congrArg List.head? whole
      rcases List.exists_cons_of_ne_nil (List.reverse_ne_nil_iff.mpr nonempty) with
        ⟨oldest, newer, reversed⟩
      simp only [flatten, List.flatMap_cons, reversed, List.map_cons, List.cons_append,
        List.head?_cons, List.head?_map] at first
      cases items with
      | nil => cases first
      | cons item later =>
          simp only [List.head?_cons, Option.map_some, Option.some.injEq, Prod.mk.injEq] at first
          simp [first.1]

end Grouping

end Dolos
