import Mathlib.Data.List.Perm.Basic
import Mathlib.Data.List.Nodup
import Dolos.Lib.OrderedMap

/-!
# Lists with distinct keys

A list whose elements have keys, all different: looking a key up by a search from the
front. The result does not depend on the order of the list, a filter on keys filters
what is found, and writing the list to a table writes what is found.
-/

namespace Dolos.KeyedList

variable {α κ : Type*} [DecidableEq κ] {key : α → κ} {list other : List α}

def find (key : α → κ) (list : List α) (wanted : κ) : Option α :=
  list.find? fun element => key element = wanted

theorem find_eq_none_iff {wanted : κ} : find key list wanted = none ↔ wanted ∉ list.map key := by
  rw [find, List.find?_eq_none]
  constructor
  · intro none member
    rcases List.mem_map.mp member with ⟨element, isElement, keyEq⟩
    exact none element isElement (decide_eq_true keyEq)
  · intro absent element isElement found
    exact absent (List.mem_map.mpr ⟨element, isElement, of_decide_eq_true found⟩)

theorem mem_of_find {wanted : κ} {element : α} (found : find key list wanted = some element) :
    element ∈ list ∧ key element = wanted := by
  rw [find] at found
  exact ⟨List.mem_of_find?_eq_some found, by simpa using List.find?_some found⟩

theorem find_of_mem (nodup : (list.map key).Nodup) {element : α} (member : element ∈ list) :
    find key list (key element) = some element := by
  cases found : find key list (key element) with
  | none => exact absurd (List.mem_map_of_mem member) (find_eq_none_iff.mp found)
  | some held =>
      rcases mem_of_find found with ⟨isHeld, same⟩
      rw [List.inj_on_of_nodup_map nodup isHeld member same]

theorem find_eq_some_iff (nodup : (list.map key).Nodup) {wanted : κ} {element : α} :
    find key list wanted = some element ↔ element ∈ list ∧ key element = wanted := by
  constructor
  · exact mem_of_find
  · rintro ⟨member, rfl⟩
    exact find_of_mem nodup member

theorem find_perm (nodup : (list.map key).Nodup) (perm : list.Perm other) (wanted : κ) :
    find key list wanted = find key other wanted := by
  have otherNodup : (other.map key).Nodup := (perm.map key).nodup_iff.mp nodup
  apply Option.ext
  intro element
  rw [find_eq_some_iff nodup, find_eq_some_iff otherNodup, perm.mem_iff]

omit [DecidableEq κ] in
/-- Elements made of a source list, each with the key its source has there. -/
theorem map_filterMap_sublist {β : Type*} {make : β → Option α} {index : β → κ}
    (same : ∀ source made, make source = some made → key made = index source)
    (sources : List β) : ((sources.filterMap make).map key).Sublist (sources.map index) := by
  induction sources with
  | nil => simp
  | cons source rest ih =>
      cases made : make source with
      | none => simpa [List.filterMap_cons, made] using ih.cons (index source)
      | some element =>
          simpa [List.filterMap_cons, made, same source element made] using
            ih.cons_cons (index source)

theorem find_append (wanted : κ) :
    find key (list ++ other) wanted = (find key list wanted).or (find key other wanted) := by
  rw [find, List.find?_append]
  rfl

theorem find_filter (key : α → κ) (list : List α) (keep : κ → Bool) (wanted : κ) :
    find key (list.filter fun element => keep (key element)) wanted =
      if keep wanted then find key list wanted else none := by
  rw [find, List.find?_filter]
  split_ifs with kept
  · congr 1
    funext element
    by_cases same : key element = wanted
    · simp [same, kept]
    · simp [same]
  · apply List.find?_eq_none.mpr
    intro element _ found
    simp only [Bool.decide_and, Bool.decide_eq_true, Bool.and_eq_true, decide_eq_true_eq] at found
    exact kept (found.2 ▸ found.1)

theorem find_map {β : Type*} (newKey : β → κ) (list : List α) (f : α → β)
    (sameKey : ∀ element, newKey (f element) = key element) (wanted : κ) :
    find newKey (list.map f) wanted = (find key list wanted).map f := by
  rw [find, List.find?_map]
  simp only [Function.comp_def, sameKey]
  rfl

/-- Writing a list to a table. -/
theorem get?_insertAll {ι : Type*} [LinearOrder ι] {β : Type*} {index : α → ι}
    (nodup : (list.map index).Nodup) (table : OrderedMap ι β) (value : α → β) (wanted : ι) :
    (table.insertAll (list.map fun element => (index element, value element))).get? wanted =
      ((find index list wanted).map value).or (table.get? wanted) := by
  cases found : find index list wanted with
  | none =>
      apply OrderedMap.get?_insertAll_of_notMem
      rw [List.map_map]
      exact find_eq_none_iff.mp found
  | some element =>
      rcases mem_of_find found with ⟨member, rfl⟩
      apply OrderedMap.get?_insertAll_of_mem
      · exact List.mem_map.mpr ⟨element, member, rfl⟩
      · intro written isWritten
        rcases List.mem_map.mp isWritten with ⟨source, isSource, entryEq⟩
        rcases Prod.mk.inj entryEq with ⟨indexEq, rfl⟩
        rw [List.inj_on_of_nodup_map nodup isSource member indexEq]

end Dolos.KeyedList
