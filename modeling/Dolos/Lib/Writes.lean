import Mathlib.Data.Finset.Image
import Mathlib.Logic.Function.Basic

/-!
# Sets written entry by entry

A finite set that takes a list of entries in and gives a list of entries out, and what
is left of it when the same lists are taken back in the same order: first the entries
that came in, then those that went out.
-/

namespace Dolos

namespace Writes

variable {α β : Type*} [DecidableEq α] [DecidableEq β]

def insertEach (held : Finset α) (entries : List α) : Finset α :=
  entries.foldl (fun held entry => insert entry held) held

def eraseEach (held : Finset α) (entries : List α) : Finset α :=
  entries.foldl Finset.erase held

@[simp]
theorem mem_insertEach {held : Finset α} {entries : List α} {entry : α} :
    entry ∈ insertEach held entries ↔ entry ∈ entries ∨ entry ∈ held := by
  induction entries generalizing held with
  | nil => simp [insertEach]
  | cons head rest ih =>
      have step : insertEach held (head :: rest) = insertEach (insert head held) rest := rfl
      rw [step, ih, Finset.mem_insert, List.mem_cons]
      tauto

@[simp]
theorem mem_eraseEach {held : Finset α} {entries : List α} {entry : α} :
    entry ∈ eraseEach held entries ↔ entry ∉ entries ∧ entry ∈ held := by
  induction entries generalizing held with
  | nil => simp [eraseEach]
  | cons head rest ih =>
      have step : eraseEach held (head :: rest) = eraseEach (held.erase head) rest := rfl
      rw [step, ih, Finset.mem_erase, List.mem_cons]
      tauto

/-- Entries taken in and out. -/
def applied (held : Finset α) (entered left : List α) : Finset α :=
  eraseEach (insertEach held entered) left

/-- The same entries taken back. -/
def undone (held : Finset α) (entered left : List α) : Finset α :=
  insertEach (eraseEach held entered) left

/-- The set comes back if what left was there before, and what entered was not, unless
it left. -/
theorem undone_applied_iff {held : Finset α} {entered left : List α} :
    undone (applied held entered left) entered left = held ↔
      (∀ entry ∈ left, entry ∈ held) ∧ ∀ entry ∈ entered, entry ∈ held → entry ∈ left := by
  constructor
  · intro same
    refine ⟨?_, ?_⟩
    · intro entry leaves
      rw [← same]
      simp [undone, leaves]
    · intro entry enters present
      rw [← same] at present
      simpa [undone, applied, enters] using present
  · rintro ⟨leftHeld, enteredLeft⟩
    ext entry
    have present := leftHeld entry
    have leaving := enteredLeft entry
    simp only [undone, applied, mem_insertEach, mem_eraseEach]
    tauto

theorem eraseEach_insertEach_iff {held : Finset α} {entered erased : List α}
    (same : ∀ entry, entry ∈ erased ↔ entry ∈ entered) :
    eraseEach (insertEach held entered) erased = held ↔ ∀ entry ∈ entered, entry ∉ held := by
  constructor
  · intro restored entry enters present
    rw [← restored] at present
    exact (mem_eraseEach.mp present).1 ((same entry).mpr enters)
  · intro fresh
    ext entry
    have absent := fresh entry
    have listed := same entry
    simp only [mem_eraseEach, mem_insertEach]
    tauto

/-- A partial function with one value written to, or removed from, each of some keys. -/
def setEach (held : α → Option β) (keys : List α) (value : Option β) : α → Option β :=
  keys.foldl (fun held key => Function.update held key value) held

omit [DecidableEq β] in
theorem setEach_apply (held : α → Option β) (keys : List α) (value : Option β) (key : α) :
    setEach held keys value key = if key ∈ keys then value else held key := by
  induction keys generalizing held with
  | nil => rfl
  | cons head rest ih =>
      have step : setEach held (head :: rest) value =
          setEach (Function.update held head value) rest value := rfl
      rw [step, ih]
      by_cases same : key = head
      · simp [same]
      · simp [same, Function.update_of_ne]

/-- Several values, each written to the keys of its own. -/
def setAll (held : α → Option β) (writes : List (List α × β)) : α → Option β :=
  writes.foldl (fun held write => setEach held write.1 (some write.2)) held

def clearAll (held : α → Option β) (writes : List (List α × β)) : α → Option β :=
  writes.foldl (fun held write => setEach held write.1 none) held

omit [DecidableEq β] in
theorem setAll_of_notMem {writes : List (List α × β)} {key : α}
    (unlisted : ∀ write ∈ writes, key ∉ write.1) (held : α → Option β) :
    setAll held writes key = held key := by
  induction writes generalizing held with
  | nil => rfl
  | cons write rest ih =>
      have step : setAll held (write :: rest) = setAll (setEach held write.1 (some write.2)) rest :=
        rfl
      rw [step, ih fun later member => unlisted later (List.mem_cons_of_mem _ member),
        setEach_apply, if_neg (unlisted write List.mem_cons_self)]

omit [DecidableEq β] in
theorem clearAll_apply (held : α → Option β) (writes : List (List α × β)) (key : α) :
    clearAll held writes key = if ∃ write ∈ writes, key ∈ write.1 then none else held key := by
  induction writes generalizing held with
  | nil => simp [clearAll]
  | cons write rest ih =>
      have step : clearAll held (write :: rest) = clearAll (setEach held write.1 none) rest := rfl
      rw [step, ih, setEach_apply]
      by_cases listed : key ∈ write.1
      · simp [listed]
      · have listedIff : (∃ other ∈ write :: rest, key ∈ other.1) ↔
            ∃ other ∈ rest, key ∈ other.1 := by
          rw [List.exists_mem_cons_iff, or_iff_right listed]
        simp only [listedIff, listed, if_false]

omit [DecidableEq β] in
theorem clearAll_setAll_iff {held : α → Option β} {writes : List (List α × β)} :
    clearAll (setAll held writes) writes.reverse = held ↔
      ∀ write ∈ writes, ∀ key ∈ write.1, held key = none := by
  constructor
  · intro same write member key isKey
    rw [← same, clearAll_apply, if_pos ⟨write, List.mem_reverse.mpr member, isKey⟩]
  · intro fresh
    funext key
    rw [clearAll_apply]
    split_ifs with listed
    · rcases listed with ⟨write, member, isKey⟩
      exact (fresh write (List.mem_reverse.mp member) key isKey).symm
    · apply setAll_of_notMem
      intro write member isKey
      exact listed ⟨write, List.mem_reverse.mpr member, isKey⟩

section Encoded

variable {encode : α → β}

/-- A set kept under encoded entries follows the set itself. -/
theorem image_insertEach (held : Finset α) (entries : List α) :
    (insertEach held entries).image encode =
      insertEach (held.image encode) (entries.map encode) := by
  ext entry
  simp only [Finset.mem_image, mem_insertEach, List.mem_map]
  grind

theorem image_eraseEach {held : Finset α} {entries : List α}
    (injective : ∀ entry ∈ entries, ∀ other ∈ held, encode entry = encode other → entry = other) :
    (eraseEach held entries).image encode = eraseEach (held.image encode) (entries.map encode) := by
  ext entry
  simp only [Finset.mem_image, mem_eraseEach, List.mem_map]
  grind

end Encoded

end Writes

end Dolos
