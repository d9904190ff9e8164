import Mathlib.Order.Lattice
import Mathlib.Algebra.Order.Ring.Nat
import Mathlib.Data.List.Pairwise
import Mathlib.Data.List.Nodup
import Mathlib.Data.List.Induction
import Mathlib.Tactic.Common

/-!
# Ordered maps

A finite map kept as the list of its entries in strictly increasing key order,
which is how a sorted table iterates. The order is a field of the structure, so
two maps are equal as soon as every lookup agrees, and a table scanned from a key
on is a suffix of its entries.
-/

namespace Dolos

structure OrderedMap (κ α : Type*) [LinearOrder κ] where
  entries : List (κ × α)
  sorted : entries.Pairwise fun earlier later => earlier.1 < later.1
  deriving DecidableEq

namespace OrderedMap

variable {κ : Type*} [LinearOrder κ] {α β : Type*}

section Entries

def lookup (key : κ) : List (κ × α) → Option α
  | [] => none
  | (other, value) :: rest => if key = other then some value else lookup key rest

def insertEntry (key : κ) (value : α) : List (κ × α) → List (κ × α)
  | [] => [(key, value)]
  | (other, previous) :: rest =>
      if key < other then (key, value) :: (other, previous) :: rest
      else if key = other then (key, value) :: rest
      else (other, previous) :: insertEntry key value rest

theorem mem_insertEntry {key : κ} {value : α} {entry : κ × α} {entries : List (κ × α)}
    (member : entry ∈ insertEntry key value entries) :
    entry = (key, value) ∨ entry ∈ entries := by
  induction entries with
  | nil =>
      left
      simpa [insertEntry] using member
  | cons head rest ih =>
      simp only [insertEntry] at member
      split_ifs at member with below same
      · simpa using member
      · rcases List.mem_cons.mp member with rfl | later
        · exact Or.inl rfl
        · exact Or.inr (List.mem_cons_of_mem _ later)
      · rcases List.mem_cons.mp member with rfl | later
        · exact Or.inr List.mem_cons_self
        · rcases ih later with rfl | old
          · exact Or.inl rfl
          · exact Or.inr (List.mem_cons_of_mem _ old)

theorem sorted_insertEntry (key : κ) (value : α) {entries : List (κ × α)}
    (sorted : entries.Pairwise fun earlier later => earlier.1 < later.1) :
    (insertEntry key value entries).Pairwise fun earlier later => earlier.1 < later.1 := by
  induction entries with
  | nil => simp [insertEntry]
  | cons head rest ih =>
      rcases List.pairwise_cons.mp sorted with ⟨headBelow, restSorted⟩
      simp only [insertEntry]
      split_ifs with below same
      · refine List.pairwise_cons.mpr ⟨?_, sorted⟩
        intro entry member
        rcases List.mem_cons.mp member with rfl | later
        · exact below
        · exact below.trans (headBelow entry later)
      · refine List.pairwise_cons.mpr ⟨?_, restSorted⟩
        intro entry member
        rw [same]
        exact headBelow entry member
      · refine List.pairwise_cons.mpr ⟨?_, ih restSorted⟩
        intro entry member
        rcases mem_insertEntry member with rfl | old
        · exact lt_of_le_of_ne (not_lt.mp below) (Ne.symm same)
        · exact headBelow entry old

theorem lookup_eq_none {key : κ} {entries : List (κ × α)}
    (absent : ∀ entry ∈ entries, entry.1 ≠ key) : lookup key entries = none := by
  induction entries with
  | nil => rfl
  | cons head rest ih =>
      have different : key ≠ head.1 := fun same => absent head List.mem_cons_self same.symm
      rw [lookup, if_neg different]
      exact ih fun entry member => absent entry (List.mem_cons_of_mem _ member)

theorem notMem_of_lookup {key : κ} {entries : List (κ × α)}
    (absent : lookup key entries = none) : key ∉ entries.map Prod.fst := by
  induction entries with
  | nil => simp
  | cons head rest ih =>
      rcases head with ⟨other, value⟩
      simp only [lookup] at absent
      split_ifs at absent with same
      simp only [List.map_cons, List.mem_cons, not_or]
      exact ⟨same, ih absent⟩

theorem lookup_append (key : κ) (first second : List (κ × α)) :
    lookup key (first ++ second) = (lookup key first).or (lookup key second) := by
  induction first with
  | nil => rfl
  | cons head rest ih =>
      rcases head with ⟨other, value⟩
      rw [List.cons_append, lookup, lookup]
      split_ifs
      · rfl
      · exact ih

theorem lookup_insertEntry (key other : κ) (value : α) (entries : List (κ × α)) :
    lookup other (insertEntry key value entries) =
      if other = key then some value else lookup other entries := by
  induction entries with
  | nil => simp [insertEntry, lookup]
  | cons head rest ih =>
      rw [insertEntry]
      by_cases below : key < head.1
      · rw [if_pos below]
        by_cases equal : other = key
        · simp [lookup, equal]
        · simp [lookup, equal]
      · rw [if_neg below]
        by_cases same : key = head.1
        · rw [if_pos same]
          by_cases equal : other = key
          · simp [lookup, equal]
          · simp [lookup, equal, ← same]
        · rw [if_neg same, lookup, ih, lookup]
          by_cases equal : other = key
          · simp [equal, same]
          · simp [equal]

theorem mem_of_lookup {key : κ} {value : α} {entries : List (κ × α)}
    (found : lookup key entries = some value) : (key, value) ∈ entries := by
  induction entries with
  | nil => simp [lookup] at found
  | cons head rest ih =>
      rw [lookup] at found
      split_ifs at found with same
      · have headEq : head = (key, value) := Prod.ext same.symm (Option.some.inj found)
        rw [headEq]
        exact List.mem_cons_self
      · exact List.mem_cons_of_mem _ (ih found)

theorem lookup_of_mem {key : κ} {value : α} {entries : List (κ × α)}
    (sorted : entries.Pairwise fun earlier later => earlier.1 < later.1)
    (member : (key, value) ∈ entries) : lookup key entries = some value := by
  induction entries with
  | nil => simp at member
  | cons head rest ih =>
      rcases List.pairwise_cons.mp sorted with ⟨headBelow, restSorted⟩
      rw [lookup]
      rcases List.mem_cons.mp member with rfl | later
      · simp
      · have different : key ≠ head.1 := (headBelow _ later).ne'
        rw [if_neg different]
        exact ih restSorted later

theorem insertEntry_above {key : κ} {value : α} {entries : List (κ × α)}
    (above : ∀ entry ∈ entries, entry.1 < key) :
    insertEntry key value entries = entries ++ [(key, value)] := by
  induction entries with
  | nil => rfl
  | cons head rest ih =>
      have below : head.1 < key := above head List.mem_cons_self
      rw [insertEntry, if_neg below.not_gt, if_neg below.ne',
        ih fun entry member => above entry (List.mem_cons_of_mem _ member)]
      rfl

theorem lookup_filter (key : κ) (keep : κ → α → Bool) {entries : List (κ × α)}
    (sorted : entries.Pairwise fun earlier later => earlier.1 < later.1) :
    lookup key (entries.filter fun entry => keep entry.1 entry.2) =
      (lookup key entries).filter (keep key) := by
  induction entries with
  | nil => rfl
  | cons head rest ih =>
      rcases List.pairwise_cons.mp sorted with ⟨headBelow, restSorted⟩
      have later := ih restSorted
      by_cases same : key = head.1
      · subst same
        cases kept : keep head.1 head.2 with
        | true => simp [kept, lookup, Option.filter]
        | false =>
            have gone : lookup head.1 (rest.filter fun entry => keep entry.1 entry.2) = none := by
              apply lookup_eq_none
              intro entry member
              exact (headBelow entry (List.mem_filter.mp member).1).ne'
            simp [kept, lookup, gone, Option.filter]
      · cases kept : keep head.1 head.2 with
        | true => simp [kept, lookup, same, later]
        | false => simp [kept, lookup, same, later]

/-- Entries in key order are determined by which they are. -/
theorem sorted_ext {left right : List (κ × α)}
    (leftSorted : left.Pairwise fun earlier later => earlier.1 < later.1)
    (rightSorted : right.Pairwise fun earlier later => earlier.1 < later.1)
    (same : ∀ entry, entry ∈ left ↔ entry ∈ right) : left = right := by
  have antisymm : ∀ earlier later : κ × α,
      earlier ∈ left → later ∈ right → earlier.1 < later.1 → later.1 < earlier.1 →
        earlier = later :=
    fun _ _ _ _ below above => absurd below above.not_gt
  refine List.Perm.eq_of_pairwise antisymm leftSorted rightSorted ?_
  rw [List.perm_ext_iff_of_nodup
    (leftSorted.imp fun below same => below.ne (congrArg Prod.fst same))
    (rightSorted.imp fun below same => below.ne (congrArg Prod.fst same))]
  exact same

theorem entries_ext {left right : List (κ × α)}
    (leftSorted : left.Pairwise fun earlier later => earlier.1 < later.1)
    (rightSorted : right.Pairwise fun earlier later => earlier.1 < later.1)
    (same : ∀ key, lookup key left = lookup key right) : left = right := by
  apply sorted_ext leftSorted rightSorted
  rintro ⟨key, value⟩
  constructor
  · intro member
    exact mem_of_lookup (same key ▸ lookup_of_mem leftSorted member)
  · intro member
    exact mem_of_lookup ((same key).symm ▸ lookup_of_mem rightSorted member)

end Entries

def empty : OrderedMap κ α := ⟨[], List.Pairwise.nil⟩

instance : EmptyCollection (OrderedMap κ α) := ⟨empty⟩

instance : Inhabited (OrderedMap κ α) := ⟨empty⟩

def get? (map : OrderedMap κ α) (key : κ) : Option α := lookup key map.entries

def insert (map : OrderedMap κ α) (key : κ) (value : α) : OrderedMap κ α :=
  ⟨insertEntry key value map.entries, sorted_insertEntry key value map.sorted⟩

/-- Keep the entries a predicate holds of. -/
def filter (keep : κ → α → Bool) (map : OrderedMap κ α) : OrderedMap κ α :=
  ⟨map.entries.filter fun entry => keep entry.1 entry.2, map.sorted.filter _⟩

def erase (map : OrderedMap κ α) (key : κ) : OrderedMap κ α :=
  map.filter fun other _ => other ≠ key

/-- Write a value or, when there is none, delete the key. -/
def set (map : OrderedMap κ α) (key : κ) : Option α → OrderedMap κ α
  | some value => map.insert key value
  | none => map.erase key

def insertAll (map : OrderedMap κ α) (added : List (κ × α)) : OrderedMap κ α :=
  added.foldl (fun map entry => map.insert entry.1 entry.2) map

def ofList (added : List (κ × α)) : OrderedMap κ α := insertAll empty added

def eraseAll (map : OrderedMap κ α) (keys : List κ) : OrderedMap κ α :=
  keys.foldl erase map

def keys (map : OrderedMap κ α) : List κ := map.entries.map Prod.fst

def mapValues (f : α → β) (map : OrderedMap κ α) : OrderedMap κ β :=
  ⟨map.entries.map fun entry => (entry.1, f entry.2), by
    rw [List.pairwise_map]
    exact map.sorted⟩

@[ext]
theorem ext {left right : OrderedMap κ α} (same : ∀ key, left.get? key = right.get? key) :
    left = right := by
  rcases left with ⟨left, leftSorted⟩
  rcases right with ⟨right, rightSorted⟩
  have entriesEq : left = right := entries_ext leftSorted rightSorted same
  subst entriesEq
  rfl

theorem mem_entries_iff {map : OrderedMap κ α} {key : κ} {value : α} :
    (key, value) ∈ map.entries ↔ map.get? key = some value :=
  ⟨lookup_of_mem map.sorted, mem_of_lookup⟩

theorem mem_keys_iff {map : OrderedMap κ α} {key : κ} :
    key ∈ map.keys ↔ (map.get? key).isSome := by
  rw [keys, List.mem_map, Option.isSome_iff_exists]
  constructor
  · rintro ⟨⟨other, value⟩, member, rfl⟩
    exact ⟨value, mem_entries_iff.mp member⟩
  · rintro ⟨value, found⟩
    exact ⟨(key, value), mem_entries_iff.mpr found, rfl⟩

theorem nodup_keys (map : OrderedMap κ α) : map.keys.Nodup := by
  rw [keys, List.Nodup, List.pairwise_map]
  exact map.sorted.imp fun below => below.ne

@[simp]
theorem get?_empty (key : κ) : (∅ : OrderedMap κ α).get? key = none := rfl

theorem get?_insert (map : OrderedMap κ α) (key other : κ) (value : α) :
    (map.insert key value).get? other = if other = key then some value else map.get? other :=
  lookup_insertEntry key other value map.entries

@[simp]
theorem get?_insert_self (map : OrderedMap κ α) (key : κ) (value : α) :
    (map.insert key value).get? key = some value := by
  rw [get?_insert, if_pos rfl]

theorem get?_filter (keep : κ → α → Bool) (map : OrderedMap κ α) (key : κ) :
    (map.filter keep).get? key = (map.get? key).filter (keep key) :=
  lookup_filter key keep map.sorted

theorem get?_erase (map : OrderedMap κ α) (key other : κ) :
    (map.erase key).get? other = if other = key then none else map.get? other := by
  rw [erase, get?_filter]
  by_cases same : other = key
  · cases map.get? other with
    | none => simp [same]
    | some value => simp [same]
  · cases map.get? other with
    | none => simp [same]
    | some value => simp [same]

theorem get?_set (map : OrderedMap κ α) (key other : κ) (value : Option α) :
    (map.set key value).get? other = if other = key then value else map.get? other := by
  cases value with
  | none => exact get?_erase map key other
  | some value => exact get?_insert map key other value

theorem get?_eraseAll (map : OrderedMap κ α) (keys : List κ) (key : κ) :
    (map.eraseAll keys).get? key = if key ∈ keys then none else map.get? key := by
  induction keys generalizing map with
  | nil => simp [eraseAll]
  | cons head rest ih =>
      have step : (map.eraseAll (head :: rest)) = (map.erase head).eraseAll rest := rfl
      rw [step, ih, get?_erase]
      by_cases inRest : key ∈ rest
      · simp [inRest]
      · by_cases same : key = head
        · simp [same]
        · simp [inRest, same]

theorem insertAll_concat (map : OrderedMap κ α) (added : List (κ × α)) (entry : κ × α) :
    map.insertAll (added ++ [entry]) = (map.insertAll added).insert entry.1 entry.2 := by
  simp [insertAll]

theorem get?_insertAll_of_notMem (map : OrderedMap κ α) {added : List (κ × α)} {key : κ}
    (absent : key ∉ added.map Prod.fst) : (map.insertAll added).get? key = map.get? key := by
  induction added using List.reverseRecOn with
  | nil => rfl
  | append_singleton earlier entry ih =>
      simp only [List.map_append, List.map_cons, List.map_nil, List.mem_append,
        List.mem_singleton, not_or] at absent
      rw [insertAll_concat, get?_insert, if_neg absent.2, ih absent.1]

theorem get?_insertAll_cases (map : OrderedMap κ α) {added : List (κ × α)} {key : κ} {value : α}
    (held : (map.insertAll added).get? key = some value) :
    (key, value) ∈ added ∨ map.get? key = some value := by
  induction added using List.reverseRecOn with
  | nil => exact Or.inr held
  | append_singleton earlier entry ih =>
      rw [insertAll_concat, get?_insert] at held
      split_ifs at held with same
      · left
        cases held
        rw [same]
        exact List.mem_append_right _ (List.mem_singleton_self _)
      · rcases ih held with written | old
        · exact Or.inl (List.mem_append_left _ written)
        · exact Or.inr old

/-- A key written with one value only reads back that value. -/
theorem get?_insertAll_of_mem (map : OrderedMap κ α) {added : List (κ × α)} {key : κ} {value : α}
    (member : (key, value) ∈ added) (unique : ∀ other, (key, other) ∈ added → other = value) :
    (map.insertAll added).get? key = some value := by
  induction added using List.reverseRecOn with
  | nil => simp at member
  | append_singleton earlier entry ih =>
      rw [insertAll_concat, get?_insert]
      split_ifs with same
      · have lastMember : (key, entry.2) ∈ earlier ++ [entry] := by
          rw [same]
          simp
        rw [unique entry.2 lastMember]
      · apply ih
        · rcases List.mem_append.mp member with before | last
          · exact before
          · rw [List.mem_singleton] at last
            exact absurd (congrArg Prod.fst last) same
        · intro other otherMember
          exact unique other (List.mem_append_left _ otherMember)

theorem get?_insertAll_iff (map : OrderedMap κ α) {added : List (κ × α)}
    (nodup : (added.map Prod.fst).Nodup) {key : κ} {value : α} :
    (map.insertAll added).get? key = some value ↔
      (key, value) ∈ added ∨ key ∉ added.map Prod.fst ∧ map.get? key = some value := by
  by_cases listed : key ∈ added.map Prod.fst
  · rcases List.mem_map.mp listed with ⟨⟨other, held⟩, member, rfl⟩
    have unique : ∀ found, (other, found) ∈ added → found = held := by
      intro found isFound
      exact congrArg Prod.snd (List.inj_on_of_nodup_map nodup isFound member rfl)
    rw [get?_insertAll_of_mem map member unique, Option.some.injEq]
    constructor
    · rintro rfl
      exact Or.inl member
    · rintro (found | ⟨unlisted, _⟩)
      · exact (unique value found).symm
      · exact absurd listed unlisted
  · rw [get?_insertAll_of_notMem map listed]
    constructor
    · intro held
      exact Or.inr ⟨listed, held⟩
    · rintro (found | ⟨_, held⟩)
      · exact absurd (List.mem_map_of_mem found) listed
      · exact held

theorem mem_of_get?_ofList {added : List (κ × α)} {key : κ} {value : α}
    (held : (ofList added).get? key = some value) : (key, value) ∈ added := by
  rcases get?_insertAll_cases empty held with written | old
  · exact written
  · simp [get?, empty, lookup] at old

/-- In whatever order and however often the entries are written. -/
theorem get?_ofList_of_mem_iff {added listed : List (κ × α)}
    (same : ∀ entry, entry ∈ added ↔ entry ∈ listed) (nodup : (listed.map Prod.fst).Nodup)
    {key : κ} {value : α} : (ofList added).get? key = some value ↔ (key, value) ∈ listed := by
  constructor
  · intro held
    exact (same _).mp (mem_of_get?_ofList held)
  · intro member
    apply get?_insertAll_of_mem empty ((same _).mpr member)
    intro other otherMember
    have sameEntry := List.inj_on_of_nodup_map nodup ((same _).mp otherMember) member rfl
    exact congrArg Prod.snd sameEntry

theorem get?_ofList_iff {added : List (κ × α)} (nodup : (added.map Prod.fst).Nodup) {key : κ}
    {value : α} : (ofList added).get? key = some value ↔ (key, value) ∈ added :=
  get?_ofList_of_mem_iff (fun _ => Iff.rfl) nodup

/-- Keys that are absent are added with one value. -/
def orInsertAll (map : OrderedMap κ α) (keys : List κ) (value : α) : OrderedMap κ α :=
  keys.foldl
    (fun held key => if (held.get? key).isSome then held else held.insert key value)
    map

theorem get?_orInsertAll (map : OrderedMap κ α) (keys : List κ) (value : α) (key : κ) :
    (map.orInsertAll keys value).get? key =
      (map.get? key).or (if key ∈ keys then some value else none) := by
  unfold orInsertAll
  induction keys generalizing map with
  | nil => simp
  | cons first rest ih =>
      rw [List.foldl_cons, ih]
      by_cases same : key = first
      · subst same
        cases found : map.get? key with
        | none => simp
        | some held => simp [found]
      · split_ifs <;> simp_all [get?_insert]

/-- A list that holds what another map has under some keys is the restriction to
these keys. -/
theorem get?_ofList_restrict {added : List (κ × α)} {source : OrderedMap κ α} {listed : List κ}
    (members : ∀ entry, entry ∈ added ↔ entry.1 ∈ listed ∧ source.get? entry.1 = some entry.2)
    (key : κ) [Decidable (key ∈ listed)] :
    (ofList added).get? key = if key ∈ listed then source.get? key else none := by
  by_cases isListed : key ∈ listed
  · rw [if_pos isListed]
    cases held : source.get? key with
    | none =>
        rw [ofList, get?_insertAll_of_notMem]
        · rfl
        · intro member
          rcases List.mem_map.mp member with ⟨entry, isAdded, rfl⟩
          rw [((members entry).mp isAdded).2] at held
          simp at held
    | some value =>
        apply get?_insertAll_of_mem
        · exact (members (key, value)).mpr ⟨isListed, held⟩
        · intro other isAdded
          have otherEq := ((members (key, other)).mp isAdded).2
          exact Option.some.inj (otherEq.symm.trans held)
  · rw [if_neg isListed, ofList, get?_insertAll_of_notMem]
    · rfl
    · intro member
      rcases List.mem_map.mp member with ⟨entry, isAdded, rfl⟩
      exact isListed ((members entry).mp isAdded).1

theorem get?_insertAll_entries (map other : OrderedMap κ α) (key : κ) :
    (map.insertAll other.entries).get? key = (other.get? key).or (map.get? key) := by
  cases held : other.get? key with
  | none =>
      rw [Option.none_or]
      apply get?_insertAll_of_notMem
      intro member
      have present := mem_keys_iff.mp member
      simp [held] at present
  | some value =>
      rw [Option.some_or]
      apply get?_insertAll_of_mem map (mem_entries_iff.mpr held)
      intro found member
      have foundEq := mem_entries_iff.mp member
      exact Option.some.inj (foundEq.symm.trans held)

section Rekeyed

variable {ι γ : Type*} [LinearOrder ι] {rekey : ι → κ}

/-- The entries of a map under other keys. -/
def rekeyed (rekey : ι → κ) (convert : ι → γ → α) (source : OrderedMap ι γ) : List (κ × α) :=
  source.entries.map fun entry => (rekey entry.1, convert entry.1 entry.2)

theorem get?_insertAll_rekeyed (map : OrderedMap κ α) (source : OrderedMap ι γ)
    (injective : Function.Injective rekey) (convert : ι → γ → α) (key : ι) :
    (map.insertAll (rekeyed rekey convert source)).get? (rekey key) =
      ((source.get? key).map (convert key)).or (map.get? (rekey key)) := by
  cases held : source.get? key with
  | none =>
      apply get?_insertAll_of_notMem
      intro member
      rcases List.mem_map.mp member with ⟨entry, isEntry, entryEq⟩
      rcases List.mem_map.mp isEntry with ⟨⟨own, value⟩, isSource, rfl⟩
      have sourceEq := mem_entries_iff.mp isSource
      have sameKey : own = key := injective entryEq
      rw [sameKey, held] at sourceEq
      cases sourceEq
  | some value =>
      apply get?_insertAll_of_mem
      · exact List.mem_map.mpr ⟨(key, value), mem_entries_iff.mpr held, rfl⟩
      · intro other member
        rcases List.mem_map.mp member with ⟨⟨own, found⟩, isSource, entryEq⟩
        simp only [Prod.mk.injEq] at entryEq
        have sourceEq := mem_entries_iff.mp isSource
        have sameKey : own = key := injective entryEq.1
        rw [sameKey, held] at sourceEq
        rw [← entryEq.2, ← Option.some.inj sourceEq, sameKey]

theorem get?_insertAll_rekeyed_of_ne (map : OrderedMap κ α) (source : OrderedMap ι γ)
    (convert : ι → γ → α) {other : κ} (differs : ∀ key, rekey key ≠ other) :
    (map.insertAll (rekeyed rekey convert source)).get? other = map.get? other := by
  apply get?_insertAll_of_notMem
  intro member
  rcases List.mem_map.mp member with ⟨entry, isEntry, entryEq⟩
  rcases List.mem_map.mp isEntry with ⟨⟨own, value⟩, -, rfl⟩
  exact differs own entryEq

end Rekeyed

/-- Maps without a common key are written in either order. -/
theorem insertAll_comm (map : OrderedMap κ α) {first second : OrderedMap κ α}
    (disjoint : ∀ key, (first.get? key).isSome → second.get? key = none) :
    (map.insertAll first.entries).insertAll second.entries =
      (map.insertAll second.entries).insertAll first.entries := by
  ext1 key
  simp only [get?_insertAll_entries]
  cases held : first.get? key with
  | none => simp
  | some value => simp [disjoint key (by simp [held])]

theorem insertAll_swap {first second : OrderedMap κ α}
    (disjoint : ∀ key, (first.get? key).isSome → second.get? key = none) :
    first.insertAll second.entries = second.insertAll first.entries := by
  ext1 key
  simp only [get?_insertAll_entries]
  cases held : first.get? key with
  | none => simp
  | some value => simp [disjoint key (by simp [held])]

theorem eq_of_entries {left right : OrderedMap κ α} (same : left.entries = right.entries) :
    left = right := by
  rcases left with ⟨left, leftSorted⟩
  rcases right with ⟨right, rightSorted⟩
  subst same
  rfl

/-- From a key of its own on, a map has the entry and those above it. -/
theorem filter_le_eq_cons {map : OrderedMap κ α} {key : κ} {value : α}
    (held : map.get? key = some value) :
    map.entries.filter (fun entry => key ≤ entry.1) =
      (key, value) :: map.entries.filter fun entry => key < entry.1 := by
  rcases map with ⟨entries, sorted⟩
  simp only [get?] at held
  induction entries with
  | nil => simp [lookup] at held
  | cons head rest ih =>
      rcases List.pairwise_cons.mp sorted with ⟨below, restSorted⟩
      rw [lookup] at held
      split_ifs at held with same
      · rcases Option.some.inj held with rfl
        have above : ∀ entry ∈ rest, key < entry.1 := by
          intro entry member
          rw [same]
          exact below entry member
        have kept : rest.filter (fun entry => key ≤ entry.1) = rest :=
          List.filter_eq_self.mpr fun entry member => decide_eq_true (above entry member).le
        have keptStrictly : rest.filter (fun entry => key < entry.1) = rest :=
          List.filter_eq_self.mpr fun entry member => decide_eq_true (above entry member)
        rw [List.filter_cons_of_pos (by simp [same]),
          List.filter_cons_of_neg (by simp [same]), kept,
          keptStrictly, same]
      · have isLater : (key, value) ∈ rest := mem_of_lookup held
        have headBelow : head.1 < key := below _ isLater
        rw [List.filter_cons_of_neg (by simpa using headBelow),
          List.filter_cons_of_neg (by simpa using headBelow.le)]
        exact ih restSorted held

/-- From its greatest key on, a map has that one entry. -/
theorem entries_filter_greatest {map : OrderedMap κ α} {key : κ} {value : α}
    (held : map.get? key = some value) (greatest : ∀ entry ∈ map.entries, entry.1 ≤ key) :
    map.entries.filter (fun entry => key ≤ entry.1) = [(key, value)] := by
  rw [filter_le_eq_cons held, List.filter_eq_nil_iff.mpr]
  intro entry member
  simpa using greatest entry member

section Overlay

/-- The value under a key with pending changes on top: a change may be a deletion. -/
def overlay (map : OrderedMap κ α) (changes : OrderedMap κ (Option α)) (key : κ) : Option α :=
  (changes.get? key).getD (map.get? key)

def setAll (map : OrderedMap κ α) (changes : OrderedMap κ (Option α)) : OrderedMap κ α :=
  changes.entries.foldl (fun map change => map.set change.1 change.2) map

theorem overlay_of_get? {map : OrderedMap κ α} {changes : OrderedMap κ (Option α)} {key : κ}
    {change : Option α} (held : changes.get? key = some change) :
    map.overlay changes key = change := by
  rw [overlay, held, Option.getD_some]

@[simp]
theorem overlay_empty (map : OrderedMap κ α) : map.overlay ∅ = map.get? := by
  funext key
  rfl

theorem overlay_insert [DecidableEq κ] (map : OrderedMap κ α)
    (changes : OrderedMap κ (Option α)) (key : κ) (change : Option α) :
    map.overlay (changes.insert key change) =
      Function.update (map.overlay changes) key change := by
  funext other
  by_cases same : other = key
  · subst same
    rw [Function.update_self, overlay, get?_insert_self, Option.getD_some]
  · rw [Function.update_of_ne same, overlay, get?_insert, if_neg same, overlay]

theorem get?_setEntries (map : OrderedMap κ α) {changes : List (κ × Option α)}
    (unique : (changes.map Prod.fst).Nodup) (key : κ) :
    (changes.foldl (fun map change => map.set change.1 change.2) map).get? key =
      (lookup key changes).getD (map.get? key) := by
  induction changes generalizing map with
  | nil => rfl
  | cons change rest ih =>
      rcases change with ⟨changed, value⟩
      have restUnique := (List.nodup_cons.mp unique).2
      have changedOnce := (List.nodup_cons.mp unique).1
      rw [List.foldl_cons, ih (map.set changed value) restUnique, get?_set, lookup]
      by_cases same : key = changed
      · subst same
        have absent : lookup key rest = none := by
          apply lookup_eq_none
          intro entry member entryKey
          exact changedOnce (List.mem_map.mpr ⟨entry, member, entryKey⟩)
        simp [absent]
      · simp [same]

/-- Writing the changes makes the overlaid view the stored one. -/
theorem get?_setAll (map : OrderedMap κ α) (changes : OrderedMap κ (Option α)) :
    (map.setAll changes).get? = map.overlay changes := by
  funext key
  exact get?_setEntries map changes.nodup_keys key

end Overlay

theorem get?_mapValues (f : α → β) (map : OrderedMap κ α) (key : κ) :
    (map.mapValues f).get? key = (map.get? key).map f := by
  rcases map with ⟨entries, sorted⟩
  simp only [get?, mapValues]
  induction entries with
  | nil => rfl
  | cons head rest ih =>
      by_cases same : key = head.1
      · simp [lookup, same]
      · simpa [lookup, same] using ih (List.pairwise_cons.mp sorted).2

section MapValues

variable (f : α → β) (map : OrderedMap κ α)

theorem mapValues_insert (key : κ) (value : α) :
    (map.insert key value).mapValues f = (map.mapValues f).insert key (f value) := by
  ext1 other
  rw [get?_mapValues, get?_insert, get?_insert, get?_mapValues]
  split_ifs
  · rfl
  · rfl

theorem mapValues_erase (key : κ) :
    (map.erase key).mapValues f = (map.mapValues f).erase key := by
  ext1 other
  rw [get?_mapValues, get?_erase, get?_erase, get?_mapValues]
  split_ifs
  · rfl
  · rfl

theorem mapValues_set (key : κ) (value : Option α) :
    (map.set key value).mapValues f = (map.mapValues f).set key (value.map f) := by
  cases value with
  | none => exact mapValues_erase f map key
  | some value => exact mapValues_insert f map key value

theorem mapValues_eraseAll (keys : List κ) :
    (map.eraseAll keys).mapValues f = (map.mapValues f).eraseAll keys := by
  induction keys generalizing map with
  | nil => rfl
  | cons key rest ih =>
      have step := ih (map.erase key)
      rw [mapValues_erase] at step
      exact step

end MapValues

/-- A key above all others is appended at the end of the table. -/
theorem entries_insert_above {map : OrderedMap κ α} {key : κ} {value : α}
    (above : ∀ entry ∈ map.entries, entry.1 < key) :
    (map.insert key value).entries = map.entries ++ [(key, value)] :=
  insertEntry_above above

/-- The greatest key is the last one. -/
theorem entries_of_greatest {map : OrderedMap κ α} {key : κ} {value : α}
    (held : map.get? key = some value) (greatest : ∀ entry ∈ map.entries, entry.1 ≤ key) :
    ∃ before, map.entries = before ++ [(key, value)] := by
  rcases List.append_of_mem (mem_entries_iff.mpr held) with ⟨before, after, split⟩
  cases after with
  | nil => exact ⟨before, split⟩
  | cons next later =>
      have sorted := map.sorted
      rw [split, List.pairwise_append] at sorted
      have above := (List.pairwise_cons.mp sorted.2.1).1 next List.mem_cons_self
      have below := greatest next (by rw [split]; simp)
      exact absurd below (not_le_of_gt above)

theorem entries_insert_last {map : OrderedMap κ α} {before : List (κ × α)} {key : κ} {old : α}
    (entriesEq : map.entries = before ++ [(key, old)]) (value : α) :
    (map.insert key value).entries = before ++ [(key, value)] := by
  have sorted := map.sorted
  rw [entriesEq] at sorted
  change insertEntry key value map.entries = _
  rw [entriesEq]
  clear entriesEq
  induction before with
  | nil => simp [insertEntry]
  | cons head rest ih =>
      rcases List.pairwise_cons.mp sorted with ⟨below, restSorted⟩
      have headBelow : head.1 < key := below (key, old) (by simp)
      rw [List.cons_append, insertEntry, if_neg headBelow.not_gt, if_neg headBelow.ne',
        ih restSorted]
      rfl

/-- The last entry has the greatest key. -/
theorem le_of_getLast? {map : OrderedMap κ α} {last : κ × α}
    (isLast : map.entries.getLast? = some last) : ∀ entry ∈ map.entries, entry.1 ≤ last.1 := by
  rcases List.getLast?_eq_some_iff.mp isLast with ⟨before, entriesEq⟩
  have sorted := map.sorted
  rw [entriesEq] at sorted ⊢
  intro entry member
  rcases List.mem_append.mp member with earlier | final
  · exact le_of_lt
      ((List.pairwise_append.mp sorted).2.2 entry earlier last (List.mem_singleton_self last))
  · rw [List.mem_singleton.mp final]

/-- A run of increasing keys above all others is appended as it is. -/
theorem entries_insertAll_above {map : OrderedMap κ α} {added : List (κ × α)}
    (above : ∀ entry ∈ map.entries, ∀ later ∈ added, entry.1 < later.1)
    (increasing : added.Pairwise fun earlier later => earlier.1 < later.1) :
    (map.insertAll added).entries = map.entries ++ added := by
  induction added using List.reverseRecOn with
  | nil => simp [insertAll]
  | append_singleton earlier entry ih =>
      rcases List.pairwise_append.mp increasing with ⟨earlierIncreasing, _, below⟩
      have earlierEq := ih
        (fun old oldMember later laterMember =>
          above old oldMember later (List.mem_append_left _ laterMember))
        earlierIncreasing
      rw [insertAll_concat, entries_insert_above, earlierEq, List.append_assoc]
      intro old oldMember
      rw [earlierEq] at oldMember
      rcases List.mem_append.mp oldMember with before | added
      · exact above old before entry (by simp)
      · exact below old added entry (by simp)

section Histories

/-- Append to the list under a key, opening it if need be. -/
def appendTo (map : OrderedMap κ (List α)) (key : κ) (value : α) : OrderedMap κ (List α) :=
  map.insert key ((map.get? key).getD [] ++ [value])

/-- Drop the last value of the list under a key, and the list itself when it was
opened for that value. -/
def dropFrom (map : OrderedMap κ (List α)) (key : κ) (opened : Bool) : OrderedMap κ (List α) :=
  let dropped :=
    match map.get? key with
    | some values => map.insert key values.dropLast
    | none => map
  if opened then dropped.erase key else dropped

theorem dropFrom_appendTo (map : OrderedMap κ (List α)) (key : κ) (value : α) :
    (map.appendTo key value).dropFrom key (map.get? key).isNone = map := by
  cases held : map.get? key with
  | none =>
      ext1 other
      by_cases same : other = key
      · simp [dropFrom, appendTo, get?_erase, same, held]
      · simp [dropFrom, appendTo, get?_erase, get?_insert, same]
  | some values =>
      ext1 other
      by_cases same : other = key
      · simp [dropFrom, appendTo, same, held]
      · simp [dropFrom, appendTo, get?_insert, same]

end Histories

section Sum

/-- The sum of a measure over the values. -/
def sumBy (measure : α → ℕ) (map : OrderedMap κ α) : ℕ :=
  (map.entries.map fun entry => measure entry.2).sum

theorem sum_insertEntry (measure : α → ℕ) (key : κ) (value : α) {entries : List (κ × α)}
    (sorted : entries.Pairwise fun earlier later => earlier.1 < later.1) :
    ((insertEntry key value entries).map fun entry => measure entry.2).sum +
        ((lookup key entries).map measure).getD 0 =
      (entries.map fun entry => measure entry.2).sum + measure value := by
  induction entries with
  | nil => simp [insertEntry, lookup]
  | cons head rest ih =>
      rcases List.pairwise_cons.mp sorted with ⟨headBelow, restSorted⟩
      have step := ih restSorted
      rcases lt_trichotomy key head.1 with below | same | above
      · have absent : lookup key (head :: rest) = none := by
          apply lookup_eq_none
          intro entry member
          rcases List.mem_cons.mp member with rfl | later
          · exact below.ne'
          · exact (below.trans (headBelow entry later)).ne'
        simp only [insertEntry, if_pos below, absent, List.map_cons, List.sum_cons,
          Option.map_none, Option.getD_none]
        omega
      · subst same
        simp only [insertEntry, lookup, lt_irrefl, if_false, if_true, List.map_cons,
          List.sum_cons, Option.map_some, Option.getD_some]
        omega
      · simp only [insertEntry, lookup, if_neg above.le.not_gt, if_neg above.ne', List.map_cons,
          List.sum_cons]
        omega

/-- Inserting adds the new value and takes away the one it replaces. -/
theorem sumBy_insert (measure : α → ℕ) (map : OrderedMap κ α) (key : κ) (value : α) :
    (map.insert key value).sumBy measure + ((map.get? key).map measure).getD 0 =
      map.sumBy measure + measure value :=
  sum_insertEntry measure key value map.sorted

theorem sumBy_insertAll_le (measure : α → ℕ) (map : OrderedMap κ α) (added : List (κ × α)) :
    (map.insertAll added).sumBy measure ≤
      map.sumBy measure + (added.map fun entry => measure entry.2).sum := by
  induction added using List.reverseRecOn with
  | nil => simp [insertAll]
  | append_singleton earlier entry ih =>
      rw [insertAll_concat]
      have step := sumBy_insert measure (map.insertAll earlier) entry.1 entry.2
      simp only [List.map_append, List.map_cons, List.map_nil, List.sum_append, List.sum_cons,
        List.sum_nil]
      omega

theorem nodup_entries (map : OrderedMap κ α) : map.entries.Nodup := (nodup_keys map).of_map _

/-- What is held under a key, and the rest. -/
theorem entries_erase_perm {map : OrderedMap κ α} {key : κ} {value : α}
    (held : map.get? key = some value) :
    map.entries.Perm ((key, value) :: (map.erase key).entries) := by
  have absent : (key, value) ∉ (map.erase key).entries := by
    rw [mem_entries_iff, get?_erase]
    simp
  rw [List.perm_ext_iff_of_nodup map.nodup_entries
    (List.nodup_cons.mpr ⟨absent, nodup_entries _⟩)]
  rintro ⟨other, found⟩
  rw [List.mem_cons, mem_entries_iff, mem_entries_iff, get?_erase]
  by_cases same : other = key
  · subst same
    simp [held, eq_comm]
  · simp [same]

theorem sumBy_erase {map : OrderedMap κ α} {key : κ} {value : α} (measure : α → ℕ)
    (held : map.get? key = some value) :
    map.sumBy measure = measure value + (map.erase key).sumBy measure := by
  have summed := ((entries_erase_perm held).map fun entry => measure entry.2).sum_nat
  simpa [sumBy] using summed

theorem keys_erase_perm {map : OrderedMap κ α} {key : κ} {value : α}
    (held : map.get? key = some value) : map.keys.Perm (key :: (map.erase key).keys) := by
  have perm := (entries_erase_perm held).map Prod.fst
  simpa [keys] using perm

/-- What is kept and what is not, by a test on the value. -/
theorem entries_filter_perm (keep : α → Bool) (map : OrderedMap κ α) :
    map.entries.Perm ((map.filter fun _ value => keep value).entries ++
      (map.filter fun _ value => !keep value).entries) :=
  (List.filter_append_perm (fun entry : κ × α => keep entry.2) map.entries).symm

theorem sumBy_filter_add (measure : α → ℕ) (keep : α → Bool) (map : OrderedMap κ α) :
    map.sumBy measure = (map.filter fun _ value => keep value).sumBy measure +
      (map.filter fun _ value => !keep value).sumBy measure := by
  have summed := ((entries_filter_perm keep map).map fun entry => measure entry.2).sum_nat
  simpa [sumBy] using summed

/-- Entries with keys of their own are held as they are. -/
theorem entries_ofList_perm {added : List (κ × α)} (nodup : (added.map Prod.fst).Nodup) :
    (ofList added).entries.Perm added := by
  rw [List.perm_ext_iff_of_nodup (nodup_entries _) (nodup.of_map _)]
  rintro ⟨key, value⟩
  rw [mem_entries_iff, get?_ofList_iff nodup]

end Sum

end OrderedMap

end Dolos
