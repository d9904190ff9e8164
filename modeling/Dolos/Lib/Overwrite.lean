import Mathlib.Data.List.Basic
import Mathlib.Data.List.Infix
import Mathlib.Data.List.Nodup
import Mathlib.Data.List.Perm.Subperm
import Mathlib.Data.List.TakeWhile

/-!
# Stores that are written key by key

A write takes the place of what is held under its key and leaves the rest. What a run of
writes leaves behind, and when a store holds exactly what it was meant to hold however
much of it was written before.
-/

namespace Dolos

/-- What a store holds, and how a write changes it. -/
structure Overwriting (N W : Type*) where
  Holds : N → W → Prop
  write : N → W → N
  SameKey : W → W → Prop
  holds_write : ∀ node written other,
    Holds (write node written) other ↔ other = written ∨ ¬ SameKey written other ∧ Holds node other
  unique : ∀ node first second, Holds node first → Holds node second → SameKey first second →
    first = second

namespace Overwriting

variable {N W : Type*} (store : Overwriting N W) {node : N} {writes whole : List W} {held : W}

def writeAll (node : N) (writes : List W) : N := writes.foldl store.write node

theorem holds_writeAll_cases (holds : store.Holds (store.writeAll node writes) held) :
    held ∈ writes ∨ store.Holds node held := by
  induction writes generalizing node with
  | nil => exact Or.inr holds
  | cons first rest ih =>
      rcases ih holds with later | before
      · exact Or.inl (List.mem_cons_of_mem first later)
      · rcases (store.holds_write node first held).mp before with rfl | ⟨-, earlier⟩
        · exact Or.inl List.mem_cons_self
        · exact Or.inr earlier

/-- What no write replaces by another value is still held. -/
theorem holds_writeAll_of_holds (holds : store.Holds node held)
    (agrees : ∀ written ∈ writes, store.SameKey written held → written = held) :
    store.Holds (store.writeAll node writes) held := by
  induction writes generalizing node with
  | nil => exact holds
  | cons first rest ih =>
      apply ih
      · rw [store.holds_write]
        by_cases same : store.SameKey first held
        · exact Or.inl (agrees first List.mem_cons_self same).symm
        · exact Or.inr ⟨same, holds⟩
      · intro written member
        exact agrees written (List.mem_cons_of_mem first member)

theorem holds_writeAll_of_mem (member : held ∈ writes)
    (agrees : ∀ written ∈ writes, store.SameKey written held → written = held) :
    store.Holds (store.writeAll node writes) held := by
  induction writes generalizing node with
  | nil => cases member
  | cons first rest ih =>
      have agreesRest : ∀ written ∈ rest, store.SameKey written held → written = held :=
        fun written isLater => agrees written (List.mem_cons_of_mem first isLater)
      rcases List.mem_cons.mp member with rfl | isLater
      · apply store.holds_writeAll_of_holds _ agreesRest
        rw [store.holds_write]
        exact Or.inl rfl
      · exact ih isLater agreesRest

/-- A store that holds all of it, and nothing under other keys, holds exactly that. -/
theorem holds_iff_mem
    (covered : ∀ held, store.Holds node held → ∃ known ∈ whole, store.SameKey held known)
    (complete : ∀ known ∈ whole, store.Holds node known) :
    store.Holds node held ↔ held ∈ whole := by
  constructor
  · intro holds
    rcases covered held holds with ⟨known, member, same⟩
    rw [store.unique node held known holds (complete known member) same]
    exact member
  · exact complete held

end Overwriting

section Beginnings

variable {α : Type*} [DecidableEq α] (rank : α → ℕ)

/-- An element is stored once, after those of its rank. -/
def storeOnce (held : List α) (item : α) : List α :=
  if item ∈ held then held
  else held.takeWhile (rank · ≤ rank item) ++ item :: held.dropWhile (rank · ≤ rank item)

theorem mem_storeOnce {held : List α} {item other : α} :
    other ∈ storeOnce rank held item ↔ other = item ∨ other ∈ held := by
  rw [storeOnce]
  split_ifs with isHeld
  · constructor
    · exact Or.inr
    · rintro (rfl | member)
      · exact isHeld
      · exact member
  · conv_rhs => rw [← List.takeWhile_append_dropWhile (p := (rank · ≤ rank item)) (l := held)]
    simp only [List.mem_append, List.mem_cons]
    tauto

variable {rank}

theorem storeOnce_of_le {held : List α} {item : α} (fresh : item ∉ held)
    (above : ∀ other ∈ held, rank other ≤ rank item) :
    storeOnce rank held item = held ++ [item] := by
  have all : ∀ other ∈ held, decide (rank other ≤ rank item) = true :=
    fun other member => decide_eq_true (above other member)
  rw [storeOnce, if_neg fresh, List.takeWhile_eq_self_iff.mpr all,
    List.dropWhile_eq_nil_iff.mpr all]

/-- The element that comes next in a list, stored into a beginning of it. -/
theorem storeOnce_isPrefix {whole held before : List α} {item : α} (nodup : whole.Nodup)
    (sorted : whole.Pairwise fun first second => rank first ≤ rank second)
    (begins : held <+: whole) (isHeld : before ⊆ held) (next : before ++ [item] <+: whole) :
    storeOnce rank held item <+: whole := by
  have nodupNext := nodup.sublist next.sublist
  have nodupBefore := (List.nodup_append.mp nodupNext).1
  have above := (List.pairwise_append.mp (sorted.sublist next.sublist)).2.2
  by_cases present : item ∈ held
  · rw [storeOnce, if_pos present]
    exact begins
  · rcases List.prefix_or_prefix_of_prefix begins next with shorter | longer
    · rcases List.prefix_concat_iff.mp shorter with isWhole | isBefore
      · rw [isWhole] at present
        exact absurd (List.mem_append_right _ (List.mem_singleton_self item)) present
      · have length : before.length ≤ held.length :=
          (List.subperm_of_subset nodupBefore isHeld).length_le
        rw [isBefore.eq_of_length_le length] at present ⊢
        rw [storeOnce_of_le present fun other member => above other member item
          (List.mem_singleton_self item)]
        exact next
    · exact absurd (longer.subset (List.mem_append_right _ (List.mem_singleton_self item))) present

theorem mem_foldl_storeOnce {held items : List α} {other : α} :
    other ∈ items.foldl (storeOnce rank) held ↔ other ∈ items ∨ other ∈ held := by
  induction items generalizing held with
  | nil => simp
  | cons item rest ih =>
      rw [List.foldl_cons, ih, mem_storeOnce, List.mem_cons]
      tauto

/-- The elements that come next, one after the other. -/
theorem foldl_storeOnce_isPrefix {whole held before items : List α} (nodup : whole.Nodup)
    (sorted : whole.Pairwise fun first second => rank first ≤ rank second)
    (begins : held <+: whole) (isHeld : before ⊆ held) (next : before ++ items <+: whole) :
    items.foldl (storeOnce rank) held <+: whole := by
  induction items generalizing held before with
  | nil => exact begins
  | cons item rest ih =>
      have split : before ++ item :: rest = (before ++ [item]) ++ rest := by
        rw [List.append_assoc]
        rfl
      rw [split] at next
      have nextItem : before ++ [item] <+: whole := (List.prefix_append _ rest).trans next
      refine ih (storeOnce_isPrefix nodup sorted begins isHeld nextItem) ?_ next
      intro other member
      rw [mem_storeOnce]
      rcases List.mem_append.mp member with earlier | isItem
      · exact Or.inr (isHeld earlier)
      · exact Or.inl (List.mem_singleton.mp isItem)

omit [DecidableEq α] in
/-- A beginning that has every element is the whole. -/
theorem eq_of_isPrefix_of_subset {whole held : List α} (nodup : whole.Nodup)
    (begins : held <+: whole) (complete : whole ⊆ held) : held = whole :=
  begins.eq_of_length_le (List.subperm_of_subset nodup complete).length_le

end Beginnings

end Dolos
