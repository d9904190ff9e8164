import Mathlib.Data.List.Basic
import Mathlib.Algebra.Order.Ring.Nat
import Mathlib.Tactic.Common

/-!
# Numbers as big-endian bytes

The number that a byte string stands for, most significant byte first, and the byte string of
a given length that stands for a number. Between strings of one length the order of bytes is
the order of the numbers, which is why such strings serve as keys.
-/

namespace Dolos.BigEndian

def value : List UInt8 → ℕ
  | [] => 0
  | byte :: rest => byte.toNat * 256 ^ rest.length + value rest

/-- The lowest bytes of a number. -/
def bytes : ℕ → ℕ → List UInt8
  | 0, _ => []
  | width + 1, number => UInt8.ofNat (number / 256 ^ width) :: bytes width number

@[simp]
theorem value_nil : value [] = 0 := rfl

@[simp]
theorem value_cons (byte : UInt8) (rest : List UInt8) :
    value (byte :: rest) = byte.toNat * 256 ^ rest.length + value rest := rfl

@[simp]
theorem length_bytes (width number : ℕ) : (bytes width number).length = width := by
  induction width with
  | zero => rfl
  | succ width ih => rw [bytes, List.length_cons, ih]

theorem value_lt (string : List UInt8) : value string < 256 ^ string.length := by
  induction string with
  | nil => simp
  | cons byte rest ih =>
      have byteLt := byte.toNat_lt
      have upToRest : byte.toNat * 256 ^ rest.length + 256 ^ rest.length ≤
          256 * 256 ^ rest.length := by
        rw [← Nat.succ_mul]
        exact Nat.mul_le_mul_right _ byteLt
      rw [value_cons, List.length_cons, Nat.pow_succ']
      omega

theorem value_append (first second : List UInt8) :
    value (first ++ second) = value first * 256 ^ second.length + value second := by
  induction first with
  | nil => simp
  | cons byte rest ih =>
      rw [List.cons_append, value_cons, value_cons, ih, List.length_append, Nat.pow_add,
        Nat.add_mul, Nat.mul_assoc, Nat.add_assoc]

theorem value_replicate_zero (length : ℕ) : value (List.replicate length 0) = 0 := by
  induction length with
  | zero => rfl
  | succ length ih => rw [List.replicate_succ, value_cons, ih]; simp

theorem value_bytes (width number : ℕ) : value (bytes width number) = number % 256 ^ width := by
  induction width with
  | zero => simp [bytes, Nat.mod_one]
  | succ width ih =>
      have split : number % 256 ^ (width + 1) =
          number % 256 ^ width + 256 ^ width * (number / 256 ^ width % 256) := by
        rw [Nat.pow_succ, Nat.mod_mul]
      rw [bytes, value_cons, ih, length_bytes, UInt8.toNat_ofNat', split, Nat.mul_comm,
        Nat.add_comm]

theorem value_bytes_of_lt {width number : ℕ} (fits : number < 256 ^ width) :
    value (bytes width number) = number := by
  rw [value_bytes, Nat.mod_eq_of_lt fits]

/-- Byte order is numeric order. -/
theorem lt_iff_value_lt {left right : List UInt8} (same : left.length = right.length) :
    left < right ↔ value left < value right := by
  induction left generalizing right with
  | nil =>
      rw [List.eq_nil_of_length_eq_zero same.symm]
      simp
  | cons byte rest ih =>
      cases right with
      | nil => cases same
      | cons other later =>
          have sameRest : rest.length = later.length := Nat.succ.inj same
          have restLt := value_lt rest
          have laterLt := value_lt later
          rw [List.cons_lt_cons_iff, ih sameRest, value_cons, value_cons, sameRest]
          rw [sameRest] at restLt
          constructor
          · rintro (below | ⟨rfl, restBelow⟩)
            · have atMost : (byte.toNat + 1) * 256 ^ later.length ≤
                  other.toNat * 256 ^ later.length :=
                Nat.mul_le_mul_right _ (UInt8.lt_iff_toNat_lt.mp below)
              rw [Nat.succ_mul] at atMost
              omega
            · omega
          · intro valueLt
            rcases Nat.lt_trichotomy byte.toNat other.toNat with below | equal | above
            · exact Or.inl (UInt8.lt_iff_toNat_lt.mpr below)
            · refine Or.inr ⟨UInt8.toNat_inj.mp equal, ?_⟩
              rw [equal] at valueLt
              omega
            · have atLeast : (other.toNat + 1) * 256 ^ later.length ≤
                  byte.toNat * 256 ^ later.length :=
                Nat.mul_le_mul_right _ above
              rw [Nat.succ_mul] at atLeast
              omega

theorem le_iff_value_le {left right : List UInt8} (same : left.length = right.length) :
    left ≤ right ↔ value left ≤ value right := by
  rw [← not_lt (a := value right), ← lt_iff_value_lt same.symm]
  rfl

end Dolos.BigEndian
