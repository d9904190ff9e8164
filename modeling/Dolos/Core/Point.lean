import Mathlib.Data.Prod.Lex
import Mathlib.Order.Fin.Basic
import Mathlib.Algebra.Order.Ring.Nat

/-!
# Chain points

Positions on the chain, as `core/src/point.rs` has them. A point is the origin,
a bare slot (the cursor an epoch-boundary unit leaves behind) or a slot with the
hash of the block that sits there.

Equality of points in the source is deliberately not symmetric: a specific point
equals a bare slot, the bare slot does not equal the specific point. It is kept
under its own name, `ChainPoint.eq`, beside Lean's structural equality.
-/

namespace Dolos

/-- A 32-byte block hash, ordered as its bytes are. -/
abbrev BlockHash := Fin (2 ^ 256)

/-- What the numerals of the fixed widths rest on, under names of their own. -/
instance neZero_width256 : NeZero (2 ^ 256) := ⟨(Nat.two_pow_pos 256).ne'⟩

instance neZero_width224 : NeZero (2 ^ 224) := ⟨(Nat.two_pow_pos 224).ne'⟩

instance neZero_width32 : NeZero (2 ^ 32) := ⟨(Nat.two_pow_pos 32).ne'⟩

instance neZero_two : NeZero (1 + 1) := ⟨Nat.succ_ne_zero 1⟩

instance lawfulBEq_blockHash : LawfulBEq BlockHash := inferInstance

/-- How a modelled Rust function fails to return: each constructor is one of the
ways the source panics. -/
inductive Panic where
  | unwrapNone
  | unreachable
  | divisionByZero
  | overflow
  | assertFailed (message : String)
  | expectFailed (message : String)
  | explicit (message : String)
  deriving DecidableEq, Repr

inductive ChainPoint where
  | origin
  | slotOnly (slot : ℕ)
  | specific (slot : ℕ) (hash : BlockHash)
  deriving DecidableEq, Repr

namespace ChainPoint

/-- The slot of a point; the origin counts as slot zero. -/
def slot : ChainPoint → ℕ
  | origin => 0
  | slotOnly s => s
  | specific s _ => s

def hash : ChainPoint → Option BlockHash
  | origin => none
  | slotOnly _ => none
  | specific _ h => some h

/-- Whether the point can serve as an intersection point. -/
def isFullyDefined : ChainPoint → Bool
  | origin => true
  | specific _ hash => hash ≠ 0
  | slotOnly _ => false

/-- The source's `PartialEq`. A point more specific than the other is compared
by slot only; the inverse is not. -/
def eq : ChainPoint → ChainPoint → Bool
  | specific l0 l1, specific r0 r1 => l0 = r0 ∧ l1 = r1
  | slotOnly l0, slotOnly r0 => l0 = r0
  | origin, origin => true
  | specific l0 _, slotOnly r0 => l0 = r0
  | _, _ => false

/-- `into_bytes`: the big-endian slot followed by the hash, zero when there is
none. Byte order on the result is the lexicographic order on the pair. -/
def intoBytes (point : ChainPoint) : ℕ ×ₗ BlockHash :=
  toLex (point.slot, point.hash.getD 0)

@[simp]
theorem slot_origin : origin.slot = 0 := rfl

@[simp]
theorem slot_slotOnly (s : ℕ) : (slotOnly s).slot = s := rfl

@[simp]
theorem slot_specific (s : ℕ) (h : BlockHash) : (specific s h).slot = s := rfl

@[simp]
theorem intoBytes_specific (s : ℕ) (h : BlockHash) :
    (specific s h).intoBytes = toLex (s, h) := rfl

@[simp]
theorem eq_specific (s r : ℕ) (h k : BlockHash) :
    (specific s h).eq (specific r k) = decide (s = r ∧ h = k) := rfl

theorem eq_of_eq_specific {point : ChainPoint} {s : ℕ} {h : BlockHash}
    (same : point.eq (specific s h)) : point = specific s h := by
  cases point with
  | origin => cases same
  | slotOnly slot => cases same
  | specific slot hash =>
      rcases of_decide_eq_true same with ⟨rfl, rfl⟩
      rfl

end ChainPoint

/-- The core crate's view of a block: where it sits on the chain. -/
class Block (B : Type*) where
  slot : B → ℕ
  hash : B → BlockHash

/-- `Block::point`. -/
def Block.point {B : Type*} [Block B] (block : B) : ChainPoint :=
  .specific (Block.slot block) (Block.hash block)

@[simp]
theorem Block.slot_point {B : Type*} [Block B] (block : B) :
    (Block.point block).slot = Block.slot block := rfl

/-- The least a block can be: its position. -/
structure BlockHeader where
  slot : ℕ
  hash : BlockHash
  deriving DecidableEq, Repr

instance : Block BlockHeader := ⟨BlockHeader.slot, BlockHeader.hash⟩

end Dolos
