import Dolos.Core.Wal
import Dolos.Lib.BigEndian
import Dolos.Lib.Text

/-!
# Points as bytes, as text and in order

The rest of `core/src/point.rs`: the 40 bytes of a point, its text, and how the hand-written
order and equality relate. A bare slot, the origin and a block with a zero hash share bytes,
and equality looks at the hash only where the right side has one, so the four notions of the
same point differ exactly where a point is not fully defined.
-/

namespace Dolos

namespace ChainPoint

open BigEndian Text

/-- `Ord`: by slot, then by hash, no hash before any hash. -/
def cmp (left right : ChainPoint) : Ordering :=
  if left.slot ≠ right.slot then compare left.slot right.slot
  else
    match left.hash, right.hash with
    | none, none => .eq
    | none, some _ => .lt
    | some _, none => .gt
    | some leftHash, some rightHash => compare leftHash rightHash

/-- The 40 bytes of `into_bytes`, which `intoBytes` has as a pair of numbers. -/
def byteForm (point : ChainPoint) : List UInt8 :=
  bytes 8 point.slot ++ bytes 32 (point.hash.getD 0).val

def originBytes : List UInt8 := List.replicate 40 0

/-- `from_bytes` on the bytes themselves. -/
def fromByteForm (string : List UInt8) : ChainPoint :=
  if string = originBytes then origin
  else specific (value (string.take 8)) (Fin.ofNat _ (value (string.drop 8)))

/-- How strings of bytes are compared. -/
def compareBytes (left right : List UInt8) : Ordering := compareOfLessAndEq left right

/-- `Display`. -/
def display : ChainPoint → List Char
  | origin => ['O', 'r', 'i', 'g', 'i', 'n']
  | slotOnly slot => Nat.toDigits 10 slot
  | specific slot hash =>
      Nat.toDigits 10 slot ++ '(' :: (Text.hexEncode (bytes 32 hash.val) ++ [')'])

/-- The decimal digits of the regular expressions, which are those of Unicode. -/
class DecimalDigits where
  isDecimal : Char → Bool
  ascii : ∀ char : Char, char.isDigit → isDecimal char
  paren : isDecimal '(' = false

/-- The captures of the expression for digits and, in parentheses, 64 hexadecimal digits. -/
def captures [DecimalDigits] (text : List Char) : Option (List Char × List Char) :=
  let slot := text.takeWhile DecimalDigits.isDecimal
  match text.dropWhile DecimalDigits.isDecimal with
  | '(' :: rest =>
      let hash := rest.take 64
      if slot ≠ [] ∧ hash.length = 64 ∧ hash.all isHexDigit ∧ rest.drop 64 = [')'] then
        some (slot, hash)
      else none
  | _ => none

def fromStr [DecimalDigits] (text : List Char) : Except String ChainPoint :=
  let trimmed := trim text
  if trimmed = ['O', 'r', 'i', 'g', 'i', 'n'] then .ok origin
  else
    match captures trimmed with
    | some (slotText, hashText) =>
        match parseUnsigned (2 ^ 64) slotText with
        | none => .error "invalid slot"
        | some slot =>
            match hexDecode hashText with
            | none => .error "invalid hash"
            | some hash => .ok (specific slot (Fin.ofNat _ (value hash)))
    | none =>
        match parseUnsigned (2 ^ 64) trimmed with
        | some slot => .ok (slotOnly slot)
        | none => .error "invalid format"

section Bytes

variable {left right point : ChainPoint}

theorem length_byteForm (point : ChainPoint) : point.byteForm.length = 40 := by
  simp [byteForm]

theorem value_byteForm (fits : point.slot < 2 ^ 64) :
    value point.byteForm = point.slot * 256 ^ 32 + (point.hash.getD 0).val := by
  have slotFits : point.slot < 256 ^ 8 := fits
  have hashFits : (point.hash.getD 0).val < 256 ^ 32 := (point.hash.getD 0).isLt
  rw [byteForm, value_append, value_bytes_of_lt slotFits, value_bytes_of_lt hashFits, length_bytes]

theorem byteForm_lt_iff (leftFits : left.slot < 2 ^ 64) (rightFits : right.slot < 2 ^ 64) :
    left.byteForm < right.byteForm ↔ left.intoBytes < right.intoBytes := by
  have leftHash : (left.hash.getD 0).val < 2 ^ 256 := (left.hash.getD 0).isLt
  have rightHash : (right.hash.getD 0).val < 2 ^ 256 := (right.hash.getD 0).isLt
  have power : 256 ^ 32 = 2 ^ 256 := rfl
  rw [lt_iff_value_lt ((length_byteForm left).trans (length_byteForm right).symm),
    value_byteForm leftFits, value_byteForm rightFits, intoBytes, intoBytes,
    Prod.Lex.toLex_lt_toLex, Fin.lt_def, power]
  change _ ↔ left.slot < right.slot ∨
    left.slot = right.slot ∧ (left.hash.getD 0).val < (right.hash.getD 0).val
  omega

theorem byteForm_inj (leftFits : left.slot < 2 ^ 64) (rightFits : right.slot < 2 ^ 64) :
    left.byteForm = right.byteForm ↔ left.intoBytes = right.intoBytes := by
  constructor
  · intro same
    have notLess : ¬ left.byteForm < right.byteForm := by
      rw [same]
      exact List.lt_irrefl _
    have notGreater : ¬ right.byteForm < left.byteForm := by
      rw [same]
      exact List.lt_irrefl _
    rw [byteForm_lt_iff leftFits rightFits] at notLess
    rw [byteForm_lt_iff rightFits leftFits] at notGreater
    exact le_antisymm (not_lt.mp notGreater) (not_lt.mp notLess)
  · intro same
    have slotEq : left.slot = right.slot := congrArg (fun pair => (ofLex pair).1) same
    have hashEq : left.hash.getD 0 = right.hash.getD 0 :=
      congrArg (fun pair => (ofLex pair).2) same
    rw [byteForm, byteForm, slotEq, hashEq]

/-- Reading the bytes is reading the pair. -/
theorem fromByteForm_byteForm (fits : point.slot < 2 ^ 64) :
    fromByteForm point.byteForm = fromBytes point.intoBytes := by
  have isOrigin : point.byteForm = originBytes ↔ point.intoBytes = toLex (0, 0) := by
    have zeros : originBytes = origin.byteForm := rfl
    rw [zeros, byteForm_inj fits (by decide)]
    rfl
  have slotFits : point.slot < 256 ^ 8 := fits
  have hashFits : (point.hash.getD 0).val < 256 ^ 32 := (point.hash.getD 0).isLt
  rw [fromByteForm, fromBytes]
  by_cases zero : point.byteForm = originBytes
  · rw [if_pos zero, if_pos (isOrigin.mp zero)]
  · rw [if_neg zero, if_neg (fun pair => zero (isOrigin.mpr pair)), byteForm,
      List.take_left' (length_bytes _ _), List.drop_left' (length_bytes _ _),
      value_bytes_of_lt slotFits, value_bytes_of_lt hashFits, Fin.ofNat_val_eq_self]
    rfl

theorem fromByteForm_of_isFullyDefined (fits : point.slot < 2 ^ 64)
    (defined : point.isFullyDefined) : fromByteForm point.byteForm = point := by
  rw [fromByteForm_byteForm fits]
  cases point with
  | origin => rfl
  | slotOnly slot => cases defined
  | specific slot hash =>
      have nonzero : hash ≠ 0 := of_decide_eq_true defined
      apply fromBytes_specific
      intro same
      exact nonzero (congrArg (fun pair => (ofLex pair).2) same)

/-- Two points of one slot whose bytes agree although one has a hash and the other has none. -/
def ZeroHashed (left right : ChainPoint) : Prop :=
  left.slot = right.slot ∧
    (left.hash = some 0 ∧ right.hash = none ∨ left.hash = none ∧ right.hash = some 0)

theorem compareBytes_byteForm (leftFits : left.slot < 2 ^ 64) (rightFits : right.slot < 2 ^ 64) :
    compareBytes left.byteForm right.byteForm =
      if left.slot ≠ right.slot then compare left.slot right.slot
      else compare (left.hash.getD 0) (right.hash.getD 0) := by
  have less : left.byteForm < right.byteForm ↔ left.slot < right.slot ∨
      left.slot = right.slot ∧ left.hash.getD 0 < right.hash.getD 0 := by
    rw [byteForm_lt_iff leftFits rightFits, intoBytes, intoBytes, Prod.Lex.toLex_lt_toLex]
  have equal : left.byteForm = right.byteForm ↔
      left.slot = right.slot ∧ left.hash.getD 0 = right.hash.getD 0 := by
    rw [byteForm_inj leftFits rightFits, intoBytes, intoBytes, toLex_inj, Prod.mk.injEq]
  simp only [compareBytes, compareOfLessAndEq, less, equal]
  by_cases sameSlot : left.slot = right.slot
  · simp only [sameSlot, lt_self_iff_false, false_or, true_and, ne_eq, not_true_eq_false, if_false,
      LinearOrder.compare_eq_compareOfLessAndEq, compareOfLessAndEq]
  · simp only [sameSlot, false_and, or_false, ne_eq, not_false_eq_true, if_true, if_false,
      LinearOrder.compare_eq_compareOfLessAndEq, compareOfLessAndEq]

/-- Byte order is the order of points, but for the hash that is zero. -/
theorem compareBytes_eq_cmp_iff (leftFits : left.slot < 2 ^ 64) (rightFits : right.slot < 2 ^ 64) :
    compareBytes left.byteForm right.byteForm = left.cmp right ↔ ¬ ZeroHashed left right := by
  rw [compareBytes_byteForm leftFits rightFits, cmp]
  by_cases sameSlot : left.slot = right.slot
  · rw [if_neg (not_not.mpr sameSlot), if_neg (not_not.mpr sameSlot)]
    cases leftHash : left.hash with
    | none =>
        cases rightHash : right.hash with
        | none => simp [ZeroHashed, leftHash, rightHash]
        | some hash =>
            have isLess : compare (0 : BlockHash) hash = .lt ↔ hash ≠ 0 := by
              rw [compare_lt_iff_lt, Fin.pos_iff_ne_zero]
            simp [ZeroHashed, sameSlot, leftHash, rightHash, isLess]
    | some hash =>
        cases rightHash : right.hash with
        | none =>
            have isGreater : compare hash (0 : BlockHash) = .gt ↔ hash ≠ 0 := by
              rw [compare_gt_iff_gt, Fin.pos_iff_ne_zero]
            simp [ZeroHashed, sameSlot, leftHash, rightHash, isGreater]
        | some other => simp [ZeroHashed, leftHash, rightHash]
  · simp [ZeroHashed, sameSlot]

end Bytes

section Equality

variable {left middle right : ChainPoint}

@[simp]
theorem eq_self (point : ChainPoint) : point.eq point = true := by
  cases point <;> simp [eq]

/-- A block and the bare slot it sits at. -/
def SlotOf (left right : ChainPoint) : Prop :=
  ∃ slot hash, left = specific slot hash ∧ right = slotOnly slot

theorem slotOf_specific {slot other : ℕ} {hash : BlockHash} :
    SlotOf (specific slot hash) (slotOnly other) ↔ slot = other := by
  constructor
  · rintro ⟨found, foundHash, isBlock, isSlot⟩
    cases isBlock
    cases isSlot
    rfl
  · rintro rfl
    exact ⟨slot, hash, rfl, rfl⟩

/-- Equality is equality of points, and of a block with its slot. -/
theorem eq_iff : left.eq right = true ↔ left = right ∨ SlotOf left right := by
  cases left with
  | specific slot hash =>
      cases right with
      | slotOnly other => simp [eq, slotOf_specific]
      | origin => simp [eq, SlotOf]
      | specific other otherHash => simp [eq, SlotOf]
  | origin => cases right <;> simp [eq, SlotOf]
  | slotOnly slot => cases right <;> simp [eq, SlotOf]

theorem eq_trans (first : left.eq middle = true) (second : middle.eq right = true) :
    left.eq right = true := by
  rw [eq_iff] at first second ⊢
  rcases first with rfl | ⟨slot, hash, rfl, rfl⟩
  · exact second
  · rcases second with rfl | ⟨other, otherHash, absurdity, -⟩
    · exact Or.inr ⟨slot, hash, rfl, rfl⟩
    · cases absurdity

/-- Equality is symmetric but between a block and its slot. -/
theorem eq_comm_iff :
    left.eq right = right.eq left ↔ ¬ SlotOf left right ∧ ¬ SlotOf right left := by
  have notBoth : SlotOf left right → ¬ SlotOf right left := by
    rintro ⟨slot, hash, rfl, rfl⟩ ⟨other, otherHash, absurdity, -⟩
    cases absurdity
  have apart : ∀ {first second : ChainPoint}, SlotOf first second → second ≠ first := by
    rintro first second ⟨slot, hash, rfl, rfl⟩ absurdity
    cases absurdity
  rw [Bool.eq_iff_iff, eq_iff, eq_iff]
  constructor
  · intro same
    constructor
    · intro isSlot
      rcases same.mp (Or.inr isSlot) with equal | reversed
      · exact apart isSlot equal
      · exact notBoth isSlot reversed
    · intro isSlot
      rcases same.mpr (Or.inr isSlot) with equal | reversed
      · exact apart isSlot equal
      · exact notBoth reversed isSlot
  · rintro ⟨notSlot, notReversed⟩
    simp only [notSlot, notReversed, or_false]
    exact ⟨Eq.symm, Eq.symm⟩

/-- The origin and the bare slot zero, in either order. -/
def AtZero (left right : ChainPoint) : Prop :=
  left = origin ∧ right = slotOnly 0 ∨ left = slotOnly 0 ∧ right = origin

/-- The order takes points of one slot and one hash for equal, or none of either. -/
theorem cmp_eq_eq_iff : left.cmp right = .eq ↔ left.slot = right.slot ∧ left.hash = right.hash := by
  rw [cmp]
  by_cases sameSlot : left.slot = right.slot
  · rw [if_neg (not_not.mpr sameSlot)]
    cases left.hash <;> cases right.hash <;> simp [sameSlot]
  · rw [if_pos sameSlot, compare_eq_iff_eq]
    simp [sameSlot]

/-- Order and equality agree but on a block and its slot, and on the origin and slot zero. -/
theorem cmp_eq_iff : (left.cmp right = .eq ↔ left.eq right = true) ↔
    ¬ SlotOf left right ∧ ¬ AtZero left right := by
  rw [cmp_eq_eq_iff, eq_iff]
  cases left with
  | origin => cases right <;> simp [SlotOf, AtZero, hash, Eq.comm]
  | slotOnly slot => cases right <;> simp [SlotOf, AtZero, hash]
  | specific slot blockHash =>
      cases right with
      | slotOnly other => simp [slotOf_specific, AtZero, hash]
      | origin => simp [SlotOf, AtZero, hash]
      | specific other otherHash => simp [SlotOf, AtZero, hash]

end Equality

section Display

theorem isWhiteSpace_of_mem_toDigits {slot : ℕ} {char : Char}
    (member : char ∈ Nat.toDigits 10 slot) : isWhiteSpace char = false := by
  have bounds := isDigit_iff.mp (Nat.isDigit_of_mem_toDigits (by decide) (by decide) member)
  exact isWhiteSpace_of_ascii (by omega) (by omega)

/-- The text of a slot begins with a digit. -/
theorem toDigits_append_ne_origin (slot : ℕ) (rest : List Char) :
    Nat.toDigits 10 slot ++ rest ≠ ['O', 'r', 'i', 'g', 'i', 'n'] := by
  intro same
  cases digits : Nat.toDigits 10 slot with
  | nil => exact Nat.toDigits_ne_nil digits
  | cons first later =>
      have isDigit : first.isDigit = true :=
        Nat.isDigit_of_mem_toDigits (by decide) (by decide)
          (show first ∈ Nat.toDigits 10 slot by rw [digits]; exact List.mem_cons_self)
      rw [digits, List.cons_append] at same
      rw [(List.cons.inj same).1] at isDigit
      cases isDigit

variable [DecimalDigits]

theorem isDecimal_of_mem_toDigits {slot : ℕ} {char : Char} (member : char ∈ Nat.toDigits 10 slot) :
    DecimalDigits.isDecimal char = true :=
  DecimalDigits.ascii char (Nat.isDigit_of_mem_toDigits (by decide) (by decide) member)

theorem captures_toDigits (slot : ℕ) : captures (Nat.toDigits 10 slot) = none := by
  have all : (Nat.toDigits 10 slot).dropWhile DecimalDigits.isDecimal = [] :=
    List.dropWhile_eq_nil_iff.mpr fun char member => isDecimal_of_mem_toDigits member
  rw [captures, all]

theorem captures_display (slot : ℕ) (hash : BlockHash) :
    captures ((specific slot hash).display) =
      some (Nat.toDigits 10 slot, Text.hexEncode (bytes 32 hash.val)) := by
  have digits : ∀ char ∈ Nat.toDigits 10 slot, DecimalDigits.isDecimal char = true :=
    fun char member => isDecimal_of_mem_toDigits member
  have length : (Text.hexEncode (bytes 32 hash.val)).length = 64 := by
    rw [length_hexEncode, length_bytes]
  have taken : (specific slot hash).display.takeWhile DecimalDigits.isDecimal =
      Nat.toDigits 10 slot := by
    rw [display, List.takeWhile_append_of_pos digits, List.takeWhile_cons, DecimalDigits.paren]
    exact List.append_nil _
  have dropped : (specific slot hash).display.dropWhile DecimalDigits.isDecimal =
      '(' :: (Text.hexEncode (bytes 32 hash.val) ++ [')']) := by
    rw [display, List.dropWhile_append_of_pos digits, List.dropWhile_cons, DecimalDigits.paren]
    rfl
  rw [captures, taken, dropped]
  simp only [List.take_left' length, List.drop_left' length]
  rw [if_pos]
  exact ⟨Nat.toDigits_ne_nil, length,
    List.all_eq_true.mpr fun char member => isHexDigit_of_mem_hexEncode member, trivial⟩

/-- A point is read back from its text. -/
theorem fromStr_display {point : ChainPoint} (fits : point.slot < 2 ^ 64) :
    fromStr point.display = .ok point := by
  cases point with
  | origin => rfl
  | slotOnly slot =>
      have trimmed : trim (slotOnly slot).display = Nat.toDigits 10 slot :=
        trim_eq_self fun char member => isWhiteSpace_of_mem_toDigits member
      have notOrigin := toDigits_append_ne_origin slot []
      rw [List.append_nil] at notOrigin
      have slotParsed : parseUnsigned (2 ^ 64) (Nat.toDigits 10 slot) = some slot :=
        parseUnsigned_toDigits fits
      rw [fromStr]
      simp only [trimmed, if_neg notOrigin, captures_toDigits, slotParsed]
  | specific slot hash =>
      have noBlank : ∀ char ∈ (specific slot hash).display, isWhiteSpace char = false := by
        intro char member
        simp only [display, List.mem_append, List.mem_cons, List.not_mem_nil, or_false] at member
        rcases member with isDigit | rfl | isHex | rfl
        · exact isWhiteSpace_of_mem_toDigits isDigit
        · rfl
        · exact isWhiteSpace_of_isHexDigit (isHexDigit_of_mem_hexEncode isHex)
        · rfl
      have notOrigin : (specific slot hash).display ≠ ['O', 'r', 'i', 'g', 'i', 'n'] :=
        toDigits_append_ne_origin slot _
      have hashFits : hash.val < 256 ^ 32 := hash.isLt
      have slotParsed : parseUnsigned (2 ^ 64) (Nat.toDigits 10 slot) = some slot :=
        parseUnsigned_toDigits fits
      rw [fromStr]
      simp only [trim_eq_self noBlank, if_neg notOrigin, captures_display, slotParsed,
        hexDecode_hexEncode, value_bytes_of_lt hashFits, Fin.ofNat_val_eq_self]

end Display

/-- Where bytes, order, text and equality of points agree. -/
theorem chainPoint_consistent [DecimalDigits] :
    (∀ point : ChainPoint, point.slot < 2 ^ 64 → point.isFullyDefined →
      fromByteForm point.byteForm = point) ∧
    (∀ left right : ChainPoint, left.slot < 2 ^ 64 → right.slot < 2 ^ 64 →
      (compareBytes left.byteForm right.byteForm = left.cmp right ↔ ¬ ZeroHashed left right)) ∧
    (∀ point : ChainPoint, point.slot < 2 ^ 64 → fromStr point.display = .ok point) ∧
    (∀ point : ChainPoint, point.eq point = true) ∧
    (∀ left middle right : ChainPoint, left.eq middle = true → middle.eq right = true →
      left.eq right = true) ∧
    (∀ left right : ChainPoint,
      left.eq right = right.eq left ↔ ¬ SlotOf left right ∧ ¬ SlotOf right left) ∧
    ∀ left right : ChainPoint, (left.cmp right = .eq ↔ left.eq right = true) ↔
      ¬ SlotOf left right ∧ ¬ AtZero left right := by
  refine ⟨?_, ?_, ?_, eq_self, ?_, ?_, ?_⟩
  · exact fun _ fits defined => fromByteForm_of_isFullyDefined fits defined
  · exact fun _ _ leftFits rightFits => compareBytes_eq_cmp_iff leftFits rightFits
  · exact fun _ fits => fromStr_display fits
  · exact fun _ _ _ first second => eq_trans first second
  · exact fun _ _ => eq_comm_iff
  · exact fun _ _ => cmp_eq_iff

/-- Digits outside ASCII left out. -/
@[reducible]
def DecimalDigits.asciiOnly : DecimalDigits where
  isDecimal := Char.isDigit
  ascii _ isDigit := isDigit
  paren := rfl

theorem chainPoint_consistent_sample :
    @fromStr .asciiOnly (specific 12345 257).display = .ok (specific 12345 257) ∧
      fromByteForm (specific 12345 257).byteForm = specific 12345 257 :=
  let law := @chainPoint_consistent .asciiOnly
  ⟨law.2.2.1 _ (by decide), law.1 _ (by decide) (by decide)⟩

/-- A block, its slot and the hash of the block left out: equal one way only, unequal in the
order, and with a zero hash the same bytes. -/
theorem chainPoint_disagrees :
    (specific 5 0).eq (slotOnly 5) = true ∧ (slotOnly 5).eq (specific 5 0) = false ∧
      (specific 5 0).cmp (slotOnly 5) = .gt ∧
      compareBytes (specific 5 0).byteForm (slotOnly 5).byteForm = .eq ∧
      origin.cmp (slotOnly 0) = .eq ∧ origin.eq (slotOnly 0) = false := by
  refine ⟨rfl, rfl, rfl, ?_, rfl, rfl⟩
  decide +kernel

end ChainPoint

end Dolos
