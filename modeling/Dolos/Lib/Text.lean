import Mathlib.Data.List.TakeWhile
import Mathlib.Tactic.Common

/-!
# Numbers and bytes as text

Decimal numbers as unsigned integers are read, byte strings in hexadecimal, and the blanks
trimmed around a text. What is written is read back.
-/

namespace Dolos.Text

/-- The characters with the Unicode property of white space. -/
def isWhiteSpace (char : Char) : Bool :=
  (9 ≤ char.toNat ∧ char.toNat ≤ 13) ∨ (0x2000 ≤ char.toNat ∧ char.toNat ≤ 0x200a) ∨
    char.toNat ∈ [0x20, 0x85, 0xa0, 0x1680, 0x2028, 0x2029, 0x202f, 0x205f, 0x3000]

def trim (text : List Char) : List Char :=
  ((text.dropWhile isWhiteSpace).reverse.dropWhile isWhiteSpace).reverse

theorem dropWhile_eq_self_of_all {α : Type*} {p : α → Bool} {items : List α}
    (none : ∀ item ∈ items, p item = false) : items.dropWhile p = items := by
  cases items with
  | nil => rfl
  | cons item rest => rw [List.dropWhile_cons, none item List.mem_cons_self]; rfl

theorem trim_eq_self {text : List Char} (noBlank : ∀ char ∈ text, isWhiteSpace char = false) :
    trim text = text := by
  rw [trim, dropWhile_eq_self_of_all noBlank, dropWhile_eq_self_of_all, List.reverse_reverse]
  intro char member
  exact noBlank char (List.mem_reverse.mp member)

/-- An unsigned integer below a limit: digits after at most one plus sign. -/
def parseUnsigned (limit : ℕ) (text : List Char) : Option ℕ :=
  let digits := match text with
    | '+' :: rest => rest
    | _ => text
  if digits ≠ [] ∧ digits.all Char.isDigit ∧ Nat.ofDigitChars 10 digits 0 < limit then
    some (Nat.ofDigitChars 10 digits 0)
  else none

theorem isDigit_iff {char : Char} : char.isDigit ↔ 48 ≤ char.toNat ∧ char.toNat ≤ 57 := by
  simp only [Char.isDigit, Bool.and_eq_true, decide_eq_true_eq, ge_iff_le,
    UInt32.le_iff_toNat_le]
  exact Iff.rfl

theorem isWhiteSpace_of_ascii {char : Char} (above : 0x20 < char.toNat)
    (below : char.toNat < 0x80) :
    isWhiteSpace char = false := by
  simp only [isWhiteSpace, List.mem_cons, List.not_mem_nil, or_false, decide_eq_false_iff_not]
  omega

theorem parseUnsigned_toDigits {limit number : ℕ} (fits : number < limit) :
    parseUnsigned limit (Nat.toDigits 10 number) = some number := by
  have digits : ∀ char ∈ Nat.toDigits 10 number, char.isDigit :=
    fun char member => Nat.isDigit_of_mem_toDigits (by decide) (by decide) member
  have isValue : Nat.ofDigitChars 10 (Nat.toDigits 10 number) 0 = number :=
    Nat.ofDigitChars_toDigits (by decide) (by decide)
  have unsigned : (match Nat.toDigits 10 number with
      | '+' :: rest => rest
      | _ => Nat.toDigits 10 number) = Nat.toDigits 10 number := by
    split
    · rename_i rest isPlus
      have absurdity := digits '+' (by rw [isPlus]; exact List.mem_cons_self)
      cases absurdity
    · rfl
  simp only [parseUnsigned, unsigned, isValue]
  rw [if_pos]
  exact ⟨Nat.toDigits_ne_nil, List.all_eq_true.mpr digits, fits⟩

def hexValue (char : Char) : Option ℕ :=
  if 48 ≤ char.toNat ∧ char.toNat ≤ 57 then some (char.toNat - 48)
  else if 97 ≤ char.toNat ∧ char.toNat ≤ 102 then some (char.toNat - 87)
  else if 65 ≤ char.toNat ∧ char.toNat ≤ 70 then some (char.toNat - 55)
  else none

def isHexDigit (char : Char) : Bool := (hexValue char).isSome

/-- Two lowercase digits for a byte. -/
def hexEncode (string : List UInt8) : List Char :=
  string.flatMap fun byte => [(byte.toNat / 16).digitChar, (byte.toNat % 16).digitChar]

def hexDecode : List Char → Option (List UInt8)
  | [] => some []
  | [_] => none
  | high :: low :: rest => do
      let first ← hexValue high
      let second ← hexValue low
      let decoded ← hexDecode rest
      some (UInt8.ofNat (16 * first + second) :: decoded)

theorem hexValue_digitChar {digit : ℕ} (small : digit < 16) :
    hexValue digit.digitChar = some digit := by
  revert digit
  decide

theorem hexDecode_hexEncode (string : List UInt8) : hexDecode (hexEncode string) = some string := by
  induction string with
  | nil => rfl
  | cons byte rest ih =>
      have byteLt := byte.toNat_lt
      have whole : 16 * (byte.toNat / 16) + byte.toNat % 16 = byte.toNat := Nat.div_add_mod _ _
      rw [hexEncode, List.flatMap_cons, ← hexEncode, List.cons_append, List.cons_append,
        List.nil_append, hexDecode, hexValue_digitChar (by omega), hexValue_digitChar (by omega), ih]
      simp only [Option.bind_eq_bind, Option.bind_some, whole, UInt8.ofNat_toNat]

theorem length_hexEncode (string : List UInt8) : (hexEncode string).length = 2 * string.length := by
  induction string with
  | nil => rfl
  | cons byte rest ih =>
      rw [hexEncode, List.flatMap_cons, ← hexEncode, List.length_append, ih]
      simp only [List.length_cons, List.length_nil]
      omega

theorem isHexDigit_of_mem_hexEncode {string : List UInt8} {char : Char}
    (member : char ∈ hexEncode string) : isHexDigit char = true := by
  rcases List.mem_flatMap.mp member with ⟨byte, -, isChar⟩
  have byteLt := byte.toNat_lt
  simp only [List.mem_cons, List.not_mem_nil, or_false] at isChar
  rcases isChar with rfl | rfl
  · rw [isHexDigit, hexValue_digitChar (by omega)]
    rfl
  · rw [isHexDigit, hexValue_digitChar (by omega)]
    rfl

theorem isWhiteSpace_of_isHexDigit {char : Char} (isHex : isHexDigit char = true) :
    isWhiteSpace char = false := by
  unfold isHexDigit hexValue at isHex
  split_ifs at isHex
  · exact isWhiteSpace_of_ascii (by omega) (by omega)
  · exact isWhiteSpace_of_ascii (by omega) (by omega)
  · exact isWhiteSpace_of_ascii (by omega) (by omega)
  · cases isHex

end Dolos.Text
