/-
# Classes of characters

The classes that names, literals and layout are read by.  ASCII is decided by
comparison and everything above it by table:

| class | ASCII | above ASCII |
| --- | --- | --- |
| alphabetic | letters | `alphabeticRanges` |
| alphanumeric | letters, digits | `alphabeticRanges`, `numericRanges` |
| white space | tab to carriage return, space | `blankRanges` |
| word | letters, digits, `_` | the alphanumeric ones |
-/

import Outline.Character.Alphabetic
import Outline.Character.Numeric

namespace Outline
namespace Character

/-- Membership of a code point in a table of closed ranges. -/
def inRanges (ranges : List (Nat × Nat)) (n : Nat) : Bool :=
  ranges.any fun r => r.1 ≤ n && n ≤ r.2

theorem inRanges_iff {ranges : List (Nat × Nat)} {n : Nat} :
    inRanges ranges n = true ↔ ∃ r ∈ ranges, r.1 ≤ n ∧ n ≤ r.2 := by
  simp [inRanges]

/-- The white space above ASCII, as closed ranges in increasing order. -/
def blankRanges : List (Nat × Nat) := [
  (0x85, 0x85), (0xA0, 0xA0), (0x1680, 0x1680), (0x2000, 0x200A), (0x2028, 0x2029),
  (0x202F, 0x202F), (0x205F, 0x205F), (0x3000, 0x3000)]

/-- One of the digits `0` to `9`. -/
def isDigit (c : Char) : Bool := '0' ≤ c && c ≤ '9'

/-- One of the letters `a` to `z` and `A` to `Z`. -/
def isLatin (c : Char) : Bool := ('a' ≤ c && c ≤ 'z') || ('A' ≤ c && c ≤ 'Z')

/-- A character with the Alphabetic property. -/
def isAlphabetic (c : Char) : Bool :=
  if c.toNat < 0x80 then isLatin c else inRanges alphabeticRanges c.toNat

/-- An alphabetic character or one of the numeric categories. -/
def isAlphanumeric (c : Char) : Bool :=
  if c.toNat < 0x80 then isLatin c || isDigit c
  else inRanges alphabeticRanges c.toNat || inRanges numericRanges c.toNat

/-- A character with the White_Space property. -/
def isWhiteSpace (c : Char) : Bool :=
  if c.toNat < 0x80 then c == ' ' || (9 ≤ c.toNat && c.toNat ≤ 13)
  else inRanges blankRanges c.toNat

/-- What may start a name: a letter or an underscore. -/
def isNameStart (c : Char) : Bool := isAlphabetic c || c == '_'

/-- What may go on a name: a letter, a digit or an underscore. -/
def isWord (c : Char) : Bool := isAlphanumeric c || c == '_'

theorem isAlphanumeric_of_isAlphabetic {c : Char} (h : isAlphabetic c = true) :
    isAlphanumeric c = true := by
  unfold isAlphabetic at h
  unfold isAlphanumeric
  split <;> simp_all

theorem isWord_of_isNameStart {c : Char} (h : isNameStart c = true) : isWord c = true := by
  simp only [isNameStart, isWord, Bool.or_eq_true] at h ⊢
  exact h.imp_left isAlphanumeric_of_isAlphabetic

end Character

/-- A text without the white space at both of its ends. -/
def trim (s : String) : String :=
  String.ofList (((s.toList.dropWhile Character.isWhiteSpace).reverse.dropWhile
    Character.isWhiteSpace).reverse)

/-- A text without the white space at its end. -/
def trimEnd (s : String) : String :=
  String.ofList ((s.toList.reverse.dropWhile Character.isWhiteSpace).reverse)

end Outline
