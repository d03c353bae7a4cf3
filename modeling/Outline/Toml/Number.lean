/-
# TOML numbers

Digits may be set apart by single underscores.  A decimal number has no leading
zero; in hexadecimal, octal and binary the lead `0x`, `0o` or `0b` stands for the
base, and no sign may precede it.

| whole number | read as |
| --- | --- |
| from 0 below `2^64` | that natural number |
| other from `-2^127` below `2^128` | a number that no field holds |
| beyond | no number, though well formed |
-/

import Outline.Json.Reader

namespace Outline
namespace Toml

/-- The value of digits in a base, with single underscores between them. -/
def digits (base : Nat) (cs : List Char) : Option Nat :=
  let rec go (n : Nat) (afterDigit : Bool) : List Char → Option Nat
    | [] => if afterDigit then some n else none
    | c :: cs =>
      if c = '_' then if afterDigit then go n false cs else none
      else match Json.hexValue c with
        | some d => if d < base then go (n * base + d) true cs else none
        | none => none
  go 0 false cs

/-- The value of decimal digits without a leading zero. -/
def decimal : List Char → Option Nat
  | '0' :: _ :: _ => none
  | cs => digits 10 cs

/-- Whether the text is an exponent after its letter. -/
def isExponent : List Char → Bool
  | '+' :: cs | '-' :: cs => (digits 10 cs).isSome
  | cs => (digits 10 cs).isSome

/-- Whether the text is a fraction, an exponent or both. -/
def isFraction (cs : List Char) : Bool :=
  let isE (c : Char) : Bool := c == 'e' || c == 'E'
  let mantissa := cs.takeWhile (!isE ·)
  let exponent := cs.dropWhile (!isE ·)
  (match mantissa with
    | [] => !exponent.isEmpty
    | '.' :: ds => (digits 10 ds).isSome
    | _ => false)
  && (match exponent with
    | [] => true
    | _ :: cs => isExponent cs)

/-- Whether the text is a number that is not whole, without its sign. -/
def isFloat (cs : List Char) : Bool :=
  let isWhole (c : Char) : Bool := c.isDigit || c == '_'
  cs = ['i', 'n', 'f'] || cs = ['n', 'a', 'n']
    || ((decimal (cs.takeWhile isWhole)).isSome && isFraction (cs.dropWhile isWhole))

/-- A whole number by its sign and its size, spelled as given. -/
def whole (negative : Bool) (n : Nat) (spelling : List Char) : Json :=
  if n = 0 ∨ (!negative ∧ n < UInt64.size) then .natural n
  else if n ≤ Nat.pow 2 127 ∨ (!negative ∧ n < Nat.pow 2 128) then
    .otherNumber (String.ofList spelling)
  else .unrepresentable

/-- The number that a text is. -/
def number (cs : List Char) : Option Json :=
  match cs with
  | '0' :: 'x' :: ds => (digits 16 ds).map (whole false · cs)
  | '0' :: 'o' :: ds => (digits 8 ds).map (whole false · cs)
  | '0' :: 'b' :: ds => (digits 2 ds).map (whole false · cs)
  | _ =>
    let (negative, unsigned) := match cs with
      | '-' :: ds => (true, ds)
      | '+' :: ds => (false, ds)
      | ds => (false, ds)
    match decimal unsigned with
    | some n => some (whole negative n cs)
    | none => if isFloat unsigned then some (.otherNumber (String.ofList cs)) else none

end Toml
end Outline
