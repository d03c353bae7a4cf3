/-
# Reading JSON

One value, with blanks around it and nothing else.  A string is read in two
passes: the first cuts it into characters, escaped code units and stray bytes, the
second joins surrogate pairs.  A half pair or a stray byte makes the string, and an
object that has it in a name, unrepresentable; it does not make the text ill formed.
Outside of strings nothing is stray.
-/

import Outline.Json.Basic
import Outline.Json.Symbol

namespace Outline
namespace Json

/-- The blanks that may stand between the parts of a value. -/
def isBlank : Symbol → Bool
  | .char c => c == ' ' || c == '\n' || c == '\t' || c == '\r'
  | .stray => false

/-- The text after its leading blanks. -/
def skipBlanks (cs : List Symbol) : List Symbol := cs.dropWhile isBlank

theorem skipBlanks_length_le (cs : List Symbol) : (skipBlanks cs).length ≤ cs.length :=
  (List.dropWhile_suffix _).length_le

/-- The value of a hexadecimal digit. -/
def hexValue (c : Char) : Option Nat :=
  if '0' ≤ c ∧ c ≤ '9' then some (c.toNat - '0'.toNat)
  else if 'a' ≤ c ∧ c ≤ 'f' then some (c.toNat - 'a'.toNat + 10)
  else if 'A' ≤ c ∧ c ≤ 'F' then some (c.toNat - 'A'.toNat + 10)
  else none

/-- A part of a string: a character, a code unit given by its number, or a stray
byte. -/
inductive StringPart
  | char (c : Char)
  | unit (n : Nat)
  | stray
  deriving DecidableEq, Repr

/-- The character that a backslash before `c` stands for. -/
def unescape (c : Char) : Option Char :=
  if c = '"' ∨ c = '\\' ∨ c = '/' then some c
  else if c = 'n' then some '\n'
  else if c = 'r' then some '\r'
  else if c = 't' then some '\t'
  else if c = 'b' then some '\x08'
  else if c = 'f' then some '\x0c'
  else none

/-- The parts of a string up to its closing quote, and what follows it. -/
def stringParts : List Symbol → Option (List StringPart × List Symbol)
  | [] => none
  | .char '\\' :: .char 'u' :: .char a :: .char b :: .char c :: .char d :: rest => do
    let n := (← hexValue a) * 4096 + (← hexValue b) * 256 + (← hexValue c) * 16 + (← hexValue d)
    let (parts, after) ← stringParts rest
    some (.unit n :: parts, after)
  | .char '\\' :: .char e :: rest => do
    let c ← unescape e
    let (parts, after) ← stringParts rest
    some (.char c :: parts, after)
  | .char c :: rest =>
    if c = '"' then some ([], rest)
    else if c.toNat < 0x20 ∨ c = '\\' then none
    else do
      let (parts, after) ← stringParts rest
      some (.char c :: parts, after)
  | .stray :: rest => do
    let (parts, after) ← stringParts rest
    some (.stray :: parts, after)

/-- The characters of a string, unless half of a surrogate pair is missing or a byte
is stray. -/
def joinParts : List StringPart → Option (List Char)
  | [] => some []
  | .stray :: _ => none
  | .char c :: rest => (joinParts rest).map (c :: ·)
  | .unit n :: rest =>
    if n < 0xD800 ∨ 0xE000 ≤ n then (joinParts rest).map (Char.ofNat n :: ·)
    else match rest with
      | .unit m :: rest =>
        if n < 0xDC00 ∧ 0xDC00 ≤ m ∧ m < 0xE000 then
          (joinParts rest).map (Char.ofNat (0x10000 + (n - 0xD800) * 0x400 + (m - 0xDC00)) :: ·)
        else none
      | _ => none

/-- The digits at the start of a text, and what follows them. -/
def digits : List Symbol → List Char × List Symbol
  | .char c :: rest =>
    if c.isDigit then (c :: (digits rest).1, (digits rest).2) else ([], .char c :: rest)
  | cs => ([], cs)

/-- The text after a fraction, if one stands here; none if it is cut short. -/
def skipFraction : List Symbol → Option (List Symbol)
  | .char '.' :: rest => match digits rest with
    | ([], _) => none
    | (_, after) => some after
  | rest => some rest

/-- The text after a sign, if one stands here. -/
def skipSign : List Symbol → List Symbol
  | .char '+' :: rest => rest
  | .char '-' :: rest => rest
  | rest => rest

/-- The text after an exponent, if one stands here; none if it is cut short. -/
def skipExponent : List Symbol → Option (List Symbol)
  | .char e :: rest =>
    if e = 'e' ∨ e = 'E' then match digits (skipSign rest) with
      | ([], _) => none
      | (_, after) => some after
    else some (.char e :: rest)
  | rest => some rest

/-- A number without its sign, as its value if it is whole, and what follows it. -/
def unsignedNumber (cs : List Symbol) : Option (Option Nat × List Symbol) :=
  match digits cs with
  | ([], _) => none
  | ('0' :: _ :: _, _) => none
  | (ds, after) => do
    let afterFraction ← skipFraction after
    let afterNumber ← skipExponent afterFraction
    let whole := afterNumber.length == after.length
    let n := ds.foldl (fun n d => n * 10 + (d.toNat - '0'.toNat)) 0
    some (if whole && n < UInt64.size then some n else none, afterNumber)

/-- The character that a symbol is. -/
def Symbol.char? : Symbol → Option Char
  | .char c => some c
  | .stray => none

/-- The characters of `cs` up to `after`, which is its end. -/
def spellingUpTo (cs after : List Symbol) : String :=
  String.ofList ((cs.take (cs.length - after.length)).filterMap (·.char?))

/-- A number, and what follows it. -/
def number (cs : List Symbol) : Option (Json × List Symbol) :=
  match cs with
  | .char '-' :: rest => do
    let (_, after) ← unsignedNumber rest
    some (.otherNumber (spellingUpTo cs after), after)
  | _ => do
    let (n, after) ← unsignedNumber cs
    match n with
    | some n => some (.natural n, after)
    | none => some (.otherNumber (spellingUpTo cs after), after)

mutual

/-- A value after blanks, and what follows it. -/
def value (cs : List Symbol) : Option (Json × List Symbol) :=
  match _h : skipBlanks cs with
  | .char '"' :: rest => do
    let (parts, after) ← stringParts rest
    match joinParts parts with
    | some text => some (.string (String.ofList text), after)
    | none => some (.unrepresentable, after)
  | .char '[' :: rest =>
    match skipBlanks rest with
    | .char ']' :: after => some (.array [], after)
    | _ => (items rest).map fun (vs, after) => (.array vs, after)
  | .char '\x7b' :: rest =>
    match skipBlanks rest with
    | .char '\x7d' :: after => some (.object [], after)
    | _ => (fields rest).map fun (fs, after) => (match fs with
      | some fs => .object fs
      | none => .unrepresentable, after)
  | .char 'n' :: .char 'u' :: .char 'l' :: .char 'l' :: after => some (.null, after)
  | .char 't' :: .char 'r' :: .char 'u' :: .char 'e' :: after => some (.bool true, after)
  | .char 'f' :: .char 'a' :: .char 'l' :: .char 's' :: .char 'e' :: after =>
    some (.bool false, after)
  | rest => number rest
termination_by 2 * cs.length
decreasing_by
  all_goals
    have := skipBlanks_length_le cs
    simp_all
    omega

/-- The items of an array up to its closing bracket, and what follows it. -/
def items (cs : List Symbol) : Option (List Json × List Symbol) :=
  match value cs with
  | none => none
  | some (v, rest) =>
    match skipBlanks rest with
    | .char ']' :: after => some ([v], after)
    | .char ',' :: rest =>
      if _h : rest.length < cs.length then
        (items rest).map fun (vs, after) => (v :: vs, after)
      else none
    | _ => none
termination_by 2 * cs.length + 1

/-- The fields of an object up to its closing brace, and what follows it; the
fields are missing when one of the names is no text. -/
def fields (cs : List Symbol) : Option (Option (List (String × Json)) × List Symbol) :=
  match skipBlanks cs with
  | .char '"' :: quoted =>
    match stringParts quoted with
    | none => none
    | some (parts, rest) =>
      match skipBlanks rest with
      | .char ':' :: rest =>
        if _h : rest.length < cs.length then
          match value rest with
          | none => none
          | some (v, rest) =>
            let field := (joinParts parts).map fun name => (String.ofList name, v)
            match skipBlanks rest with
            | .char '\x7d' :: after => some (field.map ([·]), after)
            | .char ',' :: rest =>
              if _h : rest.length < cs.length then
                (fields rest).map fun (fs, after) => (do return (← field) :: (← fs), after)
              else none
            | _ => none
        else none
      | _ => none
  | _ => none
termination_by 2 * cs.length + 1

end

/-- The value that symbols spell, if they spell one and nothing else. -/
def parseSymbols (cs : List Symbol) : Option Json :=
  match value cs with
  | some (v, rest) => if (skipBlanks rest).isEmpty then some v else none
  | none => none

/-- The value that a text holds, if it holds one and nothing else. -/
def parse (cs : List Char) : Option Json := parseSymbols (ofChars cs)

end Json
end Outline
