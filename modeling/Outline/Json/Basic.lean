/-
# JSON values and how they are written

Objects keep the order of their fields.  Two kinds of values are kept apart from
the rest because a reader meets them but no field holds one: numbers that are no
natural number below `2^64`, kept as they were spelled, and values that are well
formed and still have no meaning, such as a string with half of a surrogate pair or
a number beyond all bounds.

A value is written either on one line without spaces, or over several lines with
two spaces for each level and `": "` after a name.  In a string only quotes,
backslashes and the characters below U+0020 are escaped.
-/

namespace Outline

/-- A JSON value. -/
inductive Json
  | null
  | bool (b : Bool)
  | natural (n : Nat)
  | otherNumber (spelling : String)
  | string (s : String)
  | array (items : List Json)
  | object (fields : List (String × Json))
  | unrepresentable
  deriving Repr, BEq, Inhabited

namespace Json

/-- The hexadecimal digit of a number below sixteen, in lower case. -/
def hexDigit (n : Nat) : Char :=
  if n < 10 then Char.ofNat ('0'.toNat + n) else Char.ofNat ('a'.toNat + (n - 10))

/-- How a character is written between quotes. -/
def escapeChar (c : Char) : List Char :=
  if c = '"' then ['\\', '"']
  else if c = '\\' then ['\\', '\\']
  else if c = '\n' then ['\\', 'n']
  else if c = '\r' then ['\\', 'r']
  else if c = '\t' then ['\\', 't']
  else if c = '\x08' then ['\\', 'b']
  else if c = '\x0c' then ['\\', 'f']
  else if c.toNat < 0x20 then
    ['\\', 'u', '0', '0', hexDigit (c.toNat / 16), hexDigit (c.toNat % 16)]
  else [c]

/-- How a text is written, with its quotes. -/
def quote (s : String) : String :=
  String.ofList ('"' :: s.toList.flatMap escapeChar ++ ['"'])

mutual

/-- A value on one line, without spaces. -/
def compact : Json → String
  | null => "null"
  | bool b => if b then "true" else "false"
  | natural n => toString n
  | otherNumber spelling => spelling
  | string s => quote s
  | array items => "[" ++ compactItems items ++ "]"
  | object fields => "\x7b" ++ compactFields fields ++ "\x7d"
  | unrepresentable => "null"

/-- The items of an array on one line. -/
def compactItems : List Json → String
  | [] => ""
  | [v] => compact v
  | v :: vs => compact v ++ "," ++ compactItems vs

/-- The fields of an object on one line. -/
def compactFields : List (String × Json) → String
  | [] => ""
  | [(name, v)] => quote name ++ ":" ++ compact v
  | (name, v) :: fs => quote name ++ ":" ++ compact v ++ "," ++ compactFields fs

end

/-- The start of a line at the given level. -/
def newLine (level : Nat) : String := "\n" ++ String.ofList (List.replicate (2 * level) ' ')

mutual

/-- A value over several lines, its own lines at the given level. -/
def prettyAt (level : Nat) : Json → String
  | null => "null"
  | bool b => if b then "true" else "false"
  | natural n => toString n
  | otherNumber spelling => spelling
  | string s => quote s
  | array [] => "[]"
  | array (v :: vs) => "[" ++ prettyItems (level + 1) (v :: vs) ++ newLine level ++ "]"
  | object [] => "\x7b\x7d"
  | object (f :: fs) => "\x7b" ++ prettyFields (level + 1) (f :: fs) ++ newLine level ++ "\x7d"
  | unrepresentable => "null"

/-- The items of an array, each on a line of its own. -/
def prettyItems (level : Nat) : List Json → String
  | [] => ""
  | [v] => newLine level ++ prettyAt level v
  | v :: vs => newLine level ++ prettyAt level v ++ "," ++ prettyItems level vs

/-- The fields of an object, each on a line of its own. -/
def prettyFields (level : Nat) : List (String × Json) → String
  | [] => ""
  | [(name, v)] => newLine level ++ quote name ++ ": " ++ prettyAt level v
  | (name, v) :: fs =>
    newLine level ++ quote name ++ ": " ++ prettyAt level v ++ "," ++ prettyFields level fs

end

/-- A value over several lines. -/
def pretty (v : Json) : String := prettyAt 0 v

mutual

/-- Whether all parts of a value have a meaning. -/
def isRepresentable : Json → Bool
  | unrepresentable => false
  | array items => areRepresentable items
  | object fields => fieldsAreRepresentable fields
  | _ => true

/-- Whether all parts of some values have a meaning. -/
def areRepresentable : List Json → Bool
  | [] => true
  | v :: vs => isRepresentable v && areRepresentable vs

/-- Whether all parts of some fields have a meaning. -/
def fieldsAreRepresentable : List (String × Json) → Bool
  | [] => true
  | (_, v) :: fs => isRepresentable v && fieldsAreRepresentable fs

end

end Json
end Outline
