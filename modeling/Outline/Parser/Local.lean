/-
# Locals

A local is declared at the start of a statement: a type, a name, and then `;` or
`=`.  A local that the rest of its body never mentions is reported, unless it
starts with a value that takes work to compute.

| declaration | reported as |
| --- | --- |
| `T x;` | `unusedVariable` |
| `T x = literal;` | `unreadVariable` |
| `T x = anything else` | nothing |

A name is mentioned by the same name anywhere else in the body, also where it
means something else, and by whole words in an interpolated string.
-/

import Outline.Parser.Name

namespace Outline
namespace Parser

/-- How a local starts. -/
inductive LocalStart
  | none | constant | computed
  deriving DecidableEq, Repr

/-- Whether a declaration of a local can start with the lexeme. -/
def startsLocalType (l : Lexeme) : Bool :=
  (l.isKeywordOf builtinTypes && l.text != "void")
    || (l.isName && !(["await", "yield", "nameof"].contains l.text))

/-- Drops the qualifiers of a type. -/
def dropQualifiers : List Lexeme → List Lexeme
  | a :: b :: ls => if a.isPunct "." && b.isName then dropQualifiers ls else a :: b :: ls
  | ls => ls

/-- Drops type arguments up to the `>` that closes the open angles. -/
def dropArguments (depth : Nat) : List Lexeme → Option (List Lexeme)
  | [] => none
  | l :: ls =>
    if l.isPunct "<" then dropArguments (depth + 1) ls
    else if l.isPunct ">" then if depth ≤ 1 then some ls else dropArguments (depth - 1) ls
    else if l.isOneOf [";", "\x7b", "\x7d", "="] then none
    else dropArguments depth ls

/-- Drops type arguments if they are next. -/
def dropArguments? : List Lexeme → Option (List Lexeme)
  | l :: ls => if l.isPunct "<" then dropArguments 1 ls else some (l :: ls)
  | [] => some []

/-- Drops nullable signs and array brackets. -/
def dropSuffixes : List Lexeme → List Lexeme
  | [] => []
  | [a] => if a.isPunct "?" then [] else [a]
  | a :: b :: ls =>
    if a.isPunct "?" then dropSuffixes (b :: ls)
    else if a.isPunct "[" && b.isPunct "]" then dropSuffixes ls
    else a :: b :: ls

/-- Drops the type that a local starts with. -/
def dropLocalType : List Lexeme → Option (List Lexeme)
  | [] => none
  | l :: ls =>
    if startsLocalType l then
      (dropArguments? (if l.isName then dropQualifiers ls else ls)).map dropSuffixes
    else none

/-- A value that takes no work to compute. -/
def isLiteral (l : Lexeme) : Bool :=
  l.kind == .number || l.kind == .string || l.kind == .char
    || l.isKeywordOf ["true", "false", "null"]

/-- How a local starts, read after its name. -/
def localStart? : List Lexeme → Option LocalStart
  | l :: ls =>
    if l.isPunct ";" then some .none
    else if l.isPunct "=" then
      match ls with
      | [] => none
      | v :: ls =>
        some (if isLiteral v && ls.head?.any (·.isPunct ";") then .constant else .computed)
    else none
  | [] => none

/-- The local that is declared next: how many lexemes stand before its name, the
name, and how it starts. -/
def localDeclaration? (ls : List Lexeme) : Option (Nat × String × LocalStart) := do
  let named ← dropLocalType ls
  match named with
  | l :: rest =>
    if l.isName then
      let start ← localStart? rest
      return (ls.length - named.length, l.text, start)
    else none
  | [] => none

/-- Goes on looking for a word.  `skip` characters belong to a match that was no
whole word; `previous` is the character before. -/
def mentionsFrom (word : List Char) (skip : Nat) (previous : Option Char) : List Char → Bool
  | [] => false
  | c :: cs =>
    match skip with
    | k + 1 => mentionsFrom word k (some c) cs
    | 0 =>
      if word.isPrefixOf (c :: cs) then
        if !previous.any Character.isWord
            && !((c :: cs).drop word.length).head?.any Character.isWord then true
        else mentionsFrom word (word.length - 1) (some c) cs
      else mentionsFrom word 0 (some c) cs

/-- Whether a word stands in a text, with no letter, digit or underscore next to
it.  Matches are taken from left to right and do not overlap. -/
def mentions (text word : String) : Bool := mentionsFrom word.toList 0 none text.toList

/-- Whether a lexeme mentions a local. -/
def mentionsLocal (l : Lexeme) (name : String) : Bool :=
  l.isWord name || (l.kind == .interpolated && mentions l.text name)

/-- Whether a lexeme of the body other than the one at `place` mentions the local. -/
def isMentioned (body : List Lexeme) (place : Nat) (name : String) : Bool :=
  (body.take place ++ body.drop (place + 1)).any (mentionsLocal · name)

/-- What is said of a local that is never mentioned. -/
def LocalStart.cause? (name : String) : LocalStart → Option Cause
  | none => some (.unusedVariable name)
  | constant => some (.unreadVariable name)
  | computed => Option.none

/-- Goes on through a body, `place` lexemes after its start; `fresh` says that a
statement starts here. -/
def checkLocalsFrom (body : List Lexeme) (index : Nat) (place : Nat) (fresh : Bool) :
    List Lexeme → List Finding
  | [] => []
  | l :: ls =>
    let found := if fresh then
      match localDeclaration? (l :: ls) with
      | some (before, name, start) =>
        if isMentioned body (place + before) name then []
        else ((start.cause? name).map fun cause =>
          Finding.mk cause (.whole (index + place + before))).toList
      | none => []
    else []
    found ++ checkLocalsFrom body index (place + 1) (l.isOneOf [";", "\x7b", "\x7d"]) ls

/-- Reports the locals of a body that are never mentioned.  The body is given
without its braces; its first lexeme has the given index. -/
def checkLocals (index : Nat) (body : List Lexeme) : List Finding :=
  checkLocalsFrom body index 0 true body

end Parser
end Outline
