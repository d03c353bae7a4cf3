/-
# How far literals reach

Each function is given the characters after the start of a literal or a comment
and says how many of them belong to it, and whether its end was found.

| literal | starts with | ends with |
| --- | --- | --- |
| string | `"` | the next `"` outside of holes, on the same line |
| verbatim string | `@"` | the next `"` that is not doubled |
| raw string | three or more `"` | as many `"` |
| character | `'` | the next `'`, on the same line |
| block comment | `/*` | `*/` |

In a string a backslash takes the next character with it.  In an interpolated
string `{` opens a hole and `}` closes one; `{{` outside of a hole opens none.
A quote inside a hole starts a nested string, which ends with its line at the
latest.
-/

import Outline.Character

namespace Outline
namespace Lexer

/-- How many characters belong to something, and whether its end was found. -/
structure Extent where
  length : Nat
  closed : Bool
  deriving DecidableEq, Repr

namespace Extent

/-- Nothing more, and no end. -/
def cut : Extent := ⟨0, false⟩

/-- The end, which is `n` characters long. -/
def close (n : Nat) : Extent := ⟨n, true⟩

/-- The extent with `n` more characters before it. -/
def grow (n : Nat) (e : Extent) : Extent := ⟨n + e.length, e.closed⟩

end Extent

/-- Where the reading of a string stands: in its text or in a string nested in a
hole, and whether the next character is taken along whatever it is. -/
inductive StringMode
  | text | nested | takeText | takeNested
  deriving DecidableEq, Repr

/-- The rest of a string after its quote; `holes` counts the open holes. -/
def stringExtent (interpolated : Bool) : Nat → StringMode → List Char → Extent
  | _, _, [] => .cut
  | holes, .takeText, _ :: cs => (stringExtent interpolated holes .text cs).grow 1
  | holes, .takeNested, _ :: cs => (stringExtent interpolated holes .nested cs).grow 1
  | holes, .nested, c :: cs =>
    if c = '\n' then .cut
    else if c = '\\' then (stringExtent interpolated holes .takeNested cs).grow 1
    else if c = '"' then (stringExtent interpolated holes .text cs).grow 1
    else (stringExtent interpolated holes .nested cs).grow 1
  | holes, .text, c :: cs =>
    if c = '\n' then .cut
    else if c = '\\' then
      if cs.head? = some '\n' then (stringExtent interpolated holes .text cs).grow 1
      else (stringExtent interpolated holes .takeText cs).grow 1
    else if c = '"' then
      if holes = 0 then .close 1 else (stringExtent interpolated holes .nested cs).grow 1
    else if interpolated && c == '\x7b' then
      if holes = 0 ∧ cs.head? = some '\x7b' then
        (stringExtent interpolated holes .takeText cs).grow 1
      else (stringExtent interpolated (holes + 1) .text cs).grow 1
    else if interpolated && c == '\x7d' then (stringExtent interpolated (holes - 1) .text cs).grow 1
    else (stringExtent interpolated holes .text cs).grow 1

/-- The rest of a verbatim string after its quote. -/
def verbatimExtent : List Char → Extent
  | [] => .cut
  | '"' :: '"' :: cs => (verbatimExtent cs).grow 2
  | '"' :: _ => .close 1
  | _ :: cs => (verbatimExtent cs).grow 1

/-- The rest of a raw string after its `quotes` quotes. -/
def rawExtent (quotes : Nat) : List Char → Extent
  | [] => .cut
  | c :: cs =>
    if (c :: cs).take quotes = List.replicate quotes '"' then .close quotes
    else (rawExtent quotes cs).grow 1

/-- The rest of a block comment. -/
def commentExtent : List Char → Extent
  | [] => .cut
  | '*' :: '/' :: _ => .close 2
  | _ :: cs => (commentExtent cs).grow 1

/-- The rest of a line. -/
def lineExtent (cs : List Char) : Nat := (cs.takeWhile (· ≠ '\n')).length

/-- The rest of a number: letters, digits, underscores, and dots before digits. -/
def numberExtent : List Char → Nat
  | [] => 0
  | [c] => if Character.isWord c then 1 else 0
  | c :: d :: cs =>
    if Character.isWord c || (c = '.' && Character.isDigit d) then numberExtent (d :: cs) + 1 else 0

/-- What a character literal holds: a character, or a backslash and what it
takes with it. -/
def charContent : List Char → Nat
  | [] => 0
  | ['\\'] => 1
  | '\\' :: _ :: _ => 2
  | '\n' :: _ => 0
  | _ :: _ => 1

/-- How a character literal can be at fault. -/
inductive CharEnd
  | closed | tooLong | cut
  deriving DecidableEq, Repr

/-- The rest of a character literal after its quote, and how it ends. -/
def charExtent (cs : List Char) : Nat × CharEnd :=
  let n := charContent cs
  let after := cs.drop n
  if after.head? = some '\'' then (n + 1, .closed)
  else
    let more := (after.takeWhile fun c => c ≠ '\n' && c ≠ '\'').length
    if (after.drop more).head? = some '\'' then (n + more + 1, .tooLong) else (n + more, .cut)

end Lexer
end Outline
