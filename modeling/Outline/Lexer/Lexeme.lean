/-
# Lexemes and tokens

A lexeme is what the grammar sees of a piece of source: its kind and its text.
A token is a lexeme with the range of bytes that it stands on.
-/

import Outline.Name

namespace Outline

/-- The kinds of lexemes. -/
inductive LexemeKind
  | identifier | keyword | number | string
  /-- A string with holes, which its text keeps. -/
  | interpolated
  | char | punct
  deriving DecidableEq, Repr

/-- The kind and the text of a piece of source; a name has no `@` before it. -/
structure Lexeme where
  kind : LexemeKind
  text : String
  deriving DecidableEq, Repr

namespace Lexeme

/-- Whether the lexeme is this punctuation. -/
def isPunct (l : Lexeme) (p : String) : Bool := l.kind == .punct && l.text == p

/-- Whether the lexeme is one of these punctuations. -/
def isOneOf (l : Lexeme) (ps : List String) : Bool := l.kind == .punct && ps.contains l.text

/-- Whether the lexeme is this reserved word. -/
def isKeyword (l : Lexeme) (k : String) : Bool := l.kind == .keyword && l.text == k

/-- Whether the lexeme is one of these reserved words. -/
def isKeywordOf (l : Lexeme) (ks : List String) : Bool := l.kind == .keyword && ks.contains l.text

/-- Whether the lexeme is a name. -/
def isName (l : Lexeme) : Bool := l.kind == .identifier

/-- Whether the lexeme is this name, which may have a meaning of its own here. -/
def isWord (l : Lexeme) (w : String) : Bool := l.kind == .identifier && l.text == w

/-- Whether the lexeme is one of these names. -/
def isWordOf (l : Lexeme) (ws : List String) : Bool := l.kind == .identifier && ws.contains l.text

end Lexeme

/-- A range of bytes. -/
structure Span where
  start : Nat
  stop : Nat
  deriving DecidableEq, Repr

/-- A lexeme and where it stands. -/
structure Token where
  lexeme : Lexeme
  span : Span
  deriving DecidableEq, Repr

/-- The shapes of brackets. -/
inductive Bracket
  | paren | square | brace
  deriving DecidableEq, Repr

namespace Bracket

/-- The closing bracket of a shape. -/
def closer : Bracket → String
  | paren => ")"
  | square => "]"
  | brace => "\x7d"

end Bracket

/-- A bracket with its side. -/
inductive Delimiter
  | opening (b : Bracket)
  | closing (b : Bracket)
  deriving DecidableEq, Repr

/-- The bracket that a lexeme is. -/
def Lexeme.delimiter? (l : Lexeme) : Option Delimiter :=
  if l.kind = .punct then
    if l.text = "(" then some (.opening .paren)
    else if l.text = "[" then some (.opening .square)
    else if l.text = "\x7b" then some (.opening .brace)
    else if l.text = ")" then some (.closing .paren)
    else if l.text = "]" then some (.closing .square)
    else if l.text = "\x7d" then some (.closing .brace)
    else none
  else none

end Outline
