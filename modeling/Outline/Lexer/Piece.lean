/-
# Cutting a source into pieces

A source is cut into pieces that together are the source: blanks, directives,
comments, stray characters and tokens.  Where a piece ends is decided by its own
characters and those just after it; only `#` depends on what came before, since
it starts a directive on a line that is blank so far.

A piece can be at fault: a literal or a comment whose end is missing, or a
character that starts nothing.
-/

import Outline.Lexer.Lexeme
import Outline.Lexer.Literal

namespace Outline
namespace Lexer

/-- What can be wrong with a piece. -/
inductive Fault
  | newlineInConstant
  | tooManyCharacters
  | unclosedComment
  | unterminatedString
  | unterminatedRawString
  | unexpectedCharacter (c : Char)
  deriving DecidableEq, Repr

/-- What a piece is. -/
inductive Shape
  | blank | directive | comment | stray
  | token (kind : LexemeKind)
  deriving DecidableEq, Repr

/-- A stretch of the source. -/
structure Piece where
  shape : Shape
  text : List Char
  fault : Option Fault
  deriving DecidableEq, Repr

/-- The lexeme that a piece stands for; a name loses the `@` before it. -/
def Piece.lexeme? (p : Piece) : Option Lexeme :=
  match p.shape with
  | .token .identifier =>
    some ⟨.identifier, String.ofList (if p.text.head? = some '@' then p.text.tail else p.text)⟩
  | .token kind => some ⟨kind, String.ofList p.text⟩
  | _ => none

/-- A piece that stands for a lexeme is a token of the lexeme's kind. -/
theorem Piece.shape_of_lexeme? {p : Piece} {l : Lexeme} (h : p.lexeme? = some l) :
    p.shape = .token l.kind := by
  unfold Piece.lexeme? at h
  split at h
  · obtain rfl := Option.some.inj h
    assumption
  · obtain rfl := Option.some.inj h
    assumption
  · cases h

/-- What the next piece is, and how many characters it has after its first. -/
structure Cut where
  shape : Shape
  more : Nat
  fault : Option Fault := none
  deriving DecidableEq, Repr

/-- The piece of a literal with `lead` characters between its first one and the
part that `e` measures. -/
def literal (kind : LexemeKind) (lead : Nat) (e : Extent) (fault : Fault) : Cut :=
  ⟨.token kind, lead + e.length, if e.closed then none else some fault⟩

/-- The kind of a string. -/
def stringKind (interpolated : Bool) : LexemeKind := if interpolated then .interpolated else .string

/-- A raw string; `cs` starts with its quotes, `lead` characters after the first
character of the piece. -/
def cutRaw (interpolated : Bool) (lead : Nat) (quotes : Nat) (cs : List Char) : Cut :=
  literal (stringKind interpolated) lead (rawExtent quotes cs) .unterminatedRawString

/-- The number of times that `c` stands at the start of a text. -/
def leading (c : Char) (cs : List Char) : Nat := (cs.takeWhile (· = c)).length

/-- What starts with a quote. -/
def cutQuote (cs : List Char) : Cut :=
  let quotes := leading '"' cs
  if 2 ≤ quotes then cutRaw false quotes (quotes + 1) (cs.drop quotes)
  else literal .string 0 (stringExtent false 0 .text cs) .newlineInConstant

/-- What starts with `@`: a verbatim string or a name. -/
def cutAt : List Char → Cut
  | '"' :: cs => literal .string 1 (verbatimExtent cs) .unterminatedString
  | '$' :: '"' :: cs => literal .interpolated 2 (verbatimExtent cs) .unterminatedString
  | c :: cs =>
    if Character.isNameStart c then
      ⟨.token .identifier, ((c :: cs).takeWhile Character.isWord).length, none⟩
    else ⟨.stray, 0, some (.unexpectedCharacter '@')⟩
  | [] => ⟨.stray, 0, some (.unexpectedCharacter '@')⟩

/-- What starts with `$`: an interpolated string of some sort. -/
def cutDollar (cs : List Char) : Cut :=
  let dollars := leading '$' cs
  let after := cs.drop dollars
  let quotes := leading '"' after
  if 3 ≤ quotes then cutRaw true (dollars + quotes) quotes (after.drop quotes)
  else match after with
    | '@' :: '"' :: rest =>
      literal .interpolated (dollars + 2) (verbatimExtent rest) .unterminatedString
    | '"' :: rest =>
      literal .interpolated (dollars + 1) (stringExtent true 0 .text rest) .newlineInConstant
    | _ => ⟨.stray, dollars, some (.unexpectedCharacter '$')⟩

/-- What starts with an apostrophe. -/
def cutApostrophe (cs : List Char) : Cut :=
  match charExtent cs with
  | (n, .closed) => ⟨.token .char, n, none⟩
  | (n, .tooLong) => ⟨.token .char, n, some .tooManyCharacters⟩
  | (n, .cut) => ⟨.token .char, n, some .newlineInConstant⟩

/-- What starts with a letter or an underscore. -/
def cutName (c : Char) (cs : List Char) : Cut :=
  let rest := cs.takeWhile Character.isWord
  let kind := if Name.isKeyword (String.ofList (c :: rest)) then .keyword else .identifier
  ⟨.token kind, rest.length, none⟩

/-- The punctuation of one character. -/
def punctuation : List Char := "\x7b\x7d()[];,.:=<>?!+-*/%&|^~".toList

/-- The next piece of a source that starts with `c`; `fresh` says that its line
is blank so far. -/
def cut (fresh : Bool) (c : Char) (cs : List Char) : Cut :=
  if Character.isWhiteSpace c then ⟨.blank, 0, none⟩
  else if c = '#' ∧ fresh then ⟨.directive, lineExtent cs, none⟩
  else if c = '/' ∧ cs.head? = some '/' then ⟨.comment, lineExtent cs, none⟩
  else if c = '/' ∧ cs.head? = some '*' then
    let e := commentExtent cs.tail
    ⟨.comment, 1 + e.length, if e.closed then none else some .unclosedComment⟩
  else if c = '"' then cutQuote cs
  else if c = '@' then cutAt cs
  else if c = '$' then cutDollar cs
  else if c = '\'' then cutApostrophe cs
  else if Character.isDigit c ∨ (c = '.' ∧ cs.head?.any Character.isDigit) then
    ⟨.token .number, numberExtent cs, none⟩
  else if Character.isNameStart c then cutName c cs
  else if (c = '=' ∧ cs.head? = some '>') ∨ (c = ':' ∧ cs.head? = some ':') then
    ⟨.token .punct, 1, none⟩
  else if punctuation.contains c then ⟨.token .punct, 0, none⟩
  else ⟨.stray, 0, some (.unexpectedCharacter c)⟩

/-- Whether a line is still blank after a piece that starts with `c`. -/
def freshAfter (fresh : Bool) (c : Char) (shape : Shape) : Bool :=
  match shape with
  | .blank => fresh || c = '\n'
  | .directive => fresh
  | _ => false

/-- The pieces of a source. -/
def pieces (fresh : Bool) : List Char → List Piece
  | [] => []
  | c :: cs =>
    let k := cut fresh c cs
    ⟨k.shape, c :: cs.take k.more, k.fault⟩
      :: pieces (freshAfter fresh c k.shape) (cs.drop k.more)
termination_by cs => cs.length
decreasing_by
  simp only [List.length_drop, List.length_cons]
  omega

theorem pieces_nil (fresh : Bool) : pieces fresh [] = [] := by rw [pieces]

theorem pieces_cons (fresh : Bool) (c : Char) (cs : List Char) :
    pieces fresh (c :: cs) =
      ⟨(cut fresh c cs).shape, c :: cs.take (cut fresh c cs).more, (cut fresh c cs).fault⟩
        :: pieces (freshAfter fresh c (cut fresh c cs).shape) (cs.drop (cut fresh c cs).more) := by
  rw [pieces]

/-- The pieces together are the source. -/
theorem flatMap_pieces (fresh : Bool) (cs : List Char) :
    (pieces fresh cs).flatMap (·.text) = cs := by
  fun_induction pieces fresh cs with
  | case1 => rfl
  | case2 fresh c cs k ih => simp [ih]

end Lexer
end Outline
