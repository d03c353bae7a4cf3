/-
# Tokens of a source

The tokens are the pieces of a source that stand for a lexeme, each with its
range of bytes; the faults of pieces are reported at the ranges of the pieces.

| fault | code |
| --- | --- |
| line feed in a string or a character | `CS1010` |
| too many characters in a character literal | `CS1012` |
| comment without end | `CS1035` |
| verbatim or raw string without end | `CS1039` |
| character that starts nothing | `CS1056` |
-/

import Outline.Diagnostic
import Outline.Lexer.Piece

namespace Outline
namespace Lexer

/-- What is reported of a fault. -/
def Fault.diagnostic : Fault → Diagnostic
  | newlineInConstant => .error "CS1010" "Newline in constant"
  | tooManyCharacters => .error "CS1012" "Too many characters in character literal"
  | unclosedComment => .error "CS1035" "End-of-file found, '*/' expected"
  | unterminatedString => .error "CS1039" "Unterminated string literal"
  | unterminatedRawString => .error "CS1039" "Unterminated raw string literal"
  | unexpectedCharacter c => .error "CS1056" ("Unexpected character '" ++ c.toString ++ "'")

/-- The tokens among pieces that start at a byte offset. -/
def tokensFrom (offset : Nat) : List Piece → List Token
  | [] => []
  | p :: ps =>
    let next := offset + byteSize p.text
    match p.lexeme? with
    | some l => ⟨l, ⟨offset, next⟩⟩ :: tokensFrom next ps
    | none => tokensFrom next ps

/-- The faults of pieces that start at a byte offset, with their ranges. -/
def faultsFrom (offset : Nat) : List Piece → List (Fault × Span)
  | [] => []
  | p :: ps =>
    let next := offset + byteSize p.text
    match p.fault with
    | some f => (f, ⟨offset, next⟩) :: faultsFrom next ps
    | none => faultsFrom next ps

theorem map_lexeme_tokensFrom (offset : Nat) (ps : List Piece) :
    (tokensFrom offset ps).map (·.lexeme) = ps.filterMap (·.lexeme?) := by
  induction ps generalizing offset with
  | nil => rfl
  | cons p ps ih =>
    rw [tokensFrom, List.filterMap_cons]
    cases p.lexeme? with
    | none => exact ih _
    | some l => exact congrArg (l :: ·) (ih _)

end Lexer

/-- The tokens of a text. -/
def tokens (text : String) : List Token := Lexer.tokensFrom 0 (Lexer.pieces true text.toList)

/-- The lexemes of a text. -/
def lexemes (text : String) : List Lexeme :=
  (Lexer.pieces true text.toList).filterMap (·.lexeme?)

theorem map_lexeme_tokens (text : String) : (tokens text).map (·.lexeme) = lexemes text :=
  Lexer.map_lexeme_tokensFrom _ _

/-- The faults of a source, as diagnostics in the order of their places. -/
def lexicalDiagnostics (s : Source) : List Diagnostic :=
  (Lexer.faultsFrom 0 (Lexer.pieces true s.text.toList)).map fun (f, span) =>
    f.diagnostic.at (s.location span.start (span.stop - span.start))

end Outline
