/-
# Syntax trees

What is known of one source: what it imports, the types it declares, with the
byte offsets of their names, and what there is to report.

The lexemes decide what is declared and what the parser finds; only then are
token edges turned into bytes and the language version is asked which features
it lacks.  Diagnostics stand in the order of their offsets, at one offset those
of the lexer first.
-/

import Outline.Lexer.Tokens
import Outline.Parser.File

namespace Outline

/-- The byte offset of a token edge; past the last token it is the end of the
text. -/
def edgeOffset (spans : List Span) (size : Nat) : Parser.Edge → Nat
  | .start i => (spans[i]?.map (·.start)).getD size
  | .stop i => (spans[i]?.map (·.stop)).getD size

/-- What is known of one source. -/
structure SyntaxTree where
  source : Source
  usings : List String
  types : List (TypeSymbol Nat)
  diagnostics : List Diagnostic
  deriving Repr, BEq

namespace SyntaxTree

/-- Whether something is reported that makes the compilation fail. -/
def hasErrors (t : SyntaxTree) : Bool := t.diagnostics.any (·.isError)

/-- The diagnostic of a finding, unless it is a feature that the version has. -/
def findingDiagnostic? (version : Language.Version) (s : Source) (spans : List Span)
    (f : Parser.Finding) : Option Diagnostic :=
  let offset := edgeOffset spans s.text.utf8ByteSize
  (f.cause.diagnostic? version).map
    (·.at (s.location (offset f.mark.first) (offset f.mark.last - offset f.mark.first)))

/-- The offset that a diagnostic points to. -/
def diagnosticOffset (d : Diagnostic) : Nat := (d.location.map (·.offset)).getD 0

/-- Diagnostics in the order of their offsets. -/
def sortDiagnostics (ds : List Diagnostic) : List Diagnostic :=
  ds.mergeSort fun a b => diagnosticOffset a ≤ diagnosticOffset b

/-- Parses a source. -/
def parse (version : Language.Version) (s : Source) : SyntaxTree :=
  let ts := tokens s.text
  let spans := ts.map (·.span)
  let file := Parser.parseFile (ts.map (·.lexeme))
  { source := s
    usings := file.value.filterMap (·.imported?)
    types := (file.value.filterMap (·.type?)).map
      (·.map (edgeOffset spans s.text.utf8ByteSize))
    diagnostics := sortDiagnostics
      (lexicalDiagnostics s ++ file.found.filterMap (findingDiagnostic? version s spans)) }

end SyntaxTree
end Outline
