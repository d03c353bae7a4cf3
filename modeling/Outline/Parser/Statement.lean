/-
# Statements

Blocks of statements are checked without being parsed.  A block is given as its
lexemes, braces included, and the index of the first.

Braces open statements if they start the block, follow `=>`, a word such as
`else` or the parentheses of a word such as `if`, or stand where a statement of a
block of statements starts.  All other braces open initializers and patterns.  A
closing brace of a block of statements follows `;`, `{`, `}` or `:`; after
anything else a semicolon is missing.
-/

import Outline.Parser.Cursor

namespace Outline
namespace Parser

/-- The words with a block after their parentheses. -/
def controlWords : List String := [
  "if", "while", "for", "foreach", "using", "lock", "fixed", "switch", "catch"]

/-- The words with a block just after them. -/
def blockWords : List String := [
  "else", "try", "finally", "do", "checked", "unchecked", "unsafe", "catch"]

/-- A semicolon that is missing after the token `index`. -/
def missingAfter (index : Nat) : Finding := ⟨.expected .semicolon, .point (.stop index)⟩

/-- Where a statement may start or end: after one of these. -/
def isStatementEdge (l : Lexeme) : Bool := l.isOneOf [";", "\x7b", "\x7d", ":"]

/-- What is known between two lexemes of a block. -/
structure StatementState where
  /-- The open braces, the innermost first, and whether each opens statements. -/
  braces : List Bool := []
  /-- The open parentheses, and whether each follows a control word. -/
  parens : List Bool := []
  /-- Whether the parentheses closed last follow a control word. -/
  afterControl : Bool := false
  previous : Option Lexeme := none
  deriving DecidableEq, Repr

namespace StatementState

/-- Whether a brace opens statements here. -/
def opensStatements (s : StatementState) : Bool :=
  match s.previous with
  | none => true
  | some p =>
    (p.isPunct ")" && s.afterControl) || p.isPunct "=>" || p.isKeywordOf blockWords
      || ((s.braces.head?.getD false) && isStatementEdge p)

/-- Whether a parenthesis starts the head of a block. -/
def opensControl (s : StatementState) : Bool :=
  s.previous.any fun p => p.isKeywordOf controlWords || p.isWord "when"

/-- Whether a statement is still open. -/
def isOpen (s : StatementState) : Bool := s.previous.any fun p => !isStatementEdge p

/-- What is known after one more lexeme. -/
def step (s : StatementState) (l : Lexeme) : StatementState :=
  let s' : StatementState := match l.delimiter? with
    | some (.opening .paren) => { s with parens := s.opensControl :: s.parens }
    | some (.closing .paren) =>
      { s with afterControl := s.parens.head?.getD false, parens := s.parens.tail }
    | some (.opening .brace) => { s with braces := s.opensStatements :: s.braces }
    | some (.closing .brace) => { s with braces := s.braces.tail }
    | _ => s
  { s' with previous := some l }

/-- Whether a semicolon is missing before the lexeme. -/
def missesSemicolon (s : StatementState) (l : Lexeme) : Bool :=
  l.isPunct "\x7d" && s.braces.head? == some true && s.isOpen

end StatementState

/-- Goes on checking a block; the next lexeme has the given index. -/
def checkStatementsFrom (s : StatementState) (index : Nat) : List Lexeme → List Finding
  | [] => []
  | l :: ls =>
    let found := if s.missesSemicolon l then [missingAfter (index - 1)] else []
    found ++ checkStatementsFrom (s.step l) (index + 1) ls

/-- Reports the statements of a block that a brace ends without a semicolon. -/
def checkStatements (index : Nat) (block : List Lexeme) : List Finding :=
  checkStatementsFrom {} index block

end Parser
end Outline
