/-
# Findings

What the parser has to say, before it is known where the lexemes stand in bytes
and which language version applies.  A finding has a *cause* and a *mark*; a mark
is a stretch between two token edges.

| cause | code | message |
| --- | --- | --- |
| `expected` a name | `CS1001` | Identifier expected |
| `expected` a semicolon | `CS1002` | ; expected |
| `expected` another token | `CS1003`, `CS1026`, `CS1513`, `CS1514` | |
| `topLevelMember` | `CS0116` | a member or statement where types stand |
| `unusedVariable`, `unreadVariable` | `CS0168`, `CS0219` | warnings |
| `strayBrace` | `CS1022` | a closing brace at the top level |
| `invalidMember` | `CS1519` | a token that starts no member |
| `missingResult` | `CS1520` | a method without a type of its result |
| `invalidTerm` | `CS1525` | a closing bracket that was not opened |
| `lateUsing` | `CS1529` | a using after other elements |
| `needs` | `CS8370` | a feature that the version may lack |
| `secondFileNamespace`, `lateFileNamespace` | `CS8954`, `CS8956` | |
-/

import Outline.Diagnostic
import Outline.Language

namespace Outline
namespace Parser

/-- A token that can be missing. -/
inductive Expected
  | identifier | semicolon
  | openBrace | closeBrace | openParen | closeParen | closeSquare | closeAngle
  deriving DecidableEq, Repr

/-- What the parser has to say. -/
inductive Cause
  | expected (e : Expected)
  | topLevelMember
  | strayBrace
  | lateUsing
  | invalidMember (text : String)
  | missingResult
  | invalidTerm (text : String)
  | secondFileNamespace
  | lateFileNamespace
  | unusedVariable (name : String)
  | unreadVariable (name : String)
  | needs (feature : Language.Feature)
  deriving DecidableEq, Repr

/-- What is reported of a missing token. -/
def Expected.diagnostic : Expected → Diagnostic
  | identifier => .error "CS1001" "Identifier expected"
  | semicolon => .error "CS1002" "; expected"
  | openBrace => .error "CS1514" "\x7b expected"
  | closeBrace => .error "CS1513" "\x7d expected"
  | openParen => .error "CS1003" "Syntax error, '(' expected"
  | closeParen => .error "CS1026" ") expected"
  | closeSquare => .error "CS1003" "Syntax error, ']' expected"
  | closeAngle => .error "CS1003" "Syntax error, '>' expected"

/-- What is reported of a cause; a feature that the version has is no cause. -/
def Cause.diagnostic? (version : Language.Version) : Cause → Option Diagnostic
  | expected e => some e.diagnostic
  | topLevelMember => some (.error "CS0116"
      "A namespace cannot directly contain members such as fields, methods or statements")
  | strayBrace => some (.error "CS1022"
      "Type or namespace definition, or end-of-file expected")
  | lateUsing => some (.error "CS1529" ("A using clause must precede all other elements defined "
      ++ "in the namespace except extern alias declarations"))
  | invalidMember text => some (.error "CS1519" ("Invalid token '" ++ text
      ++ "' in class, record, struct, or interface member declaration"))
  | missingResult => some (.error "CS1520" "Method must have a return type")
  | invalidTerm text => some (.error "CS1525" ("Invalid expression term '" ++ text ++ "'"))
  | secondFileNamespace => some (.error "CS8954"
      "Source file can only contain one file-scoped namespace declaration")
  | lateFileNamespace => some (.error "CS8956"
      "File-scoped namespace must precede all other members in a file")
  | unusedVariable name => some (.warning "CS0168"
      ("The variable '" ++ name ++ "' is declared but never used"))
  | unreadVariable name => some (.warning "CS0219"
      ("The variable '" ++ name ++ "' is assigned but its value is never used"))
  | needs feature =>
    if version.has feature then none
    else some (.error "CS8370" ("Feature '" ++ feature.name ++ "' is not available in C# "
      ++ version.number ++ ". Please use language version " ++ feature.since.number
      ++ " or greater."))

/-- The start or the end of the token with this index. -/
inductive Edge
  | start (token : Nat)
  | stop (token : Nat)
  deriving DecidableEq, Repr

/-- A stretch between two edges. -/
structure Mark where
  first : Edge
  last : Edge
  deriving DecidableEq, Repr

namespace Mark

/-- The stretch of a whole token. -/
def whole (token : Nat) : Mark := ⟨.start token, .stop token⟩

/-- The empty stretch at an edge. -/
def point (e : Edge) : Mark := ⟨e, e⟩

/-- The empty stretch just after the token before this one. -/
def gap (token : Nat) : Mark := point (if token = 0 then .start 0 else .stop (token - 1))

end Mark

/-- A cause and where it is. -/
structure Finding where
  cause : Cause
  mark : Mark
  deriving DecidableEq, Repr

end Parser
end Outline
