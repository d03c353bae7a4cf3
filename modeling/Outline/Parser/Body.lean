/-
# Bodies

What follows the head of a member: a block, an expression after `=>`, accessors
or a semicolon.  Blocks are skipped as groups; those that are closed are then
checked for statements without an end and for locals that are never mentioned.

Accessors are `get`, `set`, `init`, `add` and `remove`, where one can start: at
the start of the braces, or after a reserved word, `;`, `}` or `]`.  Each needs
`;`, a block or `=>`, and an expression after `=>` needs a `;` before the next
accessor or the end.
-/

import Outline.Parser.Local
import Outline.Parser.Statement

namespace Outline
namespace Parser

/-- The words that start an accessor. -/
def accessorWords : List String := ["get", "set", "init", "add", "remove"]

/-- A block given as its lexemes, braces included, and the index of the first. -/
structure Block where
  index : Nat
  lexemes : List Lexeme
  deriving DecidableEq, Repr

namespace Block

/-- The lexemes between the braces. -/
def inner (b : Block) : List Lexeme := b.lexemes.tail.dropLast

/-- Checks the statements and then the locals of a block. -/
def check (b : Block) : List Finding :=
  checkStatements b.index b.lexemes ++ checkLocals (b.index + 1) b.inner

/-- The part of a block between two of its tokens, both included. -/
def slice (b : Block) (first last : Nat) : Block :=
  ⟨first, (b.lexemes.drop (first - b.index)).take (last + 1 - first)⟩

end Block

/-- What is known between two lexemes of a list of accessors. -/
structure AccessorState where
  depth : Nat := 0
  /-- Where the block that is open starts. -/
  blockStart : Option Nat := none
  /-- Whether an expression outside of brackets has not ended. -/
  inExpression : Bool := false
  previous : Option Lexeme := none
  deriving DecidableEq, Repr

namespace AccessorState

/-- Whether the lexeme starts an accessor. -/
def startsAccessor (s : AccessorState) (l : Lexeme) : Bool :=
  s.depth == 0 && l.isWordOf accessorWords
    && (match s.previous with
      | none => true
      | some p => p.kind == .keyword || p.isOneOf [";", "\x7d", "]"])

/-- Whether an expression has not ended after the lexeme. -/
def expressionAfter (s : AccessorState) (l : Lexeme) : Bool :=
  if s.depth ≠ 0 then s.inExpression
  else if s.startsAccessor l then false
  else if l.isPunct "=>" then true
  else if l.isPunct ";" then false
  else s.inExpression

/-- Where semicolons are missing around the lexeme, which has the given index and
is followed by `next`. -/
def missing (s : AccessorState) (index : Nat) (l : Lexeme) (next : Option Lexeme) : List Finding :=
  if s.startsAccessor l then
    (if s.inExpression then [missingAfter (index - 1)] else [])
      ++ (if next.any (·.isOneOf [";", "\x7b", "=>"]) then [] else [missingAfter index])
  else []

/-- What is known after one more lexeme, and the block that it closes, as the
indices of its braces. -/
def step (s : AccessorState) (index : Nat) (l : Lexeme) : AccessorState × Option (Nat × Nat) :=
  let inExpression := s.expressionAfter l
  let s' : AccessorState := { s with inExpression, previous := some l }
  match l.delimiter? with
  | some (.opening b) =>
    let opensBlock := s.depth == 0 && b == .brace && !inExpression
    ({ s' with
      depth := s.depth + 1
      blockStart := if opensBlock then some index else s.blockStart }, none)
  | some (.closing b) =>
    if s.depth ≤ 1 && b == .brace then
      ({ s' with depth := s.depth - 1, blockStart := none }, s.blockStart.map (·, index))
    else ({ s' with depth := s.depth - 1 }, none)
  | none => (s', none)

end AccessorState

/-- Goes on through accessors; the next lexeme has the given index.  The value is
where semicolons are missing, and the blocks as the indices of their braces. -/
def checkAccessorsFrom (s : AccessorState) (index : Nat) :
    List Lexeme → List Finding × List (Nat × Nat)
  | [] => (if s.inExpression then [missingAfter (index - 1)] else [], [])
  | l :: ls =>
    let (s', block) := s.step index l
    let (found, blocks) := checkAccessorsFrom s' (index + 1) ls
    (s.missing index l ls.head? ++ found, block.toList ++ blocks)

/-- Reports the accessors that do not end, and checks their blocks. -/
def checkAccessors (b : Block) : List Finding :=
  let (found, blocks) := checkAccessorsFrom {} (b.index + 1) b.inner
  found ++ blocks.flatMap fun (first, last) => (b.slice first last).check

/-- Skips the block that is next and, if it is closed, checks it. -/
def checkedBlock (check : Block → List Finding) : Parser Unit := fun c =>
  let s := skipGroup c
  if s.value then
    ⟨(), s.rest, s.found ++ check ⟨c.index, c.ahead.take (s.rest.index - c.index)⟩⟩
  else ⟨(), s.rest, s.found⟩

/-- An expression up to its semicolon. -/
def expressionToEnd : Parser Unit := do
  skipExpression [";"]
  expect ";" .semicolon

/-- The accessors of a property or an indexer: a block that an initial value may
follow, or an expression. -/
def accessors : Parser Unit := do
  if ← look (·.atPunct "\x7b") then
    checkedBlock checkAccessors
    if ← eat "=" then expressionToEnd
  else if ← eat "=>" then expressionToEnd
  else reportMissing .openBrace

/-- The body of a method or the like: a block, an expression or a semicolon. -/
def body : Parser Unit := do
  if ← look (·.atPunct "\x7b") then checkedBlock Block.check
  else if ← eat "=>" then expressionToEnd
  else expect ";" .semicolon

end Parser
end Outline
