/-
# Members

One member of a class, struct, interface or record, and the whole of its braces.
After attributes and modifiers a member is told by what is next:

| next | member |
| --- | --- |
| a word that declares a type, `delegate` | nested type |
| `~` | destructor |
| `event` | event |
| the name of the type and `(` | constructor |
| `implicit`, `explicit` | conversion |
| a type and `operator` | operator |
| a type and `this [` | indexer |
| a type, a name and `<` or `(` | method |
| a type, a name and `{` or `=>` | property |
| a type and a name | fields |
-/

import Outline.Parser.Declaration

namespace Outline
namespace Parser

/-- The rest of a destructor. -/
def destructor : Parser Unit := do
  advance
  let _ ← name?
  optionalParens
  body

/-- The rest of an event; without a name it declares nothing. -/
def event : Parser (Option String) := do
  advance
  let _ ← typeReference
  let name ← memberName?
  if ← look (·.atPunct "\x7b") then
    let _ ← skipGroup
  else expressionToEnd
  return name

/-- The rest of a constructor, with the constructor that it runs first. -/
def constructor : Parser Unit := do
  advance
  let _ ← skipGroup
  if ← eat ":" then
    if ← look (fun c => c.atKeyword "base" || c.atKeyword "this") then advance
    requiredParens
  body

/-- The rest of a conversion, and its name. -/
def conversion : Parser String := do
  let word ← look Cursor.text
  advance
  if ← look (·.atKeyword "operator") then advance
  let _ ← typeReference
  optionalParens
  body
  return if word = "implicit" then "op_Implicit" else "op_Explicit"

/-- Skips the sign of an operator. -/
def operatorSign (c : Cursor) : Step Unit :=
  if c.atOneOf ["(", "\x7b", ";"] || c.atEnd then ⟨(), c, []⟩
  else if _h : c.next.remaining < c.remaining then operatorSign c.next
  else ⟨(), c, []⟩
termination_by c.remaining

/-- The rest of an operator, after the type of its result. -/
def operator : Parser Unit := do
  advance
  operatorSign
  optionalParens
  body

/-- The rest of an indexer, after its type. -/
def indexer : Parser Unit := do
  advance
  let _ ← skipGroup
  accessors

/-- The rest of a method, after its name. -/
def method : Parser Unit := do
  let _ ← typeParameters?
  if ← look (·.atPunct "(") then
    unless ← skipGroup do return
  else reportMissing .openParen
  constraints
  body

/-- One more field after a comma, if there is one, with the value before it
skipped; the value says whether fields go on. -/
def nextField : Parser (Option String) := do
  if ← eat "=" then skipExpression [",", ";"]
  if ← eat "," then
    match ← name? with
    | some name => return some name
    | none =>
      reportMissing .identifier
      return none
  return none

/-- The names of the fields after the first. -/
def moreFields (c : Cursor) : Step (List String) :=
  let s := nextField c
  match s.value with
  | some name =>
    if _h : s.rest.remaining < c.remaining then
      ((moreFields s.rest).map (name :: ·)).before s.found
    else ⟨[name], s.rest, s.found⟩
  | none => ⟨[], s.rest, s.found⟩
termination_by c.remaining

/-- What is left of a member that starts with a type, which was taken. -/
def typedMember (symbol : MemberKind → String → Entry) : Parser (List Entry) := do
  if ← look (·.atKeyword "operator") then
    operator
    return [symbol .operator "operator"]
  if ← look (fun c => c.atKeyword "this" && c.next.atPunct "[") then
    indexer
    return [symbol .indexer "this[]"]
  if ← look (·.atPunct "(") then
    reportAfter .missingResult
    let _ ← skipGroup
    body
    return []
  match ← memberName? with
  | none =>
    reportMissing .identifier
    skipMember
    return []
  | some name =>
    if ← look (·.atOneOf ["<", "("]) then
      method
      return [symbol .method name]
    else if ← look (·.atOneOf ["\x7b", "=>"]) then
      accessors
      return [symbol .property name]
    else
      let more ← (moreFields : Parser _)
      expect ";" .semicolon
      return (name :: more).map (symbol .field)

/-- A member of the type `owner`, as what it declares. -/
def member (entries : EntryParser) (owner : String) : Parser (List Entry) := do
  attributes
  let modifiers ← modifiers
  let isStatic := modifiers.contains "static" || modifiers.contains "const"
  let symbol (kind : MemberKind) (name : String) : Entry := .member ⟨kind, name, isStatic⟩
  if ← look (fun c => c.atPunct "\x7d" || c.atEnd) then return []
  if ← look atTypeKeyword then
    return [.nested (← typeDeclaration entries none modifiers)]
  if ← look (·.atKeyword "delegate") then
    return ((← delegateDeclaration none).map .nested).toList
  if ← look (·.atPunct "~") then
    destructor
    return [symbol .destructor "Finalize"]
  if ← look (·.atKeyword "event") then
    return ((← event).map (symbol .event)).toList
  if ← look (fun c => c.atWord owner && c.next.atPunct "(") then
    constructor
    return [symbol .constructor ".ctor"]
  if ← look (fun c => c.atKeyword "implicit" || c.atKeyword "explicit") then
    return [symbol .operator (← conversion)]
  let text ← look Cursor.text
  if ← typeReference then typedMember symbol
  else
    reportHere (.invalidMember text)
    skipMember
    return []

/-- The members of the type `owner`, up to its closing brace. -/
def memberList (owner : String) (c : Cursor) : Step (List Entry) :=
  if c.atPunct "\x7d" || c.atEnd then ⟨[], c, []⟩
  else
    let inside : EntryParser := fun name d =>
      if _h : d.remaining < c.remaining then memberList name d else ⟨[], d, []⟩
    let s := member inside owner c
    if s.rest.index = c.index then
      if _h : c.next.remaining < c.remaining then
        (memberList owner c.next).map (s.value ++ ·)
          |>.before (s.found ++ [⟨.invalidMember c.text, .whole c.index⟩])
      else ⟨s.value, s.rest, s.found⟩
    else if _h : s.rest.remaining < c.remaining then
      ((memberList owner s.rest).map (s.value ++ ·)).before s.found
    else ⟨s.value, s.rest, s.found⟩
termination_by c.remaining

end Parser
end Outline
