/-
# Type declarations

Modifiers, the heads of types, delegates and enum members.  What stands in the
braces of a class, struct, interface or record is left to a parser that the
caller gives, so that types can nest.
-/

import Outline.Parser.Body
import Outline.Symbol

namespace Outline
namespace Parser

/-- A type whose place is the edge of a token. -/
abbrev Declared := TypeSymbol Edge

/-- What stands in the braces of a type. -/
inductive Entry
  | member (m : MemberSymbol)
  | nested (t : Declared)
  deriving Repr, BEq

namespace Entry

/-- The member that an entry is. -/
def member? : Entry → Option MemberSymbol
  | member m => some m
  | nested _ => none

/-- The type that an entry is. -/
def nested? : Entry → Option Declared
  | member _ => none
  | nested t => some t

end Entry

/-- Parses what stands in the braces of the type with the given name. -/
abbrev EntryParser := String → Parser (List Entry)

/-- The reserved words that are modifiers. -/
def modifierKeywords : List String := [
  "public", "private", "protected", "internal", "static", "abstract", "sealed", "virtual",
  "override", "readonly", "extern", "unsafe", "new", "const", "volatile", "ref"]

/-- The names that are modifiers before a name or a reserved word. -/
def modifierWords : List String := ["partial", "async", "required", "file"]

/-- Whether a lexeme is a modifier when `next` follows it. -/
def isModifier (l : Lexeme) (next : Option Lexeme) : Bool :=
  l.isKeywordOf modifierKeywords
    || (l.isWordOf modifierWords && next.any fun n => n.kind == .identifier || n.kind == .keyword)

/-- The feature that a modifier needs. -/
def modifierFeature? (text : String) : Option Language.Feature :=
  if text = "required" then some .requiredMembers
  else if text = "file" then some .fileTypes
  else none

/-- Takes modifiers as long as they last. -/
def modifiersFrom (index : Nat) : List Lexeme → Step (List String)
  | [] => ⟨[], ⟨index, []⟩, []⟩
  | l :: ls =>
    if isModifier l ls.head? then
      let needs := ((modifierFeature? l.text).map fun f =>
        Finding.mk (.needs f) (.point (.start index))).toList
      ((modifiersFrom (index + 1) ls).map (l.text :: ·)).before needs
    else ⟨[], ⟨index, l :: ls⟩, []⟩

/-- Takes the modifiers that are next. -/
def modifiers : Parser (List String) := fun c => modifiersFrom c.index c.ahead

/-- Whether the words that declare a type, other than a delegate, are next. -/
def atTypeKeyword (c : Cursor) : Bool :=
  c.head?.any (·.isKeywordOf ["class", "struct", "interface", "enum"])
    || (c.atWord "record" && c.second?.any fun n =>
      n.isName || n.isKeyword "class" || n.isKeyword "struct")

/-- Reports that a feature is needed at an edge. -/
def need (feature : Language.Feature) (e : Edge) : Parser Unit := report (.needs feature) (.point e)

/-- Takes the words that declare a type. -/
def typeKeyword : Parser TypeKind := do
  let start ← look (·.index)
  let word ← look Cursor.text
  advance
  if word = "class" then return .cls
  else if word = "struct" then return .struct
  else if word = "interface" then return .interface
  else if word = "enum" then return .enum
  else if ← look (·.atKeyword "struct") then
    advance
    need .recordStructs (.start start)
    return .recordStruct
  else
    if ← look (·.atKeyword "class") then advance
    need .records (.start start)
    return .record

/-- Takes the name of a type and its place.  A missing name is empty and stands
at the end of the word that declares the type. -/
def typeName (keyword : Nat) : Parser (String × Edge) := do
  let place ← look (·.index)
  match ← name? with
  | some name => return (name, .start place)
  | none =>
    reportMissing .identifier
    return ("", .stop keyword)

/-- The name of a member of an enum, or what stands in its place. -/
def enumName : Parser (Option MemberSymbol) := do
  match ← name? with
  | some name => return some ⟨.enumMember, name, true⟩
  | none =>
    reportHere (.expected .identifier)
    skipExpression [","]
    return none

/-- The comma after a member of an enum, which started at the token `start`.  The
value says whether the members go on. -/
def enumComma (start : Nat) : Parser Bool := do
  if ← eat "," then return true
  if ← look (·.index == start) then advance
  look fun c => !c.atPunct "\x7d" && !c.atEnd

/-- One name of an enum with its attributes and value, and the comma after it.
The value is the name, and whether the members go on. -/
def enumMember : Parser (Option MemberSymbol × Bool) := do
  let start ← look (·.index)
  attributes
  let member ← enumName
  if ← eat "=" then skipExpression [","]
  return (member, ← enumComma start)

/-- The names of an enum up to its closing brace. -/
def enumMembers (c : Cursor) : Step (List MemberSymbol) :=
  if c.atPunct "\x7d" || c.atEnd then ⟨[], c, []⟩
  else
    let s := enumMember c
    if s.value.2 then
      if _h : s.rest.remaining < c.remaining then
        ((enumMembers s.rest).map (s.value.1.toList ++ ·)).before s.found
      else ⟨s.value.1.toList, s.rest, s.found⟩
    else ⟨s.value.1.toList, s.rest, s.found⟩
termination_by c.remaining

/-- What is in the braces of a type, or the sign that it has none; none if
neither follows its head. -/
def typeBody (entries : EntryParser) (kind : TypeKind) (name : String) (place : Edge) :
    Parser (List Entry) := do
  if ← eat "\x7b" then
    let inside ← if kind = .enum then do pure ((← (enumMembers : Parser _)).map .member)
      else entries name
    expect "\x7d" .closeBrace
    let _ ← eat ";"
    return inside
  else if ← (if kind = .enum then pure false else eat ";") then
    if kind = .cls ∨ kind = .struct ∨ kind = .interface then need .bodilessTypes place
    return []
  else
    reportMissing .openBrace
    return []

/-- The parameters of a primary constructor if they are next. -/
def primaryParameters (kind : TypeKind) (place : Edge) : Parser Unit := do
  if ← look (·.atPunct "(") then
    if kind = .cls ∨ kind = .struct then need .primaryConstructors place
    let _ ← skipGroup

/-- Skips base types and constraints if they are next. -/
def bases : Parser Unit := do
  if ← look (fun c => c.atPunct ":" || c.atWord "where") then skipToBody

/-- Skips constraints if they are next. -/
def constraints : Parser Unit := do
  if ← look (·.atWord "where") then skipToBody

/-- A class, struct, interface, enum or record whose modifiers were taken. -/
def typeDeclaration (entries : EntryParser) (namespaceName : Option String)
    (modifiers : List String) : Parser Declared := do
  let keyword ← look (·.index)
  let kind ← typeKeyword
  let (name, place) ← typeName keyword
  let arity ← typeParameters?
  primaryParameters kind place
  bases
  let inside ← typeBody entries kind name place
  return {
    namespaceName, name, arity, kind, place
    isPartial := modifiers.contains "partial"
    members := inside.filterMap (·.member?)
    nested := inside.filterMap (·.nested?) }

/-- A delegate whose modifiers were taken; none if it has no type or no name. -/
def delegateDeclaration (namespaceName : Option String) : Parser (Option Declared) := do
  advance
  unless ← typeReference do
    reportHere (.expected .identifier)
    skipMember
    return none
  let place ← look (·.index)
  match ← name? with
  | none =>
    reportMissing .identifier
    skipMember
    return none
  | some name =>
    let arity ← typeParameters?
    requiredParens
    constraints
    expect ";" .semicolon
    return some {
      namespaceName, name, arity
      kind := .delegate
      isPartial := false
      members := []
      nested := []
      place := .start place }

end Parser
end Outline
