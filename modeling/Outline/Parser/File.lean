/-
# Source files

Usings, namespaces and types.  A file is parsed into items in the order in which
they are written.  The namespace of a type is the path of the block namespaces
around it or, at the top level, the file-scoped namespace declared last.

Usings stand before all else in a file and in a namespace; a file-scoped
namespace stands at the top level, once, before all namespaces and types.
-/

import Outline.Parser.Member

namespace Outline
namespace Parser

/-- What a file declares. -/
inductive Item
  | imported (name : String)
  | type (t : Declared)
  | fileNamespace (name : String)
  deriving Repr, BEq

namespace Item

/-- The namespace that a using imports. -/
def imported? : Item → Option String
  | imported name => some name
  | _ => none

/-- The type that an item declares. -/
def type? : Item → Option Declared
  | type t => some t
  | _ => none

/-- The file-scoped namespace that an item declares. -/
def fileNamespace? : Item → Option String
  | fileNamespace name => some name
  | _ => none

end Item

/-- Whether a using directive is next. -/
def atUsing (c : Cursor) : Bool :=
  (c.atKeyword "using" && !c.next.atPunct "(") || (c.atWord "global" && c.next.atKeyword "using")

/-- Whether the name of a using ends before the lexeme. -/
def endsUsing (l : Lexeme) : Bool :=
  l.isOneOf [";", "\x7b", "\x7d"] || (l.kind == .keyword && !builtinTypes.contains l.text)

/-- Takes what a using names. -/
def usingNameFrom (index : Nat) : List Lexeme → Step String
  | [] => ⟨"", ⟨index, []⟩, []⟩
  | l :: ls =>
    if endsUsing l then ⟨"", ⟨index, l :: ls⟩, []⟩
    else (usingNameFrom (index + 1) ls).map (l.text ++ ·)

/-- Takes what a using names. -/
def usingName : Parser String := fun c => usingNameFrom c.index c.ahead

/-- Takes what a using names, after `static` and the name of an alias. -/
def usingTarget : Parser String := do
  if ← look (·.atKeyword "static") then advance
  if ← look (fun c => c.atName && c.next.atPunct "=") then
    advance
    advance
  usingName

/-- A using directive. -/
def usingDirective : Parser (List Item) := do
  let start ← look (·.index)
  if ← look (·.atWord "global") then
    advance
    need .globalUsings (.start start)
  advance
  let name ← usingTarget
  if name.isEmpty then
    reportMissing .identifier
    expect ";" .semicolon
    return []
  else
    expect ";" .semicolon
    return [.imported name]

/-- A using directive, reported if something else came before it. -/
def placedUsing (late : Bool) : Parser (List Item) := do
  if late then reportHere .lateUsing
  usingDirective

/-- A type whose modifiers were taken, or what stands in its place. -/
def modifiedType (namespaceName : Option String) (modifiers : List String) :
    Parser (List Item) := do
  if ← look atTypeKeyword then
    return [.type (← typeDeclaration memberList namespaceName modifiers)]
  else if ← look (·.atKeyword "delegate") then
    return ((← delegateDeclaration namespaceName).map .type).toList
  else
    reportHere .topLevelMember
    skipMember
    return []

/-- A type with its attributes and modifiers, or what stands in its place. -/
def namespaceMember (namespaceName : Option String) : Parser (List Item) := do
  attributes
  if ← look (fun c => c.atEnd || c.atPunct "\x7d" || c.atKeyword "namespace") then return []
  modifiedType namespaceName (← modifiers)

/-- Where a namespace is declared. -/
inductive NamespacePlace
  /-- In a file; whether a file-scoped namespace and other members came before. -/
  | file (fileScoped : Bool) (late : Bool)
  /-- In the block of the namespace with this name. -/
  | block (parent : String)
  deriving DecidableEq, Repr

namespace NamespacePlace

/-- The whole name of a namespace declared here. -/
def qualify (p : NamespacePlace) (name : String) : String :=
  match p with
  | file _ _ => name
  | block parent => if name.isEmpty then parent else parent ++ "." ++ name

/-- What is wrong with a file-scoped namespace here. -/
def cause? : NamespacePlace → Option Cause
  | file true _ | block _ => some .secondFileNamespace
  | file false true => some .lateFileNamespace
  | file false false => none

end NamespacePlace

/-- Parses what stands in the block of the namespace with the given name. -/
abbrev ItemParser := String → Parser (List Item)

/-- Takes the name of a namespace; a missing one is empty. -/
def namespacePath : Parser String := do
  match ← qualifiedName? with
  | some name => return name
  | none =>
    reportMissing .identifier
    return ""

/-- What follows the name of a namespace that starts at the token `keyword`. -/
def namespaceBody (items : ItemParser) (place : NamespacePlace) (keyword : Nat) (name : String) :
    Parser (List Item) := do
  let full := place.qualify name
  if ← eat ";" then
    need .fileScopedNamespaces (.start keyword)
    match place.cause? with
    | some cause => report cause (.whole keyword)
    | none => pure ()
    return [.fileNamespace full]
  else if ← eat "\x7b" then items full
  else
    reportMissing .openBrace
    return []

/-- A namespace with all that stands in it. -/
def namespaceDeclaration (items : ItemParser) (place : NamespacePlace) : Parser (List Item) := do
  let keyword ← look (·.index)
  advance
  namespaceBody items place keyword (← namespacePath)

/-- An item of the block of a namespace.  `late` says that something else than
usings came before. -/
def namespaceItem (items : ItemParser) (full : String) (late : Bool) (c : Cursor) :
    Step (List Item) :=
  if atUsing c then placedUsing late c
  else if c.atKeyword "namespace" then namespaceDeclaration items (.block full) c
  else namespaceMember (some full) c

/-- The items of the block of a namespace, with its closing brace. -/
def namespaceItems (full : String) (late : Bool) (c : Cursor) : Step (List Item) :=
  if c.atPunct "\x7d" then (eat ";" c.next).map fun _ => []
  else if c.atEnd then ⟨[], c, [⟨.expected .closeBrace, .gap c.index⟩]⟩
  else
    let inside : ItemParser := fun name d =>
      if _h : d.remaining < c.remaining then namespaceItems name false d else ⟨[], d, []⟩
    let s := namespaceItem inside full late c
    let rest := if s.rest.index = c.index then c.next else s.rest
    if _h : rest.remaining < c.remaining then
      ((namespaceItems full (late || !atUsing c) rest).map (s.value ++ ·)).before s.found
    else ⟨s.value, rest, s.found⟩
termination_by c.remaining
decreasing_by all_goals exact _h

/-- Whether an external alias is next. -/
def atAlias (c : Cursor) : Bool := c.atKeyword "extern" && c.next.atWord "alias"

/-- An item of a file.  `fileNamespace` is the file-scoped namespace declared last,
`late` says that namespaces or types came before. -/
def fileItem (fileNamespace : Option String) (late : Bool) (c : Cursor) : Step (List Item) :=
  if atUsing c then placedUsing late c
  else if atAlias c then (skipMember c).map fun _ => []
  else if c.atKeyword "namespace" then
    namespaceDeclaration (fun name => namespaceItems name false)
      (.file fileNamespace.isSome late) c
  else if c.atPunct "\x7d" then ⟨[], c.next, [⟨.strayBrace, .whole c.index⟩]⟩
  else namespaceMember fileNamespace c

/-- The items of a file. -/
def fileItems (fileNamespace : Option String) (late : Bool) (c : Cursor) : Step (List Item) :=
  if c.atEnd then ⟨[], c, []⟩
  else
    let s := fileItem fileNamespace late c
    let rest := if s.rest.index = c.index then c.next else s.rest
    let current := (s.value.filterMap (·.fileNamespace?)).getLast?.or fileNamespace
    let isMember := !(atUsing c || atAlias c || c.atPunct "\x7d")
    if _h : rest.remaining < c.remaining then
      ((fileItems current (late || isMember) rest).map (s.value ++ ·)).before s.found
    else ⟨s.value, rest, s.found⟩
termination_by c.remaining
decreasing_by exact _h

/-- The items that lexemes declare, and the findings. -/
def parseFile (ls : List Lexeme) : Step (List Item) := fileItems none false ⟨0, ls⟩

end Parser
end Outline
