/-
# Builders of types

A builder gathers the declaration of one class or struct.  Its `with…` functions
are of two sorts: those for the head (usings, attributes, modifiers, base types,
primary constructor) replace what was there, those for members add to it.

Members are written in three groups, each in the order of adding: fields, then
constructors, then properties and methods.
-/

import Outline.Build.Member
import Outline.Tree.Declaration

namespace Outline
namespace Build

open Outline.Tree

/-- The group in which a member is written. -/
def memberGroup : Member.Kind → Nat
  | .field => 0
  | .constructor => 1
  | .property | .method => 2

/-- Members in the order of adding. -/
structure Members where
  toList : List Member := []
  deriving DecidableEq, Repr

namespace Members

/-- The members with one more. -/
def push (ms : Members) (m : Member) : Members := ⟨ms.toList ++ [m]⟩

/-- The members with more of them. -/
def extend (ms : Members) (more : List Member) : Members := ⟨ms.toList ++ more⟩

/-- How many members there are. -/
def size (ms : Members) : Nat := ms.toList.length

/-- Whether there are no members. -/
def isEmpty (ms : Members) : Bool := ms.toList.isEmpty

/-- How many members of a kind there are. -/
def count (ms : Members) (k : Member.Kind) : Nat := ms.toList.countP (·.kind == k)

/-- The members of one group, in the order of adding. -/
def group (ms : Members) (g : Nat) : List Member :=
  ms.toList.filter fun m => memberGroup m.kind == g

/-- The members in the order of writing. -/
def ordered (ms : Members) : List Member := ms.group 0 ++ ms.group 1 ++ ms.group 2

end Members

/-- A class or struct under construction, with the namespace and the usings
around it. -/
structure TypeBuilder where
  kind : Kind
  name : String
  /-- The enclosing namespace; none when empty. -/
  namespaceName : String
  namespaceForm : NamespaceForm := .block
  usings : List String := []
  attributes : List Attribute := []
  modifiers : Modifiers := .ofList [.pub]
  bases : List TypeName := []
  primary : Option (List Parameter) := none
  members : Members := {}
  deriving DecidableEq, Repr

namespace TypeBuilder

/-- A public type without members. -/
def start (kind : Kind) (name namespaceName : String) : TypeBuilder :=
  { kind, name, namespaceName }

/-- Chooses how the namespace is written. -/
def withNamespaceForm (b : TypeBuilder) (form : NamespaceForm) : TypeBuilder :=
  { b with namespaceForm := form }

/-- Replaces the usings. -/
def withUsings (b : TypeBuilder) (names : List String) : TypeBuilder := { b with usings := names }

/-- Replaces the attributes. -/
def withAttributes (b : TypeBuilder) (as : List Attribute) : TypeBuilder :=
  { b with attributes := as }

/-- Replaces the modifiers. -/
def withModifiers (b : TypeBuilder) (ms : List Modifier) : TypeBuilder :=
  { b with modifiers := .ofList ms }

/-- Replaces the base class and the interfaces. -/
def withBases (b : TypeBuilder) (ts : List TypeName) : TypeBuilder := { b with bases := ts }

/-- Replaces the parameters of the primary constructor; members are not touched. -/
def withPrimaryConstructor (b : TypeBuilder) (ps : List Parameter) : TypeBuilder :=
  { b with primary := some ps }

/-- Adds members. -/
def withMembers (b : TypeBuilder) (ms : List Member) : TypeBuilder :=
  { b with members := b.members.extend ms }

/-- Adds fields as they are meant. -/
def withFields (b : TypeBuilder) (fs : List FieldSpec) : TypeBuilder :=
  b.withMembers (fs.map fun f => .field f.declare)

/-- Adds fields as they are written. -/
def withFieldDeclarations (b : TypeBuilder) (fs : List FieldDecl) : TypeBuilder :=
  b.withMembers (fs.map .field)

/-- Adds constructors. -/
def withConstructors (b : TypeBuilder) (cs : List ConstructorDecl) : TypeBuilder :=
  b.withMembers (cs.map .constructor)

/-- Adds properties. -/
def withProperties (b : TypeBuilder) (ps : List PropertySpec) : TypeBuilder :=
  b.withMembers (ps.map fun p => .property p.declare)

/-- Adds methods. -/
def withMethods (b : TypeBuilder) (ms : List MethodDecl) : TypeBuilder :=
  b.withMembers (ms.map .method)

/-- Whether a member was added. -/
def hasMembers (b : TypeBuilder) : Bool := !b.members.isEmpty

/-- The type alone.  An empty primary constructor is left out, and a type
without members ends after its head. -/
def buildType (b : TypeBuilder) : TypeDecl where
  kind := b.kind
  attributes := b.attributes
  modifiers := b.modifiers
  name := b.name
  parameters := match b.primary with
    | none | some [] => none
    | some ps => some (declareParameters ps)
  bases := b.bases
  body := if b.hasMembers then .braced b.members.ordered else .terminated

/-- The type with its namespace and usings, as a source file. -/
def build (b : TypeBuilder) : CompilationUnit where
  usings := b.usings
  members := [
    if b.namespaceName.isEmpty then .typeDecl b.buildType
    else .namespaceDecl ⟨b.namespaceName, b.namespaceForm, [b.buildType]⟩]

end TypeBuilder
end Build
end Outline
