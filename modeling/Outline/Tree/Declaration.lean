/-
# Declarations

Types, namespaces and whole source files.  A tree is a plain value: builders
assemble it and rendering turns it into text.
-/

import Outline.Tree.Member

namespace Outline
namespace Tree

/-- The kinds of types that can be built. -/
inductive Kind
  | cls | struct
  deriving DecidableEq, Repr

/-- The word that declares a type of the kind. -/
def Kind.keyword : Kind → String
  | cls => "class"
  | struct => "struct"

/-- What follows the head of a type. -/
inductive TypeBody
  /-- A semicolon. -/
  | terminated
  /-- Braces around the members, which stand in the order of writing. -/
  | braced (members : List Member)
  deriving DecidableEq, Repr

/-- A class or struct; `parameters` is `none` when its head has no list. -/
structure TypeDecl where
  kind : Kind
  attributes : List Attribute
  modifiers : Modifiers
  name : String
  parameters : Option (List Parameter)
  bases : List TypeName
  body : TypeBody
  deriving DecidableEq, Repr

namespace TypeDecl

/-- The declaration up to its body: `public class Point(int X) : IShape`. -/
def head (t : TypeDecl) : String :=
  t.modifiers.lead ++ t.kind.keyword ++ " " ++ t.name
    ++ (match t.parameters with | some ps => parameterText ps | none => "")
    ++ (if t.bases.isEmpty then "" else " : " ++ ", ".intercalate (t.bases.map (·.text)))

/-- The members of a type, in the order of writing. -/
def members (t : TypeDecl) : List Member :=
  match t.body with
  | .terminated => []
  | .braced ms => ms

end TypeDecl

/-- How a namespace holds its types. -/
inductive NamespaceForm
  /-- Braces around the types. -/
  | block
  /-- A semicolon, with the types after it. -/
  | fileScoped
  deriving DecidableEq, Repr

/-- A namespace with its types. -/
structure NamespaceDecl where
  name : String
  form : NamespaceForm
  members : List TypeDecl
  deriving DecidableEq, Repr

/-- What stands at the top level of a source file, after its usings. -/
inductive TopLevel
  | namespaceDecl (n : NamespaceDecl)
  | typeDecl (t : TypeDecl)
  deriving DecidableEq, Repr

/-- The types of a top-level item, in the order of writing. -/
def TopLevel.types : TopLevel → List TypeDecl
  | namespaceDecl n => n.members
  | typeDecl t => [t]

/-- A source file: usings, then namespaces and types. -/
structure CompilationUnit where
  usings : List String
  members : List TopLevel
  deriving DecidableEq, Repr

/-- The types of a file, in the order of writing. -/
def CompilationUnit.types (u : CompilationUnit) : List TypeDecl := u.members.flatMap (·.types)

end Tree
end Outline
