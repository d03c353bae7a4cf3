/-
# Types described in a few words

A class or struct by its name, its namespace and pairs such as `count:int` for
its members.  The pair is cut at its first colon, so that a type may hold more of
them, and blanks around both parts do not count.

Names of members that are keywords are escaped when the type is built; the name of
the type is not, and only its shape is checked.
-/

import Outline.Build.Type
import Outline.Name

namespace Outline
namespace Command

/-- A name and a type. -/
structure NamedType where
  name : String
  type : String
  deriving DecidableEq, Repr

/-- The pair that a text is; neither part may be empty. -/
def NamedType.parse (s : String) : Option NamedType :=
  match s.toList.dropWhile (· ≠ ':') with
  | [] => none
  | _ :: after =>
    let name := trim (String.ofList (s.toList.takeWhile (· ≠ ':')))
    let type := trim (String.ofList after)
    if name = "" ∨ type = "" then none else some ⟨name, type⟩

/-- What is known of a type that is to be declared. -/
structure TypeSpec where
  name : String
  namespaceName : String := ""
  isStruct : Bool := false
  isFileScoped : Bool := false
  usings : List String := []
  bases : List String := []
  fields : List NamedType := []
  properties : List NamedType := []
  primary : List NamedType := []
  deriving DecidableEq, Repr

namespace TypeSpec

/-- What is said of a name that no type can have. -/
def badName (name : String) : String := "'" ++ name ++ "' is not a valid type name"

/-- The builder of the type. -/
def builder (s : TypeSpec) : Build.TypeBuilder :=
  let b := (Build.TypeBuilder.start (if s.isStruct then .struct else .cls) s.name s.namespaceName)
    |>.withNamespaceForm (if s.isFileScoped then .fileScoped else .block)
    |>.withUsings s.usings
    |>.withBases (s.bases.map .mk)
    |>.withFields (s.fields.map fun f => { name := f.name, type := ⟨f.type⟩ })
    |>.withProperties (s.properties.map fun p => .auto p.name ⟨p.type⟩)
  if s.primary.isEmpty then b
  else b.withPrimaryConstructor (s.primary.map fun p => { name := p.name, type := ⟨p.type⟩ })

/-- The source file that declares the type, if its name has the shape of one. -/
def declare (s : TypeSpec) : Option Tree.CompilationUnit :=
  if Name.isIdentifier s.name then some s.builder.build else none

end TypeSpec
end Command
end Outline
