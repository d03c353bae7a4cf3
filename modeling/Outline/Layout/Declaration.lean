/-
# Layout of declarations

How members, types, namespaces and source files become fragments.  Groups that
belong apart have a blank line between them: the types of a namespace, the items
of a file and, where the format asks for it, the members of a type.  Fields in a
row stay together.
-/

import Outline.Layout.Fragment
import Outline.Tree.Declaration

namespace Outline
namespace Layout

open Outline.Tree

/-- Groups of fragments with a blank line between two of them. -/
def separated : List (List Fragment) → List Fragment
  | [] => []
  | [g] => g
  | g :: gs => g ++ .blank :: separated gs

/-- Each attribute on a line of its own. -/
def attributeLines (as : List Attribute) : List Fragment := as.map fun a => .line a.text

/-- The statements of a body, each on a line of its own. -/
def statements (lines : List String) : List Fragment := lines.map .line

instance : Layable FieldDecl where
  fragments _ d :=
    let initializer := match d.initializer with
      | some e => " = " ++ e
      | none => ""
    attributeLines d.attributes
      ++ [.line (d.modifiers.lead ++ d.type.text ++ " " ++ d.name ++ initializer ++ ";")]

/-- How a property is written on its line. -/
def propertyLine (p : PropertyDecl) : String :=
  let head := p.modifiers.lead ++ p.type.text ++ " " ++ p.name
  match p.body with
  | .auto setter =>
    let accessors := match setter with
      | some s => head ++ " \x7b get; " ++ s.text ++ " \x7d"
      | none => head ++ " \x7b get; \x7d"
    match p.initializer with
    | some e => accessors ++ " = " ++ e ++ ";"
    | none => accessors
  | .expression e => head ++ " => " ++ e ++ ";"

instance : Layable PropertyDecl where
  fragments _ p := attributeLines p.attributes ++ [.line (propertyLine p)]

/-- The constructor up to its body. -/
def constructorHead (c : ConstructorDecl) : String :=
  c.modifiers.lead ++ c.name ++ parameterText c.parameters
    ++ (match c.delegation with | some d => " : " ++ d.text | none => "")

instance : Layable ConstructorDecl where
  fragments f c := attributeLines c.attributes
    ++ [.braced (constructorHead c) (statements c.body) f.methodBraceOnNewLine]

/-- The method up to its body. -/
def methodHead (m : MethodDecl) : String :=
  m.modifiers.lead ++ m.result.text ++ " " ++ m.name
    ++ (if m.typeParameters.isEmpty then "" else "<" ++ ", ".intercalate m.typeParameters ++ ">")
    ++ parameterText m.parameters

instance : Layable MethodDecl where
  fragments f m := attributeLines m.attributes ++ [match m.body with
    | .block lines => .braced (methodHead m) (statements lines) f.methodBraceOnNewLine
    | .expression e => .line (methodHead m ++ " => " ++ e ++ ";")
    | .absent => .line (methodHead m ++ ";")]

instance : Layable Member where
  fragments f
    | .field d => Layable.fragments f d
    | .constructor c => Layable.fragments f c
    | .property p => Layable.fragments f p
    | .method m => Layable.fragments f m

/-- The members after a member of the kind `previous`, with the blank lines
between them. -/
def followingMembers (f : Format) (previous : Member.Kind) : List Member → List Fragment
  | [] => []
  | m :: ms =>
    let together := previous == .field && m.kind == .field
    let gap := if f.blankLineBetweenMembers && !together then [.blank] else []
    gap ++ Layable.fragments f m ++ followingMembers f m.kind ms

/-- The members of a type with the blank lines between them. -/
def memberFragments (f : Format) : List Member → List Fragment
  | [] => []
  | m :: ms => Layable.fragments f m ++ followingMembers f m.kind ms

instance : Layable TypeDecl where
  fragments f t := attributeLines t.attributes ++ [match t.body with
    | .terminated => .line (t.head ++ ";")
    | .braced ms => .braced t.head (memberFragments f ms) f.typeBraceOnNewLine]

instance : Layable NamespaceDecl where
  fragments f n :=
    let types := separated (n.members.map (Layable.fragments f))
    match n.form with
    | .block => [.braced ("namespace " ++ n.name) types f.typeBraceOnNewLine]
    | .fileScoped =>
      .line ("namespace " ++ n.name ++ ";") :: if types.isEmpty then [] else .blank :: types

instance : Layable TopLevel where
  fragments f
    | .namespaceDecl n => Layable.fragments f n
    | .typeDecl t => Layable.fragments f t

instance : Layable CompilationUnit where
  fragments f u :=
    let usings := u.usings.map fun name => Fragment.line ("using " ++ name ++ ";")
    let gap := if usings.isEmpty || u.members.isEmpty then [] else [Fragment.blank]
    usings ++ gap ++ separated (u.members.map (Layable.fragments f))

end Layout
end Outline
