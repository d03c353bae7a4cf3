/-
# Builders of members

Descriptions of members as they are meant, turned into members as they are
written: the names of fields, properties and parameters are escaped where they
are reserved words, and nothing else is checked.

| builder | starts as |
| --- | --- |
| `FieldSpec` | no modifiers, no initializer |
| `PropertySpec.auto` | public, read and written |
| `PropertySpec.computed` | public, one expression |
| `ConstructorBuilder` | public, no parameters, an empty body |
| `MethodBuilder` | no modifiers, `void`, an empty body |
-/

import Outline.Name
import Outline.Tree.Member

namespace Outline
namespace Build

open Outline.Tree

/-- The parameters with their names escaped. -/
def declareParameters (ps : List Parameter) : List Parameter :=
  ps.map fun p => { p with name := Name.escape p.name }

/-- A field as it is meant. -/
structure FieldSpec where
  name : String
  type : TypeName
  modifiers : List Modifier := []
  attributes : List Attribute := []
  initializer : Option String := none
  deriving DecidableEq, Repr

/-- The field as it is written. -/
def FieldSpec.declare (s : FieldSpec) : FieldDecl where
  attributes := s.attributes
  modifiers := .ofList s.modifiers
  type := s.type
  name := Name.escape s.name
  initializer := s.initializer

/-- A property as it is meant. -/
structure PropertySpec where
  name : String
  type : TypeName
  modifiers : List Modifier := [.pub]
  attributes : List Attribute := []
  body : PropertyBody := .auto (some .set)
  initializer : Option String := none
  deriving DecidableEq, Repr

namespace PropertySpec

/-- A public property that is read and written. -/
def auto (name : String) (type : TypeName) : PropertySpec := { name, type }

/-- A public property computed by an expression. -/
def computed (name : String) (type : TypeName) (code : String) : PropertySpec :=
  { name, type, body := .expression code }

/-- Replaces the writing accessor; a computed property has none and stays. -/
def withSetter (s : PropertySpec) (setter : Option Setter) : PropertySpec :=
  match s.body with
  | .auto _ => { s with body := .auto setter }
  | .expression _ => s

/-- The property as it is written; a computed one loses its initializer. -/
def declare (s : PropertySpec) : PropertyDecl where
  attributes := s.attributes
  modifiers := .ofList s.modifiers
  type := s.type
  name := Name.escape s.name
  body := s.body
  initializer := match s.body with
    | .auto _ => s.initializer
    | .expression _ => none

end PropertySpec

/-- A constructor under construction. -/
structure ConstructorBuilder where
  name : String
  modifiers : List Modifier := [.pub]
  attributes : List Attribute := []
  parameters : List Parameter := []
  delegation : Option Delegation := none
  body : List String := []
  deriving DecidableEq, Repr

namespace ConstructorBuilder

/-- A public constructor of the type `name`, without parameters or statements. -/
def start (name : String) : ConstructorBuilder := { name }

/-- Replaces the modifiers. -/
def withModifiers (b : ConstructorBuilder) (ms : List Modifier) : ConstructorBuilder :=
  { b with modifiers := ms }

/-- Replaces the attributes. -/
def withAttributes (b : ConstructorBuilder) (as : List Attribute) : ConstructorBuilder :=
  { b with attributes := as }

/-- Replaces the parameters. -/
def withParameters (b : ConstructorBuilder) (ps : List Parameter) : ConstructorBuilder :=
  { b with parameters := ps }

/-- Runs the other constructor `d` first, in place of any chosen before. -/
def withDelegation (b : ConstructorBuilder) (d : Delegation) : ConstructorBuilder :=
  { b with delegation := some d }

/-- Adds statements after those already there. -/
def withBodyLines (b : ConstructorBuilder) (lines : List String) : ConstructorBuilder :=
  { b with body := b.body ++ lines }

/-- The constructor as it is written. -/
def build (b : ConstructorBuilder) : ConstructorDecl where
  attributes := b.attributes
  modifiers := .ofList b.modifiers
  name := b.name
  parameters := declareParameters b.parameters
  delegation := b.delegation
  body := b.body

end ConstructorBuilder

/-- A method under construction. -/
structure MethodBuilder where
  name : String
  modifiers : List Modifier := []
  attributes : List Attribute := []
  result : TypeName := .void
  typeParameters : List String := []
  parameters : List Parameter := []
  body : MethodBody := .block []
  deriving DecidableEq, Repr

namespace MethodBuilder

/-- A method `name` that takes and returns nothing and has an empty body. -/
def start (name : String) : MethodBuilder := { name }

/-- Replaces the modifiers. -/
def withModifiers (b : MethodBuilder) (ms : List Modifier) : MethodBuilder :=
  { b with modifiers := ms }

/-- Replaces the attributes. -/
def withAttributes (b : MethodBuilder) (as : List Attribute) : MethodBuilder :=
  { b with attributes := as }

/-- Replaces the type of the result. -/
def withResult (b : MethodBuilder) (t : TypeName) : MethodBuilder := { b with result := t }

/-- Replaces the type parameters. -/
def withTypeParameters (b : MethodBuilder) (names : List String) : MethodBuilder :=
  { b with typeParameters := names }

/-- Replaces the parameters. -/
def withParameters (b : MethodBuilder) (ps : List Parameter) : MethodBuilder :=
  { b with parameters := ps }

/-- Adds statements to a block body, or starts one in place of any other body. -/
def withBodyLines (b : MethodBuilder) (lines : List String) : MethodBuilder :=
  match b.body with
  | .block body => { b with body := .block (body ++ lines) }
  | .expression _ | .absent => { b with body := .block lines }

/-- Replaces the body by one expression. -/
def withExpressionBody (b : MethodBuilder) (code : String) : MethodBuilder :=
  { b with body := .expression code }

/-- Replaces the body by a semicolon. -/
def withoutBody (b : MethodBuilder) : MethodBuilder := { b with body := .absent }

/-- The method as it is written. -/
def build (b : MethodBuilder) : MethodDecl where
  attributes := b.attributes
  modifiers := .ofList b.modifiers
  result := b.result
  name := b.name
  typeParameters := b.typeParameters
  parameters := declareParameters b.parameters
  body := b.body

end MethodBuilder
end Build
end Outline
