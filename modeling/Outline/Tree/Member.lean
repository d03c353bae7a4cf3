/-
# Members

What stands in the body of a class or struct: fields, constructors, properties
and methods, with their attributes and parameters.  Names are written as they
are; nothing here is escaped or checked.
-/

import Outline.Tree.Modifier
import Outline.Tree.TypeName

namespace Outline
namespace Tree

/-- An attribute, written `[Name]` or `[Name(a, b)]`. -/
structure Attribute where
  name : String
  arguments : List String
  deriving DecidableEq, Repr

/-- How an attribute is written. -/
def Attribute.text (a : Attribute) : String :=
  if a.arguments.isEmpty then "[" ++ a.name ++ "]"
  else "[" ++ a.name ++ "(" ++ ", ".intercalate a.arguments ++ ")]"

/-- How a parameter is passed, when it is not passed by value. -/
inductive Passing
  | byReference | out | readonlyReference | params | this
  deriving DecidableEq, Repr

/-- The word that stands before the type of the parameter. -/
def Passing.keyword : Passing → String
  | byReference => "ref"
  | out => "out"
  | readonlyReference => "in"
  | params => "params"
  | this => "this"

/-- One parameter of a method, a constructor or a type. -/
structure Parameter where
  name : String
  type : TypeName
  passing : Option Passing := none
  fallback : Option String := none
  attributes : List Attribute := []
  deriving DecidableEq, Repr

/-- How a parameter is written, its default value last. -/
def Parameter.text (p : Parameter) : String :=
  String.join (p.attributes.map (·.text ++ " "))
    ++ (match p.passing with | some m => m.keyword ++ " " | none => "")
    ++ p.type.text ++ " " ++ p.name
    ++ (match p.fallback with | some v => " = " ++ v | none => "")

/-- How a list of parameters is written, with its parentheses. -/
def parameterText (ps : List Parameter) : String :=
  "(" ++ ", ".intercalate (ps.map (·.text)) ++ ")"

/-- A field: `type name = initializer;`. -/
structure FieldDecl where
  attributes : List Attribute
  modifiers : Modifiers
  type : TypeName
  name : String
  initializer : Option String
  deriving DecidableEq, Repr

/-- The accessor of an automatic property that writes it. -/
inductive Setter
  | set | privateSet | init
  deriving DecidableEq, Repr

/-- How the writing accessor is written. -/
def Setter.text : Setter → String
  | set => "set;"
  | privateSet => "private set;"
  | init => "init;"

/-- What follows the name of a property. -/
inductive PropertyBody
  /-- Accessors without code; without a setter the property is only read. -/
  | auto (setter : Option Setter)
  /-- A value computed by one expression. -/
  | expression (code : String)
  deriving DecidableEq, Repr

/-- A property; only an automatic one writes its initializer. -/
structure PropertyDecl where
  attributes : List Attribute
  modifiers : Modifiers
  type : TypeName
  name : String
  body : PropertyBody
  initializer : Option String
  deriving DecidableEq, Repr

/-- The constructor that another constructor runs first. -/
inductive Delegation
  | base (arguments : List String)
  | this (arguments : List String)
  deriving DecidableEq, Repr

/-- How the call of the other constructor is written. -/
def Delegation.text : Delegation → String
  | base arguments => "base(" ++ ", ".intercalate arguments ++ ")"
  | this arguments => "this(" ++ ", ".intercalate arguments ++ ")"

/-- A constructor; the lines of its body are its statements. -/
structure ConstructorDecl where
  attributes : List Attribute
  modifiers : Modifiers
  name : String
  parameters : List Parameter
  delegation : Option Delegation
  body : List String
  deriving DecidableEq, Repr

/-- What follows the head of a method. -/
inductive MethodBody
  | block (lines : List String)
  | expression (code : String)
  /-- Only a semicolon, as for an abstract method. -/
  | absent
  deriving DecidableEq, Repr

/-- A method with its type parameters and its body. -/
structure MethodDecl where
  attributes : List Attribute
  modifiers : Modifiers
  result : TypeName
  name : String
  typeParameters : List String
  parameters : List Parameter
  body : MethodBody
  deriving DecidableEq, Repr

/-- The kinds of members that can be built. -/
inductive Member.Kind
  | field | constructor | property | method
  deriving DecidableEq, Repr

/-- A member of a class or struct. -/
inductive Member
  | field (f : FieldDecl)
  | constructor (c : ConstructorDecl)
  | property (p : PropertyDecl)
  | method (m : MethodDecl)
  deriving DecidableEq, Repr

namespace Member

/-- The kind of a member. -/
def kind : Member → Kind
  | field _ => .field
  | constructor _ => .constructor
  | property _ => .property
  | method _ => .method

/-- The name of a member; that of a constructor is the name of its type. -/
def name : Member → String
  | field f => f.name
  | constructor c => c.name
  | property p => p.name
  | method m => m.name

/-- The modifiers of a member. -/
def modifiers : Member → Modifiers
  | field f => f.modifiers
  | constructor c => c.modifiers
  | property p => p.modifiers
  | method m => m.modifiers

end Member
end Tree
end Outline
