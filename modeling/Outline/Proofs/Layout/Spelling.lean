/-
# How declarations are spelled

The lexemes that a declaration is written with, and what makes it *well formed*: names
are names, types are types, code is well nested and ends where it should.  A well
formed declaration is spelled with its lexemes, whatever the format is.

| part | has to be |
| --- | --- |
| name of a field, property or parameter | a name, with `@` if it is reserved |
| name of a type, constructor, method or type parameter | a name that is not reserved |
| namespace, using | names joined by dots |
| type | a type, as `TypeForm` has it |
| argument, default value | well nested |
| initial value, body after `=>` | an expression |
| body in braces | lines without faults, well nested, with their semicolons |
-/

import Outline.Layout.Declaration
import Outline.Parser.Statement
import Outline.Proofs.Layout.Page
import Outline.Proofs.Parser.Grammar

namespace Outline
namespace Tree

open Lexer Outline.Parser
open Lexeme (mark)

/-! ### Code -/

/-- Code that can stand between brackets. -/
def IsCode (s : String) : Prop := Inline s ∧ WellNested (lexemes s)

/-- Code that is an expression in front of one of `stops`. -/
def IsExpression (stops : List String) (s : String) : Prop :=
  Inline s ∧ Expression stops (lexemes s)

/-- A type that is written as one. -/
def TypeName.WellFormed (t : TypeName) : Prop := Inline t.text ∧ TypeForm (lexemes t.text)

/-- Lines that can be the body of a member: no semicolon is missing between their braces.
Lines of statements can, as `Parser.Phrase.isBody` says. -/
structure IsBody (lines : List String) : Prop where
  each : ∀ s ∈ lines, Layout.Line s
  nested : WellNested (lines.flatMap lexemes)
  ended : checkStatements 0 (grouped .brace (lines.flatMap lexemes)) = []

/-- The lexemes of code in a list with commas. -/
def listSpelling (codes : List String) : List Lexeme := commaSeparated (codes.map lexemes)

/-! ### Attributes, modifiers and parameters -/

/-- The lexemes between the brackets of an attribute. -/
def Attribute.inner (a : Attribute) : List Lexeme :=
  lexemes a.name ++ if a.arguments.isEmpty then [] else grouped .paren (listSpelling a.arguments)

/-- An attribute with a name and arguments that are code. -/
structure Attribute.WellFormed (a : Attribute) : Prop where
  name : IsCode a.name
  arguments : ∀ s ∈ a.arguments, IsCode s

/-- The lexemes of attributes. -/
def attributeSpelling (as : List Attribute) : List Lexeme :=
  (as.map (·.inner)).flatMap (grouped .square)

/-- The words of modifiers. -/
def Modifiers.words (ms : Modifiers) : List String := ms.toList.map (·.keyword)

/-- The lexemes of modifiers. -/
def Modifiers.spelling (ms : Modifiers) : List Lexeme := ms.words.map .word

/-- Modifiers that can stand before lexemes: a last one that is not reserved stands
before a word. -/
def Modifiers.StandBefore (ms : Modifiers) (ls : List Lexeme) : Prop :=
  ∀ w ∈ ms.words.getLast?, Name.isKeyword w = false → ls.head?.any isWordy = true

/-- The lexemes of a value after a sign. -/
def assigned (sign : String) : Option String → List Lexeme
  | some code => mark sign :: lexemes code
  | none => []

/-- The lexemes of a parameter. -/
def Parameter.spelling (p : Parameter) : List Lexeme :=
  attributeSpelling p.attributes ++ (p.passing.toList.map (.word ·.keyword)
    ++ (lexemes p.type.text ++ .name (Name.unescape p.name) :: assigned "=" p.fallback))

/-- A parameter whose parts are what they stand for. -/
structure Parameter.WellFormed (p : Parameter) : Prop where
  name : Name.IsWritten p.name
  type : p.type.WellFormed
  fallback : ∀ s ∈ p.fallback, IsCode s
  attributes : ∀ a ∈ p.attributes, a.WellFormed

/-- The lexemes of a list of parameters. -/
def parameterSpelling (ps : List Parameter) : List Lexeme :=
  grouped .paren (commaSeparated (ps.map (·.spelling)))

theorem wellNested_listSpelling {codes : List String} (h : ∀ s ∈ codes, IsCode s) :
    WellNested (listSpelling codes) := by
  refine .commaSeparated fun ls hls => ?_
  obtain ⟨s, hs, rfl⟩ := List.mem_map.1 hls
  exact (h s hs).2

theorem Attribute.WellFormed.wellNested {a : Attribute} (h : a.WellFormed) :
    WellNested a.inner := by
  unfold Attribute.inner
  split
  · exact h.name.2.append .nil
  · exact h.name.2.append ((wellNested_listSpelling h.arguments).bracket .paren)

theorem Parameter.WellFormed.wellNested {p : Parameter} (h : p.WellFormed) :
    WellNested p.spelling := by
  have hattributes : WellNested (attributeSpelling p.attributes) := by
    refine .flatMap fun ls hls => ?_
    obtain ⟨a, ha, rfl⟩ := List.mem_map.1 hls
    exact (h.attributes a ha).wellNested.bracket .square
  have hfallback : WellNested (assigned "=" p.fallback) := by
    cases hf : p.fallback with
    | none => exact .nil
    | some code => exact (h.fallback code hf).2.plain rfl
  have hpassing : WellNested (p.passing.toList.map (.word ·.keyword)) := by
    cases p.passing with
    | none => exact .nil
    | some m => exact WellNested.nil.plain (delimiter?_of_isWordy (isWordy_word _))
  exact hattributes.append (hpassing.append (h.type.2.wellNested.append (hfallback.plain rfl)))

theorem wellNested_parameters {ps : List Parameter} (h : ∀ p ∈ ps, p.WellFormed) :
    WellNested (commaSeparated (ps.map (·.spelling))) := by
  refine .commaSeparated fun ls hls => ?_
  obtain ⟨p, hp, rfl⟩ := List.mem_map.1 hls
  exact (h p hp).wellNested

/-! ### Members -/

/-- The lexemes of a field. -/
def FieldDecl.spelling (d : FieldDecl) : List Lexeme :=
  attributeSpelling d.attributes ++ (d.modifiers.spelling ++ (lexemes d.type.text
    ++ (.name (Name.unescape d.name) :: (assigned "=" d.initializer ++ [mark ";"]))))

/-- A field whose parts are what they stand for. -/
structure FieldDecl.WellFormed (d : FieldDecl) : Prop where
  attributes : ∀ a ∈ d.attributes, a.WellFormed
  type : d.type.WellFormed
  modifiers : d.modifiers.StandBefore (lexemes d.type.text)
  name : Name.IsWritten d.name
  initializer : ∀ s ∈ d.initializer, IsExpression [",", ";"] s

/-- The words of a writing accessor. -/
def Setter.words : Setter → List String
  | set => ["set"]
  | privateSet => ["private", "set"]
  | init => ["init"]

/-- The lexemes of the accessors of an automatic property. -/
def accessorSpelling (setter : Option Setter) : List Lexeme :=
  [.word "get", mark ";"] ++ (match setter with
    | some s => s.words.map .word ++ [mark ";"]
    | none => [])

/-- The lexemes after the name of a property. -/
def PropertyDecl.tail (p : PropertyDecl) : List Lexeme :=
  match p.body with
  | .auto setter => grouped .brace (accessorSpelling setter) ++ (match p.initializer with
    | some code => mark "=" :: (lexemes code ++ [mark ";"])
    | none => [])
  | .expression code => mark "=>" :: (lexemes code ++ [mark ";"])

/-- The lexemes of a property. -/
def PropertyDecl.spelling (p : PropertyDecl) : List Lexeme :=
  attributeSpelling p.attributes ++ (p.modifiers.spelling ++ (lexemes p.type.text
    ++ (.name (Name.unescape p.name) :: p.tail)))

/-- A property whose parts are what they stand for. -/
structure PropertyDecl.WellFormed (p : PropertyDecl) : Prop where
  attributes : ∀ a ∈ p.attributes, a.WellFormed
  type : p.type.WellFormed
  modifiers : p.modifiers.StandBefore (lexemes p.type.text)
  name : Name.IsWritten p.name
  body : ∀ s, p.body = .expression s → IsExpression [";"] s
  initializer : ∀ s ∈ p.initializer, IsExpression [";"] s

/-- The word of a constructor that runs first, and its arguments. -/
def Delegation.parts : Delegation → String × List String
  | base arguments => ("base", arguments)
  | this arguments => ("this", arguments)

/-- The lexemes of the call of a constructor that runs first. -/
def Delegation.spelling (d : Delegation) : List Lexeme :=
  mark ":" :: .word d.parts.1 :: grouped .paren (listSpelling d.parts.2)

/-- The lexemes of a constructor. -/
def ConstructorDecl.spelling (c : ConstructorDecl) : List Lexeme :=
  attributeSpelling c.attributes ++ (c.modifiers.spelling ++ (.name c.name
    :: (parameterSpelling c.parameters ++ ((c.delegation.map (·.spelling)).getD []
      ++ grouped .brace (c.body.flatMap lexemes)))))

/-- A constructor of the type `owner` whose parts are what they stand for. -/
structure ConstructorDecl.WellFormed (owner : String) (c : ConstructorDecl) : Prop where
  attributes : ∀ a ∈ c.attributes, a.WellFormed
  name : c.name = owner
  parameters : ∀ p ∈ c.parameters, p.WellFormed
  delegation : ∀ d ∈ c.delegation, ∀ s ∈ d.parts.2, IsCode s
  body : IsBody c.body

/-- The lexemes of type parameters. -/
def typeParameterSpelling (names : List String) : List Lexeme :=
  if names.isEmpty then [] else angles (commaSeparated (names.map ([.name ·])))

/-- The lexemes of the body of a method. -/
def MethodBody.spelling : MethodBody → List Lexeme
  | block lines => grouped .brace (lines.flatMap lexemes)
  | expression code => mark "=>" :: (lexemes code ++ [mark ";"])
  | absent => [mark ";"]

/-- A body that can be the body of a method. -/
def MethodBody.WellFormed : MethodBody → Prop
  | block lines => IsBody lines
  | expression code => IsExpression [";"] code
  | absent => True

/-- The lexemes of a method. -/
def MethodDecl.spelling (m : MethodDecl) : List Lexeme :=
  attributeSpelling m.attributes ++ (m.modifiers.spelling ++ (lexemes m.result.text
    ++ (.name m.name :: (typeParameterSpelling m.typeParameters
      ++ (parameterSpelling m.parameters ++ m.body.spelling)))))

/-- A method whose parts are what they stand for. -/
structure MethodDecl.WellFormed (m : MethodDecl) : Prop where
  attributes : ∀ a ∈ m.attributes, a.WellFormed
  result : m.result.WellFormed
  modifiers : m.modifiers.StandBefore (lexemes m.result.text)
  name : Name.IsPlain m.name
  typeParameters : ∀ n ∈ m.typeParameters, Name.IsPlain n
  parameters : ∀ p ∈ m.parameters, p.WellFormed
  body : m.body.WellFormed

namespace Member

/-- The lexemes of a member. -/
def spelling : Member → List Lexeme
  | field d => d.spelling
  | constructor c => c.spelling
  | property p => p.spelling
  | method m => m.spelling

/-- A member of the type `owner` whose parts are what they stand for. -/
def WellFormed (owner : String) : Member → Prop
  | field d => d.WellFormed
  | constructor c => c.WellFormed owner
  | property p => p.WellFormed
  | method m => m.WellFormed

end Member

/-! ### Types and files -/

/-- The lexemes of base types. -/
def baseSpelling (bases : List TypeName) : List Lexeme :=
  if bases.isEmpty then [] else mark ":" :: listSpelling (bases.map (·.text))

/-- The lexemes of the parameters and base types of a type. -/
def TypeDecl.tail (t : TypeDecl) : List Lexeme :=
  (t.parameters.map parameterSpelling).getD [] ++ baseSpelling t.bases

/-- The lexemes of the body of a type. -/
def TypeBody.spelling : TypeBody → List Lexeme
  | terminated => [mark ";"]
  | braced members => grouped .brace (members.flatMap (·.spelling))

/-- The lexemes of a type. -/
def TypeDecl.spelling (t : TypeDecl) : List Lexeme :=
  attributeSpelling t.attributes ++ (t.modifiers.spelling ++ (.word t.kind.keyword
    :: .name t.name :: (t.tail ++ t.body.spelling)))

/-- A type whose parts are what they stand for. -/
structure TypeDecl.WellFormed (t : TypeDecl) : Prop where
  attributes : ∀ a ∈ t.attributes, a.WellFormed
  name : Name.IsPlain t.name
  parameters : ∀ ps ∈ t.parameters, ∀ p ∈ ps, p.WellFormed
  bases : ∀ b ∈ t.bases, b.WellFormed
  members : ∀ m ∈ t.members, m.WellFormed t.name

/-- A type that is well formed whatever its name is, its base types being passed in its
head. -/
structure TypeDecl.Shaped (t : TypeDecl) : Prop where
  attributes : ∀ a ∈ t.attributes, a.WellFormed
  parameters : ∀ ps ∈ t.parameters, ∀ p ∈ ps, p.WellFormed
  bases : ∀ b ∈ t.bases, IsExpression headStops b.text
  members : ∀ m ∈ t.members, m.WellFormed t.name

theorem TypeDecl.WellFormed.shaped {t : TypeDecl} (h : t.WellFormed) : t.Shaped where
  attributes := h.attributes
  parameters := h.parameters
  bases b hb := ⟨(h.bases b hb).1, (h.bases b hb).2.expression⟩
  members := h.members

/-- The lexemes of a namespace. -/
def NamespaceDecl.spelling (n : NamespaceDecl) : List Lexeme :=
  .word "namespace" :: (lexemes n.name ++ (match n.form with
    | .block => grouped .brace (n.members.flatMap (·.spelling))
    | .fileScoped => mark ";" :: n.members.flatMap (·.spelling)))

/-- The lexemes of a namespace around lexemes. -/
def namespaceSpelling (name : String) (form : NamespaceForm) (ls : List Lexeme) : List Lexeme :=
  .word "namespace" :: (lexemes name ++ (match form with
    | .block => grouped .brace ls
    | .fileScoped => mark ";" :: ls))

theorem NamespaceDecl.spelling_eq (n : NamespaceDecl) :
    n.spelling = namespaceSpelling n.name n.form (n.members.flatMap (·.spelling)) := by
  obtain ⟨name, form, members⟩ := n
  cases form <;> rfl

/-- The lexemes of a using. -/
def usingSpelling (name : String) : List Lexeme := .word "using" :: (lexemes name ++ [mark ";"])

/-- The lexemes of what stands at the top level. -/
def TopLevel.spelling : TopLevel → List Lexeme
  | namespaceDecl n => n.spelling
  | typeDecl t => t.spelling

/-- A top-level item whose parts are what they stand for. -/
def TopLevel.WellFormed : TopLevel → Prop
  | namespaceDecl n => Name.IsDotted n.name ∧ ∀ t ∈ n.members, t.WellFormed
  | typeDecl t => t.WellFormed

/-- The lexemes of a source file. -/
def CompilationUnit.spelling (u : CompilationUnit) : List Lexeme :=
  u.usings.flatMap usingSpelling ++ u.members.flatMap (·.spelling)

/-- A source file whose parts are what they stand for. -/
structure CompilationUnit.WellFormed (u : CompilationUnit) : Prop where
  usings : ∀ name ∈ u.usings, Name.IsDotted name
  members : ∀ m ∈ u.members, m.WellFormed

end Tree
end Outline
