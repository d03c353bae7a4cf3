/-
# Forests of declarations

Declarations without anything that is skipped: namespaces with blocks, types that nest at
any depth and their members.  A tree is a declaration by its construction, and it says with
which lexemes it is written and which symbols it declares.

| tree | written as |
| --- | --- |
| class, struct, interface, record | `partial class A<T> { … }` |
| enum | `partial enum A { B, C }` |
| delegate | `delegate T A<U>(V v);` |
| fields | `T a, b;` |
| property | `T A { get; set; }` |
| method | `T A<U>(V v) { }` |
| namespace | `namespace A.B { … }` |
-/

import Outline.Proofs.Layout.Spelling

namespace Outline
namespace Forest

open Outline.Parser (builtinTypes grouped modifierWords)
open Lexer (commaSeparated dotted)
open Lexeme (mark)

/-! ### Names and types -/

/-- The names that have a meaning of their own in front of another name. -/
def contextualWords : List String := "record" :: modifierWords

/-- A name that is always a name. -/
structure FreeName where
  text : String
  isPlain : Name.IsPlain text := by decide +kernel
  isFree : text ∉ contextualWords := by decide +kernel

/-- The lexeme of a name. -/
def FreeName.lexeme (n : FreeName) : Lexeme := .name n.text

/-- A type: a built-in one or one with a name. -/
inductive TypeRef
  | builtin (word : String) (h : word ∈ builtinTypes)
  | named (name : FreeName)

/-- The lexeme of a type. -/
def TypeRef.lexeme : TypeRef → Lexeme
  | builtin word _ => .word word
  | named name => name.lexeme

/-- A parameter of a method or a delegate. -/
structure ParameterTree where
  type : TypeRef
  name : FreeName

/-- The lexemes of a parameter. -/
def ParameterTree.spelling (p : ParameterTree) : List Lexeme := [p.type.lexeme, p.name.lexeme]

/-! ### Trees -/

/-- The kinds of types that hold members. -/
inductive ClassKind
  | cls | struct | interface | record | recordStruct
  deriving DecidableEq, Repr

namespace ClassKind

/-- The words that declare a type of the kind. -/
def words : ClassKind → List String
  | cls => ["class"]
  | struct => ["struct"]
  | interface => ["interface"]
  | record => ["record"]
  | recordStruct => ["record", "struct"]

/-- The kind of the symbol of a type. -/
def symbolKind : ClassKind → TypeKind
  | cls => .cls
  | struct => .struct
  | interface => .interface
  | record => .record
  | recordStruct => .recordStruct

end ClassKind

mutual

/-- The declaration of a type. -/
inductive TypeTree
  | classLike (isPartial : Bool) (kind : ClassKind) (name : FreeName)
      (typeParameters : List FreeName) (members : List MemberTree)
  | enum (isPartial : Bool) (name : FreeName) (members : List FreeName)
  | delegate (result : TypeRef) (name : FreeName) (typeParameters : List FreeName)
      (parameters : List ParameterTree)

/-- What is declared in the braces of a type. -/
inductive MemberTree
  | nested (t : TypeTree)
  | fields (type : TypeRef) (first : FreeName) (more : List FreeName)
  | property (type : TypeRef) (name : FreeName)
  | method (result : TypeRef) (name : FreeName) (typeParameters : List FreeName)
      (parameters : List ParameterTree)

end

/-- What is declared at the top level or in a namespace. -/
inductive ItemTree
  | type (t : TypeTree)
  | namespace (first : FreeName) (more : List FreeName) (items : List ItemTree)

/-! ### Spelling -/

/-- The lexemes of the one modifier. -/
def partialSpelling (isPartial : Bool) : List Lexeme :=
  if isPartial then [.word "partial"] else []

/-- The lexemes of type parameters, none for an empty list. -/
def typeParameterSpelling (names : List FreeName) : List Lexeme :=
  Tree.typeParameterSpelling (names.map (·.text))

/-- The lexemes of parameters. -/
def parameterSpelling (ps : List ParameterTree) : List Lexeme :=
  grouped .paren (commaSeparated (ps.map (·.spelling)))

mutual

/-- The lexemes of a type. -/
def TypeTree.spelling : TypeTree → List Lexeme
  | .classLike isPartial kind name typeParameters members =>
    partialSpelling isPartial ++ (kind.words.map .word ++ name.lexeme ::
      (typeParameterSpelling typeParameters ++ grouped .brace (MemberTree.spellAll members)))
  | .enum isPartial name members =>
    partialSpelling isPartial ++ (.word "enum" :: name.lexeme ::
      grouped .brace (commaSeparated (members.map ([·.lexeme]))))
  | .delegate result name typeParameters parameters =>
    .word "delegate" :: result.lexeme :: name.lexeme ::
      (typeParameterSpelling typeParameters ++ (parameterSpelling parameters ++ [mark ";"]))

/-- The lexemes of a member. -/
def MemberTree.spelling : MemberTree → List Lexeme
  | .nested t => t.spelling
  | .fields type first more =>
    type.lexeme :: (commaSeparated ((first :: more).map ([·.lexeme])) ++ [mark ";"])
  | .property type name =>
    type.lexeme :: name.lexeme :: grouped .brace (Tree.accessorSpelling (some .set))
  | .method result name typeParameters parameters =>
    result.lexeme :: name.lexeme ::
      (typeParameterSpelling typeParameters ++ (parameterSpelling parameters ++ grouped .brace []))

/-- The lexemes of members, one after the other. -/
def MemberTree.spellAll : List MemberTree → List Lexeme
  | [] => []
  | m :: ms => m.spelling ++ MemberTree.spellAll ms

end

mutual

/-- The lexemes of an item. -/
def ItemTree.spelling : ItemTree → List Lexeme
  | .type t => t.spelling
  | .namespace first more items =>
    .word "namespace" :: (dotted ((first :: more).map (·.text))
      ++ grouped .brace (ItemTree.spellAll items))

/-- The lexemes of items, one after the other. -/
def ItemTree.spellAll : List ItemTree → List Lexeme
  | [] => []
  | i :: is => i.spelling ++ ItemTree.spellAll is

end

/-! ### Symbols -/

/-- The members that a declaration in the braces of a type stands for. -/
def MemberTree.members : MemberTree → List MemberSymbol
  | .nested _ => []
  | .fields _ first more => (first :: more).map (⟨.field, ·.text, false⟩)
  | .property _ name => [⟨.property, name.text, false⟩]
  | .method _ name _ _ => [⟨.method, name.text, false⟩]

mutual

/-- The symbol of a type that is declared in a namespace. -/
def TypeTree.symbol (namespaceName : Option String) : TypeTree → TypeSymbol Unit
  | .classLike isPartial kind name typeParameters members =>
    { namespaceName, isPartial
      name := name.text
      arity := typeParameters.length
      kind := kind.symbolKind
      members := members.flatMap (·.members)
      nested := MemberTree.nestedAll members
      place := () }
  | .enum isPartial name members =>
    { namespaceName, isPartial
      name := name.text
      arity := 0
      kind := .enum
      members := members.map (⟨.enumMember, ·.text, true⟩)
      nested := []
      place := () }
  | .delegate _ name typeParameters _ =>
    { namespaceName
      name := name.text
      arity := typeParameters.length
      kind := .delegate
      isPartial := false
      members := []
      nested := []
      place := () }

/-- The symbols of the types among declarations in the braces of a type; they have no
namespace. -/
def MemberTree.nestedAll : List MemberTree → List (TypeSymbol Unit)
  | [] => []
  | .nested t :: ms => t.symbol none :: MemberTree.nestedAll ms
  | _ :: ms => MemberTree.nestedAll ms

end

/-- The name of the namespaces that are open, from the outermost on; there is none at the
top level. -/
def pathName : List String → Option String
  | [] => none
  | path => some (".".intercalate path)

mutual

/-- The symbols of the types of an item, `path` being the namespaces around it. -/
def ItemTree.symbols (path : List String) : ItemTree → List (TypeSymbol Unit)
  | .type t => [t.symbol (pathName path)]
  | .namespace first more items => ItemTree.allSymbols (path ++ (first :: more).map (·.text)) items

/-- The symbols of the types of items, in the order of writing. -/
def ItemTree.allSymbols (path : List String) : List ItemTree → List (TypeSymbol Unit)
  | [] => []
  | i :: is => i.symbols path ++ ItemTree.allSymbols path is

end

end Forest
end Outline
