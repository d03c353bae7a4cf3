/-
# Symbols

What a source declares: types with their members and nested types.  A type also
has a place, which is a token edge while parsing and a byte offset afterwards.

A type is called by its namespace, its name and, if it is generic, the number of
its type parameters: `` N.Box`1 ``.
-/

namespace Outline

/-- The kinds of declared types. -/
inductive TypeKind
  | cls | struct | interface | enum | record | recordStruct | delegate
  deriving DecidableEq, Repr

namespace TypeKind

/-- The words that declare a type of the kind. -/
def keyword : TypeKind → String
  | cls => "class"
  | struct => "struct"
  | interface => "interface"
  | enum => "enum"
  | record => "record"
  | recordStruct => "record struct"
  | delegate => "delegate"

/-- The name of the kind in a module image. -/
def tag : TypeKind → String
  | cls => "class"
  | struct => "struct"
  | interface => "interface"
  | enum => "enum"
  | record => "record"
  | recordStruct => "record-struct"
  | delegate => "delegate"

/-- All kinds of types. -/
def all : List TypeKind := [cls, struct, interface, enum, record, recordStruct, delegate]

end TypeKind

/-- The kinds of declared members. -/
inductive MemberKind
  | field | property | method | constructor | destructor | event | indexer | operator | enumMember
  deriving DecidableEq, Repr

namespace MemberKind

/-- The name of the kind in a module image. -/
def tag : MemberKind → String
  | field => "field"
  | property => "property"
  | method => "method"
  | constructor => "constructor"
  | destructor => "destructor"
  | event => "event"
  | indexer => "indexer"
  | operator => "operator"
  | enumMember => "enum-member"

/-- All kinds of members. -/
def all : List MemberKind :=
  [field, property, method, constructor, destructor, event, indexer, operator, enumMember]

end MemberKind

/-- A declared member. -/
structure MemberSymbol where
  kind : MemberKind
  name : String
  isStatic : Bool
  deriving DecidableEq, Repr

/-- A declared type; a nested one has no namespace. -/
structure TypeSymbol (P : Type) where
  namespaceName : Option String
  name : String
  arity : Nat
  kind : TypeKind
  isPartial : Bool
  members : List MemberSymbol
  nested : List (TypeSymbol P)
  place : P
  deriving Repr, BEq

namespace TypeSymbol

variable {P Q : Type}

/-- The name that the type is called by. -/
def fullName (t : TypeSymbol P) : String :=
  (match t.namespaceName with
    | some n => n ++ "." ++ t.name
    | none => t.name)
  ++ if t.arity = 0 then "" else "`" ++ toString t.arity

mutual

/-- The type with its places, and those of the types nested in it, mapped. -/
def map (f : P → Q) (t : TypeSymbol P) : TypeSymbol Q :=
  match t with
  | ⟨namespaceName, name, arity, kind, isPartial, members, nested, place⟩ =>
    ⟨namespaceName, name, arity, kind, isPartial, members, mapAll f nested, f place⟩

/-- Types with their places mapped. -/
def mapAll (f : P → Q) : List (TypeSymbol P) → List (TypeSymbol Q)
  | [] => []
  | t :: ts => map f t :: mapAll f ts

end

theorem mapAll_eq_map (f : P → Q) (ts : List (TypeSymbol P)) : mapAll f ts = ts.map (map f) := by
  induction ts with
  | nil => rfl
  | cons t ts ih => rw [mapAll, ih, List.map_cons]

/-! A type with its places mapped is the same in all else. -/

theorem namespaceName_map (f : P → Q) (t : TypeSymbol P) :
    (t.map f).namespaceName = t.namespaceName := by
  cases t
  rw [map]

theorem name_map (f : P → Q) (t : TypeSymbol P) : (t.map f).name = t.name := by
  cases t
  rw [map]

theorem kind_map (f : P → Q) (t : TypeSymbol P) : (t.map f).kind = t.kind := by
  cases t
  rw [map]

theorem members_map (f : P → Q) (t : TypeSymbol P) : (t.map f).members = t.members := by
  cases t
  rw [map]

theorem nested_map (f : P → Q) (t : TypeSymbol P) : (t.map f).nested = t.nested.map (map f) := by
  cases t
  rw [map, mapAll_eq_map]

theorem place_map (f : P → Q) (t : TypeSymbol P) : (t.map f).place = f t.place := by
  cases t
  rw [map]

mutual

theorem map_map {R : Type} (f : P → Q) (g : Q → R) :
    ∀ t : TypeSymbol P, (t.map f).map g = t.map fun p => g (f p)
  | ⟨_, _, _, _, _, _, nested, _⟩ => by
    rw [map, map, map, mapAll_mapAll f g nested]

theorem mapAll_mapAll {R : Type} (f : P → Q) (g : Q → R) :
    ∀ ts : List (TypeSymbol P), mapAll g (mapAll f ts) = mapAll (fun p => g (f p)) ts
  | [] => rfl
  | t :: ts => by rw [mapAll, mapAll, mapAll, map_map f g t, mapAll_mapAll f g ts]

end

/-- The type without its place, and without those of the types nested in it. -/
def unplaced (t : TypeSymbol P) : TypeSymbol Unit := t.map fun _ => ()

/-- A type keeps all but its places wherever it is moved. -/
theorem unplaced_map (f : P → Q) (t : TypeSymbol P) : (t.map f).unplaced = t.unplaced :=
  map_map f _ t

mutual

/-- Whether the type, or a type nested in it, has a method of this name. -/
def hasMethod (name : String) (t : TypeSymbol P) : Bool :=
  match t with
  | ⟨_, _, _, _, _, members, nested, _⟩ =>
    members.any (fun m => m.kind == .method && m.name == name) || anyHasMethod name nested

/-- Whether one of the types has a method of this name. -/
def anyHasMethod (name : String) : List (TypeSymbol P) → Bool
  | [] => false
  | t :: ts => hasMethod name t || anyHasMethod name ts

end

end TypeSymbol
end Outline
