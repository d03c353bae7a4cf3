/-
# Module manifests

A module as a value with named fields.

| module | type | member |
| --- | --- | --- |
| `name` | `namespace`, unless there is none | `kind` |
| `languageVersion` | `name` | `name` |
| `outputKind` | `arity`, unless zero | `is_static`, unless false |
| `optimization` | `kind` | |
| `overflowChecks` | `partial`, unless false | |
| `usings` | `members`, unless there are none | |
| `references` | `nested`, unless there are none | |
| `types` | | |

What is left out when a module is written may be missing when it is read, and
everything else has to be there.  Where a type stood in its source is not kept.
Reading goes down `maxLevels` levels of lists and records.
-/

import Outline.Config.Shape
import Outline.Module.Basic

namespace Outline

/-- The levels of lists and records that are read, from the module itself down. -/
def maxLevels : Nat := 127

/-- A field that is left out under a condition. -/
def fieldUnless (b : Bool) (name : String) (v : Json) : List (String × Json) :=
  if b then [] else [(name, v)]

/-- The spelling of a value among the spellings of all values. -/
def spelling {α : Type} [BEq α] (names : List (String × α)) (a : α) : Json :=
  .string (((names.find? (·.2 == a)).map (·.1)).getD "")

namespace MemberSymbol

/-- A member as a value. -/
def manifest (s : MemberSymbol) : Json :=
  .object ([("kind", .string s.kind.tag), ("name", .string s.name)]
    ++ fieldUnless (!s.isStatic) "is_static" (.bool s.isStatic))

end MemberSymbol

namespace TypeSymbol

mutual

/-- A type as a value. -/
def manifest (t : TypeSymbol Nat) : Json :=
  match t with
  | ⟨namespaceName, name, arity, kind, isPartial, members, nested, _⟩ =>
    .object ((match namespaceName with
        | some n => [("namespace", .string n)]
        | none => [])
      ++ [("name", .string name)]
      ++ fieldUnless (arity == 0) "arity" (.natural arity)
      ++ [("kind", .string kind.tag)]
      ++ fieldUnless (!isPartial) "partial" (.bool isPartial)
      ++ fieldUnless members.isEmpty "members" (.array (members.map (·.manifest)))
      ++ fieldUnless nested.isEmpty "nested" (.array (manifests nested)))

/-- Types as values. -/
def manifests : List (TypeSymbol Nat) → List Json
  | [] => []
  | t :: ts => manifest t :: manifests ts

end

end TypeSymbol

/-- A module as a value. -/
def Module.manifest (m : Module) : Json := .object [
  ("name", .string m.name),
  ("languageVersion", .string m.version.number),
  ("outputKind", spelling Config.outputKinds m.outputKind),
  ("optimization", spelling Config.optimizations m.optimization),
  ("overflowChecks", .bool m.overflowChecks),
  ("usings", .array (m.usings.map .string)),
  ("references", .array (m.references.map .string)),
  ("types", .array (m.types.map (·.manifest)))]

namespace Manifest

/-- A choice among names, which takes a level if it is a record. -/
def name {α : Type} (levels : Nat) (names : List (String × α)) (v : Json) : Option α :=
  match levels, v with
  | 0, .object _ => none
  | _, v => v.asName Json.plainForm names

/-- A list, which takes a level. -/
def list {α : Type} (levels : Nat) (item : Nat → Json → Option α) (v : Json) : Option (List α) :=
  match levels with
  | 0 => none
  | rest + 1 => v.asList (item rest)

/-- The kinds of members by their spellings. -/
def memberKinds : List (String × MemberKind) := MemberKind.all.map fun k => (k.tag, k)

/-- The kinds of types by their spellings. -/
def typeKinds : List (String × TypeKind) := TypeKind.all.map fun k => (k.tag, k)

/-- Reads a member; `levels` are left for it and what it holds. -/
def memberSymbol (levels : Nat) (v : Json) : Option MemberSymbol :=
  match levels with
  | 0 => none
  | rest + 1 => do
    let r ← v.asRecord Json.plainForm ["kind", "name", "is_static"]
    return {
      kind := ← r.required "kind" (name rest memberKinds)
      name := ← r.required "name" Json.asString
      isStatic := ← r.optional "is_static" false Json.asBool }

/-- The names of the fields of a type, in their order. -/
def typeNames : List String :=
  ["namespace", "name", "arity", "kind", "partial", "members", "nested"]

/-- Reads a type; `levels` are left for it and what it holds. -/
def typeSymbol (levels : Nat) (v : Json) : Option (TypeSymbol Nat) :=
  match levels with
  | 0 => none
  | rest + 1 => do
    let r ← v.asRecord Json.plainForm typeNames
    return {
      namespaceName := ← r.nullable "namespace" Json.asString
      name := ← r.required "name" Json.asString
      arity := ← r.optional "arity" 0 Json.asNatural
      kind := ← r.required "kind" (name rest typeKinds)
      isPartial := ← r.optional "partial" false Json.asBool
      members := ← r.optional "members" [] (list rest memberSymbol)
      nested := ← r.optional "nested" [] fun v => match rest with
        | 0 => none
        | inner + 1 => v.asList (typeSymbol inner)
      place := 0 }

/-- The names of the fields of a module, in their order. -/
def moduleNames : List String := [
  "name", "languageVersion", "outputKind", "optimization", "overflowChecks", "usings",
  "references", "types"]

/-- Reads a module; `levels` are left for it and what it holds. -/
def module (levels : Nat) (v : Json) : Option Module :=
  match levels with
  | 0 => none
  | rest + 1 => do
    let r ← v.asRecord Json.plainForm moduleNames
    return {
      name := ← r.required "name" Json.asString
      version := ← r.required "languageVersion" Config.version
      outputKind := ← r.required "outputKind" (name rest Config.outputKinds)
      optimization := ← r.required "optimization" (name rest Config.optimizations)
      overflowChecks := ← r.required "overflowChecks" Json.asBool
      usings := ← r.required "usings" (list rest fun _ => Json.asString)
      references := ← r.required "references" (list rest fun _ => Json.asString)
      types := ← r.required "types" (list rest typeSymbol) }

end Manifest
end Outline
