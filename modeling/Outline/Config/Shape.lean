/-
# Settings as values

How profiles and formats are read from values with named fields.  Every field
may be missing and then keeps its default.

| profile | format |
| --- | --- |
| `language-version` | `new-lines-for-braces-in-types` |
| `overflow-checks` | `new-lines-for-braces-in-methods` |
| `optimization`: `debug`, `release` | `indentation`: `tab`, `spaces` with a width up to 255 |
| `output-kind`: `library`, `console` | `blank-line-between-members` |
| `usings`, `references` | |
| `anchors`, each with `type-name` and `library` | |
-/

import Outline.Json.Shape
import Outline.Layout.Format
import Outline.Profile

namespace Outline
namespace Config

variable (form : Json.Form)

/-- An indentation. -/
def indent (v : Json) : Option Layout.Indent :=
  match v.asChoice with
  | some ("spaces", some width) => (width.asNaturalUpTo 255).map .spaces
  | _ => if v.asBareName form = some "tab" then some .tab else none

/-- The names of the fields of a format, in their order. -/
def formatNames : List String := [
  "new-lines-for-braces-in-types", "new-lines-for-braces-in-methods", "indentation",
  "blank-line-between-members"]

/-- A format. -/
def format (v : Json) : Option Layout.Format := do
  let r ← v.asRecord form formatNames
  let d : Layout.Format := {}
  return {
    typeBraceOnNewLine :=
      ← r.optional "new-lines-for-braces-in-types" d.typeBraceOnNewLine Json.asBool
    methodBraceOnNewLine :=
      ← r.optional "new-lines-for-braces-in-methods" d.methodBraceOnNewLine Json.asBool
    indent := ← r.optional "indentation" d.indent (indent form)
    blankLineBetweenMembers :=
      ← r.optional "blank-line-between-members" d.blankLineBetweenMembers Json.asBool }

/-- A language version, written as a text. -/
def version (v : Json) : Option Language.Version :=
  v.asString.bind fun s => (Language.Version.parse s).toOption

/-- The spellings of the optimizations. -/
def optimizations : List (String × Optimization) := [("debug", .debug), ("release", .release)]

/-- The spellings of the kinds of output. -/
def outputKinds : List (String × OutputKind) := [("library", .library), ("console", .console)]

/-- An anchor; neither of its fields may be missing. -/
def anchor (v : Json) : Option Anchor := do
  let r ← v.asRecord form ["type-name", "library"]
  return {
    typeName := ← r.required "type-name" Json.asString
    library := ← r.required "library" Json.asString }

/-- The names of the fields of a profile, in their order. -/
def profileNames : List String := [
  "language-version", "overflow-checks", "optimization", "output-kind", "usings", "references",
  "anchors"]

/-- A profile. -/
def profile (v : Json) : Option Profile := do
  let r ← v.asRecord form profileNames
  let d : Profile := {}
  return {
    version := ← r.optional "language-version" d.version version
    overflowChecks := ← r.optional "overflow-checks" d.overflowChecks Json.asBool
    optimization := ← r.optional "optimization" d.optimization (Json.asName form optimizations)
    outputKind := ← r.optional "output-kind" d.outputKind (Json.asName form outputKinds)
    usings := ← r.optional "usings" d.usings (Json.asList Json.asString)
    references :=
      ← r.optional "references" d.references (Json.asList fun v => v.asString.map Path.mk)
    anchors := ← r.optional "anchors" d.anchors (Json.asList (anchor form)) }

end Config
end Outline
