/-
# Reading values by shape

How records, lists and choices are read from a value; `none` says that the value
does not have the shape that is asked for.

| shape | read from |
| --- | --- |
| record | an object by names, other names being ignored, or an array by places |
| list | an array |
| choice | a name, or an object with that name as its only field |

A record names none of its fields twice.  Texts of different forms differ in what
stands for nothing, in what may be ignored, and in whether the array of a record may
be too long.
-/

import Outline.Json.Basic

namespace Outline
namespace Json

/-- The truth value that a value is. -/
def asBool : Json → Option Bool
  | bool b => some b
  | _ => none

/-- The text that a value is. -/
def asString : Json → Option String
  | string s => some s
  | _ => none

/-- The natural number that a value is. -/
def asNatural : Json → Option Nat
  | natural n => some n
  | _ => none

/-- The natural number up to `bound` that a value is. -/
def asNaturalUpTo (bound : Nat) (v : Json) : Option Nat :=
  v.asNatural.bind fun n => if n ≤ bound then some n else none

/-- The items that an array holds, read one by one. -/
def asList {α : Type} (item : Json → Option α) : Json → Option (List α)
  | array vs => vs.mapM item
  | _ => none

/-- What depends on the form of the text that a value comes from. -/
structure Form where
  /-- Whether an array may hold more than the fields of a record. -/
  allowsMore : Bool
  /-- Whether a value may be the content of a choice without content. -/
  isNothing : Json → Bool
  /-- Whether a value may stand under a name that is ignored. -/
  mayIgnore : Json → Bool

/-- The form of JSON texts. -/
def plainForm : Form where
  allowsMore := false
  isNothing
    | null => true
    | _ => false
  mayIgnore _ := true

/-- The values of the named fields. -/
abbrev Record := String → Option Json

/-- The fields of a record with the given names, which stand for the places when
the record is an array. -/
def asRecord (form : Form) (names : List String) : Json → Option Record
  | object fields =>
    if (names.all fun name => fields.countP (·.1 == name) ≤ 1)
        && fields.all (fun f => names.contains f.1 || form.mayIgnore f.2) then
      some fun name => fields.lookup name
    else none
  | array items =>
    if form.allowsMore || items.length ≤ names.length then
      some fun name => (names.zip items).lookup name
    else none
  | _ => none

/-- A field that may be missing, but not of another shape. -/
def Record.optional {α : Type} (r : Record) (name : String) (fallback : α)
    (read : Json → Option α) : Option α :=
  match r name with
  | some v => read v
  | none => some fallback

/-- A field that has to be there. -/
def Record.required {α : Type} (r : Record) (name : String) (read : Json → Option α) : Option α :=
  (r name).bind read

/-- A field that may be missing or null. -/
def Record.nullable {α : Type} (r : Record) (name : String) (read : Json → Option α) :
    Option (Option α) :=
  match r name with
  | some .null | none => some none
  | some v => (read v).map some

/-- The name and the content of a choice; a bare name has no content. -/
def asChoice : Json → Option (String × Option Json)
  | string s => some (s, none)
  | object [(name, v)] => some (name, some v)
  | _ => none

/-- The name of a choice that has no content. -/
def asBareName (form : Form) (v : Json) : Option String :=
  match v.asChoice with
  | some (name, none) => some name
  | some (name, some content) => if form.isNothing content then some name else none
  | none => none

/-- A choice without content: one of the given names. -/
def asName {α : Type} (form : Form) (names : List (String × α)) (v : Json) : Option α :=
  (v.asBareName form).bind fun name => names.lookup name

end Json
end Outline
