/-
# Language versions

The versions that code can be checked against, in order, and the features that
came with one of them.

| feature | since |
| --- | ---: |
| records | 9 |
| record structs, global usings, file-scoped namespaces | 10 |
| required members, file types | 11 |
| primary constructors, types without a body | 12 |

A version is written as a number, which may follow `csharp` or `CSharp` and may
end in `.0`; `latest` is the last one.
-/

import Outline.Character

namespace Outline
namespace Language

/-- A version of the language. -/
inductive Version
  | v6 | v7 | v7_3 | v8 | v9 | v10 | v11 | v12
  deriving DecidableEq, Repr

namespace Version

/-- The version number. -/
def number : Version → String
  | v6 => "6"
  | v7 => "7"
  | v7_3 => "7.3"
  | v8 => "8"
  | v9 => "9"
  | v10 => "10"
  | v11 => "11"
  | v12 => "12"

/-- The place of a version among all of them. -/
def rank : Version → Nat
  | v6 => 0
  | v7 => 1
  | v7_3 => 2
  | v8 => 3
  | v9 => 4
  | v10 => 5
  | v11 => 6
  | v12 => 7

instance : LE Version := ⟨fun v w => v.rank ≤ w.rank⟩
instance : LT Version := ⟨fun v w => v.rank < w.rank⟩
instance (v w : Version) : Decidable (v ≤ w) := inferInstanceAs (Decidable (v.rank ≤ w.rank))
instance (v w : Version) : Decidable (v < w) := inferInstanceAs (Decidable (v.rank < w.rank))

/-- The last version. -/
def latest : Version := v12

/-- The version as it is shown to a reader. -/
def display (v : Version) : String := "C# " ++ v.number

/-- What is left of the spelling of a version without `csharp` and `.0`. -/
def core (s : String) : String :=
  let t := trim s
  let t := ((t.dropPrefix? "csharp").or (t.dropPrefix? "CSharp")).elim t (·.toString)
  (t.dropSuffix? ".0").elim t (·.toString)

/-- The versions by the spellings that are left. -/
def spellings : List (String × Version) := [
  ("6", v6), ("7", v7), ("7.3", v7_3), ("7_3", v7_3), ("8", v8), ("9", v9), ("10", v10),
  ("11", v11), ("12", v12), ("latest", v12)]

/-- Reads a version; the error is the spelling that names none. -/
def parse (s : String) : Except String Version :=
  match spellings.lookup (core s) with
  | some v => .ok v
  | none => .error (core s)

/-- What is said of a spelling that names no version. -/
def unsupported (spelling : String) : String :=
  "unsupported language version '" ++ spelling ++ "'"

end Version

/-- A feature that older versions lack. -/
inductive Feature
  | records | recordStructs | globalUsings | fileScopedNamespaces
  | requiredMembers | fileTypes | primaryConstructors | bodilessTypes
  deriving DecidableEq, Repr

namespace Feature

/-- How the feature is called in messages. -/
def name : Feature → String
  | records => "records"
  | recordStructs => "record structs"
  | globalUsings => "global using directive"
  | fileScopedNamespaces => "file-scoped namespace"
  | requiredMembers => "required members"
  | fileTypes => "file types"
  | primaryConstructors => "primary constructors"
  | bodilessTypes => "type declarations without a body"

/-- The first version that has the feature. -/
def since : Feature → Version
  | records => .v9
  | recordStructs | globalUsings | fileScopedNamespaces => .v10
  | requiredMembers | fileTypes => .v11
  | primaryConstructors | bodilessTypes => .v12

end Feature

/-- Whether a version has a feature. -/
def Version.has (v : Version) (f : Feature) : Bool := f.since ≤ v

theorem Version.has_mono {v w : Version} {f : Feature} (h : v ≤ w) (hv : v.has f = true) :
    w.has f = true := by
  simp only [Version.has, decide_eq_true_eq] at hv ⊢
  exact Nat.le_trans hv h

end Language
end Outline
