/-
# Modifiers

The words that stand before a declaration.  A declaration holds a *set* of them,
kept in the one order in which they are written:

`public private protected internal file new static extern virtual abstract sealed
override const readonly unsafe required volatile async partial`
-/

namespace Outline
namespace Tree

/-- A modifier of a declaration. -/
inductive Modifier
  | pub | priv | prot | intern | file | new | static | external | virtual | abstract
  | sealed | override | const | readonly | unsafeCode | required | volatile | async | part
  deriving DecidableEq, Repr

namespace Modifier

/-- The word that stands for the modifier. -/
def keyword : Modifier → String
  | pub => "public"
  | priv => "private"
  | prot => "protected"
  | intern => "internal"
  | file => "file"
  | new => "new"
  | static => "static"
  | external => "extern"
  | virtual => "virtual"
  | abstract => "abstract"
  | sealed => "sealed"
  | override => "override"
  | const => "const"
  | readonly => "readonly"
  | unsafeCode => "unsafe"
  | required => "required"
  | volatile => "volatile"
  | async => "async"
  | part => "partial"

/-- All modifiers, in the order in which they are written. -/
def all : List Modifier := [
  pub, priv, prot, intern, file, new, static, external, virtual, abstract,
  sealed, override, const, readonly, unsafeCode, required, volatile, async, part]

theorem mem_all (m : Modifier) : m ∈ all := by cases m <;> decide

/-- The modifier written as `s`, if there is one. -/
def ofKeyword? (s : String) : Option Modifier := all.find? (·.keyword == s)

/-- The place of a modifier in the order of writing. -/
def rank (m : Modifier) : Nat := all.idxOf m

end Modifier

/-- A set of modifiers, listed in the order of writing. -/
structure Modifiers where
  toList : List Modifier
  ordered : toList.Pairwise (·.rank < ·.rank) := by decide
  deriving DecidableEq, Repr

namespace Modifiers

/-- The set without members. -/
def empty : Modifiers := ⟨[], .nil⟩

/-- The set of the listed modifiers; order and repetitions do not matter. -/
def ofList (ms : List Modifier) : Modifiers where
  toList := Modifier.all.filter (ms.contains ·)
  ordered := List.Pairwise.filter _ (by decide)

/-- Whether the set has the modifier. -/
def contains (s : Modifiers) (m : Modifier) : Bool := s.toList.contains m

/-- Whether the set has no modifier. -/
def isEmpty (s : Modifiers) : Bool := s.toList.isEmpty

/-- The words of the set, with one space between two of them. -/
def text (s : Modifiers) : String := " ".intercalate (s.toList.map (·.keyword))

/-- The words of the set as the start of a declaration: a space follows each. -/
def lead (s : Modifiers) : String := String.join (s.toList.map (·.keyword ++ " "))

end Modifiers
end Tree
end Outline
