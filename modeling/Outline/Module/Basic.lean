/-
# Modules

What a compilation leaves behind: the name of the module, how it was compiled,
what it imports and refers to, and the types that it declares.
-/

import Outline.Profile
import Outline.Symbol

namespace Outline

/-- A compiled module. -/
structure Module where
  name : String
  version : Language.Version
  outputKind : OutputKind
  optimization : Optimization
  overflowChecks : Bool
  usings : List String
  references : List String
  types : List (TypeSymbol Nat)
  deriving Repr, BEq

namespace Module

/-- The first declared type that is called by this name. -/
def findType (m : Module) (fullName : String) : Option (TypeSymbol Nat) :=
  m.types.find? (·.fullName = fullName)

/-- The module with the places of its types forgotten. -/
def withoutPlaces (m : Module) : Module :=
  { m with types := m.types.map (·.map fun _ => 0) }

end Module
end Outline
