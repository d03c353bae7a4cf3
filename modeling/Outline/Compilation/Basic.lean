/-
# Compilations

How far a set of sources has been compiled: the sources that are left, the trees
of those that were parsed, the references, the module if it was made, and all
that was reported on the way, oldest first.
-/

import Outline.Module.Basic
import Outline.Reference
import Outline.SyntaxTree

namespace Outline

/-- A set of sources on its way to a module. -/
structure Compilation where
  profile : Profile
  /-- The name of the module. -/
  name : String
  /-- The sources that are not parsed yet. -/
  sources : List String
  /-- Where the module goes, if it is kept. -/
  output : Option Path
  trees : List SyntaxTree := []
  references : List Path := []
  module : Option Module := none
  diagnostics : List Diagnostic := []
  deriving Repr, BEq

namespace Compilation

/-- The name of a module that goes to a path: its stem, or a stopgap. -/
def moduleName (output : Option Path) : String := (output.bind (·.stem?)).getD "temporary"

/-- A compilation that has not begun. -/
def start (profile : Profile) (sources : List String) (output : Option Path) : Compilation where
  profile := profile
  name := moduleName output
  sources := sources
  output := output

/-- Whether an error was reported. -/
def hasErrors (c : Compilation) : Bool := c.diagnostics.any (·.isError)

/-- The number of diagnostics of a severity. -/
def count (c : Compilation) (s : Severity) : Nat := c.diagnostics.countP (·.severity == s)

/-- The compilation with more to report. -/
def report (c : Compilation) (ds : List Diagnostic) : Compilation :=
  { c with diagnostics := c.diagnostics ++ ds }

/-- The declared types with the sources that they stand in, in the order of the
sources. -/
def declarations (c : Compilation) : List (Source × TypeSymbol Nat) :=
  c.trees.flatMap fun t => t.types.map (t.source, ·)

/-- The declared types. -/
def types (c : Compilation) : List (TypeSymbol Nat) := c.trees.flatMap (·.types)

theorem types_eq_map_declarations (c : Compilation) : c.types = c.declarations.map (·.2) := by
  simp [types, declarations, List.map_flatMap, Function.comp_def]

/-- A list without what occurred earlier in it. -/
def withoutRepeats : List String → List String
  | [] => []
  | s :: ss => s :: (withoutRepeats ss).filter (· ≠ s)

/-- The imported namespaces: those of the profile, then those of the sources. -/
def usings (c : Compilation) : List String :=
  withoutRepeats (c.profile.usings ++ c.trees.flatMap (·.usings))

/-- The module that the compilation describes as it stands. -/
def described (c : Compilation) : Module where
  name := c.name
  version := c.profile.version
  outputKind := c.profile.outputKind
  optimization := c.profile.optimization
  overflowChecks := c.profile.overflowChecks
  usings := c.usings
  references := c.references.map (·.text)
  types := c.types

end Compilation
end Outline
