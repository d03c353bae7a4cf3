/-
# Checks across sources

| code | what is wrong |
| --- | --- |
| CS0101 | a type is declared twice and its first declaration or this one is not partial |
| CS5001 | a program that is run has no method `Main` |

Types are told apart by their full names; one whose name is missing is passed
over.
-/

import Outline.Compilation.Basic

namespace Outline
namespace Compilation

/-- The diagnostic of a type that is declared again. -/
def duplicate (source : Source) (t : TypeSymbol Nat) : Diagnostic :=
  (Diagnostic.error "CS0101" ("The namespace '"
    ++ t.namespaceName.getD "<global namespace>"
    ++ "' already contains a definition for '" ++ t.name ++ "'")).at
    (source.location t.place t.name.utf8ByteSize)

/-- The diagnostics of types that are declared again; `seen` tells which names
were declared before, and whether their first declaration is partial. -/
def duplicates (seen : List (String × Bool)) : List (Source × TypeSymbol Nat) → List Diagnostic
  | [] => []
  | (source, t) :: rest =>
    if t.name = "" then duplicates seen rest
    else match seen.lookup t.fullName with
      | some isPartial =>
        if isPartial && t.isPartial then duplicates seen rest
        else duplicate source t :: duplicates seen rest
      | none => duplicates ((t.fullName, t.isPartial) :: seen) rest

/-- The diagnostic of a program that cannot be run. -/
def noEntryPoint : Diagnostic :=
  .error "CS5001"
    "Program does not contain a static 'Main' method suitable for an entry point"

/-- Whether a program is to be run and nothing can be run. -/
def lacksEntryPoint (c : Compilation) : Bool :=
  c.profile.outputKind == .console && !c.types.any (·.hasMethod "Main")

/-- What the checks across sources report. -/
def checks (c : Compilation) : List Diagnostic :=
  duplicates [] c.declarations ++ if c.lacksEntryPoint then [noEntryPoint] else []

end Compilation
end Outline
