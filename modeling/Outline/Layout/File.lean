/-
# Saving code

A compilation unit is saved as its layout.  One that is generated into a folder
says so in its first line and is written again each time.
-/

import Outline.Files.Rules
import Outline.Layout.Declaration

namespace Outline
namespace Layout

variable {m : Type → Type} [Monad m]

/-- Saves a compilation unit in a file. -/
def saveUnit (disk : Disk m) (f : Format) (u : Tree.CompilationUnit) (p : Path) :
    m (Except Files.WriteError Files.Outcome) :=
  Files.saveBy disk {} p (render f u)

/-- Saves a generated compilation unit at a path in a folder. -/
def saveGenerated (disk : Disk m) (f : Format) (u : Tree.CompilationUnit) (folder relative : Path) :
    m (Except Files.WriteError Files.Outcome) :=
  Files.saveBy disk .generated (folder.join relative) (render f u)

end Layout
end Outline
