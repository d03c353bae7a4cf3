/-
# References

The libraries that a module refers to: first those of its profile that are
there, then those that define its anchors, each of them once.

| finder | explicit library | library of an anchor |
| --- | --- | --- |
| by name | has to be on the disk | its file name, unseen |
| in a folder | has to be on the disk | the file of that name in the folder, if any |
-/

import Outline.Diagnostic
import Outline.Files.Disk
import Outline.Profile

namespace Outline

/-- Finds libraries. -/
structure Finder (m : Type → Type) where
  /-- Whether there is a library at a path. -/
  isPresent : Path → m Bool
  /-- The library that defines an anchor. -/
  find : Anchor → m (Option Path)

namespace Finder

variable {m : Type → Type} [Monad m]

/-- Takes the file name of an anchor's library for its path. -/
def byName (disk : Disk m) : Finder m where
  isPresent := disk.isPresent
  find a := return some ⟨a.fileName⟩

/-- Looks for the library of an anchor in a folder. -/
def inFolder (disk : Disk m) (folder : Path) : Finder m where
  isPresent := disk.isPresent
  find a := do
    let p := folder.join ⟨a.fileName⟩
    return if ← disk.isFile p then some p else none

end Finder

/-- The references that were found and what there is to report. -/
structure References where
  paths : List Path
  diagnostics : List Diagnostic
  deriving Repr

namespace References

/-- The paths without those that are the same as an earlier one. -/
def distinct : List Path → List Path
  | [] => []
  | p :: ps => p :: (distinct ps).filter (!p.same ·)

/-- The diagnostic of a library that is not there. -/
def missing (p : Path) : Diagnostic :=
  .error "CS0006" ("Metadata file '" ++ p.text ++ "' could not be found")

variable {m : Type → Type} [Monad m]

/-- The references of a profile. -/
def resolve (finder : Finder m) (explicit : List Path) (anchors : List Anchor) : m References := do
  let checked ← explicit.mapM fun p => return (p, ← finder.isPresent p)
  let found ← anchors.mapM finder.find
  return {
    paths := distinct ((checked.filter (·.2)).map (·.1) ++ found.filterMap id)
    diagnostics := (checked.filter (!·.2)).map fun c => missing c.1 }

end References
end Outline
