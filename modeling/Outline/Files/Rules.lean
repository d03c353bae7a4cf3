/-
# Writing files by rules

A file that is written again each time is overwritten; one that is only started
here and kept by hand is left alone as soon as something stands at its path.  A
header is a line of its own before the content.

Folders that a file stands in are made first.  A failure names the path that
could not be written: the file or the folder.
-/

import Outline.Files.Disk

namespace Outline
namespace Files

/-- What becomes of something that stands at the path already. -/
inductive Overwrite
  | always | ifMissing
  deriving DecidableEq, Repr

/-- How a file is written. -/
structure Rules where
  overwrite : Overwrite := .always
  /-- A line before the content. -/
  header : Option String := none
  deriving DecidableEq, Repr

namespace Rules

/-- The rules for a file that nobody edits. -/
def generated : Rules := ⟨.always, some "// <auto-generated />"⟩

/-- A content with its header. -/
def withHeader (r : Rules) (content : String) : String :=
  match r.header with
  | some h => h ++ "\n" ++ content
  | none => content

end Rules

/-- Whether a file was written. -/
inductive Outcome
  | written | skipped
  deriving DecidableEq, Repr

/-- The path that could not be written, and why. -/
structure WriteError where
  path : Path
  cause : IoError
  deriving DecidableEq, Repr

/-- What is said of a path that could not be written. -/
def WriteError.message (e : WriteError) : String := "failed to write '" ++ e.path.text ++ "'"

variable {m : Type → Type} [Monad m]

/-- Writes a file and the folders that it stands in. -/
def save (disk : Disk m) (p : Path) (text : String) : m (Except WriteError Unit) := do
  match p.parent? with
  | some folder =>
    if folder.text ≠ "" then
      if let .error e ← disk.makeFolders folder then return .error ⟨folder, e⟩
  | none => pure ()
  match ← disk.writeText p text with
  | .ok _ => return .ok ()
  | .error e => return .error ⟨p, e⟩

/-- Writes a file by its rules. -/
def saveBy (disk : Disk m) (rules : Rules) (p : Path) (content : String) :
    m (Except WriteError Outcome) := do
  if rules.overwrite = .ifMissing then
    if ← disk.isPresent p then return .ok .skipped
  match ← save disk p (rules.withHeader content) with
  | .ok _ => return .ok .written
  | .error e => return .error e

end Files
end Outline
