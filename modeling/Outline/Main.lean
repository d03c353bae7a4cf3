/-
# The program

Runs a command on the files of the machine.  Output goes to the standard output,
everything else to the standard error.
-/

import Outline.Command.Run

namespace Outline

/-- What a failed operation of the machine means. -/
def ioErrorOf : IO.Error → IoError
  | .noFileOrDirectory .. | .noSuchThing .. => .notFound
  | .alreadyExists .. => .exists
  | .inappropriateType _ 21 _ => .isDirectory
  | .inappropriateType .. => .notDirectory
  | e => .other (toString e)

/-- Runs an operation of the machine. -/
def attempt {α : Type} (x : IO α) : IO (Except IoError α) := do
  match ← x.toBaseIO with
  | .ok a => return .ok a
  | .error e => return .error (ioErrorOf e)

/-- The files of the machine. -/
def machineDisk : Disk IO where
  isPresent p := return (← attempt (IO.FS.realPath p.text)).toBool
  isFile p := return (← attempt (IO.FS.readBinFile p.text)).toBool
  read p := attempt (IO.FS.readBinFile p.text)
  write p content := attempt (IO.FS.writeBinFile p.text content)
  makeFolders p := attempt (IO.FS.createDirAll p.text)

/-- Shows a line of a report. -/
def showLine : Command.Line → IO Unit
  | .output text => IO.println text
  | .warning text => IO.eprintln ("warning: " ++ text)
  | .note text => IO.eprintln text
  | .row source r => IO.eprintln ((source.elim "" (· ++ ":")) ++ r.display)

end Outline

open Outline in
/-- Runs the command that the arguments ask for. -/
def main (args : List String) : IO UInt32 := do
  let outcome ← Command.run machineDisk args
  outcome.lines.forM showLine
  outcome.causes.forM fun cause => IO.eprintln ("error: " ++ cause)
  return outcome.exitCode.toUInt32
