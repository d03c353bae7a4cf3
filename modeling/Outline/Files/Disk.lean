/-
# Disks

The five operations on files that the program needs, in any monad: a value can
keep its files in memory or be the one of the machine.  What went wrong is told
by its cause; the texts are those of the operating system.
-/

import Outline.Files.Path

namespace Outline

/-- Why an operation on a file failed. -/
inductive IoError
  | notFound | exists | notDirectory | isDirectory | nameTooLong
  /-- A file that is read as text is none. -/
  | invalidText
  /-- A path holds the character that ends paths. -/
  | invalidPath
  | other (text : String)
  deriving DecidableEq, Repr

namespace IoError

/-- What is said of an error. -/
def text : IoError → String
  | notFound => "No such file or directory (os error 2)"
  | .exists => "File exists (os error 17)"
  | notDirectory => "Not a directory (os error 20)"
  | isDirectory => "Is a directory (os error 21)"
  | nameTooLong => "File name too long (os error 36)"
  | invalidText => "stream did not contain valid UTF-8"
  | invalidPath => "file name contained an unexpected NUL byte"
  | other text => text

end IoError

/-- Contents of files are equal if their bytes are; one instance for every use. -/
instance decidableEqContent : DecidableEq ByteArray := ByteArray.instDecidableEq

/-- The operations on files. -/
structure Disk (m : Type → Type) where
  /-- Whether there is a file or a folder at a path. -/
  isPresent : Path → m Bool
  /-- Whether there is a file at a path. -/
  isFile : Path → m Bool
  /-- The content of a file. -/
  read : Path → m (Except IoError ByteArray)
  /-- Gives a file a content, whether it was there or not. -/
  write : Path → ByteArray → m (Except IoError Unit)
  /-- Makes a folder and those that it stands in, as far as they are missing. -/
  makeFolders : Path → m (Except IoError Unit)

namespace Disk

variable {m : Type → Type} [Monad m]

/-- The content of a file as text. -/
def readText (disk : Disk m) (p : Path) : m (Except IoError String) := do
  match ← disk.read p with
  | .error e => return .error e
  | .ok bytes => match String.fromUTF8? bytes with
    | some text => return .ok text
    | none => return .error .invalidText

/-- Gives a file a text as its content. -/
def writeText (disk : Disk m) (p : Path) (text : String) : m (Except IoError Unit) :=
  disk.write p text.toUTF8

end Disk
end Outline
