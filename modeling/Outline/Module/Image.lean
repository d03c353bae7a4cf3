/-
# Module images

The bytes of a module: eight bytes that mark an image, then the manifest as
JSON over several lines.

| bytes | content |
| ---: | --- |
| 0–4 | `CSMOD` |
| 5 | 1, the version of the format |
| 6–7 | 0 |
| 8– | manifest |
-/

import Outline.Files.Disk
import Outline.Json.Reader
import Outline.Module.Manifest

namespace Outline
namespace Module

/-- The bytes that mark an image. -/
def header : ByteArray := "CSMOD\x01\x00\x00".toUTF8

/-- The image of a module. -/
def image (m : Module) : ByteArray := header ++ m.manifest.pretty.toUTF8

/-- Why bytes are no image of a module. -/
inductive ImageError
  | missingHeader
  /-- More levels than are read; where the first bracket too many stands. -/
  | tooDeep (line column : Nat)
  | badManifest
  deriving DecidableEq, Repr

/-- What is said of bytes that are no image. -/
def ImageError.message : ImageError → String
  | missingHeader => "invalid module image: missing module header"
  | tooDeep line column =>
    "invalid module image: recursion limit exceeded at line " ++ toString line
      ++ " column " ++ toString column
  | badManifest => "invalid module image: bad manifest"

/-- Whether a character of a manifest stands in a string, and then whether it
follows a backslash. -/
inductive Quoting
  | outside | inside | escaped
  deriving DecidableEq, Repr

/-- The quoting after a character. -/
def Quoting.after (c : Char) : Quoting → Quoting
  | outside => if c = '"' then inside else outside
  | inside => if c = '"' then outside else if c = '\\' then escaped else inside
  | escaped => inside

/-- Where the bracket stands that opens one level more than `levels`, unless it
is in a string.  The column counts bytes. -/
def tooDeepAt (levels line column : Nat) (q : Quoting) : List Json.Symbol → Option (Nat × Nat)
  | [] => none
  | .stray :: cs => tooDeepAt levels line (column + 1) q cs
  | .char c :: cs =>
    let next := column + c.utf8Size
    if c = '\n' then tooDeepAt levels (line + 1) 1 (q.after c) cs
    else if q = .outside ∧ (c = '[' ∨ c = '\x7b') then
      match levels with
      | 0 => some (line, column)
      | rest + 1 => tooDeepAt rest line next q cs
    else if q = .outside ∧ (c = ']' ∨ c = '\x7d') then tooDeepAt (levels + 1) line next q cs
    else tooDeepAt levels line next (q.after c) cs

/-- The module that a manifest describes. -/
def readManifest (bytes : ByteArray) : Except ImageError Module :=
  let symbols := Json.symbols bytes
  match (Json.parseSymbols symbols).bind (Manifest.module maxLevels) with
  | some m => .ok m
  | none => match tooDeepAt maxLevels 1 1 .outside symbols with
    | some (line, column) => .error (.tooDeep line column)
    | none => .error .badManifest

/-- The module of an image. -/
def read (bytes : ByteArray) : Except ImageError Module :=
  if bytes.extract 0 header.size = header then
    readManifest (bytes.extract header.size bytes.size)
  else .error .missingHeader

/-- Why a module could not be loaded. -/
inductive LoadError
  | unreadable (p : Path) (cause : IoError)
  | invalid (e : ImageError)
  deriving DecidableEq, Repr

/-- Reads the image in a file. -/
def load {m : Type → Type} [Monad m] (disk : Disk m) (p : Path) :
    m (Except LoadError Module) := do
  match ← disk.read p with
  | .error e => return .error (.unreadable p e)
  | .ok bytes => return (read bytes).mapError .invalid

end Module
end Outline
