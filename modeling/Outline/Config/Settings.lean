/-
# Settings files

A TOML file with two tables: `compiler` holds a profile, `format` a format.  Both
may be missing; nothing else may stand beside them.  The file is either named or,
if it is there, the one of the usual name.
-/

import Outline.Config.Shape
import Outline.Files.Disk
import Outline.Toml.Reader

namespace Outline
namespace Config

/-- How code is compiled and laid out. -/
structure Settings where
  profile : Profile := {}
  format : Layout.Format := {}
  deriving DecidableEq, Repr

/-- The names of the tables. -/
def settingsNames : List String := ["compiler", "format"]

/-- The settings that a value describes. -/
def settings (v : Json) : Option Settings := do
  if let .object fs := v then
    if !fs.all (settingsNames.contains ·.1) then failure
  let r ← v.asRecord Toml.form settingsNames
  return {
    profile := ← r.optional "compiler" {} (profile Toml.form)
    format := ← r.optional "format" {} (format Toml.form) }

/-- The file that is looked for when none is named. -/
def usualFile : Path := ⟨"cscribe.toml"⟩

/-- Why there are no settings. -/
inductive SettingsError
  | unreadable (p : Path) (cause : IoError)
  | malformed (p : Path)
  deriving DecidableEq, Repr

/-- What is said when there are no settings. -/
def SettingsError.message : SettingsError → String
  | unreadable p cause => "failed to read '" ++ p.text ++ "': " ++ cause.text
  | malformed p => "failed to parse " ++ p.text

variable {m : Type → Type} [Monad m]

/-- The settings in a file. -/
def openSettings (disk : Disk m) (p : Path) : m (Except SettingsError Settings) := do
  match ← disk.readText p with
  | .error e => return .error (.unreadable p e)
  | .ok text => match (Toml.parse text.toList).bind settings with
    | some s => return .ok s
    | none => return .error (.malformed p)

/-- The settings in the file that is named or in the usual one; without either
the usual settings. -/
def findSettings (disk : Disk m) : Option Path → m (Except SettingsError Settings)
  | some p => openSettings disk p
  | none => do
    if ← disk.isFile usualFile then openSettings disk usualFile else return .ok {}

end Config
end Outline
