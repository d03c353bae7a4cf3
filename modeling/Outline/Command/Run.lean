/-
# Running commands

`new` lays out a type that is described on the command line, `check` compiles
files, and `build` compiles them into a module and reads that back to tell what it
declares.

| exit code | when |
| ---: | --- |
| 0 | all is well |
| 1 | the code does not compile, or something could not be done |
| 2 | the command line is wrong |

Settings that cannot be read end a command before it begins.
-/

import Outline.Command.Invocation
import Outline.Command.Report
import Outline.Config.Settings
import Outline.Layout.File

namespace Outline
namespace Command

variable {m : Type → Type} [Monad m]

/-- The compiler for a profile and the options of a command. -/
def compiler (disk : Disk m) (p : Profile) (o : CompileOptions) : Compiler m where
  profile := { p with references := p.references ++ o.references }
  finder := match o.folder with
    | some folder => .inFolder disk folder
    | none => .byName disk

/-- Compiles sources; they are never missing here. -/
def compile (disk : Disk m) (c : Compiler m) (output : Option Path) (sources : List NamedSource) :
    m (Except (List String) CompileResult) := do
  match ← c.compileSources disk output (sources.map (·.text)) with
  | .ok r => return .ok r
  | .error e => return .error ["Compilation failed", e.message]

/-- Reads files, up to the first that cannot be read. -/
def readSources (disk : Disk m) : List Path → m (Except (List String) (List NamedSource))
  | [] => return .ok []
  | p :: ps => do
    match ← disk.readText p with
    | .error e => return .error ["failed to read '" ++ p.text ++ "'", e.text]
    | .ok text => return (← readSources disk ps).map (⟨p.text, text⟩ :: ·)

/-- Compiles files. -/
def compilePaths (disk : Disk m) (c : Compiler m) (output : Option Path) (files : List Path) :
    m (Except (List String) (List NamedSource × CompileResult)) := do
  match ← readSources disk files with
  | .error causes => return .error causes
  | .ok sources => return (← compile disk c output sources).map (sources, ·)

/-- What is shown of a result when it is to be read by programs. -/
def asJson (r : CompileResult) : List Line := [.output (resultJson r).pretty]

/-- Runs `new`. -/
def runNew (disk : Disk m) (s : Config.Settings) (spec : TypeSpec) (output : Option Path)
    (check : Bool) (o : CompileOptions) : m Outcome := do
  let some unit := spec.declare | return .failed [TypeSpec.badName spec.name]
  let code := Layout.render s.format unit
  if let some p := output then
    if let .error e ← Layout.saveUnit disk s.format unit p then
      return .failed [e.message, e.cause.text]
  let first := match output with
    | some p => added p
    | none => .output (trimEnd code)
  if !check then return .shown true [first]
  let name := match output with
    | some p => p.text
    | none => spec.name ++ ".cs"
  let sources : List NamedSource := [⟨name, code⟩]
  match ← compile disk (compiler disk s.profile o) none sources with
  | .error causes => return .failed causes
  | .ok r => return .shown r.success ([first, emptyLine] ++ compiled sources r)

/-- Runs `check`. -/
def runCheck (disk : Disk m) (s : Config.Settings) (files : List Path) (json : Bool)
    (o : CompileOptions) : m Outcome := do
  match ← compilePaths disk (compiler disk s.profile o) none files with
  | .error causes => return .failed causes
  | .ok (sources, r) =>
    return .shown r.success (if json then asJson r else compiled sources r)

/-- Why a module that was just written could not be read back. -/
def readBackCauses (output : Path) (e : Module.LoadError) : List String :=
  ("failed to read back '" ++ output.text ++ "'") :: match e with
    | .unreadable p cause => ["failed to read '" ++ p.text ++ "'", cause.text]
    | .invalid e => [e.message]

/-- Runs `build`. -/
def runBuild (disk : Disk m) (s : Config.Settings) (output : Path) (files : List Path)
    (json : Bool) (o : CompileOptions) : m Outcome := do
  match ← compilePaths disk (compiler disk s.profile o) (some output) files with
  | .error causes => return .failed causes
  | .ok (sources, r) =>
    if !r.success then return .shown false (if json then asJson r else compiled sources r)
    match ← Module.load disk output with
    | .error e => return .failed (readBackCauses output e)
    | .ok module =>
      return .shown true
        (if json then asJson r else compiled sources r ++ written output module)

/-- The name and the version of the program. -/
def versionLine : String := "cscribe 0.3.0"

/-- How the program is called. -/
def usageLine : String := "Usage: cscribe [OPTIONS] <COMMAND>"

/-- Does what arguments ask for. -/
def run (disk : Disk m) (args : List String) : m Outcome := do
  match invocation {} args with
  | .error .usage => return ⟨2, [.note usageLine], []⟩
  | .error .help => return ⟨0, [.output usageLine], []⟩
  | .error .version => return ⟨0, [.output versionLine], []⟩
  | .ok i => match ← Config.findSettings disk i.config with
    | .error e => return ⟨1, [.note e.message], []⟩
    | .ok s => match i.task with
      | .new spec output check o => runNew disk s spec output check o
      | .check files json o => runCheck disk s files json o
      | .build output files json o => runBuild disk s output files json o

end Command
end Outline
