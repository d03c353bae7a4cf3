/-
# Reports

What a command shows: lines of its output, warnings, and the errors of what was
compiled.

| what | line |
| --- | --- |
| sources compiled | `✓ A.cs compiled` |
| sources did not compile | an empty line, and a warning with the number of errors |
| file written | `  + path` |
| heading | `name:` |
| item under a heading | `  - text` |

Several sources are reported as their number.
-/

import Outline.Compiler

namespace Outline
namespace Command

/-- A line of a report. -/
inductive Line
  | output (text : String)
  | warning (text : String)
  /-- Something that is said beside the output. -/
  | note (text : String)
  /-- An error, and the source that it points into. -/
  | row (source : Option String) (r : Row)
  deriving DecidableEq, Repr

/-- A heading. -/
def heading (text : String) : Line := .output (text ++ ":")

/-- An item under a heading. -/
def listed (text : String) : Line := .output ("  - " ++ text)

/-- A file that was written. -/
def added (p : Path) : Line := .output ("  + " ++ p.text)

/-- An empty line. -/
def emptyLine : Line := .output ""

/-- A number of things. -/
def counted (n : Nat) (thing : String) : String :=
  toString n ++ " " ++ thing ++ if n = 1 then "" else "s"

/-- A source and the name that it is reported under. -/
structure NamedSource where
  name : String
  text : String
  deriving DecidableEq, Repr

/-- What sources are called together. -/
def subject : List NamedSource → String
  | [s] => s.name
  | sources => toString sources.length ++ " files"

/-- What is shown of a compilation. -/
def compiled (sources : List NamedSource) (r : CompileResult) : List Line :=
  (r.rows.map fun row =>
    .row (row.location.bind fun l => (sources[l.source]?).map (·.name)) row)
  ++ if r.success then [.output ("✓ " ++ subject sources ++ " compiled")]
    else [emptyLine,
      .warning (subject sources ++ " failed with " ++ counted r.rows.length "error")]

/-- What is shown of a module that was written. -/
def written (p : Path) (m : Module) : List Line :=
  [added p, emptyLine, heading (m.name ++ " (" ++ counted m.types.length "type" ++ ")")]
  ++ m.types.map (fun t => listed (t.kind.keyword ++ " " ++ t.fullName))
  ++ if m.references.isEmpty then [] else
    [emptyLine, heading "references"] ++ m.references.map listed

/-- A location as a value. -/
def locationJson (l : Location) : Json := .object [
  ("source", .natural l.source), ("offset", .natural l.offset), ("length", .natural l.length),
  ("line", .natural l.line), ("column", .natural l.column)]

/-- A row as a value; a location that is missing is left out. -/
def rowJson (r : Row) : Json := .object ([
  ("description", .string r.description), ("severity", .string r.severity),
  ("code", .string r.code)]
  ++ match r.location with
    | some l => [("location", locationJson l)]
    | none => [])

/-- A result as a value. -/
def resultJson (r : CompileResult) : Json := .object [
  ("outputPath", .string r.outputPath), ("success", .bool r.success),
  ("diagnostics", .array (r.rows.map rowJson))]

/-- What a command ends with. -/
structure Outcome where
  exitCode : Nat
  lines : List Line := []
  /-- Why the command failed, from the outermost cause in. -/
  causes : List String := []
  deriving DecidableEq, Repr

namespace Outcome

/-- The lines of the output, each with its end. -/
def output (o : Outcome) : String :=
  String.join (o.lines.map fun
    | .output text => text ++ "\n"
    | _ => "")

/-- The warnings. -/
def warnings (o : Outcome) : List String :=
  o.lines.filterMap fun
    | .warning text => some ("warning: " ++ text)
    | _ => none

/-- A command that could not do what it was asked for. -/
def failed (causes : List String) : Outcome := ⟨1, [], causes⟩

/-- A command that did, and whether what it found is valid. -/
def shown (isValid : Bool) (lines : List Line) : Outcome := ⟨if isValid then 0 else 1, lines, []⟩

end Outcome
end Command
end Outline
