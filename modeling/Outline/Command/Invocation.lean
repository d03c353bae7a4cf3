/-
# Invocations

What a command line asks for.

| command | words | options |
| --- | --- | --- |
| `new` | the name of a type | `-n`, `--struct`, `--file-scoped`, `--field`, `--property` |
| | | `--primary`, `--base`, `-u`, `-o`, `--check` |
| `check` | files | `--json` |
| `build` | files | `-o`, which has to be given, and `--json` |
| each of them | | `--lib-dir`, `-r` |
| anywhere | | `--config`, `-v`, `-h` |
| before the command | | `-V` |

Options are taken from left to right: the first that cannot be taken makes the
line wrong, and the first that asks for help or the version decides what is done.
-/

import Outline.Command.Scan
import Outline.Command.Spec
import Outline.Files.Path

namespace Outline
namespace Command

/-- Whether a text is a value of the kind. -/
def ValueKind.accepts (k : ValueKind) (s : String) : Bool :=
  match k with
  | .text => true
  | .path => s ≠ ""
  | .member => (NamedType.parse s).isSome

/-- The commands. -/
inductive Verb
  | new | check | build
  deriving DecidableEq, Repr

/-- The commands by their names. -/
def verbs : List (String × Verb) := [("new", .new), ("check", .check), ("build", .build)]

/-- The options that may be given anywhere. -/
def sharedFlags : List Flag := [
  { name := "config", takes := .one, value := .path },
  { name := "verbose", letter := some 'v', takes := .tally },
  { name := "help", letter := some 'h' }]

/-- The options that may be given before a command. -/
def firstFlags : List Flag := { name := "version", letter := some 'V' } :: sharedFlags

/-- The options of all commands. -/
def compileFlags : List Flag := [
  { name := "lib-dir", takes := .one, value := .path },
  { name := "reference", letter := some 'r', takes := .many, value := .path }] ++ sharedFlags

namespace Verb

/-- The options of a command. -/
def flags : Verb → List Flag
  | new => [
      { name := "namespace", letter := some 'n', takes := .one },
      { name := "struct" },
      { name := "file-scoped" },
      { name := "field", takes := .many, value := .member },
      { name := "property", takes := .many, value := .member },
      { name := "primary", takes := .many, value := .member },
      { name := "base", takes := .many },
      { name := "using", letter := some 'u', takes := .many },
      { name := "output", letter := some 'o', takes := .one, value := .path },
      { name := "check" }] ++ compileFlags
  | check => { name := "json" } :: compileFlags
  | build => [
      { name := "output", letter := some 'o', takes := .one, value := .path },
      { name := "json" }] ++ compileFlags

/-- What the words of a command have to be. -/
def wordKind : Verb → ValueKind
  | new => .text
  | check | build => .path

/-- Whether one more word may follow some. -/
def takesWord : Verb → List String → Bool
  | new, words => words.isEmpty
  | check, _ | build, _ => true

end Verb

/-- What was taken from a command line so far, the latest last. -/
structure Given where
  options : List (String × String) := []
  words : List String := []
  deriving DecidableEq, Repr

/-- Why a command line is not followed to its end. -/
inductive Stop
  /-- The line is wrong. -/
  | usage
  | help | version
  deriving DecidableEq, Repr

namespace Given

/-- Whether an option was given. -/
def has (g : Given) (name : String) : Bool := g.options.any (·.1 = name)

/-- The values of an option. -/
def values (g : Given) (name : String) : List String :=
  (g.options.filter (·.1 = name)).map (·.2)

/-- The value of an option that is given once. -/
def value? (g : Given) (name : String) : Option String := (g.values name).head?

/-- The pairs that an option was given. -/
def members (g : Given) (name : String) : List NamedType :=
  (g.values name).filterMap NamedType.parse

/-- Takes an option. -/
def add (g : Given) (f : Flag) (v : String) : Except Stop Given :=
  let again := match f.takes with
    | .nothing | .one => g.has f.name
    | .tally | .many => false
  if again then .error .usage else .ok { g with options := g.options ++ [(f.name, v)] }

/-- Takes an item; `verb` is the command, once it is known. -/
def take (verb : Option Verb) (g : Given) : Item → Except Stop Given
  | .bad => .error .usage
  | .flag f =>
    if f.name = "help" then .error .help
    else if f.name = "version" then .error .version
    else g.add f ""
  | .valued f v => if f.value.accepts v then g.add f v else .error .usage
  | .word s => match verb with
    | some verb =>
      if verb.takesWord g.words && verb.wordKind.accepts s then
        .ok { g with words := g.words ++ [s] }
      else .error .usage
    | none => .error .usage

end Given

/-- The options of all commands, as they were given. -/
structure CompileOptions where
  /-- The folder in which libraries are looked for. -/
  folder : Option Path
  references : List Path
  deriving DecidableEq, Repr

/-- What is to be done. -/
inductive Task
  | new (spec : TypeSpec) (output : Option Path) (check : Bool) (options : CompileOptions)
  | check (files : List Path) (json : Bool) (options : CompileOptions)
  | build (output : Path) (files : List Path) (json : Bool) (options : CompileOptions)
  deriving DecidableEq, Repr

/-- The options of all commands. -/
def Given.compileOptions (g : Given) : CompileOptions where
  folder := (g.value? "lib-dir").map .mk
  references := (g.values "reference").map .mk

/-- What a command is to do with what it was given; none if something is missing. -/
def Verb.task (g : Given) : Verb → Option Task
  | .new => do
    let name ← g.words.head?
    return .new {
      name := name
      namespaceName := (g.value? "namespace").getD ""
      isStruct := g.has "struct"
      isFileScoped := g.has "file-scoped"
      usings := g.values "using"
      bases := g.values "base"
      fields := g.members "field"
      properties := g.members "property"
      primary := g.members "primary" } ((g.value? "output").map .mk) (g.has "check")
      g.compileOptions
  | .check => do
    if g.words.isEmpty then failure
    return .check (g.words.map .mk) (g.has "json") g.compileOptions
  | .build => do
    let output ← g.value? "output"
    if g.words.isEmpty then failure
    return .build ⟨output⟩ (g.words.map .mk) (g.has "json") g.compileOptions

/-- What a command line asks for. -/
structure Invocation where
  /-- The settings file that was named. -/
  config : Option Path
  task : Task
  deriving DecidableEq, Repr

/-- What the arguments after a command ask for; `config` was named before it. -/
def ofVerb (verb : Verb) (config : Option Path) (args : List String) : Except Stop Invocation := do
  let g ← (scan verb.flags args).foldlM (Given.take (some verb)) {}
  match verb.task g with
  | some task => return ⟨((g.value? "config").map Path.mk).or config, task⟩
  | none => throw .usage

/-- What help is kept for. -/
def helpTopics : List String := verbs.map (·.1) ++ ["completions", "help"]

/-- What the words after `help` ask for: at most one, which help is kept for. -/
def ofHelp : List String → Stop
  | [] => .help
  | [topic] => if helpTopics.contains topic then .help else .usage
  | _ => .usage

/-- What arguments ask for, after some options. -/
def invocation (g : Given) (args : List String) : Except Stop Invocation :=
  match args with
  | [] => .error .usage
  | arg :: args => match verbs.lookup arg with
    | some verb => ofVerb verb ((g.value? "config").map .mk) args
    | none =>
      if arg = "--" then .error .usage
      else if arg = "help" then .error (ofHelp args)
      else match (nextItems firstFlags arg args).1.foldlM (Given.take none) g with
        | .error stop => .error stop
        | .ok g => invocation g (nextItems firstFlags arg args).2
termination_by args.length
decreasing_by exact Nat.lt_succ_of_le (nextItems_length_le firstFlags arg args)

end Command
end Outline
