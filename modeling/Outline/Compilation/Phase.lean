/-
# Phases

A compilation runs through four phases, usually once and in this order.

| phase | what it does |
| --- | --- |
| parse | parses the sources that are left |
| references | finds the libraries that are referred to |
| declare | checks what only shows across sources |
| emit | makes the module and writes its image, unless an error was reported |
-/

import Outline.Compilation.Check
import Outline.Module.Image

namespace Outline

/-- A phase of a compilation. -/
inductive Phase
  | parse | references | declare | emit
  deriving DecidableEq, Repr

namespace Phase

/-- The phases in their usual order. -/
def all : List Phase := [parse, references, declare, emit]

/-- The name of a phase. -/
def name : Phase → String
  | parse => "parse"
  | references => "references"
  | declare => "declare"
  | emit => "emit"

/-- What a phase does, in words. -/
def description : Phase → String
  | parse => "Tokenize and parse source fragments"
  | references => "Resolve referenced libraries"
  | declare => "Check declarations across source fragments"
  | emit => "Write the compiled module"

end Phase

namespace Compilation

/-- The trees of the sources that are left, which are counted from zero. -/
def parsed (c : Compilation) : List SyntaxTree :=
  c.sources.mapIdx fun i text => SyntaxTree.parse c.profile.version ⟨text, i⟩

/-- Parses the sources that are left. -/
def parse (c : Compilation) : Compilation :=
  { c.report (c.parsed.flatMap (·.diagnostics)) with
    sources := []
    trees := c.trees ++ c.parsed }

/-- Takes the references that were found, instead of earlier ones. -/
def refer (c : Compilation) (r : References) : Compilation :=
  { c.report r.diagnostics with references := r.paths }

/-- Checks what only shows across sources. -/
def declare (c : Compilation) : Compilation := c.report c.checks

/-- The diagnostic of a module that could not be written. -/
def cannotWrite (p : Path) (e : IoError) : Diagnostic :=
  .error "CS2012" ("Cannot open '" ++ p.text ++ "' for writing -- '" ++ e.text ++ "'")

variable {m : Type → Type} [Monad m]

/-- Makes the module, and writes its image if it is kept. -/
def emit (disk : Disk m) (c : Compilation) : m Compilation := do
  if c.hasErrors then return c
  match c.output with
  | none => return { c with module := some c.described }
  | some p => match ← disk.write p c.described.image with
    | .ok _ => return { c with module := some c.described }
    | .error e => return c.report [cannotWrite p e]

/-- Runs one phase. -/
def run (disk : Disk m) (finder : Finder m) (c : Compilation) : Phase → m Compilation
  | .parse => return c.parse
  | .references =>
    return c.refer (← References.resolve finder c.profile.references c.profile.anchors)
  | .declare => return c.declare
  | .emit => c.emit disk

/-- Runs phases one after the other. -/
def runAll (disk : Disk m) (finder : Finder m) (c : Compilation) (phases : List Phase) :
    m Compilation :=
  phases.foldlM (run disk finder) c

end Compilation
end Outline
