/-
# Compilers

A compiler is a profile and a way to find libraries.  It compiles sources as one
module, given as texts, as files or as compilation units, and answers with what
is wrong with them; a compilation succeeds when a module was made.

Sources that do not compile are no error of the request; that there are none, or
that a file cannot be read, is.
-/

import Outline.Compilation.Phase
import Outline.Layout.Declaration

namespace Outline

/-- Why a request has no result. -/
inductive RequestError
  /-- A list that may not be empty is. -/
  | empty (what : String)
  | unreadable (p : Path) (cause : IoError)
  deriving DecidableEq, Repr

/-- What is said of a request without a result. -/
def RequestError.message : RequestError → String
  | empty what => "value cannot be an empty collection: '" ++ what ++ "'"
  | unreadable p _ => "failed to read '" ++ p.text ++ "'"

/-- What became of a request. -/
structure CompileResult where
  /-- Where the module goes, or nothing. -/
  outputPath : String
  success : Bool
  /-- The errors; what is less severe is not told. -/
  rows : List Row
  deriving DecidableEq, Repr

/-- The result that a compilation ends with. -/
def Compilation.result (c : Compilation) : CompileResult where
  outputPath := (c.output.map (·.text)).getD ""
  success := c.module.isSome
  rows := (c.diagnostics.filter (·.isError)).map (·.row)

/-- A profile and a way to find libraries. -/
structure Compiler (m : Type → Type) where
  profile : Profile
  finder : Finder m

namespace Compiler

variable {m : Type → Type} [Monad m]

/-- Compiles sources as one module. -/
def compileSources (disk : Disk m) (c : Compiler m) (output : Option Path)
    (sources : List String) : m (Except RequestError CompileResult) := do
  if sources.isEmpty then return .error (.empty "sources")
  let done ← (Compilation.start c.profile sources output).runAll disk c.finder Phase.all
  return .ok done.result

/-- The texts of files, up to the first that cannot be read. -/
def readAll (disk : Disk m) : List Path → m (Except RequestError (List String))
  | [] => return .ok []
  | p :: ps => do
    match ← disk.readText p with
    | .error e => return .error (.unreadable p e)
    | .ok text => return (← readAll disk ps).map (text :: ·)

/-- Compiles files as one module. -/
def compileFiles (disk : Disk m) (c : Compiler m) (output : Option Path) (paths : List Path) :
    m (Except RequestError CompileResult) := do
  if paths.isEmpty then return .error (.empty "paths")
  match ← readAll disk paths with
  | .error e => return .error e
  | .ok sources => c.compileSources disk output sources

/-- Compiles compilation units as one module that is not kept. -/
def compileUnits (disk : Disk m) (c : Compiler m) (units : List Tree.CompilationUnit) :
    m (Except RequestError CompileResult) :=
  c.compileSources disk none (units.map (Layout.render {}))

end Compiler
end Outline
