/-
# Compilation profiles

What code is checked against and what a module records: the language version,
the kind of output, the namespaces imported everywhere, the libraries that are
referenced, and the *anchors*.  An anchor is a well-known type; the library that
defines it is referenced without being named.
-/

import Outline.Files.Path
import Outline.Language

namespace Outline

/-- Whether a module is for finding faults or for speed. -/
inductive Optimization
  | debug | release
  deriving DecidableEq, Repr

/-- Whether a module is used by others or run. -/
inductive OutputKind
  | library | console
  deriving DecidableEq, Repr

/-- A well-known type and the library that defines it. -/
structure Anchor where
  typeName : String
  library : String
  deriving DecidableEq, Repr

namespace Anchor

/-- The file name of the library. -/
def fileName (a : Anchor) : String := a.library ++ ".dll"

/-- The anchors of every profile that does not choose its own. -/
def defaults : List Anchor := [
  ⟨"System.Object", "System.Private.CoreLib"⟩,
  ⟨"System.IO.File", "System.Private.CoreLib"⟩,
  ⟨"System.Net.EndPoint", "System.Net.Primitives"⟩,
  ⟨"System.Linq.Enumerable", "System.Linq"⟩,
  ⟨"System.Text.Encoding", "System.Private.CoreLib"⟩,
  ⟨"System.Text.RegularExpressions.Regex", "System.Text.RegularExpressions"⟩,
  ⟨"System.Collections.Generic.List`1", "System.Private.CoreLib"⟩]

end Anchor

/-- The namespaces imported by every profile that does not choose its own. -/
def defaultUsings : List String := [
  "System", "System.IO", "System.Net", "System.Linq", "System.Text",
  "System.Text.RegularExpressions", "System.Collections.Generic"]

/-- How a set of sources is compiled. -/
structure Profile where
  version : Language.Version := .latest
  overflowChecks : Bool := true
  optimization : Optimization := .release
  outputKind : OutputKind := .library
  usings : List String := defaultUsings
  /-- Libraries referenced by path, before those of the anchors. -/
  references : List Path := []
  anchors : List Anchor := Anchor.defaults
  deriving DecidableEq, Repr

end Outline
