/-
# Diagnostics

What compilation reports: a code, how severe it is, a message and, where it
points into a source, a location.

A diagnostic is shown with its severity in lower case, a row of a result with
the severity as it is named.
-/

import Outline.Source.Position

namespace Outline

/-- How severe a diagnostic is. -/
inductive Severity
  | hidden | info | warning | error
  deriving DecidableEq, Repr

namespace Severity

/-- The name of a severity. -/
def name : Severity → String
  | hidden => "Hidden"
  | info => "Info"
  | warning => "Warning"
  | error => "Error"

/-- The name in lower case. -/
def word : Severity → String
  | hidden => "hidden"
  | info => "info"
  | warning => "warning"
  | error => "error"

/-- The place of a severity, from the least severe up. -/
def rank : Severity → Nat
  | hidden => 0
  | info => 1
  | warning => 2
  | error => 3

instance : LE Severity := ⟨fun a b => a.rank ≤ b.rank⟩
instance (a b : Severity) : Decidable (a ≤ b) := inferInstanceAs (Decidable (a.rank ≤ b.rank))

end Severity

/-- Something that is reported about the sources. -/
structure Diagnostic where
  code : String
  severity : Severity
  message : String
  location : Option Location := none
  deriving DecidableEq, Repr

namespace Diagnostic

/-- An error without a location. -/
def error (code message : String) : Diagnostic := ⟨code, .error, message, none⟩

/-- A warning without a location. -/
def warning (code message : String) : Diagnostic := ⟨code, .warning, message, none⟩

/-- The diagnostic with its location. -/
def «at» (d : Diagnostic) (l : Location) : Diagnostic := { d with location := some l }

/-- Whether the diagnostic makes the compilation fail. -/
def isError (d : Diagnostic) : Bool := d.severity == .error

end Diagnostic

/-- The start of a line of report: where it points. -/
def locationLead : Option Location → String
  | some l => "(" ++ toString l.line ++ "," ++ toString l.column ++ "): "
  | none => ""

/-- A diagnostic as a line of text. -/
def Diagnostic.display (d : Diagnostic) : String :=
  locationLead d.location ++ d.severity.word ++ " " ++ d.code ++ ": " ++ d.message

/-- A diagnostic as the result of a compilation gives it. -/
structure Row where
  description : String
  severity : String
  code : String
  location : Option Location
  deriving DecidableEq, Repr

/-- The row of a diagnostic. -/
def Diagnostic.row (d : Diagnostic) : Row := ⟨d.message, d.severity.name, d.code, d.location⟩

/-- A row as a line of text. -/
def Row.display (r : Row) : String :=
  locationLead r.location ++ r.severity ++ " " ++ r.code ++ ": " ++ r.description

end Outline
