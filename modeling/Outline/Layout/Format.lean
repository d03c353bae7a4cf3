/-
# Format

The choices of layout: where braces stand, what indents a line and where blank
lines go.  They never change what is declared.

| setting | default |
| --- | --- |
| open brace of namespaces and types on a line of its own | yes |
| open brace of methods and constructors on a line of its own | yes |
| indentation | four spaces |
| blank line between members, except between fields | yes |
-/

namespace Outline
namespace Layout

/-- What one level of indentation is made of. -/
inductive Indent
  | spaces (width : Nat)
  | tab
  deriving DecidableEq, Repr

namespace Indent

/-- Four spaces. -/
def standard : Indent := spaces 4

/-- The blank text before a line at the given level. -/
def pad (i : Indent) (level : Nat) : String :=
  match i with
  | spaces width => String.ofList (List.replicate (width * level) ' ')
  | tab => String.ofList (List.replicate level '\t')

end Indent

/-- The choices of layout. -/
structure Format where
  typeBraceOnNewLine : Bool := true
  methodBraceOnNewLine : Bool := true
  indent : Indent := .standard
  blankLineBetweenMembers : Bool := true
  deriving DecidableEq, Repr

namespace Format

/-- One choice that replaces the one made before. -/
inductive Setting
  | typeBraceOnNewLine (on : Bool)
  | methodBraceOnNewLine (on : Bool)
  | indent (unit : Indent)
  | blankLineBetweenMembers (on : Bool)
  deriving DecidableEq, Repr

/-- The format with one choice replaced. -/
def set (f : Format) : Setting → Format
  | .typeBraceOnNewLine on => { f with typeBraceOnNewLine := on }
  | .methodBraceOnNewLine on => { f with methodBraceOnNewLine := on }
  | .indent unit => { f with indent := unit }
  | .blankLineBetweenMembers on => { f with blankLineBetweenMembers := on }

/-- The default format with the choices made in order; the last of a kind wins. -/
def ofSettings (settings : List Setting) : Format := settings.foldl set {}

end Format
end Layout
end Outline
