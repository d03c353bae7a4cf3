/-
# Fragments and pages

Code is laid out in two steps.  A declaration becomes *fragments*: lines that
know what they stand inside of, not how deep that is.  A *page* writes fragments
as text and knows the depth.

| fragment | written as |
| --- | --- |
| `line s` | the indentation, `s`, a line end |
| `blank` | a line end |
| `block h fs c` | `h`, then `fs` one level deeper, then `c` if there is one |
| `indented fs` | `fs` one level deeper |
| `sequence fs` | `fs` |
-/

import Outline.Layout.Format

namespace Outline
namespace Layout

/-- A piece of code before its indentation is known. -/
inductive Fragment
  | line (text : String)
  | blank
  | block (header : String) (body : List Fragment) (close : Option String)
  | indented (body : List Fragment)
  | sequence (parts : List Fragment)
  deriving Repr, Inhabited

namespace Fragment

/-- A head with a body in braces; the open brace stands on the next line or
after the head. -/
def braced (head : String) (body : List Fragment) (nextLine : Bool) : Fragment :=
  if nextLine then sequence [line head, line "\x7b", indented body, line "\x7d"]
  else block (head ++ " \x7b") body (some "\x7d")

end Fragment

/-- Text under construction: what is written and how deep the next line is. -/
structure Page where
  indent : Indent := .standard
  level : Nat := 0
  text : String := ""
  deriving DecidableEq, Repr

namespace Page

/-- The page with one more line at the current level. -/
def line (p : Page) (s : String) : Page :=
  { p with text := p.text ++ p.indent.pad p.level ++ s ++ "\n" }

/-- The page with one more empty line, without indentation. -/
def blank (p : Page) : Page := { p with text := p.text ++ "\n" }

/-- The page one level deeper. -/
def deeper (p : Page) : Page := { p with level := p.level + 1 }

/-- The page one level less deep; level zero stays. -/
def shallower (p : Page) : Page := { p with level := p.level - 1 }

end Page

mutual

/-- Writes a fragment on a page. -/
def Page.put (p : Page) : Fragment → Page
  | .line s => p.line s
  | .blank => p.blank
  | .block header body close =>
    let q := ((p.line header).deeper.putAll body).shallower
    match close with
    | some c => q.line c
    | none => q
  | .indented body => (p.deeper.putAll body).shallower
  | .sequence parts => p.putAll parts

/-- Writes fragments on a page, one after the other. -/
def Page.putAll (p : Page) : List Fragment → Page
  | [] => p
  | f :: fs => (p.put f).putAll fs

end

theorem Page.putAll_append (p : Page) (fs gs : List Fragment) :
    p.putAll (fs ++ gs) = (p.putAll fs).putAll gs := by
  induction fs generalizing p with
  | nil => simp [Page.putAll]
  | cons f fs ih => simp [Page.putAll, ih]

/-- What can be laid out as fragments. -/
class Layable (α : Type) where
  fragments : Format → α → List Fragment

/-- Writes a declaration on a page. -/
def Page.emit {α : Type} [Layable α] (p : Page) (f : Format) (a : α) : Page :=
  p.putAll (Layable.fragments f a)

/-- The text of a declaration, laid out from level zero. -/
def render {α : Type} [Layable α] (f : Format) (a : α) : String :=
  (({ indent := f.indent } : Page).emit f a).text

/-- A text without spaces, tabs and line ends. -/
def removeBlanks (s : String) : String :=
  String.ofList (s.toList.filter fun c => !(c == ' ' || c == '\t' || c == '\r' || c == '\n'))

theorem removeBlanks_append (s t : String) :
    removeBlanks (s ++ t) = removeBlanks s ++ removeBlanks t := by
  simp [removeBlanks]

end Layout
end Outline
