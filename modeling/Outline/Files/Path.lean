/-
# Paths

A path keeps its spelling, and two paths are the same if they have the same
parts: a slash more, a slash at the end and a dot between slashes make no
difference, a dot at the start of a relative path does.

| path | parts |
| --- | --- |
| `a//b/` | `a`, `b` |
| `a/./b` | `a`, `b` |
| `./a/../b` | `.`, `a`, `..`, `b` |
| `/a` | root, `a` |
-/

namespace Outline

/-- A path as it is spelled. -/
structure Path where
  text : String
  deriving DecidableEq, Repr

namespace Path

/-- A part of a path. -/
inductive Part
  | root | here | up
  | name (s : String)
  deriving DecidableEq, Repr

/-- Cuts a text at its slashes. -/
def segments (cs : List Char) : List (List Char) :=
  match cs with
  | [] => [[]]
  | c :: cs =>
    if c = '/' then [] :: segments cs
    else match segments cs with
      | [] => [[c]]
      | s :: ss => (c :: s) :: ss

/-- The part that a segment stands for; an empty one and a dot stand for none. -/
def partOfSegment (s : List Char) : Option Part :=
  if s = [] ∨ s = ['.'] then none
  else if s = ['.', '.'] then some .up
  else some (.name (String.ofList s))

/-- Whether the path starts at the root. -/
def isAbsolute (p : Path) : Bool := p.text.toList.head? == some '/'

/-- The parts of a path. -/
def parts (p : Path) : List Part :=
  let ss := segments p.text.toList
  let start := if p.isAbsolute then [.root] else if ss.head? = some ['.'] then [.here] else []
  start ++ ss.filterMap partOfSegment

/-- Whether two paths have the same parts. -/
def same (p q : Path) : Bool := p.parts == q.parts

theorem same_refl (p : Path) : p.same p = true := by simp [same]

/-- A text without the slashes and the single dots at its end, down to a root
or a leading dot. -/
def trimSegments (p : Path) : Path :=
  let rec go : List Char → List Char
    | [] => []
    | ['/'] => ['/']
    | ['.'] => ['.']
    | '/' :: rest => go rest
    | '.' :: '/' :: rest => go ('/' :: rest)
    | rest => rest
  ⟨String.ofList (go p.text.toList.reverse).reverse⟩

/-- The path without its last part; none for the root and the empty path. -/
def parent? (p : Path) : Option Path :=
  match p.parts.reverse with
  | [] | .root :: _ => none
  | .here :: _ => some ⟨""⟩
  | _ =>
    let trimmed := p.trimSegments.text.toList.reverse
    let above := trimmed.dropWhile (· ≠ '/')
    match above with
    | [] => some ⟨""⟩
    | _ => some (trimSegments ⟨String.ofList above.reverse⟩)

/-- A path and those that it stands in, from the innermost out. -/
def ancestors (p : Path) : List Path :=
  match p.parent? with
  | some q => if _h : q.text.length < p.text.length then p :: ancestors q else [p]
  | none => [p]
termination_by p.text.length

/-- The last part, if it is a name. -/
def fileName? (p : Path) : Option String :=
  match p.parts.getLast? with
  | some (.name s) => some s
  | _ => none

/-- The last part up to its last dot; a dot at the start does not count. -/
def stem? (p : Path) : Option String :=
  p.fileName?.map fun name =>
    match name.toList.reverse.dropWhile (· ≠ '.') with
    | [] | ['.'] => name
    | _ :: before => String.ofList before.reverse

/-- The path `q` as seen from `p`. -/
def join (p q : Path) : Path :=
  if q.isAbsolute || p.text.isEmpty then q
  else if p.text.toList.getLast? = some '/' then ⟨p.text ++ q.text⟩
  else ⟨p.text ++ "/" ++ q.text⟩

end Path
end Outline
