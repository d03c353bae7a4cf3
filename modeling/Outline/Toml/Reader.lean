/-
# Reading TOML

A text is a list of lines, each of them blank, a header or a key with its value;
comments run from `#` to the end of their line.  Values are numbers, truth
values, strings, and arrays and tables in brackets, which may go over several lines
and hold each other down to `maxNesting` levels.
-/

import Outline.Json.Shape
import Outline.Toml.Number
import Outline.Toml.Tables
import Outline.Toml.Text

namespace Outline
namespace Toml

/-- The form of TOML texts, where nothing is an empty table or array. -/
def form : Json.Form where
  allowsMore := true
  isNothing
    | .array [] | .object [] => true
    | _ => false
  mayIgnore := Json.isRepresentable

/-- What follows a comment, if one stands here; none if the comment holds a
character that may not stand in it. -/
def skipComment : List Char → Option (List Char)
  | '#' :: rest =>
    let after := rest.dropWhile isPrintable
    if after = [] ∨ (lineEnd? after).isSome then some after else none
  | cs => some cs

theorem length_le_of_skipComment {cs after : List Char} (h : skipComment cs = some after) :
    after.length ≤ cs.length := by
  unfold skipComment at h
  split at h
  · rename_i rest
    have := (List.dropWhile_suffix isPrintable (l := rest)).length_le
    simp only at h
    split at h
    · obtain rfl := Option.some.inj h
      exact Nat.le_succ_of_le this
    · simp at h
  · obtain rfl := Option.some.inj h
    exact Nat.le_refl _

/-- What follows blanks, line ends and comments. -/
def skipSpace (cs : List Char) : Option (List Char) :=
  match _c : skipComment (cs.dropWhile isBlank) with
  | none => none
  | some rest => match _e : lineEnd? rest with
    | some (_, after) => skipSpace after
    | none => some rest
termination_by cs.length
decreasing_by
  have := (List.dropWhile_suffix isBlank (l := cs)).length_le
  have := length_le_of_skipComment _c
  have := length_lt_of_lineEnd _e
  omega

/-- Whether a character ends a word. -/
def endsWord (c : Char) : Bool :=
  isBlank c || c == '\r' || c == '\n' || c == ',' || c == ']' || c == '\x7d' || c == '#'

/-- The value that a word is. -/
def word (cs : List Char) : Option Json :=
  if cs = ['t', 'r', 'u', 'e'] then some (.bool true)
  else if cs = ['f', 'a', 'l', 's', 'e'] then some (.bool false)
  else number cs

/-- The levels of arrays and tables in brackets that a value may have. -/
def maxNesting : Nat := 80

mutual

/-- A value of at most some levels, and what follows it. -/
def value (levels : Nat) (cs : List Char) : Option (Json × List Char) :=
  match _h : cs with
  | '[' :: rest => match levels with
    | 0 => none
    | inner + 1 => (items inner rest).map fun (vs, r) => (.array vs, r)
  | '\x7b' :: rest => match levels with
    | 0 => none
    | inner + 1 => (pairs inner [] rest).map fun (fs, r) => (.object (fieldsJson fs), r)
  | cs => match string? cs with
    | some s => s.map fun (s, r) => (.string (String.ofList s), r)
    | none => (word (cs.takeWhile (!endsWord ·))).map (·, cs.dropWhile (!endsWord ·))
termination_by 2 * cs.length
decreasing_by all_goals subst_vars; simp_all; omega

/-- The items of an array up to its closing bracket, and what follows it. -/
def items (levels : Nat) (cs : List Char) : Option (List Json × List Char) :=
  match skipSpace cs with
  | none => none
  | some (']' :: after) => some ([], after)
  | some rest =>
    if _h : rest.length ≤ cs.length then
      match value levels rest with
      | none => none
      | some (v, rest) => match skipSpace rest with
        | some (',' :: rest) =>
          if _h : rest.length < cs.length then
            (items levels rest).map fun (vs, r) => (v :: vs, r)
          else none
        | some (']' :: after) => some ([v], after)
        | _ => none
    else none
termination_by 2 * cs.length + 1

/-- The fields of a table in braces up to the closing one, and what follows it;
`fs` are those that stand before. -/
def pairs (levels : Nat) (fs : Fields) (cs : List Char) : Option (Fields × List Char) :=
  match skipSpace cs with
  | none => none
  | some ('\x7d' :: after) => some (fs, after)
  | some rest => match key rest with
    | none => none
    | some (path, k, rest) => match skipSpace rest with
      | some ('=' :: rest) => match skipSpace rest with
        | none => none
        | some rest =>
          if _h : rest.length < cs.length then
            match value levels rest with
            | none => none
            | some (v, rest) => match Fields.assign path k v .defined fs, skipSpace rest with
              | some fs, some (',' :: rest) =>
                if _h : rest.length < cs.length then pairs levels fs rest else none
              | some fs, some ('\x7d' :: after) => some (fs, after)
              | _, _ => none
          else none
      | _ => none
termination_by 2 * cs.length + 1

end

/-- What follows the end of a line, which a comment may precede. -/
def endLine (cs : List Char) : Option (List Char) :=
  match skipComment (cs.dropWhile isBlank) with
  | some [] => some []
  | some rest => (lineEnd? rest).map (·.2)
  | none => none

/-- A header or a key with its value. -/
inductive Line
  | table (path : List String) (k : String)
  | tables (path : List String) (k : String)
  | pair (path : List String) (k : String) (v : Json)
  deriving Repr

/-- A line that is not blank, and what follows it. -/
def line : List Char → Option (Line × List Char)
  | '[' :: '[' :: cs => match key cs with
    | some (path, k, ']' :: ']' :: rest) => (endLine rest).map (.tables path k, ·)
    | _ => none
  | '[' :: cs => match key cs with
    | some (path, k, ']' :: rest) => (endLine rest).map (.table path k, ·)
    | _ => none
  | cs => match key cs with
    | some (path, k, '=' :: rest) => do
      let (v, rest) ← value maxNesting (rest.dropWhile isBlank)
      return (.pair path k v, ← endLine rest)
    | _ => none

/-- The lines of a text that are not blank. -/
def lines (cs : List Char) : Option (List Line) :=
  match skipSpace cs with
  | none => none
  | some [] => some []
  | some rest => match line rest with
    | none => none
    | some (l, after) =>
      if _h : after.length < cs.length then (lines after).map (l :: ·) else none
termination_by cs.length

/-- Adds lines to a table; `header` leads to the table that keys belong to. -/
def fill (fs : Fields) (header : List String) : List Line → Option Fields
  | [] => some fs
  | .table path k :: rest => do
    fill (← fs.under .implied (Fields.define k) .defined path) (path ++ [k]) rest
  | .tables path k :: rest => do
    fill (← fs.under .implied (Fields.append k) .defined path) (path ++ [k]) rest
  | .pair path k v :: rest => do
    fill (← fs.under .implied (Fields.assign path k v) .defined header) header rest

/-- A text without the mark that may precede it. -/
def skipMark : List Char → List Char
  | '\ufeff' :: cs => cs
  | cs => cs

/-- The table that a text describes. -/
def parse (cs : List Char) : Option Json := do
  return .object (fieldsJson (← fill [] [] (← lines (skipMark cs))))

end Toml
end Outline
