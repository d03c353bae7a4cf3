/-
# TOML strings and keys

| string | quotes | escapes | line ends |
| --- | --- | --- | --- |
| basic | `"` | yes | no |
| literal | `'` | no | no |
| basic over lines | `"""` | yes | yes, also escaped ones |
| literal over lines | `'''` | no | yes |

A line ends in one character or in two, and a string over lines keeps its line ends
as they are.  A line end right after the opening quotes does not count, and up to two
quotes may stand right before the closing ones.  Readers give the characters that
were read and the text after them.

A key has at most `maxKeys` parts.
-/

import Outline.Json.Reader

namespace Outline
namespace Toml

/-- Whether a character may stand in a string or a comment. -/
def isPrintable (c : Char) : Bool := c == '\t' || (0x20 ≤ c.toNat && c.toNat != 0x7F)

/-- Whether a character is a blank within a line. -/
def isBlank (c : Char) : Bool := c == ' ' || c == '\t'

/-- The line end that a text starts with, and what follows it. -/
def lineEnd? : List Char → Option (List Char × List Char)
  | '\n' :: rest => some (['\n'], rest)
  | '\r' :: '\n' :: rest => some (['\r', '\n'], rest)
  | _ => none

theorem length_lt_of_lineEnd {cs e rest : List Char} (h : lineEnd? cs = some (e, rest)) :
    rest.length < cs.length := by
  unfold lineEnd? at h
  split at h
  · obtain ⟨_, rfl⟩ := Prod.mk.inj (Option.some.inj h)
    exact Nat.lt_succ_self _
  · obtain ⟨_, rfl⟩ := Prod.mk.inj (Option.some.inj h)
    exact Nat.lt_add_of_pos_right Nat.two_pos
  · simp at h

/-- The character of a number in hexadecimal digits. -/
def hexChar (ds : List Char) : Option Char := do
  let n ← ds.foldlM (fun n d => return n * 16 + (← Json.hexValue d)) 0
  if n.isValidChar then some (Char.ofNat n) else none

/-- An escape with a number of `count` digits, and what follows it. -/
def numbered (count : Nat) (cs : List Char) : Option (Char × List Char) :=
  if (cs.take count).length = count then (hexChar (cs.take count)).map (·, cs.drop count) else none

theorem length_le_of_numbered {count : Nat} {cs rest : List Char} {c : Char}
    (h : numbered count cs = some (c, rest)) : rest.length ≤ cs.length := by
  unfold numbered at h
  split at h
  · obtain ⟨_, _, h⟩ := Option.map_eq_some_iff.1 h
    obtain ⟨_, rfl⟩ := Prod.mk.inj h
    simp
  · simp at h

/-- The character that an escape stands for, and what follows it. -/
def escape : List Char → Option (Char × List Char)
  | 'b' :: r => some ('\x08', r)
  | 't' :: r => some ('\t', r)
  | 'n' :: r => some ('\n', r)
  | 'f' :: r => some ('\x0c', r)
  | 'r' :: r => some ('\r', r)
  | 'e' :: r => some ('\x1b', r)
  | '"' :: r => some ('"', r)
  | '\\' :: r => some ('\\', r)
  | 'x' :: r => numbered 2 r
  | 'u' :: r => numbered 4 r
  | 'U' :: r => numbered 8 r
  | _ => none

theorem length_lt_of_escape {cs rest : List Char} {c : Char} (h : escape cs = some (c, rest)) :
    rest.length < cs.length := by
  unfold escape at h
  split at h
  iterate 8
    · obtain ⟨_, rfl⟩ := Prod.mk.inj (Option.some.inj h)
      simp
  iterate 3 exact Nat.lt_succ_of_le (length_le_of_numbered h)
  simp at h

/-- A basic string after its opening quote. -/
def basic (cs : List Char) : Option (List Char × List Char) :=
  match _h : cs with
  | [] => none
  | '"' :: rest => some ([], rest)
  | '\\' :: rest => match _e : escape rest with
    | none => none
    | some (c, after) => (basic after).map fun (s, r) => (c :: s, r)
  | c :: rest =>
    if isPrintable c then (basic rest).map fun (s, r) => (c :: s, r) else none
termination_by cs.length
decreasing_by
  · exact Nat.lt_succ_of_lt (length_lt_of_escape _e)
  · simp

/-- A literal string after its opening quote. -/
def literal : List Char → Option (List Char × List Char)
  | [] => none
  | c :: rest =>
    if c = '\'' then some ([], rest)
    else if isPrintable c then (literal rest).map fun (s, r) => (c :: s, r)
    else none

/-- The quotes of a string over lines that stand before its closing ones, and what
follows those; none if three quotes do not stand here. -/
def closing (q : Char) (cs : List Char) : Option (List Char × List Char) :=
  let count := min (cs.takeWhile (· = q)).length 5
  if 3 ≤ count then some (List.replicate (count - 3) q, cs.drop count) else none

/-- A text without the blanks and line ends at its start. -/
def skipLines : List Char → List Char
  | '\r' :: '\n' :: rest => skipLines rest
  | c :: rest => if isBlank c || c == '\n' then skipLines rest else c :: rest
  | [] => []

theorem skipLines_length_le (cs : List Char) : (skipLines cs).length ≤ cs.length := by
  fun_induction skipLines cs <;> simp_all <;> omega

/-- What follows an escaped line end and the blanks after it. -/
def escapedLineEnd (cs : List Char) : Option (List Char) :=
  (lineEnd? (cs.dropWhile isBlank)).map fun (_, rest) => skipLines rest

theorem length_lt_of_escapedLineEnd {cs rest : List Char} (h : escapedLineEnd cs = some rest) :
    rest.length < cs.length := by
  obtain ⟨⟨e, after⟩, found, rfl⟩ := Option.map_eq_some_iff.1 h
  have := length_lt_of_lineEnd found
  have := skipLines_length_le after
  have := (List.dropWhile_suffix isBlank (l := cs)).length_le
  show (skipLines after).length < cs.length
  omega

/-- A basic string over lines after its opening quotes. -/
def basicLines (cs : List Char) : Option (List Char × List Char) :=
  match closing '"' cs with
  | some closed => some closed
  | none => match _l : lineEnd? cs with
    | some (e, rest) => (basicLines rest).map fun (s, r) => (e ++ s, r)
    | none => match cs with
      | [] => none
      | c :: rest =>
        if c = '\\' then match _n : escapedLineEnd rest with
          | some after => basicLines after
          | none => match _e : escape rest with
            | none => none
            | some (c, after) => (basicLines after).map fun (s, r) => (c :: s, r)
        else if isPrintable c then (basicLines rest).map fun (s, r) => (c :: s, r) else none
termination_by cs.length
decreasing_by
  · exact length_lt_of_lineEnd _l
  · exact Nat.lt_succ_of_lt (length_lt_of_escapedLineEnd _n)
  · exact Nat.lt_succ_of_lt (length_lt_of_escape _e)
  · simp

/-- A literal string over lines after its opening quotes. -/
def literalLines (cs : List Char) : Option (List Char × List Char) :=
  match closing '\'' cs with
  | some closed => some closed
  | none => match _l : lineEnd? cs with
    | some (e, rest) => (literalLines rest).map fun (s, r) => (e ++ s, r)
    | none => match cs with
      | [] => none
      | c :: rest =>
        if isPrintable c then (literalLines rest).map fun (s, r) => (c :: s, r) else none
termination_by cs.length
decreasing_by
  · exact length_lt_of_lineEnd _l
  · simp

/-- A text without a line end at its start. -/
def skipLineEnd (cs : List Char) : List Char :=
  match lineEnd? cs with
  | some (_, rest) => rest
  | none => cs

/-- A string of any kind, if a quote stands here. -/
def string? : List Char → Option (Option (List Char × List Char))
  | '"' :: '"' :: '"' :: rest => some (basicLines (skipLineEnd rest))
  | '\'' :: '\'' :: '\'' :: rest => some (literalLines (skipLineEnd rest))
  | '"' :: rest => some (basic rest)
  | '\'' :: rest => some (literal rest)
  | _ => none

/-- Whether a character may stand in a key without quotes. -/
def isBare (c : Char) : Bool := c.isAlphanum || c == '-' || c == '_'

/-- A key without dots. -/
def simpleKey : List Char → Option (String × List Char)
  | '"' :: rest => (basic rest).map fun (s, r) => (String.ofList s, r)
  | '\'' :: rest => (literal rest).map fun (s, r) => (String.ofList s, r)
  | cs => match cs.takeWhile isBare with
    | [] => none
    | k => some (String.ofList k, cs.dropWhile isBare)

/-- The parts that a key may have. -/
def maxKeys : Nat := 80

/-- A key with its dots, as the keys before the last dot and the last one; the
blanks around them are passed over. -/
def dottedKey (cs : List Char) : Option (List String × String × List Char) :=
  match simpleKey (cs.dropWhile isBlank) with
  | none => none
  | some (k, rest) => match rest.dropWhile isBlank with
    | '.' :: rest =>
      if _h : rest.length < cs.length then
        (dottedKey rest).map fun (path, last, r) => (k :: path, last, r)
      else none
    | rest => some ([], k, rest)
termination_by cs.length

/-- A key that has not too many parts. -/
def key (cs : List Char) : Option (List String × String × List Char) :=
  (dottedKey cs).filter fun (path, _, _) => path.length < maxKeys

end Toml
end Outline
