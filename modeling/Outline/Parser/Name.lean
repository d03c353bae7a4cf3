/-
# Names and types

Qualified names, lists of type parameters, types and the names of members.

| what | form |
| --- | --- |
| qualified name | names joined by `.` or `::` |
| type parameters | `<`, names and commas, `>`; angles inside may nest |
| type | a built-in or qualified name with type arguments, or a group in parentheses |
| after a type | `?`, `*`, `[]`, `[,]`, in any number |
| member name | names joined by `.`, with type arguments before a `.` |
-/

import Outline.Parser.Skip

namespace Outline
namespace Parser

/-- The reserved words that are types. -/
def builtinTypes : List String := [
  "bool", "byte", "char", "decimal", "double", "float", "int", "long", "object", "sbyte",
  "short", "string", "uint", "ulong", "ushort", "void"]

/-- Counts the type parameters up to the `>` that ends the list.  `arity` holds
those counted, `depth` the open angles. -/
def typeParametersFrom (arity depth index : Nat) : List Lexeme → Step Nat
  | [] => ⟨arity, ⟨index, []⟩, [⟨.expected .closeAngle, .gap index⟩]⟩
  | l :: ls =>
    if l.isOneOf ["\x7b", "\x7d", ";", "(", "=>"] then
      ⟨arity, ⟨index, l :: ls⟩, [⟨.expected .closeAngle, .gap index⟩]⟩
    else if l.isPunct "<" then typeParametersFrom arity (depth + 1) (index + 1) ls
    else if l.isPunct ">" then
      if depth = 1 then ⟨arity, ⟨index + 1, ls⟩, []⟩
      else typeParametersFrom arity (depth - 1) (index + 1) ls
    else if l.isPunct "," && depth == 1 then typeParametersFrom (arity + 1) depth (index + 1) ls
    else typeParametersFrom arity depth (index + 1) ls

theorem typeParametersFrom_length_le (arity depth index : Nat) (ls : List Lexeme) :
    (typeParametersFrom arity depth index ls).rest.ahead.length ≤ ls.length := by
  induction ls generalizing arity depth index with
  | nil => simp [typeParametersFrom]
  | cons l ls ih =>
    rw [typeParametersFrom]
    split
    · simp
    split
    · exact Nat.le_succ_of_le (ih _ _ _)
    split
    · split
      · simp
      · exact Nat.le_succ_of_le (ih _ _ _)
    split
    · exact Nat.le_succ_of_le (ih _ _ _)
    · exact Nat.le_succ_of_le (ih _ _ _)

/-- Counts the type parameters of the list that starts with the next token. -/
def typeParameters : Parser Nat := fun c => typeParametersFrom 1 1 c.next.index c.next.ahead

theorem typeParameters_remaining_lt {c : Cursor} (h : c.atEnd = false) :
    (typeParameters c).rest.remaining < c.remaining :=
  Nat.lt_of_le_of_lt (typeParametersFrom_length_le 1 1 c.next.index c.next.ahead)
    (Cursor.remaining_next_lt h)

/-- Counts type parameters if a list of them is next. -/
def typeParameters? : Parser Nat := do
  if ← look (·.atPunct "<") then typeParameters else return 0

/-- Whether a separator and a name are next. -/
def atQualifier (c : Cursor) : Bool := c.atOneOf [".", "::"] && c.next.atName

theorem Cursor.atEnd_of_any {c : Cursor} {p : Lexeme → Bool} (h : c.head?.any p = true) :
    c.atEnd = false := by
  obtain ⟨i, ls⟩ := c
  cases ls with
  | nil => simp [Cursor.head?] at h
  | cons l ls => rfl

theorem atQualifier_remaining_lt {c : Cursor} (h : atQualifier c = true) :
    c.next.next.remaining < c.remaining := by
  simp only [atQualifier, Bool.and_eq_true] at h
  exact Nat.lt_of_le_of_lt (Cursor.remaining_next_le _)
    (Cursor.remaining_next_lt (Cursor.atEnd_of_any h.1))

/-- The text of the next lexeme; none at the end. -/
def Cursor.text (c : Cursor) : String := (c.head?.map (·.text)).getD ""

/-- Goes on a qualified name with the separators and names that are next. -/
def qualifiedTail (name : String) (c : Cursor) : Step String :=
  if _h : atQualifier c = true then
    qualifiedTail (name ++ c.text ++ c.next.text) c.next.next
  else ⟨name, c, []⟩
termination_by c.remaining
decreasing_by exact atQualifier_remaining_lt _h

/-- Takes a qualified name if one is next. -/
def qualifiedName? : Parser (Option String) := do
  match ← name? with
  | some first => return some (← qualifiedTail first)
  | none => return none

/-- Skips the qualifiers and the type arguments of a type. -/
def typeTail (c : Cursor) : Step Unit :=
  if _h : atQualifier c = true then typeTail c.next.next
  else if _h : c.atPunct "<" = true then
    (typeTail (typeParameters c).rest).before (typeParameters c).found
  else ⟨(), c, []⟩
termination_by c.remaining
decreasing_by
  · exact atQualifier_remaining_lt _h
  · exact typeParameters_remaining_lt (Cursor.atEnd_of_any _h)

/-- Whether the brackets of an array type are next. -/
def atArraySuffix (c : Cursor) : Bool := c.atPunct "[" && c.next.atOneOf ["]", ","]

/-- Skips what may follow a type: nullable and pointer signs and array brackets. -/
def typeSuffixes (c : Cursor) : Step Unit :=
  if _h : c.atOneOf ["?", "*"] = true then typeSuffixes c.next
  else if atArraySuffix c then
    let s := skipGroup c
    if _closed : s.value = true then (typeSuffixes s.rest).before s.found
    else ⟨(), s.rest, s.found⟩
  else ⟨(), c, []⟩
termination_by c.remaining
decreasing_by
  · exact Cursor.remaining_next_lt (Cursor.atEnd_of_any _h)
  · exact skipGroup_remaining_lt _closed

/-- Skips a type, and says whether one was there. -/
def typeReference : Parser Bool := do
  if ← look (·.atPunct "(") then
    if ← skipGroup then
      typeSuffixes
      return true
    return false
  else if ← look (fun c => c.atName || c.head?.any (·.isKeywordOf builtinTypes)) then
    advance
    typeTail
    typeSuffixes
    return true
  else return false

/-- How many lexemes there are up to and with the `>` that closes the open
angles; none if something stands before it that no type holds. -/
def angleLength (depth : Nat) : List Lexeme → Option Nat
  | [] => none
  | l :: ls =>
    if l.isPunct "<" then (angleLength (depth + 1) ls).map (· + 1)
    else if l.isPunct ">" then
      if depth ≤ 1 then some 1 else (angleLength (depth - 1) ls).map (· + 1)
    else if l.isOneOf ["\x7b", "\x7d", ";", "("] then none
    else (angleLength depth ls).map (· + 1)

/-- How many lexemes the type arguments that are next take, if a `.` follows. -/
def qualifyingArguments (c : Cursor) : Option Nat :=
  if c.atPunct "<" then
    match angleLength 1 c.next.ahead with
    | some n => if (c.drop (n + 1)).atPunct "." then some n else none
    | none => none
  else none

/-- The texts of the next `n` lexemes. -/
def Cursor.texts (n : Nat) (c : Cursor) : String :=
  String.join ((c.ahead.take n).map (·.text))

/-- Goes on the name of a member. -/
def memberNameTail (name : String) (c : Cursor) : Step String :=
  if _h : c.atPunct "." = true ∧ c.next.atName = true then
    memberNameTail (name ++ "." ++ c.next.text) c.next.next
  else match _h : qualifyingArguments c with
    | some n => memberNameTail (name ++ c.texts (n + 1)) (c.drop (n + 1))
    | none => ⟨name, c, []⟩
termination_by c.remaining
decreasing_by
  · exact Nat.lt_of_le_of_lt (Cursor.remaining_next_le _)
      (Cursor.remaining_next_lt (Cursor.atEnd_of_any _h.1))
  · have hc : c.atPunct "<" = true := by
      simp only [qualifyingArguments] at _h
      split at _h
      · assumption
      · simp at _h
    have hn : 0 < c.remaining := by
      obtain ⟨i, ls⟩ := c
      cases ls with
      | nil => simp [Cursor.atPunct, Cursor.head?] at hc
      | cons l ls => simp [Cursor.remaining]
    rw [Cursor.remaining_drop]
    omega

/-- Takes the name of a member if one is next. -/
def memberName? : Parser (Option String) := do
  match ← name? with
  | some first => return some (← memberNameTail first)
  | none => return none

end Parser
end Outline
