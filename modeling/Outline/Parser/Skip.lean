/-
# Skipping

Code inside of members is not parsed but skipped, and so is what the parser can
make nothing of.  Each function stops at a place of its own and consumes no
closing brace that was not opened on the way:

| function | stops |
| --- | --- |
| `skipGroup` | after the bracket that closes the group, or at a foreign closing brace |
| `skipExpression` | at a stop outside of brackets, or at any closing bracket |
| `skipToBody` | at `{`, `}`, `;` or `=>` outside of parentheses and square brackets |
| `skipMember` | after the next `;` outside of brackets, or at any closing bracket |
-/

import Outline.Parser.Cursor

namespace Outline
namespace Parser

/-- The missing token that a closing bracket is. -/
def missingCloser : Bracket → Expected
  | .paren => .closeParen
  | .square => .closeSquare
  | .brace => .closeBrace

/-- The brackets that were never closed, reported at the token `index`. -/
def unclosed (index : Nat) (opened : List Bracket) : List Finding :=
  opened.map fun b => ⟨.expected (missingCloser b), .gap index⟩

/-- Skips the rest of a group.  `opened` holds the brackets that are open, the
innermost first.  A closing bracket closes the innermost open bracket of its
shape and, as missing, all those inside of it.  The value says whether the group
was closed. -/
def skipOpened (opened : List Bracket) (index : Nat) : List Lexeme → Step Bool
  | [] => ⟨false, ⟨index, []⟩, unclosed index opened⟩
  | l :: ls =>
    match l.delimiter? with
    | some (.opening b) => skipOpened (b :: opened) (index + 1) ls
    | some (.closing b) =>
      if opened.contains b then
        let inner := opened.takeWhile (· ≠ b)
        match (opened.dropWhile (· ≠ b)).tail with
        | [] => ⟨true, ⟨index + 1, ls⟩, unclosed index inner⟩
        | outer => (skipOpened outer (index + 1) ls).before (unclosed index inner)
      else if b = .brace then ⟨false, ⟨index, l :: ls⟩, unclosed index opened⟩
      else (skipOpened opened (index + 1) ls).before [⟨.invalidTerm l.text, .whole index⟩]
    | none => skipOpened opened (index + 1) ls

theorem skipOpened_length_lt {opened : List Bracket} {index : Nat} {ls : List Lexeme} :
    (skipOpened opened index ls).value = true →
      (skipOpened opened index ls).rest.ahead.length < ls.length := by
  induction ls generalizing opened index with
  | nil => simp [skipOpened]
  | cons l ls ih =>
    rw [skipOpened]
    split
    · exact fun h => Nat.lt_succ_of_lt (ih h)
    · split
      · split
        · simp
        · exact fun h => Nat.lt_succ_of_lt (ih h)
      · split
        · simp
        · exact fun h => Nat.lt_succ_of_lt (ih h)
    · exact fun h => Nat.lt_succ_of_lt (ih h)

/-- Skips the group that starts with the next token, an opening bracket, and says
whether it was closed. -/
def skipGroup : Parser Bool := fun c => skipOpened [] c.index c.ahead

theorem skipGroup_remaining_lt {c : Cursor} (h : (skipGroup c).value = true) :
    (skipGroup c).rest.remaining < c.remaining :=
  skipOpened_length_lt h

/-- Skips an expression up to one of `stops`, which is not consumed. -/
def skipExpression (stops : List String) (c : Cursor) : Step Unit :=
  match _h : c.ahead with
  | [] => ⟨(), c, []⟩
  | l :: _ =>
    if l.isOneOf stops then ⟨(), c, []⟩
    else
      match l.delimiter? with
      | some (.closing _) => ⟨(), c, []⟩
      | some (.opening _) =>
        let s := skipGroup c
        if _closed : s.value = true then (skipExpression stops s.rest).before s.found
        else ⟨(), s.rest, s.found⟩
      | none => skipExpression stops c.next
termination_by c.remaining
decreasing_by
  · exact skipGroup_remaining_lt _closed
  · exact Cursor.remaining_next_lt (by simp [Cursor.atEnd, _h])

/-- Skips base types or constraints up to the body. -/
def skipToBody (c : Cursor) : Step Unit :=
  match _h : c.ahead with
  | [] => ⟨(), c, []⟩
  | l :: _ =>
    if l.isOneOf ["\x7b", "\x7d", ";", "=>"] then ⟨(), c, []⟩
    else if l.isOneOf ["(", "["] then
      let s := skipGroup c
      if _closed : s.value = true then (skipToBody s.rest).before s.found
      else ⟨(), s.rest, s.found⟩
    else skipToBody c.next
termination_by c.remaining
decreasing_by
  · exact skipGroup_remaining_lt _closed
  · exact Cursor.remaining_next_lt (by simp [Cursor.atEnd, _h])

/-- Skips the rest of a member that makes no sense: through the next `;`, and at
least one token unless a closing brace is next. -/
def skipMember : Parser Unit := do
  let start ← look (·.index)
  skipExpression [";"]
  unless ← eat ";" do
    if ← look (fun c => c.index == start && !c.atPunct "\x7d") then advance

/-- Skips attributes: groups in square brackets, as long as they are closed. -/
def attributes (c : Cursor) : Step Unit :=
  if c.atPunct "[" then
    let s := skipGroup c
    if _closed : s.value = true then (attributes s.rest).before s.found
    else ⟨(), s.rest, s.found⟩
  else ⟨(), c, []⟩
termination_by c.remaining
decreasing_by exact skipGroup_remaining_lt _closed

/-- A group in parentheses, or the report that it is missing. -/
def requiredParens : Parser Unit := do
  if ← look (·.atPunct "(") then
    let _ ← skipGroup
  else reportMissing .openParen

/-- A group in parentheses if one is next. -/
def optionalParens : Parser Unit := do
  if ← look (·.atPunct "(") then
    let _ ← skipGroup

end Parser
end Outline
