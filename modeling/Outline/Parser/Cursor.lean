/-
# Cursor and steps

A parser goes through the lexemes of a source.  It starts at a cursor and makes a
step: it comes to a value, a cursor further on, and findings.  It sees nothing but
the lexemes ahead and how many lie behind; in particular neither bytes nor blanks.
-/

import Outline.Lexer.Lexeme
import Outline.Parser.Finding

namespace Outline
namespace Parser

/-- How many lexemes lie behind, and those ahead. -/
structure Cursor where
  index : Nat
  ahead : List Lexeme
  deriving DecidableEq, Repr

namespace Cursor

/-- The next lexeme, if the source goes on. -/
def head? (c : Cursor) : Option Lexeme := c.ahead.head?

/-- The lexeme after the next one. -/
def second? (c : Cursor) : Option Lexeme := c.ahead.tail.head?

/-- How many lexemes are ahead. -/
def remaining (c : Cursor) : Nat := c.ahead.length

/-- The cursor one lexeme further on; at the end it stays. -/
def next (c : Cursor) : Cursor :=
  match c.ahead with
  | [] => c
  | _ :: ls => ⟨c.index + 1, ls⟩

/-- The cursor `n` lexemes further on, or at the end. -/
def drop (n : Nat) (c : Cursor) : Cursor := ⟨c.index + min n c.ahead.length, c.ahead.drop n⟩

/-- Whether the source is at its end. -/
def atEnd (c : Cursor) : Bool := c.ahead.isEmpty

/-- Whether the next lexeme is this punctuation. -/
def atPunct (c : Cursor) (p : String) : Bool := c.head?.any (·.isPunct p)

/-- Whether the next lexeme is one of these punctuations. -/
def atOneOf (c : Cursor) (ps : List String) : Bool := c.head?.any (·.isOneOf ps)

/-- Whether the next lexeme is this reserved word. -/
def atKeyword (c : Cursor) (k : String) : Bool := c.head?.any (·.isKeyword k)

/-- Whether the next lexeme is this name. -/
def atWord (c : Cursor) (w : String) : Bool := c.head?.any (·.isWord w)

/-- Whether the next lexeme is a name. -/
def atName (c : Cursor) : Bool := c.head?.any (·.isName)

theorem remaining_next_lt {c : Cursor} (h : c.atEnd = false) : c.next.remaining < c.remaining := by
  obtain ⟨i, ls⟩ := c
  cases ls with
  | nil => simp [atEnd] at h
  | cons l ls => simp [next, remaining]

theorem remaining_next_le (c : Cursor) : c.next.remaining ≤ c.remaining := by
  obtain ⟨i, ls⟩ := c
  cases ls <;> simp [next, remaining]

theorem remaining_drop (n : Nat) (c : Cursor) : (c.drop n).remaining = c.remaining - n := by
  simp [drop, remaining]

end Cursor

/-- What a parser comes to. -/
structure Step (α : Type) where
  value : α
  rest : Cursor
  found : List Finding
  deriving DecidableEq, Repr

/-- The step with more findings before its own. -/
def Step.before {α : Type} (found : List Finding) (s : Step α) : Step α :=
  { s with found := found ++ s.found }

/-- The step with its value mapped. -/
def Step.map {α β : Type} (f : α → β) (s : Step α) : Step β := ⟨f s.value, s.rest, s.found⟩

end Parser

/-- Goes from a cursor to a value, a cursor further on, and findings. -/
def Parser (α : Type) : Type := Parser.Cursor → Parser.Step α

namespace Parser

instance : Monad Parser where
  pure a := fun c => ⟨a, c, []⟩
  bind p f := fun c => (f (p c).value (p c).rest).before (p c).found

theorem pure_apply {α : Type} (a : α) (c : Cursor) : (pure a : Parser α) c = ⟨a, c, []⟩ := rfl

theorem bind_apply {α β : Type} (p : Parser α) (f : α → Parser β) (c : Cursor) :
    (p >>= f) c = (f (p c).value (p c).rest).before (p c).found := rfl

instance : LawfulMonad Parser := LawfulMonad.mk' Parser
  (fun p => by funext c; simp [Functor.map, Function.comp, Step.before])
  (fun a f => by funext c; simp [bind, pure, Step.before])
  (fun p f g => by funext c; simp [bind, Step.before])

/-- What can be seen from the cursor. -/
def look {α : Type} (f : Cursor → α) : Parser α := fun c => ⟨f c, c, []⟩

/-- Goes one lexeme on; at the end it stays. -/
def advance : Parser Unit := fun c => ⟨(), c.next, []⟩

/-- Reports a cause at a mark. -/
def report (cause : Cause) (mark : Mark) : Parser Unit := fun c => ⟨(), c, [⟨cause, mark⟩]⟩

/-- Reports a cause at the next token, which may be the end of the source. -/
def reportHere (cause : Cause) : Parser Unit := do report cause (.whole (← look (·.index)))

/-- Reports a cause just after the token before. -/
def reportAfter (cause : Cause) : Parser Unit := do report cause (.gap (← look (·.index)))

/-- Reports that a token is missing just after the one before. -/
def reportMissing (e : Expected) : Parser Unit := reportAfter (.expected e)

/-- Takes this punctuation if it is next, and says whether it was. -/
def eat (p : String) : Parser Bool := do
  if ← look (·.atPunct p) then
    advance
    return true
  return false

/-- Takes this punctuation, or reports that it is missing. -/
def expect (p : String) (e : Expected) : Parser Unit := do
  unless ← eat p do reportMissing e

/-- Takes a name if one is next. -/
def name? : Parser (Option String) := do
  match ← look (·.head?) with
  | some l =>
    if l.isName then
      advance
      return some l.text
    return none
  | none => return none

end Parser
end Outline
