/-
# Expressions as they are written

An expression is a tree, and it says with which lexemes it is written.  The first value of
a field is passed up to the first comma outside of brackets.  Angles are no brackets there,
so a list of type arguments after `new` may end the value too early.

| tree | written as | commas outside of brackets |
| --- | --- | --- |
| atom, access, operation | `a`, `e.m`, `e + f` | those of its parts |
| call, index, parentheses | `f(e, f)`, `a[e]`, `(e)` | those before the brackets |
| creation | `new G<T, U>(e, f)` | those of type arguments |
-/

import Outline.Proofs.Code.Type

namespace Outline
namespace Code

open Outline.Parser
open Lexeme (mark)

/-- Where the first value of a field ends. -/
def valueStops : List String := [",", ";"]

/-! ### Commas in types -/

mutual

/-- Whether a type has a comma outside of brackets. -/
def TypeExpr.exposesComma : TypeExpr → Bool
  | .builtin _ _ | .tuple _ _ _ => false
  | .path p => p.exposesComma
  | .nullable t | .pointer t | .array t _ => t.exposesComma

/-- Whether the arguments of a path have a comma outside of brackets. -/
def TypePath.exposesComma : TypePath → Bool
  | .last _ arguments => exposesArguments arguments
  | .more _ arguments _ rest => exposesArguments arguments || rest.exposesComma

/-- Whether type arguments have a comma outside of brackets: there are two, or the only one
has. -/
def exposesArguments : List TypeExpr → Bool
  | [] => false
  | t :: ts => t.exposesComma || !ts.isEmpty

end

mutual

/-- A type without commas outside of brackets is passed in a value. -/
theorem TypeExpr.expression : ∀ t : TypeExpr, t.exposesComma = false →
    Expression valueStops t.spelling
  | .builtin word _, _ => by
    have hw := isWordy_word word
    rw [TypeExpr.spelling]
    exact .plain (delimiter?_of_isWordy hw) (isOneOf_of_isWordy hw _) .nil
  | .path p, h => by
    rw [TypeExpr.exposesComma] at h
    rw [TypeExpr.spelling]
    exact .plain rfl rfl (p.expression h)
  | .tuple first second more, _ => by
    rw [TypeExpr.spelling]
    exact .bracket (by decide) (first.wellNested.append
      ((second.wellNested.append (wellNested_spellMore more)).plain rfl))
  | .nullable t, h | .pointer t, h => by
    rw [TypeExpr.exposesComma] at h
    rw [TypeExpr.spelling]
    exact (t.expression h).append (.plain rfl rfl .nil)
  | .array t commas, h => by
    rw [TypeExpr.exposesComma] at h
    rw [TypeExpr.spelling]
    exact (t.expression h).append (.bracket (by decide) (.replicate rfl commas))

theorem TypePath.expression : ∀ p : TypePath, p.exposesComma = false →
    Expression valueStops p.tail
  | .last _ arguments, h => by
    rw [TypePath.exposesComma] at h
    rw [TypePath.tail]
    exact expression_arguments arguments h
  | .more _ arguments q rest, h => by
    rw [TypePath.exposesComma, Bool.or_eq_false_iff] at h
    rw [TypePath.tail]
    exact (expression_arguments arguments h.1).append
      (.plain (delimiter?_of_isOneOf q.isOneOf_sign (by decide))
        (isOneOf_of_disjoint q.isOneOf_sign (by decide)) (.plain rfl rfl (rest.expression h.2)))

theorem expression_arguments : ∀ ts : List TypeExpr, exposesArguments ts = false →
    Expression valueStops (spellArguments ts)
  | [], _ => .nil
  | [t], h => by
    rw [exposesArguments, Bool.or_eq_false_iff] at h
    rw [spellArguments, angles, spellMore, List.append_nil]
    exact .plain rfl rfl ((t.expression h.1).append (.plain rfl rfl .nil))
  | _ :: _ :: _, h => by
    rw [exposesArguments, Bool.or_eq_false_iff] at h
    cases h.2

end

/-- Lexemes that show a comma between type arguments: more arguments follow what is passed
in a value, and an angle closes them. -/
def ExposesArguments (ls : List Lexeme) : Prop :=
  ∃ before t ts after, Expression valueStops before ∧
    ls = before ++ (spellMore (t :: ts) ++ mark ">" :: after)

namespace ExposesArguments

variable {ls ms : List Lexeme}

theorem append (h : ExposesArguments ls) (ms : List Lexeme) : ExposesArguments (ls ++ ms) := by
  obtain ⟨before, t, ts, after, hb, rfl⟩ := h
  exact ⟨before, t, ts, after ++ ms, hb, by simp⟩

theorem after_expression (hm : Expression valueStops ms) (h : ExposesArguments ls) :
    ExposesArguments (ms ++ ls) := by
  obtain ⟨before, t, ts, after, hb, rfl⟩ := h
  exact ⟨ms ++ before, t, ts, after, hm.append hb, by simp⟩

theorem cons {l : Lexeme} (hl : l.delimiter? = none) (hs : l.isOneOf valueStops = false)
    (h : ExposesArguments ls) : ExposesArguments (l :: ls) :=
  h.after_expression (.plain hl hs .nil)

end ExposesArguments

mutual

/-- A type with a comma outside of brackets shows one between type arguments. -/
theorem TypeExpr.exposesArguments : ∀ t : TypeExpr, t.exposesComma = true →
    ExposesArguments t.spelling
  | .builtin _ _, h | .tuple _ _ _, h => by
    rw [TypeExpr.exposesComma] at h
    cases h
  | .path p, h => by
    rw [TypeExpr.exposesComma] at h
    rw [TypeExpr.spelling]
    exact (p.exposesArguments h).cons rfl rfl
  | .nullable t, h | .pointer t, h | .array t _, h => by
    rw [TypeExpr.exposesComma] at h
    rw [TypeExpr.spelling]
    exact (t.exposesArguments h).append _

theorem TypePath.exposesArguments : ∀ p : TypePath, p.exposesComma = true →
    ExposesArguments p.tail
  | .last _ arguments, h => by
    rw [TypePath.exposesComma] at h
    rw [TypePath.tail]
    exact exposes_arguments arguments h
  | .more _ arguments q rest, h => by
    rw [TypePath.exposesComma, Bool.or_eq_true] at h
    rw [TypePath.tail]
    cases ha : exposesArguments arguments with
    | true => exact (exposes_arguments arguments ha).append _
    | false =>
      have hrest := rest.exposesArguments (h.resolve_left (by simp [ha]))
      refine .after_expression (expression_arguments arguments ha) ?_
      exact (hrest.cons rfl rfl).cons (delimiter?_of_isOneOf q.isOneOf_sign (by decide))
        (isOneOf_of_disjoint q.isOneOf_sign (by decide))

theorem exposes_arguments : ∀ ts : List TypeExpr, exposesArguments ts = true →
    ExposesArguments (spellArguments ts)
  | [], h => by
    rw [exposesArguments] at h
    cases h
  | t :: ts, h => by
    rw [exposesArguments, Bool.or_eq_true] at h
    rw [spellArguments, angles]
    refine .cons rfl rfl ?_
    cases ht : t.exposesComma with
    | true => exact ((t.exposesArguments ht).append _).append _
    | false =>
      cases ts with
      | nil => exact absurd h (by simp [ht])
      | cons u us =>
        rw [List.append_assoc]
        exact ⟨t.spelling, u, us, [], t.expression ht, rfl⟩

end

/-! ### Expressions -/

/-- The operators between two expressions. -/
def operators : List String := [
  "+", "-", "*", "/", "%", "&", "|", "^", "<", ">", "<=", ">=", "==", "!=", "&&", "||", "<<", ">>",
  ">>>", "??", "is", "as"]

/-- An operator between two expressions. -/
structure Operator where
  text : String
  isOperator : text ∈ operators := by decide

/-- The lexemes of an operator: a word, or signs of one character each. -/
def spellOperator (text : String) : List Lexeme :=
  if Name.isKeyword text then [.word text] else text.toList.map fun c => mark c.toString

/-- An expression. -/
inductive Expr
  /-- A name, a reserved word or a literal. -/
  | atom (l : Lexeme) (h : l.kind ≠ .punct)
  | access (e : Expr) (name : String)
  | call (f : Expr) (arguments : List Expr)
  | index (e : Expr) (arguments : List Expr)
  | create (type : TypeExpr) (arguments : List Expr)
  | binary (left : Expr) (o : Operator) (right : Expr)
  | paren (e : Expr)

mutual

/-- The lexemes of an expression. -/
def Expr.spelling : Expr → List Lexeme
  | .atom l _ => [l]
  | .access e name => e.spelling ++ [mark ".", .name name]
  | .call f arguments => f.spelling ++ grouped .paren (spellList arguments)
  | .index e arguments => e.spelling ++ grouped .square (spellList arguments)
  | .create type arguments =>
    .word "new" :: (type.spelling ++ grouped .paren (spellList arguments))
  | .binary left o right => left.spelling ++ (spellOperator o.text ++ right.spelling)
  | .paren e => grouped .paren e.spelling

/-- The lexemes of expressions with commas between them. -/
def spellList : List Expr → List Lexeme
  | [] => []
  | [e] => e.spelling
  | e :: es => e.spelling ++ mark "," :: spellList es

end

/-- Whether an expression has a comma outside of brackets. -/
def Expr.exposesComma : Expr → Bool
  | .atom _ _ => false
  | .access e _ | .call e _ | .index e _ => e.exposesComma
  | .create type _ => type.exposesComma
  | .binary left _ right => left.exposesComma || right.exposesComma
  | .paren _ => false

theorem expression_of_forall {stops : List String} {ls : List Lexeme}
    (h : ∀ l ∈ ls, l.delimiter? = none ∧ l.isOneOf stops = false) : Expression stops ls := by
  induction ls with
  | nil => exact .nil
  | cons l ls ih =>
    obtain ⟨hl, hls⟩ := List.forall_mem_cons.1 h
    exact .plain hl.1 hl.2 (ih hls)

theorem Operator.expression (o : Operator) : Expression valueStops (spellOperator o.text) := by
  have each : ∀ s ∈ operators, ∀ l ∈ spellOperator s,
      l.delimiter? = none ∧ l.isOneOf valueStops = false := by decide +kernel
  exact expression_of_forall (each o.text o.isOperator)

mutual

theorem Expr.wellNested : ∀ e : Expr, WellNested e.spelling
  | .atom l h => by
    rw [Expr.spelling]
    exact .plain (delimiter?_of_kind h) .nil
  | .access e _ => by
    rw [Expr.spelling]
    exact e.wellNested.append ((WellNested.nil.plain rfl).plain rfl)
  | .call e arguments | .index e arguments => by
    rw [Expr.spelling]
    exact e.wellNested.append (.bracket _ (wellNested_spellList arguments))
  | .create type arguments => by
    rw [Expr.spelling]
    exact .plain rfl (type.wellNested.append (.bracket .paren (wellNested_spellList arguments)))
  | .binary left o right => by
    rw [Expr.spelling]
    exact left.wellNested.append (o.expression.wellNested.append right.wellNested)
  | .paren e => by
    rw [Expr.spelling]
    exact .bracket .paren e.wellNested

theorem wellNested_spellList : ∀ es : List Expr, WellNested (spellList es)
  | [] => by
    rw [spellList]
    exact .nil
  | [e] => by
    rw [spellList]
    exact e.wellNested
  | e :: f :: es => by
    rw [spellList]
    · exact e.wellNested.append ((wellNested_spellList (f :: es)).plain rfl)
    · exact List.cons_ne_nil f es

end

/-- **An expression without commas outside of brackets is passed** in a value. -/
theorem Expr.expression : ∀ e : Expr, e.exposesComma = false → Expression valueStops e.spelling
  | .atom l h, _ => by
    have hs : l.isOneOf valueStops = false := by simp [Lexeme.isOneOf, h]
    rw [Expr.spelling]
    exact .plain (delimiter?_of_kind h) hs .nil
  | .access e _, h => by
    rw [Expr.exposesComma] at h
    rw [Expr.spelling]
    exact (e.expression h).append (.plain rfl rfl (.plain rfl rfl .nil))
  | .call e arguments, h | .index e arguments, h => by
    rw [Expr.exposesComma] at h
    rw [Expr.spelling]
    exact (e.expression h).append (.bracket (by decide) (wellNested_spellList arguments))
  | .create type arguments, h => by
    rw [Expr.exposesComma] at h
    rw [Expr.spelling]
    exact .plain rfl rfl
      ((type.expression h).append (.bracket (by decide) (wellNested_spellList arguments)))
  | .binary left o right, h => by
    rw [Expr.exposesComma, Bool.or_eq_false_iff] at h
    rw [Expr.spelling]
    exact (left.expression h.1).append (o.expression.append (right.expression h.2))
  | .paren e, _ => by
    rw [Expr.spelling]
    exact .bracket (by decide) e.wellNested

/-- An expression with a comma outside of brackets shows one between type arguments. -/
theorem Expr.exposesArguments : ∀ e : Expr, e.exposesComma = true → ExposesArguments e.spelling
  | .atom _ _, h | .paren _, h => by
    rw [Expr.exposesComma] at h
    cases h
  | .access e _, h | .call e _, h | .index e _, h => by
    rw [Expr.exposesComma] at h
    rw [Expr.spelling]
    exact (e.exposesArguments h).append _
  | .create type _, h => by
    rw [Expr.exposesComma] at h
    rw [Expr.spelling]
    exact .cons rfl rfl ((type.exposesArguments h).append _)
  | .binary left o right, h => by
    rw [Expr.exposesComma, Bool.or_eq_true] at h
    rw [Expr.spelling]
    cases hl : left.exposesComma with
    | true => exact (left.exposesArguments hl).append _
    -- without such a comma the left operand is passed
    | false =>
      have hr := right.exposesArguments (h.resolve_left (by simp [hl]))
      exact .after_expression (left.expression hl) (.after_expression o.expression hr)

end Code
end Outline
