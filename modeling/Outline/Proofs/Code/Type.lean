/-
# Types as they are written

A type is a tree, and it says with which lexemes it is written.  Its parts are passed by
the parser in different ways, so it matters where a tuple stands: the list of type
arguments ends at a parenthesis, but the parentheses of a tuple are passed with all that
they hold.

| tree | written as |
| --- | --- |
| built-in type | `int` |
| path | `A<T, U>.B::C` |
| tuple | `(T, U)` |
| suffixes | `T?`, `T*`, `T[]`, `T[,]` |

A type is parsed as one if and only if no type argument holds a tuple, those inside of
other tuples apart.
-/

import Outline.Proofs.Parser.Refusal

namespace Outline
namespace Code

open Outline.Parser
open Lexeme (mark)

/-- A name that has no meaning of its own in front of another one. -/
structure TypeWord where
  text : String
  isFree : text ∉ "record" :: modifierWords := by decide

/-- What joins the names of a path. -/
inductive Qualifier
  | dot | colons
  deriving DecidableEq, Repr

/-- The sign of a qualifier. -/
def Qualifier.sign : Qualifier → String
  | dot => "."
  | colons => "::"

mutual

/-- A type. -/
inductive TypeExpr
  | builtin (word : String) (h : word ∈ builtinTypes)
  | path (p : TypePath)
  | tuple (first second : TypeExpr) (more : List TypeExpr)
  | nullable (t : TypeExpr)
  | pointer (t : TypeExpr)
  | array (t : TypeExpr) (commas : Nat)

/-- Names with type arguments, the first name first; an empty list is not written. -/
inductive TypePath
  | last (name : TypeWord) (arguments : List TypeExpr)
  | more (name : TypeWord) (arguments : List TypeExpr) (qualifier : Qualifier) (rest : TypePath)

end

/-- The first name of a path. -/
def TypePath.first : TypePath → TypeWord
  | .last name _ => name
  | .more name _ _ _ => name

mutual

/-- The lexemes of a type. -/
def TypeExpr.spelling : TypeExpr → List Lexeme
  | .builtin word _ => [.word word]
  | .path p => .name p.first.text :: p.tail
  | .tuple first second more => grouped .paren
    (first.spelling ++ mark "," :: (second.spelling ++ spellMore more))
  | .nullable t => t.spelling ++ [mark "?"]
  | .pointer t => t.spelling ++ [mark "*"]
  | .array t commas => t.spelling ++ grouped .square (List.replicate commas (mark ","))

/-- The lexemes of a path after its first name. -/
def TypePath.tail : TypePath → List Lexeme
  | .last _ arguments => spellArguments arguments
  | .more _ arguments qualifier rest =>
    spellArguments arguments ++ mark qualifier.sign :: .name rest.first.text :: rest.tail

/-- The lexemes of type arguments, none for an empty list. -/
def spellArguments : List TypeExpr → List Lexeme
  | [] => []
  | t :: ts => angles (t.spelling ++ spellMore ts)

/-- The lexemes of types after a comma each. -/
def spellMore : List TypeExpr → List Lexeme
  | [] => []
  | t :: ts => mark "," :: (t.spelling ++ spellMore ts)

end

mutual

/-- Whether there is a tuple anywhere in a type. -/
def TypeExpr.hasTuple : TypeExpr → Bool
  | .builtin _ _ => false
  | .path p => p.hasTuple
  | .tuple _ _ _ => true
  | .nullable t | .pointer t | .array t _ => t.hasTuple

/-- Whether there is a tuple anywhere in the arguments of a path. -/
def TypePath.hasTuple : TypePath → Bool
  | .last _ arguments => anyTuple arguments
  | .more _ arguments _ rest => anyTuple arguments || rest.hasTuple

/-- Whether there is a tuple anywhere in types. -/
def anyTuple : List TypeExpr → Bool
  | [] => false
  | t :: ts => t.hasTuple || anyTuple ts

end

/-- Whether a type argument holds a tuple, outside of other tuples. -/
def TypeExpr.hasTupleArgument : TypeExpr → Bool
  | .builtin _ _ => false
  | .path p => p.hasTuple
  | .tuple _ _ _ => false
  | .nullable t | .pointer t | .array t _ => t.hasTupleArgument

/-- Whether a type is a tuple, with suffixes or without. -/
def TypeExpr.isTuple : TypeExpr → Bool
  | .builtin _ _ | .path _ => false
  | .tuple _ _ _ => true
  | .nullable t | .pointer t | .array t _ => t.isTuple

/-! ### Types that are parsed -/

theorem Qualifier.isOneOf_sign (q : Qualifier) : (mark q.sign).isOneOf [".", "::"] = true := by
  cases q <;> rfl

mutual

theorem TypeExpr.wellNested : ∀ t : TypeExpr, WellNested t.spelling
  | .builtin word _ => by
    rw [TypeExpr.spelling]
    exact .plain (delimiter?_of_isWordy (isWordy_word word)) .nil
  | .path p => by
    rw [TypeExpr.spelling]
    exact .plain rfl p.wellNested
  | .tuple first second more => by
    rw [TypeExpr.spelling]
    exact .bracket .paren (first.wellNested.append
      ((second.wellNested.append (wellNested_spellMore more)).plain rfl))
  | .nullable t | .pointer t => by
    rw [TypeExpr.spelling]
    exact t.wellNested.append (.plain rfl .nil)
  | .array t commas => by
    rw [TypeExpr.spelling]
    exact t.wellNested.append (.bracket .square (.replicate rfl commas))

theorem TypePath.wellNested : ∀ p : TypePath, WellNested p.tail
  | .last _ arguments => by
    rw [TypePath.tail]
    exact wellNested_spellArguments arguments
  | .more _ arguments q rest => by
    rw [TypePath.tail]
    exact (wellNested_spellArguments arguments).append
      ((rest.wellNested.plain rfl).plain (delimiter?_of_isOneOf q.isOneOf_sign (by decide)))

theorem wellNested_spellArguments : ∀ ts : List TypeExpr, WellNested (spellArguments ts)
  | [] => .nil
  | t :: ts => by
    rw [spellArguments]
    exact (t.wellNested.append (wellNested_spellMore ts)).angles

theorem wellNested_spellMore : ∀ ts : List TypeExpr, WellNested (spellMore ts)
  | [] => .nil
  | t :: ts => by
    rw [spellMore]
    exact (t.wellNested.append (wellNested_spellMore ts)).plain rfl

end

mutual

/-- A type without a tuple can stand between angles. -/
theorem TypeExpr.angled : ∀ t : TypeExpr, t.hasTuple = false → Angled t.spelling
  | .builtin word _, _ => by
    rw [TypeExpr.spelling]
    exact .plain (isOneOf_of_isWordy (isWordy_word word) _) .nil
  | .path p, h => by
    rw [TypeExpr.hasTuple] at h
    rw [TypeExpr.spelling]
    exact .plain rfl (p.angled h)
  | .tuple _ _ _, h => by
    rw [TypeExpr.hasTuple] at h
    cases h
  | .nullable t, h | .pointer t, h => by
    rw [TypeExpr.hasTuple] at h
    rw [TypeExpr.spelling]
    exact (t.angled h).append (.plain rfl .nil)
  | .array t commas, h => by
    rw [TypeExpr.hasTuple] at h
    rw [TypeExpr.spelling]
    exact (t.angled h).append (.array commas)

theorem TypePath.angled : ∀ p : TypePath, p.hasTuple = false → Angled p.tail
  | .last _ arguments, h => by
    rw [TypePath.hasTuple] at h
    rw [TypePath.tail]
    exact angled_spellArguments arguments h
  | .more _ arguments q rest, h => by
    rw [TypePath.hasTuple, Bool.or_eq_false_iff] at h
    rw [TypePath.tail]
    exact (angled_spellArguments arguments h.1).append
      (.plain (isOneOf_of_disjoint q.isOneOf_sign (by decide)) (.plain rfl (rest.angled h.2)))

theorem angled_spellArguments : ∀ ts : List TypeExpr, anyTuple ts = false →
    Angled (spellArguments ts)
  | [], _ => .nil
  | t :: ts, h => by
    rw [anyTuple, Bool.or_eq_false_iff] at h
    rw [spellArguments, ← List.append_nil (angles _)]
    exact .nested ((t.angled h.1).append (angled_spellMore ts h.2)) .nil

theorem angled_spellMore : ∀ ts : List TypeExpr, anyTuple ts = false → Angled (spellMore ts)
  | [], _ => .nil
  | t :: ts, h => by
    rw [anyTuple, Bool.or_eq_false_iff] at h
    rw [spellMore]
    exact .plain rfl ((t.angled h.1).append (angled_spellMore ts h.2))

end

/-- Type arguments without a tuple go on a path. -/
theorem typeTail_arguments {ts : List TypeExpr} (h : anyTuple ts = false) {ls : List Lexeme}
    (hl : TypeTail ls) : TypeTail (spellArguments ts ++ ls) := by
  cases ts with
  | nil => exact hl
  | cons t ts =>
    rw [anyTuple, Bool.or_eq_false_iff] at h
    rw [spellArguments]
    exact .arguments ((t.angled h.1).append (angled_spellMore ts h.2))
      (t.wellNested.append (wellNested_spellMore ts)) hl

theorem TypePath.tailForm (p : TypePath) (h : p.hasTuple = false) : TypeTail p.tail := by
  match p with
  | .last _ arguments =>
    rw [TypePath.hasTuple] at h
    rw [TypePath.tail, ← List.append_nil (spellArguments arguments)]
    exact typeTail_arguments h .nil
  | .more _ arguments q rest =>
    rw [TypePath.hasTuple, Bool.or_eq_false_iff] at h
    rw [TypePath.tail]
    exact typeTail_arguments h.1 (.qualified q.isOneOf_sign rfl (rest.tailForm h.2))

theorem TypeWord.startsType (w : TypeWord) : startsType (.name w.text) = true := by
  have hfree : ("record" :: modifierWords).contains w.text = false := by
    rw [← Bool.not_eq_true, List.contains_iff_mem]
    exact w.isFree
  show (_ || (true && !(("record" :: modifierWords).contains w.text))) = true
  rw [hfree]
  exact Bool.or_true _

/-- **A type is parsed as one** if no type argument holds a tuple. -/
theorem TypeExpr.typeForm (t : TypeExpr) (h : t.hasTupleArgument = false) :
    TypeForm t.spelling := by
  match t with
  | .builtin word hw =>
    have each : ∀ w ∈ builtinTypes, Outline.Parser.startsType (.word w) = true := by decide
    rw [TypeExpr.spelling]
    exact .named (each word hw) .nil .nil
  | .path p =>
    rw [TypeExpr.hasTupleArgument] at h
    rw [TypeExpr.spelling, ← List.append_nil p.tail]
    exact .named p.first.startsType (p.tailForm h) .nil
  | .tuple first second more =>
    rw [TypeExpr.spelling, ← List.append_nil (grouped _ _)]
    exact .tuple (first.wellNested.append
      ((second.wellNested.append (wellNested_spellMore more)).plain rfl)) .nil
  | .nullable t | .pointer t =>
    rw [TypeExpr.hasTupleArgument] at h
    rw [TypeExpr.spelling]
    exact (t.typeForm h).append (.sign rfl .nil)
  | .array t commas =>
    rw [TypeExpr.hasTupleArgument] at h
    rw [TypeExpr.spelling, ← List.append_nil (grouped _ _)]
    exact (t.typeForm h).append (.array commas .nil)

/-! ### Types that are refused -/

/-- Type arguments that go on so are refused, however many angles are open. -/
def RefusedInAngles (ls : List Lexeme) : Prop :=
  ∀ arity depth i, 1 ≤ depth → hasFault (typeParametersFrom arity depth i ls).found = true

namespace RefusedInAngles

variable {ls ms : List Lexeme}

theorem paren (ls : List Lexeme) : RefusedInAngles (mark "(" :: ls) := fun _ _ _ _ => rfl

theorem opening (h : RefusedInAngles ls) : RefusedInAngles (mark "<" :: ls) :=
  fun arity depth i _ => h arity (depth + 1) (i + 1) (Nat.le_add_left 1 depth)

/-- What is passed between angles comes before what is refused there. -/
theorem after_angled (hm : Angled ms) (h : RefusedInAngles ls) : RefusedInAngles (ms ++ ls) := by
  intro arity depth i hd
  obtain ⟨arity', heq⟩ := typeParametersFrom_of_angled hm hd arity i ls
  rw [heq]
  exact h arity' depth _ hd

theorem after_plain {l : Lexeme}
    (hl : l.isOneOf ["\x7b", "\x7d", ";", "(", "=>", "<", ">"] = false) (h : RefusedInAngles ls) :
    RefusedInAngles (l :: ls) := after_angled (.plain hl .nil) h

end RefusedInAngles

mutual

/-- A type with a tuple is refused between angles. -/
theorem TypeExpr.refusedInAngles : ∀ t : TypeExpr, t.hasTuple = true → ∀ after,
    RefusedInAngles (t.spelling ++ after)
  | .builtin _ _, h, _ => by
    rw [TypeExpr.hasTuple] at h
    cases h
  | .path p, h, after => by
    rw [TypeExpr.hasTuple] at h
    rw [TypeExpr.spelling]
    exact .after_plain rfl (p.refusedInAngles h after)
  | .tuple _ _ _, _, _ => by
    rw [TypeExpr.spelling]
    exact .paren _
  | .nullable t, h, after | .pointer t, h, after | .array t _, h, after => by
    rw [TypeExpr.hasTuple] at h
    rw [TypeExpr.spelling, List.append_assoc]
    exact t.refusedInAngles h _

theorem TypePath.refusedInAngles : ∀ p : TypePath, p.hasTuple = true → ∀ after,
    RefusedInAngles (p.tail ++ after)
  | .last _ arguments, h, after => by
    rw [TypePath.hasTuple] at h
    rw [TypePath.tail]
    obtain ⟨ls, hls, hr⟩ := refusedInAngles_arguments arguments h after
    rw [hls]
    exact hr.opening
  | .more _ arguments q rest, h, after => by
    rw [TypePath.hasTuple, Bool.or_eq_true] at h
    rw [TypePath.tail, List.append_assoc]
    cases ha : anyTuple arguments with
    | true =>
      obtain ⟨ls, hls, hr⟩ := refusedInAngles_arguments arguments ha _
      rw [hls]
      exact hr.opening
    | false =>
      have hrest := rest.refusedInAngles (h.resolve_left (by simp [ha])) after
      exact .after_angled (angled_spellArguments arguments ha) (.after_plain
        (isOneOf_of_disjoint q.isOneOf_sign (by decide)) (.after_plain rfl hrest))

/-- Type arguments with a tuple open an angle, and are refused after it. -/
theorem refusedInAngles_arguments : ∀ ts : List TypeExpr, anyTuple ts = true → ∀ after,
    ∃ ls, spellArguments ts ++ after = mark "<" :: ls ∧ RefusedInAngles ls
  | [], h, _ => by
    rw [anyTuple] at h
    cases h
  | t :: ts, h, after => by
    rw [anyTuple, Bool.or_eq_true] at h
    rw [spellArguments, angles, List.cons_append, List.append_assoc, List.append_assoc]
    refine ⟨_, rfl, ?_⟩
    cases ht : t.hasTuple with
    | true => exact t.refusedInAngles ht _
    | false =>
      exact .after_angled (t.angled ht)
        (refusedInAngles_more ts (h.resolve_left (by simp [ht])) _)

theorem refusedInAngles_more : ∀ ts : List TypeExpr, anyTuple ts = true → ∀ after,
    RefusedInAngles (spellMore ts ++ after)
  | [], h, _ => by
    rw [anyTuple] at h
    cases h
  | t :: ts, h, after => by
    rw [anyTuple, Bool.or_eq_true] at h
    rw [spellMore, List.cons_append, List.append_assoc]
    refine .after_plain rfl ?_
    cases ht : t.hasTuple with
    | true => exact t.refusedInAngles ht _
    | false =>
      exact .after_angled (t.angled ht)
        (refusedInAngles_more ts (h.resolve_left (by simp [ht])) _)

end

/-- Type arguments with a tuple are refused after a name. -/
theorem refuses_arguments {ts : List TypeExpr} (h : anyTuple ts = true) (after : List Lexeme)
    (i : Nat) : Refuses typeTail i (spellArguments ts ++ after) := by
  obtain ⟨ls, hls, hr⟩ := refusedInAngles_arguments ts h after
  refine .of_fault ?_
  have hfault : hasFault (typeParameters ⟨i, mark "<" :: ls⟩).found = true :=
    hr 1 1 (i + 1) (Nat.le_refl 1)
  rw [hls, typeTail_angle, Step.before, hasFault_append, hfault, Bool.true_or]

/-- Type arguments without a tuple are passed before what is refused. -/
theorem refuses_after_arguments {ts : List TypeExpr} (h : anyTuple ts = false) {ls : List Lexeme}
    (hl : ∀ i, Refuses typeTail i ls) (i : Nat) :
    Refuses typeTail i (spellArguments ts ++ ls) := by
  cases ts with
  | nil => exact hl i
  | cons t ts =>
    rw [anyTuple, Bool.or_eq_false_iff] at h
    have hp := accepts_typeParameters (t := .harmless)
      ((t.angled h.1).append (angled_spellMore ts h.2)) i ls
    have heq := typeTail_angle i (t.spelling ++ spellMore ts ++ [mark ">"] ++ ls)
    refine .of_fault ?_
    rw [spellArguments]
    rw [show mark "<" :: (t.spelling ++ spellMore ts ++ [mark ">"] ++ ls)
      = angles (t.spelling ++ spellMore ts) ++ ls from rfl, hp.rest] at heq
    rw [heq, Step.before, hasFault_append, (hl _).fault, Bool.or_true]

theorem TypePath.refuses : ∀ (p : TypePath), p.hasTuple = true → ∀ (after : List Lexeme) (i : Nat),
    Refuses typeTail i (p.tail ++ after)
  | .last _ arguments, h, after, i => by
    rw [TypePath.hasTuple] at h
    rw [TypePath.tail]
    exact refuses_arguments h after i
  | .more _ arguments q rest, h, after, i => by
    rw [TypePath.hasTuple, Bool.or_eq_true] at h
    rw [TypePath.tail, List.append_assoc]
    cases ha : anyTuple arguments with
    | true => exact refuses_arguments ha _ i
    | false =>
      have hrest := rest.refuses (h.resolve_left (by simp [ha])) after
      refine refuses_after_arguments ha (fun j => ⟨?_⟩) i
      rw [List.cons_append, List.cons_append, typeTail_qualified q.isOneOf_sign rfl]
      exact (hrest (j + 2)).fault

/-- **A type is refused** if a type argument holds a tuple. -/
theorem TypeExpr.refuses : ∀ (t : TypeExpr), t.hasTupleArgument = true →
    ∀ (after : List Lexeme) (i : Nat), Refuses typeReference i (t.spelling ++ after)
  | .builtin _ _, h, _, _ | .tuple _ _ _, h, _, _ => by
    rw [TypeExpr.hasTupleArgument] at h
    cases h
  | .path p, h, after, i => by
    rw [TypeExpr.hasTupleArgument] at h
    rw [TypeExpr.spelling]
    exact .lookElse rfl <| .lookThen rfl <| .advance <| .first (p.refuses h after _)
  | .nullable t, h, after, i | .pointer t, h, after, i | .array t _, h, after, i => by
    rw [TypeExpr.hasTupleArgument] at h
    rw [TypeExpr.spelling, List.append_assoc]
    exact t.refuses h _ i

end Code
end Outline
