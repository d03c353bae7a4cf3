/-
# Fields with values

Fields of one type are separated by commas, and each may have a first value.  They are
parsed as the members with their names as long as no value has a comma outside of brackets.
After such a comma the next type argument is taken for a field, or for what should be one,
and the angle that closes the arguments is no semicolon.

| after `int a = ` | parsed as |
| --- | --- |
| `f(1, 2), b;` | the fields `a` and `b` |
| `new G<T, U>(1);` | the fields `a` and `U`, and a semicolon that is missing |
| `new G<T, U[]>(1);` | the same |
| `new G<T, int>(1);` | the field `a`, and a name that is missing |
-/

import Outline.Proofs.Code.Expression
import Outline.Proofs.Code.Field

namespace Outline
namespace Code

open Outline.Parser
open Lexeme (mark)

/-! ### Names that are taken for fields -/

/-- Fields that go on so are refused: a fault is found, or no semicolon follows. -/
def RefusedAsFields (ls : List Lexeme) : Prop :=
  ∀ i, hasFault (moreFields ⟨i, ls⟩).found = true ∨
    (moreFields ⟨i, ls⟩).rest.ahead.head?.any (·.isPunct ";") = false

namespace RefusedAsFields

variable {ls : List Lexeme}

/-- Something that is neither a value nor a comma nor a semicolon. -/
theorem of_head?_ne (h : ls.head?.any (·.isOneOf ["=", ",", ";"]) = false) :
    RefusedAsFields ls := by
  intro i
  have hnone : ∀ p ∈ ["=", ",", ";"], Cursor.atPunct ⟨i, ls⟩ p = false :=
    fun p hp => atPunct_of_isOneOf h hp
  have hnext : nextField ⟨i, ls⟩ = ⟨none, ⟨i, ls⟩, []⟩ :=
    (eat_bind_of_not_atPunct (hnone "=" (by decide)) _).trans
      (eat_bind_of_not_atPunct (hnone "," (by decide)) _)
  right
  rw [moreFields_of_none (by rw [hnext]), hnext]
  exact hnone ";" (by decide)

/-- A comma with something after it that is no name. -/
theorem comma {l : Lexeme} (hl : l.isName = false) : RefusedAsFields (mark "," :: l :: ls) := by
  intro i
  have hname : Parser.name? ⟨i + 1, l :: ls⟩ = ⟨none, ⟨i + 1, l :: ls⟩, []⟩ := by
    simp [Parser.name?, bind_apply, pure_apply, look, Cursor.head?, hl, Step.before]
  have hnext : nextField ⟨i, mark "," :: l :: ls⟩
      = ⟨none, ⟨i + 1, l :: ls⟩, [⟨.expected .identifier, .gap (i + 1)⟩]⟩ :=
    (eat_bind_of_not_atPunct rfl _).trans
      ((eat_bind_of_atPunct (atPunct_mark "," i _) _).trans (bind_of_eq hname))
  left
  rw [moreFields_of_none (by rw [hnext]), hnext]
  rfl

/-- A name after a comma is taken for a field. -/
theorem name (h : RefusedAsFields ls) (n : String) :
    RefusedAsFields (mark "," :: .name n :: ls) := by
  intro i
  have hgo : (nextField ⟨i, mark "," :: .name n :: ls⟩).value ≠ none :=
    fun h => by cases (show some n = none from h)
  have heq := (goesOn_moreFields hgo).eq
  rw [heq]
  exact h (i + 2)

/-- A value is passed before what is refused. -/
theorem initial {value : Option (List Lexeme)} (hv : ∀ v ∈ value, Expression valueStops v)
    (h : RefusedAsFields ls) (hs : ls.head?.any (·.isOneOf valueStops) = true) :
    RefusedAsFields (Parser.initial value ++ ls) := by
  intro i
  rw [moreFields_initial hv hs]
  exact h _

end RefusedAsFields

/-- **Type arguments are refused as fields.** -/
theorem refusedAsFields_arguments (ts : List TypeExpr) (after : List Lexeme) :
    RefusedAsFields (spellMore ts ++ mark ">" :: after) := by
  induction ts with
  | nil => exact .of_head?_ne rfl
  | cons t ts ih =>
    obtain ⟨l, rest, hl, hstart, hsign⟩ := t.exists_start
    have hcons : spellMore (t :: ts) ++ mark ">" :: after
        = mark "," :: l :: (rest ++ (spellMore ts ++ mark ">" :: after)) := by
      rw [spellMore, hl]
      simp
    rw [hcons]
    cases hn : l.isName with
    | false => exact .comma hn
    -- a name alone is taken for a field, and the next argument is read as one
    -- more of a type after it is neither a value nor a comma nor a semicolon
    | true =>
      rw [eq_name hn]
      refine .name ?_ _
      cases rest with
      | nil => exact ih
      | cons r rs => exact .of_head?_ne (isOneOf_of_disjoint (hsign hn r rfl) (by decide))

/-! ### Declarators -/

/-- A field with its first value, if it has one. -/
structure Declarator where
  name : String
  value : Option Expr

namespace Declarator

/-- Whether the value has a comma outside of brackets. -/
def exposesComma (d : Declarator) : Bool := d.value.any (·.exposesComma)

/-- The name with the lexemes of the value. -/
def spelled (d : Declarator) : String × Option (List Lexeme) := (d.name, d.value.map (·.spelling))

theorem expression {d : Declarator} (h : d.exposesComma = false) :
    ∀ v ∈ d.spelled.2, Expression valueStops v := by
  intro v hv
  obtain ⟨e, he, rfl⟩ := Option.map_eq_some_iff.1 hv
  rw [exposesComma, he] at h
  exact e.expression h

/-- A value with a comma outside of brackets is refused, whatever follows. -/
theorem refused {d : Declarator} (h : d.exposesComma = true) (ls : List Lexeme) :
    RefusedAsFields (initial d.spelled.2 ++ ls) := by
  obtain ⟨name, value⟩ := d
  cases value with
  | none => cases h
  | some e =>
    obtain ⟨before, t, ts, after, hb, hspelled⟩ := e.exposesArguments h
    have hrefused := refusedAsFields_arguments (t :: ts) (after ++ ls)
    have hvalue : ∀ v ∈ some before, Expression valueStops v := fun v hv => by cases hv; exact hb
    have := RefusedAsFields.initial hvalue hrefused (by rw [spellMore]; rfl)
    rw [spelled, Option.map_some, hspelled]
    simpa [initial] using this

end Declarator

/-- The lexemes of declarators after the first name. -/
def spellDeclarators (first : Declarator) (more : List Declarator) : List Lexeme :=
  initial first.spelled.2 ++ spellFields (more.map (·.spelled))

/-- The fields are refused if a value has a comma outside of brackets. -/
theorem refusedAsFields_declarators {first : Declarator} {more : List Declarator}
    (h : ∃ d ∈ first :: more, d.exposesComma = true) (after : List Lexeme) :
    RefusedAsFields (spellDeclarators first more ++ mark ";" :: after) := by
  -- The first value that has such a comma is refused; those before it are passed.
  induction more generalizing first with
  | nil =>
    obtain ⟨d, hd, he⟩ := h
    obtain rfl := List.mem_singleton.1 hd
    rw [spellDeclarators, List.append_assoc]
    exact Declarator.refused he _
  | cons d more ih =>
    rw [spellDeclarators, List.append_assoc]
    cases hf : first.exposesComma with
    | true => exact Declarator.refused hf _
    | false =>
      have hmore : ∃ e ∈ d :: more, e.exposesComma = true := by
        obtain ⟨e, he, hc⟩ := h
        obtain rfl | he := List.mem_cons.1 he
        · exact absurd hc (by simp [hf])
        · exact ⟨e, he, hc⟩
      refine .initial (Declarator.expression hf) ?_ (head?_spellFields _ _)
      have := (ih hmore).name d.name
      simpa [spellFields, spellDeclarators, Declarator.spelled] using this

/-! ### Which fields are accepted -/

section

variable {ws : List String} {t : TypeExpr} {owner : String}

/-- Fields are refused if what follows the first name is. -/
theorem refuses_fields {name : String} {ls : List Lexeme} (h : Readable ws t)
    (hw : ∀ w ∈ ws, w ∈ modifierKeywords ++ modifierWords)
    (hs : ls.head?.any (·.isOneOf ["=", ",", ";"]) = true) (hls : RefusedAsFields ls) (i : Nat) :
    Refuses (memberList owner) i (ws.map .word ++ (t.spelling ++ .name name :: ls)) := by
  have hname : ∀ j, Accepts .harmless memberName? j [.name name] ls (· = some name) :=
    accepts_memberName? (head?_isPunct_of_not_mem hs (by decide)) fun _ =>
      qualifyingArguments_of_not_open (head?_isPunct_of_not_mem hs (by decide))
  have hfields : ∀ (symbol : MemberKind → String → Parser.Entry) j,
      Refuses (namedMember symbol name) j ls := by
    intro symbol j
    refine .lookElse (atOneOf_of_disjoint hs (by decide)) <|
      .lookElse (atOneOf_of_disjoint hs (by decide)) ?_
    obtain hf | hn := hls j
    · exact .first ⟨hf⟩
    · exact .second fun _ => .first (Refuses.expect hn .semicolon)
  refine finds_afterType h hw rfl (fun symbol j => ?_) i
  refine .lookElse rfl <| .lookElse rfl <| .lookElse rfl <| .bind (hname j) fun a ha => ?_
  subst ha
  exact hfields _ _

end

theorem head?_spellDeclarators (first : Declarator) (more : List Declarator) (after : List Lexeme) :
    (spellDeclarators first more ++ mark ";" :: after).head?.any (·.isOneOf ["=", ",", ";"])
      = true := by
  obtain ⟨name, value⟩ := first
  cases value with
  | some e => rfl
  | none => cases more <;> rfl

/-- The fields of declarators are accepted in their order. -/
theorem accepts_declarators {tol : Tolerance} {first : Declarator} {more : List Declarator}
    (h : ∀ d ∈ first :: more, d.exposesComma = false) (i : Nat) (after : List Lexeme) :
    Accepts tol moreFields i (spellDeclarators first more) (mark ";" :: after)
      (· = more.map (·.name)) := by
  obtain ⟨hfirst, hmore⟩ := List.forall_mem_cons.1 h
  have hvalues : ∀ f ∈ more.map (·.spelled), ∀ v ∈ f.2, Expression valueStops v := by
    intro f hf
    obtain ⟨d, hd, rfl⟩ := List.mem_map.1 hf
    exact Declarator.expression (hmore d hd)
  have : Accepts tol moreFields i _ _ _ :=
    accepts_spellFields (Declarator.expression hfirst) hvalues i after
  rwa [List.map_map] at this

/-- A source with fields of which a value has a comma outside of brackets has errors. -/
theorem hasErrors_of_exposesComma {s : Source} {owner : String} {ws : List String} {t : TypeExpr}
    {first : Declarator} {more : List Declarator} (h : ∃ d ∈ first :: more, d.exposesComma = true)
    (hr : Readable ws t) (hw : ∀ w ∈ ws, w ∈ modifierKeywords ++ modifierWords)
    (hl : lexemes s.text
      = classSpelling owner (fieldSpelling ws t first.name (spellDeclarators first more))) :
    (SyntaxTree.parse .v12 s).hasErrors = true := by
  refine SyntaxTree.refused_class hl (fun j => ?_) .v12
  have hspelled : fieldSpelling ws t first.name (spellDeclarators first more) ++ [mark "\x7d"]
      = ws.map .word ++ (t.spelling ++ .name first.name ::
        (spellDeclarators first more ++ [mark ";", mark "\x7d"])) := by
    simp [fieldSpelling]
  rw [hspelled]
  exact refuses_fields hr hw (head?_spellDeclarators first more _)
    (refusedAsFields_declarators h _) j

/-- **Fields with values are parsed in their order.**  A source with fields of one type in a
class has errors if and only if their modifiers and type are not readable or a value has a
comma outside of brackets.  Without errors, nothing is reported and the class has the fields
with these names. -/
theorem parse_fields (s : Source) (owner : String) (ws : List String) (t : TypeExpr)
    (first : Declarator) (more : List Declarator)
    (hw : ∀ w ∈ ws, w ∈ modifierKeywords ++ modifierWords) (hs : lexicalDiagnostics s = [])
    (hl : lexemes s.text
      = classSpelling owner (fieldSpelling ws t first.name (spellDeclarators first more))) :
    let tree := SyntaxTree.parse .v12 s
    (tree.hasErrors = false ↔ Readable ws t ∧ ∀ d ∈ first :: more, d.exposesComma = false) ∧
      (Readable ws t → (∀ d ∈ first :: more, d.exposesComma = false) → tree.diagnostics = [] ∧
        tree.types.map (·.unplaced) = [⟨none, owner, 0, .cls, false,
          (first :: more).map (⟨.field, ·.name, isStaticBy ws⟩), [], ()⟩]) := by
  have haccepted : Readable ws t → (∀ d ∈ first :: more, d.exposesComma = false) → _ :=
    fun hr hd => SyntaxTree.accepted_class hs hl fun j =>
      accepts_fields hr.arguments (hr.modifies hw) (head?_spellDeclarators first more [])
        (accepts_declarators hd · [mark "\x7d"]) j
  refine ⟨⟨fun hn => ?_, fun h => ?_⟩, fun hr hd => ?_⟩
  · have hr : Readable ws t := Classical.byContradiction fun hr =>
      Bool.false_ne_true (hn.symm.trans (hasErrors_of_unreadable hr hw hl))
    refine ⟨hr, fun d hd => Bool.eq_false_iff.2 fun hc => ?_⟩
    exact Bool.false_ne_true (hn.symm.trans (hasErrors_of_exposesComma ⟨d, hd, hc⟩ hr hw hl))
  · rw [SyntaxTree.hasErrors, (haccepted h.1 h.2).1]
    rfl
  · have := haccepted hr hd
    rwa [← List.map_cons, List.map_map] at this

/-- Commas in calls, in an index and between type arguments in parentheses. -/
theorem parse_fields_calls :
    let s : Source :=
      ⟨"class C \x7b int a = f(x, g[1, 2]) + new G<T>(3).m, b, c = (new H<T, U>(4)) >= 5; \x7d", 0⟩
    let name (n : String) : Expr := .atom (.name n) nofun
    let number (n : String) : Expr := .atom ⟨.number, n⟩ nofun
    let a : Declarator := ⟨"a", some (.binary
      (.call (name "f") [name "x", .index (name "g") [number "1", number "2"]]) ⟨"+", by decide⟩
      (.access (.create (.path (.last ⟨"G", by decide⟩ [.path (.last ⟨"T", by decide⟩ [])]))
        [number "3"]) "m"))⟩
    let c : Declarator := ⟨"c", some (.binary (.paren (.create (.path (.last ⟨"H", by decide⟩
      [.path (.last ⟨"T", by decide⟩ []), .path (.last ⟨"U", by decide⟩ [])])) [number "4"]))
      ⟨">=", by decide⟩ (number "5"))⟩
    let tree := SyntaxTree.parse .v12 s
    (∀ d ∈ [a, ⟨"b", none⟩, c], d.exposesComma = false) ∧ tree.diagnostics = [] ∧
      tree.types.map (·.unplaced) = [⟨none, "C", 0, .cls, false,
        [⟨.field, "a", false⟩, ⟨.field, "b", false⟩, ⟨.field, "c", false⟩], [], ()⟩] := by
  intro s name number a c
  have ht : Readable [] (.builtin "int" (by decide)) := ⟨rfl, fun h => by cases h⟩
  have hd : ∀ d ∈ [a, ⟨"b", none⟩, c], d.exposesComma = false := by decide +kernel
  exact ⟨hd, (parse_fields s "C" [] (.builtin "int" (by decide)) a [⟨"b", none⟩, c]
    (fun _ h => by cases h) (by decide +kernel) (by decide +kernel)).2 ht hd⟩

/-- The comma between two type arguments ends a value. -/
theorem not_parse_fields_typeArguments :
    ¬∀ (s : Source) (owner : String) (ws : List String) (t : TypeExpr) (first : Declarator)
      (more : List Declarator), Readable ws t →
        (∀ w ∈ ws, w ∈ modifierKeywords ++ modifierWords) → lexicalDiagnostics s = [] →
          lexemes s.text
              = classSpelling owner (fieldSpelling ws t first.name (spellDeclarators first more)) →
            (SyntaxTree.parse .v12 s).hasErrors = false := by
  intro h
  let t : TypeExpr := .builtin "int" (by decide)
  let d : Declarator := ⟨"x", some (.create (.path (.last ⟨"G", by decide⟩
    [.path (.last ⟨"A", by decide⟩ []), .path (.last ⟨"B", by decide⟩ [])]))
    [.atom ⟨.number, "1"⟩ nofun])⟩
  have ht : Readable [] t := ⟨rfl, fun h => by cases h⟩
  have hw : ∀ w ∈ ([] : List String), w ∈ modifierKeywords ++ modifierWords := fun _ h => by cases h
  have hd : d.exposesComma = true := by decide +kernel
  have hl : lexemes "class C \x7b int x = new G<A, B>(1); \x7d"
      = classSpelling "C" (fieldSpelling [] t d.name (spellDeclarators d [])) := by decide +kernel
  have hn := h ⟨_, 0⟩ "C" [] t d [] ht hw (by decide +kernel) hl
  have herrors := hasErrors_of_exposesComma (s := ⟨_, 0⟩) ⟨d, List.mem_cons_self, hd⟩ ht hw hl
  exact Bool.false_ne_true (hn.symm.trans herrors)

end Code
end Outline
