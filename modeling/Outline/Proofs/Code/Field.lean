/-
# Fields of any type

A field with modifiers and a type is one member if its type is parsed and its modifiers are
seen as such.  There are two exceptions, both at a parenthesis: a type argument that holds
a tuple, and a modifier that is not reserved in front of a tuple.

| before a field | parsed as |
| --- | --- |
| `async List<int?[]>` | modifier and type |
| `async List<(int, int)>` | a list of type arguments that is not closed |
| `async (int, int)` | the type `async`, and a method without a name |
-/

import Outline.Proofs.Code.Class
import Outline.Proofs.Code.Type

namespace Outline
namespace Code

open Outline.Parser
open Lexeme (mark)

/-! ### How types start -/

/-- What can follow the first name of a type in the type. -/
def typeSigns : List String := ["<", ".", "::", "?", "*", "["]

/-- Lexemes that start with a sign of types, or none at all. -/
def StartsSign (ls : List Lexeme) : Prop := ∀ l ∈ ls.head?, l.isOneOf typeSigns = true

theorem startsSign_arguments (ts : List TypeExpr) {ls : List Lexeme} (h : StartsSign ls) :
    StartsSign (spellArguments ts ++ ls) := by
  cases ts with
  | nil => exact h
  | cons t ts =>
    rw [spellArguments]
    rintro _ ⟨⟩
    rfl

theorem TypePath.startsSign (p : TypePath) : StartsSign p.tail := by
  cases p with
  | last name arguments =>
    rw [TypePath.tail, ← List.append_nil (spellArguments arguments)]
    exact startsSign_arguments arguments fun _ h => by cases h
  | more name arguments q rest =>
    rw [TypePath.tail]
    refine startsSign_arguments arguments ?_
    rintro _ ⟨⟩
    cases q <;> rfl

theorem StartsSign.append {ls ms : List Lexeme} (hl : StartsSign ls) (hm : StartsSign ms) :
    StartsSign (ls ++ ms) := by
  cases ls with
  | nil => exact hm
  | cons l ls => exact hl

/-- No parenthesis follows the first name of a type. -/
theorem StartsSign.head?_ne {ls : List Lexeme} (h : StartsSign ls) {after : List Lexeme}
    (ha : after.head?.any (·.isPunct "(") = false) :
    (ls ++ after).head?.any (·.isPunct "(") = false := by
  cases ls with
  | nil => exact ha
  | cons l ls => exact isPunct_of_not_mem (h l rfl) (by decide)

/-- How a type starts: with a lexeme of its own, and a sign of types follows if that is a
name. -/
theorem TypeExpr.exists_start (t : TypeExpr) : ∃ l rest, t.spelling = l :: rest ∧
    StartsTyped l ∧ (l.isName = true → StartsSign rest) := by
  cases t with
  | builtin word h =>
    have each : ∀ w ∈ builtinTypes, startsType (.word w) = true := by decide
    rw [TypeExpr.spelling]
    exact ⟨_, _, rfl, startsTyped_of_startsType (each word h), fun _ _ h => by cases h⟩
  | path p =>
    rw [TypeExpr.spelling]
    exact ⟨_, _, rfl, startsTyped_of_startsType p.first.startsType, fun _ => p.startsSign⟩
  | tuple _ _ _ =>
    rw [TypeExpr.spelling]
    exact ⟨_, _, rfl, startsTyped_paren, fun h => by cases h⟩
  | nullable t | pointer t | array t _ =>
    obtain ⟨l, rest, hl, hs, hp⟩ := t.exists_start
    rw [TypeExpr.spelling, hl]
    refine ⟨l, rest ++ _, rfl, hs, fun hn => (hp hn).append ?_⟩
    rintro _ ⟨⟩
    rfl

/-- A type that is no tuple starts with a word. -/
theorem TypeExpr.startsWordy : ∀ t : TypeExpr, t.isTuple = false →
    t.spelling.head?.any isWordy = true
  | .builtin word _, _ => by
    rw [TypeExpr.spelling]
    exact isWordy_word word
  | .path p, _ => by
    rw [TypeExpr.spelling]
    rfl
  | .tuple _ _ _, h => by
    rw [TypeExpr.isTuple] at h
    cases h
  | .nullable t, h | .pointer t, h | .array t _, h => by
    rw [TypeExpr.isTuple] at h
    have ht := t.startsWordy h
    rw [TypeExpr.spelling]
    cases hs : t.spelling with
    | nil =>
      rw [hs] at ht
      cases ht
    | cons l ls =>
      rw [hs] at ht
      exact ht

/-- A tuple is a group with suffixes. -/
theorem TypeExpr.exists_group : ∀ t : TypeExpr, t.isTuple = true → ∃ ms suffixes,
    t.spelling = grouped .paren ms ++ suffixes ∧ WellNested ms ∧ TypeSuffixes suffixes
  | .builtin _ _, h | .path _, h => by
    rw [TypeExpr.isTuple] at h
    cases h
  | .tuple first second more, _ => by
    rw [TypeExpr.spelling]
    exact ⟨_, [], (List.append_nil _).symm, first.wellNested.append
      ((second.wellNested.append (wellNested_spellMore more)).plain rfl), .nil⟩
  | .nullable t, h | .pointer t, h => by
    rw [TypeExpr.isTuple] at h
    obtain ⟨ms, suffixes, hs, hm, hsuffixes⟩ := t.exists_group h
    rw [TypeExpr.spelling, hs, List.append_assoc]
    exact ⟨ms, _, rfl, hm, hsuffixes.append (.sign rfl .nil)⟩
  | .array t commas, h => by
    rw [TypeExpr.isTuple] at h
    obtain ⟨ms, suffixes, hs, hm, hsuffixes⟩ := t.exists_group h
    rw [TypeExpr.spelling, hs, List.append_assoc, ← List.append_nil (grouped .square _)]
    exact ⟨ms, _, rfl, hm, hsuffixes.append (.array commas .nil)⟩

/-! ### Fields that are accepted -/

section

variable {tol : Tolerance} {owner name : String} {ws : List String} {t : TypeExpr}
  {tail : List Lexeme} {more : List String}

/-- The lexemes of fields with modifiers and a type, from the first name on given by `tail`. -/
def fieldSpelling (ws : List String) (t : TypeExpr) (name : String) (tail : List Lexeme) :
    List Lexeme :=
  ws.map .word ++ (t.spelling ++ .name name :: (tail ++ [mark ";"]))

theorem TypeExpr.starts (t : TypeExpr) (ls : List Lexeme) : Starts (t.spelling ++ ls) := by
  have subset : ∀ p ∈ ["\x7d", "=", ";"], p ∈ ["[", "\x7d", "~", "=", ";"] := by decide
  obtain ⟨l, rest, hl, hs, -⟩ := t.exists_start
  rw [hl]
  exact ⟨l, _, rfl, fun p hp => hs.punct p (subset p hp)⟩

/-- **Fields are accepted** as the members with their names, if what follows the first name
is. -/
theorem accepts_fields (ht : t.hasTupleArgument = false) (hw : Modifies ws t.spelling)
    (hs : (tail ++ [mark ";"]).head?.any (·.isOneOf ["=", ",", ";"]) = true)
    (h : ∀ j, Accepts tol moreFields j tail [mark ";", mark "\x7d"] (· = more)) (i : Nat) :
    Accepts tol (memberList owner) i (fieldSpelling ws t name tail) [mark "\x7d"]
      (Holds ((name :: more).map (⟨.field, ·, isStaticBy ws⟩)) []) := by
  have hmember : Accepts tol (member memberList owner) i (fieldSpelling ws t name tail)
      ([] ++ [mark "\x7d"]) _ :=
    accepts_bareType (fun symbol => (name :: more).map (symbol .field)) (t.typeForm ht) hw rfl
      (fun symbol j => accepts_fieldNames hs h j) i
  have hholds := Holds.map ((name :: more).map (⟨.field, ·, isStaticBy ws⟩))
  rw [List.map_map] at hholds
  rw [← List.append_nil (fieldSpelling ws t name tail)]
  refine accepts_memberMore (starts_words ws (t.starts _)) hmember
    (accepts_memberEnd owner _ []) fun as bs ha hb => ?_
  rw [ha, hb, List.append_nil]
  exact hholds

/-! ### Fields that are refused -/

/-- In members is found what is found after their modifiers. -/
theorem finds_modified {kind : Cause → Bool} {ls : List Lexeme} (hw : Modifies ws ls)
    (hs : Starts ls)
    (hsquare : ls.head?.any (·.isPunct "[") = false)
    (hm : ∀ l ∈ ls.head?, isModifier l ls.tail.head? = false)
    (h : ∀ j, Finds kind (afterModifiers memberList owner ws) j ls) (i : Nat) :
    Finds kind (memberList owner) i (ws.map .word ++ ls) := by
  have hgo := (starts_words ws hs).goes i []
  rw [List.append_nil] at hgo
  have hattributes : Accepts .harmless attributes i [] (ws.map .word ++ ls) fun _ => True :=
    accepts_no_attributes (head?_words ws hsquare) i
  have hmodifiers : Accepts .harmless modifiers i (ws.map .word) ls (· = ws) :=
    accepts_modifiers hw.words hw.last hm i
  refine finds_memberList hgo <| .of_here (q := attributes >>= fun _ => modifiers >>=
    afterModifiers memberList owner) rfl ?_
  refine .after_nothing hattributes fun _ _ => .bind hmodifiers fun words hwords => ?_
  rw [hwords]
  exact h _

/-- In members is found what is found after the modifiers of the first one, its type
included. -/
theorem finds_typed {kind : Cause → Bool} {ls : List Lexeme} (hw : Modifies ws t.spelling)
    (hls : ls.head?.any (·.isPunct "(") = false)
    (h : ∀ j, Finds kind (typed (declaredBy ws)) j (t.spelling ++ ls)) (i : Nat) :
    Finds kind (memberList owner) i (ws.map .word ++ (t.spelling ++ ls)) := by
  obtain ⟨l, rest, hl, hstart, hsign⟩ := t.exists_start
  have hcons : t.spelling ++ ls = l :: (rest ++ ls) := by rw [hl, List.cons_append]
  have hmodifies : Modifies ws (t.spelling ++ ls) := by
    rw [hl] at hw
    rw [hcons]
    exact ⟨hw.words, hw.last⟩
  refine finds_modified hmodifies (t.starts ls) ?_ ?_ (fun j => .of_here ?_ (h j)) i
  · rw [hcons]
    exact hstart.punct "[" (by decide)
  · rw [hcons]
    rintro _ ⟨⟩
    exact hstart.modifier _
  · rw [hcons]
    exact afterModifiers_typed hstart (fun hn => (hsign hn).head?_ne hls) ws j

/-- **A field is refused** if an argument of its type holds a tuple. -/
theorem refuses_tupleArgument (ht : t.hasTupleArgument = true) (hw : Modifies ws t.spelling)
    {ls : List Lexeme} (hls : ls.head?.any (·.isPunct "(") = false) (i : Nat) :
    Refuses (memberList owner) i (ws.map .word ++ (t.spelling ++ ls)) :=
  finds_typed hw hls (fun j => .look <| .first (t.refuses ht ls j)) i

/-- The type without a result that a modifier is in front of a group. -/
theorem refuses_typedGroup {symbol : MemberKind → String → Parser.Entry} (w : String)
    (ms : List Lexeme) (i : Nat) : Refuses (typed symbol) i (.name w :: (mark "(" :: ms)) := by
  have htail : Accepts .harmless typeTail (i + 1) [] (mark "(" :: ms) fun _ => True :=
    accepts_typeTail .nil rfl (i + 1)
  have hsuffixes : Accepts .harmless typeSuffixes (i + 1) [] (mark "(" :: ms) fun _ => True :=
    accepts_typeSuffixes .nil rfl (i + 1)
  have htype : Accepts .harmless typeReference i [.name w] (mark "(" :: ms) (· = true) :=
    .lookElse rfl <| .lookThen rfl <| .advance <| .after_nothing htail fun _ _ =>
      .after_nothing hsuffixes fun _ _ => .pure rfl
  refine .look <| .bind htype fun b hb => ?_
  subst hb
  exact .lookElse rfl <| .lookElse rfl <| .lookThen rfl <| .first ⟨rfl⟩

/-- A constructor is refused if neither a body nor another call follows its group. -/
theorem refuses_constructor (w : String) {ms ls : List Lexeme} (hm : WellNested ms)
    (hls : ls.head?.any (·.isOneOf [":", "\x7b", "=>", ";"]) = false) (i : Nat) :
    Refuses Parser.constructor i (.name w :: (grouped .paren ms ++ ls)) := by
  have hnone : ∀ p ∈ [":", "\x7b", "=>", ";"], ls.head?.any (·.isPunct p) = false :=
    fun p hp => atPunct_of_isOneOf (i := 0) hls hp
  have hbody : ∀ j, Refuses body j ls := fun j =>
    .lookElse (hnone "\x7b" (by decide)) <| .eat_not (hnone "=>" (by decide)) <|
      Refuses.expect (hnone ";" (by decide)) .semicolon
  refine .advance <| .bind (accepts_skipGroup (t := .harmless) .paren hm _ _) fun _ _ => ?_
  exact .eat_not (hnone ":" (by decide)) (hbody _)

/-- A word that is a modifier only before words is refused before a group. -/
theorem refuses_wordBeforeGroup {w : String} (hw : w ∈ modifierWords) {ms ls : List Lexeme}
    (hm : WellNested ms) (hls : ls.head?.any (·.isOneOf [":", "\x7b", "=>", ";"]) = false)
    (i : Nat) :
    Refuses (afterModifiers memberList owner ws) i (.name w :: (grouped .paren ms ++ ls)) := by
  have hrecord : ∀ w ∈ modifierWords, (Lexeme.name w).isWord "record" = false := by decide
  have htype : ∀ ls, atTypeKeyword ⟨i, .name w :: ls⟩ = false := by
    intro ls
    show (_ || ((Lexeme.name w).isWord "record" && _)) = false
    rw [hrecord w hw]
    rfl
  refine .lookElse rfl <| .lookElse (htype _) <| .lookElse rfl <| .lookElse rfl <| .lookElse rfl ?_
  -- The word is read as a type: before a group it is a constructor if it names the class, and
  -- otherwise a method without a name.
  cases ho : (Lexeme.name w).isWord owner with
  | true =>
    have howner : ∀ ls, (Cursor.atWord ⟨i, .name w :: mark "(" :: ls⟩ owner
        && Cursor.atPunct (Cursor.next ⟨i, .name w :: mark "(" :: ls⟩) "(") = true :=
      fun _ => Bool.and_eq_true_iff.2 ⟨ho, rfl⟩
    exact .lookThen (howner _) <| .first (refuses_constructor w hm hls i)
  | false =>
    have howner : ∀ ls, (Cursor.atWord ⟨i, .name w :: mark "(" :: ls⟩ owner
        && Cursor.atPunct (Cursor.next ⟨i, .name w :: mark "(" :: ls⟩) "(") = false :=
      fun _ => Bool.and_eq_false_imp.2 fun h => Bool.false_ne_true (ho.symm.trans h) |>.elim
    exact .lookElse (howner _) <| .lookElse rfl <| refuses_typedGroup w _ i

/-! ### Which fields are accepted -/

/-- Modifiers and a type that are parsed as such in front of a name. -/
structure Readable (ws : List String) (t : TypeExpr) : Prop where
  /-- No type argument holds a tuple. -/
  arguments : t.hasTupleArgument = false
  /-- A modifier that is not reserved stands before no tuple. -/
  words : t.isTuple = true → ∀ w ∈ ws.getLast?, w ∉ modifierWords

theorem Readable.modifies (h : Readable ws t)
    (hw : ∀ w ∈ ws, w ∈ modifierKeywords ++ modifierWords) : Modifies ws t.spelling where
  words := hw
  last w hl hn := by
    have reserved : ∀ k ∈ modifierKeywords, Name.isKeyword k = true := by decide
    cases ht : t.isTuple with
    | false => exact t.startsWordy ht
    -- before a tuple only reserved words are left, and these are modifiers before anything
    | true =>
      have hkeyword : w ∈ modifierKeywords :=
        (List.mem_append.1 (hw w (List.mem_of_mem_getLast? hl))).resolve_right (h.words ht w hl)
      exact absurd (reserved w hkeyword) (by simp [hn])

/-- In members is found what is found after the type of the first one, where a word stands. -/
theorem finds_afterType {kind : Cause → Bool} {ls : List Lexeme} (h : Readable ws t)
    (hw : ∀ w ∈ ws, w ∈ modifierKeywords ++ modifierWords) (hls : ls.head?.any isWordy = true)
    (htail : ∀ symbol j, Finds kind (typedMember symbol) j ls) (i : Nat) :
    Finds kind (memberList owner) i (ws.map .word ++ (t.spelling ++ ls)) := by
  have hparen : ls.head?.any (·.isPunct "(") = false := by
    cases ls with
    | nil => rfl
    | cons l ls => exact isPunct_of_isWordy hls "("
  refine finds_typed (h.modifies hw) hparen (fun j => ?_) i
  have htype : Accepts .harmless typeReference j t.spelling ls (· = true) :=
    accepts_typeReference (t.typeForm h.arguments) hls j
  refine .look <| .bind htype fun b hb => ?_
  subst hb
  exact htail _ _

theorem TypeExpr.isTuple_of_hasTupleArgument : ∀ t : TypeExpr, t.hasTupleArgument = true →
    t.isTuple = false
  | .builtin _ _, _ | .path _, _ => rfl
  | .tuple _ _ _, h => by
    rw [TypeExpr.hasTupleArgument] at h
    cases h
  | .nullable t, h | .pointer t, h | .array t _, h => by
    rw [TypeExpr.hasTupleArgument] at h
    rw [TypeExpr.isTuple]
    exact t.isTuple_of_hasTupleArgument h

/-- A modifier that is not reserved is refused before a tuple. -/
theorem refuses_wordBeforeTuple (ht : t.isTuple = true) {w : String} (hw : w ∈ modifierWords)
    (hws : ∀ v ∈ ws, v ∈ modifierKeywords ++ modifierWords) (ls : List Lexeme) (i : Nat) :
    Refuses (memberList owner) i
      ((ws ++ [w]).map .word ++ (t.spelling ++ .name name :: ls)) := by
  have free : ∀ w ∈ modifierWords, Lexeme.word w = .name w := by decide
  obtain ⟨ms, suffixes, hs, hm, hsuffixes⟩ := t.exists_group ht
  have hnext : (suffixes ++ .name name :: ls).head?.any (·.isOneOf [":", "\x7b", "=>", ";"])
      = false := by
    cases hsuffixes with
    | nil => rfl
    | sign h _ => exact isOneOf_of_disjoint h (by decide)
    | array => rfl
  have hspelled : (ws ++ [w]).map Lexeme.word ++ (t.spelling ++ .name name :: ls)
      = ws.map .word ++ .name w :: (grouped .paren ms ++ (suffixes ++ .name name :: ls)) := by
    rw [hs, List.map_append, List.map_singleton, free w hw]
    simp only [List.append_assoc, List.cons_append, List.nil_append]
  rw [hspelled]
  refine finds_modified ⟨hws, fun _ _ _ => rfl⟩ (.of_isWordy rfl _) rfl ?_
    (refuses_wordBeforeGroup hw hm hnext) i
  rintro _ ⟨⟩
  exact Bool.or_eq_false_iff.2 ⟨rfl, Bool.and_false _⟩

/-- **Fields that are not readable are refused.** -/
theorem refuses_unreadable (h : ¬Readable ws t)
    (hw : ∀ w ∈ ws, w ∈ modifierKeywords ++ modifierWords) (ls : List Lexeme) (i : Nat) :
    Refuses (memberList owner) i (ws.map .word ++ (t.spelling ++ .name name :: ls)) := by
  cases ha : t.hasTupleArgument with
  | true =>
    refine refuses_tupleArgument ha ⟨hw, fun _ _ _ => ?_⟩ rfl i
    exact t.startsWordy (t.isTuple_of_hasTupleArgument ha)
  | false =>
    have hwords : ¬(t.isTuple = true → ∀ w ∈ ws.getLast?, w ∉ modifierWords) :=
      fun hwords => h ⟨ha, hwords⟩
    simp only [Classical.not_imp, not_forall, not_not] at hwords
    obtain ⟨ht, w, hl, hmem⟩ := hwords
    obtain ⟨vs, rfl⟩ := List.getLast?_eq_some_iff.1 hl
    exact refuses_wordBeforeTuple ht hmem (fun v hv => hw v (List.mem_append_left _ hv)) ls i

end

/-- A source with a field that is not readable has errors, whatever follows its name. -/
theorem hasErrors_of_unreadable {s : Source} {owner name : String} {ws : List String} {t : TypeExpr}
    {tail : List Lexeme} (h : ¬Readable ws t)
    (hw : ∀ w ∈ ws, w ∈ modifierKeywords ++ modifierWords)
    (hl : lexemes s.text = classSpelling owner (fieldSpelling ws t name tail)) :
    (SyntaxTree.parse .v12 s).hasErrors = true := by
  refine SyntaxTree.refused_class hl (fun j => ?_) .v12
  rw [fieldSpelling, List.append_assoc, List.append_assoc, List.cons_append]
  exact refuses_unreadable h hw _ j

/-- **A field is parsed by its type and modifiers.**  A source with a field in a class has
errors if and only if a type argument holds a tuple, or a modifier that is not reserved
stands before a tuple.  Without errors, nothing is reported and the class has this one
field. -/
theorem parse_field (s : Source) (owner name : String) (ws : List String) (t : TypeExpr)
    (hw : ∀ w ∈ ws, w ∈ modifierKeywords ++ modifierWords) (hs : lexicalDiagnostics s = [])
    (hl : lexemes s.text = classSpelling owner (fieldSpelling ws t name [])) :
    let tree := SyntaxTree.parse .v12 s
    (tree.hasErrors = false ↔ Readable ws t) ∧
      (Readable ws t → tree.diagnostics = [] ∧ tree.types.map (·.unplaced)
        = [⟨none, owner, 0, .cls, false, [⟨.field, name, isStaticBy ws⟩], [], ()⟩]) := by
  have haccepted : Readable ws t → _ := fun h => SyntaxTree.accepted_class hs hl fun j =>
    accepts_fields h.arguments (h.modifies hw) rfl (accepts_moreFields [] · [mark "\x7d"]) j
  refine ⟨⟨fun hn => Classical.byContradiction fun h => ?_, fun h => ?_⟩, haccepted⟩
  · exact Bool.false_ne_true (hn.symm.trans (hasErrors_of_unreadable h hw hl))
  · rw [SyntaxTree.hasErrors, (haccepted h).1]
    rfl

/-- A tuple that holds type arguments with a tuple, after modifiers of which the last one is
reserved. -/
theorem parse_field_nestedTuple :
    let s : Source :=
      ⟨"class C \x7b async static (List<(int, A)>,A.B<T [,]>::C?)[ ] x; /* y */ \x7d", 0⟩
    let t : TypeExpr := .array (.tuple
      (.path (.last ⟨"List", by decide⟩ [.tuple (.builtin "int" (by decide))
        (.path (.last ⟨"A", by decide⟩ [])) []]))
      (.nullable (.path (.more ⟨"A", by decide⟩ [] .dot (.more ⟨"B", by decide⟩
        [.array (.path (.last ⟨"T", by decide⟩ [])) 1] .colons (.last ⟨"C", by decide⟩ []))))) []) 0
    let tree := SyntaxTree.parse .v12 s
    Readable ["async", "static"] t ∧ tree.diagnostics = [] ∧ tree.types.map (·.unplaced)
      = [⟨none, "C", 0, .cls, false, [⟨.field, "x", true⟩], [], ()⟩] := by
  intro s t
  have h : Readable ["async", "static"] t := ⟨by decide +kernel, by decide +kernel⟩
  exact ⟨h, (parse_field s "C" "x" ["async", "static"] t (by decide) (by decide +kernel)
    (by decide +kernel)).2 h⟩

/-- A tuple as a type argument is refused, though it is a type. -/
theorem not_parse_field_tupleArgument :
    ¬∀ (s : Source) (owner name : String) (ws : List String) (t : TypeExpr),
      (∀ w ∈ ws, w ∈ modifierKeywords ++ modifierWords) → lexicalDiagnostics s = [] →
        lexemes s.text = classSpelling owner (fieldSpelling ws t name []) →
          (SyntaxTree.parse .v12 s).hasErrors = false := by
  intro h
  let t : TypeExpr := .path (.last ⟨"List", by decide⟩
    [.tuple (.builtin "int" (by decide)) (.builtin "int" (by decide)) []])
  have ht : t.hasTupleArgument = true := by decide +kernel
  have hl : lexemes "class C \x7b List<(int, int)> x; \x7d"
      = classSpelling "C" (fieldSpelling [] t "x" []) := by decide +kernel
  have hn := h ⟨_, 0⟩ "C" "x" [] t (by decide) (by decide +kernel) hl
  have herrors := hasErrors_of_unreadable (s := ⟨_, 0⟩)
    (fun hr => Bool.false_ne_true (hr.arguments.symm.trans ht)) (by decide) hl
  exact Bool.false_ne_true (hn.symm.trans herrors)

end Code
end Outline
