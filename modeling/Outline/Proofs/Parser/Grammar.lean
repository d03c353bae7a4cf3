/-
# Types and expressions as lexemes

The forms that the parser skips without reading them, as grammars over lexemes:

| form | lexemes |
| --- | --- |
| `Angled` | any that a type holds, with balanced angles |
| `TypeTail` | names after `.` or `::`, and type arguments |
| `TypeSuffixes` | `?`, `*` and array brackets |
| `TypeForm` | a name or a built-in type with a tail and suffixes, or a tuple with suffixes |
| `Expression` | well nested ones with no stop outside of brackets |
-/

import Outline.Parser.Declaration
import Outline.Proofs.Lexer.Reading
import Outline.Proofs.Parser.Nesting
import Outline.Proofs.Parser.Passage

namespace Outline
namespace Parser

open Lexeme (mark)

/-! ### Kinds of lexemes -/

/-- A lexeme that is none of some marks is not this one. -/
theorem isPunct_of_isOneOf {l : Lexeme} {ps : List String} (h : l.isOneOf ps = false) {p : String}
    (hp : p ∈ ps) : l.isPunct p = false := by
  rw [Bool.eq_false_iff]
  intro hl
  rw [isOneOf_of_isPunct hl hp] at h
  cases h

/-- A lexeme that is none of some marks is none of fewer. -/
theorem isOneOf_of_subset {l : Lexeme} {ps qs : List String} (h : l.isOneOf ps = false)
    (hq : ∀ q ∈ qs, q ∈ ps) : l.isOneOf qs = false := by
  rw [Bool.eq_false_iff]
  intro hl
  rw [Lexeme.isOneOf, Bool.and_eq_true, List.contains_iff_mem] at hl
  rw [Lexeme.isOneOf, hl.1, Bool.true_and, List.contains_eq_mem, decide_eq_false_iff_not] at h
  exact h (hq _ hl.2)

/-- A lexeme that is one of some marks is none of other ones. -/
theorem isOneOf_of_disjoint {l : Lexeme} {ps qs : List String} (h : l.isOneOf ps = true)
    (hq : ∀ p ∈ ps, p ∉ qs) : l.isOneOf qs = false := by
  rw [Lexeme.isOneOf, Bool.and_eq_true, List.contains_iff_mem] at h
  rw [Lexeme.isOneOf, h.1, Bool.true_and, List.contains_eq_mem, decide_eq_false_iff_not]
  exact hq _ h.2

/-- What is no bracket is none of some brackets. -/
theorem isOneOf_of_plain {l : Lexeme} (h : l.delimiter? = none) {ps : List String}
    (hp : ∀ p ∈ ps, Lexeme.delimiter? ⟨.punct, p⟩ ≠ none) : l.isOneOf ps = false := by
  rw [Bool.eq_false_iff]
  intro hl
  rw [Lexeme.isOneOf, Bool.and_eq_true, List.contains_iff_mem] at hl
  refine hp l.text hl.2 ?_
  rwa [← delimiter?_of_isPunct]
  rw [Lexeme.isPunct, hl.1, beq_self_eq_true]
  rfl

theorem isPunct_of_not_mem {l : Lexeme} {ps : List String} (h : l.isOneOf ps = true) {p : String}
    (hp : p ∉ ps) : l.isPunct p = false := by
  rw [Lexeme.isOneOf, Bool.and_eq_true, List.contains_iff_mem] at h
  rw [Lexeme.isPunct, h.1, Bool.true_and, beq_eq_false_iff_ne]
  rintro rfl
  exact hp h.2

/-- A mark is its text. -/
theorem eq_mark_of_isPunct {l : Lexeme} {p : String} (h : l.isPunct p = true) : l = mark p := by
  rw [Lexeme.isPunct, Bool.and_eq_true, beq_iff_eq, beq_iff_eq] at h
  obtain ⟨kind, text⟩ := l
  rw [mark, ← h.1, ← h.2]

theorem eq_name {l : Lexeme} (h : l.isName = true) : l = .name l.text := by
  obtain ⟨kind, text⟩ := l
  rw [Lexeme.isName, beq_iff_eq] at h
  rw [Lexeme.name, ← h]

/-! ### Groups -/

/-- Lexemes in brackets. -/
def grouped (b : Bracket) (ms : List Lexeme) : List Lexeme :=
  mark (delimiterText (.opening b)) :: (ms ++ [mark b.closer])

theorem delimiter?_opener (b : Bracket) :
    (mark (delimiterText (.opening b))).delimiter? = some (.opening b) := by cases b <;> rfl

theorem delimiter?_closer (b : Bracket) : (mark b.closer).delimiter? = some (.closing b) := by
  cases b <;> rfl

theorem grouped_paren (ms : List Lexeme) : grouped .paren ms = mark "(" :: (ms ++ [mark ")"]) := rfl

theorem grouped_square (ms : List Lexeme) : grouped .square ms = mark "[" :: (ms ++ [mark "]"]) :=
  rfl

theorem grouped_brace (ms : List Lexeme) :
    grouped .brace ms = mark "\x7b" :: (ms ++ [mark "\x7d"]) := rfl

/-- A group has its brackets besides what is inside. -/
theorem length_grouped (b : Bracket) (ms : List Lexeme) :
    (grouped b ms).length = ms.length + 2 := by
  simp [grouped]

namespace WellNested

variable {ms ls : List Lexeme}

/-- A lexeme that is no bracket changes no nesting. -/
theorem plain {l : Lexeme} (hl : l.delimiter? = none) (h : WellNested ls) :
    WellNested (l :: ls) := by
  rwa [WellNested, nested_plain hl]

/-- Brackets around what is well nested. -/
theorem bracket (b : Bracket) (h : WellNested ms) : WellNested (grouped b ms) :=
  .group (delimiter?_opener b) (delimiter?_closer b) h

theorem replicate {l : Lexeme} (h : l.delimiter? = none) (n : Nat) :
    WellNested (List.replicate n l) := by
  induction n with
  | zero => exact .nil
  | succ n ih => exact ih.plain h

theorem flatMap {α : Type} {spell : α → List Lexeme} {as : List α}
    (h : ∀ a ∈ as, WellNested (spell a)) : WellNested (as.flatMap spell) := by
  induction as with
  | nil => exact .nil
  | cons a as ih =>
    rw [List.flatMap_cons]
    exact (h a List.mem_cons_self).append (ih fun b hb => h b (List.mem_cons_of_mem a hb))

/-- Commas between parts that are well nested. -/
theorem commaSeparated {lss : List (List Lexeme)} (h : ∀ ls ∈ lss, WellNested ls) :
    WellNested (Lexer.commaSeparated lss) := by
  induction lss with
  | nil => exact .nil
  | cons l lss ih =>
    have hl := h l List.mem_cons_self
    have hr := ih fun k hk => h k (List.mem_cons_of_mem l hk)
    cases lss with
    | nil => simpa [Lexer.commaSeparated] using hl
    | cons k ks =>
      have := hl.append (hr.plain (l := mark ",") rfl)
      simpa [Lexer.commaSeparated] using this

end WellNested

/-! ### Types -/

/-- Lexemes in angles. -/
def angles (ms : List Lexeme) : List Lexeme := mark "<" :: (ms ++ [mark ">"])

/-- Angles are no brackets. -/
theorem WellNested.angles {ms : List Lexeme} (h : WellNested ms) : WellNested (angles ms) :=
  (h.append (WellNested.nil.plain rfl)).plain rfl

/-- Lexemes between angles that a type holds, with their own angles balanced. -/
inductive Angled : List Lexeme → Prop
  | nil : Angled []
  | plain {l : Lexeme} {ls : List Lexeme}
      (h : l.isOneOf ["\x7b", "\x7d", ";", "(", "=>", "<", ">"] = false) :
      Angled ls → Angled (l :: ls)
  | nested {ms ls : List Lexeme} :
      Angled ms → Angled ls → Angled (angles ms ++ ls)

/-- Angles are balanced one after the other. -/
theorem Angled.append {ls ms : List Lexeme} (hl : Angled ls) (hm : Angled ms) :
    Angled (ls ++ ms) := by
  induction hl with
  | nil => exact hm
  | plain h _ ih => exact .plain h ih
  | nested ha _ _ ih =>
    rw [List.append_assoc]
    exact .nested ha ih

/-- The brackets of an array can stand between angles. -/
theorem Angled.array (commas : Nat) :
    Angled (grouped .square (List.replicate commas (mark ","))) := by
  have inner : Angled (List.replicate commas (mark ",") ++ [mark "]"]) := by
    induction commas with
    | zero => exact .plain rfl .nil
    | succ n ih => exact .plain rfl ih
  exact .plain rfl inner

/-- What may follow the first word of a type. -/
inductive TypeTail : List Lexeme → Prop
  | nil : TypeTail []
  | qualified {sign name : Lexeme} {ls : List Lexeme} (hs : sign.isOneOf [".", "::"] = true)
      (hn : name.isName = true) : TypeTail ls → TypeTail (sign :: name :: ls)
  | arguments {ms ls : List Lexeme} (ha : Angled ms) (hw : WellNested ms) :
      TypeTail ls → TypeTail (angles ms ++ ls)

/-- What may follow a type: nullable and pointer signs and array brackets. -/
inductive TypeSuffixes : List Lexeme → Prop
  | nil : TypeSuffixes []
  | sign {l : Lexeme} {ls : List Lexeme} (h : l.isOneOf ["?", "*"] = true) :
      TypeSuffixes ls → TypeSuffixes (l :: ls)
  | array {ls : List Lexeme} (commas : Nat) :
      TypeSuffixes ls → TypeSuffixes (grouped .square (List.replicate commas (mark ",")) ++ ls)

/-- Whether a lexeme is a name or a reserved word. -/
def isWordy (l : Lexeme) : Bool := l.kind == .identifier || l.kind == .keyword

/-- A word that starts a type: a built-in type, or a name that has no meaning of its own
before another name. -/
def startsType (l : Lexeme) : Bool :=
  l.isKeywordOf builtinTypes || (l.isName && !(("record" :: modifierWords).contains l.text))

/-- A type. -/
inductive TypeForm : List Lexeme → Prop
  | named {l : Lexeme} {tail suffixes : List Lexeme} (h : startsType l = true)
      (ht : TypeTail tail) (hs : TypeSuffixes suffixes) : TypeForm (l :: (tail ++ suffixes))
  | tuple {ms suffixes : List Lexeme} (h : WellNested ms) (hs : TypeSuffixes suffixes) :
      TypeForm (grouped .paren ms ++ suffixes)

/-- Suffixes follow one another in any order. -/
theorem TypeSuffixes.append {ls ms : List Lexeme} (hl : TypeSuffixes ls) (hm : TypeSuffixes ms) :
    TypeSuffixes (ls ++ ms) := by
  induction hl with
  | nil => exact hm
  | sign h _ ih => exact .sign h ih
  | array commas _ ih =>
    rw [List.append_assoc]
    exact .array commas ih

/-- A suffix goes on a type. -/
theorem TypeForm.append {ls ms : List Lexeme} (hl : TypeForm ls) (hm : TypeSuffixes ms) :
    TypeForm (ls ++ ms) := by
  cases hl with
  | named h ht hs =>
    rw [List.cons_append, List.append_assoc]
    exact .named h ht (hs.append hm)
  | tuple h hs =>
    rw [List.append_assoc]
    exact .tuple h (hs.append hm)

theorem delimiter?_of_isOneOf {l : Lexeme} {ps : List String} (h : l.isOneOf ps = true)
    (hp : ∀ p ∈ ps, p ∉ bracketTexts) : l.delimiter? = none := by
  simp only [Lexeme.isOneOf, Bool.and_eq_true] at h
  exact delimiter?_of_text (hp l.text (List.contains_iff_mem.1 h.2))

theorem isWordy_word (w : String) : isWordy (Lexeme.word w) = true := by
  unfold isWordy Lexeme.word
  cases Name.isKeyword w <;> rfl

theorem isWordy_of_isName {l : Lexeme} (h : l.isName = true) : isWordy l = true :=
  Bool.or_eq_true_iff.2 (.inl h)

theorem isWordy_of_startsType {l : Lexeme} (h : startsType l = true) : isWordy l = true := by
  rw [startsType, Bool.or_eq_true, Bool.and_eq_true] at h
  obtain h | h := h
  · exact Bool.or_eq_true_iff.2 (.inr (Bool.and_eq_true_iff.1 h).1)
  · exact isWordy_of_isName h.1

/-- A name or a reserved word is no punctuation. -/
theorem kind_of_isWordy {l : Lexeme} (h : isWordy l = true) : l.kind ≠ .punct := by
  intro hk
  rw [isWordy, hk] at h
  cases h

/-- Nor is it one of some marks. -/
theorem isOneOf_of_isWordy {l : Lexeme} (h : isWordy l = true) (ps : List String) :
    l.isOneOf ps = false := by
  simp [Lexeme.isOneOf, kind_of_isWordy h]

theorem isPunct_of_isWordy {l : Lexeme} (h : isWordy l = true) (p : String) :
    l.isPunct p = false := by
  simp [Lexeme.isPunct, kind_of_isWordy h]

theorem delimiter?_of_isWordy {l : Lexeme} (h : isWordy l = true) : l.delimiter? = none :=
  delimiter?_of_kind (kind_of_isWordy h)

theorem TypeTail.wellNested {ls : List Lexeme} (h : TypeTail ls) : WellNested ls := by
  induction h with
  | nil => exact .nil
  | qualified hs hn _ ih =>
    have hd := delimiter?_of_isWordy (isWordy_of_isName hn)
    exact (ih.plain hd).plain (delimiter?_of_isOneOf hs (by decide))
  | arguments ha hw _ ih => exact hw.angles.append ih

theorem TypeSuffixes.wellNested {ls : List Lexeme} (h : TypeSuffixes ls) : WellNested ls := by
  induction h with
  | nil => exact .nil
  | sign hl _ ih => exact ih.plain (delimiter?_of_isOneOf hl (by decide))
  | array commas _ ih =>
    exact ((WellNested.replicate (l := mark ",") rfl commas).bracket .square).append ih

/-- **A type is well nested**, tuples and arrays included. -/
theorem TypeForm.wellNested {ls : List Lexeme} (h : TypeForm ls) : WellNested ls := by
  cases h with
  | named h ht hs =>
    exact (ht.wellNested.append hs.wellNested).plain
      (delimiter?_of_isWordy (isWordy_of_startsType h))
  | tuple h hs => exact (h.bracket .paren).append hs.wellNested

/-! ### Expressions -/

/-- Well nested lexemes with no stop outside of brackets. -/
inductive Expression (stops : List String) : List Lexeme → Prop
  | nil : Expression stops []
  | plain {l : Lexeme} {ls : List Lexeme} (hl : l.delimiter? = none)
      (hs : l.isOneOf stops = false) : Expression stops ls → Expression stops (l :: ls)
  | group {b : Bracket} {ms ls : List Lexeme} (hb : delimiterText (.opening b) ∉ stops)
      (hm : WellNested ms) : Expression stops ls → Expression stops (grouped b ms ++ ls)

/-- Stops matter outside of brackets only, so an expression is well nested. -/
theorem Expression.wellNested {stops : List String} {ls : List Lexeme}
    (h : Expression stops ls) : WellNested ls := by
  induction h with
  | nil => exact .nil
  | plain hl _ _ ih => exact ih.plain hl
  | group _ hm _ ih => exact (hm.bracket _).append ih

/-- An expression goes on as long as no stop comes. -/
theorem Expression.append {stops : List String} {ls ms : List Lexeme} (hl : Expression stops ls)
    (hm : Expression stops ms) : Expression stops (ls ++ ms) := by
  induction hl with
  | nil => exact hm
  | plain hl hs _ ih => exact .plain hl hs ih
  | group hb hg _ ih =>
    rw [List.append_assoc]
    exact .group hb hg ih

/-- A group is an expression in front of stops that do not open it. -/
theorem Expression.bracket {stops : List String} {b : Bracket} {ms : List Lexeme}
    (hb : delimiterText (.opening b) ∉ stops) (hm : WellNested ms) :
    Expression stops (grouped b ms) := by
  have := Expression.group hb hm .nil
  rwa [List.append_nil] at this

/-- A bracket is its text. -/
theorem eq_mark {l : Lexeme} {d : Delimiter} (h : l.delimiter? = some d) :
    l = mark (delimiterText d) := eq_mark_of_isPunct (isPunct_of_delimiter? h)

/-- **What is well nested is an expression** in front of stops that are not in it. -/
theorem Expression.of_wellNested {stops : List String} {ls : List Lexeme} (h : WellNested ls)
    (hs : ∀ l ∈ ls, l.isOneOf stops = false) : Expression stops ls := by
  induction hn : ls.length using Nat.strongRecOn generalizing ls with
  | ind n ih =>
    cases ls with
    | nil => exact .nil
    | cons l ls =>
      subst hn
      have hl := hs l List.mem_cons_self
      cases hd : l.delimiter? with
      | none =>
        rw [WellNested, nested_plain hd] at h
        exact .plain hd hl (ih _ (Nat.lt_succ_self _) h
          (fun k hk => hs k (List.mem_cons_of_mem l hk)) rfl)
      | some d =>
        cases d with
        | opening b =>
          rw [WellNested, nested_opening hd] at h
          obtain ⟨ms, z, rest, rfl, hm, hz, hrest⟩ := exists_closing h (Nat.le_refl _)
          have hlt : rest.length < (l :: (ms ++ z :: rest)).length := by
            simp only [List.length_cons, List.length_append]
            omega
          have hmore := ih _ hlt hrest (fun k hk => hs k (by simp [hk])) rfl
          have hb : delimiterText (.opening b) ∉ stops := by
            intro hmem
            rw [isOneOf_of_isPunct (isPunct_of_delimiter? hd) hmem] at hl
            cases hl
          have := Expression.group hb hm hmore
          rw [eq_mark hd, eq_mark hz]
          simpa [grouped, delimiterText] using this
        | closing b =>
          rw [WellNested, nested, hd] at h
          cases h

/-- A comma that is no stop does not end an expression. -/
theorem Expression.commaSeparated {stops : List String} {lss : List (List Lexeme)}
    (h : ∀ ls ∈ lss, Expression stops ls) (hs : "," ∉ stops) :
    Expression stops (Lexer.commaSeparated lss) := by
  have hcomma : (mark ",").isOneOf stops = false := by simp [Lexeme.isOneOf, mark, hs]
  induction lss with
  | nil => exact .nil
  | cons l lss ih =>
    have hl := h l List.mem_cons_self
    have hr := ih fun k hk => h k (List.mem_cons_of_mem l hk)
    cases lss with
    | nil => simpa [Lexer.commaSeparated] using hl
    | cons k ks =>
      have := hl.append (hr.plain rfl hcomma)
      simpa [Lexer.commaSeparated] using this

/-! ### Heads of types -/

/-- Where the base types and constraints of a type end. -/
def headStops : List String := ["\x7b", "\x7d", ";", "=>"]

/-- Neither braces nor arrows stand between angles. -/
theorem Angled.stays {ms : List Lexeme} (h : Angled ms) :
    ∀ l ∈ ms, l.isOneOf headStops = false := by
  induction h with
  | nil => exact fun _ h => absurd h List.not_mem_nil
  | plain hl _ ih =>
    refine List.forall_mem_cons.2 ⟨isOneOf_of_subset hl (by decide), ih⟩
  | nested _ _ ihm ihl =>
    rw [angles]
    intro l h
    simp only [List.cons_append, List.append_assoc, List.nil_append, List.mem_cons,
      List.mem_append] at h
    rcases h with rfl | h | rfl | h
    · rfl
    · exact ihm l h
    · rfl
    · exact ihl l h

theorem TypeTail.expression {ls : List Lexeme} (h : TypeTail ls) : Expression headStops ls := by
  induction h with
  | nil => exact .nil
  | qualified hs hn _ ih =>
    have hw := isWordy_of_isName hn
    exact .plain (delimiter?_of_isOneOf hs (by decide)) (isOneOf_of_disjoint hs (by decide)) <|
      .plain (delimiter?_of_isWordy hw) (isOneOf_of_isWordy hw _) ih
  | arguments ha hw _ ih =>
    have hm := Expression.of_wellNested hw ha.stays
    have hangles := hm.append (Expression.nil.plain (l := mark ">") rfl rfl)
    exact (hangles.plain (l := mark "<") rfl rfl).append ih

theorem TypeSuffixes.expression {ls : List Lexeme} (h : TypeSuffixes ls) :
    Expression headStops ls := by
  induction h with
  | nil => exact .nil
  | sign hl _ ih =>
    exact .plain (delimiter?_of_isOneOf hl (by decide)) (isOneOf_of_disjoint hl (by decide)) ih
  | array commas _ ih => exact .group (by decide) (.replicate rfl commas) ih

/-- **A type is passed in the head of another type.** -/
theorem TypeForm.expression {ls : List Lexeme} (h : TypeForm ls) : Expression headStops ls := by
  cases h with
  | named h ht hs =>
    have hw := isWordy_of_startsType h
    exact .plain (delimiter?_of_isWordy hw) (isOneOf_of_isWordy hw _)
      (ht.expression.append hs.expression)
  | tuple h hs => exact .group (by decide) h hs.expression

end Parser
end Outline
