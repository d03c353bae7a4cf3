/-
# The levels of a file

The parser looks at the brackets of groups and at the braces of declarations, but
some lexemes it passes without looking at their brackets:

| where | what is passed |
| --- | --- |
| after `using` | up to a brace, a `;` or a reserved word |
| from `<` | up to the `>` that ends type parameters or arguments |
| after `operator` | up to `(`, `{` or `;` |
| base types and constraints | closing parentheses and square brackets |

So a file without errors is a tree of *levels*: the lexemes of a level stand in the
same braces, and those of them that were passed in this way can be nested badly.
The file is well nested if and only if they are, level by level
(`Level.wellNested_iff`, `wellNested_iff_of_accepted`).
-/

import Mathlib.Algebra.GroupWithZero.Nat
import Outline.Proofs.Parser.Declarations
import Outline.Proofs.Parser.Groups
import Outline.SyntaxTree

namespace Outline
namespace Parser

/-- Lexemes that are passed without a look at their brackets. -/
inductive Unchecked : List Lexeme → Prop
  | imported {u : Lexeme} {s names : List Lexeme} (hu : u.isKeyword "using" = true)
      (hs : ∀ l ∈ s, l.isKeyword "static" = true) (hn : ∀ l ∈ names, endsUsing l = false) :
      Unchecked (u :: s ++ names)
  | angles {a z : Lexeme} {ls : List Lexeme} (ha : a.isPunct "<" = true)
      (hz : z.isPunct ">" = true)
      (h : ∀ l ∈ ls, l.isOneOf ["\x7b", "\x7d", ";", "("] = false) : Unchecked (a :: ls ++ [z])
  | sign {o : Lexeme} {ls : List Lexeme} (ho : o.isKeyword "operator" = true)
      (h : ∀ l ∈ ls, l.isOneOf ["(", "\x7b", ";"] = false) : Unchecked (o :: ls)

/-- Base types and constraints, and the closing brackets among them that close
nothing. -/
inductive HeadLevel : List Lexeme → List Lexeme → Prop
  | nil : HeadLevel [] []
  | plain {l : Lexeme} {ls own : List Lexeme} (hl : l.delimiter? = none) :
      HeadLevel ls own → HeadLevel (l :: ls) own
  | group {g ls own : List Lexeme} (hg : WellNested g) : HeadLevel ls own →
      HeadLevel (g ++ ls) own
  | closer {l : Lexeme} {ls own : List Lexeme} (hl : l.isOneOf [")", "]"] = true) :
      HeadLevel ls own → HeadLevel (l :: ls) (l :: own)

/-- The lexemes of one level; those of its `own` that were passed without a look at
their brackets, and the same for each level `inside` of it. -/
inductive Level : List Lexeme → List Lexeme → List (List Lexeme) → Prop
  | nil : Level [] [] []
  | append {ls ms own owm : List Lexeme} {inside insidm : List (List Lexeme)} :
      Level ls own inside → Level ms owm insidm →
        Level (ls ++ ms) (own ++ owm) (inside ++ insidm)
  | plain {l : Lexeme} (hl : l.delimiter? = none) : Level [l] [] []
  | group {g : List Lexeme} (hg : WellNested g) : Level g [] []
  | unchecked {ls : List Lexeme} (h : Unchecked ls) : Level ls ls []
  | head {l : Lexeme} {ls own : List Lexeme} (hl : (l.isPunct ":" || l.isWord "where") = true)
      (h : HeadLevel ls own) : Level (l :: ls) own []
  | block {a z : Lexeme} {ls own : List Lexeme} {inside : List (List Lexeme)}
      (ha : a.isPunct "\x7b" = true) (hz : z.isPunct "\x7d" = true) (h : Level ls own inside) :
      Level (a :: ls ++ [z]) [] (own :: inside)

/-! ### Braces of levels -/

theorem delimiter?_openBrace {l : Lexeme} (h : l.isPunct "\x7b" = true) :
    l.delimiter? = some (.opening .brace) := delimiter?_of_isPunct h

theorem delimiter?_closeBrace {l : Lexeme} (h : l.isPunct "\x7d" = true) :
    l.delimiter? = some (.closing .brace) := delimiter?_of_isPunct h

theorem delimiter?_of_headSign {l : Lexeme} (h : (l.isPunct ":" || l.isWord "where") = true) :
    l.delimiter? = none := by
  rw [Bool.or_eq_true] at h
  obtain h | h := h
  · exact delimiter?_of_isPunct h
  · exact delimiter?_of_kind (by simp_all [Lexeme.isWord])

/-- No brace is opened among lexemes that are passed without a look. -/
theorem Unchecked.opening {ls : List Lexeme} (h : Unchecked ls) :
    delimiters (.opening .brace) ls = 0 := by
  have plain : ∀ {l : Lexeme}, l.kind ≠ .punct → l.delimiter? ≠ some (.opening .brace) :=
    fun hk => by simp [delimiter?_of_kind hk]
  rw [delimiters_eq_zero]
  cases h with
  | imported hu hs hn =>
    intro l hl
    simp only [List.cons_append, List.mem_cons, List.mem_append] at hl
    obtain rfl | hl | hl := hl
    · exact plain (by simp_all [Lexeme.isKeyword])
    · exact plain (by simp_all [Lexeme.isKeyword])
    · have he := hn l hl
      rw [endsUsing, Bool.or_eq_false_iff] at he
      exact delimiter?_ne_of_isOneOf he.1 (by decide)
  | angles ha hz h =>
    intro l hl
    simp only [List.cons_append, List.mem_cons, List.mem_append, List.not_mem_nil, or_false] at hl
    obtain rfl | hl | rfl := hl
    · rw [delimiter?_of_isPunct ha]
      decide
    · exact delimiter?_ne_of_isOneOf (h l hl) (by decide)
    · rw [delimiter?_of_isPunct hz]
      decide
  | sign ho h =>
    intro l hl
    obtain rfl | hl := List.mem_cons.1 hl
    · exact plain (by simp_all [Lexeme.isKeyword])
    · exact delimiter?_ne_of_isOneOf (h l hl) (by decide)

/-- Base types hold as many braces of either side, and none of them is their own. -/
theorem HeadLevel.count {ls own : List Lexeme} (h : HeadLevel ls own) :
    delimiters (.closing .brace) ls = delimiters (.opening .brace) ls ∧ Braceless own := by
  have closer : ∀ {l : Lexeme} (d : Delimiter), l.isOneOf [")", "]"] = true →
      d = .opening .brace ∨ d = .closing .brace → l.delimiter? ≠ some d := by
    intro l d hl hd hs
    have := isPunct_of_delimiter? hs
    obtain rfl | rfl := hd <;>
      simp_all [Lexeme.isOneOf, Lexeme.isPunct, delimiterText, Bracket.closer]
  induction h with
  | nil => exact ⟨rfl, rfl, rfl⟩
  | plain hl _ ih => simpa [delimiters_cons, hl] using ih
  | group hg _ ih =>
    rw [delimiters_append, delimiters_append, hg.count]
    exact ⟨by rw [ih.1], ih.2⟩
  | closer hl _ ih =>
    obtain ⟨ih, hb⟩ := ih
    unfold Braceless
    simp only [delimiters_cons, if_neg (closer _ hl (.inl rfl)), if_neg (closer _ hl (.inr rfl)),
      Nat.add_zero]
    exact ⟨ih, hb⟩

/-- No brace is opened by a lexeme that its level owns. -/
theorem Level.opening {ls own : List Lexeme} {inside : List (List Lexeme)}
    (h : Level ls own inside) : ∀ os ∈ own :: inside, delimiters (.opening .brace) os = 0 := by
  induction h with
  | nil | plain | group => simp [delimiters]
  | append _ _ ih ih' =>
    simp only [List.mem_cons, forall_eq_or_imp, List.mem_append] at ih ih' ⊢
    rw [delimiters_append, ih.1, ih'.1]
    exact ⟨rfl, fun os hos => hos.elim (ih.2 os) (ih'.2 os)⟩
  | unchecked h => simpa using h.opening
  | head _ h => simpa using h.count.2.1
  | block _ _ _ ih =>
    intro os hos
    obtain rfl | hos := List.mem_cons.1 hos
    · rfl
    · exact ih os hos

/-- The closing braces of a level are those that close one of it and those that its
lexemes and the inner ones own. -/
theorem Level.closing {ls own : List Lexeme} {inside : List (List Lexeme)}
    (h : Level ls own inside) : delimiters (.closing .brace) ls =
      delimiters (.opening .brace) ls
        + ((own :: inside).map (delimiters (.closing .brace))).sum := by
  induction h with
  | nil => rfl
  | append _ _ ih ih' =>
    simp only [List.map_cons, List.sum_cons, List.map_append, List.sum_append,
      delimiters_append] at ih ih' ⊢
    omega
  | plain hl => simp [delimiters, hl]
  | group hg =>
    rw [hg.count]
    simp
  | unchecked h => simp [h.opening]
  | head hl h =>
    obtain ⟨hc, -, hb⟩ := h.count
    simp [delimiters_cons, delimiter?_of_headSign hl, hc, hb]
  | block ha hz _ ih =>
    have ha := delimiter?_openBrace ha
    have hz := delimiter?_closeBrace hz
    simp only [List.cons_append, delimiters_cons, delimiters_append, delimiters_nil, ha, hz,
      List.map_cons, List.sum_cons] at ih ⊢
    simp
    omega

/-! ### Levels that are well nested -/

theorem HeadLevel.nested_eq {ls own : List Lexeme} (h : HeadLevel ls own) (opened : List Bracket) :
    nested opened ls = nested opened own := by
  induction h generalizing opened with
  | nil => rfl
  | plain hl _ ih => rw [nested_plain hl, ih]
  | group hg _ ih => rw [nested_append, hg.nested_eq, Option.bind_some, ih]
  | closer _ _ ih =>
    rw [nested, nested]
    split
    · exact ih opened
    · exact ih _
    · split
      · rfl
      · split
        · exact ih _
        · rfl

/-- A level is nested as the lexemes that it owns, if the inner ones are well nested. -/
theorem Level.nested_of_own {ls own : List Lexeme} {inside : List (List Lexeme)}
    (h : Level ls own inside) (hi : ∀ os ∈ inside, WellNested os) {opened last : List Bracket}
    (ho : nested opened own = some last) : nested opened ls = some last := by
  induction h generalizing opened last with
  | nil => exact ho
  | append _ _ ih ih' =>
    simp only [List.mem_append] at hi
    rw [nested_append] at ho ⊢
    obtain ⟨mid, hm, hl⟩ := Option.bind_eq_some_iff.1 ho
    rw [ih (fun os hos => hi os (.inl hos)) hm]
    exact ih' (fun os hos => hi os (.inr hos)) hl
  | plain hl => rwa [nested_plain hl]
  | group hg => rwa [hg.nested_eq]
  | unchecked => exact ho
  | head hl h => rwa [nested_plain (delimiter?_of_headSign hl), h.nested_eq]
  | block ha hz _ ih =>
    simp only [List.mem_cons, forall_eq_or_imp] at hi
    rw [List.cons_append, nested_opening (delimiter?_openBrace ha), nested_append,
      ih hi.2 (hi.1.nested_eq _), Option.bind_some, nested_closing (delimiter?_closeBrace hz)]
    exact ho

/-- If no level owns a brace, then a level that is nested is nested as the lexemes that
it owns, and the inner ones are well nested. -/
theorem Level.nested_own {ls own : List Lexeme} {inside : List (List Lexeme)}
    (h : Level ls own inside) (hb : ∀ os ∈ own :: inside, Braceless os)
    {opened last : List Bracket} (hl : nested opened ls = some last) :
    nested opened own = some last ∧ ∀ os ∈ inside, WellNested os := by
  induction h generalizing opened last with
  | nil => exact ⟨hl, by simp⟩
  | append _ _ ih ih' =>
    simp only [List.mem_cons, forall_eq_or_imp, List.mem_append, braceless_append] at hb ih ih'
    rw [nested_append] at hl ⊢
    obtain ⟨mid, hm, hl⟩ := Option.bind_eq_some_iff.1 hl
    obtain ⟨ho, hw⟩ := ih ⟨hb.1.1, fun os hos => hb.2 os (.inl hos)⟩ hm
    obtain ⟨ho', hw'⟩ := ih' ⟨hb.1.2, fun os hos => hb.2 os (.inr hos)⟩ hl
    rw [ho, Option.bind_some]
    exact ⟨ho', fun os hos => (List.mem_append.1 hos).elim (hw os) (hw' os)⟩
  | plain hp => exact ⟨by rwa [nested_plain hp] at hl, by simp⟩
  | group hg => exact ⟨by rwa [hg.nested_eq] at hl, by simp⟩
  | unchecked => exact ⟨hl, by simp⟩
  | head hp h =>
    exact ⟨by rwa [nested_plain (delimiter?_of_headSign hp), h.nested_eq] at hl, by simp⟩
  | block ha hz _ ih =>
    rw [List.cons_append, nested_opening (delimiter?_openBrace ha), nested_append] at hl
    obtain ⟨mid, hm, hl⟩ := Option.bind_eq_some_iff.1 hl
    obtain ⟨ho, hw⟩ := ih (fun os hos => hb os (List.mem_cons_of_mem _ hos)) hm
    -- only the brace that opens the block can be closed by the one that ends it
    obtain ⟨q, hq, rfl, hn⟩ := nested_braceless (p := []) List.not_mem_nil
      (hb _ (List.mem_cons_of_mem _ List.mem_cons_self)) ho
    have hz := delimiter?_closeBrace hz
    cases q with
    | nil =>
      rw [List.nil_append, nested_closing hz] at hl
      refine ⟨hl, fun os hos => ?_⟩
      obtain rfl | hos := List.mem_cons.1 hos
      · exact hn
      · exact hw os hos
    | cons b q =>
      rw [nested, hz] at hl
      have hbb : b ≠ .brace := fun h => hq (h ▸ List.mem_cons_self)
      simp [hbb] at hl

/-- **The lexemes of a level are well nested if and only if those that it and the inner
levels own are.** -/
theorem Level.wellNested_iff {ls own : List Lexeme} {inside : List (List Lexeme)}
    (h : Level ls own inside) : WellNested ls ↔ ∀ os ∈ own :: inside, WellNested os := by
  constructor
  · intro hw
    have hs : ((own :: inside).map (delimiters (.closing .brace))).sum = 0 := by
      have := h.closing
      have := hw.count .brace
      omega
    have hb : ∀ os ∈ own :: inside, Braceless os := fun os hos =>
      ⟨h.opening os hos, List.sum_eq_zero_iff_forall_eq_nat.1 hs _ (List.mem_map_of_mem hos)⟩
    obtain ⟨ho, hi⟩ := h.nested_own hb hw
    intro os hos
    obtain rfl | hos := List.mem_cons.1 hos
    · exact ho
    · exact hi os hos
  · intro hw
    exact h.nested_of_own (fun os hos => hw os (List.mem_cons_of_mem _ hos))
      (hw own List.mem_cons_self)

/-! ### Walks without a fault -/

/-- Type parameters without a fault end with their `>`. -/
theorem typeParametersFrom_unchecked {arity depth index : Nat} {ls : List Lexeme}
    (h : hasFault (typeParametersFrom arity depth index ls).found = false) :
    ∃ ms z, Cursor.Passes ⟨index, ls⟩ (ms ++ [z]) (typeParametersFrom arity depth index ls).rest ∧
      z.isPunct ">" = true ∧ ∀ l ∈ ms, l.isOneOf ["\x7b", "\x7d", ";", "("] = false := by
  induction ls generalizing arity depth index with
  | nil => simp [typeParametersFrom, hasFault, Cause.isFault] at h
  | cons l ls ih =>
    have one : Cursor.Passes ⟨index, l :: ls⟩ [l] ⟨index + 1, ls⟩ := ⟨rfl, rfl⟩
    rw [typeParametersFrom] at h ⊢
    split at h
    · simp [hasFault, Cause.isFault] at h
    rename_i hl
    rw [if_neg hl]
    have hl' : l.isOneOf ["\x7b", "\x7d", ";", "("] = false := by
      simp_all [Lexeme.isOneOf]
    have later : ∀ {arity depth : Nat},
        hasFault (typeParametersFrom arity depth (index + 1) ls).found = false →
        ∃ ms z, Cursor.Passes ⟨index, l :: ls⟩ (ms ++ [z])
            (typeParametersFrom arity depth (index + 1) ls).rest ∧
          z.isPunct ">" = true ∧ ∀ l ∈ ms, l.isOneOf ["\x7b", "\x7d", ";", "("] = false := by
      intro arity depth h
      obtain ⟨ms, z, hp, hz, hms⟩ := ih h
      exact ⟨l :: ms, z, one.trans hp, hz, by simpa [hl'] using hms⟩
    split at h
    · rename_i ha
      rw [if_pos ha]
      exact later h
    rename_i ha
    rw [if_neg ha]
    split at h
    · rename_i hz
      rw [if_pos hz]
      split at h
      · rename_i hd
        rw [if_pos hd]
        exact ⟨[], l, one, hz, by simp⟩
      · rename_i hd
        rw [if_neg hd]
        exact later h
    rename_i hz
    rw [if_neg hz]
    split at h
    · rename_i hc
      rw [if_pos hc]
      exact later h
    · rename_i hc
      rw [if_neg hc]
      exact later h

/-- Type arguments end with their `>`. -/
theorem angleLength_unchecked {depth n : Nat} {ls : List Lexeme}
    (h : angleLength depth ls = some n) :
    ∃ ms z, ls.take n = ms ++ [z] ∧ z.isPunct ">" = true ∧
      ∀ l ∈ ms, l.isOneOf ["\x7b", "\x7d", ";", "("] = false := by
  induction ls generalizing depth n with
  | nil => simp [angleLength] at h
  | cons l ls ih =>
    rw [angleLength] at h
    have angle : ∀ {p : String}, l.isPunct p = true → p ∉ ["\x7b", "\x7d", ";", "("] →
        l.isOneOf ["\x7b", "\x7d", ";", "("] = false := by
      intro p hp hn
      simp only [Lexeme.isPunct, Bool.and_eq_true, beq_iff_eq] at hp
      simp only [Lexeme.isOneOf, hp.1, hp.2, beq_self_eq_true, Bool.true_and]
      simpa using hn
    have later : ∀ {depth : Nat}, l.isOneOf ["\x7b", "\x7d", ";", "("] = false →
        (angleLength depth ls).map (· + 1) = some n →
        ∃ ms z, (l :: ls).take n = ms ++ [z] ∧ z.isPunct ">" = true ∧
          ∀ l ∈ ms, l.isOneOf ["\x7b", "\x7d", ";", "("] = false := by
      intro depth hl h
      obtain ⟨k, hk, rfl⟩ := Option.map_eq_some_iff.1 h
      obtain ⟨ms, z, ht, hz, hms⟩ := ih hk
      exact ⟨l :: ms, z, by rw [List.take_succ_cons, ht, List.cons_append], hz, by
        simpa [hl] using hms⟩
    split at h
    · exact later (angle ‹_› (by decide)) h
    split at h
    · split at h
      · obtain rfl := Option.some.inj h
        exact ⟨[], l, by simp, ‹_›, by simp⟩
      · exact later (angle ‹_› (by decide)) h
    split at h
    · simp at h
    · exact later (by simp_all) h

/-- The name of a using is put together up to what ends it. -/
theorem usingNameFrom_unchecked (index : Nat) (ls : List Lexeme) :
    ∃ ms, Cursor.Passes ⟨index, ls⟩ ms (usingNameFrom index ls).rest ∧
      ∀ l ∈ ms, endsUsing l = false := by
  induction ls generalizing index with
  | nil => exact ⟨[], .refl _, by simp⟩
  | cons l ls ih =>
    have one : Cursor.Passes ⟨index, l :: ls⟩ [l] ⟨index + 1, ls⟩ := ⟨rfl, rfl⟩
    rw [usingNameFrom]
    split
    · exact ⟨[], .refl _, by simp⟩
    · obtain ⟨ms, hp, hms⟩ := ih (index + 1)
      exact ⟨l :: ms, one.trans hp, by simp_all⟩

/-- The sign of an operator is put together up to its parameters, its body or its end. -/
theorem operatorSign_unchecked (c : Cursor) :
    ∃ ms, c.Passes ms (operatorSign c).rest ∧ ∀ l ∈ ms, l.isOneOf ["(", "\x7b", ";"] = false := by
  fun_induction operatorSign c with
  | case1 c => exact ⟨[], .refl _, by simp⟩
  | case2 c hc h ih =>
    obtain ⟨ms, hp, hms⟩ := ih
    refine ⟨_, c.passes_next.trans hp, fun l hl => ?_⟩
    obtain hl | hl := List.mem_append.1 hl
    · simp only [Bool.or_eq_true, not_or, Bool.not_eq_true] at hc
      have hh : c.head? = some l := by simpa using hl
      simpa [Cursor.atOneOf, hh] using hc.1
    · exact hms l hl
  | case3 c => exact ⟨[], .refl _, by simp⟩

/-- What goes on the head of a type, other than a group, is no bracket or a closing one. -/
theorem plain_or_closer {l : Lexeme} (hs : l.isOneOf ["\x7b", "\x7d", ";", "=>"] = false)
    (hg : l.isOneOf ["(", "["] = false) :
    l.delimiter? = none ∨ l.isOneOf [")", "]"] = true := by
  cases hl : l.delimiter? with
  | none => exact .inl rfl
  | some d =>
    have hp := isPunct_of_delimiter? hl
    cases d with
    | opening b => cases b <;> simp_all [Lexeme.isPunct, Lexeme.isOneOf, delimiterText]
    | closing b =>
      cases b <;> simp_all [Lexeme.isPunct, Lexeme.isOneOf, delimiterText, Bracket.closer]

/-- Base types without a fault are the head of a level. -/
theorem skipToBody_headLevel (c : Cursor) (h : hasFault (skipToBody c).found = false) :
    ∃ ls own, c.Passes ls (skipToBody c).rest ∧ HeadLevel ls own := by
  have opener : ∀ {c : Cursor} {l : Lexeme} {ls : List Lexeme}, c.ahead = l :: ls →
      l.isOneOf ["(", "["] = true → c.atOneOf ["(", "[", "\x7b"] = true := by
    intro c l ls hc hl
    refine Cursor.atOneOf_of_ahead hc ?_
    simp only [Lexeme.isOneOf, Bool.and_eq_true, List.contains_iff_mem, List.mem_cons,
      List.not_mem_nil, or_false] at hl ⊢
    exact ⟨hl.1, hl.2.imp_right .inl⟩
  fun_induction skipToBody c with
  | case1 c => exact ⟨[], [], .refl _, .nil⟩
  | case2 c => exact ⟨[], [], .refl _, .nil⟩
  | case3 c l ls hc hs hg s closed ih =>
    rw [Step.before, hasFault_append, Bool.or_eq_false_iff] at h
    obtain ⟨g, hp, hw⟩ := skipGroup_wellNested (opener hc hg) h.1
    obtain ⟨ms, own, hp', hh⟩ := ih h.2
    exact ⟨g ++ ms, own, hp.trans hp', .group hw hh⟩
  | case4 c l ls hc hs hg s closed =>
    obtain ⟨g, hp, hw⟩ := skipGroup_wellNested (opener hc hg) h
    exact ⟨g ++ [], [], hp.trans (.refl _), .group hw .nil⟩
  | case5 c l ls hc hs hg ih =>
    obtain ⟨ms, own, hp, hh⟩ := ih h
    have hn := Cursor.passes_of_head? (Cursor.head?_of_ahead hc)
    obtain hl | hl := plain_or_closer (by simpa using hs) (by simpa using hg)
    · exact ⟨_, own, hn.trans hp, .plain hl hh⟩
    · exact ⟨_, l :: own, hn.trans hp, .closer hl hh⟩

theorem skipToBody_of_headSign {c : Cursor} {l : Lexeme} (h : c.head? = some l)
    (hl : (l.isPunct ":" || l.isWord "where") = true) : skipToBody c = skipToBody c.next := by
  obtain ⟨i, as⟩ := c
  obtain ⟨ls, ha⟩ := Cursor.ahead_of_head? h
  obtain rfl : as = l :: ls := ha
  have hs : l.isOneOf ["\x7b", "\x7d", ";", "=>"] = false ∧ l.isOneOf ["(", "["] = false := by
    simp only [Bool.or_eq_true, Lexeme.isPunct, Lexeme.isWord, Bool.and_eq_true, beq_iff_eq] at hl
    obtain ⟨hk, ht⟩ | ⟨hk, -⟩ := hl
    · simp [Lexeme.isOneOf, ht]
    · simp [Lexeme.isOneOf, hk]
  rw [skipToBody]
  simp only [hs.1, hs.2, Bool.false_eq_true, if_false]

theorem qualifyingArguments_eq_some {c : Cursor} {n : Nat} (h : qualifyingArguments c = some n) :
    c.atPunct "<" = true ∧ angleLength 1 c.next.ahead = some n := by
  unfold qualifyingArguments at h
  split at h
  · refine ⟨‹_›, ?_⟩
    split at h
    · rename_i k hk
      split at h
      · rw [hk, h]
      · simp at h
    · simp at h
  · simp at h

/-- The name of a using stands after its word, and after `static`. -/
theorem Cursor.afterUsing_keywords {c : Cursor} (h : c.atKeyword "using" = true) :
    ∃ u s, c.Passes (u :: s) c.afterUsing ∧ u.isKeyword "using" = true ∧
      ∀ l ∈ s, l.isKeyword "static" = true := by
  obtain ⟨u, hu, huk⟩ := Cursor.exists_head?_of_any h
  unfold Cursor.afterUsing
  split
  · rename_i hs
    obtain ⟨l, hl, hk⟩ := Cursor.exists_head?_of_any hs
    exact ⟨u, [l], (Cursor.passes_of_head? hu).trans (Cursor.passes_of_head? hl), huk, by simpa⟩
  · exact ⟨u, [], Cursor.passes_of_head? hu, huk, by simp⟩

/-- Type arguments that qualify a name are passed from their `<` to their `>`. -/
theorem qualifyingArguments_unchecked {c : Cursor} {n : Nat} (h : qualifyingArguments c = some n) :
    ∃ a ms z, c.Passes (a :: ms ++ [z]) (c.drop (n + 1)) ∧ a.isPunct "<" = true ∧
      z.isPunct ">" = true ∧ ∀ l ∈ ms, l.isOneOf ["\x7b", "\x7d", ";", "("] = false := by
  obtain ⟨hc, hn⟩ := qualifyingArguments_eq_some h
  obtain ⟨a, hl, ha⟩ := Cursor.exists_head?_of_any hc
  obtain ⟨ms, z, ht, hz, hms⟩ := angleLength_unchecked hn
  have hp := c.passes_drop (n + 1)
  rw [(Cursor.passes_of_head? hl).ahead, List.singleton_append, List.take_succ_cons, ht] at hp
  exact ⟨a, ms, z, hp, ha, hz, hms⟩

/-- A using is passed from its word up to what ends it. -/
theorem usingName_unchecked {c : Cursor} (h : c.atKeyword "using" = true) :
    ∃ u s ms, c.Passes (u :: s ++ ms) (usingName c.afterUsing).rest ∧ u.isKeyword "using" = true ∧
      (∀ l ∈ s, l.isKeyword "static" = true) ∧ ∀ l ∈ ms, endsUsing l = false := by
  obtain ⟨u, s, hp, hu, hs⟩ := Cursor.afterUsing_keywords h
  obtain ⟨ms, hp', hms⟩ := usingNameFrom_unchecked c.afterUsing.index c.afterUsing.ahead
  exact ⟨u, s, ms, hp.trans hp', hu, hs, hms⟩

/-- **A walk without a fault is a level.** -/
theorem Walk.level {top : Bool} {c d : Cursor} {f : List Finding} (h : Walk top c f d)
    (hf : hasFault f = false) :
    ∃ ls own inside, c.Passes ls d ∧ Level ls own inside := by
  induction h with
  | nil c => exact ⟨[], [], [], .refl c, .nil⟩
  | append _ _ ih ih' =>
    rw [hasFault_append, Bool.or_eq_false_iff] at hf
    obtain ⟨ls, own, inside, hp, hl⟩ := ih hf.1
    obtain ⟨ms, owm, insidm, hp', hl'⟩ := ih' hf.2
    exact ⟨_, _, _, hp.trans hp', hl.append hl'⟩
  | report => exact ⟨[], [], [], .refl _, .nil⟩
  | @plain _ c hc =>
    cases hh : c.head? with
    | none => exact ⟨[], [], [], by simpa [hh] using c.passes_next, .nil⟩
    | some l => exact ⟨[l], [], [], by simpa [hh] using c.passes_next, .plain (hc l hh)⟩
  | group hc =>
    obtain ⟨g, hp, hw⟩ := skipGroup_wellNested hc hf
    exact ⟨g, [], [], hp, .group hw⟩
  | @angles _ c hc =>
    obtain ⟨l, hl, ha⟩ := Cursor.exists_head?_of_any hc
    obtain ⟨ms, z, hp, hz, hms⟩ := typeParametersFrom_unchecked hf
    exact ⟨_, _, [], (Cursor.passes_of_head? hl).trans hp, .unchecked (.angles ha hz hms)⟩
  | arguments hc =>
    obtain ⟨a, ms, z, hp, ha, hz, hms⟩ := qualifyingArguments_unchecked hc
    exact ⟨_, _, [], hp, .unchecked (.angles ha hz hms)⟩
  | imported hc =>
    obtain ⟨u, s, ms, hp, hu, hs, hms⟩ := usingName_unchecked hc
    exact ⟨_, _, [], hp, .unchecked (.imported hu hs hms)⟩
  | @sign _ c hc =>
    obtain ⟨l, hl, ho⟩ := Cursor.exists_head?_of_any hc
    obtain ⟨ms, hp, hms⟩ := operatorSign_unchecked c.next
    exact ⟨_, _, [], (Cursor.passes_of_head? hl).trans hp, .unchecked (.sign ho hms)⟩
  | @head _ c hc =>
    obtain ⟨l, hl, hs⟩ : ∃ l, c.head? = some l ∧ (l.isPunct ":" || l.isWord "where") = true := by
      rw [Bool.or_eq_true] at hc
      obtain hc | hc := hc <;> obtain ⟨l, hl, hp⟩ := Cursor.exists_head?_of_any hc <;>
        exact ⟨l, hl, by simp [hp]⟩
    rw [skipToBody_of_headSign hl hs] at hf ⊢
    obtain ⟨ls, own, hp, hh⟩ := skipToBody_headLevel c.next hf
    exact ⟨_, _, [], (Cursor.passes_of_head? hl).trans hp, .head hs hh⟩
  | forced hf' =>
    -- A lexeme is passed by force only behind a fault.
    rw [hf'] at hf
    exact absurd hf (by decide)
  | @block _ c d _ hc hd _ ih =>
    obtain ⟨ls, own, inside, hp, hl⟩ := ih hf
    obtain ⟨a, ha, hab⟩ := Cursor.exists_head?_of_any hc
    obtain ⟨z, hz, hzb⟩ := Cursor.exists_head?_of_any hd
    exact ⟨_, _, _, ((Cursor.passes_of_head? ha).trans hp).trans (Cursor.passes_of_head? hz),
      .block hab hzb hl⟩
  | unclosed => simp [hasFault, Cause.isFault] at hf
  | stray => simp [hasFault, Cause.isFault] at hf

end Parser

/-! ### Sources without errors -/

/-- What is reported of a source without errors is no fault. -/
theorem SyntaxTree.hasFault_of_hasErrors {version : Language.Version} {s : Source}
    (h : (parse version s).hasErrors = false) :
    Parser.hasFault (Parser.parseFile ((tokens s.text).map (·.lexeme))).found = false := by
  rw [Parser.hasFault, List.any_eq_false]
  intro x hx hf
  obtain ⟨d, hd, he⟩ := Parser.isError_of_isFault hf version
  obtain ⟨l, hl⟩ : ∃ l, findingDiagnostic? version s ((tokens s.text).map (·.span)) x
      = some (d.at l) := ⟨_, by rw [findingDiagnostic?, hd]; rfl⟩
  have hm := List.mem_append_right (lexicalDiagnostics s) (List.mem_filterMap.2 ⟨x, hx, hl⟩)
  rw [hasErrors, List.any_eq_false] at h
  exact h (d.at l) (List.mem_mergeSort.2 hm) he

theorem SyntaxTree.hasFault_lexemes {version : Language.Version} {s : Source}
    (h : (parse version s).hasErrors = false) :
    Parser.hasFault (Parser.parseFile (lexemes s.text)).found = false := by
  rw [← map_lexeme_tokens]
  exact hasFault_of_hasErrors h

namespace Parser

/-- **A source without errors is well nested up to what the parser does not look at.**
Its tokens are a level, and they are well nested if and only if those are that were
passed unchecked, level by level. -/
theorem wellNested_iff_of_accepted (version : Language.Version) (s : Source)
    (h : (SyntaxTree.parse version s).hasErrors = false) :
    ∃ own inside, Level ((tokens s.text).map (·.lexeme)) own inside ∧
      (WellNested ((tokens s.text).map (·.lexeme)) ↔ ∀ os ∈ own :: inside, WellNested os) := by
  obtain ⟨hw, hr⟩ := walk_parseFile ((tokens s.text).map (·.lexeme))
  rw [hr] at hw
  obtain ⟨ls, own, inside, hp, hl⟩ := hw.level (SyntaxTree.hasFault_of_hasErrors h)
  have ha := hp.ahead
  rw [List.append_nil] at ha
  rw [show (tokens s.text).map (·.lexeme) = ls from ha]
  exact ⟨own, inside, hl, hl.wellNested_iff⟩

/-- The name of a using is passed whatever its brackets are. -/
theorem wellNested_iff_of_accepted_using :
    (SyntaxTree.parse .v12 ⟨"using A(;", 0⟩).hasErrors = false ∧
      ∃ own inside, Level ((tokens "using A(;").map (·.lexeme)) own inside ∧
        (WellNested ((tokens "using A(;").map (·.lexeme)) ↔
          ∀ os ∈ own :: inside, WellNested os) :=
  ⟨by decide +kernel, wellNested_iff_of_accepted .v12 ⟨"using A(;", 0⟩ (by decide +kernel)⟩

/-- A source without errors need not be well nested. -/
theorem not_wellNested_of_accepted :
    ¬∀ (version : Language.Version) (s : Source),
      (SyntaxTree.parse version s).hasErrors = false →
        WellNested ((tokens s.text).map (·.lexeme)) := by
  intro h
  have hn : ¬WellNested ((tokens "using A(;").map (·.lexeme)) := by decide +kernel
  exact hn (h .v12 ⟨"using A(;", 0⟩ (by decide +kernel))

end Parser
end Outline
