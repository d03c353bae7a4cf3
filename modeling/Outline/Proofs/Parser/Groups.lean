/-
# Groups in brackets

A group is skipped with the brackets in it on a stack, and whatever is out of place is
reported.  So a group is recognised by its being closed without a report:

| skipped from an opening bracket | closed | reported |
| --- | --- | --- |
| a well nested group, whatever follows | yes, just after it | nothing |
| up to a bracket that closes the first one, others being unclosed or stray | yes | an error |
| up to a foreign closing brace, or the end | no | an error |

If a group is closed at all, then the token before the cursor is the bracket that closes
the first one (`skipGroup_recognises`).
-/

import Outline.Proofs.Parser.Grammar
import Outline.Proofs.Parser.Walk

namespace Outline
namespace Parser

open Lexeme (mark)
open Outline.Language (Version)

/-! ### What is found in a group -/

theorem unclosed_isFault (index : Nat) (opened : List Bracket) :
    ∀ x ∈ unclosed index opened, x.cause.isFault = true := by
  intro x hx
  obtain ⟨b, -, rfl⟩ := List.mem_map.1 hx
  rfl

theorem unclosed_eq_nil {index : Nat} {opened : List Bracket} :
    unclosed index opened = [] ↔ opened = [] := List.map_eq_nil_iff

/-- All that is found in a group is a fault. -/
theorem skipOpened_isFault (opened : List Bracket) (index : Nat) (ls : List Lexeme) :
    ∀ x ∈ (skipOpened opened index ls).found, x.cause.isFault = true := by
  have before : ∀ {f : List Finding} {s : Step Bool}, (∀ x ∈ f, x.cause.isFault = true) →
      (∀ x ∈ s.found, x.cause.isFault = true) →
        ∀ x ∈ (s.before f).found, x.cause.isFault = true :=
    fun hf hs x hx => (List.mem_append.1 hx).elim (hf x) (hs x)
  induction ls generalizing opened index with
  | nil => exact unclosed_isFault index opened
  | cons l ls ih =>
    rw [skipOpened]
    split
    · exact ih _ _
    · split
      · split
        · exact unclosed_isFault index _
        · exact before (unclosed_isFault index _) (ih _ _)
      · split
        · exact unclosed_isFault index opened
        · refine before (fun x hx => ?_) (ih _ _)
          rw [List.mem_singleton.1 hx]
          rfl
    · exact ih _ _

theorem eq_nil_of_hasFault {f : List Finding} (hf : ∀ x ∈ f, x.cause.isFault = true)
    (h : hasFault f = false) : f = [] := by
  cases f with
  | nil => rfl
  | cons x f => simp [hasFault, hf x List.mem_cons_self] at h

/-- What is reported of findings in a version of the language. -/
def diagnosticsOf (version : Version) (found : List Finding) : List Diagnostic :=
  found.filterMap (·.cause.diagnostic? version)

/-- Of faults an error is reported, unless there are none. -/
theorem exists_error_of_faults {found : List Finding} (version : Version)
    (hf : ∀ x ∈ found, x.cause.isFault = true) (h : found ≠ []) :
    ∃ d ∈ diagnosticsOf version found, d.isError = true := by
  obtain ⟨x, hx⟩ := List.exists_mem_of_ne_nil found h
  obtain ⟨d, hd, he⟩ := isError_of_isFault (hf x hx) version
  exact ⟨d, List.mem_filterMap.2 ⟨x, hx, hd⟩, he⟩

theorem diagnosticsOf_eq_nil {found : List Finding} {version : Version}
    (hf : ∀ x ∈ found, x.cause.isFault = true) : diagnosticsOf version found = [] ↔ found = [] := by
  refine ⟨fun h => ?_, fun h => by rw [h]; rfl⟩
  cases found with
  | nil => rfl
  | cons x found =>
    obtain ⟨d, hd, -⟩ := exists_error_of_faults version hf (List.cons_ne_nil x found)
    rw [h] at hd
    cases hd

/-! ### Groups that are well nested -/

/-- What is well nested is passed inside of a group. -/
theorem skipOpened_of_nested {opened last base : List Bracket} {ms : List Lexeme} (hb : base ≠ [])
    (h : nested opened ms = some last) (i : Nat) (after : List Lexeme) :
    skipOpened (opened ++ base) i (ms ++ after)
      = skipOpened (last ++ base) (i + ms.length) after := by
  induction ms generalizing opened i with
  | nil =>
    rw [nested] at h
    rw [Option.some.inj h]
    rfl
  | cons l ms ih =>
    have hi : i + (l :: ms).length = i + 1 + ms.length := by
      rw [List.length_cons]
      omega
    rw [hi, List.cons_append, skipOpened]
    rw [nested] at h
    cases hl : l.delimiter? with
    | none =>
      rw [hl] at h
      exact ih h (i + 1)
    | some d =>
      rw [hl] at h
      cases d with
      | opening b => exact ih h (i + 1)
      | closing b =>
        cases opened with
        | nil => cases h
        | cons a opened =>
          dsimp only at h ⊢
          split at h
          · rename_i hab
            subst hab
            have htail : ((a :: opened ++ base).dropWhile (· ≠ a)).tail = opened ++ base := by simp
            have hnone : (a :: opened ++ base).takeWhile (· ≠ a) = [] := by simp
            rw [if_pos (by simp), htail, hnone, ← ih h (i + 1)]
            cases ho : opened ++ base with
            | nil => exact absurd (List.append_eq_nil_iff.1 ho).2 hb
            | cons o os => rfl
          · cases h

/-- A group that is well nested is skipped. -/
theorem skipGroup_of_wellNested (b : Bracket) {ms : List Lexeme} (h : WellNested ms) (i : Nat)
    (after : List Lexeme) :
    skipGroup ⟨i, grouped b ms ++ after⟩ = ⟨true, ⟨i + (grouped b ms).length, after⟩, []⟩ := by
  have inner := skipOpened_of_nested (List.cons_ne_nil b []) h (i + 1) (mark b.closer :: after)
  have hi : i + (grouped b ms).length = i + 1 + ms.length + 1 := by
    rw [length_grouped]
    omega
  rw [hi, skipGroup, grouped, List.cons_append, skipOpened, delimiter?_opener]
  dsimp only
  rw [List.nil_append] at inner
  rw [List.append_assoc, List.singleton_append, inner, skipOpened, delimiter?_closer]
  simp [unclosed]

/-! ### Groups that nothing is found in -/

/-- The innermost bracket is closed when none is found unclosed. -/
theorem opened_of_takeWhile {opened : List Bracket} {b : Bracket} (hc : opened.contains b = true)
    (h : opened.takeWhile (· ≠ b) = []) :
    ∃ outer, opened = b :: outer ∧ (opened.dropWhile (· ≠ b)).tail = outer := by
  cases opened with
  | nil => simp at hc
  | cons a opened =>
    by_cases hab : a = b
    · subst hab
      exact ⟨opened, rfl, by simp⟩
    · simp [hab] at h

/-- If nothing is found, then the bracket that was opened first is closed last. -/
theorem skipOpened_closes {inner : List Bracket} {b : Bracket} {index : Nat} {ls : List Lexeme}
    (h : (skipOpened (inner ++ [b]) index ls).found = []) :
    (skipOpened (inner ++ [b]) index ls).value = true ∧
      ∃ ms z, Cursor.Passes ⟨index, ls⟩ (ms ++ [z]) (skipOpened (inner ++ [b]) index ls).rest ∧
        nested inner ms = some [] ∧ z.delimiter? = some (.closing b) := by
  -- On the brackets above `b` the skip does what `nested` does, as no closer is out of turn.
  induction ls generalizing inner index with
  | nil => exact absurd (unclosed_eq_nil.1 h) (by simp)
  | cons l ls ih =>
    have one : Cursor.Passes ⟨index, l :: ls⟩ [l] ⟨index + 1, ls⟩ := ⟨rfl, rfl⟩
    rw [skipOpened] at h ⊢
    cases hl : l.delimiter? with
    | none =>
      rw [hl] at h
      obtain ⟨hv, ms, z, hp, hn, hz⟩ := ih h
      exact ⟨hv, l :: ms, z, one.trans hp, by rwa [nested_plain hl], hz⟩
    | some d =>
      rw [hl] at h
      cases d with
      | opening a =>
        have hopened : (skipOpened ((a :: inner) ++ [b]) (index + 1) ls).found = [] := h
        obtain ⟨hv, ms, z, hp, hn, hz⟩ := ih hopened
        exact ⟨hv, l :: ms, z, one.trans hp, by rwa [nested_opening hl], hz⟩
      | closing a =>
        dsimp only at h ⊢
        split at h
        · rename_i hc
          rw [if_pos hc]
          have hnone : (inner ++ [b]).takeWhile (· ≠ a) = [] := by
            split at h
            · exact unclosed_eq_nil.1 h
            · exact unclosed_eq_nil.1 (List.append_eq_nil_iff.1 h).1
          obtain ⟨outer, ho, ht⟩ := opened_of_takeWhile hc hnone
          rw [ht] at h ⊢
          cases inner with
          | nil =>
            obtain ⟨rfl, rfl⟩ := List.cons.inj ho
            exact ⟨rfl, [], l, one, rfl, hl⟩
          | cons e inner =>
            obtain ⟨rfl, hout⟩ := List.cons.inj ho
            have hcons : ∃ o os, outer = o :: os := by
              cases inner <;> exact ⟨_, _, hout.symm⟩
            obtain ⟨o, os, rfl⟩ := hcons
            have hrest := (List.append_eq_nil_iff.1 h).2
            have hsame : inner ++ [b] = o :: os := hout
            dsimp only
            rw [← hsame] at hrest ⊢
            obtain ⟨hv, ms, z, hp, hn, hz⟩ := ih hrest
            exact ⟨hv, l :: ms, z, one.trans hp, by rwa [nested_closing hl], hz⟩
        · split at h
          · exact absurd (unclosed_eq_nil.1 h) (by simp)
          · cases h

/-- A group that nothing is found in is closed, and well nested. -/
theorem skipGroup_closes {c : Cursor} {b : Bracket}
    (hc : c.atPunct (delimiterText (.opening b)) = true) (h : (skipGroup c).found = []) :
    (skipGroup c).value = true ∧ ∃ ms, c.Passes (grouped b ms) (skipGroup c).rest ∧
      WellNested ms := by
  obtain ⟨l, ls, ha, hs⟩ := skipGroup_of_opener hc
  rw [hs] at h ⊢
  have hnone : (skipOpened ([] ++ [b]) (c.index + 1) ls).found = [] := h
  obtain ⟨hv, ms, z, hp, hn, hz⟩ := skipOpened_closes hnone
  have hl : l = mark (delimiterText (.opening b)) := by
    rw [Cursor.atPunct, Cursor.head?, ha] at hc
    exact eq_mark_of_isPunct hc
  have one : c.Passes [l] ⟨c.index + 1, ls⟩ := ⟨ha, rfl⟩
  rw [eq_mark_of_isPunct (isPunct_of_delimiter? hz)] at hp
  rw [hl] at one
  exact ⟨hv, ms, one.trans hp, hn⟩

theorem opening_of_isOneOf {l : Lexeme} (h : l.isOneOf ["(", "[", "\x7b"] = true) :
    ∃ b, l.delimiter? = some (.opening b) := by
  simp only [Lexeme.isOneOf, Bool.and_eq_true, beq_iff_eq, List.contains_iff_mem, List.mem_cons,
    List.not_mem_nil, or_false] at h
  obtain ⟨hk, ht | ht | ht⟩ := h
  · exact ⟨.paren, by simp [Lexeme.delimiter?, hk, ht]⟩
  · exact ⟨.square, by simp [Lexeme.delimiter?, hk, ht]⟩
  · exact ⟨.brace, by simp [Lexeme.delimiter?, hk, ht]⟩

/-- A group without a fault is well nested. -/
theorem skipGroup_wellNested {c : Cursor} (hc : c.atOneOf ["(", "[", "\x7b"] = true)
    (h : hasFault (skipGroup c).found = false) :
    ∃ g, c.Passes g (skipGroup c).rest ∧ WellNested g := by
  have hn : (skipGroup c).found = [] := eq_nil_of_hasFault (skipOpened_isFault _ _ _) h
  obtain ⟨l, hl, hol⟩ := Cursor.exists_head?_of_any hc
  obtain ⟨b, hb⟩ := opening_of_isOneOf hol
  have hopen : c.atPunct (delimiterText (.opening b)) = true := by
    rw [Cursor.atPunct, hl]
    exact isPunct_of_delimiter? hb
  obtain ⟨-, ms, hp, hw⟩ := skipGroup_closes hopen hn
  exact ⟨grouped b ms, hp, hw.bracket b⟩

/-! ### Groups are recognised -/

/-- **A group is recognised by its being closed without a report.**  From an opening bracket
it is skipped so up to a cursor if and only if there is a well nested group in between.  What
is closed ends with the bracket that closes the first one, and what is not closed is reported
as an error. -/
theorem skipGroup_recognises {c : Cursor} {b : Bracket}
    (h : c.atPunct (delimiterText (.opening b)) = true) (version : Version) :
    (∀ d, ((skipGroup c).value = true ∧ diagnosticsOf version (skipGroup c).found = [] ∧
        (skipGroup c).rest = d) ↔ ∃ ms, c.Passes (grouped b ms) d ∧ WellNested ms) ∧
      ((skipGroup c).value = true →
        ∃ ms z, c.Passes (ms ++ [z]) (skipGroup c).rest ∧ z.isPunct b.closer = true) ∧
      ((skipGroup c).value = false →
        ∃ e ∈ diagnosticsOf version (skipGroup c).found, e.isError = true) := by
  have faults := skipOpened_isFault [] c.index c.ahead
  refine ⟨fun d => ⟨?_, ?_⟩, fun hv => ?_, fun hv => ?_⟩
  · rintro ⟨-, hnone, rfl⟩
    exact (skipGroup_closes h ((diagnosticsOf_eq_nil faults).1 hnone)).2
  · rintro ⟨ms, hp, hw⟩
    obtain ⟨i, ls⟩ := c
    obtain ⟨j, after⟩ := d
    obtain rfl : ls = grouped b ms ++ after := hp.ahead
    obtain rfl : j = i + (grouped b ms).length := hp.index
    rw [skipGroup_of_wellNested b hw]
    exact ⟨rfl, rfl, rfl⟩
  · obtain ⟨first, ms, z, hp, hz⟩ := skipGroup_closed hv h
    exact ⟨first :: ms, z, hp, hz⟩
  · refine exists_error_of_faults version faults fun hnone => ?_
    rw [(skipGroup_closes h hnone).1] at hv
    cases hv

/-- A group with another one in it is recognised; one with a bracket that is not closed is
closed all the same, and reported. -/
theorem skipGroup_recognises_square :
    let well : Cursor := ⟨3, lexemes "[ a ( 1 ) ] b ]"⟩
    let badly : Cursor := ⟨3, lexemes "[ a ( 1 ] b ]"⟩
    well.atPunct "[" = true ∧ badly.atPunct "[" = true ∧
      (skipGroup well).rest = ⟨9, lexemes "b ]"⟩ ∧
      (∃ ms z, badly.Passes (ms ++ [z]) (skipGroup badly).rest ∧ z.isPunct "]" = true) ∧
      ¬∃ d ms, badly.Passes (grouped .square ms) d ∧ WellNested ms := by
  intro well badly
  have hw : well.atPunct "[" = true := by decide +kernel
  have hb : badly.atPunct "[" = true := by decide +kernel
  obtain ⟨grouped_iff, -⟩ := skipGroup_recognises (b := .square) hw .v12
  obtain ⟨not_iff, closed, -⟩ := skipGroup_recognises (b := .square) hb .v12
  refine ⟨hw, hb, ?_, closed (by decide +kernel), fun ⟨d, hd⟩ => ?_⟩
  · exact ((grouped_iff _).2 ⟨lexemes "a ( 1 )", ⟨by decide +kernel, by decide +kernel⟩,
      by decide +kernel⟩).2.2
  · exact absurd ((not_iff d).2 hd).2.1 (by decide +kernel)

end Parser
end Outline
