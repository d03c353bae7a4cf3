/-
# Passing lexemes

A cursor gets further on by passing lexemes, and what is found on the way is marked
at tokens that were reached.  Both are stated here for the parsers that go through
lexemes by themselves; all others are put together from these.
-/

import Outline.Parser.File

namespace Outline
namespace Parser

/-! ### Cursors -/

/-- Going on from `c` passes the lexemes `ls` and gets to `d`. -/
structure Cursor.Passes (c : Cursor) (ls : List Lexeme) (d : Cursor) : Prop where
  ahead : c.ahead = ls ++ d.ahead
  index : d.index = c.index + ls.length

namespace Cursor

theorem Passes.refl (c : Cursor) : c.Passes [] c := ⟨rfl, rfl⟩

/-- Lexemes that are passed one after the other. -/
theorem Passes.trans {c d e : Cursor} {ls ms : List Lexeme} (h : c.Passes ls d)
    (k : d.Passes ms e) : c.Passes (ls ++ ms) e :=
  ⟨by rw [h.ahead, k.ahead, List.append_assoc], by
    rw [k.index, h.index, List.length_append, Nat.add_assoc]⟩

/-- What was ahead is what was passed and what is left. -/
theorem Passes.remaining {c d : Cursor} {ls : List Lexeme} (h : c.Passes ls d) :
    c.remaining = ls.length + d.remaining := by
  rw [Cursor.remaining, h.ahead, List.length_append, Cursor.remaining]

/-- The end of the lexemes stays where it is. -/
theorem Passes.index_add_remaining {c d : Cursor} {ls : List Lexeme} (h : c.Passes ls d) :
    d.index + d.remaining = c.index + c.remaining := by
  rw [h.remaining, h.index]
  omega

theorem Passes.eq_of_nil {c d : Cursor} (h : c.Passes [] d) : d = c := by
  obtain ⟨i, ls⟩ := c
  obtain ⟨j, ms⟩ := d
  obtain ⟨ha, hi⟩ := h
  simp_all

/-- A cursor that has not moved is the same cursor. -/
theorem Passes.eq_of_index {c d : Cursor} {ls : List Lexeme} (h : c.Passes ls d)
    (hi : d.index = c.index) : d = c := by
  have hl : ls = [] := List.length_eq_zero_iff.1 (by have := h.index; omega)
  subst hl
  exact h.eq_of_nil

/-- A cursor that has moved has fewer lexemes ahead. -/
theorem Passes.remaining_lt {c d : Cursor} {ls : List Lexeme} (h : c.Passes ls d)
    (hi : d.index ≠ c.index) : d.remaining < c.remaining := by
  have := h.remaining
  have := h.index
  omega

/-- The next cursor passes the next lexeme, if there is one. -/
theorem passes_next (c : Cursor) : c.Passes c.head?.toList c.next := by
  obtain ⟨i, ls⟩ := c
  cases ls <;> exact ⟨rfl, rfl⟩

/-- The next lexeme is passed by itself. -/
theorem passes_of_head? {c : Cursor} {l : Lexeme} (h : c.head? = some l) :
    c.Passes [l] c.next := by
  have hp := c.passes_next
  rwa [h] at hp

theorem index_le_next (c : Cursor) : c.index ≤ c.next.index := by
  rw [c.passes_next.index]
  exact Nat.le_add_right _ _

theorem index_lt_next {c : Cursor} (h : c.atEnd = false) : c.index < c.next.index := by
  obtain ⟨i, ls⟩ := c
  cases ls with
  | nil => simp [atEnd] at h
  | cons l ls => exact Nat.lt_succ_self i

theorem passes_drop (n : Nat) (c : Cursor) : c.Passes (c.ahead.take n) (c.drop n) :=
  ⟨(List.take_append_drop n c.ahead).symm, by simp [drop, List.length_take]⟩

/-- Whether the next lexeme, if there is one, is no bracket. -/
def AtPlain (c : Cursor) : Prop := ∀ l ∈ c.head?, l.delimiter? = none

end Cursor

/-- Only punctuation is a bracket. -/
theorem delimiter?_of_kind {l : Lexeme} (h : l.kind ≠ .punct) : l.delimiter? = none := by
  simp [Lexeme.delimiter?, h]

/-- The texts of the brackets. -/
def bracketTexts : List String := ["(", "[", "\x7b", ")", "]", "\x7d"]

theorem delimiter?_of_text {l : Lexeme} (h : l.text ∉ bracketTexts) : l.delimiter? = none := by
  simp only [bracketTexts, List.mem_cons, List.not_mem_nil, or_false, not_or] at h
  simp [Lexeme.delimiter?, h]

/-- The text of a bracket. -/
def delimiterText : Delimiter → String
  | .opening .paren => "("
  | .opening .square => "["
  | .opening .brace => "\x7b"
  | .closing b => b.closer

/-- A bracket is the mark that it is written with. -/
theorem isPunct_of_delimiter? {l : Lexeme} {d : Delimiter} (h : l.delimiter? = some d) :
    l.isPunct (delimiterText d) = true := by
  unfold Lexeme.delimiter? at h
  split at h
  · rename_i hk
    split at h
    · obtain rfl := Option.some.inj h
      simp [Lexeme.isPunct, delimiterText, *]
    split at h
    · obtain rfl := Option.some.inj h
      simp [Lexeme.isPunct, delimiterText, *]
    split at h
    · obtain rfl := Option.some.inj h
      simp [Lexeme.isPunct, delimiterText, *]
    split at h
    · obtain rfl := Option.some.inj h
      simp [Lexeme.isPunct, delimiterText, Bracket.closer, *]
    split at h
    · obtain rfl := Option.some.inj h
      simp [Lexeme.isPunct, delimiterText, Bracket.closer, *]
    split at h
    · obtain rfl := Option.some.inj h
      simp [Lexeme.isPunct, delimiterText, Bracket.closer, *]
    · simp at h
  · simp at h

/-- Which bracket a mark is depends on its text alone. -/
theorem delimiter?_of_isPunct {l : Lexeme} {p : String} (h : l.isPunct p = true) :
    l.delimiter? = Lexeme.delimiter? ⟨.punct, p⟩ := by
  simp only [Lexeme.isPunct, Bool.and_eq_true, beq_iff_eq] at h
  simp [Lexeme.delimiter?, h.1, h.2]

theorem delimiter?_of_isKeyword {l : Lexeme} {k : String} (h : l.isKeyword k = true) :
    l.delimiter? = none := by
  simp only [Lexeme.isKeyword, Bool.and_eq_true, beq_iff_eq] at h
  simp [Lexeme.delimiter?, h.1]

/-- A lexeme that is none of these is no bracket of these. -/
theorem delimiter?_ne_of_isOneOf {l : Lexeme} {ps : List String} (h : l.isOneOf ps = false)
    {d : Delimiter} (hd : delimiterText d ∈ ps) : l.delimiter? ≠ some d := by
  intro hl
  have := isPunct_of_delimiter? hl
  simp only [Lexeme.isPunct, Bool.and_eq_true, beq_iff_eq] at this
  simp [Lexeme.isOneOf, this.1, this.2, hd] at h

/-- A mark is one of marks that it is among. -/
theorem isOneOf_of_isPunct {l : Lexeme} {p : String} {ps : List String} (h : l.isPunct p = true)
    (hp : p ∈ ps) : l.isOneOf ps = true := by
  simp only [Lexeme.isPunct, Bool.and_eq_true, beq_iff_eq] at h
  simp [Lexeme.isOneOf, h.1, h.2, hp]

namespace Cursor

/-- What is true of the next lexeme is true of a lexeme that is there. -/
theorem exists_head?_of_any {c : Cursor} {p : Lexeme → Bool} (h : c.head?.any p = true) :
    ∃ l, c.head? = some l ∧ p l = true := by
  cases hc : c.head? with
  | none => simp [hc] at h
  | some l => exact ⟨l, rfl, by simpa [hc] using h⟩

/-- A lexeme that is known to be no bracket, and is next. -/
theorem atPlain_of_any {c : Cursor} {p : Lexeme → Bool} (h : c.head?.any p = true)
    (hp : ∀ l, p l = true → l.delimiter? = none) : c.AtPlain := by
  obtain ⟨l, hl, hpl⟩ := exists_head?_of_any h
  intro m hm
  rw [hl] at hm
  exact Option.some.inj hm ▸ hp l hpl

theorem atPlain_of_atKeyword {c : Cursor} {k : String} (h : c.atKeyword k = true) : c.AtPlain :=
  atPlain_of_any h fun _ => delimiter?_of_isKeyword

theorem atPlain_of_atWord {c : Cursor} {w : String} (h : c.atWord w = true) : c.AtPlain :=
  atPlain_of_any h fun l hl => delimiter?_of_kind (by simp_all [Lexeme.isWord])

theorem atPlain_of_atName {c : Cursor} (h : c.atName = true) : c.AtPlain :=
  atPlain_of_any h fun l hl => delimiter?_of_kind (by simp_all [Lexeme.isName])

theorem atPlain_of_atPunct {c : Cursor} {p : String} (h : c.atPunct p = true)
    (hp : p ∉ bracketTexts) : c.AtPlain :=
  atPlain_of_any h fun l hl => delimiter?_of_text (by simp_all [Lexeme.isPunct])

theorem atPlain_of_atOneOf {c : Cursor} {ps : List String} (h : c.atOneOf ps = true)
    (hp : ∀ p ∈ ps, p ∉ bracketTexts) : c.AtPlain :=
  atPlain_of_any h fun l hl => delimiter?_of_text (hp _ (by simp_all [Lexeme.isOneOf]))

end Cursor

/-! ### Marks and faults -/

/-- The token that an edge belongs to. -/
def Edge.token : Edge → Nat
  | .start i | .stop i => i

/-- A mark is a token or an edge, and no further on than the token `n`. -/
def Mark.UpTo (m : Mark) (n : Nat) : Prop :=
  (∃ i ≤ n, m = .whole i) ∨ ∃ e : Edge, e.token ≤ n ∧ m = .point e

namespace Mark

theorem UpTo.mono {m : Mark} {n k : Nat} (h : m.UpTo n) (hk : n ≤ k) : m.UpTo k := by
  obtain ⟨i, hi, rfl⟩ | ⟨e, he, rfl⟩ := h
  · exact .inl ⟨i, Nat.le_trans hi hk, rfl⟩
  · exact .inr ⟨e, Nat.le_trans he hk, rfl⟩

theorem upTo_whole {i n : Nat} (h : i ≤ n) : (whole i).UpTo n := .inl ⟨i, h, rfl⟩

theorem upTo_point {e : Edge} {n : Nat} (h : e.token ≤ n) : (point e).UpTo n := .inr ⟨e, h, rfl⟩

/-- A gap is marked at the token before, or at the first one. -/
theorem upTo_gap {i n : Nat} (h : i ≤ n) : (gap i).UpTo n := by
  refine .inr ⟨_, ?_, rfl⟩
  split
  · exact Nat.zero_le n
  · exact Nat.le_trans (Nat.sub_le i 1) h

end Mark

/-- Findings that are marked no further on than the token `n`. -/
def MarkedUpTo (found : List Finding) (n : Nat) : Prop := ∀ x ∈ found, x.mark.UpTo n

theorem markedUpTo_nil (n : Nat) : MarkedUpTo [] n := fun _ h => absurd h List.not_mem_nil

theorem MarkedUpTo.append {f g : List Finding} {n : Nat} (hf : MarkedUpTo f n)
    (hg : MarkedUpTo g n) : MarkedUpTo (f ++ g) n := fun x hx =>
  (List.mem_append.1 hx).elim (hf x) (hg x)

/-- What is marked up to a token is marked up to a later one. -/
theorem MarkedUpTo.mono {f : List Finding} {n k : Nat} (h : MarkedUpTo f n) (hk : n ≤ k) :
    MarkedUpTo f k := fun x hx => (h x hx).mono hk

/-! ### Parsers that go through lexemes -/

/-- A step that passes lexemes and marks what it finds at tokens that it reached. -/
structure Step.Passed {α : Type} (s : Step α) (c : Cursor) : Prop where
  passes : ∃ ls, c.Passes ls s.rest
  marked : MarkedUpTo s.found s.rest.index

namespace Step.Passed

variable {α : Type}

theorem stay (a : α) (c : Cursor) : (Step.mk a c []).Passed c := ⟨⟨[], .refl c⟩, markedUpTo_nil _⟩

/-- A step after one lexeme more. -/
theorem cons {s : Step α} {i : Nat} {l : Lexeme} {ls : List Lexeme}
    (h : s.Passed ⟨i + 1, ls⟩) : s.Passed ⟨i, l :: ls⟩ := by
  obtain ⟨⟨ms, hp⟩, hm⟩ := h
  have one : Cursor.Passes ⟨i, l :: ls⟩ [l] ⟨i + 1, ls⟩ := ⟨rfl, rfl⟩
  exact ⟨⟨l :: ms, one.trans hp⟩, hm⟩

/-- A parser that goes through lexemes does not go back. -/
theorem index_le {s : Step α} {c : Cursor} (h : s.Passed c) : c.index ≤ s.rest.index := by
  obtain ⟨ls, hp⟩ := h.passes
  rw [hp.index]
  exact Nat.le_add_right _ _

/-- Findings in front, at tokens that were reached before. -/
theorem before {s : Step α} {c : Cursor} {found : List Finding} (h : s.Passed c)
    (hf : MarkedUpTo found c.index) : (s.before found).Passed c :=
  ⟨h.passes, (hf.mono h.index_le).append h.marked⟩

theorem trans {s : Step α} {c d : Cursor} {ls : List Lexeme} (h : s.Passed d)
    (hp : c.Passes ls d) : s.Passed c := by
  obtain ⟨ms, hd⟩ := h.passes
  exact ⟨⟨ls ++ ms, hp.trans hd⟩, h.marked⟩

theorem map {β : Type} {f : α → β} {s : Step α} {c : Cursor} (h : s.Passed c) :
    (s.map f).Passed c := ⟨h.passes, h.marked⟩

/-- One parser after the other. -/
theorem andThen {β : Type} {s : Step α} {t : Step β} {c : Cursor} (hs : s.Passed c)
    (ht : t.Passed s.rest) : (t.before s.found).Passed c := by
  obtain ⟨ls, hp⟩ := hs.passes
  exact (ht.before hs.marked).trans hp

end Step.Passed

theorem markedUpTo_unclosed (index : Nat) (opened : List Bracket) :
    MarkedUpTo (unclosed index opened) index := by
  intro x hx
  obtain ⟨b, -, rfl⟩ := List.mem_map.1 hx
  exact Mark.upTo_gap (Nat.le_refl _)

/-- Skipping to a closing bracket passes lexemes, and reports brackets at tokens that it saw. -/
theorem skipOpened_passed (opened : List Bracket) (index : Nat) (ls : List Lexeme) :
    (skipOpened opened index ls).Passed ⟨index, ls⟩ := by
  induction ls generalizing opened index with
  | nil => exact ⟨⟨[], .refl _⟩, markedUpTo_unclosed index opened⟩
  | cons l ls ih =>
    rw [skipOpened]
    split
    · exact (ih _ _).cons
    · split
      · split
        · exact ⟨⟨[l], rfl, rfl⟩, (markedUpTo_unclosed index _).mono (Nat.le_succ index)⟩
        · exact .cons <| (ih _ _).before ((markedUpTo_unclosed index _).mono (Nat.le_succ index))
      · split
        · exact ⟨⟨[], .refl _⟩, markedUpTo_unclosed index opened⟩
        · refine .cons <| (ih _ _).before fun x hx => ?_
          rw [List.mem_singleton.1 hx]
          exact Mark.upTo_whole (Nat.le_succ index)
    · exact (ih _ _).cons

theorem skipGroup_passed (c : Cursor) : (skipGroup c).Passed c :=
  skipOpened_passed [] c.index c.ahead

/-- The brackets that a closing one closes: those inside of its own, and its own. -/
theorem opened_eq_of_contains {opened : List Bracket} {b : Bracket}
    (h : opened.contains b = true) :
    opened = opened.takeWhile (· ≠ b) ++ b :: (opened.dropWhile (· ≠ b)).tail := by
  induction opened with
  | nil => simp at h
  | cons a as ih =>
    by_cases ha : a = b
    · simp [ha]
    · have hb : as.contains b = true := by
        rw [List.contains_cons, Bool.or_eq_true, beq_iff_eq] at h
        exact h.resolve_left fun hab => ha hab.symm
      rw [List.takeWhile_cons_of_pos (by simpa using ha), List.dropWhile_cons_of_pos
        (by simpa using ha), List.cons_append, ← ih hb]

/-- A group that is closed ends with the bracket that closes the outermost open one. -/
theorem skipOpened_closed {opened : List Bracket} {index : Nat} {ls : List Lexeme}
    (h : (skipOpened opened index ls).value = true) :
    ∃ ms l b, Cursor.Passes ⟨index, ls⟩ (ms ++ [l]) (skipOpened opened index ls).rest ∧
      l.delimiter? = some (.closing b) ∧ ∀ a ∈ opened.getLast?, a = b := by
  -- The bracket that was opened first is at the end of the stack until nothing is open.
  induction ls generalizing opened index with
  | nil => simp [skipOpened] at h
  | cons l ls ih =>
    have one : Cursor.Passes ⟨index, l :: ls⟩ [l] ⟨index + 1, ls⟩ := ⟨rfl, rfl⟩
    have later : ∀ {opened' : List Bracket}, (skipOpened opened' (index + 1) ls).value = true →
        (∀ a ∈ opened.getLast?, a ∈ opened'.getLast?) →
        ∃ ms m b, Cursor.Passes ⟨index, l :: ls⟩ (ms ++ [m])
          (skipOpened opened' (index + 1) ls).rest ∧
          m.delimiter? = some (.closing b) ∧ ∀ a ∈ opened.getLast?, a = b := by
      intro opened' h' hlast
      rcases ih h' with ⟨ms, m, b, hp, hm, hb⟩
      exact ⟨l :: ms, m, b, one.trans hp, hm, fun a ha => hb a (hlast a ha)⟩
    rw [skipOpened] at h ⊢
    split
    · rename_i b hl
      rw [hl] at h
      refine later h fun a ha => ?_
      cases opened with
      | nil => simp at ha
      | cons c cs => rwa [List.getLast?_cons_cons]
    · rename_i b hl
      rw [hl] at h
      dsimp only at h
      split
      · rename_i hc
        rw [if_pos hc] at h
        have ho := opened_eq_of_contains hc
        generalize (opened.dropWhile (· ≠ b)).tail = outer at h ho ⊢
        cases outer with
        | nil =>
          refine ⟨[], l, b, one, hl, fun a ha => ?_⟩
          rw [ho, List.getLast?_concat] at ha
          exact (Option.some.inj ha).symm
        | cons o os =>
          refine later h fun a ha => ?_
          rw [ho, List.getLast?_append, List.getLast?_cons_cons] at ha
          cases hlast : (o :: os).getLast? with
          | none => simp at hlast
          | some _ => rwa [hlast, Option.some_or] at ha
      · rename_i hc
        rw [if_neg hc] at h
        split
        · rw [if_pos ‹_›] at h
          simp at h
        · rw [if_neg ‹_›] at h
          exact later h fun a ha => ha
    · rename_i hl
      rw [hl] at h
      exact later h fun a ha => ha

/-- A group starts with its opening bracket on the stack. -/
theorem skipGroup_of_opener {c : Cursor} {b : Bracket}
    (h : c.atPunct (delimiterText (.opening b)) = true) :
    ∃ l ls, c.ahead = l :: ls ∧ skipGroup c = skipOpened [b] (c.index + 1) ls := by
  obtain ⟨i, ls⟩ := c
  cases ls with
  | nil => cases h
  | cons l ls =>
    have hl : l.delimiter? = some (.opening b) := by
      rw [delimiter?_of_isPunct h]
      cases b <;> rfl
    exact ⟨l, ls, rfl, by rw [skipGroup, skipOpened, hl]⟩

/-- A group that is closed ends with the bracket that closes the first one. -/
theorem skipGroup_closed {c : Cursor} {b : Bracket} (h : (skipGroup c).value = true)
    (hc : c.atPunct (delimiterText (.opening b)) = true) :
    ∃ first ms last, c.Passes (first :: ms ++ [last]) (skipGroup c).rest ∧
      last.isPunct b.closer = true := by
  obtain ⟨l, ls, ha, hs⟩ := skipGroup_of_opener hc
  rw [hs] at h ⊢
  obtain ⟨ms, last, a, hp, hlast, hb⟩ := skipOpened_closed h
  obtain rfl : b = a := hb b rfl
  have one : c.Passes [l] ⟨c.index + 1, ls⟩ := ⟨ha, rfl⟩
  exact ⟨l, ms, last, one.trans hp, isPunct_of_delimiter? hlast⟩

/-- Type parameters without an end are reported at the lexeme that stops them. -/
theorem typeParametersFrom_passed (arity depth index : Nat) (ls : List Lexeme) :
    (typeParametersFrom arity depth index ls).Passed ⟨index, ls⟩ := by
  have stop : ∀ (arity index : Nat) (ls : List Lexeme),
      (Step.mk arity ⟨index, ls⟩ [⟨.expected .closeAngle, .gap index⟩]).Passed ⟨index, ls⟩ := by
    refine fun arity index ls => ⟨⟨[], .refl _⟩, fun x hx => ?_⟩
    rw [List.mem_singleton.1 hx]
    exact Mark.upTo_gap (Nat.le_refl _)
  induction ls generalizing arity depth index with
  | nil => exact stop arity index []
  | cons l ls ih =>
    rw [typeParametersFrom]
    split
    · exact stop _ _ _
    split
    · exact (ih _ _ _).cons
    split
    · split
      · exact ⟨⟨[l], rfl, rfl⟩, markedUpTo_nil _⟩
      · exact (ih _ _ _).cons
    split
    · exact (ih _ _ _).cons
    · exact (ih _ _ _).cons

theorem typeParameters_passed (c : Cursor) : (typeParameters c).Passed c :=
  (typeParametersFrom_passed 1 1 c.next.index c.next.ahead).trans c.passes_next

theorem usingNameFrom_passed (index : Nat) (ls : List Lexeme) :
    (usingNameFrom index ls).Passed ⟨index, ls⟩ := by
  induction ls generalizing index with
  | nil => exact .stay "" _
  | cons l ls ih =>
    rw [usingNameFrom]
    split
    · exact .stay "" _
    · exact (ih _).map.cons

/-- The sign of an operator ends at a bracket, a semicolon or the end. -/
theorem operatorSign_passed (c : Cursor) : (operatorSign c).Passed c := by
  fun_induction operatorSign c with
  | case1 => exact .stay () _
  | case2 c hc h ih => exact ih.trans c.passes_next
  | case3 => exact .stay () _

theorem skipToBody_passed (c : Cursor) : (skipToBody c).Passed c := by
  fun_induction skipToBody c with
  | case1 => exact .stay () _
  | case2 => exact .stay () _
  | case3 c l ls hc h hb s closed ih =>
    exact (skipGroup_passed c).andThen ih
  | case4 c l ls hc h hb s closed => exact (skipGroup_passed c).map (f := fun _ => ())
  | case5 c l ls hc h hb ih => exact ih.trans c.passes_next

end Parser
end Outline
