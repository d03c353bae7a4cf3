/-
# External aliases

An external alias is skipped in the way in which a member is that makes no sense: through
the next semicolon outside of brackets, whatever stands before it.  So an alias without a
semicolon hides what comes after it, and nothing is found.

| after `extern alias X` | hidden |
| --- | --- |
| `;` | the semicolon |
| `class A { }` | all of it |
| `class A { } record R; class B { }` | up to the semicolon |
| `)`, `]` or a closing brace | nothing, as these start no item |
-/

import Outline.Proofs.Parser.Acceptance
import Outline.Proofs.Parser.Level

namespace Outline
namespace Parser

open Lexeme (mark)

/-! ### Expressions that are skipped -/

/-- What an expression is followed by where it is skipped: a stop, a closing bracket or
the end. -/
def EndsExpression (stops : List String) (ls : List Lexeme) : Prop :=
  ls = [] ∨ ∃ l rest, ls = l :: rest ∧
    (l.isOneOf stops = true ∨ ∃ b, l.delimiter? = some (.closing b))

/-- An expression is skipped, and the skipping goes on after it. -/
theorem skipExpression_append {stops : List String} {ls : List Lexeme} (h : Expression stops ls)
    (after : List Lexeme) (i : Nat) :
    skipExpression stops ⟨i, ls ++ after⟩ = skipExpression stops ⟨i + ls.length, after⟩ := by
  induction h generalizing i with
  | nil => rfl
  | plain hl hn _ ih =>
    rw [List.cons_append, skipExpression_of_plain rfl hl hn, List.length_cons, Nat.add_comm _ 1,
      ← Nat.add_assoc]
    exact ih (i + 1)
  | group hb hm _ ih =>
    rw [List.append_assoc, skipExpression_of_group hb hm, ih, List.length_append, ← Nat.add_assoc]
    rfl

/-- Skipping stops in front of what ends an expression. -/
theorem skipExpression_stop {stops : List String} {ls : List Lexeme}
    (h : EndsExpression stops ls) (i : Nat) :
    skipExpression stops ⟨i, ls⟩ = ⟨(), ⟨i, ls⟩, []⟩ := by
  rw [skipExpression]
  rcases h with rfl | ⟨l, rest, rfl, hs | ⟨b, hb⟩⟩
  · rfl
  · simp only [hs, if_true]
  · simp only [hb]
    split <;> rfl

/-- **What is skipped without a fault** is an expression and ends where one does. -/
theorem exists_expression {stops : List String} {i : Nat} {ls : List Lexeme}
    (hstops : ∀ b, delimiterText (.opening b) ∉ stops)
    (h : hasFault (skipExpression stops ⟨i, ls⟩).found = false) :
    ∃ e rest, ls = e ++ rest ∧ Expression stops e ∧ EndsExpression stops rest := by
  induction hn : ls.length using Nat.strongRecOn generalizing i ls with
  | ind n ih =>
    subst hn
    cases ls with
    | nil => exact ⟨[], [], rfl, .nil, .inl rfl⟩
    | cons l ls =>
      cases hs : l.isOneOf stops with
      | true => exact ⟨[], l :: ls, rfl, .nil, .inr ⟨l, ls, rfl, .inl hs⟩⟩
      | false =>
        cases hl : l.delimiter? with
        | none =>
          rw [skipExpression_of_plain rfl hl hs] at h
          obtain ⟨e, rest, rfl, he, hrest⟩ := ih _ (Nat.lt_succ_self _) h rfl
          exact ⟨l :: e, rest, rfl, he.plain hl hs, hrest⟩
        | some d =>
          cases d with
          | closing b => exact ⟨[], l :: ls, rfl, .nil, .inr ⟨l, ls, rfl, .inr ⟨b, hl⟩⟩⟩
          | opening b =>
            have hgroup : hasFault (skipGroup ⟨i, l :: ls⟩).found = false := by
              rw [skipExpression] at h
              simp only [hs, hl, Bool.false_eq_true, if_false] at h
              split at h
              · exact (hasFault_append_eq_false.1 h).1
              · exact h
            have hopen : Cursor.atPunct ⟨i, l :: ls⟩ (delimiterText (.opening b)) = true :=
              isPunct_of_delimiter? hl
            obtain ⟨-, ms, hp, hms⟩ := skipGroup_closes hopen
              (eq_nil_of_hasFault (skipOpened_isFault _ _ _) hgroup)
            obtain ⟨rest, hls⟩ : ∃ rest, l :: ls = grouped b ms ++ rest := ⟨_, hp.ahead⟩
            rw [hls, skipExpression_of_group (hstops b) hms] at h
            have hlt : rest.length < (l :: ls).length := by
              rw [hls, List.length_append, length_grouped]
              omega
            obtain ⟨e, rest, rfl, he, hrest⟩ := ih _ hlt h rfl
            exact ⟨grouped b ms ++ e, rest, by rw [hls, List.append_assoc],
              he.group (hstops b) hms, hrest⟩

/-! ### What an alias hides -/

/-- The lexemes of an external alias without a semicolon. -/
def aliasSpelling (name : String) : List Lexeme := [.word "extern", .name "alias", .name name]

/-- What an external alias without a semicolon hides of the lexemes after it, and what it
leaves: all up to the next semicolon outside of brackets, or everything. -/
inductive Hides : List Lexeme → List Lexeme → Prop
  | closed {e : List Lexeme} (h : Expression [";"] e) (rest : List Lexeme) :
      Hides (e ++ [mark ";"]) rest
  | all {e : List Lexeme} (h : Expression [";"] e) : Hides e []

theorem skipExpression_alias (name : String) (i : Nat) (ls : List Lexeme) :
    skipExpression [";"] ⟨i, aliasSpelling name ++ ls⟩ = skipExpression [";"] ⟨i + 3, ls⟩ :=
  skipExpression_append (.plain rfl rfl <| .plain rfl rfl <| .plain rfl rfl .nil) ls i

theorem skipMember_alias {e rest : List Lexeme} (he : Expression [";"] e)
    (hr : EndsExpression [";"] rest) (name : String) (i : Nat) :
    skipMember ⟨i, aliasSpelling name ++ (e ++ rest)⟩
      = ⟨(), if Cursor.atPunct ⟨i + 3 + e.length, rest⟩ ";"
          then Cursor.next ⟨i + 3 + e.length, rest⟩ else ⟨i + 3 + e.length, rest⟩, []⟩ := by
  have hskip : skipExpression [";"] ⟨i, aliasSpelling name ++ (e ++ rest)⟩
      = ⟨(), ⟨i + 3 + e.length, rest⟩, []⟩ := by
    rw [skipExpression_alias, skipExpression_append he, skipExpression_stop hr]
  refine (bind_of_eq rfl).trans <| (bind_of_eq hskip).trans ?_
  cases hp : Cursor.atPunct ⟨i + 3 + e.length, rest⟩ ";" with
  | true =>
    rw [eat_bind_of_atPunct hp]
    rfl
  | false =>
    rw [eat_bind_of_not_atPunct hp]
    have hmoved : (i + 3 + e.length == i) = false := by
      rw [beq_eq_false_iff_ne]
      omega
    refine (lookIf_of_false ?_).trans rfl
    dsimp only
    rw [hmoved, Bool.false_and]

/-- **An alias is skipped** with all that it hides, and nothing is found. -/
theorem skipMember_of_hides {hidden rest : List Lexeme} (h : Hides hidden rest) (name : String)
    (i : Nat) : skipMember ⟨i, aliasSpelling name ++ (hidden ++ rest)⟩
      = ⟨(), ⟨i + 3 + hidden.length, rest⟩, []⟩ := by
  cases h with
  | closed he =>
    rw [List.append_assoc, List.singleton_append,
      skipMember_alias he (.inr ⟨mark ";", rest, rfl, .inl rfl⟩) name i, List.length_append]
    rfl
  | all he =>
    rw [skipMember_alias he (.inl rfl) name i]
    rfl

/-- **What an alias is skipped with** is all that it hides, if nothing is found, or it stops
in front of a closing bracket. -/
theorem exists_hides {name : String} {i : Nat} {ls : List Lexeme}
    (h : hasFault (skipMember ⟨i, aliasSpelling name ++ ls⟩).found = false) :
    ∃ hidden rest, ls = hidden ++ rest ∧ (Hides hidden rest ∨
      (skipMember ⟨i, aliasSpelling name ++ ls⟩).rest.ahead = rest ∧
        ∃ l after b, rest = l :: after ∧ l.delimiter? = some (.closing b)) := by
  have hskip : hasFault (skipExpression [";"] ⟨i + 3, ls⟩).found = false := by
    rw [← skipExpression_alias name]
    exact (hasFault_append_eq_false.1 (hasFault_append_eq_false.1 h).2).1
  obtain ⟨e, rest, rfl, he, hr⟩ := exists_expression (fun b => by cases b <;> decide) hskip
  rcases hr with rfl | ⟨l, after, rfl, hs | ⟨b, hb⟩⟩
  · exact ⟨e, [], rfl, .inl (.all he)⟩
  · have hsemicolon : l.isPunct ";" = true := by
      simpa [Lexeme.isOneOf, Lexeme.isPunct] using hs
    obtain rfl := eq_mark_of_isPunct hsemicolon
    exact ⟨e ++ [mark ";"], after, by simp, .inl (.closed he after)⟩
  · refine ⟨e, l :: after, rfl, .inr ⟨?_, l, after, b, rfl, hb⟩⟩
    have hno : Cursor.atPunct ⟨i + 3 + e.length, l :: after⟩ ";" = false := by
      obtain rfl := eq_mark_of_isPunct (isPunct_of_delimiter? hb)
      cases b <;> rfl
    rw [skipMember_alias he (.inr ⟨l, after, rfl, .inr ⟨b, hb⟩⟩), hno]
    rfl

/-- No item starts with a closing bracket. -/
theorem hasFault_fileItems_of_closer {i : Nat} {l : Lexeme} {after : List Lexeme} {b : Bracket}
    (h : l.delimiter? = some (.closing b)) :
    hasFault (fileItems none false ⟨i, l :: after⟩).found = true := by
  have hgo := goesOn_fileItems none false (c := ⟨i, l :: after⟩) rfl
  have hitem : hasFault (fileItem none false ⟨i, l :: after⟩).found = true := by
    obtain rfl := eq_mark_of_isPunct (isPunct_of_delimiter? h)
    have hmember : ∀ {c : Cursor}, c.atPunct "[" = false → modifiers c = ⟨[], c, []⟩ →
        (c.atEnd || c.atPunct "\x7d" || c.atKeyword "namespace") = false →
        atTypeKeyword c = false → c.atKeyword "delegate" = false →
        hasFault (namespaceMember none c).found = true := by
      intro c hs hm hstop ht hd
      have ha : attributes c = ⟨(), c, []⟩ := by
        rw [attributes, hs, if_neg Bool.false_ne_true]
      rw [namespaceMember, bind_of_eq ha, lookIf_of_false hstop, bind_of_eq hm, modifiedType,
        lookIf_of_false ht, lookIf_of_false hd]
      exact hasFault_bind rfl
    cases b with
    | brace => rfl
    | paren | square => exact hmember rfl rfl rfl rfl rfl
  rw [hgo.eq]
  show hasFault (_ ++ _) = true
  rw [hasFault_append, hitem, Bool.true_or]

/-- A file that starts with an alias goes on after what the alias is skipped with. -/
theorem fileItems_alias (name : String) (ls : List Lexeme) :
    fileItems none false ⟨0, aliasSpelling name ++ ls⟩
      = (fileItems none false (skipMember ⟨0, aliasSpelling name ++ ls⟩).rest).before
          (skipMember ⟨0, aliasSpelling name ++ ls⟩).found := by
  have hgo := goesOn_fileItems none false (c := ⟨0, aliasSpelling name ++ ls⟩) rfl
  exact hgo.eq

end Parser
end Outline
