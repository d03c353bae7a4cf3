/-
# Nesting of brackets

Lexemes are *well nested* when every closing bracket matches the innermost open one
and none is left open.  What is open is kept on a stack: brackets that were open
before stay below (`nested_frame`), well nested lexemes leave the stack alone, and a
brace below braceless lexemes is still there after them (`nested_braceless`).
-/

import Outline.Lexer.Lexeme

namespace Outline
namespace Parser

/-! ### The stack of open brackets -/

/-- The open brackets after lexemes, the innermost first; none if a closing bracket
does not match. -/
def nested (opened : List Bracket) : List Lexeme → Option (List Bracket)
  | [] => some opened
  | l :: ls =>
    match l.delimiter? with
    | none => nested opened ls
    | some (.opening b) => nested (b :: opened) ls
    | some (.closing b) =>
      match opened with
      | [] => none
      | a :: outer => if a = b then nested outer ls else none

/-- Every closing bracket matches the innermost open one, and none is left open. -/
def WellNested (ls : List Lexeme) : Prop := nested [] ls = some []

instance (ls : List Lexeme) : Decidable (WellNested ls) :=
  inferInstanceAs (Decidable (nested [] ls = some []))

/-- Two lists are nested one after the other, the second in what the first left open. -/
theorem nested_append (opened : List Bracket) (ls ms : List Lexeme) :
    nested opened (ls ++ ms) = (nested opened ls).bind (nested · ms) := by
  induction ls generalizing opened with
  | nil => rfl
  | cons l ls ih =>
    rw [List.cons_append, nested, nested]
    split
    · exact ih opened
    · exact ih _
    · split
      · rfl
      · split
        · exact ih _
        · rfl

/-- Brackets that were open before stay open below. -/
theorem nested_frame {opened last : List Bracket} {ls : List Lexeme}
    (h : nested opened ls = some last) (outer : List Bracket) :
    nested (opened ++ outer) ls = some (last ++ outer) := by
  induction ls generalizing opened with
  | nil =>
    rw [nested] at h ⊢
    rw [Option.some.inj h]
  | cons l ls ih =>
    rw [nested] at h ⊢
    split
    · rename_i hl
      rw [hl] at h
      exact ih h
    · rename_i b hl
      rw [hl] at h
      exact ih h
    · rename_i b hl
      rw [hl] at h
      cases opened with
      | nil => simp at h
      | cons a opened =>
        dsimp only [List.cons_append] at h ⊢
        split at h
        · rename_i hab
          rw [if_pos hab]
          exact ih h
        · simp at h

namespace WellNested

theorem nil : WellNested [] := rfl

/-- What is well nested leaves the open brackets as they were. -/
theorem nested_eq {ls : List Lexeme} (h : WellNested ls) (opened : List Bracket) :
    nested opened ls = some opened := by
  simpa using nested_frame h opened

/-- What is well nested may be put together. -/
theorem append {ls ms : List Lexeme} (hl : WellNested ls) (hm : WellNested ms) :
    WellNested (ls ++ ms) := by
  rw [WellNested, nested_append, hl]
  exact hm

end WellNested

theorem nested_plain {l : Lexeme} (h : l.delimiter? = none) (opened : List Bracket)
    (ls : List Lexeme) : nested opened (l :: ls) = nested opened ls := by
  rw [nested, h]

theorem nested_opening {l : Lexeme} {b : Bracket} (h : l.delimiter? = some (.opening b))
    (opened : List Bracket) (ls : List Lexeme) :
    nested opened (l :: ls) = nested (b :: opened) ls := by
  rw [nested, h]

/-- A closing bracket closes the last one that was opened. -/
theorem nested_closing {l : Lexeme} {b : Bracket} (h : l.delimiter? = some (.closing b))
    (opened : List Bracket) (ls : List Lexeme) :
    nested (b :: opened) (l :: ls) = nested opened ls := by
  rw [nested, h]
  exact if_pos rfl

/-- A group: an opening bracket, what is well nested, and the closing one. -/
theorem WellNested.group {a z : Lexeme} {b : Bracket} {ls : List Lexeme}
    (ha : a.delimiter? = some (.opening b)) (hz : z.delimiter? = some (.closing b))
    (h : WellNested ls) : WellNested (a :: ls ++ [z]) := by
  rw [WellNested, List.cons_append, nested_opening ha, nested_append, h.nested_eq]
  exact nested_closing hz [] []

/-- A bracket that does not stay open is closed after what is well nested. -/
theorem exists_closing {b : Bracket} {opened last : List Bracket} {ls : List Lexeme}
    (h : nested (b :: opened) ls = some last) (hl : last.length ≤ opened.length) :
    ∃ ms z rest, ls = ms ++ z :: rest ∧ WellNested ms ∧ z.delimiter? = some (.closing b) ∧
      nested opened rest = some last := by
  induction hn : ls.length using Nat.strongRecOn generalizing b opened ls with
  | ind n ih =>
    cases ls with
    | nil =>
      rw [nested, Option.some.injEq] at h
      subst h
      exact absurd hl (Nat.not_succ_le_self _)
    | cons l ls =>
      subst hn
      cases hd : l.delimiter? with
      | none =>
        rw [nested_plain hd] at h
        obtain ⟨ms, z, rest, rfl, hm, hz, hrest⟩ := ih _ (Nat.lt_succ_self _) h hl rfl
        exact ⟨l :: ms, z, rest, rfl, (nested_plain hd [] ms).trans hm, hz, hrest⟩
      | some d =>
        cases d with
        | opening a =>
          rw [nested_opening hd] at h
          obtain ⟨ms, y, more, rfl, hm, hy, hmore⟩ :=
            ih _ (Nat.lt_succ_self _) h (Nat.le_succ_of_le hl) rfl
          have hlt : more.length < (l :: (ms ++ y :: more)).length := by
            simp only [List.length_cons, List.length_append]
            omega
          obtain ⟨ks, z, rest, rfl, hk, hz, hrest⟩ := ih _ hlt hmore hl rfl
          exact ⟨l :: ms ++ [y] ++ ks, z, rest, by simp, (hm.group hd hy).append hk, hz, hrest⟩
        | closing a =>
          rw [nested, hd] at h
          dsimp only at h
          split at h
          · rename_i hab
            subst hab
            exact ⟨[], l, ls, rfl, .nil, hd, h⟩
          · cases h

/-! ### Counting braces -/

/-- How many lexemes are this delimiter. -/
def delimiters (d : Delimiter) (ls : List Lexeme) : Nat := ls.countP (·.delimiter? = some d)

@[simp] theorem delimiters_nil (d : Delimiter) : delimiters d [] = 0 := rfl

theorem delimiters_append (d : Delimiter) (ls ms : List Lexeme) :
    delimiters d (ls ++ ms) = delimiters d ls + delimiters d ms := List.countP_append

theorem delimiters_cons (d : Delimiter) (l : Lexeme) (ls : List Lexeme) :
    delimiters d (l :: ls) = delimiters d ls + if l.delimiter? = some d then 1 else 0 := by
  simp [delimiters, List.countP_cons]

/-- A list has none of some brackets if no lexeme is one. -/
theorem delimiters_eq_zero {d : Delimiter} {ls : List Lexeme} :
    delimiters d ls = 0 ↔ ∀ l ∈ ls, l.delimiter? ≠ some d := by
  simp [delimiters]

/-- What is open before and opened is what is closed and stays open. -/
theorem nested_count {opened last : List Bracket} {ls : List Lexeme}
    (h : nested opened ls = some last) (b : Bracket) :
    opened.count b + delimiters (.opening b) ls = delimiters (.closing b) ls + last.count b := by
  -- Only the bracket that was opened last can close, so it leaves the stack as it is counted.
  induction ls generalizing opened with
  | nil =>
    rw [nested] at h
    rw [Option.some.inj h]
    simp [delimiters]
  | cons l ls ih =>
    rw [nested] at h
    rw [delimiters_cons, delimiters_cons]
    cases hl : l.delimiter? with
    | none =>
      rw [hl] at h
      simpa using ih h
    | some d =>
      rw [hl] at h
      cases d with
      | opening a =>
        have := ih h
        rw [List.count_cons] at this
        by_cases hab : a = b
        · subst hab
          simp at this ⊢
          omega
        · simp [hab] at this ⊢
          omega
      | closing a =>
        cases opened with
        | nil => simp at h
        | cons o opened =>
          dsimp only at h
          split at h
          · rename_i ho
            subst ho
            have := ih h
            rw [List.count_cons]
            by_cases hab : o = b
            · subst hab
              simp
              omega
            · simp [hab]
              omega
          · simp at h

/-- **As many brackets close as open** in what is well nested. -/
theorem WellNested.count {ls : List Lexeme} (h : WellNested ls) (b : Bracket) :
    delimiters (.opening b) ls = delimiters (.closing b) ls := by
  simpa using nested_count h b

/-- Lexemes without braces. -/
def Braceless (ls : List Lexeme) : Prop :=
  delimiters (.opening .brace) ls = 0 ∧ delimiters (.closing .brace) ls = 0

theorem braceless_append {ls ms : List Lexeme} :
    Braceless (ls ++ ms) ↔ Braceless ls ∧ Braceless ms := by
  simp only [Braceless, delimiters_append]
  omega

/-- A brace that is open before braceless lexemes is open after them. -/
theorem nested_braceless {p outer last : List Bracket} {ls : List Lexeme}
    (hp : .brace ∉ p) (hb : Braceless ls)
    (h : nested (p ++ .brace :: outer) ls = some last) :
    ∃ q, .brace ∉ q ∧ last = q ++ .brace :: outer ∧ nested p ls = some q := by
  induction ls generalizing p with
  | nil => exact ⟨p, hp, (Option.some.inj h).symm, rfl⟩
  | cons l ls ih =>
    obtain ⟨ho, hc⟩ := hb
    rw [delimiters_cons] at ho hc
    have hbl : Braceless ls := ⟨by omega, by omega⟩
    rw [nested] at h ⊢
    cases hl : l.delimiter? with
    | none =>
      rw [hl] at h
      exact ih hp hbl h
    | some d =>
      rw [hl] at h ho hc
      cases d with
      | opening a =>
        have ha : a ≠ .brace := by
          rintro rfl
          simp at ho
        exact ih (p := a :: p) (by simp [hp, ha.symm]) hbl h
      | closing a =>
        have ha : a ≠ .brace := by
          rintro rfl
          simp at hc
        cases p with
        | nil =>
          simp only [List.nil_append] at h
          rw [if_neg ha.symm] at h
          simp at h
        | cons o p =>
          simp only [List.cons_append] at h ⊢
          split at h
          · rename_i hoa
            rw [if_pos hoa]
            exact ih (fun hm => hp (List.mem_cons_of_mem o hm)) hbl h
          · simp at h

end Parser
end Outline
