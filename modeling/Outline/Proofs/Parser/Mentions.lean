/-
# Every whole word is found

A word is looked for from left to right, and what belongs to a match is not looked at again.  The
match may not stand alone, so the search goes on after it, past places where the word stands
once more: `aa` is found once in `aaa`.  None of these places matters.  In a match there are word
characters only, so a place that starts in it has one before it and does not stand alone.

So a local is not reported if any lexeme of its body mentions it as a whole word.
-/

import Outline.Proofs.Lexer.Reading
import Outline.Proofs.Parser.Indexed

namespace Outline
namespace Parser

/-! ### Words -/

/-- A word stands in a text that goes on after a character, with no letter, digit or underscore
next to it. -/
def StandsAlone (word : List Char) (previous : Option Char) (cs : List Char) : Prop :=
  ∃ before after, cs = before ++ (word ++ after) ∧
    (before.getLast?.or previous).any Character.isWord = false ∧
    after.head?.any Character.isWord = false

theorem getLast?_cons_or (c : Char) (cs : List Char) (previous : Option Char) :
    (c :: cs).getLast?.or previous = cs.getLast?.or (some c) := by
  rw [List.getLast?_cons]
  cases cs.getLast? with
  | none => rfl
  | some d => rfl

/-- A word that stands alone stands here, where no match of its own belongs to one before it, or
later. -/
theorem StandsAlone.of_cons {word : List Char} {previous : Option Char} {c : Char} {cs : List Char}
    (h : StandsAlone word previous (c :: cs)) :
    (word <+: c :: cs ∧ previous.any Character.isWord = false ∧
        ((c :: cs).drop word.length).head?.any Character.isWord = false) ∨
      StandsAlone word (some c) cs := by
  obtain ⟨before, after, hcs, hbefore, hafter⟩ := h
  cases before with
  | nil =>
    rw [List.nil_append] at hcs
    refine .inl ⟨⟨after, hcs.symm⟩, hbefore, ?_⟩
    rwa [hcs, List.drop_left]
  | cons d before =>
    obtain ⟨rfl, rfl⟩ := List.cons.inj hcs
    rw [getLast?_cons_or] at hbefore
    exact .inr ⟨before, after, rfl, hbefore, hafter⟩

/-- Characters that belong to a match: they are of words, and so is the one before them. -/
def InMatch (skip : Nat) (previous : Option Char) (cs : List Char) : Prop :=
  skip ≠ 0 → previous.any Character.isWord = true ∧ ∀ c ∈ cs.take skip, Character.isWord c = true

/-- The rest of what belongs to a match. -/
theorem InMatch.tail {skip : Nat} {previous : Option Char} {c : Char} {cs : List Char}
    (h : InMatch (skip + 1) previous (c :: cs)) : InMatch skip (some c) cs := fun _ => by
  obtain ⟨-, htake⟩ := h (Nat.succ_ne_zero skip)
  exact ⟨htake c List.mem_cons_self, fun d hd => htake d (List.mem_cons_of_mem c hd)⟩

/-- A match goes on with the rest of its word. -/
theorem InMatch.of_starts {word : List Char} (hword : ∀ c ∈ word, Character.isWord c = true)
    {c : Char} {cs : List Char} (h : word <+: c :: cs) :
    InMatch (word.length - 1) (some c) cs := fun hskip => by
  obtain ⟨rest, hrest⟩ := h
  cases word with
  | nil => exact absurd rfl hskip
  | cons d ds =>
    rw [List.cons_append] at hrest
    obtain ⟨rfl, rfl⟩ := List.cons.inj hrest
    refine ⟨hword d List.mem_cons_self, fun e he => ?_⟩
    rw [List.length_cons, Nat.add_sub_cancel, List.take_left] at he
    exact hword e (List.mem_cons_of_mem d he)

/-- **A word that stands alone is found**, though matches are taken from left to right and do not
overlap. -/
theorem mentionsFrom_of_standsAlone {word : List Char} (hne : word ≠ [])
    (hword : ∀ c ∈ word, Character.isWord c = true) {skip : Nat} {previous : Option Char}
    {cs : List Char} (hskip : InMatch skip previous cs) (h : StandsAlone word previous cs) :
    mentionsFrom word skip previous cs = true := by
  induction cs generalizing skip previous with
  | nil =>
    obtain ⟨before, after, hcs, -⟩ := h
    exact absurd (List.append_eq_nil_iff.1 (List.append_eq_nil_iff.1 hcs.symm).2).1 hne
  | cons c cs ih =>
    rw [mentionsFrom.eq_def]
    dsimp only
    cases skip with
    | succ k =>
      rcases h.of_cons with ⟨-, hnone, -⟩ | hlater
      · -- the character before this one belongs to the match, so it is of a word
        rw [(hskip (Nat.succ_ne_zero k)).1] at hnone
        cases hnone
      · exact ih hskip.tail hlater
    | zero =>
      dsimp only
      split
      · rename_i hprefix
        split
        · rfl
        · rename_i halone
          rcases h.of_cons with ⟨-, hbefore, hafter⟩ | hlater
          · exact absurd (by rw [hbefore, hafter]; rfl) halone
          · exact ih (.of_starts hword (List.isPrefixOf_iff_prefix.1 hprefix)) hlater
      · rename_i hprefix
        rcases h.of_cons with ⟨hfirst, -⟩ | hlater
        · exact absurd (List.isPrefixOf_iff_prefix.2 hfirst) hprefix
        · exact ih (fun hzero => absurd rfl hzero) hlater

theorem StandsAlone.cons {word cs : List Char} {c : Char} {previous : Option Char}
    (h : StandsAlone word (some c) cs) : StandsAlone word previous (c :: cs) := by
  obtain ⟨before, after, rfl, hbefore, hafter⟩ := h
  exact ⟨c :: before, after, rfl, by rwa [getLast?_cons_or], hafter⟩

/-- A word that is found stands alone. -/
theorem standsAlone_of_mentionsFrom {word : List Char} {skip : Nat} {previous : Option Char}
    {cs : List Char} (h : mentionsFrom word skip previous cs = true) :
    StandsAlone word previous cs := by
  induction cs generalizing skip previous with
  | nil => cases skip <;> cases h
  | cons c cs ih =>
    rw [mentionsFrom.eq_def] at h
    dsimp only at h
    cases skip with
    | succ k => exact (ih h).cons
    | zero =>
      dsimp only at h
      split at h
      · rename_i hword
        split at h
        · rename_i halone
          obtain ⟨after, hafter⟩ := List.isPrefixOf_iff_prefix.1 hword
          rw [← hafter, List.drop_left, Bool.and_eq_true, Bool.not_eq_true', Bool.not_eq_true']
            at halone
          exact ⟨[], after, hafter.symm, halone.1, halone.2⟩
        · exact (ih h).cons
      · exact (ih h).cons

/-- A word that stands alone behind a character and before one, neither of them of a word, stands
alone in the whole text. -/
theorem StandsAlone.enclosed {word cs left right : List Char} {c d : Char}
    (h : StandsAlone word none cs) (hc : Character.isWord c = false)
    (hd : Character.isWord d = false) :
    StandsAlone word none (left ++ c :: (cs ++ d :: right)) := by
  obtain ⟨before, after, rfl, hbefore, hafter⟩ := h
  refine ⟨left ++ c :: before, after ++ d :: right, by simp, ?_, ?_⟩
  · rw [Option.or_none] at hbefore ⊢
    rw [List.getLast?_append, List.getLast?_cons]
    cases hlast : before.getLast? with
    | none => exact hc
    | some e =>
      rw [hlast] at hbefore
      exact hbefore
  · cases after with
    | nil => exact hd
    | cons e after => exact hafter

/-- The names of locals are words. -/
theorem mentions_of_standsAlone {text name : String} (hname : Name.isIdentifier name = true)
    (h : StandsAlone name.toList none text.toList) : mentions text name = true := by
  obtain ⟨c, cs, hs, hc, hcs⟩ := Lexer.exists_of_isIdentifier hname
  refine mentionsFrom_of_standsAlone (by simp [hs]) (fun d hd => ?_) (fun h => absurd rfl h) h
  rw [hs] at hd
  rcases List.mem_cons.1 hd with rfl | hd
  · exact Character.isWord_of_isNameStart hc
  · exact hcs d hd

/-! ### Locals -/

/-- A finding that says of a local that nothing in its body mentions it. -/
def Finding.IsUnmentioned (f : Finding) (name : String) : Prop :=
  f.cause = .unusedVariable name ∨ f.cause = .unreadVariable name

theorem LocalStart.name_of_cause? {name other : String} {start : LocalStart} {cause : Cause}
    (h : start.cause? name = some cause)
    (hcause : cause = .unusedVariable other ∨ cause = .unreadVariable other) : name = other := by
  cases start with
  | none =>
    obtain rfl := Option.some.inj h
    rcases hcause with h | h <;> cases h
    rfl
  | constant =>
    obtain rfl := Option.some.inj h
    rcases hcause with h | h <;> cases h
    rfl
  | computed => cases h

/-- A lexeme that mentions a local without being its name counts wherever it stands. -/
theorem isMentioned_of_mem {body : List Lexeme} {l m : Lexeme} (hl : l ∈ body) {place : Nat}
    (hm : body[place]? = some m) (hne : l.text ≠ m.text) (h : mentionsLocal l m.text = true) :
    isMentioned body place m.text = true := by
  refine List.any_eq_true.2 ⟨l, ?_, h⟩
  obtain ⟨i, hi⟩ := List.mem_iff_getElem?.1 hl
  rcases Nat.lt_trichotomy i place with hlt | rfl | hgt
  · refine List.mem_append_left _ (List.mem_of_getElem? (i := i) ?_)
    rw [List.getElem?_take_of_lt hlt, hi]
  · rw [hi] at hm
    exact absurd (congrArg Lexeme.text (Option.some.inj hm)) hne
  · refine List.mem_append_right _ (List.mem_of_getElem? (i := i - (place + 1)) ?_)
    rw [List.getElem?_drop, Nat.add_sub_cancel' hgt, hi]

theorem not_isUnmentioned_from {body : List Lexeme} {l : Lexeme} (hl : l ∈ body) {name : String}
    (hne : l.text ≠ name) (h : mentionsLocal l name = true) (index place : Nat) (fresh : Bool) :
    ∀ f ∈ checkLocalsFrom body index place fresh (body.drop place), ¬f.IsUnmentioned name := by
  generalize hrest : body.drop place = rest
  induction rest generalizing place fresh with
  | nil => exact fun f hf => absurd hf List.not_mem_nil
  | cons k rest ih =>
    intro f hf hunmentioned
    rw [checkLocalsFrom] at hf
    rcases List.mem_append.1 hf with hf | hf
    · have hplace : place < body.length := by
        refine Nat.lt_of_not_le fun hle => ?_
        rw [List.drop_eq_nil_of_le hle] at hrest
        cases hrest
      rw [← hrest] at hf
      split at hf
      · obtain ⟨hnone, -⟩ | ⟨n, m, start, hm, hsome, -⟩ := Indexed.localDeclaration_cases hplace
        · rw [hnone] at hf
          cases hf
        · rw [hsome] at hf
          dsimp only at hf
          split at hf
          · cases hf
          · rename_i hnot
            obtain ⟨cause, hcause, rfl⟩ := Option.map_eq_some_iff.1 (Option.mem_toList.1 hf)
            obtain rfl := LocalStart.name_of_cause? hcause hunmentioned
            exact hnot (isMentioned_of_mem hl hm hne h)
      · cases hf
    · have hnext : body.drop (place + 1) = rest := by
        rw [← List.drop_drop, hrest]
        rfl
      exact ih _ _ hnext f hf hunmentioned

/-- **A local that is mentioned is not reported**, whatever else its body holds. -/
theorem not_isUnmentioned {body : List Lexeme} {l : Lexeme} (hl : l ∈ body) {name : String}
    (hne : l.text ≠ name) (h : mentionsLocal l name = true) (index : Nat) :
    ∀ f ∈ checkLocals index body, ¬f.IsUnmentioned name :=
  not_isUnmentioned_from hl hne h index 0 true

end Parser
end Outline
