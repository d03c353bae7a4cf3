/-
# Verbatim strings with holes

A verbatim string ends with the first quote that is not doubled, and holes make no difference to
that.  So a verbatim string with holes is one token as long as the strings in its holes are empty,
since two quotes in a row are taken for a quote of its text.  The first string that holds something
ends it: the token stops at the quote that opens this string, and nothing is reported.

| literal | its first token |
| --- | --- |
| `$@"a {b} c"` | all of it |
| `$@"a {b + ""} c"` | all of it |
| `$@"a {b + "c"} d"` | `$@"a {b + "` |

A name in a hole of a literal that is one token is found in it, so no local of this name is reported
as unused.
-/

import Outline.Proofs.Lexer.Names
import Outline.Proofs.Lexer.Strings
import Outline.Proofs.Parser.Mentions
import Outline.SyntaxTree

namespace Outline
namespace Lexer

/-! ### Verbatim strings with holes -/

/-- The strings in a hole. -/
def Hole.strings {plain : Char → Prop} : Hole plain → List (List StringItem)
  | nil => []
  | char _ _ rest => rest.strings
  | string items rest => items :: rest.strings
  | group inside rest => inside.strings ++ rest.strings

/-- The characters that stand for themselves in a verbatim string with holes, and in its holes. -/
def IsVerbatimText (c : Char) : Prop := c ≠ '"' ∧ c ≠ '\x7b' ∧ c ≠ '\x7d'

instance (c : Char) : Decidable (IsVerbatimText c) :=
  inferInstanceAs (Decidable (c ≠ '"' ∧ c ≠ '\x7b' ∧ c ≠ '\x7d'))

/-- What stands in a verbatim string with holes. -/
inductive VerbatimItem
  | plain (c : Char) (h : IsVerbatimText c)
  /-- A quote or a brace, written twice. -/
  | doubled (c : Char) (h : ¬IsVerbatimText c)
  | hole (inside : Hole IsVerbatimText)

namespace VerbatimItem

def chars : VerbatimItem → List Char
  | plain c _ => [c]
  | doubled c _ => [c, c]
  | hole inside => '\x7b' :: (inside.chars ++ ['\x7d'])

def strings : VerbatimItem → List (List StringItem)
  | hole inside => inside.strings
  | _ => []

end VerbatimItem

/-- A verbatim string with holes; its two signs may stand in either order. -/
structure VerbatimInterpolated where
  dollarFirst : Bool
  items : List VerbatimItem

namespace VerbatimInterpolated

def lead (l : VerbatimInterpolated) : List Char := if l.dollarFirst then ['$', '@'] else ['@', '$']

def content (l : VerbatimInterpolated) : List Char := l.items.flatMap (·.chars)

def chars (l : VerbatimInterpolated) : List Char := l.lead ++ quoted l.content

def text (l : VerbatimInterpolated) : String := String.ofList l.chars

/-- The strings in the holes of a literal. -/
def strings (l : VerbatimInterpolated) : List (List StringItem) := l.items.flatMap (·.strings)

end VerbatimInterpolated

/-! ### Reading on -/

/-- How a verbatim string is read where some strings stand in its holes: through the end, if all
strings are empty, or up to the first that is not. -/
inductive ReadWith (strings : List (List StringItem)) (cs : List Char) : Prop
  | through (h : ∀ s ∈ strings, s = []) (hcs : Passed verbatimExtent cs)
  | upTo (empty later : List (List StringItem)) (s : List StringItem) (before behind : List Char)
      (hstrings : strings = empty ++ s :: later) (hempty : ∀ t ∈ empty, t = []) (hne : s ≠ [])
      (hcs : cs = before ++ (quoted (s.flatMap (·.chars)) ++ behind))
      (hbefore : Passed verbatimExtent before)

namespace ReadWith

variable {ss ts : List (List StringItem)} {cs ds : List Char}

/-- What is read with some strings, and then more of it. -/
theorem append (h : ReadWith ss cs) (k : ReadWith ts ds) : ReadWith (ss ++ ts) (cs ++ ds) := by
  cases h with
  | through h hcs =>
    cases k with
    | through k hds => exact .through (List.forall_mem_append.2 ⟨h, k⟩) (hcs.append hds)
    | upTo empty later s before behind hstrings hempty hne hds hbefore =>
      refine .upTo (ss ++ empty) later s (cs ++ before) behind ?_
        (List.forall_mem_append.2 ⟨h, hempty⟩) hne ?_ (hcs.append hbefore)
      · rw [hstrings, List.append_assoc]
      · rw [hds, List.append_assoc]
  | upTo empty later s before behind hstrings hempty hne hcs hbefore =>
    refine .upTo empty (later ++ ts) s before (behind ++ ds) ?_ hempty hne ?_ hbefore
    · rw [hstrings, List.append_assoc, List.cons_append]
    · rw [hcs, List.append_assoc, List.append_assoc]

/-- What holds no string is read without one. -/
theorem of_passed (h : Passed verbatimExtent cs) : ReadWith [] cs :=
  .through (fun _ hs => absurd hs List.not_mem_nil) h

theorem flatMap {α : Type} {f : α → List (List StringItem)} {g : α → List Char}
    (h : ∀ a, ReadWith (f a) (g a)) (items : List α) :
    ReadWith (items.flatMap f) (items.flatMap g) := by
  induction items with
  | nil => exact of_passed .nil
  | cons a items ih =>
    rw [List.flatMap_cons, List.flatMap_cons]
    exact (h a).append ih

theorem string (s : List StringItem) : ReadWith [s] (quoted (s.flatMap (·.chars))) := by
  cases s with
  | nil =>
    refine .through (fun t ht => List.mem_singleton.1 ht) fun rest => ?_
    rfl
  | cons i s =>
    refine .upTo [] [] (i :: s) [] [] rfl (fun _ ht => absurd ht List.not_mem_nil)
      (List.cons_ne_nil i s) ?_ .nil
    rw [List.nil_append, List.append_nil]

end ReadWith

/-- A character that is neither a brace nor a quote is read over. -/
theorem verbatimText_passed {c : Char} (h : IsVerbatimText c) : Passed verbatimExtent [c] :=
  fun rest => verbatimExtent_cons h.1 rest

theorem brace_passed {c : Char} (h : c = '\x7b' ∨ c = '\x7d') : Passed verbatimExtent [c] :=
  fun rest => verbatimExtent_cons (by rcases h with rfl | rfl <;> decide) rest

/-- **A hole** is read with the strings that are nested in it, each of which ends the literal
unless it is empty. -/
theorem Hole.readWith (h : Hole IsVerbatimText) : ReadWith h.strings h.chars := by
  induction h with
  | nil => exact .of_passed .nil
  | char c hc rest ih => exact (ReadWith.of_passed (verbatimText_passed hc)).append ih
  | string items rest ih => exact (ReadWith.string items).append ih
  | group inside rest ihinside ihrest =>
    have hopen := ReadWith.of_passed (brace_passed (.inl rfl))
    have hclose := ReadWith.of_passed (brace_passed (.inr rfl))
    exact hopen.append (ihinside.append (hclose.append ihrest))

theorem VerbatimItem.readWith (i : VerbatimItem) : ReadWith i.strings i.chars := by
  cases i with
  | plain c h => exact .of_passed (verbatimText_passed h)
  | doubled c h =>
    refine .of_passed ?_
    by_cases hquote : c = '"'
    · subst hquote
      exact verbatimChar_passed '"'
    · have hone : Passed verbatimExtent [c] := fun rest => verbatimExtent_cons hquote rest
      exact hone.append hone
  | hole inside =>
    have hopen := ReadWith.of_passed (brace_passed (.inl rfl))
    have hclose := ReadWith.of_passed (brace_passed (.inr rfl))
    have happend := hopen.append (inside.readWith.append hclose)
    rwa [List.append_nil] at happend

namespace VerbatimInterpolated

/-- The literal is read with the strings of all its holes, in order. -/
theorem readWith (l : VerbatimInterpolated) : ReadWith l.strings l.content :=
  .flatMap (·.readWith) l.items

/-- A verbatim string with a dollar ends with the first quote that is not doubled. -/
theorem isOneToken_quoted (l : VerbatimInterpolated) {cs : List Char}
    (h : Passed verbatimExtent cs) : IsOneToken .interpolated (l.lead ++ quoted cs) := by
  have hlength : 2 + (cs.length + 1) = (quoted cs).length + 1 := by
    rw [quoted, List.length_cons, List.length_append, List.length_singleton]
    omega
  cases hfirst : l.dollarFirst with
  | true =>
    rw [lead, hfirst]
    refine .of_cut fun fresh after ha => ?_
    have none {c : Char} (hc : '@' ≠ c) : leading c ('@' :: '"' :: (cs ++ '"' :: after)) = 0 :=
      leading_of_head? fun h => hc (Option.some.inj h)
    show cutDollar ('@' :: '"' :: (cs ++ ['"'] ++ after)) = _
    rw [List.append_assoc, List.singleton_append, cutDollar_eq, none (c := '$') (by decide),
      List.drop_zero, afterDollars, none (c := '"') (by decide), if_neg (by decide),
      if_pos ⟨rfl, rfl⟩, List.tail_cons, List.tail_cons, h.close (verbatimExtent_quote ha),
      literal_close, Nat.zero_add, hlength]
    rfl
  | false =>
    rw [lead, hfirst]
    refine .of_cut fun fresh after ha => ?_
    show cutAt ('$' :: '"' :: (cs ++ ['"'] ++ after)) = _
    rw [List.append_assoc, List.singleton_append, cutAt, h.close (verbatimExtent_quote ha),
      literal_close, hlength]
    rfl

theorem text_append (l : VerbatimInterpolated) {cs ds : List Char} (h : l.chars = cs ++ ds)
    (after : String) : l.text ++ after = String.ofList cs ++ (String.ofList ds ++ after) := by
  rw [text, h, String.ofList_append, String.append_assoc]

theorem chars_eq (l : VerbatimInterpolated) {before behind : List Char} {s : List StringItem}
    (h : l.content = before ++ (quoted (s.flatMap (·.chars)) ++ behind)) :
    l.chars = l.lead ++ quoted before
      ++ (s.flatMap (·.chars) ++ '"' :: (behind ++ ['"'])) := by
  rw [chars, h]
  simp only [quoted, List.cons_append, List.append_assoc, List.nil_append]

/-- A literal of which a part is one token is more than one. -/
theorem not_isOneToken (l : VerbatimInterpolated) {cs ds : List Char} (h : l.chars = cs ++ ds)
    (hds : ds ≠ []) (hfirst : ds.head? ≠ some '"') (hcs : IsOneToken .interpolated cs) :
    ¬IsOneToken .interpolated l.chars := by
  intro hl
  have hall := hl true [] (fun hnil => by cases hnil)
  rw [List.append_nil] at hall
  have hpart := hcs true ds hfirst
  rw [← h, hall] at hpart
  have htext : l.chars = cs := congrArg Piece.text (List.cons.inj hpart).1
  rw [htext] at h
  exact hds (List.self_eq_append_right.1 h)

/-- Up to the quote that opens the first string that holds something, a literal is one token. -/
theorem leadsWith_upTo (l : VerbatimInterpolated) {before behind : List Char} {s : List StringItem}
    (h : l.content = before ++ (quoted (s.flatMap (·.chars)) ++ behind)) (hne : s ≠ [])
    (hbefore : Passed verbatimExtent before) (after : String) (index : Nat) :
    LeadsWith ⟨l.text ++ after, index⟩
      ⟨.interpolated, String.ofList (l.lead ++ quoted before)⟩ := by
  rw [l.text_append (l.chars_eq h)]
  refine (l.isOneToken_quoted hbefore).leadsWith (by decide) ?_ index
  rw [String.toList_append, String.toList_ofList, List.append_assoc]
  exact head?_items_ne _ fun hs => absurd hs hne

/-! ### Names in holes -/

/-- The literal has a quote at least. -/
theorem quote_mem_text (l : VerbatimInterpolated) : '"' ∈ l.text.toList := by
  rw [text, String.toList_ofList]
  exact List.mem_append_right _ List.mem_cons_self

/-- A hole stands between braces. -/
theorem exists_of_hole_mem {l : VerbatimInterpolated} {inside : Hole IsVerbatimText}
    (h : .hole inside ∈ l.items) :
    ∃ left right, l.chars = left ++ '\x7b' :: (inside.chars ++ '\x7d' :: right) := by
  obtain ⟨front, back, hitems⟩ := List.append_of_mem h
  refine ⟨l.lead ++ '"' :: front.flatMap (·.chars), back.flatMap (·.chars) ++ ['"'], ?_⟩
  rw [chars, content, hitems]
  simp [quoted, VerbatimItem.chars]

end VerbatimInterpolated

open Outline.Parser (StandsAlone Finding checkLocals)

/-- How a verbatim string with holes is read. -/
structure VerbatimInterpolated.Read (l : VerbatimInterpolated) : Prop where
  /-- It is one token if no string in its holes holds anything. -/
  whole : IsOneToken .interpolated l.chars ↔ ∀ s ∈ l.strings, s = []
  leads : (∀ s ∈ l.strings, s = []) → ∀ (after : String) (index : Nat),
    after.toList.head? ≠ some '"' → LeadsWith ⟨l.text ++ after, index⟩ ⟨.interpolated, l.text⟩
  /-- Its first token ends where the first string starts that holds something. -/
  split : (∃ s ∈ l.strings, s ≠ []) → ∃ empty s later before behind,
    l.strings = empty ++ s :: later ∧ (∀ t ∈ empty, t = []) ∧ s ≠ [] ∧
      l.chars = before ++ (quoted (s.flatMap (·.chars)) ++ behind) ∧
      ∀ (after : String) (index : Nat), LeadsWith ⟨l.text ++ after, index⟩
        ⟨.interpolated, String.ofList (before ++ ['"'])⟩
  /-- As one token, it mentions the names in its holes. -/
  mentioned : ∀ inside, .hole inside ∈ l.items → ∀ name, Name.isIdentifier name = true →
    StandsAlone name.toList none inside.chars → ∀ body, ⟨.interpolated, l.text⟩ ∈ body →
      ∀ index, ∀ f ∈ checkLocals index body, ¬f.IsUnmentioned name

/-- **Verbatim strings with holes are kept together unless a string in a hole holds something.**
Whatever its text and its holes are, such a literal is one token without a fault exactly if all
strings in its holes are empty.  Then no local is reported as unused that stands in one of its holes
as a whole word.  If some string is not empty, the first token ends with the quote that opens the
first of these, and nothing is reported of it. -/
theorem verbatimInterpolated_read (l : VerbatimInterpolated) : l.Read := by
  have whole : IsOneToken .interpolated l.chars ↔ ∀ s ∈ l.strings, s = [] := by
    cases l.readWith with
    | through h hcontent => exact iff_of_true (l.isOneToken_quoted hcontent) h
    | upTo empty later s before behind hstrings hempty hne hcontent hbefore =>
      refine iff_of_false (l.not_isOneToken (l.chars_eq hcontent) ?_ ?_
        (l.isOneToken_quoted hbefore)) fun hall => hne (hall s (by simp [hstrings]))
      · exact List.append_ne_nil_of_right_ne_nil _ (List.cons_ne_nil _ _)
      · exact head?_items_ne _ fun hs => absurd hs hne
  refine ⟨whole, fun h after index ha => ?_, fun ⟨t, ht, htne⟩ => ?_, ?_⟩
  · exact (whole.2 h).leadsWith (by decide) ha index
  · cases l.readWith with
    | through h hcontent => exact absurd (h t ht) htne
    | upTo empty later s before behind hstrings hempty hne hcontent hbefore =>
      refine ⟨empty, s, later, l.lead ++ '"' :: before, behind ++ ['"'], hstrings, hempty, hne, ?_,
        fun after index => ?_⟩
      · rw [VerbatimInterpolated.chars, hcontent]
        simp only [quoted, List.cons_append, List.append_assoc, List.nil_append]
      · have hlead := l.leadsWith_upTo hcontent hne hbefore after index
        rwa [quoted, ← List.cons_append, ← List.append_assoc] at hlead
  · intro inside hinside name hname halone body hbody index
    obtain ⟨left, right, hchars⟩ := VerbatimInterpolated.exists_of_hole_mem hinside
    have htext : StandsAlone name.toList none l.text.toList := by
      rw [VerbatimInterpolated.text, String.toList_ofList, hchars]
      exact halone.enclosed (by decide) (by decide)
    have hne : l.text ≠ name := fun h =>
      Name.not_mem_of_isIdentifier hname (by decide) (h ▸ l.quote_mem_text)
    refine Parser.not_isUnmentioned hbody hne ?_ index
    exact Parser.mentions_of_standsAlone hname htext

/-- A local that is mentioned in a hole, next to a string that holds something, is reported: the
literal is no token. -/
theorem not_kept_together :
    let code : Hole IsVerbatimText := .char 'g' (by decide) (.char '(' (by decide)
      (.string [.plain 'a' (by decide)] (.char ',' (by decide) (.char 'x' (by decide)
        (.char ')' (by decide) .nil)))))
    let l : VerbatimInterpolated := ⟨true, [.hole code]⟩
    let source : Source := ⟨"class C \x7b void M() \x7b int x; f(" ++ l.text ++ "); \x7d \x7d", 0⟩
    l.text = "$@\"\x7bg(\"a\",x)\x7d\"" ∧ StandsAlone "x".toList none code.chars ∧
      ¬LeadsWith ⟨l.text, 0⟩ ⟨.interpolated, l.text⟩ ∧
      ∃ d ∈ (SyntaxTree.parse .v12 source).diagnostics, d.code = "CS0168" := by
  intro code l source
  have hfirst : (tokens l.text).head? ≠
      some ⟨⟨.interpolated, l.text⟩, ⟨0, l.text.utf8ByteSize⟩⟩ := by decide +kernel
  have halone : StandsAlone "x".toList none code.chars :=
    ⟨"g(\"a\",".toList, [')'], rfl, by decide, by decide⟩
  exact ⟨rfl, halone, fun h => hfirst h.first, by decide +kernel⟩

end Lexer
end Outline
