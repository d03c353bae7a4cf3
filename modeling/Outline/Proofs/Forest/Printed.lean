/-
# Printed lexemes are read

Words and signs are printed with any white space around them; there may be none, as long
as no word runs into what follows it.  What is printed is read as the lexemes again.
-/

import Outline.Proofs.Forest.Tree
import Outline.Proofs.Lexer.Relexing

namespace Outline
namespace Forest

open Lexer
open Lexeme (mark)
open Outline.Parser (isWordy isWordy_word grouped angles)

/-- Lexemes that are printed with white space before and after each of them. -/
inductive Printed : List Lexeme → String → Prop
  | nil {gap : String} (hg : ∀ c ∈ gap.toList, Character.isWhiteSpace c = true) : Printed [] gap
  | cons {gap s : String} {l : Lexeme} {ls : List Lexeme}
      (hg : ∀ c ∈ gap.toList, Character.isWhiteSpace c = true) (hs : Printed ls s)
      (hw : isWordy l = true → Follows endsWord s.toList) : Printed (l :: ls) (gap ++ l.text ++ s)

/-- Lexemes with the same gap around each. -/
def spaced (gap : String) : List Lexeme → String
  | [] => gap
  | l :: ls => gap ++ l.text ++ spaced gap ls

/-- **Whatever lexemes there are, they can be printed.** -/
theorem printed_spaced {gap : String} (hg : ∀ c ∈ gap.toList, Character.isWhiteSpace c = true)
    (hne : gap ≠ "") (ls : List Lexeme) : Printed ls (spaced gap ls) := by
  have hends : ∀ s : String, Follows endsWord (gap ++ s).toList := by
    intro s
    obtain ⟨c, cs, hcs⟩ := List.exists_cons_of_ne_nil (mt String.toList_eq_nil_iff.1 hne)
    have hc : isSeparator c = true :=
      Bool.or_eq_true_iff.2 (.inl (hg c (hcs ▸ List.mem_cons_self)))
    rw [String.toList_append, hcs]
    exact follows_cons.2 (endsWord_of_isSeparator hc)
  induction ls with
  | nil => exact .nil hg
  | cons l ls ih =>
    refine .cons hg ih fun _ => ?_
    cases ls with
    | nil => simpa [spaced] using hends ""
    | cons k ks => simpa [spaced, String.append_assoc] using hends (k.text ++ spaced gap ks)

/-- The signs of declarations. -/
def signs : List String := [";", ",", "(", ")", "[", "]", "\x7b", "\x7d", "<", ">", "."]

/-- Words and signs, which are printed as they are. -/
inductive Printable : Lexeme → Prop
  | word {w : String} (h : Name.isIdentifier w = true) : Printable (.word w)
  | sign {s : String} (h : s ∈ signs) : Printable (mark s)

theorem startsNoNumber_of_isWhiteSpace {c : Char} (h : Character.isWhiteSpace c = true) :
    startsNoNumber c = true := startsNoNumber_of_isSeparator (Bool.or_eq_true_iff.2 (.inl h))

/-- No printed lexeme starts with a digit. -/
theorem Printable.exists_cons {l : Lexeme} (h : Printable l) :
    ∃ c cs, l.text.toList = c :: cs ∧ startsNoNumber c = true := by
  cases h with
  | word h =>
    obtain ⟨c, cs, hcs, hc, -⟩ := exists_of_isIdentifier h
    refine ⟨c, cs, hcs, ?_⟩
    rw [startsNoNumber, Character.not_isDigit_of_isNameStart hc]
    rfl
  | @sign s h =>
    have each : ∀ s ∈ signs, ∃ c, s.toList = [c] ∧ startsNoNumber c = true := by
      simp only [signs, List.forall_mem_cons]
      refine ⟨?_, ?_, ?_, ?_, ?_, ?_, ?_, ?_, ?_, ?_, ?_, fun _ h => absurd h List.not_mem_nil⟩ <;>
        exact ⟨_, rfl, by decide⟩
    obtain ⟨c, hs, hc⟩ := each s h
    exact ⟨c, [], hs, hc⟩

/-- What is printed does not go on with a number that ends before it. -/
theorem Printed.startsNoNumber {ls : List Lexeme} {s : String} (h : Printed ls s)
    (hl : ∀ l ∈ ls, Printable l) : Follows startsNoNumber s.toList := by
  have blank : ∀ {cs : List Char}, (∀ c ∈ cs, Character.isWhiteSpace c = true) →
      Follows Lexer.startsNoNumber cs := fun h c hc =>
    startsNoNumber_of_isWhiteSpace (h c (List.mem_of_mem_head? hc))
  cases h with
  | nil hg => exact blank hg
  | @cons gap s l ls hg hs hw =>
    obtain ⟨c, cs, htext, hc⟩ := (hl l List.mem_cons_self).exists_cons
    rw [String.toList_append, String.toList_append, List.append_assoc, htext]
    exact (blank hg).append (follows_cons.2 hc)

/-- A word or a sign is read in front of what may follow it. -/
theorem Printable.reads {l : Lexeme} (h : Printable l) : ∃ follow, Reads follow l.text [l] ∧
    ∀ cs, (isWordy l = true → Follows endsWord cs) → Follows startsNoNumber cs →
      Follows follow cs := by
  cases h with
  | @word w h => exact ⟨endsWord, reads_word h, fun cs hw _ => hw (isWordy_word w)⟩
  | @sign s h =>
    by_cases hs : s = "."
    · subst hs
      exact ⟨startsNoNumber, reads_dot, fun _ _ hn => hn⟩
    · have hmem : s ∈ [";", ",", "(", ")", "[", "]", "\x7b", "\x7d", "<", ">"] := by
        simpa [signs, hs] using h
      exact ⟨_, reads_sign hmem, fun _ _ _ _ _ => rfl⟩

/-- **What is printed is read** as the lexemes that were printed. -/
theorem reads_printed {ls : List Lexeme} {s : String} (h : Printed ls s)
    (hl : ∀ l ∈ ls, Printable l) : Reads isSeparator s ls := by
  induction h with
  | nil hg => exact (reads_blank hg).mono fun _ _ => rfl
  | @cons gap s l ls hg hs hw ih =>
    obtain ⟨hfirst, hrest⟩ := List.forall_mem_cons.1 hl
    obtain ⟨follow, hreads, hfollow⟩ := hfirst.reads
    have hgap := (reads_blank hg).onward hreads
    refine hgap.append (ih hrest) fun after ha => hfollow _ (fun hl => ?_) ?_
    · exact (hw hl).append (ha.mono fun _ => endsWord_of_isSeparator)
    · exact (hs.startsNoNumber hrest).append (ha.mono fun _ => startsNoNumber_of_isSeparator)

/-! ### Forests are printable -/

/-- A free name is a word or has the prefix. -/
theorem FreeName.printable (n : FreeName) : Printable n.lexeme := by
  have h := Printable.word n.isPlain.1
  rwa [Lexeme.word, n.isPlain.2] at h

/-- A type is a word, of the language or free. -/
theorem TypeRef.printable (t : TypeRef) : Printable t.lexeme := by
  cases t with
  | builtin word h =>
    have reserved : ∀ w ∈ Outline.Parser.builtinTypes, Name.isKeyword w = true := by decide
    exact .word (Name.isIdentifier_of_isKeyword (reserved word h))
  | named name => exact name.printable

/-- Brackets are signs. -/
theorem printable_grouped (b : Bracket) {ms : List Lexeme} (h : ∀ l ∈ ms, Printable l) :
    ∀ l ∈ grouped b ms, Printable l := by
  have signs : Printable (mark (Outline.Parser.delimiterText (.opening b))) ∧
      Printable (mark b.closer) := by
    cases b <;> exact ⟨.sign (by decide), .sign (by decide)⟩
  exact List.forall_mem_cons.2 ⟨signs.1,
    List.forall_mem_append.2 ⟨h, List.forall_mem_singleton.2 signs.2⟩⟩

/-- So are the separators of a list. -/
theorem printable_intercalate {separator : String} (hs : separator ∈ signs)
    {lss : List (List Lexeme)} (h : ∀ ls ∈ lss, ∀ l ∈ ls, Printable l) :
    ∀ l ∈ [mark separator].intercalate lss, Printable l := by
  induction lss with
  | nil => exact fun _ h => absurd h List.not_mem_nil
  | cons ls lss ih =>
    obtain ⟨hls, hlss⟩ := List.forall_mem_cons.1 h
    cases lss with
    | nil => simpa using hls
    | cons ms mss =>
      have := List.forall_mem_append.2 ⟨hls, List.forall_mem_cons.2 ⟨.sign hs, ih hlss⟩⟩
      simpa using this

theorem printable_names (names : List FreeName) :
    ∀ l ∈ commaSeparated (names.map ([·.lexeme])), Printable l := by
  refine printable_intercalate (by decide) fun ls hls => ?_
  obtain ⟨n, -, rfl⟩ := List.mem_map.1 hls
  exact List.forall_mem_singleton.2 n.printable

theorem printable_typeParameters (names : List FreeName) :
    ∀ l ∈ typeParameterSpelling names, Printable l := by
  unfold typeParameterSpelling Tree.typeParameterSpelling
  split
  · exact fun _ h => absurd h List.not_mem_nil
  · rw [List.map_map]
    exact List.forall_mem_cons.2 ⟨.sign (by decide), List.forall_mem_append.2
      ⟨printable_names names, List.forall_mem_singleton.2 (.sign (by decide))⟩⟩

theorem printable_parameters (ps : List ParameterTree) :
    ∀ l ∈ parameterSpelling ps, Printable l := by
  refine printable_grouped .paren (printable_intercalate (by decide) fun ls hls => ?_)
  obtain ⟨p, -, rfl⟩ := List.mem_map.1 hls
  exact List.forall_mem_cons.2 ⟨p.type.printable, List.forall_mem_singleton.2 p.name.printable⟩

theorem printable_partial (isPartial : Bool) : ∀ l ∈ partialSpelling isPartial, Printable l := by
  cases isPartial with
  | false => exact fun _ h => absurd h List.not_mem_nil
  | true => exact List.forall_mem_singleton.2 (.word (by decide +kernel))

theorem printable_accessors :
    ∀ l ∈ Tree.accessorSpelling (some .set), Printable l := by
  have hword : ∀ w ∈ ["get", "set"], Printable (.word w) := by
    have each : ∀ w ∈ ["get", "set"], Name.isIdentifier w = true := by decide +kernel
    exact fun w hw => .word (each w hw)
  have hend : Printable (mark ";") := .sign (by decide)
  refine List.forall_mem_cons.2 ⟨hword _ (by decide), List.forall_mem_cons.2 ⟨hend, ?_⟩⟩
  exact List.forall_mem_cons.2 ⟨hword _ (by decide), List.forall_mem_singleton.2 hend⟩

/-- A class-like type is declared with words. -/
theorem printable_words (k : ClassKind) : ∀ l ∈ k.words.map Lexeme.word, Printable l := by
  have each : ∀ w ∈ k.words, Name.isIdentifier w = true := by cases k <;> decide +kernel
  intro l hl
  obtain ⟨w, hw, rfl⟩ := List.mem_map.1 hl
  exact .word (each w hw)

mutual

/-- **A type is printable**, by induction on the tree, as its members are. -/
theorem TypeTree.printable : ∀ t : TypeTree, ∀ l ∈ t.spelling, Printable l
  | .classLike isPartial kind name typeParameters members => by
    rw [TypeTree.spelling]
    refine List.forall_mem_append.2 ⟨printable_partial _, List.forall_mem_append.2
      ⟨printable_words kind, List.forall_mem_cons.2 ⟨name.printable, List.forall_mem_append.2
      ⟨printable_typeParameters _, printable_grouped _ (MemberTree.printableAll members)⟩⟩⟩⟩
  | .enum isPartial name members => by
    rw [TypeTree.spelling]
    refine List.forall_mem_append.2 ⟨printable_partial _, List.forall_mem_cons.2
      ⟨.word (by decide +kernel), List.forall_mem_cons.2 ⟨name.printable,
        printable_grouped _ (printable_names members)⟩⟩⟩
  | .delegate result name typeParameters parameters => by
    rw [TypeTree.spelling]
    refine List.forall_mem_cons.2 ⟨.word (by decide +kernel), List.forall_mem_cons.2
      ⟨result.printable, List.forall_mem_cons.2 ⟨name.printable, List.forall_mem_append.2
      ⟨printable_typeParameters _, List.forall_mem_append.2 ⟨printable_parameters _,
        List.forall_mem_singleton.2 (.sign (by decide))⟩⟩⟩⟩⟩

/-- A member is printable, a nested type among them. -/
theorem MemberTree.printable : ∀ m : MemberTree, ∀ l ∈ m.spelling, Printable l
  | .nested t => by
    rw [MemberTree.spelling]
    exact TypeTree.printable t
  | .fields type first more => by
    rw [MemberTree.spelling]
    exact List.forall_mem_cons.2 ⟨type.printable, List.forall_mem_append.2
      ⟨printable_names _, List.forall_mem_singleton.2 (.sign (by decide))⟩⟩
  | .property type name => by
    rw [MemberTree.spelling]
    exact List.forall_mem_cons.2 ⟨type.printable, List.forall_mem_cons.2
      ⟨name.printable, printable_grouped _ printable_accessors⟩⟩
  | .method result name typeParameters parameters => by
    rw [MemberTree.spelling]
    exact List.forall_mem_cons.2 ⟨result.printable, List.forall_mem_cons.2 ⟨name.printable,
      List.forall_mem_append.2 ⟨printable_typeParameters _, List.forall_mem_append.2
        ⟨printable_parameters _, printable_grouped _ fun _ h => absurd h List.not_mem_nil⟩⟩⟩⟩

theorem MemberTree.printableAll : ∀ ms : List MemberTree, ∀ l ∈ MemberTree.spellAll ms, Printable l
  | [] => fun _ h => absurd h List.not_mem_nil
  | m :: ms => List.forall_mem_append.2 ⟨MemberTree.printable m, MemberTree.printableAll ms⟩

end

theorem printable_dotted (names : List FreeName) :
    ∀ l ∈ dotted (names.map (·.text)), Printable l := by
  refine printable_intercalate (by decide) fun ls hls => ?_
  obtain ⟨s, hs, rfl⟩ := List.mem_map.1 hls
  obtain ⟨n, -, rfl⟩ := List.mem_map.1 hs
  exact List.forall_mem_singleton.2 n.printable

mutual

/-- **An item of a forest is printable**, a namespace with all of its items. -/
theorem ItemTree.printable : ∀ i : ItemTree, ∀ l ∈ i.spelling, Printable l
  | .type t => by
    rw [ItemTree.spelling]
    exact t.printable
  | .namespace first more items => by
    rw [ItemTree.spelling]
    exact List.forall_mem_cons.2 ⟨.word (by decide +kernel), List.forall_mem_append.2
      ⟨printable_dotted (first :: more), printable_grouped _ (ItemTree.printableAll items)⟩⟩

theorem ItemTree.printableAll : ∀ is : List ItemTree, ∀ l ∈ ItemTree.spellAll is, Printable l
  | [] => fun _ h => absurd h List.not_mem_nil
  | i :: is => List.forall_mem_append.2 ⟨ItemTree.printable i, ItemTree.printableAll is⟩

end

/-- **A printed forest has no faults** and is read as it is spelled. -/
theorem lexemes_of_printed {forest : List ItemTree} {s : String}
    (h : Printed (ItemTree.spellAll forest) s) :
    Faultless (pieces true s.toList) ∧ lexemes s = ItemTree.spellAll forest :=
  (reads_printed h (ItemTree.printableAll forest)).alone

end Forest
end Outline
