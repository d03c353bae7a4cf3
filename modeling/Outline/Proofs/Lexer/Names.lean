/-
# The names of a text

Every name that the lexer finds has the shape of a name, whatever the text is: a letter or an
underscore and then letters, digits and underscores.  With the prefix `@` it can be a reserved
word, without it it is none.

| what starts with | is a name |
| --- | --- |
| a letter or an underscore | unless the word is reserved |
| `@` and a letter or an underscore | always, without the `@` |
-/

import Mathlib.Data.List.TakeWhile
import Outline.Proofs.Lexer.Tiling

namespace Outline

namespace Name

/-- A letter and characters of words are the shape of a name. -/
theorem isIdentifier_ofList {c : Char} {cs : List Char} (hc : Character.isNameStart c = true)
    (hcs : ∀ d ∈ cs, Character.isWord d = true) :
    isIdentifier (String.ofList (c :: cs)) = true := by
  rw [isIdentifier, String.toList_ofList]
  exact Bool.and_eq_true_iff.2 ⟨hc, List.all_eq_true.2 hcs⟩

/-- A character that no word has is in no name. -/
theorem not_mem_of_isIdentifier {s : String} (h : isIdentifier s = true) {c : Char}
    (hc : Character.isWord c = false) : c ∉ s.toList := by
  obtain ⟨d, ds, hs, hd, hds⟩ := Lexer.exists_of_isIdentifier h
  rw [hs, List.mem_cons, not_or]
  refine ⟨?_, fun hmem => ?_⟩
  · rintro rfl
    rw [Character.isWord_of_isNameStart hd] at hc
    cases hc
  · rw [hds c hmem] at hc
    cases hc

end Name

namespace Lexer

/-- A piece that is cut off has the shape of a name, if it is a name. -/
def Cut.NamesOnly (c : Char) (cs : List Char) (k : Cut) : Prop :=
  k.shape = .token .identifier →
    Name.isIdentifier (Name.unescape (String.ofList (c :: cs.take k.more))) = true

namespace Cut.NamesOnly

variable {c : Char} {cs : List Char} {k k' : Cut}

/-- Nothing is asked of a piece that is no name. -/
theorem of_ne (h : k.shape ≠ .token .identifier) : k.NamesOnly c cs := fun hk => absurd hk h

theorem ite {b : Prop} [Decidable b] (h : b → k.NamesOnly c cs) (h' : ¬b → k'.NamesOnly c cs) :
    (if b then k else k').NamesOnly c cs := by
  split
  · exact h ‹_›
  · exact h' ‹_›

end Cut.NamesOnly

theorem take_takeWhile (p : Char → Bool) (cs : List Char) :
    cs.take (cs.takeWhile p).length = cs.takeWhile p :=
  (List.prefix_iff_eq_take.1 (List.takeWhile_prefix p)).symm

/-- What starts with the prefix is a name only in front of a letter. -/
theorem namesOnly_cutAt (cs : List Char) : (cutAt cs).NamesOnly '@' cs := by
  fun_cases cutAt cs with
  | case1 | case2 | case4 | case5 => exact .of_ne (by simp [literal])
  | case3 c cs _ _ hc =>
    intro _
    have htext : String.ofList ('@' :: (c :: cs).take ((c :: cs).takeWhile Character.isWord).length)
        = "@" ++ String.ofList (c :: cs.takeWhile Character.isWord) := by
      rw [take_takeWhile, List.takeWhile_cons_of_pos (Character.isWord_of_isNameStart hc),
        ← String.toList_inj, String.toList_append, String.toList_ofList]
      exact congrArg ('@' :: ·) String.toList_ofList.symm
    rw [htext, Name.unescape_at]
    exact Name.isIdentifier_ofList hc fun d => List.mem_takeWhile_imp

/-- What starts with a letter is the longest name there. -/
theorem namesOnly_cutName {c : Char} (hc : Character.isNameStart c = true) (cs : List Char) :
    (cutName c cs).NamesOnly c cs := by
  intro _
  have hname : Name.isIdentifier (String.ofList (c :: cs.takeWhile Character.isWord)) = true :=
    Name.isIdentifier_ofList hc fun d => List.mem_takeWhile_imp
  rw [cutName]
  dsimp only
  rwa [take_takeWhile, Name.unescape_of_isIdentifier hname]

/-- **A piece that is a name has the shape of a name.** -/
theorem namesOnly_cut (fresh : Bool) (c : Char) (cs : List Char) :
    (cut fresh c cs).NamesOnly c cs := by
  have quote : (cutQuote cs).NamesOnly c cs := by
    unfold cutQuote
    dsimp only
    split <;> exact .of_ne (by simp [cutRaw, stringKind, literal])
  have dollar : (cutDollar cs).NamesOnly c cs := by
    unfold cutDollar
    dsimp only
    split
    · exact .of_ne (by simp [cutRaw, stringKind, literal])
    · split <;> exact .of_ne (by simp [literal])
  have apostrophe : (cutApostrophe cs).NamesOnly c cs := by
    unfold cutApostrophe
    split <;> exact .of_ne (by simp)
  refine .ite (fun _ => .of_ne (by simp)) fun _ => .ite (fun _ => .of_ne (by simp)) fun _ => ?_
  refine .ite (fun _ => .of_ne (by simp)) fun _ => .ite (fun _ => .of_ne (by simp)) fun _ => ?_
  refine .ite (fun _ => quote) fun _ => .ite (fun h => h ▸ namesOnly_cutAt cs) fun _ => ?_
  refine .ite (fun _ => dollar) fun _ => .ite (fun _ => apostrophe) fun _ => ?_
  refine .ite (fun _ => .of_ne (by simp)) fun _ => ?_
  refine .ite (fun h => namesOnly_cutName h cs) fun _ => ?_
  refine .ite (fun _ => .of_ne (by simp)) fun _ => .ite (fun _ => .of_ne (by simp)) fun _ => ?_
  exact .of_ne (by simp)

/-- **A piece that is a name has the shape of one**, without its prefix. -/
theorem isIdentifier_of_mem_pieces {fresh : Bool} {cs : List Char} {p : Piece}
    (hp : p ∈ pieces fresh cs) (h : p.shape = .token .identifier) :
    Name.isIdentifier (Name.unescape (String.ofList p.text)) = true := by
  fun_induction pieces fresh cs with
  | case1 => cases hp
  | case2 fresh c cs k ih =>
    rcases List.mem_cons.1 hp with rfl | hp
    · exact namesOnly_cut fresh c cs h
    · exact ih hp

end Lexer

/-- **Every name of a text has the shape of a name.** -/
theorem isIdentifier_of_mem_lexemes {text : String} {l : Lexeme} (h : l ∈ lexemes text)
    (hn : l.isName = true) : Name.isIdentifier l.text = true := by
  obtain ⟨p, hp, hl⟩ := List.mem_filterMap.1 h
  have hkind : l.kind = .identifier := by simpa [Lexeme.isName] using hn
  have hshape : p.shape = .token .identifier := by
    unfold Lexer.Piece.lexeme? at hl
    split at hl
    · assumption
    · rename_i kind hne hp
      obtain rfl := Option.some.inj hl
      exact absurd hkind hne
    · cases hl
  rw [lexeme?_eq hl, if_pos hkind]
  exact Lexer.isIdentifier_of_mem_pieces hp hshape

end Outline
