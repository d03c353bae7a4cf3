/-
# Names as they are escaped

A text spells a name if nothing is in it but the name.  A name has two such texts, if it is not
reserved, and one, if it is; escaping chooses the shortest one (`escape_spells`).

| name | is spelled | is escaped as |
| --- | --- | --- |
| not reserved | as it is, or with the prefix `@` | it is |
| reserved | with the prefix `@` | it is spelled |
-/

import Mathlib.Data.Set.Function
import Outline.Proofs.Lexer.Names
import Outline.Proofs.Lexer.Respelling

namespace Outline

namespace Name

/-- The prefix that a name is written with is in no name. -/
theorem isIdentifier_at (s : String) : isIdentifier ("@" ++ s) = false := by
  rw [Bool.eq_false_iff]
  exact fun h => head?_of_isIdentifier h (by simp)

theorem isKeyword_at (s : String) : isKeyword ("@" ++ s) = false := by
  rw [Bool.eq_false_iff]
  intro h
  have := isIdentifier_of_isKeyword h
  rw [isIdentifier_at] at this
  cases this

/-- A text starts with the prefix, or is what it is without the prefix. -/
theorem eq_at_or_eq_unescape (t : String) : t = "@" ++ unescape t ∨ t = unescape t := by
  rw [unescape]
  split
  · rename_i h
    obtain ⟨cs, hcs⟩ := List.head?_eq_some_iff.1 h
    left
    rw [← String.toList_inj, String.toList_append, hcs]
    simp
  · exact .inr rfl

/-- **How names are written:** as they are if they are not reserved, or with the prefix. -/
theorem isWritten_iff {t s : String} : IsWritten t ∧ unescape t = s ↔
    isIdentifier s = true ∧ (t = s ∧ isKeyword s = false ∨ t = "@" ++ s) := by
  constructor
  · rintro ⟨⟨hname, hkeyword⟩, rfl⟩
    refine ⟨hname, ?_⟩
    rcases eq_at_or_eq_unescape t with ht | ht
    · exact .inr ht
    · exact .inl ⟨ht, ht ▸ hkeyword⟩
  · rintro ⟨hname, ⟨rfl, hkeyword⟩ | rfl⟩
    · have hu := unescape_of_isIdentifier hname
      exact ⟨⟨by rwa [hu], hkeyword⟩, hu⟩
    · have hu := unescape_at s
      exact ⟨⟨by rwa [hu], isKeyword_at s⟩, hu⟩

/-- **Escaping twice is escaping once**, for names and for other texts. -/
theorem escape_escape (s : String) : escape (escape s) = escape s := by
  by_cases h : isKeyword s = true
  · rw [escape, escape, if_pos h, if_neg (by rw [isKeyword_at]; decide)]
  · have hs : escape s = s := if_neg h
    rw [hs, hs]

end Name

namespace Lexer

/-! ### A name among the pieces of a text -/

/-- A name with its prefix. -/
theorem pieces_verbatim {w : String} (hw : Name.isIdentifier w = true) (fresh : Bool) :
    pieces fresh ('@' :: w.toList) = [⟨.token .identifier, '@' :: w.toList, none⟩] := by
  obtain ⟨c, cs, hws, hc, hcs⟩ := exists_of_isIdentifier hw
  have hwords : w.toList.takeWhile Character.isWord = w.toList := by
    rw [List.takeWhile_eq_self_iff, hws]
    exact List.forall_mem_cons.2 ⟨Character.isWord_of_isNameStart hc, hcs⟩
  have hne : c ≠ '"' ∧ c ≠ '$' := by
    constructor <;>
      · rintro rfl
        cases hc
  have hcut : cut fresh '@' w.toList = ⟨.token .identifier, w.toList.length, none⟩ := by
    show cutAt _ = _
    rw [cutAt_eq, hwords, hws]
    simp [hne, hc]
  rw [pieces_cons, hcut, List.take_length, List.drop_length, pieces_nil]

/-- **A name as it is written is one piece.** -/
theorem pieces_written {t : String} (ht : Name.IsWritten t) (fresh : Bool) :
    pieces fresh t.toList = [⟨.token .identifier, t.toList, none⟩] := by
  rcases Name.eq_at_or_eq_unescape t with h | h
  · have hlist : t.toList = '@' :: (Name.unescape t).toList := by
      conv_lhs => rw [h, String.toList_append]
      rfl
    rw [hlist]
    exact pieces_verbatim ht.1 fresh
  · have hplain : Name.IsPlain t := ⟨by rw [h]; exact ht.1, ht.2⟩
    have hends : Follows endsWord [] := fun _ h => by cases h
    have hcut := pieces_plain hplain hends fresh
    rwa [List.append_nil, pieces_nil] at hcut

/-- A name that is cut off without the prefix is not reserved. -/
theorem isKeyword_of_cut {fresh : Bool} {c : Char} {cs : List Char}
    (h : (cut fresh c cs).shape = .token .identifier) :
    Name.isKeyword (String.ofList (c :: cs.take (cut fresh c cs).more)) = false := by
  have hname := namesOnly_cut fresh c cs h
  generalize ht : String.ofList (c :: cs.take (cut fresh c cs).more) = t at hname ⊢
  have hlist : t.toList = c :: cs.take (cut fresh c cs).more := by rw [← ht, String.toList_ofList]
  rcases Name.eq_at_or_eq_unescape t with hat | hat
  · rw [hat]
    exact Name.isKeyword_at _
  · -- the piece starts as a name does, and so the word decides
    rw [← hat] at hname
    obtain ⟨d, ds, hd, hstart, -⟩ := exists_of_isIdentifier hname
    obtain ⟨rfl, -⟩ := List.cons.inj (hd.symm.trans hlist)
    rw [cut_of_isNameStart hstart, cutName] at h ht
    dsimp only at h ht
    rw [take_takeWhile] at ht
    rw [ht] at h
    by_contra hkeyword
    rw [Bool.not_eq_false] at hkeyword
    rw [if_pos hkeyword] at h
    cases h

/-- **A piece that is a name is a name as it is written.** -/
theorem isWritten_of_mem_pieces {fresh : Bool} {cs : List Char} {p : Piece}
    (hp : p ∈ pieces fresh cs) (h : p.shape = .token .identifier) :
    Name.IsWritten (String.ofList p.text) := by
  refine ⟨isIdentifier_of_mem_pieces hp h, ?_⟩
  fun_induction pieces fresh cs with
  | case1 => cases hp
  | case2 fresh c cs k ih =>
    rcases List.mem_cons.1 hp with rfl | hp
    · exact isKeyword_of_cut h
    · exact ih hp

end Lexer

open Lexer

/-! ### Texts that spell a name -/

/-- A text spells a name: it has no faults, and its places are the name, on the whole of the
text, and the end. -/
structure SpellsName (text name : String) : Prop where
  faultless : ∀ index, lexicalDiagnostics ⟨text, index⟩ = []
  places : places text = [(some (.name name), ⟨0, text.utf8ByteSize⟩),
    (none, ⟨text.utf8ByteSize, text.utf8ByteSize⟩)]

theorem spells_of_isWritten {t : String} (ht : Name.IsWritten t) :
    SpellsName t (Name.unescape t) := by
  have hpieces := pieces_written ht true
  refine ⟨fun index => ?_, ?_⟩
  · rw [lexicalDiagnostics_eq_nil_iff, hpieces]
    exact List.forall_mem_singleton.2 rfl
  · have hlexeme : (Piece.mk (.token .identifier) t.toList none).lexeme?
        = some (.name (Name.unescape t)) := by
      rw [Name.unescape]
      split <;> simp [Piece.lexeme?, Lexeme.name, *]
    rw [places_eq, tokens, hpieces, tokensFrom, hlexeme]
    simp [tokensFrom, ← Slice.utf8ByteSize_ofList]

theorem isWritten_of_spells {t s : String} (h : SpellsName t s) :
    Name.IsWritten t ∧ Name.unescape t = s := by
  have htokens : tokens t = [⟨.name s, ⟨0, t.utf8ByteSize⟩⟩] := by
    have hplaces : (tokens t).map (fun u => (some u.lexeme, u.span)) ++ [_]
        = [(some (.name s), ⟨0, t.utf8ByteSize⟩)] ++ [_] := (places_eq t).symm.trans h.places
    obtain ⟨hone, -⟩ := List.append_inj' hplaces rfl
    obtain ⟨tok, htok, hpair⟩ := List.map_eq_singleton_iff.1 hone
    obtain ⟨hl, hs⟩ := Prod.mk.inj hpair
    rw [htok, ← hs, ← Option.some.inj hl]
  obtain ⟨x, hx, ht⟩ := mem_tokens_iff.1 (htokens ▸ List.mem_singleton_self _)
  obtain ⟨hlexeme, hspan⟩ := token?_eq_some ht
  obtain ⟨hmem, hstands⟩ := standsOn_of_mem_pieces hx
  have htext : String.ofList x.1.text = t := by
    have hwhole := Slice.slice?_append [] t.toList []
    rw [List.append_nil, List.nil_append, String.ofList_toList,
      ← Slice.utf8ByteSize_ofList t.toList, String.ofList_toList] at hwhole
    exact Option.some.inj ((hspan ▸ hstands.slice?).symm.trans hwhole)
  refine ⟨htext ▸ isWritten_of_mem_pieces hmem (Piece.shape_of_lexeme? hlexeme), ?_⟩
  have := lexeme?_eq hlexeme
  rw [htext] at this
  exact this.symm

/-- **What spells a name:** the name if it is not reserved, or the name with the prefix. -/
theorem spells_iff {t s : String} : SpellsName t s ↔
    Name.isIdentifier s = true ∧ (t = s ∧ Name.isKeyword s = false ∨ t = "@" ++ s) := by
  rw [← Name.isWritten_iff]
  exact ⟨isWritten_of_spells, fun ⟨ht, hs⟩ => hs ▸ spells_of_isWritten ht⟩

theorem spells_escaped {s : String} (h : Name.isIdentifier s = true) :
    SpellsName (Name.escape s) s := by
  have := spells_of_isWritten (Name.isWritten_escape h)
  rwa [Name.unescape_escape h] at this

/-- **Escaping and reading agree.**  What a name is escaped as spells the name; a text spells a
name only if it is the name, which is not reserved then, or the name with the prefix; no two names
are escaped as the same, and escaping twice is escaping once. -/
theorem escape_spells :
    (∀ s, Name.isIdentifier s = true → SpellsName (Name.escape s) s) ∧
    (∀ t s, SpellsName t s ↔
      Name.isIdentifier s = true ∧ (t = s ∧ Name.isKeyword s = false ∨ t = "@" ++ s)) ∧
    Set.InjOn Name.escape {s | Name.isIdentifier s = true} ∧
    ∀ s, Name.escape (Name.escape s) = Name.escape s := by
  refine ⟨fun s => spells_escaped, fun t s => spells_iff, fun s hs t ht h => ?_,
    Name.escape_escape⟩
  rw [← Name.unescape_escape hs, ← Name.unescape_escape ht, h]

/-- Escaping a reserved word, by its spelling and by what spells it. -/
theorem escape_spells_class : Name.isIdentifier "class" = true ∧ SpellsName "@class" "class" ∧
    ¬ SpellsName "class" "class" := by
  obtain ⟨hspells, hiff, -⟩ := escape_spells
  have hname : Name.isIdentifier "class" = true := by decide +kernel
  have hescape : Name.escape "class" = "@class" := by decide +kernel
  refine ⟨hname, hescape ▸ hspells "class" hname, fun h => ?_⟩
  rcases (hiff _ _).1 h with ⟨-, ⟨-, hkeyword⟩ | hat⟩
  · exact absurd hkeyword (by decide +kernel)
  · exact absurd hat (by decide)

end Outline
