/-
# The types of a tree by name and place

The types of a tree stand in the order of its source, whatever the source is.  Each has the
name that stands at its place, or none, and then the tree has an error.
-/

import Outline.Proofs.Lexer.Names
import Outline.Proofs.Parser.Sites
import Outline.Proofs.SyntaxTree.Enclosure
import Outline.Proofs.SyntaxTree.Locations

namespace Outline
namespace SyntaxTree

open Outline.Language (Version)
open Outline.Parser (Edge Declared Sited itemTypes parseFile sites_fileItems StandsAhead hasFault)
open TypeSymbol (allSites)

/-! ### Sites -/

/-- The declared types of lexemes are sited among them. -/
theorem sited_parseFile (ls : List Lexeme) : Sited ⟨0, ls⟩ (parseFile ls).found
    (allSites (itemTypes (parseFile ls).value)) :=
  sites_fileItems none false ⟨0, ls⟩

/-- A name that is ahead of the first token of a text has the shape of a name. -/
theorem isIdentifier_of_standsAhead {text : String} {x : String × Edge}
    (h : StandsAhead ⟨0, lexemes text⟩ x) : Name.isIdentifier x.1 = true := by
  obtain ⟨i, l, -, hl, hn, hx⟩ := h
  rw [← hx]
  exact isIdentifier_of_mem_lexemes (List.mem_of_getElem? hl) hn

theorem types_eq (version : Version) (s : Source) : (parse version s).types
    = (itemTypes (parseFile (lexemes s.text)).value).map
        (·.map (edgeOffset (spans s.text) s.text.utf8ByteSize)) := by
  rw [types_parse, map_lexeme_tokens]
  rfl

/-- A type of a tree is one of the declared sites, with its edge turned into an offset. -/
theorem exists_site {version : Version} {s : Source} {t : TypeSymbol Nat}
    (h : t ∈ (parse version s).types) : ∃ place : Edge,
      (t.name, place) ∈ allSites (itemTypes (parseFile (lexemes s.text)).value) ∧
        t.place = edgeOffset (spans s.text) s.text.utf8ByteSize place := by
  rw [types_eq] at h
  obtain ⟨d, hd, rfl⟩ := List.mem_map.1 h
  refine ⟨d.place, ?_, TypeSymbol.place_map _ d⟩
  rw [TypeSymbol.name_map]
  exact (TypeSymbol.sublist_allSites _).subset
    (List.mem_map_of_mem (f := fun t => (t.name, t.place)) hd)

/-! ### Names -/

/-- **The name of a type** has the shape of a name, or it is missing. -/
theorem isIdentifier_or_missing {version : Version} {s : Source} {t : TypeSymbol Nat}
    (h : t ∈ (parse version s).types) : Name.isIdentifier t.name = true ∨
      t.name = "" ∧ hasFault (parseFile (lexemes s.text)).found = true := by
  obtain ⟨place, hsite, -⟩ := exists_site h
  exact ((sited_parseFile _).named _ hsite).imp isIdentifier_of_standsAhead id

/-- Without errors it is not missing. -/
theorem isIdentifier_of_hasErrors {version : Version} {s : Source} {t : TypeSymbol Nat}
    (h : t ∈ (parse version s).types) (he : (parse version s).hasErrors = false) :
    Name.isIdentifier t.name = true := by
  refine (isIdentifier_or_missing h).resolve_right fun hmissing => ?_
  exact Bool.false_ne_true ((hasFault_lexemes he).symm.trans hmissing.2)

/-- **A declared name stands at its place**: a token there is the name, if there is one. -/
theorem exists_nameToken_of_site {text : String} {x : String × Edge}
    (h : x ∈ allSites (itemTypes (parseFile (lexemes text)).value)) (hname : x.1 ≠ "") :
    ∃ k ∈ tokens text, k.lexeme = .name x.1 ∧
      edgeOffset (spans text) text.utf8ByteSize x.2 = k.span.start := by
  obtain ⟨i, l, hplace, hl, hn, htext⟩ :=
    ((sited_parseFile _).named _ h).resolve_right fun hmissing => hname hmissing.1
  dsimp only at hplace hl htext
  rw [← map_lexeme_tokens, List.getElem?_map] at hl
  obtain ⟨k, hk, rfl⟩ := Option.map_eq_some_iff.1 hl
  have hkind : k.lexeme.kind = .identifier := by simpa [Lexeme.isName] using hn
  refine ⟨k, List.mem_of_getElem? hk, ?_, ?_⟩
  · rw [Lexeme.name, ← htext, ← hkind]
  · simp [hplace, edgeOffset, spans, hk]

/-- **The name of a type stands at its place.** -/
theorem exists_nameToken {version : Version} {s : Source} {t : TypeSymbol Nat}
    (h : t ∈ (parse version s).types) (hname : t.name ≠ "") :
    ∃ k ∈ tokens s.text, k.lexeme = .name t.name ∧ t.place = k.span.start := by
  obtain ⟨place, hsite, hoffset⟩ := exists_site h
  obtain ⟨k, hk, hlexeme, hstart⟩ := exists_nameToken_of_site hsite hname
  exact ⟨k, hk, hlexeme, hoffset.trans hstart⟩

/-! ### Order -/

/-- An edge of a token stands at its start or at its end. -/
theorem edgeOffset_of_getElem? {text : String} {e : Edge} {t : Token}
    (h : (tokens text)[e.token]? = some t) :
    t.span.start ≤ edgeOffset (spans text) text.utf8ByteSize e ∧
      edgeOffset (spans text) text.utf8ByteSize e ≤ t.span.stop := by
  have hle : t.span.start ≤ t.span.stop := (span_standsIn (List.mem_of_getElem? h)).le
  cases e with
  | start i =>
    have hi : (tokens text)[i]? = some t := h
    simp only [edgeOffset, spans, List.getElem?_map, hi, Option.map_some, Option.getD_some]
    exact ⟨Nat.le_refl _, hle⟩
  | stop i =>
    have hi : (tokens text)[i]? = some t := h
    simp only [edgeOffset, spans, List.getElem?_map, hi, Option.map_some, Option.getD_some]
    exact ⟨hle, Nat.le_refl _⟩

/-- Past the last token, an edge stands at the end of the text. -/
theorem edgeOffset_of_none {text : String} {e : Edge} (h : (tokens text)[e.token]? = none) :
    edgeOffset (spans text) text.utf8ByteSize e = text.utf8ByteSize := by
  cases e with
  | start i | stop i =>
    have hi : (tokens text)[i]? = none := h
    simp only [edgeOffset, spans, List.getElem?_map, hi, Option.map_none, Option.getD_none]

/-- An edge of a token is not after one of a later token. -/
theorem edgeOffset_le_of_token_lt {text : String} {e e' : Edge} (h : e.token < e'.token) :
    edgeOffset (spans text) text.utf8ByteSize e
      ≤ edgeOffset (spans text) text.utf8ByteSize e' := by
  cases hlater : (tokens text)[e'.token]? with
  | none =>
    rw [edgeOffset_of_none hlater]
    exact Slice.onBoundary_le (onBoundary_edgeOffset text e)
  | some u =>
    obtain ⟨hlt, rfl⟩ := List.getElem?_eq_some_iff.1 hlater
    have horder := List.pairwise_iff_getElem.1 (pairwise_tokens text) e.token e'.token
      (Nat.lt_trans h hlt) hlt h
    have hfirst := edgeOffset_of_getElem? (List.getElem?_eq_getElem (Nat.lt_trans h hlt))
    exact Nat.le_trans hfirst.2 (Nat.le_trans horder (edgeOffset_of_getElem? hlater).1)

/-- **The types of a tree** stand in the order of the source. -/
theorem pairwise_types (version : Version) (s : Source) :
    (parse version s).types.Pairwise fun t u => t.place ≤ u.place := by
  rw [types_eq, List.pairwise_map]
  have hsites := (sited_parseFile (lexemes s.text)).ordered.sublist (TypeSymbol.sublist_allSites _)
  refine (List.pairwise_map.1 hsites).imp fun {d e} h => ?_
  rw [TypeSymbol.place_map, TypeSymbol.place_map]
  exact edgeOffset_le_of_token_lt h

end SyntaxTree
end Outline
