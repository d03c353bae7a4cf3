/-
# Where diagnostics point

Whatever a source is, its diagnostics point into it and stand in the order of the text.

| part of a location | what it is |
| --- | --- |
| source | the index of the source |
| offset, offset with length | between characters, at token edges or at a fault of the lexer |
| line | 1 and the line feeds before the offset |
| column | 1 and the characters since the last of them |

The token edges are those of `places`: of each token and of the end of the text.
-/

import Outline.Proofs.Lexer.Tiling
import Outline.Proofs.SyntaxTree.Composition

namespace Outline

open Outline.Language (Version)
open Outline.Parser (Edge parseFile walk_parseFile)
open Slice (OnBoundary onBoundary_iff)

/-! ### Positions -/

/-- A location points into a source: it is a stretch between characters of the text, and its
line and column are counted in what stands before it. -/
structure Location.PointsInto (l : Location) (s : Source) : Prop where
  source : l.source = s.index
  start : OnBoundary s.text l.offset
  stop : OnBoundary s.text (l.offset + l.length)
  le : l.offset + l.length ≤ s.text.utf8ByteSize
  position : ∃ before after, s.text.toList = before ++ after ∧ byteSize before = l.offset ∧
    l.line = 1 + before.count '\n' ∧
    l.column = 1 + (before.reverse.takeWhile (· ≠ '\n')).length

/-- The line and the column that can be computed are the ones that a reader counts. -/
theorem Location.StandsIn.pointsInto {l : Location} {s : Source} (h : l.StandsIn s) :
    l.PointsInto s := by
  obtain ⟨before, after, htext, hoffset⟩ := onBoundary_iff.1 h.start
  have hlist : s.text.toList = before ++ after := by rw [htext, String.toList_ofList]
  have hposition := h.position
  rw [Slice.lineCol?_eq h.start, hoffset, Source.lineCol_eq hlist, Option.some_inj] at hposition
  obtain ⟨hline, hcolumn⟩ := Position.mk.inj hposition
  exact ⟨h.source, h.start, h.stop, Slice.onBoundary_le h.stop, before, after, hlist,
    hoffset.symm, hline.symm, hcolumn.symm⟩

/-! ### Token edges -/

/-- An offset at which a token or the end of the text starts or stops. -/
def IsTokenEdge (text : String) (offset : Nat) : Prop :=
  ∃ place ∈ places text, offset = place.2.start ∨ offset = place.2.stop

/-- Edges of tokens that the parser sees are edges of tokens of the text. -/
theorem isTokenEdge_edgeOffset {text : String} {e : Edge} (h : e.token ≤ (lexemes text).length) :
    IsTokenEdge text (edgeOffset (SyntaxTree.spans text) text.utf8ByteSize e) := by
  have hmem : placeAt text e.token ∈ places text := by
    rw [← map_lexeme_tokens, List.length_map] at h
    exact List.mem_map_of_mem (List.mem_range.2 (Nat.lt_succ_of_le h))
  cases e with
  | start i => exact ⟨_, hmem, .inl rfl⟩
  | stop i => exact ⟨_, hmem, .inr rfl⟩

namespace SyntaxTree

/-- What the parser reports goes from one token edge to another. -/
theorem edges_of_mem_reported {version : Version} {s : Source} {d : Diagnostic} {l : Location}
    (h : d ∈ reported version s) (hl : d.location = some l) :
    IsTokenEdge s.text l.offset ∧ IsTokenEdge s.text (l.offset + l.length) := by
  rw [reported_eq] at h
  obtain ⟨x, hx, hsome⟩ := List.mem_filterMap.1 h
  obtain ⟨e, -, rfl⟩ := Option.map_eq_some_iff.1 hsome
  obtain rfl := Option.some.inj hl
  obtain ⟨hw, hr⟩ := walk_parseFile (lexemes s.text)
  have hmark := hw.passed.marked x hx
  rw [hr] at hmark
  have hle : edgeOffset (spans s.text) s.text.utf8ByteSize x.mark.first
      ≤ edgeOffset (spans s.text) s.text.utf8ByteSize x.mark.last := by
    refine edgeOffset_le ?_
    rcases hmark with ⟨i, -, hm⟩ | ⟨e, -, hm⟩
    · exact .inl ⟨i, hm⟩
    · exact .inr ⟨e, hm⟩
  have hedges : x.mark.first.token ≤ (lexemes s.text).length ∧
      x.mark.last.token ≤ (lexemes s.text).length := by
    rcases hmark with ⟨i, hi, hm⟩ | ⟨e, he, hm⟩
    · rw [hm]
      exact ⟨hi, hi⟩
    · rw [hm]
      exact ⟨he, he⟩
  refine ⟨isTokenEdge_edgeOffset hedges.1, ?_⟩
  show IsTokenEdge s.text (edgeOffset (spans s.text) s.text.utf8ByteSize x.mark.first
    + (edgeOffset (spans s.text) s.text.utf8ByteSize x.mark.last
      - edgeOffset (spans s.text) s.text.utf8ByteSize x.mark.first))
  rw [Nat.add_sub_cancel' hle]
  exact isTokenEdge_edgeOffset hedges.2

/-- The diagnostics of a tree are placed in its source. -/
structure Placed (version : Version) (s : Source) : Prop where
  /-- The diagnostics are what the lexer and the parser report. -/
  reported : (parse version s).diagnostics.Perm (lexicalDiagnostics s ++ reported version s)
  /-- Each of them points into the source; if it is not the lexer's, at edges of tokens. -/
  points : ∀ d ∈ (parse version s).diagnostics, ∃ l, d.location = some l ∧ l.PointsInto s ∧
    (d ∈ lexicalDiagnostics s ∨
      IsTokenEdge s.text l.offset ∧ IsTokenEdge s.text (l.offset + l.length))
  /-- They stand in the order of their offsets. -/
  sorted : (parse version s).diagnostics.Pairwise fun d e =>
    ∀ l ∈ d.location, ∀ k ∈ e.location, l.offset ≤ k.offset

/-- **Diagnostics point into the source.**  Whatever the text, its index and the language version
are: every diagnostic of the tree has a location in the text, whose position is the one that a
reader counts; it goes from one token edge to another, unless the lexer reported it; and the
diagnostics stand in the order of the text. -/
theorem diagnostics_placed (version : Version) (s : Source) : Placed version s where
  reported := diagnostics_perm version s
  points d h := by
    obtain ⟨l, hl, hin⟩ := diagnostic_standsIn h
    refine ⟨l, hl, hin.pointsInto, ?_⟩
    rcases List.mem_append.1 ((diagnostics_perm version s).mem_iff.1 h) with hd | hd
    · exact .inl hd
    · exact .inr (edges_of_mem_reported hd hl)
  sorted := by
    rw [diagnostics_eq]
    refine (pairwise_sortBy diagnosticOffset _).imp fun {d e} h l hl k hk => ?_
    rwa [diagnosticOffset, diagnosticOffset, hl, hk] at h

end SyntaxTree
end Outline
