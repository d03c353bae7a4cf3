/-
# Sources put together

Two texts, the second on a new line after the first, are read and parsed each as it is by
itself, if both are without errors and do nothing to what stands around them: no using, no
external alias and no file-scoped namespace (`SelfContained`).

| part | in the whole |
| --- | --- |
| pieces | those of the first text, a line feed, and those of the second |
| tokens | those of both, with the spans of the second moved on |
| items and findings | those of both, with the tokens of the second moved on |
| diagnostics | those of both, as all of the first stand before all of the second |
-/

import Outline.Proofs.Frame.Files
import Outline.Proofs.Lexer.Locality
import Outline.Proofs.Source.Position
import Outline.Proofs.SyntaxTree.Safety
import Outline.Proofs.SyntaxTree.Versions

namespace Outline

open Outline.Slice (OnBoundary onBoundary_iff byteSize_toList utf8ByteSize_ofList)

/-! ### Moving on -/

/-- A span moved on by some bytes. -/
def Span.moved (bytes : Nat) (s : Span) : Span := ⟨s.start + bytes, s.stop + bytes⟩

/-- A token moved on by some bytes. -/
def Token.moved (bytes : Nat) (t : Token) : Token := { t with span := t.span.moved bytes }

/-- A location moved on by some bytes and lines. -/
def Location.moved (bytes lines : Nat) (l : Location) : Location :=
  { l with offset := l.offset + bytes, line := l.line + lines }

/-- A diagnostic moved on by some bytes and lines. -/
def Diagnostic.moved (bytes lines : Nat) (d : Diagnostic) : Diagnostic :=
  { d with location := d.location.map (·.moved bytes lines) }

/-! ### Tokens -/

namespace Lexer

/-- **A text on a new line is cut as it is by itself.** -/
theorem pieces_newline {cs : List Char} (h : Faultless (pieces true cs)) (ds : List Char) :
    pieces true (cs ++ '\n' :: ds)
      = pieces true cs ++ ⟨.blank, ['\n'], none⟩ :: pieces true ds := by
  have hfollows (follow : Char → Bool) (hf : follow '\n' = true) :
      Follows follow ('\n' :: ds) := fun a ha => Option.some.inj ha ▸ hf
  obtain ⟨fresh, hp⟩ := pieces_append h (hfollows isSeparator (by decide))
    fun _ _ _ => hfollows (· == '\n') rfl
  have hcut : cut fresh '\n' ds = ⟨.blank, 0, none⟩ := if_pos (by decide)
  have hfresh : freshAfter fresh '\n' .blank = true := Bool.or_true fresh
  rw [hp, pieces_cons, hcut, hfresh]
  rfl

theorem tokensFrom_append (offset : Nat) (ps qs : List Piece) :
    tokensFrom offset (ps ++ qs)
      = tokensFrom offset ps ++ tokensFrom (offset + byteSize (ps.flatMap (·.text))) qs := by
  induction ps generalizing offset with
  | nil => rfl
  | cons p ps ih =>
    rw [List.cons_append, tokensFrom, tokensFrom, List.flatMap_cons, byteSize_append,
      ← Nat.add_assoc, ih]
    cases p.lexeme? <;> rfl

theorem tokensFrom_moved (offset bytes : Nat) (ps : List Piece) :
    tokensFrom (offset + bytes) ps = (tokensFrom offset ps).map (·.moved bytes) := by
  induction ps generalizing offset with
  | nil => rfl
  | cons p ps ih =>
    have hnext : offset + bytes + byteSize p.text = offset + byteSize p.text + bytes :=
      Nat.add_right_comm _ _ _
    rw [tokensFrom, tokensFrom, hnext, ih]
    cases p.lexeme? <;> rfl

end Lexer

open Lexer (Faultless pieces pieces_newline)

variable {first second : String}

/-- Two texts on lines of their own. -/
def joined (first second : String) : String := first ++ "\n" ++ second

theorem toList_joined : (joined first second).toList = first.toList ++ '\n' :: second.toList := by
  simp [joined]

theorem utf8ByteSize_joined : (joined first second).utf8ByteSize
    = second.utf8ByteSize + (first.utf8ByteSize + 1) := by
  rw [← byteSize_toList, toList_joined, byteSize_append, byteSize_cons, byteSize_toList,
    byteSize_toList]
  have : '\n'.utf8Size = 1 := rfl
  omega

/-- **The tokens of two texts** are those of the first and, moved on, those of the second. -/
theorem tokens_joined (h : Faultless (pieces true first.toList)) :
    tokens (joined first second)
      = tokens first ++ (tokens second).map (·.moved (first.utf8ByteSize + 1)) := by
  rw [tokens, toList_joined, pieces_newline h, Lexer.tokensFrom_append, Lexer.flatMap_pieces,
    Nat.zero_add, byteSize_toList, tokens, tokens, ← Lexer.tokensFrom_moved, Nat.zero_add]
  rfl

theorem lexemes_joined (h : Faultless (pieces true first.toList)) :
    lexemes (joined first second) = lexemes first ++ lexemes second := by
  rw [← map_lexeme_tokens, tokens_joined h, List.map_append, List.map_map, map_lexeme_tokens,
    ← map_lexeme_tokens second]
  rfl

theorem faultless_joined (hf : Faultless (pieces true first.toList))
    (hs : Faultless (pieces true second.toList)) :
    Faultless (pieces true (joined first second).toList) := by
  rw [toList_joined, pieces_newline hf, Lexer.faultless_append]
  exact ⟨hf, List.forall_mem_cons.2 ⟨rfl, hs⟩⟩

/-! ### Edges -/

open Outline.Parser (Edge Finding Frame)

theorem edgeOffset_append {spans : List Span} {e : Edge} (h : e.token < spans.length)
    (more : List Span) (size size' : Nat) :
    edgeOffset (spans ++ more) size e = edgeOffset spans size' e := by
  cases e with
  | start i | stop i =>
    have hi : i < spans.length := h
    simp [edgeOffset, List.getElem?_append_left hi, List.getElem?_eq_getElem hi]

/-- An edge behind other tokens stands where it does without them, moved on. -/
theorem edgeOffset_behind (spans more : List Span) (size bytes : Nat) (e : Edge) :
    edgeOffset (spans ++ more.map (·.moved bytes)) (size + bytes)
        ((Frame.behind spans.length).edge e)
      = edgeOffset more size e + bytes := by
  cases e with
  | start i | stop i =>
    simp only [edgeOffset, Frame.edge, Frame.behind,
      List.getElem?_append_right (Nat.le_add_right _ _), Nat.add_sub_cancel_left,
      List.getElem?_map]
    cases more[i]? <;> rfl

/-! ### Positions -/

/-- Lines before the first one only move the lines on. -/
theorem foldl_after_moved (cs : List Char) (p : Position) (lines : Nat) :
    cs.foldl Position.after ⟨p.line + lines, p.column⟩
      = ⟨(cs.foldl Position.after p).line + lines, (cs.foldl Position.after p).column⟩ := by
  induction cs generalizing p with
  | nil => rfl
  | cons c cs ih =>
    rw [List.foldl_cons, List.foldl_cons, ← ih]
    unfold Position.after
    split
    · rw [Nat.add_right_comm]
    · rfl

/-- A position in the first text is the same in the whole. -/
theorem lineCol_first {index offset : Nat} (h : OnBoundary first offset) :
    Source.lineCol ⟨joined first second, index⟩ offset = Source.lineCol ⟨first, index⟩ offset := by
  obtain ⟨before, after, rfl, rfl⟩ := onBoundary_iff.1 h
  rw [Source.lineCol, Source.lineCol, toList_joined, String.toList_ofList, List.append_assoc,
    Slice.positionFrom_append, Slice.positionFrom_append]

/-- A position in the second text comes after the lines of the first. -/
theorem lineCol_second {index offset : Nat} (h : OnBoundary second offset) :
    Source.lineCol ⟨joined first second, index⟩ (offset + (first.utf8ByteSize + 1))
      = ⟨(Source.lineCol ⟨second, index⟩ offset).line + (first.toList.count '\n' + 1),
          (Source.lineCol ⟨second, index⟩ offset).column⟩ := by
  obtain ⟨before, after, rfl, rfl⟩ := onBoundary_iff.1 h
  have hoffset : byteSize before + (first.utf8ByteSize + 1)
      = byteSize (first.toList ++ '\n' :: before) := by
    have : '\n'.utf8Size = 1 := rfl
    rw [byteSize_append, byteSize_cons, byteSize_toList]
    omega
  have hlines : (first.toList ++ ['\n']).foldl Position.after {}
      = ⟨1 + (first.toList.count '\n' + 1), 1⟩ := by
    have hline := foldl_after_line first.toList {}
    rw [List.foldl_append, List.foldl_cons, List.foldl_nil, Position.after, if_pos rfl, hline]
    rfl
  have hsplit : first.toList ++ '\n' :: (before ++ after)
      = (first.toList ++ '\n' :: before) ++ after := by simp
  have hstart : first.toList ++ '\n' :: before = (first.toList ++ ['\n']) ++ before := by simp
  rw [Source.lineCol, Source.lineCol, toList_joined, String.toList_ofList, hsplit, hoffset,
    Slice.positionFrom_append, Slice.positionFrom_append, hstart, List.foldl_append, hlines]
  exact foldl_after_moved before {} _

/-! ### Texts that stand by themselves -/

open Outline.Language (Version)
open Outline.Parser (Item Standalone parseFile fileItems itemStarts atAlias itemTypes)

/-- A text that does nothing to what stands around it: it imports nothing, no item of it is
an external alias, and it has no file-scoped namespace. -/
structure SelfContained (text : String) : Prop where
  imported : (parseFile (lexemes text)).value.filterMap (·.imported?) = []
  fileNamespaces : (parseFile (lexemes text)).value.filterMap (·.fileNamespace?) = []
  aliases : ∀ c ∈ itemStarts none false ⟨0, lexemes text⟩, atAlias c = false

namespace SyntaxTree

/-- The faults of the lexer are errors. -/
theorem faultless_of_hasErrors {version : Version} {s : Source}
    (h : (parse version s).hasErrors = false) : Faultless (pieces true s.text.toList) := by
  rw [hasErrors_eq, Bool.or_eq_false_iff, List.any_eq_false] at h
  rw [← lexicalDiagnostics_eq_nil_iff, List.eq_nil_iff_forall_not_mem]
  intro d hd
  refine h.1 d hd ?_
  obtain ⟨⟨f, span⟩, -, rfl⟩ := List.mem_map.1 hd
  cases f <;> rfl

theorem standalone_of_hasErrors {version : Version} {text : String} {index : Nat}
    (h : (parse version ⟨text, index⟩).hasErrors = false) (hs : SelfContained text) :
    Standalone false ⟨0, lexemes text⟩ where
  faultless := hasFault_lexemes h
  imported := hs.imported
  fileNamespaces := hs.fileNamespaces
  aliases := hs.aliases

/-- The spans of the tokens of a text. -/
def spans (text : String) : List Span := (tokens text).map (·.span)

theorem length_spans (text : String) : (spans text).length = (lexemes text).length := by
  rw [spans, ← map_lexeme_tokens, List.length_map, List.length_map]

theorem spans_joined (h : Faultless (pieces true first.toList)) :
    spans (joined first second)
      = spans first ++ (spans second).map (·.moved (first.utf8ByteSize + 1)) := by
  rw [spans, tokens_joined h, List.map_append, List.map_map, spans, spans, List.map_map]
  rfl

variable {version : Version} {index : Nat}

/-- A finding in the first text is reported at the same place. -/
theorem findingDiagnostic?_first (h : Faultless (pieces true first.toList)) {x : Finding}
    (hx : x.mark.Before (lexemes first).length) :
    findingDiagnostic? version ⟨joined first second, index⟩ (spans (joined first second)) x
      = findingDiagnostic? version ⟨first, index⟩ (spans first) x := by
  rw [← length_spans] at hx
  have hedge (e : Edge) (he : e.token < (spans first).length) :=
    edgeOffset_append he ((spans second).map (·.moved (first.utf8ByteSize + 1)))
      (joined first second).utf8ByteSize first.utf8ByteSize
  have hboundary := onBoundary_edgeOffset first x.mark.first
  simp only [findingDiagnostic?, spans_joined h, hedge _ hx.1, hedge _ hx.2, Source.location]
  rw [spans, lineCol_first hboundary]

/-- A finding in the second text is reported at its place, moved on. -/
theorem findingDiagnostic?_second (h : Faultless (pieces true first.toList)) (x : Finding) :
    findingDiagnostic? version ⟨joined first second, index⟩ (spans (joined first second))
        ((Frame.behind (lexemes first).length).finding x)
      = (findingDiagnostic? version ⟨second, index⟩ (spans second) x).map
          (·.moved (first.utf8ByteSize + 1) (first.toList.count '\n' + 1)) := by
  have hboundary := onBoundary_edgeOffset second x.mark.first
  rw [← length_spans]
  simp only [findingDiagnostic?, spans_joined h, utf8ByteSize_joined, Frame.finding, Frame.mark,
    edgeOffset_behind, Source.location, Option.map_map, Nat.add_sub_add_right]
  rw [spans, lineCol_second hboundary]
  rfl

/-- **The items and findings of two texts that stand by themselves** are those of both. -/
theorem parseFile_joined (hf : (parse version ⟨first, index⟩).hasErrors = false)
    (hs : (parse version ⟨second, index⟩).hasErrors = false) (cf : SelfContained first)
    (cs : SelfContained second) :
    (parseFile (lexemes (joined first second))).value = (parseFile (lexemes first)).value
        ++ (parseFile (lexemes second)).value.map (Frame.behind (lexemes first).length).item ∧
      (parseFile (lexemes (joined first second))).found = (parseFile (lexemes first)).found
        ++ (parseFile (lexemes second)).found.map
            (Frame.behind (lexemes first).length).finding := by
  rw [lexemes_joined (faultless_of_hasErrors hf)]
  exact Parser.parseFile_append (standalone_of_hasErrors hf cf) (standalone_of_hasErrors hs cs)

theorem rest_parseFile (ls : List Lexeme) : (parseFile ls).rest.index = ls.length := by
  rw [(Parser.walk_parseFile ls).2]

theorem reported_eq (version : Version) (s : Source) : reported version s
    = (parseFile (lexemes s.text)).found.filterMap
        (findingDiagnostic? version s (spans s.text)) := by
  rw [reported, findings, map_lexeme_tokens]
  rfl

/-- What is reported of two texts. -/
theorem reported_joined (hf : (parse version ⟨first, index⟩).hasErrors = false)
    (hs : (parse version ⟨second, index⟩).hasErrors = false) (cf : SelfContained first)
    (cs : SelfContained second) :
    reported version ⟨joined first second, index⟩ = reported version ⟨first, index⟩
      ++ (reported version ⟨second, index⟩).map
          (·.moved (first.utf8ByteSize + 1) (first.toList.count '\n' + 1)) := by
  have hfaultless := faultless_of_hasErrors hf
  rw [reported_eq, reported_eq, reported_eq, (parseFile_joined hf hs cf cs).2,
    List.filterMap_append, List.filterMap_map, List.map_filterMap]
  congr 1
  · refine List.filterMap_congr fun x hx => findingDiagnostic?_first hfaultless ?_
    rw [← rest_parseFile]
    exact Parser.Frame.fileItems_marks (standalone_of_hasErrors hf cf) x hx
  · exact List.filterMap_congr fun x _ => findingDiagnostic?_second hfaultless x

theorem itemTypes_item (f : Frame) (is : List Item) :
    itemTypes (is.map f.item) = (itemTypes is).map (·.map f.edge) := by
  rw [itemTypes, itemTypes, List.filterMap_map, List.map_filterMap]
  exact congrArg (List.filterMap · is) (funext fun i => by cases i <;> rfl)

/-- The types of two texts. -/
theorem types_joined (hf : (parse version ⟨first, index⟩).hasErrors = false)
    (hs : (parse version ⟨second, index⟩).hasErrors = false) (cf : SelfContained first)
    (cs : SelfContained second) :
    (parse version ⟨joined first second, index⟩).types = (parse version ⟨first, index⟩).types
      ++ (parse version ⟨second, index⟩).types.map (·.map (· + (first.utf8ByteSize + 1))) := by
  have htypes (s : Source) : (parse version s).types
      = (itemTypes (parseFile (lexemes s.text)).value).map
          (·.map (edgeOffset (spans s.text) s.text.utf8ByteSize)) := by
    rw [types_parse, map_lexeme_tokens]
    rfl
  rw [htypes, htypes, htypes, (parseFile_joined hf hs cf cs).1, Parser.itemTypes_append,
    List.map_append, itemTypes_item, List.map_map, List.map_map,
    spans_joined (faultless_of_hasErrors hf)]
  congr 1
  · refine List.map_congr_left fun t ht => TypeSymbol.map_congr t fun e he => ?_
    have hplace := Parser.places_fileItems none false ⟨0, lexemes first⟩ t ht e he
    have hlength : (fileItems none false ⟨0, lexemes first⟩).rest.index = (lexemes first).length :=
      rest_parseFile (lexemes first)
    rw [hlength, ← length_spans] at hplace
    exact edgeOffset_append hplace _ _ _
  · refine List.map_congr_left fun t _ => ?_
    rw [Function.comp_apply, Function.comp_apply, TypeSymbol.map_map, TypeSymbol.map_map,
      ← length_spans, utf8ByteSize_joined]
    exact TypeSymbol.map_congr t fun e _ => edgeOffset_behind _ _ _ _ e

/-! ### Diagnostics -/

theorem exists_location {version : Version} {s : Source} {d : Diagnostic}
    (h : d ∈ reported version s) : ∃ l, d.location = some l := by
  obtain ⟨x, -, hx⟩ := List.mem_filterMap.1 h
  obtain ⟨e, -, rfl⟩ := Option.map_eq_some_iff.1 hx
  exact ⟨_, rfl⟩

theorem offset_moved {bytes lines : Nat} {d : Diagnostic} (h : ∃ l, d.location = some l) :
    diagnosticOffset (d.moved bytes lines) = diagnosticOffset d + bytes := by
  obtain ⟨l, hl⟩ := h
  simp [diagnosticOffset, Diagnostic.moved, hl, Location.moved]

/-- Diagnostics that move on together stay in their order. -/
theorem sortBy_moved {bytes lines : Nat} {ds : List Diagnostic}
    (h : ∀ d ∈ ds, ∃ l, d.location = some l) :
    sortBy diagnosticOffset (ds.map (·.moved bytes lines))
      = (sortBy diagnosticOffset ds).map (·.moved bytes lines) := by
  rw [← map_sortBy]
  refine congrArg _ (sortBy_congr fun d hd e he => ?_)
  rw [offset_moved (h d hd), offset_moved (h e he)]
  exact Nat.add_le_add_iff_right

theorem offset_le {s : Source} {d : Diagnostic} (h : d ∈ (parse version s).diagnostics) :
    diagnosticOffset d ≤ s.text.utf8ByteSize := by
  obtain ⟨l, hl, hin⟩ := diagnostic_standsIn h
  obtain ⟨before, after, htext, hoffset⟩ := onBoundary_iff.1 hin.start
  rw [diagnosticOffset, hl, Option.map_some, Option.getD_some, hoffset, htext, utf8ByteSize_ofList,
    byteSize_append]
  exact Nat.le_add_right _ _

/-- The diagnostics of a text without faults of the lexer are what is reported, in order. -/
theorem diagnostics_of_faultless {s : Source} (h : Faultless (pieces true s.text.toList)) :
    (parse version s).diagnostics = sortBy diagnosticOffset (reported version s) := by
  rw [diagnostics_eq, lexicalDiagnostics_eq_nil_iff.2 h, List.nil_append]

/-- The diagnostics of two texts: all of the first stand before all of the second. -/
theorem diagnostics_joined (hf : (parse version ⟨first, index⟩).hasErrors = false)
    (hs : (parse version ⟨second, index⟩).hasErrors = false) (cf : SelfContained first)
    (cs : SelfContained second) :
    (parse version ⟨joined first second, index⟩).diagnostics
      = (parse version ⟨first, index⟩).diagnostics
        ++ (parse version ⟨second, index⟩).diagnostics.map
          (·.moved (first.utf8ByteSize + 1) (first.toList.count '\n' + 1)) := by
  have hfirst := faultless_of_hasErrors hf
  have hsecond := faultless_of_hasErrors hs
  have hwhole : (parse version ⟨joined first second, index⟩).diagnostics
      = sortBy diagnosticOffset (reported version ⟨joined first second, index⟩) :=
    diagnostics_of_faultless (faultless_joined hfirst hsecond)
  have hbefore : (parse version ⟨first, index⟩).diagnostics
      = sortBy diagnosticOffset (reported version ⟨first, index⟩) := diagnostics_of_faultless hfirst
  have hbehind : (parse version ⟨second, index⟩).diagnostics
      = sortBy diagnosticOffset (reported version ⟨second, index⟩) :=
    diagnostics_of_faultless hsecond
  rw [hwhole, hbefore, hbehind, reported_joined hf hs cf cs, sortBy_append,
    sortBy_moved fun d hd => exists_location hd]
  intro d hd m hm
  obtain ⟨e, he, rfl⟩ := List.mem_map.1 hm
  have hle : diagnosticOffset d ≤ first.utf8ByteSize := offset_le (s := ⟨first, index⟩) <|
    hbefore ▸ (sortBy_perm _ _).mem_iff.2 hd
  rw [offset_moved (exists_location he)]
  omega

/-- **Parsing is compositional.**  Of two texts without errors that do nothing to what stands
around them, the second on a new line after the first, nothing is reported as an error.  The
types and the diagnostics are those of the first text and then those of the second, moved on
by the bytes and lines before it. -/
theorem parse_joined (hf : (parse version ⟨first, index⟩).hasErrors = false)
    (hs : (parse version ⟨second, index⟩).hasErrors = false) (cf : SelfContained first)
    (cs : SelfContained second) :
    (parse version ⟨first ++ "\n" ++ second, index⟩).hasErrors = false ∧
      (parse version ⟨first ++ "\n" ++ second, index⟩).types
        = (parse version ⟨first, index⟩).types
          ++ (parse version ⟨second, index⟩).types.map (·.map (· + (first.utf8ByteSize + 1))) ∧
      (parse version ⟨first ++ "\n" ++ second, index⟩).diagnostics
        = (parse version ⟨first, index⟩).diagnostics
          ++ (parse version ⟨second, index⟩).diagnostics.map
            (·.moved (first.utf8ByteSize + 1) (first.toList.count '\n' + 1)) := by
  have hjoined : first ++ "\n" ++ second = joined first second := rfl
  have hdiagnostics := diagnostics_joined hf hs cf cs
  rw [hjoined]
  refine ⟨?_, types_joined hf hs cf cs, hdiagnostics⟩
  rw [hasErrors, hdiagnostics, List.any_append, List.any_map]
  exact Bool.or_eq_false_iff.2 ⟨hf, hs⟩

/-- Attributes at the end of the first text do not come in between. -/
theorem parse_joined_attributes :
    let first := "enum A \x7b B \x7d [C]"
    let second := "namespace N \x7b class D \x7b void E() \x7b int x; \x7d \x7d \x7d"
    ((parse .v12 ⟨first, 0⟩).hasErrors = false ∧ (parse .v12 ⟨second, 0⟩).hasErrors = false ∧
      SelfContained first ∧ SelfContained second) ∧
    (parse .v12 ⟨first ++ "\n" ++ second, 0⟩).hasErrors = false ∧
      (parse .v12 ⟨first ++ "\n" ++ second, 0⟩).types = (parse .v12 ⟨first, 0⟩).types
          ++ (parse .v12 ⟨second, 0⟩).types.map (·.map (· + (first.utf8ByteSize + 1))) ∧
      (parse .v12 ⟨first ++ "\n" ++ second, 0⟩).diagnostics = (parse .v12 ⟨first, 0⟩).diagnostics
          ++ (parse .v12 ⟨second, 0⟩).diagnostics.map
            (·.moved (first.utf8ByteSize + 1) (first.toList.count '\n' + 1)) := by
  intro first second
  have hf : (parse .v12 ⟨first, 0⟩).hasErrors = false := by decide +kernel
  have hs : (parse .v12 ⟨second, 0⟩).hasErrors = false := by decide +kernel
  have cf : SelfContained first := ⟨by decide +kernel, by decide +kernel, by decide +kernel⟩
  have cs : SelfContained second := ⟨by decide +kernel, by decide +kernel, by decide +kernel⟩
  exact ⟨⟨hf, hs, cf, cs⟩, parse_joined hf hs cf cs⟩

end SyntaxTree
end Outline
