/-
# Parsing never fails

Any text is read, parsed and reported on without anything that can go wrong going
wrong.  What can is made explicit, and shown not to happen:

| part | what could go wrong |
| --- | --- |
| `ReadsSafely` | a slice of the text that does not stand between characters |
| `LoopsAdvance` | a loop that goes on without passing a token |
| `ChecksSafely` | an index without a token, a depth below zero |
| `ReportsSafely` | a finding at no token, a location that is no stretch of the text |
-/

import Outline.Proofs.Lexer.Offsets
import Outline.Proofs.Parser.Indexed
import Outline.Proofs.Parser.Loops

namespace Outline
namespace SyntaxTree

open Outline.Parser Slice

/-- Wherever the lexer stands in a text, it reads on from between two characters: after
each character of the next piece, and where it slices out a lexeme. -/
structure ReadsSafely (text : String) : Prop where
  rest : ∀ before c cs, text.toList = before ++ c :: cs →
    ∀ fresh, ∀ k ≤ (Lexer.cut fresh c cs).more + 1, ((c :: cs).take k).length = k ∧
      slice? text (byteSize (before ++ (c :: cs).take k)) text.utf8ByteSize
        = some (String.ofList ((c :: cs).drop k))
  lexeme : ∀ t ∈ tokens text,
    slice? text t.span.start t.span.stop = some t.lexeme.text ∨
      slice? text t.span.start (t.span.start + 1) = some "@" ∧
        slice? text (t.span.start + 1) t.span.stop = some t.lexeme.text

theorem readsSafely (text : String) : ReadsSafely text where
  rest _ _ _ h fresh _ hk := Lexer.slice?_take_piece h fresh hk
  lexeme _ h := slice?_token h

/-- The turns of all loops pass a token, wherever the loops do not return. -/
structure LoopsAdvance : Prop where
  file : ∀ fileNamespace late c, c.atEnd = false →
    GoesOn (fileItems fileNamespace late)
      (fileItems (((fileItem fileNamespace late c).value.filterMap (·.fileNamespace?)).getLast?.or
        fileNamespace) (late || !(atUsing c || atAlias c || c.atPunct "\x7d")))
      (fileItem fileNamespace late) c
  namespaces : ∀ full late c, (c.atPunct "\x7d" || c.atEnd) = false →
    GoesOn (namespaceItems full late) (namespaceItems full (late || !atUsing c))
      (namespaceTurn full late) c
  members : ∀ owner c, (c.atPunct "\x7d" || c.atEnd) = false →
    GoesOn (memberList owner) (memberList owner) (memberTurn owner) c
  enumNames : ∀ c, (c.atPunct "\x7d" || c.atEnd) = false → (enumMember c).value.2 = true →
    GoesOn enumMembers enumMembers enumTurn c
  fields : ∀ c, (nextField c).value ≠ none → GoesOn moreFields moreFields fieldTurn c
  expressions : ∀ stops c, Skips (skipExpression stops) c (skipExpression stops c)
  heads : ∀ c, Skips skipToBody c (skipToBody c)
  attributes : ∀ c, Skips attributes c (attributes c)
  suffixes : ∀ c, Skips typeSuffixes c (typeSuffixes c)
  signs : ∀ c, Skips operatorSign c (operatorSign c)
  recovery : ∀ c, c.atPunct "\x7d" = false → c.atEnd = false →
    c.index < (skipMember c).rest.index

theorem loopsAdvance : LoopsAdvance where
  file fileNamespace late _ h := goesOn_fileItems fileNamespace late h
  namespaces full late _ h := goesOn_namespaceItems full late h
  members owner _ h := goesOn_memberList owner h
  enumNames _ h hgo := goesOn_enumMembers h hgo
  fields _ hgo := goesOn_moreFields hgo
  expressions := skips_skipExpression
  heads := skips_skipToBody
  attributes := skips_attributes
  suffixes := skips_typeSuffixes
  signs := skips_operatorSign
  recovery _ h he := skipMember_index_lt h he

/-- Whatever lexemes of a file the parser has passed, what it then looks up by index is
there, and no depth falls below zero. -/
structure ChecksSafely (ls : List Lexeme) : Prop where
  arguments : ∀ passed c, Cursor.Passes ⟨0, ls⟩ passed c →
    Indexed.qualifyingArguments? ls c = some (qualifyingArguments c)
  blocks : ∀ passed c, Cursor.Passes ⟨0, ls⟩ passed c → c.atPunct "\x7b" = true →
    Indexed.checkedBlock? ls Indexed.block c = some (checkedBlock Block.check c)
  accessors : ∀ passed c, Cursor.Passes ⟨0, ls⟩ passed c → c.atPunct "\x7b" = true →
    Indexed.checkedBlock? ls Indexed.accessors c = some (checkedBlock checkAccessors c)

theorem checksSafely (ls : List Lexeme) : ChecksSafely ls where
  arguments _ _ h := Indexed.qualifyingArguments?_eq (Indexed.standsOn_of_passes h)
  blocks _ _ h hb := Indexed.checkedBlock?_eq (Indexed.standsOn_of_passes h) hb
    fun _ _ hlt hlen _ => Indexed.block_eq hlt hlen
  accessors _ _ h hb := Indexed.checkedBlock?_eq (Indexed.standsOn_of_passes h) hb
    fun _ _ hlt hlen hz => Indexed.accessors_eq hlt hlen hz

/-- Parsing ends at the end of the source, and all that is found and reported stands at
tokens of it. -/
structure ReportsSafely (version : Language.Version) (s : Source) : Prop where
  ends : (parseFile (lexemes s.text)).rest = ⟨(lexemes s.text).length, []⟩
  marks : MarkedUpTo (parseFile (lexemes s.text)).found (lexemes s.text).length
  edges : ∀ e, OnBoundary s.text (edgeOffset ((tokens s.text).map (·.span)) s.text.utf8ByteSize e)
  diagnostics : ∀ d ∈ (parse version s).diagnostics, ∃ l, d.location = some l ∧ l.StandsIn s

theorem diagnostic_standsIn {version : Language.Version} {s : Source} {d : Diagnostic}
    (h : d ∈ (parse version s).diagnostics) : ∃ l, d.location = some l ∧ l.StandsIn s := by
  obtain ⟨hw, hr⟩ := walk_parseFile (lexemes s.text)
  rcases List.mem_append.1 (List.mem_mergeSort.1 h) with hd | hd
  · exact faults_standIn hd
  · rcases List.mem_filterMap.1 hd with ⟨x, hx, hsome⟩
    rw [map_lexeme_tokens] at hx
    rcases Option.map_eq_some_iff.1 hsome with ⟨e, -, rfl⟩
    have hmark := hw.passed.marked x hx
    have hin : Span.StandsIn ⟨edgeOffset ((tokens s.text).map (·.span)) s.text.utf8ByteSize
        x.mark.first, edgeOffset ((tokens s.text).map (·.span)) s.text.utf8ByteSize x.mark.last⟩
        s.text := by
      refine ⟨onBoundary_edgeOffset _ _, onBoundary_edgeOffset _ _, edgeOffset_le ?_⟩
      rcases hmark with ⟨i, -, hm⟩ | ⟨e, -, hm⟩
      · exact .inl ⟨i, hm⟩
      · exact .inr ⟨e, hm⟩
    exact ⟨_, rfl, hin.location⟩

/-- **Parsing never fails.**  Whatever the text, its index and the language version are:
the lexer reads between characters, every loop passes tokens, what is looked up by index
is there, and the parser ends at the end of the source with all it has to say placed in
the text. -/
theorem parse_never_fails (version : Language.Version) (s : Source) :
    ReadsSafely s.text ∧ LoopsAdvance ∧ ChecksSafely (lexemes s.text) ∧
      ReportsSafely version s := by
  obtain ⟨hw, hr⟩ := walk_parseFile (lexemes s.text)
  have hm := hw.passed.marked
  rw [hr] at hm
  refine ⟨readsSafely s.text, loopsAdvance, checksSafely (lexemes s.text), ?_⟩
  exact ⟨hr, hm, onBoundary_edgeOffset s.text, fun _ h => diagnostic_standsIn h⟩

end SyntaxTree
end Outline
