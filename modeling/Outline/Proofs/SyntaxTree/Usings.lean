/-
# What a source imports

The usings of a source without errors are the texts of what stands in its using directives,
in the order in which these stand.  A directive ends with a semicolon, but what stands
before it need not be a name: all is accepted that holds no brace and no reserved word other
than the built-in types.

| source | usings |
| --- | --- |
| `using A.B; using static C;` | `A.B`, `C` |
| `using A(;` | `A(` |
| `using A` and `record R(int x);` on the next line | `ArecordR(intx)` |
-/

import Outline.Proofs.Parser.Level
import Outline.Proofs.Parser.Usings
import Outline.Proofs.SyntaxTree.Reports
import Outline.Proofs.SyntaxTree.Versions

namespace Outline

namespace Name

/-- Identifiers joined by dots or colons. -/
inductive IsQualified : String → Prop
  | name {s : String} (h : isIdentifier s = true) : IsQualified s
  | more {s sign t : String} (h : isIdentifier s = true) (hs : sign ∈ [".", "::"]) :
      IsQualified t → IsQualified (s ++ sign ++ t)

/-- The characters of identifiers, dots and colons. -/
theorem IsQualified.chars {s : String} (h : IsQualified s) :
    ∀ c ∈ s.toList, (Character.isWord c || c == '.' || c == ':') = true := by
  have ofName : ∀ s : String, isIdentifier s = true →
      ∀ c ∈ s.toList, (Character.isWord c || c == '.' || c == ':') = true := by
    intro s hs c hc
    obtain ⟨d, ds, hd, hstart, hword⟩ := Lexer.exists_of_isIdentifier hs
    have hw : Character.isWord c = true := by
      rcases List.mem_cons.1 (hd ▸ hc) with rfl | hc
      · exact Character.isWord_of_isNameStart hstart
      · exact hword c hc
    rw [hw]
    rfl
  have signs : ∀ sign ∈ [".", "::"],
      ∀ c ∈ sign.toList, (Character.isWord c || c == '.' || c == ':') = true := by
    intro sign hsign c hc
    have hboth : c = '.' ∨ c = ':' := by
      rcases List.mem_pair.1 hsign with rfl | rfl
      · exact .inl (List.mem_singleton.1 hc)
      · exact .inr (List.eq_of_mem_replicate (n := 2) hc)
    rcases hboth with rfl | rfl
    · rfl
    · rfl
  induction h with
  | name h => exact ofName _ h
  | more h hs _ ih =>
    intro c hc
    rw [String.toList_append, String.toList_append] at hc
    rcases List.mem_append.1 hc with hc | hc
    · rcases List.mem_append.1 hc with hc | hc
      · exact ofName _ h c hc
      · exact signs _ hs c hc
    · exact ih c hc

end Name

namespace SyntaxTree

open Outline.Parser

/-- Directives that are readable are accepted as a file. -/
theorem accepts_directives {ds : List Directive} (h : ∀ d ∈ ds, d.Readable) (i : Nat) :
    Accepts .features (fileItems none false) i (ds.flatMap (·.spelling)) []
      (· = ds.map fun d => .imported d.entry) := by
  induction ds generalizing i with
  | nil =>
    refine (accepts_fileEnd none false i).mono fun items h => ?_
    obtain ⟨ts, rfl, hts⟩ := h
    rw [List.map_eq_nil_iff.1 hts, List.map_nil, List.map_nil]
  | cons d ds ih =>
    have hd := h d List.mem_cons_self
    have hrest := ih (fun e he => h e (List.mem_cons_of_mem d he)) (i + d.spelling.length)
    rw [List.flatMap_cons]
    generalize ds.flatMap (·.spelling) = ls at hrest
    have hat := hd.atUsing_eq i (ls ++ [])
    have hitem : Accepts .features (fileItem none false) i d.spelling (ls ++ [])
        (· = [.imported d.entry]) := by
      refine .of_eq ((if_pos hat).trans (hd.usingDirective_eq i _)) rfl ?_
      cases d.isGlobal <;> rfl
    have hend : Cursor.atEnd ⟨i, d.spelling ++ (ls ++ [])⟩ = false := by
      rw [Directive.spelling]
      cases d.isGlobal <;> rfl
    have hgo := goesOn_fileItems none false hend
    rw [hitem.value, hat] at hgo
    exact .of_goesOn hgo hitem hrest fun as bs ha hb => by rw [ha, hb]; rfl

/-- **The usings of a source are those of its directives.**  In a source without errors each
using is the text of all that stands between the words and the semicolon of a directive, and
the directives stand in the order of the usings, none of them in another.  All directives
are accepted that go on to their semicolon over anything but braces and reserved words that
are no types, so what they import is a name only if this is one. -/
theorem usings_of_directives (version : Language.Version) (s : Source) :
    ((parse version s).hasErrors = false →
      ∃ ds : List Directive, (∀ d ∈ ds, d.Readable) ∧
        (parse version s).usings = ds.map (·.entry) ∧
          Spread (ds.map (·.spelling)) (lexemes s.text)) ∧
      ∀ ds : List Directive, (∀ d ∈ ds, d.Readable) → lexicalDiagnostics s = [] →
        lexemes s.text = ds.flatMap (·.spelling) →
          (parse .latest s).diagnostics = [] ∧ (parse .latest s).usings = ds.map (·.entry) := by
  constructor
  · intro hs
    have hf := hasFault_of_hasErrors hs
    rw [map_lexeme_tokens] at hf
    obtain ⟨ls, hpasses, ds, hds, husings, hspread⟩ :=
      takesImports_fileItems none false ⟨0, lexemes s.text⟩ hf
    have hend : (fileItems none false ⟨0, lexemes s.text⟩).rest.ahead = [] :=
      congrArg (·.ahead) (walk_parseFile (lexemes s.text)).2
    have hls : lexemes s.text = ls := by
      have := hpasses.ahead
      rwa [hend, List.append_nil] at this
    refine ⟨ds, hds, ?_, hls ▸ hspread⟩
    rw [usings_parse, map_lexeme_tokens]
    exact husings
  · intro ds hds hl hs
    have haccepts := accepts_directives hds 0
    have hparse : fileItems none false ⟨0, ds.flatMap (·.spelling) ++ []⟩
        = parseFile ((tokens s.text).map (·.lexeme)) := by
      rw [List.append_nil, map_lexeme_tokens, hs]
      rfl
    refine ⟨diagnostics_eq_nil (lexicalDiagnostics_eq_nil_iff.1 hl) ?_, ?_⟩
    · have hfound := haccepts.found
      rwa [hparse] at hfound
    · have hvalue := haccepts.value
      rw [hparse] at hvalue
      rw [usings_parse, hvalue, List.filterMap_map]
      exact congrFun List.filterMap_eq_map ds

/-- Directives of all kinds, and one whose name is none. -/
theorem usings_of_directives_mixed :
    let s : Source := ⟨"global using static A.B;\nusing C = int?[];\nusing D\nrecord R(int x);", 0⟩
    let ds : List Directive :=
      [⟨true, true, none, [.name "A", .mark ".", .name "B"]⟩,
        ⟨false, false, some "C", [.word "int", .mark "?", .mark "[", .mark "]"]⟩,
        ⟨false, false, none, [.name "D", .name "record", .name "R", .mark "(", .word "int",
          .name "x", .mark ")"]⟩]
    (∃ ds : List Directive, (∀ d ∈ ds, d.Readable) ∧
      (parse .v9 ⟨"namespace M \x7b using A(; class B \x7b \x7d \x7d", 0⟩).usings
          = ds.map (·.entry) ∧
        Spread (ds.map (·.spelling))
          (lexemes "namespace M \x7b using A(; class B \x7b \x7d \x7d")) ∧
      (∀ d ∈ ds, d.Readable) ∧ lexicalDiagnostics s = [] ∧
      lexemes s.text = ds.flatMap (·.spelling) ∧
      (parse .latest s).diagnostics = [] ∧ (parse .latest s).usings = ds.map (·.entry) := by
  refine ⟨(usings_of_directives .v9 _).1 (by decide +kernel), by decide +kernel,
    by decide +kernel, by decide +kernel, ?_⟩
  exact (usings_of_directives .v9 _).2 _ (by decide +kernel) (by decide +kernel)
    (by decide +kernel)

/-- **A using need not be a name.**  Where its semicolon is missing, the name takes in the
record on the next line. -/
theorem not_isQualified_of_accepted :
    ¬ ∀ (version : Language.Version) (s : Source), (parse version s).hasErrors = false →
      (∀ l ∈ lexemes s.text, l.isKeyword "static" = false ∧ l.isPunct "=" = false) →
        ∀ name ∈ (parse version s).usings, Name.IsQualified name := by
  intro h
  have hname := h .latest ⟨"using System\nrecord R(int x);", 0⟩ (by decide +kernel)
    (by decide +kernel) "SystemrecordR(intx)" (by decide +kernel)
  exact absurd (hname.chars '(' (by decide +kernel)) (by decide +kernel)

end SyntaxTree
end Outline
