/-
# The two forms of a namespace

A namespace stands around a list of usings and types with a block, or it is file-scoped and
stands before them.  Both forms import and declare the same.  They agree on errors only where
nothing is imported: a using in a block is the first thing in its namespace, but after a
file-scoped namespace it comes too late.

| form | usings | types | errors |
| --- | --- | --- | --- |
| `namespace N { … }` | as listed | as listed, in `N` | none |
| `namespace N; …` | as listed | as listed, in `N` | `CS1529` for each using |
-/

import Outline.Proofs.Frame.Listing
import Outline.Proofs.Layout.Spelled
import Outline.Proofs.Lexer.Prefixes
import Outline.Proofs.SyntaxTree.Composition

namespace Outline

open Lexeme (mark)
open Lexer (Faultless pieces Reads reads_space reads_sign)
open Outline.Tree (reads_directive)
open Outline.Parser (Cause faults IsUsing IsType grouped)

/-- A text in a namespace with a block, on lines of its own. -/
def blockForm (name body : String) : String :=
  joined ("namespace " ++ name ++ " \x7b") (joined body "\x7d")

/-- A text after a file-scoped namespace, on lines of its own. -/
def fileForm (name body : String) : String := joined ("namespace " ++ name ++ ";") body

section

variable {name body : String}

/-- The head of the form with a block, up to its brace. -/
theorem reads_blockHead (h : Name.IsDotted name) :
    Reads (fun _ => true) ("namespace " ++ name ++ " \x7b")
      (.word "namespace" :: (lexemes name ++ [mark "\x7b"])) := by
  have hbrace : Reads (fun _ => true) (" " ++ "\x7b") ([] ++ [mark "\x7b"]) :=
    reads_space.onward (reads_sign (by decide))
  exact (reads_directive (s := "namespace") (by decide) h).before hbrace rfl (by decide)

/-- The head of the form for the file, up to its semicolon. -/
theorem reads_fileHead (h : Name.IsDotted name) :
    Reads (fun _ => true) ("namespace " ++ name ++ ";")
      (.word "namespace" :: (lexemes name ++ [mark ";"])) :=
  (reads_directive (s := "namespace") (by decide) h).before (reads_sign (s := ";") (by decide)) rfl
    (by decide)

/-- A text in a block without faults has none by itself. -/
theorem faultless_of_blockForm (h : Name.IsDotted name)
    (hf : Faultless (pieces true (blockForm name body).toList)) :
    Faultless (pieces true body.toList) := by
  rw [blockForm, toList_joined, Lexer.pieces_newline (reads_blockHead h).alone.1,
    Lexer.faultless_append, toList_joined] at hf
  have hinner := (List.forall_mem_cons.1 hf.2).2
  refine Lexer.faultless_of_append ⟨?_, by decide, by decide, by decide⟩ ?_ hinner
  · exact fun a ha => Option.some.inj ha ▸ by decide
  · exact fun a ha => Option.some.inj ha ▸ rfl

/-- The form with a block has a group in place of the rest. -/
theorem lexemes_blockForm (h : Name.IsDotted name) (hf : Faultless (pieces true body.toList)) :
    lexemes (blockForm name body)
      = .word "namespace" :: (lexemes name ++ grouped .brace (lexemes body)) := by
  have hbrace : lexemes "\x7d" = [mark "\x7d"] := by decide +kernel
  rw [blockForm, lexemes_joined (reads_blockHead h).alone.1, (reads_blockHead h).alone.2,
    lexemes_joined hf, hbrace, List.cons_append, List.append_assoc]
  rfl

/-- The form for the file has the rest behind its semicolon. -/
theorem lexemes_fileForm (h : Name.IsDotted name) :
    lexemes (fileForm name body)
      = .word "namespace" :: (lexemes name ++ mark ";" :: lexemes body) := by
  rw [fileForm, lexemes_joined (reads_fileHead h).alone.1, (reads_fileHead h).alone.2]
  simp

end

namespace SyntaxTree

open Outline.Language (Version)
open Outline.Parser (parseFile)

/-! ### Errors of the latest version -/

/-- The codes of errors are those of the faults. -/
theorem filter_isError (s : Source) : ((reported .latest s).filter (·.isError)).map (·.code)
    = (faults (findings s)).filterMap fun c => (c.diagnostic? .latest).map (·.code) := by
  rw [reported, List.filter_filterMap, List.map_filterMap, faults, List.filterMap_filter,
    List.filterMap_map]
  refine List.filterMap_congr fun x _ => ?_
  rw [Function.comp_apply, findingDiagnostic?]
  cases hc : x.cause with
  | needs feature =>
    rw [diagnostic?_needs]
    rfl
  | expected e => cases e <;> rfl
  | _ => rfl

/-- **In a text that the lexer takes**, the errors are the faults of the parser. -/
theorem codes_of_errors {s : Source} (h : Faultless (pieces true s.text.toList)) :
    (((parse .latest s).diagnostics.filter (·.isError)).map (·.code)).Perm
      ((faults (findings s)).filterMap fun c => (c.diagnostic? .latest).map (·.code)) := by
  have hperm := ((diagnostics_perm .latest s).filter (·.isError)).map (·.code)
  rwa [lexicalDiagnostics_eq_nil_iff.2 h, List.nil_append, filter_isError] at hperm

theorem hasErrors_eq_false_iff {t : SyntaxTree} :
    t.hasErrors = false ↔ t.diagnostics.filter (·.isError) = [] := by
  rw [hasErrors, List.any_eq_false, List.filter_eq_nil_iff]

/-! ### Both forms -/

variable {N B : String} {usings types : List (List Lexeme)}

theorem declares_parse {version : Version} {s : Source} {us : List String}
    {ss : List (TypeSymbol Unit)} (h : Parser.Declares us ss (parseFile (lexemes s.text)).value) :
    (parse version s).usings = us ∧ (parse version s).types.map (·.unplaced) = ss := by
  refine ⟨?_, ?_⟩
  · rw [parse, map_lexeme_tokens]
    exact h.usings
  · rw [map_unplaced_types, map_lexeme_tokens]
    exact h.types

theorem length_usingsOf (hu : ∀ part ∈ usings, IsUsing part) :
    (usings.flatMap Parser.usingsOf).length = usings.length := by
  induction usings with
  | nil => rfl
  | cons part parts ih =>
    obtain ⟨name, -, hname⟩ := (hu part List.mem_cons_self).imports
    rw [List.flatMap_cons, List.length_append, ih fun p hp => hu p (List.mem_cons_of_mem part hp),
      hname, List.length_cons]
    exact Nat.add_comm 1 _

/-- **The form with a block** declares all types in the namespace, and the usings with them. -/
theorem parse_blockForm (hN : Name.IsDotted N) (hbody : Faultless (pieces true B.toList))
    (hB : lexemes B = usings.flatten ++ types.flatten) (hu : ∀ part ∈ usings, IsUsing part)
    (ht : ∀ part ∈ types, IsType part) (index : Nat) :
    (parse .v12 ⟨blockForm N B, index⟩).usings = usings.flatMap Parser.usingsOf ∧
      (parse .v12 ⟨blockForm N B, index⟩).types.map (·.unplaced)
        = types.flatMap (Parser.typesOf N) := by
  obtain ⟨names, hne, rfl, hl⟩ := Parser.lexemes_dotted hN
  have hvalue := (Parser.yields_blockForm hu ht hne 0).value
  rw [List.append_nil, ← hl, ← hB, ← lexemes_blockForm hN hbody] at hvalue
  exact declares_parse hvalue

theorem yields_fileForm (hN : Name.IsDotted N) (hB : lexemes B = usings.flatten ++ types.flatten)
    (hu : ∀ part ∈ usings, IsUsing part) (ht : ∀ part ∈ types, IsType part) :
    Parser.Yields (Parser.fileItems none false) 0 (lexemes (fileForm N B)) []
      (Parser.Declares (usings.flatMap Parser.usingsOf) (types.flatMap (Parser.typesOf N)))
      (usings.map fun _ => .lateUsing) := by
  obtain ⟨names, hne, rfl, hl⟩ := Parser.lexemes_dotted hN
  rw [lexemes_fileForm hN, hl, hB]
  exact Parser.yields_fileForm hu ht hne 0

/-- **The form for the file** declares the same. -/
theorem parse_fileForm (hN : Name.IsDotted N) (hB : lexemes B = usings.flatten ++ types.flatten)
    (hu : ∀ part ∈ usings, IsUsing part) (ht : ∀ part ∈ types, IsType part) (index : Nat) :
    (parse .v12 ⟨fileForm N B, index⟩).usings = usings.flatMap Parser.usingsOf ∧
      (parse .v12 ⟨fileForm N B, index⟩).types.map (·.unplaced)
        = types.flatMap (Parser.typesOf N) := by
  have hvalue := (yields_fileForm hN hB hu ht).value
  rw [List.append_nil] at hvalue
  exact declares_parse hvalue

/-- Its errors are one `CS1529` for each using behind the namespace. -/
theorem codes_fileForm (hN : Name.IsDotted N) (hbody : Faultless (pieces true B.toList))
    (hB : lexemes B = usings.flatten ++ types.flatten) (hu : ∀ part ∈ usings, IsUsing part)
    (ht : ∀ part ∈ types, IsType part) (index : Nat) :
    ((parse .v12 ⟨fileForm N B, index⟩).diagnostics.filter (·.isError)).map (·.code)
      = List.replicate usings.length "CS1529" := by
  have hfound : faults (findings ⟨fileForm N B, index⟩) = usings.map fun _ => .lateUsing := by
    have := (yields_fileForm hN hB hu ht).found
    rw [List.append_nil] at this
    rw [findings, map_lexeme_tokens]
    exact this
  have hcodes := codes_of_errors (s := ⟨fileForm N B, index⟩)
    (faultless_joined (reads_fileHead hN).alone.1 hbody)
  rw [hfound, List.filterMap_map] at hcodes
  have hlate : usings.filterMap ((fun c : Cause => (c.diagnostic? .latest).map (·.code)) ∘
      fun _ => .lateUsing) = List.replicate usings.length "CS1529" :=
    (congrFun (List.filterMap_eq_map (f := fun _ => "CS1529")) usings).trans List.map_const'
  rw [hlate] at hcodes
  exact List.perm_replicate.1 hcodes

/-- **The two forms of a namespace agree, but for usings.**  Where a list of usings and types is
parsed without an error in a block, it is parsed to the same usings and types after a file-scoped
namespace.  There each using is an error, so there is none only where there are no usings. -/
theorem forms_agree {index : Nat} (hN : Name.IsDotted N)
    (hB : lexemes B = usings.flatten ++ types.flatten) (hu : ∀ part ∈ usings, IsUsing part)
    (ht : ∀ part ∈ types, IsType part)
    (h : (parse .v12 ⟨blockForm N B, index⟩).hasErrors = false) :
    let block := parse .v12 ⟨blockForm N B, index⟩
    let file := parse .v12 ⟨fileForm N B, index⟩
    file.usings = block.usings ∧ file.types.map (·.unplaced) = block.types.map (·.unplaced) ∧
      (file.diagnostics.filter (·.isError)).map (·.code)
        = List.replicate block.usings.length "CS1529" ∧
      (file.hasErrors = false ↔ block.usings = []) := by
  intro block file
  have hbody : Faultless (pieces true B.toList) :=
    faultless_of_blockForm hN (faultless_of_hasErrors (s := ⟨blockForm N B, index⟩) h)
  obtain ⟨hblockUsings, hblockTypes⟩ := parse_blockForm hN hbody hB hu ht index
  obtain ⟨hfileUsings, hfileTypes⟩ := parse_fileForm hN hB hu ht index
  have hcodes := codes_fileForm hN hbody hB hu ht index
  have hlength : block.usings.length = usings.length := by
    rw [hblockUsings, length_usingsOf hu]
  refine ⟨?_, ?_, ?_, ?_⟩
  · rw [hfileUsings, hblockUsings]
  · rw [hfileTypes, hblockTypes]
  · rw [hlength]
    exact hcodes
  · rw [hasErrors_eq_false_iff, ← List.map_eq_nil_iff (f := (·.code)), hcodes, ← hlength,
      List.replicate_eq_nil_iff, List.length_eq_zero_iff]

/-- Usings of two kinds, a type with an attribute and a member, and a delegate. -/
theorem forms_agree_listed :
    let usings := ["using System;", "using static A;"].map lexemes
    let types := ["[A] class C<T> \x7b int x; \x7d", "delegate void F();"].map lexemes
    let body := "using System;\nusing static A;\n[A] class C<T> \x7b int x; \x7d\n"
      ++ "delegate void F();"
    let block := parse .v12 ⟨blockForm "N.M" body, 0⟩
    let file := parse .v12 ⟨fileForm "N.M" body, 0⟩
    (Name.IsDotted "N.M" ∧ lexemes body = usings.flatten ++ types.flatten ∧
      (∀ part ∈ usings, IsUsing part) ∧ (∀ part ∈ types, IsType part) ∧
      block.hasErrors = false) ∧
    file.usings = block.usings ∧ file.types.map (·.unplaced) = block.types.map (·.unplaced) ∧
      (file.diagnostics.filter (·.isError)).map (·.code)
        = List.replicate block.usings.length "CS1529" ∧
      (file.hasErrors = false ↔ block.usings = []) := by
  intro usings types body block file
  have hN : Name.IsDotted "N.M" := ⟨["N", "M"], by decide +kernel⟩
  have hB : lexemes body = usings.flatten ++ types.flatten := by decide +kernel
  have hu : ∀ part ∈ usings, IsUsing part := by decide +kernel
  have ht : ∀ part ∈ types, IsType part := by decide +kernel
  have h : block.hasErrors = false := by decide +kernel
  exact ⟨⟨hN, hB, hu, ht, h⟩, forms_agree hN hB hu ht h⟩

/-- A using after a file-scoped namespace is an error, and in a block it is none. -/
theorem not_hasErrors_of_using :
    ¬∀ (N B : String) (index : Nat) (usings types : List (List Lexeme)), Name.IsDotted N →
      lexemes B = usings.flatten ++ types.flatten → (∀ part ∈ usings, IsUsing part) →
      (∀ part ∈ types, IsType part) → (parse .v12 ⟨blockForm N B, index⟩).hasErrors = false →
      (parse .v12 ⟨fileForm N B, index⟩).hasErrors = false := by
  intro h
  have hN : Name.IsDotted "N" := ⟨["N"], by decide +kernel⟩
  have hfile := h "N" "using System;\nclass A \x7b \x7d" 0 [lexemes "using System;"]
    [lexemes "class A \x7b \x7d"] hN (by decide +kernel) (by decide +kernel) (by decide +kernel)
    (by decide +kernel)
  exact absurd hfile (by decide +kernel)

end SyntaxTree

end Outline
