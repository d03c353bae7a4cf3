/-
# What a file-scoped namespace encloses

A file-scoped namespace stands in a file once, with nothing but usings before it.  It
encloses the types that follow it at the top level of the file.  It does not reach into the
namespaces that follow it with a block: there the path of the block is all that counts.

| item after `namespace N;` | namespace of its types |
| --- | --- |
| a type or a delegate | `N` |
| `namespace M { … }` | `M`, and `M.P` for a block `P` in it |
-/

import Outline.Proofs.Parser.Enclosure
import Outline.Proofs.SyntaxTree.Composition

namespace Outline

open Outline.Language (Version)
open Outline.Parser (Item Declared Inside Cursor fileItem itemStarts itemTypes namespacePath
  parseFile)

/-- The file-scoped namespaces that a source declares. -/
def Source.fileNamespaces (s : Source) : List String :=
  (parseFile (lexemes s.text)).value.filterMap (·.fileNamespace?)

theorem Source.mem_fileNamespaces {s : Source} {N : String} :
    N ∈ s.fileNamespaces ↔ Item.fileNamespace N ∈ (parseFile (lexemes s.text)).value := by
  constructor
  · intro h
    obtain ⟨i, hi, hN⟩ := List.mem_filterMap.1 h
    cases i with
    | fileNamespace =>
      obtain rfl := Option.some.inj hN
      exact hi
    | imported | type => cases hN
  · exact fun h => List.mem_filterMap.2 ⟨_, h, rfl⟩

namespace SyntaxTree

/-- The types that are declared by the item of a file that starts at the cursor `c`, where the
file is in the namespace `N`. -/
def typesAt (s : Source) (N : String) (c : Cursor) : List (TypeSymbol Nat) :=
  (itemTypes (fileItem (some N) true c).value).map
    (·.map (edgeOffset (spans s.text) s.text.utf8ByteSize))

theorem mem_typesAt {s : Source} {N : String} {c : Cursor} {d : Declared}
    (h : Item.type d ∈ (fileItem (some N) true c).value) :
    d.map (edgeOffset (spans s.text) s.text.utf8ByteSize) ∈ typesAt s N c :=
  List.mem_map_of_mem (List.mem_filterMap.2 ⟨_, h, rfl⟩)

theorem mem_types {version : Version} {s : Source} {t : TypeSymbol Nat}
    (h : t ∈ (parse version s).types) : ∃ d : Declared,
      Item.type d ∈ (parseFile (lexemes s.text)).value ∧
        t = d.map (edgeOffset (spans s.text) s.text.utf8ByteSize) := by
  rw [types_parse, map_lexeme_tokens] at h
  obtain ⟨d, hd, rfl⟩ := List.mem_map.1 h
  obtain ⟨i, hi, hid⟩ := List.mem_filterMap.1 hd
  cases i with
  | type t =>
    obtain rfl := Option.some.inj hid
    exact ⟨t, hi, rfl⟩
  | imported | fileNamespace => cases hid

/-- **A file-scoped namespace encloses the types that follow it**, and the blocks that follow it
stand by themselves.  In a source without errors it is declared once, after usings only.  Each
type is declared by an item of the file: if that is a namespace with a block, the type is in the
namespace of the block or in one inside it, and otherwise it is in the file-scoped one. -/
theorem fileNamespace_encloses {version : Version} {s : Source} {N : String}
    (h : (parse version s).hasErrors = false) (hN : N ∈ s.fileNamespaces) :
    s.fileNamespaces = [N] ∧
    (∃ usings members, (parseFile (lexemes s.text)).value = usings ++ .fileNamespace N :: members ∧
      ∀ i ∈ usings, ∃ name, i = .imported name) ∧
    ∀ t ∈ (parse version s).types, ∃ c ∈ itemStarts none false ⟨0, lexemes s.text⟩,
      t ∈ typesAt s N c ∧
        if c.atKeyword "namespace" = true then
          ∃ name, t.namespaceName = some name ∧ Inside (namespacePath c.next).value name
        else t.namespaceName = some N := by
  have hf := hasFault_of_hasErrors h
  rw [map_lexeme_tokens] at hf
  obtain ⟨usings, d, hitems, husings, hd, hsub⟩ :=
    Parser.split_fileItems _ hf (Source.mem_fileNamespaces.1 hN)
  have hat := Parser.at_of_mem_fileItems d hd
  refine ⟨?_, ⟨usings, _, hitems, husings⟩, fun t ht => ?_⟩
  · have hafter : (Parser.fileItems (some N) true d).value.filterMap (·.fileNamespace?) = [] :=
      List.filterMap_eq_nil_iff.2 fun i hi => by
        obtain ⟨e, -, -, hc⟩ := hat i hi
        exact hc.fileNamespace?_eq
    rw [Source.fileNamespaces, parseFile, hitems, List.filterMap_append,
      Parser.fileNamespaces_of_imported husings, List.nil_append]
    exact congrArg _ hafter
  · obtain ⟨e, he, rfl⟩ := mem_types ht
    have hmember : Item.type e ∈ (Parser.fileItems (some N) true d).value := by
      rw [parseFile, hitems] at he
      rcases List.mem_append.1 he with he | he
      · obtain ⟨name, hname⟩ := husings _ he
        cases hname
      · exact (List.mem_cons.1 he).resolve_left fun h => by cases h
    obtain ⟨c, hc, hin, hplace⟩ := hat _ hmember
    refine ⟨c, hsub c hc, mem_typesAt hin, ?_⟩
    rw [TypeSymbol.namespaceName_map]
    exact hplace

/-- A type, and two blocks one in the other, after a file-scoped namespace. -/
theorem fileNamespace_encloses_blocks :
    let s : Source := ⟨"using System; namespace N; class A \x7b \x7d "
      ++ "namespace M.O \x7b enum B \x7b \x7d namespace P \x7b class C \x7b \x7d \x7d \x7d", 0⟩
    ((parse .v12 s).hasErrors = false ∧ "N" ∈ s.fileNamespaces) ∧ s.fileNamespaces = ["N"] ∧
    (∃ usings members, (parseFile (lexemes s.text)).value
        = usings ++ .fileNamespace "N" :: members ∧ ∀ i ∈ usings, ∃ name, i = .imported name) ∧
    ∀ t ∈ (parse .v12 s).types, ∃ c ∈ itemStarts none false ⟨0, lexemes s.text⟩,
      t ∈ typesAt s "N" c ∧
        if c.atKeyword "namespace" = true then
          ∃ name, t.namespaceName = some name ∧ Inside (namespacePath c.next).value name
        else t.namespaceName = some "N" := by
  intro s
  have h : (parse .v12 s).hasErrors = false := by decide +kernel
  have hN : "N" ∈ s.fileNamespaces := by decide +kernel
  exact ⟨⟨h, hN⟩, fileNamespace_encloses h hN⟩

/-- The file-scoped namespace does not reach into a namespace with a block. -/
theorem not_inside_of_block :
    ¬∀ (version : Version) (s : Source) (N : String), (parse version s).hasErrors = false →
      N ∈ s.fileNamespaces →
      ∀ t ∈ (parse version s).types, ∃ name, t.namespaceName = some name ∧ Inside N name := by
  intro h
  let s : Source := ⟨"namespace N; namespace M \x7b class A \x7b \x7d \x7d", 0⟩
  have htypes : (parse .v12 s).types.map (·.namespaceName) = [some "M"] := by decide +kernel
  have hM : some "M" ∈ (parse .v12 s).types.map (·.namespaceName) :=
    htypes ▸ List.mem_singleton_self _
  obtain ⟨t, ht, hname⟩ := List.mem_map.1 hM
  obtain ⟨name, hn, hin⟩ := h .v12 s "N" (by decide +kernel) (by decide +kernel) t ht
  obtain rfl := Option.some.inj (hname.symm.trans hn)
  rcases hin with hin | ⟨path, hin⟩
  · exact absurd hin (by decide)
  · have hlist := congrArg String.toList hin
    simp at hlist

end SyntaxTree
end Outline
