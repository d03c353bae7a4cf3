/-
# Forests are recovered

A forest of declarations is printed with any white space between its lexemes.  The text
is parsed without a diagnostic, and the types of the tree are those of the forest: in the
order of writing, with their namespaces, arities, members and nested types.
-/

import Outline.Proofs.Forest.Accepted
import Outline.Proofs.Forest.Printed
import Outline.Proofs.SyntaxTree.Reports

namespace Outline
namespace Forest

open Outline.Parser (Accepts fileItems)

/-- **The parser recovers the forest** from the text that it is printed as. -/
theorem parse_printed (forest : List ItemTree) (s : Source)
    (h : Printed (ItemTree.spellAll forest) s.text) :
    let tree := SyntaxTree.parse .v12 s
    tree.diagnostics = [] ∧ tree.usings = [] ∧
      tree.types.map (·.unplaced) = ItemTree.allSymbols [] forest := by
  obtain ⟨hfaultless, hlexemes⟩ := lexemes_of_printed h
  have htokens : (tokens s.text).map (·.lexeme) = ItemTree.spellAll forest ++ [] := by
    rw [map_lexeme_tokens, hlexemes, List.append_nil]
  have hparse : Accepts .features (fileItems none false) 0 (ItemTree.spellAll forest) [] _ :=
    accepts_forest forest false 0
  refine ⟨SyntaxTree.diagnostics_eq_nil hfaultless ?_, ?_, ?_⟩
  · rw [SyntaxTree.findings, htokens]
    exact hparse.found
  · rw [SyntaxTree.parse, htokens]
    exact hparse.value.declares.usings
  · rw [SyntaxTree.map_unplaced_types, htokens]
    exact hparse.value.declares.types

/-! ### A forest with a type of each kind -/

/-- A namespace in a namespace, with types in types. -/
def shop : List ItemTree := [
  .namespace { text := "Shop" } [{ text := "Core" }] [
    .type (.classLike true .recordStruct { text := "Point" } [{ text := "T" }, { text := "U" }] [
      .fields (.builtin "int" (by decide)) { text := "x" } [{ text := "y" }],
      .property (.named { text := "T" }) { text := "Name" },
      .nested (.delegate (.builtin "void" (by decide)) { text := "Moved" } [{ text := "V" }]
        [⟨.named { text := "V" }, { text := "by" }⟩]),
      .nested (.classLike false .cls { text := "Inner" } [] [
        .method (.named { text := "U" }) { text := "Move" } [{ text := "V" }] []])]),
    .namespace { text := "Deep" } [] [
      .type (.enum true { text := "Color" } [{ text := "Red" }, { text := "Green" }])]],
  .type (.classLike false .record { text := "Empty" } [] []),
  .type (.classLike true .interface { text := "Shape" } [{ text := "T" }] [])]

theorem parse_printed_shop :
    let s : Source := ⟨spaced "\n\t" (ItemTree.spellAll shop), 0⟩
    let tree := SyntaxTree.parse .v12 s
    Printed (ItemTree.spellAll shop) s.text ∧ tree.diagnostics = [] ∧ tree.usings = [] ∧
      tree.types.map (·.unplaced) = [
        ⟨some "Shop.Core", "Point", 2, .recordStruct, true,
          [⟨.field, "x", false⟩, ⟨.field, "y", false⟩, ⟨.property, "Name", false⟩],
          [⟨none, "Moved", 1, .delegate, false, [], [], ()⟩,
            ⟨none, "Inner", 0, .cls, false, [⟨.method, "Move", false⟩], [], ()⟩], ()⟩,
        ⟨some "Shop.Core.Deep", "Color", 0, .enum, true,
          [⟨.enumMember, "Red", true⟩, ⟨.enumMember, "Green", true⟩], [], ()⟩,
        ⟨none, "Empty", 0, .record, false, [], [], ()⟩,
        ⟨none, "Shape", 1, .interface, true, [], [], ()⟩] :=
  have h : Printed (ItemTree.spellAll shop) (spaced "\n\t" (ItemTree.spellAll shop)) :=
    printed_spaced (List.all_eq_true.1 (by decide +kernel)) (by decide +kernel) _
  ⟨h, parse_printed shop _ h⟩

end Forest
end Outline
