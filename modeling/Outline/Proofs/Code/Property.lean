/-
# Accessors that do not end

In a class of members with braces, the semicolon that ends an accessor of a property or an
indexer is taken away.

| accessor | without its semicolon |
| --- | --- |
| `get;` | a semicolon is reported as missing |
| `get => E;` before `[A]`, a modifier or the end | a semicolon is reported as missing |
| `get => E;` after whose `E` an accessor is recognised | a semicolon is reported as missing |
| `get => E;` before an accessor with a block | a semicolon is reported as missing |
| `get => E;` else | nothing is reported that was not before |
-/

import Outline.Proofs.Code.Place
import Outline.Proofs.Parser.Unfinished

namespace Outline
namespace Code

open Outline.Parser
open Lexeme (mark)
open SyntaxTree (ReportsSemicolon)

/-- Whether accessors stand in the braces of a member. -/
def BracedHead.hasAccessors : BracedHead → Bool
  | method _ _ => false
  | property _ | indexer _ => true

/-- Of accessors a semicolon is reported as missing if and only if their check misses one. -/
theorem Place.reportsSemicolon_accessors {p : Place} (h : p.WellFormed)
    (hhead : p.head.hasAccessors = true) {ms : List Lexeme} (hm : WellNested ms) {s : Source}
    (hl : lexemes s.text = p.spelling ms) (version : Language.Version) :
    ReportsSemicolon version s ↔ AccessorState.Misses {} ms := by
  have hcheck : p.head.check = checkAccessors := by
    cases hp : p.head with
    | method =>
      rw [hp] at hhead
      cases hhead
    | property | indexer => rfl
  have hany : ∀ i, (p.head.check ⟨i, grouped .brace ms⟩).any (·.cause.isSemicolon)
      = (checkAccessors ⟨0, grouped .brace ms⟩).any (·.cause.isSemicolon) := by
    intro i
    rw [hcheck, Bool.eq_iff_iff, any_checkAccessors, any_checkAccessors]
  rw [reportsSemicolon_iff h hm hl hany version, any_checkAccessors]

/-- **A semicolon that is taken away from an accessor is reported as missing** unless the
accessor and the next one are taken for one; then nothing is reported that was not before. -/
theorem reportsSemicolon_unendedAccessor (version : Language.Version) {p : Place}
    (hp : p.WellFormed) (hhead : p.head.hasAccessors = true) {before after : List Accessor}
    {a : Accessor} (hb : ∀ b ∈ before, b.WellFormed) (ha : a.WellFormed)
    (hs : a.finish.hasSemicolon = true) (h : ∀ b ∈ after, b.WellFormed) {ended unended : Source}
    (he : lexemes ended.text
      = p.spelling (before.flatMap (·.spelling) ++ (a.spelling ++ after.flatMap (·.spelling))))
    (hu : lexemes unended.text
      = p.spelling (before.flatMap (·.spelling) ++ (a.unended ++ after.flatMap (·.spelling)))) :
    ReportsSemicolon version unended ↔
      ReportsSemicolon version ended ∨ a.joins after = false := by
  have hbefore : WellNested (before.flatMap (·.spelling)) :=
    .flatMap fun b hmem => (hb b hmem).wellNested.1
  have hafter : WellNested (after.flatMap (·.spelling)) :=
    .flatMap fun b hmem => (h b hmem).wellNested.1
  obtain ⟨hended, hunended⟩ := ha.wellNested
  rw [p.reportsSemicolon_accessors hp hhead (hbefore.append (hunended.append hafter)) hu,
    p.reportsSemicolon_accessors hp hhead (hbefore.append (hended.append hafter)) he]
  exact misses_unended_between hb ha hs h

/-- An expression before an accessor with a modifier. -/
theorem reportsSemicolon_unendedAccessor_modifier :
    let ended : Source := ⟨"class C \x7b int this[int i] \x7b [A] get => f(i); private set; \x7d "
      ++ "\x7d", 0⟩
    let unended : Source := ⟨"class C \x7b int this[int i] \x7b [A] get => f(i) private set; \x7d "
      ++ "\x7d", 0⟩
    (SyntaxTree.parse .v12 ended).diagnostics = [] ∧ ReportsSemicolon .v12 unended := by
  intro ended unended
  have hparameters : WellNested (lexemes "int i") := by decide +kernel
  let p : Place := ⟨"C", [], [], .builtin "int" (by decide), .indexer (lexemes "int i"), []⟩
  have hp : p.WellFormed := ⟨nofun, nofun, nofun, ⟨rfl, nofun⟩, hparameters⟩
  let a : Accessor := ⟨[lexemes "A"], [], "get", .expression (lexemes "f(i)")⟩
  let b : Accessor := ⟨[], ["private"], "set", .semicolon⟩
  have hcode : Expression [";"] (lexemes "f(i)") :=
    .of_wellNested (by decide +kernel) (by decide +kernel)
  have ha : a.WellFormed := ⟨by decide +kernel, nofun, by decide, hcode, by decide +kernel⟩
  have hb : ∀ c ∈ [b], c.WellFormed :=
    List.forall_mem_singleton.2 ⟨nofun, by decide, by decide, trivial⟩
  have hbefore : ∀ c ∈ ([] : List Accessor), c.WellFormed := nofun
  have hiff := reportsSemicolon_unendedAccessor .v12 hp rfl hbefore ha rfl hb
    (show lexemes ended.text = _ by decide +kernel)
    (show lexemes unended.text = _ by decide +kernel)
  exact ⟨by decide +kernel, hiff.2 (.inr (by decide +kernel))⟩

/-- The word of an accessor is taken for one of the expression before it. -/
theorem not_reportsSemicolon_of_name :
    ¬∀ (version : Language.Version) (p : Place) (before after : List Accessor) (a : Accessor)
      (ended unended : Source),
        p.WellFormed → p.head.hasAccessors = true → (∀ b ∈ before, b.WellFormed) → a.WellFormed →
          a.finish.hasSemicolon = true → (∀ b ∈ after, b.WellFormed) →
            lexemes ended.text = p.spelling
                (before.flatMap (·.spelling) ++ (a.spelling ++ after.flatMap (·.spelling))) →
              lexemes unended.text = p.spelling
                  (before.flatMap (·.spelling) ++ (a.unended ++ after.flatMap (·.spelling))) →
                ReportsSemicolon version unended := by
  intro h
  let p : Place := ⟨"C", [], [], .builtin "int" (by decide), .property "P", []⟩
  have hp : p.WellFormed := ⟨nofun, nofun, nofun, ⟨rfl, nofun⟩, trivial⟩
  let a : Accessor := ⟨[], [], "get", .expression (lexemes "x")⟩
  let b : Accessor := ⟨[], [], "set", .semicolon⟩
  have hcode : Expression [";"] (lexemes "x") :=
    .of_wellNested (by decide +kernel) (by decide +kernel)
  obtain ⟨d, hd, -⟩ := h .v12 p [] [b] a ⟨"class C \x7b int P \x7b get => x; set; \x7d \x7d", 0⟩
    ⟨"class C \x7b int P \x7b get => x set; \x7d \x7d", 0⟩ hp rfl nofun
    ⟨nofun, nofun, by decide, hcode, by decide +kernel⟩ rfl
    (List.forall_mem_singleton.2 ⟨nofun, nofun, by decide, trivial⟩) (by decide +kernel)
    (by decide +kernel)
  have hnone : (SyntaxTree.parse .v12
      ⟨"class C \x7b int P \x7b get => x set; \x7d \x7d", 0⟩).diagnostics = [] := by
    decide +kernel
  rw [hnone] at hd
  cases hd

end Code
end Outline
