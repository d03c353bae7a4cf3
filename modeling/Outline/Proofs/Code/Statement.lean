/-
# Statements that do not end

In a class of members with braces, the semicolon that ends the last statement of a block is
taken away.  The block may be the body of a method, the block of a statement in it, or that
of a lambda in an expression, at any depth.

| the statement ends in | without its semicolon |
| --- | --- |
| a lexeme such as a name, `)` or `]` | a semicolon is reported as missing |
| `}`, of an initializer or a lambda | nothing is reported that was not before |
-/

import Outline.Proofs.Code.Place
import Outline.Proofs.Parser.Unended

namespace Outline
namespace Code

open Outline.Parser
open Lexeme (mark)
open SyntaxTree (ReportsSemicolon)

/-- In a method a semicolon is reported as missing if and only if one is in its statements. -/
theorem Place.reportsSemicolon_method {p : Place} (h : p.WellFormed) {name : String}
    {parameters : List Lexeme} (hhead : p.head = .method name parameters) {ms : List Lexeme}
    (hm : WellNested ms) {s : Source} (hl : lexemes s.text = p.spelling ms)
    (version : Language.Version) :
    ReportsSemicolon version s ↔ checkStatements 0 (grouped .brace ms) ≠ [] := by
  have hq : ∀ i, (p.head.check ⟨i, grouped .brace ms⟩).any (·.cause.isSemicolon)
      = !(checkStatements 0 (grouped .brace ms)).isEmpty := by
    rw [hhead]
    exact fun _ => any_check _
  rw [reportsSemicolon_iff h hm hl hq version]
  simp

/-- **A semicolon that is taken away is reported as missing** unless the lexeme before it is a
brace or a colon; then nothing is reported that was not before.  The semicolon ends the last
statement of a block of statements, which starts after `opening` and ends before `rest`. -/
theorem reportsSemicolon_unended (version : Language.Version) {p : Place} (hp : p.WellFormed)
    {name : String} {parameters : List Lexeme} (hhead : p.head = .method name parameters)
    {opening statements last rest : List Lexeme} (ho : OpensBlock opening)
    (hs : WellNested statements) (hl : WellNested last) (hne : last ≠ []) (hr : ClosesBlock rest)
    (hbody : WellNested (opening ++ (statements ++ (last ++ rest)))) {ended unended : Source}
    (he : lexemes ended.text
      = p.spelling (opening ++ (statements ++ (last ++ mark ";" :: rest))))
    (hu : lexemes unended.text = p.spelling (opening ++ (statements ++ (last ++ rest)))) :
    ReportsSemicolon version unended ↔
      ReportsSemicolon version ended ∨ last.getLast?.any isStatementEdge = false := by
  have hended : WellNested (opening ++ (statements ++ (last ++ mark ";" :: rest))) := by
    have hsplit : ∀ ls, opening ++ (statements ++ (last ++ ls))
        = (opening ++ (statements ++ last)) ++ ls := by simp
    rw [hsplit, WellNested, nested_append] at hbody ⊢
    exact hbody
  rw [p.reportsSemicolon_method hp hhead hbody hu, p.reportsSemicolon_method hp hhead hended he,
    Ne, checkStatements_unended ho hs hl hne hr, Classical.not_and_iff_not_or_not,
    Bool.not_eq_true]

/-- The last statement in the block of a lambda, in a block after a head. -/
theorem reportsSemicolon_unended_lambda :
    let ended : Source := ⟨"class C \x7b int P \x7b get; \x7d void M(int a) \x7b if (a) \x7b "
      ++ "f(x => \x7b g(); h(); \x7d); \x7d \x7d \x7d", 0⟩
    let unended : Source := ⟨"class C \x7b int P \x7b get; \x7d void M(int a) \x7b if (a) \x7b "
      ++ "f(x => \x7b g(); h() \x7d); \x7d \x7d \x7d", 0⟩
    (SyntaxTree.parse .v12 ended).diagnostics = [] ∧ ReportsSemicolon .v12 unended := by
  intro ended unended
  let accessors : {ls // AccessorList ls} := ⟨_,
    .cons [] [] "get" nofun nofun (by decide) .absent .nil⟩
  let property : BracedMember := ⟨[], .builtin "int" (by decide), "P", .property accessors.1⟩
  have hproperty : property.WellFormed := ⟨nofun, ⟨rfl, nofun⟩, accessors.2⟩
  let p : Place := ⟨"C", [property], [], .builtin "void" (by decide),
    .method "M" (lexemes "int a"), []⟩
  have hparameters : WellNested (lexemes "int a") := by decide +kernel
  have hp : p.WellFormed :=
    ⟨List.forall_mem_singleton.2 hproperty, nofun, nofun, ⟨rfl, nofun⟩, hparameters⟩
  have hopens := OpensBlock.lambda (lexemes "if (a) \x7b f(x")
  have hstatements : WellNested (lexemes "g();") := by decide +kernel
  have hlast : WellNested (lexemes "h()") := by decide +kernel
  have hcloses : ClosesBlock (lexemes "\x7d); \x7d") := by decide +kernel
  have hiff := reportsSemicolon_unended .v12 hp rfl hopens hstatements hlast (by decide +kernel)
    hcloses (by decide +kernel) (show lexemes ended.text = _ by decide +kernel)
    (show lexemes unended.text = _ by decide +kernel)
  exact ⟨by decide +kernel, hiff.2 (.inr (by decide +kernel))⟩

/-- The brace of an initializer counts as the end of a statement. -/
theorem not_reportsSemicolon_of_initializer :
    ¬∀ (version : Language.Version) (p : Place) (name : String)
      (parameters opening statements last rest : List Lexeme) (ended unended : Source),
        p.WellFormed → p.head = .method name parameters → OpensBlock opening →
          EndsStatement statements → Expression [";"] last → last ≠ [] → ClosesBlock rest →
            WellNested (opening ++ (statements ++ (last ++ rest))) →
              lexemes ended.text
                  = p.spelling (opening ++ (statements ++ (last ++ mark ";" :: rest))) →
                lexemes unended.text = p.spelling (opening ++ (statements ++ (last ++ rest))) →
                  ReportsSemicolon version unended := by
  intro h
  let p : Place := ⟨"C", [], [], .builtin "void" (by decide), .method "M" [], []⟩
  have hp : p.WellFormed := ⟨nofun, nofun, nofun, ⟨rfl, nofun⟩, .nil⟩
  have hlast : Expression [";"] (lexemes "x = new P \x7b A = 1 \x7d") :=
    .of_wellNested (by decide +kernel) (by decide +kernel)
  obtain ⟨d, hd, -⟩ := h .v12 p "M" [] [] [] _ []
    ⟨"class C \x7b void M() \x7b x = new P \x7b A = 1 \x7d; \x7d \x7d", 0⟩
    ⟨"class C \x7b void M() \x7b x = new P \x7b A = 1 \x7d \x7d \x7d", 0⟩ hp rfl .body (by decide)
    hlast (by decide +kernel) (by decide) (by decide +kernel) (by decide +kernel)
    (by decide +kernel)
  have hnone : (SyntaxTree.parse .v12
      ⟨"class C \x7b void M() \x7b x = new P \x7b A = 1 \x7d \x7d \x7d", 0⟩).diagnostics = [] := by
    decide +kernel
  rw [hnone] at hd
  cases hd

end Code
end Outline
