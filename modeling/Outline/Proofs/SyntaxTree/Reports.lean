/-
# What a tree reports

The diagnostics of a tree are the faults of its lexer and what the parser adds to them.
The parser sees lexemes only, so nothing but the places of what it adds depends on how a
source is laid out.

| part | depends on |
| --- | --- |
| usings, types without places | lexemes |
| diagnostics that parsing adds, without locations | lexemes and version |
| faults of the lexer | pieces |
-/

import Mathlib.Data.Multiset.AddSub
import Mathlib.Data.Multiset.MapFold
import Outline.Proofs.Lexer.Reading
import Outline.Proofs.Parser.Acceptance
import Outline.SyntaxTree

namespace Outline

/-- A diagnostic without its location. -/
def Diagnostic.unlocated (d : Diagnostic) : Diagnostic := { d with location := none }

theorem Diagnostic.unlocated_at (d : Diagnostic) (l : Location) :
    (d.at l).unlocated = d.unlocated := rfl

namespace SyntaxTree

open Outline.Parser (Finding Tolerance parseFile)

/-- What the parser finds in a source. -/
def findings (s : Source) : List Finding := (parseFile ((tokens s.text).map (·.lexeme))).found

/-- What is reported of the findings. -/
def reported (version : Language.Version) (s : Source) : List Diagnostic :=
  (findings s).filterMap (findingDiagnostic? version s ((tokens s.text).map (·.span)))

/-- **A tree reports the faults of the lexer and what the parser finds**, in some order. -/
theorem diagnostics_perm (version : Language.Version) (s : Source) :
    (parse version s).diagnostics.Perm (lexicalDiagnostics s ++ reported version s) :=
  List.mergeSort_perm _ _

theorem hasErrors_eq (version : Language.Version) (s : Source) : (parse version s).hasErrors
    = ((lexicalDiagnostics s).any (·.isError) || (reported version s).any (·.isError)) := by
  rw [hasErrors, (diagnostics_perm version s).any_eq, List.any_append]

/-- What is reported of a finding is what its cause is reported as, at its place. -/
theorem findingDiagnostic?_map {β : Type} (version : Language.Version) (s : Source)
    (spans : List Span) (f : Diagnostic → β) (hf : ∀ d l, f (d.at l) = f d) (x : Finding) :
    (findingDiagnostic? version s spans x).map f = (x.cause.diagnostic? version).map f := by
  rw [findingDiagnostic?, Option.map_map]
  exact congrArg (fun g => Option.map g (x.cause.diagnostic? version)) (funext fun d => hf d _)

theorem map_reported {β : Type} (version : Language.Version) (s : Source) (f : Diagnostic → β)
    (hf : ∀ d l, f (d.at l) = f d) : (reported version s).map f
      = (findings s).filterMap fun x => (x.cause.diagnostic? version).map f := by
  rw [reported, List.map_filterMap]
  exact congrArg (fun g => List.filterMap g (findings s))
    (funext (findingDiagnostic?_map version s _ f hf))

/-! ### Sources that the latest version accepts -/

/-- The latest version has all features. -/
theorem diagnostic?_needs (feature : Language.Feature) :
    (Parser.Cause.needs feature).diagnostic? .latest = none := by cases feature <;> rfl

/-- What is no fault is no error in the latest version. -/
theorem isError_of_harmless {s : Source} (hf : Tolerance.harmless.covers (findings s) = true) :
    ∀ e ∈ reported .latest s, e.isError = false := by
  have harmless : ∀ x ∈ findings s, ∀ d, x.cause.diagnostic? .latest = some d →
      d.isError = false := by
    intro x hx d hd
    have hx := List.all_eq_true.1 hf x hx
    cases hc : x.cause with
    | needs feature => rw [hc, diagnostic?_needs] at hd; cases hd
    | unusedVariable | unreadVariable => rw [hc] at hd; cases hd; rfl
    | _ => simp [Tolerance.harmless, hc, Parser.Cause.isFault] at hx
  intro e he
  have hm : e.isError ∈ (reported .latest s).map (·.isError) := List.mem_map_of_mem he
  rw [map_reported .latest s (·.isError) fun _ _ => rfl, List.mem_filterMap] at hm
  obtain ⟨x, hx, hd⟩ := hm
  obtain ⟨d, hd, hde⟩ := Option.map_eq_some_iff.1 hd
  rw [← hde, harmless x hx d hd]

/-- A source without faults of the parser has the errors that its lexer finds. -/
theorem hasErrors_eq_of_harmless {s : Source}
    (hf : Tolerance.harmless.covers (findings s) = true) :
    (parse .latest s).hasErrors = (lexicalDiagnostics s).any (·.isError) := by
  have hnone : (reported .latest s).any (·.isError) = false :=
    List.any_eq_false.2 fun e he => by rw [isError_of_harmless hf e he]; exact Bool.false_ne_true
  rw [hasErrors_eq, hnone, Bool.or_false]

/-- **A source is accepted** if neither the lexer nor the parser finds a fault. -/
theorem hasErrors_of_harmless {s : Source}
    (hl : Lexer.Faultless (Lexer.pieces true s.text.toList))
    (hf : Tolerance.harmless.covers (findings s) = true) : (parse .latest s).hasErrors = false := by
  rw [hasErrors_eq_of_harmless hf, lexicalDiagnostics_eq_nil_iff.2 hl, List.any_nil]

/-- **Nothing is reported of a source** in which the lexer finds no fault and the parser
nothing but features. -/
theorem diagnostics_eq_nil {s : Source} (hl : Lexer.Faultless (Lexer.pieces true s.text.toList))
    (hf : Tolerance.features.covers (findings s) = true) :
    (parse .latest s).diagnostics = [] := by
  have hp := diagnostics_perm .latest s
  have hr : reported .latest s = [] := by
    rw [← List.map_eq_nil_iff (f := Diagnostic.unlocated), map_reported _ _ _ fun _ _ => rfl,
      List.filterMap_eq_nil_iff]
    intro x hx
    have hx := List.all_eq_true.1 hf x hx
    cases hc : x.cause with
    | needs feature => rw [diagnostic?_needs]; rfl
    | _ => simp [Tolerance.features, hc] at hx
  rw [lexicalDiagnostics_eq_nil_iff.2 hl, hr] at hp
  exact hp.eq_nil

/-! ### Semicolons that are missing -/

/-- A semicolon is reported as missing. -/
def ReportsSemicolon (version : Language.Version) (s : Source) : Prop :=
  ∃ d ∈ (parse version s).diagnostics, d.code = "CS1002"

theorem code_eq_semicolon {version : Language.Version} {cause : Parser.Cause} {d : Diagnostic}
    (h : cause.diagnostic? version = some d) : (d.code == "CS1002") = cause.isSemicolon := by
  cases cause with
  | expected e =>
    cases h
    cases e <;> rfl
  | needs feature =>
    rw [Parser.Cause.diagnostic?] at h
    split at h
    · cases h
    · cases h
      rfl
  | _ =>
    cases h
    rfl

/-- The lexer misses no semicolons. -/
theorem code_ne_semicolon {s : Source} {d : Diagnostic} (h : d ∈ lexicalDiagnostics s) :
    (d.code == "CS1002") = false := by
  obtain ⟨⟨f, span⟩, -, rfl⟩ := List.mem_map.1 h
  cases f <;> rfl

/-- **A semicolon is reported as missing** if and only if the parser finds that it is. -/
theorem reportsSemicolon_iff (version : Language.Version) (s : Source) :
    ReportsSemicolon version s ↔ (findings s).any (·.cause.isSemicolon) = true := by
  have hlexer : (lexicalDiagnostics s).any (·.code == "CS1002") = false :=
    List.any_eq_false.2 fun d hd => by rw [code_ne_semicolon hd]; exact Bool.false_ne_true
  have hparser : (reported version s).any (·.code == "CS1002")
      = (findings s).any (·.cause.isSemicolon) := by
    have hmap := congrArg (·.any id) (map_reported version s (·.code == "CS1002") fun _ _ => rfl)
    rw [List.any_map, Function.id_comp] at hmap
    rw [hmap, List.any_filterMap]
    refine congrArg (findings s).any (funext fun x => ?_)
    cases hd : x.cause.diagnostic? version with
    | none =>
      cases hc : x.cause with
      | expected e => rw [hc] at hd; cases hd
      | _ => rfl
    | some d => exact code_eq_semicolon hd
  have hany : ReportsSemicolon version s
      ↔ (parse version s).diagnostics.any (·.code == "CS1002") = true := by
    simp [ReportsSemicolon]
  rw [hany, (diagnostics_perm version s).any_eq, List.any_append, hlexer, Bool.false_or, hparser]

/-! ### Layout -/

/-- The diagnostics that parsing adds to those of the lexer. -/
def added (version : Language.Version) (s : Source) : Multiset Diagnostic :=
  ((parse version s).diagnostics : Multiset Diagnostic)
    - (lexicalDiagnostics s : Multiset Diagnostic)

theorem added_eq (version : Language.Version) (s : Source) :
    added version s = (reported version s : Multiset Diagnostic) := by
  rw [added, Multiset.coe_eq_coe.2 (diagnostics_perm version s), ← Multiset.coe_add,
    Multiset.add_comm, Multiset.add_sub_cancel_right]

theorem map_unlocated_added (version : Language.Version) (s : Source) :
    (added version s).map (·.unlocated)
      = ((findings s).filterMap fun x => (x.cause.diagnostic? version).map (·.unlocated)
          : List Diagnostic) := by
  rw [added_eq, Multiset.map_coe, map_reported version s (·.unlocated) Diagnostic.unlocated_at]

/-- The types of a tree are those that the parser declares, at other places. -/
theorem map_unplaced_types (version : Language.Version) (s : Source) :
    (parse version s).types.map (·.unplaced)
      = ((parseFile ((tokens s.text).map (·.lexeme))).value.filterMap (·.type?)).map
          (·.unplaced) := by
  rw [parse, List.map_map]
  exact List.map_congr_left fun t _ => TypeSymbol.unplaced_map _ t

/-- **Layout does not matter.**  Two sources with the same lexemes declare the same: they
have the same usings and, places apart, the same types at every depth.  Parsing adds the
same diagnostics to them, locations apart, so if the lexer finds no fault in either of
them, they are accepted or refused together. -/
theorem parse_eq_of_lexemes_eq (version : Language.Version) (s s' : Source)
    (h : (tokens s.text).map (·.lexeme) = (tokens s'.text).map (·.lexeme)) :
    (parse version s).usings = (parse version s').usings ∧
      (parse version s).types.map (·.unplaced) = (parse version s').types.map (·.unplaced) ∧
      (added version s).map (·.unlocated) = (added version s').map (·.unlocated) ∧
      (lexicalDiagnostics s = [] → lexicalDiagnostics s' = [] →
        (parse version s).hasErrors = (parse version s').hasErrors) := by
  have hf : findings s = findings s' := by rw [findings, findings, h]
  refine ⟨by rw [parse, parse, h], ?_, ?_, fun hs hs' => ?_⟩
  · rw [map_unplaced_types, map_unplaced_types, h]
  · rw [map_unlocated_added, map_unlocated_added, hf]
  · have hany : ∀ r : Source, (reported version r).any (·.isError)
        = ((reported version r).map (·.isError)).any id := fun r => by rw [List.any_map]; rfl
    rw [hasErrors_eq, hasErrors_eq, hs, hs', hany, hany, map_reported _ _ _ fun _ _ => rfl,
      map_reported _ _ _ fun _ _ => rfl, hf]

/-- Comments and line ends between the same lexemes change only where things stand. -/
theorem parse_eq_of_lexemes_eq_spaced :
    let s : Source := ⟨"using A; class B \x7b", 0⟩
    let s' : Source := ⟨"using\n\tA/* c */;class B // d\n \x7b", 1⟩
    (tokens s.text).map (·.lexeme) = (tokens s'.text).map (·.lexeme) ∧
      (parse .v12 s).usings = (parse .v12 s').usings ∧
      (parse .v12 s).types.map (·.unplaced) = (parse .v12 s').types.map (·.unplaced) ∧
      (added .v12 s).map (·.unlocated) = (added .v12 s').map (·.unlocated) ∧
      (lexicalDiagnostics s = [] → lexicalDiagnostics s' = [] →
        (parse .v12 s).hasErrors = (parse .v12 s').hasErrors) :=
  ⟨by decide +kernel, parse_eq_of_lexemes_eq .v12 _ _ (by decide +kernel)⟩

end SyntaxTree
end Outline
