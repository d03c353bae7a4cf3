/-
# External aliases without a semicolon

A source that starts with an external alias that lacks its semicolon is parsed as what the
alias leaves of it.  What it hides is neither declared nor reported.

| source | declared | reported |
| --- | --- | --- |
| `extern alias X` and `class A { }` on the next line | nothing | nothing |
| `extern alias X` and `using A; class B { }` on the next line | `B` | nothing |
| `extern alias X` and `class A { } )` on the next line | nothing | `)` |
-/

import Outline.Proofs.Parser.Aliases
import Outline.Proofs.Renaming.Files
import Outline.Proofs.SyntaxTree.Composition

namespace Outline

open Outline.Parser
open Outline.Language (Version)
open Outline.Lexer (Faultless pieces)

namespace Parser

/-! ### Behind other lexemes -/

namespace Renaming

/-- Sources with the same lexemes, the second behind others. -/
def behind (n : Nat) : Renaming where
  before := n
  Same := Eq
  kind h := h ▸ rfl
  text h _ := h ▸ rfl
  unique h _ h' _ := by rw [h, h']
  words h _ _ _ := by rw [h]
  mentions h _ h' _ := by rw [h, h']
  dot := rfl

theorem eq_of_forall₂ {α : Type} {R : α → α → Prop} (h : ∀ a b, R a b → a = b) {as bs : List α}
    (hs : List.Forall₂ R as bs) : as = bs := by
  rw [← List.forall₂_eq_eq_eq]
  exact hs.imp h

variable {n : Nat}

theorem eq_of_spells {s t : String} (h : (behind n).Spells s t) : s = t := by
  obtain ⟨ls, ms, hls, rfl, rfl⟩ := h
  rw [eq_of_forall₂ (fun _ _ => id) hls]

theorem eq_of_named {s t : String} (h : (behind n).Named s t) : s = t := by
  rcases h with ⟨rfl, rfl⟩ | ⟨l, m, rfl, -, rfl, rfl⟩
  · rfl
  · rfl

theorem eq_of_sameMember {m m' : MemberSymbol} (h : (behind n).SameMember m m') : m = m' := by
  obtain ⟨kind, name, isStatic⟩ := m
  obtain ⟨kind', name', isStatic'⟩ := m'
  obtain ⟨rfl, rfl, hname⟩ := h
  obtain rfl : name = name' := by
    dsimp only at hname
    split at hname
    · exact eq_of_spells hname
    · exact hname
  rfl

mutual

/-- A type is the same behind other lexemes but for where it stands. -/
theorem unplaced_eq : ∀ t u : Declared, (behind n).Alike t u → t.unplaced = u.unplaced
  | ⟨_, _, _, _, _, _, nested, _⟩, _, .mk namespaces names same inside => by
    rw [TypeSymbol.unplaced, TypeSymbol.unplaced, TypeSymbol.map, TypeSymbol.map,
      eq_of_named names, eq_of_forall₂ (fun _ _ => eq_of_sameMember) same,
      mapAll_eq nested _ inside]
    cases namespaces with
    | none => rfl
    | some h => rw [eq_of_spells h]

theorem mapAll_eq : ∀ ts us : List Declared, List.Forall₂ (behind n).Alike ts us →
    TypeSymbol.mapAll (fun _ => ()) ts = TypeSymbol.mapAll (fun _ => ()) us
  | [], _, .nil => rfl
  | t :: ts, _, .cons h hs => by
    rw [TypeSymbol.mapAll, TypeSymbol.mapAll, mapAll_eq ts _ hs]
    exact congrArg (· :: _) (unplaced_eq t _ h)

end

end Renaming

/-- **A file is parsed behind other lexemes** as it is by itself. -/
theorem fileItems_behind (n : Nat) (ls : List Lexeme) :
    (fileItems none false ⟨n, ls⟩).value.filterMap (·.imported?)
        = (parseFile ls).value.filterMap (·.imported?) ∧
      (itemTypes (fileItems none false ⟨n, ls⟩).value).map (·.unplaced)
        = (itemTypes (parseFile ls).value).map (·.unplaced) ∧
      (fileItems none false ⟨n, ls⟩).found.map (·.cause.unquoted)
        = (parseFile ls).found.map (·.cause.unquoted) := by
  have hboth : (Renaming.behind n).Beside ⟨0, ls⟩ ⟨n, ls⟩ :=
    ⟨rfl, List.forall₂_same.2 fun _ _ => rfl⟩
  have hrun := Renaming.runs_fileItems (r := .behind n) .none false ⟨0, ls⟩ ⟨n, ls⟩ hboth
  refine ⟨?_, ?_, ?_⟩
  · exact (Renaming.eq_of_forall₂ (fun _ _ => Renaming.eq_of_spells)
      (Renaming.imported_rel hrun.value)).symm
  · rw [← List.forall₂_eq_eq_eq, List.forall₂_map_left_iff, List.forall₂_map_right_iff]
    exact (Renaming.type_rel hrun.value).flip.imp fun t u h => (Renaming.unplaced_eq u t h).symm
  · rw [← List.forall₂_eq_eq_eq, List.forall₂_map_left_iff, List.forall₂_map_right_iff]
    exact hrun.found.flip.imp fun _ _ h => h.cause.symm

/-- Whether a cause is an error in a version. -/
def Cause.isError (version : Version) (c : Cause) : Bool :=
  (c.diagnostic? version).any (·.isError)

theorem Cause.isError_unquoted (version : Version) (c : Cause) :
    c.unquoted.isError version = c.isError version := by
  have htold : ∀ o : Option Diagnostic, (o.map (·.untold)).any (·.isError) = o.any (·.isError) :=
    fun o => by cases o <;> rfl
  rw [Cause.isError, Cause.isError, ← htold, Cause.untold_diagnostic?, htold]

/-- Whether lexemes are parsed without errors. -/
def accepts (version : Version) (ls : List Lexeme) : Bool :=
  !(parseFile ls).found.any (·.cause.isError version)

/-- **A source that starts with an alias** is parsed as what the alias leaves of it. -/
theorem parseFile_alias {hidden rest : List Lexeme} (h : Hides hidden rest) (name : String) :
    parseFile (aliasSpelling name ++ (hidden ++ rest))
      = fileItems none false ⟨0 + 3 + hidden.length, rest⟩ := by
  rw [parseFile, fileItems_alias, skipMember_of_hides h]
  rfl

theorem accepts_alias {hidden rest : List Lexeme} (h : Hides hidden rest) (name : String)
    (version : Version) :
    accepts version (aliasSpelling name ++ (hidden ++ rest)) = accepts version rest := by
  have hcauses : ∀ fs : List Finding, fs.any (·.cause.isError version)
      = (fs.map (·.cause.unquoted)).any (·.isError version) := fun fs => by
    rw [List.any_map]
    exact congrArg (fs.any ·) (funext fun x => (x.cause.isError_unquoted version).symm)
  rw [accepts, accepts, parseFile_alias h, hcauses, (fileItems_behind _ rest).2.2, ← hcauses]

/-- An alias hides something if nothing is found to be wrong. -/
theorem hides_of_not_hasFault {name : String} {ls : List Lexeme}
    (h : hasFault (parseFile (aliasSpelling name ++ ls)).found = false) :
    ∃ hidden rest, ls = hidden ++ rest ∧ Hides hidden rest := by
  rw [parseFile, fileItems_alias] at h
  obtain ⟨hskip, hmore⟩ := hasFault_append_eq_false.1 h
  obtain ⟨hidden, rest, hls, hhides | ⟨hrest, l, after, b, rfl, hb⟩⟩ := exists_hides hskip
  · exact ⟨hidden, rest, hls, hhides⟩
  · generalize (skipMember ⟨0, aliasSpelling name ++ ls⟩).rest = c at hrest hmore
    obtain ⟨i, ms⟩ := c
    subst hrest
    exact absurd ((hasFault_fileItems_of_closer hb).symm.trans hmore) Bool.noConfusion

end Parser

namespace SyntaxTree

/-- A source without faults of the lexer has errors if its lexemes have. -/
theorem hasErrors_of_faultless (version : Version) {s : Source}
    (h : Faultless (pieces true s.text.toList)) :
    (parse version s).hasErrors = !accepts version (lexemes s.text) := by
  have hreported : (reported version s).any (·.isError)
      = (findings s).any (·.cause.isError version) := by
    have hmap := congrArg (·.any id) (map_reported version s (·.isError) fun _ _ => rfl)
    rw [List.any_map, Function.id_comp, List.any_filterMap] at hmap
    rw [hmap]
    refine congrArg (findings s).any (funext fun x => ?_)
    rw [Cause.isError]
    cases x.cause.diagnostic? version <;> rfl
  rw [hasErrors_eq, lexicalDiagnostics_eq_nil_iff.2 h, List.any_nil, Bool.false_or, hreported,
    accepts, Bool.not_not, findings, map_lexeme_tokens]

/-- The lexemes of an external alias that is written in a line. -/
theorem reads_alias {name : String} (h : Name.IsWritten name) :
    Lexer.Reads Lexer.endsWord ("extern alias " ++ name) (aliasSpelling (Name.unescape name)) := by
  have hwords : lexemes "extern alias" = [.word "extern", .name "alias"] := by decide +kernel
  have hread := (Lexer.reads_spaced (s := "extern alias") (by decide +kernel)).onward
    (Lexer.reads_written h)
  rwa [hwords] at hread

/-- **An external alias without a semicolon hides declarations.**  A source without errors
after such an alias on a line of its own is parsed as what the alias leaves of it: the
usings and types are those of the lexemes that are left, and nothing is reported as an error
if nothing is of these.  What the alias hides goes up to the next semicolon outside of
brackets; without one it is all. -/
theorem parse_unterminated_alias (version : Version) {name text : String} (index : Nat)
    (hname : Name.IsWritten name) (htext : (parse version ⟨text, index⟩).hasErrors = false) :
    let whole := parse version ⟨"extern alias " ++ name ++ "\n" ++ text, index⟩
    (whole.hasErrors = false ↔ ∃ hidden rest, lexemes text = hidden ++ rest ∧
        Hides hidden rest ∧ accepts version rest = true) ∧
      ∀ hidden rest, lexemes text = hidden ++ rest → Hides hidden rest →
        whole.usings = (parseFile rest).value.filterMap (·.imported?) ∧
          whole.types.map (·.unplaced)
            = (itemTypes (parseFile rest).value).map (·.unplaced) := by
  obtain ⟨hfirst, hspelling⟩ := (reads_alias hname).alone
  have hsecond : Faultless (pieces true text.toList) := faultless_of_hasErrors htext
  have hlexemes : lexemes (joined ("extern alias " ++ name) text)
      = aliasSpelling (Name.unescape name) ++ lexemes text := by
    rw [lexemes_joined hfirst, hspelling]
  have herrors := hasErrors_of_faultless version (s := ⟨joined _ text, index⟩)
    (faultless_joined hfirst hsecond)
  intro whole
  change whole.hasErrors = _ at herrors
  rw [hlexemes] at herrors
  refine ⟨⟨fun h => ?_, ?_⟩, ?_⟩
  · have hfault : hasFault (parseFile ((tokens (joined _ text)).map (·.lexeme))).found = false :=
      hasFault_of_hasErrors (s := ⟨joined _ text, index⟩) h
    rw [map_lexeme_tokens, hlexemes] at hfault
    obtain ⟨hidden, rest, hls, hhides⟩ := hides_of_not_hasFault hfault
    rw [h, hls, accepts_alias hhides] at herrors
    exact ⟨hidden, rest, hls, hhides, by simpa using herrors⟩
  · rintro ⟨hidden, rest, hls, hhides, haccepts⟩
    rw [herrors, hls, accepts_alias hhides, haccepts]
    rfl
  · intro hidden rest hls hhides
    rw [hls] at hlexemes
    have hfile : parseFile ((tokens (joined ("extern alias " ++ name) text)).map (·.lexeme))
        = fileItems none false ⟨0 + 3 + hidden.length, rest⟩ := by
      rw [map_lexeme_tokens, hlexemes, parseFile_alias hhides]
    obtain ⟨husings, htypes, -⟩ := fileItems_behind (0 + 3 + hidden.length) rest
    constructor
    · rw [← husings, ← hfile]
      exact usings_parse version _
    · rw [← htypes, ← hfile, types_parse, List.map_map]
      exact List.map_congr_left fun t _ => TypeSymbol.unplaced_map _ t

/-- An alias that hides a using, and leaves a type. -/
theorem parse_unterminated_alias_using :
    let text := "using A; class B \x7b \x7d"
    let whole := parse .v12 ⟨"extern alias " ++ "@X" ++ "\n" ++ text, 3⟩
    let hidden := [Lexeme.word "using", .name "A", .mark ";"]
    let rest := [Lexeme.word "class", .name "B", .mark "\x7b", .mark "\x7d"]
    (Name.IsWritten "@X" ∧ (parse .v12 ⟨text, 3⟩).hasErrors = false) ∧
      (lexemes text = hidden ++ rest ∧ Hides hidden rest ∧ accepts .v12 rest = true) ∧
      whole.hasErrors = false ∧ whole.usings = [] ∧
        whole.types.map (·.unplaced) = (itemTypes (parseFile rest).value).map (·.unplaced) := by
  intro text whole hidden rest
  have hname : Name.IsWritten "@X" := by decide +kernel
  have htext : (parse .v12 ⟨text, 3⟩).hasErrors = false := by decide +kernel
  have hls : lexemes text = hidden ++ rest := by decide +kernel
  have hhides : Hides hidden rest := .closed (.plain rfl rfl <| .plain rfl rfl .nil) rest
  have haccepts : accepts .v12 rest = true := by decide +kernel
  obtain ⟨herrors, hleft⟩ := parse_unterminated_alias .v12 3 hname htext
  obtain ⟨husings, htypes⟩ := hleft hidden rest hls hhides
  exact ⟨⟨hname, htext⟩, ⟨hls, hhides, haccepts⟩, herrors.2 ⟨hidden, rest, hls, hhides, haccepts⟩,
    husings.trans (by decide +kernel), htypes⟩

/-- **An external alias without a semicolon can hide a type** without an error. -/
theorem not_declared_after_unterminated_alias :
    ¬ ∀ (version : Version) (name text : String) (index : Nat), Name.IsWritten name →
      (parse version ⟨text, index⟩).hasErrors = false →
        let whole := parse version ⟨"extern alias " ++ name ++ "\n" ++ text, index⟩
        whole.hasErrors = true ∨
          whole.types.map (·.unplaced)
            = (parse version ⟨text, index⟩).types.map (·.unplaced) := by
  intro h
  have hdeclared := h .latest "X" "class A \x7b \x7d" 0 (by decide +kernel) (by decide +kernel)
  have hnone : (parse .latest ⟨"extern alias " ++ "X" ++ "\n" ++ "class A \x7b \x7d", 0⟩).hasErrors
      = false := by decide +kernel
  rcases hdeclared with herror | htypes
  · exact absurd (herror.symm.trans hnone) Bool.noConfusion
  · have hlength := congrArg List.length htypes
    revert hlength
    decide +kernel

end SyntaxTree
end Outline
