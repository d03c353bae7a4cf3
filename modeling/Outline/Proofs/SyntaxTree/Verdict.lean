/-
# Accepted and refused files

What the parser makes of the lexemes of a source decides what becomes of the source: if they
are accepted as a file, the source has the usings and the types of the file and no errors; if
they are refused, it has errors.  The lexer may find faults of its own.
-/

import Outline.Proofs.Parser.Level
import Outline.Proofs.Parser.Refusal
import Outline.Proofs.SyntaxTree.Reports

namespace Outline
namespace SyntaxTree

open Outline.Parser (Accepts Refuses Tolerance fileItems)

variable {s : Source}

/-- A source has what its lexemes declare as a file, and what is found is tolerated. -/
theorem declares_file {t : Tolerance} {usings : List String} {types : List (TypeSymbol Unit)}
    (h : Accepts t (fileItems none false) 0 (lexemes s.text) [] (Parser.Declares usings types))
    (version : Language.Version) :
    t.covers (findings s) = true ∧ (parse version s).usings = usings ∧
      (parse version s).types.map (·.unplaced) = types := by
  have hlexemes : (tokens s.text).map (·.lexeme) = lexemes s.text ++ [] := by
    rw [map_lexeme_tokens, List.append_nil]
  refine ⟨?_, ?_, ?_⟩
  · rw [findings, hlexemes]
    exact h.found
  · rw [parse, hlexemes]
    exact h.value.usings
  · rw [map_unplaced_types, hlexemes]
    exact h.value.types

/-- **A source without faults of the lexer is accepted** if its lexemes are. -/
theorem accepted_file {usings : List String} {types : List (TypeSymbol Unit)}
    (hl : Lexer.Faultless (Lexer.pieces true s.text.toList))
    (h : Accepts .harmless (fileItems none false) 0 (lexemes s.text) []
      (Parser.Declares usings types)) :
    (parse .latest s).hasErrors = false ∧ (parse .latest s).usings = usings ∧
      (parse .latest s).types.map (·.unplaced) = types := by
  obtain ⟨hfound, hfile⟩ := declares_file h .latest
  exact ⟨hasErrors_of_harmless hl hfound, hfile⟩

/-- **A source has errors** if its lexemes are refused. -/
theorem refused_file (h : Refuses (fileItems none false) 0 (lexemes s.text))
    (version : Language.Version) : (parse version s).hasErrors = true := by
  rw [← Bool.not_eq_false]
  intro hn
  exact Bool.false_ne_true ((hasFault_lexemes hn).symm.trans h.found)

end SyntaxTree
end Outline
