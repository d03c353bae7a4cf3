/-
# Sources with one class

A source of one class is accepted or refused as what stands in the braces of the class.
What the lexer finds at fault is left out: either there is nothing, or it stays what it is.
-/

import Outline.Proofs.SyntaxTree.Verdict

namespace Outline
namespace SyntaxTree

open Outline.Parser (Accepts Holds Refuses Tolerance classSpelling memberList)
open Lexeme (mark)

variable {s : Source} {owner : String} {ls : List Lexeme}

/-- What is accepted in the braces of a class are the members of the class. -/
theorem members_class {t : Tolerance} (hl : lexemes s.text = classSpelling owner ls)
    {members : List MemberSymbol}
    (h : ∀ j, Accepts t (memberList owner) j ls [mark "\x7d"] (Holds members []))
    (version : Language.Version) :
    t.covers (findings s) = true ∧ (parse version s).types.map (·.unplaced)
      = [⟨none, owner, 0, .cls, false, members, [], ()⟩] := by
  have hfile := (Outline.Parser.accepts_classFile h).mono fun _ => (·.declares)
  rw [← hl] at hfile
  obtain ⟨hfound, -, htypes⟩ := declares_file hfile version
  exact ⟨hfound, htypes⟩

/-- **Nothing is reported of a class** with members that are accepted. -/
theorem accepted_class (hs : lexicalDiagnostics s = [])
    (hl : lexemes s.text = classSpelling owner ls) {members : List MemberSymbol}
    (h : ∀ j, Accepts .features (memberList owner) j ls [mark "\x7d"] (Holds members [])) :
    (parse .v12 s).diagnostics = [] ∧ (parse .v12 s).types.map (·.unplaced)
      = [⟨none, owner, 0, .cls, false, members, [], ()⟩] := by
  obtain ⟨hf, ht⟩ := members_class hl h .v12
  exact ⟨diagnostics_eq_nil (lexicalDiagnostics_eq_nil_iff.1 hs) hf, ht⟩

/-- **A class has errors** if what stands in its braces is refused. -/
theorem refused_class (hl : lexemes s.text = classSpelling owner ls)
    (h : ∀ j, Refuses (memberList owner) j (ls ++ [mark "\x7d"])) (version : Language.Version) :
    (parse version s).hasErrors = true := by
  have hfile := Outline.Parser.finds_classFile h
  rw [← hl] at hfile
  exact refused_file hfile version

end SyntaxTree
end Outline
