/-
# Codes and who reports under them

Every part of a run reports under codes of its own, so the code of a diagnostic tells which part
it comes from.

| part | codes |
| --- | --- |
| lexer, parser | `sourceCodes` |
| references | CS0006 |
| checks across sources | CS0101, CS5001 |
| writer of modules | CS2012 |
-/

import Outline.Proofs.Compiler.Phases

namespace Outline

/-- The codes of what is reported of a source by itself. -/
def sourceCodes : List String := [
  "CS1010", "CS1012", "CS1035", "CS1039", "CS1056",
  "CS0116", "CS0168", "CS0219", "CS1001", "CS1002", "CS1003", "CS1022", "CS1026", "CS1513",
  "CS1514", "CS1519", "CS1520", "CS1525", "CS1529", "CS8370", "CS8954", "CS8956"]

/-- Whether a diagnostic is of a source by itself. -/
def Diagnostic.isOfSource (d : Diagnostic) : Bool := sourceCodes.contains d.code

theorem Diagnostic.isOfSource_ne {d : Diagnostic} (h : d.isOfSource = true) {code : String}
    (hc : sourceCodes.contains code = false) : (d.code == code) = false := by
  rw [beq_eq_false_iff_ne]
  rintro rfl
  rw [isOfSource, hc] at h
  cases h

theorem Lexer.Fault.isOfSource (f : Lexer.Fault) : f.diagnostic.isOfSource = true := by
  cases f <;> rfl

theorem Parser.Cause.isOfSource {version : Language.Version} {cause : Parser.Cause}
    {d : Diagnostic} (h : cause.diagnostic? version = some d) : d.isOfSource = true := by
  cases cause with
  | expected e =>
    obtain rfl := Option.some.inj h
    cases e <;> rfl
  | needs feature =>
    rw [Parser.Cause.diagnostic?] at h
    split at h
    · cases h
    · obtain rfl := Option.some.inj h
      rfl
  | _ =>
    obtain rfl := Option.some.inj h
    rfl

/-- A source is reported on under the codes of the lexer and the parser only. -/
theorem SyntaxTree.isOfSource {version : Language.Version} {s : Source} {d : Diagnostic}
    (h : d ∈ (SyntaxTree.parse version s).diagnostics) : d.isOfSource = true := by
  rcases List.mem_append.1 ((SyntaxTree.diagnostics_perm version s).mem_iff.1 h) with hd | hd
  · obtain ⟨⟨f, span⟩, -, rfl⟩ := List.mem_map.1 hd
    exact f.isOfSource
  · obtain ⟨x, -, hx⟩ := List.mem_filterMap.1 hd
    obtain ⟨e, he, rfl⟩ := Option.map_eq_some_iff.1 hx
    have hcode : e.isOfSource = true := Parser.Cause.isOfSource he
    exact hcode

/-- So are the sources of a compilation. -/
theorem Compilation.isOfSource_parsed {c : Compilation} {d : Diagnostic}
    (h : d ∈ c.parsed.flatMap (·.diagnostics)) : d.isOfSource = true := by
  obtain ⟨tree, htree, hd⟩ := List.mem_flatMap.1 h
  obtain ⟨i, hi, rfl⟩ := List.mem_mapIdx.1 htree
  exact SyntaxTree.isOfSource hd

/-- Where libraries are looked for, only those that are missing are reported. -/
theorem References.code_resolve {σ : Type} {finder : Finder (StateM σ)} {explicit : List Path}
    {anchors : List Anchor} {s : σ} {d : Diagnostic}
    (h : d ∈ (References.resolve finder explicit anchors s).1.diagnostics) : d.code = "CS0006" := by
  rw [References.resolve, stateBind_apply, stateBind_apply, statePure_apply] at h
  obtain ⟨_, -, rfl⟩ := List.mem_map.1 h
  rfl

end Outline
