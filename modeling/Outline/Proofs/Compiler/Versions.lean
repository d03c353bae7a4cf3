/-
# What a version changes in a module

A version is asked which features it has, and for nothing else.  Two compilations that
differ in their versions know the same of their sources, so they check the same and
describe the same module but for the version that it names.  What compiles under a
version compiles under all later ones.
-/

import Outline.Proofs.Compiler.Outcome
import Outline.Proofs.SyntaxTree.Versions

namespace Outline

open Outline.Language (Version)

namespace Compilation

/-! ### Compilations that differ in their versions -/

/-- Two compilations that know the same of their sources, perhaps under two versions. -/
structure Alike (c d : Compilation) : Prop where
  profile : d.profile = { c.profile with version := d.profile.version }
  name : d.name = c.name
  sources : d.sources = c.sources
  output : d.output = c.output
  references : d.references = c.references
  usings : d.trees.flatMap (·.usings) = c.trees.flatMap (·.usings)
  declarations : d.declarations = c.declarations

namespace Alike

variable {c d : Compilation}

/-- What versions do not change in a tree is the same in all trees that are parsed next. -/
theorem flatMap_parsed (h : Alike c d) {α : Type} (part : SyntaxTree → List α)
    (hpart : ∀ v w s, part (SyntaxTree.parse v s) = part (SyntaxTree.parse w s)) :
    d.parsed.flatMap part = c.parsed.flatMap part := by
  rw [parsed, parsed, h.sources, List.mapIdx_eq_zipIdx_map, List.mapIdx_eq_zipIdx_map,
    List.flatMap_map, List.flatMap_map]
  exact List.flatMap_congr fun x _ => hpart d.profile.version c.profile.version ⟨x.1, x.2⟩

theorem parse (h : Alike c d) : Alike c.parse d.parse where
  profile := h.profile
  name := h.name
  sources := rfl
  output := h.output
  references := h.references
  usings := by
    have hparsed := h.flatMap_parsed (·.usings) fun v w s => by
      rw [SyntaxTree.usings_parse, SyntaxTree.usings_parse]
    simp only [Compilation.parse, List.flatMap_append, h.usings, hparsed]
  declarations := by
    have hparsed := h.flatMap_parsed (fun t => t.types.map (t.source, ·))
      fun v w s => by rw [SyntaxTree.types_parse, SyntaxTree.types_parse,
        SyntaxTree.source_parse, SyntaxTree.source_parse]
    have htrees := h.declarations
    simp only [Compilation.declarations] at htrees ⊢
    simp only [Compilation.parse, List.flatMap_append, htrees, hparsed]

/-- Reports play no part. -/
theorem report (h : Alike c d) (xs ys : List Diagnostic) : Alike (c.report xs) (d.report ys) :=
  ⟨h.profile, h.name, h.sources, h.output, h.references, h.usings, h.declarations⟩

theorem refer (h : Alike c d) (r : References) : Alike (c.refer r) (d.refer r) :=
  ⟨h.profile, h.name, h.sources, h.output, rfl, h.usings, h.declarations⟩

/-- The phases before the last learn the same. -/
theorem checked (h : Alike c d) (r : References) : Alike (c.checked r) (d.checked r) :=
  (h.parse.refer r).report _ _

theorem types (h : Alike c d) : d.types = c.types := by
  rw [types_eq_map_declarations, types_eq_map_declarations, h.declarations]

/-- The checks across sources find the same. -/
theorem checks (h : Alike c d) : d.checks = c.checks := by
  have hlacks : d.lacksEntryPoint = c.lacksEntryPoint := by
    rw [lacksEntryPoint, lacksEntryPoint, h.types, h.profile]
  rw [Compilation.checks, Compilation.checks, h.declarations, hlacks]

/-- The modules that are described differ in their versions only. -/
theorem described (h : Alike c d) :
    d.described = { c.described with version := d.profile.version } := by
  have husings : d.usings = c.usings := by
    rw [Compilation.usings, Compilation.usings, h.usings, h.profile]
  rw [Compilation.described, husings, h.types, h.name, h.references, h.profile]
  rfl

end Alike

/-! ### The phases before the last -/

/-- Errors are found in the sources, in the references, or across sources. -/
theorem hasErrors_checked (c : Compilation) (r : References) : (c.checked r).hasErrors
    = (((c.hasErrors || c.parsed.any (·.hasErrors)) || r.diagnostics.any (·.isError))
      || (c.parse.refer r).checks.any (·.isError)) := by
  have hdiagnostics : (c.checked r).diagnostics = ((c.diagnostics
      ++ c.parsed.flatMap (·.diagnostics)) ++ r.diagnostics) ++ (c.parse.refer r).checks := rfl
  rw [hasErrors, hdiagnostics, List.any_append, List.any_append, List.any_append,
    List.any_flatMap]
  rfl

/-- The trees of later versions have no error that those of earlier ones have not. -/
theorem any_parsed_mono {c d : Compilation} (h : Alike c d)
    (hversion : c.profile.version ≤ d.profile.version)
    (hc : c.parsed.any (·.hasErrors) = false) : d.parsed.any (·.hasErrors) = false := by
  rw [parsed, List.any_eq_false] at hc ⊢
  rw [h.sources]
  intro t ht
  obtain ⟨i, hi, rfl⟩ := List.mem_mapIdx.1 ht
  have hearlier := Bool.eq_false_iff.2 (hc _ (List.mem_mapIdx.2 ⟨i, hi, rfl⟩))
  exact Bool.eq_false_iff.1 (SyntaxTree.hasErrors_mono hversion ⟨c.sources[i], i⟩ hearlier)

/-- **What is free of errors under a version is so under all later ones.** -/
theorem hasErrors_checked_mono {c d : Compilation} (h : Alike c d)
    (hversion : c.profile.version ≤ d.profile.version) (r : References)
    (hstart : d.hasErrors = false) (hc : (c.checked r).hasErrors = false) :
    (d.checked r).hasErrors = false := by
  simp only [hasErrors_checked, Bool.or_eq_false_iff] at hc ⊢
  obtain ⟨⟨⟨-, hparsed⟩, hreferences⟩, hchecks⟩ := hc
  refine ⟨⟨⟨hstart, any_parsed_mono h hversion hparsed⟩, hreferences⟩, ?_⟩
  rwa [(h.parse.refer r).checks]

/-! ### The last phase -/

section

variable {σ K : Type} [DecidableEq K] {files : Creation σ K} {disk : Disk (StateM σ)}

/-- A module is made if no error was reported and its output is not refused. -/
theorem module_emit (hd : files.Describes disk) {c : Compilation} (hm : c.module = none) (s : σ) :
    (c.emit disk s).1.module
      = if c.hasErrors || (c.output.bind (files.refusal s)).isSome then none
        else some c.described := by
  have hends := c.emit_ends hd s
  generalize (c.emit disk s).1 = final, (c.emit disk s).2 = s' at hends
  cases hends with
  | failed h => rw [h, Bool.true_or, if_pos rfl, hm]
  | inMemory h ho => simp [h, ho, made]
  | written h ho hr => simp [h, ho, hr, made]
  | refused h ho hr => simp [h, ho, hr, report, hm]

theorem module_checked (c : Compilation) (r : References) : (c.checked r).module = c.module := rfl

/-- **A module that is made under a version** is made under all later ones, and names
another version only. -/
theorem module_runAll_mono (hd : files.Describes disk) (finder : Finder (StateM σ))
    {c d : Compilation} (h : Alike c d) (hversion : c.profile.version ≤ d.profile.version)
    (hstart : d.hasErrors = false) (hc : c.module = none) (hd₀ : d.module = none) (s : σ)
    {m : Module} (hm : (c.runAll disk finder Phase.all s).1.module = some m) :
    (d.runAll disk finder Phase.all s).1.module
      = some { m with version := d.profile.version } := by
  have hresolve : References.resolve finder d.profile.references d.profile.anchors
      = References.resolve finder c.profile.references c.profile.anchors := by
    rw [h.profile]
  rw [runAll_apply] at hm ⊢
  rw [hresolve]
  set found := References.resolve finder c.profile.references c.profile.anchors s
  have hchecked := h.checked found.1
  rw [module_emit hd ((module_checked c found.1).trans hc), ite_eq_iff] at hm
  simp only [reduceCtorEq, and_false, false_or, Bool.or_eq_true, not_or, Bool.not_eq_true,
    Option.some.injEq] at hm
  obtain ⟨⟨herrors, hrefusal⟩, rfl⟩ := hm
  -- Whether the output is refused does not depend on the bytes that go there.
  have hlater := hasErrors_checked_mono h hversion found.1 hstart herrors
  rw [module_emit hd ((module_checked d found.1).trans hd₀), hchecked.output, hrefusal, hlater,
    hchecked.described]
  rfl

/-- Compilations that have not begun and differ in their versions. -/
theorem alike_start (profile : Profile) (sources : List String) (output : Option Path)
    (v w : Version) : Alike (start { profile with version := v } sources output)
      (start { profile with version := w } sources output) :=
  ⟨rfl, rfl, rfl, rfl, rfl, rfl, rfl⟩

end

end Compilation

/-- **A version only gates features.**  Of every source a later version learns the same
usings and types and reports the same, in the same order, but for the features that are
missing, which it reports at some of the same places.  Every request that makes a module
under a version makes it under all later ones, and the module names another version only. -/
theorem Language.Version.gates_only {σ K : Type} [DecidableEq K] {files : Creation σ K}
    {disk : Disk (StateM σ)} (hd : files.Describes disk) (finder : Finder (StateM σ))
    {v w : Version} (h : v ≤ w) :
    (∀ s : Source,
      (SyntaxTree.parse v s).usings = (SyntaxTree.parse w s).usings ∧
      (SyntaxTree.parse v s).types = (SyntaxTree.parse w s).types ∧
      (SyntaxTree.parse v s).diagnostics.filter (·.code ≠ "CS8370")
        = (SyntaxTree.parse w s).diagnostics.filter (·.code ≠ "CS8370") ∧
      (((SyntaxTree.parse w s).diagnostics.filter (·.code = "CS8370")).map
          (·.location)).Sublist
        (((SyntaxTree.parse v s).diagnostics.filter (·.code = "CS8370")).map (·.location))) ∧
    ∀ (profile : Profile) (sources : List String) (output : Option Path) (s : σ) (m : Module),
      ((Compilation.start { profile with version := v } sources output).runAll disk finder
          Phase.all s).1.module = some m →
      ((Compilation.start { profile with version := w } sources output).runAll disk finder
          Phase.all s).1.module = some { m with version := w } := by
  refine ⟨fun s => ⟨?_, ?_, ?_, ?_⟩, fun profile sources output s m hm =>
    Compilation.module_runAll_mono hd finder (Compilation.alike_start profile sources output v w)
      h rfl rfl rfl s hm⟩
  · rw [SyntaxTree.usings_parse, SyntaxTree.usings_parse]
  · rw [SyntaxTree.types_parse, SyntaxTree.types_parse]
  · simpa only [Diagnostic.isGate, beq_eq_decide, ← decide_not]
      using SyntaxTree.filter_diagnostics h s
  · simpa only [Diagnostic.isGate, beq_eq_decide] using SyntaxTree.map_location_sublist h s

/-- The hypotheses of `Language.Version.gates_only` are satisfiable: in an empty tree of
files, the record that C# 9 makes a module of is the same module under C# 12. -/
theorem gates_only_fileTree : FileTree.creation.Describes FileTree.disk ∧
    Version.v9 ≤ Version.v12 ∧
    ∃ m, ((Compilation.start { version := .v9 } ["record A { }"] none).runAll FileTree.disk
        (Finder.byName FileTree.disk) Phase.all {}).1.module = some m ∧
      ((Compilation.start { version := .v12 } ["record A { }"] none).runAll FileTree.disk
        (Finder.byName FileTree.disk) Phase.all {}).1.module
          = some { m with version := .v12 } := by
  have hmade : ((Compilation.start { version := .v9 } ["record A { }"] none).runAll FileTree.disk
      (Finder.byName FileTree.disk) Phase.all {}).1.module.isSome = true := by
    decide +kernel
  obtain ⟨m, hm⟩ := Option.isSome_iff_exists.1 hmade
  have hmono := Language.Version.gates_only FileTree.creation_describes
    (Finder.byName FileTree.disk) (v := .v9) (w := .v12) (by decide)
  exact ⟨FileTree.creation_describes, by decide, m, hm, hmono.2 {} ["record A { }"] none {} m hm⟩

end Outline
