/-
# Phases in any order

The phases share one compilation, and nothing keeps them in their usual order: a run may
repeat phases, leave some out, or make the module before anything was checked.  What a
run has come to is told by which phases it went through (`Compilation.After`), whatever
their order and number:

| field | before its phase | after it, however often |
| --- | --- | --- |
| `sources` | all of them | none |
| `trees` | none | one for each source, numbered in their order |
| `references` | none | those that the finder answers with |

Diagnostics only grow, and a module that was made stays.  The answers of a finder are
taken to stay the same during the run (`Finder.Steady`), though a run may write files.
-/

import Mathlib.Data.List.Induction
import Outline.Proofs.Compiler.Versions

namespace Outline

variable {σ : Type}

/-! ### Finders that do not change their minds -/

/-- At these files a finder gives these answers on the libraries of a profile, and leaves
the files alone. -/
structure Finder.Answers (finder : Finder (StateM σ)) (profile : Profile)
    (present : Path → Bool) (found : Anchor → Option Path) (s : σ) : Prop where
  isPresent : ∀ p ∈ profile.references, finder.isPresent p s = (present p, s)
  find : ∀ a ∈ profile.anchors, finder.find a s = (found a, s)

/-- A finder gives the same answers at all times of a run. -/
def Finder.Steady (finder : Finder (StateM σ)) (disk : Disk (StateM σ)) (present : Path → Bool)
    (found : Anchor → Option Path) (c : Compilation) (phases : List Phase) (s : σ) : Prop :=
  ∀ done, done <+: phases →
    finder.Answers c.profile present found (c.runAll disk finder done s).2

/-- The references of a profile that answers come to. -/
def References.answered (profile : Profile) (present : Path → Bool)
    (found : Anchor → Option Path) : References where
  paths := distinct (profile.references.filter present ++ profile.anchors.filterMap found)
  diagnostics := (profile.references.filter (!present ·)).map missing

/-- Questions that are answered without a trace. -/
theorem mapM_of_eq {α β : Type} {f : α → StateM σ β} {g : α → β} {s : σ} {as : List α}
    (h : ∀ a ∈ as, f a s = (g a, s)) : as.mapM f s = (as.map g, s) := by
  induction as with
  | nil => rfl
  | cons a as ih =>
    rw [List.mapM_cons, stateBind_apply, h a List.mem_cons_self, stateBind_apply,
      ih fun b hb => h b (List.mem_cons_of_mem a hb)]
    rfl

theorem References.resolve_of_answers {finder : Finder (StateM σ)} {profile : Profile}
    {present : Path → Bool} {found : Anchor → Option Path} {s : σ}
    (h : finder.Answers profile present found s) :
    References.resolve finder profile.references profile.anchors s
      = (answered profile present found, s) := by
  have hchecked : ∀ p ∈ profile.references,
      (do return (p, ← finder.isPresent p) : StateM σ (Path × Bool)) s = ((p, present p), s) :=
    fun p hp => by rw [stateBind_apply, h.isPresent p hp, statePure_apply]
  rw [References.resolve, stateBind_apply, mapM_of_eq hchecked, stateBind_apply,
    mapM_of_eq h.find, statePure_apply, answered]
  simp only [List.filter_map, List.map_map, Function.comp_def, List.map_id', List.filterMap_map,
    id_eq]

namespace Compilation

/-! ### One phase after others -/

theorem runAll_append_singleton (disk : Disk (StateM σ)) (finder : Finder (StateM σ))
    (c : Compilation) (done : List Phase) (next : Phase) (s : σ) :
    c.runAll disk finder (done ++ [next]) s
      = (c.runAll disk finder done s).1.run disk finder next (c.runAll disk finder done s).2 := by
  rw [runAll, List.foldlM_append, stateBind_apply, List.foldlM_cons, stateBind_apply]
  rfl

/-- The last phase keeps all but the module and what is reported, and is of no effect once
there is an error. -/
theorem emit_cases (disk : Disk (StateM σ)) (c : Compilation) (s : σ) :
    (c.hasErrors = true ∧ c.emit disk s = (c, s)) ∨
      (c.hasErrors = false ∧ (c.emit disk s).1 = c.made) ∨
      ∃ p e, c.hasErrors = false ∧ (c.emit disk s).1 = c.report [cannotWrite p e] := by
  cases h : c.hasErrors with
  | true => exact .inl ⟨rfl, emit_of_hasErrors disk h s⟩
  | false =>
    cases ho : c.output with
    | none => exact .inr (.inl ⟨rfl, by rw [emit_inMemory disk h ho]⟩)
    | some p =>
      cases hw : disk.write p c.described.image s with
      | mk answer s' =>
        cases answer with
        | ok _ =>
          refine .inr (.inl ⟨rfl, ?_⟩)
          simp only [emit, made, h, ho, Bool.false_eq_true, if_false, stateBind_apply, hw,
            statePure_apply]
        | error e =>
          refine .inr (.inr ⟨p, e, rfl, ?_⟩)
          simp only [emit, h, ho, Bool.false_eq_true, if_false, stateBind_apply, hw]
          rfl

/-- One compilation comes from another by going on: no diagnostic and no tree is lost,
and a module stays. -/
structure GoesOnTo (c d : Compilation) : Prop where
  diagnostics : c.diagnostics <+: d.diagnostics
  trees : c.trees <+: d.trees
  module : c.module.isSome = true → d.module.isSome = true

theorem GoesOnTo.refl (c : Compilation) : GoesOnTo c c :=
  ⟨List.prefix_refl _, List.prefix_refl _, id⟩

theorem GoesOnTo.report (c : Compilation) (ds : List Diagnostic) : GoesOnTo c (c.report ds) :=
  ⟨List.prefix_append _ _, List.prefix_refl _, id⟩

/-- **Every phase goes on**, whatever came before it. -/
theorem goesOnTo_run (disk : Disk (StateM σ)) (finder : Finder (StateM σ)) (c : Compilation)
    (next : Phase) (s : σ) : GoesOnTo c (c.run disk finder next s).1 := by
  cases next with
  | parse => exact ⟨List.prefix_append _ _, List.prefix_append _ _, id⟩
  | references => exact ⟨List.prefix_append _ _, List.prefix_refl _, id⟩
  | declare => exact .report c _
  | emit =>
    rw [run]
    rcases c.emit_cases disk s with ⟨-, h⟩ | ⟨-, h⟩ | ⟨p, e, -, h⟩
    · rw [h]
      exact .refl c
    · rw [h]
      exact ⟨List.prefix_refl _, List.prefix_refl _, fun _ => rfl⟩
    · rw [h]
      exact .report c _

/-! ### Runs -/

/-- What a compilation of sources has come to after phases, when the finder's answers come
to the references `r`. -/
structure After (given : Profile) (texts : List String) (r : References) (done : List Phase)
    (c : Compilation) : Prop where
  profile : c.profile = given
  sources : c.sources = if .parse ∈ done then [] else texts
  trees : c.trees = if .parse ∈ done then
    texts.mapIdx fun i text => SyntaxTree.parse given.version ⟨text, i⟩ else []
  references : c.references = if .references ∈ done then r.paths else []

namespace After

variable {profile : Profile} {sources : List String} {r : References} {done : List Phase}
  {c : Compilation}

theorem start (profile : Profile) (sources : List String) (output : Option Path)
    (r : References) : After profile sources r [] (start profile sources output) :=
  ⟨rfl, rfl, rfl, rfl⟩

/-- A phase that is neither the parser nor looks for references keeps what they found. -/
theorem other (h : After profile sources r done c) {next : Phase} (hp : next ≠ .parse)
    (hr : next ≠ .references) {d : Compilation} (hprofile : d.profile = c.profile)
    (hsources : d.sources = c.sources) (htrees : d.trees = c.trees)
    (hreferences : d.references = c.references) : After profile sources r (done ++ [next]) d := by
  have hparse : Phase.parse ∈ done ++ [next] ↔ .parse ∈ done := by simp [hp.symm]
  have href : Phase.references ∈ done ++ [next] ↔ .references ∈ done := by simp [hr.symm]
  exact ⟨hprofile.trans h.profile, by simp only [hparse, hsources, h.sources],
    by simp only [hparse, htrees, h.trees], by simp only [href, hreferences, h.references]⟩

theorem parse (h : After profile sources r done c) :
    After profile sources r (done ++ [.parse]) c.parse := by
  have hparse : Phase.parse ∈ done ++ [.parse] := by simp
  have href : Phase.references ∈ done ++ [.parse] ↔ .references ∈ done := by simp
  have hkept : c.parse.references = c.references := rfl
  refine ⟨h.profile, by rw [if_pos hparse]; rfl, ?_, by simp only [hkept, href, h.references]⟩
  show c.trees ++ c.parsed = _
  rw [if_pos hparse, parsed, h.trees, h.sources, h.profile]
  split <;> simp

theorem refer (h : After profile sources r done c) :
    After profile sources r (done ++ [.references]) (c.refer r) := by
  have hparse : Phase.parse ∈ done ++ [.references] ↔ .parse ∈ done := by simp
  have href : Phase.references ∈ done ++ [.references] := by simp
  have hsources : (c.refer r).sources = c.sources := rfl
  have htrees : (c.refer r).trees = c.trees := rfl
  exact ⟨h.profile, by simp only [hsources, hparse, h.sources],
    by simp only [htrees, hparse, h.trees], by rw [if_pos href]; rfl⟩

/-- One more phase, at files where the finder answers as before. -/
theorem run {disk : Disk (StateM σ)} {finder : Finder (StateM σ)} {present : Path → Bool}
    {found : Anchor → Option Path} {s : σ}
    (h : After profile sources (References.answered profile present found) done c)
    (hf : finder.Answers profile present found s) (next : Phase) :
    After profile sources (References.answered profile present found) (done ++ [next])
      (c.run disk finder next s).1 := by
  cases next with
  | parse => exact h.parse
  | references =>
    rw [Compilation.run, stateBind_apply, h.profile, References.resolve_of_answers hf]
    exact h.refer
  | declare => exact h.other (by decide) (by decide) rfl rfl rfl rfl
  | emit =>
    rw [Compilation.run]
    refine h.other (by decide) (by decide) ?_ ?_ ?_ ?_ <;>
      rcases c.emit_cases disk s with ⟨-, he⟩ | ⟨-, he⟩ | ⟨p, e, -, he⟩ <;> rw [he] <;> rfl

end After

/-- **What a run comes to** depends on which phases it goes through only. -/
theorem after_runAll {disk : Disk (StateM σ)} {finder : Finder (StateM σ)}
    {present : Path → Bool} {found : Anchor → Option Path} {profile : Profile}
    {sources : List String} {output : Option Path} {s : σ} (done : List Phase)
    (hf : finder.Steady disk present found (start profile sources output) done s) :
    After profile sources (References.answered profile present found) done
      ((start profile sources output).runAll disk finder done s).1 := by
  induction done using List.reverseRecOn with
  | nil => exact .start profile sources output _
  | append_singleton done next ih =>
    rw [runAll_append_singleton]
    have before : done <+: done ++ [next] := List.prefix_append _ _
    exact (ih fun earlier he => hf earlier (he.trans before)).run (hf done before) next

/-- What one more phase does to a compilation of `sources` that has come to `c` after the
phases `done`, with the files `s`. -/
structure StepKeeps (profile : Profile) (sources : List String) (r : References)
    (done : List Phase) (next : Phase) (c : Compilation) (s : σ) (d : Compilation) (s' : σ) :
    Prop where
  diagnostics : c.diagnostics <+: d.diagnostics
  trees : c.trees <+: d.trees
  /-- The parser takes all sources and numbers their trees. -/
  firstParse : next = .parse → .parse ∉ done → c.sources = sources ∧ d.sources = [] ∧
    d.trees = (sources.mapIdx fun i text => SyntaxTree.parse profile.version ⟨text, i⟩) ∧
    d.trees.map (·.source.index) = List.range sources.length
  laterParse : next = .parse → .parse ∈ done → d = c ∧ s' = s
  unresolved : .references ∉ done → c.references = []
  resolved : .references ∈ done ++ [next] → d.references = r.paths
  /-- With an error nothing is made or written. -/
  failed : next = .emit → c.hasErrors = true → d = c ∧ s' = s
  module : c.module.isSome = true → d.module.isSome = true

theorem After.stepKeeps {profile : Profile} {sources : List String} {r : References}
    {done : List Phase} {c : Compilation} (h : After profile sources r done c) (next : Phase)
    {disk : Disk (StateM σ)} {finder : Finder (StateM σ)} {s : σ}
    (hd : After profile sources r (done ++ [next]) (c.run disk finder next s).1) :
    StepKeeps profile sources r done next c s (c.run disk finder next s).1
      (c.run disk finder next s).2 := by
  have hgo := c.goesOnTo_run disk finder next s
  refine ⟨hgo.diagnostics, hgo.trees, ?_, ?_, fun hr => by rw [h.references, if_neg hr],
    fun hr => by rw [hd.references, if_pos hr], ?_, hgo.module⟩
  · rintro rfl hp
    have hin : Phase.parse ∈ done ++ [.parse] := by simp
    have htrees := hd.trees
    rw [if_pos hin] at htrees
    refine ⟨by rw [h.sources, if_neg hp], by rw [hd.sources, if_pos hin], htrees, ?_⟩
    rw [htrees]
    exact List.ext_getElem (by simp) (by simp [SyntaxTree.source_parse])
  · rintro rfl hp
    -- Nothing is left to parse, so nothing is added.
    have hnone : c.sources = [] := by rw [h.sources, if_pos hp]
    have hparsed : c.parsed = [] := by rw [parsed, hnone]; rfl
    refine ⟨?_, rfl⟩
    show c.parse = c
    rw [Compilation.parse, hparsed, ← hnone]
    simp [report]
  · rintro rfl herror
    have hemit := emit_of_hasErrors disk herror s
    rw [Compilation.run, hemit]
    exact ⟨rfl, rfl⟩

/-- In their usual order the phases end with a module or with an error. -/
theorem module_runAll_iff (disk : Disk (StateM σ)) (finder : Finder (StateM σ))
    {c : Compilation} (hm : c.module = none) (s : σ) :
    (c.runAll disk finder Phase.all s).1.module.isSome = true ↔
      (c.runAll disk finder Phase.all s).1.hasErrors = false := by
  rw [runAll_apply]
  set found := References.resolve finder c.profile.references c.profile.anchors s
  have hnone : (c.checked found.1).module = none := (module_checked c found.1).trans hm
  rcases (c.checked found.1).emit_cases disk found.2 with ⟨he, h⟩ | ⟨he, h⟩ | ⟨p, e, -, h⟩
  · rw [h]
    simp [hnone, he]
  · rw [h]
    exact ⟨fun _ => he, fun _ => rfl⟩
  · rw [h]
    simp [report, hnone, hasErrors, cannotWrite, Diagnostic.error, Diagnostic.isError]

/-- **What phases keep, in any order.**  From a compilation that has not begun, through
any phases with repeats, while the finder gives the same answers: every step adds to the
diagnostics and to the trees only, parsing happens once and numbers the trees, references
are missing or those of the answers, with an error no module is made or written, and a
module stays.  In their usual order the phases end with a module exactly if they end
without an error. -/
theorem phases_keep {disk : Disk (StateM σ)} {finder : Finder (StateM σ)}
    {present : Path → Bool} {found : Anchor → Option Path} (profile : Profile)
    (sources : List String) (output : Option Path) (phases : List Phase) (s : σ)
    (hf : finder.Steady disk present found (start profile sources output) phases s) :
    (∀ done next, done ++ [next] <+: phases →
      StepKeeps profile sources (References.answered profile present found) done next
        ((start profile sources output).runAll disk finder done s).1
        ((start profile sources output).runAll disk finder done s).2
        ((start profile sources output).runAll disk finder (done ++ [next]) s).1
        ((start profile sources output).runAll disk finder (done ++ [next]) s).2) ∧
      (((start profile sources output).runAll disk finder Phase.all s).1.module.isSome = true ↔
        ((start profile sources output).runAll disk finder Phase.all s).1.hasErrors = false) := by
  refine ⟨fun done next hnext => ?_, module_runAll_iff disk finder rfl s⟩
  have hlater := after_runAll (done ++ [next]) fun earlier he => hf earlier (he.trans hnext)
  have hdone := after_runAll done fun earlier he =>
    hf earlier (he.trans ((List.prefix_append done [next]).trans hnext))
  rw [runAll_append_singleton] at hlater ⊢
  exact hdone.stepKeeps next hlater

/-- A run that makes a module before anything was parsed, and that repeats phases. -/
def unordered : List Phase := [.emit, .references, .parse, .emit, .parse, .declare, .emit]

/-- The hypothesis of `Compilation.phases_keep` is satisfiable: libraries that are taken by
their names are the same whatever a run wrote. -/
theorem phases_keep_unordered :
    (Finder.byName FileTree.disk).Steady FileTree.disk (fun _ => true)
        (fun a => some ⟨a.fileName⟩) (start {} ["class A;", "class A;"] (some ⟨"A.dll"⟩))
        unordered {} ∧
      (∀ done next, done ++ [next] <+: unordered →
        StepKeeps {} ["class A;", "class A;"]
          (References.answered {} (fun _ => true) fun a => some ⟨a.fileName⟩) done next
          ((start {} ["class A;", "class A;"] (some ⟨"A.dll"⟩)).runAll FileTree.disk
            (Finder.byName FileTree.disk) done {}).1
          ((start {} ["class A;", "class A;"] (some ⟨"A.dll"⟩)).runAll FileTree.disk
            (Finder.byName FileTree.disk) done {}).2
          ((start {} ["class A;", "class A;"] (some ⟨"A.dll"⟩)).runAll FileTree.disk
            (Finder.byName FileTree.disk) (done ++ [next]) {}).1
          ((start {} ["class A;", "class A;"] (some ⟨"A.dll"⟩)).runAll FileTree.disk
            (Finder.byName FileTree.disk) (done ++ [next]) {}).2) ∧
      (((start {} ["class A;", "class A;"] (some ⟨"A.dll"⟩)).runAll FileTree.disk
          (Finder.byName FileTree.disk) Phase.all {}).1.module.isSome = true ↔
        ((start {} ["class A;", "class A;"] (some ⟨"A.dll"⟩)).runAll FileTree.disk
          (Finder.byName FileTree.disk) Phase.all {}).1.hasErrors = false) := by
  have hf : (Finder.byName FileTree.disk).Steady FileTree.disk (fun _ => true)
      (fun a => some ⟨a.fileName⟩) (start {} ["class A;", "class A;"] (some ⟨"A.dll"⟩))
      unordered {} := fun _ _ =>
    ⟨fun p hp => absurd hp List.not_mem_nil, fun _ _ => rfl⟩
  exact ⟨hf, phases_keep {} ["class A;", "class A;"] (some ⟨"A.dll"⟩) unordered
    ({} : FileTree) hf⟩

end Compilation
end Outline
