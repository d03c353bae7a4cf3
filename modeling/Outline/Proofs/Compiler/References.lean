/-
# The references of a module

While a finder gives fixed answers, the references of a profile are an ordered union: the
libraries of the profile that are there, then those of its anchors that are found, each one
where it first occurs.  What is the same path is said by its parts, not by its spelling.

| one more | in the references | reported |
| --- | --- | --- |
| library of the profile that is there | before the anchors, unless it is there already | nothing |
| library of the profile that is missing | nowhere | one `CS0006` more |
| anchor that is found | at the end, unless it is there already | nothing |
| anchor that is not found | nowhere | nothing |
-/

import Outline.Proofs.Compiler.Phases

namespace Outline

/-! ### First occurrences -/

namespace Path

theorem same_trans {p q r : Path} (h : p.same q = true) (k : q.same r = true) :
    p.same r = true := by
  rw [same, beq_iff_eq] at *
  exact h.trans k

/-- The paths that are the same as none before them, in their order. -/
def firsts (ps : List Path) : List Path :=
  (ps.zipIdx.filter fun x => !(ps.take x.2).any (·.same x.1)).map (·.1)

theorem firsts_append (ps qs : List Path) : firsts (ps ++ qs) = firsts ps ++
    ((qs.zipIdx ps.length).filter fun x => !((ps ++ qs).take x.2).any (·.same x.1)).map (·.1) := by
  have hkeep : ps.zipIdx.filter (fun x => !((ps ++ qs).take x.2).any (·.same x.1))
      = ps.zipIdx.filter fun x => !(ps.take x.2).any (·.same x.1) := by
    refine List.filter_congr fun x hx => ?_
    rw [List.take_append_of_le_length (Nat.le_of_lt (List.snd_lt_of_mem_zipIdx hx))]
  rw [firsts, List.zipIdx_append, List.filter_append, List.map_append, hkeep, Nat.zero_add]
  rfl

theorem firsts_concat (ps : List Path) (p : Path) :
    firsts (ps ++ [p]) = firsts ps ++ if ps.any (·.same p) then [] else [p] := by
  rw [firsts_append, List.zipIdx_singleton, List.filter_singleton, List.take_left]
  cases ps.any (·.same p) <;> rfl

end Path

namespace References

theorem distinct_concat (ps : List Path) (p : Path) :
    distinct (ps ++ [p]) = distinct ps ++ if ps.any (·.same p) then [] else [p] := by
  induction ps with
  | nil => rfl
  | cons q ps ih =>
    rw [List.cons_append, distinct, distinct, ih, List.filter_append, List.any_cons,
      List.cons_append]
    congr 2
    cases hq : q.same p <;> cases ps.any (·.same p) <;> simp [hq]

/-- **What is kept of paths** is what occurs first. -/
theorem distinct_eq_firsts (ps : List Path) : distinct ps = Path.firsts ps := by
  induction ps using List.reverseRecOn with
  | nil => rfl
  | append_singleton ps p ih => rw [distinct_concat, Path.firsts_concat, ih]

theorem distinct_prefix (ps qs : List Path) : distinct ps <+: distinct (ps ++ qs) := by
  rw [distinct_eq_firsts, distinct_eq_firsts, Path.firsts_append]
  exact List.prefix_append _ _

theorem pairwise_distinct (ps : List Path) :
    (distinct ps).Pairwise fun p q => p.same q = false := by
  induction ps with
  | nil => exact .nil
  | cons p ps ih =>
    refine List.pairwise_cons.2 ⟨fun q hq => ?_, ih.filter _⟩
    simpa using (List.mem_filter.1 hq).2

/-- Of every path that is the same one there is one that is kept. -/
theorem exists_same_of_mem {ps : List Path} {p : Path} (h : p ∈ ps) :
    ∃ q ∈ distinct ps, q.same p = true := by
  induction ps with
  | nil => cases h
  | cons r ps ih =>
    rcases List.mem_cons.1 h with rfl | h
    · exact ⟨p, List.mem_cons_self, p.same_refl⟩
    · obtain ⟨q, hq, hsame⟩ := ih h
      cases hr : r.same q with
      | true => exact ⟨r, List.mem_cons_self, Path.same_trans hr hsame⟩
      | false => exact ⟨q, List.mem_cons_of_mem r (List.mem_filter.2 ⟨hq, by simp [hr]⟩), hsame⟩

/-! ### The ordered union -/

/-- References are the ordered union of explicit libraries and those of anchors. -/
structure IsUnion (r : References) (explicit : List Path) (anchors : List Anchor)
    (present : Path → Bool) (found : Anchor → Option Path) : Prop where
  /-- What is there and what is found, where it occurs first. -/
  paths : r.paths = Path.firsts (explicit.filter present ++ anchors.filterMap found)
  /-- No path is the same as another one. -/
  distinct : r.paths.Pairwise fun p q => p.same q = false
  /-- Nothing that is there or found is left out. -/
  complete : ∀ p ∈ explicit.filter present ++ anchors.filterMap found,
    ∃ q ∈ r.paths, q.same p = true
  /-- One `CS0006` for each occurrence of a library that is missing, in their order. -/
  diagnostics : r.diagnostics = (explicit.filter (!present ·)).map missing

theorem isUnion_answered (profile : Profile) (present : Path → Bool)
    (found : Anchor → Option Path) : (answered profile present found).IsUnion
      profile.references profile.anchors present found where
  paths := distinct_eq_firsts _
  distinct := pairwise_distinct _
  complete _ := exists_same_of_mem
  diagnostics := rfl

/-- More anchors only go to the end. -/
theorem answered_anchors (profile : Profile) (present : Path → Bool)
    (found : Anchor → Option Path) (more : List Anchor) :
    (answered profile present found).paths
      <+: (answered { profile with anchors := profile.anchors ++ more } present found).paths := by
  rw [answered, answered, List.filterMap_append, ← List.append_assoc]
  exact distinct_prefix _ _

/-- More libraries that are there are nothing to report. -/
theorem answered_references (profile : Profile) {present : Path → Bool}
    (found : Anchor → Option Path) {more : List Path} (h : ∀ p ∈ more, present p = true) :
    (answered { profile with references := profile.references ++ more } present found).diagnostics
      = (answered profile present found).diagnostics := by
  have hnone : more.filter (!present ·) = [] :=
    List.filter_eq_nil_iff.2 fun p hp => by simp [h p hp]
  show ((profile.references ++ more).filter (!present ·)).map missing = _
  rw [List.filter_append, hnone, List.append_nil]
  rfl

end References

section

variable {σ : Type}

/-- At these files a finder gives fixed answers, and leaves the files alone. -/
structure Finder.Fixed (finder : Finder (StateM σ)) (present : Path → Bool)
    (found : Anchor → Option Path) (s : σ) : Prop where
  isPresent : ∀ p, finder.isPresent p s = (present p, s)
  find : ∀ a, finder.find a s = (found a, s)

variable {finder : Finder (StateM σ)} {present : Path → Bool} {found : Anchor → Option Path} {s : σ}

theorem Finder.Fixed.resolve (h : finder.Fixed present found s) (profile : Profile) :
    References.resolve finder profile.references profile.anchors s
      = (References.answered profile present found, s) :=
  References.resolve_of_answers ⟨fun p _ => h.isPresent p, fun a _ => h.find a⟩

/-! ### What a request makes of them -/

namespace Compilation

/-- A run at these files is the last phase with the references that the answers come to. -/
theorem runAll_of_fixed (hf : finder.Fixed present found s) (disk : Disk (StateM σ))
    (profile : Profile) (sources : List String) (output : Option Path) :
    (start profile sources output).runAll disk finder Phase.all s
      = ((start profile sources output).checked
          (References.answered profile present found)).emit disk s := by
  have hr : References.resolve finder (start profile sources output).profile.references
      (start profile sources output).profile.anchors s = _ := hf.resolve profile
  rw [runAll_apply, hr]

variable {K : Type} [DecidableEq K] {files : Creation σ K} {disk : Disk (StateM σ)}

/-- The result of the last phase, by what was reported before it and where the module goes. -/
theorem result_emit (hd : files.Describes disk) {c : Compilation} (hm : c.module = none) (s : σ) :
    (c.emit disk s).1.result = {
      outputPath := (c.output.map (·.text)).getD ""
      success := !c.hasErrors && (c.output.bind (files.refusal s)).isNone
      rows := c.result.rows ++ (files.refusedRow? s (!c.hasErrors) c.output).toList } := by
  have hends := c.emit_ends hd s
  generalize (c.emit disk s).1 = final, (c.emit disk s).2 = s' at hends
  cases hends with
  | failed h => cases ho : c.output <;> simp [result, h, hm, ho, Creation.refusedRow?]
  | inMemory h ho => simp [result, h, ho, made, Creation.refusedRow?]
  | written h ho hr => simp [result, h, ho, hr, made, Creation.refusedRow?]
  | refused h ho hr =>
    simp [result, h, ho, hr, hm, report, cannotWrite, Creation.refusedRow?, Diagnostic.error,
      Diagnostic.isError]

/-- What was found plays no part in the result. -/
theorem result_emit_congr (hd : files.Describes disk) {c d : Compilation}
    (h : d.diagnostics = c.diagnostics) (houtput : d.output = c.output) (hc : c.module = none)
    (hm : d.module = none) (s : σ) : (d.emit disk s).1.result = (c.emit disk s).1.result := by
  have herrors : d.hasErrors = c.hasErrors := by rw [hasErrors, hasErrors, h]
  have hrows : d.result.rows = c.result.rows := by rw [result, result, h]
  rw [result_emit hd hc, result_emit hd hm, houtput, herrors, hrows]

/-- Before the last phase the libraries of a profile only show in what is reported of them. -/
theorem diagnostics_checked_references (profile : Profile) (sources : List String)
    (output : Option Path) (references : List Path) {r r' : References}
    (h : r'.diagnostics = r.diagnostics) :
    ((start { profile with references := references } sources output).checked r').diagnostics
      = ((start profile sources output).checked r).diagnostics := by
  show (_ ++ r'.diagnostics) ++ _ = (_ ++ r.diagnostics) ++ _
  rw [h]
  rfl

/-- **What a run leaves of its references:** the module lists them, and so do the bytes at its
output. -/
theorem module_runAll (hd : files.Describes disk) (hf : finder.Fixed present found s)
    {profile : Profile} {sources : List String} {output : Option Path} {m : Module}
    (hm : ((start profile sources output).runAll disk finder Phase.all s).1.module = some m) :
    m.references = (References.answered profile present found).paths.map (·.text) ∧
      ∀ p, output = some p → ∃ k, files.named s p = some k ∧
        files.content ((start profile sources output).runAll disk finder Phase.all s).2 k
          = some m.image := by
  rw [runAll_of_fixed hf] at hm ⊢
  have hends := ((start profile sources output).checked
    (References.answered profile present found)).emit_ends hd s
  generalize ((start profile sources output).checked
    (References.answered profile present found)).emit disk s = done at hm hends ⊢
  obtain ⟨final, s'⟩ := done
  cases hends with
  | failed _ | refused _ _ _ => cases hm
  | inMemory _ ho =>
    obtain rfl := Option.some.inj hm
    refine ⟨rfl, fun p hp => ?_⟩
    cases ho.symm.trans hp
  | written _ ho _ hk hcontent =>
    obtain rfl := Option.some.inj hm
    refine ⟨rfl, fun p hp => ?_⟩
    obtain rfl := Option.some.inj (hp.symm.trans ho)
    exact ⟨_, hk, by rw [hcontent, Function.update_self]⟩

end Compilation

/-- A module lists paths as its references, in its manifest as well. -/
structure Module.Lists (m : Module) (paths : List Path) : Prop where
  references : m.references = paths.map (·.text)
  manifest : ∃ fields, m.manifest = .object fields ∧
    fields.lookup "references" = some (.array (paths.map fun p => .string p.text))

theorem Module.lists_of_references {m : Module} {paths : List Path}
    (h : m.references = paths.map (·.text)) : m.Lists paths where
  references := h
  manifest := by
    refine ⟨_, rfl, ?_⟩
    rw [h, List.map_map]
    rfl

/-- More libraries that are there change nothing about the answer to a request. -/
theorem Compiler.compileSources_references {K : Type} [DecidableEq K] {files : Creation σ K}
    {disk : Disk (StateM σ)} (hd : files.Describes disk) (hf : finder.Fixed present found s)
    (profile : Profile) {more : List Path} (hmore : ∀ p ∈ more, present p = true)
    (output : Option Path) (sources : List String) :
    (compileSources disk ⟨{ profile with references := profile.references ++ more }, finder⟩
        output sources s).1
      = (compileSources disk ⟨profile, finder⟩ output sources s).1 := by
  by_cases hs : sources = []
  · subst hs
    rfl
  · rw [compileSources_of_ne_nil disk _ output hs, compileSources_of_ne_nil disk _ output hs]
    dsimp only
    rw [Compilation.runAll_of_fixed hf, Compilation.runAll_of_fixed hf]
    have hdiagnostics := Compilation.diagnostics_checked_references profile sources output
      (profile.references ++ more) (References.answered_references profile found hmore)
    rw [Compilation.result_emit_congr hd hdiagnostics rfl rfl rfl]

/-- **The references are the ordered union.**  While a finder gives fixed answers, the
references of a profile are the libraries that are there and then those of anchors that are found,
where they occur first, and each library that is missing is reported.  More anchors keep the
references so far as the first ones and report nothing; more libraries that are there change
nothing about the answer to any request; and every module that is made lists these references, in
its manifest and in the bytes at its output. -/
theorem References.resolve_union {K : Type} [DecidableEq K] {files : Creation σ K}
    {disk : Disk (StateM σ)} (hd : files.Describes disk) (hf : finder.Fixed present found s)
    (profile : Profile) :
    (resolve finder profile.references profile.anchors s).2 = s ∧
    (resolve finder profile.references profile.anchors s).1.IsUnion
      profile.references profile.anchors present found ∧
    (∀ more : List Anchor,
      (resolve finder profile.references profile.anchors s).1.paths
        <+: (resolve finder profile.references (profile.anchors ++ more) s).1.paths ∧
      (resolve finder profile.references (profile.anchors ++ more) s).1.diagnostics
        = (resolve finder profile.references profile.anchors s).1.diagnostics) ∧
    (∀ more : List Path, (∀ p ∈ more, present p = true) →
      ∀ (output : Option Path) (sources : List String),
        (Compiler.compileSources disk
            ⟨{ profile with references := profile.references ++ more }, finder⟩
            output sources s).1
          = (Compiler.compileSources disk ⟨profile, finder⟩ output sources s).1) ∧
    ∀ (output : Option Path) (sources : List String) (m : Module),
      ((Compilation.start profile sources output).runAll disk finder Phase.all s).1.module
        = some m →
      m.Lists (resolve finder profile.references profile.anchors s).1.paths ∧
      ∀ p, output = some p → ∃ k, files.named s p = some k ∧
        files.content
            ((Compilation.start profile sources output).runAll disk finder Phase.all s).2 k
          = some (Module.header ++ m.manifest.pretty.toUTF8) := by
  have hanchors (more : List Anchor) :=
    hf.resolve { profile with anchors := profile.anchors ++ more }
  rw [hf.resolve profile]
  refine ⟨rfl, isUnion_answered profile present found, fun more => ?_, fun more hmore output
    sources => Compiler.compileSources_references hd hf profile hmore output sources,
    fun output sources m hm => ?_⟩
  · rw [hanchors more]
    exact ⟨answered_anchors profile present found more, rfl⟩
  · obtain ⟨hreferences, hbytes⟩ := Compilation.module_runAll hd hf hm
    exact ⟨Module.lists_of_references hreferences, hbytes⟩

end

/-- A tree of files with a folder with one library in it. -/
def shelf : FileTree := (({} : FileTree).put ["lib"] .folder).put ["lib", "a.dll"] (.file .empty)

/-- The hypotheses of `References.resolve_union` are satisfiable: next to a library that is there
and one that is missing, a library that is spelled in another way is no reference more, and the
request is answered in the same way. -/
theorem resolve_union_shelf :
    FileTree.creation.Describes FileTree.disk ∧
    (Finder.byName FileTree.disk).Fixed (fun p => (shelf.entryAt p).toBool)
      (fun a => some ⟨a.fileName⟩) shelf ∧
    (∀ p ∈ [Path.mk "lib//a.dll", ⟨"lib/./a.dll"⟩], (shelf.entryAt p).toBool = true) ∧
    (References.resolve (Finder.byName FileTree.disk)
        [⟨"lib/a.dll"⟩, ⟨"b.dll"⟩, ⟨"lib//a.dll"⟩] [⟨"C", "c"⟩] shelf).1.paths
      = [⟨"lib/a.dll"⟩, ⟨"c.dll"⟩] ∧
    (Compiler.compileSources FileTree.disk
        ⟨{ references := [⟨"lib/a.dll"⟩] ++ [⟨"lib//a.dll"⟩, ⟨"lib/./a.dll"⟩] },
          Finder.byName FileTree.disk⟩ none ["class A;"] shelf).1
      = (Compiler.compileSources FileTree.disk ⟨{ references := [⟨"lib/a.dll"⟩] },
          Finder.byName FileTree.disk⟩ none ["class A;"] shelf).1 := by
  have hfixed : (Finder.byName FileTree.disk).Fixed (fun p => (shelf.entryAt p).toBool)
      (fun a => some ⟨a.fileName⟩) shelf := ⟨fun _ => rfl, fun _ => rfl⟩
  have hmore : ∀ p ∈ [Path.mk "lib//a.dll", ⟨"lib/./a.dll"⟩],
      (shelf.entryAt p).toBool = true := by decide +kernel
  have hunion := (References.resolve_union FileTree.creation_describes hfixed
    { references := [⟨"lib/a.dll"⟩, ⟨"b.dll"⟩, ⟨"lib//a.dll"⟩],
      anchors := [⟨"C", "c"⟩] }).2.1.paths
  refine ⟨FileTree.creation_describes, hfixed, hmore, hunion.trans (by decide +kernel), ?_⟩
  exact (References.resolve_union FileTree.creation_describes hfixed
    { references := [⟨"lib/a.dll"⟩] }).2.2.2.1 _ hmore none _

end Outline
