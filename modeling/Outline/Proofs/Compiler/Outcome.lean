/-
# The outcome of a compile request

A request ends with a result and with files.  What the result says and what the
files hold agree, whatever the sources, the profile and the files are:

| request | rows | success | files |
| --- | --- | --- | --- |
| a phase reports an error | the errors | no | as before |
| no errors, in memory | none | yes | as before |
| no errors, the output is created | none | yes | the image at the output |
| no errors, the output is refused | one `CS2012` | no | as before |

A disk is taken as a `Creation`: a path is either refused, and then nothing
happens, or names a file that takes every byte.  `FileTree.disk` is one.
-/

import Mathlib.Logic.Function.Basic
import Mathlib.Tactic.Set
import Outline.Compiler
import Outline.Files.Tree

namespace Outline

/-- How the files behind a disk are created: which file a path names, what the
files hold, and why a file cannot be created. -/
structure Creation (σ K : Type) where
  named : σ → Path → Option K
  content : σ → K → Option ByteArray
  refusal : σ → Path → Option IoError

/-- Writing either fails without an effect, or gives all bytes to the file that
the path names and touches no other file. -/
structure Creation.Describes {σ K : Type} [DecidableEq K] (files : Creation σ K)
    (disk : Disk (StateM σ)) : Prop where
  refused : ∀ {s p e}, files.refusal s p = some e → ∀ bytes, disk.write p bytes s = (.error e, s)
  created : ∀ {s p}, files.refusal s p = none → ∀ bytes, ∃ k s',
    files.named s p = some k ∧ disk.write p bytes s = (.ok (), s') ∧
      files.content s' = Function.update (files.content s) k (some bytes)

/-- A finder that looks at files without changing them. -/
structure Finder.ReadOnly {σ : Type} (finder : Finder (StateM σ)) : Prop where
  isPresent : ∀ p s, (finder.isPresent p s).2 = s
  find : ∀ a s, (finder.find a s).2 = s

/-! ### Files in memory -/

namespace FileTree

/-- The place that a path names as a file. -/
def target (t : FileTree) (p : Path) : Option Place :=
  match t.lastSegment p with
  | .ok (folder, some segment, false) => some (folder ++ [String.ofList segment])
  | _ => none

/-- The content of the file at a place. -/
def contentAt (t : FileTree) (p : Place) : Option ByteArray :=
  match t.lookup p with
  | some (.file content) => some content
  | _ => none

/-- The files of a tree. -/
def creation : Creation FileTree Place where
  named := target
  content := contentAt
  refusal t p := match t.write p .empty with
    | .ok _ => none
    | .error e => some e

theorem contentAt_put (t : FileTree) {p : Place} (h : p ≠ []) (content : ByteArray) :
    (t.put p (.file content)).contentAt = Function.update t.contentAt p (some content) := by
  funext q
  by_cases hq : q = p
  · subst hq
    rw [Function.update_self, contentAt, lookup_put_self t _ h]
  · rw [Function.update_of_ne hq, contentAt, lookup_put_of_ne t _ hq, contentAt]

/-- Whether and where a file is written does not depend on its content. -/
theorem write_cases (t : FileTree) (p : Path) :
    (∃ e, ∀ content, t.write p content = .error e) ∨
      ∃ place, place ≠ [] ∧ t.target p = some place ∧
        ∀ content, t.write p content = .ok (t.put place (.file content)) := by
  unfold write target
  cases h : t.lastSegment p with
  | error e => exact .inl ⟨e, fun _ => rfl⟩
  | ok last =>
    obtain ⟨folder, segment, slashes⟩ := last
    cases segment with
    | none => exact .inl ⟨.isDirectory, fun _ => rfl⟩
    | some segment =>
      cases slashes with
      | true => exact .inl ⟨.isDirectory, fun _ => rfl⟩
      | false =>
        by_cases hd : isDots segment = true
        · exact .inl ⟨.isDirectory, fun _ => by simp [bind, Except.bind, hd]; rfl⟩
        by_cases hn : 255 < (String.ofList segment).utf8ByteSize
        · exact .inl ⟨.nameTooLong, fun _ => by simp [bind, Except.bind, hd, checkName, hn]⟩
        cases hl : t.lookup (folder ++ [String.ofList segment]) with
        | none =>
          exact .inr ⟨folder ++ [String.ofList segment], by simp, rfl, fun _ => by
            simp [bind, Except.bind, hd, checkName, hn, hl, pure, Except.pure]⟩
        | some entry =>
          cases entry with
          | folder =>
            exact .inl ⟨.isDirectory, fun _ => by
              simp [bind, Except.bind, hd, checkName, hn, hl, throw, throwThe, MonadExceptOf.throw]⟩
          | file old =>
            exact .inr ⟨folder ++ [String.ofList segment], by simp, rfl, fun _ => by
              simp [bind, Except.bind, hd, checkName, hn, hl, pure, Except.pure]⟩

/-- A tree of files refuses a path or creates the file that it names. -/
theorem creation_describes : creation.Describes disk where
  refused := by
    intro t p e h content
    simp only [creation] at h
    obtain ⟨e', he⟩ | ⟨place, -, -, hw⟩ := t.write_cases p
    · rw [he] at h
      simp only [disk, he]
      rw [Option.some.inj h]
    · rw [hw] at h
      simp at h
  created := by
    intro t p h content
    simp only [creation] at h
    obtain ⟨e', he⟩ | ⟨place, hne, ht, hw⟩ := t.write_cases p
    · rw [he] at h
      simp at h
    · refine ⟨place, t.put place (.file content), ht, ?_, contentAt_put t hne content⟩
      simp only [disk, hw]

theorem byName_readOnly : (Finder.byName disk).ReadOnly where
  isPresent _ _ := rfl
  find _ _ := rfl

end FileTree

/-! ### The phases before the last -/

section

variable {σ : Type}

theorem stateBind_apply {α β : Type} (x : StateM σ α) (f : α → StateM σ β) (s : σ) :
    (x >>= f) s = f (x s).1 (x s).2 := rfl

theorem statePure_apply {α : Type} (a : α) (s : σ) : (pure a : StateM σ α) s = (a, s) := rfl

/-- Mapping an action that leaves the state alone leaves the state alone. -/
theorem mapM_state {α β : Type} {f : α → StateM σ β} (h : ∀ a s, (f a s).2 = s) (as : List α)
    (s : σ) : (as.mapM f s).2 = s := by
  induction as generalizing s with
  | nil => rfl
  | cons a as ih =>
    rw [List.mapM_cons, stateBind_apply, stateBind_apply, statePure_apply, h]
    exact ih s

theorem References.resolve_state {finder : Finder (StateM σ)} (hf : finder.ReadOnly)
    (explicit : List Path) (anchors : List Anchor) (s : σ) :
    (References.resolve finder explicit anchors s).2 = s := by
  have hc := mapM_state (f := fun p => (do return (p, ← finder.isPresent p) : StateM σ _))
    (fun p s => hf.isPresent p s) explicit s
  rw [References.resolve, stateBind_apply, stateBind_apply, hc]
  exact mapM_state hf.find anchors s

namespace Compilation

/-- A compilation after all phases but the last, with the references found. -/
def checked (c : Compilation) (r : References) : Compilation := (c.parse.refer r).declare

/-- The types of a module are those of the sources, in the order of the sources. -/
theorem types_described_checked (profile : Profile) (sources : List String) (output : Option Path)
    (r : References) :
    ((start profile sources output).checked r).described.types =
      (sources.mapIdx fun i text => SyntaxTree.parse profile.version ⟨text, i⟩).flatMap
        (·.types) := rfl

/-- All phases are the phases before the last, and then the last one on the files that are
left by looking for the references. -/
theorem runAll_apply (disk : Disk (StateM σ)) (finder : Finder (StateM σ)) (c : Compilation)
    (s : σ) : c.runAll disk finder Phase.all s =
      (c.checked (References.resolve finder c.profile.references c.profile.anchors s).1).emit
        disk (References.resolve finder c.profile.references c.profile.anchors s).2 := by
  simp only [runAll, Phase.all, List.foldlM, run, checked, stateBind_apply, statePure_apply]
  rw [show c.parse.profile = c.profile from rfl]
  rfl

/-- Without a trace of that if libraries are only looked at. -/
theorem runAll_all (disk : Disk (StateM σ)) {finder : Finder (StateM σ)} (hf : finder.ReadOnly)
    (c : Compilation) (s : σ) :
    c.runAll disk finder Phase.all s =
      (c.checked (References.resolve finder c.profile.references c.profile.anchors s).1).emit
        disk s := by
  rw [runAll_apply, References.resolve_state hf c.profile.references c.profile.anchors s]

/-! ### The last phase -/

theorem rows_eq_nil_iff (c : Compilation) : c.result.rows = [] ↔ c.hasErrors = false := by
  simp [result, hasErrors, List.filter_eq_nil_iff]

/-- A compilation with the module that it describes. -/
def made (c : Compilation) : Compilation := { c with module := some c.described }

theorem rows_made (c : Compilation) : c.made.result.rows = c.result.rows := rfl

theorem success_made (c : Compilation) : c.made.result.success = true := rfl

/-- With errors the last phase does nothing. -/
theorem emit_of_hasErrors (disk : Disk (StateM σ)) {c : Compilation} (h : c.hasErrors = true)
    (s : σ) : c.emit disk s = (c, s) := by
  simp [emit, h, statePure_apply]

/-- In memory the last phase makes the module. -/
theorem emit_inMemory (disk : Disk (StateM σ)) {c : Compilation} (h : c.hasErrors = false)
    (ho : c.output = none) (s : σ) :
    c.emit disk s = (c.made, s) := by
  simp [emit, h, ho, statePure_apply, made]

/-- A module that is written is made. -/
theorem emit_written {disk : Disk (StateM σ)} {c : Compilation} (h : c.hasErrors = false)
    {p : Path} (ho : c.output = some p) {s s' : σ}
    (hw : disk.write p c.described.image s = (.ok (), s')) :
    c.emit disk s = (c.made, s') := by
  simp [emit, h, ho, hw, stateBind_apply, statePure_apply, made]

/-- A module that cannot be written is reported. -/
theorem emit_refused {disk : Disk (StateM σ)} {c : Compilation} (h : c.hasErrors = false)
    {p : Path} (ho : c.output = some p) {s : σ} {e : IoError}
    (hw : disk.write p c.described.image s = (.error e, s)) :
    c.emit disk s = (c.report [cannotWrite p e], s) := by
  simp [emit, h, ho, hw, stateBind_apply, statePure_apply]

end Compilation

/-- A request with sources is the run of all phases. -/
theorem Compiler.compileSources_of_ne_nil (disk : Disk (StateM σ)) (c : Compiler (StateM σ))
    (output : Option Path) {sources : List String} (hs : sources ≠ []) (s : σ) :
    c.compileSources disk output sources s =
      let done := (Compilation.start c.profile sources output).runAll disk c.finder Phase.all s
      (.ok done.1.result, done.2) := by
  simp only [compileSources, List.isEmpty_iff, hs, if_false]
  rfl

/-! ### The whole request -/

/-- The row that a refused output adds to a request that had no errors. -/
def Creation.refusedRow? {K : Type} (files : Creation σ K) (s : σ) (success : Bool) :
    Option Path → Option Row
  | some p => if success then (files.refusal s p).map fun e => (Compilation.cannotWrite p e).row
    else none
  | none => none

/-- The run of all phases, by what became of the phases before the last: the
compilation after them, the compilation at the end, and the files at the end. -/
inductive Compilation.Ends {K : Type} [DecidableEq K] (files : Creation σ K) (c : Compilation)
    (s : σ) : Compilation → σ → Prop
  /-- An error was reported; nothing happens. -/
  | failed (h : c.hasErrors = true) : Ends files c s c s
  /-- The module is made and dropped. -/
  | inMemory (h : c.hasErrors = false) (ho : c.output = none) :
      Ends files c s c.made s
  /-- The module is made and its image written. -/
  | written (h : c.hasErrors = false) {p : Path} (ho : c.output = some p)
      (hr : files.refusal s p = none) {k : K} {s' : σ} (hk : files.named s p = some k)
      (hc : files.content s' = Function.update (files.content s) k (some c.described.image)) :
      Ends files c s c.made s'
  /-- The output is refused. -/
  | refused (h : c.hasErrors = false) {p : Path} (ho : c.output = some p) {e : IoError}
      (hr : files.refusal s p = some e) : Ends files c s (c.report [cannotWrite p e]) s

theorem Compilation.emit_ends {K : Type} [DecidableEq K] {files : Creation σ K}
    {disk : Disk (StateM σ)} (hd : files.Describes disk) (c : Compilation) (s : σ) :
    c.Ends files s (c.emit disk s).1 (c.emit disk s).2 := by
  cases h : c.hasErrors with
  | true =>
    rw [emit_of_hasErrors disk h]
    exact .failed h
  | false =>
    cases ho : c.output with
    | none =>
      rw [emit_inMemory disk h ho]
      exact .inMemory h ho
    | some p =>
      cases hr : files.refusal s p with
      | some e =>
        rw [emit_refused h ho (hd.refused hr _)]
        exact .refused h ho hr
      | none =>
        obtain ⟨k, s', hk, hw, hc⟩ := hd.created hr c.described.image
        rw [emit_written h ho hw]
        exact .written h ho hr hk hc

/-- What a request with the last state `final` and the files `s'` keeps to, when the
same sources give the result `memory` in memory. -/
structure Compilation.Settled {K : Type} [DecidableEq K] (files : Creation σ K) (profile : Profile)
    (sources : List String) (output : Option Path) (s : σ) (final : Compilation) (s' : σ)
    (memory : CompileResult) : Prop where
  success_iff : final.result.success = true ↔ final.result.rows = []
  rows : final.result.rows = (final.diagnostics.filter (·.severity = .error)).map (·.row)
  /-- A request that fails leaves the files alone. -/
  failed : final.result.success = false → s' = s
  /-- A request in memory leaves the files alone. -/
  unkept : output = none → s' = s
  /-- A request that succeeds gives the file at its output the image of a module
  with the types of all sources, and touches no other file. -/
  kept : final.result.success = true → ∀ p, output = some p → ∃ k m,
    final.module = some m ∧ files.named s p = some k ∧
    files.content s' = Function.update (files.content s) k
      (some (Module.header ++ m.manifest.pretty.toUTF8)) ∧
    m.types = (sources.mapIdx fun i text => SyntaxTree.parse profile.version ⟨text, i⟩).flatMap
      (·.types)
  /-- Next to the request in memory there is the row of a refused output and
  nothing else. -/
  rows_memory : final.result.rows =
    memory.rows ++ (files.refusedRow? s memory.success output).toList
  success_memory : final.result.success =
    (memory.success && (files.refusedRow? s memory.success output).isNone)
  refused_code : ∀ row ∈ files.refusedRow? s memory.success output, row.code = "CS2012"

theorem Creation.code_of_refusedRow? {K : Type} (files : Creation σ K) (s : σ) (success : Bool)
    (output : Option Path) : ∀ row ∈ files.refusedRow? s success output, row.code = "CS2012" := by
  intro row h
  cases output with
  | none => simp [refusedRow?] at h
  | some p =>
    simp only [refusedRow?, Option.mem_def] at h
    split at h
    · obtain ⟨e, -, rfl⟩ := Option.map_eq_some_iff.1 h
      rfl
    · simp at h

/-- In memory a compilation without errors ends with a module, and any other as it is. -/
theorem Compilation.Ends.result_of_output_none {K : Type} [DecidableEq K] {files : Creation σ K}
    {c final : Compilation} {s s' : σ} (h : c.Ends files s final s') (ho : c.output = none)
    (hm : c.module = none) :
    s' = s ∧ final.result.rows = c.result.rows ∧ final.result.success = !c.hasErrors := by
  cases h with
  | failed h => exact ⟨rfl, rfl, by rw [h, Compilation.result, hm]; rfl⟩
  | inMemory h _ => exact ⟨rfl, rfl, by rw [h]; rfl⟩
  | written _ ho' _ _ _ => simp [ho] at ho'
  | refused _ ho' _ => simp [ho] at ho'

/-! ### A settled request, by the way its run ends -/

namespace Compilation

variable {K : Type} [DecidableEq K] {files : Creation σ K} {profile : Profile}
  {sources : List String} {output : Option Path} {s s' : σ} {p : Path} {c : Compilation}
  {memory : CompileResult}

/-- The rows of a result are those of the errors, in their order. -/
theorem rows_eq (c : Compilation) :
    c.result.rows = (c.diagnostics.filter (·.severity = .error)).map (·.row) := by
  simp [result, Diagnostic.isError, beq_eq_decide]

/-- A result is a success only if a module was made. -/
theorem success_eq_false (hm : c.module = none) : c.result.success = false := by
  rw [result, hm]
  rfl

/-- Where there were no errors, the row of a refused output is the only one. -/
theorem rows_cannotWrite (h : c.hasErrors = false) (p : Path) (e : IoError) :
    (c.report [cannotWrite p e]).result.rows = [(cannotWrite p e).row] := by
  have hnone := (rows_eq_nil_iff c).2 h
  rw [result, List.map_eq_nil_iff] at hnone
  simp only [result, report, List.filter_append, hnone]
  rfl

-- What the same request gives in memory: its errors, and a success if there are none.
variable (hrows : memory.rows = c.result.rows) (hsuccess : memory.success = !c.hasErrors)

include hrows hsuccess

/-- A phase before the last reported an error: nothing is made and nothing written. -/
theorem settled_failed (hm : c.module = none) (h : c.hasErrors = true) :
    Settled files profile sources output s c s memory := by
  have hfail := success_eq_false hm
  have hne : c.result.rows ≠ [] := fun hnil =>
    Bool.false_ne_true (((rows_eq_nil_iff c).1 hnil).symm.trans h)
  rw [h, Bool.not_true] at hsuccess
  have hrefused : files.refusedRow? s memory.success output = none := by
    cases output <;> simp [Creation.refusedRow?, hsuccess]
  exact {
    success_iff := by simp [hfail, hne]
    rows := c.rows_eq
    failed := fun _ => rfl
    unkept := fun _ => rfl
    kept := by simp [hfail]
    rows_memory := by simp [hrefused, hrows]
    success_memory := by simp [hfail, hsuccess]
    refused_code := by simp [hrefused] }

/-- There was no error and there is no output: the module is the result. -/
theorem settled_inMemory (h : c.hasErrors = false) :
    Settled files profile sources none s c.made s memory := by
  rw [h, Bool.not_false] at hsuccess
  exact {
    success_iff := by simpa [success_made, rows_made] using (rows_eq_nil_iff c).2 h
    rows := c.made.rows_eq
    failed := fun _ => rfl
    unkept := fun _ => rfl
    kept := by simp
    rows_memory := by simpa [Creation.refusedRow?, rows_made] using hrows.symm
    success_memory := by simp [Creation.refusedRow?, hsuccess, success_made]
    refused_code := files.code_of_refusedRow? s _ _ }

/-- There was no error and the output is created: it holds the image of the module. -/
theorem settled_written (h : c.hasErrors = false)
    (htypes : c.described.types =
      (sources.mapIdx fun i text => SyntaxTree.parse profile.version ⟨text, i⟩).flatMap (·.types))
    (hr : files.refusal s p = none) {k : K} (hk : files.named s p = some k)
    (hc : files.content s' = Function.update (files.content s) k (some c.described.image)) :
    Settled files profile sources (some p) s c.made s' memory := by
  have hrefused : files.refusedRow? s memory.success (some p) = none := by
    simp [Creation.refusedRow?, hr]
  rw [h, Bool.not_false] at hsuccess
  exact {
    success_iff := by simpa [success_made, rows_made] using (rows_eq_nil_iff c).2 h
    rows := c.made.rows_eq
    failed := by simp [success_made]
    unkept := by simp
    kept := fun _ q hq => ⟨k, _, rfl, Option.some.inj hq ▸ hk, hc, htypes⟩
    rows_memory := by simpa [hrefused, rows_made] using hrows.symm
    success_memory := by
      rw [hrefused, hsuccess, success_made]
      rfl
    refused_code := files.code_of_refusedRow? s _ _ }

/-- There was no error but the output is refused: that is the one error of the request. -/
theorem settled_refused (hm : c.module = none) (h : c.hasErrors = false) {e : IoError}
    (hr : files.refusal s p = some e) :
    Settled files profile sources (some p) s (c.report [cannotWrite p e]) s memory := by
  have hfail : (c.report [cannotWrite p e]).result.success = false := success_eq_false hm
  have hrow := rows_cannotWrite h p e
  have hnone : memory.rows = [] := hrows.trans ((rows_eq_nil_iff c).2 h)
  rw [h, Bool.not_false] at hsuccess
  have hrefused : files.refusedRow? s memory.success (some p) = some (cannotWrite p e).row := by
    simp [Creation.refusedRow?, hr, hsuccess]
  exact {
    success_iff := by simp [hfail, hrow]
    rows := (c.report [cannotWrite p e]).rows_eq
    failed := fun _ => rfl
    unkept := by simp
    kept := by simp [hfail]
    rows_memory := by simp [hrefused, hrow, hnone]
    success_memory := by simp [hrefused, hfail]
    refused_code := files.code_of_refusedRow? s _ _ }

end Compilation

/-- What the last phase does settles the request. -/
theorem Compilation.Ends.settled {K : Type} [DecidableEq K] {files : Creation σ K}
    {profile : Profile} {sources : List String} {output : Option Path} {r : References}
    {s s' s₀ : σ} {final final₀ : Compilation}
    (h : ((start profile sources output).checked r).Ends files s final s')
    (h₀ : ((start profile sources none).checked r).Ends files s final₀ s₀) :
    Settled files profile sources output s final s' final₀.result := by
  obtain ⟨-, hrows, hsuccess⟩ := h₀.result_of_output_none rfl rfl
  -- The errors of the phases before the last do not depend on the output.
  have hrows : final₀.result.rows = ((start profile sources output).checked r).result.rows := hrows
  have hsuccess : final₀.result.success = !((start profile sources output).checked r).hasErrors :=
    hsuccess
  cases h with
  | failed h => exact settled_failed hrows hsuccess rfl h
  | inMemory h ho =>
    obtain rfl : output = none := ho
    exact settled_inMemory hrows hsuccess h
  | written h ho hr hk hc =>
    obtain rfl : output = some _ := ho
    exact settled_written hrows hsuccess h (types_described_checked profile sources _ r) hr hk hc
  | refused h ho hr =>
    obtain rfl : output = some _ := ho
    exact settled_refused hrows hsuccess rfl h hr

/-- **The result of a request, its rows and its files agree.**  For every profile,
every way to find libraries, every non-empty list of sources, every output and all
files: a request succeeds exactly if it has no rows, its rows are the errors of the
last state, a failure changes no file and a success only the output, and next to the
same request in memory there is at most the row of an output that was refused. -/
theorem Compiler.compileSources_settled {K : Type} [DecidableEq K] {files : Creation σ K}
    {disk : Disk (StateM σ)} (hd : files.Describes disk) (c : Compiler (StateM σ))
    (hf : c.finder.ReadOnly) (output : Option Path) {sources : List String} (hs : sources ≠ [])
    (s : σ) :
    ∃ final s' memory,
      (Compilation.start c.profile sources output).runAll disk c.finder Phase.all s
          = (final, s') ∧
        c.compileSources disk output sources s = (.ok final.result, s') ∧
        c.compileSources disk none sources s = (.ok memory, s) ∧
        Compilation.Settled files c.profile sources output s final s' memory := by
  set r := (References.resolve c.finder c.profile.references c.profile.anchors s).1
  have hall : ∀ out, (Compilation.start c.profile sources out).runAll disk c.finder Phase.all s =
      ((Compilation.start c.profile sources out).checked r).emit disk s := fun out =>
    Compilation.runAll_all disk hf _ s
  have hrun : ∀ out, c.compileSources disk out sources s =
      (.ok (((Compilation.start c.profile sources out).checked r).emit disk s).1.result,
        (((Compilation.start c.profile sources out).checked r).emit disk s).2) := fun out => by
    rw [c.compileSources_of_ne_nil disk out hs, hall out]
  have hkept := ((Compilation.start c.profile sources output).checked r).emit_ends hd s
  have hmemory := ((Compilation.start c.profile sources none).checked r).emit_ends hd s
  have hstill := (hmemory.result_of_output_none rfl rfl).1
  refine ⟨_, _, _, hall output, hrun output, ?_, hkept.settled hmemory⟩
  rw [hrun none, hstill]

end

/-- The hypotheses of `Compiler.compileSources_settled` are satisfiable: an empty tree
of files, libraries taken by their names, and one source with an output. -/
theorem compileSources_settled_fileTree :
    FileTree.creation.Describes FileTree.disk ∧ (Finder.byName FileTree.disk).ReadOnly ∧
      ["class A;"] ≠ [] ∧
      ∃ final s' memory,
        (Compilation.start {} ["class A;"] (some ⟨"A.dll"⟩)).runAll FileTree.disk
            (Finder.byName FileTree.disk) Phase.all {} = (final, s') ∧
          Compiler.compileSources FileTree.disk ⟨{}, Finder.byName FileTree.disk⟩
            (some ⟨"A.dll"⟩) ["class A;"] {} = (.ok final.result, s') ∧
          Compiler.compileSources FileTree.disk ⟨{}, Finder.byName FileTree.disk⟩ none
            ["class A;"] {} = (.ok memory, {}) ∧
          Compilation.Settled FileTree.creation {} ["class A;"] (some ⟨"A.dll"⟩) {} final s'
            memory :=
  ⟨FileTree.creation_describes, FileTree.byName_readOnly, by simp,
    Compiler.compileSources_settled FileTree.creation_describes
      ⟨{}, Finder.byName FileTree.disk⟩ FileTree.byName_readOnly (some ⟨"A.dll"⟩) (by simp) {}⟩

end Outline
