/-
# The order of the sources

Whether a set of sources compiles does not depend on the order in which they are
given, and neither does what the module declares.  The order decides what is reported
and where:

| what is reported | in another order |
| --- | --- |
| by the parser | the same of every source |
| of references | the same |
| of types that are declared twice | perhaps of other declarations, and of more or fewer |
| of a missing entry point | the same |

Only the first declaration of a name is remembered, so the number of duplicates depends
on which of them comes first.  That there is none does not: any two declarations of
one name are then both partial (`duplicates_eq_nil_iff`).
-/

import Outline.Proofs.Compiler.Versions

namespace Outline

/-! ### Types that are declared twice -/

/-- Two types can be declared side by side: they differ in their names, or each is a part
of the same type. -/
def TypeSymbol.Agree {P : Type} (t u : TypeSymbol P) : Prop :=
  t.fullName = u.fullName → t.isPartial = true ∧ u.isPartial = true

theorem TypeSymbol.Agree.symm {P : Type} {t u : TypeSymbol P} (h : t.Agree u) : u.Agree t :=
  fun hn => (h hn.symm).symm

namespace Compilation

/-- The types that have a name. -/
def named (ts : List (TypeSymbol Nat)) : List (TypeSymbol Nat) := ts.filter (·.name ≠ "")

/-- A type can be declared after those that were seen. -/
def Fits (seen : List (String × Bool)) (t : TypeSymbol Nat) : Prop :=
  ∀ isPartial ∈ seen.lookup t.fullName, isPartial = true ∧ t.isPartial = true

/-- What a name that was not seen adds to the names that were. -/
theorem fits_cons_iff {seen : List (String × Bool)} {t u : TypeSymbol Nat}
    (ht : seen.lookup t.fullName = none) :
    Fits ((t.fullName, t.isPartial) :: seen) u ↔ Fits seen u ∧ t.Agree u := by
  unfold Fits TypeSymbol.Agree
  rw [List.lookup_cons]
  by_cases h : u.fullName = t.fullName
  · simp [h, ht]
  · have hne : (u.fullName == t.fullName) = false := by simpa using h
    simp [hne, Ne.symm h]

/-- **Nothing is declared twice** if and only if every type fits to those that were seen,
and any two types agree. -/
theorem duplicates_eq_nil_iff (seen : List (String × Bool)) (ds : List (Source × TypeSymbol Nat)) :
    duplicates seen ds = [] ↔
      (∀ t ∈ named (ds.map (·.2)), Fits seen t) ∧
        (named (ds.map (·.2))).Pairwise TypeSymbol.Agree := by
  induction ds generalizing seen with
  | nil => simp [duplicates, named]
  | cons d ds ih =>
    obtain ⟨source, t⟩ := d
    rw [duplicates]
    split
    · rename_i hname
      have hskip : named (((source, t) :: ds).map (·.2)) = named (ds.map (·.2)) := by
        simp [named, hname]
      rw [hskip, ih]
    rename_i hname
    have htake : named (((source, t) :: ds).map (·.2)) = t :: named (ds.map (·.2)) := by
      simp [named, hname]
    rw [htake, List.forall_mem_cons, List.pairwise_cons]
    split
    · rename_i first hfirst
      have hfit : Fits seen t ↔ (first && t.isPartial) = true := by
        simp [Fits, hfirst]
      split
      · rename_i hpartial
        rw [ih, hfit]
        refine ⟨fun ⟨hall, hpair⟩ => ⟨⟨hpartial, hall⟩, fun u hu hn => ?_, hpair⟩,
          fun ⟨⟨_, hall⟩, _, hpair⟩ => ⟨hall, hpair⟩⟩
        -- The first declaration of the name was partial, so the two are parts of it.
        have hu' := hall u hu first (by rw [← hn]; exact hfirst)
        rw [Bool.and_eq_true] at hpartial
        exact ⟨hpartial.2, hu'.2⟩
      · rename_i hpartial
        exact ⟨fun h => absurd h (List.cons_ne_nil _ _), fun h => absurd (hfit.1 h.1.1) hpartial⟩
    · rename_i hfresh
      have hfit : Fits seen t := by simp [Fits, hfresh]
      rw [ih]
      simp only [fits_cons_iff hfresh, forall_and, hfit, true_and, and_assoc]

/-- The checks across sources are passed by types of which any two agree, and among
which there is an entry point if one is needed. -/
theorem checks_any_isError (c : Compilation) : c.checks.any (·.isError) = false ↔
    (named c.types).Pairwise TypeSymbol.Agree ∧ c.lacksEntryPoint = false := by
  have herror : ∀ seen ds, ∀ d ∈ duplicates seen ds, d.isError = true := by
    intro seen ds
    fun_induction duplicates seen ds with
    | case1 => simp
    | case2 _ _ _ _ _ ih => exact ih
    | case3 _ _ _ _ _ _ _ _ ih => exact ih
    | case4 _ _ _ _ _ _ _ _ ih => exact List.forall_mem_cons.2 ⟨rfl, ih⟩
    | case5 _ _ _ _ _ _ ih => exact ih
  have hnil : (duplicates [] c.declarations).any (·.isError) = false ↔
      duplicates [] c.declarations = [] := by
    refine ⟨fun h => List.eq_nil_iff_forall_not_mem.2 fun d hd => ?_, fun h => by rw [h]; rfl⟩
    exact List.any_eq_false.1 h d hd (herror _ _ d hd)
  have hfits : ∀ t ∈ named c.types, Fits [] t := fun t _ => by simp [Fits]
  rw [checks, List.any_append, Bool.or_eq_false_iff, hnil, duplicates_eq_nil_iff,
    ← types_eq_map_declarations, and_iff_right hfits]
  cases c.lacksEntryPoint <;> simp [noEntryPoint, Diagnostic.error, Diagnostic.isError]

end Compilation

/-! ### Sources without their numbers -/

namespace SyntaxTree

/-- The number of a source appears in locations only. -/
theorem hasErrors_parse_index (version : Language.Version) (text : String) (i j : Nat) :
    (parse version ⟨text, i⟩).hasErrors = (parse version ⟨text, j⟩).hasErrors := by
  have hlexical : ∀ k, (lexicalDiagnostics ⟨text, k⟩).any (·.isError)
      = (Lexer.faultsFrom 0 (Lexer.pieces true text.toList)).any
          fun x => x.1.diagnostic.isError := fun k => by
    rw [lexicalDiagnostics, List.any_map]
    rfl
  have hreported : ∀ k, (reported version ⟨text, k⟩).any (·.isError)
      = ((findings ⟨text, k⟩).filterMap fun x =>
          (x.cause.diagnostic? version).map (·.isError)).any id := fun k => by
    rw [← map_reported version ⟨text, k⟩ (·.isError) fun _ _ => rfl, List.any_map]
    rfl
  rw [hasErrors_eq, hasErrors_eq, hlexical, hlexical, hreported, hreported]
  rfl

end SyntaxTree

namespace Compilation

/-- What does not depend on the numbers of sources, of all trees that are parsed next. -/
theorem flatMap_parsed_eq {α : Type} (c : Compilation) (part : SyntaxTree → List α)
    (hpart : ∀ version text i j,
      part (SyntaxTree.parse version ⟨text, i⟩) = part (SyntaxTree.parse version ⟨text, j⟩)) :
    c.parsed.flatMap part =
      c.sources.flatMap fun text => part (SyntaxTree.parse c.profile.version ⟨text, 0⟩) := by
  rw [parsed, List.mapIdx_eq_zipIdx_map, List.flatMap_map]
  conv_rhs => rw [← List.zipIdx_map_fst 0 c.sources, List.flatMap_map]
  exact List.flatMap_congr fun x _ => hpart c.profile.version x.1 x.2 0

theorem any_parsed_eq (c : Compilation) : c.parsed.any (·.hasErrors) =
    c.sources.any fun text => (SyntaxTree.parse c.profile.version ⟨text, 0⟩).hasErrors := by
  have h := c.flatMap_parsed_eq (fun t => [t.hasErrors]) fun version text i j => by
    rw [SyntaxTree.hasErrors_parse_index version text i j]
  have hany := congrArg (List.any · id) h
  simpa [List.any_flatMap] using hany

/-! ### Compilations that differ in the order of their sources -/

section

variable (profile : Profile) (output : Option Path) (r : References) {xs ys : List String}

/-- The phases before the last learn the same types from sources in another order. -/
theorem types_checked_perm (h : xs.Perm ys) : ((start profile xs output).checked r).types.Perm
    ((start profile ys output).checked r).types := by
  have types : ∀ zs, ((start profile zs output).checked r).types
      = zs.flatMap fun text => (SyntaxTree.parse profile.version ⟨text, 0⟩).types := fun zs =>
    (start profile zs output).flatMap_parsed_eq (·.types) fun _ _ _ _ => by
      rw [SyntaxTree.types_parse, SyntaxTree.types_parse]
  rw [types, types]
  exact h.flatMap_right _

/-- They learn the same usings. -/
theorem mem_usings_checked_perm (h : xs.Perm ys) (u : String) :
    u ∈ ((start profile xs output).checked r).usings ↔
      u ∈ ((start profile ys output).checked r).usings := by
  have mem : ∀ ss : List String, u ∈ withoutRepeats ss ↔ u ∈ ss := by
    intro ss
    induction ss with
    | nil => rfl
    | cons s ss ih =>
      rw [withoutRepeats, List.mem_cons, List.mem_cons, List.mem_filter, ih]
      by_cases hs : u = s <;> simp [hs]
  have trees : ∀ zs, ((start profile zs output).checked r).trees.flatMap (·.usings)
      = zs.flatMap fun text => (SyntaxTree.parse profile.version ⟨text, 0⟩).usings := fun zs =>
    (start profile zs output).flatMap_parsed_eq (·.usings) fun _ _ _ _ => by
      rw [SyntaxTree.usings_parse, SyntaxTree.usings_parse]
  rw [usings, usings, mem, mem, List.mem_append, List.mem_append, trees, trees,
    (h.flatMap_right _).mem_iff]
  rfl

/-- **The order of sources does not decide whether there are errors.** -/
theorem hasErrors_checked_perm (h : xs.Perm ys) :
    ((start profile xs output).checked r).hasErrors
      = ((start profile ys output).checked r).hasErrors := by
  have htypes := types_checked_perm profile output r h
  have hagree : (named ((start profile xs output).checked r).types).Pairwise TypeSymbol.Agree ↔
      (named ((start profile ys output).checked r).types).Pairwise TypeSymbol.Agree :=
    (htypes.filter _).pairwise_iff fun h => h.symm
  have hentry : ((start profile xs output).parse.refer r).lacksEntryPoint
      = ((start profile ys output).parse.refer r).lacksEntryPoint :=
    congrArg (profile.outputKind == .console && !·) htypes.any_eq
  have hchecks : (((start profile xs output).parse.refer r).checks.any (·.isError))
      = (((start profile ys output).parse.refer r).checks.any (·.isError)) := by
    rw [Bool.eq_iff_iff, ← Bool.not_eq_false, ← Bool.not_eq_false (b := List.any _ _),
      not_iff_not, checks_any_isError, checks_any_isError, hentry]
    exact and_congr_left' hagree
  rw [hasErrors_checked, hasErrors_checked, any_parsed_eq, any_parsed_eq, hchecks]
  congr 3
  exact h.any_eq

end

end Compilation

/-- **The order of sources does not decide whether they compile.**  For every profile,
every way to find libraries and all files, sources that are not kept as a module are
compiled in any order with the same success, and if they are then the modules declare
the same types, import the same namespaces and refer to the same libraries. -/
theorem Compiler.compileSources_perm {σ : Type} (disk : Disk (StateM σ)) (c : Compiler (StateM σ))
    {xs ys : List String} (hs : xs ≠ []) (h : xs.Perm ys) (s : σ) :
    ∃ first second s',
      (Compilation.start c.profile xs none).runAll disk c.finder Phase.all s = (first, s') ∧
        (Compilation.start c.profile ys none).runAll disk c.finder Phase.all s = (second, s') ∧
        c.compileSources disk none xs s = (.ok first.result, s') ∧
        c.compileSources disk none ys s = (.ok second.result, s') ∧
        first.result.success = second.result.success ∧
        ∀ m, first.module = some m → ∃ n, second.module = some n ∧
          m.types.Perm n.types ∧ (∀ u, u ∈ m.usings ↔ u ∈ n.usings) ∧
          m.references = n.references := by
  set found := References.resolve c.finder c.profile.references c.profile.anchors s
  set d := (Compilation.start c.profile xs none).checked found.1 with hd
  set e := (Compilation.start c.profile ys none).checked found.1 with he
  have herrors : d.hasErrors = e.hasErrors :=
    Compilation.hasErrors_checked_perm c.profile none found.1 h
  have htypes := Compilation.types_checked_perm c.profile none found.1 h
  have hall : ∀ zs, (Compilation.start c.profile zs none).runAll disk c.finder Phase.all s
      = ((Compilation.start c.profile zs none).checked found.1).emit disk found.2 := fun zs =>
    Compilation.runAll_apply disk c.finder _ s
  have hys : ys ≠ [] := fun hn => hs (List.perm_nil.1 (hn ▸ h))
  rw [c.compileSources_of_ne_nil disk none hs, c.compileSources_of_ne_nil disk none hys, hall, hall,
    ← hd, ← he]
  cases hfail : e.hasErrors with
  | true =>
    rw [Compilation.emit_of_hasErrors disk (herrors.trans hfail),
      Compilation.emit_of_hasErrors disk hfail]
    exact ⟨d, e, found.2, rfl, rfl, rfl, rfl, rfl, fun m hm => by cases hm⟩
  | false =>
    rw [Compilation.emit_inMemory disk (herrors.trans hfail) rfl,
      Compilation.emit_inMemory disk hfail rfl]
    refine ⟨d.made, e.made, found.2, rfl, rfl, rfl, rfl, rfl, fun m hm => ?_⟩
    obtain rfl := Option.some.inj hm
    exact ⟨e.described, rfl, htypes,
      Compilation.mem_usings_checked_perm c.profile none found.1 h, rfl⟩

/-- The hypotheses of `Compiler.compileSources_perm` are satisfiable: the parts of a type
with another type between them or before them. -/
theorem compileSources_perm_fileTree :
    let xs := ["partial class A \x7b \x7d", "using B; class C;", "partial class A;"]
    let ys := ["using B; class C;", "partial class A;", "partial class A \x7b \x7d"]
    let c : Compiler (StateM FileTree) := ⟨{}, Finder.byName FileTree.disk⟩
    xs ≠ [] ∧ xs.Perm ys ∧
      ∃ first second s',
        (Compilation.start c.profile xs none).runAll FileTree.disk c.finder Phase.all {}
            = (first, s') ∧
          (Compilation.start c.profile ys none).runAll FileTree.disk c.finder Phase.all {}
            = (second, s') ∧
          c.compileSources FileTree.disk none xs {} = (.ok first.result, s') ∧
          c.compileSources FileTree.disk none ys {} = (.ok second.result, s') ∧
          first.result.success = second.result.success ∧
          ∀ m, first.module = some m → ∃ n, second.module = some n ∧
            m.types.Perm n.types ∧ (∀ u, u ∈ m.usings ↔ u ∈ n.usings) ∧
            m.references = n.references :=
  ⟨by decide, by decide, Compiler.compileSources_perm FileTree.disk _ (by decide) (by decide) {}⟩

end Outline
