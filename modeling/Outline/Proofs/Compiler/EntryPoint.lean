/-
# Entry points

A program is run from its method `Main`.  Whether there is one is looked up in all types of all
trees, at any depth, by the kind and the name of members alone.  Whether it is static is not
looked at, though only a static method can be an entry point:

| methods `Main` | reported as missing | can be run |
| --- | --- | --- |
| none | yes | no |
| at least one that is static | no | yes |
| some, none of them static | no | no |

No other part of a run has anything to say of entry points.
-/

import Outline.Proofs.Compiler.Codes
import Outline.Proofs.Compiler.Duplicates

namespace Outline

/-! ### Members at any depth -/

namespace TypeSymbol

variable {P : Type}

/-- A type is another one, or nested in it at some depth. -/
inductive Within : TypeSymbol P → TypeSymbol P → Prop
  | refl (t : TypeSymbol P) : Within t t
  | nested {t u v : TypeSymbol P} (hv : v ∈ t.nested) (h : Within u v) : Within u t

mutual

/-- The members of a type and of the types nested in it. -/
def allMembers (t : TypeSymbol P) : List MemberSymbol :=
  match t with
  | ⟨_, _, _, _, _, members, nested, _⟩ => members ++ membersOfAll nested

/-- The members of types and of the types nested in them. -/
def membersOfAll : List (TypeSymbol P) → List MemberSymbol
  | [] => []
  | t :: ts => allMembers t ++ membersOfAll ts

end

mutual

theorem mem_allMembers {m : MemberSymbol} :
    ∀ t : TypeSymbol P, m ∈ t.allMembers ↔ ∃ u : TypeSymbol P, u.Within t ∧ m ∈ u.members
  | ⟨a, b, c, d, e, members, nested, p⟩ => by
    rw [allMembers, List.mem_append, mem_membersOfAll nested]
    constructor
    · rintro (h | ⟨v, hv, u, hu, hm⟩)
      · exact ⟨_, .refl _, h⟩
      · exact ⟨u, .nested hv hu, hm⟩
    · rintro ⟨u, hu, hm⟩
      cases hu with
      | refl => exact .inl hm
      | nested hv h => exact .inr ⟨_, hv, u, h, hm⟩

theorem mem_membersOfAll {m : MemberSymbol} : ∀ ts : List (TypeSymbol P),
    m ∈ membersOfAll ts ↔ ∃ t ∈ ts, ∃ u : TypeSymbol P, u.Within t ∧ m ∈ u.members
  | [] => by simp [membersOfAll]
  | t :: ts => by
    rw [membersOfAll, List.mem_append, mem_allMembers t, mem_membersOfAll ts]
    simp only [List.exists_mem_cons_iff]

end

mutual

theorem hasMethod_eq_any (name : String) : ∀ t : TypeSymbol P,
    t.hasMethod name = t.allMembers.any fun m => m.kind == .method && m.name == name
  | ⟨_, _, _, _, _, _, nested, _⟩ => by
    rw [hasMethod, allMembers, List.any_append, anyHasMethod_eq_any_membersOfAll name nested]

theorem anyHasMethod_eq_any_membersOfAll (name : String) : ∀ ts : List (TypeSymbol P),
    anyHasMethod name ts
      = (membersOfAll ts).any fun m => m.kind == .method && m.name == name
  | [] => rfl
  | t :: ts => by
    rw [anyHasMethod, membersOfAll, List.any_append, hasMethod_eq_any name t,
      anyHasMethod_eq_any_membersOfAll name ts]

end

end TypeSymbol

/-- A method that is called as an entry point is. -/
def MemberSymbol.IsMain (m : MemberSymbol) : Prop := m.kind = .method ∧ m.name = "Main"

instance (m : MemberSymbol) : Decidable m.IsMain := inferInstanceAs (Decidable (_ ∧ _))

/-- A member of a type of one of the trees, at any depth. -/
def SyntaxTree.Declares (trees : List SyntaxTree) (m : MemberSymbol) : Prop :=
  ∃ tree ∈ trees, ∃ t ∈ tree.types, ∃ u : TypeSymbol Nat, u.Within t ∧ m ∈ u.members

theorem SyntaxTree.declares_iff {trees : List SyntaxTree} {m : MemberSymbol} :
    Declares trees m ↔ m ∈ trees.flatMap (TypeSymbol.membersOfAll ·.types) := by
  simp only [Declares, List.mem_flatMap, TypeSymbol.mem_membersOfAll]

/-! ### What is said of entry points -/

/-- The code of a missing entry point. -/
def Diagnostic.isEntryPoint (d : Diagnostic) : Bool := d.code == "CS5001"

namespace Compilation

open SyntaxTree (Declares)
open TypeSymbol (membersOfAll)

/-- Whether a method `Main` is declared, as the check sees it. -/
theorem lacksEntryPoint_iff (c : Compilation) : c.lacksEntryPoint = true ↔
    c.profile.outputKind = .console ∧ ∀ m, Declares c.trees m → ¬m.IsMain := by
  have hany : c.types.any (·.hasMethod "Main") = true ↔ ∃ m, Declares c.trees m ∧ m.IsMain := by
    simp only [types, List.any_eq_true, List.mem_flatMap, TypeSymbol.hasMethod_eq_any,
      TypeSymbol.mem_allMembers, Bool.and_eq_true, beq_iff_eq]
    constructor
    · rintro ⟨t, ⟨tree, htree, ht⟩, m, hm, hmain⟩
      exact ⟨m, ⟨tree, htree, t, ht, hm⟩, hmain⟩
    · rintro ⟨m, ⟨tree, htree, t, ht, hm⟩, hmain⟩
      exact ⟨t, ⟨tree, htree, ht⟩, m, hm, hmain⟩
  rw [lacksEntryPoint, Bool.and_eq_true, beq_iff_eq, Bool.not_eq_true', ← Bool.not_eq_true, hany]
  simp only [not_exists, not_and]

/-- What is reported of a missing entry point. -/
def entryPointReports (c : Compilation) : List Diagnostic := c.diagnostics.filter (·.isEntryPoint)

/-- The phases before the last say of entry points what the check says. -/
theorem entryPointReports_checked (profile : Profile) (sources : List String)
    (output : Option Path) {r : References} (hr : ∀ d ∈ r.diagnostics, d.code = "CS0006") :
    ((start profile sources output).checked r).entryPointReports
      = if (start profile sources output).parse.lacksEntryPoint then [noEntryPoint] else [] := by
  set c := start profile sources output
  have hsources : (c.parsed.flatMap (·.diagnostics)).filter (·.isEntryPoint) = [] :=
    List.filter_eq_nil_iff.2 fun d hd =>
      Bool.eq_false_iff.1 (Diagnostic.isOfSource_ne (isOfSource_parsed hd) rfl)
  have hreferences : r.diagnostics.filter (·.isEntryPoint) = [] :=
    List.filter_eq_nil_iff.2 fun d hd => by
      rw [Diagnostic.isEntryPoint, hr d hd]
      decide
  have hduplicates : (duplicates [] (c.parse.refer r).declarations).filter (·.isEntryPoint) = [] :=
    List.filter_eq_nil_iff.2 fun d hd => by
      obtain ⟨source, t, rfl⟩ := exists_of_mem_duplicates hd
      exact Bool.false_ne_true
  have hentry : (if c.parse.lacksEntryPoint then [noEntryPoint] else []).filter (·.isEntryPoint)
      = if c.parse.lacksEntryPoint then [noEntryPoint] else [] := by
    cases c.parse.lacksEntryPoint <;> rfl
  have hall : (c.checked r).diagnostics = c.parsed.flatMap (·.diagnostics) ++ r.diagnostics
      ++ (duplicates [] (c.parse.refer r).declarations
        ++ if c.parse.lacksEntryPoint then [noEntryPoint] else []) := rfl
  rw [entryPointReports, hall, List.filter_append, List.filter_append, List.filter_append, hsources,
    hreferences, hduplicates, hentry]
  rfl

/-- **No phase but the check** says anything of entry points. -/
theorem entryPointReports_runAll {σ : Type} (disk : Disk (StateM σ)) (finder : Finder (StateM σ))
    (profile : Profile) (sources : List String) (output : Option Path) (s : σ) :
    ((start profile sources output).runAll disk finder Phase.all s).1.entryPointReports
      = if (start profile sources output).parse.lacksEntryPoint then [noEntryPoint] else [] := by
  rw [runAll_apply, ← entryPointReports_checked profile sources output fun _ hd =>
    References.code_resolve hd]
  set found := References.resolve finder profile.references profile.anchors s
  rcases emit_cases disk ((start profile sources output).checked found.1) found.2 with
    ⟨-, h⟩ | ⟨-, h⟩ | ⟨p, e, -, h⟩
  · exact congrArg (·.1.entryPointReports) h
  · exact (congrArg entryPointReports h).trans rfl
  · refine (congrArg entryPointReports h).trans ?_
    rw [entryPointReports, report, List.filter_append]
    exact List.append_nil _

/-! ### Runs -/

/-- What a run on these trees says of entry points. -/
structure EntryPointReported (profile : Profile) (trees : List SyntaxTree)
    (reports : List Diagnostic) : Prop where
  /-- A library needs no entry point. -/
  library : profile.outputKind = .library → reports = []
  /-- In a program it is missing once, if no method `Main` is declared. -/
  missing : profile.outputKind = .console → (∀ m, Declares trees m → ¬m.IsMain) →
    reports = [noEntryPoint]
  /-- A method `Main` is taken for one, static or not. -/
  present : profile.outputKind = .console → (∃ m, Declares trees m ∧ m.IsMain) → reports = []
  /-- So what is said is right unless there are such methods, and none of them is static. -/
  exact_iff : profile.outputKind = .console →
    ((reports ≠ [] ↔ ∀ m, Declares trees m → m.IsMain → m.isStatic = false) ↔
      ((∃ m, Declares trees m ∧ m.IsMain) →
        ∃ m, Declares trees m ∧ m.IsMain ∧ m.isStatic = true))

/-- **A missing entry point is reported for want of a method `Main`.**  Whatever the sources, the
files and the libraries are, a run of all phases reports it for no library, and for a program
exactly if no type of a tree, at any depth, declares a method of this name.  What it says is true
of static methods too, unless there are methods of this name and none of them is static. -/
theorem entryPoint_reported {σ : Type} (disk : Disk (StateM σ)) (finder : Finder (StateM σ))
    (profile : Profile) (sources : List String) (output : Option Path) (s : σ) :
    EntryPointReported profile (start profile sources output).parsed
      ((start profile sources output).runAll disk finder Phase.all s).1.entryPointReports := by
  rw [entryPointReports_runAll]
  have htrees : (start profile sources output).parse.trees
      = (start profile sources output).parsed := rfl
  have hprofile : (start profile sources output).parse.profile = profile := rfl
  have hlacks := lacksEntryPoint_iff (start profile sources output).parse
  rw [htrees, hprofile] at hlacks
  set trees := (start profile sources output).parsed
  have present : (∃ m, Declares trees m ∧ m.IsMain) →
      (start profile sources output).parse.lacksEntryPoint = false := by
    rintro ⟨m, hm, hmain⟩
    exact Bool.eq_false_iff.2 fun h => (hlacks.1 h).2 m hm hmain
  have missing (hk : profile.outputKind = .console) (h : ∀ m, Declares trees m → ¬m.IsMain) :
      (start profile sources output).parse.lacksEntryPoint = true := hlacks.2 ⟨hk, h⟩
  refine ⟨fun hk => if_neg fun h => ?_, fun hk h => if_pos (missing hk h), fun _ h => ?_,
    fun hk => ?_⟩
  · rw [(hlacks.1 h).1] at hk
    cases hk
  · rw [present h, if_neg Bool.false_ne_true]
  · by_cases hany : ∃ m, Declares trees m ∧ m.IsMain
    · rw [present hany, if_neg Bool.false_ne_true]
      simp only [ne_eq, not_true, false_iff, not_forall, Bool.not_eq_false, exists_prop, hany,
        forall_const]
    · rw [missing hk fun m hm hmain => hany ⟨m, hm, hmain⟩, if_pos rfl]
      have hno : ∀ m, Declares trees m → m.IsMain → m.isStatic = false := fun m hm hmain =>
        absurd ⟨m, hm, hmain⟩ hany
      exact iff_of_true (iff_of_true (List.cons_ne_nil _ _) hno) fun h => absurd h hany

/-- A program whose only method `Main` is not static is accepted, though it cannot be run. -/
theorem not_reported_of_instance :
    let profile : Profile := { outputKind := .console }
    let sources := ["class P \x7b void Main() \x7b \x7d \x7d"]
    let run := ((start profile sources none).runAll FileTree.disk (Finder.byName FileTree.disk)
      Phase.all ({} : FileTree)).1
    ¬(run.entryPointReports ≠ [] ↔
        ∀ m, Declares (start profile sources none).parsed m → m.IsMain → m.isStatic = false) ∧
      run.module.isSome = true := by
  intro profile sources run
  have hnone : run.entryPointReports = [] := by decide +kernel
  have hstatic : ∀ m ∈ (start profile sources none).parsed.flatMap (membersOfAll ·.types),
      m.IsMain → m.isStatic = false := by decide +kernel
  refine ⟨fun h => h.2 (fun m hm => hstatic m (SyntaxTree.declares_iff.1 hm)) hnone, ?_⟩
  decide +kernel

end Compilation

end Outline
