/-
# What calls of a builder come to

Of the head of a type the last value that was set counts, and of its members all that
were added do.  Nothing else of a sequence of calls is left in what is built.

| part | built from |
| --- | --- |
| namespace form, usings, attributes, modifiers, base types | the last call that sets it |
| parameters of the head | the last primary constructor, unless it has none |
| body | all fields, then all constructors, then all properties and methods |

The last group keeps the order in which its properties and methods were added, whatever
was added between them.
-/

import Outline.Proofs.Build.RoundTrip

namespace Outline
namespace Build

open Outline.Tree

namespace TypeBuilder

/-! ### What a call sets and what it adds -/

namespace Call

/-- The form of the namespace that a call sets. -/
def namespaceForm? : Call → Option NamespaceForm
  | .namespaceForm form => some form
  | _ => none

/-- The usings that a call sets. -/
def usings? : Call → Option (List String)
  | .usings names => some names
  | _ => none

/-- The attributes that a call sets. -/
def attributes? : Call → Option (List Attribute)
  | .attributes as => some as
  | _ => none

/-- The modifiers that a call sets, as a set. -/
def modifiers? : Call → Option Modifiers
  | .modifiers ms => some (.ofList ms)
  | _ => none

/-- The base types that a call sets. -/
def bases? : Call → Option (List TypeName)
  | .bases ts => some ts
  | _ => none

/-- The parameters of the primary constructor that a call sets. -/
def primary? : Call → Option (List Parameter)
  | .primaryConstructor ps => some ps
  | _ => none

/-- The fields that a call adds, as they are written. -/
def addedFields : Call → List FieldDecl
  | .fields fs => fs.map (·.declare)
  | .fieldDeclarations fs => fs
  | _ => []

/-- The constructors that a call adds. -/
def addedConstructors : Call → List ConstructorDecl
  | .constructors cs => cs
  | _ => []

/-- The properties and methods that a call adds. -/
def addedRest : Call → List Member
  | .properties ps => ps.map fun p => .property p.declare
  | .methods ms => ms.map .method
  | _ => []

/-- The members that a call adds. -/
def added (c : Call) : List Member :=
  c.addedFields.map .field ++ c.addedConstructors.map .constructor ++ c.addedRest

end Call

/-- The value that the last of the calls with a value sets. -/
def lastSet {α : Type} (set? : Call → Option α) (calls : List Call) : Option α :=
  (calls.filterMap set?).getLast?

/-- All members that calls add, in the order of adding. -/
def added (calls : List Call) : List Member := calls.flatMap (·.added)

/-- All members that calls add, in the order of writing. -/
def written (calls : List Call) : List Member :=
  (calls.flatMap (·.addedFields)).map .field
    ++ (calls.flatMap (·.addedConstructors)).map .constructor ++ calls.flatMap (·.addedRest)

/-- Sequences of calls that agree in the last value of each part of the head and in the
members of each group. -/
structure Agree (calls calls' : List Call) : Prop where
  namespaceForm : lastSet Call.namespaceForm? calls = lastSet Call.namespaceForm? calls'
  usings : lastSet Call.usings? calls = lastSet Call.usings? calls'
  attributes : lastSet Call.attributes? calls = lastSet Call.attributes? calls'
  modifiers : lastSet Call.modifiers? calls = lastSet Call.modifiers? calls'
  bases : lastSet Call.bases? calls = lastSet Call.bases? calls'
  primary : lastSet Call.primary? calls = lastSet Call.primary? calls'
  fields : calls.flatMap (·.addedFields) = calls'.flatMap (·.addedFields)
  constructors : calls.flatMap (·.addedConstructors) = calls'.flatMap (·.addedConstructors)
  rest : calls.flatMap (·.addedRest) = calls'.flatMap (·.addedRest)

theorem Agree.written {calls calls' : List Call} (h : Agree calls calls') :
    written calls = written calls' := by
  rw [TypeBuilder.written, TypeBuilder.written, h.fields, h.constructors, h.rest]

/-! ### The head -/

theorem lastSet_cons {α : Type} (set? : Call → Option α) (c : Call) (calls : List Call) :
    lastSet set? (c :: calls) = (lastSet set? calls).or (set? c) := by
  rw [lastSet, lastSet, List.filterMap_cons]
  cases set? c with
  | none => exact Option.or_none.symm
  | some a => rw [List.getLast?_cons, Option.or_some]

/-- A part that each call sets or leaves alone. -/
def SetBy {α : Type} (set? : Call → Option α) (part : TypeBuilder → α) : Prop :=
  ∀ b c, part (b.after c) = (set? c).getD (part b)

/-- **The last call that sets a part counts.** -/
theorem SetBy.afterAll {α : Type} {set? : Call → Option α} {part : TypeBuilder → α}
    (h : SetBy set? part) (b : TypeBuilder) (calls : List Call) :
    part (b.afterAll calls) = (lastSet set? calls).getD (part b) := by
  induction calls generalizing b with
  | nil => rfl
  | cons c calls ih =>
    rw [lastSet_cons, Option.getD_or, ← h b c]
    exact ih (b.after c)

/-- Sequences of calls that set a part alike leave it alike. -/
theorem SetBy.congr {α : Type} {set? : Call → Option α} {part : TypeBuilder → α}
    (h : SetBy set? part) (b : TypeBuilder) {calls calls' : List Call}
    (hc : lastSet set? calls = lastSet set? calls') :
    part (b.afterAll calls) = part (b.afterAll calls') := by
  rw [h.afterAll, h.afterAll, hc]

/-- The parameters of the head; a missing primary constructor and an empty one are alike. -/
def headParameters (b : TypeBuilder) : List Parameter := b.primary.getD []

/-- Each part of the head is set by calls of its own. -/
theorem head_setBy :
    SetBy Call.namespaceForm? (·.namespaceForm) ∧ SetBy Call.usings? (·.usings) ∧
      SetBy Call.attributes? (·.attributes) ∧ SetBy Call.modifiers? (·.modifiers) ∧
      SetBy Call.bases? (·.bases) ∧ SetBy Call.primary? headParameters := by
  refine ⟨?_, ?_, ?_, ?_, ?_, ?_⟩ <;>
    · intro b c
      cases c <;> rfl

theorem parameters_buildType (b : TypeBuilder) : b.buildType.parameters
    = if b.headParameters = [] then none else some (declareParameters b.headParameters) := by
  unfold buildType headParameters
  cases b.primary with
  | none => rfl
  | some ps => cases ps <;> simp

/-! ### The members -/

/-- What a call does to the members: it adds its own. -/
theorem members_after (b : TypeBuilder) (c : Call) :
    (b.after c).members = b.members.extend c.added := by
  cases c with
  | fields | fieldDeclarations | constructors =>
    simp [after, withFields, withFieldDeclarations, withConstructors, withMembers, Call.added,
      Call.addedFields, Call.addedConstructors, Call.addedRest, Function.comp_def]
  | properties | methods => rfl
  | namespaceForm | usings | attributes | modifiers | bases | primaryConstructor =>
    exact congrArg Members.mk (List.append_nil _).symm

theorem toList_members_afterAll (b : TypeBuilder) (calls : List Call) :
    (b.afterAll calls).members.toList = b.members.toList ++ added calls := by
  induction calls generalizing b with
  | nil => exact (List.append_nil _).symm
  | cons c calls ih =>
    have hafter := ih (b.after c)
    rw [members_after, Members.extend, List.append_assoc] at hafter
    exact hafter

theorem filter_group {ms : List Member} {k : Nat} (h : ∀ m ∈ ms, memberGroup m.kind = k)
    (g : Nat) : ms.filter (memberGroup ·.kind == g) = if k = g then ms else [] := by
  split
  · rename_i hk
    exact List.filter_eq_self.2 fun m hm => by rw [h m hm, hk]; exact beq_self_eq_true g
  · rename_i hk
    exact List.filter_eq_nil_iff.2 fun m hm => by rw [h m hm, beq_iff_eq]; exact hk

theorem memberGroup_of_mem_addedRest {c : Call} {m : Member} (h : m ∈ c.addedRest) :
    memberGroup m.kind = 2 := by
  cases c with
  | properties ps =>
    obtain ⟨p, -, rfl⟩ := List.mem_map.1 h
    rfl
  | methods ms =>
    obtain ⟨k, -, rfl⟩ := List.mem_map.1 h
    rfl
  | _ => exact absurd h List.not_mem_nil

/-- The members of a group are those of the group call by call. -/
theorem group_added (calls : List Call) (g : Nat) : (Members.mk (added calls)).group g
    = calls.flatMap fun c => (if 0 = g then c.addedFields.map .field else [])
        ++ (if 1 = g then c.addedConstructors.map .constructor else [])
        ++ (if 2 = g then c.addedRest else []) := by
  have hfields : ∀ c : Call, ∀ m ∈ c.addedFields.map Member.field, memberGroup m.kind = 0 :=
    fun c => List.forall_mem_map.2 fun _ _ => rfl
  have hconstructors : ∀ c : Call, ∀ m ∈ c.addedConstructors.map Member.constructor,
      memberGroup m.kind = 1 := fun c => List.forall_mem_map.2 fun _ _ => rfl
  rw [Members.group, added, List.filter_flatMap]
  congr 1
  funext c
  rw [Call.added, List.filter_append, List.filter_append, filter_group (hfields c),
    filter_group (hconstructors c), filter_group fun _ => memberGroup_of_mem_addedRest]

/-- **What was added is written group by group.** -/
theorem ordered_added (calls : List Call) : (Members.mk (added calls)).ordered = written calls := by
  rw [Members.ordered, group_added, group_added, group_added, written, List.map_flatMap,
    List.map_flatMap]
  simp

/-- Nothing is lost and nothing is written twice. -/
theorem written_perm (calls : List Call) : (written calls).Perm (added calls) := by
  rw [written, List.map_flatMap, List.map_flatMap]
  exact ((List.flatMap_append_perm calls _ _).append_right _).trans
    (List.flatMap_append_perm calls _ _)

theorem written_eq_nil_iff (calls : List Call) : written calls = [] ↔ added calls = [] := by
  rw [← List.length_eq_zero_iff, (written_perm calls).length_eq, List.length_eq_zero_iff]

/-! ### What is built -/

/-- The members of a builder that was only called are those that the calls added. -/
theorem members_started (kind : Kind) (name namespaceName : String) (calls : List Call) :
    ((start kind name namespaceName).afterAll calls).members = ⟨added calls⟩ :=
  congrArg Members.mk (toList_members_afterAll _ calls)

/-- A type ends after its head if it has no members; else its braces hold them in the order
of writing. -/
theorem body_started (kind : Kind) (name namespaceName : String) (calls : List Call) :
    ((start kind name namespaceName).afterAll calls).buildType.body
      = if written calls = [] then .terminated else .braced (written calls) := by
  have hempty : (Members.mk (added calls)).isEmpty = decide (written calls = []) := by
    rw [Members.isEmpty, Bool.eq_iff_iff, List.isEmpty_iff, decide_eq_true_iff,
      written_eq_nil_iff]
  rw [buildType, hasMembers, members_started, ordered_added, hempty]
  by_cases h : written calls = [] <;> simp [h]

/-- **What is built depends on no more than calls agree in.** -/
theorem Agree.build_eq {calls calls' : List Call} (h : Agree calls calls') (kind : Kind)
    (name namespaceName : String) :
    ((start kind name namespaceName).afterAll calls).build
      = ((start kind name namespaceName).afterAll calls').build := by
  have hparts : ∀ b : TypeBuilder, b.buildType = ⟨b.kind, b.attributes, b.modifiers, b.name,
      b.buildType.parameters, b.bases, b.buildType.body⟩ := fun _ => rfl
  obtain ⟨hkind, hname, hnamespace⟩ := started_afterAll (start kind name namespaceName) calls
  obtain ⟨hkind', hname', hnamespace'⟩ := started_afterAll (start kind name namespaceName) calls'
  obtain ⟨hform, husings, hattributes, hmodifiers, hbases, hparameters⟩ := head_setBy
  have htype : ((start kind name namespaceName).afterAll calls).buildType
      = ((start kind name namespaceName).afterAll calls').buildType := by
    rw [hparts, hparts ((start kind name namespaceName).afterAll calls'), parameters_buildType,
      parameters_buildType, body_started, body_started, hkind, hkind', hname, hname',
      hattributes.congr _ h.attributes, hmodifiers.congr _ h.modifiers, hbases.congr _ h.bases,
      hparameters.congr _ h.primary, h.written]
  rw [build, build, hnamespace, hnamespace', htype, husings.congr _ h.usings,
    hform.congr _ h.namespaceForm]

/-- **What is built depends only on what calls promise.**  Whatever calls a builder of a
type was given:

* calls that agree in the last value of each part of the head, in all fields, in all
  constructors and in all properties and methods build the same;
* the type ends after its head exactly if no member was added; else its braces hold all
  members that were added, none lost and none twice, in three groups, each in the order of
  adding;
* its head has a list of parameters exactly if the primary constructor set last has some. -/
theorem build_determined (kind : Kind) (name namespaceName : String) (calls : List Call) :
    let b := (start kind name namespaceName).afterAll calls
    (∀ calls', Agree calls calls' →
        b.build = ((start kind name namespaceName).afterAll calls').build) ∧
      b.build.types = [b.buildType] ∧
      (b.buildType.body = .terminated ↔ added calls = []) ∧
      (added calls ≠ [] → b.buildType.body = .braced (written calls)) ∧
      (written calls).Perm (added calls) ∧
      (b.buildType.parameters.isSome = true ↔
        ∃ ps, lastSet Call.primary? calls = some ps ∧ ps ≠ []) := by
  intro b
  have hbody : b.buildType.body = if written calls = [] then .terminated
      else .braced (written calls) := body_started kind name namespaceName calls
  refine ⟨fun calls' h => h.build_eq kind name namespaceName, ?_, ?_, fun h => ?_,
    written_perm calls, ?_⟩
  · rw [build, CompilationUnit.types, List.flatMap_singleton]
    split <;> rfl
  · rw [hbody, ← written_eq_nil_iff]
    split <;> simp [*]
  · rw [hbody, if_neg ((written_eq_nil_iff calls).not.2 h)]
  · obtain ⟨-, -, -, -, -, hparameters⟩ := head_setBy
    have hlast : b.headParameters = (lastSet Call.primary? calls).getD [] :=
      hparameters.afterAll _ calls
    rw [parameters_buildType, hlast]
    cases lastSet Call.primary? calls with
    | none => simp
    | some ps => by_cases hps : ps = [] <;> simp [hps]

/-- The calls of `orderCalls` in another order, with some that add or leave nothing. -/
def reorderedCalls : List Call := [
  .fieldDeclarations [classField.declare], .usings ["Gone"], .constructors [],
  .methods [twiceMethod.build], .modifiers [.pub, .part, .pub], .usings ["System", "System.Text"],
  .properties [.auto "Total" ⟨"int"⟩], .constructors [orderConstructor.build], .fields []]

theorem agree_reorderedCalls : Agree orderCalls reorderedCalls where
  namespaceForm := rfl
  usings := rfl
  attributes := rfl
  modifiers := by decide
  bases := rfl
  primary := rfl
  fields := rfl
  constructors := rfl
  rest := rfl

theorem build_determined_order :
    let b := (start .cls "Order" "Shop").afterAll orderCalls
    Agree orderCalls reorderedCalls ∧ added orderCalls ≠ [] ∧
      b.build = ((start .cls "Order" "Shop").afterAll reorderedCalls).build ∧
      b.buildType.body = .braced [.field classField.declare, .constructor orderConstructor.build,
        .method twiceMethod.build, .property (PropertySpec.auto "Total" ⟨"int"⟩).declare] :=
  have h := build_determined .cls "Order" "Shop" orderCalls
  ⟨agree_reorderedCalls, by decide, h.1 reorderedCalls agree_reorderedCalls,
    h.2.2.2.1 (by decide)⟩

end TypeBuilder
end Build
end Outline
