/-
# What is declared of a description

A type that is described in a few words is a source file with one type.  The names of its
members are escaped and the name of the type is not: it may be any word, so also a reserved
one, and then the file has an error, since the name of its type is missing.

| name of the type | file |
| --- | --- |
| not reserved | one type with this name, and no errors |
| reserved | an error |
-/

import Outline.Command.Spec
import Outline.Proofs.Build.RoundTrip
import Outline.Proofs.Lexer.Respelling
import Outline.Proofs.SyntaxTree.Names

namespace Outline

namespace Build
namespace TypeBuilder

open Outline.Tree
open Layout (Format Layable Spells memberFragments separated)
open Outline.Parser

/-! ### Files around a type -/

/-- The lexemes of the file of a type around those of the type. -/
def fileSpelling (b : TypeBuilder) (ls : List Lexeme) : List Lexeme :=
  b.usings.flatMap usingSpelling ++
    (if b.namespaceName.isEmpty then ls else namespaceSpelling b.namespaceName b.namespaceForm ls)

/-- A builder whose file has usings and a namespace that are what they stand for. -/
structure HasFile (b : TypeBuilder) : Prop where
  namespaceName : b.namespaceName.isEmpty = false → Name.IsDotted b.namespaceName
  usings : ∀ u ∈ b.usings, Name.IsDotted u

section

variable {b : TypeBuilder} {ls : List Lexeme}

/-- A file is spelled around what its type is spelled with. -/
theorem HasFile.spells (h : b.HasFile) {f : Format}
    (htype : Spells (Layable.fragments f b.buildType) ls) :
    Spells (Layable.fragments f b.build) (b.fileSpelling ls) := by
  refine CompilationUnit.spells h.usings ?_
  unfold build
  cases hn : b.namespaceName.isEmpty with
  | true => exact htype
  | false => exact NamespaceDecl.spells (h.namespaceName hn) htype

/-- **A file is accepted** with its usings if what is in its namespace is. -/
theorem HasFile.accepts (h : b.HasFile) {types : Option String → List (TypeSymbol Unit)}
    (hfile : ∀ namespaceName late j, Accepts .harmless (fileItems namespaceName late) j ls []
      (OnlyTypes (types namespaceName)))
    (hblock : ∀ full j, Accepts .harmless (namespaceItems full false) j (ls ++ [.mark "\x7d"]) []
      (OnlyTypes (types (some full)))) :
    Accepts .harmless (fileItems none false) 0 (b.fileSpelling ls) []
      (Declares b.usings
        (types (if b.namespaceName.isEmpty then none else some b.namespaceName))) := by
  refine accepts_usings h.usings (fun j => ?_) 0
  cases hn : b.namespaceName.isEmpty with
  | true => exact (hfile none false j).mono fun _ => (·.declares)
  | false =>
    exact accepts_namespace (h.namespaceName hn) b.namespaceForm (hfile _) (hblock _) j

/-- **A file is refused** if what is in its namespace is. -/
theorem HasFile.refuses (h : b.HasFile)
    (hfile : ∀ namespaceName late j, Refuses (fileItems namespaceName late) j ls)
    (hblock : ∀ full j, Refuses (namespaceItems full false) j (ls ++ [.mark "\x7d"])) :
    Refuses (fileItems none false) 0 (b.fileSpelling ls) := by
  refine finds_usings h.usings (fun j => ?_) 0
  cases hn : b.namespaceName.isEmpty with
  | true => exact hfile none false j
  | false => exact finds_namespace (h.namespaceName hn) b.namespaceForm (hfile _) (hblock _) j

end

end TypeBuilder
end Build

namespace Command

open Outline.Tree
open Build (TypeBuilder FieldSpec PropertySpec Meant wellFormed_builtin)
open Layout (Format Layable Spells render)
open Outline.Parser (Accepts Declares OnlyTypes Refuses accepts_fileTypes accepts_namespaceItems
  atTypeKeyword builtinTypes declarationWords fileItems finds_blockType finds_fileType headStops
  memberList namespaceItems refuses_typeDeclaration typeDeclaration)

/-- A name, reserved or not, with a built-in type. -/
structure NamedType.Ordinary (t : NamedType) : Prop where
  name : Name.isIdentifier t.name = true
  type : t.type ∈ builtinTypes

namespace TypeSpec

/-- A description whose parts are what they stand for; the name of the type may be reserved,
and so may those of its members. -/
structure Ordinary (s : TypeSpec) : Prop where
  namespaceName : s.namespaceName.isEmpty = false → Name.IsDotted s.namespaceName
  usings : ∀ u ∈ s.usings, Name.IsDotted u
  bases : ∀ b ∈ s.bases, Name.IsPlain b
  fields : ∀ f ∈ s.fields, f.Ordinary
  properties : ∀ p ∈ s.properties, p.Ordinary
  primary : ∀ p ∈ s.primary, p.Ordinary

/-! ### Parts -/

theorem standBefore_public (ls : List Lexeme) : (Modifiers.ofList [.pub]).StandBefore ls := by
  intro w h hw
  obtain rfl := Option.some.inj h
  exact absurd hw (by decide +kernel)

theorem wellFormed_field {f : NamedType} (h : f.Ordinary) :
    ({ name := f.name, type := ⟨f.type⟩ } : FieldSpec).WellFormed where
  attributes _ h := absurd h List.not_mem_nil
  type := wellFormed_builtin h.type
  modifiers _ h := by cases h
  name := h.name
  initializer _ h := by cases h

theorem wellFormed_property {p : NamedType} (h : p.Ordinary) :
    (PropertySpec.auto p.name ⟨p.type⟩).WellFormed where
  attributes _ h := absurd h List.not_mem_nil
  type := wellFormed_builtin h.type
  modifiers := standBefore_public _
  name := h.name
  body _ h := by cases h
  initializer _ _ _ h := by cases h

theorem meant_parameter {p : NamedType} (h : p.Ordinary) :
    Meant { name := p.name, type := ⟨p.type⟩ } where
  name := h.name
  type := wellFormed_builtin h.type
  fallback _ h := by cases h
  attributes _ h := absurd h List.not_mem_nil

/-- A base type that is a name is passed in the head of a type. -/
theorem isExpression_base {b : String} (h : Name.IsPlain b) : IsExpression headStops b := by
  refine ⟨Lexer.inline_plain h, ?_⟩
  rw [(Lexer.reads_plain h).alone.2]
  exact .plain rfl rfl .nil

/-! ### The builder -/

theorem builder_eq (s : TypeSpec) : s.builder = {
    kind := if s.isStruct then .struct else .cls
    name := s.name
    namespaceName := s.namespaceName
    namespaceForm := if s.isFileScoped then .fileScoped else .block
    usings := s.usings
    bases := s.bases.map .mk
    primary := if s.primary.isEmpty then none
      else some (s.primary.map fun p => { name := p.name, type := ⟨p.type⟩ })
    members := ⟨(s.fields.map fun f =>
        .field ({ name := f.name, type := ⟨f.type⟩ } : FieldSpec).declare) ++
      s.properties.map fun p => .property (PropertySpec.auto p.name ⟨p.type⟩).declare⟩ } := by
  unfold builder
  cases s.primary.isEmpty <;> simp [TypeBuilder.start, TypeBuilder.withNamespaceForm,
    TypeBuilder.withUsings, TypeBuilder.withBases, TypeBuilder.withFields,
    TypeBuilder.withProperties, TypeBuilder.withMembers, TypeBuilder.withPrimaryConstructor,
    Build.Members.extend, Function.comp_def]

theorem name_builder (s : TypeSpec) : s.builder.name = s.name := by rw [builder_eq]

theorem usings_builder (s : TypeSpec) : s.builder.usings = s.usings := by rw [builder_eq]

theorem attributes_builder (s : TypeSpec) : s.builder.attributes = [] := by rw [builder_eq]

variable {s : TypeSpec}

theorem Ordinary.hasFile (h : s.Ordinary) : s.builder.HasFile := by
  rw [builder_eq]
  exact ⟨h.namespaceName, h.usings⟩

/-- Fields and properties are members of any type. -/
theorem Ordinary.hasMembersOf (h : s.Ordinary) (owner : String) :
    s.builder.HasMembersOf owner := by
  rw [builder_eq]
  refine List.forall_mem_append.2 ⟨List.forall_mem_map.2 fun f hf => ?_,
    List.forall_mem_map.2 fun p hp => ?_⟩
  · exact (wellFormed_field (h.fields f hf)).declare
  · exact (wellFormed_property (h.properties p hp)).declare

theorem Ordinary.meant (h : s.Ordinary) : ∀ ps ∈ s.builder.primary, ∀ p ∈ ps, Meant p := by
  rw [builder_eq]
  intro ps hps
  dsimp only at hps
  split at hps
  · cases hps
  · obtain rfl := Option.some.inj hps
    exact List.forall_mem_map.2 fun p hp => meant_parameter (h.primary p hp)

theorem Ordinary.shaped (h : s.Ordinary) : s.builder.buildType.Shaped where
  attributes a ha := by
    have hnone : a ∈ s.builder.attributes := ha
    rw [attributes_builder] at hnone
    cases hnone
  parameters := TypeBuilder.wellFormed_parameters h.meant
  bases := by
    rw [builder_eq]
    exact List.forall_mem_map.2 fun b hb => isExpression_base (h.bases b hb)
  members := TypeBuilder.wellFormed_members (h.hasMembersOf _)

/-! ### Lexemes -/

/-- The lexemes of the type that is declared, whose name is written as it is. -/
def typeSpelling (s : TypeSpec) : List Lexeme :=
  let t := s.builder.buildType
  t.modifiers.spelling ++ (.word t.kind.keyword :: .word s.name :: (t.tail ++ t.body.spelling))

theorem Ordinary.spells_type (h : s.Ordinary) (hn : Name.isIdentifier s.name = true)
    (f : Format) : Spells (Layable.fragments f s.builder.buildType) s.typeSpelling := by
  have hname : Lexer.Reads Lexer.endsWord s.builder.name [.word s.name] := by
    rw [name_builder]
    exact Lexer.reads_word hn
  have hattributes : s.builder.buildType.attributes = [] := s.attributes_builder
  -- the owner of the members does not matter, and that of constructors may not be reserved
  have hmembers := spells_members (show Name.IsPlain "C" by decide) f
    (TypeBuilder.wellFormed_members (h.hasMembersOf "C"))
  have := h.shaped.spells (h.shaped.reads_head hname) hmembers
  rw [hattributes] at this
  simpa [typeSpelling, attributeSpelling] using this

/-- **What is declared is read** as the lexemes of its file, in every format. -/
theorem Ordinary.lexemes_render (h : s.Ordinary) (hn : Name.isIdentifier s.name = true)
    (f : Format) : Layout.Line (render f s.builder.build) ∧
      lexemes (render f s.builder.build) = s.builder.fileSpelling s.typeSpelling :=
  Layout.lexemes_render (h.hasFile.spells (h.spells_type hn f))

/-- With a name that is not reserved these are the lexemes of a type. -/
theorem typeSpelling_eq (hk : Name.isKeyword s.name = false) :
    s.typeSpelling = [s.builder.buildType].flatMap (·.spelling) := by
  have hname : Lexeme.word s.name = .name s.builder.name := by
    rw [name_builder, Lexeme.word, hk]
    rfl
  have hattributes : s.builder.buildType.attributes = [] := s.attributes_builder
  rw [List.flatMap_singleton, TypeDecl.spelling, hattributes, typeSpelling, hname]
  rfl

/-! ### Files -/

/-- **The file is accepted** as the type if the name of the type is not reserved. -/
theorem Ordinary.accepts (h : s.Ordinary) (hk : Name.isKeyword s.name = false) :
    Accepts .harmless (fileItems none false) 0 (s.builder.fileSpelling s.typeSpelling) []
      (Declares s.builder.usings [s.builder.symbol]) := by
  have hshaped := List.forall_mem_singleton.2 h.shaped
  have hfile : ∀ namespaceName late j, Accepts .harmless (fileItems namespaceName late) j
      s.typeSpelling [] (OnlyTypes [s.builder.buildType.symbol namespaceName]) := by
    rw [typeSpelling_eq hk]
    exact accepts_fileTypes hshaped
  have hblock : ∀ full j, Accepts .harmless (namespaceItems full false) j
      (s.typeSpelling ++ [.mark "\x7d"]) []
      (OnlyTypes [s.builder.buildType.symbol (some full)]) := by
    rw [typeSpelling_eq hk]
    exact fun full j => accepts_namespaceItems hshaped full false j rfl
  have := h.hasFile.accepts hfile hblock
  rw [TypeBuilder.symbol_buildType] at this
  exact this

/-- **The file is refused** if the name of the type is reserved. -/
theorem Ordinary.refuses (h : s.Ordinary) (hk : Name.isKeyword s.name = true) :
    Refuses (fileItems none false) 0 (s.builder.fileSpelling s.typeSpelling) := by
  have hname : (Lexeme.word s.name).isName = false := by
    rw [Lexeme.word, hk]
    rfl
  unfold typeSpelling
  generalize s.builder.buildType = t
  have hword : t.kind.keyword ∈ declarationWords := by
    cases t.kind <;> decide
  have hkind : ∀ ls i, atTypeKeyword ⟨i, .word t.kind.keyword :: ls⟩ = true := by
    cases t.kind <;> exact fun _ _ => rfl
  have htype : ∀ ls namespaceName j,
      Refuses (typeDeclaration memberList namespaceName t.modifiers.words) j
        (.word t.kind.keyword :: .word s.name :: ls) :=
    fun ls namespaceName j => refuses_typeDeclaration t.kind hname ls namespaceName _ j
  refine h.hasFile.refuses (fun namespaceName late j => ?_) fun full j => ?_
  · exact finds_fileType hword (hkind _) (htype _ namespaceName) late j
  · rw [List.append_assoc, List.cons_append, List.cons_append]
    exact finds_blockType hword (hkind _) (htype _ (some full)) false j

/-! ### What is declared -/

theorem eq_build_of_declare {unit : CompilationUnit} (h : s.declare = some unit) :
    Name.isIdentifier s.name = true ∧ unit = s.builder.build := by
  unfold declare at h
  split at h
  · exact ⟨‹_›, (Option.some.inj h).symm⟩
  · cases h

theorem Ordinary.hasErrors_of_reserved (h : s.Ordinary) (hk : Name.isKeyword s.name = true)
    (f : Format) (index : Nat) (version : Language.Version) :
    (SyntaxTree.parse version ⟨render f s.builder.build, index⟩).hasErrors = true := by
  have hrefuses := h.refuses hk
  rw [← (h.lexemes_render (Name.isIdentifier_of_isKeyword hk) f).2] at hrefuses
  exact SyntaxTree.refused_file (s := ⟨render f s.builder.build, index⟩) hrefuses version

theorem Ordinary.accepted_of_unreserved (h : s.Ordinary) (hn : Name.isIdentifier s.name = true)
    (hk : Name.isKeyword s.name = false) (f : Format) (index : Nat) :
    let tree := SyntaxTree.parse .v12 ⟨render f s.builder.build, index⟩
    tree.hasErrors = false ∧ tree.usings = s.usings ∧
      ∃ t, tree.types = [t] ∧ t.name = s.name ∧ t.unplaced = s.builder.symbol := by
  have haccepts := h.accepts hk
  obtain ⟨hline, hlexemes⟩ := h.lexemes_render hn f
  rw [← hlexemes] at haccepts
  obtain ⟨herrors, husings, htypes⟩ :=
    SyntaxTree.accepted_file (s := ⟨render f s.builder.build, index⟩) hline haccepts
  obtain ⟨t, ht, hsymbol⟩ := List.map_eq_singleton_iff.1 htypes
  refine ⟨herrors, husings.trans s.usings_builder, t, ht, ?_, hsymbol⟩
  have hname : t.unplaced.name = s.builder.name := congrArg (·.name) hsymbol
  rw [TypeSymbol.unplaced, TypeSymbol.name_map] at hname
  exact hname.trans s.name_builder

/-- **What is declared is one type with its name, unless the name is reserved.**  Whatever the
format is, the source file of a description has errors if and only if the name of the type is
a reserved word; if it is none, the file has the usings of the description and declares one
type, which has the name. -/
theorem declares_unless_reserved {s : TypeSpec} (h : s.Ordinary) {unit : CompilationUnit}
    (hs : s.declare = some unit) (f : Format) (index : Nat) :
    let tree := SyntaxTree.parse .v12 ⟨render f unit, index⟩
    (tree.hasErrors = true ↔ Name.isKeyword s.name = true) ∧
      (Name.isKeyword s.name = false → tree.usings = s.usings ∧
        ∃ t, tree.types = [t] ∧ t.name = s.name ∧ t.unplaced = s.builder.symbol) := by
  obtain ⟨hn, rfl⟩ := eq_build_of_declare hs
  intro tree
  cases hk : Name.isKeyword s.name with
  | true =>
    have herrors : tree.hasErrors = true := h.hasErrors_of_reserved hk f index .v12
    exact ⟨iff_of_true herrors rfl, fun hn => by cases hn⟩
  | false =>
    have haccepted : tree.hasErrors = false ∧ tree.usings = s.usings ∧ _ :=
      h.accepted_of_unreserved hn hk f index
    exact ⟨by rw [haccepted.1], fun _ => haccepted.2⟩

/-- A class with a member of each sort, the name of one of which is reserved. -/
def orderSpec : TypeSpec where
  name := "Order"
  namespaceName := "Shop"
  isFileScoped := true
  usings := ["System"]
  bases := ["partial"]
  fields := [⟨"class", "int"⟩]
  properties := [⟨"Total", "decimal"⟩]
  primary := [⟨"event", "string"⟩]

theorem ordinary_orderSpec : orderSpec.Ordinary where
  namespaceName _ := ⟨["Shop"], by decide +kernel⟩
  usings := List.forall_mem_singleton.2 ⟨["System"], by decide +kernel⟩
  bases := List.forall_mem_singleton.2 (by decide +kernel)
  fields := List.forall_mem_singleton.2 ⟨by decide +kernel, by decide⟩
  properties := List.forall_mem_singleton.2 ⟨by decide +kernel, by decide⟩
  primary := List.forall_mem_singleton.2 ⟨by decide +kernel, by decide⟩

theorem declares_unless_reserved_order :
    orderSpec.declare = some orderSpec.builder.build ∧
      let tree := SyntaxTree.parse .v12
        ⟨render { indent := .tab } orderSpec.builder.build, 0⟩
      (tree.hasErrors = true ↔ Name.isKeyword "Order" = true) ∧
        (Name.isKeyword "Order" = false → tree.usings = ["System"] ∧
          ∃ t, tree.types = [t] ∧ t.name = "Order" ∧ t.unplaced = ⟨some "Shop", "Order", 0, .cls,
            false, [⟨.field, "class", false⟩, ⟨.property, "Total", false⟩], [], ()⟩) :=
  have hs : orderSpec.declare = some orderSpec.builder.build := by decide +kernel
  ⟨hs, declares_unless_reserved ordinary_orderSpec hs { indent := .tab } 0⟩

/-- A name can be declared that is reserved. -/
theorem not_declares_of_reserved :
    ¬∀ (s : TypeSpec) (unit : CompilationUnit), s.Ordinary → s.declare = some unit →
      ∀ (f : Format) (index : Nat),
        (SyntaxTree.parse .v12 ⟨render f unit, index⟩).hasErrors = false := by
  intro h
  have hs : Ordinary { name := "class" } := {
    namespaceName := fun h => by cases h
    usings := fun _ h => absurd h List.not_mem_nil
    bases := fun _ h => absurd h List.not_mem_nil
    fields := fun _ h => absurd h List.not_mem_nil
    properties := fun _ h => absurd h List.not_mem_nil
    primary := fun _ h => absurd h List.not_mem_nil }
  have hdeclared : declare { name := "class" } = some (builder { name := "class" }).build := by
    decide +kernel
  have hnone := h _ _ hs hdeclared {} 0
  exact Bool.false_ne_true (hnone.symm.trans (hs.hasErrors_of_reserved (by decide) {} 0 .v12))

end TypeSpec
end Command
end Outline
