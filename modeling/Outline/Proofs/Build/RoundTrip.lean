/-
# What is built is what is parsed

A class or a struct is put together by calls of its builder and laid out in some format.
The text parses without errors under the latest version, as one type: the one that was
built.

| built | parsed |
| --- | --- |
| namespace, none if empty | namespace of the type |
| members in the order of writing | members of the type |
| name of a field or property, reserved or not | the same name |
| constructor | `.ctor` |
| `static` or `const` among the modifiers | static |
| `partial` among the modifiers | partial |

A call that sets the head of the type replaces what was set before, so of the head only
the last values matter; members stay, so each of them does. The body of a member is asked
to be an `IsBody`; lines of statements are one, by `Parser.Phrase.isBody`.
-/

import Outline.Build.Type
import Outline.Proofs.Layout.Spelled
import Outline.Proofs.Parser.Statements
import Outline.Proofs.SyntaxTree.Verdict

namespace Outline
namespace Build

open Outline.Tree
open Layout (Format render)

/-! ### Members as they are meant -/

/-- The built-in types are types. -/
theorem wellFormed_builtin {word : String} (h : word ∈ Parser.builtinTypes) :
    TypeName.WellFormed ⟨word⟩ := by
  have each : ∀ w ∈ Parser.builtinTypes, Lexer.Inline w ∧ lexemes w = [.word w] ∧
      Parser.startsType (.word w) = true := by decide +kernel
  obtain ⟨hinline, hl, hstart⟩ := each word h
  have hform : Parser.TypeForm (.word word :: ([] ++ [])) := .named hstart .nil .nil
  rw [List.append_nil] at hform
  exact ⟨hinline, hl ▸ hform⟩

/-- A parameter as it is meant: its name may be reserved. -/
structure Meant (p : Parameter) : Prop where
  name : Name.isIdentifier p.name = true
  type : p.type.WellFormed
  fallback : ∀ s ∈ p.fallback, IsCode s
  attributes : ∀ a ∈ p.attributes, a.WellFormed

/-- Parameters are well formed once they are declared. -/
theorem wellFormed_declareParameters {ps : List Parameter} (h : ∀ p ∈ ps, Meant p) :
    ∀ p ∈ declareParameters ps, p.WellFormed := by
  intro q hq
  obtain ⟨p, hp, rfl⟩ := List.mem_map.1 hq
  exact ⟨Name.isWritten_escape (h p hp).name, (h p hp).type, (h p hp).fallback, (h p hp).attributes⟩

/-- A field as it is meant: its name may be reserved. -/
structure FieldSpec.WellFormed (s : FieldSpec) : Prop where
  attributes : ∀ a ∈ s.attributes, a.WellFormed
  type : s.type.WellFormed
  modifiers : (Modifiers.ofList s.modifiers).StandBefore (lexemes s.type.text)
  name : Name.isIdentifier s.name = true
  initializer : ∀ e ∈ s.initializer, IsExpression [",", ";"] e

theorem FieldSpec.WellFormed.declare {s : FieldSpec} (h : s.WellFormed) :
    s.declare.WellFormed where
  attributes := h.attributes
  type := h.type
  modifiers := h.modifiers
  name := Name.isWritten_escape h.name
  initializer := h.initializer

/-- A property as it is meant: its name may be reserved, and a computed one may have an
initial value that is not written. -/
structure PropertySpec.WellFormed (s : PropertySpec) : Prop where
  attributes : ∀ a ∈ s.attributes, a.WellFormed
  type : s.type.WellFormed
  modifiers : (Modifiers.ofList s.modifiers).StandBefore (lexemes s.type.text)
  name : Name.isIdentifier s.name = true
  body : ∀ e, s.body = .expression e → IsExpression [";"] e
  initializer : ∀ setter, s.body = .auto setter → ∀ e ∈ s.initializer, IsExpression [";"] e

theorem PropertySpec.WellFormed.declare {s : PropertySpec} (h : s.WellFormed) :
    s.declare.WellFormed where
  attributes := h.attributes
  type := h.type
  modifiers := h.modifiers
  name := Name.isWritten_escape h.name
  body := h.body
  initializer := by
    unfold PropertySpec.declare
    cases hb : s.body with
    | auto setter => exact h.initializer setter hb
    | expression e => exact fun _ he => by cases he

/-- A constructor as it is meant. -/
structure ConstructorBuilder.WellFormed (owner : String) (b : ConstructorBuilder) : Prop where
  attributes : ∀ a ∈ b.attributes, a.WellFormed
  name : b.name = owner
  parameters : ∀ p ∈ b.parameters, Meant p
  delegation : ∀ d ∈ b.delegation, ∀ s ∈ d.parts.2, IsCode s
  body : IsBody b.body

theorem ConstructorBuilder.WellFormed.build {owner : String} {b : ConstructorBuilder}
    (h : b.WellFormed owner) : b.build.WellFormed owner where
  attributes := h.attributes
  name := h.name
  parameters := wellFormed_declareParameters h.parameters
  delegation := h.delegation
  body := h.body

/-- A method as it is meant. -/
structure MethodBuilder.WellFormed (b : MethodBuilder) : Prop where
  attributes : ∀ a ∈ b.attributes, a.WellFormed
  result : b.result.WellFormed
  modifiers : (Modifiers.ofList b.modifiers).StandBefore (lexemes b.result.text)
  name : Name.IsPlain b.name
  typeParameters : ∀ n ∈ b.typeParameters, Name.IsPlain n
  parameters : ∀ p ∈ b.parameters, Meant p
  body : b.body.WellFormed

theorem MethodBuilder.WellFormed.build {b : MethodBuilder} (h : b.WellFormed) :
    b.build.WellFormed where
  attributes := h.attributes
  result := h.result
  modifiers := h.modifiers
  name := h.name
  typeParameters := h.typeParameters
  parameters := wellFormed_declareParameters h.parameters
  body := h.body

namespace TypeBuilder

/-! ### Calls -/

/-- A call of a builder of types. -/
inductive Call
  | namespaceForm (form : NamespaceForm)
  | usings (names : List String)
  | attributes (as : List Attribute)
  | modifiers (ms : List Modifier)
  | bases (ts : List TypeName)
  | primaryConstructor (ps : List Parameter)
  | fields (fs : List FieldSpec)
  | fieldDeclarations (fs : List FieldDecl)
  | constructors (cs : List ConstructorDecl)
  | properties (ps : List PropertySpec)
  | methods (ms : List MethodDecl)

/-- The builder after a call. -/
def after (b : TypeBuilder) : Call → TypeBuilder
  | .namespaceForm form => b.withNamespaceForm form
  | .usings names => b.withUsings names
  | .attributes as => b.withAttributes as
  | .modifiers ms => b.withModifiers ms
  | .bases ts => b.withBases ts
  | .primaryConstructor ps => b.withPrimaryConstructor ps
  | .fields fs => b.withFields fs
  | .fieldDeclarations fs => b.withFieldDeclarations fs
  | .constructors cs => b.withConstructors cs
  | .properties ps => b.withProperties ps
  | .methods ms => b.withMethods ms

/-- The builder after calls. -/
def afterAll (b : TypeBuilder) (calls : List Call) : TypeBuilder := calls.foldl after b

/-- A call whose members are well formed members of the type `owner`. -/
def Call.AddsMembersOf (owner : String) : Call → Prop
  | .fields fs => ∀ f ∈ fs, f.WellFormed
  | .fieldDeclarations fs => ∀ f ∈ fs, f.WellFormed
  | .constructors cs => ∀ c ∈ cs, c.WellFormed owner
  | .properties ps => ∀ p ∈ ps, p.WellFormed
  | .methods ms => ∀ m ∈ ms, m.WellFormed
  | _ => True

/-- A builder whose members are well formed. -/
def HasMembersOf (owner : String) (b : TypeBuilder) : Prop :=
  ∀ m ∈ b.members.toList, m.WellFormed owner

theorem HasMembersOf.withMembers {owner : String} {b : TypeBuilder} (h : b.HasMembersOf owner)
    {ms : List Member} (hm : ∀ m ∈ ms, m.WellFormed owner) :
    (b.withMembers ms).HasMembersOf owner := List.forall_mem_append.2 ⟨h, hm⟩

/-- What a call keeps: members stay well formed. -/
theorem HasMembersOf.after {owner : String} {b : TypeBuilder} (h : b.HasMembersOf owner)
    {c : Call} (hc : c.AddsMembersOf owner) : (b.after c).HasMembersOf owner := by
  cases c with
  | fields fs => exact h.withMembers (List.forall_mem_map.2 fun f hf => (hc f hf).declare)
  | fieldDeclarations fs => exact h.withMembers (List.forall_mem_map.2 hc)
  | constructors cs => exact h.withMembers (List.forall_mem_map.2 hc)
  | properties ps => exact h.withMembers (List.forall_mem_map.2 fun p hp => (hc p hp).declare)
  | methods ms => exact h.withMembers (List.forall_mem_map.2 hc)
  | namespaceForm | usings | attributes | modifiers | bases | primaryConstructor => exact h

/-- What calls keep: members stay well formed. -/
theorem HasMembersOf.afterAll {owner : String} {b : TypeBuilder} (h : b.HasMembersOf owner)
    {calls : List Call} (hc : ∀ c ∈ calls, c.AddsMembersOf owner) :
    (b.afterAll calls).HasMembersOf owner := by
  induction calls generalizing b with
  | nil => exact h
  | cons c calls ih =>
    exact ih (h.after (hc c List.mem_cons_self)) fun d hd => hc d (List.mem_cons_of_mem c hd)

/-- No call changes what a builder was started with. -/
theorem started_after (b : TypeBuilder) (c : Call) :
    (b.after c).kind = b.kind ∧ (b.after c).name = b.name ∧
      (b.after c).namespaceName = b.namespaceName := by
  cases c <;> exact ⟨rfl, rfl, rfl⟩

theorem started_afterAll (b : TypeBuilder) (calls : List Call) :
    (b.afterAll calls).kind = b.kind ∧ (b.afterAll calls).name = b.name ∧
      (b.afterAll calls).namespaceName = b.namespaceName := by
  induction calls generalizing b with
  | nil => exact ⟨rfl, rfl, rfl⟩
  | cons c calls ih =>
    obtain ⟨hk, hn, hs⟩ := started_after b c
    obtain ⟨ihk, ihn, ihs⟩ := ih (b.after c)
    exact ⟨ihk.trans hk, ihn.trans hn, ihs.trans hs⟩

/-! ### What was built -/

/-- A builder with a head whose parts are what they stand for. -/
structure HasHead (b : TypeBuilder) : Prop where
  name : Name.IsPlain b.name
  namespaceName : b.namespaceName.isEmpty = false → Name.IsDotted b.namespaceName
  usings : ∀ u ∈ b.usings, Name.IsDotted u
  attributes : ∀ a ∈ b.attributes, a.WellFormed
  bases : ∀ t ∈ b.bases, t.WellFormed
  primary : ∀ ps ∈ b.primary, ∀ p ∈ ps, Meant p

/-- The symbol of the type that was built. -/
def symbol (b : TypeBuilder) : TypeSymbol Unit where
  namespaceName := if b.namespaceName.isEmpty then none else some b.namespaceName
  name := b.name
  arity := 0
  kind := b.kind.symbolKind
  isPartial := b.modifiers.contains .part
  members := b.members.ordered.map (·.symbol)
  nested := []
  place := ()

theorem mem_ordered {ms : Members} {m : Member} (h : m ∈ ms.ordered) : m ∈ ms.toList := by
  simp only [Members.ordered, Members.group, List.mem_append, List.mem_filter] at h
  rcases h with (⟨h, -⟩ | ⟨h, -⟩) | ⟨h, -⟩ <;> exact h

theorem ordered_of_isEmpty {ms : Members} (h : ms.isEmpty = true) : ms.ordered = [] := by
  rw [Members.isEmpty, List.isEmpty_iff] at h
  simp [Members.ordered, Members.group, h]

/-- The members that are written are those that were added, in the order of writing. -/
theorem members_buildType (b : TypeBuilder) : b.buildType.members = b.members.ordered := by
  unfold buildType TypeDecl.members hasMembers
  cases hm : b.members.isEmpty with
  | true => simp [ordered_of_isEmpty hm]
  | false => simp

/-- The parameters that are written are well formed if they are as they are meant. -/
theorem wellFormed_parameters {b : TypeBuilder} (h : ∀ ps ∈ b.primary, ∀ p ∈ ps, Meant p) :
    ∀ ps ∈ b.buildType.parameters, ∀ p ∈ ps, p.WellFormed := by
  intro ps hps
  unfold buildType at hps
  cases hp : b.primary with
  | none => rw [hp] at hps; cases hps
  | some qs =>
    rw [hp] at hps
    cases qs with
    | nil => cases hps
    | cons q qs =>
      obtain rfl := Option.some.inj hps
      exact wellFormed_declareParameters (h _ hp)

/-- The members that are written are well formed if those that were added are. -/
theorem wellFormed_members {b : TypeBuilder} {owner : String} (h : b.HasMembersOf owner) :
    ∀ m ∈ b.buildType.members, m.WellFormed owner := by
  rw [members_buildType]
  exact fun m hm => h m (mem_ordered hm)

theorem wellFormed_buildType {b : TypeBuilder} (hh : b.HasHead) (hm : b.HasMembersOf b.name) :
    b.buildType.WellFormed where
  attributes := hh.attributes
  name := hh.name
  parameters := wellFormed_parameters hh.primary
  bases := hh.bases
  members := wellFormed_members hm

/-- The symbol of the type that is written is that of the type that was built. -/
theorem symbol_buildType (b : TypeBuilder) (namespaceName : Option String) :
    b.buildType.symbol namespaceName = { b.symbol with namespaceName } := by
  unfold TypeDecl.symbol
  rw [members_buildType]
  rfl

/-- The one item of the file that is built, and what it declares. -/
theorem exists_item {b : TypeBuilder} (hh : b.HasHead) (hm : b.HasMembersOf b.name) :
    ∃ item : TopLevel, b.build = ⟨b.usings, [item]⟩ ∧ item.WellFormed ∧
      item.symbols = [b.symbol] := by
  have ht := wellFormed_buildType hh hm
  unfold build
  cases hn : b.namespaceName.isEmpty with
  | true =>
    refine ⟨.typeDecl b.buildType, by simp, ht, ?_⟩
    simp [TopLevel.symbols, symbol_buildType, symbol, hn]
  | false =>
    refine ⟨.namespaceDecl ⟨b.namespaceName, b.namespaceForm, [b.buildType]⟩, by simp,
      ⟨hh.namespaceName hn, List.forall_mem_singleton.2 ht⟩, ?_⟩
    simp [TopLevel.symbols, symbol_buildType, symbol, hn]

/-- A source file that is well formed is parsed as its usings and its one item. -/
theorem parse_render_unit {usings : List String} {item : TopLevel}
    (h : CompilationUnit.WellFormed ⟨usings, [item]⟩) (f : Format) (index : Nat) :
    let tree := SyntaxTree.parse .latest ⟨render f (CompilationUnit.mk usings [item]), index⟩
    tree.hasErrors = false ∧ tree.usings = usings ∧ tree.types.map (·.unplaced) = item.symbols := by
  obtain ⟨hline, hlexemes⟩ := Layout.lexemes_render (h.spells f)
  have hparse := Parser.accepts_parseFile h.usings (h.members item List.mem_cons_self)
  rw [← hlexemes] at hparse
  exact SyntaxTree.accepted_file (s := ⟨render f (CompilationUnit.mk usings [item]), index⟩)
    hline hparse

/-- **What is built is what is parsed.**  Whatever calls a builder was given and in
whatever format the type is laid out, the text has no errors, and declares the usings of
the builder and the one type that was built. -/
theorem parse_render_build (kind : Kind) (name namespaceName : String) (calls : List Call)
    (f : Format) (index : Nat) (hh : ((start kind name namespaceName).afterAll calls).HasHead)
    (hm : ∀ c ∈ calls, c.AddsMembersOf name) :
    let b := (start kind name namespaceName).afterAll calls
    let tree := SyntaxTree.parse .v12 ⟨render f b.build, index⟩
    tree.hasErrors = false ∧ tree.usings = b.usings ∧ tree.types.map (·.unplaced) = [b.symbol] := by
  have hmembers : (start kind name namespaceName).HasMembersOf name :=
    fun _ h => absurd h List.not_mem_nil
  have hname := (started_afterAll (start kind name namespaceName) calls).2.1
  have hall := hmembers.afterAll hm
  generalize (start kind name namespaceName).afterAll calls = b at hh hname hall
  obtain ⟨item, hbuild, hitem, hsymbols⟩ := exists_item hh (hname ▸ hall)
  dsimp only
  rw [hbuild, ← hsymbols]
  exact parse_render_unit ⟨hh.usings, List.forall_mem_singleton.2 hitem⟩ f index

/-! ### A class with a member of each kind -/

/-- A field with a reserved name. -/
def classField : FieldSpec :=
  { name := "class", type := ⟨"int"⟩, modifiers := [.priv, .static], initializer := some "1" }

/-- A constructor with a parameter whose name is reserved. -/
def orderConstructor : ConstructorBuilder :=
  (ConstructorBuilder.start "Order").withParameters
    [{ name := "event", type := ⟨"int"⟩, fallback := some "0" }]

/-- A method of one expression. -/
def twiceMethod : MethodBuilder :=
  ((MethodBuilder.start "Twice").withResult ⟨"int"⟩).withExpressionBody "Total * 2"

/-- The calls that build a partial class, its members not in the order of writing. -/
def orderCalls : List Call := [
  .usings ["System", "System.Text"], .modifiers [.part, .pub], .methods [twiceMethod.build],
  .properties [.auto "Total" ⟨"int"⟩], .constructors [orderConstructor.build],
  .fields [classField]]

theorem wellFormed_int : TypeName.WellFormed ⟨"int"⟩ := wellFormed_builtin (by decide)

theorem wellFormed_classField : classField.WellFormed where
  attributes _ h := absurd h List.not_mem_nil
  type := wellFormed_int
  modifiers w h hw := by
    obtain rfl := Option.some.inj h
    exact absurd hw (by decide +kernel)
  name := by decide +kernel
  initializer e h := by
    obtain rfl := Option.some.inj h
    exact ⟨by decide +kernel, .of_wellNested (by decide +kernel) (by decide +kernel)⟩

theorem wellFormed_orderConstructor : orderConstructor.WellFormed "Order" where
  attributes _ h := absurd h List.not_mem_nil
  name := rfl
  parameters := List.forall_mem_singleton.2 {
    name := by decide +kernel
    type := wellFormed_int
    fallback := fun e h => by
      obtain rfl := Option.some.inj h
      exact ⟨by decide +kernel, by decide +kernel⟩
    attributes := fun _ h => absurd h List.not_mem_nil }
  delegation _ h := by cases h
  body := @Parser.Phrase.isBody [] .done fun _ h => absurd h List.not_mem_nil

theorem wellFormed_twiceMethod : twiceMethod.WellFormed where
  attributes _ h := absurd h List.not_mem_nil
  result := wellFormed_int
  modifiers _ h := by cases h
  name := by decide +kernel
  typeParameters _ h := absurd h List.not_mem_nil
  parameters _ h := absurd h List.not_mem_nil
  body := ⟨by decide +kernel, .of_wellNested (by decide +kernel) (by decide +kernel)⟩

theorem wellFormed_autoInt : (PropertySpec.auto "Total" ⟨"int"⟩).WellFormed where
  attributes _ h := absurd h List.not_mem_nil
  type := wellFormed_int
  modifiers w h hw := by
    obtain rfl := Option.some.inj h
    exact absurd hw (by decide +kernel)
  name := by decide +kernel
  body _ h := by cases h
  initializer _ _ _ h := by cases h

theorem addsMembersOf_orderCalls : ∀ c ∈ orderCalls, c.AddsMembersOf "Order" := by
  simp only [orderCalls, List.forall_mem_cons]
  refine ⟨trivial, trivial, ?_, ?_, ?_, ?_, fun _ h => absurd h List.not_mem_nil⟩
  · exact List.forall_mem_singleton.2 wellFormed_twiceMethod.build
  · exact List.forall_mem_singleton.2 wellFormed_autoInt
  · exact List.forall_mem_singleton.2 wellFormed_orderConstructor.build
  · exact List.forall_mem_singleton.2 wellFormed_classField

theorem hasHead_order : ((start .cls "Order" "Shop").afterAll orderCalls).HasHead where
  name := by decide +kernel
  namespaceName _ := ⟨["Shop"], by decide +kernel⟩
  usings := by
    refine List.forall_mem_cons.2 ⟨⟨["System"], by decide +kernel⟩, ?_⟩
    exact List.forall_mem_singleton.2 ⟨["System", "Text"], by decide +kernel⟩
  attributes _ h := absurd h List.not_mem_nil
  bases _ h := absurd h List.not_mem_nil
  primary _ h := by cases h

theorem parse_render_build_order :
    let b := (start .cls "Order" "Shop").afterAll orderCalls
    let tree := SyntaxTree.parse .v12 ⟨render { indent := .tab } b.build, 0⟩
    tree.hasErrors = false ∧ tree.usings = ["System", "System.Text"] ∧
      tree.types.map (·.unplaced) = [⟨some "Shop", "Order", 0, .cls, true,
        [⟨.field, "class", true⟩, ⟨.constructor, ".ctor", false⟩, ⟨.method, "Twice", false⟩,
          ⟨.property, "Total", false⟩], [], ()⟩] :=
  parse_render_build .cls "Order" "Shop" orderCalls { indent := .tab } 0 hasHead_order
    addsMembersOf_orderCalls

end TypeBuilder
end Build
end Outline
