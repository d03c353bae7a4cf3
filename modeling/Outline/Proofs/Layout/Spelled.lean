/-
# Declarations are spelled

A well formed declaration is laid out as fragments that are spelled with its lexemes:
whatever the choices of the format are, the text that is written is read as these.
-/

import Outline.Proofs.Layout.Spelling

namespace Outline
namespace Tree

open Lexer Outline.Parser Layout
open Lexeme (mark)

/-! ### Parts of a line -/

theorem reads_list {codes : List String} (h : ∀ s ∈ codes, Inline s) :
    Reads separators.contains (", ".intercalate codes) (listSpelling codes) := by
  have := reads_commaSeparated (by decide) codes fun s hs => reads_inline (h s hs)
  rwa [List.map_id'] at this

/-- **An attribute is read** as its lexemes. -/
theorem Attribute.WellFormed.reads {a : Attribute} (h : a.WellFormed) :
    Reads (fun _ => true) a.text (grouped .square a.inner) := by
  have hopen := (reads_sign (s := "[") (by decide)).onward (reads_inline h.name.1)
  have hclose := reads_sign (s := "]") (by decide)
  unfold Attribute.text Attribute.inner
  cases ha : a.arguments.isEmpty with
  | true => simpa [grouped_square] using hopen.before hclose rfl (by decide)
  | false =>
    have hargs := reads_list fun s hs => (h.arguments s hs).1
    have hparens := ((hopen.before (reads_sign (s := "(") (by decide)) rfl (by decide)).onward
      hargs).before ((reads_sign (s := ")") (by decide)).onward hclose) rfl (by decide)
    simpa [grouped_square, grouped_paren] using hparens

theorem reads_attributes {as : List Attribute} (h : ∀ a ∈ as, a.WellFormed) :
    Reads (fun _ => true) (String.join (as.map (·.text ++ " "))) (attributeSpelling as) := by
  induction as with
  | nil => exact .empty
  | cons a as ih =>
    have ha := (h a List.mem_cons_self).reads.onward reads_space
    have hr := ha.onward (ih fun b hb => h b (List.mem_cons_of_mem a hb))
    simpa [attributeSpelling] using hr

theorem isIdentifier_keyword (m : Modifier) : Name.isIdentifier m.keyword = true := by
  cases m <;> decide +kernel

theorem Modifiers.reads_lead (ms : Modifiers) : Reads (fun _ => true) ms.lead ms.spelling := by
  unfold Modifiers.lead Modifiers.spelling Modifiers.words
  induction ms.toList with
  | nil => exact .empty
  | cons m ms ih =>
    have hm := (reads_word (isIdentifier_keyword m)).before reads_space rfl (by decide)
    simpa using hm.onward ih

/-- A sign with a space on both sides. -/
theorem reads_spacedSign {s : String} (h : s ∈ ["=", "=>", ":"]) :
    Reads (fun _ => true) (" " ++ s ++ " ") [mark s] := by
  simp only [List.mem_cons, List.not_mem_nil, or_false] at h
  have hs : Inline (" " ++ s) ∧ lexemes (" " ++ s) = [mark s] := by
    obtain rfl | rfl | rfl := h <;> decide +kernel
  have := reads_spaced hs.1
  rwa [hs.2] at this

/-- A value after its sign, in front of a separator. -/
theorem reads_assigned {code : Option String} : (∀ s ∈ code, Inline s) →
    Reads separators.contains (match code with | some v => " = " ++ v | none => "")
      (assigned "=" code) := by
  intro h
  cases code with
  | none => exact .empty
  | some v => exact (reads_spacedSign (s := "=") (by decide)).onward (reads_inline (h v rfl))

/-- A name and its value. -/
theorem reads_assign {s : String} {ls : List Lexeme} (h : Reads endsWord s ls)
    {code : Option String} :
    (∀ s ∈ code, Inline s) →
    Reads separators.contains (s ++ (match code with | some v => " = " ++ v | none => ""))
      (ls ++ assigned "=" code) := by
  intro hc
  refine h.append (reads_assigned hc) fun after ha => ?_
  cases code with
  | none => exact ha.mono fun c => endsWord_of_separator
  | some v =>
    rw [String.toList_append]
    exact follows_cons.2 (by decide)

/-- A type and the name after it. -/
theorem TypeName.WellFormed.reads_before {t : TypeName} (h : t.WellFormed) {name : String}
    {l : Lexeme} (hn : Reads endsWord name [l]) :
    Reads endsWord (t.text ++ " " ++ name) (lexemes t.text ++ [l]) := by
  have := ((reads_inline h.1).before reads_space rfl (by decide)).onward hn
  rwa [List.append_nil] at this

/-- How an argument is passed, in front of the type of its parameter. -/
theorem reads_passing (passing : Option Passing) :
    Reads (fun _ => true) (match passing with | some m => m.keyword ++ " " | none => "")
      (passing.toList.map (.word ·.keyword)) := by
  cases passing with
  | none => exact .empty
  | some m =>
    have hm : Name.isIdentifier m.keyword = true := by cases m <;> decide +kernel
    exact (reads_word hm).before reads_space rfl (by decide)

theorem Parameter.WellFormed.reads {p : Parameter} (h : p.WellFormed) :
    Reads separators.contains p.text p.spelling := by
  have hname := h.type.reads_before (reads_written h.name)
  have hpassed := (reads_attributes h.attributes).onward (reads_passing p.passing)
  have := reads_assign (hpassed.onward hname) fun s hs => (h.fallback s hs).1
  simp only [List.append_assoc, List.singleton_append, String.append_assoc] at this
  simp only [Parameter.text, Parameter.spelling, String.append_assoc]
  exact this

theorem reads_parameters {ps : List Parameter} (h : ∀ p ∈ ps, p.WellFormed) :
    Reads (fun _ => true) (parameterText ps) (parameterSpelling ps) := by
  have hs := reads_commaSeparated (by decide) ps fun p hp => (h p hp).reads
  have hopen := (reads_sign (s := "(") (by decide)).onward hs
  have := hopen.before (reads_sign (s := ")") (by decide)) rfl (by decide)
  simp only [List.singleton_append] at this
  exact this

/-! ### Members -/

/-- Fragments of their own for what stands one after the other. -/
theorem spells_each {α : Type} {fragment : α → Fragment} {spell : α → List Lexeme} (as : List α)
    (h : ∀ a ∈ as, Spells [fragment a] (spell a)) :
    Spells (as.map fragment) (as.flatMap spell) := by
  induction as with
  | nil => exact .nil
  | cons a as ih =>
    exact (h a List.mem_cons_self).append (ih fun b hb => h b (List.mem_cons_of_mem a hb))

/-- Attributes stand on lines of their own. -/
theorem spells_attributes {as : List Attribute} (h : ∀ a ∈ as, a.WellFormed) :
    Spells (attributeLines as) (attributeSpelling as) := by
  rw [attributeSpelling, List.flatMap_map]
  exact spells_each as fun a ha => .line (h a ha).reads

/-- Modifiers, a type and a name. -/
theorem reads_declarator (ms : Modifiers) {t : TypeName} (h : t.WellFormed) {name : String}
    {l : Lexeme} (hn : Reads endsWord name [l]) :
    Reads endsWord (ms.lead ++ t.text ++ " " ++ name) (ms.spelling ++ (lexemes t.text ++ [l])) := by
  have := ms.reads_lead.onward (h.reads_before hn)
  rwa [← String.append_assoc, ← String.append_assoc] at this

theorem FieldDecl.WellFormed.spells {d : FieldDecl} (h : d.WellFormed) (f : Format) :
    Spells (Layable.fragments f d) d.spelling := by
  have hline := (reads_assign (reads_declarator d.modifiers h.type (reads_written h.name))
    fun s hs => (h.initializer s hs).1).before (reads_sign (s := ";") (by decide)) rfl (by decide)
  have hs := (spells_attributes h.attributes).append (.line hline)
  simp only [List.append_assoc, List.singleton_append] at hs
  exact hs

/-- The accessors of an automatic property. -/
def accessorText : Option Setter → String
  | some s => " \x7b get; " ++ s.text ++ " \x7d"
  | none => " \x7b get; \x7d"

/-- A property up to the end of its accessors. -/
theorem append_accessorText (head : String) (setter : Option Setter) :
    head ++ accessorText setter = match setter with
      | some s => head ++ " \x7b get; " ++ s.text ++ " \x7d"
      | none => head ++ " \x7b get; \x7d" := by
  cases setter with
  | none => rfl
  | some s => simp only [accessorText, String.append_assoc]

theorem reads_accessors {head : String} {ls : List Lexeme} (h : Reads endsWord head ls)
    (setter : Option Setter) : Reads separators.contains (head ++ accessorText setter)
      (ls ++ grouped .brace (accessorSpelling setter)) := by
  have hs : Inline (accessorText setter) ∧ (accessorText setter).toList.head? = some ' ' ∧
      lexemes (accessorText setter) = grouped .brace (accessorSpelling setter) := by
    rcases setter with _ | _ | _ | _ <;> decide +kernel
  have := h.before (reads_inline hs.1) hs.2.1 (by decide)
  rwa [hs.2.2] at this

/-- Code after a sign, up to its semicolon. -/
theorem reads_ended {follow : Char → Bool} {head : String} {ls : List Lexeme}
    (h : Reads follow head ls) (hf : follow ' ' = true) {s code : String}
    (hs : s ∈ ["=", "=>", ":"]) (hc : Inline code) :
    Reads (fun _ => true) (head ++ (" " ++ s ++ " ") ++ code ++ ";")
      (ls ++ mark s :: (lexemes code ++ [mark ";"])) := by
  have hsign := h.before (reads_spacedSign hs) (c := ' ') (by simp) hf
  have hend : Reads (fun _ => true) ";" [mark ";"] := reads_sign (by decide)
  have := (hsign.onward (reads_inline hc)).before hend rfl (by decide)
  simpa using this

theorem PropertyDecl.WellFormed.spells {p : PropertyDecl} (h : p.WellFormed) (f : Format) :
    Spells (Layable.fragments f p) p.spelling := by
  have hhead := reads_declarator p.modifiers h.type (reads_written h.name)
  suffices hline : ∃ follow, Reads follow (propertyLine p)
      (p.modifiers.spelling ++ (lexemes p.type.text ++ [.name (Name.unescape p.name)]) ++ p.tail) by
    obtain ⟨follow, hr⟩ := hline
    have hs := (spells_attributes h.attributes).append (.line hr)
    simp only [List.append_assoc, List.singleton_append] at hs
    exact hs
  unfold propertyLine PropertyDecl.tail
  cases hb : p.body with
  | auto setter =>
    have haccess := reads_accessors hhead setter
    rw [append_accessorText] at haccess
    cases hi : p.initializer with
    | none =>
      rw [← List.append_nil (grouped _ _)] at haccess
      exact ⟨_, haccess⟩
    | some e =>
      have := reads_ended haccess (by decide) (s := "=") (by decide) (h.initializer e hi).1
      rw [List.append_assoc] at this
      exact ⟨_, this⟩
  | expression e =>
    exact ⟨_, reads_ended hhead (by decide) (s := "=>") (by decide) (h.body e hb).1⟩

theorem Delegation.reads {d : Delegation} (h : ∀ s ∈ d.parts.2, IsCode s) :
    Reads (fun _ => true) (" : " ++ d.text) d.spelling := by
  have call : ∀ {s : String} {codes : List String}, Name.isIdentifier s = true →
      (∀ s ∈ codes, IsCode s) → Reads (fun _ => true)
        (" : " ++ (s ++ "(" ++ ", ".intercalate codes ++ ")"))
        (mark ":" :: .word s :: grouped .paren (listSpelling codes)) := by
    intro s codes hw hc
    have hparen : Reads (fun _ => true) "(" [mark "("] := reads_sign (by decide)
    have hopen := ((reads_word hw).before hparen rfl (by decide)).onward
      (reads_list fun s hs => (hc s hs).1)
    have hcall := hopen.before (reads_sign (s := ")") (by decide)) rfl (by decide)
    have := (reads_spacedSign (s := ":") (by decide)).onward hcall
    simpa [grouped_paren] using this
  cases d with
  | base codes => exact call (s := "base") (by decide) h
  | this codes => exact call (s := "this") (by decide) h

theorem spells_body {head : String} {ls : List Lexeme} (h : Reads separators.contains head ls)
    {lines : List String} (hb : IsBody lines) (nextLine : Bool) :
    Spells [.braced head (statements lines) nextLine]
      (ls ++ grouped .brace (lines.flatMap lexemes)) := by
  have := Spells.braced h (.lines hb.each) nextLine
  simpa [grouped_brace, statements] using this

theorem head?_parameterText (ps : List Parameter) :
    (parameterText ps).toList.head? = some '(' := by simp [parameterText]

theorem ConstructorDecl.WellFormed.spells {owner : String} {c : ConstructorDecl}
    (h : c.WellFormed owner) (ho : Name.IsPlain owner) (f : Format) :
    Spells (Layable.fragments f c) c.spelling := by
  have hname : Reads endsWord c.name [.name c.name] := reads_plain (h.name ▸ ho)
  have hparams := (c.modifiers.reads_lead.onward hname).before (reads_parameters h.parameters)
    (head?_parameterText _) (by decide)
  have hhead : Reads separators.contains (constructorHead c) (c.modifiers.spelling
      ++ (.name c.name :: (parameterSpelling c.parameters
        ++ (c.delegation.map (·.spelling)).getD []))) := by
    unfold constructorHead
    cases hd : c.delegation with
    | none => simpa using hparams.mono fun _ _ => rfl
    | some d =>
      have := hparams.onward (Delegation.reads (h.delegation d hd))
      simpa using this.mono fun _ _ => rfl
  have hs := (spells_attributes h.attributes).append
    (spells_body hhead h.body f.methodBraceOnNewLine)
  simp only [List.append_assoc, List.cons_append] at hs
  exact hs

/-- Type parameters and parameters. -/
theorem reads_signature {names : List String} (hn : ∀ n ∈ names, Name.IsPlain n)
    {ps : List Parameter} (hp : ∀ p ∈ ps, p.WellFormed) {head : String} {ls : List Lexeme}
    (h : Reads endsWord head ls) :
    Reads (fun _ => true)
      (head ++ (if names.isEmpty then "" else "<" ++ ", ".intercalate names ++ ">")
        ++ parameterText ps)
      (ls ++ (typeParameterSpelling names ++ parameterSpelling ps)) := by
  unfold typeParameterSpelling
  cases hs : names.isEmpty with
  | true => simpa using h.before (reads_parameters hp) (head?_parameterText ps) (by decide)
  | false =>
    have hlist := reads_commaSeparated (p := endsWord) (by decide) names fun n hm =>
      reads_plain (hn n hm)
    rw [List.map_id'] at hlist
    have hangles := ((reads_sign (s := "<") (by decide)).onward hlist).before
      (reads_sign (s := ">") (by decide)) rfl (by decide)
    have := (h.before hangles (c := '<') (by simp) (by decide)).onward (reads_parameters hp)
    simpa [angles] using this

theorem MethodDecl.WellFormed.spells {m : MethodDecl} (h : m.WellFormed) (f : Format) :
    Spells (Layable.fragments f m) m.spelling := by
  have hhead := reads_signature h.typeParameters h.parameters
    (reads_declarator m.modifiers h.result (reads_plain h.name))
  suffices hs : ∀ fs, Spells fs (m.modifiers.spelling ++ (lexemes m.result.text ++ [.name m.name])
      ++ (typeParameterSpelling m.typeParameters ++ parameterSpelling m.parameters)
      ++ m.body.spelling) → Spells (attributeLines m.attributes ++ fs) m.spelling by
    refine hs _ ?_
    have hb := h.body
    cases hm : m.body with
    | block lines =>
      rw [hm] at hb
      exact spells_body (hhead.mono fun _ _ => rfl) hb f.methodBraceOnNewLine
    | expression code =>
      rw [hm] at hb
      exact .line (reads_ended hhead rfl (s := "=>") (by decide) hb.1)
    | absent => exact .line (hhead.onward (reads_sign (s := ";") (by decide)))
  intro fs hs
  have := (spells_attributes h.attributes).append hs
  simpa [MethodDecl.spelling] using this

/-- **A member is spelled** with its lexemes. -/
theorem Member.WellFormed.spells {owner : String} {m : Member} (h : m.WellFormed owner)
    (ho : Name.IsPlain owner) (f : Format) : Spells (Layable.fragments f m) m.spelling := by
  cases m with
  | field d => exact FieldDecl.WellFormed.spells h f
  | constructor c => exact ConstructorDecl.WellFormed.spells h ho f
  | property p => exact PropertyDecl.WellFormed.spells h f
  | method m => exact MethodDecl.WellFormed.spells h f

/-! ### Types -/

theorem spells_followingMembers {owner : String} (ho : Name.IsPlain owner) (f : Format)
    {ms : List Member}
    (h : ∀ m ∈ ms, m.WellFormed owner) (previous : Member.Kind) :
    Spells (followingMembers f previous ms) (ms.flatMap (·.spelling)) := by
  induction ms generalizing previous with
  | nil => exact .nil
  | cons m ms ih =>
    have hm := (h m List.mem_cons_self).spells ho f
    have hms := ih (fun k hk => h k (List.mem_cons_of_mem m hk)) m.kind
    unfold followingMembers
    rw [List.flatMap_cons]
    dsimp only
    split
    · exact (Spells.blank.append hm).append hms
    · exact hm.append hms

theorem spells_members {owner : String} (ho : Name.IsPlain owner) (f : Format) {ms : List Member}
    (h : ∀ m ∈ ms, m.WellFormed owner) :
    Spells (memberFragments f ms) (ms.flatMap (·.spelling)) := by
  cases ms with
  | nil => exact .nil
  | cons m ms =>
    exact ((h m List.mem_cons_self).spells ho f).append
      (spells_followingMembers ho f (fun k hk => h k (List.mem_cons_of_mem m hk)) m.kind)

/-- The lexemes of a type up to its body. -/
def TypeDecl.headSpelling (t : TypeDecl) : List Lexeme :=
  t.modifiers.spelling ++ (.word t.kind.keyword :: .name t.name :: t.tail)

theorem reads_optionalParameters {head : String} {ls : List Lexeme} (h : Reads endsWord head ls)
    {params : Option (List Parameter)} : (∀ ps ∈ params, ∀ p ∈ ps, p.WellFormed) →
    Reads endsWord (head ++ (match params with | some ps => parameterText ps | none => ""))
      (ls ++ (params.map parameterSpelling).getD []) := by
  intro hp
  cases params with
  | none => simpa using h
  | some ps =>
    have := h.before (reads_parameters (hp ps rfl)) (head?_parameterText ps) (by decide)
    exact this.mono fun _ _ => rfl

theorem reads_bases {head : String} {ls : List Lexeme} (h : Reads endsWord head ls)
    {bases : List TypeName} (hb : ∀ b ∈ bases, Inline b.text) :
    Reads separators.contains
      (head ++ (if bases.isEmpty then "" else " : " ++ ", ".intercalate (bases.map (·.text))))
      (ls ++ (if bases.isEmpty then [] else mark ":" :: listSpelling (bases.map (·.text)))) := by
  cases hs : bases.isEmpty with
  | true =>
    have := h.mono fun _ => endsWord_of_separator
    rwa [if_pos rfl, if_pos rfl, String.append_empty, List.append_nil]
  | false =>
    have hlist : Reads separators.contains (", ".intercalate (bases.map (·.text)))
        (listSpelling (bases.map (·.text))) := by
      refine reads_list fun s hm => ?_
      obtain ⟨b, hbm, rfl⟩ := List.mem_map.1 hm
      exact hb b hbm
    exact h.before ((reads_spacedSign (s := ":") (by decide)).onward hlist) (c := ' ') (by simp)
      (by decide)

/-- **The head of a type is read** as its lexemes, whatever its name is read as. -/
theorem TypeDecl.Shaped.reads_head {t : TypeDecl} (h : t.Shaped) {name : Lexeme}
    (hn : Reads endsWord t.name [name]) : Reads separators.contains t.head
      (t.modifiers.spelling ++ (.word t.kind.keyword :: name :: t.tail)) := by
  have hkind : Name.isIdentifier t.kind.keyword = true := by
    cases t.kind <;> decide +kernel
  have hkeyword := t.modifiers.reads_lead.onward
    ((reads_word hkind).before reads_space rfl (by decide))
  have hname := hkeyword.onward hn
  rw [← String.append_assoc] at hname
  have := reads_bases (reads_optionalParameters hname h.parameters) fun b hb => (h.bases b hb).1
  simp only [List.append_assoc, List.cons_append, List.nil_append] at this
  exact this

theorem TypeDecl.WellFormed.reads_head {t : TypeDecl} (h : t.WellFormed) :
    Reads separators.contains t.head t.headSpelling := h.shaped.reads_head (reads_plain h.name)

/-- **A type is spelled** with the lexemes of its head if its members are with theirs. -/
theorem TypeDecl.Shaped.spells {t : TypeDecl} (h : t.Shaped) {f : Format} {ls : List Lexeme}
    (hhead : Reads separators.contains t.head ls)
    (hmembers : Spells (memberFragments f t.members) (t.members.flatMap (·.spelling))) :
    Spells (Layable.fragments f t)
      (attributeSpelling t.attributes ++ (ls ++ t.body.spelling)) := by
  refine (spells_attributes h.attributes).append ?_
  unfold TypeDecl.members at hmembers
  cases hb : t.body with
  | terminated =>
    have hend : Reads (fun _ => true) ";" [mark ";"] := reads_sign (by decide)
    exact .line (hhead.before hend rfl (by decide))
  | braced ms =>
    rw [hb] at hmembers
    have := Spells.braced hhead hmembers f.typeBraceOnNewLine
    simpa [TypeBody.spelling, grouped_brace] using this

theorem TypeDecl.WellFormed.spells {t : TypeDecl} (h : t.WellFormed) (f : Format) :
    Spells (Layable.fragments f t) t.spelling := by
  have := h.shaped.spells (f := f) h.reads_head (spells_members h.name f h.members)
  simpa [TypeDecl.spelling, TypeDecl.headSpelling] using this

/-! ### Files -/

theorem spells_separated {α : Type} {fragments : α → List Fragment} {spell : α → List Lexeme}
    (as : List α) (h : ∀ a ∈ as, Spells (fragments a) (spell a)) :
    Spells (separated (as.map fragments)) (as.flatMap spell) := by
  induction as with
  | nil => exact .nil
  | cons a as ih =>
    have ha := h a List.mem_cons_self
    cases as with
    | nil => simpa [separated] using ha
    | cons b bs =>
      have hb := ih fun c hc => h c (List.mem_cons_of_mem a hc)
      exact ha.append (Spells.blank.append hb)

theorem reads_dottedName {name : String} (h : Name.IsDotted name) :
    Reads endsWord name (lexemes name) := by
  obtain ⟨names, -, rfl, hn⟩ := h
  have := reads_dotted hn
  rwa [this.alone.2]

/-- A word and names joined by dots. -/
theorem reads_directive {s name : String} (hs : Name.isIdentifier s = true)
    (h : Name.IsDotted name) :
    Reads endsWord (s ++ " " ++ name) (.word s :: lexemes name) := by
  have := ((reads_word hs).before reads_space rfl (by decide)).onward (reads_dottedName h)
  simpa using this

/-- A namespace is spelled around what its types are spelled with. -/
theorem NamespaceDecl.spells {n : NamespaceDecl} (hn : Name.IsDotted n.name) {f : Format}
    {ls : List Lexeme} (htypes : Spells (separated (n.members.map (Layable.fragments f))) ls) :
    Spells (Layable.fragments f n) (namespaceSpelling n.name n.form ls) := by
  have hhead := reads_directive (s := "namespace") (by decide) hn
  obtain ⟨name, form, members⟩ := n
  cases form with
  | block =>
    have := Spells.braced (hhead.mono fun _ => endsWord_of_separator) htypes f.typeBraceOnNewLine
    simp only [List.cons_append, List.append_assoc] at this
    exact this
  | fileScoped =>
    have hline : Spells [.line ("namespace " ++ name ++ ";")] _ :=
      .line (hhead.before (reads_sign (s := ";") (by decide)) rfl (by decide))
    have hrest : Spells (if (separated (members.map (Layable.fragments f))).isEmpty then []
        else .blank :: separated (members.map (Layable.fragments f))) ls := by
      split
      · rename_i he
        rwa [List.isEmpty_iff.1 he] at htypes
      · exact Spells.blank.append htypes
    have := hline.append hrest
    simp only [List.cons_append, List.append_assoc] at this
    exact this

theorem TopLevel.WellFormed.spells {m : TopLevel} (h : m.WellFormed) (f : Format) :
    Spells (Layable.fragments f m) m.spelling := by
  cases m with
  | namespaceDecl n =>
    have htypes := spells_separated n.members fun t ht => (h.2 t ht).spells f
    have := NamespaceDecl.spells h.1 htypes
    rwa [← NamespaceDecl.spelling_eq] at this
  | typeDecl t => exact TypeDecl.WellFormed.spells h f

/-- A source file is spelled with its usings and what its members are spelled with. -/
theorem CompilationUnit.spells {u : CompilationUnit} (hu : ∀ name ∈ u.usings, Name.IsDotted name)
    {f : Format} {ls : List Lexeme}
    (hmembers : Spells (separated (u.members.map (Layable.fragments f))) ls) :
    Spells (Layable.fragments f u) (u.usings.flatMap usingSpelling ++ ls) := by
  have husings : Spells (u.usings.map fun name => .line ("using " ++ name ++ ";"))
      (u.usings.flatMap usingSpelling) := by
    refine spells_each u.usings fun name hm => ?_
    have hd := reads_directive (s := "using") (by decide) (hu name hm)
    exact .line (hd.before (reads_sign (s := ";") (by decide)) rfl (by decide))
  have hgap : ∀ b : Bool, Spells (if b then [] else [.blank]) [] := by
    intro b
    cases b with
    | true => exact .nil
    | false => exact .blank
  rw [← List.append_nil (u.usings.flatMap usingSpelling)]
  exact (husings.append (hgap _)).append hmembers

/-- **A source file is spelled** with its lexemes. -/
theorem CompilationUnit.WellFormed.spells {u : CompilationUnit} (h : u.WellFormed) (f : Format) :
    Spells (Layable.fragments f u) u.spelling :=
  CompilationUnit.spells h.usings (spells_separated _ fun m hm => (h.members m hm).spells f)

end Tree
end Outline
