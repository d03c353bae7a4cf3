/-
# Types are accepted

A type is parsed as the one symbol that it declares if its parts are parsed as what they
declare.  Where its name stands is left open: a symbol is compared without its place.

| part | stands for |
| --- | --- |
| words before the name | kind |
| type parameters | arity |
| parameters, base types | nothing |
| body | members and nested types |

A class or struct has such parts if it is shaped like one; so have enums and delegates.
-/

import Outline.Parser.File
import Outline.Proofs.Parser.Members

namespace Outline

namespace Tree

/-- The kind of the symbol of a type. -/
def Kind.symbolKind : Kind → TypeKind
  | cls => .cls
  | struct => .struct

/-- The symbol that a type declares in a namespace. -/
def TypeDecl.symbol (t : TypeDecl) (namespaceName : Option String) : TypeSymbol Unit where
  namespaceName := namespaceName
  name := t.name
  arity := 0
  kind := t.kind.symbolKind
  isPartial := t.modifiers.contains .part
  members := t.members.map (·.symbol)
  nested := []
  place := ()

end Tree

namespace Parser

open Outline.Tree
open Lexeme (mark)

variable {tol : Tolerance}

/-! ### Heads -/

theorem accepts_typeKeyword (k : Kind) (i : Nat) (after : List Lexeme) :
    Accepts tol typeKeyword i [.word k.keyword] after (· = k.symbolKind) := by
  cases k with
  | cls => exact .of_eq rfl rfl rfl
  | struct => exact .of_eq rfl rfl rfl

theorem accepts_typeName (keyword : Nat) (name : String) (i : Nat) (after : List Lexeme) :
    Accepts tol (typeName keyword) i [.name name] after (· = (name, .start i)) := .of_eq rfl rfl rfl

theorem accepts_primaryParameters {parameters : Option (List Parameter)}
    (h : ∀ ps ∈ parameters, ∀ p ∈ ps, p.WellFormed) (kind : TypeKind) (place : Edge) (i : Nat)
    {after : List Lexeme} (ha : after.head?.any (·.isPunct "(") = false) :
    Accepts tol (primaryParameters kind place) i ((parameters.map parameterSpelling).getD []) after
      fun _ => True := by
  cases parameters with
  | none => exact .lookElse ha <| .pure trivial
  | some ps =>
    have hskip := fun j =>
      accepts_skipGroup (t := tol) .paren (wellNested_parameters (h ps rfl)) j after
    refine .lookThen rfl ?_
    by_cases hk : kind = .cls ∨ kind = .struct
    · simp only [hk, if_true]
      exact .after_nothing (.report (tol.allows_needs _)) fun _ _ =>
        .before_nothing (hskip _) fun _ _ => .pure trivial
    · simp only [hk, if_false]
      exact .before_nothing (hskip i) fun _ _ => .pure trivial

/-- The base types of a type are passed in its head. -/
theorem expression_bases {bases : List TypeName}
    (h : ∀ b ∈ bases, IsExpression headStops b.text) :
    Expression headStops (listSpelling (bases.map (·.text))) := by
  refine .commaSeparated (fun ls hls => ?_) (by decide)
  obtain ⟨s, hs, rfl⟩ := List.mem_map.1 hls
  obtain ⟨b, hb, rfl⟩ := List.mem_map.1 hs
  exact (h b hb).2

theorem isWord_of_isOneOf {l : Lexeme} {ps : List String} (h : l.isOneOf ps = true) (w : String) :
    l.isWord w = false := by
  rw [Lexeme.isOneOf, Bool.and_eq_true, beq_iff_eq] at h
  rw [Lexeme.isWord, h.1]
  rfl

theorem accepts_bases {bases : List TypeName} (h : ∀ b ∈ bases, IsExpression headStops b.text)
    (i : Nat) {after : List Lexeme} (ha : after.head?.any (·.isOneOf headStops) = true) :
    Accepts tol Parser.bases i (baseSpelling bases) after fun _ => True := by
  unfold baseSpelling
  split
  · have hnone : (Cursor.atPunct ⟨i, after⟩ ":" || Cursor.atWord ⟨i, after⟩ "where") = false := by
      cases after with
      | nil => rfl
      | cons l ls =>
        have hpunct : l.isPunct ":" = false := isPunct_of_not_mem ha (by decide)
        have hword : l.isWord "where" = false := isWord_of_isOneOf ha "where"
        exact Bool.or_eq_false_iff.2 ⟨hpunct, hword⟩
    exact .lookElse hnone <| .pure trivial
  · exact .lookThen rfl <| accepts_skipToBody ((expression_bases h).plain rfl rfl) ha i

/-! ### Bodies -/

/-- Entries hold members and nested types, whose places are left open. -/
structure Holds (members : List MemberSymbol) (nested : List (TypeSymbol Unit))
    (entries : List Entry) : Prop where
  members : entries.filterMap (·.member?) = members
  nested : (entries.filterMap (·.nested?)).map (·.unplaced) = nested

namespace Holds

theorem nil : Holds [] [] [] := ⟨rfl, rfl⟩

theorem type {t : Declared} {s : TypeSymbol Unit} (h : t.unplaced = s) :
    Holds [] [s] [.nested t] := ⟨rfl, congrArg (fun s => [s]) h⟩

theorem append {ms ns : List MemberSymbol} {ss ts : List (TypeSymbol Unit)}
    {entries more : List Entry} (h : Holds ms ss entries) (h' : Holds ns ts more) :
    Holds (ms ++ ns) (ss ++ ts) (entries ++ more) := by
  constructor
  · rw [List.filterMap_append, h.members, h'.members]
  · rw [List.filterMap_append, List.map_append, h.nested, h'.nested]

/-- Members stand for themselves. -/
theorem map (ms : List MemberSymbol) : Holds ms [] (ms.map .member) := by
  induction ms with
  | nil => exact nil
  | cons m ms ih =>
    have one : Holds [m] [] [.member m] := ⟨rfl, rfl⟩
    exact one.append ih

end Holds

/-- **A body in braces is accepted** if what is in the braces is. -/
theorem accepts_braced {entries : EntryParser} {kind : TypeKind} (hk : kind ≠ .enum)
    {name : String} {ms after : List Lexeme} {good : List Entry → Prop}
    (h : ∀ j, Accepts tol (entries name) j ms (mark "\x7d" :: after) good)
    (ha : after.head?.any (·.isPunct ";") = false) (place : Edge) (i : Nat) :
    Accepts tol (typeBody entries kind name place) i (grouped .brace ms) after good := by
  unfold typeBody
  simp only [hk, if_false]
  refine .eat <| .bind (h _) fun inside hi => ?_
  exact .before_nothing (.expect "\x7d" .closeBrace) fun _ _ => .eat_not ha <| .pure hi

/-- The body of a type is accepted as the members of the type. -/
theorem accepts_typeBody {t : TypeDecl} (h : ∀ m ∈ t.members, m.WellFormed t.name) (place : Edge)
    (i : Nat) {after : List Lexeme} (ha : after.head?.any (·.isPunct ";") = false) :
    Accepts .harmless (typeBody memberList t.kind.symbolKind t.name place) i t.body.spelling after
      (Holds (t.members.map (·.symbol)) []) := by
  have hkind : t.kind.symbolKind ≠ .enum := by cases t.kind <;> decide
  unfold TypeDecl.members at h ⊢
  cases hb : t.body with
  | terminated =>
    unfold typeBody
    simp only [hkind, if_false]
    refine .eat_not rfl <| .eat ?_
    simp only [if_true]
    split
    · exact .after_nothing (.report (Tolerance.allows_needs _ _)) fun _ _ => .pure .nil
    · exact .pure .nil
  | braced members =>
    rw [hb] at h
    refine (accepts_braced hkind (accepts_memberList h · after) ha place i).mono ?_
    rintro _ rfl
    have := Holds.map (members.map (·.symbol))
    rwa [List.map_map] at this

/-! ### Declarations -/

theorem opens_body (b : TypeBody) (after : List Lexeme) :
    (b.spelling ++ after).head?.any (·.isOneOf ["\x7b", ";"]) = true := by
  cases b <;> rfl

theorem stops_body (b : TypeBody) (after : List Lexeme) :
    (b.spelling ++ after).head?.any (·.isOneOf headStops) = true := by
  cases b <;> rfl

theorem head?_bases (bases : List TypeName) {p : String} (hp : p ≠ ":") {after : List Lexeme}
    (h : after.head?.any (·.isPunct p) = false) :
    (baseSpelling bases ++ after).head?.any (·.isPunct p) = false := by
  unfold baseSpelling
  split
  · exact h
  · simp [Lexeme.isPunct, mark, hp.symm]

/-- **A type is accepted** as the symbol that its parts make up. -/
theorem accepts_typeParts {entries : EntryParser} {kind : TypeKind} {name : String} {arity : Nat}
    {words parameters primary base body after : List Lexeme} {members : List MemberSymbol}
    {nested : List (TypeSymbol Unit)} {namespaceName : Option String} {modifiers : List String}
    (hwords : ∀ j, Accepts tol typeKeyword j words
      (.name name :: (parameters ++ (primary ++ (base ++ body))) ++ after) (· = kind))
    (hparameters : ∀ j, Accepts tol typeParameters? j parameters
      (primary ++ (base ++ body) ++ after) (· = arity))
    (hprimary : ∀ place j, Accepts tol (primaryParameters kind place) j primary
      (base ++ body ++ after) fun _ => True)
    (hbase : ∀ j, Accepts tol Parser.bases j base (body ++ after) fun _ => True)
    (hbody : ∀ place j, Accepts tol (typeBody entries kind name place) j body after
      (Holds members nested)) (i : Nat) :
    Accepts tol (typeDeclaration entries namespaceName modifiers) i
      (words ++ .name name :: (parameters ++ (primary ++ (base ++ body)))) after
      (·.unplaced = ⟨namespaceName, name, arity, kind, modifiers.contains "partial", members,
        nested, ()⟩) := by
  refine .look <| .bind (hwords i) fun k hk => ?_
  refine .bind (accepts_typeName i name _ _) fun p hp => ?_
  subst hk hp
  refine .bind (hparameters _) fun a ha => .bind (hprimary _ _) fun _ _ => ?_
  refine .bind (hbase _) fun _ _ => .before_nothing (hbody _ _) fun inside hi => .pure ?_
  rw [TypeSymbol.unplaced, TypeSymbol.map, TypeSymbol.mapAll_eq_map, ha, hi.members]
  exact congrArg (fun nested => TypeSymbol.mk _ _ _ _ _ _ nested ()) hi.nested

/-- **A class or a struct is accepted** as the symbol that it declares. -/
theorem accepts_typeDeclaration {t : TypeDecl} (h : t.Shaped) (namespaceName : Option String)
    (i : Nat) {after : List Lexeme} (ha : after.head?.any (·.isPunct ";") = false) :
    Accepts .harmless (typeDeclaration memberList namespaceName t.modifiers.words) i
      (.word t.kind.keyword :: .name t.name :: (t.tail ++ t.body.spelling)) after
      (·.unplaced = t.symbol namespaceName) := by
  have htail : t.tail ++ t.body.spelling
      = (t.parameters.map parameterSpelling).getD [] ++ (baseSpelling t.bases ++ t.body.spelling) :=
    List.append_assoc _ _ _
  have hbases : ∀ p ∈ ["(", "<"],
      (baseSpelling t.bases ++ t.body.spelling ++ after).head?.any (·.isPunct p) = false := by
    have apart : ∀ p ∈ ["(", "<"], p ≠ ":" ∧ p ∉ ["\x7b", ";"] := by decide
    intro p hp
    rw [List.append_assoc]
    exact head?_bases _ (apart p hp).1 (head?_isPunct_of_not_mem (opens_body _ _) (apart p hp).2)
  have hangle : ((t.parameters.map parameterSpelling).getD []
      ++ (baseSpelling t.bases ++ t.body.spelling) ++ after).head?.any (·.isPunct "<") = false := by
    cases t.parameters with
    | some ps => rfl
    | none => exact hbases "<" (by decide)
  have harity : ∀ j, Accepts .harmless typeParameters? j [] _ (· = 0) :=
    fun j => .lookElse hangle <| .pure rfl
  have hpartial : t.modifiers.contains .part = t.modifiers.words.contains "partial" :=
    (contains_words t.modifiers .part).symm
  rw [htail, TypeDecl.symbol, hpartial]
  exact accepts_typeParts (fun j => accepts_typeKeyword t.kind j _) harity
    (fun place j => accepts_primaryParameters h.parameters _ place j (hbases "(" (by decide)))
    (fun j => accepts_bases h.bases j (stops_body _ _))
    (fun place j => accepts_typeBody h.members place j ha) i

/-! ### Enums -/

theorem accepts_no_attributes {after : List Lexeme} (ha : after.head?.any (·.isPunct "[") = false)
    (i : Nat) : Accepts tol attributes i [] after fun _ => True :=
  accepts_attributeSpelling wellFormed_no_attributes ha i

/-- A name of an enum is accepted up to what follows it. -/
theorem accepts_enumMember {n : String} {ls after : List Lexeme} {more : Bool}
    (h : (ls ++ after).head?.any (·.isOneOf [",", "\x7d"]) = true) (i : Nat)
    (hcomma : Accepts tol (enumComma i) (i + 1) ls after (· = more)) :
    Accepts tol enumMember i (.name n :: ls) after
      (· = (some ⟨.enumMember, n, true⟩, more)) := by
  have hname : Accepts tol enumName i [.name n] (ls ++ after)
      (· = some ⟨.enumMember, n, true⟩) := .of_eq rfl rfl rfl
  refine .look <| .after_nothing (accepts_no_attributes rfl i) fun _ _ => .bind hname fun m hm => ?_
  subst hm
  refine .eat_not (head?_isPunct_of_not_mem h (by decide)) <| .before_nothing hcomma ?_
  rintro _ rfl
  exact .pure rfl

/-- **The names of an enum are accepted** up to its closing brace. -/
theorem accepts_enumMembers (n : String) (ns : List String) (i : Nat) (after : List Lexeme) :
    Accepts tol enumMembers i (.name n :: ns.flatMap fun m => [mark ",", .name m])
      (mark "\x7d" :: after) (· = (n :: ns).map (⟨.enumMember, ·, true⟩)) := by
  induction ns generalizing n i with
  | nil =>
    have hcomma : Accepts tol (enumComma i) (i + 1) [] (mark "\x7d" :: after) (· = false) := by
      have hend : enumComma i ⟨i + 1, mark "\x7d" :: after⟩
          = ⟨false, ⟨i + 1, mark "\x7d" :: after⟩, []⟩ := by
        rw [enumComma_of_none rfl]
        dsimp only
        rw [if_neg (Nat.succ_ne_self i)]
        rfl
      exact .of_eq hend rfl rfl
    have hlast := accepts_enumMember (n := n) rfl i hcomma
    have hvalue : (enumMember ⟨i, .name n :: mark "\x7d" :: after⟩).value.2 = false :=
      congrArg Prod.snd hlast.value
    have hstop : enumMembers ⟨i, .name n :: mark "\x7d" :: after⟩
        = enumTurn ⟨i, .name n :: mark "\x7d" :: after⟩ := by
      rw [enumMembers, if_neg (by exact Bool.false_ne_true)]
      dsimp only
      rw [if_neg fun h => Bool.false_ne_true (hvalue.symm.trans h)]
      rfl
    have hturn : Accepts tol enumTurn i [.name n] (mark "\x7d" :: after)
        (· = [⟨.enumMember, n, true⟩]) := hlast.map fun p hp => by rw [hp]; rfl
    exact .of_here hstop hturn
  | cons m ms ih =>
    have hcomma : Accepts tol (enumComma i) (i + 1) [mark ","]
        (.name m :: (ms.flatMap fun m => [mark ",", .name m]) ++ mark "\x7d" :: after)
        (· = true) := .of_eq (enumComma_of_comma rfl i) rfl rfl
    have hone := accepts_enumMember (n := n) rfl i hcomma
    have hturn : Accepts tol enumTurn i [.name n, mark ","]
        (.name m :: (ms.flatMap fun m => [mark ",", .name m]) ++ mark "\x7d" :: after)
        (· = [⟨.enumMember, n, true⟩]) := hone.map fun p hp => by rw [hp]; rfl
    refine .of_goesOn (goesOn_enumMembers rfl ?_) hturn (ih m (i + 2)) ?_
    · exact congrArg Prod.snd hone.value
    · rintro _ _ rfl rfl
      rfl

/-- Names with commas between them are accepted, or none at all. -/
theorem accepts_enumNames (names : List String) (i : Nat) (after : List Lexeme) :
    Accepts tol enumMembers i (Lexer.commaSeparated (names.map ([.name ·])))
      (mark "\x7d" :: after) (· = names.map (⟨.enumMember, ·, true⟩)) := by
  cases names with
  | nil =>
    have hend : enumMembers ⟨i, mark "\x7d" :: after⟩ = ⟨[], ⟨i, mark "\x7d" :: after⟩, []⟩ := by
      rw [enumMembers, atPunct_mark]
      rfl
    exact .of_eq hend rfl rfl
  | cons n ns =>
    rw [commaSeparated_names]
    exact accepts_enumMembers n ns i after

/-- **The body of an enum is accepted** as the names in it. -/
theorem accepts_enumBody (entries : EntryParser) (names : List String) {after : List Lexeme}
    (ha : after.head?.any (·.isPunct ";") = false) (name : String) (place : Edge) (i : Nat) :
    Accepts tol (typeBody entries .enum name place) i
      (grouped .brace (Lexer.commaSeparated (names.map ([.name ·])))) after
      (Holds (names.map (⟨.enumMember, ·, true⟩)) []) := by
  have hholds := Holds.map (names.map (⟨.enumMember, ·, true⟩))
  refine .eat <| .bind (accepts_enumNames names _ after) ?_
  rintro _ rfl
  refine .after_nothing (.pure hholds) fun inside hi => ?_
  exact .before_nothing (.expect "\x7d" .closeBrace) fun _ _ => .eat_not ha <| .pure hi

/-! ### Delegates -/

/-- **A delegate is accepted** as the symbol that it declares. -/
theorem accepts_delegateDeclaration {type ms : List Lexeme} (ht : TypeForm type)
    (hm : WellNested ms) (name : String) (names : List String) (namespaceName : Option String)
    (i : Nat) (after : List Lexeme) :
    Accepts tol (delegateDeclaration namespaceName) i
      (.word "delegate" :: (type ++ (.name name :: (typeParameterSpelling names
        ++ (grouped .paren ms ++ [mark ";"]))))) after
      (∃ t : Declared, · = some t ∧ t.unplaced
        = ⟨namespaceName, name, names.length, .delegate, false, [], [], ()⟩) := by
  refine .advance <| .bind (accepts_typeReference ht rfl _) fun b hb => ?_
  subst hb
  refine .look <| .bind (.name? name) fun n hn => ?_
  subst hn
  refine .bind (accepts_typeParameters? _ rfl) fun arity ha => ?_
  refine .bind (accepts_requiredParens hm _ _) fun _ _ => ?_
  refine .after_nothing (accepts_constraints_none rfl _) fun _ _ => ?_
  refine .before_nothing (.expect ";" .semicolon) fun _ _ => .pure ⟨_, rfl, ?_⟩
  rw [ha]
  rfl

/-! ### Types in a type -/

/-- The words with which a type is declared. -/
def declarationWords : List String := ["class", "struct", "interface", "enum", "record", "delegate"]

/-- Lexemes that declare a type in front of `after`, modifiers with these words having been
taken.  Its symbol depends on the namespace around it. -/
inductive DeclaresType (tol : Tolerance) (modifiers : List String) (after : List Lexeme)
    (symbol : Option String → TypeSymbol Unit) : List Lexeme → Prop
  | type {word : String} {ls : List Lexeme} (hw : word ∈ declarationWords)
      (hk : ∀ i, atTypeKeyword ⟨i, .word word :: ls ++ after⟩ = true)
      (h : ∀ namespaceName i, Accepts tol (typeDeclaration memberList namespaceName modifiers) i
        (.word word :: ls) after (·.unplaced = symbol namespaceName)) :
      DeclaresType tol modifiers after symbol (.word word :: ls)
  | delegate {ls : List Lexeme}
      (h : ∀ namespaceName i, Accepts tol (delegateDeclaration namespaceName) i
        (.word "delegate" :: ls) after
        (∃ t : Declared, · = some t ∧ t.unplaced = symbol namespaceName)) :
      DeclaresType tol modifiers after symbol (.word "delegate" :: ls)

section

variable {modifiers : List String} {ls after : List Lexeme}
  {symbol : Option String → TypeSymbol Unit}

theorem DeclaresType.exists_word (h : DeclaresType tol modifiers after symbol ls) :
    ∃ word ∈ declarationWords, ∃ rest, ls = .word word :: rest := by
  cases h with
  | type hw => exact ⟨_, hw, _, rfl⟩
  | delegate => exact ⟨"delegate", by decide, _, rfl⟩

theorem isModifier_of_mem_declarationWords {word : String} (h : word ∈ declarationWords)
    (next : Option Lexeme) : isModifier (.word word) next = false := by
  have none : ∀ w ∈ declarationWords, (Lexeme.word w).isKeywordOf modifierKeywords = false ∧
      (Lexeme.word w).isWordOf modifierWords = false := by decide
  obtain ⟨hk, hw⟩ := none word h
  rw [isModifier, hk, hw]
  rfl

/-- **A type is accepted in another one** as the symbol that it declares there. -/
theorem accepts_nestedType {as : List Attribute} (ha : ∀ a ∈ as, a.WellFormed) {ms : Modifiers}
    (h : DeclaresType tol ms.words after symbol ls) (owner : String) (i : Nat) :
    Accepts tol (member memberList owner) i (attributeSpelling as ++ (ms.spelling ++ ls)) after
      (Holds [] [symbol none]) := by
  obtain ⟨word, hword, rest, hls⟩ := h.exists_word
  have hwordy : ∀ p, (ls ++ after).head?.any (·.isPunct p) = false := by
    rw [hls]
    exact isPunct_of_isWordy (isWordy_word word)
  have hgo : ∀ j, (Cursor.atPunct ⟨j, ls ++ after⟩ "\x7d" || Cursor.atEnd ⟨j, ls ++ after⟩)
      = false := by
    rw [hls]
    exact fun j => Bool.or_eq_false_iff.2 ⟨isPunct_of_isWordy (isWordy_word word) "\x7d", rfl⟩
  refine accepts_prefix ha ?_ (hwordy "[") ?_ fun j => .lookElse (hgo j) ?_
  · rw [hls]
    exact fun _ _ _ => isWordy_word word
  · rw [hls]
    rintro _ ⟨⟩
    exact isModifier_of_mem_declarationWords hword _
  · cases h with
    | type _ hk h =>
      exact .lookThen (hk j) <| .before_nothing (h none j) fun t ht => .pure (.type ht)
    | delegate h =>
      refine .lookElse rfl <| .lookThen rfl <| .before_nothing (h none j) ?_
      rintro _ ⟨t, rfl, ht⟩
      exact .pure (.type ht)

end

/-- A class or a struct declares its type. -/
theorem declaresType_typeDecl {t : TypeDecl} (h : t.Shaped) {after : List Lexeme}
    (ha : after.head?.any (·.isPunct ";") = false) :
    DeclaresType .harmless t.modifiers.words after t.symbol
      (.word t.kind.keyword :: .name t.name :: (t.tail ++ t.body.spelling)) := by
  refine .type ?_ ?_ fun namespaceName i => accepts_typeDeclaration h namespaceName i ha
  · cases t.kind <;> decide
  · cases t.kind <;> exact fun _ => rfl

end Parser
end Outline
