/-
# Forests are accepted

The parser goes through the lexemes of a forest and comes to the symbols that the forest
declares; it finds nothing but features that a version may lack.  For types and members
this is one induction, as types hold members and members may be types; for namespaces it
is another one, on the items in their blocks.
-/

import Outline.Proofs.Forest.Tree
import Outline.Proofs.Parser.Files

namespace Outline
namespace Forest

open Outline.Parser
open Outline.Tree (Modifiers)
open Lexer (commaSeparated dotted)
open Lexeme (mark)

variable {tol : Tolerance}

/-! ### Types, names and parameters -/

theorem TypeRef.startsType (t : TypeRef) : Outline.Parser.startsType t.lexeme = true := by
  cases t with
  | builtin word h =>
    have each : ∀ w ∈ builtinTypes, Outline.Parser.startsType (.word w) = true := by decide
    exact each word h
  | named name =>
    have hfree : ("record" :: modifierWords).contains name.text = false := by
      rw [← Bool.not_eq_true, List.contains_iff_mem]
      exact name.isFree
    show (_ || (true && !(("record" :: modifierWords).contains name.text))) = true
    rw [hfree]
    exact Bool.or_true _

theorem TypeRef.typeForm (t : TypeRef) : TypeForm [t.lexeme] := .named t.startsType .nil .nil

theorem spelling_names (names : List FreeName) :
    commaSeparated (names.map ([·.lexeme]))
      = commaSeparated ((names.map (·.text)).map ([.name ·])) := by
  rw [List.map_map]
  rfl

/-- Type parameters are counted. -/
theorem accepts_arity (names : List FreeName) (i : Nat) {after : List Lexeme}
    (ha : after.head?.any (·.isPunct "<") = false) :
    Accepts tol typeParameters? i (typeParameterSpelling names) after (· = names.length) := by
  have : Accepts tol typeParameters? i (typeParameterSpelling names) after
      (· = (names.map (·.text)).length) := accepts_typeParameters? i ha
  rwa [List.length_map] at this

theorem ParameterTree.wellNested (ps : List ParameterTree) :
    WellNested (commaSeparated (ps.map (·.spelling))) := by
  refine .commaSeparated fun ls hls => ?_
  obtain ⟨p, -, rfl⟩ := List.mem_map.1 hls
  have hname : p.name.lexeme.delimiter? = none := delimiter?_of_isWordy rfl
  exact (WellNested.nil.plain hname).plain
    (delimiter?_of_isWordy (isWordy_of_startsType p.type.startsType))

/-- The modifiers of a type. -/
def modifiers (isPartial : Bool) : Modifiers := .ofList (if isPartial then [.part] else [])

theorem spelling_modifiers (isPartial : Bool) :
    (modifiers isPartial).spelling = partialSpelling isPartial := by
  cases isPartial <;> rfl

theorem contains_partial (isPartial : Bool) :
    (modifiers isPartial).words.contains "partial" = isPartial := by
  cases isPartial <;> rfl

/-! ### Types -/

theorem accepts_classWords (kind : ClassKind) (name : String) (i : Nat) (after : List Lexeme) :
    Accepts tol typeKeyword i (kind.words.map .word) (.name name :: after)
      (· = kind.symbolKind) := by
  have hneeds : ∀ feature e, tol.covers [⟨.needs feature, .point e⟩] = true := fun feature e => by
    simp [Tolerance.covers, tol.allows_needs]
  cases kind with
  | cls | struct | interface => exact .of_eq rfl rfl rfl
  | record | recordStruct => exact .of_eq rfl rfl (hneeds _ _)

section

variable {isPartial : Bool} {name : FreeName} {after : List Lexeme}

/-- Types of which the head holds a name and type parameters only. -/
theorem accepts_plainType {kind : TypeKind} {words parameters body : List Lexeme} {arity : Nat}
    {members : List MemberSymbol} {nested : List (TypeSymbol Unit)}
    (hwords : ∀ j, Accepts tol typeKeyword j words
      (name.lexeme :: (parameters ++ grouped .brace body) ++ after) (· = kind))
    (hparameters : ∀ j, Accepts tol typeParameters? j parameters
      (grouped .brace body ++ after) (· = arity))
    (hbody : ∀ place j, Accepts tol (typeBody memberList kind name.text place) j
      (grouped .brace body) after (Holds members nested))
    (namespaceName : Option String) (i : Nat) :
    Accepts tol (typeDeclaration memberList namespaceName (modifiers isPartial).words) i
      (words ++ name.lexeme :: (parameters ++ grouped .brace body)) after
      (·.unplaced = ⟨namespaceName, name.text, arity, kind, isPartial, members, nested, ()⟩) := by
  have hprimary : ∀ place j, Accepts tol (primaryParameters kind place) j []
      ([] ++ grouped .brace body ++ after) fun _ => True :=
    fun _ _ => .lookElse rfl <| .pure trivial
  have hbase : ∀ j, Accepts tol bases j [] (grouped .brace body ++ after) fun _ => True :=
    fun _ => .lookElse rfl <| .pure trivial
  have : Accepts tol (typeDeclaration memberList namespaceName (modifiers isPartial).words) i _
      after _ := accepts_typeParts hwords hparameters hprimary hbase hbody i
  rwa [contains_partial] at this

/-- A class or the like is declared if what it holds is accepted. -/
theorem declares_classLike (kind : ClassKind) (typeParameters : List FreeName)
    {body : List Lexeme} {members : List MemberSymbol} {nested : List (TypeSymbol Unit)}
    (h : ∀ j, Accepts tol (memberList name.text) j body (mark "\x7d" :: after)
      (Holds members nested))
    (ha : after.head?.any (·.isPunct ";") = false) :
    DeclaresType tol (modifiers isPartial).words after
      (fun namespaceName => ⟨namespaceName, name.text, typeParameters.length, kind.symbolKind,
        isPartial, members, nested, ()⟩)
      (kind.words.map .word ++ name.lexeme ::
        (typeParameterSpelling typeParameters ++ grouped .brace body)) := by
  have hkind : kind.symbolKind ≠ .enum := by cases kind <;> decide
  have haccepts : ∀ namespaceName i, Accepts tol (typeDeclaration memberList namespaceName
      (modifiers isPartial).words) i _ after _ :=
    accepts_plainType (fun j => accepts_classWords kind name.text j _)
      (fun j => accepts_arity typeParameters j rfl) (accepts_braced hkind h ha)
  have hkeyword : ∀ i ls, atTypeKeyword ⟨i, kind.words.map .word ++ name.lexeme :: ls⟩ = true := by
    cases kind <;> exact fun _ _ => rfl
  obtain ⟨word, words, hwords, hmem⟩ : ∃ word words, kind.words = word :: words ∧
      word ∈ declarationWords := by
    cases kind <;> exact ⟨_, _, rfl, by decide⟩
  simp only [hwords, List.map_cons, List.cons_append] at haccepts hkeyword ⊢
  refine .type hmem (fun i => ?_) haccepts
  have := hkeyword i (typeParameterSpelling typeParameters ++ grouped .brace body ++ after)
  simpa using this

theorem declares_enum (members : List FreeName) (ha : after.head?.any (·.isPunct ";") = false) :
    DeclaresType tol (modifiers isPartial).words after
      (fun namespaceName => ⟨namespaceName, name.text, 0, .enum, isPartial,
        members.map (⟨.enumMember, ·.text, true⟩), [], ()⟩)
      (.word "enum" :: name.lexeme ::
        grouped .brace (commaSeparated (members.map ([·.lexeme])))) := by
  have hbody : ∀ place j, Accepts tol (typeBody memberList .enum name.text place) j _ after _ :=
    accepts_enumBody memberList (members.map (·.text)) ha name.text
  rw [← spelling_names, List.map_map] at hbody
  refine .type (by decide) (fun _ => rfl) fun namespaceName i => ?_
  have hwords : ∀ j ls, Accepts tol typeKeyword j [.word "enum"] ls (· = .enum) :=
    fun _ _ => .of_eq rfl rfl rfl
  have hparameters : ∀ j ls, Accepts tol typeParameters? j []
      (grouped .brace (commaSeparated (members.map ([·.lexeme]))) ++ ls) (· = 0) :=
    fun _ _ => .lookElse rfl <| .pure rfl
  exact accepts_plainType (hwords · _) (hparameters · _) hbody namespaceName i

theorem declares_delegate (result : TypeRef) (typeParameters : List FreeName)
    (parameters : List ParameterTree) :
    DeclaresType tol (modifiers false).words after
      (fun namespaceName => ⟨namespaceName, name.text, typeParameters.length, .delegate, false,
        [], [], ()⟩)
      (.word "delegate" :: result.lexeme :: name.lexeme :: (typeParameterSpelling typeParameters
        ++ (parameterSpelling parameters ++ [mark ";"]))) := by
  refine .delegate fun namespaceName i => ?_
  rw [← List.length_map (·.text)]
  exact accepts_delegateDeclaration result.typeForm (ParameterTree.wellNested parameters) name.text
    (typeParameters.map (·.text)) namespaceName i after

end

/-! ### Members -/

section

variable {type : TypeRef} {name : FreeName} {after : List Lexeme}

/-- A member with a type is accepted if what follows the type is. -/
theorem accepts_typedTree {tail : List Lexeme}
    (declared : (MemberKind → String → Parser.Entry) → List Parser.Entry)
    (h : ∀ symbol j, Accepts tol (typedMember symbol) j (name.lexeme :: tail) after
      (· = declared symbol)) (owner : String) (i : Nat) :
    Accepts tol (member memberList owner) i (type.lexeme :: name.lexeme :: tail) after
      (· = declared fun kind name => .member ⟨kind, name, false⟩) := by
  have hms : (modifiers false).StandBefore [type.lexeme] := fun _ h => by cases h
  exact accepts_typed declared wellFormed_no_attributes type.typeForm hms h i

theorem accepts_fieldsTree (more : List FreeName) (owner : String) (i : Nat) :
    Accepts tol (member memberList owner) i (type.lexeme ::
      (commaSeparated ((name :: more).map ([·.lexeme])) ++ [mark ";"])) after
      (Holds ((name :: more).map (⟨.field, ·.text, false⟩)) []) := by
  have hs : ((more.map (·.text)).flatMap (fun m => [mark ",", .name m]) ++ [mark ";"]).head?.any
      (·.isOneOf ["=", ",", ";"]) = true := by
    cases more <;> rfl
  have hmembers := Holds.map ((name :: more).map (⟨.field, ·.text, false⟩))
  rw [List.map_map] at hmembers
  rw [spelling_names, List.map_cons, commaSeparated_names]
  refine (accepts_typedTree (fun symbol => (name.text :: more.map (·.text)).map (symbol .field))
    (fun symbol j => accepts_fieldNames hs (accepts_moreFields _ · after) j) owner i).mono ?_
  rintro _ rfl
  rw [← List.map_cons, List.map_map]
  exact hmembers

theorem accepts_propertyTree (ha : after.head?.any (·.isPunct "=") = false) (owner : String)
    (i : Nat) : Accepts tol (member memberList owner) i (type.lexeme :: name.lexeme ::
      grouped .brace (Tree.accessorSpelling (some .set))) after
      (Holds [⟨.property, name.text, false⟩] []) := by
  refine (accepts_typedTree (fun symbol => [symbol .property name.text])
    (fun symbol j => accepts_propertyName rfl (accepts_automatic _ ha) j) owner i).mono ?_
  rintro _ rfl
  exact .map _

theorem accepts_methodTree (typeParameters : List FreeName) (parameters : List ParameterTree)
    (owner : String) (i : Nat) :
    Accepts tol (member memberList owner) i (type.lexeme :: name.lexeme ::
      (typeParameterSpelling typeParameters ++ (parameterSpelling parameters ++ grouped .brace [])))
      after (Holds [⟨.method, name.text, false⟩] []) := by
  refine (accepts_typedTree (fun symbol => [symbol .method name.text]) (fun symbol j =>
    accepts_methodName (ParameterTree.wellNested parameters) rfl (accepts_emptyBody · after) j)
    owner i).mono ?_
  rintro _ rfl
  exact .map _

end

/-! ### Trees of types -/

theorem TypeTree.starts (t : TypeTree) : Starts t.spelling := by
  cases t with
  | classLike isPartial kind name typeParameters members =>
    rw [TypeTree.spelling]
    cases isPartial with
    | true => exact .of_isWordy rfl _
    | false => cases kind <;> exact .of_isWordy rfl _
  | enum isPartial name members =>
    rw [TypeTree.spelling]
    cases isPartial <;> exact .of_isWordy rfl _
  | delegate result name typeParameters parameters =>
    rw [TypeTree.spelling]
    exact .of_isWordy rfl _

theorem MemberTree.starts (m : MemberTree) : Starts m.spelling := by
  have htype : ∀ (type : TypeRef) ls, Starts (type.lexeme :: ls) := fun type ls =>
    .of_isWordy (isWordy_of_startsType type.startsType) ls
  cases m with
  | nested t =>
    rw [MemberTree.spelling]
    exact t.starts
  | fields | property | method =>
    rw [MemberTree.spelling]
    exact htype _ _

theorem MemberTree.nestedAll_cons (m : MemberTree) (ms : List MemberTree) :
    MemberTree.nestedAll (m :: ms) = MemberTree.nestedAll [m] ++ MemberTree.nestedAll ms := by
  cases m <;> rfl

/-- What follows a member in a list of members. -/
theorem MemberTree.head?_spellAll (ms : List MemberTree) (after : List Lexeme) {p : String}
    (hp : p ∈ ["=", ";"]) :
    (MemberTree.spellAll ms ++ mark "\x7d" :: after).head?.any (·.isPunct p) = false := by
  have none : ∀ p ∈ ["=", ";"], (mark "\x7d").isPunct p = false ∧ p ∈ ["\x7d", "=", ";"] := by
    decide
  cases ms with
  | nil => exact (none p hp).1
  | cons m ms =>
    rw [MemberTree.spellAll, List.append_assoc]
    exact m.starts.head?_eq (none p hp).2 _

mutual

/-- **A type is accepted** as the symbol of its tree, its modifiers having been taken. -/
theorem TypeTree.declares : ∀ (t : TypeTree) (after : List Lexeme),
    after.head?.any (·.isPunct ";") = false → ∃ isPartial ls,
      t.spelling = partialSpelling isPartial ++ ls ∧
        DeclaresType tol (modifiers isPartial).words after (t.symbol ·) ls
  | .classLike isPartial kind name typeParameters members, after, ha => by
    rw [TypeTree.spelling]
    exact ⟨isPartial, _, rfl, declares_classLike kind typeParameters
      (MemberTree.acceptedAll members name.text · after) ha⟩
  | .enum isPartial name members, after, ha => by
    rw [TypeTree.spelling]
    exact ⟨isPartial, _, rfl, declares_enum members ha⟩
  | .delegate result name typeParameters parameters, after, ha => by
    rw [TypeTree.spelling]
    exact ⟨false, _, rfl, declares_delegate result typeParameters parameters⟩

/-- **A member is accepted** as the members and the type that it declares. -/
theorem MemberTree.accepted : ∀ (m : MemberTree) (owner : String) (i : Nat) (after : List Lexeme),
    (∀ p ∈ ["=", ";"], after.head?.any (·.isPunct p) = false) →
      Accepts tol (member memberList owner) i m.spelling after
        (Holds m.members (MemberTree.nestedAll [m]))
  | .nested t, owner, i, after, ha => by
    obtain ⟨isPartial, ls, hls, h⟩ := TypeTree.declares t after (ha ";" (by decide))
    rw [MemberTree.spelling, hls, ← spelling_modifiers]
    exact accepts_nestedType wellFormed_no_attributes h owner i
  | .fields type first more, owner, i, after, _ => by
    rw [MemberTree.spelling]
    exact accepts_fieldsTree more owner i
  | .property type name, owner, i, after, ha => by
    rw [MemberTree.spelling]
    exact accepts_propertyTree (ha "=" (by decide)) owner i
  | .method result name typeParameters parameters, owner, i, after, _ => by
    rw [MemberTree.spelling]
    exact accepts_methodTree typeParameters parameters owner i

/-- **Members are accepted** one after the other. -/
theorem MemberTree.acceptedAll : ∀ (ms : List MemberTree) (owner : String) (i : Nat)
    (after : List Lexeme), Accepts tol (memberList owner) i (MemberTree.spellAll ms)
      (mark "\x7d" :: after) (Holds (ms.flatMap (·.members)) (MemberTree.nestedAll ms))
  | [], owner, i, after => (accepts_memberEnd owner i after).mono fun _ h => h ▸ .nil
  | m :: ms, owner, i, after => by
    rw [MemberTree.spellAll, MemberTree.nestedAll_cons, List.flatMap_cons]
    refine accepts_memberMore m.starts (MemberTree.accepted m owner i _ ?_)
      (MemberTree.acceptedAll ms owner _ after) fun _ _ h h' => h.append h'
    exact fun p hp => MemberTree.head?_spellAll ms after hp

end

/-! ### Namespaces -/

theorem ItemTree.starts (i : ItemTree) : Starts i.spelling := by
  cases i with
  | type t =>
    rw [ItemTree.spelling]
    exact t.starts
  | «namespace» first more items =>
    rw [ItemTree.spelling]
    exact .of_isWordy rfl _

/-- What follows an item in a list of items. -/
theorem ItemTree.head?_spellAll (is : List ItemTree) {after : List Lexeme}
    (ha : after.head?.any (·.isPunct ";") = false) :
    (ItemTree.spellAll is ++ after).head?.any (·.isPunct ";") = false := by
  cases is with
  | nil => exact ha
  | cons i is =>
    rw [ItemTree.spellAll, List.append_assoc]
    exact i.starts.head?_eq (by decide) _

theorem pathName_of_ne_nil {path : List String} (h : path ≠ []) :
    pathName path = some (".".intercalate path) := by
  cases path with
  | nil => exact absurd rfl h
  | cons => rfl

theorem intercalate_append {path : List String} (h : path ≠ []) (n : String) (ns : List String) :
    ".".intercalate (path ++ n :: ns)
      = ".".intercalate path ++ "." ++ ".".intercalate (n :: ns) := by
  induction path with
  | nil => exact absurd rfl h
  | cons p path ih =>
    cases path with
    | nil => simp
    | cons q path =>
      have := ih (List.cons_ne_nil q path)
      rw [List.cons_append] at this
      rw [List.cons_append, List.cons_append, String.intercalate_cons_cons, this,
        String.intercalate_cons_cons]
      simp only [String.append_assoc]

/-- The name of a namespace in another one is the path to it. -/
theorem qualify_path {path : List String} (h : path ≠ []) (first : FreeName)
    (more : List FreeName) :
    (NamespacePlace.block (".".intercalate path)).qualify
        (".".intercalate ((first :: more).map (·.text)))
      = ".".intercalate (path ++ (first :: more).map (·.text)) := by
  have hdotted : Name.IsDotted (".".intercalate ((first :: more).map (·.text))) := by
    refine ⟨(first :: more).map (·.text), List.cons_ne_nil _ _, rfl, fun s hs => ?_⟩
    obtain ⟨n, -, rfl⟩ := List.mem_map.1 hs
    exact n.isPlain
  rw [NamespacePlace.qualify, isEmpty_of_isDotted hdotted, if_neg Bool.false_ne_true, List.map_cons,
    intercalate_append h]

mutual

/-- **An item is accepted in a block** as its symbols there. -/
theorem ItemTree.accepted : ∀ (i : ItemTree) (path : List String), path ≠ [] →
    ∀ (late : Bool) (j : Nat) (after : List Lexeme), after.head?.any (·.isPunct ";") = false →
      Accepts tol (namespaceTurn (".".intercalate path) late) j i.spelling after
        (OnlyTypes (i.symbols path))
  | .type t, path, hpath, late, j, after, ha => by
    obtain ⟨isPartial, ls, hls, h⟩ := t.declares after ha
    rw [ItemTree.spelling, ItemTree.symbols, pathName_of_ne_nil hpath, hls, ← spelling_modifiers]
    exact accepts_namespaceTurn wellFormed_no_attributes h (".".intercalate path) late j
  | .namespace first more items, path, hpath, late, j, after, ha => by
    have hnames : (first :: more).map (·.text) ≠ [] := List.cons_ne_nil _ _
    have hinner : path ++ (first :: more).map (·.text) ≠ [] :=
      List.append_ne_nil_of_right_ne_nil path hnames
    have hblock := fun k => ItemTree.acceptedAll items _ hinner false k after ha
    rw [← qualify_path hpath] at hblock
    rw [ItemTree.spelling, ItemTree.symbols]
    exact .of_here (namespaceTurn_namespace (".".intercalate path) late j _)
      (accepts_blockNamespace hnames _ hblock j)

/-- **The block of a namespace is accepted** as the symbols of its items. -/
theorem ItemTree.acceptedAll : ∀ (is : List ItemTree) (path : List String), path ≠ [] →
    ∀ (late : Bool) (j : Nat) (after : List Lexeme), after.head?.any (·.isPunct ";") = false →
      Accepts tol (namespaceItems (".".intercalate path) late) j
        (ItemTree.spellAll is ++ [mark "\x7d"]) after (OnlyTypes (ItemTree.allSymbols path is))
  | [], path, _, late, j, after, ha => accepts_namespaceEnd (".".intercalate path) late j ha
  | i :: is, path, hpath, late, j, after, ha => by
    have hnext : (ItemTree.spellAll is ++ [mark "\x7d"] ++ after).head?.any (·.isPunct ";")
        = false := by
      rw [List.append_assoc]
      exact ItemTree.head?_spellAll is rfl
    rw [ItemTree.spellAll, ItemTree.allSymbols, List.append_assoc]
    exact accepts_namespaceMore i.starts (ItemTree.accepted i path hpath late j _ hnext)
      fun late => ItemTree.acceptedAll is path hpath late _ after ha

end

/-! ### Files -/

/-- An item is accepted at the top level as its symbols there. -/
theorem ItemTree.acceptedTop (i : ItemTree) (late : Bool) (j : Nat) {after : List Lexeme}
    (ha : after.head?.any (·.isPunct ";") = false) :
    Accepts tol (fileItem none late) j i.spelling after (OnlyTypes (i.symbols [])) := by
  cases i with
  | type t =>
    obtain ⟨isPartial, ls, hls, h⟩ := t.declares after ha
    rw [ItemTree.spelling, ItemTree.symbols, hls, ← spelling_modifiers]
    exact accepts_fileItem wellFormed_no_attributes h none late j
  | «namespace» first more items =>
    have hpath : (first :: more).map (·.text) ≠ [] := List.cons_ne_nil _ _
    rw [ItemTree.spelling, ItemTree.symbols]
    exact .of_here (fileItem_namespace none late j _) (accepts_blockNamespace hpath
      (.file false late) (ItemTree.acceptedAll items _ hpath false · after ha) j)

/-- **A forest is accepted** as its symbols. -/
theorem accepts_forest (forest : List ItemTree) (late : Bool) (j : Nat) :
    Accepts tol (fileItems none late) j (ItemTree.spellAll forest) []
      (OnlyTypes (ItemTree.allSymbols [] forest)) := by
  induction forest generalizing late j with
  | nil => exact accepts_fileEnd none late j
  | cons i is ih =>
    have hnext : (ItemTree.spellAll is ++ ([] : List Lexeme)).head?.any (·.isPunct ";") = false :=
      ItemTree.head?_spellAll is rfl
    exact accepts_fileMore i.starts (i.acceptedTop late j hnext) fun late => ih late _

end Forest
end Outline
