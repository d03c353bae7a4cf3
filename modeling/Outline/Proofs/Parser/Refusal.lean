/-
# What is found

A parser *finds* something in lexemes if it does so on its way, whatever comes after; it
*refuses* them if what it finds is a fault.  What is found stays, so a parser finds what its
first step finds, and what a later step finds if those before it accept what stands before.
A class is accepted or refused as what stands in its braces.

| parser | finds |
| --- | --- |
| one step after another | what either of them finds |
| a list of members | what a member finds after members that are accepted |
| a type | that its name is missing, if no name follows its words |
| a file | what is found in its type, and so in the braces of its class |
-/

import Outline.Proofs.Parser.Files

namespace Outline
namespace Parser

open Outline.Tree
open Lexeme (mark)
open Lexer (dotted)

variable {tol : Tolerance}

/-- From the token `i` on, a parser finds something with a cause of this kind. -/
structure Finds (kind : Cause → Bool) {α : Type} (p : Parser α) (i : Nat) (ls : List Lexeme) :
    Prop where
  found : (p ⟨i, ls⟩).found.any (kind ·.cause) = true

/-- From the token `i` on, a parser finds a fault. -/
abbrev Refuses {α : Type} (p : Parser α) (i : Nat) (ls : List Lexeme) : Prop :=
  Finds Cause.isFault p i ls

namespace Finds

variable {α β γ : Type} {kind : Cause → Bool} {p q : Parser α} {f : α → Parser β} {i : Nat}
  {ls after : List Lexeme} {good : α → Prop}

/-- Something that the first step finds. -/
theorem first (h : Finds kind p i ls) : Finds kind (p >>= f) i ls := by
  constructor
  rw [bind_apply, Step.before, List.any_append, h.found, Bool.true_or]

/-- Something that is found after a step that goes on. -/
theorem bind (h : Accepts tol p i ls after good)
    (k : ∀ a, good a → Finds kind (f a) (i + ls.length) after) :
    Finds kind (p >>= f) i (ls ++ after) := by
  constructor
  rw [bind_apply, h.rest, Step.before, List.any_append, (k _ h.value).found, Bool.or_true]

/-- Something that is found wherever the first step comes to. -/
theorem second (h : ∀ a, Finds kind (f a) (p ⟨i, ls⟩).rest.index (p ⟨i, ls⟩).rest.ahead) :
    Finds kind (p >>= f) i ls := by
  constructor
  rw [bind_apply, Step.before, List.any_append, (h _).found, Bool.or_true]

/-- Something that is found after a step that takes nothing. -/
theorem after_nothing (h : Accepts tol p i [] ls good) (k : ∀ a, good a → Finds kind (f a) i ls) :
    Finds kind (p >>= f) i ls := bind h k

/-- A parser that goes on as another one from where it is. -/
theorem of_here (h : p ⟨i, ls⟩ = q ⟨i, ls⟩) (hq : Finds kind q i ls) : Finds kind p i ls :=
  ⟨by rw [h, hq.found]⟩

theorem look {k : Cursor → γ} {f : γ → Parser β} (h : Finds kind (f (k ⟨i, ls⟩)) i ls) :
    Finds kind (Parser.look k >>= f) i ls := ⟨h.found⟩

theorem lookThen {k : Cursor → Bool} (hk : k ⟨i, ls⟩ = true) (h : Finds kind p i ls) :
    Finds kind (Parser.look k >>= fun b => if b = true then p else q) i ls :=
  .of_here (lookIf_of_true hk) h

theorem lookElse {k : Cursor → Bool} (hk : k ⟨i, ls⟩ = false) (h : Finds kind q i ls) :
    Finds kind (Parser.look k >>= fun b => if b = true then p else q) i ls :=
  .of_here (lookIf_of_false hk) h

theorem advance {l : Lexeme} {f : Unit → Parser β} (h : Finds kind (f ()) (i + 1) ls) :
    Finds kind (Parser.advance >>= f) i (l :: ls) := ⟨by rw [advance_bind]; exact h.found⟩

theorem eat {s : String} {f : Bool → Parser β} (h : Finds kind (f true) (i + 1) ls) :
    Finds kind (Parser.eat s >>= f) i (mark s :: ls) :=
  ⟨by rw [eat_bind_of_atPunct (atPunct_mark s i ls)]; exact h.found⟩

theorem eat_not {s : String} {f : Bool → Parser β} (hs : ls.head?.any (·.isPunct s) = false)
    (h : Finds kind (f false) i ls) : Finds kind (Parser.eat s >>= f) i ls :=
  .of_here (eat_bind_of_not_atPunct (show Cursor.atPunct ⟨i, ls⟩ s = false from hs) f) h

/-- A loop finds what its turn finds. -/
theorem of_turn {loop next turn : Parser (List α)} (h : GoesOn loop next turn ⟨i, ls⟩)
    (ht : Finds kind turn i ls) : Finds kind loop i ls := by
  constructor
  rw [h.eq, Step.before, List.any_append, ht.found, Bool.true_or]

/-- A loop finds what is found after a turn that goes on. -/
theorem of_rest {loop next turn : Parser (List α)} {good : List α → Prop}
    (h : GoesOn loop next turn ⟨i, ls ++ after⟩) (ht : Accepts tol turn i ls after good)
    (hn : Finds kind next (i + ls.length) after) : Finds kind loop i (ls ++ after) := by
  constructor
  rw [h.eq, ht.rest, Step.before, List.any_append, Bool.or_eq_true]
  exact .inr hn.found

end Finds

namespace Refuses

variable {α : Type} {p : Parser α} {i : Nat} {ls : List Lexeme}

theorem fault (h : Refuses p i ls) : hasFault (p ⟨i, ls⟩).found = true := h.found

theorem of_fault (h : hasFault (p ⟨i, ls⟩).found = true) : Refuses p i ls := ⟨h⟩

theorem missing (e : Expected) : Refuses (reportMissing e) i ls := ⟨rfl⟩

/-- A punctuation that is missing. -/
theorem expect {s : String} (hs : ls.head?.any (·.isPunct s) = false) (e : Expected) :
    Refuses (Parser.expect s e) i ls := .eat_not hs (missing e)

end Refuses

variable {kind : Cause → Bool}

/-! ### Members -/

/-- A list of members finds what its first member finds. -/
theorem finds_memberList {owner : String} {i : Nat} {ls : List Lexeme}
    (hgo : (Cursor.atPunct ⟨i, ls⟩ "\x7d" || Cursor.atEnd ⟨i, ls⟩) = false)
    (h : Finds kind (member memberList owner) i ls) : Finds kind (memberList owner) i ls := by
  -- a member that takes nothing is followed by a report and a step; what it finds stays
  refine .of_turn (goesOn_memberList owner hgo) ⟨?_⟩
  unfold memberTurn
  dsimp only
  split
  · rw [List.any_append, h.found, Bool.true_or]
  · exact h.found

/-- A list of members finds what is found after a member that is accepted. -/
theorem finds_memberMore {owner : String} {i : Nat} {ls after : List Lexeme}
    {good : List Entry → Prop} (hs : Starts ls)
    (hm : Accepts tol (member memberList owner) i ls after good)
    (hn : Finds kind (memberList owner) (i + ls.length) after) :
    Finds kind (memberList owner) i (ls ++ after) :=
  .of_rest (goesOn_memberList owner (hs.goes i after))
    (.of_here (memberTurn_of_accepts hs hm) hm) hn

/-- A list of members finds what the first of the members finds that are left after some that
are accepted. -/
theorem finds_memberEach {α : Type} {spell : α → List Lexeme} {good : α → List Entry → Prop}
    {members : List α} {owner : String} {ls : List Lexeme} (hs : ∀ m ∈ members, Starts (spell m))
    (h : ∀ m ∈ members, ∀ i after, after.head?.any (·.isPunct "=") = false →
      Accepts tol (member memberList owner) i (spell m) after (good m))
    (hls : ls.head?.any (·.isPunct "=") = false)
    (hn : ∀ j, Finds kind (memberList owner) j ls) (i : Nat) :
    Finds kind (memberList owner) i (members.flatMap spell ++ ls) := by
  induction members generalizing i with
  | nil => exact hn i
  | cons m members ih =>
    obtain ⟨hstart, hstarts⟩ := List.forall_mem_cons.1 hs
    obtain ⟨hm, hmembers⟩ := List.forall_mem_cons.1 h
    have hnext := head?_flatMap_starts hstarts hls
    rw [List.flatMap_cons, List.append_assoc]
    exact finds_memberMore hstart (hm i _ hnext) (ih hstarts hmembers _)

/-! ### Types -/

/-- A name is missed in front of anything else. -/
theorem refuses_typeName {l : Lexeme} (h : l.isName = false) (keyword i : Nat)
    (ls : List Lexeme) : Refuses (typeName keyword) i (l :: ls) := by
  obtain ⟨hn, -⟩ | ⟨-, hname⟩ := name?_cases ⟨i, l :: ls⟩
  · exact absurd (h.symm.trans hn) Bool.false_ne_true
  · exact ⟨by rw [typeName_of_none hname]; rfl⟩

/-- **A class or a struct is refused** if no name follows its word. -/
theorem refuses_typeDeclaration (k : Kind) {l : Lexeme} (h : l.isName = false)
    (ls : List Lexeme) (namespaceName : Option String) (modifiers : List String) (i : Nat) :
    Refuses (typeDeclaration memberList namespaceName modifiers) i
      (.word k.keyword :: l :: ls) := by
  have hword : Accepts .harmless typeKeyword i [.word k.keyword] (l :: ls) (· = k.symbolKind) :=
    accepts_typeKeyword k i _
  exact .look <| .bind hword fun _ _ => .first (refuses_typeName h _ _ _)

section

variable {ms : Modifiers} {word : String} {ls : List Lexeme}

/-- In a namespace is found what is found in a type with modifiers. -/
theorem finds_namespaceMember (hw : word ∈ declarationWords)
    (hk : ∀ i, atTypeKeyword ⟨i, .word word :: ls⟩ = true) {namespaceName : Option String}
    (h : ∀ j, Finds kind (typeDeclaration memberList namespaceName ms.words) j (.word word :: ls))
    (i : Nat) :
    Finds kind (namespaceMember namespaceName) i (ms.spelling ++ .word word :: ls) := by
  have hstart := startDeclaration_modifiers ms hw ls
  have hword : isWordy (.word word) = true := isWordy_word word
  have hnone : (ms.spelling ++ .word word :: ls).head?.any (·.isPunct "[") = false := by
    refine head?_words ms.words ?_
    exact isPunct_of_isWordy hword "["
  have hattributes : Accepts .harmless attributes i [] (ms.spelling ++ .word word :: ls)
      fun _ => True := accepts_no_attributes hnone i
  have hbefore : ms.StandBefore (.word word :: ls) := fun _ _ _ => hword
  have hmodifiers : Accepts .harmless modifiers i ms.spelling (.word word :: ls)
      (· = ms.words) := by
    refine accepts_modifierSpelling hbefore ?_ i
    rintro _ ⟨⟩
    exact isModifier_of_mem_declarationWords hw _
  refine .after_nothing hattributes fun _ _ => .lookElse (hstart.goes i) ?_
  refine .bind hmodifiers ?_
  rintro _ rfl
  exact .lookThen (hk _) <| .first (h _)

/-- In a file is found what is found in its first type. -/
theorem finds_fileType (hw : word ∈ declarationWords)
    (hk : ∀ i, atTypeKeyword ⟨i, .word word :: ls⟩ = true) {fileNamespace : Option String}
    (h : ∀ j, Finds kind (typeDeclaration memberList fileNamespace ms.words) j (.word word :: ls))
    (late : Bool) (i : Nat) :
    Finds kind (fileItems fileNamespace late) i (ms.spelling ++ .word word :: ls) := by
  have hstart := startDeclaration_modifiers ms hw ls
  refine .of_turn (goesOn_fileItems fileNamespace late (hstart.atEnd i))
    (.of_here ?_ (finds_namespaceMember hw hk h i))
  unfold fileItem
  rw [hstart.atUsing, hstart.atAlias, hstart.atNamespace, hstart.atPunct]
  rfl

/-- In the block of a namespace is found what is found in its first type. -/
theorem finds_blockType (hw : word ∈ declarationWords)
    (hk : ∀ i, atTypeKeyword ⟨i, .word word :: ls⟩ = true) {full : String}
    (h : ∀ j, Finds kind (typeDeclaration memberList (some full) ms.words) j (.word word :: ls))
    (late : Bool) (i : Nat) :
    Finds kind (namespaceItems full late) i (ms.spelling ++ .word word :: ls) := by
  have hstart := startDeclaration_modifiers ms hw ls
  have hgo := Bool.or_eq_false_iff.2 ⟨hstart.atPunct i, hstart.atEnd i⟩
  refine .of_turn (goesOn_namespaceItems full late hgo)
    (.of_here ?_ (finds_namespaceMember hw hk h i))
  unfold namespaceTurn namespaceItem
  rw [hstart.atUsing, hstart.atNamespace]
  rfl

end

/-! ### Files -/

/-- After usings is found what is found in the rest of the file. -/
theorem finds_usings {usings : List String} (h : ∀ name ∈ usings, Name.IsDotted name)
    {ls : List Lexeme} (hls : ∀ j, Finds kind (fileItems none false) j ls) (i : Nat) :
    Finds kind (fileItems none false) i (usings.flatMap usingSpelling ++ ls) := by
  induction usings generalizing i with
  | nil => exact hls i
  | cons name names ih =>
    obtain ⟨hname, hnames⟩ := List.forall_mem_cons.1 h
    have hitem : Accepts .harmless (fileItem none false) i (usingSpelling name) _ _ ∧ _ :=
      accepts_usingItem hname i (names.flatMap usingSpelling ++ ls)
    rw [List.flatMap_cons, List.append_assoc]
    exact .of_rest hitem.2 hitem.1 (ih hnames _)

/-- **In a file with a namespace**, in either form, is found what is found in the namespace. -/
theorem finds_namespace {name : String} (hn : Name.IsDotted name) (form : NamespaceForm)
    {ls : List Lexeme} (hfile : ∀ late j, Finds kind (fileItems (some name) late) j ls)
    (hblock : ∀ j, Finds kind (namespaceItems name false) j (ls ++ [mark "\x7d"])) (i : Nat) :
    Finds kind (fileItems none false) i (namespaceSpelling name form ls) := by
  obtain ⟨names, hne, rfl, hl⟩ := lexemes_dotted hn
  unfold namespaceSpelling
  rw [hl]
  cases form with
  | fileScoped =>
    have := Finds.of_rest (goesOn_fileScope hne i ls) (accepts_fileScope hne i ls) (hfile _ _)
    simpa using this
  | block =>
    have hpath : ∀ j, Accepts .harmless namespacePath j (dotted names) (grouped .brace ls)
        (· = ".".intercalate names) := fun j => accepts_namespacePath hne j rfl
    refine .of_turn (goesOn_fileItems none false rfl) ?_
    refine .of_here (fileItem_namespace none false i _) <| .look <| .advance <| .bind (hpath _) ?_
    rintro _ rfl
    exact .eat_not rfl <| .eat <| hblock _

/-- The lexemes of a class with these in its braces. -/
def classSpelling (owner : String) (ls : List Lexeme) : List Lexeme :=
  .word "class" :: .name owner :: grouped .brace ls

section

variable {owner : String} {ls after : List Lexeme}

theorem accepts_classHead (i : Nat) : Accepts tol typeKeyword i [.word "class"]
    (.name owner :: after) (· = .cls) := .of_eq rfl rfl rfl

/-- **A file with a class is accepted** as the class with the members in its braces. -/
theorem accepts_classFile {members : List MemberSymbol}
    (h : ∀ j, Accepts tol (memberList owner) j ls [mark "\x7d"] (Holds members [])) :
    Accepts tol (fileItems none false) 0 (classSpelling owner ls) []
      (OnlyTypes [⟨none, owner, 0, .cls, false, members, [], ()⟩]) := by
  have hparts : ∀ namespaceName i, Accepts tol (typeDeclaration memberList namespaceName []) i
      ([.word "class"] ++ .name owner :: ([] ++ ([] ++ ([] ++ grouped .brace ls)))) []
      (·.unplaced = ⟨namespaceName, owner, 0, .cls, false, members, [], ()⟩) :=
    fun namespaceName i => accepts_typeParts (accepts_classHead ·)
      (fun _ => .lookElse rfl <| .pure rfl) (fun _ _ => .lookElse rfl <| .pure trivial)
      (fun _ => .lookElse rfl <| .pure trivial)
      (fun place j => accepts_braced (by decide) h rfl place j) i
  have hdeclares : DeclaresType tol Tree.Modifiers.empty.words [] (fun namespaceName =>
      ⟨namespaceName, owner, 0, .cls, false, members, [], ()⟩) (classSpelling owner ls) :=
    .type (by decide) (fun _ => rfl) hparts
  have hitem : Accepts tol (fileItem none false) 0 (classSpelling owner ls) _ _ :=
    accepts_bareItem hdeclares none false 0
  have := accepts_fileMore (.of_isWordy rfl _) hitem fun late => accepts_fileEnd none late _
  rwa [List.append_nil, List.append_nil] at this

/-- A body in braces finds what is found in the braces. -/
theorem finds_braced {entries : EntryParser} {k : TypeKind} (hk : k ≠ .enum) {name : String}
    (h : ∀ j, Finds kind (entries name) j (ls ++ [mark "\x7d"])) (place : Edge) (i : Nat) :
    Finds kind (typeBody entries k name place) i (grouped .brace ls) := by
  unfold typeBody
  simp only [hk, if_false]
  exact .eat <| .first (h (i + 1))

/-- In a class is found what is found in its braces. -/
theorem finds_class (h : ∀ j, Finds kind (memberList owner) j (ls ++ [mark "\x7d"]))
    (namespaceName : Option String) (modifiers : List String) (i : Nat) :
    Finds kind (typeDeclaration memberList namespaceName modifiers) i
      (classSpelling owner ls) := by
  have hparameters : ∀ j, Accepts .harmless typeParameters? j [] (grouped .brace ls) (· = 0) :=
    fun _ => .lookElse rfl <| .pure rfl
  have hprimary : ∀ kind place j, Accepts .harmless (primaryParameters kind place) j []
      (grouped .brace ls) fun _ => True := fun _ _ _ => .lookElse rfl <| .pure trivial
  have hbases : ∀ j, Accepts .harmless bases j [] (grouped .brace ls) fun _ => True :=
    fun _ => .lookElse rfl <| .pure trivial
  have hname : ∀ j, Accepts .harmless (typeName i) j [.name owner] (grouped .brace ls)
      (· = (owner, .start j)) := fun j => accepts_typeName i owner j _
  have hhead : Accepts .harmless typeKeyword i [.word "class"] (.name owner :: grouped .brace ls)
      (· = .cls) := accepts_classHead i
  refine .look <| .bind hhead fun k hk => ?_
  refine .bind (hname _) fun p hp => ?_
  subst hk hp
  refine .after_nothing (hparameters _) fun _ _ => .after_nothing (hprimary _ _ _) fun _ _ => ?_
  exact .after_nothing (hbases _) fun _ _ => .first (finds_braced (by decide) h _ _)

/-- **In a file with a class is found** what is found in the braces of the class. -/
theorem finds_classFile (h : ∀ j, Finds kind (memberList owner) j (ls ++ [mark "\x7d"])) :
    Finds kind (fileItems none false) 0 (classSpelling owner ls) := by
  have htype : ∀ j, Finds kind (typeDeclaration memberList none Modifiers.empty.words) j
      (classSpelling owner ls) := finds_class h none []
  have hfile := finds_fileType (by decide) (fun _ => rfl) htype false 0
  exact hfile

end

end Parser
end Outline
