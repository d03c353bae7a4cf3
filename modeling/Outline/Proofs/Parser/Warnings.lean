/-
# Which warnings are found

A parser that goes on through lexemes *warns* of what it finds there that is no error.  Steps
one after the other warn of what each of them does, in this order, so all warnings of a class
are those of the checks of its bodies.

| parser | warns of |
| --- | --- |
| one step after another | what the first one does, and then the other |
| a body in braces | the locals that its check finds |
| a method | what its body does |
| members, a class, a file | what each method does |
-/

import Outline.Proofs.Parser.Locals
import Outline.Proofs.Parser.Refusal

namespace Outline
namespace Parser

open Lexeme (mark)

/-- Whatever is found. -/
def Tolerance.anything : Tolerance := ⟨fun _ => true, fun _ => rfl⟩

/-- What is reported as a warning. -/
def Cause.isWarning : Cause → Bool
  | unusedVariable _ | unreadVariable _ => true
  | _ => false

/-- The warnings among findings. -/
def warnings (found : List Finding) : List Finding := found.filter (·.cause.isWarning)

theorem warnings_append (f g : List Finding) : warnings (f ++ g) = warnings f ++ warnings g :=
  List.filter_append f g

theorem warnings_of_covers {found : List Finding} (h : Tolerance.features.covers found = true) :
    warnings found = [] := by
  refine List.filter_eq_nil_iff.2 fun x hx => ?_
  have hneeds := List.all_eq_true.1 h x hx
  cases hc : x.cause <;> simp_all [Tolerance.features, Cause.isWarning]

/-- What is found of locals are warnings. -/
theorem warnings_filterMap (xs : List Local) :
    warnings (xs.filterMap (·.finding?)) = xs.filterMap (·.finding?) := by
  refine List.filter_eq_self.2 fun f hf => ?_
  obtain ⟨x, -, hx⟩ := List.mem_filterMap.1 hf
  rw [Local.finding?] at hx
  split at hx
  · cases hx
  · obtain ⟨cause, hcause, rfl⟩ := Option.map_eq_some_iff.1 hx
    cases hs : x.start <;> rw [hs] at hcause <;> cases hcause <;> rfl

/-- From the token `i` on, a parser goes on through `ls` up to `after`, comes to a value that is
`good`, and warns of these findings. -/
structure Warns {α : Type} (p : Parser α) (i : Nat) (ls after : List Lexeme) (good : α → Prop)
    (ws : List Finding) : Prop extends Accepts .anything p i ls after good where
  warned : warnings (p ⟨i, ls ++ after⟩).found = ws

namespace Warns

variable {α β : Type} {p q : Parser α} {i : Nat} {ls ms after : List Lexeme} {good : α → Prop}
  {good' : β → Prop} {ws : List Finding}

theorem of_accepts (h : Accepts .features p i ls after good) : Warns p i ls after good [] where
  value := h.value
  rest := h.rest
  found := List.all_eq_true.2 fun _ _ => rfl
  warned := warnings_of_covers h.found

theorem bind {f : α → Parser β} {ws' : List Finding} (h : Warns p i ls (ms ++ after) good ws)
    (k : ∀ a, good a → Warns (f a) (i + ls.length) ms after good' ws') :
    Warns (p >>= f) i (ls ++ ms) after good' (ws ++ ws') := by
  refine ⟨h.toAccepts.bind fun a ha => (k a ha).toAccepts, ?_⟩
  rw [List.append_assoc, bind_apply, h.rest, Step.before, warnings_append, h.warned,
    (k _ h.value).warned]

/-- What is warned of after a step that warns of nothing. -/
theorem following {f : α → Parser β} (h : Accepts .features p i ls (ms ++ after) good)
    (k : ∀ a, good a → Warns (f a) (i + ls.length) ms after good' ws) :
    Warns (p >>= f) i (ls ++ ms) after good' ws :=
  (of_accepts h).bind k

/-- What is warned of after a step that takes nothing. -/
theorem after_nothing {f : α → Parser β} (h : Accepts .features p i [] (ls ++ after) good)
    (k : ∀ a, good a → Warns (f a) i ls after good' ws) : Warns (p >>= f) i ls after good' ws :=
  .following h k

/-- What is warned of before steps that warn of nothing. -/
theorem followed {f : α → Parser β} (h : Warns p i ls (ms ++ after) good ws)
    (k : ∀ a, good a → Accepts .features (f a) (i + ls.length) ms after good') :
    Warns (p >>= f) i (ls ++ ms) after good' ws := by
  have := h.bind fun a ha => of_accepts (k a ha)
  rwa [List.append_nil] at this

/-- What is warned of before steps that take nothing. -/
theorem before_nothing {f : α → Parser β} (h : Warns p i ls after good ws)
    (k : ∀ a, good a → Accepts .features (f a) (i + ls.length) [] after good') :
    Warns (p >>= f) i ls after good' ws := by
  have := h.followed k
  rwa [List.append_nil] at this

theorem mono (h : Warns p i ls after good ws) {good' : α → Prop} (hg : ∀ a, good a → good' a) :
    Warns p i ls after good' ws := ⟨h.toAccepts.mono hg, h.warned⟩

/-- A parser that goes on as another one from where it is. -/
theorem of_here (h : p ⟨i, ls ++ after⟩ = q ⟨i, ls ++ after⟩) (hq : Warns q i ls after good ws) :
    Warns p i ls after good ws := ⟨hq.toAccepts.of_here h, by rw [h, hq.warned]⟩

theorem look {γ : Type} {k : Cursor → γ} {f : γ → Parser β}
    (h : Warns (f (k ⟨i, ls ++ after⟩)) i ls after good' ws) :
    Warns (Parser.look k >>= f) i ls after good' ws := ⟨h.toAccepts.look, h.warned⟩

theorem lookThen {k : Cursor → Bool} (hk : k ⟨i, ls ++ after⟩ = true)
    (h : Warns p i ls after good ws) :
    Warns (Parser.look k >>= fun b => if b = true then p else q) i ls after good ws :=
  look (by rw [hk]; exact h)

theorem lookElse {k : Cursor → Bool} (hk : k ⟨i, ls ++ after⟩ = false)
    (h : Warns q i ls after good ws) :
    Warns (Parser.look k >>= fun b => if b = true then p else q) i ls after good ws :=
  look (by rw [hk]; exact h)

theorem eat {s : String} {f : Bool → Parser β} (h : Warns (f true) (i + 1) ls after good' ws) :
    Warns (Parser.eat s >>= f) i (mark s :: ls) after good' ws := by
  have heat : Accepts .features (Parser.eat s) i [mark s] (ls ++ after) (· = true) :=
    .of_eq (eat_of_atPunct (atPunct_mark s i _)) rfl rfl
  exact .following heat fun b hb => by rw [hb]; exact h

/-- A loop warns of what a turn warns of and what is left. -/
theorem of_goesOn {loop next turn : Parser (List α)} {ws' : List Finding}
    (h : GoesOn loop next turn ⟨i, ls ++ (ms ++ after)⟩)
    (ht : Warns turn i ls (ms ++ after) (fun _ => True) ws)
    (hn : Warns next (i + ls.length) ms after (fun _ => True) ws') :
    Warns loop i (ls ++ ms) after (fun _ => True) (ws ++ ws') := by
  refine ⟨.of_goesOn h ht.toAccepts hn.toAccepts fun _ _ _ _ => trivial, ?_⟩
  rw [List.append_assoc, h.eq, ht.rest, Step.before, warnings_append, ht.warned]
  exact congrArg _ hn.warned

end Warns

/-! ### Methods -/

section

variable {ms after : List Lexeme}

/-- **The check of a block warns** of the locals that it finds. -/
theorem warnings_check (i : Nat) (ms : List Lexeme) :
    warnings (Block.check ⟨i, grouped .brace ms⟩) = warnings (checkLocals (i + 1) ms) := by
  have hnone : warnings (checkStatements i (grouped .brace ms)) = [] := by
    refine List.filter_eq_nil_iff.2 fun x hx => ?_
    rw [checkStatementsFrom_semicolons _ _ _ x hx]
    exact Bool.false_ne_true
  have hinner : (Block.mk i (grouped .brace ms)).inner = ms := by
    rw [Block.inner, grouped_brace, List.tail_cons, List.dropLast_concat]
  rw [Block.check, warnings_append, hnone, hinner, List.nil_append]

theorem warns_block (hm : WellNested ms) (i : Nat) (after : List Lexeme) :
    Warns body i (grouped .brace ms) after (fun _ => True)
      (warnings (checkLocals (i + 1) ms)) := by
  have hg := skipGroup_of_wellNested .brace hm i after
  refine .lookThen rfl ⟨accepts_checkedBlock hm i after (List.all_eq_true.2 fun _ _ => rfl), ?_⟩
  simp only [checkedBlock, hg, if_true, List.nil_append, Nat.add_sub_cancel_left, List.take_left]
  exact warnings_check i ms

variable {parameters : List Lexeme} {name owner : String}

/-- After the name of a method is warned of what the check of its body finds. -/
theorem warns_method (hp : WellNested parameters) (hm : WellNested ms) (i : Nat)
    (after : List Lexeme) :
    Warns Parser.method i (grouped .paren parameters ++ grouped .brace ms) after (fun _ => True)
      (warnings (checkLocals (i + (grouped .paren parameters).length + 1) ms)) := by
  have hparameters : Accepts .features typeParameters? i []
      (grouped .paren parameters ++ grouped .brace ms ++ after) (· = 0) :=
    .lookElse rfl <| .pure rfl
  have hgroup : Accepts .features skipGroup i (grouped .paren parameters)
      (grouped .brace ms ++ after) (· = true) := accepts_skipGroup .paren hp i _
  have hconstraints : ∀ j, Accepts .features constraints j [] (grouped .brace ms ++ after)
      fun _ => True := accepts_constraints_none rfl
  refine .after_nothing hparameters fun _ _ => .lookThen rfl <| .following hgroup fun b hb => ?_
  subst hb
  exact .after_nothing (hconstraints _) fun _ _ => warns_block hm _ _

/-- What stands between the type of a method and its statements. -/
def methodHead (name : String) (parameters : List Lexeme) : List Lexeme :=
  .name name :: (grouped .paren parameters ++ [mark "\x7b"])

theorem warns_typedMember {symbol : MemberKind → String → Entry} (hp : WellNested parameters)
    (hm : WellNested ms) (i : Nat) (after : List Lexeme) :
    Warns (typedMember symbol) i (methodHead name parameters ++ (ms ++ [mark "\x7d"])) after
      (fun _ => True) (warnings (checkLocals (i + (methodHead name parameters).length) ms)) := by
  have hspelled : methodHead name parameters ++ (ms ++ [mark "\x7d"])
      = [.name name] ++ (grouped .paren parameters ++ grouped .brace ms) := by
    rw [methodHead, grouped_brace, List.cons_append, List.append_assoc]
    rfl
  have hindex : i + (methodHead name parameters).length
      = i + [Lexeme.name name].length + (grouped .paren parameters).length + 1 := by
    simp only [methodHead, List.length_cons, List.length_append, List.length_nil]
    omega
  have hname : Accepts .features memberName? i [.name name]
      (grouped .paren parameters ++ grouped .brace ms ++ after) (· = some name) :=
    accepts_memberName? rfl (fun _ => qualifyingArguments_of_not_open rfl) i
  rw [hspelled, hindex]
  refine .lookElse rfl <| .lookElse rfl <| .lookElse rfl <| .following hname fun a ha => ?_
  subst ha
  exact .lookThen rfl <| .before_nothing (warns_method hp hm _ after) fun _ _ => .pure trivial

/-- What stands before the statements of a method with modifiers and a type. -/
def typedHead (words : List String) (type : List Lexeme) (name : String)
    (parameters : List Lexeme) : List Lexeme :=
  words.map .word ++ (type ++ methodHead name parameters)

/-- **A method warns** of what the check of its body finds. -/
theorem warns_member {ws : List String} {type : List Lexeme} (ht : TypeForm type)
    (hw : Modifies ws type) (hp : WellNested parameters) (hm : WellNested ms) (i : Nat)
    (after : List Lexeme) :
    Warns (member memberList owner) i
      (typedHead ws type name parameters ++ (ms ++ [mark "\x7d"])) after (fun _ => True)
      (warnings (checkLocals (i + (typedHead ws type name parameters).length) ms)) := by
  obtain ⟨l, rest, rfl, hstart, hparen⟩ := ht.exists_start
  have hindex : i + (typedHead ws (l :: rest) name parameters).length
      = i + (ws.map Lexeme.word).length + (l :: rest).length
        + (methodHead name parameters).length := by
    simp only [typedHead, List.length_append]
    omega
  rw [hindex, typedHead, List.append_assoc, List.append_assoc]
  generalize hmethod : methodHead name parameters ++ (ms ++ [mark "\x7d"]) = tail
  have htail : ∃ ks, tail = .name name :: ks := ⟨_, hmethod.symm⟩
  obtain ⟨ks, rfl⟩ := htail
  have hnoParen : l.isName = true →
      (rest ++ .name name :: (ks ++ after)).head?.any (·.isPunct "(") = false := by
    cases rest with
    | nil => exact fun _ => rfl
    | cons r rs => exact hparen
  have hcons : l :: rest ++ .name name :: ks ++ after
      = l :: (rest ++ .name name :: (ks ++ after)) := by simp
  have hattributes : Accepts .features attributes i []
      (ws.map .word ++ (l :: rest ++ .name name :: ks) ++ after) fun _ => True := by
    refine accepts_no_attributes ?_ i
    rw [List.append_assoc]
    exact head?_words ws (hstart.punct "[" (by decide))
  have hmodifiers : Accepts .features modifiers i (ws.map .word)
      (l :: rest ++ .name name :: ks ++ after) (· = ws) := by
    have hlast : ∀ w ∈ ws.getLast?, Name.isKeyword w = false →
        (l :: rest ++ .name name :: ks ++ after).head?.any isWordy = true := hw.last
    refine accepts_modifiers hw.words hlast ?_ i
    rw [hcons]
    rintro _ ⟨⟩
    exact hstart.modifier _
  have htype : ∀ j, Accepts .features typeReference j (l :: rest) (.name name :: ks ++ after)
      (· = true) := accepts_typeReference ht rfl
  have hsame : ∀ j, afterModifiers memberList owner ws ⟨j, l :: rest ++ .name name :: ks ++ after⟩
      = typed (declaredBy ws) ⟨j, l :: rest ++ .name name :: ks ++ after⟩ := by
    rw [hcons]
    exact afterModifiers_typed hstart hnoParen ws
  refine .of_here
    (q := attributes >>= fun _ => modifiers >>= afterModifiers memberList owner) rfl <|
    .after_nothing hattributes fun _ _ => .following hmodifiers fun words hwords => ?_
  subst hwords
  refine .of_here (hsame _) <| .look <| .following (htype _) fun b hb => ?_
  subst hb
  rw [← hmethod]
  exact warns_typedMember hp hm _ after

/-- **Members warn** of what each of them warns of. -/
theorem warns_each {α : Type} {spell : α → List Lexeme} {own : Nat → α → List Finding}
    {members : List α} (hs : ∀ m ∈ members, Starts (spell m))
    (h : ∀ m ∈ members, ∀ i after,
      Warns (member memberList owner) i (spell m) after (fun _ => True) (own i m))
    (i : Nat) (after : List Lexeme) :
    Warns (memberList owner) i (members.flatMap spell) (mark "\x7d" :: after) (fun _ => True)
      (gather spell own i members) := by
  induction members generalizing i with
  | nil => exact (Warns.of_accepts (accepts_memberEnd owner i after)).mono fun _ _ => trivial
  | cons m members ih =>
    obtain ⟨hstart, hstarts⟩ := List.forall_mem_cons.1 hs
    obtain ⟨hm, hmembers⟩ := List.forall_mem_cons.1 h
    have hmember := hm i (members.flatMap spell ++ mark "\x7d" :: after)
    rw [List.flatMap_cons]
    exact .of_goesOn (goesOn_memberList owner (hstart.goes i _))
      (.of_here (memberTurn_of_accepts hstart hmember.toAccepts) hmember) (ih hstarts hmembers _)

/-- **A class warns** of what its members warn of. -/
theorem warns_class {ls : List Lexeme} {own : Nat → List Finding}
    (h : ∀ j, Warns (memberList owner) j ls [mark "\x7d"] (fun _ => True) (own j))
    (namespaceName : Option String) (modifiers : List String) (i : Nat) :
    Warns (typeDeclaration memberList namespaceName modifiers) i (classSpelling owner ls) []
      (fun _ => True) (own (i + 3)) := by
  have hhead : Accepts .features typeKeyword i [.word "class"]
      (.name owner :: grouped .brace ls ++ []) (· = .cls) := accepts_classHead i
  have hname : Accepts .features (typeName i) (i + 1) [.name owner] (grouped .brace ls ++ [])
      (· = (owner, .start (i + 1))) := accepts_typeName i owner (i + 1) _
  have hparameters : ∀ j, Accepts .features typeParameters? j [] (grouped .brace ls ++ [])
      (· = 0) := fun _ => .lookElse rfl <| .pure rfl
  have hprimary : ∀ kind place j, Accepts .features (primaryParameters kind place) j []
      (grouped .brace ls ++ []) fun _ => True := fun _ _ _ => .lookElse rfl <| .pure trivial
  have hbases : ∀ j, Accepts .features bases j [] (grouped .brace ls ++ []) fun _ => True :=
    fun _ => .lookElse rfl <| .pure trivial
  have hbody : ∀ place, Warns (typeBody memberList .cls owner place) (i + 2) (grouped .brace ls) []
      (fun _ => True) (own (i + 3)) := fun place => by
    unfold typeBody
    exact .eat <| .followed (h (i + 3)) fun _ _ =>
      .before_nothing (.expect "\x7d" .closeBrace) fun _ _ => .eat_not rfl <| .pure trivial
  refine .look ?_
  show Warns _ i ([.word "class"] ++ .name owner :: grouped .brace ls) [] _ _
  refine .following hhead fun k hk => ?_
  subst hk
  show Warns _ (i + 1) ([.name owner] ++ grouped .brace ls) [] _ _
  refine .following hname fun p hp => ?_
  subst hp
  exact .after_nothing (hparameters _) fun _ _ => .after_nothing (hprimary _ _ _) fun _ _ =>
    .after_nothing (hbases _) fun _ _ => .before_nothing (hbody _) fun _ _ => .pure trivial

/-- **A file with a class warns** of what the members of the class warn of. -/
theorem warns_classFile {ls : List Lexeme} {own : Nat → List Finding}
    (h : ∀ j, Warns (memberList owner) j ls [mark "\x7d"] (fun _ => True) (own j)) :
    warnings (parseFile (classSpelling owner ls)).found = own 3 := by
  have hattributes : Accepts .features attributes 0 [] (classSpelling owner ls ++ [])
      fun _ => True := accepts_no_attributes rfl 0
  have hmodifiers : Accepts .features modifiers 0 [] (classSpelling owner ls ++ []) (· = []) := by
    have hend : ∀ l ∈ (classSpelling owner ls ++ []).head?,
        isModifier l (classSpelling owner ls ++ []).tail.head? = false := by
      rintro _ ⟨⟩
      rfl
    have hwords : ∀ w ∈ ([] : List String), w ∈ modifierKeywords ++ modifierWords := nofun
    exact accepts_modifiers hwords nofun hend 0
  have hmember : Warns (namespaceMember none) 0 (classSpelling owner ls) [] (fun _ => True)
      (own 3) := by
    refine .after_nothing hattributes fun _ _ => .lookElse rfl <|
      .after_nothing hmodifiers fun ws hws => ?_
    subst hws
    exact .lookThen rfl <| .before_nothing (warns_class h none [] 0) fun _ _ => .pure trivial
  have hitem : Warns (fileItem none false) 0 (classSpelling owner ls) [] (fun _ => True)
      (own 3) := .of_here (q := namespaceMember none) rfl hmember
  have hend : ∀ fileNamespace late j, Warns (fileItems fileNamespace late) j [] []
      (fun _ => True) [] := fun fileNamespace late j =>
    (Warns.of_accepts (accepts_fileEnd fileNamespace late j)).mono fun _ _ => trivial
  have hfile := (Warns.of_goesOn (goesOn_fileItems none false rfl) hitem (hend _ _ _)).warned
  rw [List.append_nil, List.append_nil, List.append_nil] at hfile
  exact hfile

end

end Parser
end Outline
