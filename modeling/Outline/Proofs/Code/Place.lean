/-
# A member among others

A class of members with braces, from which what stands in the braces of one member is left
out.  Whatever is put there, if it is well nested the other members stay what they are, so a
semicolon is reported as missing if and only if the check of the braces misses one.

| member | before its braces | check of the braces |
| --- | --- | --- |
| method | name and parameters | `Block.check` |
| property | name | `checkAccessors` |
| indexer | `this` and parameters | `checkAccessors` |
-/

import Outline.Proofs.Code.Body
import Outline.Proofs.Frame.Bodies

namespace Outline
namespace Code

open Outline.Parser
open Lexeme (mark)

/-! ### Members with braces -/

/-- What stands between the type of a member and its braces. -/
inductive BracedHead
  | method (name : String) (parameters : List Lexeme)
  | property (name : String)
  | indexer (parameters : List Lexeme)

namespace BracedHead

variable {head : BracedHead} {ms after : List Lexeme} {symbol : MemberKind → String → Parser.Entry}

def spelling : BracedHead → List Lexeme
  | method name parameters => .name name :: grouped .paren parameters
  | property name => [.name name]
  | indexer parameters => .word "this" :: grouped .square parameters

def kind : BracedHead → MemberKind
  | method _ _ => .method
  | property _ => .property
  | indexer _ => .indexer

/-- The name in the symbol of the member. -/
def name : BracedHead → String
  | method name _ | property name => name
  | indexer _ => "this[]"

/-- The parameters are well nested. -/
def WellFormed : BracedHead → Prop
  | method _ parameters | indexer parameters => WellNested parameters
  | property _ => True

/-- The check of what stands in the braces. -/
def check : BracedHead → Block → List Finding
  | method _ _ => Block.check
  | property _ | indexer _ => checkAccessors

theorem head?_wordy (head : BracedHead) (ls : List Lexeme) :
    (head.spelling ++ ls).head?.any isWordy = true := by cases head <;> rfl

/-- Accessors are accepted if their check finds no faults. -/
theorem accepts_accessorBlock (hm : WellNested ms)
    (hc : ∀ i, Tolerance.harmless.covers (checkAccessors ⟨i, grouped .brace ms⟩) = true)
    (ha : after.head?.any (·.isPunct "=") = false) (i : Nat) :
    Accepts .harmless accessors i (grouped .brace ms) after fun _ => True :=
  .lookThen rfl <| .before_nothing (accepts_checkedBlock hm i after (hc i)) fun _ _ =>
    .eat_not ha <| .pure trivial

/-- **What follows the type of a member is accepted** if the check of its braces finds no
faults. -/
theorem accepts (h : head.WellFormed) (hm : WellNested ms)
    (hc : ∀ i, Tolerance.harmless.covers (head.check ⟨i, grouped .brace ms⟩) = true)
    (ha : after.head?.any (·.isPunct "=") = false) (i : Nat) :
    Accepts .harmless (typedMember symbol) i (head.spelling ++ grouped .brace ms) after
      (· = [symbol head.kind head.name]) := by
  cases head with
  | method name parameters =>
    -- a method without type parameters
    have htail : ∀ j, Accepts .harmless (typedMember symbol) j
        (.name name :: (Tree.typeParameterSpelling [] ++ _)) after _ :=
      accepts_methodName h rfl fun j => .lookThen rfl (accepts_checkedBlock hm j after (hc j))
    exact htail i
  | property name => exact accepts_propertyName rfl (accepts_accessorBlock hm hc ha) i
  | indexer parameters =>
    have hgroup := accepts_skipGroup (t := .harmless) .square h
    exact .lookElse rfl <| .lookThen rfl <| .before_nothing (.advance <|
      .bind (hgroup _ _) fun _ _ => accepts_accessorBlock hm hc ha _) fun _ _ => .pure rfl

variable {cause : Cause → Bool}

theorem finds_checkedBlock {check : Block → List Finding} (hm : WellNested ms) (i : Nat)
    (hf : (check ⟨i, grouped .brace ms⟩).any (cause ·.cause) = true) (after : List Lexeme) :
    Finds cause (checkedBlock check) i (grouped .brace ms ++ after) := by
  have hg := skipGroup_of_wellNested .brace hm i after
  constructor
  simpa only [checkedBlock, hg, if_true, List.nil_append, Nat.add_sub_cancel_left, List.take_left]
    using hf

/-- **After the type of a member is found** what the check of its braces finds. -/
theorem finds (h : head.WellFormed) (hm : WellNested ms)
    (hf : ∀ i, (head.check ⟨i, grouped .brace ms⟩).any (cause ·.cause) = true)
    (after : List Lexeme) (i : Nat) :
    Finds cause (typedMember symbol) i (head.spelling ++ (grouped .brace ms ++ after)) := by
  have hblock : ∀ j, Finds cause (checkedBlock head.check) j (grouped .brace ms ++ after) :=
    fun j => finds_checkedBlock hm j (hf j) after
  have hname : ∀ name ls, ls.head?.any (·.isOneOf [".", "<"]) = false →
      Accepts .harmless memberName? i [.name name] ls (· = some name) := fun name ls hls =>
    accepts_memberName? (atPunct_of_isOneOf (i := 0) hls (by decide)) (fun _ =>
      qualifyingArguments_of_not_open (atPunct_of_isOneOf (i := 0) hls (by decide))) i
  cases head with
  | method name parameters =>
    have hgroup : ∀ j, Accepts .harmless skipGroup j (grouped .paren parameters)
        (grouped .brace ms ++ after) (· = true) := fun j => accepts_skipGroup .paren h j _
    have hparameters : ∀ j, Accepts .harmless typeParameters? j []
        (grouped .paren parameters ++ (grouped .brace ms ++ after)) (· = 0) :=
      fun _ => .lookElse rfl <| .pure rfl
    have hconstraints : ∀ j, Accepts .harmless constraints j [] (grouped .brace ms ++ after)
        fun _ => True := accepts_constraints_none rfl
    show Finds cause (typedMember symbol) i
      ([.name name] ++ (grouped .paren parameters ++ (grouped .brace ms ++ after)))
    refine .lookElse rfl <| .lookElse rfl <| .lookElse rfl <|
      .bind (hname name _ rfl) fun a ha => ?_
    subst ha
    refine .lookThen rfl <| .first <| .after_nothing (hparameters _) fun _ _ => .lookThen rfl <|
      .bind (hgroup _) fun b hb => ?_
    subst hb
    exact .after_nothing (hconstraints _) fun _ _ => .lookThen rfl (hblock _)
  | property name =>
    refine .lookElse rfl <| .lookElse rfl <| .lookElse rfl <|
      .bind (hname name _ rfl) fun a ha => ?_
    subst ha
    exact .lookElse rfl <| .lookThen rfl <| .first <| .lookThen rfl <| .first (hblock _)
  | indexer parameters =>
    have hgroup : ∀ j, Accepts .harmless skipGroup j (grouped .square parameters)
        (grouped .brace ms ++ after) (· = true) := fun j => accepts_skipGroup .square h j _
    exact .lookElse rfl <| .lookThen rfl <| .first <| .advance <| .bind (hgroup _) fun _ _ =>
      .lookThen rfl <| .first (hblock _)

end BracedHead

/-! ### What checks find -/

/-- A check finds that semicolons are missing, and nothing else that is a fault. -/
def Mild (found : List Finding) : Prop :=
  ∀ x ∈ found, x.cause.isFault = true → x.cause.isSemicolon = true

namespace Mild

theorem append {f g : List Finding} (hf : Mild f) (hg : Mild g) : Mild (f ++ g) := fun x hx =>
  (List.mem_append.1 hx).elim (hf x) (hg x)

/-- What misses no semicolon is harmless. -/
theorem covers {found : List Finding} (h : Mild found)
    (hn : found.any (·.cause.isSemicolon) = false) : Tolerance.harmless.covers found = true := by
  refine List.all_eq_true.2 fun x hx => ?_
  have hnone := List.any_eq_false.1 hn x hx
  show (!x.cause.isFault) = true
  rw [Bool.not_eq_true', Bool.eq_false_iff]
  exact fun hfault => hnone (h x hx hfault)

theorem check (b : Block) : Mild b.check :=
  .append (fun x hx _ => by rw [checkStatementsFrom_semicolons _ _ _ x hx]; rfl) fun x hx hfault =>
    by simpa [Tolerance.harmless, hfault] using
      List.all_eq_true.1 (covers_checkLocalsFrom b.inner (b.index + 1) 0 true b.inner) x hx

theorem checkAccessors (b : Block) : Mild (checkAccessors b) :=
  .append (fun x hx _ => by rw [checkAccessorsFrom_semicolons _ _ _ x hx]; rfl) fun x hx => by
    obtain ⟨p, -, hx⟩ := List.mem_flatMap.1 hx
    exact Mild.check (b.slice p.1 p.2) x hx

theorem of_head (head : BracedHead) (b : Block) : Mild (head.check b) := by
  cases head with
  | method => exact .check b
  | property | indexer => exact .checkAccessors b

end Mild

/-! ### The rest of the class -/

/-- A class without what stands in the braces of one of its members. -/
structure Place where
  owner : String
  before : List BracedMember
  words : List String
  type : TypeExpr
  head : BracedHead
  after : List BracedMember

namespace Place

variable {p : Place} {s : Source} {ms : List Lexeme}

/-- The lexemes of the member, with these in its braces. -/
def member (p : Place) (ms : List Lexeme) : List Lexeme :=
  p.words.map .word ++ (p.type.spelling ++ (p.head.spelling ++ grouped .brace ms))

/-- The lexemes of the class, with these in the braces of the member. -/
def spelling (p : Place) (ms : List Lexeme) : List Lexeme :=
  classSpelling p.owner
    (p.before.flatMap (·.spelling) ++ (p.member ms ++ p.after.flatMap (·.spelling)))

/-- The other members are well formed, and so is what stands before the braces. -/
structure WellFormed (p : Place) : Prop where
  before : ∀ m ∈ p.before, m.WellFormed
  after : ∀ m ∈ p.after, m.WellFormed
  words : ∀ w ∈ p.words, w ∈ modifierKeywords ++ modifierWords
  readable : Readable p.words p.type
  head : p.head.WellFormed

/-- The symbol that the member declares. -/
def symbol (p : Place) : MemberSymbol := ⟨p.head.kind, p.head.name, isStaticBy p.words⟩

/-- The members of the class as their lexemes and their symbols. -/
def members (p : Place) (ms : List Lexeme) : List (List Lexeme × MemberSymbol) :=
  p.before.map (fun m => (m.spelling, m.symbol)) ++
    (p.member ms, p.symbol) :: p.after.map (fun m => (m.spelling, m.symbol))

theorem forall_members {good : List Lexeme × MemberSymbol → Prop}
    (hb : ∀ m ∈ p.before, good (m.spelling, m.symbol)) (hm : good (p.member ms, p.symbol))
    (ha : ∀ m ∈ p.after, good (m.spelling, m.symbol)) : ∀ m ∈ p.members ms, good m := by
  simp only [members, List.forall_mem_append, List.forall_mem_cons, List.forall_mem_map]
  exact ⟨hb, hm, ha⟩

theorem flatMap_members (p : Place) (ms : List Lexeme) : (p.members ms).flatMap (·.1)
    = p.before.flatMap (·.spelling) ++ (p.member ms ++ p.after.flatMap (·.spelling)) := by
  simp [members, List.flatMap_map]

theorem starts_member (p : Place) (ms : List Lexeme) : Starts (p.member ms) :=
  starts_words p.words (p.type.starts _)

/-- The member is accepted if the check of its braces misses no semicolon. -/
theorem accepts_member (h : p.WellFormed) (hm : WellNested ms)
    (hq : ∀ i, (p.head.check ⟨i, grouped .brace ms⟩).any (·.cause.isSemicolon) = false) (i : Nat)
    {after : List Lexeme} (ha : after.head?.any (·.isPunct "=") = false) :
    Accepts .harmless (Parser.member memberList p.owner) i (p.member ms) after
      (· = [.member p.symbol]) :=
  accepts_bareType (fun symbol => [symbol p.head.kind p.head.name])
    (p.type.typeForm h.readable.arguments) (h.readable.modifies h.words) (p.head.head?_wordy _)
    (fun _ => BracedHead.accepts h.head hm (fun i => (Mild.of_head p.head _).covers (hq i)) ha) i

/-- **Nothing but harmless things is found** if the check of the braces misses no semicolon. -/
theorem covers_findings (h : p.WellFormed) (hm : WellNested ms)
    (hq : ∀ i, (p.head.check ⟨i, grouped .brace ms⟩).any (·.cause.isSemicolon) = false)
    (hl : lexemes s.text = p.spelling ms) :
    Tolerance.harmless.covers (SyntaxTree.findings s) = true := by
  have hstarts : ∀ m ∈ p.members ms, Starts m.1 :=
    forall_members (fun m _ => m.starts) (p.starts_member ms) fun m _ => m.starts
  have heach : ∀ m ∈ p.members ms, ∀ i after, after.head?.any (·.isPunct "=") = false →
      Accepts .harmless (Parser.member memberList p.owner) i m.1 after (· = [.member m.2]) :=
    forall_members (fun m hb i _ ha => BracedMember.accepts (h.before m hb) p.owner i ha)
      (fun i _ ha => accepts_member h hm hq i ha)
      (fun m hb i _ ha => BracedMember.accepts (h.after m hb) p.owner i ha)
  have hlist : ∀ j, Accepts .harmless (memberList p.owner) j _ [mark "\x7d"] _ :=
    fun j => accepts_each hstarts heach j []
  have hholds := Holds.map ((p.members ms).map (·.2))
  rw [List.map_map] at hholds
  have haccepted : ∀ j, Accepts .harmless (memberList p.owner) j _ [mark "\x7d"]
      (Holds ((p.members ms).map (·.2)) []) := fun j => (hlist j).mono fun _ h => h ▸ hholds
  rw [flatMap_members] at haccepted
  exact (SyntaxTree.members_class hl haccepted .v12).1

/-- **What the check of the braces finds is found** in the class. -/
theorem any_findings (h : p.WellFormed) (hm : WellNested ms)
    (hq : ∀ i, (p.head.check ⟨i, grouped .brace ms⟩).any (·.cause.isSemicolon) = true)
    (hl : lexemes s.text = p.spelling ms) :
    (SyntaxTree.findings s).any (·.cause.isSemicolon) = true := by
  have hmember : ∀ j, Finds Cause.isSemicolon (memberList p.owner) j
      (p.member ms ++ (p.after.flatMap (·.spelling) ++ [mark "\x7d"])) := by
    intro j
    have hfinds : Finds Cause.isSemicolon (memberList p.owner) j (p.words.map .word ++
        (p.type.spelling ++ (p.head.spelling ++ (grouped .brace ms ++ _)))) :=
      finds_afterType h.readable h.words (p.head.head?_wordy _) (fun _ =>
        BracedHead.finds h.head hm hq (p.after.flatMap (·.spelling) ++ [mark "\x7d"])) j
    simpa [member] using hfinds
  have hlist : ∀ j, Finds Cause.isSemicolon (memberList p.owner) j
      (p.before.flatMap (·.spelling) ++
        (p.member ms ++ (p.after.flatMap (·.spelling) ++ [mark "\x7d"]))) :=
    finds_memberEach (fun m _ => m.starts)
      (fun m hm i _ ha => BracedMember.accepts (h.before m hm) p.owner i ha)
      ((p.starts_member ms).head?_eq (by decide) _) hmember
  have hfile : Finds Cause.isSemicolon (fileItems none false) 0 (p.spelling ms) :=
    finds_classFile fun j => by simpa using hlist j
  rw [SyntaxTree.findings, map_lexeme_tokens, hl]
  exact hfile.found

/-- **A semicolon is reported as missing** if and only if the check of the braces misses one. -/
theorem reportsSemicolon_iff (h : p.WellFormed) (hm : WellNested ms)
    (hl : lexemes s.text = p.spelling ms) {q : Bool}
    (hq : ∀ i, (p.head.check ⟨i, grouped .brace ms⟩).any (·.cause.isSemicolon) = q)
    (version : Language.Version) : SyntaxTree.ReportsSemicolon version s ↔ q = true := by
  rw [SyntaxTree.reportsSemicolon_iff]
  cases q with
  | true => exact iff_of_true (any_findings h hm hq hl) rfl
  | false =>
    refine iff_of_false (fun hany => ?_) Bool.false_ne_true
    obtain ⟨x, hx, hsemicolon⟩ := List.any_eq_true.1 hany
    have hharmless := List.all_eq_true.1 (covers_findings h hm hq hl) x hx
    cases hc : x.cause <;> simp_all [Tolerance.harmless, Cause.isFault, Cause.isSemicolon]

end Place

end Code
end Outline
