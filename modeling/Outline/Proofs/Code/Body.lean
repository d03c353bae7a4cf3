/-
# Members with bodies

A class of methods and properties with braces: what is well formed in their braces adds no
error, and each of them is parsed as the member that it declares.  Locals that are never
mentioned are reported, but as warnings.

| after the name | has to be |
| --- | --- |
| `(…) { … }` | well nested, and statements |
| `{ … }` | accessors, their blocks of statements |
-/

import Outline.Proofs.Code.Field
import Outline.Proofs.Parser.Accessors

namespace Outline
namespace Code

open Outline.Parser
open Lexeme (mark)

/-- What follows the name of a member that ends in braces. -/
inductive Braced
  | method (parameters statements : List Lexeme)
  | property (accessors : List Lexeme)

namespace Braced

def spelling : Braced → List Lexeme
  | method parameters statements => grouped .paren parameters ++ grouped .brace statements
  | property accessors => grouped .brace accessors

def kind : Braced → MemberKind
  | method _ _ => .method
  | property _ => .property

/-- What stands in the brackets is what it stands for. -/
def WellFormed : Braced → Prop
  | method parameters statements => WellNested parameters ∧ Phrase .statements statements
  | property accessors => AccessorList accessors

end Braced

/-- A member with modifiers, a type, a name and braces. -/
structure BracedMember where
  words : List String
  type : TypeExpr
  name : String
  body : Braced

namespace BracedMember

variable {m : BracedMember}

def spelling (m : BracedMember) : List Lexeme :=
  m.words.map .word ++ (m.type.spelling ++ .name m.name :: m.body.spelling)

/-- The symbol that the member declares. -/
def symbol (m : BracedMember) : MemberSymbol := ⟨m.body.kind, m.name, isStaticBy m.words⟩

/-- A member with a type that is read as one, and a body of the grammar. -/
structure WellFormed (m : BracedMember) : Prop where
  words : ∀ w ∈ m.words, w ∈ modifierKeywords ++ modifierWords
  readable : Readable m.words m.type
  body : m.body.WellFormed

theorem starts (m : BracedMember) : Starts m.spelling := starts_words m.words (m.type.starts _)

/-- What follows the type of a member is accepted as the member. -/
theorem accepts_name (h : m.body.WellFormed) (symbol : MemberKind → String → Parser.Entry)
    (i : Nat) {after : List Lexeme} (ha : after.head?.any (·.isPunct "=") = false) :
    Accepts .harmless (typedMember symbol) i (.name m.name :: m.body.spelling) after
      (· = [symbol m.body.kind m.name]) := by
  obtain ⟨words, type, name, body⟩ := m
  cases body with
  | method parameters statements =>
    -- a method without type parameters
    have htail : ∀ j, Accepts .harmless (typedMember symbol) j
        (.name name :: (Tree.typeParameterSpelling [] ++ _)) after _ :=
      accepts_methodName h.1 rfl (accepts_statements h.2 · after)
    exact htail i
  | property accessors => exact accepts_propertyName rfl (accepts_accessorList h ha) i

/-- **A member is accepted** as its symbol. -/
theorem accepts (h : m.WellFormed) (owner : String) (i : Nat) {after : List Lexeme}
    (ha : after.head?.any (·.isPunct "=") = false) :
    Accepts .harmless (member memberList owner) i m.spelling after (· = [.member m.symbol]) :=
  accepts_bareType (fun symbol => [symbol m.body.kind m.name])
    (m.type.typeForm h.readable.arguments) (h.readable.modifies h.words) rfl
    (fun symbol j => accepts_name h.body symbol j ha) i

end BracedMember

/-- **Bodies add no errors.**  A class of methods with statements and of properties with
accessors has the errors that its lexer finds and no others, and its members are these. -/
theorem parse_bodies (s : Source) (owner : String) (members : List BracedMember)
    (h : ∀ m ∈ members, m.WellFormed)
    (hl : lexemes s.text = classSpelling owner (members.flatMap (·.spelling))) :
    let tree := SyntaxTree.parse .v12 s
    (∀ d ∈ SyntaxTree.added .v12 s, d.isError = false) ∧
      tree.hasErrors = (lexicalDiagnostics s).any (·.isError) ∧
      tree.types.map (·.unplaced)
        = [⟨none, owner, 0, .cls, false, members.map (·.symbol), [], ()⟩] := by
  have hmembers : ∀ j, Accepts .harmless (memberList owner) j _ [mark "\x7d"] _ :=
    fun j => accepts_each (fun m _ => m.starts)
      (fun m hm i _ ha => BracedMember.accepts (h m hm) owner i ha) j []
  have hholds := Holds.map (members.map (·.symbol))
  rw [List.map_map] at hholds
  have haccepted : ∀ j, Accepts .harmless (memberList owner) j _ [mark "\x7d"]
      (Holds (members.map (·.symbol)) []) := fun j => (hmembers j).mono fun _ h => h ▸ hholds
  obtain ⟨hf, ht⟩ := SyntaxTree.members_class hl haccepted .v12
  refine ⟨fun d hd => ?_, SyntaxTree.hasErrors_eq_of_harmless hf, ht⟩
  rw [SyntaxTree.added_eq, Multiset.mem_coe] at hd
  exact SyntaxTree.isError_of_harmless hf d hd

/-- Braces of items, of a lambda, after a head and after a word, and accessors of all forms. -/
theorem parse_bodies_nested :
    let s : Source := ⟨"class C \x7b void M() \x7b p = new P \x7b X = 1, Y = \x7b 2 \x7d \x7d; "
      ++ "for (; ; i++) \x7b f(x => \x7b g(); \x7d); \x7d try \x7b \x7d catch \x7b \x7d \x7d "
      ++ "static int N \x7b [A] get \x7b \x7d private set => n = new L \x7b v, get() \x7d; "
      ++ "init; \x7d \x7d", 0⟩
    let tree := SyntaxTree.parse .v12 s
    (∀ d ∈ SyntaxTree.added .v12 s, d.isError = false) ∧ tree.hasErrors = false ∧
      tree.types.map (·.unplaced) = [⟨none, "C", 0, .cls, false,
        [⟨.method, "M", false⟩, ⟨.property, "N", true⟩], [], ()⟩] := by
  intro s
  let items : {ls // Phrase .items ls} := ⟨_,
    .comma (.item (.plains (lexemes "X = 1") (by decide +kernel)))
      (.item (.braces (by decide +kernel) (.plains (lexemes "Y =") (by decide +kernel))
        (.item (.plains (lexemes "2") (by decide +kernel)))))⟩
  let function : {ls // Phrase .code ls} := ⟨_,
    .lambda (.plains (lexemes "x") (by decide +kernel))
      (.simple (.group (b := .paren) (by decide) (.plains (lexemes "g") (by decide +kernel)) .empty)
        .done)⟩
  let statements : {ls // Phrase .statements ls} := ⟨_,
    .simple (.braces (by decide +kernel) (.plains (lexemes "p = new P") (by decide +kernel))
      items.2)
      (.controlled (k := "for") (by decide)
        (.semicolon .empty
          (.semicolon .empty (.alone (.plains (lexemes "i++") (by decide +kernel)))))
        (.simple (.group (b := .paren) (by decide) (.plains (lexemes "f") (by decide +kernel))
          function.2) .done)
        (.worded (k := "try") (by decide) .done (.worded (k := "catch") (by decide) .done .done)))⟩
  let list : {ls // Phrase .code ls} := ⟨_,
    .braces (by decide +kernel) (.plains (lexemes "n = new L") (by decide +kernel))
      (.comma (.item (.plains (lexemes "v") (by decide +kernel)))
        (.item (.group (b := .paren) (by decide) (.plains (lexemes "get") (by decide +kernel))
          .empty)))⟩
  let accessors : {ls // AccessorList ls} := ⟨_,
    .cons [lexemes "A"] [] "get" (by decide +kernel) (by decide) (by decide)
      (.block .done)
      (.cons [] ["private"] "set" (by decide) (by decide) (by decide)
        (.expression (by decide +kernel) list.2)
        (.cons [] [] "init" (by decide) (by decide) (by decide) .absent .nil))⟩
  let members : List BracedMember := [
    ⟨[], .builtin "void" (by decide), "M", .method [] statements.1⟩,
    ⟨["static"], .builtin "int" (by decide), "N", .property accessors.1⟩]
  have hmembers : ∀ m ∈ members, m.WellFormed := by
    refine List.forall_mem_cons.2 ⟨⟨by decide, ⟨rfl, fun h => by cases h⟩, .nil, statements.2⟩,
      List.forall_mem_singleton.2 ⟨by decide, ⟨rfl, fun h => by cases h⟩, accessors.2⟩⟩
  have hl : lexemes s.text = classSpelling "C" (members.flatMap (·.spelling)) := by decide +kernel
  have hs : lexicalDiagnostics s = [] := by decide +kernel
  have h := parse_bodies s "C" members hmembers hl
  rw [hs] at h
  exact h

end Code
end Outline
