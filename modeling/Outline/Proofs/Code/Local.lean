/-
# Locals that are never used

A class of methods with straight-line bodies.  The warnings of its source are those of the
locals that nothing in their body mentions, in the order of the text, and there are no others.

| declaration | warning, if nothing mentions `x` |
| --- | --- |
| `T x;` | `CS0168` at `x` |
| `T x = literal;` | `CS0219` at `x` |
| `T x = E;`, with any other expression | none |

A type that starts with `await`, `yield` or `nameof` declares nothing, as these words also
start statements.
-/

import Outline.Proofs.Code.Field
import Outline.Proofs.Parser.Warnings
import Outline.Proofs.SyntaxTree.Names
import Outline.Proofs.SyntaxTree.Versions

namespace Outline

open Outline.Language (Version)

/-! ### The warnings of a tree -/

namespace SyntaxTree

open Outline.Parser (Cause warnings)

/-- The warnings of a tree. -/
def warningsOf (t : SyntaxTree) : List Diagnostic := t.diagnostics.filter (·.severity = .warning)

theorem severity_of_diagnostic? {version : Version} {cause : Cause} {d : Diagnostic}
    (h : cause.diagnostic? version = some d) :
    decide (d.severity = .warning) = cause.isWarning := by
  cases cause with
  | expected e =>
    cases h
    cases e <;> rfl
  | needs feature =>
    rw [Cause.diagnostic?] at h
    split at h
    · cases h
    · cases h
      rfl
  | _ =>
    cases h
    rfl

/-- The lexer warns of nothing. -/
theorem filter_lexicalDiagnostics (s : Source) :
    (lexicalDiagnostics s).filter (·.severity = .warning) = [] := by
  refine List.filter_eq_nil_iff.2 fun d hd => ?_
  obtain ⟨⟨f, span⟩, -, rfl⟩ := List.mem_map.1 hd
  have herror : f.diagnostic.severity = .error := by cases f <;> rfl
  simp [Diagnostic.at, herror]

theorem filter_reported (version : Version) (s : Source) :
    (reported version s).filter (·.severity = .warning)
      = (warnings (findings s)).filterMap
          (findingDiagnostic? version s ((tokens s.text).map (·.span))) := by
  rw [reported, warnings, List.filter_filterMap, List.filterMap_filter]
  refine List.filterMap_congr fun x _ => ?_
  rw [findingDiagnostic?]
  cases hd : x.cause.diagnostic? version with
  | none => simp
  | some d =>
    rw [Option.map_some, Option.filter_some, ← severity_of_diagnostic? hd]
    rfl

/-- **The warnings of a tree** are those of its parser, if these stand in the order of the text. -/
theorem warningsOf_parse {version : Version} {s : Source} {ds : List Diagnostic}
    (h : (warnings (findings s)).filterMap
      (findingDiagnostic? version s ((tokens s.text).map (·.span))) = ds)
    (hp : ds.Pairwise fun d e => diagnosticOffset d ≤ diagnosticOffset e) :
    (parse version s).warningsOf = ds := by
  rw [warningsOf, diagnostics_eq, filter_sortBy, List.filter_append, filter_lexicalDiagnostics,
    filter_reported, h, List.nil_append]
  exact List.mergeSort_of_pairwise (hp.imp decide_eq_true)

end SyntaxTree

/-! ### Locals that are reported -/

namespace Parser

open SyntaxTree (diagnosticOffset edgeOffset_le_of_token_lt findingDiagnostic? spans)

namespace Local

variable {x y : Local}

/-- Nothing mentions the local, and its value takes no work to compute. -/
def IsUnused (x : Local) : Prop := x.start ≠ .computed ∧ ¬x.IsMentioned

instance (x : Local) : Decidable x.IsUnused := inferInstanceAs (Decidable (_ ∧ _))

/-- What is reported of a local that is not used. -/
def warning (x : Local) : Diagnostic :=
  match x.start with
  | .none => .warning "CS0168" ("The variable '" ++ x.name ++ "' is declared but never used")
  | _ => .warning "CS0219"
    ("The variable '" ++ x.name ++ "' is assigned but its value is never used")

/-- A diagnostic reports a local: it points to the token that is its name. -/
def IsReportedBy (x : Local) (s : Source) (d : Diagnostic) : Prop :=
  ∃ t, (tokens s.text)[x.token]? = some t ∧ t.lexeme = .name x.name ∧
    d = x.warning.at (s.location t.span.start (t.span.stop - t.span.start))

/-- What is reported in a source of what the check of a body finds. -/
def reported? (version : Version) (s : Source) (x : Local) : Option Diagnostic :=
  x.finding?.bind (findingDiagnostic? version s ((tokens s.text).map (·.span)))

/-- The name of a local is a token. -/
theorem NamedIn.exists_token {text : String} (h : x.NamedIn 0 (lexemes text)) :
    ∃ t, (tokens text)[x.token]? = some t ∧ t.lexeme = .name x.name := by
  obtain ⟨k, hk, hl⟩ := h
  rw [← map_lexeme_tokens, List.getElem?_map, Option.map_eq_some_iff] at hl
  rwa [hk, Nat.zero_add]

/-- A cause at a token is reported where the token stands. -/
theorem findingDiagnostic?_whole {s : Source} {i : Nat} {t : Token}
    (h : (tokens s.text)[i]? = some t) (version : Version) (cause : Cause) :
    findingDiagnostic? version s ((tokens s.text).map (·.span)) ⟨cause, .whole i⟩
      = (cause.diagnostic? version).map
          (·.at (s.location t.span.start (t.span.stop - t.span.start))) := by
  simp [findingDiagnostic?, Mark.whole, edgeOffset, List.getElem?_map, h]

theorem reported?_of_isUnused {s : Source} (hname : x.NamedIn 0 (lexemes s.text))
    (h : x.IsUnused) (version : Version) :
    ∃ d, x.reported? version s = some d ∧ x.IsReportedBy s d := by
  obtain ⟨t, ht, hl⟩ := hname.exists_token
  refine ⟨_, ?_, t, ht, hl, rfl⟩
  rw [reported?, finding?, if_neg h.2, warning]
  cases hstart : x.start with
  | none => exact findingDiagnostic?_whole ht version (.unusedVariable x.name)
  | constant => exact findingDiagnostic?_whole ht version (.unreadVariable x.name)
  | computed => exact absurd hstart h.1

theorem reported?_of_not_isUnused (h : ¬x.IsUnused) (version : Version) (s : Source) :
    x.reported? version s = none := by
  rw [reported?, finding?]
  split
  · rfl
  · rename_i hmentioned
    have hstart : x.start = .computed := Classical.not_not.1 fun hne => h ⟨hne, hmentioned⟩
    rw [hstart]
    rfl

/-- **The locals that are not used are reported**, one after the other. -/
theorem forall₂_reported {s : Source} {xs : List Local}
    (h : ∀ x ∈ xs, x.NamedIn 0 (lexemes s.text)) (version : Version) :
    List.Forall₂ (·.IsReportedBy s ·) (xs.filter (·.IsUnused))
      (xs.filterMap (·.reported? version s)) := by
  induction xs with
  | nil => exact .nil
  | cons x xs ih =>
    obtain ⟨hx, hxs⟩ := List.forall_mem_cons.1 h
    rw [List.filter_cons]
    by_cases hunused : x.IsUnused
    · obtain ⟨d, hd, hby⟩ := reported?_of_isUnused hx hunused version
      rw [if_pos (decide_eq_true hunused), List.filterMap_cons_some hd]
      exact .cons hby (ih hxs)
    · have hnone := reported?_of_not_isUnused hunused version s
      rw [if_neg (by simpa using hunused), List.filterMap_cons_none hnone]
      exact ih hxs

/-- Where a local is reported. -/
theorem diagnosticOffset_of_reported? {version : Version} {s : Source} {d : Diagnostic}
    (h : x.reported? version s = some d) :
    diagnosticOffset d = edgeOffset (spans s.text) s.text.utf8ByteSize (.start x.token) := by
  obtain ⟨f, hf, hd⟩ := Option.bind_eq_some_iff.1 h
  obtain ⟨e, -, rfl⟩ := Option.map_eq_some_iff.1 hd
  rw [finding?] at hf
  split at hf
  · cases hf
  · obtain ⟨cause, -, rfl⟩ := Option.map_eq_some_iff.1 hf
    rfl

theorem pairwise_reported {xs : List Local} (h : xs.Pairwise (·.token < ·.token))
    (version : Version) (s : Source) :
    (xs.filterMap (·.reported? version s)).Pairwise fun d e =>
      diagnosticOffset d ≤ diagnosticOffset e := by
  refine List.Pairwise.filterMap _ (fun x y hxy d hd e he => ?_) h
  rw [diagnosticOffset_of_reported? hd, diagnosticOffset_of_reported? he]
  exact edgeOffset_le_of_token_lt hxy

end Local
end Parser

/-! ### Methods with straight-line bodies -/

namespace Code

open Outline.Parser
open Lexeme (mark)

/-- A method with modifiers and a type, in whose braces stand statements without blocks. -/
structure StraightMethod where
  words : List String
  type : TypeExpr
  name : String
  parameters : List Lexeme
  statements : List SimpleStatement

namespace StraightMethod

variable {m : StraightMethod}

/-- The lexemes before the statements. -/
def head (m : StraightMethod) : List Lexeme :=
  typedHead m.words m.type.spelling m.name m.parameters

def spelling (m : StraightMethod) : List Lexeme :=
  m.head ++ (bodySpelling m.statements ++ [mark "\x7d"])

/-- A method whose type is read as one, with statements of the given forms. -/
structure WellFormed (m : StraightMethod) : Prop where
  words : ∀ w ∈ m.words, w ∈ modifierKeywords ++ modifierWords
  readable : Readable m.words m.type
  parameters : WellNested m.parameters
  statements : ∀ s ∈ m.statements, s.WellFormed

/-- The locals of a method that starts at the token `i`. -/
def locals (i : Nat) (m : StraightMethod) : List Local :=
  bodyLocals (i + m.head.length) m.statements

theorem starts (m : StraightMethod) : Starts m.spelling := by
  rw [spelling, head, typedHead, List.append_assoc, List.append_assoc]
  exact starts_words m.words (m.type.starts _)

theorem namedIn_of_mem_locals {i : Nat} {x : Local} (hx : x ∈ m.locals i) :
    x.NamedIn i m.spelling :=
  ((namedIn_of_mem_bodyLocals hx).left [mark "\x7d"]).right

/-- **A method warns** of the locals that are not used. -/
theorem WellFormed.warns (h : m.WellFormed) {i : Nat}
    (hname : ∀ x ∈ m.locals i, Name.isIdentifier x.name = true) (owner : String)
    (after : List Lexeme) :
    Warns (member memberList owner) i m.spelling after (fun _ => True)
      ((m.locals i).filterMap (·.finding?)) := by
  have hmember : Warns (member memberList owner) i m.spelling after (fun _ => True)
      (warnings (checkLocals (i + m.head.length) (bodySpelling m.statements))) :=
    warns_member (m.type.typeForm h.readable.arguments) (h.readable.modifies h.words) h.parameters
      (wellNested_bodySpelling h.statements) i after
  rwa [checkLocals_bodySpelling h.statements hname, warnings_filterMap] at hmember

end StraightMethod

/-- The locals of the methods of a class at the start of a source, in the order of the text. -/
def classLocals (methods : List StraightMethod) : List Local :=
  gather (·.spelling) StraightMethod.locals 3 methods

section

variable {s : Source} {owner : String} {methods : List StraightMethod}

theorem namedIn_of_mem_classLocals
    (hl : lexemes s.text = classSpelling owner (methods.flatMap (·.spelling))) {x : Local}
    (hx : x ∈ classLocals methods) : x.NamedIn 0 (lexemes s.text) := by
  have hclass : x.NamedIn 3 (methods.flatMap (·.spelling)) :=
    namedIn_of_mem_gather (fun _ _ _ _ hx => StraightMethod.namedIn_of_mem_locals hx) hx
  have hspelled : lexemes s.text = [.word "class", .name owner, mark "\x7b"]
      ++ (methods.flatMap (·.spelling) ++ [mark "\x7d"]) := hl
  rw [hspelled]
  exact (hclass.left _).right

theorem pairwise_classLocals (methods : List StraightMethod) :
    (classLocals methods).Pairwise (·.token < ·.token) := by
  have hown : ∀ i, ∀ m ∈ methods, (m.locals i).Pairwise (·.token < ·.token) :=
    fun i m _ => pairwise_bodyLocals (i + m.head.length) m.statements
  exact pairwise_gather (fun _ _ _ _ hx => StraightMethod.namedIn_of_mem_locals hx) hown 3

/-- **The warnings of a class** are found in its methods, one after the other. -/
theorem warnings_class (h : ∀ m ∈ methods, m.WellFormed)
    (hl : lexemes s.text = classSpelling owner (methods.flatMap (·.spelling))) :
    warnings (SyntaxTree.findings s) = (classLocals methods).filterMap (·.finding?) := by
  have hname : ∀ m ∈ methods, ∀ i, ∀ x ∈ m.locals i, Name.isIdentifier x.name = true := by
    intro m hm i x hx
    obtain ⟨k, -, hk⟩ := StraightMethod.namedIn_of_mem_locals hx
    have hmem : Lexeme.name x.name ∈ methods.flatMap (·.spelling) :=
      List.mem_flatMap.2 ⟨m, hm, List.mem_of_getElem? hk⟩
    have htext : Lexeme.name x.name ∈ lexemes s.text := by
      rw [hl, classSpelling, grouped_brace]
      simp [hmem]
    exact isIdentifier_of_mem_lexemes htext rfl
  have hmembers : ∀ j, Warns (memberList owner) j (methods.flatMap (·.spelling)) [mark "\x7d"]
      (fun _ => True) (gather (·.spelling) (fun i m => (m.locals i).filterMap (·.finding?)) j
        methods) := fun j =>
    warns_each (fun m _ => m.starts) (fun m hm i after => (h m hm).warns (hname m hm i) owner after)
      j []
  rw [SyntaxTree.findings, map_lexeme_tokens, hl, warns_classFile hmembers, classLocals,
    filterMap_gather]

end

/-- **Exactly the locals that are not used are reported.**  Whatever the language version is, the
warnings of a class of methods with straight-line bodies are those of the locals that are
declared without a value or with a literal and that nothing else in their body mentions, one
after the other, each at its name. -/
theorem warnings_straightLine (version : Version) (s : Source) (owner : String)
    (methods : List StraightMethod) (h : ∀ m ∈ methods, m.WellFormed)
    (hl : lexemes s.text = classSpelling owner (methods.flatMap (·.spelling))) :
    List.Forall₂ (·.IsReportedBy s ·) ((classLocals methods).filter (·.IsUnused))
      (SyntaxTree.parse version s).warningsOf := by
  have hreported : (warnings (SyntaxTree.findings s)).filterMap
      (SyntaxTree.findingDiagnostic? version s ((tokens s.text).map (·.span)))
      = (classLocals methods).filterMap (·.reported? version s) := by
    rw [warnings_class h hl, List.filterMap_filterMap]
    rfl
  rw [SyntaxTree.warningsOf_parse hreported
    (Local.pairwise_reported (pairwise_classLocals methods) version s)]
  exact Local.forall₂_reported (fun x hx => namedIn_of_mem_classLocals hl hx) version

/-- Locals that are used in a value and in a hole, and one in each of two bodies that is not. -/
theorem warnings_straightLine_mixed :
    let source : Source := ⟨"class C \x7b void M(int a) \x7b int x; A.B<List<int>>?[] y = \"s\"; "
      ++ "var z = f(x); z = $\"\x7bw\x7d yy\"; g.h(1, z); char w = 'c'; await.B v; \x7d "
      ++ "static int N() \x7b x = -1; bool x = true; int? k; \x7d \x7d", 0⟩
    let methods : List StraightMethod := [
      ⟨[], .builtin "void" (by decide), "M", lexemes "int a", [
        .declaration ⟨.builtin "int" (by decide), none, []⟩ "x" none,
        .declaration ⟨.path "A" ["B"], some (.name "List" :: (angles [.word "int"] ++ [])),
          [.nullable, .array]⟩ "y" (some (lexemes "\"s\"")),
        .declaration ⟨.path "var" [], none, []⟩ "z" (some (lexemes "f(x)")),
        .assignment "z" [] (lexemes "$\"\x7bw\x7d yy\""),
        .call "g" ["h"] (lexemes "1, z"),
        .declaration ⟨.builtin "char" (by decide), none, []⟩ "w" (some (lexemes "'c'")),
        .declaration ⟨.path "await" ["B"], none, []⟩ "v" none]⟩,
      ⟨["static"], .builtin "int" (by decide), "N", [], [
        .assignment "x" [] (lexemes "-1"),
        .declaration ⟨.builtin "bool" (by decide), none, []⟩ "x" (some (lexemes "true")),
        .declaration ⟨.builtin "int" (by decide), none, [.nullable]⟩ "k" none]⟩]
    ((classLocals methods).filter (·.IsUnused)).map (fun x => (x.name, x.warning.code))
        = [("y", "CS0219"), ("k", "CS0168")] ∧
      List.Forall₂ (·.IsReportedBy source ·) ((classLocals methods).filter (·.IsUnused))
        (SyntaxTree.parse .v12 source).warningsOf := by
  intro source methods
  have hmethods : ∀ m ∈ methods, m.WellFormed := by
    refine List.forall_mem_cons.2 ⟨⟨nofun, ⟨rfl, nofun⟩, by decide +kernel, ?_⟩,
      List.forall_mem_singleton.2 ⟨by decide, ⟨rfl, nofun⟩, .nil, ?_⟩⟩
    · have harguments : ArgumentList (.name "List" :: (angles [.word "int"] ++ [])) :=
        .plain rfl (.nested (.plain (by decide) .nil) .nil)
      have hpath : (LocalType.mk (.path "A" ["B"])
          (some (.name "List" :: (angles [.word "int"] ++ [])))
          [.nullable, .array]).WellFormed := by
        rintro _ ⟨⟩
        exact ⟨harguments, by decide⟩
      simp only [List.forall_mem_cons, List.not_mem_nil, false_implies, implies_true, and_true]
      exact ⟨⟨nofun, nofun⟩, ⟨hpath, by decide +kernel⟩, ⟨nofun, by decide +kernel⟩,
        (by decide +kernel : Flat _), (by decide +kernel : Flat _), ⟨nofun, by decide +kernel⟩,
        ⟨nofun, nofun⟩⟩
    · simp only [List.forall_mem_cons, List.not_mem_nil, false_implies, implies_true, and_true]
      exact ⟨(by decide +kernel : Flat _), ⟨nofun, by decide +kernel⟩, ⟨nofun, nofun⟩⟩
  exact ⟨by decide +kernel, warnings_straightLine .v12 source "C" methods hmethods
    (by decide +kernel)⟩

/-- A local is not reported if its type is a path that starts with `await`. -/
theorem not_reported_afterAwait :
    ¬∀ (version : Version) (s : Source) (owner : String) (methods : List StraightMethod),
      (∀ m ∈ methods, m.WellFormed) →
        lexemes s.text = classSpelling owner (methods.flatMap (·.spelling)) →
          ∀ m ∈ methods, ∀ before type name after,
            m.statements = before ++ .declaration type name none :: after →
              (∀ word, type.start = .path word [] → word ∉ ["await", "yield", "nameof"]) →
                (∀ l ∈ (bodySpelling m.statements).eraseIdx
                    ((bodySpelling before).length + type.spelling.length), ¬Mentions l name) →
                  ∃ d ∈ (SyntaxTree.parse version s).warningsOf, d.code = "CS0168" := by
  intro h
  let type : LocalType := ⟨.path "await" ["B"], none, []⟩
  let m : StraightMethod :=
    ⟨[], .builtin "void" (by decide), "M", [], [.declaration type "x" none]⟩
  have hm : m.WellFormed :=
    ⟨nofun, ⟨rfl, nofun⟩, .nil, List.forall_mem_singleton.2 ⟨nofun, nofun⟩⟩
  obtain ⟨d, hd, -⟩ := h .v12 ⟨"class C \x7b void M() \x7b await.B x; \x7d \x7d", 0⟩ "C" [m]
    (List.forall_mem_singleton.2 hm) (by decide +kernel) m List.mem_cons_self [] type "x" [] rfl
    (fun _ hpath => by cases hpath) (by decide +kernel)
  have hnone : (SyntaxTree.parse .v12
      ⟨"class C \x7b void M() \x7b await.B x; \x7d \x7d", 0⟩).warningsOf = [] := by
    decide +kernel
  rw [hnone] at hd
  cases hd

end Code

end Outline
