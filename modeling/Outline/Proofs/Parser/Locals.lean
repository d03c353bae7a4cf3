/-
# Locals of straight-line bodies

A body without blocks is a list of statements that end in semicolons.  The locals that it
declares are told by the forms of its statements, and those of them that nothing mentions are
what the check of the body finds.

| statement | declares |
| --- | --- |
| `T x;` and `T x = E;` | the local `x`, unless `T` starts with `await`, `yield` or `nameof` |
| `a.b = E;` and `a.b(E, …);` | nothing |

Within a statement no lexeme ends one, so the next place where a local can be declared is after
its semicolon.
-/

import Mathlib.Data.List.Basic
import Outline.Proofs.Parser.Grammar
import Outline.Proofs.Parser.Mentions

namespace Outline
namespace Parser

open Lexeme (mark)

/-! ### Mentions -/

/-- **A name is mentioned** in a text if and only if it stands there as a whole word. -/
theorem mentions_iff {text name : String} (hname : Name.isIdentifier name = true) :
    mentions text name = true ↔ StandsAlone name.toList none text.toList :=
  ⟨standsAlone_of_mentionsFrom, mentions_of_standsAlone hname⟩

/-- Whether a word stands alone, by where it can start. -/
def standsAlone (word : List Char) (previous : Option Char) : List Char → Bool
  | [] => word.isEmpty && !previous.any Character.isWord
  | c :: cs =>
    (word.isPrefixOf (c :: cs) && !previous.any Character.isWord
      && !((c :: cs).drop word.length).head?.any Character.isWord)
    || standsAlone word (some c) cs

theorem standsAlone_iff {word : List Char} {previous : Option Char} {cs : List Char} :
    standsAlone word previous cs = true ↔ StandsAlone word previous cs := by
  induction cs generalizing previous with
  | nil =>
    rw [standsAlone, Bool.and_eq_true, Bool.not_eq_true', List.isEmpty_iff]
    constructor
    · rintro ⟨rfl, hprevious⟩
      exact ⟨[], [], rfl, hprevious, rfl⟩
    · rintro ⟨before, after, hcs, hbefore, -⟩
      obtain ⟨rfl, hrest⟩ := List.append_eq_nil_iff.1 hcs.symm
      exact ⟨(List.append_eq_nil_iff.1 hrest).1, hbefore⟩
  | cons c cs ih =>
    rw [standsAlone, Bool.or_eq_true, ih, Bool.and_eq_true, Bool.and_eq_true, Bool.not_eq_true',
      Bool.not_eq_true', List.isPrefixOf_iff_prefix]
    constructor
    · rintro (⟨⟨⟨after, hafter⟩, hprevious⟩, hnext⟩ | hlater)
      · rw [← hafter, List.drop_left] at hnext
        exact ⟨[], after, hafter.symm, hprevious, hnext⟩
      · exact hlater.cons
    · exact fun h => h.of_cons.imp_left fun ⟨hword, hprevious, hnext⟩ =>
        ⟨⟨hword, hprevious⟩, hnext⟩

instance (word : List Char) (previous : Option Char) (cs : List Char) :
    Decidable (StandsAlone word previous cs) := decidable_of_iff _ standsAlone_iff

/-- A lexeme mentions a name: it is the name, or a string with holes in which the name stands
as a whole word. -/
def Mentions (l : Lexeme) (name : String) : Prop :=
  l = .name name ∨ l.kind = .interpolated ∧ StandsAlone name.toList none l.text.toList

instance (l : Lexeme) (name : String) : Decidable (Mentions l name) :=
  inferInstanceAs (Decidable (_ ∨ _))

theorem mentionsLocal_iff {l : Lexeme} {name : String} (hname : Name.isIdentifier name = true) :
    mentionsLocal l name = true ↔ Mentions l name := by
  have hword : l.isWord name = true ↔ l = .name name := by
    obtain ⟨kind, text⟩ := l
    simp [Lexeme.isWord, Lexeme.name]
  rw [mentionsLocal, Mentions, Bool.or_eq_true, Bool.and_eq_true, hword, beq_iff_eq,
    mentions_iff hname]

/-! ### Types of locals -/

/-- What stands between the angles of type arguments: angles are balanced in it, and nothing
ends a statement or starts a value. -/
inductive ArgumentList : List Lexeme → Prop
  | nil : ArgumentList []
  | plain {l : Lexeme} {ls : List Lexeme}
      (h : l.isOneOf ["<", ">", ";", "\x7b", "\x7d", "="] = false) :
      ArgumentList ls → ArgumentList (l :: ls)
  | nested {ms ls : List Lexeme} :
      ArgumentList ms → ArgumentList ls → ArgumentList (angles ms ++ ls)

/-- How the type of a local starts: with a built-in type, or with names that have a period
between them. -/
inductive TypeStart
  | builtin (word : String) (h : word ∈ builtinTypes ∧ word ≠ "void")
  | path (first : String) (more : List String)

/-- The two signs that can follow the type of a local. -/
inductive TypeSign
  | nullable | array
  deriving DecidableEq, Repr

/-- The type of a local. -/
structure LocalType where
  start : TypeStart
  arguments : Option (List Lexeme)
  signs : List TypeSign

/-- Names after a period each. -/
def qualifiers (names : List String) : List Lexeme := names.flatMap fun n => [mark ".", .name n]

/-- Names with periods between them. -/
def pathSpelling (first : String) (more : List String) : List Lexeme :=
  .name first :: qualifiers more

def TypeStart.spelling : TypeStart → List Lexeme
  | builtin word _ => [.word word]
  | path first more => pathSpelling first more

def TypeSign.spelling : TypeSign → List Lexeme
  | nullable => [mark "?"]
  | array => [mark "[", mark "]"]

namespace LocalType

def spelling (t : LocalType) : List Lexeme :=
  t.start.spelling ++ ((t.arguments.map angles).getD [] ++ t.signs.flatMap (·.spelling))

/-- The type arguments are such, and brackets are balanced in them. -/
def WellFormed (t : LocalType) : Prop := ∀ ms ∈ t.arguments, ArgumentList ms ∧ WellNested ms

/-- Whether a local with the type is seen.  What starts with one of three words may be a
statement of another kind. -/
def isSeen (t : LocalType) : Bool :=
  match t.start with
  | .builtin _ _ => true
  | .path first _ => !(["await", "yield", "nameof"].contains first)

end LocalType

theorem dropQualifiers_qualifiers (names : List String) {rest : List Lexeme}
    (h : rest.head?.any (·.isPunct ".") = false) :
    dropQualifiers (qualifiers names ++ rest) = rest := by
  induction names with
  | nil =>
    cases rest with
    | nil => rfl
    | cons a ls =>
      cases ls with
      | nil => rfl
      | cons b ls =>
        have ha : a.isPunct "." = false := h
        show dropQualifiers (a :: b :: ls) = _
        rw [dropQualifiers, ha, Bool.false_and, if_neg Bool.false_ne_true]
  | cons n names ih => exact ih

theorem dropArguments_append {ms : List Lexeme} (h : ArgumentList ms) {depth : Nat}
    (hd : 1 ≤ depth) (rest : List Lexeme) :
    dropArguments depth (ms ++ rest) = dropArguments depth rest := by
  induction h generalizing depth rest with
  | nil => rfl
  | @plain l ls hl _ ih =>
    have hopen : l.isPunct "<" = false := isPunct_of_isOneOf hl (by decide)
    have hclose : l.isPunct ">" = false := isPunct_of_isOneOf hl (by decide)
    have hstop : l.isOneOf [";", "\x7b", "\x7d", "="] = false := isOneOf_of_subset hl (by decide)
    rw [List.cons_append, dropArguments, hopen, hclose, hstop]
    exact ih hd rest
  | @nested ms ls _ _ ihm ihl =>
    have hopen : ∀ ls, dropArguments depth (mark "<" :: ls) = dropArguments (depth + 1) ls :=
      fun _ => rfl
    have hclose : ∀ ls, dropArguments (depth + 1) (mark ">" :: ls)
        = if depth + 1 ≤ 1 then some ls else dropArguments depth ls := fun _ => rfl
    simp only [angles, List.cons_append, List.append_assoc, List.nil_append]
    rw [hopen, ihm (Nat.le_succ_of_le hd), hclose, if_neg (by omega), ihl hd]

theorem dropArguments?_append {arguments : Option (List Lexeme)}
    (h : ∀ ms ∈ arguments, ArgumentList ms) {rest : List Lexeme}
    (hrest : rest.head?.any (·.isPunct "<") = false) :
    dropArguments? ((arguments.map angles).getD [] ++ rest) = some rest := by
  cases arguments with
  | none =>
    cases rest with
    | nil => rfl
    | cons l ls =>
      have hl : l.isPunct "<" = false := hrest
      show dropArguments? (l :: ls) = _
      rw [dropArguments?, hl, if_neg Bool.false_ne_true]
  | some ms =>
    have hms := dropArguments_append (h ms rfl) (Nat.le_refl 1) (mark ">" :: rest)
    rw [Option.map_some, Option.getD_some, angles, List.cons_append, List.append_assoc]
    exact hms

theorem dropSuffixes_append (signs : List TypeSign) {rest : List Lexeme}
    (h : rest.head?.any (·.isOneOf ["?", "["]) = false) :
    dropSuffixes (signs.flatMap (·.spelling) ++ rest) = rest := by
  induction signs with
  | nil =>
    cases rest with
    | nil => rfl
    | cons a ls =>
      have hnullable : a.isPunct "?" = false := isPunct_of_isOneOf h (by decide)
      have harray : a.isPunct "[" = false := isPunct_of_isOneOf h (by decide)
      cases ls with
      | nil =>
        show dropSuffixes [a] = _
        rw [dropSuffixes, hnullable, if_neg Bool.false_ne_true]
      | cons b ls =>
        show dropSuffixes (a :: b :: ls) = _
        rw [dropSuffixes, hnullable, harray, Bool.false_and, if_neg Bool.false_ne_true,
          if_neg Bool.false_ne_true]
  | cons sign signs ih =>
    have hnullable : ∀ ls, dropSuffixes (mark "?" :: ls) = dropSuffixes ls := fun ls => by
      cases ls <;> rfl
    rw [List.flatMap_cons, List.append_assoc]
    cases sign with
    | nullable => exact (hnullable _).trans ih
    | array => exact ih

/-- No sign of a type that could go on stands in front of a word. -/
theorem head?_of_isWordy {ls : List Lexeme} (h : ls.head?.any isWordy = true) (ps : List String) :
    ls.head?.any (·.isOneOf ps) = false := by
  cases ls with
  | nil => rfl
  | cons l ls => exact isOneOf_of_isWordy h ps

/-- What can follow the first names of a type in it, or stands after it. -/
theorem LocalType.head?_tail (t : LocalType) {rest : List Lexeme}
    (hrest : rest.head?.any isWordy = true) :
    ((t.arguments.map angles).getD [] ++ (t.signs.flatMap (·.spelling) ++ rest)).head?.any
        (·.isPunct ".") = false ∧
      (t.signs.flatMap (·.spelling) ++ rest).head?.any (·.isPunct "<") = false := by
  have hp : ∀ p, rest.head?.any (·.isPunct p) = false := fun p => by
    cases rest with
    | nil => rfl
    | cons l ls => exact isPunct_of_isWordy hrest p
  have hsigns : ∀ p ∈ [".", "<"],
      (t.signs.flatMap (·.spelling) ++ rest).head?.any (·.isPunct p) = false := by
    have each : ∀ p ∈ [".", "<"], (mark "?").isPunct p = false ∧ (mark "[").isPunct p = false := by
      decide
    intro p hmem
    cases t.signs with
    | nil => exact hp p
    | cons sign signs =>
      cases sign with
      | nullable => exact (each p hmem).1
      | array => exact (each p hmem).2
  refine ⟨?_, hsigns "<" (by decide)⟩
  cases t.arguments with
  | none => exact hsigns "." (by decide)
  | some ms => rfl

/-- **The type of a local is dropped** if a local with it is seen. -/
theorem dropLocalType_spelling {t : LocalType} (h : t.WellFormed) {rest : List Lexeme}
    (hrest : rest.head?.any isWordy = true) :
    dropLocalType (t.spelling ++ rest) = if t.isSeen = true then some rest else none := by
  obtain ⟨hperiod, hangle⟩ := t.head?_tail hrest
  have hsuffixes : (dropArguments? ((t.arguments.map angles).getD []
      ++ (t.signs.flatMap (·.spelling) ++ rest))).map dropSuffixes = some rest := by
    rw [dropArguments?_append (fun ms hms => (h ms hms).1) hangle, Option.map_some,
      dropSuffixes_append t.signs (head?_of_isWordy hrest _)]
  rw [LocalType.spelling, List.append_assoc, List.append_assoc]
  generalize (t.arguments.map angles).getD [] ++ (t.signs.flatMap (·.spelling) ++ rest) = ls
    at hperiod hsuffixes ⊢
  unfold LocalType.isSeen
  cases t.start with
  | builtin word hw =>
    have each : ∀ w ∈ builtinTypes, w ≠ "void" → startsLocalType (.word w) = true ∧
        (Lexeme.word w).isName = false := by decide
    obtain ⟨hstarts, hname⟩ := each word hw.1 hw.2
    show dropLocalType (.word word :: ls) = _
    rw [dropLocalType, hstarts, hname]
    exact hsuffixes
  | path first more =>
    have hstarts : startsLocalType (.name first)
        = !(["await", "yield", "nameof"].contains first) := rfl
    show dropLocalType (.name first :: (qualifiers more ++ ls)) = _
    rw [dropLocalType, hstarts, dropQualifiers_qualifiers more hperiod]
    split
    · exact hsuffixes
    · rfl

/-! ### Statements -/

/-- Where the check of locals expects a statement: after one of these. -/
def statementEnds : List String := [";", "\x7b", "\x7d"]

/-- An expression without braces and semicolons. -/
structure Flat (ls : List Lexeme) : Prop where
  nested : WellNested ls
  stays : ∀ l ∈ ls, l.isOneOf statementEnds = false

namespace Flat

variable {ls ms : List Lexeme}

instance (ls : List Lexeme) : Decidable (Flat ls) :=
  decidable_of_iff (WellNested ls ∧ ∀ l ∈ ls, l.isOneOf statementEnds = false)
    ⟨fun h => ⟨h.1, h.2⟩, fun h => ⟨h.nested, h.stays⟩⟩

theorem nil : Flat [] := ⟨.nil, nofun⟩

theorem plain {l : Lexeme} (hl : l.delimiter? = none) (hs : l.isOneOf statementEnds = false)
    (h : Flat ls) : Flat (l :: ls) := ⟨h.nested.plain hl, List.forall_mem_cons.2 ⟨hs, h.stays⟩⟩

theorem wordy {l : Lexeme} (hl : isWordy l = true) (h : Flat ls) : Flat (l :: ls) :=
  h.plain (delimiter?_of_isWordy hl) (isOneOf_of_isWordy hl _)

theorem append (hl : Flat ls) (hm : Flat ms) : Flat (ls ++ ms) where
  nested := hl.nested.append hm.nested
  stays := List.forall_mem_append.2 ⟨hl.stays, hm.stays⟩

theorem paren (h : Flat ms) : Flat (grouped .paren ms) where
  nested := h.nested.bracket .paren
  stays := List.forall_mem_cons.2 ⟨rfl, List.forall_mem_append.2 ⟨h.stays,
    List.forall_mem_singleton.2 rfl⟩⟩

theorem qualifiers (names : List String) : Flat (qualifiers names) := by
  induction names with
  | nil => exact .nil
  | cons n names ih => exact .plain rfl rfl (.wordy rfl ih)

end Flat

theorem ArgumentList.stays {ms : List Lexeme} (h : ArgumentList ms) :
    ∀ l ∈ ms, l.isOneOf statementEnds = false := by
  induction h with
  | nil => exact nofun
  | plain hl _ ih => exact List.forall_mem_cons.2 ⟨isOneOf_of_subset hl (by decide), ih⟩
  | nested _ _ ihm ihl =>
    exact List.forall_mem_append.2 ⟨List.forall_mem_cons.2 ⟨rfl, List.forall_mem_append.2 ⟨ihm,
      List.forall_mem_singleton.2 rfl⟩⟩, ihl⟩

theorem LocalType.flat {t : LocalType} (h : t.WellFormed) : Flat t.spelling := by
  have hstart : Flat t.start.spelling := by
    cases t.start with
    | builtin word _ => exact .wordy (isWordy_word word) .nil
    | path first more => exact .wordy rfl (.qualifiers more)
  have harguments : Flat ((t.arguments.map angles).getD []) := by
    cases ha : t.arguments with
    | none => exact .nil
    | some ms =>
      obtain ⟨hms, hnested⟩ := h ms ha
      have hstays := (ArgumentList.nested hms .nil).stays
      rw [List.append_nil] at hstays
      exact ⟨hnested.angles, hstays⟩
  have hsigns : Flat (t.signs.flatMap (·.spelling)) := by
    induction t.signs with
    | nil => exact .nil
    | cons sign signs ih =>
      cases sign with
      | nullable => exact .plain rfl rfl ih
      | array => exact .append ⟨.bracket .square .nil, by decide⟩ ih
  exact hstart.append (harguments.append hsigns)

/-- A statement of a straight-line body. -/
inductive SimpleStatement
  /-- `T x;` or, with a value, `T x = E;`. -/
  | declaration (type : LocalType) (name : String) (value : Option (List Lexeme))
  /-- `y = E;`, where `y` may be a path. -/
  | assignment (first : String) (more : List String) (value : List Lexeme)
  /-- `f(E, …);`, where `f` may be a path; the arguments are given with their commas. -/
  | call (first : String) (more : List String) (arguments : List Lexeme)

/-- How a local with a value, or without, starts. -/
def startOf : Option (List Lexeme) → LocalStart
  | none => .none
  | some [v] => if isLiteral v then .constant else .computed
  | some _ => .computed

namespace SimpleStatement

/-- The lexemes of a statement before its semicolon. -/
def inside : SimpleStatement → List Lexeme
  | declaration type name value =>
    type.spelling ++ .name name :: (value.map (mark "=" :: ·)).getD []
  | assignment first more value => pathSpelling first more ++ mark "=" :: value
  | call first more arguments => pathSpelling first more ++ grouped .paren arguments

def spelling (s : SimpleStatement) : List Lexeme := s.inside ++ [mark ";"]

/-- The parts of the statement are what they stand for. -/
def WellFormed : SimpleStatement → Prop
  | declaration type _ value => type.WellFormed ∧ ∀ v ∈ value, Flat v
  | assignment _ _ value => Flat value
  | call _ _ arguments => Flat arguments

/-- The local that a statement declares, where it is seen: how many lexemes stand before its
name, the name, and how it starts. -/
def declared? : SimpleStatement → Option (Nat × String × LocalStart)
  | declaration type name value =>
    if type.isSeen then some (type.spelling.length, name, startOf value) else none
  | assignment _ _ _ | call _ _ _ => none

end SimpleStatement

namespace SimpleStatement

variable {s : SimpleStatement}

/-! ### What is read of a statement -/

/-- After its name a local starts as its value does. -/
theorem localStart?_value {value : Option (List Lexeme)} (h : ∀ v ∈ value, Flat v)
    (rest : List Lexeme) :
    localStart? ((value.map (mark "=" :: ·)).getD [] ++ mark ";" :: rest)
      = some (startOf value) := by
  have hassigned : ∀ v ls, localStart? (mark "=" :: v :: ls)
      = some (if isLiteral v && ls.head?.any (·.isPunct ";") then .constant else .computed) :=
    fun _ _ => rfl
  cases value with
  | none => rfl
  | some ls =>
    cases ls with
    | nil => rfl
    | cons v vs =>
      rw [Option.map_some, Option.getD_some, List.cons_append, List.cons_append, hassigned]
      cases vs with
      | nil => simp [startOf, mark, Lexeme.isPunct]
      | cons w vs =>
        have hw : w.isPunct ";" = false :=
          isPunct_of_isOneOf ((h _ rfl).stays w (by simp)) (by decide)
        rw [List.cons_append, List.head?_cons, Option.any_some, hw, Bool.and_false]
        rfl

/-- A path declares nothing in front of `=` and of a parenthesis. -/
theorem localDeclaration?_path (first : String) (more : List String) {p : String}
    (hp : p ∈ ["=", "("]) (rest : List Lexeme) :
    localDeclaration? (pathSpelling first more ++ mark p :: rest) = none := by
  have each : ∀ p ∈ ["=", "("], (mark p).isPunct "." = false ∧ (mark p).isPunct "<" = false ∧
      (mark p).isOneOf ["?", "["] = false ∧ (mark p).isName = false := by decide
  obtain ⟨hperiod, hangle, hsign, hname⟩ := each p hp
  have hqualifiers : dropQualifiers (qualifiers more ++ mark p :: rest) = mark p :: rest :=
    dropQualifiers_qualifiers more hperiod
  have hnone : ∀ ls ∈ (none : Option (List Lexeme)), ArgumentList ls := nofun
  have harguments : dropArguments? (mark p :: rest) = some (mark p :: rest) :=
    dropArguments?_append hnone hangle
  have hsuffixes : dropSuffixes (mark p :: rest) = mark p :: rest := dropSuffixes_append [] hsign
  have hdrop : dropLocalType (pathSpelling first more ++ mark p :: rest)
      = if startsLocalType (.name first) then some (mark p :: rest) else none := by
    show dropLocalType (.name first :: (qualifiers more ++ mark p :: rest)) = _
    rw [dropLocalType, show (Lexeme.name first).isName = true from rfl, if_pos rfl, hqualifiers,
      harguments, Option.map_some, hsuffixes]
  rw [localDeclaration?, hdrop]
  split
  · simp [hname]
  · rfl

/-- **What is read at the start of a statement** is the local that it declares. -/
theorem localDeclaration?_spelling (h : s.WellFormed) (rest : List Lexeme) :
    localDeclaration? (s.inside ++ mark ";" :: rest) = s.declared? := by
  cases s with
  | declaration type name value =>
    have hwordy : (.name name :: ((value.map (mark "=" :: ·)).getD [] ++ mark ";" :: rest)
        : List Lexeme).head?.any isWordy = true := rfl
    have hdrop := dropLocalType_spelling h.1 hwordy
    have hlength : (type.spelling ++ .name name
        :: ((value.map (mark "=" :: ·)).getD [] ++ mark ";" :: rest)).length
        - (Lexeme.name name :: ((value.map (mark "=" :: ·)).getD [] ++ mark ";" :: rest)).length
        = type.spelling.length := by
      rw [List.length_append, Nat.add_sub_cancel]
    rw [inside, declared?, List.append_assoc, List.cons_append, localDeclaration?, hdrop]
    split
    · simp only [Option.bind_eq_bind, Option.bind_some, localStart?_value h.2, hlength]
      rfl
    · rfl
  | assignment first more value =>
    have hpath := localDeclaration?_path first more (p := "=") (by decide)
      (value ++ mark ";" :: rest)
    rw [inside, List.append_assoc, List.cons_append, hpath]
    rfl
  | call first more arguments =>
    have hpath := localDeclaration?_path first more (p := "(") (by decide)
      (arguments ++ mark ")" :: mark ";" :: rest)
    rw [inside, grouped_paren, List.append_assoc, List.cons_append, List.append_assoc]
    exact hpath

/-! ### The check of a body -/

/-- The lexemes of a statement stay within it. -/
theorem flat_inside (h : s.WellFormed) : Flat s.inside := by
  cases s with
  | declaration type name value =>
    refine (LocalType.flat h.1).append (.wordy rfl ?_)
    cases hv : value with
    | none => exact .nil
    | some v => exact .plain rfl rfl (h.2 v hv)
  | assignment first more value =>
    exact .wordy rfl ((Flat.qualifiers more).append (.plain rfl rfl h))
  | call first more arguments => exact .wordy rfl ((Flat.qualifiers more).append (Flat.paren h))

theorem inside_ne_nil (s : SimpleStatement) : s.inside ≠ [] := by
  cases s <;> simp [inside, pathSpelling]

end SimpleStatement

/-- Nothing is found within a statement, up to its semicolon. -/
theorem checkLocalsFrom_stays {ls : List Lexeme} (h : ∀ l ∈ ls, l.isOneOf statementEnds = false)
    (body : List Lexeme) (index place : Nat) (rest : List Lexeme) :
    checkLocalsFrom body index place false (ls ++ mark ";" :: rest)
      = checkLocalsFrom body index (place + ls.length + 1) true rest := by
  induction ls generalizing place with
  | nil => rfl
  | cons l ls ih =>
    obtain ⟨hl, hls⟩ := List.forall_mem_cons.1 h
    have hend : l.isOneOf [";", "\x7b", "\x7d"] = false := hl
    have hplace : place + (l :: ls).length + 1 = place + 1 + ls.length + 1 := by
      rw [List.length_cons]
      omega
    rw [List.cons_append, checkLocalsFrom, hend, ih hls, hplace]
    rfl

/-- A local that a body declares. -/
structure Local where
  body : List Lexeme
  /-- The index of the first token of the body. -/
  first : Nat
  /-- The index of the token that is its name. -/
  token : Nat
  name : String
  start : LocalStart

namespace Local

variable {x y : Local} {i : Nat} {ls ms : List Lexeme}

/-- Another lexeme of the body mentions the local. -/
def IsMentioned (x : Local) : Prop := ∃ l ∈ x.body.eraseIdx (x.token - x.first), Mentions l x.name

instance (x : Local) : Decidable x.IsMentioned :=
  inferInstanceAs (Decidable (∃ l ∈ x.body.eraseIdx (x.token - x.first), Mentions l x.name))

/-- What is found of the local: nothing if something mentions it, or if its value takes work to
compute. -/
def finding? (x : Local) : Option Finding :=
  if x.IsMentioned then none else (x.start.cause? x.name).map (⟨·, .whole x.token⟩)

theorem isMentioned_iff (hname : Name.isIdentifier x.name = true) :
    isMentioned x.body (x.token - x.first) x.name = true ↔ x.IsMentioned := by
  rw [isMentioned, ← List.eraseIdx_eq_take_drop_succ, List.any_eq_true]
  exact exists_congr fun l => and_congr_right fun _ => mentionsLocal_iff hname

/-- The name of the local is one of these lexemes, of which the first is the token `i`. -/
def NamedIn (x : Local) (i : Nat) (ls : List Lexeme) : Prop :=
  ∃ k, x.token = i + k ∧ ls[k]? = some (.name x.name)

theorem NamedIn.left (h : x.NamedIn i ls) (ms : List Lexeme) : x.NamedIn i (ls ++ ms) := by
  obtain ⟨k, hk, hl⟩ := h
  exact ⟨k, hk, by rw [List.getElem?_append_left (List.getElem?_eq_some_iff.1 hl).1, hl]⟩

theorem NamedIn.right (h : x.NamedIn (i + ls.length) ms) : x.NamedIn i (ls ++ ms) := by
  obtain ⟨k, hk, hl⟩ := h
  exact ⟨ls.length + k, by omega, by rw [List.getElem?_append_right (Nat.le_add_right _ _),
    Nat.add_sub_cancel_left, hl]⟩

/-- What is named in earlier lexemes has its name earlier. -/
theorem NamedIn.token_lt (hx : x.NamedIn i ls) (hy : y.NamedIn (i + ls.length) ms) :
    x.token < y.token := by
  obtain ⟨k, hk, hl⟩ := hx
  obtain ⟨m, hm, -⟩ := hy
  have := (List.getElem?_eq_some_iff.1 hl).1
  omega

end Local

section

variable {α β : Type}

/-- What belongs to items that stand one after the other, of which the first starts at the
token `i`. -/
def gather (spell : α → List Lexeme) (own : Nat → α → List β) (i : Nat) : List α → List β
  | [] => []
  | a :: as => own i a ++ gather spell own (i + (spell a).length) as

variable {spell : α → List Lexeme} {own : Nat → α → List Local} {as : List α}

theorem namedIn_of_mem_gather (h : ∀ i, ∀ a ∈ as, ∀ x ∈ own i a, x.NamedIn i (spell a)) {i : Nat}
    {x : Local} (hx : x ∈ gather spell own i as) : x.NamedIn i (as.flatMap spell) := by
  induction as generalizing i with
  | nil => cases hx
  | cons a as ih =>
    rw [List.flatMap_cons]
    rcases List.mem_append.1 hx with hx | hx
    · exact (h i a List.mem_cons_self x hx).left _
    · exact (ih (fun i b hb => h i b (List.mem_cons_of_mem a hb)) hx).right

theorem filterMap_gather {γ : Type} (f : β → Option γ) (spell : α → List Lexeme)
    (own : Nat → α → List β) (i : Nat) (as : List α) :
    (gather spell own i as).filterMap f
      = gather spell (fun i a => (own i a).filterMap f) i as := by
  induction as generalizing i with
  | nil => rfl
  | cons a as ih => rw [gather, List.filterMap_append, ih, gather]

/-- **Locals are gathered in the order of their names.** -/
theorem pairwise_gather (h : ∀ i, ∀ a ∈ as, ∀ x ∈ own i a, x.NamedIn i (spell a))
    (hp : ∀ i, ∀ a ∈ as, (own i a).Pairwise (·.token < ·.token)) (i : Nat) :
    (gather spell own i as).Pairwise (·.token < ·.token) := by
  induction as generalizing i with
  | nil => exact .nil
  | cons a as ih =>
    have hrest := fun i b hb => h i b (List.mem_cons_of_mem a hb)
    refine List.pairwise_append.2 ⟨hp i a List.mem_cons_self,
      ih hrest (fun i b hb => hp i b (List.mem_cons_of_mem a hb)) _, fun x hx y hy => ?_⟩
    exact (h i a List.mem_cons_self x hx).token_lt (namedIn_of_mem_gather hrest hy)

end

namespace SimpleStatement

variable {s : SimpleStatement}

/-- The local that a statement declares, in a body that starts at the token `first`; the
statement starts at the token `i`. -/
def locals (body : List Lexeme) (first i : Nat) (s : SimpleStatement) : List Local :=
  (s.declared?.map fun (before, name, start) => ⟨body, first, i + before, name, start⟩).toList

theorem namedIn_of_mem_locals {body : List Lexeme} {first i : Nat} {x : Local}
    (hx : x ∈ s.locals body first i) : x.NamedIn i s.spelling := by
  obtain ⟨d, hd, rfl⟩ := Option.map_eq_some_iff.1 (Option.mem_toList.1 hx)
  cases s with
  | declaration type name value =>
    rw [declared?] at hd
    split at hd
    · obtain rfl := Option.some.inj hd
      refine ⟨type.spelling.length, rfl, ?_⟩
      rw [spelling, inside, List.append_assoc, List.getElem?_append_right (Nat.le_refl _),
        Nat.sub_self]
      rfl
    · cases hd
  | assignment | call => cases hd

theorem pairwise_locals (body : List Lexeme) (first i : Nat) (s : SimpleStatement) :
    (s.locals body first i).Pairwise (·.token < ·.token) := by
  unfold locals
  cases s.declared? with
  | none => exact .nil
  | some d => exact List.pairwise_singleton _ _

/-- What is found of the local that a statement declares. -/
theorem filterMap_locals {body : List Lexeme} {index place : Nat}
    (hname : ∀ x ∈ s.locals body index (index + place), Name.isIdentifier x.name = true) :
    (match s.declared? with
      | some (before, name, start) =>
        if isMentioned body (place + before) name then []
        else ((start.cause? name).map fun cause =>
          Finding.mk cause (.whole (index + place + before))).toList
      | none => [])
      = (s.locals body index (index + place)).filterMap (·.finding?) := by
  unfold locals at hname ⊢
  cases hd : s.declared? with
  | none => rfl
  | some d =>
    obtain ⟨before, name, start⟩ := d
    rw [hd] at hname
    have hiff := Local.isMentioned_iff
      (hname ⟨body, index, index + place + before, name, start⟩ List.mem_cons_self)
    dsimp only at hiff
    rw [Nat.add_assoc index, Nat.add_sub_cancel_left, ← Nat.add_assoc] at hiff
    rw [Option.map_some, Option.toList_some]
    dsimp only
    by_cases hm : isMentioned body (place + before) name = true
    · simp [Local.finding?, hm, hiff.1 hm]
    · cases hc : start.cause? name <;> simp [Local.finding?, hm, mt hiff.2 hm, hc]

/-- **A statement is checked** for the local that it declares, and then what follows it. -/
theorem checkLocalsFrom_spelling (h : s.WellFormed) {body : List Lexeme} {index place : Nat}
    (hname : ∀ x ∈ s.locals body index (index + place), Name.isIdentifier x.name = true)
    (rest : List Lexeme) :
    checkLocalsFrom body index place true (s.spelling ++ rest)
      = (s.locals body index (index + place)).filterMap (·.finding?)
        ++ checkLocalsFrom body index (place + s.spelling.length) true rest := by
  have hread := localDeclaration?_spelling h rest
  have hflat := (flat_inside h).stays
  rw [← filterMap_locals hname, spelling, List.append_assoc, List.length_append,
    List.singleton_append, List.length_singleton]
  cases hi : s.inside with
  | nil => exact absurd hi s.inside_ne_nil
  | cons l ls =>
    rw [hi] at hread hflat
    obtain ⟨hl, hls⟩ := List.forall_mem_cons.1 hflat
    have hend : l.isOneOf [";", "\x7b", "\x7d"] = false := hl
    have hplace : place + ((l :: ls).length + 1) = place + 1 + ls.length + 1 := by
      rw [List.length_cons]
      omega
    rw [List.cons_append] at hread ⊢
    rw [checkLocalsFrom, hread, hend, checkLocalsFrom_stays hls, hplace]
    rfl

end SimpleStatement

/-- The lexemes of a straight-line body. -/
def bodySpelling (ss : List SimpleStatement) : List Lexeme := ss.flatMap (·.spelling)

/-- The locals of a straight-line body that starts at the token `first`. -/
def bodyLocals (first : Nat) (ss : List SimpleStatement) : List Local :=
  gather (·.spelling) (SimpleStatement.locals (bodySpelling ss) first) first ss

section

variable {ss : List SimpleStatement} {first : Nat}

theorem namedIn_of_mem_bodyLocals {x : Local} (hx : x ∈ bodyLocals first ss) :
    x.NamedIn first (bodySpelling ss) :=
  namedIn_of_mem_gather (fun _ _ _ _ hx => SimpleStatement.namedIn_of_mem_locals hx) hx

theorem pairwise_bodyLocals (first : Nat) (ss : List SimpleStatement) :
    (bodyLocals first ss).Pairwise (·.token < ·.token) :=
  pairwise_gather (fun _ _ _ _ hx => SimpleStatement.namedIn_of_mem_locals hx)
    (fun i s _ => SimpleStatement.pairwise_locals _ _ i s) first

theorem checkLocalsFrom_statements (h : ∀ s ∈ ss, s.WellFormed) {body : List Lexeme} {place : Nat}
    (hname : ∀ x ∈ gather (·.spelling) (SimpleStatement.locals body first) (first + place) ss,
      Name.isIdentifier x.name = true) :
    checkLocalsFrom body first place true (bodySpelling ss)
      = (gather (·.spelling) (SimpleStatement.locals body first) (first + place) ss).filterMap
          (·.finding?) := by
  induction ss generalizing place with
  | nil => rfl
  | cons s ss ih =>
    obtain ⟨hs, hss⟩ := List.forall_mem_cons.1 h
    rw [gather] at hname ⊢
    obtain ⟨hone, hmore⟩ := List.forall_mem_append.1 hname
    rw [Nat.add_assoc] at hmore ⊢
    rw [bodySpelling, List.flatMap_cons, SimpleStatement.checkLocalsFrom_spelling hs hone,
      List.filterMap_append, ← ih hss hmore]
    rfl

/-- **A straight-line body is checked** statement by statement: what is found are the locals that
its statements declare and that nothing mentions. -/
theorem checkLocals_bodySpelling (h : ∀ s ∈ ss, s.WellFormed)
    (hname : ∀ x ∈ bodyLocals first ss, Name.isIdentifier x.name = true) :
    checkLocals first (bodySpelling ss) = (bodyLocals first ss).filterMap (·.finding?) :=
  checkLocalsFrom_statements h hname

end

theorem wellNested_bodySpelling {ss : List SimpleStatement} (h : ∀ s ∈ ss, s.WellFormed) :
    WellNested (bodySpelling ss) :=
  .flatMap fun s hs => (SimpleStatement.flat_inside (h s hs)).nested.append (.plain rfl .nil)

end Parser
end Outline
