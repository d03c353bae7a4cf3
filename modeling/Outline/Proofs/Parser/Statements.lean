/-
# Statements are accepted

What stands in the braces of a body, as a grammar over lexemes:

| part | lexemes |
| --- | --- |
| `code` | groups, braces of items, lambdas with a block, and other lexemes |
| `head` | code with semicolons between |
| `items` | code and braces of items, with commas between |
| `statements` | code before a semicolon, and blocks alone or after their word or head |

The check of a block tells the braces of statements from those of items by the lexeme
before and by the brackets that are open.  A part leaves the open brackets as they were
(`Phrase.passed`), so braces are told apart rightly after it, and no semicolon is missing
in statements (`Phrase.checkStatements_eq_nil`).
-/

import Mathlib.Data.List.Induction
import Outline.Proofs.Parser.Bodies

namespace Outline
namespace Parser

open Lexeme (mark)

/-! ### The grammar -/

/-- The parts of a body. -/
inductive CodePart
  | code | head | items | statements
  deriving DecidableEq, Repr

/-- A lexeme of code by itself: no bracket, no semicolon, and no word before a block or the
head of a block. -/
def standsInCode (l : Lexeme) : Bool :=
  l.delimiter?.isNone && !l.isOneOf [";"] && !l.isKeywordOf (controlWords ++ blockWords)
    && !l.isWord "when"

/-- A lexeme after which braces open items. -/
def opensItems (l : Lexeme) : Bool := l.isName || l.isOneOf [">", ")", "]", "="]

/-- The lexemes of a part of a body. -/
inductive Phrase : CodePart → List Lexeme → Prop
  | empty : Phrase .code []
  -- Code grows at its end, since braces are told apart by the lexeme before them.
  | plain {ls : List Lexeme} {l : Lexeme} (hl : standsInCode l = true) :
      Phrase .code ls → Phrase .code (ls ++ [l])
  | group {b : Bracket} {ls ms : List Lexeme} (hb : b ≠ .brace) :
      Phrase .code ls → Phrase .code ms → Phrase .code (ls ++ grouped b ms)
  | braces {ls ms : List Lexeme} (hl : ls.getLast?.any opensItems = true) :
      Phrase .code ls → Phrase .items ms → Phrase .code (ls ++ grouped .brace ms)
  | lambda {ls ms : List Lexeme} :
      Phrase .code ls → Phrase .statements ms →
        Phrase .code (ls ++ mark "=>" :: grouped .brace ms)
  | alone {ls : List Lexeme} : Phrase .code ls → Phrase .head ls
  | semicolon {ls ms : List Lexeme} :
      Phrase .code ls → Phrase .head ms → Phrase .head (ls ++ mark ";" :: ms)
  | item {ls : List Lexeme} : Phrase .code ls → Phrase .items ls
  | nested {ms : List Lexeme} : Phrase .items ms → Phrase .items (grouped .brace ms)
  | comma {ls ms : List Lexeme} :
      Phrase .items ls → Phrase .items ms → Phrase .items (ls ++ mark "," :: ms)
  | done : Phrase .statements []
  | simple {ls ss : List Lexeme} :
      Phrase .code ls → Phrase .statements ss → Phrase .statements (ls ++ mark ";" :: ss)
  | block {ms ss : List Lexeme} :
      Phrase .statements ms → Phrase .statements ss →
        Phrase .statements (grouped .brace ms ++ ss)
  | controlled {k : String} {ps ms ss : List Lexeme} (hk : k ∈ controlWords) :
      Phrase .head ps → Phrase .statements ms → Phrase .statements ss →
        Phrase .statements (.word k :: (grouped .paren ps ++ (grouped .brace ms ++ ss)))
  | worded {k : String} {ms ss : List Lexeme} (hk : k ∈ blockWords) :
      Phrase .statements ms → Phrase .statements ss →
        Phrase .statements (.word k :: (grouped .brace ms ++ ss))

/-- What is no bracket is not this one. -/
theorem isPunct_of_plain {l : Lexeme} (h : l.delimiter? = none) {p : String}
    (hp : p ∈ bracketTexts) : l.isPunct p = false :=
  isPunct_of_isOneOf (isOneOf_of_plain h (by decide)) hp

theorem standsInCode_iff {l : Lexeme} : standsInCode l = true ↔
    l.delimiter? = none ∧ l.isOneOf [";"] = false ∧
      l.isKeywordOf (controlWords ++ blockWords) = false ∧ l.isWord "when" = false := by
  simp [standsInCode, and_assoc]

theorem Phrase.wellNested {part : CodePart} {ls : List Lexeme} (h : Phrase part ls) :
    WellNested ls := by
  induction h with
  | empty | done => exact .nil
  | plain hl _ ih => exact ih.append (.plain (standsInCode_iff.1 hl).1 .nil)
  | group _ _ _ ih ih' | braces _ _ _ ih ih' => exact ih.append (ih'.bracket _)
  | lambda _ _ ih ih' => exact ih.append ((ih'.bracket .brace).plain rfl)
  | alone _ ih | item _ ih => exact ih
  | semicolon _ _ ih ih' | comma _ _ ih ih' | simple _ _ ih ih' => exact ih.append (ih'.plain rfl)
  | nested _ ih => exact ih.bracket .brace
  | block _ _ ih ih' => exact (ih.bracket .brace).append ih'
  | controlled _ _ _ _ ihp ih ih' =>
    have hblock := (ih.bracket .brace).append ih'
    exact .plain (delimiter?_of_isWordy (isWordy_word _)) ((ihp.bracket .paren).append hblock)
  | worded _ _ _ ih ih' =>
    exact .plain (delimiter?_of_isWordy (isWordy_word _)) ((ih.bracket .brace).append ih')

/-- Code without brackets. -/
theorem Phrase.plains (ls : List Lexeme) (h : ∀ l ∈ ls, standsInCode l = true) :
    Phrase .code ls := by
  induction ls using List.reverseRecOn with
  | nil => exact .empty
  | append_singleton ls l ih =>
    obtain ⟨hls, hl⟩ := List.forall_mem_append.1 h
    exact .plain (hl l List.mem_cons_self) (ih hls)

/-- Code is an expression in front of a semicolon. -/
theorem Phrase.expression {ls : List Lexeme} (h : Phrase .code ls) : Expression [";"] ls := by
  generalize hpart : CodePart.code = part at h
  induction h with
  | empty => exact .nil
  | plain hl _ ih =>
    obtain ⟨hd, hs, -⟩ := standsInCode_iff.1 hl
    exact (ih rfl).append (.plain hd hs .nil)
  | @group b _ _ _ _ hms ih _ =>
    have hb : delimiterText (.opening b) ∉ [";"] := by cases b <;> decide
    exact (ih rfl).append (.bracket hb hms.wellNested)
  | braces _ _ hms ih _ => exact (ih rfl).append (.bracket (by decide) hms.wellNested)
  | lambda _ hms ih _ =>
    exact (ih rfl).append (.plain rfl rfl (.bracket (by decide) hms.wellNested))
  | _ => cases hpart

/-! ### Steps of the check -/

namespace StatementState

variable {s t u : StatementState} {l : Lexeme} {ls ms : List Lexeme}

/-- From one state to another through lexemes before none of which a semicolon is
missing. -/
inductive Reaches : StatementState → List Lexeme → StatementState → Prop
  | here (s : StatementState) : Reaches s [] s
  | next {s t : StatementState} {l : Lexeme} {ls : List Lexeme}
      (h : s.missesSemicolon l = false) : Reaches (s.step l) ls t → Reaches s (l :: ls) t

theorem Reaches.append (h : Reaches s ls t) (k : Reaches t ms u) : Reaches s (ls ++ ms) u := by
  induction h with
  | here => exact k
  | next h _ ih => exact .next h (ih k)

theorem Reaches.found (h : Reaches s ls t) (i : Nat) : checkStatementsFrom s i ls = [] := by
  induction h generalizing i with
  | here => rfl
  | next h _ ih =>
    rw [checkStatementsFrom, ih, h]
    rfl

/-- Through lexemes that leave the open brackets as they were. -/
structure Passes (s : StatementState) (ls : List Lexeme) (t : StatementState) : Prop where
  reaches : Reaches s ls t
  braces : t.braces = s.braces
  parens : t.parens = s.parens

namespace Passes

theorem nil (s : StatementState) : s.Passes [] s := ⟨.here s, rfl, rfl⟩

theorem append (h : s.Passes ls t) (k : t.Passes ms u) : s.Passes (ls ++ ms) u :=
  ⟨h.reaches.append k.reaches, k.braces.trans h.braces, k.parens.trans h.parens⟩

end Passes

theorem step_plain (h : l.delimiter? = none) (s : StatementState) :
    s.step l = { s with previous := some l } := by
  rw [step, h]

/-- Only before a closing brace a semicolon can be missing. -/
theorem missesSemicolon_of_ne (h : l.isPunct "\x7d" = false) (s : StatementState) :
    s.missesSemicolon l = false := by
  rw [missesSemicolon, h]
  rfl

/-- A lexeme that is no bracket is passed. -/
theorem passes_plain (h : l.delimiter? = none) (s : StatementState) :
    s.Passes [l] { s with previous := some l } := by
  have hclose : l.isPunct "\x7d" = false := isPunct_of_plain h (by decide)
  exact ⟨.next (missesSemicolon_of_ne hclose s) (step_plain h s ▸ .here _), rfl, rfl⟩

/-- A group is passed if what stands in it is. -/
theorem Passes.grouped (b : Bracket) (h : (s.step (mark (delimiterText (.opening b)))).Passes ms t)
    (hc : t.missesSemicolon (mark b.closer) = false) :
    s.Passes (grouped b ms) (t.step (mark b.closer)) := by
  have hopen : s.missesSemicolon (mark (delimiterText (.opening b))) = false :=
    missesSemicolon_of_ne (by cases b <;> rfl) s
  have hparens := h.parens
  have hbraces := h.braces
  refine ⟨.next hopen (h.reaches.append (.next hc (.here _))), ?_, ?_⟩
  · cases b with
    | paren | square => exact hbraces
    | brace =>
      show t.braces.tail = s.braces
      rw [hbraces]
      rfl
  · cases b with
    | square | brace => exact hparens
    | paren =>
      show t.parens.tail = s.parens
      rw [hparens]
      rfl

/-- A statement may start or end here. -/
def AtEdge (s : StatementState) : Prop := ∃ l, s.previous = some l ∧ isStatementEdge l = true

theorem AtEdge.missesSemicolon (h : s.AtEdge) (l : Lexeme) : s.missesSemicolon l = false := by
  obtain ⟨p, hp, he⟩ := h
  simp [StatementState.missesSemicolon, isOpen, hp, he]

theorem AtEdge.opensControl (h : s.AtEdge) : s.opensControl = false := by
  obtain ⟨p, hp, he⟩ := h
  rw [isStatementEdge, Lexeme.isOneOf, Bool.and_eq_true, beq_iff_eq] at he
  simp [StatementState.opensControl, hp, Lexeme.isKeywordOf, Lexeme.isWord, he.1]

theorem AtEdge.opensStatements (h : s.AtEdge) (hb : s.braces.head? = some true) :
    s.opensStatements = true := by
  obtain ⟨p, hp, he⟩ := h
  simp [StatementState.opensStatements, hp, hb, he]

/-- No control word and no `when` opens a group after such a lexeme. -/
theorem opensControl_of_standsInCode (hp : s.previous = some l) (h : standsInCode l = true) :
    s.opensControl = false := by
  obtain ⟨-, -, hk, hw⟩ := standsInCode_iff.1 h
  have hcontrol : l.isKeywordOf controlWords = false := by
    rw [Bool.eq_false_iff]
    intro hl
    rw [Lexeme.isKeywordOf, Bool.and_eq_true, List.contains_iff_mem] at hl
    simp [Lexeme.isKeywordOf, hl.1, hl.2] at hk
  simp [opensControl, hp, hcontrol, hw]

/-- Braces open items after such a lexeme, unless it closes a head. -/
theorem opensStatements_of_opensItems (hp : s.previous = some l) (h : opensItems l = true)
    (hc : l.isPunct ")" = true → s.afterControl = false) : s.opensStatements = false := by
  rw [opensItems, Bool.or_eq_true, Lexeme.isName, beq_iff_eq, Lexeme.isOneOf, Bool.and_eq_true,
    beq_iff_eq, List.contains_iff_mem] at h
  obtain hk | ⟨hk, ht⟩ := h
  · simp [opensStatements, hp, isStatementEdge, Lexeme.isPunct, Lexeme.isKeywordOf,
      Lexeme.isOneOf, hk]
  · simp only [List.mem_cons, List.not_mem_nil, or_false] at ht
    obtain ht | ht | ht | ht := ht <;>
      simp_all [opensStatements, isStatementEdge, Lexeme.isPunct, Lexeme.isKeywordOf,
        Lexeme.isOneOf]

/-- Among items, only heads, arrows and words open statements. -/
theorem opensStatements_of_items {p : String} (hp : s.previous = some (mark p))
    (hm : p ∉ [")", "=>"]) (hb : s.braces.head? = some false) : s.opensStatements = false := by
  simp only [List.mem_cons, List.not_mem_nil, or_false, not_or] at hm
  simp [opensStatements, hp, hb, Lexeme.isPunct, Lexeme.isKeywordOf, mark, hm]

end StatementState

/-! ### Parts are passed -/

/-- Where a part can start. -/
def CodePart.Before : CodePart → StatementState → Prop
  | .code, s | .head, s => s.opensControl = false
  | .items, s =>
    s.opensControl = false ∧ s.opensStatements = false ∧ s.braces.head? = some false
  | .statements, s => s.AtEdge ∧ s.braces.head? = some true

/-- Where a part can end. -/
def CodePart.After : CodePart → List Lexeme → StatementState → Prop
  | .code, ls, s =>
    s.opensControl = false ∧ (ls.getLast?.any opensItems = true → s.opensStatements = false)
  | .head, _, _ | .items, _, _ => True
  | .statements, _, s => s.AtEdge

/-- Wherever the part can start, the lexemes are passed to where it can end. -/
def Passed (part : CodePart) (ls : List Lexeme) : Prop :=
  ∀ s, part.Before s → ∃ t, s.Passes ls t ∧ part.After ls t

namespace Passed

open StatementState

variable {s : StatementState} {ls ms ps : List Lexeme}

theorem empty : Passed .code [] := fun s hs => ⟨s, .nil s, hs, fun h => by cases h⟩

theorem plain {l : Lexeme} (hl : standsInCode l = true) (h : Passed .code ls) :
    Passed .code (ls ++ [l]) := by
  intro s hs
  obtain ⟨t, ht, -⟩ := h s hs
  have hd := (standsInCode_iff.1 hl).1
  refine ⟨_, ht.append (passes_plain hd t), opensControl_of_standsInCode rfl hl, fun hi => ?_⟩
  rw [List.getLast?_concat] at hi
  refine opensStatements_of_opensItems rfl hi fun hp => ?_
  exact absurd hp (Bool.eq_false_iff.1 (isPunct_of_plain hd (by decide)))

/-- Code or a head is passed between parentheses or square brackets. -/
theorem exists_group {b : Bracket} (hb : b ≠ .brace)
    (h : ∀ s : StatementState, s.opensControl = false → ∃ t, s.Passes ms t) (s : StatementState) :
    ∃ t, s.Passes (grouped b ms) t ∧ t.previous = some (mark b.closer) ∧
      (b = .paren → t.afterControl = s.opensControl) := by
  obtain ⟨t, ht⟩ := h (s.step (mark (delimiterText (.opening b)))) (by cases b <;> rfl)
  have hparens := ht.parens
  refine ⟨_, ht.grouped b (missesSemicolon_of_ne (by cases b <;> trivial) t), ?_, ?_⟩
  · cases b <;> rfl
  · rintro rfl
    -- what the opening parenthesis saw before it is still on top of the stack
    show t.parens.head?.getD false = s.opensControl
    rw [hparens]
    rfl

/-- Items are passed between their braces. -/
theorem exists_items (h : Passed .items ms) (hs : s.opensStatements = false) :
    ∃ t, s.Passes (grouped .brace ms) t ∧ t.previous = some (mark "\x7d") := by
  have hbraces : (s.step (mark "\x7b")).braces.head? = some false := by rw [← hs]; rfl
  obtain ⟨t, ht, -⟩ := h (s.step (mark "\x7b"))
    ⟨rfl, opensStatements_of_items rfl (by decide) hbraces, hbraces⟩
  have hclose : t.missesSemicolon (mark "\x7d") = false := by
    rw [missesSemicolon, ht.braces, hbraces]
    rfl
  exact ⟨_, ht.grouped .brace hclose, rfl⟩

/-- Statements are passed between their braces. -/
theorem exists_block (h : Passed .statements ms) (hs : s.opensStatements = true) :
    ∃ t, s.Passes (grouped .brace ms) t ∧ t.previous = some (mark "\x7d") := by
  have hbraces : (s.step (mark "\x7b")).braces.head? = some true := by rw [← hs]; rfl
  obtain ⟨t, ht, he⟩ := h (s.step (mark "\x7b")) ⟨⟨_, rfl, rfl⟩, hbraces⟩
  exact ⟨_, ht.grouped .brace (he.missesSemicolon _), rfl⟩

theorem group {b : Bracket} (hb : b ≠ .brace) (h : Passed .code ls) (hm : Passed .code ms) :
    Passed .code (ls ++ grouped b ms) := by
  intro s hs
  obtain ⟨t, ht, hcontrol, -⟩ := h s hs
  obtain ⟨u, hu, hprevious, hparen⟩ := exists_group hb
    (fun s hs => (hm s hs).imp fun _ h => h.1) t
  refine ⟨u, ht.append hu, ?_, fun hi => ?_⟩
  · rw [opensControl, hprevious]
    cases b <;> rfl
  -- code ends in no control word, so parentheses after it are not the head of a block
  · refine opensStatements_of_opensItems hprevious (by cases b <;> trivial) fun hc => ?_
    cases b with
    | paren => rw [hparen rfl, hcontrol]
    | square => cases hc
    | brace => exact absurd rfl hb

/-- After braces no group is a head, and no braces open items. -/
theorem after_braces {t : StatementState} (ht : t.previous = some (mark "\x7d"))
    (ls : List Lexeme) : CodePart.After .code (ls ++ grouped .brace ms) t := by
  refine ⟨by rw [opensControl, ht]; rfl, fun hi => ?_⟩
  have hlast : (ls ++ grouped .brace ms).getLast? = some (mark "\x7d") := by
    rw [grouped_brace, ← List.cons_append, ← List.append_assoc, List.getLast?_concat]
  rw [hlast] at hi
  cases hi

theorem braces (hl : ls.getLast?.any opensItems = true) (h : Passed .code ls)
    (hm : Passed .items ms) : Passed .code (ls ++ grouped .brace ms) := by
  intro s hs
  obtain ⟨t, ht, -, hitems⟩ := h s hs
  obtain ⟨u, hu, hprevious⟩ := hm.exists_items (hitems hl)
  exact ⟨u, ht.append hu, after_braces hprevious ls⟩

theorem lambda (h : Passed .code ls) (hm : Passed .statements ms) :
    Passed .code (ls ++ mark "=>" :: grouped .brace ms) := by
  intro s hs
  obtain ⟨t, ht, -⟩ := h s hs
  have harrow := passes_plain (l := mark "=>") rfl t
  obtain ⟨u, hu, hprevious⟩ := hm.exists_block (s := { t with previous := some (mark "=>") })
    (by simp [opensStatements, Lexeme.isPunct, mark])
  rw [← List.singleton_append, ← List.append_assoc]
  exact ⟨u, (ht.append harrow).append hu, after_braces hprevious _⟩

theorem semicolon (h : Passed .code ls) (hm : Passed .head ms) :
    Passed .head (ls ++ mark ";" :: ms) := by
  intro s hs
  obtain ⟨t, ht, -⟩ := h s hs
  obtain ⟨u, hu, -⟩ := hm { t with previous := some (mark ";") } rfl
  exact ⟨u, ht.append ((passes_plain rfl t).append hu), trivial⟩

theorem nested (h : Passed .items ms) : Passed .items (grouped .brace ms) := by
  intro s hs
  obtain ⟨t, ht, -⟩ := h.exists_items hs.2.1
  exact ⟨t, ht, trivial⟩

theorem comma (h : Passed .items ls) (hm : Passed .items ms) :
    Passed .items (ls ++ mark "," :: ms) := by
  intro s hs
  obtain ⟨t, ht, -⟩ := h s hs
  have hbraces : t.braces.head? = some false := ht.braces ▸ hs.2.2
  obtain ⟨u, hu, -⟩ := hm { t with previous := some (mark ",") }
    ⟨rfl, opensStatements_of_items rfl (by decide) hbraces, hbraces⟩
  exact ⟨u, ht.append ((passes_plain rfl t).append hu), trivial⟩

/-- Statements go on after an edge. -/
theorem after_edge (hm : Passed .statements ms) {t : StatementState} (h : s.Passes ls t)
    (hs : s.braces.head? = some true) (ht : t.AtEdge) :
    ∃ u, s.Passes (ls ++ ms) u ∧ u.AtEdge := by
  obtain ⟨u, hu, he⟩ := hm t ⟨ht, h.braces ▸ hs⟩
  exact ⟨u, h.append hu, he⟩

theorem simple (h : Passed .code ls) (hm : Passed .statements ms) :
    Passed .statements (ls ++ mark ";" :: ms) := by
  intro s hs
  obtain ⟨t, ht, -⟩ := h s hs.1.opensControl
  have hsemicolon := ht.append (passes_plain (l := mark ";") rfl t)
  rw [← List.singleton_append, ← List.append_assoc]
  exact hm.after_edge hsemicolon hs.2 ⟨_, rfl, rfl⟩

theorem block (h : Passed .statements ls) (hm : Passed .statements ms) :
    Passed .statements (grouped .brace ls ++ ms) := by
  intro s hs
  obtain ⟨t, ht, hprevious⟩ := h.exists_block (hs.1.opensStatements hs.2)
  exact hm.after_edge ht hs.2 ⟨_, hprevious, rfl⟩

/-- A block after a word is passed, and statements go on after it. -/
theorem worded {k : String} (hk : k ∈ blockWords) (h : Passed .statements ls)
    (hm : Passed .statements ms) :
    Passed .statements (.word k :: (grouped .brace ls ++ ms)) := by
  intro s hs
  have opens : ∀ k ∈ blockWords, (Lexeme.word k).isKeywordOf blockWords = true := by decide
  have hword := passes_plain (delimiter?_of_isWordy (isWordy_word k)) s
  obtain ⟨t, ht, hprevious⟩ := h.exists_block (s := { s with previous := some (.word k) })
    (by simp [opensStatements, opens k hk])
  rw [← List.cons_append]
  exact hm.after_edge (hword.append ht) hs.2 ⟨_, hprevious, rfl⟩

/-- A block after a head is passed, and statements go on after it. -/
theorem controlled {k : String} (hk : k ∈ controlWords) (hp : Passed .head ps)
    (h : Passed .statements ls) (hm : Passed .statements ms) :
    Passed .statements (.word k :: (grouped .paren ps ++ (grouped .brace ls ++ ms))) := by
  intro s hs
  have opens : ∀ k ∈ controlWords, (Lexeme.word k).isKeywordOf controlWords = true := by decide
  have hword := passes_plain (delimiter?_of_isWordy (isWordy_word k)) s
  obtain ⟨t, ht, hparen, hafter⟩ := exists_group (b := .paren) (by decide)
    (fun s hs => (hp s hs).imp fun _ h => h.1) { s with previous := some (.word k) }
  have hcontrol : t.afterControl = true := by
    rw [hafter rfl]
    simp [opensControl, opens k hk]
  obtain ⟨u, hu, hprevious⟩ := h.exists_block (s := t)
    (by simp [opensStatements, hparen, hcontrol, Lexeme.isPunct, mark, Bracket.closer])
  rw [← List.append_assoc, ← List.cons_append]
  exact hm.after_edge (hword.append (ht.append hu)) hs.2 ⟨_, hprevious, rfl⟩

end Passed

/-- **A part of a body is passed** wherever it can start. -/
theorem Phrase.passed {part : CodePart} {ls : List Lexeme} (h : Phrase part ls) :
    Passed part ls := by
  -- The open brackets come back by themselves; `Before` and `After` carry what the check
  -- knows of the lexeme before.
  induction h with
  | empty => exact .empty
  | plain hl _ ih => exact ih.plain hl
  | group hb _ _ ih ih' => exact ih.group hb ih'
  | braces hl _ _ ih ih' => exact ih.braces hl ih'
  | lambda _ _ ih ih' => exact ih.lambda ih'
  | alone _ ih => exact fun s hs => (ih s hs).imp fun _ h => ⟨h.1, trivial⟩
  | semicolon _ _ ih ih' => exact ih.semicolon ih'
  | item _ ih => exact fun s hs => (ih s hs.1).imp fun _ h => ⟨h.1, trivial⟩
  | nested _ ih => exact ih.nested
  | comma _ _ ih ih' => exact ih.comma ih'
  | done => exact fun s hs => ⟨s, .nil s, hs.1⟩
  | simple _ _ ih ih' => exact ih.simple ih'
  | block _ _ ih ih' => exact ih.block ih'
  | controlled hk _ _ _ ihp ih ih' => exact ihp.controlled hk ih ih'
  | worded hk _ _ ih ih' => exact ih.worded hk ih'

/-- **No semicolon is missing** in a block of statements. -/
theorem Phrase.checkStatements_eq_nil {ms : List Lexeme} (h : Phrase .statements ms) (i : Nat) :
    checkStatements i (grouped .brace ms) = [] := by
  obtain ⟨t, ht, -⟩ := h.passed.exists_block (s := {}) rfl
  exact ht.reaches.found i

/-- **Lines of statements can be the body of a member.** -/
theorem Phrase.isBody {lines : List String} (h : Phrase .statements (lines.flatMap lexemes))
    (hl : ∀ s ∈ lines, Layout.Line s) : Tree.IsBody lines where
  each := hl
  nested := h.wellNested
  ended := h.checkStatements_eq_nil 0

/-- **A body of statements is accepted.** -/
theorem accepts_statements {ms : List Lexeme} (h : Phrase .statements ms) (i : Nat)
    (after : List Lexeme) : Accepts .harmless body i (grouped .brace ms) after fun _ => True :=
  accepts_block h.wellNested (h.checkStatements_eq_nil 0) i after

end Parser
end Outline
