/-
# Statements without a semicolon

A semicolon that is taken away at the end of a block is missed or not, and nothing else
changes: after the closing brace the check knows the same again.  It misses the semicolon
if the block is one of statements, and the lexeme before it is no edge of statements.

| braces that open statements | before them stands |
| --- | --- |
| of the body | nothing |
| of a lambda | `=>` |
| after a word | `else`, `try`, … |
| after a head | `if`, `when`, … and parentheses |
| of a block by itself | `{` of a block of statements, and statements |

What is well nested leaves every stack of open brackets as it was
(`StatementState.after_stack`), so in a block of statements the braces on top are still
those of the block.
-/

import Outline.Proofs.Parser.Statements

namespace Outline
namespace Parser

open Lexeme (mark)

namespace StatementState

variable {s : StatementState} {ls ms : List Lexeme}

/-! ### What is known after lexemes -/

/-- What is known after lexemes. -/
def after (s : StatementState) (ls : List Lexeme) : StatementState := ls.foldl step s

@[simp] theorem after_nil (s : StatementState) : s.after [] = s := rfl

theorem after_append (s : StatementState) (ls ms : List Lexeme) :
    s.after (ls ++ ms) = (s.after ls).after ms := List.foldl_append

@[simp] theorem after_concat (s : StatementState) (ls : List Lexeme) (l : Lexeme) :
    s.after (ls ++ [l]) = (s.after ls).step l := s.after_append ls [l]

@[simp] theorem step_previous (s : StatementState) (l : Lexeme) :
    (s.step l).previous = some l := rfl

theorem after_previous (s : StatementState) (ls : List Lexeme) :
    (s.after ls).previous = ls.getLast?.or s.previous := by
  induction ls using List.reverseRecOn with
  | nil => rfl
  | append_singleton ls l _ =>
    rw [after_concat, step_previous, List.getLast?_concat, Option.some_or]

/-! ### Stacks of open brackets -/

/-- What is kept of the open brackets of a shape. -/
def stack (b : Bracket) (s : StatementState) : List Bool :=
  match b with
  | .paren => s.parens
  | .square => []
  | .brace => s.braces

/-- A bracket that opens adds to the stack of its shape and to no other. -/
theorem stack_opening {l : Lexeme} {b : Bracket} (h : l.delimiter? = some (.opening b))
    (s : StatementState) (opened : List Bracket) (a : Bracket) :
    ((s.step l).stack a).drop ((b :: opened).count a) = (s.stack a).drop (opened.count a) := by
  rw [step, h]
  cases a <;> cases b <;> simp [stack]

/-- A bracket that closes takes from the stack of its shape and from no other. -/
theorem stack_closing {l : Lexeme} {b : Bracket} (h : l.delimiter? = some (.closing b))
    (s : StatementState) (opened : List Bracket) (a : Bracket) :
    ((s.step l).stack a).drop (opened.count a) = (s.stack a).drop ((b :: opened).count a) := by
  rw [step, h]
  cases a <;> cases b <;> simp [stack]

/-- The stacks agree below the brackets that are open before and after. -/
theorem stack_nested {opened last : List Bracket} (h : nested opened ls = some last)
    (s : StatementState) (a : Bracket) :
    ((s.after ls).stack a).drop (last.count a) = (s.stack a).drop (opened.count a) := by
  induction ls generalizing opened s with
  | nil =>
    rw [nested, Option.some.injEq] at h
    rw [h, after_nil]
  | cons l ls ih =>
    show (((s.step l).after ls).stack a).drop _ = _
    rw [nested] at h
    cases hl : l.delimiter? with
    | none =>
      rw [hl] at h
      rw [ih h, step_plain hl]
      cases a <;> rfl
    | some d =>
      rw [hl] at h
      cases d with
      | opening b => rw [ih h, stack_opening hl]
      | closing b =>
        cases opened with
        | nil => cases h
        | cons o opened =>
          dsimp only at h
          split at h
          · rename_i hob
            subst hob
            rw [ih h, stack_closing hl]
          · cases h

/-- **What is well nested leaves the open brackets as they were.** -/
theorem after_stack (h : WellNested ls) (s : StatementState) (a : Bracket) :
    (s.after ls).stack a = s.stack a := by
  simpa using stack_nested h s a

theorem after_braces (h : WellNested ls) (s : StatementState) :
    (s.after ls).braces = s.braces := after_stack h s .brace

/-- A group in parentheses is a head if a control word stands before it. -/
theorem afterControl_grouped (h : WellNested ms) (s : StatementState) :
    (s.after (grouped .paren ms)).afterControl = s.opensControl := by
  have hstack := after_stack h (s.step (mark "(")) .paren
  have hgroup : s.after (grouped .paren ms) = ((s.step (mark "(")).after ms).step (mark ")") :=
    after_concat _ _ _
  rw [hgroup]
  show ((((s.step (mark "(")).after ms).stack .paren).head?).getD false = s.opensControl
  rw [hstack]
  rfl

end StatementState

open StatementState

theorem checkStatementsFrom_append (s : StatementState) (i : Nat) (ls ms : List Lexeme) :
    checkStatementsFrom s i (ls ++ ms)
      = checkStatementsFrom s i ls ++ checkStatementsFrom (s.after ls) (i + ls.length) ms := by
  induction ls generalizing s i with
  | nil => rfl
  | cons l ls ih =>
    rw [List.cons_append, checkStatementsFrom, checkStatementsFrom, ih, List.append_assoc,
      List.length_cons, Nat.add_right_comm, Nat.add_assoc]
    rfl

/-! ### Blocks of statements -/

/-- Well nested lexemes after which a statement can start: none, or an edge is the last. -/
def EndsStatement (ls : List Lexeme) : Prop :=
  WellNested ls ∧ ls.getLast?.all isStatementEdge = true

instance (ls : List Lexeme) : Decidable (EndsStatement ls) :=
  inferInstanceAs (Decidable (_ ∧ _))

/-- What stands in the braces of a body before the statements of one of its blocks. -/
inductive OpensBlock : List Lexeme → Prop
  | body : OpensBlock []
  | lambda (ls : List Lexeme) : OpensBlock (ls ++ [mark "=>"] ++ [mark "\x7b"])
  | word (ls : List Lexeme) {k : String} (hk : k ∈ blockWords) :
      OpensBlock (ls ++ [.word k] ++ [mark "\x7b"])
  | head (ls : List Lexeme) {k : String} {ps : List Lexeme} (hk : k ∈ "when" :: controlWords)
      (hp : WellNested ps) : OpensBlock (ls ++ [.word k] ++ grouped .paren ps ++ [mark "\x7b"])
  | bare {ls ss : List Lexeme} (h : OpensBlock ls) (hs : EndsStatement ss) :
      OpensBlock (ls ++ ss ++ [mark "\x7b"])

/-- What stands in the braces of a body after the statements of one of its blocks: the first
brace closes the block, and the one of the body is still to come. -/
def ClosesBlock (ls : List Lexeme) : Prop :=
  (ls ++ [mark "\x7d"]).head? = some (mark "\x7d")

instance (ls : List Lexeme) : Decidable (ClosesBlock ls) := inferInstanceAs (Decidable (_ = _))

/-- What is known after the brace that opens a body. -/
def inBody : StatementState := StatementState.step {} (mark "\x7b")

/-- A brace is the last lexeme where statements start. -/
theorem OpensBlock.previous {ls : List Lexeme} (h : OpensBlock ls) :
    (inBody.after ls).previous = some (mark "\x7b") := by
  cases h with
  | body => rfl
  | _ => rw [after_concat, step_previous]

/-- **The braces on top are of statements** where a block of statements was opened. -/
theorem OpensBlock.head?_braces {ls : List Lexeme} (h : OpensBlock ls) :
    (inBody.after ls).braces.head? = some true := by
  -- what the check knows before the brace decides; only a block by itself asks the block around
  have opened : ∀ {ms : List Lexeme}, (inBody.after ms).opensStatements = true →
      (inBody.after (ms ++ [mark "\x7b"])).braces.head? = some true := by
    intro ms hms
    rw [after_concat, ← hms]
    rfl
  induction h with
  | body => rfl
  | lambda ls =>
    refine opened ?_
    rw [after_concat, opensStatements, step_previous]
    simp [Lexeme.isPunct, mark]
  | word ls hk =>
    have known : ∀ k ∈ blockWords, (Lexeme.word k).isKeywordOf blockWords = true := by decide
    refine opened ?_
    rw [after_concat, opensStatements, step_previous]
    simp [known _ hk]
  | @head ls k ps hk hp =>
    have known : ∀ k ∈ "when" :: controlWords,
        ((Lexeme.word k).isKeywordOf controlWords || (Lexeme.word k).isWord "when") = true := by
      decide
    have hcontrol : (inBody.after (ls ++ [.word k] ++ grouped .paren ps)).afterControl = true := by
      rw [after_append, afterControl_grouped hp, after_concat, opensControl, step_previous]
      exact known k hk
    have hprevious : (inBody.after (ls ++ [.word k] ++ grouped .paren ps)).previous
        = some (mark ")") := by
      rw [grouped_paren, ← List.cons_append, ← List.append_assoc, after_concat, step_previous]
    refine opened ?_
    rw [opensStatements, hprevious, hcontrol]
    rfl
  | @bare ls ss hls hs ih =>
    obtain ⟨hnested, hedge⟩ := hs
    refine opened ?_
    rw [after_append]
    refine AtEdge.opensStatements ?_ (by rw [after_braces hnested, ih])
    rw [AtEdge, after_previous, hls.previous]
    cases hl : ss.getLast? with
    | none => exact ⟨mark "\x7b", rfl, rfl⟩
    | some l =>
      rw [hl] at hedge
      exact ⟨l, rfl, hedge⟩

/-! ### A semicolon that is taken away -/

/-- A closing brace leads to where it leads after a semicolon. -/
theorem step_close_after_semicolon (s : StatementState) :
    (s.step (mark ";")).step (mark "\x7d") = s.step (mark "\x7d") := rfl

/-- The check of a body goes on through what is in it as from the brace that opens it. -/
theorem checkStatements_body_append (ls ms : List Lexeme) (i : Nat) :
    checkStatements i (grouped .brace (ls ++ ms))
      = checkStatementsFrom inBody (i + 1) ls
        ++ checkStatementsFrom (inBody.after ls) (i + 1 + ls.length) (ms ++ [mark "\x7d"]) := by
  have hopen : checkStatements i (grouped .brace (ls ++ ms))
      = checkStatementsFrom inBody (i + 1) (ls ++ ms ++ [mark "\x7d"]) := rfl
  rw [hopen, List.append_assoc, checkStatementsFrom_append]

/-- **Before the brace that closes a block of statements a semicolon is missed** unless what
stands there is an edge; after the brace nothing changes. -/
theorem checkStatements_unended {opening ss es rest : List Lexeme} (ho : OpensBlock opening)
    (hs : WellNested ss) (he : WellNested es) (hne : es ≠ []) (hr : ClosesBlock rest) (i : Nat) :
    checkStatements i (grouped .brace (opening ++ (ss ++ (es ++ rest)))) = [] ↔
      checkStatements i (grouped .brace (opening ++ (ss ++ (es ++ mark ";" :: rest)))) = [] ∧
        es.getLast?.any isStatementEdge = true := by
  obtain ⟨closing, hclosing⟩ := List.head?_eq_some_iff.1 hr
  let t := inBody.after (opening ++ (ss ++ es))
  have hbraces : t.braces.head? = some true := by
    show (inBody.after (opening ++ (ss ++ es))).braces.head? = some true
    rw [after_append, after_braces (hs.append he), ho.head?_braces]
  have hprevious : t.previous = es.getLast? := by
    obtain ⟨e, he⟩ := Option.ne_none_iff_exists'.1 (mt List.getLast?_eq_none_iff.1 hne)
    show (inBody.after (opening ++ (ss ++ es))).previous = _
    rw [after_previous, ← List.append_assoc, List.getLast?_append, he]
    rfl
  have hmisses : t.missesSemicolon (mark "\x7d") = !es.getLast?.any isStatementEdge := by
    rw [missesSemicolon, hbraces, isOpen, hprevious]
    cases hl : es.getLast? with
    | none => exact absurd (List.getLast?_eq_none_iff.1 hl) hne
    | some l => simp [Lexeme.isPunct, mark]
  have hended : (t.step (mark ";")).missesSemicolon (mark "\x7d") = false :=
    AtEdge.missesSemicolon ⟨mark ";", rfl, rfl⟩ _
  have hsemicolon : t.missesSemicolon (mark ";") = false := missesSemicolon_of_ne rfl t
  have hmoved : ∀ j k, checkStatementsFrom (t.step (mark "\x7d")) j closing = [] ↔
      checkStatementsFrom (t.step (mark "\x7d")) k closing = [] :=
    fun j k => ⟨fun h => checkStatementsFrom_moved _ h k, fun h => checkStatementsFrom_moved _ h j⟩
  have hsplit : ∀ ls, opening ++ (ss ++ (es ++ ls)) = (opening ++ (ss ++ es)) ++ ls := by simp
  rw [hsplit, hsplit, checkStatements_body_append, checkStatements_body_append, List.cons_append,
    hclosing, List.append_eq_nil_iff, List.append_eq_nil_iff, and_assoc]
  refine and_congr_right fun _ => ?_
  rw [checkStatementsFrom, checkStatementsFrom, checkStatementsFrom, hmisses, hended, hsemicolon,
    step_close_after_semicolon]
  cases es.getLast?.any isStatementEdge with
  | true => simpa using hmoved _ _
  | false => simp

end Parser
end Outline
