/-
# Bodies under a renaming

The checks of a block compare lexemes with words of the language, and names with each
other: a local is mentioned by lexemes of its own name.  So the checks find the same, and
the locals that are reported correspond.
-/

import Outline.Parser.Body
import Outline.Proofs.Renaming.Names

namespace Outline
namespace Parser
namespace Renaming

variable {r : Renaming}

/-- Whether there is a lexeme of some kind, in lists that correspond. -/
theorem list_any_eq {ls ms : List Lexeme} (h : List.Forall₂ r.Same ls ms) {p q : Lexeme → Bool}
    (hp : ∀ l m, r.Same l m → p l = q m) : ls.any p = ms.any q := by
  induction h with
  | nil => rfl
  | cons hl _ ih => rw [List.any_cons, List.any_cons, hp _ _ hl, ih]

/-- A value that is looked for in two steps. -/
theorem rel_bind {α β γ δ : Type} {R : α → β → Prop} {S : γ → δ → Prop} {o : Option α}
    {o' : Option β} (h : Option.Rel R o o') {f : α → Option γ} {g : β → Option δ}
    (hf : ∀ a b, R a b → Option.Rel S (f a) (g b)) : Option.Rel S (o.bind f) (o'.bind g) := by
  cases h with
  | none => exact .none
  | some h => exact hf _ _ h

theorem rel_map {α β γ δ : Type} {R : α → β → Prop} {S : γ → δ → Prop} {o : Option α}
    {o' : Option β} (h : Option.Rel R o o') {f : α → γ} {g : β → δ}
    (hf : ∀ a b, R a b → S (f a) (g b)) : Option.Rel S (o.map f) (o'.map g) := by
  cases h with
  | none => exact .none
  | some h => exact .some (hf _ _ h)

theorem rel_toList {α β : Type} {R : α → β → Prop} {o : Option α} {o' : Option β}
    (h : Option.Rel R o o') : List.Forall₂ R o.toList o'.toList := by
  cases h with
  | none => exact .nil
  | some h => exact .cons h .nil

/-- The first lexemes correspond. -/
theorem head?_rel {ls ms : List Lexeme} (h : List.Forall₂ r.Same ls ms) :
    Option.Rel r.Same ls.head? ms.head? := by
  cases h with
  | nil => exact .none
  | cons hl _ => exact .some hl

/-! ### Locals -/

/-- Neither a contextual word nor a reserved one starts a type in one source only. -/
theorem startsLocalType_eq {l m : Lexeme} (h : r.Same l m) :
    startsLocalType l = startsLocalType m := by
  cases hn : l.isName with
  | false => rw [eq_of_not_isName h hn]
  | true =>
    have noKeyword : ∀ {l : Lexeme}, l.isName = true → l.isKeywordOf builtinTypes = false :=
      fun hl => by
        rw [Lexeme.isKeywordOf, kind_of_isName hl]
        rfl
    rw [startsLocalType, startsLocalType, noKeyword hn, noKeyword (isName_eq h ▸ hn),
      isName_eq h, contains_eq h (by decide)]
    rfl

/-- A literal is a literal of the same kind. -/
theorem isLiteral_eq {l m : Lexeme} (h : r.Same l m) : isLiteral l = isLiteral m := by
  rw [isLiteral, isLiteral, r.kind h, isKeywordOf_eq h]

/-- What is left after the qualifiers of a type corresponds. -/
theorem same_dropQualifiers {ls ms : List Lexeme} (h : List.Forall₂ r.Same ls ms) :
    List.Forall₂ r.Same (dropQualifiers ls) (dropQualifiers ms) := by
  fun_induction dropQualifiers ls generalizing ms with
  | case1 a b ls hq ih =>
    obtain _ | ⟨ha, _ | ⟨hb, hls⟩⟩ := h
    rw [isPunct_eq ha, isName_eq hb] at hq
    rw [dropQualifiers, if_pos hq]
    exact ih hls
  | case2 a b ls hq =>
    obtain _ | ⟨ha, _ | ⟨hb, hls⟩⟩ := h
    rw [isPunct_eq ha, isName_eq hb] at hq
    rw [dropQualifiers, if_neg hq]
    exact .cons ha (.cons hb hls)
  | case3 ls hne =>
    match ls, ms, h with
    | [], _, .nil => exact .nil
    | [_], _, .cons ha .nil => exact .cons ha .nil
    | a :: b :: ls, _, _ => exact absurd rfl (hne a b ls)

/-- Type arguments end in both sources or in neither. -/
theorem same_dropArguments {ls ms : List Lexeme} (h : List.Forall₂ r.Same ls ms) (depth : Nat) :
    Option.Rel (List.Forall₂ r.Same) (dropArguments depth ls) (dropArguments depth ms) := by
  induction h generalizing depth with
  | nil => exact .none
  | cons hl hls ih =>
    simp only [dropArguments, ← isPunct_eq hl, ← isOneOf_eq hl]
    split
    · exact ih _
    split
    · split
      · exact .some hls
      · exact ih _
    split
    · exact .none
    · exact ih _

theorem same_dropArguments? {ls ms : List Lexeme} (h : List.Forall₂ r.Same ls ms) :
    Option.Rel (List.Forall₂ r.Same) (dropArguments? ls) (dropArguments? ms) := by
  cases h with
  | nil => exact .some .nil
  | cons hl hls =>
    rw [dropArguments?, dropArguments?, ← isPunct_eq hl]
    split
    · exact same_dropArguments hls 1
    · exact .some (.cons hl hls)

/-- What is left after `?` and the brackets of arrays corresponds. -/
theorem same_dropSuffixes {ls ms : List Lexeme} (h : List.Forall₂ r.Same ls ms) :
    List.Forall₂ r.Same (dropSuffixes ls) (dropSuffixes ms) := by
  fun_induction dropSuffixes ls generalizing ms with
  | case1 =>
    obtain _ | _ := h
    exact .nil
  | case2 a hq =>
    obtain _ | ⟨ha, _ | _⟩ := h
    rw [isPunct_eq ha] at hq
    rw [dropSuffixes, if_pos hq]
    exact .nil
  | case3 a hq =>
    obtain _ | ⟨ha, _ | _⟩ := h
    rw [isPunct_eq ha] at hq
    rw [dropSuffixes, if_neg hq]
    exact .cons ha .nil
  | case4 a b ls hq ih =>
    obtain _ | ⟨ha, _ | ⟨hb, hls⟩⟩ := h
    rw [isPunct_eq ha] at hq
    rw [dropSuffixes, if_pos hq]
    exact ih (.cons hb hls)
  | case5 a b ls hq hs ih =>
    obtain _ | ⟨ha, _ | ⟨hb, hls⟩⟩ := h
    rw [isPunct_eq ha] at hq
    rw [isPunct_eq ha, isPunct_eq hb] at hs
    rw [dropSuffixes, if_neg hq, if_pos hs]
    exact ih hls
  | case6 a b ls hq hs =>
    obtain _ | ⟨ha, _ | ⟨hb, hls⟩⟩ := h
    rw [isPunct_eq ha] at hq
    rw [isPunct_eq ha, isPunct_eq hb] at hs
    rw [dropSuffixes, if_neg hq, if_neg hs]
    exact .cons ha (.cons hb hls)

/-- **The type of a local** is followed by lexemes that correspond, or stands in
neither source. -/
theorem same_dropLocalType {ls ms : List Lexeme} (h : List.Forall₂ r.Same ls ms) :
    Option.Rel (List.Forall₂ r.Same) (dropLocalType ls) (dropLocalType ms) := by
  cases h with
  | nil => exact .none
  | @cons l m ls ms hl hls =>
    rw [dropLocalType, dropLocalType, ← startsLocalType_eq hl, ← isName_eq hl]
    split
    · have hrest : List.Forall₂ r.Same (if l.isName = true then dropQualifiers ls else ls)
          (if l.isName = true then dropQualifiers ms else ms) := by
        split
        · exact same_dropQualifiers hls
        · exact hls
      exact rel_map (same_dropArguments? hrest) fun _ _ => same_dropSuffixes
    · exact .none

/-- How a local gets its first value does not depend on its name. -/
theorem localStart?_eq {ls ms : List Lexeme} (h : List.Forall₂ r.Same ls ms) :
    localStart? ls = localStart? ms := by
  match ls, ms, h with
  | _, _, .nil => rfl
  | _, _, .cons hl .nil => simp only [localStart?, isPunct_eq hl]
  | _, _, .cons hl (.cons hv hls) =>
    have hend := any_eq (head?_rel hls) fun _ _ hm => isPunct_eq hm ";"
    simp only [localStart?, isPunct_eq hl, isLiteral_eq hv, hend]

/-- Declarations of locals whose names correspond. -/
def SameLocal (r : Renaming) (x y : Nat × String × LocalStart) : Prop :=
  x.1 = y.1 ∧ r.Called x.2.1 y.2.1 ∧ x.2.2 = y.2.2

/-- A local is declared under names that correspond, as far behind. -/
theorem same_localDeclaration? {ls ms : List Lexeme} (h : List.Forall₂ r.Same ls ms) :
    Option.Rel r.SameLocal (localDeclaration? ls) (localDeclaration? ms) := by
  refine rel_bind (same_dropLocalType h) fun named named' hnamed => ?_
  have hlength := hnamed.length_eq
  cases hnamed with
  | nil => exact .none
  | @cons l m rest rest' hl hrest =>
    simp only [← isName_eq hl, ← localStart?_eq hrest, ← hlength, ← h.length_eq]
    split
    · rename_i hn
      cases localStart? rest with
      | none => exact .none
      | some start => exact .some ⟨rfl, ⟨l, m, hl, hn, rfl, rfl⟩, rfl⟩
    · exact .none

/-- A lexeme mentions a local as a name or within a text with holes; both are kept. -/
theorem mentionsLocal_eq {l m : Lexeme} (h : r.Same l m) {s t : String} (hs : r.Called s t) :
    mentionsLocal l s = mentionsLocal m t := by
  obtain ⟨l', m', hl', hn, rfl, rfl⟩ := hs
  have hword : l.isWord l'.text = m.isWord m'.text :=
    Named.isWord_eq (.inr ⟨l', m', hl', hn, rfl, rfl⟩) h
  rw [mentionsLocal, mentionsLocal, hword, ← r.kind h]
  cases hk : l.kind == .interpolated with
  | false => rw [Bool.false_and, Bool.false_and]
  | true => rw [r.mentions h (beq_iff_eq.1 hk) hl' hn]

/-- **A local is mentioned** in both bodies or in neither. -/
theorem isMentioned_eq {body body' : List Lexeme} (h : List.Forall₂ r.Same body body')
    (place : Nat) {s t : String} (hs : r.Called s t) :
    isMentioned body place s = isMentioned body' place t :=
  list_any_eq (List.rel_append (List.forall₂_take place h) (List.forall₂_drop (place + 1) h))
    fun _ _ hl => mentionsLocal_eq hl hs

/-- A warning quotes the name of its source, which `Matches` leaves out. -/
theorem matches_checkLocalsFrom {body body' : List Lexeme} (hb : List.Forall₂ r.Same body body')
    {ls ms : List Lexeme} (h : List.Forall₂ r.Same ls ms) (index place : Nat) (fresh : Bool) :
    List.Forall₂ r.Matches (checkLocalsFrom body index place fresh ls)
      (checkLocalsFrom body' (r.before + index) place fresh ms) := by
  induction h generalizing place fresh with
  | nil => exact .nil
  | @cons l m ls ms hl hls ih =>
    rw [checkLocalsFrom, checkLocalsFrom, ← isOneOf_eq hl]
    refine List.rel_append ?_ (ih _ _)
    split
    · have hlocal := same_localDeclaration? (List.Forall₂.cons hl hls)
      revert hlocal
      generalize localDeclaration? (l :: ls) = o
      generalize localDeclaration? (m :: ms) = o'
      intro hlocal
      cases hlocal with
      | none => exact .nil
      | @some x y hx =>
        obtain ⟨behind, name, start⟩ := x
        obtain ⟨behind', name', start'⟩ := y
        obtain ⟨hbehind, hname, hstart⟩ := hx
        dsimp only at hbehind hname hstart ⊢
        subst hbehind hstart
        rw [← isMentioned_eq hb _ hname]
        split
        · exact .nil
        · cases start with
          | none => exact .cons (.at (by rfl) (fun i => .whole (i + place + behind)) index) .nil
          | constant => exact .cons (.at (by rfl) (fun i => .whole (i + place + behind)) index) .nil
          | computed => exact .nil
    · exact .nil

/-! ### Statements -/

/-- What is known of a block is the same. -/
structure SameState (r : Renaming) (s t : StatementState) : Prop where
  braces : s.braces = t.braces
  parens : s.parens = t.parens
  afterControl : s.afterControl = t.afterControl
  previous : Option.Rel r.Same s.previous t.previous

/-- Statements begin and end at marks. -/
theorem isStatementEdge_eq {l m : Lexeme} (h : r.Same l m) :
    isStatementEdge l = isStatementEdge m := isOneOf_eq h _

namespace SameState

variable {s t : StatementState} (h : r.SameState s t)

include h

/-- Braces open statements after the same lexemes. -/
theorem opensStatements : s.opensStatements = t.opensStatements := by
  obtain ⟨braces, parens, afterControl, previous⟩ := s
  obtain ⟨braces', parens', afterControl', previous'⟩ := t
  obtain ⟨rfl, rfl, rfl, hp⟩ := h
  cases hp with
  | none => rfl
  | some hl =>
    simp only [StatementState.opensStatements, isPunct_eq hl, isKeywordOf_eq hl,
      isStatementEdge_eq hl]

theorem opensControl : s.opensControl = t.opensControl :=
  any_eq h.previous fun _ _ hl => by rw [isKeywordOf_eq hl, isWord_eq hl (by decide)]

/-- A semicolon is missing in both sources or in neither. -/
theorem missesSemicolon {l m : Lexeme} (hl : r.Same l m) :
    s.missesSemicolon l = t.missesSemicolon m := by
  have hopen : s.isOpen = t.isOpen :=
    any_eq h.previous fun _ _ hp => by rw [isStatementEdge_eq hp]
  rw [StatementState.missesSemicolon, StatementState.missesSemicolon, isPunct_eq hl, h.braces,
    hopen]

/-- **One lexeme** leads to states that correspond. -/
theorem step {l m : Lexeme} (hl : r.Same l m) : r.SameState (s.step l) (t.step m) := by
  have hs := h.opensStatements
  have hc := h.opensControl
  rw [StatementState.step, StatementState.step, ← delimiter?_eq hl]
  split
  · exact ⟨h.braces, by rw [hc, h.parens], h.afterControl, .some hl⟩
  · exact ⟨h.braces, by rw [h.parens], by rw [h.parens], .some hl⟩
  · exact ⟨by rw [hs, h.braces], h.parens, h.afterControl, .some hl⟩
  · exact ⟨by rw [h.braces], h.parens, h.afterControl, .some hl⟩
  · exact ⟨h.braces, h.parens, h.afterControl, .some hl⟩

end SameState

/-- The checks go along the two lists together, from states that correspond. -/
theorem matches_checkStatementsFrom {ls ms : List Lexeme} (h : List.Forall₂ r.Same ls ms)
    {s t : StatementState} (hs : r.SameState s t) (index : Nat) :
    List.Forall₂ r.Matches (checkStatementsFrom s index ls)
      (checkStatementsFrom t (r.before + index) ms) := by
  induction h generalizing s t index with
  | nil => exact .nil
  | @cons l m ls ms hl hls ih =>
    rw [checkStatementsFrom, checkStatementsFrom, ← hs.missesSemicolon hl]
    refine List.rel_append ?_ (ih (hs.step hl) (index + 1))
    split
    · exact .cons (.at rfl (fun i => .point (.stop (i - 1))) index) .nil
    · exact .nil

/-! ### Blocks -/

/-- Blocks that stand at one place. -/
structure SameBlock (r : Renaming) (a b : Block) : Prop where
  index : b.index = r.before + a.index
  lexemes : List.Forall₂ r.Same a.lexemes b.lexemes

namespace SameBlock

variable {a b : Block} (h : r.SameBlock a b)

include h

/-- What stands between the braces corresponds. -/
theorem inner : List.Forall₂ r.Same a.inner b.inner := by
  have htail := List.forall₂_drop 1 h.lexemes
  rw [Block.inner, Block.inner, ← List.drop_one, ← List.drop_one, List.dropLast_eq_take,
    List.dropLast_eq_take, htail.length_eq]
  exact List.forall₂_take _ htail

/-- A block within a block stands at the same place in it. -/
theorem slice (first last : Nat) :
    r.SameBlock (a.slice first last) (b.slice (r.before + first) (r.before + last)) := by
  refine ⟨rfl, ?_⟩
  rw [Block.slice, Block.slice, h.index, Nat.add_sub_add_left, Nat.add_assoc, Nat.add_sub_add_left]
  exact List.forall₂_take _ (List.forall₂_drop _ h.lexemes)

/-- **The checks of a block** find the same. -/
theorem check : List.Forall₂ r.Matches a.check b.check := by
  rw [Block.check, Block.check, checkStatements, checkStatements, checkLocals, checkLocals, h.index,
    Nat.add_assoc]
  exact List.rel_append
    (matches_checkStatementsFrom h.lexemes ⟨rfl, rfl, rfl, .none⟩ a.index)
    (matches_checkLocalsFrom h.inner h.inner (a.index + 1) 0 true)

end SameBlock

/-! ### Accessors -/

/-- What is known of accessors is the same. -/
structure SameAccessors (r : Renaming) (s t : AccessorState) : Prop where
  depth : s.depth = t.depth
  blockStart : Option.Rel (fun i j => j = r.before + i) s.blockStart t.blockStart
  inExpression : s.inExpression = t.inExpression
  previous : Option.Rel r.Same s.previous t.previous

/-- The indices of the braces of a block. -/
def SameBraces (r : Renaming) (x y : Nat × Nat) : Prop := y = (r.before + x.1, r.before + x.2)

namespace SameAccessors

variable {s t : AccessorState} (h : r.SameAccessors s t) {l m : Lexeme} (hl : r.Same l m)

include h hl

/-- An accessor starts with a contextual word, after the same lexeme. -/
theorem startsAccessor : s.startsAccessor l = t.startsAccessor m := by
  obtain ⟨depth, blockStart, inExpression, previous⟩ := s
  obtain ⟨depth', blockStart', inExpression', previous'⟩ := t
  obtain ⟨rfl, -, rfl, hp⟩ := h
  rw [AccessorState.startsAccessor, AccessorState.startsAccessor, isWordOf_eq hl (by decide)]
  cases hp with
  | none => rfl
  | some hp =>
    dsimp only
    rw [r.kind hp, isOneOf_eq hp]

theorem expressionAfter : s.expressionAfter l = t.expressionAfter m := by
  rw [AccessorState.expressionAfter, AccessorState.expressionAfter, h.depth, h.inExpression,
    h.startsAccessor hl, isPunct_eq hl, isPunct_eq hl]

/-- A semicolon is missing before or after an accessor in both sources or in neither. -/
theorem missing (index : Nat) {o o' : Option Lexeme} (ho : Option.Rel r.Same o o') :
    List.Forall₂ r.Matches (s.missing index l o) (t.missing (r.before + index) m o') := by
  rw [AccessorState.missing, AccessorState.missing, ← h.startsAccessor hl, ← h.inExpression,
    any_eq ho fun _ _ hn => isOneOf_eq hn [";", "\x7b", "=>"]]
  split
  · refine List.rel_append ?_ ?_
    · split
      · exact .cons (.at rfl (fun i => .point (.stop (i - 1))) index) .nil
      · exact .nil
    · split
      · exact .nil
      · exact .cons (.at rfl (fun i => .point (.stop i)) index) .nil
  · exact .nil

/-- **One lexeme** leads to states that correspond, and ends a block of an accessor in both or
in neither. -/
theorem step (index : Nat) :
    r.SameAccessors (s.step index l).1 (t.step (r.before + index) m).1 ∧
      Option.Rel r.SameBraces (s.step index l).2 (t.step (r.before + index) m).2 := by
  have hexpression := h.expressionAfter hl
  rw [AccessorState.step, AccessorState.step, ← delimiter?_eq hl, ← hexpression, ← h.depth]
  split
  · refine ⟨⟨rfl, ?_, rfl, .some hl⟩, .none⟩
    dsimp only
    split
    · exact .some rfl
    · exact h.blockStart
  · split
    · exact ⟨⟨rfl, .none, rfl, .some hl⟩, rel_map h.blockStart fun i j hi => by rw [SameBraces, hi]⟩
    · exact ⟨⟨rfl, h.blockStart, rfl, .some hl⟩, .none⟩
  · exact ⟨⟨rfl, h.blockStart, rfl, .some hl⟩, .none⟩

end SameAccessors

/-- The findings correspond, and so do the braces of the blocks that are checked next. -/
theorem same_checkAccessorsFrom {ls ms : List Lexeme} (h : List.Forall₂ r.Same ls ms)
    {s t : AccessorState} (hs : r.SameAccessors s t) (index : Nat) :
    List.Forall₂ r.Matches (checkAccessorsFrom s index ls).1
        (checkAccessorsFrom t (r.before + index) ms).1 ∧
      List.Forall₂ r.SameBraces (checkAccessorsFrom s index ls).2
        (checkAccessorsFrom t (r.before + index) ms).2 := by
  induction h generalizing s t index with
  | nil =>
    rw [checkAccessorsFrom, checkAccessorsFrom, ← hs.inExpression]
    refine ⟨?_, .nil⟩
    dsimp only
    split
    · exact .cons (.at rfl (fun i => .point (.stop (i - 1))) index) .nil
    · exact .nil
  | @cons l m ls ms hl hls ih =>
    obtain ⟨hstate, hblock⟩ := hs.step hl index
    obtain ⟨hfound, hblocks⟩ := ih hstate (index + 1)
    rw [checkAccessorsFrom, checkAccessorsFrom]
    exact ⟨List.rel_append (hs.missing hl index (head?_rel hls)) hfound,
      List.rel_append (rel_toList hblock) hblocks⟩

/-- **The checks of accessors** find the same. -/
theorem matches_checkAccessors {a b : Block} (h : r.SameBlock a b) :
    List.Forall₂ r.Matches (checkAccessors a) (checkAccessors b) := by
  obtain ⟨hfound, hblocks⟩ :=
    same_checkAccessorsFrom h.inner (s := {}) (t := {}) ⟨rfl, .none, rfl, .none⟩ (a.index + 1)
  rw [← Nat.add_assoc, ← h.index] at hfound hblocks
  exact List.rel_append hfound <| List.rel_flatMap hblocks fun x y hx => by
    rw [hx]
    exact (h.slice x.1 x.2).check

/-! ### Bodies -/

/-- A group is taken first and checked afterwards, if it was closed. -/
theorem runs_checkedBlock {check : Block → List Finding}
    (hcheck : ∀ a b, r.SameBlock a b → List.Forall₂ r.Matches (check a) (check b)) :
    r.Runs Eq (checkedBlock check) (checkedBlock check) := by
  intro c d hc
  have hg := runs_skipGroup c d hc
  have htaken : (skipGroup d).rest.index - d.index = (skipGroup c).rest.index - c.index := by
    rw [hc.index, hg.rest.index, Nat.add_sub_add_left]
  show r.Agree Eq (checkedBlock check c) (checkedBlock check d)
  rw [checkedBlock, checkedBlock, ← hg.value, htaken]
  split
  · refine ⟨rfl, hg.rest, List.rel_append hg.found (hcheck _ _ ⟨hc.index, ?_⟩)⟩
    exact List.forall₂_take _ hc.ahead
  · exact ⟨rfl, hg.rest, hg.found⟩

theorem runs_expressionToEnd : r.Runs Eq expressionToEnd expressionToEnd :=
  .andThen (runs_skipExpression [";"]) fun _ => runs_expect ";" .semicolon

/-- The value after the accessors is skipped like any expression. -/
theorem runs_accessors : r.Runs Eq accessors accessors :=
  .lookIf (sees_atPunct "\x7b")
    (.andThen (runs_checkedBlock fun _ _ => matches_checkAccessors) fun _ =>
      .andThen (runs_eat "=") fun _ => .ite runs_expressionToEnd (.pure rfl))
    (.andThen (runs_eat "=>") fun _ => .ite runs_expressionToEnd (.reportMissing .openBrace))

/-- A body in braces is checked; one after `=>` ends at its semicolon. -/
theorem runs_body : r.Runs Eq body body :=
  .lookIf (sees_atPunct "\x7b") (runs_checkedBlock fun _ _ => SameBlock.check)
    (.andThen (runs_eat "=>") fun _ => .ite runs_expressionToEnd (runs_expect ";" .semicolon))

end Renaming
end Parser
end Outline
