/-
# Every parser walks

The parsers are put together from a few moves, so from wherever one starts, it
walks.  A parser that starts with a bracket or a word of its own walks from there;
what skips a member walks once a fault was reported.
-/

import Outline.Proofs.Parser.Check
import Outline.Proofs.Parser.Walk

namespace Outline
namespace Parser

/-! ### Skipping -/

/-- The next lexeme is the first of those ahead. -/
theorem Cursor.head?_of_ahead {c : Cursor} {l : Lexeme} {ls : List Lexeme}
    (h : c.ahead = l :: ls) : c.head? = some l := by
  rw [Cursor.head?, h, List.head?_cons]

theorem Cursor.ahead_of_head? {c : Cursor} {l : Lexeme} (h : c.head? = some l) :
    ∃ ls, c.ahead = l :: ls := by
  obtain ⟨i, ls⟩ := c
  cases ls with
  | nil => simp [Cursor.head?] at h
  | cons m ls => exact ⟨ls, by rw [Option.some.inj h]⟩

/-- A lexeme that is no bracket may be passed by itself. -/
theorem Cursor.atPlain_of_ahead {c : Cursor} {l : Lexeme} {ls : List Lexeme}
    (h : c.ahead = l :: ls) (hl : l.delimiter? = none) : c.AtPlain := by
  intro m hm
  rw [c.head?_of_ahead h] at hm
  exact Option.some.inj hm ▸ hl

/-- A group starts with one of three brackets. -/
theorem isOneOf_of_opening {l : Lexeme} {b : Bracket} (h : l.delimiter? = some (.opening b)) :
    l.isOneOf ["(", "[", "\x7b"] = true :=
  isOneOf_of_isPunct (isPunct_of_delimiter? h) (by cases b <;> decide)

theorem Cursor.atOneOf_of_ahead {c : Cursor} {l : Lexeme} {ls : List Lexeme} {ps : List String}
    (h : c.ahead = l :: ls) (hl : l.isOneOf ps = true) : c.atOneOf ps = true := by
  rw [Cursor.atOneOf, c.head?_of_ahead h]
  exact hl

theorem Cursor.atOneOf_of_atPunct {c : Cursor} {p : String} {ps : List String}
    (h : c.atPunct p = true) (hp : p ∈ ps) : c.atOneOf ps = true := by
  obtain ⟨l, hl, hpl⟩ := Cursor.exists_head?_of_any h
  rw [Cursor.atOneOf, hl]
  exact isOneOf_of_isPunct hpl hp

/-- An expression passes lexemes and groups, and stops in front of a closing bracket. -/
theorem walks_skipExpression (stops : List String) : Walks (skipExpression stops) := by
  intro top c
  unfold WalksAt
  fun_induction skipExpression stops c with
  | case1 c => exact .nil c
  | case2 c => exact .nil c
  | case3 c => exact .nil c
  | case4 c l ls hc _ b hb s _ ih =>
    exact (Walk.group (Cursor.atOneOf_of_ahead hc (isOneOf_of_opening hb))).append ih
  | case5 c l ls hc _ b hb => exact .group (Cursor.atOneOf_of_ahead hc (isOneOf_of_opening hb))
  | case6 c l ls hc _ hl ih => exact (Walk.plain (Cursor.atPlain_of_ahead hc hl)).append ih

/-- A lexeme that is no stop and no bracket is skipped. -/
theorem skipExpression_of_plain {stops : List String} {c : Cursor} {l : Lexeme}
    {ls : List Lexeme} (h : c.ahead = l :: ls) (hl : l.delimiter? = none)
    (hs : l.isOneOf stops = false) : skipExpression stops c = skipExpression stops c.next := by
  obtain ⟨i, ms⟩ := c
  obtain rfl : ms = l :: ls := h
  rw [skipExpression]
  simp only [hs, hl, Bool.false_eq_true, if_false]

/-- A group is passed from its opening bracket. -/
theorem walksAt_skipGroup {top : Bool} {c : Cursor} {p : String} (h : c.atPunct p = true)
    (hp : p ∈ ["(", "[", "\x7b"]) : WalksAt top skipGroup c :=
  .group (Cursor.atOneOf_of_atPunct h hp)

/-- Attributes are groups in square brackets, one after the other. -/
theorem walks_attributes : Walks attributes := by
  intro top c
  unfold WalksAt
  fun_induction attributes c with
  | case1 c h s _ ih => exact (walksAt_skipGroup h (by decide)).append ih
  | case2 c h => exact walksAt_skipGroup h (by decide)
  | case3 c => exact .nil c

/-- What skips a member walks on after a fault, or where it passes a token anyway. -/
theorem Walk.skipMember {top : Bool} {b c : Cursor} {f : List Finding} (h : Walk top b f c)
    (hf : (skipExpression [";"] c).rest.index = c.index → hasFault f = true) :
    WalksOn top b f Parser.skipMember c := by
  have hx := walks_skipExpression [";"] top c
  have hs := h.append hx
  have ht := walks_eat (p := ";") (by decide) top (skipExpression [";"] c).rest
  have he := hs.append ht
  refine .look <| .bind <| .bind <| .ite (fun _ => .pure he) fun _ => ?_
  refine .look <| .ite (fun hc => ?_) fun _ => .pure he
  rw [Bool.and_eq_true, Bool.not_eq_true', beq_iff_eq] at hc
  have hi : (skipExpression [";"] c).rest.index = c.index :=
    Nat.le_antisymm (hc.1 ▸ ht.index_le) hx.index_le
  exact .advance (.forced (by simp [hf hi]) hc.2 he)

/-- A report of a fault, a member skipped, and whatever follows. -/
theorem walks_recover {α : Type} {r : Parser Unit} {p : Parser α} (hr : Walks r)
    (hf : ∀ c, hasFault (r c).found = true) (hp : Walks p) :
    Walks (r >>= fun _ => Parser.skipMember >>= fun _ => p) := by
  intro top c
  have h := ((hr top c).skipMember fun _ => hf c).append (hp top _)
  rw [List.append_assoc] at h
  exact h

/-- Parentheses that are not there are reported behind the token before. -/
theorem walks_requiredParens : Walks requiredParens := fun top c =>
  .look <| .ite (fun h => .bind (walksAt_skipGroup h (by decide)) (.pure _))
    fun _ => walks_reportAfter _ top c

theorem walks_optionalParens : Walks optionalParens := fun _ _ =>
  .look <| .ite (fun h => .bind (walksAt_skipGroup h (by decide)) (.pure _)) fun _ => .pure _

/-! ### Names and types -/

/-- Type parameters are passed from their `<`. -/
theorem walksAt_typeParameters {top : Bool} {c : Cursor} (h : c.atPunct "<" = true) :
    WalksAt top typeParameters c := .angles h

theorem walks_typeParameters? : Walks typeParameters? := fun _ _ =>
  .look <| .ite (fun h => walksAt_typeParameters h) fun _ => .pure _

/-- Neither a qualifying sign nor the name behind it is a bracket. -/
theorem atPlain_of_atQualifier {c : Cursor} (h : atQualifier c = true) :
    c.AtPlain ∧ c.next.AtPlain := by
  rw [atQualifier, Bool.and_eq_true] at h
  exact ⟨Cursor.atPlain_of_atOneOf h.1 (by decide), Cursor.atPlain_of_atName h.2⟩

/-- Two lexemes that are no brackets, and what follows them. -/
theorem Walk.next_next {top : Bool} {c d : Cursor} {f : List Finding} (h : c.AtPlain)
    (hn : c.next.AtPlain) (hw : Walk top c.next.next f d) : Walk top c f d :=
  (Walk.plain h).append ((Walk.plain hn).append hw)

/-- A qualified name passes a sign and a name at a time. -/
theorem walks_qualifiedTail (name : String) : Walks (qualifiedTail name) := by
  intro top c
  unfold WalksAt
  fun_induction qualifiedTail name c with
  | case1 name c h ih =>
    exact .next_next (atPlain_of_atQualifier h).1 (atPlain_of_atQualifier h).2 ih
  | case2 name c => exact .nil c

theorem walks_qualifiedName? : Walks qualifiedName? :=
  .bind walks_name? fun
    | some first => .bind (walks_qualifiedTail first) fun _ => .pure _
    | none => .pure _

/-- A type passes qualified names and type arguments in any order. -/
theorem walks_typeTail : Walks typeTail := by
  intro top c
  unfold WalksAt
  fun_induction typeTail c with
  | case1 c h ih => exact .next_next (atPlain_of_atQualifier h).1 (atPlain_of_atQualifier h).2 ih
  | case2 c _ h ih => exact (walksAt_typeParameters h).append ih
  | case3 c => exact .nil c

/-- The brackets of an array are skipped as a group, so they need not be closed. -/
theorem walks_typeSuffixes : Walks typeSuffixes := by
  intro top c
  unfold WalksAt
  fun_induction typeSuffixes c with
  | case1 c h ih => exact (Walk.plain (Cursor.atPlain_of_atOneOf h (by decide))).append ih
  | case2 c _ h s _ ih =>
    rw [atArraySuffix, Bool.and_eq_true] at h
    exact (walksAt_skipGroup h.1 (by decide)).append ih
  | case3 c _ h =>
    rw [atArraySuffix, Bool.and_eq_true] at h
    exact walksAt_skipGroup h.1 (by decide)
  | case4 c => exact .nil c

/-- The first word of a type is no bracket. -/
theorem atPlain_of_typeStart {c : Cursor}
    (h : (c.atName || c.head?.any (·.isKeywordOf builtinTypes)) = true) : c.AtPlain := by
  rw [Bool.or_eq_true] at h
  obtain h | h := h
  · exact Cursor.atPlain_of_atName h
  · exact Cursor.atPlain_of_any h fun l hl =>
      delimiter?_of_kind (by simp_all [Lexeme.isKeywordOf])

/-- **A type** walks, whether it is a tuple, a name or neither. -/
theorem walks_typeReference : Walks typeReference := fun top c =>
  .look <| .ite
    (fun h => .bind (walksAt_skipGroup h (by decide)) <| .ite
      (fun _ => .bind (walks_typeSuffixes top _) (.pure _)) fun _ => .pure _)
    fun _ => .look <| .ite
      (fun h => .bind (.advance (atPlain_of_typeStart h)) <|
        .bind (walks_typeTail top _) <| .bind (walks_typeSuffixes top _) (.pure _))
      fun _ => .pure _

/-- Type arguments are passed as a whole where a dot follows them. -/
theorem walks_memberNameTail (name : String) : Walks (memberNameTail name) := by
  intro top c
  unfold WalksAt
  fun_induction memberNameTail name c with
  | case1 name c h ih =>
    exact .next_next (Cursor.atPlain_of_atPunct h.1 (by decide)) (Cursor.atPlain_of_atName h.2) ih
  | case2 name c _ n h ih => exact (Walk.arguments h).append ih
  | case3 name c => exact .nil c

theorem walks_memberName? : Walks memberName? :=
  .bind walks_name? fun
    | some first => .bind (walks_memberNameTail first) fun _ => .pure _
    | none => .pure _

/-! ### Bodies -/

/-- The lexemes that were passed are the first of those that were ahead. -/
theorem Cursor.Passes.take_ahead {c d : Cursor} {ls : List Lexeme} (h : c.Passes ls d) :
    c.ahead.take (d.index - c.index) = ls := by
  rw [h.ahead, h.index, Nat.add_sub_cancel_left, List.take_left']
  rfl

/-- **A block** is skipped first and checked afterwards: its check marks tokens that
were passed. -/
theorem walksAt_checkedBlock {top : Bool} {c : Cursor} {check : Block → List Finding}
    (h : c.atPunct "\x7b" = true)
    (hm : ∀ b, b.lexemes ≠ [] → MarkedUpTo (check b) (b.index + b.lexemes.length)) :
    WalksAt top (checkedBlock check) c := by
  unfold WalksAt checkedBlock
  dsimp only
  split
  · rename_i hv
    obtain ⟨ls, hp⟩ := (skipGroup_passed c).passes
    rw [hp.take_ahead]
    refine (walksAt_skipGroup h (by decide)).append (.reports ?_)
    have hls : ls ≠ [] := by
      rintro rfl
      have := skipGroup_remaining_lt hv
      rw [hp.eq_of_nil] at this
      omega
    rw [hp.index]
    exact hm ⟨c.index, ls⟩ hls
  · exact walksAt_skipGroup h (by decide)

theorem walks_expressionToEnd : Walks expressionToEnd :=
  .bind (walks_skipExpression _) fun _ => walks_expect (by decide) _

/-- Accessors stand in a block, and a property without one has a value after `=>`. -/
theorem walks_accessors : Walks accessors := fun top _ =>
  .look <| .ite
    (fun h => .bind (walksAt_checkedBlock h checkAccessors_marked) <|
      Walks.bind (walks_eat (by decide))
        (fun _ => .ite walks_expressionToEnd (.pure _)) top _)
    fun _ => Walks.bind (walks_eat (by decide))
      (fun _ => .ite walks_expressionToEnd (walks_reportAfter _)) top _

/-- A body is a block, a value after `=>`, or nothing but a semicolon. -/
theorem walks_body : Walks body := fun top _ =>
  .look <| .ite (fun h => walksAt_checkedBlock h Block.check_marked)
    fun _ => Walks.bind (walks_eat (by decide))
      (fun _ => .ite walks_expressionToEnd (walks_expect (by decide) _)) top _

end Parser
end Outline
