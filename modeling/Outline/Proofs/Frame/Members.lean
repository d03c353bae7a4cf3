/-
# Members in a frame

A member may end with the last lexeme that its type has before its closing brace, so
members carry over where that brace, or another closer, is still ahead.  A list of members
stops at its closing brace, and nested types are lists of members further on: the induction
is on the lexemes that are left.
-/

import Outline.Proofs.Frame.Declarations

namespace Outline
namespace Parser
namespace Frame

variable {f : Frame} {α β : Type}

/-! ### The forms of members -/

theorem carries_destructor : f.Carries id destructor destructor :=
  .bind .advance fun _ => .bind carries_name? fun _ => .bind carries_optionalParens fun _ =>
    carries_body

/-- An event ends with the group of its accessors or at its semicolon. -/
theorem carries_event : f.Carries id event event :=
  .bind .advance fun _ => .bind carries_typeReference fun _ => .bind carries_memberName? fun name =>
    .lookIf (sees_atPunct "\x7b") (.bind carries_skipGroup fun _ => .pure name)
      (.bind carries_expressionToEnd fun _ => .pure name)

/-- The arguments for another constructor stand in parentheses, before the body. -/
theorem carries_constructor : f.Carries id constructor constructor := by
  refine .bind .advance fun _ => .bind carries_skipGroup fun _ =>
    .bind (carries_eat ":") fun _ => ?_
  refine .ite (.lookIf ((sees_atKeyword "base").or (sees_atKeyword "this")) ?_ ?_) carries_body
  · exact .bind .advance fun _ => .bind carries_requiredParens fun _ => carries_body
  · exact .bind carries_requiredParens fun _ => carries_body

/-- A conversion is named for the word that it starts with, which is next in the frame as well. -/
theorem carries_conversion : f.Carries id conversion conversion := by
  refine .bind (.see sees_text) fun word => .bind .advance fun _ => ?_
  have rest : f.Carries id
      (do let _ ← typeReference; optionalParens; body
          return if word = "implicit" then "op_Implicit" else "op_Explicit")
      (do let _ ← typeReference; optionalParens; body
          return if word = "implicit" then "op_Implicit" else "op_Explicit") :=
    .bind carries_typeReference fun _ => .bind carries_optionalParens fun _ =>
      .bind carries_body fun _ => .pure _
  exact .lookIf (sees_atKeyword "operator") (.bind .advance fun _ => rest) rest

/-- The sign of an operator as one turn: another lexeme, or the end of it. -/
theorem operatorSign_eq (c : Cursor) :
    operatorSign c = (do
      if ← look (fun d => d.atOneOf ["(", "\x7b", ";"] || d.atEnd) then pure ()
      else
        advance
        operatorSign : Parser Unit) c := by
  refine eq_lookIf (fun h => ?_) fun h => ?_
  · rw [operatorSign, if_pos h]
    rfl
  · have he := (Bool.or_eq_false_iff.1 h).2
    rw [operatorSign, h, if_neg Bool.false_ne_true, dif_pos (Cursor.remaining_next_lt he)]
    rfl

theorem carries_operatorSign : f.Carries id operatorSign operatorSign :=
  .loop fun c ih => .of_eq (operatorSign_eq c) (operatorSign_eq _) <|
    .lookIf ((sees_atOneOf _).or sees_atEnd) (fun _ => Carries.pure () c) fun h =>
      (Carries.advance c).bind <| ih _ (Cursor.remaining_next_lt (Bool.or_eq_false_iff.1 h).2)

theorem carries_operator : f.Carries id operator operator :=
  .bind .advance fun _ => .bind carries_operatorSign fun _ => .bind carries_optionalParens fun _ =>
    carries_body

theorem carries_indexer : f.Carries id indexer indexer :=
  .bind .advance fun _ => .bind carries_skipGroup fun _ => carries_accessors

/-- A method without parentheses is a fault; the parameters are a group. -/
theorem carries_method : f.Carries id method method := by
  refine .bind carries_typeParameters? fun _ => .lookIf (sees_atPunct "(") ?_ ?_
  · exact .bind carries_skipGroup fun _ => .ite (.bind carries_constraints fun _ => carries_body)
      (.pure ())
  · exact .bind (.reportMissing .openParen) fun _ => .bind carries_constraints fun _ => carries_body

/-! ### Fields -/

/-- The next field of a list, after the value of the one before. -/
theorem carries_nextField : f.Carries id nextField nextField := by
  refine .bind (carries_eat "=") fun _ => .ite (.bind (carries_skipExpression _) fun _ => ?_) ?_
  all_goals
    refine .bind (carries_eat ",") fun _ => .ite (.bind carries_name? fun name => ?_) (.pure none)
    cases name with
    | none => exact .bind (.reportMissing .identifier) fun _ => .pure none
    | some name => exact .pure (some name)

/-- Fields in a list as one turn: one more, or none. -/
theorem moreFields_eq (c : Cursor) :
    moreFields c = (do
      match ← nextField with
      | some name =>
        let more ← (moreFields : Parser _)
        return name :: more
      | none => return [] : Parser (List String)) c := by
  rw [bind_apply]
  cases h : (nextField c).value with
  | none =>
    rw [moreFields]
    simp [h, pure_apply, Step.before]
  | some name =>
    have hgo : (nextField c).value ≠ none := by simp [h]
    rw [(goesOn_moreFields hgo).eq]
    simp only [fieldTurn, Step.map, h]
    exact congrArg _ (bindPure_apply moreFields (name :: ·) _).symm

theorem carries_moreFields : f.Carries id moreFields moreFields := by
  refine .loop fun c ih => .of_eq (moreFields_eq c) (moreFields_eq _) ?_
  refine (carries_nextField c).bind ?_
  cases h : (nextField c).value with
  | none => exact Carries.pure [] _
  | some name =>
    have hlt := Walk.remaining_lt (walks_nextField true c) (nextField_index_lt (by simp [h]))
    exact (ih _ hlt).bind (Carries.pure (name :: _) _)

/-! ### Members -/

/-- **A member after its type** is told by the lexemes that are next, at most two of them. -/
theorem carries_typedMember {symbol : MemberKind → String → Entry}
    (hs : ∀ k n, f.entry (symbol k n) = symbol k n) :
    f.Carries (List.map f.entry) (typedMember symbol) (typedMember symbol) := by
  have none : f.Carries (List.map f.entry) (pure []) (pure []) := .pure []
  have one (k : MemberKind) (n : String) :
      f.Carries (List.map f.entry) (pure [symbol k n]) (pure [symbol k n]) := by
    simpa only [List.map_cons, List.map_nil, hs] using
      Carries.pure (f := f) (g := List.map f.entry) [symbol k n]
  have fields (ns : List String) : f.Carries (List.map f.entry) (pure (ns.map (symbol .field)))
      (pure (ns.map (symbol .field))) := by
    have hmap : (ns.map (symbol .field)).map f.entry = ns.map (symbol .field) := by
      rw [List.map_map]
      exact List.map_congr_left fun n _ => hs .field n
    simpa only [hmap] using Carries.pure (f := f) (g := List.map f.entry) (ns.map (symbol .field))
  have missingResult : f.Carries id (reportAfter .missingResult) (reportAfter .missingResult) :=
    .of_fault (fun _ => List.suffix_refl _) fun _ => rfl
  refine .lookIf (sees_atKeyword "operator") (.bind carries_operator fun _ => one _ _) ?_
  refine .lookIf ((sees_atKeyword "this").andNext not_closer_of_atKeyword (sees_atPunct "["))
    (.bind carries_indexer fun _ => one _ _) ?_
  refine .lookIf (sees_atPunct "(")
    (.bind missingResult fun _ => .bind carries_skipGroup fun _ => .bind carries_body fun _ =>
      none) ?_
  refine .bind carries_memberName? fun name => ?_
  cases name with
  | none => exact .bind (.reportMissing .identifier) fun _ => .bind carries_skipMember fun _ => none
  | some name =>
    refine .lookIf (sees_atOneOf _) (.bind carries_method fun _ => one _ _) ?_
    refine .lookIf (sees_atOneOf _) (.bind carries_accessors fun _ => one _ _) ?_
    exact .bind carries_moreFields fun more => .bind (carries_expect ";" .semicolon) fun _ =>
      fields (name :: more)

/-- **A member** carries over if what stands in the braces of nested types does. -/
theorem carries_member {entries entries' : EntryParser}
    (he : ∀ name, f.Carries (List.map f.entry) (entries name) (entries' name)) (owner : String) :
    f.Carries (List.map f.entry) (member entries owner) (member entries' owner) := by
  have none : f.Carries (List.map f.entry) (pure []) (pure []) := .pure []
  refine .bind carries_attributes fun _ => .bind carries_modifiers fun ms => ?_
  refine .lookIf sees_atClose none ?_
  refine .lookIf sees_atTypeKeyword (.map (closes_typeDeclaration Option.none ms he).carries
    fun _ => rfl) ?_
  refine .lookIf (sees_atKeyword "delegate") (.map (closes_delegateDeclaration Option.none).carries
    fun t => ?_) ?_
  · cases t <;> rfl
  refine .lookIf (sees_atPunct "~") (.bind carries_destructor fun _ => .pure [_]) ?_
  refine .lookIf (sees_atKeyword "event") (.map carries_event fun name => ?_) ?_
  · cases name <;> rfl
  refine .lookIf ((sees_atWord owner).andNext not_closer_of_atWord (sees_atPunct "("))
    (.bind carries_constructor fun _ => .pure [_]) ?_
  refine .lookIf ((sees_atKeyword "implicit").or (sees_atKeyword "explicit"))
    (.map carries_conversion fun _ => rfl) ?_
  refine .bind (.see sees_text) fun text => .bind carries_typeReference fun _ =>
    .ite (carries_typedMember fun _ _ => rfl) ?_
  exact .bind (.reportHere rfl) fun _ => .bind carries_skipMember fun _ => none

/-! ### Lists of members -/

theorem remaining_cursor (c : Cursor) : (f.cursor c).remaining = c.remaining + f.after.length :=
  List.length_append

/-- What carries over where less than `n` lexemes are left. -/
theorem carries_below {g : α → β} {n : Nat} {p : Parser (List α)} {q : Parser (List β)}
    (h : ∀ d, d.remaining < n → f.CarriesAt (List.map g) p q d) :
    f.Carries (List.map g) (below n p) (below (n + f.after.length) q) := by
  intro d
  by_cases hd : d.remaining < n
  · exact .of_eq (dif_pos hd) (dif_pos (by rw [remaining_cursor]; omega)) (h d hd)
  · have hp : below n p d = (pure [] : Parser (List α)) d := dif_neg hd
    have hq : below (n + f.after.length) q (f.cursor d)
        = (pure [] : Parser (List β)) (f.cursor d) :=
      dif_neg (by rw [remaining_cursor]; omega)
    exact .of_eq hp hq (Carries.pure [] d)

/-- A turn carries over if all lists of members further on do. -/
theorem carriesAt_memberTurn {c : Cursor} (owner : String)
    (h : ∀ d, d.remaining < c.remaining → ∀ name,
      f.CarriesAt (List.map f.entry) (memberList name) (memberList name) d) :
    f.CarriesAt (List.map f.entry) (memberTurn owner) (memberTurn owner) c := by
  have hm : f.CarriesAt (List.map f.entry) (member memberList owner)
      (member memberList owner) c := by
    have hc := member_congr (agreeBelow_below memberList c.remaining) (Nat.le_refl _) owner
    have hf := member_congr (agreeBelow_below memberList (c.remaining + f.after.length))
      (Nat.le_of_eq (remaining_cursor (f := f) c)) owner
    exact .of_eq hc.symm hf.symm
      (carries_member (fun name => carries_below fun d hd => h d hd name) owner c)
  have hturn (d : Cursor) : memberTurn owner d
      = if (member memberList owner d).rest.index = d.index then
          ⟨(member memberList owner d).value, d.next,
            (member memberList owner d).found ++ [⟨.invalidMember d.text, .whole d.index⟩]⟩
        else member memberList owner d := rfl
  by_cases hi : (member memberList owner c).rest.index = c.index
  · have hstuck := (hturn c).trans (if_pos hi)
    refine ⟨by rw [hstuck]; exact suffix_of_passes c.passes_next, fun _ hf => ?_⟩
    rw [hstuck] at hf
    cases (hasFault_append_eq_false.1 hf).2
  · have hmoved := (hturn c).trans (if_neg hi)
    refine ⟨by rw [hmoved]; exact hm.suffix, fun hu hf => ?_⟩
    rw [hmoved] at hu hf ⊢
    rw [hturn, hm.eq hu hf]
    refine if_neg fun he => hi ?_
    simpa [step, cursor] using he

/-- **The members of a type** carry over. -/
theorem carries_memberList (owner : String) :
    f.Carries (List.map f.entry) (memberList owner) (memberList owner) := by
  intro c
  induction hn : c.remaining using Nat.strongRecOn generalizing owner c with
  | ind n ih =>
    subst hn
    refine .of_eq (memberList_eq owner c) (memberList_eq owner _) <|
      .lookIf sees_atClose (fun _ => Carries.pure [] c) fun hc => ?_
    refine (carriesAt_memberTurn owner fun d hd name => ih _ hd name d rfl).bind ?_
    have hlt := memberTurn_remaining_lt owner (Bool.or_eq_false_iff.1 hc).2
    refine (ih _ hlt owner _ rfl).bind ?_
    rw [← List.map_append]
    exact Carries.pure _ _

end Frame
end Parser
end Outline
