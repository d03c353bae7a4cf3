/-
# Members under a renaming

A constructor is told by its name, which is that of the type around it; so the names of
types are kept apart from each other in the second source as they are in the first.
Nested types are lists of members further on: the induction is on the lexemes that are
left, of which there are as many in both sources.
-/

import Outline.Proofs.Frame.Members
import Outline.Proofs.Renaming.Declarations

namespace Outline
namespace Parser
namespace Renaming

variable {r : Renaming}

/-! ### The forms of members -/

theorem runs_destructor : r.Runs Eq destructor destructor :=
  .andThen .advance fun _ => .bind runs_name? fun _ _ _ => .andThen runs_optionalParens fun _ =>
    runs_body

/-- An event is named through types, as its text is put together from lexemes. -/
theorem runs_event : r.Runs (Option.Rel r.Spells) event event :=
  .andThen .advance fun _ => .andThen runs_typeReference fun _ =>
    .bind runs_memberName? fun _ _ hn =>
    .lookIf (sees_atPunct "\x7b") (.andThen runs_skipGroup fun _ => .pure hn)
      (.andThen runs_expressionToEnd fun _ => .pure hn)

/-- A constructor has a name of its own in the image, so nothing is compared but where it ends. -/
theorem runs_constructor : r.Runs Eq constructor constructor := by
  refine .andThen .advance fun _ => .andThen runs_skipGroup fun _ =>
    .andThen (runs_eat ":") fun _ => ?_
  refine .ite (.lookIf ((sees_atKeyword "base").or (sees_atKeyword "this")) ?_ ?_) runs_body
  · exact .andThen .advance fun _ => .andThen runs_requiredParens fun _ => runs_body
  · exact .andThen runs_requiredParens fun _ => runs_body

/-- A conversion is told by a word, which is the same. -/
theorem runsAt_conversion {c d : Cursor} (hc : r.Beside c d)
    (h : (c.atKeyword "implicit" || c.atKeyword "explicit") = true) :
    r.RunsAt Eq conversion conversion c d := by
  have htext : c.text = d.text := by
    have hhead := hc.head?
    rw [Cursor.atKeyword, Cursor.atKeyword] at h
    rw [Cursor.text, Cursor.text]
    revert hhead h
    generalize c.head? = o
    generalize d.head? = o'
    intro h hhead
    cases hhead with
    | none => rfl
    | @some l m hl =>
      refine r.text hl (Bool.eq_false_iff.2 fun hn => ?_)
      simp [Lexeme.isKeyword, kind_of_isName hn] at h
  refine .bind (V := Eq) ⟨htext, hc, .nil⟩ fun hw hr => ?_
  rw [← hw]
  have rest : r.Runs Eq
      (do let _ ← typeReference; optionalParens; body
          return if c.text = "implicit" then "op_Implicit" else "op_Explicit")
      (do let _ ← typeReference; optionalParens; body
          return if c.text = "implicit" then "op_Implicit" else "op_Explicit") :=
    .andThen runs_typeReference fun _ => .andThen runs_optionalParens fun _ =>
      .andThen runs_body fun _ => .pure rfl
  exact Runs.andThen .advance (fun _ => .lookIf (sees_atKeyword "operator")
    (.andThen .advance fun _ => rest) rest) _ _ hr

/-- The sign of an operator is passed over and not kept. -/
theorem runs_operatorSign : r.Runs Eq operatorSign operatorSign :=
  .loop fun c d hc ih => .of_eq (Frame.operatorSign_eq c) (Frame.operatorSign_eq d) <|
    .lookIf ((sees_atOneOf _).or sees_atEnd) hc (fun _ => Runs.pure rfl c d hc) fun h =>
      .bind (Runs.advance c d hc) fun _ hr =>
        ih _ _ (Cursor.remaining_next_lt (Bool.or_eq_false_iff.1 h).2) hr

theorem runs_operator : r.Runs Eq operator operator :=
  .andThen .advance fun _ => .andThen runs_operatorSign fun _ =>
    .andThen runs_optionalParens fun _ => runs_body

theorem runs_indexer : r.Runs Eq indexer indexer :=
  .andThen .advance fun _ => .andThen runs_skipGroup fun _ => runs_accessors

/-- A method ends after its body, whatever its parameters are called. -/
theorem runs_method : r.Runs Eq method method := by
  have ends : r.Runs Eq (do constraints; body) (do constraints; body) :=
    .andThen runs_constraints fun _ => runs_body
  refine .andThen runs_typeParameters? fun _ => .lookIf (sees_atPunct "(") ?_ ?_
  · exact .andThen runs_skipGroup fun _ => .ite ends (.pure rfl)
  · exact .andThen (.reportMissing .openParen) fun _ => ends

/-! ### Fields -/

/-- The next field of a list has a name that corresponds. -/
theorem runs_nextField : r.Runs (Option.Rel r.Called) nextField nextField := by
  refine .andThen (runs_eat "=") fun _ => .ite (.andThen (runs_skipExpression _) fun _ => ?_) ?_
  all_goals
    refine .andThen (runs_eat ",") fun _ => .ite (.bind runs_name? fun o o' ho => ?_) (.pure .none)
    cases ho with
    | none => exact .andThen (.reportMissing .identifier) fun _ => .pure .none
    | some hn => exact .pure (.some hn)

/-- The fields of a list correspond one by one. -/
theorem runs_moreFields : r.Runs (List.Forall₂ r.Called) moreFields moreFields := by
  refine .loop fun c d hc ih => .of_eq (Frame.moreFields_eq c) (Frame.moreFields_eq d) <|
    .bind (runs_nextField c d hc) fun hv hr => ?_
  have hgo := fun h : (nextField c).value ≠ none => nextField_index_lt (c := c) (by simpa using h)
  revert hv hgo
  generalize ho : (nextField c).value = o
  generalize (nextField d).value = o'
  intro hv hgo
  cases hv with
  | none => exact Runs.pure .nil _ _ hr
  | some hn =>
    have hlt := Walk.remaining_lt (walks_nextField true c) (hgo (by simp))
    exact .bind (ih _ _ hlt hr) fun hmore hr => Runs.pure (.cons hn hmore) _ _ hr

/-! ### Members -/

/-- **A member after its type** has a name that corresponds, but for operators and indexers, which
have names of their own. -/
theorem runs_typedMember {symbol : MemberKind → String → Entry}
    (hs : ∀ k s t, (if k.isNamed then r.Spells s t else s = t) →
      r.SameEntry (symbol k s) (symbol k t)) :
    r.Runs (List.Forall₂ r.SameEntry) (typedMember symbol) (typedMember symbol) := by
  have one (k : MemberKind) {s t : String} (h : if k.isNamed then r.Spells s t else s = t) :
      r.Runs (List.Forall₂ r.SameEntry) (pure [symbol k s]) (pure [symbol k t]) :=
    .pure (.cons (hs k s t h) .nil)
  refine .lookIf (sees_atKeyword "operator") (.andThen runs_operator fun _ => one .operator rfl) ?_
  refine .lookIf ((sees_atKeyword "this").and (sees_atPunct "[").next)
    (.andThen runs_indexer fun _ => one .indexer rfl) ?_
  refine .lookIf (sees_atPunct "(") (.andThen (.reportAfter .missingResult) fun _ =>
    .andThen runs_skipGroup fun _ => .andThen runs_body fun _ => .pure .nil) ?_
  refine .bind runs_memberName? fun o o' ho => ?_
  cases ho with
  | none =>
    exact .andThen (.reportMissing .identifier) fun _ => .andThen runs_skipMember fun _ =>
      .pure .nil
  | some hn =>
    refine .lookIf (sees_atOneOf _) (.andThen runs_method fun _ => one .method hn) ?_
    refine .lookIf (sees_atOneOf _) (.andThen runs_accessors fun _ => one .property hn) ?_
    refine .bind runs_moreFields fun _ _ hmore => .andThen (runs_expect ";" .semicolon) fun _ =>
      .pure ?_
    exact .cons (hs .field _ _ hn) (List.rel_map (fun _ _ h => hs .field _ _ h.spells) hmore)

/-- **A member** is declared alike if what stands in the braces of nested types is. -/
theorem runs_member {entries entries' : EntryParser}
    (he : ∀ s t, r.Named s t → r.Runs (List.Forall₂ r.SameEntry) (entries s) (entries' t))
    {owner owner' : String} (ho : r.Named owner owner') :
    r.Runs (List.Forall₂ r.SameEntry) (member entries owner) (member entries' owner') := by
  refine .andThen runs_attributes fun _ => .andThen runs_modifiers fun ms => ?_
  refine .lookIf sees_atClose (.pure .nil) fun c d hc => .lookIf sees_atTypeKeyword hc
    (fun hk => .bind (runsAt_typeDeclaration .none ms hc hk he) fun ht hr =>
      Runs.pure (.cons (.nested ht) .nil) _ _ hr) fun _ => ?_
  refine .lookIf (sees_atKeyword "delegate") hc (fun _ => .bind (runs_delegateDeclaration .none c d
    hc) fun ht hr => Runs.pure (rel_toList (rel_map ht fun _ _ => SameEntry.nested)) _ _ hr)
    fun _ => ?_
  refine .lookIf (sees_atPunct "~") hc (fun _ => Runs.andThen runs_destructor (fun _ => .pure
    (.cons (.member ⟨rfl, rfl, rfl⟩) .nil)) c d hc) fun _ => ?_
  refine .lookIf (sees_atKeyword "event") hc (fun _ => Runs.bind runs_event (fun _ _ hn => .pure
    (rel_toList (rel_map hn fun _ _ hs => .member ⟨rfl, rfl, hs⟩))) c d hc) fun _ => ?_
  have hown : (c.atWord owner && c.next.atPunct "(") = (d.atWord owner' && d.next.atPunct "(") := by
    have hparen : c.next.atPunct "(" = d.next.atPunct "(" := sees_atPunct "(" _ _ hc.next
    rw [Cursor.atWord, Cursor.atWord, any_eq hc.head? fun _ _ hl => ho.isWord_eq hl, hparen]
  refine .lookIfEq hown (fun _ => Runs.andThen runs_constructor (fun _ => .pure
    (.cons (.member ⟨rfl, rfl, rfl⟩) .nil)) c d hc) fun _ => ?_
  refine .lookIf ((sees_atKeyword "implicit").or (sees_atKeyword "explicit")) hc (fun hk =>
    .bind (runsAt_conversion hc hk) fun hn hr => Runs.pure
      (.cons (.member ⟨rfl, rfl, hn⟩) .nil) _ _ hr) fun _ => ?_
  refine Runs.bind .text (fun _ _ _ => ?_) c d hc
  refine .andThen runs_typeReference fun typed => ?_
  refine .ite ?_ ?_
  · exact runs_typedMember fun k s t hs => .member ⟨rfl, rfl, hs⟩
  · exact .andThen (.reportHere (by rfl)) fun _ => .andThen runs_skipMember fun _ => .pure .nil

/-! ### Lists of members -/

/-- What runs alike where less than `n` lexemes are left. -/
theorem runs_below {α β : Type} {R : α → β → Prop} {n : Nat} {p : Parser (List α)}
    {q : Parser (List β)} (h : ∀ c d, c.remaining < n → r.Beside c d →
      r.RunsAt (List.Forall₂ R) p q c d) :
    r.Runs (List.Forall₂ R) (below n p) (below n q) := by
  intro c d hc
  by_cases hn : c.remaining < n
  · exact .of_eq (dif_pos hn) (dif_pos (hc.remaining ▸ hn)) (h c d hn hc)
  · have hp : below n p c = (pure [] : Parser (List α)) c := dif_neg hn
    have hq : below n q d = (pure [] : Parser (List β)) d := dif_neg (hc.remaining ▸ hn)
    exact .of_eq hp hq (Runs.pure .nil c d hc)

/-- A turn without progress is reported at the same lexeme, whose text is quoted. -/
theorem runsAt_memberTurn {c d : Cursor} (hc : r.Beside c d) {owner owner' : String}
    (ho : r.Named owner owner')
    (h : ∀ c' d', c'.remaining < c.remaining → r.Beside c' d' → ∀ s t, r.Named s t →
      r.RunsAt (List.Forall₂ r.SameEntry) (memberList s) (memberList t) c' d') :
    r.RunsAt (List.Forall₂ r.SameEntry) (memberTurn owner) (memberTurn owner') c d := by
  have hm : r.RunsAt (List.Forall₂ r.SameEntry) (member memberList owner)
      (member memberList owner') c d := by
    have hfirst := member_congr (agreeBelow_below memberList c.remaining) (Nat.le_refl _) owner
    have hsecond := member_congr (agreeBelow_below memberList c.remaining)
      (Nat.le_of_eq hc.remaining.symm) owner'
    exact .of_eq hfirst.symm hsecond.symm <| runs_member (fun s t hs =>
      runs_below fun c' d' hlt hc' => h c' d' hlt hc' s t hs) ho c d hc
  have hstuck : (member memberList owner' d).rest.index = d.index
      ↔ (member memberList owner c).rest.index = c.index := by
    rw [hm.rest.index, hc.index]
    exact Nat.add_left_cancel_iff
  show r.Agree _ (memberTurn owner c) (memberTurn owner' d)
  rw [memberTurn, memberTurn]
  simp only [hstuck]
  split
  · refine ⟨hm.value, hc.next, List.rel_append hm.found (.cons ?_ .nil)⟩
    rw [hc.index]
    exact .at (by rfl) Mark.whole c.index
  · exact hm

/-- **The members of a type** are declared alike. -/
theorem runs_memberList {owner owner' : String} (ho : r.Named owner owner') :
    r.Runs (List.Forall₂ r.SameEntry) (memberList owner) (memberList owner') := by
  intro c d hc
  induction hn : c.remaining using Nat.strongRecOn generalizing owner owner' c d with
  | ind n ih =>
    subst hn
    refine .of_eq (memberList_eq owner c) (memberList_eq owner' d) <|
      .lookIf sees_atClose hc (fun _ => Runs.pure .nil c d hc) fun he => ?_
    refine .bind (runsAt_memberTurn hc ho fun c' d' hlt hc' s t hs => ih _ hlt hs c' d' hc' rfl)
      fun hinside hr => ?_
    have hlt := memberTurn_remaining_lt owner (Bool.or_eq_false_iff.1 he).2
    exact .bind (ih _ hlt ho _ _ hr rfl) fun hmore hr =>
      Runs.pure (List.rel_append hinside hmore) _ _ hr

end Renaming
end Parser
end Outline
