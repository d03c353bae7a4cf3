/-
# Names and types in a frame

Names and types end where something is next that does not go on with them.  Only type
arguments that may qualify a name are looked for further on, and these are given up at a
brace or a semicolon.
-/

import Outline.Proofs.Frame.Skips

namespace Outline
namespace Parser
namespace Frame

variable {f : Frame}

/-- Type parameters that end without a fault ended at their own `>`, so more lexemes do not
matter. -/
theorem typeParametersFrom_cursor {arity depth index : Nat} {ls : List Lexeme}
    (hf : hasFault (typeParametersFrom arity depth index ls).found = false) :
    typeParametersFrom arity depth (f.before + index) (ls ++ f.after)
      = f.step id (typeParametersFrom arity depth index ls) := by
  fun_induction typeParametersFrom arity depth index ls with
  | case1 => cases hf
  | case2 => cases hf
  | case3 arity depth index l ls hs ho ih =>
    rw [List.cons_append, typeParametersFrom, if_neg hs, if_pos ho]
    exact ih hf
  | case4 arity index l ls hs ho hc =>
    rw [List.cons_append, typeParametersFrom, if_neg hs, if_neg ho, if_pos hc, if_pos rfl]
    rfl
  | case5 arity depth index l ls hs ho hc hd ih =>
    rw [List.cons_append, typeParametersFrom, if_neg hs, if_neg ho, if_pos hc, if_neg hd]
    exact ih hf
  | case6 arity depth index l ls hs ho hc hd ih =>
    rw [List.cons_append, typeParametersFrom, if_neg hs, if_neg ho, if_neg hc, if_pos hd]
    exact ih hf
  | case7 arity depth index l ls hs ho hc hd ih =>
    rw [List.cons_append, typeParametersFrom, if_neg hs, if_neg ho, if_neg hc, if_neg hd]
    exact ih hf

theorem carries_typeParameters : f.Carries id typeParameters typeParameters := fun c => by
  refine ⟨suffix_of_passed (typeParameters_passed c), fun _ hf => ?_⟩
  have hn : c.ahead ≠ [] ∨ f.after = [] := by
    obtain ⟨i, _ | ⟨l, ls⟩⟩ := c
    · cases hf
    · exact .inl (List.cons_ne_nil _ _)
  show typeParametersFrom 1 1 (f.cursor c).next.index (f.cursor c).next.ahead = _
  rw [cursor_next hn]
  exact typeParametersFrom_cursor hf

theorem carries_typeParameters? : f.Carries id typeParameters? typeParameters? :=
  .lookIf (sees_atPunct "<") carries_typeParameters (.pure 0)

/-- The name after a qualifying sign is looked at past a sign that is no closer. -/
theorem sees_atQualifier : f.Sees atQualifier :=
  (sees_atOneOf [".", "::"]).andNext (not_closer_of_atOneOf (by decide)) sees_atName

/-- The lexeme after `[` is looked at past a bracket that is no closer. -/
theorem sees_atArraySuffix : f.Sees atArraySuffix :=
  (sees_atPunct "[").andNext (not_closer_of_atPunct (by decide)) (sees_atOneOf ["]", ","])

/-- The rest of a qualified name as one turn: a sign and a name, or nothing. -/
theorem qualifiedTail_eq (name : String) (c : Cursor) :
    qualifiedTail name c = (do
      if ← look atQualifier then
        let separator ← look Cursor.text
        advance
        let next ← look Cursor.text
        advance
        qualifiedTail (name ++ separator ++ next)
      else pure name : Parser String) c := by
  refine eq_lookIf (fun h => ?_) fun h => ?_
  · rw [qualifiedTail, dif_pos h]
    rfl
  · rw [qualifiedTail, h, dif_neg Bool.false_ne_true]
    rfl

/-- The name before goes along unchanged; only what is ahead is compared. -/
theorem carries_qualifiedTail (name : String) :
    f.Carries id (qualifiedTail name) (qualifiedTail name) := by
  intro c
  induction hn : c.remaining using Nat.strongRecOn generalizing name c with
  | ind n ih =>
    refine .of_eq (qualifiedTail_eq name c) (qualifiedTail_eq name _) <|
      .lookIf sees_atQualifier (fun hq => ?_) fun _ => Carries.pure name c
    refine (Carries.see sees_text c).bind <| (Carries.advance c).bind <|
      (Carries.see sees_text _).bind <| (Carries.advance _).bind ?_
    exact ih _ (hn ▸ atQualifier_remaining_lt hq) _ _ rfl

theorem carries_qualifiedName? : f.Carries id qualifiedName? qualifiedName? :=
  .bind carries_name? fun
    | some first => .map (carries_qualifiedTail first) fun _ => rfl
    | none => .pure none

/-- What follows the first name of a type as one turn: a qualified name, type arguments or
nothing. -/
theorem typeTail_eq (c : Cursor) :
    typeTail c = (do
      if ← look atQualifier then
        advance
        advance
        typeTail
      else if ← look (·.atPunct "<") then
        let _ ← typeParameters
        typeTail
      else pure () : Parser Unit) c := by
  refine eq_lookIf (fun h => ?_) fun h => eq_lookIf (fun ha => ?_) fun ha => ?_
  · rw [typeTail, dif_pos h]
    rfl
  · rw [typeTail, h, dif_neg Bool.false_ne_true, dif_pos ha]
    rfl
  · rw [typeTail, h, ha, dif_neg Bool.false_ne_true, dif_neg Bool.false_ne_true]
    rfl

/-- A type goes on at qualifying signs and at type arguments, both of which are seen. -/
theorem carries_typeTail : f.Carries id typeTail typeTail :=
  .loop fun c ih => .of_eq (typeTail_eq c) (typeTail_eq _) <|
    .lookIf sees_atQualifier
      (fun hq => (Carries.advance c).bind <| (Carries.advance _).bind <|
        ih _ (atQualifier_remaining_lt hq)) fun _ =>
    .lookIf (sees_atPunct "<")
      (fun ha => (carries_typeParameters c).bind <|
        ih _ (typeParameters_remaining_lt (Cursor.atEnd_of_any ha)))
      fun _ => Carries.pure () c

/-- What follows a type as one turn: `?` or `*`, the brackets of an array, or nothing. -/
theorem typeSuffixes_eq (c : Cursor) :
    typeSuffixes c = (do
      if ← look (·.atOneOf ["?", "*"]) then
        advance
        typeSuffixes
      else if ← look atArraySuffix then
        if ← skipGroup then typeSuffixes
        else pure ()
      else pure () : Parser Unit) c := by
  refine eq_lookIf (fun h => ?_) fun h => eq_lookIf (fun ha => ?_) fun ha => ?_
  · rw [typeSuffixes, dif_pos h]
    rfl
  · rw [typeSuffixes, h, dif_neg Bool.false_ne_true, if_pos ha]
    exact (bindIf_apply skipGroup typeSuffixes () c).symm
  · rw [typeSuffixes, h, ha, dif_neg Bool.false_ne_true, if_neg Bool.false_ne_true]
    rfl

theorem carries_typeSuffixes : f.Carries id typeSuffixes typeSuffixes :=
  .loop fun c ih => .of_eq (typeSuffixes_eq c) (typeSuffixes_eq _) <|
    .lookIf (sees_atOneOf ["?", "*"])
      (fun hs => (Carries.advance c).bind <|
        ih _ (Cursor.remaining_next_lt (Cursor.atEnd_of_any hs))) fun _ =>
    .lookIf sees_atArraySuffix
      (fun _ => (carries_skipGroup c).bind <|
        .ite (fun hv => ih _ (skipGroup_remaining_lt hv)) fun _ => Carries.pure () _)
      fun _ => Carries.pure () c

/-- A tuple is a group, and any other type starts with a name or a built-in word. -/
theorem carries_typeReference : f.Carries id typeReference typeReference :=
  .lookIf (sees_atPunct "(")
    (.bind carries_skipGroup fun _ => .ite (.bind carries_typeSuffixes fun _ => .pure true)
      (.pure false)) <|
  .lookIf (sees_atName.or (sees_any _))
    (.bind .advance fun _ => .bind carries_typeTail fun _ => .bind carries_typeSuffixes fun _ =>
      .pure true)
    (.pure false)

/-- Type arguments are given up at a closer. -/
theorem angleLength_append {depth : Nat} {ls : List Lexeme}
    (h : ls.any (·.isOneOf closers) = true) (after : List Lexeme) :
    angleLength depth (ls ++ after) = angleLength depth ls := by
  fun_induction angleLength depth ls with
  | case1 => cases h
  | case2 depth l ls ho ih =>
    rw [List.cons_append, angleLength, if_pos ho,
      ih (any_closers_of_cons h (isOneOf_of_isPunct_not_mem ho (by decide)))]
  | case3 depth l ls ho hc hd => rw [List.cons_append, angleLength, if_neg ho, if_pos hc, if_pos hd]
  | case4 depth l ls ho hc hd ih =>
    rw [List.cons_append, angleLength, if_neg ho, if_pos hc, if_neg hd,
      ih (any_closers_of_cons h (isOneOf_of_isPunct_not_mem hc (by decide)))]
  | case5 depth l ls ho hc hs => rw [List.cons_append, angleLength, if_neg ho, if_neg hc, if_pos hs]
  | case6 depth l ls ho hc hs ih =>
    have hl : l.isOneOf closers = false := by
      simp only [Lexeme.isOneOf, closers, List.contains_cons] at hs ⊢
      grind
    rw [List.cons_append, angleLength, if_neg ho, if_neg hc, if_neg hs,
      ih (any_closers_of_cons h hl)]

/-- Type arguments that end do so before a closer. -/
theorem any_closers_drop {depth n : Nat} {ls : List Lexeme}
    (h : ls.any (·.isOneOf closers) = true) (hn : angleLength depth ls = some n) :
    (ls.drop n).any (·.isOneOf closers) = true := by
  obtain ⟨ms, z, ht, hz, hms⟩ := angleLength_unchecked hn
  rw [← List.take_append_drop n ls, List.any_append, Bool.or_eq_true] at h
  refine h.resolve_left fun hany => ?_
  obtain ⟨l, hl, hcloser⟩ := List.any_eq_true.1 hany
  rw [ht, List.mem_append, List.mem_singleton] at hl
  rcases hl with hl | rfl
  · have hno := hms l hl
    simp only [Lexeme.isOneOf, closers, List.contains_cons] at hno hcloser
    grind
  · rw [isOneOf_of_isPunct_not_mem hz (by decide)] at hcloser
    cases hcloser

/-- Lexemes that are taken together before a closer are the same in the frame. -/
theorem Unseen.cursor_drop {c : Cursor} {n : Nat} (h : f.Unseen (c.drop n)) :
    (f.cursor c).drop n = f.cursor (c.drop n) ∧ (f.cursor c).texts n = c.texts n := by
  rcases h.ahead_ne_nil with hne | hn
  · have hl : n ≤ c.ahead.length := Nat.le_of_not_lt fun hlt =>
      hne (List.drop_eq_nil_of_le (Nat.le_of_lt hlt))
    simp [cursor, Cursor.drop, Cursor.texts, List.drop_append_of_le_length hl,
      List.take_append_of_le_length hl, Nat.min_eq_left hl,
      Nat.min_eq_left (Nat.le_add_right_of_le hl), Nat.add_assoc]
  · simp [cursor, Cursor.drop, Cursor.texts, hn, Nat.add_assoc]

/-- Type arguments that are next end, or are given up, before a closer. -/
theorem Unseen.angleLength {c : Cursor} (h : f.Unseen c) (ha : c.atPunct "<" = true) :
    Parser.angleLength 1 (f.cursor c).next.ahead = Parser.angleLength 1 c.next.ahead ∧
      ∀ n, Parser.angleLength 1 c.next.ahead = some n → f.Unseen (c.drop (n + 1)) := by
  obtain ⟨i, _ | ⟨l, ls⟩⟩ := c
  · cases ha
  · have hl : l.isOneOf closers = false := isOneOf_of_isPunct_not_mem ha (by decide)
    rcases h with hn | hc
    · exact ⟨by simp [cursor, Cursor.next, hn], fun _ _ => .inl hn⟩
    · have hc' := any_closers_of_cons hc hl
      refine ⟨angleLength_append hc' f.after, fun n hn => .inr ?_⟩
      exact (any_closers_drop hc' hn : (ls.drop n).any (·.isOneOf closers) = true)

/-- **Type arguments that qualify a name** are looked for without a bound, and yet they are the
same in the frame: the search ends at a closer. -/
theorem sees_qualifyingArguments : f.Sees qualifyingArguments := by
  intro c h
  have ha : (f.cursor c).atPunct "<" = c.atPunct "<" := sees_atPunct "<" c h
  cases hc : c.atPunct "<" with
  | false => simp [qualifyingArguments, ha, hc]
  | true =>
    obtain ⟨heq, hdrop⟩ := h.angleLength hc
    simp only [qualifyingArguments, heq, ha, hc, if_true]
    cases hn : Parser.angleLength 1 c.next.ahead with
    | none => rfl
    | some n =>
      have hdot : (f.cursor (c.drop (n + 1))).atPunct "." = (c.drop (n + 1)).atPunct "." :=
        sees_atPunct "." _ (hdrop n hn)
      simp only [(hdrop n hn).cursor_drop.1, hdot]

/-- Some lexemes as a text, all at once. -/
theorem carries_take (n : Nat) :
    f.Carries id (fun d => ⟨d.texts n, d.drop n, []⟩ : Parser String)
      (fun d => ⟨d.texts n, d.drop n, []⟩ : Parser String) := fun c => by
  refine ⟨List.drop_suffix n c.ahead, fun hu _ => ?_⟩
  have hd := Unseen.cursor_drop (f := f) (n := n) hu
  simp [step, hd.1, hd.2]

/-- The rest of a member name as one turn: a dot and a name, type arguments, or nothing. -/
theorem memberNameTail_eq (name : String) (c : Cursor) :
    memberNameTail name c = (do
      if ← look (fun d => d.atPunct "." && d.next.atName) then
        advance
        let next ← look Cursor.text
        advance
        memberNameTail (name ++ "." ++ next)
      else
        match ← look qualifyingArguments with
        | some n =>
          let arguments ← (fun d => ⟨d.texts (n + 1), d.drop (n + 1), []⟩ : Parser String)
          memberNameTail (name ++ arguments)
        | none => pure name : Parser String) c := by
  refine eq_lookIf (fun h => ?_) fun h => ?_
  · rw [memberNameTail, dif_pos (by simpa using h)]
    rfl
  · rw [memberNameTail, dif_neg (by simpa using h)]
    split
    · rename_i n hn
      rw [bind_apply]
      simp only [look, hn]
      rfl
    · rename_i hn
      rw [bind_apply]
      simp only [look, hn]
      rfl

/-- An explicit implementation is named through types, which may have arguments. -/
theorem carries_memberNameTail (name : String) :
    f.Carries id (memberNameTail name) (memberNameTail name) := by
  intro c
  induction hr : c.remaining using Nat.strongRecOn generalizing name c with
  | ind r ih =>
    have dotted : f.Sees fun d => d.atPunct "." && d.next.atName :=
      (sees_atPunct ".").andNext (not_closer_of_atPunct (by decide)) sees_atName
    refine .of_eq (memberNameTail_eq name c) (memberNameTail_eq name _) <|
      .lookIf dotted (fun hq => ?_) fun _ => ?_
    · refine (Carries.advance c).bind <| (Carries.see sees_text _).bind <|
        (Carries.advance _).bind <| ih _ ?_ _ _ rfl
      rw [Bool.and_eq_true] at hq
      exact hr ▸ Nat.lt_of_le_of_lt (Cursor.remaining_next_le _)
        (Cursor.remaining_next_lt (Cursor.atEnd_of_any hq.1))
    · refine (Carries.see sees_qualifyingArguments c).bind ?_
      cases hq : (look qualifyingArguments c).value with
      | none => exact Carries.pure name c
      | some n =>
        refine (carries_take (n + 1) c).bind <| ih _ ?_ _ _ rfl
        have hlt :=
          Cursor.remaining_next_lt (Cursor.atEnd_of_any (qualifyingArguments_eq_some hq).1)
        have hd : (c.drop (n + 1)).remaining = c.remaining - (n + 1) := c.remaining_drop (n + 1)
        show (c.drop (n + 1)).remaining < r
        omega

theorem carries_memberName? : f.Carries id memberName? memberName? :=
  .bind carries_name? fun
    | some first => .map (carries_memberNameTail first) fun _ => rfl
    | none => .pure none

theorem carries_namespacePath : f.Carries id namespacePath namespacePath :=
  .bind carries_qualifiedName? fun
    | some name => .pure name
    | none => .bind (.reportMissing .identifier) fun _ => .pure ""

end Frame
end Parser
end Outline
