/-
# Skipping and names under a renaming

What is skipped is skipped by its brackets and stops alone, so a renaming does not change
how far it reaches.  Names and types end where something is next that does not go on with
them; the texts that are put together on the way correspond piece by piece.
-/

import Outline.Proofs.Frame.Names
import Outline.Proofs.Renaming.Basic

namespace Outline
namespace Parser
namespace Renaming

variable {r : Renaming}

/-! ### Groups -/

/-- A bracket that is left open is reported behind the same token. -/
theorem matches_unclosed (index : Nat) (opened : List Bracket) :
    List.Forall₂ r.Matches (unclosed index opened) (unclosed (r.before + index) opened) := by
  induction opened with
  | nil => exact .nil
  | cons b opened ih => exact .cons (.at rfl Mark.gap index) ih

/-- **A group is skipped by its brackets alone**, which no renaming touches. -/
theorem agree_skipOpened {ls ms : List Lexeme} (h : List.Forall₂ r.Same ls ms)
    (opened : List Bracket) (index : Nat) :
    r.Agree Eq (skipOpened opened index ls) (skipOpened opened (r.before + index) ms) := by
  induction h generalizing opened index with
  | nil => exact ⟨rfl, ⟨rfl, .nil⟩, matches_unclosed index opened⟩
  | @cons l m ls ms hl hls ih =>
    rw [skipOpened, skipOpened, ← delimiter?_eq hl]
    cases hd : l.delimiter? with
    | none => exact ih opened (index + 1)
    | some d =>
      cases d with
      | opening b => exact ih (b :: opened) (index + 1)
      | closing b =>
        have hnext : r.Beside ⟨index + 1, ls⟩ ⟨r.before + (index + 1), ms⟩ := ⟨rfl, hls⟩
        dsimp only
        split
        · split
          · exact ⟨rfl, hnext, matches_unclosed index _⟩
          · exact (ih _ (index + 1)).before (matches_unclosed index _)
        · split
          · exact ⟨rfl, .cons hl hls, matches_unclosed index opened⟩
          · exact (ih opened (index + 1)).before <| .cons (.at (by rfl) Mark.whole index) .nil

/-- A group ends at the same bracket. -/
theorem runs_skipGroup : r.Runs Eq skipGroup skipGroup := fun c d hc => by
  have := agree_skipOpened hc.ahead [] c.index
  rwa [← hc.index] at this

/-! ### Skipping -/

/-- What goes on after a group that is closed. -/
theorem RunsAt.ifClosed {p q : Parser Unit} {c d : Cursor} (hc : r.Beside c d)
    (h : (skipGroup c).value = true → r.Beside (skipGroup c).rest (skipGroup d).rest →
      r.RunsAt Eq p q (skipGroup c).rest (skipGroup d).rest) :
    r.Agree Eq
      (if (skipGroup c).value = true then (p (skipGroup c).rest).before (skipGroup c).found
        else ⟨(), (skipGroup c).rest, (skipGroup c).found⟩)
      (if (skipGroup d).value = true then (q (skipGroup d).rest).before (skipGroup d).found
        else ⟨(), (skipGroup d).rest, (skipGroup d).found⟩) := by
  have hg := runs_skipGroup c d hc
  rw [← hg.value]
  split
  · exact (h ‹_› hg.rest).before hg.found
  · exact ⟨rfl, hg.rest, hg.found⟩

/-- An expression ends at the same stop: stops are marks. -/
theorem runs_skipExpression (stops : List String) :
    r.Runs Eq (skipExpression stops) (skipExpression stops) := by
  refine .loop fun c d hc ih => ?_
  have hgroup := RunsAt.ifClosed hc fun hv hr => ih _ _ (skipGroup_remaining_lt hv) hr
  obtain ⟨i, ls⟩ := c
  obtain ⟨j, ms⟩ := d
  obtain ⟨rfl, hls⟩ := hc
  show r.Agree Eq (skipExpression stops ⟨i, ls⟩) (skipExpression stops ⟨r.before + i, ms⟩)
  rw [skipExpression.eq_def stops ⟨i, ls⟩, skipExpression.eq_def stops ⟨r.before + i, ms⟩]
  cases hls with
  | nil => exact ⟨rfl, ⟨rfl, .nil⟩, .nil⟩
  | @cons l m ls ms hl hls =>
    dsimp only
    rw [← isOneOf_eq hl, ← delimiter?_eq hl]
    split
    · exact ⟨rfl, .cons hl hls, .nil⟩
    · split
      · exact ⟨rfl, .cons hl hls, .nil⟩
      · exact hgroup
      · exact ih _ _ (Cursor.remaining_next_lt rfl) (Beside.cons hl hls).next

/-- The lexemes before a body are skipped up to the same brace or mark. -/
theorem runs_skipToBody : r.Runs Eq skipToBody skipToBody := by
  refine .loop fun c d hc ih => ?_
  have hgroup := RunsAt.ifClosed hc fun hv hr => ih _ _ (skipGroup_remaining_lt hv) hr
  obtain ⟨i, ls⟩ := c
  obtain ⟨j, ms⟩ := d
  obtain ⟨rfl, hls⟩ := hc
  show r.Agree Eq (skipToBody ⟨i, ls⟩) (skipToBody ⟨r.before + i, ms⟩)
  rw [skipToBody.eq_def ⟨i, ls⟩, skipToBody.eq_def ⟨r.before + i, ms⟩]
  cases hls with
  | nil => exact ⟨rfl, ⟨rfl, .nil⟩, .nil⟩
  | @cons l m ls ms hl hls =>
    dsimp only
    rw [← isOneOf_eq hl, ← isOneOf_eq hl]
    split
    · exact ⟨rfl, .cons hl hls, .nil⟩
    · split
      · exact hgroup
      · exact ih _ _ (Cursor.remaining_next_lt rfl) (Beside.cons hl hls).next

/-- Whether a cursor has not moved, and what is next. -/
theorem runs_stuck {i j : Nat} (hi : j = r.before + i) {k : Cursor → Bool} (hk : r.Sees k) :
    r.Runs Eq (look fun c => c.index == i && k c) (look fun c => c.index == j && k c) := by
  refine .look fun c d hc => ?_
  show (c.index == i && k c) = (d.index == j && k d)
  rw [hk c d hc, hc.index, hi]
  exact congrArg (· && k d) (by rw [Bool.eq_iff_iff]; simp)

/-- A member that is not understood is skipped over the same lexemes. -/
theorem runs_skipMember : r.Runs Eq skipMember skipMember :=
  .bind .index fun _ _ hi => .andThen (runs_skipExpression [";"]) fun _ =>
    .andThen (runs_eat ";") fun _ => .ite (.pure rfl) <|
      .andThen (runs_stuck hi (sees_atPunct "\x7d").not) fun _ => .ite .advance (.pure rfl)

/-- Attributes are skipped group by group, so what they say is not compared. -/
theorem runs_attributes : r.Runs Eq attributes attributes :=
  .loop fun c d hc ih => .of_eq (Frame.attributes_eq c) (Frame.attributes_eq d) <|
    .lookIf (sees_atPunct "[") hc
      (fun _ => .bind (runs_skipGroup c d hc) fun hv hr => .ite (by rw [hv])
        (fun ht => ih _ _ (skipGroup_remaining_lt ht) hr) fun _ => Runs.pure rfl _ _ hr)
      fun _ => Runs.pure rfl c d hc

theorem runs_requiredParens : r.Runs Eq requiredParens requiredParens :=
  .lookIf (sees_atPunct "(") (.andThen runs_skipGroup fun _ => .pure rfl)
    (.reportMissing .openParen)

theorem runs_optionalParens : r.Runs Eq optionalParens optionalParens :=
  .lookIf (sees_atPunct "(") (.andThen runs_skipGroup fun _ => .pure rfl) (.pure rfl)

/-! ### Types -/

/-- Type parameters are counted by their commas, and end at the same `>`. -/
theorem agree_typeParametersFrom {ls ms : List Lexeme} (h : List.Forall₂ r.Same ls ms)
    (arity depth index : Nat) :
    r.Agree Eq (typeParametersFrom arity depth index ls)
      (typeParametersFrom arity depth (r.before + index) ms) := by
  induction h generalizing arity depth index with
  | nil => exact ⟨rfl, ⟨rfl, .nil⟩, .cons (.at rfl Mark.gap index) .nil⟩
  | @cons l m ls ms hl hls ih =>
    rw [typeParametersFrom, typeParametersFrom]
    simp only [← isOneOf_eq hl, ← isPunct_eq hl]
    split
    · exact ⟨rfl, .cons hl hls, .cons (.at rfl Mark.gap index) .nil⟩
    split
    · exact ih arity (depth + 1) (index + 1)
    split
    · split
      · exact ⟨rfl, ⟨rfl, hls⟩, .nil⟩
      · exact ih arity (depth - 1) (index + 1)
    split
    · exact ih (arity + 1) depth (index + 1)
    · exact ih arity depth (index + 1)

theorem runs_typeParameters : r.Runs Eq typeParameters typeParameters := fun c d hc => by
  have := agree_typeParametersFrom hc.next.ahead 1 1 c.next.index
  rwa [← hc.next.index] at this

theorem runs_typeParameters? : r.Runs Eq typeParameters? typeParameters? :=
  .lookIf (sees_atPunct "<") runs_typeParameters (.pure rfl)

/-- A qualifying sign is followed by a name in both sources. -/
theorem sees_atQualifier : r.Sees atQualifier := (sees_atOneOf [".", "::"]).and sees_atName.next

theorem sees_atArraySuffix : r.Sees atArraySuffix :=
  (sees_atPunct "[").and (sees_atOneOf ["]", ","]).next

/-- The rest of a type is the same turn by turn. -/
theorem runs_typeTail : r.Runs Eq typeTail typeTail :=
  .loop fun c d hc ih => .of_eq (Frame.typeTail_eq c) (Frame.typeTail_eq d) <|
    .lookIf sees_atQualifier hc
      (fun hq => .bind (Runs.advance c d hc) fun _ hr => .bind (Runs.advance _ _ hr) fun _ hr =>
        ih _ _ (atQualifier_remaining_lt hq) hr) fun _ =>
    .lookIf (sees_atPunct "<") hc
      (fun ha => .bind (runs_typeParameters c d hc) fun _ hr =>
        ih _ _ (typeParameters_remaining_lt (Cursor.atEnd_of_any ha)) hr)
      fun _ => Runs.pure rfl c d hc

theorem runs_typeSuffixes : r.Runs Eq typeSuffixes typeSuffixes :=
  .loop fun c d hc ih => .of_eq (Frame.typeSuffixes_eq c) (Frame.typeSuffixes_eq d) <|
    .lookIf (sees_atOneOf ["?", "*"]) hc
      (fun hs => .bind (Runs.advance c d hc) fun _ hr =>
        ih _ _ (Cursor.remaining_next_lt (Cursor.atEnd_of_any hs)) hr) fun _ =>
    .lookIf sees_atArraySuffix hc
      (fun _ => .bind (runs_skipGroup c d hc) fun hv hr => .ite (by rw [hv])
        (fun ht => ih _ _ (skipGroup_remaining_lt ht) hr) fun _ => Runs.pure rfl _ _ hr)
      fun _ => Runs.pure rfl c d hc

/-- **A type** ends at the same place, whatever its names are. -/
theorem runs_typeReference : r.Runs Eq typeReference typeReference :=
  .lookIf (sees_atPunct "(")
    (.andThen runs_skipGroup fun _ => .ite (.andThen runs_typeSuffixes fun _ => .pure rfl)
      (.pure rfl)) <|
  .lookIf (sees_atName.or (sees_atKeywordOf builtinTypes))
    (.andThen .advance fun _ => .andThen runs_typeTail fun _ => .andThen runs_typeSuffixes fun _ =>
      .pure rfl)
    (.pure rfl)

/-! ### Names -/

/-- A qualified name is put together from lexemes that correspond. -/
theorem runs_qualifiedTail {s t : String} (h : r.Spells s t) :
    r.Runs r.Spells (qualifiedTail s) (qualifiedTail t) := by
  intro c d hc
  induction hn : c.remaining using Nat.strongRecOn generalizing s t c d with
  | ind n ih =>
    refine .of_eq (Frame.qualifiedTail_eq s c) (Frame.qualifiedTail_eq t d) <|
      .lookIf sees_atQualifier hc (fun hq => ?_) fun _ => Runs.pure h c d hc
    refine .bind (Runs.text c d hc) fun hs hr => .bind (Runs.advance _ _ hr) fun _ hr =>
      .bind (Runs.text _ _ hr) fun hs' hr => .bind (Runs.advance _ _ hr) fun _ hr => ?_
    exact ih _ (hn ▸ atQualifier_remaining_lt hq) ((h.append hs).append hs') _ _ hr rfl

/-- The texts are related by `Spells` and not equal, since the names in them may differ. -/
theorem runs_qualifiedName? : r.Runs (Option.Rel r.Spells) qualifiedName? qualifiedName? := by
  refine .bind runs_name? fun o o' ho => ?_
  cases ho with
  | none => exact .pure .none
  | some h => exact .bind (runs_qualifiedTail h.spells) fun _ _ hs => .pure (.some hs)

theorem runs_namespacePath : r.Runs r.Spells namespacePath namespacePath := by
  refine .bind runs_qualifiedName? fun o o' ho => ?_
  cases ho with
  | none => exact .andThen (.reportMissing .identifier) fun _ => .pure .nil
  | some h => exact .pure h

/-- Type arguments in front of a dot are as long in both sources. -/
theorem angleLength_eq {ls ms : List Lexeme} (h : List.Forall₂ r.Same ls ms) (depth : Nat) :
    angleLength depth ls = angleLength depth ms := by
  induction h generalizing depth with
  | nil => rfl
  | cons hl _ ih =>
    simp only [angleLength, ← isPunct_eq hl, ← isOneOf_eq hl, ih]

theorem sees_qualifyingArguments : r.Sees qualifyingArguments := fun c d hc => by
  have hdot (n : Nat) : (c.drop n).atPunct "." = (d.drop n).atPunct "." :=
    sees_atPunct "." _ _ (hc.drop n)
  simp only [qualifyingArguments, sees_atPunct "<" c d hc, angleLength_eq hc.next.ahead, hdot]

/-- Lexemes that are taken together spell texts that correspond. -/
theorem spells_texts {c d : Cursor} (hc : r.Beside c d) (n : Nat) :
    r.Spells (c.texts n) (d.texts n) :=
  ⟨c.ahead.take n, d.ahead.take n, List.forall₂_take n hc.ahead, rfl, rfl⟩

/-- The name of a member goes on at a dot, or with type arguments before one. -/
theorem runs_memberNameTail {s t : String} (h : r.Spells s t) :
    r.Runs r.Spells (memberNameTail s) (memberNameTail t) := by
  intro c d hc
  induction hn : c.remaining using Nat.strongRecOn generalizing s t c d with
  | ind n ih =>
    refine .of_eq (Frame.memberNameTail_eq s c) (Frame.memberNameTail_eq t d) <|
      .lookIf ((sees_atPunct ".").and sees_atName.next) hc (fun hq => ?_) fun _ => ?_
    · refine .bind (Runs.advance c d hc) fun _ hr => .bind (Runs.text _ _ hr) fun hs hr =>
        .bind (Runs.advance _ _ hr) fun _ hr => ih _ ?_ ((h.append .dot).append hs) _ _ hr rfl
      rw [Bool.and_eq_true] at hq
      exact hn ▸ Nat.lt_of_le_of_lt (Cursor.remaining_next_le _)
        (Cursor.remaining_next_lt (Cursor.atEnd_of_any hq.1))
    · refine .bind (Runs.look (V := Eq) sees_qualifyingArguments c d hc) fun hv hr => ?_
      rw [← hv]
      cases hq : (look qualifyingArguments c).value with
      | none => exact Runs.pure h _ _ hr
      | some k =>
        refine .bind ⟨spells_texts hr (k + 1), hr.drop (k + 1), .nil⟩ fun hs hr =>
          ih _ ?_ (h.append hs) _ _ hr rfl
        have hlt :=
          Cursor.remaining_next_lt (Cursor.atEnd_of_any (qualifyingArguments_eq_some hq).1)
        have hd : (c.drop (k + 1)).remaining = c.remaining - (k + 1) := c.remaining_drop (k + 1)
        show (c.drop (k + 1)).remaining < n
        omega

/-- A member without a name has none in both sources. -/
theorem runs_memberName? : r.Runs (Option.Rel r.Spells) memberName? memberName? := by
  refine .bind runs_name? fun o o' ho => ?_
  cases ho with
  | none => exact .pure .none
  | some h => exact .bind (runs_memberNameTail h.spells) fun _ _ hs => .pure (.some hs)

end Renaming
end Parser
end Outline
