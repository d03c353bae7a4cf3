/-
# Skipping in a frame

What is skipped without a fault is skipped in the frame of a longer source as it is
without.  A group that is closed ends with its last bracket, whatever follows; the other
loops stop at what they see.
-/

import Outline.Proofs.Frame.Basic
import Outline.Proofs.Parser.Level

namespace Outline
namespace Parser
namespace Frame

variable {f : Frame}

/-- The rest of a group without faults is skipped in the frame as it is without. -/
theorem skipOpened_cursor {opened : List Bracket} {index : Nat} {ls : List Lexeme}
    (hu : (skipOpened opened index ls).value = true ∨ f.Unseen (skipOpened opened index ls).rest)
    (hf : (skipOpened opened index ls).found = []) :
    skipOpened opened (f.before + index) (ls ++ f.after)
      = f.step id (skipOpened opened index ls) := by
  induction ls generalizing opened index with
  | nil =>
    have hn : f.after = [] := (hu.resolve_left Bool.false_ne_true).after_eq_nil rfl
    rw [skipOpened] at hf ⊢
    rw [unclosed_eq_nil] at hf
    simp [hn, hf, skipOpened, step, cursor, unclosed]
  | cons l ls ih =>
    rw [List.cons_append, skipOpened]
    rw [skipOpened] at hu hf ⊢
    cases hd : l.delimiter? with
    | none =>
      simp only [hd] at hu hf ⊢
      exact ih hu hf
    | some d =>
      cases d with
      | opening b =>
        simp only [hd] at hu hf ⊢
        exact ih hu hf
      | closing b =>
        simp only [hd] at hu hf ⊢
        cases hb : opened.contains b with
        | true =>
          simp only [hb, if_true] at hu hf ⊢
          cases ho : (opened.dropWhile (· ≠ b)).tail with
          | nil =>
            simp only [ho] at hf ⊢
            rw [unclosed_eq_nil.1 hf]
            rfl
          | cons o os =>
            simp only [ho, Step.before, List.append_eq_nil_iff] at hu hf ⊢
            have hrest := ih hu hf.2
            rw [← Nat.add_assoc] at hrest
            rw [hrest, unclosed_eq_nil.1 hf.1]
            rfl
        | false =>
          simp only [hb, Bool.false_eq_true, if_false] at hu hf ⊢
          by_cases hbrace : b = .brace
          · simp only [hbrace, if_true] at hf ⊢
            rw [unclosed_eq_nil.1 hf]
            rfl
          · simp [hbrace, Step.before] at hf

/-- A group that is not closed is a fault, and one that is ends with its closing bracket. -/
theorem carries_skipGroup : f.Carries id skipGroup skipGroup := fun c =>
  ⟨suffix_of_passed (skipGroup_passed c), fun hu hf => skipOpened_cursor (.inr hu)
    (eq_nil_of_hasFault (skipOpened_isFault _ _ _) hf)⟩

theorem skipGroup_cursor {c : Cursor} (hv : (skipGroup c).value = true)
    (hf : hasFault (skipGroup c).found = false) :
    skipGroup (f.cursor c) = f.step id (skipGroup c) :=
  skipOpened_cursor (.inl hv) (eq_nil_of_hasFault (skipOpened_isFault _ _ _) hf)

/-- An expression ends in front of a stop or of a closing brace, neither of which is beyond a
closer. -/
theorem carries_skipExpression (stops : List String) :
    f.Carries id (skipExpression stops) (skipExpression stops) := by
  refine fun c => ⟨suffix_of_walks (walks_skipExpression stops) c, fun hu hf => ?_⟩
  fun_induction skipExpression stops c with
  | case1 c h =>
    rw [step, cursor_of_end hu h, skipExpression]
    rfl
  | case2 c l ls h hs =>
    rw [step, cursor_of_ahead h, skipExpression]
    simp only [hs, if_true]
    rfl
  | case3 c l ls h hs b hb =>
    rw [step, cursor_of_ahead h, skipExpression]
    simp only [hs, hb, Bool.false_eq_true, if_false]
    rfl
  | case4 c l ls h hs b hb s closed ih =>
    have hgroup := skipGroup_cursor (f := f) closed (hasFault_append_eq_false.1 hf).1
    rw [step_before, ← ih hu (hasFault_append_eq_false.1 hf).2]
    rw [cursor_of_ahead h] at hgroup ⊢
    rw [skipExpression]
    simp only [hs, hb, Bool.false_eq_true, if_false, hgroup]
    exact dif_pos closed
  | case5 c l ls h hs b hb s closed =>
    have hgroup := (carries_skipGroup c).eq hu hf
    rw [cursor_of_ahead h] at hgroup ⊢
    rw [skipExpression]
    simp only [hs, hb, Bool.false_eq_true, if_false, hgroup]
    exact dif_neg closed
  | case6 c l ls h hs hd ih =>
    rw [← ih hu hf, ← cursor_next (.inl (by simp [h])), cursor_of_ahead h]
    exact skipExpression_of_plain rfl hd (Bool.eq_false_iff.2 hs)

/-- The constraints before a body are passed group by group, as an expression is. -/
theorem carries_skipToBody : f.Carries id skipToBody skipToBody := by
  refine fun c => ⟨suffix_of_passed (skipToBody_passed c), fun hu hf => ?_⟩
  fun_induction skipToBody c with
  | case1 c h =>
    rw [step, cursor_of_end hu h, skipToBody]
    rfl
  | case2 c l ls h hs =>
    rw [step, cursor_of_ahead h, skipToBody]
    simp only [hs, if_true]
    rfl
  | case3 c l ls h hs hb s closed ih =>
    have hgroup := skipGroup_cursor (f := f) closed (hasFault_append_eq_false.1 hf).1
    rw [step_before, ← ih hu (hasFault_append_eq_false.1 hf).2]
    rw [cursor_of_ahead h] at hgroup ⊢
    rw [skipToBody]
    simp only [hs, hb, Bool.false_eq_true, if_true, if_false, hgroup]
    exact dif_pos closed
  | case4 c l ls h hs hb s closed =>
    have hgroup := (carries_skipGroup c).eq hu hf
    rw [cursor_of_ahead h] at hgroup ⊢
    rw [skipToBody]
    simp only [hs, hb, Bool.false_eq_true, if_true, if_false, hgroup]
    exact dif_neg closed
  | case5 c l ls h hs hb ih =>
    rw [← ih hu hf, ← cursor_next (.inl (by simp [h])), cursor_of_ahead h, skipToBody]
    simp only [hs, hb, Bool.false_eq_true, if_false]

/-- Whether a cursor has not moved, and what is next. -/
theorem look_stuck (start : Nat) {k : Cursor → Bool} (hk : f.Sees k) :
    f.Carries id (look fun c => c.index == start && k c)
      (look fun c => c.index == f.before + start && k c) := by
  refine .look fun c hu => ?_
  dsimp only [id]
  rw [hk c hu]
  exact congrArg (· && k c) (by rw [Bool.eq_iff_iff]; simp [cursor])

theorem carries_skipMember : f.Carries id skipMember skipMember :=
  .bind .index fun start => .bind (carries_skipExpression [";"]) fun _ =>
    .bind (carries_eat ";") fun _ => .ite (.pure ()) <|
      .bind (look_stuck start (sees_atPunct "\x7d").not) fun _ => .ite .advance (.pure ())

/-- Attributes as one turn: a group in square brackets, or nothing. -/
theorem attributes_eq (c : Cursor) :
    attributes c = (do
      if ← look (·.atPunct "[") then
        if ← skipGroup then attributes
        else pure ()
      else pure () : Parser Unit) c := by
  refine eq_lookIf (fun h => ?_) fun h => ?_
  · rw [attributes, if_pos h]
    exact (bindIf_apply skipGroup attributes () c).symm
  · rw [attributes, h, if_neg Bool.false_ne_true]
    rfl

theorem carries_attributes : f.Carries id attributes attributes :=
  .loop fun c ih => .of_eq (attributes_eq c) (attributes_eq _) <|
    .lookIf (sees_atPunct "[") (fun _ => (carries_skipGroup c).bind <|
      .ite (fun hv => ih _ (skipGroup_remaining_lt hv)) fun _ => Carries.pure () _)
    fun _ => Carries.pure () _

end Frame
end Parser
end Outline
