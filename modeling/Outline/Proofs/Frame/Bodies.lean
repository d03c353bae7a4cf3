/-
# Bodies in a frame

Where a block stands matters to its checks by the places of what they find only.  A
semicolon that is missing is a fault, so of the checks of statements and accessors nothing
is left but where the blocks of accessors are.
-/

import Outline.Proofs.Frame.Names
import Outline.Proofs.Parser.Bodies

namespace Outline
namespace Parser
namespace Frame

variable {f : Frame}

/-! ### Blocks -/

variable (f) in
/-- A block in the frame. -/
def block (b : Block) : Block := ⟨f.before + b.index, b.lexemes⟩

/-- The locals of a body are found by the lexemes of the body alone, and marked further on. -/
theorem checkLocalsFrom_frame (body : List Lexeme) (index place : Nat) (fresh : Bool)
    (ls : List Lexeme) :
    checkLocalsFrom body (f.before + index) place fresh ls
      = (checkLocalsFrom body index place fresh ls).map f.finding := by
  induction ls generalizing place fresh with
  | nil => rfl
  | cons l ls ih =>
    rw [checkLocalsFrom, checkLocalsFrom, List.map_append, ih]
    congr 1
    cases fresh with
    | false => rfl
    | true =>
      simp only [if_true]
      split
      · split
        · rfl
        · rename_i start _ _
          cases start <;> simp [LocalStart.cause?, finding, mark, edge, Mark.whole, Nat.add_assoc]
      · rfl

/-- A block without faults has no semicolon missing, and what else is found is moved. -/
theorem check_block {b : Block} (h : hasFault b.check = false) :
    (f.block b).check = b.check.map f.finding := by
  obtain ⟨hs, -⟩ := hasFault_append_eq_false.1 h
  have hnone : checkStatements b.index b.lexemes = [] :=
    eq_nil_of_hasFault (checkStatementsFrom_semicolons _ _ _).isFault hs
  have hmoved : checkStatements (f.before + b.index) b.lexemes = [] :=
    checkStatementsFrom_moved {} hnone _
  rw [Block.check, Block.check, hnone]
  show checkStatements (f.before + b.index) b.lexemes
    ++ checkLocalsFrom b.inner (f.before + (b.index + 1)) 0 true b.inner = _
  rw [hmoved, checkLocalsFrom_frame]
  rfl

/-! ### Accessors -/

/-- A block within a block stands in the same frame. -/
theorem slice_block (b : Block) (first last : Nat) :
    (f.block b).slice (f.before + first) (f.before + last) = f.block (b.slice first last) := by
  simp [Block.slice, block, Nat.add_sub_add_left, Nat.add_assoc]

/-- Findings without a fault were found without one, part by part. -/
theorem hasFault_flatMap {α : Type} {g : α → List Finding} {as : List α}
    (h : hasFault (as.flatMap g) = false) : ∀ a ∈ as, hasFault (g a) = false := by
  intro a ha
  rw [hasFault, List.any_flatMap, List.any_eq_false] at h
  exact Bool.eq_false_iff.2 (h a ha)

/-- **The accessors of a property** are checked in the frame as by themselves. -/
theorem checkAccessors_block {b : Block} (h : hasFault (checkAccessors b) = false) :
    checkAccessors (f.block b) = (checkAccessors b).map f.finding := by
  obtain ⟨hs, hb⟩ := hasFault_append_eq_false.1 h
  have hnone := eq_nil_of_hasFault (checkAccessorsFrom_semicolons _ _ _).isFault hs
  have hmoved := checkAccessorsFrom_moved f.before {} (b.index + 1) b.inner
  have hframe : checkAccessorsFrom {} ((f.block b).index + 1) (f.block b).inner
      = ([], (checkAccessorsFrom {} (b.index + 1) b.inner).2.map
          (Prod.map (f.before + ·) (f.before + ·))) := Prod.ext (hmoved.1.2 hnone) hmoved.2
  simp only [checkAccessors, hframe, hnone, List.nil_append, List.flatMap_map, List.map_flatMap]
  rw [List.flatMap_def, List.flatMap_def]
  refine congrArg List.flatten (List.map_congr_left fun p hp => ?_)
  rw [Prod.map_fst, Prod.map_snd, slice_block]
  exact check_block (hasFault_flatMap hb p hp)

/-! ### Bodies -/

/-- Lexemes that are passed are passed in the frame. -/
theorem passes_cursor {c d : Cursor} {ls : List Lexeme} (h : c.Passes ls d) :
    (f.cursor c).Passes ls (f.cursor d) :=
  ⟨by simp [cursor, h.ahead], by simp [cursor, h.index, Nat.add_assoc]⟩

/-- A block that is skipped is checked in the frame as it is without. -/
theorem carries_checkedBlock {check : Block → List Finding}
    (hc : ∀ b, hasFault (check b) = false → check (f.block b) = (check b).map f.finding) :
    f.Carries id (checkedBlock check) (checkedBlock check) := by
  intro c
  have hrest : (checkedBlock check c).rest = (skipGroup c).rest := by
    rw [checkedBlock]
    split <;> rfl
  refine ⟨hrest ▸ (carries_skipGroup (f := f) c).suffix, fun hu hf => ?_⟩
  rw [hrest] at hu
  obtain ⟨ls, hp⟩ := (skipGroup_passed c).passes
  cases hv : (skipGroup c).value with
  | false =>
    have hskip : checkedBlock check c = ⟨(), (skipGroup c).rest, (skipGroup c).found⟩ := by
      simp [checkedBlock, hv]
    rw [hskip] at hf ⊢
    have hgroup := (carries_skipGroup c).eq hu hf
    simp only [checkedBlock, hgroup, step, id, hv, Bool.false_eq_true, if_false]
  | true =>
    have hblock : c.ahead.take ((skipGroup c).rest.index - c.index) = ls := hp.take_ahead
    have hskip : checkedBlock check c
        = ⟨(), (skipGroup c).rest, (skipGroup c).found ++ check ⟨c.index, ls⟩⟩ := by
      simp [checkedBlock, hv, hblock]
    rw [hskip] at hf ⊢
    obtain ⟨hskipped, hchecked⟩ := hasFault_append_eq_false.1 hf
    have hgroup := (carries_skipGroup c).eq hu hskipped
    have hframe : (f.cursor c).ahead.take ((f.cursor (skipGroup c).rest).index
        - (f.cursor c).index) = ls := (passes_cursor hp).take_ahead
    simp only [checkedBlock, hgroup, step, id, hv, if_true, List.map_append, ← hc _ hchecked,
      hframe]
    rfl

theorem carries_expressionToEnd : f.Carries id expressionToEnd expressionToEnd :=
  .bind (carries_skipExpression [";"]) fun _ => carries_expect ";" .semicolon

theorem carries_accessors : f.Carries id accessors accessors :=
  .lookIf (sees_atPunct "\x7b")
    (.bind (carries_checkedBlock fun _ => checkAccessors_block) fun _ =>
      .bind (carries_eat "=") fun _ => .ite carries_expressionToEnd (.pure ()))
    (.bind (carries_eat "=>") fun _ => .ite carries_expressionToEnd (.reportMissing .openBrace))

theorem carries_body : f.Carries id body body :=
  .lookIf (sees_atPunct "\x7b") (carries_checkedBlock fun _ => check_block)
    (.bind (carries_eat "=>") fun _ => .ite carries_expressionToEnd (carries_expect ";" .semicolon))

theorem carries_requiredParens : f.Carries id requiredParens requiredParens :=
  .lookIf (sees_atPunct "(") (.bind carries_skipGroup fun _ => .pure ()) (.reportMissing .openParen)

theorem carries_optionalParens : f.Carries id optionalParens optionalParens :=
  .lookIf (sees_atPunct "(") (.bind carries_skipGroup fun _ => .pure ()) (.pure ())

end Frame
end Parser
end Outline
