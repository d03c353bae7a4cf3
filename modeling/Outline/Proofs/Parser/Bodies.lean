/-
# Bodies are accepted

Where a block stands does not matter to its checks, locals are never faults, and the
accessors of an automatic property are in order.  So the bodies that are well formed
are accepted by the parsers of bodies and accessors.
-/

import Outline.Proofs.Layout.Spelling
import Outline.Proofs.Parser.Acceptance

namespace Outline
namespace Parser

open Outline.Tree
open Lexeme (mark)

variable {tol : Tolerance}

/-! ### Semicolons that are missing -/

/-- Findings that are all of missing semicolons. -/
def OnlySemicolons (found : List Finding) : Prop :=
  ∀ x ∈ found, x.cause = .expected .semicolon

namespace OnlySemicolons

theorem nil : OnlySemicolons [] := fun _ h => absurd h List.not_mem_nil

theorem append {f g : List Finding} (hf : OnlySemicolons f) (hg : OnlySemicolons g) :
    OnlySemicolons (f ++ g) := fun x hx => (List.mem_append.1 hx).elim (hf x) (hg x)

theorem ite {b : Prop} [Decidable b] {f g : List Finding} (hf : OnlySemicolons f)
    (hg : OnlySemicolons g) : OnlySemicolons (if b then f else g) := by
  split
  · exact hf
  · exact hg

theorem missingAfter (i : Nat) : OnlySemicolons [Parser.missingAfter i] := fun _ h =>
  List.mem_singleton.1 h ▸ rfl

theorem isFault {f : List Finding} (h : OnlySemicolons f) : ∀ x ∈ f, x.cause.isFault = true :=
  fun x hx => by rw [h x hx]; rfl

/-- Some semicolon is missing if anything is found. -/
theorem any_eq {f : List Finding} (h : OnlySemicolons f) :
    f.any (·.cause.isSemicolon) = !f.isEmpty := by
  cases f with
  | nil => rfl
  | cons x f => rw [List.any_cons, h x List.mem_cons_self]; rfl

end OnlySemicolons

theorem checkStatementsFrom_semicolons (s : StatementState) (index : Nat) (ls : List Lexeme) :
    OnlySemicolons (checkStatementsFrom s index ls) := by
  induction ls generalizing s index with
  | nil => exact .nil
  | cons l ls ih => exact .append (.ite (.missingAfter _) .nil) (ih _ _)

theorem missing_semicolons (s : AccessorState) (index : Nat) (l : Lexeme) (next : Option Lexeme) :
    OnlySemicolons (s.missing index l next) :=
  .ite (.append (.ite (.missingAfter _) .nil) (.ite .nil (.missingAfter _))) .nil

theorem checkAccessorsFrom_semicolons (s : AccessorState) (index : Nat) (ls : List Lexeme) :
    OnlySemicolons (checkAccessorsFrom s index ls).1 := by
  induction ls generalizing s index with
  | nil => exact .ite (.missingAfter _) .nil
  | cons l ls ih => exact .append (missing_semicolons s index l _) (ih _ _)

/-! ### Checks of blocks -/

/-- Statements have their semicolons wherever their block stands. -/
theorem checkStatementsFrom_moved (s : StatementState) {i : Nat} {ls : List Lexeme}
    (h : checkStatementsFrom s i ls = []) (j : Nat) : checkStatementsFrom s j ls = [] := by
  induction ls generalizing s i j with
  | nil => rfl
  | cons l ls ih =>
    rw [checkStatementsFrom, List.append_eq_nil_iff] at h ⊢
    refine ⟨?_, ih _ h.2 _⟩
    have hm := h.1
    split
    · rename_i hs
      rw [if_pos hs] at hm
      cases hm
    · rfl

/-- What is known of accessors that stand `k` tokens further on. -/
def AccessorState.moved (k : Nat) (s : AccessorState) : AccessorState :=
  { s with blockStart := s.blockStart.map (k + ·) }

namespace AccessorState

/-- A semicolon is missing wherever the accessor stands. -/
theorem missing_moved (k : Nat) (s : AccessorState) (i j : Nat) (l : Lexeme)
    (next : Option Lexeme) : (s.moved k).missing j l next = [] ↔ s.missing i l next = [] := by
  have hstart : (s.moved k).startsAccessor l = s.startsAccessor l := rfl
  have hopen : (s.moved k).inExpression = s.inExpression := rfl
  rw [missing, missing, hstart, hopen]
  cases s.startsAccessor l <;> cases s.inExpression <;>
    cases next.any (·.isOneOf [";", "\x7b", "=>"]) <;> simp

theorem step_moved (k : Nat) (s : AccessorState) (index : Nat) (l : Lexeme) :
    (s.moved k).step (k + index) l
      = ((s.step index l).1.moved k, (s.step index l).2.map (Prod.map (k + ·) (k + ·))) := by
  have hafter : (s.moved k).expressionAfter l = s.expressionAfter l := rfl
  unfold step
  rw [hafter]
  cases l.delimiter? with
  | none => rfl
  | some d =>
    cases d with
    | opening b =>
      cases hb : s.depth == 0 && b == .brace && !s.expressionAfter l <;> simp [moved, hb]
    | closing b =>
      by_cases hd : s.depth ≤ 1 <;> cases b <;> simp [moved, hd, Function.comp_def]

end AccessorState

/-- Accessors miss a semicolon wherever they stand, and their blocks stand as far on as they
do. -/
theorem checkAccessorsFrom_moved (k : Nat) (s : AccessorState) (index : Nat) (ls : List Lexeme) :
    ((checkAccessorsFrom (s.moved k) (k + index) ls).1 = [] ↔
      (checkAccessorsFrom s index ls).1 = []) ∧
      (checkAccessorsFrom (s.moved k) (k + index) ls).2
        = (checkAccessorsFrom s index ls).2.map (Prod.map (k + ·) (k + ·)) := by
  induction ls generalizing s index with
  | nil =>
    rw [checkAccessorsFrom, checkAccessorsFrom]
    refine ⟨?_, rfl⟩
    show (if s.inExpression = true then _ else _) = [] ↔ _
    cases s.inExpression <;> simp
  | cons l ls ih =>
    obtain ⟨hfound, hblocks⟩ := ih (s.step index l).1 (index + 1)
    rw [← Nat.add_assoc] at hfound hblocks
    rw [checkAccessorsFrom, checkAccessorsFrom, s.step_moved k]
    dsimp only
    rw [List.append_eq_nil_iff, List.append_eq_nil_iff, hfound, hblocks, List.map_append,
      AccessorState.missing_moved k s index]
    refine ⟨Iff.rfl, ?_⟩
    cases (s.step index l).2 <;> rfl

/-- Locals that are never mentioned are no faults. -/
theorem covers_checkLocalsFrom (body : List Lexeme) (index place : Nat) (fresh : Bool)
    (ls : List Lexeme) :
    Tolerance.harmless.covers (checkLocalsFrom body index place fresh ls) = true := by
  induction ls generalizing place fresh with
  | nil => rfl
  | cons l ls ih =>
    rw [checkLocalsFrom, Tolerance.covers_append, ih, Bool.and_true]
    cases fresh with
    | false => rfl
    | true =>
      rw [if_pos rfl]
      split
      · rename_i k name start _
        split
        · rfl
        · cases start <;> rfl
      · rfl

/-- **A block is accepted** if its statements have their semicolons. -/
theorem covers_check {ms : List Lexeme} (h : checkStatements 0 (grouped .brace ms) = []) (i : Nat) :
    Tolerance.harmless.covers (Block.check ⟨i, grouped .brace ms⟩) = true := by
  rw [Block.check, Tolerance.covers_append, Block.inner]
  rw [show checkStatements i (grouped .brace ms) = [] from checkStatementsFrom_moved {} h i]
  exact covers_checkLocalsFrom _ _ _ _ _

/-- **The check of a block misses a semicolon** if and only if that of its statements does. -/
theorem any_check (b : Block) :
    b.check.any (·.cause.isSemicolon) = !(checkStatements 0 b.lexemes).isEmpty := by
  have hlocals : (checkLocals (b.index + 1) b.inner).any (·.cause.isSemicolon) = false := by
    refine List.any_eq_false.2 fun x hx hsemicolon => ?_
    have hharmless :=
      List.all_eq_true.1 (covers_checkLocalsFrom b.inner (b.index + 1) 0 true _) x hx
    cases hc : x.cause <;> simp_all [Tolerance.harmless, Cause.isFault, Cause.isSemicolon]
  have hmoved : (checkStatements b.index b.lexemes).isEmpty
      = (checkStatements 0 b.lexemes).isEmpty := by
    rw [Bool.eq_iff_iff, List.isEmpty_iff, List.isEmpty_iff]
    exact ⟨fun h => checkStatementsFrom_moved {} h 0, fun h => checkStatementsFrom_moved {} h _⟩
  have hstatements := (checkStatementsFrom_semicolons {} b.index b.lexemes).any_eq
  rw [Block.check, List.any_append, hlocals, Bool.or_false]
  exact hstatements.trans (congrArg (!·) hmoved)

theorem accepts_checkedBlock {check : Block → List Finding} {ms : List Lexeme}
    (h : WellNested ms) (i : Nat) (after : List Lexeme)
    (hc : tol.covers (check ⟨i, grouped .brace ms⟩) = true) :
    Accepts tol (checkedBlock check) i (grouped .brace ms) after fun _ => True := by
  have hg := skipGroup_of_wellNested .brace h i after
  have hb : checkedBlock check ⟨i, grouped .brace ms ++ after⟩
      = ⟨(), ⟨i + (grouped .brace ms).length, after⟩, check ⟨i, grouped .brace ms⟩⟩ := by
    simp only [checkedBlock, hg, if_true, List.nil_append, Nat.add_sub_cancel_left, List.take_left]
  exact .of_eq hb trivial hc

/-! ### Bodies -/

/-- A block is accepted as a body if its statements have their semicolons. -/
theorem accepts_block {ms : List Lexeme} (hm : WellNested ms)
    (h : checkStatements 0 (grouped .brace ms) = []) (i : Nat) (after : List Lexeme) :
    Accepts .harmless body i (grouped .brace ms) after fun _ => True :=
  .lookThen rfl (accepts_checkedBlock hm i after (covers_check h i))

/-- **The body of a method is accepted.** -/
theorem accepts_body {b : MethodBody} (h : b.WellFormed) (i : Nat) (after : List Lexeme) :
    Accepts .harmless body i b.spelling after fun _ => True := by
  cases b with
  | block lines => exact accepts_block h.nested h.ended i after
  | expression code =>
    exact .lookElse rfl <| .eat <| accepts_expressionToEnd h.2 (i + 1) after
  | absent => exact .lookElse rfl <| .eat_not rfl <| .expect ";" .semicolon

theorem checkAccessors_automatic (setter : Option Setter) (i : Nat) :
    checkAccessors ⟨i, grouped .brace (accessorSpelling setter)⟩ = [] := by
  rcases setter with _ | _ | _ | _ <;> rfl

theorem wellNested_accessors (setter : Option Setter) : WellNested (accessorSpelling setter) := by
  rcases setter with _ | _ | _ | _ <;> decide

theorem accepts_emptyBody (i : Nat) (after : List Lexeme) :
    Accepts tol body i (grouped .brace []) after fun _ => True :=
  .lookThen rfl (accepts_checkedBlock .nil i after rfl)

theorem accepts_accessorBlock (setter : Option Setter) (i : Nat) (after : List Lexeme) :
    Accepts tol (checkedBlock checkAccessors) i (grouped .brace (accessorSpelling setter)) after
      fun _ => True := by
  refine accepts_checkedBlock (wellNested_accessors setter) i after ?_
  rw [checkAccessors_automatic]
  rfl

/-- **Automatic accessors are accepted**, if no `=` follows. -/
theorem accepts_automatic (setter : Option Setter) {after : List Lexeme}
    (ha : after.head?.any (·.isPunct "=") = false) (i : Nat) :
    Accepts tol accessors i (grouped .brace (accessorSpelling setter)) after fun _ => True :=
  .lookThen rfl <| .before_nothing (accepts_accessorBlock setter i after) fun _ _ =>
    .eat_not ha <| .pure trivial

/-- **What follows the name of a property is accepted**, if no `=` follows. -/
theorem accepts_accessors {p : PropertyDecl} (h : p.WellFormed) {after : List Lexeme}
    (ha : after.head?.any (·.isPunct "=") = false) (i : Nat) :
    Accepts tol accessors i p.tail after fun _ => True := by
  unfold PropertyDecl.tail
  cases hb : p.body with
  | auto setter =>
    cases hi : p.initializer with
    | none =>
      have : Accepts tol accessors i _ after _ := accepts_automatic setter ha i
      rwa [← List.append_nil (grouped .brace _)] at this
    | some code =>
      refine .lookThen rfl <| .bind (accepts_accessorBlock setter i _) fun _ _ => .eat <| ?_
      exact accepts_expressionToEnd (h.initializer code hi).2 _ after
  | expression code =>
    exact .lookElse rfl <| .eat <| accepts_expressionToEnd (h.body code hb).2 (i + 1) after

end Parser
end Outline
