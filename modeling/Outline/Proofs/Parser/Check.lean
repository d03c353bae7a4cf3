/-
# Checks stay inside of their blocks

What the checks of a block find is marked at tokens of the block, and the blocks
that accessors have lie inside of the braces of the list.
-/

import Outline.Proofs.Parser.Passage

namespace Outline
namespace Parser

/-- A missing semicolon is marked behind a token that was seen. -/
theorem markedUpTo_missingAfter {index n : Nat} (h : index ≤ n) :
    MarkedUpTo [missingAfter index] n := by
  intro x hx
  rw [List.mem_singleton.1 hx]
  exact Mark.upTo_point h

theorem markedUpTo_ite {b : Prop} [Decidable b] {f g : List Finding} {n : Nat}
    (hf : MarkedUpTo f n) (hg : MarkedUpTo g n) : MarkedUpTo (if b then f else g) n := by
  split
  · exact hf
  · exact hg

/-! ### Statements and locals -/

/-- Statements are checked against the lexeme before, so a mark is behind at most the last one. -/
theorem checkStatementsFrom_marked (s : StatementState) (index : Nat) (ls : List Lexeme) :
    MarkedUpTo (checkStatementsFrom s index ls) (index + ls.length) := by
  induction ls generalizing s index with
  | nil => exact markedUpTo_nil _
  | cons l ls ih =>
    have rest := ih (s.step l) (index + 1)
    rw [Nat.add_right_comm] at rest
    exact .append (markedUpTo_ite (markedUpTo_missingAfter (by omega)) (markedUpTo_nil _)) rest

/-- The name of a local is one of the lexemes that declare it. -/
theorem localDeclaration?_lt {ls : List Lexeme} {k : Nat} {name : String} {start : LocalStart}
    (h : localDeclaration? ls = some (k, name, start)) : k < ls.length := by
  unfold localDeclaration? at h
  cases hd : dropLocalType ls with
  | none => simp [hd] at h
  | some named =>
    have hls : ls ≠ [] := by
      rintro rfl
      simp [dropLocalType] at hd
    cases named with
    | nil => simp [hd] at h
    | cons l rest =>
      have hk : k = ls.length - (rest.length + 1) := by
        cases hl : l.isName <;> cases hr : localStart? rest <;> simp [hd, hl, hr] at h
        exact h.1.symm
      have := List.length_pos_iff.2 hls
      omega

/-- A local is marked at its name, which is further on than where its declaration starts. -/
theorem checkLocalsFrom_marked (body : List Lexeme) (index place : Nat) (fresh : Bool)
    (ls : List Lexeme) :
    MarkedUpTo (checkLocalsFrom body index place fresh ls) (index + place + ls.length) := by
  induction ls generalizing place fresh with
  | nil => exact markedUpTo_nil _
  | cons l ls ih =>
    have rest := ih (place + 1) (l.isOneOf [";", "\x7b", "\x7d"])
    rw [← Nat.add_assoc, Nat.add_right_comm] at rest
    refine .append (markedUpTo_ite ?_ (markedUpTo_nil _)) rest
    split
    · rename_i k name start h
      refine markedUpTo_ite (markedUpTo_nil _) fun x hx => ?_
      obtain ⟨cause, -, rfl⟩ := by simpa using hx
      have := localDeclaration?_lt h
      exact Mark.upTo_whole (by omega)
    · exact markedUpTo_nil _

/-- **The checks of a block** mark nothing behind its closing brace. -/
theorem Block.check_marked (b : Block) (h : b.lexemes ≠ []) :
    MarkedUpTo b.check (b.index + b.lexemes.length) := by
  have hl := List.length_pos_iff.2 h
  refine .append (checkStatementsFrom_marked {} b.index b.lexemes) ?_
  refine (checkLocalsFrom_marked b.inner (b.index + 1) 0 true b.inner).mono ?_
  simp only [Block.inner, List.length_dropLast, List.length_tail]
  omega

/-! ### Accessors -/

/-- The semicolon before an accessor is missing behind the token before, the one after it behind
its name. -/
theorem AccessorState.missing_marked (s : AccessorState) (index : Nat) (l : Lexeme)
    (next : Option Lexeme) : MarkedUpTo (s.missing index l next) index := by
  refine markedUpTo_ite (.append ?_ ?_) (markedUpTo_nil _)
  · exact markedUpTo_ite (markedUpTo_missingAfter (Nat.sub_le index 1)) (markedUpTo_nil _)
  · exact markedUpTo_ite (markedUpTo_nil _) (markedUpTo_missingAfter (Nat.le_refl _))

/-- The block that is open starts after `first` and before the next lexeme. -/
def AccessorState.OpenedIn (s : AccessorState) (first index : Nat) : Prop :=
  ∀ k ∈ s.blockStart, first ≤ k ∧ k < index

/-- One lexeme keeps the open block inside, and the block that it ends lies inside. -/
theorem AccessorState.OpenedIn.step {s : AccessorState} {first index : Nat}
    (h : s.OpenedIn first index) (hi : first ≤ index) (l : Lexeme) :
    (s.step index l).1.OpenedIn first (index + 1) ∧
      ∀ b ∈ (s.step index l).2, first ≤ b.1 ∧ b.1 < b.2 ∧ b.2 = index := by
  have kept : ∀ k ∈ s.blockStart, first ≤ k ∧ k < index + 1 := fun k hk =>
    ⟨(h k hk).1, Nat.lt_succ_of_lt (h k hk).2⟩
  unfold AccessorState.step
  split
  · refine ⟨fun k hk => ?_, by simp⟩
    simp only [Option.mem_def] at hk
    split at hk
    · obtain rfl := Option.some.inj hk
      exact ⟨hi, Nat.lt_succ_self _⟩
    · exact kept k hk
  · split
    · refine ⟨by simp [AccessorState.OpenedIn], fun b hb => ?_⟩
      obtain ⟨k, hk, rfl⟩ := by simpa using hb
      exact ⟨(h k hk).1, (h k hk).2, rfl⟩
    · exact ⟨kept, by simp⟩
  · exact ⟨kept, by simp⟩

/-- Accessors are marked no further on than the end of their list, and their blocks
lie in it one after the other. -/
theorem checkAccessorsFrom_inside (s : AccessorState) (first index : Nat) (ls : List Lexeme)
    (h : s.OpenedIn first index) (hi : first ≤ index) :
    MarkedUpTo (checkAccessorsFrom s index ls).1 (index + ls.length) ∧
      ∀ b ∈ (checkAccessorsFrom s index ls).2,
        first ≤ b.1 ∧ b.1 < b.2 ∧ b.2 < index + ls.length := by
  induction ls generalizing s index with
  | nil =>
    exact ⟨markedUpTo_ite (markedUpTo_missingAfter (Nat.sub_le _ 1)) (markedUpTo_nil _), by
      simp [checkAccessorsFrom]⟩
  | cons l ls ih =>
    obtain ⟨hs, hb⟩ := h.step hi l
    obtain ⟨hm, hbs⟩ := ih _ _ hs (Nat.le_succ_of_le hi)
    have hn : index + 1 + ls.length = index + (l :: ls).length := by simp; omega
    rw [hn] at hm hbs
    refine ⟨.append ((s.missing_marked index l ls.head?).mono (by omega)) hm, fun b hmem => ?_⟩
    obtain hmem | hmem := List.mem_append.1 hmem
    · obtain ⟨h1, h2, h3⟩ := hb b (Option.mem_toList.1 hmem)
      exact ⟨h1, h2, by rw [h3, ← hn]; omega⟩
    · exact hbs b hmem

/-- **The checks of accessors**, and of their blocks, mark nothing behind the closing brace. -/
theorem checkAccessors_marked (b : Block) (h : b.lexemes ≠ []) :
    MarkedUpTo (checkAccessors b) (b.index + b.lexemes.length) := by
  have hl := List.length_pos_iff.2 h
  have hn : b.inner.length = b.lexemes.length - 1 - 1 := by
    simp [Block.inner]
  obtain ⟨hm, hb⟩ := checkAccessorsFrom_inside {} (b.index + 1) (b.index + 1) b.inner
    (by simp [AccessorState.OpenedIn]) (Nat.le_refl _)
  refine .append (hm.mono (by omega)) fun x hx => ?_
  obtain ⟨⟨first, last⟩, hmem, hx⟩ := List.mem_flatMap.1 hx
  obtain ⟨h1, h2, h3⟩ := hb _ hmem
  have hs : (b.slice first last).lexemes.length = last + 1 - first := by
    simp only [Block.slice, List.length_take, List.length_drop]
    omega
  have hc := Block.check_marked (b.slice first last) (by
    rw [← List.length_pos_iff, hs]
    omega)
  exact (hc x hx).mono (by rw [hs]; simp only [Block.slice]; omega)

end Parser
end Outline
