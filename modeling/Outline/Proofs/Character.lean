/-
# Classes of characters lie apart

What goes on a word is no white space, and what starts one is no digit.  In ASCII the
classes are told apart by their numbers, above it by the ranges of their tables.
-/

import Outline.Character

namespace Outline
namespace Character

/-- The codes of the letters of ASCII. -/
theorem isLatin_toNat {c : Char} (h : isLatin c = true) :
    (65 ≤ c.toNat ∧ c.toNat ≤ 90) ∨ (97 ≤ c.toNat ∧ c.toNat ≤ 122) := by
  simp only [isLatin, Bool.or_eq_true, Bool.and_eq_true, decide_eq_true_eq] at h
  rcases h with ⟨h1, h2⟩ | ⟨h1, h2⟩
  · exact .inr ⟨h1, h2⟩
  · exact .inl ⟨h1, h2⟩

/-- The codes of its digits. -/
theorem isDigit_toNat {c : Char} (h : isDigit c = true) : 48 ≤ c.toNat ∧ c.toNat ≤ 57 := by
  simp only [isDigit, Bool.and_eq_true, decide_eq_true_eq] at h
  exact h

/-- Tables whose ranges lie apart have no code point in common. -/
theorem not_inRanges_of_apart {rs bs : List (Nat × Nat)}
    (apart : ∀ r ∈ rs, ∀ b ∈ bs, r.2 < b.1 ∨ b.2 < r.1) {n : Nat} (h : inRanges rs n = true) :
    inRanges bs n = false := by
  rw [Bool.eq_false_iff]
  intro hb
  obtain ⟨r, hr, hr1, hr2⟩ := inRanges_iff.1 h
  obtain ⟨b, hb, hb1, hb2⟩ := inRanges_iff.1 hb
  have := apart r hr b hb
  omega

/-- **What goes on a word is no white space.** -/
theorem not_isWhiteSpace_of_isWord {c : Char} (h : isWord c = true) : isWhiteSpace c = false := by
  rw [isWord, Bool.or_eq_true, beq_iff_eq] at h
  obtain h | rfl := h
  · unfold isAlphanumeric at h
    unfold isWhiteSpace
    split at h
    · rename_i hc
      rw [if_pos hc, Bool.or_eq_false_iff, Bool.and_eq_false_iff, beq_eq_false_iff_ne]
      rw [Bool.or_eq_true] at h
      have hn := h.imp isLatin_toNat isDigit_toNat
      refine ⟨?_, .inr (decide_eq_false ?_)⟩
      · rintro rfl
        simp at hn
      · omega
    · rename_i hc
      rw [if_neg hc]
      rcases Bool.or_eq_true_iff.1 h with h | h
      · exact not_inRanges_of_apart (by decide +kernel) h
      · exact not_inRanges_of_apart (by decide +kernel) h
  · rfl

/-- A name may have digits after its start. -/
theorem isWord_of_isDigit {c : Char} (h : isDigit c = true) : isWord c = true := by
  have := isDigit_toNat h
  rw [isWord, isAlphanumeric, if_pos (by omega), h, Bool.or_true, Bool.true_or]

theorem not_isWhiteSpace_of_isNameStart {c : Char} (h : isNameStart c = true) :
    isWhiteSpace c = false := not_isWhiteSpace_of_isWord (isWord_of_isNameStart h)

/-- A name does not start with one. -/
theorem not_isDigit_of_isNameStart {c : Char} (h : isNameStart c = true) : isDigit c = false := by
  rw [Bool.eq_false_iff]
  intro hd
  have hn := isDigit_toNat hd
  rw [isNameStart, Bool.or_eq_true, beq_iff_eq, isAlphabetic, if_pos (by omega)] at h
  obtain h | rfl := h
  · have := isLatin_toNat h
    omega
  · exact absurd hn (by decide)

end Character
end Outline
