/-
# Pieces stay inside of their source

No literal, comment or directive takes more characters than there are, so a piece is
exactly as long as it was measured to be.
-/

import Outline.Lexer.Piece

namespace Outline
namespace Lexer

namespace Extent

@[simp] theorem close_length (n : Nat) : (close n).length = n := rfl

@[simp] theorem grow_length (n : Nat) (e : Extent) : (e.grow n).length = n + e.length := rfl

end Extent

/-! ### Literals and comments -/

/-- A string in quotes ends inside of what is left, whether it is closed or cut off. -/
theorem stringExtent_length_le (interpolated : Bool) (holes : Nat) (mode : StringMode)
    (cs : List Char) : (stringExtent interpolated holes mode cs).length ≤ cs.length := by
  fun_induction stringExtent interpolated holes mode cs with
  | case1 => exact Nat.zero_le _
  | case4 | case8 => exact Nat.zero_le _
  | case11 => simp
  | _ => simp only [Extent.grow_length, List.length_cons]; omega

/-- A verbatim string takes two characters where a quote is doubled, and both are there. -/
theorem verbatimExtent_length_le (cs : List Char) : (verbatimExtent cs).length ≤ cs.length := by
  fun_induction verbatimExtent cs with
  | case1 => exact Nat.zero_le _
  | case2 cs ih => simp only [Extent.grow_length, List.length_cons]; omega
  | case3 => simp
  | case4 c cs h h' ih => simp only [Extent.grow_length, List.length_cons]; omega

/-- The quotes that close a raw string are found before they are counted. -/
theorem rawExtent_length_le (quotes : Nat) (cs : List Char) :
    (rawExtent quotes cs).length ≤ cs.length := by
  fun_induction rawExtent quotes cs with
  | case1 => exact Nat.zero_le _
  | case2 c cs h =>
    have hl := congrArg List.length h
    rw [List.length_take, List.length_replicate] at hl
    rw [Extent.close_length]
    omega
  | case3 c cs h ih => simp only [Extent.grow_length, List.length_cons]; omega

/-- A comment over lines takes its `*/` only where both characters stand. -/
theorem commentExtent_length_le (cs : List Char) : (commentExtent cs).length ≤ cs.length := by
  fun_induction commentExtent cs with
  | case1 => exact Nat.zero_le _
  | case2 => simp
  | case3 c cs h ih => simp only [Extent.grow_length, List.length_cons]; omega

theorem lineExtent_le (cs : List Char) : lineExtent cs ≤ cs.length :=
  (List.takeWhile_sublist _).length_le

theorem numberExtent_le (cs : List Char) : numberExtent cs ≤ cs.length := by
  fun_induction numberExtent cs with
  | case1 => exact Nat.zero_le _
  | case2 | case3 => simp
  | case4 c d cs h ih => simpa using ih
  | case5 => exact Nat.zero_le _

/-- An escape in a character literal takes its second character only if there is one. -/
theorem charContent_le (cs : List Char) : charContent cs ≤ cs.length := by
  fun_cases charContent cs <;> simp

/-- A character literal takes its closing quote only where it stands, and is cut off elsewhere. -/
theorem charExtent_le (cs : List Char) : (charExtent cs).1 ≤ cs.length := by
  have hn := charContent_le cs
  have quote : ∀ ds : List Char, ds.head? = some '\'' → 1 ≤ ds.length := by
    intro ds h
    cases ds with
    | nil => cases h
    | cons d ds => exact Nat.succ_le_succ (Nat.zero_le _)
  have hd := List.length_drop (i := charContent cs) (l := cs)
  have hm := (List.takeWhile_sublist
    (fun c => c ≠ '\n' && c ≠ '\'') (l := cs.drop (charContent cs))).length_le
  unfold charExtent
  dsimp only
  split
  · have := quote _ ‹_›
    show charContent cs + 1 ≤ cs.length
    omega
  split
  · have := quote _ ‹_›
    rw [List.length_drop] at this
    show charContent cs + _ + 1 ≤ cs.length
    omega
  · show charContent cs + _ ≤ cs.length
    omega

/-! ### Pieces -/

theorem leading_le (c : Char) (cs : List Char) : leading c cs ≤ cs.length :=
  (List.takeWhile_sublist _).length_le

/-- A literal is as long as its start and what was measured after it. -/
theorem literal_more_le {kind : LexemeKind} {lead n : Nat} {e : Extent} {fault : Fault}
    (h : lead + e.length ≤ n) : (literal kind lead e fault).more ≤ n := h

/-- Raw or not, a string starts with quotes that were counted. -/
theorem cutQuote_more_le (cs : List Char) : (cutQuote cs).more ≤ cs.length := by
  have hq := leading_le '"' cs
  unfold cutQuote
  dsimp only
  split
  · have := rawExtent_length_le (leading '"' cs + 1) (cs.drop (leading '"' cs))
    rw [List.length_drop] at this
    exact literal_more_le (by omega)
  · have := stringExtent_length_le false 0 .text cs
    exact literal_more_le (by omega)

theorem cutAt_more_le (cs : List Char) : (cutAt cs).more ≤ cs.length := by
  fun_cases cutAt cs with
  | case1 cs =>
    have := verbatimExtent_length_le cs
    exact literal_more_le (by simp only [List.length_cons]; omega)
  | case2 cs =>
    have := verbatimExtent_length_le cs
    exact literal_more_le (by simp only [List.length_cons]; omega)
  | case3 c cs h h' hn => exact (List.takeWhile_sublist _).length_le
  | case4 => exact Nat.zero_le _
  | case5 => exact Nat.zero_le _

/-- The `$` are counted first, then the quotes that follow them. -/
theorem cutDollar_more_le (cs : List Char) : (cutDollar cs).more ≤ cs.length := by
  have hd := leading_le '$' cs
  have ha := List.length_drop (i := leading '$' cs) (l := cs)
  unfold cutDollar
  dsimp only
  generalize cs.drop (leading '$' cs) = after at ha ⊢
  have hq := leading_le '"' after
  split
  · have := rawExtent_length_le (leading '"' after) (after.drop (leading '"' after))
    rw [List.length_drop] at this
    exact literal_more_le (by omega)
  split
  · rename_i rest _
    have := verbatimExtent_length_le rest
    simp only [List.length_cons] at ha
    exact literal_more_le (by omega)
  · rename_i rest _
    have := stringExtent_length_le true 0 .text rest
    simp only [List.length_cons] at ha
    exact literal_more_le (by omega)
  · exact hd

theorem cutApostrophe_more_le (cs : List Char) : (cutApostrophe cs).more ≤ cs.length := by
  have h := charExtent_le cs
  unfold cutApostrophe
  split
  · rename_i n hn
    rwa [hn] at h
  · rename_i n hn
    rwa [hn] at h
  · rename_i n hn
    rwa [hn] at h

/-- A bound for a piece that is one of two, under the condition that chose it. -/
theorem ite_more_le {b : Prop} [Decidable b] {k k' : Cut} {n : Nat} (h : b → k.more ≤ n)
    (h' : ¬b → k'.more ≤ n) : (if b then k else k').more ≤ n := by
  split
  · exact h ‹_›
  · exact h' ‹_›

/-- **A piece ends where its source does at the latest.** -/
theorem cut_more_le (fresh : Bool) (c : Char) (cs : List Char) :
    (cut fresh c cs).more ≤ cs.length := by
  have second : ∀ d, cs.head? = some d → 1 ≤ cs.length := by
    intro d h
    cases cs with
    | nil => cases h
    | cons _ _ => exact Nat.succ_le_succ (Nat.zero_le _)
  refine ite_more_le (fun _ => Nat.zero_le _) fun _ => ?_
  refine ite_more_le (fun _ => lineExtent_le cs) fun _ => ?_
  refine ite_more_le (fun _ => lineExtent_le cs) fun _ => ?_
  refine ite_more_le (fun h => ?_) fun _ => ?_
  · have := second _ h.2
    have := commentExtent_length_le cs.tail
    rw [List.length_tail] at this
    show 1 + (commentExtent cs.tail).length ≤ cs.length
    omega
  refine ite_more_le (fun _ => cutQuote_more_le cs) fun _ => ?_
  refine ite_more_le (fun _ => cutAt_more_le cs) fun _ => ?_
  refine ite_more_le (fun _ => cutDollar_more_le cs) fun _ => ?_
  refine ite_more_le (fun _ => cutApostrophe_more_le cs) fun _ => ?_
  refine ite_more_le (fun _ => numberExtent_le cs) fun _ => ?_
  refine ite_more_le (fun _ => (List.takeWhile_sublist _).length_le) fun _ => ?_
  refine ite_more_le (fun h => ?_) fun _ => ?_
  · exact h.elim (fun h => second _ h.2) fun h => second _ h.2
  exact ite_more_le (fun _ => Nat.zero_le _) fun _ => Nat.zero_le _

end Lexer
end Outline
