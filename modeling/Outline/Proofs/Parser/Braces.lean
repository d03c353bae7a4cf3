/-
# Braces are left in place

What is skipped or recovered from closes no brace that was not opened on the way, so the
brace around it is still there for the type that it ends.  There is one exception: the
sign of an operator is passed up to `(`, `{` or `;`, whatever closing braces it holds.

| passed | braces |
| --- | --- |
| a group, attributes, a block | each closing brace closes one of the group |
| an expression, base types, constraints | closing braces in groups only |
| a member that makes no sense | as an expression, and at least one token |
| type parameters and arguments, a using | none |
| the sign of an operator | any closing ones |

So a member keeps the braces around it if the signs of operators in it do
(`member_leaves_brace`).
-/

import Mathlib.Data.List.Infix
import Outline.Proofs.Parser.Level

namespace Outline
namespace Parser

/-! ### Closing and opening braces -/

/-- No start of the lexemes closes more braces than it opens, up to `opened` braces that
were open before. -/
def KeepsBraces (opened : Nat) (ls : List Lexeme) : Prop :=
  ∀ p, p <+: ls → delimiters (.closing .brace) p ≤ opened + delimiters (.opening .brace) p

namespace KeepsBraces

variable {n m : Nat} {l : Lexeme} {ls ms : List Lexeme}

theorem nil (n : Nat) : KeepsBraces n [] := by
  intro p hp
  rw [List.prefix_nil.1 hp]
  exact Nat.zero_le _

theorem mono (h : KeepsBraces n ls) (hm : n ≤ m) : KeepsBraces m ls := fun p hp =>
  Nat.le_trans (h p hp) (Nat.add_le_add_right hm _)

/-- A lexeme that leaves `m` braces open where `n` were open. -/
theorem cons (h : KeepsBraces m ls)
    (hl : m + delimiters (.closing .brace) [l] ≤ n + delimiters (.opening .brace) [l]) :
    KeepsBraces n (l :: ls) := by
  intro p hp
  obtain rfl | ⟨q, rfl, hq⟩ := List.prefix_cons_iff.1 hp
  · exact Nat.zero_le _
  · have := h q hq
    rw [← List.singleton_append, delimiters_append, delimiters_append]
    omega

/-- A lexeme that is no closing brace. -/
theorem other (hl : l.delimiter? ≠ some (.closing .brace)) (h : KeepsBraces n ls) :
    KeepsBraces n (l :: ls) :=
  h.cons (by simp [delimiters_cons, hl])

theorem opening (hl : l.delimiter? = some (.opening .brace)) (h : KeepsBraces (n + 1) ls) :
    KeepsBraces n (l :: ls) :=
  h.cons (by simp [delimiters_cons, hl])

theorem append (h : KeepsBraces n ls) (hm : KeepsBraces 0 ms) : KeepsBraces n (ls ++ ms) := by
  intro p hp
  rcases List.prefix_or_prefix_of_prefix hp (List.prefix_append ls ms) with hl | ⟨q, rfl⟩
  · exact h p hl
  · have hq := hm q ((List.prefix_append_right_inj ls).1 hp)
    have := h ls (List.prefix_refl ls)
    rw [delimiters_append, delimiters_append]
    omega

/-- What is passed in braces, and the brace that closes them. -/
theorem closed {z : Lexeme} (h : KeepsBraces n ls) (hz : z.delimiter? = some (.closing .brace)) :
    KeepsBraces (n + 1) (ls ++ [z]) := by
  intro p hp
  rcases List.prefix_concat_iff.1 hp with rfl | hl
  · have := h ls (List.prefix_refl ls)
    simp only [delimiters_append, delimiters_cons, hz, delimiters_nil]
    simp only [if_true]
    omega
  · exact Nat.le_trans (h p hl) (by omega)

/-- Lexemes none of which is a closing brace. -/
theorem skip (h : ∀ l ∈ ls, l.delimiter? ≠ some (.closing .brace)) (hm : KeepsBraces n ms) :
    KeepsBraces n (ls ++ ms) := by
  induction ls with
  | nil => exact hm
  | cons l ls ih =>
    exact other (h l List.mem_cons_self) (ih fun k hk => h k (List.mem_cons_of_mem l hk))

theorem of_no_closing (h : ∀ l ∈ ls, l.delimiter? ≠ some (.closing .brace)) :
    KeepsBraces n ls := by
  have := skip h (nil n)
  rwa [List.append_nil] at this

/-- The first lexeme closes no brace but those that are open. -/
theorem le_head (h : KeepsBraces n (l :: ls)) :
    n + delimiters (.opening .brace) [l] - delimiters (.closing .brace) [l]
      + delimiters (.closing .brace) [l] ≤ n + delimiters (.opening .brace) [l] := by
  have := h [l] ⟨ls, rfl⟩
  omega

/-- What is left keeps the braces that are open after the first lexeme. -/
theorem tail (h : KeepsBraces n (l :: ls)) :
    KeepsBraces (n + delimiters (.opening .brace) [l] - delimiters (.closing .brace) [l]) ls := by
  intro p hp
  have := h (l :: p) ((List.prefix_cons_inj l).2 hp)
  rw [← List.singleton_append, delimiters_append, delimiters_append] at this
  omega

/-- What keeps the braces ends before the brace around it. -/
theorem length_le {z : Lexeme} {more : List Lexeme} (h : KeepsBraces 0 ls)
    (hl : ls <+: ms ++ z :: more) (hz : z.delimiter? = some (.closing .brace))
    (hm : delimiters (.opening .brace) ms ≤ delimiters (.closing .brace) ms) :
    ls.length ≤ ms.length := by
  refine Nat.le_of_not_lt fun hlt => ?_
  have hp : ms ++ [z] <+: ls := by
    refine List.prefix_of_prefix_length_le ⟨more, List.append_cons ms z more |>.symm⟩ hl ?_
    rw [List.length_append, List.length_singleton]
    exact hlt
  have hcount := h _ hp
  simp [delimiters_append, delimiters_cons, hz] at hcount
  omega

end KeepsBraces

/-- From one cursor to another no brace is closed that was not opened on the way. -/
def LeavesBraces (c d : Cursor) : Prop := ∃ ls, c.Passes ls d ∧ KeepsBraces 0 ls

namespace LeavesBraces

variable {c d e : Cursor}

theorem refl (c : Cursor) : LeavesBraces c c := ⟨[], .refl c, .nil 0⟩

theorem trans (h : LeavesBraces c d) (k : LeavesBraces d e) : LeavesBraces c e := by
  obtain ⟨ls, hp, hk⟩ := h
  obtain ⟨ms, hp', hk'⟩ := k
  exact ⟨ls ++ ms, hp.trans hp', hk.append hk'⟩

/-- The next lexeme, if it is no closing brace. -/
theorem next (h : ∀ l ∈ c.head?, l.delimiter? ≠ some (.closing .brace)) :
    LeavesBraces c c.next :=
  ⟨_, c.passes_next, .of_no_closing fun l hl => h l (Option.mem_toList.1 hl)⟩

theorem next_of_ahead {l : Lexeme} {ls : List Lexeme} (hc : c.ahead = l :: ls)
    (h : l.delimiter? ≠ some (.closing .brace)) : LeavesBraces c c.next := by
  refine next fun m hm => ?_
  rw [Cursor.head?_of_ahead hc] at hm
  exact Option.some.inj hm ▸ h

theorem next_of_atPunct (h : c.atPunct "\x7d" = false) : LeavesBraces c c.next := by
  refine next fun l hl hc => ?_
  rw [Cursor.atPunct, hl] at h
  exact Bool.false_ne_true (h.symm.trans (isPunct_of_delimiter? hc))

/-- The brace around a cursor is still ahead of what leaves the braces. -/
theorem before_brace (h : LeavesBraces c d) : ∃ ls, c.Passes ls d ∧ KeepsBraces 0 ls ∧
    ∀ ms z after, c.ahead = ms ++ z :: after → z.isPunct "\x7d" = true →
      delimiters (.opening .brace) ms = delimiters (.closing .brace) ms →
        ls.length ≤ ms.length := by
  obtain ⟨ls, hp, hk⟩ := h
  refine ⟨ls, hp, hk, fun ms z after ha hz hm => ?_⟩
  exact hk.length_le ⟨_, hp.ahead.symm.trans ha⟩ (delimiter?_closeBrace hz) (Nat.le_of_eq hm)

end LeavesBraces

/-! ### Skipping -/

/-- The rest of a group closes no brace but those of the group. -/
theorem skipOpened_keepsBraces (opened : List Bracket) (index : Nat) (ls : List Lexeme) :
    ∃ ms, Cursor.Passes ⟨index, ls⟩ ms (skipOpened opened index ls).rest ∧
      KeepsBraces (opened.count .brace) ms := by
  induction ls generalizing opened index with
  | nil => exact ⟨[], .refl _, .nil _⟩
  | cons l ls ih =>
    have one : Cursor.Passes ⟨index, l :: ls⟩ [l] ⟨index + 1, ls⟩ := ⟨rfl, rfl⟩
    rw [skipOpened]
    cases hl : l.delimiter? with
    | none =>
      obtain ⟨ms, hp, hk⟩ := ih opened (index + 1)
      exact ⟨l :: ms, one.trans hp, hk.other (by simp [hl])⟩
    | some d =>
      cases d with
      | opening b =>
        obtain ⟨ms, hp, hk⟩ := ih (b :: opened) (index + 1)
        refine ⟨l :: ms, one.trans hp, hk.cons ?_⟩
        cases b <;> simp [delimiters_cons, hl]
      | closing b =>
        -- what stays open has lost the bracket that was closed and all those inside of it
        have hclose : ∀ outer, opened.contains b = true →
            (opened.dropWhile (· ≠ b)).tail = outer → ∀ ms, KeepsBraces (outer.count .brace) ms →
            KeepsBraces (opened.count .brace) (l :: ms) := by
          rintro outer hb rfl ms hk
          refine hk.cons ?_
          conv => rhs; rw [opened_eq_of_contains hb, List.count_append, List.count_cons]
          cases b <;> simp [delimiters_cons, hl]
        dsimp only
        split
        · rename_i hb
          split
          · rename_i ho
            exact ⟨[l], one, hclose [] hb ho [] (.nil _)⟩
          · obtain ⟨ms, hp, hk⟩ := ih (opened.dropWhile (· ≠ b)).tail (index + 1)
            exact ⟨l :: ms, one.trans hp, hclose _ hb rfl ms hk⟩
        · split
          · exact ⟨[], .refl _, .nil _⟩
          · rename_i hb
            obtain ⟨ms, hp, hk⟩ := ih opened (index + 1)
            exact ⟨l :: ms, one.trans hp, hk.other (by simp [hl, hb])⟩

theorem skipGroup_keepsBraces (c : Cursor) : LeavesBraces c (skipGroup c).rest :=
  skipOpened_keepsBraces [] c.index c.ahead

theorem typeParametersFrom_keepsBraces (arity depth index : Nat) (ls : List Lexeme) :
    LeavesBraces ⟨index, ls⟩ (typeParametersFrom arity depth index ls).rest := by
  induction ls generalizing arity depth index with
  | nil => exact .refl _
  | cons l ls ih =>
    rw [typeParametersFrom]
    split
    · exact .refl _
    rename_i hstop
    have hl : l.delimiter? ≠ some (.closing .brace) :=
      delimiter?_ne_of_isOneOf (by simpa using hstop) (by decide)
    have one : LeavesBraces ⟨index, l :: ls⟩ ⟨index + 1, ls⟩ := .next_of_ahead rfl hl
    split
    · exact one.trans (ih _ _ _)
    split
    · split
      · exact one
      · exact one.trans (ih _ _ _)
    split
    · exact one.trans (ih _ _ _)
    · exact one.trans (ih _ _ _)

theorem skipToBody_keepsBraces (c : Cursor) : LeavesBraces c (skipToBody c).rest := by
  fun_induction skipToBody c with
  | case1 c => exact .refl c
  | case2 c => exact .refl c
  | case3 c l ls hc hs hb s closed ih => exact (skipGroup_keepsBraces c).trans ih
  | case4 c l ls hc hs hb s closed => exact skipGroup_keepsBraces c
  | case5 c l ls hc hs hb ih =>
    have hl : l.delimiter? ≠ some (.closing .brace) :=
      delimiter?_ne_of_isOneOf (by simpa using hs) (by decide)
    exact (LeavesBraces.next_of_ahead hc hl).trans ih

theorem skipExpression_keepsBraces (stops : List String) (c : Cursor) :
    LeavesBraces c (skipExpression stops c).rest := by
  fun_induction skipExpression stops c with
  | case1 c => exact .refl c
  | case2 c => exact .refl c
  | case3 c => exact .refl c
  | case4 c l ls hc hs b hb s closed ih => exact (skipGroup_keepsBraces c).trans ih
  | case5 c l ls hc hs b hb s closed => exact skipGroup_keepsBraces c
  | case6 c l ls hc hs hl ih =>
    have hother : l.delimiter? ≠ some (.closing .brace) := by simp [hl]
    exact (LeavesBraces.next_of_ahead hc hother).trans ih

theorem skipMember_keepsBraces (c : Cursor) : LeavesBraces c (skipMember c).rest := by
  have hs := skipExpression_keepsBraces [";"] c
  rw [skipMember_rest]
  split
  · rename_i hnext
    refine hs.trans (.next_of_atPunct ?_)
    rw [Bool.or_eq_true, Bool.and_eq_true, Bool.not_eq_true'] at hnext
    obtain hs | ⟨-, hb⟩ := hnext
    · obtain ⟨l, hl, hl'⟩ := Cursor.exists_head?_of_any hs
      rw [Cursor.atPunct, hl, eq_mark_of_isPunct hl']
      rfl
    · exact hb
  · exact hs

/-- **Recovery leaves the enclosing brace in place.**  Wherever a group, an expression, the
head of a type or a member is skipped from, no start of what is passed closes more braces than
it opens; so the skipping ends before the brace around it.  Skipping a member passes something
unless a closing brace or the end is next. -/
theorem recovery_leaves_brace (stops : List String) (c : Cursor) :
    (∀ d ∈ [(skipGroup c).rest, (skipExpression stops c).rest, (skipToBody c).rest,
        (skipMember c).rest],
      ∃ ls, c.Passes ls d ∧ KeepsBraces 0 ls ∧
        ∀ ms z after, c.ahead = ms ++ z :: after → z.isPunct "\x7d" = true →
          delimiters (.opening .brace) ms = delimiters (.closing .brace) ms →
            ls.length ≤ ms.length) ∧
      (c.atPunct "\x7d" = false → c.atEnd = false →
        ∃ l ls, c.Passes (l :: ls) (skipMember c).rest) := by
  refine ⟨?_, fun hb he => ?_⟩
  · simp only [List.forall_mem_cons]
    exact ⟨(skipGroup_keepsBraces c).before_brace,
      (skipExpression_keepsBraces stops c).before_brace, (skipToBody_keepsBraces c).before_brace,
      (skipMember_keepsBraces c).before_brace, nofun⟩
  · obtain ⟨ls, hp, -⟩ := skipMember_keepsBraces c
    have hlt := skipMember_index_lt hb he
    rw [hp.index] at hlt
    cases ls with
    | nil => exact absurd hlt (Nat.lt_irrefl _)
    | cons l ls => exact ⟨l, ls, hp⟩

/-- A group that a foreign brace ends, a bracket that is stuck, and the brace around them. -/
theorem recovery_leaves_brace_stuck :
    let group : Cursor := ⟨3, lexemes "( \x7b [ \x7d ; \x7d class B"⟩
    let stuck : Cursor := ⟨3, lexemes ") \x7d class B"⟩
    (∃ ls, group.Passes ls (skipMember group).rest ∧ KeepsBraces 0 ls ∧ ls.length ≤ 5) ∧
      stuck.atPunct "\x7d" = false ∧ stuck.atEnd = false ∧
      ∃ l ls, stuck.Passes (l :: ls) (skipMember stuck).rest := by
  intro group stuck
  have hb : stuck.atPunct "\x7d" = false := by decide +kernel
  have he : stuck.atEnd = false := by decide +kernel
  refine ⟨?_, hb, he, (recovery_leaves_brace [";"] stuck).2 hb he⟩
  obtain ⟨ls, hp, hk, hend⟩ := (recovery_leaves_brace [";"] group).1 (skipMember group).rest
    (by simp only [List.mem_cons, true_or, or_true])
  have ha : group.ahead = lexemes "( \x7b [ \x7d ;" ++
      (lexemes "\x7d").head (by decide +kernel) :: lexemes "class B" := by decide +kernel
  have hlen : (lexemes "( \x7b [ \x7d ;").length = 5 := by decide +kernel
  exact ⟨ls, hp, hk, hlen ▸ hend _ _ _ ha (by decide +kernel) (by decide +kernel)⟩

/-! ### Signs of operators -/

/-- Going on from one cursor to another passes these lexemes, and besides them signs of
operators, each with its word. -/
inductive BesideSigns : Cursor → List Lexeme → Cursor → Prop
  | nil (c : Cursor) : BesideSigns c [] c
  | lexeme {c d : Cursor} {l : Lexeme} {ls : List Lexeme} (h : c.head? = some l) :
      BesideSigns c.next ls d → BesideSigns c (l :: ls) d
  | sign {c d : Cursor} {ls : List Lexeme} (h : c.atKeyword "operator" = true) :
      BesideSigns (operatorSign c.next).rest ls d → BesideSigns c ls d

namespace BesideSigns

theorem trans {c d e : Cursor} {ls ms : List Lexeme} (h : BesideSigns c ls d)
    (hm : BesideSigns d ms e) : BesideSigns c (ls ++ ms) e := by
  induction h with
  | nil c => exact hm
  | lexeme h _ ih => exact .lexeme h (ih hm)
  | sign h _ ih => exact .sign h (ih hm)

/-- Lexemes that are passed are passed beside no sign. -/
theorem of_passes {c d : Cursor} {ls : List Lexeme} (h : c.Passes ls d) : BesideSigns c ls d := by
  induction ls generalizing c with
  | nil =>
    rw [h.eq_of_nil]
    exact .nil c
  | cons l ls ih =>
    have hl : c.head? = some l := c.head?_of_ahead h.ahead
    refine .lexeme hl (ih ⟨?_, ?_⟩)
    · have hn := (Cursor.passes_of_head? hl).ahead
      rw [h.ahead, List.singleton_append, List.cons_append, List.cons.injEq] at hn
      exact hn.2.symm
    · rw [h.index, (Cursor.passes_of_head? hl).index, List.length_cons, List.length_singleton]
      omega

theorem of_leavesBraces {c d : Cursor} (h : LeavesBraces c d) :
    ∃ own, BesideSigns c own d ∧ KeepsBraces 0 own :=
  h.imp fun _ h => h.imp_left of_passes

end BesideSigns

/-- **A walk below the top level keeps the braces** beside the signs of operators. -/
theorem Walk.keepsBraces {top : Bool} {c d : Cursor} {f : List Finding} (h : Walk top c f d)
    (ht : top = false) : ∃ own, BesideSigns c own d ∧ KeepsBraces 0 own := by
  -- Only the sign of an operator may hold closing braces of its own, and it is left out.
  induction h with
  | nil c => exact ⟨[], .nil c, .nil 0⟩
  | append _ _ ih ih' =>
    obtain ⟨ls, hl, hk⟩ := ih ht
    obtain ⟨ms, hm, hk'⟩ := ih' ht
    exact ⟨ls ++ ms, hl.trans hm, hk.append hk'⟩
  | @report _ c _ _ => exact ⟨[], .nil c, .nil 0⟩
  | @plain _ c hc =>
    refine BesideSigns.of_leavesBraces (.next fun l hl => ?_)
    rw [hc l hl]
    exact (Option.some_ne_none _).symm
  | @group _ c _ => exact BesideSigns.of_leavesBraces (skipGroup_keepsBraces c)
  | @angles _ c hc =>
    obtain ⟨l, hl, ha⟩ := Cursor.exists_head?_of_any hc
    refine BesideSigns.of_leavesBraces (.trans (.next fun k hk => ?_)
      (typeParametersFrom_keepsBraces 1 1 c.next.index c.next.ahead))
    rw [hl] at hk
    rw [← Option.some.inj hk, delimiter?_of_isPunct ha]
    decide
  | arguments hc =>
    obtain ⟨a, ms, z, hp, ha, hz, hms⟩ := qualifyingArguments_unchecked hc
    refine BesideSigns.of_leavesBraces ⟨_, hp, .of_no_closing fun k hk => ?_⟩
    simp only [List.mem_cons, List.mem_append, List.not_mem_nil, or_false] at hk
    obtain (rfl | hk) | rfl := hk
    · exact delimiter?_of_isPunct ha ▸ by decide
    · exact delimiter?_ne_of_isOneOf (hms k hk) (by decide)
    · exact delimiter?_of_isPunct hz ▸ by decide
  | imported hc =>
    obtain ⟨u, s, ms, hp, hu, hs, hms⟩ := usingName_unchecked hc
    refine BesideSigns.of_leavesBraces ⟨_, hp, .of_no_closing fun k hk => ?_⟩
    simp only [List.cons_append, List.mem_cons, List.mem_append] at hk
    obtain rfl | hk | hk := hk
    · exact delimiter?_of_isKeyword hu ▸ nofun
    · exact delimiter?_of_isKeyword (hs k hk) ▸ nofun
    · have he := hms k hk
      rw [endsUsing, Bool.or_eq_false_iff] at he
      exact delimiter?_ne_of_isOneOf he.1 (by decide)
  | @sign _ c hc => exact ⟨[], .sign hc (.nil _), .nil 0⟩
  | @head _ c _ => exact BesideSigns.of_leavesBraces (skipToBody_keepsBraces c)
  | @forced _ c d f _ hd _ ih =>
    obtain ⟨ls, hl, hk⟩ := ih ht
    obtain ⟨ms, hp, hm⟩ := LeavesBraces.next_of_atPunct hd
    exact ⟨ls ++ ms, hl.trans (.of_passes hp), hk.append hm⟩
  | @block _ c d f hc hd _ ih =>
    obtain ⟨ls, hl, hk⟩ := ih rfl
    obtain ⟨a, ha, hab⟩ := Cursor.exists_head?_of_any hc
    obtain ⟨z, hz, hzb⟩ := Cursor.exists_head?_of_any hd
    refine ⟨a :: (ls ++ [z]), .lexeme ha (hl.trans (.lexeme hz (.nil _))), ?_⟩
    exact (hk.closed (delimiter?_closeBrace hzb)).opening (delimiter?_openBrace hab)
  | @unclosed _ c d f hc _ ih =>
    obtain ⟨ls, hl, hk⟩ := ih rfl
    obtain ⟨a, ha, hab⟩ := Cursor.exists_head?_of_any hc
    refine ⟨a :: ls, .lexeme ha hl, (hk.mono (Nat.zero_le 1)).opening (delimiter?_openBrace hab)⟩
  | stray => cases ht

/-! ### Members -/

/-- The sign that lexemes begin with after the word `operator`. -/
def signAtHead : List Lexeme → List Lexeme
  | [] => []
  | o :: after =>
    if o.isKeyword "operator" then after.takeWhile (!·.isOneOf ["(", "\x7b", ";"]) else []

/-- No closing brace stands in the sign of an operator. -/
def SignsHoldNoBrace (ls : List Lexeme) : Prop :=
  ∀ t ∈ ls.tails, ∀ z ∈ signAtHead t, z.isPunct "\x7d" = false

instance (ls : List Lexeme) : Decidable (SignsHoldNoBrace ls) :=
  inferInstanceAs (Decidable (∀ t ∈ ls.tails, ∀ z ∈ signAtHead t, z.isPunct "\x7d" = false))

theorem mem_signAtHead {o z : Lexeme} {sign after : List Lexeme}
    (ho : o.isKeyword "operator" = true)
    (hs : ∀ l ∈ sign, l.isOneOf ["(", "\x7b", ";"] = false) (hz : z ∈ sign) :
    z ∈ signAtHead (o :: (sign ++ after)) := by
  rw [signAtHead, if_pos ho, List.takeWhile_append_of_pos fun l hl => by rw [hs l hl]; rfl]
  exact List.mem_append_left _ hz

/-- More lexemes at the end do not shorten the sign. -/
theorem signAtHead_subset_append (t ms : List Lexeme) :
    signAtHead t ⊆ signAtHead (t ++ ms) := by
  intro z hz
  cases t with
  | nil => cases hz
  | cons o after =>
    rw [List.cons_append]
    simp only [signAtHead] at hz ⊢
    split at hz
    · rename_i ho
      rw [if_pos ho, List.takeWhile_append]
      split
      · exact List.mem_append_left _ (List.takeWhile_subset _ hz)
      · exact hz
    · cases hz

namespace SignsHoldNoBrace

variable {ls ms : List Lexeme}

theorem of_append_right (h : SignsHoldNoBrace (ls ++ ms)) : SignsHoldNoBrace ms := fun t ht =>
  h t ((List.mem_tails _ _).2 (((List.mem_tails _ _).1 ht).trans (List.suffix_append ls ms)))

theorem of_append_left (h : SignsHoldNoBrace (ls ++ ms)) : SignsHoldNoBrace ls := by
  intro t ht z hz
  obtain ⟨before, rfl⟩ := (List.mem_tails _ _).1 ht
  refine h (t ++ ms) ((List.mem_tails _ _).2 ⟨before, ?_⟩) z (signAtHead_subset_append t ms hz)
  rw [List.append_assoc]

end SignsHoldNoBrace

/-- Signs without closing braces keep the braces that all the rest keeps. -/
theorem BesideSigns.exists_passes {c d : Cursor} {own : List Lexeme} (h : BesideSigns c own d) :
    ∃ ls, c.Passes ls d ∧
      ∀ n, KeepsBraces n own → SignsHoldNoBrace ls → KeepsBraces n ls := by
  induction h with
  | nil c => exact ⟨[], .refl c, fun _ hk _ => hk⟩
  | @lexeme c d l own hl _ ih =>
    obtain ⟨ls, hp, hls⟩ := ih
    refine ⟨[l] ++ ls, (Cursor.passes_of_head? hl).trans hp, fun n hk hs => ?_⟩
    exact (hls _ hk.tail hs.of_append_right).cons hk.le_head
  | @sign c d own ho _ ih =>
    obtain ⟨ls, hp, hls⟩ := ih
    obtain ⟨o, hl, ho⟩ := Cursor.exists_head?_of_any ho
    obtain ⟨sign, hsign, hstop⟩ := operatorSign_unchecked c.next
    refine ⟨(o :: sign) ++ ls, ((Cursor.passes_of_head? hl).trans hsign).trans hp,
      fun n hk hs => ?_⟩
    have hbrace : ∀ z ∈ o :: sign, z.delimiter? ≠ some (.closing .brace) := by
      refine List.forall_mem_cons.2 ⟨delimiter?_of_isKeyword ho ▸ nofun, fun z hz hc => ?_⟩
      have hnone := hs ((o :: sign) ++ ls) ((List.mem_tails _ _).2 (List.suffix_refl _)) z
        (mem_signAtHead ho hstop hz)
      have hbrace : z.isPunct "\x7d" = true := isPunct_of_delimiter? hc
      exact Bool.false_ne_true (hnone.symm.trans hbrace)
    exact KeepsBraces.skip hbrace (hls n hk hs.of_append_right)

/-- **A member leaves the brace that encloses it.**  Whatever errors it has, what it passes
besides signs of operators closes no brace that was not opened on the way.  If no sign holds
a closing brace, then neither does all that it passes, and it ends before the brace
around it. -/
theorem member_leaves_brace (owner : String) (c : Cursor) :
    ∃ ls own, c.Passes ls (member memberList owner c).rest ∧
      BesideSigns c own (member memberList owner c).rest ∧ KeepsBraces 0 own ∧
      (SignsHoldNoBrace ls → KeepsBraces 0 ls ∧
        ∀ ms z after, c.ahead = ms ++ z :: after → z.isPunct "\x7d" = true →
          delimiters (.opening .brace) ms = delimiters (.closing .brace) ms →
            ls.length ≤ ms.length) := by
  have hw : Walk false c _ _ := walks_member walks_memberList owner false c
  obtain ⟨own, hb, hk⟩ := hw.keepsBraces rfl
  obtain ⟨ls, hp, hls⟩ := hb.exists_passes
  refine ⟨ls, own, hp, hb, hk, fun hs => ?_⟩
  have hall := hls 0 hk hs
  refine ⟨hall, fun ms z after ha hz hm => ?_⟩
  exact hall.length_le ⟨_, hp.ahead.symm.trans ha⟩ (delimiter?_closeBrace hz) (Nat.le_of_eq hm)

/-- A member with an operator of its own, and a group in it that is not closed, stays in
its type. -/
theorem member_leaves_brace_unclosed :
    SignsHoldNoBrace (lexemes "int operator + ( \x7b ] \x7d ; \x7d class B \x7b \x7d") ∧
      ∃ ls, Cursor.Passes ⟨3, lexemes "int operator + ( \x7b ] \x7d ; \x7d class B \x7b \x7d"⟩ ls
          (member memberList "A"
            ⟨3, lexemes "int operator + ( \x7b ] \x7d ; \x7d class B \x7b \x7d"⟩).rest ∧
        KeepsBraces 0 ls ∧ ls.length ≤ 8 := by
  have ha : lexemes "int operator + ( \x7b ] \x7d ; \x7d class B \x7b \x7d" =
      lexemes "int operator + ( \x7b ] \x7d ;" ++ (lexemes "\x7d").head (by decide +kernel) ::
        lexemes "class B \x7b \x7d" := by decide +kernel
  have hs : SignsHoldNoBrace
      (lexemes "int operator + ( \x7b ] \x7d ; \x7d class B \x7b \x7d") := by decide +kernel
  obtain ⟨ls, own, hp, -, -, hall⟩ := member_leaves_brace "A"
    ⟨3, lexemes "int operator + ( \x7b ] \x7d ; \x7d class B \x7b \x7d"⟩
  obtain ⟨hk, hend⟩ := hall
    (SignsHoldNoBrace.of_append_left (Eq.subst (motive := SignsHoldNoBrace) hp.ahead hs))
  have hlen : (lexemes "int operator + ( \x7b ] \x7d ;").length = 8 := by decide +kernel
  exact ⟨hs, ls, hp, hk, hlen ▸ hend _ _ _ ha (by decide +kernel) (by decide +kernel)⟩

/-- The sign of an operator takes the brace that encloses it, and the class after the type
is declared in it. -/
theorem not_leaves_brace_of_operator :
    (SyntaxTree.parse .v12 ⟨"class A \x7b int operator \x7d class B \x7b \x7d", 0⟩).types.map
        (·.name) = ["A"] ∧
      ¬∀ (owner : String) (c : Cursor) (ls : List Lexeme),
        c.Passes ls (member memberList owner c).rest → KeepsBraces 0 ls := by
  refine ⟨by decide +kernel, fun h => ?_⟩
  have hk := h "A" ⟨3, lexemes "int operator \x7d class B \x7b \x7d"⟩
    (lexemes "int operator \x7d class B \x7b \x7d") ⟨by decide +kernel, by decide +kernel⟩
  exact absurd (hk (lexemes "int operator \x7d") (by decide +kernel)) (by decide +kernel)

end Parser
end Outline
