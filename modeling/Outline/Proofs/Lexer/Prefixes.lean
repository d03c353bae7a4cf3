/-
# The start of a text without faults

A text without faults has none at its start either, if it is cut off before a new line and
nothing after that could end a literal or a comment: each literal that has its end has it
before.

| literal | ends with |
| --- | --- |
| string, verbatim string, raw string | `"` |
| character | `'` |
| block comment | `*/` |
-/

import Mathlib.Tactic.SplitIfs
import Outline.Proofs.Lexer.Locality

namespace Outline
namespace Lexer

/-! ### Literals and comments -/

/-- Without a quote a string is not closed. -/
theorem stringExtent_open {interpolated : Bool} {holes : Nat} {mode : StringMode} {cs : List Char}
    (h : '"' ∉ cs) : (stringExtent interpolated holes mode cs).closed = false := by
  fun_induction stringExtent interpolated holes mode cs <;> simp_all

/-- A string that has its end has it before what has no quotes. -/
theorem stringExtent_closed {interpolated : Bool} {after : List Char} (ha : '"' ∉ after)
    {cs : List Char} {holes : Nat} {mode : StringMode}
    (h : (stringExtent interpolated holes mode (cs ++ after)).closed = true) :
    (stringExtent interpolated holes mode cs).closed = true := by
  have opened (holes : Nat) (mode : StringMode) :
      (stringExtent interpolated holes mode after).closed = false := stringExtent_open ha
  induction cs generalizing holes mode with
  | nil =>
    rw [List.nil_append, opened] at h
    cases h
  | cons c cs ih =>
    cases mode with
    | takeText | takeNested => exact ih h
    | nested =>
      rw [List.cons_append, stringExtent] at h
      rw [stringExtent]
      split_ifs at h ⊢
      all_goals first | exact ih h | exact h
    | text =>
      rw [List.cons_append, stringExtent] at h
      rw [stringExtent]
      cases cs with
      | nil =>
        simp only [List.nil_append] at h
        split_ifs at h ⊢
        all_goals first | exact h | simp [opened] at h
      | cons d ds =>
        have head : (d :: ds ++ after).head? = (d :: ds).head? := rfl
        rw [head] at h
        split_ifs at h ⊢
        all_goals first | exact ih h | exact h

/-- Characters that a text needs to be long enough come from what follows it. -/
theorem mem_of_take_eq_replicate {n : Nat} {c : Char} {cs after : List Char} (hn : cs.length < n)
    (h : (cs ++ after).take n = List.replicate n c) : c ∈ after := by
  obtain ⟨hl, hc⟩ := List.eq_replicate_iff.1 h
  rw [List.length_take, List.length_append] at hl
  rw [List.take_append] at hc
  cases after with
  | nil =>
    rw [List.length_nil] at hl
    omega
  | cons a as =>
    obtain ⟨k, hk⟩ : ∃ k, n - cs.length = k + 1 := ⟨n - cs.length - 1, by omega⟩
    rw [hk, List.take_succ_cons] at hc
    exact hc a (List.mem_append_right _ List.mem_cons_self) ▸ List.mem_cons_self

/-- Quotes that close a raw string are not among what follows. -/
theorem rawExtent_closed {quotes : Nat} {after : List Char} (ha : '"' ∉ after)
    (hq : 0 < quotes) {cs : List Char} (h : (rawExtent quotes (cs ++ after)).closed = true) :
    (rawExtent quotes cs).closed = true := by
  have opened {ds : List Char} (hd : '"' ∉ ds) : (rawExtent quotes ds).closed = false := by
    fun_induction rawExtent quotes ds with
    | case1 => rfl
    | case2 c ds hs => exact absurd (@mem_of_take_eq_replicate quotes '"' [] _ hq hs) hd
    | case3 c ds hs ih => exact ih fun hm => hd (List.mem_cons_of_mem c hm)
  induction cs with
  | nil =>
    rw [List.nil_append, opened ha] at h
    cases h
  | cons c cs ih =>
    rw [List.cons_append, rawExtent, ← List.cons_append] at h
    rw [rawExtent]
    split at h
    · rename_i hs
      have hl : quotes ≤ (c :: cs).length := Nat.le_of_not_lt fun hlt =>
        ha (mem_of_take_eq_replicate hlt hs)
      rw [List.take_append_of_le_length hl] at hs
      rw [if_pos hs]
      rfl
    · split
      · rfl
      · exact ih h


/-- What starts with a character that the end does not start with, starts with it before. -/
theorem exists_of_append_eq_cons {c : Char} {cs after more : List Char} (ha : after.head? ≠ some c)
    (h : cs ++ after = c :: more) : ∃ ds, cs = c :: ds ∧ more = ds ++ after :=
  (List.append_eq_cons_iff.1 h).resolve_left fun ⟨_, hc⟩ => ha (by rw [hc, List.head?_cons])

/-- The `*/` that closes a comment does not end in what follows. -/
theorem commentExtent_closed {after : List Char} (ha : '/' ∉ after) {cs : List Char}
    (h : (commentExtent (cs ++ after)).closed = true) : (commentExtent cs).closed = true := by
  have opened {ds : List Char} (hd : '/' ∉ ds) : (commentExtent ds).closed = false := by
    fun_induction commentExtent ds <;> simp_all
  fun_induction commentExtent cs with
  | case1 =>
    rw [List.nil_append, opened ha] at h
    cases h
  | case2 cs => rfl
  | case3 c cs hne ih =>
    rw [List.cons_append, commentExtent] at h
    · exact ih h
    · intro tail hc ht
      obtain ⟨ds, hds, -⟩ := exists_of_append_eq_cons (mt List.mem_of_mem_head? ha) ht
      exact hne ds hc hds

theorem verbatimExtent_closed {after : List Char} (ha : '"' ∉ after) {cs : List Char}
    (h : (verbatimExtent (cs ++ after)).closed = true) : (verbatimExtent cs).closed = true := by
  have opened {ds : List Char} (hd : '"' ∉ ds) : (verbatimExtent ds).closed = false := by
    fun_induction verbatimExtent ds <;> simp_all
  fun_induction verbatimExtent cs with
  | case1 =>
    rw [List.nil_append, opened ha] at h
    cases h
  | case2 cs ih => exact ih h
  | case3 cs hq => rfl
  | case4 c cs h1 h2 ih =>
    have hc : c ≠ '"' := by
      rintro rfl
      exact h2 rfl
    rw [List.cons_append, verbatimExtent] at h
    · exact ih h
    · intro ds hd
      exact absurd hd hc
    · exact hc

/-- A character literal is closed if a quote follows its content. -/
theorem charExtent_closed_iff {cs : List Char} :
    (charExtent cs).2 = .closed ↔ (cs.drop (charContent cs)).head? = some '\'' := by
  unfold charExtent
  dsimp only
  split
  · rename_i h
    exact iff_of_true rfl h
  · rename_i h
    refine iff_of_false ?_ h
    split <;> exact fun h => nomatch h

/-- The quote that closes a character literal is not among what follows. -/
theorem charExtent_of_append {after : List Char} (ha : '\'' ∉ after) {cs : List Char}
    (h : (charExtent (cs ++ after)).2 = .closed) : (charExtent cs).2 = .closed := by
  rw [charExtent_closed_iff] at h ⊢
  have hhead : after.head? ≠ some '\'' := fun hn => ha (List.mem_of_mem_head? hn)
  fun_cases charContent cs with
  | case1 => exact absurd (List.mem_of_mem_drop (List.mem_of_mem_head? h)) ha
  | case2 =>
    cases after with
    | nil => exact h
    | cons a as =>
      exact absurd (List.mem_cons_of_mem a (List.mem_of_mem_head? (l := as) h)) ha
  | case3 d cs =>
    exact (head?_append_eq hhead).mp h
  | case4 => exact h
  | case5 c cs h1 h2 h3 =>
    have hc : c ≠ '\\' := fun hb => by
      cases cs with
      | nil => exact h1 hb rfl
      | cons d ds => exact h2 d ds hb rfl
    rw [List.cons_append, charContent] at h
    · exact (head?_append_eq hhead).mp h
    · exact fun hb _ => hc hb
    · exact fun _ _ hb _ => hc hb
    · exact h3

/-! ### Pieces -/

/-- A text that starts with a separator and ends no literal and no comment. -/
structure Harmless (after : List Char) : Prop where
  separated : Separated after
  quote : '"' ∉ after
  apostrophe : '\'' ∉ after
  slash : '/' ∉ after

theorem fault_literal {kind : LexemeKind} {lead : Nat} {e : Extent} {fault : Fault} :
    (literal kind lead e fault).fault = none ↔ e.closed = true := by
  cases he : e.closed <;> simp [literal, he]

/-- A string that is closed with something harmless behind it was closed before. -/
theorem fault_cutQuote {cs after : List Char} (ha : Harmless after)
    (h : (cutQuote (cs ++ after)).fault = none) : (cutQuote cs).fault = none := by
  have hq : after.head? ≠ some '"' := ha.separated.head?_ne (by decide)
  unfold cutQuote at h ⊢
  dsimp only at h ⊢
  rw [drop_leading_append cs hq, leading_append cs hq] at h
  split at h
  · rename_i hl
    rw [if_pos hl]
    exact fault_literal.2 (rawExtent_closed ha.quote (Nat.succ_pos _) (fault_literal.1 h))
  · rename_i hl
    rw [if_neg hl]
    exact fault_literal.2 (stringExtent_closed ha.quote (fault_literal.1 h))

theorem fault_cutAt {cs after : List Char} (ha : Harmless after)
    (h : (cutAt (cs ++ after)).fault = none) : (cutAt cs).fault = none := by
  have hq : after.head? ≠ some '"' := ha.separated.head?_ne (by decide)
  fun_cases cutAt cs with
  | case1 cs => exact fault_literal.2 (verbatimExtent_closed ha.quote (fault_literal.1 h))
  | case2 cs => exact fault_literal.2 (verbatimExtent_closed ha.quote (fault_literal.1 h))
  | case3 => rfl
  | case4 c cs h1 h2 hn =>
    rw [List.cons_append, cutAt, if_neg hn] at h
    · cases h
    · exact h1
    · intro tail hc ht
      obtain ⟨ds, hds, -⟩ := exists_of_append_eq_cons hq ht
      exact h2 ds hc hds
  | case5 =>
    cases after with
    | nil => exact h
    | cons a as =>
      have hw := not_isWord_of_isSeparator (ha.separated a rfl)
      have hn : ¬Character.isNameStart a = true := fun hn => by
        rw [Character.isWord_of_isNameStart hn] at hw
        cases hw
      rw [List.nil_append, cutAt, if_neg hn] at h
      · cases h
      · exact fun hc => hq (by rw [hc]; rfl)
      · exact fun _ hc _ => ha.separated.head?_ne (d := '$') (by decide) (by rw [hc]; rfl)

/-- The same of what starts with `$`, where what follows has neither a quote nor another `$`. -/
theorem fault_cutDollar {cs after : List Char} (ha : Harmless after)
    (h : (cutDollar (cs ++ after)).fault = none) : (cutDollar cs).fault = none := by
  have hq : after.head? ≠ some '"' := ha.separated.head?_ne (by decide)
  have hd : after.head? ≠ some '$' := ha.separated.head?_ne (by decide)
  unfold cutDollar at h ⊢
  dsimp only at h ⊢
  rw [drop_leading_append cs hd, leading_append cs hd] at h
  generalize cs.drop (leading '$' cs) = rest at h ⊢
  rw [drop_leading_append rest hq, leading_append rest hq] at h
  split at h
  · rename_i hl
    rw [if_pos hl]
    exact fault_literal.2 (rawExtent_closed ha.quote (by omega) (fault_literal.1 h))
  · rename_i hl
    rw [if_neg hl]
    split
    · exact fault_literal.2 (verbatimExtent_closed ha.quote (fault_literal.1 h))
    · exact fault_literal.2 (stringExtent_closed ha.quote (fault_literal.1 h))
    · rename_i hat hquote
      split at h
      · rename_i more heq
        obtain ⟨ds, hds, hmore⟩ :=
          exists_of_append_eq_cons (ha.separated.head?_ne (by decide)) heq
        obtain ⟨es, hes, -⟩ := exists_of_append_eq_cons hq hmore.symm
        exact absurd (hes ▸ hds) (hat es)
      · rename_i more heq
        obtain ⟨ds, hds, -⟩ := exists_of_append_eq_cons hq heq
        exact absurd hds (hquote ds)
      · cases h

theorem fault_cutApostrophe {cs after : List Char} (ha : Harmless after)
    (h : (cutApostrophe (cs ++ after)).fault = none) : (cutApostrophe cs).fault = none := by
  have closed_iff (ds : List Char) :
      (cutApostrophe ds).fault = none ↔ (charExtent ds).2 = .closed := by
    unfold cutApostrophe
    split <;> simp [*]
  exact (closed_iff cs).2 (charExtent_of_append ha.apostrophe ((closed_iff _).1 h))

/-- Two branches that are faultless together. -/
theorem fault_ite {b b' : Prop} [Decidable b] [Decidable b'] {k k' l l' : Cut} (hb : b' ↔ b)
    (hk : b → k'.fault = none → k.fault = none) (hl : ¬b → l'.fault = none → l.fault = none) :
    (if b' then k' else l').fault = none → (if b then k else l).fault = none := by
  by_cases h : b
  · rw [if_pos h, if_pos (hb.2 h)]
    exact hk h
  · rw [if_neg h, if_neg (mt hb.1 h)]
    exact hl h

/-- **A piece without fault** has none in a text that is cut off before a separator. -/
theorem fault_cut (fresh : Bool) (c : Char) {cs after : List Char} (ha : Harmless after)
    (h : (cut fresh c (cs ++ after)).fault = none) : (cut fresh c cs).fault = none := by
  have hd : ∀ a ∈ after.head?, Character.isDigit a = false := fun a h =>
    not_isDigit_of_isSeparator (ha.separated a h)
  have next {d : Char} (hd : isSeparator d = false) :
      (cs ++ after).head? = some d ↔ cs.head? = some d :=
    iff_of_eq (head?_append_eq (ha.separated.head?_ne hd))
  refine fault_ite .rfl (fun _ _ => rfl) (fun _ => ?_) h
  refine fault_ite .rfl (fun _ _ => rfl) fun _ => ?_
  refine fault_ite (and_congr_right' (next (by decide))) (fun _ _ => rfl) fun _ => ?_
  refine fault_ite (and_congr_right' (next (by decide))) (fun hc h => ?_) fun _ => ?_
  · cases cs with
    | nil => cases hc.2
    | cons d ds =>
      have hclosed : (commentExtent (ds ++ after)).closed = true := by
        cases he : (commentExtent (ds ++ after)).closed with
        | true => rfl
        | false => simp [he] at h
      simp [commentExtent_closed ha.slash hclosed]
  refine fault_ite .rfl (fun _ => fault_cutQuote ha) fun _ => ?_
  refine fault_ite .rfl (fun _ => fault_cutAt ha) fun _ => ?_
  refine fault_ite .rfl (fun _ => fault_cutDollar ha) fun _ => ?_
  refine fault_ite .rfl (fun _ => fault_cutApostrophe ha) fun _ => ?_
  refine fault_ite (by rw [any_head?_append hd]) (fun _ _ => rfl) fun _ => ?_
  refine fault_ite .rfl (fun _ _ => rfl) fun _ => ?_
  refine fault_ite (or_congr (and_congr_right' (next (by decide))) (and_congr_right'
    (next (by decide)))) (fun _ _ => rfl) fun _ => ?_
  exact fault_ite .rfl (fun _ _ => rfl) fun _ h => h

/-- **The start of a text without faults** has none, before a new line with nothing that ends a
literal or a comment. -/
theorem faultless_of_append {fresh : Bool} {cs after : List Char} (ha : Harmless after)
    (hl : Follows (· == '\n') after) (h : Faultless (pieces fresh (cs ++ after))) :
    Faultless (pieces fresh cs) := by
  fun_induction pieces fresh cs with
  | case1 => exact fun p hp => absurd hp List.not_mem_nil
  | case2 fresh c cs k ih =>
    rw [List.cons_append, pieces_cons] at h
    have hfault : k.fault = none := fault_cut fresh c ha (h _ List.mem_cons_self)
    have hk : k.more ≤ cs.length := cut_more_le fresh c cs
    have hc : cut fresh c (cs ++ after) = k :=
      cut_append fresh c cs ha.separated hfault fun _ _ => hl
    rw [hc, List.drop_append_of_le_length hk] at h
    exact List.forall_mem_cons.2 ⟨hfault, ih fun p hp => h p (List.mem_cons_of_mem _ hp)⟩

end Lexer
end Outline
