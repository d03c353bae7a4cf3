/-
# Pieces do not look far

Whether a piece without fault goes on is decided by its own characters and at most the
one after it.  So a text that is cut into pieces without faults is cut the same way in
front of any other text, if that text starts with a character that no piece goes on
with.  Only directives and comments up to the end of a line need the line to end there.
-/

import Outline.Proofs.Character
import Outline.Proofs.Lexer.Extent

namespace Outline
namespace Lexer

/-- Signs that no piece goes on with, and the white space of a line. -/
def separators : List Char := [' ', '\n', ';', ',', '(', ')', '[', ']', '\x7b', '\x7d']

/-- The characters that no piece goes on with. -/
def isSeparator (c : Char) : Bool := Character.isWhiteSpace c || separators.contains c

theorem isSeparator_of_mem {c : Char} (h : c ∈ separators) : isSeparator c = true :=
  Bool.or_eq_true_iff.2 (.inr (List.contains_iff_mem.2 h))

/-- A separator does not go on with a word. -/
theorem not_isWord_of_isSeparator {c : Char} (h : isSeparator c = true) :
    Character.isWord c = false := by
  rcases Bool.or_eq_true_iff.1 h with h | h
  · rw [Bool.eq_false_iff]
    intro hw
    rw [Character.not_isWhiteSpace_of_isWord hw] at h
    cases h
  · have none : separators.any Character.isWord = false := by decide +kernel
    exact Bool.eq_false_iff.2 (List.any_eq_false.1 none c (List.contains_iff_mem.1 h))

/-- Nor with a number. -/
theorem not_isDigit_of_isSeparator {c : Char} (h : isSeparator c = true) :
    Character.isDigit c = false := by
  rw [Bool.eq_false_iff]
  intro hd
  have hw := not_isWord_of_isSeparator h
  rw [Character.isWord_of_isDigit hd] at hw
  cases hw

/-- Whether what follows a text, if anything does, starts with one of some characters. -/
def Follows (follow : Char → Bool) (after : List Char) : Prop := ∀ a ∈ after.head?, follow a = true

/-- A text that no piece goes on with. -/
def Separated (after : List Char) : Prop := Follows isSeparator after

theorem Separated.head?_ne {after : List Char} (h : Separated after) {d : Char}
    (hd : isSeparator d = false) : after.head? ≠ some d := by
  intro ha
  rw [h d ha] at hd
  cases hd

/-- The first character is what it was, unless it is the first of what follows. -/
theorem head?_append_eq {cs after : List Char} {d : Char} (h : after.head? ≠ some d) :
    ((cs ++ after).head? = some d) = (cs.head? = some d) := by
  cases cs with
  | nil => simp [h]
  | cons c cs => rfl

theorem any_head?_append {cs after : List Char} {p : Char → Bool}
    (h : ∀ a ∈ after.head?, p a = false) : (cs ++ after).head?.any p = cs.head?.any p := by
  cases cs with
  | nil =>
    cases ha : after.head? with
    | none => rw [List.nil_append, ha]; rfl
    | some a => simpa [ha] using h a ha
  | cons c cs => rfl

/-- A stretch ends where it did if what follows cannot go on with it. -/
theorem takeWhile_append_of_head? {p : Char → Bool} (cs : List Char) {after : List Char}
    (h : ∀ a ∈ after.head?, p a = false) : (cs ++ after).takeWhile p = cs.takeWhile p := by
  induction cs with
  | nil =>
    cases after with
    | nil => rfl
    | cons a as =>
      have ha : p a = false := h a rfl
      exact List.takeWhile_cons_of_neg (by simp [ha])
  | cons c cs ih =>
    rw [List.cons_append, List.takeWhile_cons, List.takeWhile_cons, ih]

/-! ### Literals and comments -/

@[simp] theorem Extent.grow_closed (n : Nat) (e : Extent) : (e.grow n).closed = e.closed := rfl
@[simp] theorem Extent.cut_closed : Extent.cut.closed = false := rfl

theorem head?_append_of_ne_nil {cs : List Char} (h : cs ≠ []) (after : List Char) :
    (cs ++ after).head? = cs.head? := by
  cases cs with
  | nil => exact absurd rfl h
  | cons c cs => rfl

/-- A closed string stays as it is, whatever follows. -/
theorem stringExtent_append {interpolated : Bool} {holes : Nat} {mode : StringMode}
    {cs : List Char} (h : (stringExtent interpolated holes mode cs).closed = true)
    (after : List Char) :
    stringExtent interpolated holes mode (cs ++ after)
      = stringExtent interpolated holes mode cs := by
  have ne : ∀ {holes mode cs}, (stringExtent interpolated holes mode cs).closed = true →
      ∀ after : List Char, (cs ++ after).head? = cs.head? := by
    intro holes mode cs hc after
    refine head?_append_of_ne_nil (fun hn => ?_) after
    rw [hn, stringExtent] at hc
    cases hc
  fun_induction stringExtent interpolated holes mode cs with
  | case1 => cases h
  | case2 holes c cs ih | case3 holes c cs ih => exact congrArg (Extent.grow 1) (ih h)
  | case4 | case8 => cases h
  | case5 | case6 | case7 =>
    rename_i ih
    rw [List.cons_append, stringExtent, ih h]
    simp [*]
  | case9 | case10 | case12 | case13 | case14 | case15 | case16 =>
    rename_i ih
    rw [List.cons_append, stringExtent, ne h after, ih h]
    simp [*]
  | case11 =>
    rw [List.cons_append, stringExtent]
    simp

/-- So does a closed raw string, which ends at its first quotes that are enough. -/
theorem rawExtent_append {quotes : Nat} {cs : List Char}
    (h : (rawExtent quotes cs).closed = true) (after : List Char) :
    rawExtent quotes (cs ++ after) = rawExtent quotes cs := by
  have enough : ∀ ds : List Char, (rawExtent quotes ds).closed = true → quotes ≤ ds.length := by
    intro ds hd
    fun_induction rawExtent quotes ds with
    | case1 => cases hd
    | case2 c ds hq =>
      have hl := congrArg List.length hq
      rw [List.length_take, List.length_replicate] at hl
      omega
    | case3 c ds hq ih => exact Nat.le_succ_of_le (ih hd)
  fun_induction rawExtent quotes cs with
  | case1 => cases h
  | case2 c cs hq =>
    have hl := congrArg List.length hq
    rw [List.length_take, List.length_replicate] at hl
    rw [List.cons_append, rawExtent, if_pos]
    rw [← hq, ← List.cons_append, List.take_append_of_le_length (by omega)]
  | case3 c cs hq ih =>
    have hl := enough cs h
    rw [List.cons_append, rawExtent, if_neg, ih h]
    rwa [← List.cons_append, List.take_append_of_le_length (by rw [List.length_cons]; omega)]

theorem commentExtent_append {cs : List Char} (h : (commentExtent cs).closed = true)
    (after : List Char) : commentExtent (cs ++ after) = commentExtent cs := by
  fun_induction commentExtent cs with
  | case1 => cases h
  | case2 cs => rfl
  | case3 c cs hne ih =>
    rw [List.cons_append, commentExtent, ih h]
    intro tail hc ht
    cases cs with
    | nil => cases h
    | cons d ds =>
      rw [List.cons_append, List.cons.injEq] at ht
      exact hne ds hc (by rw [ht.1])

/-- A closed verbatim string may be gone on with by a quote and by nothing else. -/
theorem verbatimExtent_append {cs after : List Char} (h : (verbatimExtent cs).closed = true)
    (ha : after.head? ≠ some '"') : verbatimExtent (cs ++ after) = verbatimExtent cs := by
  fun_induction verbatimExtent cs with
  | case1 => cases h
  | case2 cs ih => exact congrArg (Extent.grow 2) (ih h)
  | case3 cs hq =>
    rw [List.cons_append, verbatimExtent]
    intro ds hd
    cases cs with
    | nil => exact ha (by rw [← List.nil_append after, hd]; rfl)
    | cons c cs =>
      rw [List.cons_append, List.cons.injEq] at hd
      exact hq cs (by rw [hd.1])
  | case4 c cs h1 h2 ih =>
    have hc : c ≠ '"' := by
      rintro rfl
      exact h2 rfl
    rw [List.cons_append, verbatimExtent, ih h]
    · intro ds hd
      exact absurd hd hc
    · exact hc

/-- How many characters a number takes is decided before what follows it. -/
theorem numberExtent_append (cs : List Char) {after : List Char}
    (hw : ∀ a ∈ after.head?, Character.isWord a = false)
    (hd : ∀ a ∈ after.head?, Character.isDigit a = false)
    (hp : after.head? ≠ some '.') : numberExtent (cs ++ after) = numberExtent cs := by
  induction cs with
  | nil =>
    cases after with
    | nil => rfl
    | cons a as =>
      have ha : Character.isWord a = false := hw a rfl
      have hne : a ≠ '.' := fun hdot => hp (by rw [hdot]; rfl)
      cases as with
      | nil => simp [numberExtent, ha]
      | cons b bs => simp [numberExtent, ha, hne]
  | cons c cs ih =>
    cases cs with
    | nil =>
      cases after with
      | nil => rfl
      | cons a as =>
        have ha : Character.isDigit a = false := hd a rfl
        rw [List.singleton_append, numberExtent, numberExtent]
        simp only [ha, Bool.and_false, Bool.or_false]
        split
        · rw [List.nil_append] at ih
          rw [ih]
          rfl
        · rfl
    | cons d ds =>
      rw [List.cons_append, List.cons_append, numberExtent, numberExtent, ← List.cons_append, ih]

/-- A line that takes all characters needs a line feed behind it. -/
theorem lineExtent_append {cs after : List Char}
    (h : cs.length ≤ lineExtent cs → Follows (· == '\n') after) :
    lineExtent (cs ++ after) = lineExtent cs := by
  induction cs with
  | nil =>
    refine congrArg List.length (takeWhile_append_of_head? [] fun a ha => ?_)
    simpa using h (Nat.zero_le _) a ha
  | cons c cs ih =>
    unfold lineExtent at ih h ⊢
    rw [List.cons_append, List.takeWhile_cons, List.takeWhile_cons]
    split
    · rename_i hc
      rw [List.takeWhile_cons, if_pos hc] at h
      rw [List.length_cons, List.length_cons, ih fun hl => h (Nat.succ_le_succ hl)]
    · rfl

/-- A character literal that is closed is as long as its content, with the quote after it. -/
theorem charExtent_closed {cs : List Char} {n : Nat} (h : charExtent cs = (n, .closed)) :
    (cs.drop (charContent cs)).head? = some '\'' ∧ n = charContent cs + 1 := by
  unfold charExtent at h
  dsimp only at h
  split at h
  · exact ⟨‹_›, (Prod.mk.inj h).1.symm⟩
  · split at h <;> cases h

/-- A character literal that is closed is decided before what follows it. -/
theorem charExtent_append {cs : List Char} {n : Nat} (h : charExtent cs = (n, .closed))
    (after : List Char) : charExtent (cs ++ after) = (n, .closed) := by
  have quote := charExtent_closed h
  have hne : cs.drop (charContent cs) ≠ [] := by
    intro hn
    rw [hn] at quote
    cases quote.1
  have content : charContent (cs ++ after) = charContent cs := by
    fun_cases charContent cs with
    | case1 => exact absurd rfl hne
    | case2 => exact absurd rfl hne
    | case3 => rfl
    | case4 => rfl
    | case5 c cs h1 h2 h3 =>
      have hc : c ≠ '\\' := fun hb => by
        cases cs with
        | nil => exact h1 hb rfl
        | cons d ds => exact h2 d ds hb rfl
      rw [List.cons_append, charContent]
      · exact fun hb _ => hc hb
      · exact fun _ _ hb _ => hc hb
      · exact h3
  have hl : charContent cs ≤ cs.length := charContent_le cs
  unfold charExtent
  dsimp only
  rw [content, List.drop_append_of_le_length hl, head?_append_of_ne_nil hne, if_pos quote.1,
    quote.2]

/-! ### What starts with a sign of its own -/

/-- Signs at the start are counted alike, if the text does not go on with one more. -/
theorem leading_append {c : Char} (cs : List Char) {after : List Char}
    (h : after.head? ≠ some c) : leading c (cs ++ after) = leading c cs := by
  refine congrArg List.length (takeWhile_append_of_head? cs fun a ha => ?_)
  rw [decide_eq_false_iff_not]
  rintro rfl
  exact h ha

theorem drop_leading_append {c : Char} (cs : List Char) {after : List Char}
    (h : after.head? ≠ some c) :
    (cs ++ after).drop (leading c (cs ++ after)) = cs.drop (leading c cs) ++ after := by
  rw [leading_append cs h, List.drop_append_of_le_length (leading_le c cs)]

/-- A literal without fault has its end. -/
theorem closed_of_literal {kind : LexemeKind} {lead : Nat} {e : Extent} {fault : Fault}
    (h : (literal kind lead e fault).fault = none) : e.closed = true := by
  cases he : e.closed with
  | true => rfl
  | false =>
    rw [literal, he] at h
    cases h

/-- **What starts with a quote** stays as it is in front of anything but a quote. -/
theorem cutQuote_append {cs after : List Char} (h : (cutQuote cs).fault = none)
    (ha : after.head? ≠ some '"') : cutQuote (cs ++ after) = cutQuote cs := by
  unfold cutQuote at h ⊢
  dsimp only at h ⊢
  rw [drop_leading_append cs ha, leading_append cs ha]
  split
  · rename_i hq
    rw [if_pos hq] at h
    rw [cutRaw, cutRaw, rawExtent_append (closed_of_literal h)]
  · rename_i hq
    rw [if_neg hq] at h
    rw [stringExtent_append (closed_of_literal h)]

/-- What starts with `@` is a string or a name, so neither a quote nor a character of a word
may follow. -/
theorem cutAt_append {cs after : List Char} (h : (cutAt cs).fault = none)
    (ha : after.head? ≠ some '"') (hw : ∀ a ∈ after.head?, Character.isWord a = false) :
    cutAt (cs ++ after) = cutAt cs := by
  fun_cases cutAt cs with
  | case1 cs =>
    rw [List.cons_append, cutAt, verbatimExtent_append (closed_of_literal h) ha]
  | case2 cs =>
    rw [List.cons_append, List.cons_append, cutAt,
      verbatimExtent_append (closed_of_literal h) ha]
  | case3 c cs h1 h2 hn =>
    have hc : c ≠ '$' := by
      rintro rfl
      cases hn
    rw [List.cons_append, cutAt, if_pos hn, ← List.cons_append, takeWhile_append_of_head? _ hw]
    · exact h1
    · exact fun _ hd _ => hc hd
  | case4 c cs h1 h2 hn =>
    rw [cutAt, if_neg hn] at h
    · cases h
    · exact h1
    · exact h2
  | case5 => cases h

/-- What starts with `$` could be gone on with by a quote or by another `$`. -/
theorem cutDollar_append {cs after : List Char} (h : (cutDollar cs).fault = none)
    (ha : after.head? ≠ some '"') (hd : after.head? ≠ some '$') :
    cutDollar (cs ++ after) = cutDollar cs := by
  unfold cutDollar at h ⊢
  dsimp only at h ⊢
  rw [drop_leading_append cs hd, leading_append cs hd]
  generalize cs.drop (leading '$' cs) = rest at h ⊢
  rw [drop_leading_append rest ha, leading_append rest ha]
  split
  · rename_i hq
    rw [if_pos hq] at h
    rw [cutRaw, cutRaw, rawExtent_append (closed_of_literal h)]
  · rename_i hq
    rw [if_neg hq] at h
    split at h
    · rename_i rest _
      exact congrArg (literal .interpolated _ · _) (verbatimExtent_append (closed_of_literal h) ha)
    · rename_i rest _
      exact congrArg (literal .interpolated _ · _) (stringExtent_append (closed_of_literal h) after)
    · cases h

/-- A character literal that is closed ends at its own quote. -/
theorem cutApostrophe_append {cs : List Char} (h : (cutApostrophe cs).fault = none)
    (after : List Char) : cutApostrophe (cs ++ after) = cutApostrophe cs := by
  unfold cutApostrophe at h ⊢
  split at h
  · rename_i n hn
    rw [charExtent_append hn]
  · cases h
  · cases h

theorem cutName_append (c : Char) (cs : List Char) {after : List Char}
    (hw : ∀ a ∈ after.head?, Character.isWord a = false) :
    cutName c (cs ++ after) = cutName c cs := by
  unfold cutName
  rw [takeWhile_append_of_head? cs hw]

/-! ### Pieces -/

/-- Whether a piece takes the rest of its line: a directive or a comment after `//`. -/
def Cut.takesLine (k : Cut) (cs : List Char) : Bool :=
  k.shape == .directive || (k.shape == .comment && cs.head? == some '/')

/-- A piece without fault stays the same in front of another text, which starts a new
line if the piece takes the rest of its own. -/
def Cut.Kept (cs after : List Char) (k' k : Cut) : Prop :=
  k.fault = none → (k.takesLine cs = true → cs.length ≤ k.more → Follows (· == '\n') after) →
    k' = k

namespace Cut.Kept

theorem of_eq {cs after : List Char} {k' k : Cut} (h : k' = k) : Kept cs after k' k :=
  fun _ _ => h

theorem ite {cs after : List Char} {b b' : Prop} [Decidable b] [Decidable b'] {k k' l l' : Cut}
    (hb : b' ↔ b) (hk : b → Kept cs after k' k) (hl : ¬b → Kept cs after l' l) :
    Kept cs after (if b' then k' else l') (if b then k else l) := by
  by_cases h : b
  · rw [if_pos h, if_pos (hb.2 h)]
    exact hk h
  · rw [if_neg h, if_neg (mt hb.1 h)]
    exact hl h

end Cut.Kept

/-- **A piece without fault does not look far**: in front of a separator it is the same. -/
theorem cut_append (fresh : Bool) (c : Char) (cs : List Char) {after : List Char}
    (ha : Separated after) : Cut.Kept cs after (cut fresh c (cs ++ after)) (cut fresh c cs) := by
  have hw : ∀ a ∈ after.head?, Character.isWord a = false := fun a h =>
    not_isWord_of_isSeparator (ha a h)
  have hd : ∀ a ∈ after.head?, Character.isDigit a = false := fun a h =>
    not_isDigit_of_isSeparator (ha a h)
  have next : ∀ {d : Char}, isSeparator d = false →
      ((cs ++ after).head? = some d ↔ cs.head? = some d) := fun h =>
    iff_of_eq (head?_append_eq (ha.head?_ne h))
  refine .ite .rfl (fun _ => .of_eq rfl) fun _ => ?_
  refine .ite .rfl (fun _ _ h => ?_) fun _ => ?_
  · rw [lineExtent_append (h rfl)]
  refine .ite (and_congr_right' (next (by decide))) (fun hc _ h => ?_) fun _ => ?_
  · rw [lineExtent_append (h (by simp [Cut.takesLine, hc.2]))]
  refine .ite (and_congr_right' (next (by decide))) (fun hc h _ => ?_) fun _ => ?_
  · cases cs with
    | nil => cases hc.2
    | cons d ds =>
      have he : (commentExtent ds).closed = true := by
        cases hd : (commentExtent ds).closed with
        | true => rfl
        | false => simp [hd] at h
      rw [List.cons_append, List.tail_cons, List.tail_cons, commentExtent_append he]
  refine .ite .rfl (fun _ h _ => cutQuote_append h (ha.head?_ne (by decide))) fun _ => ?_
  refine .ite .rfl (fun _ h _ => cutAt_append h (ha.head?_ne (by decide)) hw) fun _ => ?_
  refine .ite .rfl (fun _ h _ => cutDollar_append h (ha.head?_ne (by decide))
    (ha.head?_ne (by decide))) fun _ => ?_
  refine .ite .rfl (fun _ h _ => cutApostrophe_append h after) fun _ => ?_
  refine .ite (by rw [any_head?_append hd]) (fun _ => .of_eq ?_) fun _ => ?_
  · rw [numberExtent_append cs hw hd (ha.head?_ne (by decide))]
  refine .ite .rfl (fun _ => .of_eq (cutName_append c cs hw)) fun _ => ?_
  refine .ite (or_congr (and_congr_right' (next (by decide))) (and_congr_right'
    (next (by decide)))) (fun _ => .of_eq rfl) fun _ => ?_
  exact .ite .rfl (fun _ => .of_eq rfl) fun _ => .of_eq rfl

/-- Whether a piece takes the rest of its line. -/
def Piece.takesLine (p : Piece) : Bool :=
  p.shape == .directive || (p.shape == .comment && p.text.tail.head? == some '/')

/-- No piece is at fault. -/
def Faultless (ps : List Piece) : Prop := ∀ p ∈ ps, p.fault = none

instance (ps : List Piece) : Decidable (Faultless ps) :=
  inferInstanceAs (Decidable (∀ p ∈ ps, p.fault = none))

/-- Pieces are without faults if they are so on both sides. -/
theorem faultless_append {ps qs : List Piece} :
    Faultless (ps ++ qs) ↔ Faultless ps ∧ Faultless qs := List.forall_mem_append

/-- The next text starts a new line, if the last of the pieces takes the rest of its own. -/
def EndsLine (ps : List Piece) (after : List Char) : Prop :=
  ∀ p ∈ ps.getLast?, p.takesLine = true → Follows (· == '\n') after

theorem EndsLine.of_cons {p : Piece} {ps : List Piece} {after : List Char}
    (h : EndsLine (p :: ps) after) : EndsLine ps after := by
  cases ps with
  | nil => exact fun _ hp => absurd hp (by simp)
  | cons q qs =>
    rwa [EndsLine, List.getLast?_cons_cons] at h

/-- **A text without faults is cut the same way in front of a separator**, unless its
last piece takes the rest of the line. -/
theorem pieces_append {fresh : Bool} {cs after : List Char} (h : Faultless (pieces fresh cs))
    (ha : Separated after) (hl : EndsLine (pieces fresh cs) after) :
    ∃ fresh', pieces fresh (cs ++ after) = pieces fresh cs ++ pieces fresh' after := by
  fun_induction pieces fresh cs with
  | case1 fresh => exact ⟨fresh, rfl⟩
  | case2 fresh c cs k ih =>
    have hk : k.more ≤ cs.length := cut_more_le fresh c cs
    have hc : cut fresh c (cs ++ after) = k := by
      refine cut_append fresh c cs ha (h _ List.mem_cons_self) fun ht hm => ?_
      rw [List.drop_of_length_le hm, List.take_of_length_le hm, pieces_nil] at hl
      exact hl _ rfl ht
    rcases ih (fun p hp => h p (List.mem_cons_of_mem _ hp)) hl.of_cons with ⟨fresh', hf⟩
    refine ⟨fresh', ?_⟩
    rw [List.cons_append, pieces_cons, hc, List.take_append_of_le_length hk,
      List.drop_append_of_le_length hk, hf]
    rfl

/-- A text without faults has no directive, and is cut the same way at the start of a line. -/
theorem pieces_fresh {fresh fresh' : Bool} {cs : List Char} (h : Faultless (pieces fresh cs))
    (hf : fresh = true → fresh' = true) : pieces fresh' cs = pieces fresh cs := by
  fun_induction pieces fresh cs generalizing fresh' with
  | case1 fresh => exact pieces_nil fresh'
  | case2 fresh c cs k =>
    rename_i ih
    have hc : cut fresh' c cs = cut fresh c cs := by
      by_cases hs : c = '#'
      · subst hs
        cases fresh with
        | true => rw [hf rfl]
        | false =>
          have : (cut false '#' cs).fault = none := h _ List.mem_cons_self
          cases this
      · unfold cut
        simp only [hs, false_and, if_false]
    have hn : freshAfter fresh c (cut fresh c cs).shape = true →
        freshAfter fresh' c (cut fresh c cs).shape = true := by
      unfold freshAfter
      split
      · rw [Bool.or_eq_true, Bool.or_eq_true]
        exact Or.imp_left hf
      · exact hf
      · exact id
    rw [pieces_cons, hc, ih (fun p hp => h p (List.mem_cons_of_mem _ hp)) hn]

end Lexer
end Outline
