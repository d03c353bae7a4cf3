/-
# Pieces in front of texts that start alike

Where a piece ends is decided by its own characters, the first one after it and, for a dot,
a dollar and an `@`, the one after that.  Most of them only ask whether this is some sign.
So a piece stays the same if what follows it is exchanged for what starts alike, whether or
not the piece has a fault; and where a name follows it may be one with its prefix in the one
text and one without in the other (`stays_cut`).

| piece | what it asks of the text after it |
| --- | --- |
| word, name, number, stray `@` | how it starts |
| number, dot | also whether a digit is second |
| stray `@`, dollars | also whether a quote is second |
| string, character, line comment | whether it starts with a line feed or a quote, or is empty |
| string with more quotes, other comment | whether it starts with a quote, or is empty |
| any other sign | whether it starts with the sign that goes with it |
-/

import Outline.Proofs.Lexer.Relexing

namespace Outline
namespace Lexer

/-! ### Texts that start alike -/

/-- What starts no name, neither by itself nor as its prefix. -/
def startsNoName (c : Char) : Bool := c != '@' && !Character.isNameStart c

/-- Texts that start alike, but for names. -/
structure StartsAlike (as bs : List Char) : Prop where
  nil : as = [] ↔ bs = []
  head : ∀ d, startsNoName d = true → (as.head? = some d ↔ bs.head? = some d)

namespace StartsAlike

variable {as bs : List Char}

/-- Characters of one's own in front make no difference. -/
theorem append (h : StartsAlike as bs) (own : List Char) :
    StartsAlike (own ++ as) (own ++ bs) := by
  cases own with
  | nil => exact h
  | cons c own => exact ⟨by simp, fun _ _ => Iff.rfl⟩

/-- A sign is next in both texts or in none. -/
theorem head_eq (h : StartsAlike as bs) (own : List Char) {d : Char} (hd : startsNoName d = true) :
    ((own ++ bs).head? = some d) = ((own ++ as).head? = some d) :=
  propext ((h.append own).head d hd).symm

/-- A test that only characters pass that start no name comes out the same for both texts. -/
theorem any_eq (h : StartsAlike as bs) {p : Char → Bool}
    (hp : ∀ d, p d = true → startsNoName d = true) : as.head?.any p = bs.head?.any p := by
  have both : ∀ {as bs : List Char}, (∀ d, startsNoName d = true → as.head? = some d →
      bs.head? = some d) → as.head?.any p = true → bs.head?.any p = true := by
    intro as bs h ha
    obtain ⟨d, hd, hpd⟩ := (Option.any_eq_true _ _).1 ha
    exact (Option.any_eq_true _ _).2 ⟨d, h d (hp d hpd) hd, hpd⟩
  rw [Bool.eq_iff_iff]
  exact ⟨both fun d hd => (h.head d hd).1, both fun d hd => (h.head d hd).2⟩

/-- What stops in front of one text stops in front of the other. -/
theorem stops (h : StartsAlike as bs) {p : Char → Bool}
    (hp : ∀ d, p d = false → startsNoName d = true) (ha : ∀ a ∈ as.head?, p a = false) :
    ∀ b ∈ bs.head?, p b = false := by
  cases as with
  | nil =>
    rw [h.nil.1 rfl]
    exact fun _ hb => by cases hb
  | cons a as =>
    have hstop : p a = false := ha a rfl
    rw [(h.head a (hp a hstop)).1 rfl]
    rintro b ⟨⟩
    exact hstop

end StartsAlike

/-! ### Strings and comments -/

/-- An extent that looks no further than at how what follows it starts. -/
def Shortsighted (e : List Char → Extent) : Prop := ∀ own as bs, StartsAlike as bs →
  (e (own ++ as)).length ≤ own.length → e (own ++ bs) = e (own ++ as)

variable {as bs own : List Char}

/-- A string goes on over all but a line feed. -/
theorem stringExtent_length_eq_zero {interpolated : Bool} {holes : Nat} {mode : StringMode}
    {c : Char} {cs : List Char} (h : (stringExtent interpolated holes mode (c :: cs)).length = 0) :
    c = '\n' ∧ (mode = .text ∨ mode = .nested) := by
  have grown {e : Extent} (h : (e.grow 1).length = 0) : False := by
    rw [Extent.grow_length] at h
    omega
  cases mode with
  | takeText | takeNested => exact (grown h).elim
  | nested =>
    rw [stringExtent] at h
    split_ifs at h with hc
    · exact ⟨hc, .inr rfl⟩
    all_goals exact (grown h).elim
  | text =>
    rw [stringExtent] at h
    split_ifs at h with hc
    · exact ⟨hc, .inl rfl⟩
    all_goals first | exact (grown h).elim | cases h

/-- A string ends in front of a line feed, or where all does. -/
theorem shortsighted_stringExtent (interpolated : Bool) (holes : Nat) (mode : StringMode) :
    Shortsighted (stringExtent interpolated holes mode) := by
  intro own as bs h hl
  induction own generalizing holes mode with
  | nil =>
    cases as with
    | nil => rw [h.nil.1 rfl]
    | cons a as =>
      obtain ⟨rfl, hmode⟩ := stringExtent_length_eq_zero (Nat.le_zero.1 hl)
      obtain ⟨bs, rfl⟩ := List.head?_eq_some_iff.1 ((h.head '\n' (by decide)).1 rfl)
      rcases hmode with rfl | rfl
      · rfl
      · rfl
  | cons c own ih =>
    have grown {holes : Nat} {mode : StringMode}
        (hl : ((stringExtent interpolated holes mode (own ++ as)).grow 1).length
          ≤ (c :: own).length) :
        (stringExtent interpolated holes mode (own ++ bs)).grow 1
          = (stringExtent interpolated holes mode (own ++ as)).grow 1 := by
      rw [Extent.grow_length, List.length_cons] at hl
      rw [ih _ _ (by omega)]
    have hn := h.head_eq own (d := '\n') (by decide)
    have hb := h.head_eq own (d := '\x7b') (by decide)
    cases mode with
    | takeText | takeNested => exact grown hl
    | nested | text =>
      simp only [List.cons_append, stringExtent, hn, hb] at hl ⊢
      split_ifs at hl ⊢
      all_goals first | rfl | exact grown hl

/-- A verbatim string goes on over any character but a quote. -/
theorem verbatimExtent_cons {c : Char} (h : c ≠ '"') (cs : List Char) :
    verbatimExtent (c :: cs) = (verbatimExtent cs).grow 1 := by
  rw [verbatimExtent]
  · exact fun ds hd => absurd hd h
  · exact h

/-- A quote that is not doubled closes a verbatim string. -/
theorem verbatimExtent_quote {cs : List Char} (h : cs.head? ≠ some '"') :
    verbatimExtent ('"' :: cs) = .close 1 := by
  rw [verbatimExtent]
  rintro ds rfl
  exact h rfl

theorem verbatimExtent_length_pos {cs : List Char} (h : cs ≠ []) :
    0 < (verbatimExtent cs).length := by
  fun_cases verbatimExtent cs with
  | case1 => exact absurd rfl h
  | case2 => exact Nat.lt_add_right _ Nat.two_pos
  | case3 => exact Nat.one_pos
  | case4 => exact Nat.lt_add_right _ Nat.one_pos

/-- A verbatim string asks whether a quote is doubled. -/
theorem shortsighted_verbatimExtent : Shortsighted verbatimExtent := by
  intro own as bs h hl
  fun_induction verbatimExtent own with
  | case1 =>
    cases as with
    | nil => rw [h.nil.1 rfl]
    | cons a as => exact absurd hl (Nat.not_le_of_gt (verbatimExtent_length_pos (by simp)))
  | case2 own ih =>
    have hl : 2 + (verbatimExtent (own ++ as)).length ≤ own.length + 2 := hl
    exact congrArg (Extent.grow 2) (ih (by omega))
  | case3 own hq =>
    have hstop : (own ++ as).head? ≠ some '"' := by
      intro hd
      obtain ⟨ds, hd⟩ := List.head?_eq_some_iff.1 hd
      cases own with
      | cons c own => exact hq own (by rw [(List.cons.inj hd).1])
      | nil =>
        rw [List.nil_append] at hd
        rw [hd] at hl
        have hl : 2 + (verbatimExtent ds).length ≤ 1 := hl
        omega
    rw [List.cons_append, List.cons_append, verbatimExtent_quote hstop, verbatimExtent_quote]
    rwa [ne_eq, h.head_eq own (by decide)]
  | case4 c own h1 h2 ih =>
    have hc : c ≠ '"' := by
      rintro rfl
      exact h2 rfl
    rw [List.cons_append, verbatimExtent_cons hc] at hl ⊢
    rw [List.cons_append, verbatimExtent_cons hc, ih]
    rw [Extent.grow_length, List.length_cons] at hl
    omega

/-- What is closed by its own characters and goes on to the end otherwise. -/
theorem shortsighted_of_closed {e : List Char → Extent}
    (hclosed : ∀ cs, (e cs).closed = true → ∀ after, e (cs.take (e cs).length ++ after) = e cs)
    (hopen : ∀ cs, (e cs).closed = false → (e cs).length = cs.length) : Shortsighted e := by
  intro own as bs h hl
  cases he : (e (own ++ as)).closed with
  | true =>
    have hown := hclosed _ he (own.drop (e (own ++ as)).length ++ bs)
    rwa [List.take_append_of_le_length hl, ← List.append_assoc, List.take_append_drop] at hown
  | false =>
    have hall := hopen _ he
    have has : as = [] := by
      rw [← List.length_eq_zero_iff]
      rw [List.length_append] at hall
      omega
    rw [has, h.nil.1 has]

/-- A raw string ends at quotes, so it sees no letter behind it. -/
theorem shortsighted_rawExtent {quotes : Nat} (hpos : 0 < quotes) :
    Shortsighted (rawExtent quotes) := by
  refine shortsighted_of_closed (fun cs hc after => ?_) fun cs hc => ?_
  · have htake := rawExtent_take hpos hc
    rw [rawExtent_append (by rw [htake, hc]), htake]
  · fun_induction rawExtent quotes cs with
    | case1 => rfl
    | case2 => cases hc
    | case3 c cs _ ih => rw [Extent.grow_length, ih hc, List.length_cons, Nat.add_comm]

theorem commentExtent_length_pos {cs : List Char} (h : (commentExtent cs).closed = true) :
    0 < (commentExtent cs).length := by
  fun_cases commentExtent cs with
  | case1 => cases h
  | case2 => exact Nat.two_pos
  | case3 => exact Nat.lt_add_right _ Nat.one_pos

/-- A comment over lines ends at its own two characters. -/
theorem shortsighted_commentExtent : Shortsighted commentExtent := by
  refine shortsighted_of_closed (fun cs hc after => ?_) fun cs hc => ?_
  · fun_induction commentExtent cs with
    | case1 => cases hc
    | case2 cs => rfl
    | case3 c cs hne ih =>
      rw [Extent.grow_length, take_grow, List.cons_append, commentExtent, ih hc]
      rintro ds rfl hd
      cases cs with
      | nil => cases hc
      | cons d cs =>
        obtain ⟨n, hn⟩ := Nat.exists_eq_succ_of_ne_zero (Nat.ne_of_gt (commentExtent_length_pos hc))
        rw [hn, List.take_succ_cons, List.cons_append] at hd
        exact hne cs rfl (by rw [(List.cons.inj hd).1])
  · fun_induction commentExtent cs with
    | case1 => rfl
    | case2 => cases hc
    | case3 c cs _ ih => rw [Extent.grow_length, ih hc, List.length_cons, Nat.add_comm]

/-! ### Other extents -/

/-- What ends inside of one's own characters, or at their end in front of both texts, is
the same. -/
theorem takeWhile_alike {p : Char → Bool}
    (hp : (∀ a ∈ as.head?, p a = false) → ∀ b ∈ bs.head?, p b = false)
    (hl : ((own ++ as).takeWhile p).length ≤ own.length) :
    (own ++ bs).takeWhile p = (own ++ as).takeWhile p := by
  induction own with
  | nil =>
    have ha : ∀ a ∈ as.head?, p a = false := by
      cases as with
      | nil => exact fun _ ha => by cases ha
      | cons a as =>
        rintro b ⟨⟩
        cases hpa : p a with
        | false => rfl
        | true => simp [hpa] at hl
    rw [takeWhile_append_of_head? [] ha, takeWhile_append_of_head? [] (hp ha)]
  | cons c own ih =>
    rw [List.cons_append, List.takeWhile_cons] at hl
    rw [List.cons_append, List.cons_append, List.takeWhile_cons, List.takeWhile_cons]
    cases hc : p c with
    | false => rfl
    | true =>
      rw [if_pos hc, List.length_cons, List.length_cons] at hl
      rw [if_pos rfl, if_pos rfl, ih (by omega)]

theorem lineExtent_alike (h : StartsAlike as bs) (hl : lineExtent (own ++ as) ≤ own.length) :
    lineExtent (own ++ bs) = lineExtent (own ++ as) := by
  refine congrArg List.length (takeWhile_alike (h.stops fun d hd => ?_) hl)
  obtain rfl : d = '\n' := by simpa using hd
  decide

theorem leading_of_head? {c : Char} {cs : List Char} (h : cs.head? ≠ some c) :
    leading c cs = 0 := by
  cases cs with
  | nil => rfl
  | cons d ds =>
    have hd : d ≠ c := fun hd => h (by rw [hd]; rfl)
    simp [leading, hd]

/-- Signs at the start are counted up to the first other character. -/
theorem leading_alike (h : StartsAlike as bs) {c : Char} (hc : startsNoName c = true)
    (hl : leading c (own ++ as) ≤ own.length) :
    leading c (own ++ bs) = leading c (own ++ as) := by
  refine congrArg List.length (takeWhile_alike (fun ha b hb => ?_) hl)
  rw [decide_eq_false_iff_not]
  rintro rfl
  simpa using ha _ ((h.head _ hc).2 hb)

theorem numberExtent_cons (c : Char) (cs : List Char) : numberExtent (c :: cs)
    = if Character.isWord c || (c = '.' && cs.head?.any Character.isDigit)
      then numberExtent cs + 1 else 0 := by
  cases cs with
  | nil => simp [numberExtent]
  | cons d ds => simp [numberExtent]

theorem startsNoName_of_isDigit {d : Char} (h : Character.isDigit d = true) :
    startsNoName d = true := by
  rw [startsNoName, Bool.and_eq_true, bne_iff_ne]
  refine ⟨?_, ?_⟩
  · rintro rfl
    cases h
  · cases hn : Character.isNameStart d with
    | false => rfl
    | true => exact absurd (h.symm.trans (Character.not_isDigit_of_isNameStart hn)) Bool.noConfusion

/-- A number looks at one character more after a dot, so the second characters have to be alike
as well. -/
theorem numberExtent_alike (hhead : as.head? = bs.head?) (htail : StartsAlike as.tail bs.tail)
    (hl : numberExtent (own ++ as) ≤ own.length) :
    numberExtent (own ++ bs) = numberExtent (own ++ as) := by
  induction own with
  | nil =>
    cases as with
    | nil => rw [List.head?_eq_none_iff.1 hhead.symm]
    | cons a as =>
      obtain ⟨bs, rfl⟩ := List.head?_eq_some_iff.1 hhead.symm
      have hnext : as.head?.any Character.isDigit = bs.head?.any Character.isDigit :=
        htail.any_eq fun _ => startsNoName_of_isDigit
      rw [List.nil_append, numberExtent_cons, hnext] at hl
      rw [List.nil_append, List.nil_append, numberExtent_cons, numberExtent_cons, hnext]
      split at hl
      · exact absurd hl (Nat.not_succ_le_zero _)
      · rename_i hno
        rw [if_neg hno, if_neg hno]
  | cons c own ih =>
    have hnext : (own ++ as).head? = (own ++ bs).head? := by
      cases own with
      | nil => exact hhead
      | cons d own => rfl
    rw [List.cons_append, numberExtent_cons, hnext] at hl
    rw [List.cons_append, List.cons_append, numberExtent_cons, numberExtent_cons, hnext]
    split at hl
    · rename_i hyes
      rw [if_pos hyes, if_pos hyes, ih (Nat.le_of_succ_le_succ hl)]
    · rename_i hno
      rw [if_neg hno, if_neg hno]

theorem charContent_cons (c : Char) (cs : List Char) : charContent (c :: cs)
    = if c = '\n' then 0 else if c = '\\' ∧ cs ≠ [] then 2 else 1 := by
  by_cases hn : c = '\n'
  · subst hn
    cases cs <;> rfl
  by_cases hb : c = '\\'
  · subst hb
    cases cs <;> rfl
  · rw [charContent, if_neg hn, if_neg fun h => hb h.1]
    · exact fun h _ => hb h
    · exact fun _ _ h _ => hb h
    · exact hn

/-- A backslash takes one character more. -/
theorem charContent_alike (h : StartsAlike as bs) (hl : charContent (own ++ as) ≤ own.length) :
    charContent (own ++ bs) = charContent (own ++ as) := by
  cases own with
  | nil =>
    cases as with
    | nil => rw [h.nil.1 rfl]
    | cons a as =>
      rw [List.nil_append, charContent_cons] at hl
      split_ifs at hl with ha
      · subst ha
        obtain ⟨bs, rfl⟩ := List.head?_eq_some_iff.1 ((h.head '\n' (by decide)).1 rfl)
        rfl
      all_goals exact absurd hl (by simp)
  | cons c own =>
    have hnil : own ++ bs = [] ↔ own ++ as = [] := (h.append own).nil.symm
    rw [List.cons_append, List.cons_append, charContent_cons, charContent_cons]
    simp only [ne_eq, hnil]

theorem le_charExtent (cs : List Char) : charContent cs ≤ (charExtent cs).1 := by
  unfold charExtent
  dsimp only
  split
  · exact Nat.le_succ _
  split
  · show _ ≤ charContent cs + _ + 1
    omega
  · exact Nat.le_add_right _ _

/-- A character literal that ends inside of one's own characters ends there in front of
any text. -/
theorem charExtent_alike (h : StartsAlike as bs) (hl : (charExtent (own ++ as)).1 ≤ own.length) :
    charExtent (own ++ bs) = charExtent (own ++ as) := by
  have hle := Nat.le_trans (le_charExtent _) hl
  have hcontent := charContent_alike h hle
  have hlength := List.length_drop (i := charContent (own ++ as)) (l := own)
  unfold charExtent at hl ⊢
  dsimp only at hl ⊢
  rw [List.drop_append_of_le_length hle] at hl
  rw [hcontent, List.drop_append_of_le_length hle, List.drop_append_of_le_length hle]
  generalize own.drop (charContent (own ++ as)) = rest at hl hlength ⊢
  have hquote := h.head_eq (d := '\'') rest (by decide)
  by_cases hq : (rest ++ as).head? = some '\''
  · rw [if_pos hq, if_pos (hquote.mpr hq)]
  · rw [if_neg hq] at hl ⊢
    rw [if_neg (mt hquote.mp hq)]
    have hmore : ((rest ++ as).takeWhile fun c => c ≠ '\n' && c ≠ '\'').length ≤ rest.length := by
      split at hl
      · dsimp only at hl
        omega
      · dsimp only at hl
        omega
    have hsame : (rest ++ bs).takeWhile (fun c => c ≠ '\n' && c ≠ '\'')
        = (rest ++ as).takeWhile fun c => c ≠ '\n' && c ≠ '\'' := by
      refine takeWhile_alike (h.stops fun d hd => ?_) hmore
      obtain rfl | rfl : d = '\n' ∨ d = '\'' := by
        by_contra hn
        simp [not_or.1 hn] at hd
      · decide
      · decide
    rw [hsame, List.drop_append_of_le_length hmore, List.drop_append_of_le_length hmore]
    simp only [h.head_eq (d := '\'') (rest.drop _) (by decide)]

/-! ### Pieces in front of texts that start alike -/

/-- Texts that start alike unless the first starts with a name that has a prefix, and the
second with a name that has none. -/
structure Resembles (as bs : List Char) : Prop where
  start : StartsAlike as bs
  mark : bs.head? = some '@' ∨ as.head? = some '@' ∧ as.tail.head? = some '"' →
    as.head? = bs.head?
  next : as.head? = bs.head? → StartsAlike as.tail bs.tail

namespace Resembles

theorem append (h : Resembles as bs) (own : List Char) : Resembles (own ++ as) (own ++ bs) := by
  cases own with
  | nil => exact h
  | cons c own => exact ⟨h.start.append _, fun _ => rfl, fun _ => h.start.append own⟩

/-- A sign or a prefix in front of a quote. -/
theorem quoted (h : Resembles as bs) {d : Char} (hd : startsNoName d = true ∨ d = '@') :
    as.head? = some d ∧ as.tail.head? = some '"'
      ↔ bs.head? = some d ∧ bs.tail.head? = some '"' := by
  have hsame (ha : as.head? = some d ∧ as.tail.head? = some '"' ∨ bs.head? = some d) :
      as.head? = bs.head? := by
    rcases hd with hd | rfl
    · have hboth := h.start.head d hd
      have hhead : as.head? = some d := ha.elim And.left hboth.2
      rw [hhead, hboth.1 hhead]
    · exact h.mark ha.symm
  constructor
  · intro ha
    have heads := hsame (.inl ha)
    exact ⟨heads ▸ ha.1, ((h.next heads).head '"' (by decide)).1 ha.2⟩
  · intro hb
    have heads := hsame (.inr hb.1)
    exact ⟨heads ▸ hb.1, ((h.next heads).head '"' (by decide)).2 hb.2⟩

end Resembles

/-- Whether a name right after the piece would be taken as a part of it. -/
def Piece.takesName (p : Piece) : Bool :=
  match p.shape with
  | .token .identifier | .token .keyword | .token .number => true
  | .stray => p.text.head? == some '@'
  | _ => false

/-- A piece that starts with `c` and has its `own` characters stays the same if another text
follows it; what follows a piece that takes a name has to start alike. -/
def Cut.Stays (c : Char) (own as bs : List Char) (k' k : Cut) : Prop :=
  k.more = own.length →
    ((Piece.mk k.shape (c :: own) k.fault).takesName = true → as.head? = bs.head?) → k' = k

theorem Cut.Stays.ite {c : Char} {b b' : Prop} [Decidable b] [Decidable b'] {k k' l l' : Cut}
    (hb : b' ↔ b) (hk : b → Stays c own as bs k' k) (hl : ¬b → Stays c own as bs l' l) :
    Stays c own as bs (if b' then k' else l') (if b then k else l) := by
  by_cases h : b
  · rw [if_pos h, if_pos (hb.2 h)]
    exact hk h
  · rw [if_neg h, if_neg (mt hb.1 h)]
    exact hl h

theorem stringExtent_of_leading {cs : List Char} (h : leading '"' cs < 2) :
    leading '"' cs ≤ (stringExtent false 0 .text cs).length := by
  cases cs with
  | nil => exact Nat.zero_le _
  | cons c cs =>
    by_cases hc : c = '"'
    · subst hc
      exact Nat.le_of_lt_succ h
    · rw [leading_of_head? (by simpa using hc)]
      exact Nat.zero_le _

/-- **What starts with a quote** is cut alike in front of texts that start alike. -/
theorem cutQuote_alike (h : StartsAlike as bs) (hk : (cutQuote (own ++ as)).more = own.length) :
    cutQuote (own ++ bs) = cutQuote (own ++ as) := by
  have hquotes : leading '"' (own ++ as) ≤ own.length := by
    unfold cutQuote at hk
    dsimp only at hk
    split at hk
    · exact hk ▸ Nat.le_add_right _ _
    · rename_i hq
      have := stringExtent_of_leading (Nat.lt_of_not_ge hq)
      exact Nat.le_trans this (Nat.le_of_eq ((Nat.zero_add _).symm.trans hk))
  unfold cutQuote at hk ⊢
  dsimp only at hk ⊢
  rw [leading_alike h (by decide) hquotes]
  split at hk
  · rename_i hq
    have hlength := List.length_drop (i := leading '"' (own ++ as)) (l := own)
    rw [if_pos hq, if_pos hq, List.drop_append_of_le_length hquotes,
      List.drop_append_of_le_length hquotes, cutRaw, cutRaw,
      shortsighted_rawExtent (Nat.add_one_pos _) _ _ _ h]
    rw [List.drop_append_of_le_length hquotes] at hk
    have hk : leading '"' (own ++ as) + (rawExtent (leading '"' (own ++ as) + 1) _).length
      = own.length := hk
    omega
  · rename_i hq
    have hk : 0 + (stringExtent false 0 .text (own ++ as)).length = own.length := hk
    rw [if_neg hq, if_neg hq, shortsighted_stringExtent _ _ _ _ _ _ h (by omega)]

/-- What starts with an apostrophe is cut by its characters alone. -/
theorem cutApostrophe_alike (h : StartsAlike as bs)
    (hk : (cutApostrophe (own ++ as)).more = own.length) :
    cutApostrophe (own ++ bs) = cutApostrophe (own ++ as) := by
  have hlength : (charExtent (own ++ as)).1 ≤ own.length := by
    unfold cutApostrophe at hk
    split at hk
    all_goals
      rename_i hn
      rw [hn]
      exact Nat.le_of_eq hk
  rw [cutApostrophe, cutApostrophe, charExtent_alike h hlength]

theorem takeWhile_isWord_alike (hhead : as.head? = bs.head?)
    (hl : ((own ++ as).takeWhile Character.isWord).length ≤ own.length) :
    (own ++ bs).takeWhile Character.isWord = (own ++ as).takeWhile Character.isWord :=
  takeWhile_alike (fun ha => hhead ▸ ha) hl

/-- A name ends at a character that goes on with no name, the same in both texts. -/
theorem cutName_alike {c : Char} (hhead : as.head? = bs.head?)
    (hk : (cutName c (own ++ as)).more = own.length) :
    cutName c (own ++ bs) = cutName c (own ++ as) := by
  rw [cutName, cutName, takeWhile_isWord_alike hhead (Nat.le_of_eq hk)]

/-- What starts with the prefix, told by the two characters behind it. -/
theorem cutAt_eq (cs : List Char) : cutAt cs
    = if cs.head? = some '"' then literal .string 1 (verbatimExtent cs.tail) .unterminatedString
      else if cs.head? = some '$' ∧ cs.tail.head? = some '"' then
        literal .interpolated 2 (verbatimExtent cs.tail.tail) .unterminatedString
      else if cs.head?.any Character.isNameStart then
        ⟨.token .identifier, (cs.takeWhile Character.isWord).length, none⟩
      else ⟨.stray, 0, some (.unexpectedCharacter '@')⟩ := by
  fun_cases cutAt cs with
  | case1 => rfl
  | case2 => rfl
  | case3 c cs h1 h2 hn | case4 c cs h1 h2 hn =>
    have hq : c ≠ '"' := fun h => h1 h
    have hd : ¬(c = '$' ∧ cs.head? = some '"') := fun h => by
      obtain ⟨ds, hds⟩ := List.head?_eq_some_iff.1 h.2
      exact h2 ds h.1 hds
    simp [hq, hd, hn]
  | case5 => rfl

theorem head?_append_alike (hhead : as.head? = bs.head?) :
    (own ++ as).head? = (own ++ bs).head? := by
  cases own with
  | nil => exact hhead
  | cons c own => rfl

theorem exists_two_of_le_length {α : Type} {l : List α} (h : 2 ≤ l.length) :
    ∃ a b rest, l = a :: b :: rest := by
  obtain ⟨a, l, rfl⟩ := List.exists_cons_of_length_pos (Nat.lt_of_lt_of_le Nat.two_pos h)
  obtain ⟨b, l, rfl⟩ :=
    List.exists_cons_of_length_pos (l := l) (by rw [List.length_cons] at h; omega)
  exact ⟨a, b, l, rfl⟩

/-- **What starts with `@`** may start a string in one text only if it does in the other. -/
theorem stays_cutAt (h : Resembles as bs) :
    Cut.Stays '@' own as bs (cutAt (own ++ bs)) (cutAt (own ++ as)) := by
  have hown := h.append own
  rw [cutAt_eq, cutAt_eq]
  refine .ite (hown.start.head _ (by decide)).symm (fun _ hk _ => ?_) fun _ => ?_
  · have hk : 1 + (verbatimExtent (own ++ as).tail).length = own.length := hk
    obtain ⟨c, own, rfl⟩ := List.exists_cons_of_length_pos (l := own) (by omega)
    have hk : 1 + (verbatimExtent (own ++ as)).length = own.length + 1 := hk
    exact congrArg (literal .string 1 · _)
      (shortsighted_verbatimExtent own as bs h.start (by omega))
  refine .ite (hown.quoted (.inl (by decide))).symm (fun _ hk _ => ?_) fun _ hk hg => ?_
  · have hk : 2 + (verbatimExtent (own ++ as).tail.tail).length = own.length := hk
    obtain ⟨c, d, own, rfl⟩ := exists_two_of_le_length (l := own) (by omega)
    have hk : 2 + (verbatimExtent (own ++ as)).length = own.length + 2 := hk
    exact congrArg (literal .interpolated 2 · _)
      (shortsighted_verbatimExtent own as bs h.start (by omega))
  · have hhead : as.head? = bs.head? := hg (by split <;> rfl)
    rw [← head?_append_alike hhead]
    split at hk
    · rename_i hname
      rw [if_pos hname, if_pos hname, takeWhile_isWord_alike hhead (Nat.le_of_eq hk)]
    · rename_i hname
      rw [if_neg hname, if_neg hname]

/-- What starts with some dollars, given what comes after them. -/
def afterDollars (dollars : Nat) (after : List Char) : Cut :=
  if 3 ≤ leading '"' after then
    cutRaw true (dollars + leading '"' after) (leading '"' after) (after.drop (leading '"' after))
  else if after.head? = some '@' ∧ after.tail.head? = some '"' then
    literal .interpolated (dollars + 2) (verbatimExtent after.tail.tail) .unterminatedString
  else if after.head? = some '"' then
    literal .interpolated (dollars + 1) (stringExtent true 0 .text after.tail) .newlineInConstant
  else ⟨.stray, dollars, some (.unexpectedCharacter '$')⟩

/-- What starts with `$` is told by what stands behind all of them. -/
theorem cutDollar_eq (cs : List Char) :
    cutDollar cs = afterDollars (leading '$' cs) (cs.drop (leading '$' cs)) := by
  unfold cutDollar
  dsimp only
  generalize cs.drop (leading '$' cs) = after
  refine if_congr .rfl rfl ?_
  split
  · rfl
  · rfl
  · rename_i hat hquote
    rw [if_neg, if_neg]
    · intro h
      obtain ⟨ds, hds⟩ := List.head?_eq_some_iff.1 h
      exact hquote ds hds
    · intro h
      obtain ⟨ds, rfl⟩ := List.head?_eq_some_iff.1 h.1
      obtain ⟨es, hes⟩ := List.head?_eq_some_iff.1 h.2
      exact hat es (by rw [← hes]; rfl)

theorem le_afterDollars (dollars : Nat) (after : List Char) :
    dollars ≤ (afterDollars dollars after).more := by
  unfold afterDollars
  split_ifs
  · exact Nat.le_trans (Nat.le_add_right _ _) (Nat.le_add_right _ _)
  · exact Nat.le_trans (Nat.le_add_right _ _) (Nat.le_add_right _ _)
  · exact Nat.le_trans (Nat.le_add_right _ _) (Nat.le_add_right _ _)
  · exact Nat.le_refl _

/-- The quotes of a string that is not raw are a part of it. -/
theorem leading_quote_le (interpolated : Bool) {cs : List Char}
    (h : leading '"' ('"' :: cs) < 3) :
    leading '"' ('"' :: cs) ≤ 1 + (stringExtent interpolated 0 .text cs).length := by
  cases cs with
  | nil => exact Nat.le_refl 1
  | cons c cs =>
    by_cases hc : c = '"'
    · subst hc
      exact Nat.le_of_lt_succ h
    · have hnone : leading '"' (c :: cs) = 0 := leading_of_head? (by simpa using hc)
      have hone : leading '"' ('"' :: c :: cs) = leading '"' (c :: cs) + 1 := rfl
      rw [hone, hnone]
      exact Nat.le_add_right 1 _

/-- The quotes behind the `$` belong to the piece, whatever it is. -/
theorem leading_le_afterDollars (dollars : Nat) (after : List Char) :
    dollars + leading '"' after ≤ (afterDollars dollars after).more := by
  unfold afterDollars
  split_ifs with hraw hat hquote
  · exact Nat.le_add_right _ _
  · rw [leading_of_head? (by rw [hat.1]; decide)]
    exact Nat.le_trans (Nat.le_add_right _ _) (Nat.le_add_right _ _)
  · obtain ⟨cs, rfl⟩ := List.head?_eq_some_iff.1 hquote
    have hle := leading_quote_le true (Nat.lt_of_not_le hraw)
    show _ ≤ dollars + 1 + (stringExtent true 0 .text cs).length
    omega
  · rw [leading_of_head? hquote]
    exact Nat.le_refl _

theorem afterDollars_alike (h : Resembles as bs) {dollars : Nat}
    (hk : (afterDollars dollars (own ++ as)).more = dollars + own.length) :
    afterDollars dollars (own ++ bs) = afterDollars dollars (own ++ as) := by
  have hquotes : leading '"' (own ++ as) ≤ own.length := by
    have := leading_le_afterDollars dollars (own ++ as)
    omega
  have hown := h.append own
  have hat := hown.quoted (.inr rfl)
  have hquote := hown.start.head '"' (by decide)
  unfold afterDollars at hk ⊢
  rw [leading_alike h.start (by decide) hquotes]
  split_ifs at hk with hraw hverbatim hstring
  · have hlength := List.length_drop (i := leading '"' (own ++ as)) (l := own)
    rw [if_pos hraw, if_pos hraw, List.drop_append_of_le_length hquotes,
      List.drop_append_of_le_length hquotes, cutRaw, cutRaw,
      shortsighted_rawExtent (by omega) _ _ _ h.start]
    rw [List.drop_append_of_le_length hquotes] at hk
    have hk : dollars + leading '"' (own ++ as) + (rawExtent (leading '"' (own ++ as)) _).length
      = dollars + own.length := hk
    omega
  · rw [if_neg hraw, if_neg hraw, if_pos hverbatim, if_pos (hat.1 hverbatim)]
    have hk : dollars + 2 + (verbatimExtent (own ++ as).tail.tail).length
      = dollars + own.length := hk
    obtain ⟨c, d, own, rfl⟩ := exists_two_of_le_length (l := own) (by omega)
    have hk : dollars + 2 + (verbatimExtent (own ++ as)).length = dollars + (own.length + 2) := hk
    exact congrArg (literal .interpolated _ · _)
      (shortsighted_verbatimExtent own as bs h.start (by omega))
  · rw [if_neg hraw, if_neg hraw, if_neg hverbatim, if_neg (mt hat.2 hverbatim), if_pos hstring,
      if_pos (hquote.1 hstring)]
    have hk : dollars + 1 + (stringExtent true 0 .text (own ++ as).tail).length
      = dollars + own.length := hk
    obtain ⟨c, own, rfl⟩ := List.exists_cons_of_length_pos (l := own) (by omega)
    have hk : dollars + 1 + (stringExtent true 0 .text (own ++ as)).length
      = dollars + (own.length + 1) := hk
    exact congrArg (literal .interpolated _ · _)
      (shortsighted_stringExtent true 0 .text own as bs h.start (by omega))
  · rw [if_neg hraw, if_neg hraw, if_neg hverbatim, if_neg (mt hat.2 hverbatim), if_neg hstring,
      if_neg (mt hquote.2 hstring)]

/-- **What starts with `$`** is cut alike in front of texts that resemble each other. -/
theorem cutDollar_alike (h : Resembles as bs) (hk : (cutDollar (own ++ as)).more = own.length) :
    cutDollar (own ++ bs) = cutDollar (own ++ as) := by
  rw [cutDollar_eq] at hk
  have hdollars : leading '$' (own ++ as) ≤ own.length := hk ▸ le_afterDollars _ _
  have hlength := List.length_drop (i := leading '$' (own ++ as)) (l := own)
  rw [List.drop_append_of_le_length hdollars] at hk
  rw [cutDollar_eq, cutDollar_eq, leading_alike h.start (by decide) hdollars,
    List.drop_append_of_le_length hdollars, List.drop_append_of_le_length hdollars,
    afterDollars_alike h (by omega)]

/-- **A piece stays the same** in front of what resembles what follows it. -/
theorem stays_cut (h : Resembles as bs) (fresh : Bool) (c : Char) :
    Cut.Stays c own as bs (cut fresh c (own ++ bs)) (cut fresh c (own ++ as)) := by
  have same {k : Cut} : Cut.Stays c own as bs k k := fun _ _ => rfl
  have head {d : Char} (hd : startsNoName d = true) :
      (own ++ bs).head? = some d ↔ (own ++ as).head? = some d := iff_of_eq (h.start.head_eq own hd)
  refine .ite .rfl (fun _ => same) fun _ => ?_
  refine .ite .rfl (fun _ hk _ => ?_) fun _ => ?_
  · rw [lineExtent_alike h.start (Nat.le_of_eq hk)]
  refine .ite (and_congr_right' (head (by decide))) (fun _ hk _ => ?_) fun _ => ?_
  · rw [lineExtent_alike h.start (Nat.le_of_eq hk)]
  refine .ite (and_congr_right' (head (by decide))) (fun _ hk _ => ?_) fun _ => ?_
  · have hk : 1 + (commentExtent (own ++ as).tail).length = own.length := hk
    obtain ⟨d, own, rfl⟩ := List.exists_cons_of_length_pos (l := own) (by omega)
    have hk : 1 + (commentExtent (own ++ as)).length = own.length + 1 := hk
    have hsame := shortsighted_commentExtent own as bs h.start (by omega)
    rw [List.cons_append, List.cons_append, List.tail_cons, List.tail_cons, hsame]
  refine .ite .rfl (fun _ hk _ => cutQuote_alike h.start hk) fun _ => ?_
  refine .ite .rfl (fun hc => hc ▸ stays_cutAt h) fun _ => ?_
  refine .ite .rfl (fun _ hk _ => cutDollar_alike h hk) fun _ => ?_
  refine .ite .rfl (fun _ hk _ => cutApostrophe_alike h.start hk) fun _ => ?_
  have hdigit : (own ++ bs).head?.any Character.isDigit = (own ++ as).head?.any Character.isDigit :=
    ((h.start.append own).any_eq fun _ => startsNoName_of_isDigit).symm
  refine .ite (by rw [hdigit]) (fun _ hk hg => ?_) fun _ => ?_
  · have hhead : as.head? = bs.head? := hg rfl
    rw [numberExtent_alike hhead (h.next hhead) (Nat.le_of_eq hk)]
  refine .ite .rfl (fun _ hk hg => cutName_alike (hg ?_) hk) fun _ => ?_
  · unfold cutName
    dsimp only
    split
    · rfl
    · rfl
  refine .ite (or_congr (and_congr_right' (head (by decide))) (and_congr_right'
    (head (by decide)))) (fun _ => same) fun _ => ?_
  exact .ite .rfl (fun _ => same) fun _ => same

end Lexer
end Outline
