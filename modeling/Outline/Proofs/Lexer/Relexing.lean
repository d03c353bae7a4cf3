/-
# Tokens read by themselves

Where a token without fault ends is decided by its own characters: cut off from what
follows, it is the same token.  So the tokens of a text without faults can be written
again with any white space between them.

| token | its end is |
| --- | --- |
| string, verbatim string, raw string, character | in the token |
| word, number, sign | where its last character is |
-/

import Mathlib.Data.List.Basic
import Outline.Proofs.Lexer.Offsets
import Outline.Proofs.Lexer.Reading

namespace Outline
namespace Lexer

/-! ### Literals without what follows -/

theorem head?_take {n : Nat} (h : 0 < n) (cs : List Char) : (cs.take n).head? = cs.head? := by
  cases cs with
  | nil => rw [List.take_nil]
  | cons c cs =>
    obtain ⟨m, rfl⟩ := Nat.exists_eq_succ_of_ne_zero (Nat.pos_iff_ne_zero.1 h)
    rfl

theorem take_grow (n : Nat) (c : Char) (cs : List Char) :
    (c :: cs).take (1 + n) = c :: cs.take n := by
  rw [Nat.add_comm, List.take_succ_cons]

/-- A closed string has its closing quote at least. -/
theorem stringExtent_length_pos {interpolated : Bool} {holes : Nat} {mode : StringMode}
    {cs : List Char} (h : (stringExtent interpolated holes mode cs).closed = true) :
    0 < (stringExtent interpolated holes mode cs).length := by
  fun_cases stringExtent interpolated holes mode cs with
  | case1 => cases h
  | case4 | case8 => cases h
  | case11 => exact Nat.one_pos
  | _ => exact Nat.lt_add_right _ Nat.one_pos

/-- A closed string is the same without what follows it. -/
theorem stringExtent_take {interpolated : Bool} {holes : Nat} {mode : StringMode}
    {cs : List Char} (h : (stringExtent interpolated holes mode cs).closed = true) :
    stringExtent interpolated holes mode (cs.take (stringExtent interpolated holes mode cs).length)
      = stringExtent interpolated holes mode cs := by
  fun_induction stringExtent interpolated holes mode cs with
  | case1 => rfl
  | case2 holes c cs ih | case3 holes c cs ih =>
    rw [Extent.grow_length, take_grow, stringExtent, ih h]
  | case4 | case8 => cases h
  | case5 | case6 | case7 =>
    rename_i ih
    rw [Extent.grow_length, take_grow, stringExtent, ih h]
    simp [*]
  | case9 | case10 | case12 | case13 | case14 | case15 | case16 =>
    rename_i ih
    rw [Extent.grow_length, take_grow, stringExtent, head?_take (stringExtent_length_pos h), ih h]
    simp [*]
  | case11 =>
    rw [Extent.close_length, List.take_succ_cons, stringExtent]
    simp

theorem verbatimExtent_take {cs : List Char} (h : (verbatimExtent cs).closed = true) :
    verbatimExtent (cs.take (verbatimExtent cs).length) = verbatimExtent cs := by
  fun_induction verbatimExtent cs with
  | case1 => rfl
  | case2 cs ih =>
    rw [Extent.grow_length, Nat.add_comm, List.take_succ_cons, List.take_succ_cons, verbatimExtent,
      ih h]
  | case3 => rfl
  | case4 c cs h1 h2 ih =>
    have hc : c ≠ '"' := by
      rintro rfl
      exact h2 rfl
    rw [Extent.grow_length, take_grow, verbatimExtent, ih h]
    · exact fun ds hd => absurd hd hc
    · exact hc

/-- A closed raw string has its closing quotes at least. -/
theorem le_rawExtent_length {quotes : Nat} {cs : List Char}
    (h : (rawExtent quotes cs).closed = true) : quotes ≤ (rawExtent quotes cs).length := by
  fun_induction rawExtent quotes cs with
  | case1 => cases h
  | case2 => exact Nat.le_refl _
  | case3 c cs hq ih => exact Nat.le_trans (ih h) (Nat.le_add_left _ _)

/-- The quotes that close a raw string are its own last characters. -/
theorem rawExtent_take {quotes : Nat} (hpos : 0 < quotes) {cs : List Char}
    (h : (rawExtent quotes cs).closed = true) :
    rawExtent quotes (cs.take (rawExtent quotes cs).length) = rawExtent quotes cs := by
  fun_induction rawExtent quotes cs with
  | case1 => rfl
  | case2 c cs hq =>
    obtain ⟨n, rfl⟩ := Nat.exists_eq_succ_of_ne_zero (Nat.pos_iff_ne_zero.1 hpos)
    rw [Extent.close_length, List.take_succ_cons, rawExtent, if_pos]
    rw [← hq, List.take_succ_cons, List.take_succ_cons, List.take_take, Nat.min_self]
  | case3 c cs hq ih =>
    have hle := le_rawExtent_length h
    rw [Extent.grow_length, take_grow, rawExtent, if_neg, ih h]
    rwa [← take_grow, List.take_take, Nat.min_eq_left (by omega)]

theorem numberExtent_pos {c : Char} (h : Character.isWord c = true) (cs : List Char) :
    0 < numberExtent (c :: cs) := by
  cases cs with
  | nil => simp [numberExtent, h]
  | cons d ds => simp [numberExtent, h]

theorem numberExtent_pos_of_head? {cs : List Char} (h : cs.head?.any Character.isDigit = true) :
    0 < numberExtent cs := by
  cases cs with
  | nil => cases h
  | cons c cs => exact numberExtent_pos (Character.isWord_of_isDigit h) cs

/-- A number is the same without what follows it, as what ended it is no part of it. -/
theorem numberExtent_take (cs : List Char) :
    numberExtent (cs.take (numberExtent cs)) = numberExtent cs := by
  fun_induction numberExtent cs with
  | case1 => rfl
  | case2 c hc => rw [List.take_succ_cons, List.take_nil, numberExtent, if_pos hc]
  | case3 => rfl
  | case4 c d cs hc ih =>
    rw [List.take_succ_cons]
    cases hn : numberExtent (d :: cs) with
    | zero =>
      have hd : Character.isDigit d = false := by
        rw [Bool.eq_false_iff]
        intro hd
        have := numberExtent_pos (Character.isWord_of_isDigit hd) cs
        omega
      rw [hd, Bool.and_false, Bool.or_false] at hc
      rw [List.take_zero, numberExtent, if_pos hc]
    | succ n =>
      rw [hn, List.take_succ_cons] at ih
      rw [List.take_succ_cons, numberExtent, if_pos hc, ih]
  | case5 => rfl

/-- A closed character literal is the same without what follows it. -/
theorem charExtent_take {cs : List Char} {n : Nat} (h : charExtent cs = (n, .closed)) :
    charExtent (cs.take n) = (n, .closed) := by
  obtain ⟨hquote, rfl⟩ := charExtent_closed h
  have content : charContent (cs.take (charContent cs + 1)) = charContent cs := by
    fun_cases charContent cs with
    | case1 => rfl
    | case2 => rfl
    | case3 c cs => rfl
    | case4 => rfl
    | case5 c cs h1 h2 h3 =>
      have hc : c ≠ '\\' := fun hb => by
        cases cs with
        | nil => exact h1 hb rfl
        | cons d ds => exact h2 d ds hb rfl
      rw [List.take_succ_cons, charContent]
      · exact fun hb _ => hc hb
      · exact fun _ _ hb _ => hc hb
      · exact h3
  unfold charExtent
  dsimp only
  rw [content, List.drop_take, head?_take (by omega), if_pos hquote]

/-! ### Tokens without what follows -/

theorem takeWhile_take (p : Char → Bool) (cs : List Char) (n : Nat) :
    (cs.take n).takeWhile p = (cs.takeWhile p).take n := by
  induction cs generalizing n with
  | nil => simp
  | cons c cs ih =>
    cases n with
    | zero => simp
    | succ n =>
      rw [List.take_succ_cons, List.takeWhile_cons, List.takeWhile_cons, ih]
      split
      · rfl
      · exact List.take_nil.symm

theorem leading_take (c : Char) (cs : List Char) (n : Nat) :
    leading c (cs.take n) = min n (leading c cs) := by
  rw [leading, takeWhile_take, List.length_take]
  rfl

/-- A token without fault that takes `n` characters after its first. -/
def Cut.IsToken (n : Nat) (k : Cut) : Prop := ∃ kind, k = ⟨.token kind, n, none⟩

theorem Cut.IsToken.of_literal {kind : LexemeKind} {lead n : Nat} {e : Extent} {fault : Fault}
    (h : (literal kind lead e fault).IsToken n) : e.closed = true ∧ n = lead + e.length := by
  obtain ⟨_, h⟩ := h
  exact ⟨closed_of_literal (congrArg Cut.fault h), (congrArg Cut.more h).symm⟩

variable {n : Nat} {cs : List Char}

/-- A string is the same without what follows it, raw or not. -/
theorem cutQuote_take (h : (cutQuote cs).IsToken n) : cutQuote (cs.take n) = cutQuote cs := by
  unfold cutQuote at h ⊢
  dsimp only at h ⊢
  rw [leading_take]
  split at h
  · rename_i hq
    obtain ⟨hclosed, rfl⟩ := h.of_literal
    rw [Nat.min_eq_right (Nat.le_add_right _ _), if_pos hq, if_pos hq, List.drop_take,
      Nat.add_sub_cancel_left, cutRaw, rawExtent_take (Nat.succ_pos _) hclosed, cutRaw]
  · rename_i hq
    obtain ⟨hclosed, rfl⟩ := h.of_literal
    rw [if_neg (by omega), if_neg hq, Nat.zero_add, stringExtent_take hclosed]

/-- A verbatim string or a name with the prefix is the same without what follows it. -/
theorem cutAt_take (h : (cutAt cs).IsToken n) : cutAt (cs.take n) = cutAt cs := by
  fun_cases cutAt cs with
  | case1 cs =>
    obtain ⟨hclosed, rfl⟩ := h.of_literal
    rw [take_grow, cutAt, verbatimExtent_take hclosed]
  | case2 cs =>
    obtain ⟨hclosed, rfl⟩ := h.of_literal
    rw [Nat.add_comm, List.take_succ_cons, List.take_succ_cons, cutAt,
      verbatimExtent_take hclosed]
  | case3 c cs h1 h2 hn =>
    have hc : c ≠ '$' := by
      rintro rfl
      cases hn
    have hcut : ∀ ds, (c = '"' → False) → cutAt (c :: ds) =
        ⟨.token .identifier, ((c :: ds).takeWhile Character.isWord).length, none⟩ := by
      intro ds h1
      rw [cutAt, if_pos hn]
      · exact h1
      · exact fun _ hd _ => hc hd
    rw [hcut cs h1] at h
    obtain ⟨_, h⟩ := h
    have hlen := congrArg Cut.more h
    dsimp only at hlen
    rw [List.takeWhile_cons, if_pos (Character.isWord_of_isNameStart hn), List.length_cons] at hlen
    rw [← hlen, List.take_succ_cons, hcut _ h1, ← List.take_succ_cons, takeWhile_take,
      List.takeWhile_cons, if_pos (Character.isWord_of_isNameStart hn), List.take_succ_cons,
      List.take_length]
  | case4 c cs h1 h2 hn =>
    rw [cutAt, if_neg hn] at h
    · obtain ⟨_, h⟩ := h
      cases h
    · exact h1
    · exact h2
  | case5 =>
    obtain ⟨_, h⟩ := h
    cases h

/-- A string with holes is the same without what follows it; the signs before it are
counted again. -/
theorem cutDollar_take (h : (cutDollar cs).IsToken n) : cutDollar (cs.take n) = cutDollar cs := by
  unfold cutDollar at h ⊢
  dsimp only at h ⊢
  -- the dollars of the token are all there are
  have hle : leading '$' cs ≤ n := by
    split at h
    · rw [h.of_literal.2]
      omega
    · split at h
      · rw [h.of_literal.2]
        omega
      · rw [h.of_literal.2]
        omega
      · obtain ⟨_, h⟩ := h
        cases h
  obtain ⟨m, rfl⟩ := Nat.exists_eq_add_of_le hle
  rw [leading_take, Nat.min_eq_right hle, List.drop_take, Nat.add_sub_cancel_left]
  generalize cs.drop (leading '$' cs) = rest at h ⊢
  rw [leading_take]
  split at h
  · rename_i hq
    obtain ⟨hclosed, hm⟩ := h.of_literal
    obtain rfl : m = leading '"' rest + (rawExtent (leading '"' rest)
      (rest.drop (leading '"' rest))).length := by omega
    rw [Nat.min_eq_right (Nat.le_add_right _ _), if_pos hq, if_pos hq, List.drop_take,
      Nat.add_sub_cancel_left, cutRaw, rawExtent_take (by omega) hclosed, cutRaw]
  · rename_i hq
    rw [if_neg (by omega), if_neg hq]
    split at h
    · rename_i rest
      obtain ⟨hclosed, hm⟩ := h.of_literal
      obtain rfl : m = 2 + (verbatimExtent rest).length := by omega
      rw [Nat.add_comm, List.take_succ_cons, List.take_succ_cons]
      exact congrArg (literal .interpolated _ · _) (verbatimExtent_take hclosed)
    · rename_i rest
      obtain ⟨hclosed, hm⟩ := h.of_literal
      obtain rfl : m = 1 + (stringExtent true 0 .text rest).length := by omega
      rw [take_grow]
      exact congrArg (literal .interpolated _ · _) (stringExtent_take hclosed)
    · obtain ⟨_, h⟩ := h
      cases h

theorem cutApostrophe_take (h : (cutApostrophe cs).IsToken n) :
    cutApostrophe (cs.take n) = cutApostrophe cs := by
  unfold cutApostrophe at h ⊢
  split at h
  · rename_i m hm
    obtain ⟨_, h⟩ := h
    obtain rfl : m = n := congrArg Cut.more h
    rw [charExtent_take hm]
  · obtain ⟨_, h⟩ := h
    cases h
  · obtain ⟨_, h⟩ := h
    cases h

/-- A name or a reserved word is the same without what follows it. -/
theorem cutName_take {c : Char} (h : (cutName c cs).IsToken n) :
    cutName c (cs.take n) = cutName c cs := by
  obtain ⟨_, h⟩ := h
  obtain rfl : (cs.takeWhile Character.isWord).length = n := congrArg Cut.more h
  unfold cutName
  rw [takeWhile_take, List.take_length]

/-- Both ways of a choice stay the same, if the choice does. -/
theorem ite_take {b b' : Prop} [Decidable b] [Decidable b'] {k k' l l' : Cut} (hb : b' → b)
    (hk : b → k.IsToken n → b' ∧ k' = k) (hl : ¬b → l.IsToken n → l' = l)
    (h : (if b then k else l).IsToken n) :
    (if b' then k' else l') = if b then k else l := by
  by_cases hc : b
  · rw [if_pos hc] at h ⊢
    obtain ⟨hc', he⟩ := hk hc h
    rw [if_pos hc', he]
  · rw [if_neg hc] at h ⊢
    rw [if_neg (mt hb hc), hl hc h]

theorem not_isToken {k : Cut} (h : ∀ kind, k.shape ≠ .token kind) : ¬ k.IsToken n := by
  rintro ⟨kind, rfl⟩
  exact h kind rfl

theorem head?_of_head?_take {d : Char} (h : (cs.take n).head? = some d) : cs.head? = some d := by
  cases n with
  | zero => cases h
  | succ n => rwa [head?_take (Nat.succ_pos n)] at h

/-- A token without fault is the same without what follows it. -/
theorem cut_take {fresh : Bool} {c : Char} : (cut fresh c cs).IsToken n →
    cut fresh c (cs.take n) = cut fresh c cs := by
  have none : ∀ {k k' : Cut} {b' : Prop}, (∀ kind, k.shape ≠ .token kind) → k.IsToken n →
      b' ∧ k' = k := fun hk h => absurd h (not_isToken hk)
  refine ite_take id (fun _ => none (by simp)) fun _ => ?_
  refine ite_take id (fun _ => none (by simp)) fun _ => ?_
  refine ite_take (And.imp_right head?_of_head?_take) (fun _ => none (by simp)) fun _ => ?_
  refine ite_take (And.imp_right head?_of_head?_take) (fun _ => none (by simp)) fun _ => ?_
  refine ite_take id (fun hc h => ⟨hc, cutQuote_take h⟩) fun _ => ?_
  refine ite_take id (fun hc h => ⟨hc, cutAt_take h⟩) fun _ => ?_
  refine ite_take id (fun hc h => ⟨hc, cutDollar_take h⟩) fun _ => ?_
  refine ite_take id (fun hc h => ⟨hc, cutApostrophe_take h⟩) fun _ => ?_
  refine ite_take (Or.imp_right (And.imp_right fun h => ?_)) (fun hc h => ?_) fun _ => ?_
  · cases n with
    | zero => cases h
    | succ n => rwa [head?_take (Nat.succ_pos n)] at h
  · obtain ⟨_, h⟩ := h
    obtain rfl : numberExtent cs = n := congrArg Cut.more h
    refine ⟨hc.imp_right fun hdot => ⟨hdot.1, ?_⟩, by rw [numberExtent_take]⟩
    rw [head?_take (numberExtent_pos_of_head? hdot.2)]
    exact hdot.2
  refine ite_take id (fun hc h => ⟨hc, cutName_take h⟩) fun _ => ?_
  refine ite_take (Or.imp (And.imp_right head?_of_head?_take) (And.imp_right head?_of_head?_take))
    (fun hc h => ?_) fun _ => ?_
  · obtain ⟨_, h⟩ := h
    obtain rfl : 1 = n := congrArg Cut.more h
    rw [head?_take Nat.one_pos]
    exact ⟨hc, rfl⟩
  refine ite_take id (fun hc h => ⟨hc, rfl⟩) fun _ h => ?_
  exact absurd h (not_isToken (by simp))

/-- A token is no directive, so it is the same on a line that is not blank. -/
theorem cut_fresh {fresh : Bool} {c : Char} (h : (cut fresh c cs).IsToken n) (fresh' : Bool) :
    cut fresh' c cs = cut fresh c cs := by
  by_cases hc : c = '#'
  · subst hc
    cases fresh with
    | true => exact absurd h (not_isToken fun _ => Shape.noConfusion)
    | false => exact absurd h (not_isToken fun _ => Shape.noConfusion)
  · unfold cut
    simp only [hc, false_and, if_false]

/-- **A token without fault is the same wherever it stands**, if no piece goes on with what
follows it. -/
theorem cut_own {fresh : Bool} {c : Char} (h : (cut fresh c cs).IsToken n) (fresh' : Bool)
    {after : List Char} (ha : Separated after) :
    cut fresh' c (cs.take n ++ after) = cut fresh c cs := by
  have hown := (cut_take (cut_fresh h fresh' ▸ h)).trans (cut_fresh h fresh')
  obtain ⟨kind, hk⟩ := h
  rw [hk] at hown
  have := cut_append fresh' c (cs.take n) ha (by rw [hown]) (by simp [hown, Cut.takesLine])
  rw [this, hown, hk]

/-! ### Tokens with white space between them -/

/-- White space that keeps tokens apart. -/
structure IsGap (s : String) : Prop where
  nonempty : s ≠ ""
  blank : ∀ c ∈ s.toList, Character.isWhiteSpace c = true

/-- White space is read as nothing, wherever it stands. -/
theorem reads_blank {s : String} (h : ∀ c ∈ s.toList, Character.isWhiteSpace c = true) :
    Reads (fun _ => true) s [] := by
  intro fresh after _
  generalize s.toList = cs at h
  induction cs generalizing fresh with
  | nil => exact ⟨fresh, [], by simp [Faultless], rfl, rfl⟩
  | cons c cs ih =>
    obtain ⟨hc, hcs⟩ := List.forall_mem_cons.1 h
    have hcut : cut fresh c (cs ++ after) = ⟨.blank, 0, none⟩ := if_pos hc
    obtain ⟨fresh', ps, hps, hls, hp⟩ := ih (freshAfter fresh c .blank) hcs
    refine ⟨fresh', ⟨.blank, [c], none⟩ :: ps, List.forall_mem_cons.2 ⟨rfl, hps⟩, hls, ?_⟩
    rw [List.cons_append, pieces_cons, hcut, List.drop_zero, hp]
    rfl

/-- A gap stands in front of what no piece goes on with. -/
theorem IsGap.separated {s : String} (h : IsGap s) (after : List Char) :
    Separated (s.toList ++ after) := by
  cases hs : s.toList with
  | nil => exact absurd (String.toList_eq_nil_iff.1 hs) h.nonempty
  | cons c cs =>
    have hc := h.blank c (by rw [hs]; exact List.mem_cons_self)
    exact follows_cons.2 (Bool.or_eq_true_iff.2 (.inl hc))

/-- Texts with gaps between them. -/
def joined (gap : Nat → String) : List String → String
  | [] => ""
  | [s] => s
  | s :: t :: ss => s ++ gap 0 ++ joined (fun i => gap (i + 1)) (t :: ss)

/-- Texts that are each read as a lexeme are read one after the other with gaps between
them. -/
theorem reads_joined {gap : Nat → String} (hg : ∀ i, IsGap (gap i))
    {items : List (String × Lexeme)} (h : ∀ x ∈ items, Reads isSeparator x.1 [x.2]) :
    Reads isSeparator (joined gap (items.map (·.1))) (items.map (·.2)) := by
  induction items generalizing gap with
  | nil => exact .empty
  | cons x items ih =>
    obtain ⟨hx, hitems⟩ := List.forall_mem_cons.1 h
    cases items with
    | nil => exact hx
    | cons y items =>
      have hgap := hx.append (reads_blank (hg 0).blank) fun after _ => (hg 0).separated after
      have hrest := ih (fun i => hg (i + 1)) hitems
      exact hgap.onward hrest

/-- A piece that stands for a lexeme is read as it by itself. -/
theorem reads_piece {fresh : Bool} {cs : List Char} (h : Faultless (pieces fresh cs)) {p : Piece}
    (hp : p ∈ pieces fresh cs) {l : Lexeme} (hl : p.lexeme? = some l) :
    Reads isSeparator (String.ofList p.text) [l] := by
  fun_induction pieces fresh cs with
  | case1 => cases hp
  | case2 fresh c cs k ih =>
    rcases List.mem_cons.1 hp with rfl | hp
    · have hfault : k.fault = none := h _ List.mem_cons_self
      have hkind : k.shape = .token l.kind := Piece.shape_of_lexeme? hl
      have htoken : k.IsToken k.more := ⟨l.kind, by rw [← hkind, ← hfault]⟩
      have hcut : ∀ fresh' after, Follows isSeparator after →
          cut fresh' c (cs.take k.more ++ after) = k := fun fresh' after ha =>
        cut_own htoken fresh' ha
      have hr := Reads.of_cut String.toList_ofList hcut
        (by rw [List.length_take, Nat.min_eq_left (cut_more_le fresh c cs)]) hfault
      rw [hfault] at hl
      rwa [hl] at hr
    · exact ih (fun q hq => h q (List.mem_cons_of_mem _ hq)) hp

end Lexer

open Lexer
open Slice (slice?)

/-- The slices of a text that its tokens stand on. -/
def tokenSlices (text : String) : List String :=
  (tokens text).filterMap fun t => slice? text t.span.start t.span.stop

/-- The tokens of a text, each as its characters and its lexeme. -/
def spelledTokens (text : String) : List (String × Lexeme) :=
  (pieces true text.toList).filterMap fun p => p.lexeme?.map (String.ofList p.text, ·)

/-- Pieces are in the order of their places. -/
theorem map_fst_placed (offset : Nat) (ps : List Piece) : (placed offset ps).map (·.1) = ps := by
  induction ps generalizing offset with
  | nil => rfl
  | cons p ps ih => exact congrArg (p :: ·) (ih _)

/-- A token stands on its own characters. -/
theorem slice?_of_token? {text : String} {x : Piece × Span} {t : Token}
    (hx : x ∈ placed 0 (pieces true text.toList)) (ht : token? x = some t) :
    slice? text t.span.start t.span.stop = some (String.ofList x.1.text) := by
  rw [← (token?_eq_some ht).2]
  exact (standsOn_of_mem_pieces hx).2.slice?

/-- The slices are the texts of the pieces that stand for lexemes. -/
theorem tokenSlices_eq (text : String) : tokenSlices text = (spelledTokens text).map (·.1) := by
  rw [tokenSlices, tokens, tokensFrom_eq, List.filterMap_filterMap, spelledTokens,
    List.map_filterMap, ← map_fst_placed 0 (pieces true text.toList), List.filterMap_map,
    map_fst_placed]
  refine List.filterMap_congr fun x hx => ?_
  cases ht : token? x with
  | none =>
    rw [token?, Option.map_eq_none_iff] at ht
    simp [ht]
  | some t =>
    rw [Option.bind_some, slice?_of_token? hx ht, Function.comp, (token?_eq_some ht).1]
    rfl

theorem map_snd_spelledTokens (text : String) : (spelledTokens text).map (·.2) = lexemes text := by
  rw [spelledTokens, List.map_filterMap, lexemes]
  refine List.filterMap_congr fun p _ => ?_
  rw [Option.map_map]
  exact Option.map_id'

/-- **Reading again changes nothing.**  The tokens of a text without faults, written with
any white space between them, are read without faults as the same lexemes. -/
theorem lexemes_joined_slices (s : Source) (hs : lexicalDiagnostics s = []) (gap : Nat → String)
    (hg : ∀ i, IsGap (gap i)) (index : Nat) :
    let text := joined gap (tokenSlices s.text)
    lexicalDiagnostics ⟨text, index⟩ = [] ∧
      (tokens text).map (·.lexeme) = (tokens s.text).map (·.lexeme) := by
  rw [lexicalDiagnostics_eq_nil_iff] at hs
  dsimp only
  have hr : Reads isSeparator (joined gap ((spelledTokens s.text).map (·.1)))
      ((spelledTokens s.text).map (·.2)) := by
    refine reads_joined hg fun x hx => ?_
    obtain ⟨p, hp, hx⟩ := List.mem_filterMap.1 hx
    obtain ⟨l, hl, rfl⟩ := Option.map_eq_some_iff.1 hx
    exact reads_piece hs hp hl
  obtain ⟨hfaultless, hlexemes⟩ := hr.alone
  rw [tokenSlices_eq, map_lexeme_tokens, map_lexeme_tokens]
  exact ⟨lexicalDiagnostics_eq_nil_iff.2 hfaultless, hlexemes.trans (map_snd_spelledTokens _)⟩

theorem lexemes_joined_slices_tab :
    let text := joined (fun i => if i = 0 then "\u2003\n" else "\t") (tokenSlices "x=.5;//y")
    lexicalDiagnostics ⟨text, 0⟩ = [] ∧
      (tokens text).map (·.lexeme) = [.name "x", .mark "=", ⟨.number, ".5"⟩, .mark ";"] := by
  have hgap : ∀ i, IsGap (if i = 0 then "\u2003\n" else "\t") := by
    intro i
    split
    · exact ⟨by decide +kernel, List.all_eq_true.1 (by decide +kernel)⟩
    · exact ⟨by decide +kernel, List.all_eq_true.1 (by decide +kernel)⟩
  obtain ⟨hnone, hsame⟩ := lexemes_joined_slices ⟨"x=.5;//y", 0⟩ (by decide +kernel) _ hgap 0
  exact ⟨hnone, hsame.trans (by decide +kernel)⟩

end Outline
