/-
# Literals of one line

A character literal, and a string that is neither verbatim nor raw, ends on its line: with its
closing quote, or in front of the line feed, and then it is reported.  One thing takes a line feed
along: a backslash right before it, in a character literal or in a string that is nested in a
literal.  Outside of nested strings a backslash takes no line feed.

| text, with `⏎` for a line feed | its first token |
| --- | --- |
| `"a⏎b"` | `"a`, reported |
| `"a\⏎b"` | `"a\`, reported |
| `$"{"a⏎b"}"` | `$"{"a`, reported |
| `$"{"a\⏎b"}"` | all of it |
| `'\⏎'` | all of it |
-/

import Outline.Proofs.Lexer.Lines
import Outline.Proofs.Lexer.Relexing

namespace Outline
namespace Lexer

variable {c : Char} {cs : List Char}

/-! ### Pieces -/

/-- A string goes over lines if it is verbatim, with an `@` before its first quote, or raw, with
three quotes at its start. -/
def GoesOverLines (text : List Char) : Prop :=
  '@' ∈ text.takeWhile (· ≠ '"') ∨ 3 ≤ leading '"' (text.dropWhile (· ≠ '"'))

instance (text : List Char) : Decidable (GoesOverLines text) :=
  inferInstanceAs (Decidable ('@' ∈ text.takeWhile (· ≠ '"') ∨
    3 ≤ leading '"' (text.dropWhile (· ≠ '"'))))

theorem goesOverLines_verbatim (dollars : Nat) (cs : List Char) :
    GoesOverLines (List.replicate dollars '$' ++ '@' :: cs) := by
  refine .inl ?_
  rw [List.takeWhile_append_of_pos fun d hd => by rw [List.eq_of_mem_replicate hd]; decide]
  exact List.mem_append_right _ List.mem_cons_self

theorem goesOverLines_raw (dollars : Nat) {cs : List Char} (h : 3 ≤ leading '"' cs) :
    GoesOverLines (List.replicate dollars '$' ++ cs) := by
  refine .inr ?_
  rw [List.dropWhile_append_of_pos fun d hd => by rw [List.eq_of_mem_replicate hd]; decide]
  cases cs with
  | nil => cases h
  | cons c cs =>
    have hc : c = '"' := by
      by_contra hne
      have hnone : leading '"' (c :: cs) = 0 := leading_of_head? fun h => hne (Option.some.inj h)
      omega
    subst hc
    exact h

/-- A literal of one line, and what comes after it. -/
structure Piece.KeepsLine (p : Piece) (after : List Char) : Prop where
  character : p.shape = .token .char → ∃ text ending, p.text = '\'' :: text ∧
    CharacterLine text ending after ∧ (p.fault = some .newlineInConstant ↔ ending = .cut)
  string : ∀ interpolated, p.shape = .token (stringKind interpolated) → ¬GoesOverLines p.text →
    ∃ dollars text closed, p.text = List.replicate dollars '$' ++ '"' :: text ∧
      TakesLine interpolated text closed after ∧
      (p.fault = some .newlineInConstant ↔ closed = false)

/-- The same of a piece that is cut off. -/
def Cut.KeepsLine (c : Char) (cs : List Char) (k : Cut) : Prop :=
  (Piece.mk k.shape (c :: cs.take k.more) k.fault).KeepsLine (cs.drop k.more)

namespace Cut.KeepsLine

variable {k k' : Cut}

theorem ite {b : Prop} [Decidable b] (h : b → k.KeepsLine c cs) (h' : ¬b → k'.KeepsLine c cs) :
    (if b then k else k').KeepsLine c cs := by
  split
  · exact h ‹_›
  · exact h' ‹_›

theorem of_ne (hchar : k.shape ≠ .token .char)
    (hstring : ∀ interpolated, k.shape ≠ .token (stringKind interpolated)) : k.KeepsLine c cs :=
  ⟨fun h => absurd h hchar, fun interpolated h => absurd h (hstring interpolated)⟩

/-- A string that goes over lines does not have to stay on one. -/
theorem of_goesOverLines (hchar : k.shape ≠ .token .char)
    (h : GoesOverLines (c :: cs.take k.more)) : k.KeepsLine c cs :=
  ⟨fun h => absurd h hchar, fun _ _ hnot => absurd h hnot⟩

end Cut.KeepsLine

/-- What is taken of a text goes on after its front. -/
theorem take_front {front rest : List Char} {n k : Nat} (h : c :: cs = front ++ rest)
    (hn : n + 1 = front.length + k) :
    c :: cs.take n = front ++ rest.take k ∧ cs.drop n = rest.drop k := by
  rw [← List.take_succ_cons, ← List.drop_succ_cons, h, hn, List.take_length_add_append,
    List.drop_length_add_append]
  exact ⟨rfl, rfl⟩

/-- A string that is neither verbatim nor raw, after some dollars. -/
theorem keepsLine_literal (interpolated : Bool) (dollars : Nat) {rest : List Char}
    (h : c :: cs = List.replicate dollars '$' ++ '"' :: rest) :
    (literal (stringKind interpolated) dollars (stringExtent interpolated 0 .text rest)
      .newlineInConstant).KeepsLine c cs := by
  have htakes := (reading interpolated rest).text 0 fun _ => rfl
  generalize stringExtent interpolated 0 .text rest = e at htakes
  have hlength : dollars + e.length + 1
      = (List.replicate dollars '$').length + (e.length + 1) := by
    rw [List.length_replicate, Nat.add_assoc]
  obtain ⟨htake, hdrop⟩ := take_front h hlength
  refine ⟨fun hchar => ?_, fun other hother _ => ?_⟩
  · cases interpolated <;> cases hchar
  · have hsame : other = interpolated := by
      cases interpolated <;> cases other <;> first | rfl | cases hother
    subst hsame
    refine ⟨dollars, rest.take e.length, e.closed, htake, ?_, ?_⟩
    · show TakesLine other _ _ (cs.drop (dollars + e.length))
      rw [hdrop]
      exact htakes
    · show (if e.closed then none else some Fault.newlineInConstant) = _ ↔ _
      cases e.closed with
      | true => exact iff_of_false (fun h => by cases h) fun h => by cases h
      | false => exact iff_of_true rfl rfl

/-- A raw string, after some dollars. -/
theorem keepsLine_raw (interpolated : Bool) (dollars : Nat) {lead quotes : Nat}
    {rest ds : List Char} (h : c :: cs = List.replicate dollars '$' ++ rest)
    (hthree : 3 ≤ leading '"' rest) (hlead : lead + 1 = dollars + leading '"' rest) :
    (cutRaw interpolated lead quotes ds).KeepsLine c cs := by
  refine .of_goesOverLines (by cases interpolated <;> exact fun h => by cases h) ?_
  have hlength : lead + (rawExtent quotes ds).length + 1 = (List.replicate dollars '$').length
      + (leading '"' rest + (rawExtent quotes ds).length) := by
    rw [List.length_replicate]
    omega
  have htake := (take_front h hlength).1
  show GoesOverLines (c :: cs.take (lead + (rawExtent quotes ds).length))
  rw [htake]
  refine goesOverLines_raw dollars ?_
  rw [leading_take]
  omega

theorem keepsLine_cutQuote (cs : List Char) : (cutQuote cs).KeepsLine '"' cs := by
  have hone : leading '"' ('"' :: cs) = leading '"' cs + 1 := rfl
  unfold cutQuote
  refine .ite (fun htwo => ?_) fun _ => ?_
  · have hself : '"' :: cs = List.replicate 0 '$' ++ '"' :: cs := rfl
    exact keepsLine_raw false 0 hself (by omega) (by omega)
  · exact keepsLine_literal false 0 rfl

theorem keepsLine_cutAt (cs : List Char) : (cutAt cs).KeepsLine '@' cs := by
  have hverbatim {k : Cut} (hchar : k.shape ≠ .token .char) : k.KeepsLine '@' cs :=
    .of_goesOverLines hchar (goesOverLines_verbatim 0 (cs.take k.more))
  rw [cutAt_eq]
  refine .ite (fun _ => hverbatim fun h => by cases h) fun _ => ?_
  refine .ite (fun _ => hverbatim fun h => by cases h) fun _ => ?_
  refine .ite (fun _ => hverbatim fun h => by cases h) fun _ => ?_
  exact hverbatim fun h => by cases h

theorem exists_leading (c : Char) (cs : List Char) :
    ∃ n rest, cs = List.replicate n c ++ rest ∧ rest.head? ≠ some c := by
  induction cs with
  | nil => exact ⟨0, [], rfl, fun h => by cases h⟩
  | cons d ds ih =>
    by_cases hd : d = c
    · obtain ⟨n, rest, rfl, hrest⟩ := ih
      exact ⟨n + 1, rest, by rw [hd]; rfl, hrest⟩
    · exact ⟨0, d :: ds, rfl, fun h => hd (Option.some.inj h)⟩

theorem keepsLine_cutDollar (cs : List Char) : (cutDollar cs).KeepsLine '$' cs := by
  obtain ⟨dollars, rest, rfl, hrest⟩ := exists_leading '$' cs
  have hall : '$' :: (List.replicate dollars '$' ++ rest)
      = List.replicate (dollars + 1) '$' ++ rest := rfl
  rw [cutDollar_eq, drop_leading_replicate dollars hrest, leading_replicate dollars hrest]
  unfold afterDollars
  refine .ite (fun hthree => keepsLine_raw true (dollars + 1) hall hthree (by omega)) fun _ => ?_
  refine .ite (fun hat => ?_) fun _ => ?_
  · obtain ⟨ds, rfl⟩ := List.head?_eq_some_iff.1 hat.1
    refine .of_goesOverLines (fun h => by cases h) ?_
    rw [literal]
    generalize (verbatimExtent _).length = n
    have hlength : dollars + 2 + n + 1
        = (List.replicate (dollars + 1) '$').length + (n + 1 + 1) := by
      rw [List.length_replicate]
      omega
    rw [(take_front hall hlength).1, List.take_succ_cons]
    exact goesOverLines_verbatim (dollars + 1) _
  refine .ite (fun hquote => ?_) fun _ => ?_
  · obtain ⟨ds, rfl⟩ := List.head?_eq_some_iff.1 hquote
    exact keepsLine_literal true (dollars + 1) hall
  · exact .of_ne (fun h => by cases h) fun interpolated h => by cases interpolated <;> cases h

theorem keepsLine_character {n : Nat} {ending : CharEnd} {fault : Option Fault}
    (h : charExtent cs = (n, ending))
    (hfault : fault = some .newlineInConstant ↔ ending = .cut) :
    (Cut.mk (.token .char) n fault).KeepsLine '\'' cs := by
  have hline := characterLine cs
  rw [h] at hline
  refine ⟨fun _ => ⟨_, _, rfl, hline, hfault⟩, fun interpolated hshape => ?_⟩
  cases interpolated <;> cases hshape

theorem keepsLine_cutApostrophe (cs : List Char) : (cutApostrophe cs).KeepsLine '\'' cs := by
  unfold cutApostrophe
  split
  · exact keepsLine_character ‹_› (iff_of_false (fun h => by cases h) fun h => by cases h)
  · exact keepsLine_character ‹_› (iff_of_false (fun h => by cases h) fun h => by cases h)
  · exact keepsLine_character ‹_› (iff_of_true rfl rfl)

/-- **What is cut off as a literal of one line** is on one. -/
theorem keepsLine_cut (fresh : Bool) (c : Char) (cs : List Char) :
    (cut fresh c cs).KeepsLine c cs := by
  have none {k : Cut} (h : ∀ kind, k.shape ≠ .token kind) : k.KeepsLine c cs :=
    .of_ne (h _) fun _ => h _
  have token {k : Cut} {kind : LexemeKind} (hk : k.shape = .token kind) (hchar : kind ≠ .char)
      (hstring : ∀ interpolated, kind ≠ stringKind interpolated) : k.KeepsLine c cs := by
    refine .of_ne (fun h => hchar ?_) fun interpolated h => hstring interpolated ?_
    · exact Shape.token.inj (hk.symm.trans h)
    · exact Shape.token.inj (hk.symm.trans h)
  have number : ∀ interpolated, LexemeKind.number ≠ stringKind interpolated := by decide
  have punct : ∀ interpolated, LexemeKind.punct ≠ stringKind interpolated := by decide
  have name : (cutName c cs).KeepsLine c cs := by
    refine token rfl ?_ ?_ <;> split <;> decide
  refine .ite (fun _ => none fun _ h => by cases h) fun _ => ?_
  refine .ite (fun _ => none fun _ h => by cases h) fun _ => ?_
  refine .ite (fun _ => none fun _ h => by cases h) fun _ => ?_
  refine .ite (fun _ => none fun _ h => by cases h) fun _ => ?_
  refine .ite (fun h => h ▸ keepsLine_cutQuote cs) fun _ => ?_
  refine .ite (fun h => h ▸ keepsLine_cutAt cs) fun _ => ?_
  refine .ite (fun h => h ▸ keepsLine_cutDollar cs) fun _ => ?_
  refine .ite (fun h => h ▸ keepsLine_cutApostrophe cs) fun _ => ?_
  refine .ite (fun _ => token rfl (by decide) number) fun _ => .ite (fun _ => name) fun _ => ?_
  refine .ite (fun _ => token rfl (by decide) punct) fun _ => ?_
  exact .ite (fun _ => token rfl (by decide) punct) fun _ => none fun _ h => by cases h

/-- A piece is cut off where it stands. -/
theorem exists_cut_of_mem_placed {offset : Nat} {fresh : Bool} {cs : List Char} {x : Piece × Span}
    (h : x ∈ placed offset (pieces fresh cs)) : ∃ fresh' before c rest, cs = before ++ c :: rest ∧
      x.1 = ⟨(cut fresh' c rest).shape, c :: rest.take (cut fresh' c rest).more,
        (cut fresh' c rest).fault⟩ ∧
      x.2 = ⟨offset + byteSize before, offset + byteSize before + byteSize x.1.text⟩ := by
  fun_induction pieces fresh cs generalizing offset with
  | case1 => cases h
  | case2 fresh c cs k =>
    rename_i ih
    rw [placed] at h
    rcases List.mem_cons.1 h with rfl | h
    · exact ⟨fresh, [], c, cs, rfl, rfl, rfl⟩
    · obtain ⟨fresh', before, d, rest, hcs, hpiece, hspan⟩ := ih h
      refine ⟨fresh', c :: cs.take k.more ++ before, d, rest, ?_, hpiece, ?_⟩
      · rw [List.append_assoc, ← hcs, List.cons_append, List.take_append_drop]
      · rw [hspan, byteSize_append, Nat.add_assoc offset]

end Lexer

open Lexer

/-! ### Tokens -/

/-- A literal of one line: a character, or a string that does not go over lines. -/
def Lexeme.IsOneLine (l : Lexeme) : Prop :=
  l.kind = .char ∨ (l.kind = .string ∨ l.kind = .interpolated) ∧ ¬GoesOverLines l.text.toList

instance (l : Lexeme) : Decidable l.IsOneLine :=
  inferInstanceAs (Decidable (l.kind = .char ∨
    (l.kind = .string ∨ l.kind = .interpolated) ∧ ¬GoesOverLines l.text.toList))

/-- A token that ends with its line is reported. -/
structure Token.CutAtLine (t : Token) (s : Source) : Prop where
  reported : ∃ d ∈ lexicalDiagnostics s, d.code = "CS1010" ∧
    d.location = some (s.location t.span.start (t.span.stop - t.span.start))
  stops : ∃ before after, s.text.toList = before ++ after ∧ byteSize before = t.span.stop ∧
    EndsLineAt after

/-- How a character literal keeps to its line: with a closing quote or cut off, and without a line
feed but right after its first backslash. -/
structure Token.CharacterKept (t : Token) (s : Source) : Prop where
  newline : '\n' ∈ t.lexeme.text.toList → ∃ more,
    t.lexeme.text.toList = '\'' :: '\\' :: '\n' :: more ∧ '\n' ∉ more
  ends : (∃ inside, t.lexeme.text.toList = '\'' :: (inside ++ ['\''])) ∨ t.CutAtLine s

/-- How a string keeps to its line: with its end or cut off, and without a line feed but in the
strings that are nested in it.  There are none of these without holes. -/
structure Token.StringKept (t : Token) (s : Source) (dollars : Nat) (l : LineContent) : Prop where
  shape : t.lexeme.text.toList = List.replicate dollars '$' ++ '"' :: l.chars
  plain : t.lexeme.kind = .string → l.strings = []
  newline : '\n' ∈ t.lexeme.text.toList ↔ ∃ items ∈ l.strings, NestedItem.lineBreak ∈ items
  ends : l.ending = .closed ∨ t.CutAtLine s

/-- A token that is no name is a piece, which is on one line if it has to. -/
theorem exists_piece_of_mem_tokens {s : Source} {t : Token} (h : t ∈ tokens s.text)
    (hkind : t.lexeme.kind ≠ .identifier) : ∃ (p : Piece) (after : List Char),
      p.shape = .token t.lexeme.kind ∧ p.text = t.lexeme.text.toList ∧ p.KeepsLine after ∧
        (p.fault = some .newlineInConstant → EndsLineAt after → t.CutAtLine s) := by
  obtain ⟨x, hx, ht⟩ := mem_tokens_iff.1 h
  obtain ⟨hlexeme, hspan⟩ := token?_eq_some ht
  obtain ⟨fresh, before, c, rest, hsplit, hpiece, hplace⟩ := exists_cut_of_mem_placed hx
  have htext : x.1.text = t.lexeme.text.toList := by
    rw [lexeme?_eq hlexeme, if_neg hkind, String.toList_ofList]
  refine ⟨x.1, rest.drop (cut fresh c rest).more, Piece.shape_of_lexeme? hlexeme, htext, ?_,
    fun hfault hends => ⟨?_, ?_⟩⟩
  · rw [hpiece]
    exact keepsLine_cut fresh c rest
  · refine ⟨_, mem_lexicalDiagnostics hx hfault, rfl, ?_⟩
    rw [hspan]
    rfl
  · refine ⟨before ++ x.1.text, _, ?_, ?_, hends⟩
    · rw [hsplit, hpiece, List.append_assoc, List.cons_append, List.take_append_drop]
    · rw [← hspan, hplace, byteSize_append, Nat.zero_add]

/-- **Literals of one line stay on it, but for a line feed after a backslash.**  In every source, a
character literal ends with a quote or is cut off in front of the line feed and reported, and so is
a string that is neither verbatim nor raw.  A plain string has no line feed.  A character literal
has one only right after a backslash at its start, and a string with holes only right after a
backslash in a string that is nested in it. -/
theorem oneLine_kept (s : Source) (t : Token) (h : t ∈ tokens s.text)
    (hline : t.lexeme.IsOneLine) : (t.lexeme.kind = .char → t.CharacterKept s) ∧
      (t.lexeme.kind ≠ .char → ∃ dollars l, t.StringKept s dollars l) := by
  have hkind : t.lexeme.kind ≠ .identifier := by
    rcases hline with h | ⟨h | h, -⟩ <;> rw [h] <;> decide
  obtain ⟨p, after, hshape, htext, hkeeps, hcut⟩ := exists_piece_of_mem_tokens h hkind
  constructor
  · intro hchar
    rw [hchar] at hshape
    obtain ⟨text, ending, hp, hcharacter, hfault⟩ := hkeeps.character hshape
    rw [htext] at hp
    refine ⟨fun hnewline => ?_, ?_⟩
    · rw [hp] at hnewline ⊢
      rcases List.mem_cons.1 hnewline with hquote | hnewline
      · exact absurd hquote (by decide)
      · obtain ⟨more, rfl, hmore⟩ := hcharacter.newline hnewline
        exact ⟨more, rfl, hmore⟩
    · by_cases hend : ending = .cut
      · exact .inr (hcut (hfault.2 hend) (hcharacter.cut hend))
      · obtain ⟨inside, rfl⟩ := hcharacter.closed hend
        exact .inl ⟨inside, hp⟩
  · intro hchar
    obtain ⟨hkinds, hlines⟩ := hline.resolve_left hchar
    obtain ⟨interpolated, hinterpolated⟩ : ∃ i, t.lexeme.kind = stringKind i := by
      rcases hkinds with h | h
      · exact ⟨false, h⟩
      · exact ⟨true, h⟩
    rw [hinterpolated] at hshape
    rw [← htext] at hlines
    obtain ⟨dollars, _, closed, hp, ⟨l, rfl, hclosed, hends, hplain⟩, hfault⟩ :=
      hkeeps.string interpolated hshape hlines
    rw [htext] at hp
    refine ⟨dollars, l, hp, fun hstring => hplain ?_, ?_, ?_⟩
    · rw [hinterpolated] at hstring
      cases interpolated with
      | false => rfl
      | true => cases hstring
    · rw [hp, ← l.newline_mem_iff]
      simp
    · cases closed with
      | true => exact .inl (hclosed.1 rfl)
      | false => exact .inr (hcut (hfault.2 rfl) (hends rfl))

/-- A string in a hole that is not closed on its line: the literal ends there. -/
theorem oneLine_kept_hole :
    let s : Source := ⟨"$\"\x7b\"a\nb\"\x7d\"", 0⟩
    let t : Token := ⟨⟨.interpolated, "$\"\x7b\"a"⟩, ⟨0, 5⟩⟩
    t ∈ tokens s.text ∧ t.lexeme.IsOneLine ∧ t.lexeme.kind ≠ .char ∧
      ∃ dollars l, t.StringKept s dollars l := by
  intro s t
  have ht : t ∈ tokens s.text := by decide +kernel
  exact ⟨ht, by decide, by decide, (oneLine_kept s t ht (by decide)).2 (by decide)⟩

/-- After a backslash, a line feed is taken along in a character literal and in a string in a hole,
and nothing is reported. -/
theorem not_on_one_line :
    let character : Lexeme := ⟨.char, "'\\\n'"⟩
    let string : Lexeme := ⟨.interpolated, "$\"\x7b\"\\\n\"\x7d\""⟩
    (lexemes character.text = [character] ∧ character.IsOneLine ∧
        '\n' ∈ character.text.toList ∧ lexicalDiagnostics ⟨character.text, 0⟩ = []) ∧
      lexemes string.text = [string] ∧ string.IsOneLine ∧ '\n' ∈ string.text.toList ∧
        lexicalDiagnostics ⟨string.text, 0⟩ = [] := by
  decide +kernel

end Outline
