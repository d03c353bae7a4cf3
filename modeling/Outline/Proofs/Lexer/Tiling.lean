/-
# Tokens tile the text

Every character of a text is in one piece, and tokens are pieces of their own in the order
of the text.  So no character is lost: one that is in no token is in a piece that says why.

| piece without a token | what stands there |
| --- | --- |
| blank | white space |
| comment | `//` up to the end of the line, or `/*` up to the first `*/` or the end of the text |
| directive | `#` after nothing but white space on its line, up to the end of the line |
| stray | what is reported as unexpected |
-/

import Mathlib.Data.List.Pairwise
import Outline.Proofs.Lexer.Offsets
import Outline.Proofs.Lexer.Reading

namespace Outline
namespace Lexer

open Slice (slice?)

/-! ### The order of pieces -/

theorem le_start_of_mem_placed {offset : Nat} {ps : List Piece} {x : Piece × Span}
    (h : x ∈ placed offset ps) : offset ≤ x.2.start := by
  induction ps generalizing offset with
  | nil => cases h
  | cons p ps ih =>
    rw [placed] at h
    rcases List.mem_cons.1 h with rfl | h
    · exact Nat.le_refl _
    · exact Nat.le_trans (Nat.le_add_right _ _) (ih h)

/-- Pieces stand one after the other. -/
theorem pairwise_placed (offset : Nat) (ps : List Piece) :
    (placed offset ps).Pairwise fun x y => x.2.stop ≤ y.2.start := by
  induction ps generalizing offset with
  | nil => exact .nil
  | cons p ps ih => exact .cons (fun y hy => le_start_of_mem_placed hy) (ih _)

/-- One of two pieces ends before the other one starts. -/
def Apart (x y : Piece × Span) : Prop := x.2.stop ≤ y.2.start ∨ y.2.stop ≤ x.2.start

instance : Std.Symm Apart := ⟨fun _ _ h => h.symm⟩

/-- Of two pieces of a text one stands before the other. -/
theorem apart_of_ne {offset : Nat} {ps : List Piece} {x y : Piece × Span}
    (hx : x ∈ placed offset ps) (hy : y ∈ placed offset ps) (hne : x ≠ y) : Apart x y :=
  List.Pairwise.forall ((pairwise_placed offset ps).imp .inl) hx hy hne

theorem ne_nil_of_mem_pieces {fresh : Bool} {cs : List Char} {p : Piece}
    (h : p ∈ pieces fresh cs) : p.text ≠ [] := by
  fun_induction pieces fresh cs with
  | case1 => cases h
  | case2 fresh c cs k ih =>
    rcases List.mem_cons.1 h with rfl | h
    · exact List.cons_ne_nil _ _
    · exact ih h

/-- Pieces stand on some bytes. -/
theorem start_lt_stop {offset : Nat} {fresh : Bool} {cs : List Char} {x : Piece × Span}
    (h : x ∈ placed offset (pieces fresh cs)) : x.2.start < x.2.stop := by
  have each : ∀ ps : List Piece, (∀ p ∈ ps, p.text ≠ []) → ∀ offset, x ∈ placed offset ps →
      x.2.start < x.2.stop := by
    intro ps hps
    induction ps with
    | nil => exact fun _ h => absurd h List.not_mem_nil
    | cons p ps ih =>
      obtain ⟨hp, hps⟩ := List.forall_mem_cons.1 hps
      intro offset hx
      rw [placed] at hx
      rcases List.mem_cons.1 hx with rfl | hx
      · exact Nat.lt_add_of_pos_right (byteSize_pos hp)
      · exact ih hps _ hx
  exact each _ (fun p hp => ne_nil_of_mem_pieces hp) offset h

/-! ### Where lines and comments end -/

/-- The rest of a line has no line feed, and one follows if the text goes on. -/
theorem lineExtent_spec (cs : List Char) : '\n' ∉ cs.take (lineExtent cs) ∧
    Follows (· == '\n') (cs.drop (lineExtent cs)) := by
  induction cs with
  | nil => exact ⟨List.not_mem_nil, fun _ h => by cases h⟩
  | cons c cs ih =>
    unfold lineExtent at ih ⊢
    rw [List.takeWhile_cons]
    split
    · rename_i hc
      refine ⟨fun h => ?_, ih.2⟩
      rcases List.mem_cons.1 h with h | h
      · exact (of_decide_eq_true hc) h.symm
      · exact ih.1 h
    · rename_i hc
      refine ⟨List.not_mem_nil, follows_cons.2 ?_⟩
      simpa using hc

/-- The end of a block comment. -/
def commentEnd : List Char := ['*', '/']

/-- The rest of a block comment goes to the first end, or to the end of the text if there
is none. -/
theorem commentExtent_spec (cs : List Char) : ∃ inside, ¬ commentEnd <:+: inside ∧
    ((commentExtent cs).closed = true ∧
        cs.take (commentExtent cs).length = inside ++ commentEnd ∨
      (commentExtent cs).closed = false ∧ cs = inside ∧
        (commentExtent cs).length = cs.length) := by
  fun_induction commentExtent cs with
  | case1 => exact ⟨[], by decide, .inr ⟨rfl, rfl, rfl⟩⟩
  | case2 cs => exact ⟨[], by decide, .inl ⟨rfl, rfl⟩⟩
  | case3 c cs hne ih =>
    obtain ⟨inside, hin, hend⟩ := ih
    -- an end at `c` would have to be the one that is looked for first
    have hfirst : (∃ after, inside ++ after = cs ∨ inside ++ commentEnd ++ after = cs) →
        ¬ commentEnd <:+: c :: inside := by
      rintro ⟨after, hafter⟩ h
      rcases List.infix_cons_iff.1 h with h | h
      · obtain ⟨rest, hrest⟩ := h
        obtain ⟨rfl, rfl⟩ : '*' = c ∧ '/' :: rest = inside := by simpa [commentEnd] using hrest
        rcases hafter with rfl | rfl
        · exact hne _ rfl rfl
        · exact hne _ rfl rfl
      · exact hin h
    refine ⟨c :: inside, hfirst ?_, ?_⟩
    · rcases hend with ⟨-, htake⟩ | ⟨-, rfl, -⟩
      · exact ⟨cs.drop (commentExtent cs).length, .inr (by rw [← htake, List.take_append_drop])⟩
      · exact ⟨[], .inl (List.append_nil _)⟩
    · rcases hend with ⟨hc, htake⟩ | ⟨hc, rfl, hlen⟩
      · refine .inl ⟨hc, ?_⟩
        rw [Extent.grow_length, Nat.add_comm, List.take_succ_cons, htake]
        rfl
      · refine .inr ⟨hc, rfl, ?_⟩
        rw [Extent.grow_length, hlen, Nat.add_comm]
        rfl

/-! ### What a piece is -/

/-- What the next piece of a text can be, by the characters that it starts with. -/
inductive Cuts (fresh : Bool) (c : Char) (cs : List Char) : Cut → Prop
  | blank (hc : Character.isWhiteSpace c = true) : Cuts fresh c cs ⟨.blank, 0, none⟩
  | directive (hc : c = '#') (hf : fresh = true) :
      Cuts fresh c cs ⟨.directive, lineExtent cs, none⟩
  | lineComment (hc : c = '/') (hs : cs.head? = some '/') :
      Cuts fresh c cs ⟨.comment, lineExtent cs, none⟩
  | blockComment (hc : c = '/') (hs : cs.head? = some '*') (fault : Option Fault) :
      Cuts fresh c cs ⟨.comment, 1 + (commentExtent cs.tail).length, fault⟩
  | stray (more : Nat) (d : Char) : Cuts fresh c cs ⟨.stray, more, some (.unexpectedCharacter d)⟩
  | token (kind : LexemeKind) (more : Nat) (fault : Option Fault) :
      Cuts fresh c cs ⟨.token kind, more, fault⟩

theorem Cuts.ite {fresh : Bool} {c : Char} {cs : List Char} {b : Prop} [Decidable b] {k k' : Cut}
    (h : b → Cuts fresh c cs k) (h' : ¬b → Cuts fresh c cs k') :
    Cuts fresh c cs (if b then k else k') := by
  split
  · exact h ‹_›
  · exact h' ‹_›

/-- **What a piece can be.** -/
theorem cuts_cut (fresh : Bool) (c : Char) (cs : List Char) :
    Cuts fresh c cs (cut fresh c cs) := by
  have quote : Cuts fresh c cs (cutQuote cs) := by
    unfold cutQuote
    dsimp only
    split <;> exact .token _ _ _
  have atSign : Cuts fresh c cs (cutAt cs) := by
    fun_cases cutAt cs with
    | case1 | case2 | case3 => exact .token _ _ _
    | case4 | case5 => exact .stray _ _
  have dollar : Cuts fresh c cs (cutDollar cs) := by
    unfold cutDollar
    dsimp only
    split
    · exact .token _ _ _
    · split
      · exact .token _ _ _
      · exact .token _ _ _
      · exact .stray _ _
  have apostrophe : Cuts fresh c cs (cutApostrophe cs) := by
    unfold cutApostrophe
    split <;> exact .token _ _ _
  refine .ite .blank fun _ => ?_
  refine .ite (fun h => .directive h.1 h.2) fun _ => ?_
  refine .ite (fun h => .lineComment h.1 h.2) fun _ => ?_
  refine .ite (fun h => .blockComment h.1 h.2 _) fun _ => ?_
  refine .ite (fun _ => quote) fun _ => .ite (fun _ => atSign) fun _ => ?_
  refine .ite (fun _ => dollar) fun _ => .ite (fun _ => apostrophe) fun _ => ?_
  refine .ite (fun _ => .token _ _ _) fun _ => .ite (fun _ => .token _ _ _) fun _ => ?_
  exact .ite (fun _ => .token _ _ _) fun _ => .ite (fun _ => .token _ _ _) fun _ => .stray _ _

/-- A text that ends in a line that is blank so far. -/
def EndsBlank (before : List Char) : Prop :=
  ∃ lines blank, before = lines ++ blank ∧ (∀ c ∈ lines.getLast?, c = '\n') ∧
    ∀ c ∈ blank, Character.isWhiteSpace c = true

/-- A stretch of a text that no token is in, by what stands before and after it. -/
inductive Trivia (before : List Char) : List Char → List Char → Prop
  | blank {c : Char} {after : List Char} (hc : Character.isWhiteSpace c = true) :
      Trivia before [c] after
  | lineComment {inside after : List Char} (hi : '\n' ∉ inside)
      (ha : Follows (· == '\n') after) : Trivia before ('/' :: '/' :: inside) after
  | blockComment {inside after : List Char} (hi : ¬ commentEnd <:+: inside) :
      Trivia before ('/' :: '*' :: (inside ++ commentEnd)) after
  | openComment {inside : List Char} (hi : ¬ commentEnd <:+: inside) :
      Trivia before ('/' :: '*' :: inside) []
  | directive {inside after : List Char} (hb : EndsBlank before) (hi : '\n' ∉ inside)
      (ha : Follows (· == '\n') after) : Trivia before ('#' :: inside) after

/-- Why a piece stands where it does: it is a token, it is reported as unexpected, or
nothing is in it. -/
inductive Piece.Explained (before : List Char) : Piece → List Char → Prop
  | token {p : Piece} {after : List Char} (hp : p.lexeme? ≠ none) : Explained before p after
  | stray {p : Piece} {after : List Char} {d : Char}
      (hp : p.fault = some (.unexpectedCharacter d)) : Explained before p after
  | trivia {p : Piece} {after : List Char} (hp : p.lexeme? = none)
      (ht : Trivia before p.text after) : Explained before p after

/-- Where the lexer stands, if it takes the line for blank so far: the line is blank, or it
ends here after a directive. -/
def Standing (fresh : Bool) (before after : List Char) : Prop :=
  fresh = true → EndsBlank before ∨ Follows (· == '\n') after

variable {fresh : Bool} {before cs : List Char} {c : Char}

/-- A piece is explained where the lexer cuts it off. -/
theorem explained_cut (h : Standing fresh before (c :: cs)) :
    Piece.Explained before
      ⟨(cut fresh c cs).shape, c :: cs.take (cut fresh c cs).more, (cut fresh c cs).fault⟩
      (cs.drop (cut fresh c cs).more) := by
  obtain ⟨hline, hnext⟩ := lineExtent_spec cs
  have hk := cuts_cut fresh c cs
  generalize cut fresh c cs = k at hk
  cases hk with
  | blank hc => exact .trivia rfl (.blank hc)
  | directive hc hf =>
    obtain rfl := hc
    rcases h hf with hb | hb
    · exact .trivia rfl (.directive hb hline hnext)
    · exact absurd (follows_cons.1 hb) (by decide)
  | lineComment hc hs =>
    obtain rfl := hc
    obtain ⟨ds, rfl⟩ := List.head?_eq_some_iff.1 hs
    have hl : lineExtent ('/' :: ds) = lineExtent ds + 1 := by simp [lineExtent]
    rw [hl] at hline hnext
    rw [hl]
    exact .trivia rfl (.lineComment (fun hn => hline (List.mem_cons_of_mem _ hn)) hnext)
  | blockComment hc hs fault =>
    obtain rfl := hc
    obtain ⟨ds, rfl⟩ := List.head?_eq_some_iff.1 hs
    rw [List.tail_cons, Nat.add_comm, List.take_succ_cons, List.drop_succ_cons]
    obtain ⟨inside, hin, ⟨-, htake⟩ | ⟨-, rfl, hlen⟩⟩ := commentExtent_spec ds
    · rw [htake]
      exact .trivia rfl (.blockComment hin)
    · rw [hlen, List.take_length, List.drop_length]
      exact .trivia rfl (.openComment hin)
  | stray more d => exact .stray rfl
  | token kind more fault =>
    refine .token ?_
    cases kind <;> exact Option.some_ne_none _

/-- **Where the lexer stands next.**  A line is only taken for blank if it is, or if it ends
where the lexer stands. -/
theorem standing_next (h : Standing fresh before (c :: cs)) :
    Standing (freshAfter fresh c (cut fresh c cs).shape)
      (before ++ c :: cs.take (cut fresh c cs).more) (cs.drop (cut fresh c cs).more) := by
  have hk := cuts_cut fresh c cs
  generalize cut fresh c cs = k at hk
  cases hk with
  | blank hc =>
    intro hf
    rw [List.take_zero]
    by_cases hn : c = '\n'
    · subst hn
      refine .inl ⟨before ++ ['\n'], [], (List.append_nil _).symm, ?_, fun _ h => by cases h⟩
      intro d hd
      rw [List.getLast?_concat] at hd
      exact (Option.some.inj hd).symm
    · rw [freshAfter, Bool.or_eq_true, decide_eq_true_eq, or_iff_left hn] at hf
      rcases h hf with ⟨lines, blank, rfl, hl, hb⟩ | hb
      · refine .inl ⟨lines, blank ++ [c], by rw [List.append_assoc], hl, ?_⟩
        exact List.forall_mem_append.2 ⟨hb, List.forall_mem_singleton.2 hc⟩
      · exact absurd (follows_cons.1 hb) (by simpa using hn)
  | directive hc hf => exact fun _ => .inr (lineExtent_spec cs).2
  | lineComment | blockComment | stray | token => exact fun hf => by cases hf

/-! ### The piece at a character -/

/-- A piece stands at an offset between two texts, and is explained there. -/
structure StandsAt (ps : List (Piece × Span)) (before after : List Char) (p : Piece) : Prop where
  mem : (p, ⟨byteSize before, byteSize (before ++ p.text)⟩) ∈ ps
  explained : p.Explained before after

/-- **Every character is in one piece**, which is explained by where it stands. -/
theorem exists_piece_at {left right : List Char} {d : Char} (h : Standing fresh before cs)
    (hc : cs = left ++ d :: right) :
    ∃ p outer inner rest after, before ++ left = outer ++ inner ∧ p.text = inner ++ d :: rest ∧
      right = rest ++ after ∧
      StandsAt (placed (byteSize before) (pieces fresh cs)) outer after p := by
  fun_induction pieces fresh cs generalizing before left with
  | case1 => simp at hc
  | case2 fresh c cs k =>
    rename_i ih
    rw [placed]
    dsimp only
    rw [← byteSize_append]
    have hexplained := explained_cut h
    have hsplit : c :: cs = (c :: cs.take k.more) ++ cs.drop k.more := by
      rw [List.cons_append, List.take_append_drop]
    rw [hsplit] at hc
    rcases List.append_eq_append_iff.1 hc with ⟨x, hx, hdrop⟩ | ⟨x, hx, hdrop⟩
    · -- the character comes after this piece
      obtain ⟨p, outer, inner, rest, after, h1, h2, h3, h4⟩ := ih (standing_next h) hdrop
      refine ⟨p, outer, inner, rest, after, ?_, h2, h3, ?_⟩
      · rw [hx, ← List.append_assoc, h1]
      · exact ⟨List.mem_cons_of_mem _ h4.mem, h4.explained⟩
    · cases x with
      | nil =>
        rw [List.append_nil] at hx
        have hnext : cs.drop k.more = [] ++ d :: right := hdrop.symm
        obtain ⟨p, outer, inner, rest, after, h1, h2, h3, h4⟩ := ih (standing_next h) hnext
        refine ⟨p, outer, inner, rest, after, ?_, h2, h3, ?_⟩
        · rw [← hx, ← h1, List.append_nil]
        · exact ⟨List.mem_cons_of_mem _ h4.mem, h4.explained⟩
      | cons e x =>
        obtain ⟨rfl, hright⟩ := List.cons.inj hdrop
        exact ⟨_, before, left, x, cs.drop k.more, rfl, hx, hright, List.mem_cons_self, hexplained⟩

end Lexer

open Lexer
open Slice (OnBoundary slice? slice?_append)

/-! ### Tokens -/

/-- Whether an offset is one of a span. -/
def Span.Covers (span : Span) (offset : Nat) : Prop := span.start ≤ offset ∧ offset < span.stop

/-- What the parser has at a place of a text: the lexeme, if the text goes on, and where it
starts and stops. -/
def placeAt (text : String) (i : Nat) : Option Lexeme × Span :=
  let edge := edgeOffset ((tokens text).map (·.span)) text.utf8ByteSize
  ((lexemes text)[i]?, ⟨edge (.start i), edge (.stop i)⟩)

/-- The places of a text: one for each token, and one after them. -/
def places (text : String) : List (Option Lexeme × Span) :=
  (List.range ((tokens text).length + 1)).map (placeAt text)

/-- **The places end with the only one without a lexeme**, which is the end of the text. -/
theorem places_eq (text : String) :
    places text = (tokens text).map (fun t => (some t.lexeme, t.span))
      ++ [(none, ⟨text.utf8ByteSize, text.utf8ByteSize⟩)] := by
  have hlast : placeAt text (tokens text).length
      = (none, ⟨text.utf8ByteSize, text.utf8ByteSize⟩) := by
    simp [placeAt, edgeOffset, ← map_lexeme_tokens]
  rw [places, List.range_succ, List.map_append, List.map_singleton, hlast]
  congr 1
  refine List.ext_getElem (by simp) fun i hi _ => ?_
  have hlt : i < (tokens text).length := by simpa using hi
  simp [placeAt, edgeOffset, ← map_lexeme_tokens, hlt]

example : places "@a // é" = [(some (.name "a"), ⟨0, 2⟩), (none, ⟨8, 8⟩)] := by decide +kernel

/-- The text of a lexeme is that of its piece; a name has no `@` before it. -/
theorem lexeme?_eq {p : Piece} {l : Lexeme} (h : p.lexeme? = some l) :
    l.text = if l.kind = .identifier then Name.unescape (String.ofList p.text)
      else String.ofList p.text := by
  unfold Piece.lexeme? at h
  split at h
  · obtain rfl := Option.some.inj h
    rw [if_pos rfl, Name.unescape, String.toList_ofList]
    split <;> rfl
  · rename_i kind hkind _
    obtain rfl := Option.some.inj h
    exact (if_neg hkind).symm
  · cases h

/-! ### What tiles a text -/

/-- A stretch of a source without tokens, with `offset` inside of it. -/
def OutsideOfTokens (s : Source) (offset : Nat) : Prop :=
  ∃ before stretch after, s.text.toList = before ++ stretch ++ after ∧
    Trivia before stretch after ∧
    Span.Covers ⟨byteSize before, byteSize (before ++ stretch)⟩ offset ∧
    ∀ t ∈ tokens s.text,
      t.span.stop ≤ byteSize before ∨ byteSize (before ++ stretch) ≤ t.span.start

/-- An offset of a source at which a character is reported as unexpected. -/
def ReportedAsUnexpected (s : Source) (offset : Nat) : Prop :=
  ∃ d ∈ lexicalDiagnostics s, d.code = "CS1056" ∧
    ∃ l, d.location = some l ∧ Span.Covers ⟨l.offset, l.offset + l.length⟩ offset

/-- The tokens of a source tile its text. -/
structure Tiled (s : Source) : Prop where
  /-- The places end with the only one without a lexeme. -/
  ends : places s.text = (tokens s.text).map (fun t => (some t.lexeme, t.span))
    ++ [(none, ⟨s.text.utf8ByteSize, s.text.utf8ByteSize⟩)]
  /-- Tokens stand on some bytes of the text. -/
  spans : ∀ t ∈ tokens s.text, t.span.StandsIn s.text ∧ t.span.start < t.span.stop
  /-- Tokens stand one after the other. -/
  ordered : (tokens s.text).Pairwise fun t u => t.span.stop ≤ u.span.start
  /-- The text of a token is its slice; a name has no `@` before it. -/
  texts : ∀ t ∈ tokens s.text, ∃ slice, slice? s.text t.span.start t.span.stop = some slice ∧
    t.lexeme.text = if t.lexeme.kind = .identifier then Name.unescape slice else slice
  /-- A character that is in no token is reported or stands where nothing is. -/
  outside : ∀ before c after, s.text.toList = before ++ c :: after →
    (∀ t ∈ tokens s.text, ¬ t.span.Covers (byteSize before)) →
    ReportedAsUnexpected s (byteSize before) ∨ OutsideOfTokens s (byteSize before)
  /-- Faults are reported further and further on. -/
  faults : (lexicalDiagnostics s).Pairwise fun d e =>
    SyntaxTree.diagnosticOffset d < SyntaxTree.diagnosticOffset e
  /-- Faults are reported in the text. -/
  ranges : ∀ d ∈ lexicalDiagnostics s, ∃ l, d.location = some l ∧ l.StandsIn s

theorem pairwise_tokens (text : String) :
    (tokens text).Pairwise fun t u => t.span.stop ≤ u.span.start := by
  rw [tokens, tokensFrom_eq]
  refine List.Pairwise.filterMap token? (fun x y h t ht u hu => ?_) (pairwise_placed _ _)
  rwa [(token?_eq_some ht).2, (token?_eq_some hu).2] at h

theorem token_spec {text : String} {t : Token} (h : t ∈ tokens text) :
    t.span.start < t.span.stop ∧
      ∃ slice, slice? text t.span.start t.span.stop = some slice ∧
        t.lexeme.text = if t.lexeme.kind = .identifier then Name.unescape slice else slice := by
  refine ⟨?_, ?_⟩
  · obtain ⟨x, hx, ht⟩ := mem_tokens_iff.1 h
    rw [← (token?_eq_some ht).2]
    exact start_lt_stop hx
  · obtain ⟨p, hl, hs⟩ := exists_of_mem_tokens h
    exact ⟨String.ofList p.text, hs.slice?, lexeme?_eq hl⟩

theorem pairwise_lexicalDiagnostics (s : Source) : (lexicalDiagnostics s).Pairwise fun d e =>
    SyntaxTree.diagnosticOffset d < SyntaxTree.diagnosticOffset e := by
  rw [lexicalDiagnostics, List.pairwise_map, faultsFrom_eq]
  have hplaced : (placed 0 (pieces true s.text.toList)).Pairwise fun x y =>
      x.2.start < y.2.start := by
    refine (pairwise_placed _ _).imp_of_mem fun hx _ h => ?_
    exact Nat.lt_of_lt_of_le (start_lt_stop hx) h
  refine List.Pairwise.filterMap fault? (fun x y h f hf g hg => ?_) hplaced
  obtain ⟨_, -, rfl⟩ := Option.map_eq_some_iff.1 hf
  obtain ⟨_, -, rfl⟩ := Option.map_eq_some_iff.1 hg
  exact h

theorem mem_lexicalDiagnostics {s : Source} {x : Piece × Span} {f : Fault}
    (hx : x ∈ placed 0 (pieces true s.text.toList)) (hf : x.1.fault = some f) :
    f.diagnostic.at (s.location x.2.start (x.2.stop - x.2.start)) ∈ lexicalDiagnostics s := by
  rw [lexicalDiagnostics, faultsFrom_eq]
  refine List.mem_map.2 ⟨(f, x.2), List.mem_filterMap.2 ⟨x, hx, ?_⟩, rfl⟩
  rw [fault?, hf]
  rfl

/-- **No character is lost.** -/
theorem reported_or_outside {s : Source} {before after : List Char} {c : Char}
    (h : s.text.toList = before ++ c :: after)
    (hc : ∀ t ∈ tokens s.text, ¬ t.span.Covers (byteSize before)) :
    ReportedAsUnexpected s (byteSize before) ∨ OutsideOfTokens s (byteSize before) := by
  have hstart : Standing true [] s.text.toList := fun _ =>
    .inl ⟨[], [], rfl, (fun _ h => by cases h), fun _ h => by cases h⟩
  obtain ⟨p, outer, inner, rest, last, hbefore, hp, hafter, hstands⟩ := exists_piece_at hstart h
  rw [List.nil_append] at hbefore
  have hcovers : Span.Covers ⟨byteSize outer, byteSize (outer ++ p.text)⟩ (byteSize before) := by
    have := c.utf8Size_pos
    rw [Span.Covers, hbefore, hp]
    simp only [byteSize_append, byteSize_cons]
    omega
  obtain ⟨hmem, hexplained⟩ := hstands
  cases hexplained with
  | token hl =>
    obtain ⟨l, hl⟩ := Option.ne_none_iff_exists'.1 hl
    refine absurd hcovers (hc ⟨l, _⟩ (mem_tokens_iff.2 ⟨_, hmem, ?_⟩))
    rw [token?, hl]
    rfl
  | stray hf =>
    refine .inl ⟨_, mem_lexicalDiagnostics hmem hf, rfl, _, rfl, ?_⟩
    rwa [Source.location, Nat.add_sub_cancel' (Nat.le_of_lt (start_lt_stop hmem))]
  | trivia hl ht =>
    refine .inr ⟨outer, p.text, last, ?_, ht, hcovers, fun t ht => ?_⟩
    · rw [h, hbefore, hp, hafter]
      simp
    · obtain ⟨x, hx, hxt⟩ := mem_tokens_iff.1 ht
      obtain ⟨hlexeme, hspan⟩ := token?_eq_some hxt
      have hne : x ≠ (p, ⟨byteSize outer, byteSize (outer ++ p.text)⟩) := by
        rintro rfl
        rw [hl] at hlexeme
        cases hlexeme
      rw [← hspan]
      exact apart_of_ne hx hmem hne

/-- **Tokens tile the text.**  They stand one after the other on slices of it, up to its end,
and whatever is between them is white space, a comment, a directive or reported. -/
theorem tokens_tile (s : Source) : Tiled s where
  ends := places_eq s.text
  spans _ h := ⟨span_standsIn h, (token_spec h).1⟩
  ordered := pairwise_tokens s.text
  texts _ h := (token_spec h).2
  outside _ _ _ h hc := reported_or_outside h hc
  faults := pairwise_lexicalDiagnostics s
  ranges _ h := faults_standIn h

end Outline
