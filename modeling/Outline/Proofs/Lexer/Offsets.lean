/-
# Where tokens stand

Tokens and faults stand between characters of the text, and the text of a lexeme is a
slice of it.  So does every token edge, and with them whatever is reported of a source.

| what | stands at |
| --- | --- |
| a token | a piece of the text, for some names without the `@` before them |
| a fault | a piece of the text |
| an edge | the start or the end of a token, or the end of the text |
-/

import Outline.Proofs.Lexer.Extent
import Outline.Proofs.Source.Slice
import Outline.SyntaxTree

namespace Outline

open Slice (OnBoundary slice? slice?_append onBoundary_iff onBoundary_size)

namespace Lexer

/-! ### Reading on -/

/-- **The lexer stands between characters.**  After each character of a piece, the rest
of the text can be read. -/
theorem slice?_take_piece {text : String} {before cs : List Char} {c : Char}
    (h : text.toList = before ++ c :: cs) (fresh : Bool) {k : Nat}
    (hk : k ≤ (cut fresh c cs).more + 1) :
    ((c :: cs).take k).length = k ∧
      slice? text (byteSize (before ++ (c :: cs).take k)) text.utf8ByteSize
        = some (String.ofList ((c :: cs).drop k)) := by
  have hm := cut_more_le fresh c cs
  refine ⟨?_, ?_⟩
  · rw [List.length_take, List.length_cons]
    omega
  · have hs := slice?_append (before ++ (c :: cs).take k) ((c :: cs).drop k) []
    rwa [List.append_nil, List.append_assoc, List.take_append_drop, ← h, String.ofList_toList,
      ← Slice.utf8ByteSize_ofList text.toList, String.ofList_toList] at hs

/-! ### Pieces -/

/-- A piece stands in a text on the bytes of a span. -/
def Piece.StandsOn (p : Piece) (text : List Char) (span : Span) : Prop :=
  ∃ before after, text = before ++ p.text ++ after ∧
    span = ⟨byteSize before, byteSize (before ++ p.text)⟩

/-- Pieces that start at a byte offset, each with the span that it stands on. -/
def placed (offset : Nat) : List Piece → List (Piece × Span)
  | [] => []
  | p :: ps =>
    let next := offset + byteSize p.text
    (p, ⟨offset, next⟩) :: placed next ps

/-- The token of a piece. -/
def token? (x : Piece × Span) : Option Token := x.1.lexeme?.map (⟨·, x.2⟩)

/-- The fault of a piece, with its span. -/
def fault? (x : Piece × Span) : Option (Fault × Span) := x.1.fault.map (·, x.2)

theorem tokensFrom_eq (offset : Nat) (ps : List Piece) :
    tokensFrom offset ps = (placed offset ps).filterMap token? := by
  induction ps generalizing offset with
  | nil => rfl
  | cons p ps ih =>
    rw [tokensFrom, placed, List.filterMap_cons, token?]
    cases p.lexeme? with
    | none => exact ih _
    | some l => exact congrArg (_ :: ·) (ih _)

theorem faultsFrom_eq (offset : Nat) (ps : List Piece) :
    faultsFrom offset ps = (placed offset ps).filterMap fault? := by
  induction ps generalizing offset with
  | nil => rfl
  | cons p ps ih =>
    rw [faultsFrom, placed, List.filterMap_cons, fault?]
    cases p.fault with
    | none => exact ih _
    | some f => exact congrArg (_ :: ·) (ih _)

theorem standsOn_of_mem_placed {before : List Char} {ps : List Piece} {x : Piece × Span}
    (h : x ∈ placed (byteSize before) ps) :
    x.1 ∈ ps ∧ x.1.StandsOn (before ++ ps.flatMap (·.text)) x.2 := by
  induction ps generalizing before with
  | nil => cases h
  | cons p ps ih =>
    rw [placed, ← byteSize_append] at h
    rw [List.flatMap_cons, ← List.append_assoc]
    rcases List.mem_cons.1 h with rfl | hx
    · exact ⟨List.mem_cons_self, before, _, rfl, rfl⟩
    · obtain ⟨hp, hs⟩ := ih hx
      exact ⟨List.mem_cons_of_mem p hp, hs⟩

/-- The pieces of a text stand in it. -/
theorem standsOn_of_mem_pieces {text : String} {x : Piece × Span}
    (h : x ∈ placed 0 (pieces true text.toList)) :
    x.1 ∈ pieces true text.toList ∧ x.1.StandsOn text.toList x.2 := by
  have hmem : x ∈ placed (byteSize []) (pieces true text.toList) := h
  have := standsOn_of_mem_placed hmem
  rwa [List.nil_append, flatMap_pieces] at this

/-- A lexeme is what its piece holds, for some names after the `@`. -/
theorem lexeme?_text {p : Piece} {l : Lexeme} (h : p.lexeme? = some l) :
    p.text = l.text.toList ∨ p.text = '@' :: l.text.toList := by
  unfold Piece.lexeme? at h
  split at h
  · obtain rfl := Option.some.inj h
    dsimp only
    rw [String.toList_ofList]
    split
    · rename_i ha
      right
      cases hp : p.text with
      | nil => simp [hp] at ha
      | cons c cs => simpa [hp] using ha
    · exact .inl rfl
  · obtain rfl := Option.some.inj h
    exact .inl (String.toList_ofList).symm
  · cases h

end Lexer

open Lexer

/-- A span of a text: its edges stand between characters, the first no further than the
last. -/
structure Span.StandsIn (span : Span) (text : String) : Prop where
  start : OnBoundary text span.start
  stop : OnBoundary text span.stop
  le : span.start ≤ span.stop

/-- The text of a piece is a slice of the text that it stands in. -/
theorem Lexer.Piece.StandsOn.slice? {p : Piece} {text : String} {span : Span}
    (h : p.StandsOn text.toList span) :
    slice? text span.start span.stop = some (String.ofList p.text) := by
  obtain ⟨before, after, htext, rfl⟩ := h
  rw [← slice?_append before p.text after, ← htext, String.ofList_toList]

theorem Lexer.Piece.StandsOn.standsIn {p : Piece} {text : List Char} {span : Span}
    (h : p.StandsOn text span) : span.StandsIn (String.ofList text) := by
  rcases h with ⟨before, after, rfl, rfl⟩
  refine ⟨onBoundary_iff.2 ⟨before, p.text ++ after, by rw [List.append_assoc], rfl⟩,
    onBoundary_iff.2 ⟨before ++ p.text, after, rfl, rfl⟩, ?_⟩
  rw [byteSize_append]
  exact Nat.le_add_right _ _

theorem mem_tokens_iff {text : String} {t : Token} :
    t ∈ tokens text ↔ ∃ x ∈ placed 0 (pieces true text.toList), token? x = some t := by
  rw [tokens, tokensFrom_eq, List.mem_filterMap]

theorem token?_eq_some {x : Piece × Span} {t : Token} (h : token? x = some t) :
    x.1.lexeme? = some t.lexeme ∧ x.2 = t.span := by
  obtain ⟨l, hl, rfl⟩ := Option.map_eq_some_iff.1 h
  exact ⟨hl, rfl⟩

theorem exists_of_mem_tokens {text : String} {t : Token} (h : t ∈ tokens text) :
    ∃ p : Piece, p.lexeme? = some t.lexeme ∧ p.StandsOn text.toList t.span := by
  obtain ⟨x, hx, ht⟩ := mem_tokens_iff.1 h
  obtain ⟨hl, hspan⟩ := token?_eq_some ht
  exact ⟨x.1, hl, hspan ▸ (standsOn_of_mem_pieces hx).2⟩

theorem span_standsIn {text : String} {t : Token} (h : t ∈ tokens text) :
    t.span.StandsIn text := by
  rcases exists_of_mem_tokens h with ⟨p, -, hs⟩
  have := hs.standsIn
  rwa [String.ofList_toList] at this

/-- **The text of a token is a slice of the source**, for some names from just after
their `@`. -/
theorem slice?_token {text : String} {t : Token} (h : t ∈ tokens text) :
    slice? text t.span.start t.span.stop = some t.lexeme.text ∨
      slice? text t.span.start (t.span.start + 1) = some "@" ∧
        slice? text (t.span.start + 1) t.span.stop = some t.lexeme.text := by
  rcases exists_of_mem_tokens h with ⟨p, hl, before, after, htext, hspan⟩
  obtain rfl : text = String.ofList (before ++ p.text ++ after) := by
    rw [← htext, String.ofList_toList]
  rw [hspan]
  dsimp only
  rcases lexeme?_text hl with hp | hp
  · left
    rw [slice?_append, hp, String.ofList_toList]
  · right
    have hat := slice?_append before ['@'] (t.lexeme.text.toList ++ after)
    have hs := slice?_append (before ++ ['@']) t.lexeme.text.toList after
    have hone : byteSize (before ++ ['@']) = byteSize before + 1 := by
      rw [byteSize_append]
      rfl
    rw [hone, String.ofList_toList] at hs
    rw [hone] at hat
    have hjoin : before ++ ['@'] ++ (t.lexeme.text.toList ++ after)
        = before ++ p.text ++ after := by
      rw [hp]
      simp
    have hjoin' : before ++ ['@'] ++ t.lexeme.text.toList = before ++ p.text := by
      rw [hp]
      simp
    rw [hjoin] at hat
    rw [hjoin'] at hs
    exact ⟨hat, hs⟩

/-! ### Edges and diagnostics -/

/-- Every edge stands between characters. -/
theorem onBoundary_edgeOffset (text : String) (e : Parser.Edge) :
    OnBoundary text (edgeOffset ((tokens text).map (·.span)) text.utf8ByteSize e) := by
  have inner : ∀ (i : Nat) (f : Span → Nat), (∀ t ∈ tokens text, OnBoundary text (f t.span)) →
      OnBoundary text (((((tokens text).map (·.span))[i]?).map f).getD text.utf8ByteSize) := by
    intro i f hf
    rw [List.getElem?_map]
    cases ht : (tokens text)[i]? with
    | none => exact onBoundary_size text
    | some t => exact hf t (List.mem_of_getElem? ht)
  cases e with
  | start i => exact inner i (·.start) fun t ht => (span_standsIn ht).start
  | stop i => exact inner i (·.stop) fun t ht => (span_standsIn ht).stop

/-- A mark at tokens does not end before it starts. -/
theorem edgeOffset_le {text : String} {m : Parser.Mark}
    (h : (∃ i, m = .whole i) ∨ ∃ e, m = .point e) :
    edgeOffset ((tokens text).map (·.span)) text.utf8ByteSize m.first
      ≤ edgeOffset ((tokens text).map (·.span)) text.utf8ByteSize m.last := by
  rcases h with ⟨i, rfl⟩ | ⟨e, rfl⟩
  · show ((((tokens text).map (·.span))[i]?).map (·.start)).getD _
      ≤ ((((tokens text).map (·.span))[i]?).map (·.stop)).getD _
    rw [List.getElem?_map]
    cases ht : (tokens text)[i]? with
    | none => exact Nat.le_refl _
    | some t => exact (span_standsIn (List.mem_of_getElem? ht)).le
  · exact Nat.le_refl _

/-- A location of a source whose edges stand between characters and whose position can
be computed. -/
structure Location.StandsIn (l : Location) (s : Source) : Prop where
  source : l.source = s.index
  start : OnBoundary s.text l.offset
  stop : OnBoundary s.text (l.offset + l.length)
  position : Slice.lineCol? s.text l.offset = some ⟨l.line, l.column⟩

theorem Span.StandsIn.location {span : Span} {s : Source} (h : span.StandsIn s.text) :
    (s.location span.start (span.stop - span.start)).StandsIn s where
  source := rfl
  start := h.start
  stop := by
    show OnBoundary s.text (span.start + (span.stop - span.start))
    rw [Nat.add_sub_cancel' h.le]
    exact h.stop
  position := Slice.lineCol?_eq h.start

theorem faults_standIn {s : Source} {d : Diagnostic} (h : d ∈ lexicalDiagnostics s) :
    ∃ l, d.location = some l ∧ l.StandsIn s := by
  rw [lexicalDiagnostics, faultsFrom_eq] at h
  obtain ⟨⟨f, span⟩, hf, rfl⟩ := List.mem_map.1 h
  obtain ⟨x, hx, hfault⟩ := List.mem_filterMap.1 hf
  obtain ⟨_, -, hspan⟩ := Option.map_eq_some_iff.1 hfault
  have hin := (standsOn_of_mem_pieces hx).2.standsIn
  rw [String.ofList_toList, (Prod.mk.inj hspan).2] at hin
  exact ⟨_, rfl, hin.location⟩

end Outline
