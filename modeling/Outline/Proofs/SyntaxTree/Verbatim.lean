/-
# Names with a prefix

The lexer drops the prefix of a name, so the parser reads `@a` as it reads `a`.  A name that
is no contextual word is nothing but a name: if it stands with its prefix only, it can be
written as any other name that stands nowhere, and the source is parsed alike
(`parse_respelled`).  A contextual word acts as one in spite of its prefix.

| source | read as |
| --- | --- |
| `@class A { }` | a name where a type has to stand |
| `@partial class A { }` | a part of a class |
| `@record A;` | a record |

What is reported stands between the same pieces of both sources, so it is sorted alike
although the offsets differ.
-/

import Outline.Proofs.Lexer.Respelling
import Outline.Proofs.Renaming.Files
import Outline.Proofs.SyntaxTree.Versions

namespace Outline

open Outline.Language (Version)
open Outline.Lexer (Piece pieces placed token? fault? SetOff)
open Outline.Parser (Renaming contextualWords mentions parseFile)

/-! ### Renamed lexemes -/

/-- The lexeme, or another name if it is this one. -/
def Lexeme.renamed (w z : String) (l : Lexeme) : Lexeme := if l.isWord w then .name z else l

/-- In a text a name stands with its prefix only, another name nowhere, and none of them in a
hole of a string. -/
structure Replaceable (w z text : String) : Prop where
  name : Name.isIdentifier w = true
  plain : Name.IsPlain z
  prefixed : ∀ p ∈ pieces true text.toList, p.lexeme? = some (.name w) → p.text = '@' :: w.toList
  absent : ∀ l ∈ lexemes text, l.isWord z = false
  holes : ∀ l ∈ lexemes text, l.kind = .interpolated →
    mentions l.text w = false ∧ mentions l.text z = false

namespace Lexeme

variable {w z : String} {l : Lexeme}

theorem renamed_of_isWord (h : l.isWord w = true) : l.renamed w z = .name z := if_pos h

theorem renamed_of_not_isWord (h : l.isWord w = false) : l.renamed w z = l :=
  if_neg (by rw [h]; exact Bool.false_ne_true)

theorem kind_renamed (w z : String) (l : Lexeme) : (l.renamed w z).kind = l.kind := by
  cases h : l.isWord w with
  | false => rw [renamed_of_not_isWord h]
  | true =>
    rw [renamed_of_isWord h]
    rw [isWord, Bool.and_eq_true, beq_iff_eq] at h
    exact h.1.symm

theorem renamed_of_not_isName (h : l.isName = false) : l.renamed w z = l :=
  renamed_of_not_isWord (by rw [isWord, ← isName, h, Bool.false_and])

theorem isWord_of_isName (h : l.isName = true) (w : String) : l.isWord w = (l.text == w) := by
  rw [isWord, ← isName, h, Bool.true_and]

/-- The text of a name. -/
theorem text_renamed (h : l.isName = true) (w z : String) :
    (l.renamed w z).text = if l.text = w then z else l.text := by
  by_cases hw : l.text = w
  · rw [if_pos hw, renamed_of_isWord (by rw [isWord_of_isName h, hw, beq_self_eq_true])]
    rfl
  · rw [if_neg hw, renamed_of_not_isWord (by rw [isWord_of_isName h, beq_eq_false_iff_ne.2 hw])]

end Lexeme

theorem ne_empty_of_isIdentifier {s : String} (h : Name.isIdentifier s = true) : s ≠ "" := by
  rintro rfl
  cases h

namespace Replaceable

variable {w z text : String}

/-- A name of the text is not the other one. -/
theorem text_ne (h : Replaceable w z text) {l : Lexeme} (hl : l ∈ Lexeme.mark "." :: lexemes text)
    (hn : l.isName = true) : l.text ≠ z := by
  rcases List.mem_cons.1 hl with rfl | hl
  · cases hn
  · have := h.absent l hl
    rwa [Lexeme.isWord_of_isName hn, beq_eq_false_iff_ne] at this

/-- The renaming of a name that is no contextual word to another one. -/
def replacement (h : Replaceable w z text) (hw : w ∉ contextualWords) (hz : z ∉ contextualWords) :
    Renaming where
  before := 0
  Same l m := l ∈ Lexeme.mark "." :: lexemes text ∧ m = l.renamed w z
  kind {l m} hl := by rw [hl.2, Lexeme.kind_renamed]
  text {l m} hl hn := by rw [hl.2, Lexeme.renamed_of_not_isName hn]
  unique {l m l' m'} hl hn hl' hn' := by
    have hne := h.text_ne hl.1 hn
    have hne' := h.text_ne hl'.1 hn'
    rw [hl.2, hl'.2, Lexeme.text_renamed hn, Lexeme.text_renamed hn']
    split_ifs with hlw hlw' hlw'
    · simp [hlw, hlw']
    · exact ⟨fun he => absurd (he.symm.trans hlw) hlw', fun he => absurd he.symm hne'⟩
    · exact ⟨fun he => absurd (he.trans hlw') hlw, fun he => absurd he hne⟩
    · exact .rfl
  words {l m} hl hn x hx := by
    have hsame : ∀ s : String, Name.isIdentifier s = true → s ∉ contextualWords → s ≠ x := by
      rintro s hs hc rfl
      rcases List.mem_cons.1 hx with rfl | hx
      · exact ne_empty_of_isIdentifier hs rfl
      · exact hc hx
    rw [hl.2, Lexeme.text_renamed hn]
    split_ifs with hlw
    · rw [hlw]
      exact iff_of_false (hsame w h.name hw) (hsame z h.plain.1 hz)
    · exact .rfl
  mentions {l m l' m'} hl hk hl' hn' := by
    have hmem : l ∈ lexemes text := by
      rcases List.mem_cons.1 hl.1 with rfl | hmem
      · cases hk
      · exact hmem
    have hn : l.isName = false := by
      rw [Lexeme.isName, hk]
      rfl
    obtain ⟨hmw, hmz⟩ := h.holes l hmem hk
    rw [hl.2, hl'.2, Lexeme.renamed_of_not_isName hn, Lexeme.text_renamed hn']
    split_ifs with hlw
    · rw [hlw, hmw, hmz]
    · rfl
  dot := ⟨List.mem_cons_self, rfl⟩

end Replaceable

/-! ### Places between the same pieces -/

section

variable (f : Piece → Piece) (ps : List Piece)

/-- Byte offsets in front of the same piece, of pieces and of what a function makes of them. -/
def Facing (o o' : Nat) : Prop := ∃ before, before <+: ps ∧
  o = byteSize (before.flatMap (·.text)) ∧ o' = byteSize ((before.map f).flatMap (·.text))

/-- Spans between the same pieces. -/
structure FacingSpans (s s' : Span) : Prop where
  start : Facing f ps s.start s'.start
  stop : Facing f ps s.stop s'.stop

/-- A piece in its place, and what the function makes of it in the place that faces it. -/
structure FacingPieces (x y : Piece × Span) : Prop where
  mem : x.1 ∈ ps
  piece : y.1 = f x.1
  span : FacingSpans f ps x.2 y.2

variable {f ps}

/-- More pieces take more bytes. -/
theorem byteSize_le_iff (hne : ∀ p ∈ ps, p.text ≠ []) {as bs : List Piece} (ha : as <+: ps)
    (hb : bs <+: ps) : byteSize (as.flatMap (·.text)) ≤ byteSize (bs.flatMap (·.text))
      ↔ as.length ≤ bs.length := by
  rcases List.prefix_or_prefix_of_prefix ha hb with ⟨cs, rfl⟩ | ⟨cs, rfl⟩
  · rw [List.flatMap_append, byteSize_append, List.length_append]
    exact iff_of_true (Nat.le_add_right _ _) (Nat.le_add_right _ _)
  · rw [List.flatMap_append, byteSize_append, List.length_append]
    cases cs with
    | nil => simp [byteSize]
    | cons c cs =>
      have hc : 0 < byteSize c.text :=
        byteSize_pos (hne c (ha.subset (List.mem_append_right bs List.mem_cons_self)))
      rw [List.flatMap_cons, byteSize_append, List.length_cons]
      constructor
      · omega
      · omega

/-- Places are in the same order. -/
theorem Facing.le_iff {o o' q q' : Nat} (h : Facing f ps o o') (k : Facing f ps q q')
    (hne : ∀ p ∈ ps, p.text ≠ []) (hf : ∀ p ∈ ps, (f p).text ≠ []) : o ≤ q ↔ o' ≤ q' := by
  obtain ⟨as, has, rfl, rfl⟩ := h
  obtain ⟨bs, hbs, rfl, rfl⟩ := k
  have hf : ∀ q ∈ ps.map f, q.text ≠ [] := by
    intro q hq
    obtain ⟨p, hp, rfl⟩ := List.mem_map.1 hq
    exact hf p hp
  rw [byteSize_le_iff hne has hbs, byteSize_le_iff hf (has.map f) (hbs.map f), List.length_map,
    List.length_map]

theorem facing_placed {before rest : List Piece} (h : before ++ rest = ps) :
    List.Forall₂ (FacingPieces f ps) (placed (byteSize (before.flatMap (·.text))) rest)
      (placed (byteSize ((before.map f).flatMap (·.text))) (rest.map f)) := by
  induction rest generalizing before with
  | nil => exact .nil
  | cons p rest ih =>
    have hsize (g : Piece → Piece) : byteSize (((before ++ [p]).map g).flatMap (·.text))
        = byteSize ((before.map g).flatMap (·.text)) + byteSize (g p).text := by
      rw [List.map_append, List.flatMap_append, byteSize_append, List.map_singleton,
        List.flatMap_singleton]
    have hplain := hsize id
    rw [List.map_id, List.map_id, id] at hplain
    have hnext : before ++ [p] ++ rest = ps := by rw [List.append_assoc, List.singleton_append, h]
    have hmore := ih hnext
    rw [hplain, hsize] at hmore
    refine .cons ⟨?_, rfl, ⟨before, ⟨p :: rest, h⟩, rfl, rfl⟩, before ++ [p], ⟨rest, hnext⟩, ?_, ?_⟩
      hmore
    · exact h ▸ List.mem_append_right before List.mem_cons_self
    · exact hplain.symm
    · exact (hsize f).symm

/-- An edge of a token faces the same edge. -/
theorem facing_edgeOffset {spans spans' : List Span} {size size' : Nat}
    (h : List.Forall₂ (FacingSpans f ps) spans spans') (hsize : Facing f ps size size')
    (e : Parser.Edge) : Facing f ps (edgeOffset spans size e) (edgeOffset spans' size' e) := by
  have hget : ∀ i : Nat, Option.Rel (FacingSpans f ps) spans[i]? spans'[i]? := by
    intro i
    induction h generalizing i with
    | nil => exact .none
    | cons hs _ ih =>
      cases i with
      | zero => exact .some hs
      | succ i => exact ih i
  have hedge (g : Span → Nat) (hg : ∀ s s', FacingSpans f ps s s' → Facing f ps (g s) (g s'))
      (i : Nat) : Facing f ps ((spans[i]?.map g).getD size) ((spans'[i]?.map g).getD size') := by
    have hi := hget i
    revert hi
    generalize spans[i]? = o
    generalize spans'[i]? = o'
    intro hi
    cases hi with
    | none => exact hsize
    | some hs => exact hg _ _ hs
  cases e with
  | start i => exact hedge (·.start) (fun _ _ hs => hs.start) i
  | stop i => exact hedge (·.stop) (fun _ _ hs => hs.stop) i

end

/-- Sorting keeps what corresponds, if the keys are in the same order. -/
theorem forall₂_sortBy {α β : Type} {key : α → Nat} {key' : β → Nat} {R : α → β → Prop}
    (hR : ∀ a b a' b', R a b → R a' b' → (key a ≤ key a' ↔ key' b ≤ key' b')) {as : List α}
    {bs : List β} (h : List.Forall₂ R as bs) :
    List.Forall₂ R (sortBy key as) (sortBy key' bs) := by
  obtain ⟨ps, hps, rfl, rfl⟩ : ∃ ps : List (α × β), (∀ p ∈ ps, R p.1 p.2) ∧ ps.map (·.1) = as ∧
      ps.map (·.2) = bs := by
    induction h with
    | nil => exact ⟨[], by simp, rfl, rfl⟩
    | @cons a b _ _ hab _ ih =>
      obtain ⟨ps, hps, rfl, rfl⟩ := ih
      exact ⟨(a, b) :: ps, List.forall_mem_cons.2 ⟨hab, hps⟩, rfl, rfl⟩
  rw [← map_sortBy, ← map_sortBy, List.forall₂_map_left_iff, List.forall₂_map_right_iff,
    sortBy_congr fun p hp q hq => hR p.1 p.2 q.1 q.2 (hps p hp) (hps q hq), List.forall₂_same]
  exact fun p hp => hps p ((sortBy_perm _ _).mem_iff.1 hp)

namespace TypeSymbol

variable {r : Renaming} {P Q P' Q' : Type}

mutual

/-- Types that are declared alike are so wherever they are moved. -/
theorem alike_map (f : P → P') (g : Q → Q') : ∀ (t : TypeSymbol P) (u : TypeSymbol Q),
    r.Alike t u → r.Alike (t.map f) (u.map g)
  | ⟨_, _, _, _, _, _, nested, _⟩, _, .mk namespaces names same inside => by
    rw [TypeSymbol.map, TypeSymbol.map]
    exact .mk namespaces names same (alike_mapAll f g nested _ inside)

theorem alike_mapAll (f : P → P') (g : Q → Q') : ∀ (ts : List (TypeSymbol P))
    (us : List (TypeSymbol Q)), List.Forall₂ r.Alike ts us →
      List.Forall₂ r.Alike (mapAll f ts) (mapAll g us)
  | [], _, .nil => .nil
  | t :: ts, _, .cons h hs => .cons (alike_map f g t _ h) (alike_mapAll f g ts _ hs)

end

end TypeSymbol

namespace SyntaxTree

variable {w z : String} {s s' : Source}

/-- What a piece stands for when the name is written again. -/
theorem lexeme?_respelled (h : Replaceable w z s.text) {p : Piece}
    (hp : p ∈ pieces true s.text.toList) :
    (p.respelled w z).lexeme? = p.lexeme?.map (·.renamed w z) := by
  by_cases ht : p.text = '@' :: w.toList
  · have hz : z.toList.head? ≠ some '@' := Name.head?_of_isIdentifier h.plain.1
    rw [Lexer.respelled_of_eq ht, Lexer.eq_of_text_prefixed h.name hp ht]
    simp [Piece.lexeme?, hz, Lexeme.renamed, Lexeme.isWord, Lexeme.name]
  · rw [Lexer.respelled_of_ne ht]
    cases hl : p.lexeme? with
    | none => rfl
    | some l =>
      rw [Option.map_some, Lexeme.renamed_of_not_isWord]
      rw [Bool.eq_false_iff]
      intro hw
      obtain ⟨kind, text⟩ := l
      simp only [Lexeme.isWord, Bool.and_eq_true, beq_iff_eq] at hw
      obtain ⟨rfl, rfl⟩ := hw
      exact ht (h.prefixed p hp hl)

/-- A text whose pieces are those of another one, with a name written again. -/
def Respells (w z text text' : String) : Prop :=
  pieces true text'.toList = (pieces true text.toList).map (·.respelled w z)

instance (w z text text' : String) : Decidable (Respells w z text text') :=
  inferInstanceAs (Decidable (_ = _))

theorem lexemes_respelled (h : Replaceable w z s.text) (hs : Respells w z s.text s'.text) :
    lexemes s'.text = (lexemes s.text).map (·.renamed w z) := by
  rw [lexemes, lexemes, hs, List.filterMap_map, List.map_filterMap]
  exact List.filterMap_congr fun p hp => lexeme?_respelled h hp

/-- The text with the name written again without its prefix. -/
def respelled (w z text : String) : String :=
  String.ofList (((pieces true text.toList).map (·.respelled w z)).flatMap (·.text))

/-- The relation of places in the two sources. -/
abbrev Faces (w z : String) (s : Source) : Nat → Nat → Prop :=
  Facing (·.respelled w z) (pieces true s.text.toList)

theorem placed_respelled (hs : Respells w z s.text s'.text) :
    List.Forall₂ (FacingPieces (·.respelled w z) (pieces true s.text.toList))
      (placed 0 (pieces true s.text.toList)) (placed 0 (pieces true s'.text.toList)) := by
  rw [hs]
  exact facing_placed (List.nil_append _)

theorem spans_respelled (h : Replaceable w z s.text) (hs : Respells w z s.text s'.text) :
    List.Forall₂ (FacingSpans (·.respelled w z) (pieces true s.text.toList))
      ((tokens s.text).map (·.span)) ((tokens s'.text).map (·.span)) := by
  rw [tokens, tokens, Lexer.tokensFrom_eq, Lexer.tokensFrom_eq, List.forall₂_map_left_iff,
    List.forall₂_map_right_iff]
  refine List.rel_filterMap (fun x y hxy => ?_) (placed_respelled hs)
  rw [token?, token?, hxy.piece, lexeme?_respelled h hxy.mem, Option.map_map]
  cases x.1.lexeme? with
  | none => exact .none
  | some l => exact .some hxy.span

/-- Diagnostics of one code and severity, at places that face each other. -/
structure Corresponds (w z : String) (s : Source) (d d' : Diagnostic) : Prop where
  untold : d.untold = d'.untold
  offset : Faces w z s (diagnosticOffset d) (diagnosticOffset d')

theorem lexicalDiagnostics_respelled (hs : Respells w z s.text s'.text) :
    List.Forall₂ (Corresponds w z s) (lexicalDiagnostics s) (lexicalDiagnostics s') := by
  rw [lexicalDiagnostics, lexicalDiagnostics, Lexer.faultsFrom_eq, Lexer.faultsFrom_eq,
    List.forall₂_map_left_iff, List.forall₂_map_right_iff]
  refine List.rel_filterMap (fun x y hxy => ?_) (placed_respelled hs)
  have hfault : y.1.fault = x.1.fault := by
    rw [hxy.piece, Piece.respelled]
    split
    · rfl
    · rfl
  rw [fault?, fault?, hfault]
  cases x.1.fault with
  | none => exact .none
  | some f => exact .some ⟨rfl, hxy.span.start⟩

theorem size_respelled (hs : Respells w z s.text s'.text) :
    Faces w z s s.text.utf8ByteSize s'.text.utf8ByteSize := by
  have hsize (t : String) : t.utf8ByteSize
      = byteSize ((pieces true t.toList).flatMap (·.text)) := by
    rw [Lexer.flatMap_pieces, Slice.byteSize_toList]
  exact ⟨_, List.prefix_rfl, hsize s.text, by rw [hsize s'.text, hs]⟩

section

variable (h : Replaceable w z s.text) (hw : w ∉ contextualWords) (hz : z ∉ contextualWords)
  (hs : Respells w z s.text s'.text)

include hs

/-- The lexemes of the two sources correspond. -/
theorem same_lexemes :
    List.Forall₂ (h.replacement hw hz).Same (lexemes s.text) (lexemes s'.text) := by
  rw [lexemes_respelled h hs, List.forall₂_map_right_iff, List.forall₂_same]
  exact fun l hl => ⟨List.mem_cons_of_mem _ hl, rfl⟩

/-- **The files of the two sources** are parsed alike. -/
theorem agree_parseFile : (h.replacement hw hz).Agree
    (List.Forall₂ (h.replacement hw hz).SameItem) (parseFile (lexemes s.text))
      (parseFile (lexemes s'.text)) :=
  Renaming.runs_fileItems .none false ⟨0, lexemes s.text⟩ ⟨0, lexemes s'.text⟩
    ⟨rfl, same_lexemes h hw hz hs⟩

theorem findingDiagnostic?_respelled (version : Version) {x y : Parser.Finding}
    (hxy : (h.replacement hw hz).Matches x y) : Option.Rel (Corresponds w z s)
      (findingDiagnostic? version s ((tokens s.text).map (·.span)) x)
      (findingDiagnostic? version s' ((tokens s'.text).map (·.span)) y) := by
  have htold : (x.cause.diagnostic? version).map (·.untold)
      = (y.cause.diagnostic? version).map (·.untold) := by
    rw [← x.cause.untold_diagnostic?, hxy.cause, y.cause.untold_diagnostic?]
  have hedge := facing_edgeOffset (spans_respelled h hs) (size_respelled hs) x.mark.first
  rw [findingDiagnostic?, findingDiagnostic?, ← hxy.mark rfl]
  revert htold
  generalize x.cause.diagnostic? version = o
  generalize y.cause.diagnostic? version = o'
  intro htold
  cases o with
  | none =>
    cases o' with
    | none => exact .none
    | some d' => cases htold
  | some d =>
    cases o' with
    | none => cases htold
    | some d' => exact .some ⟨Option.some.inj htold, hedge⟩

include h hw hz in
/-- **What is reported** of the two sources corresponds, in the same order. -/
theorem diagnostics_respelled (version : Version) : List.Forall₂ (Corresponds w z s)
    (parse version s).diagnostics (parse version s').diagnostics := by
  have hne : ∀ p ∈ pieces true s.text.toList, p.text ≠ [] := fun p hp =>
    Lexer.ne_nil_of_mem_pieces hp
  have hrespelled : ∀ p ∈ pieces true s.text.toList, (p.respelled w z).text ≠ [] := by
    intro p hp
    by_cases ht : p.text = '@' :: w.toList
    · rw [Lexer.respelled_of_eq ht]
      exact fun hnil => ne_empty_of_isIdentifier h.plain.1 (String.toList_eq_nil_iff.1 hnil)
    · rw [Lexer.respelled_of_ne ht]
      exact hne p hp
  rw [diagnostics_eq, diagnostics_eq]
  refine forall₂_sortBy (fun d d' e e' hd he => hd.offset.le_iff he.offset hne hrespelled) ?_
  refine List.rel_append (lexicalDiagnostics_respelled hs) ?_
  rw [reported, reported, findings, findings, map_lexeme_tokens, map_lexeme_tokens]
  exact List.rel_filterMap (fun x y hxy => findingDiagnostic?_respelled h hw hz hs version hxy)
    (agree_parseFile h hw hz hs).found

end

/-- **Names with a prefix are only names**, if they are no contextual words.  Where a name
stands with its prefix only, and is written as another name instead that stands nowhere, the
same is reported in the same order, but for messages and places, and the usings and types are
the same but for this name.  To write it so in the text keeps all other pieces, if it nowhere
stands right after a word, a number or a stray prefix. -/
theorem parse_respelled (version : Version) (h : Replaceable w z s.text)
    (hw : w ∉ contextualWords) (hz : z ∉ contextualWords) :
    (∀ s', Respells w z s.text s'.text →
      (parse version s).diagnostics.map (·.untold) = (parse version s').diagnostics.map (·.untold) ∧
      List.Forall₂ (h.replacement hw hz).Spells (parse version s).usings (parse version s').usings ∧
      List.Forall₂ (h.replacement hw hz).Alike (parse version s).types (parse version s').types) ∧
    (SetOff w (pieces true s.text.toList) → Respells w z s.text (respelled w z s.text)) := by
  refine ⟨fun s' hs => ⟨?_, ?_, ?_⟩, fun hset => ?_⟩
  · rw [← List.forall₂_eq_eq_eq, List.forall₂_map_left_iff, List.forall₂_map_right_iff]
    exact (diagnostics_respelled h hw hz hs version).imp fun _ _ hd => hd.untold
  · rw [usings_parse, usings_parse, map_lexeme_tokens, map_lexeme_tokens]
    exact Renaming.imported_rel (agree_parseFile h hw hz hs).value
  · rw [types_parse, types_parse, map_lexeme_tokens, map_lexeme_tokens,
      List.forall₂_map_left_iff, List.forall₂_map_right_iff]
    exact (Renaming.type_rel (agree_parseFile h hw hz hs).value).imp fun t u htu =>
      TypeSymbol.alike_map _ _ t u htu
  · rw [Respells, respelled, String.toList_ofList]
    exact Lexer.pieces_respelled h.name h.plain hset

/-- A name that is imported, declared, mentioned and never read. -/
theorem parse_respelled_local :
    let s : Source := ⟨"using @q.B;\nclass @q \x7b void C() \x7b int @q = 1; \x7d \x7d", 0⟩
    let s' : Source := ⟨"using zz.B;\nclass zz \x7b void C() \x7b int zz = 1; \x7d \x7d", 1⟩
    ∃ h : Replaceable "q" "zz" s.text, ∃ hw : "q" ∉ contextualWords, ∃ hz : "zz" ∉ contextualWords,
      SetOff "q" (pieces true s.text.toList) ∧ respelled "q" "zz" s.text = s'.text ∧
      (parse .v12 s).diagnostics.map (·.code) = ["CS0219"] ∧
      (parse .v12 s).diagnostics.map (·.untold) = (parse .v12 s').diagnostics.map (·.untold) ∧
      List.Forall₂ (h.replacement hw hz).Spells (parse .v12 s).usings (parse .v12 s').usings ∧
      List.Forall₂ (h.replacement hw hz).Alike (parse .v12 s).types (parse .v12 s').types := by
  intro s s'
  have h : Replaceable "q" "zz" s.text := ⟨by decide +kernel, by decide +kernel, by decide +kernel,
    by decide +kernel, by decide +kernel⟩
  have hw : "q" ∉ contextualWords := by decide +kernel
  have hz : "zz" ∉ contextualWords := by decide +kernel
  have hset : SetOff "q" (pieces true s.text.toList) := by decide +kernel
  have hrespelled : respelled "q" "zz" s.text = s'.text := by decide +kernel
  obtain ⟨hsame, hrespells⟩ := parse_respelled .v12 h hw hz
  have hs : Respells "q" "zz" s.text s'.text := hrespelled ▸ hrespells hset
  exact ⟨h, hw, hz, hset, hrespelled, by decide +kernel, hsame s' hs⟩

/-- **A contextual word acts as one** in spite of its prefix. -/
theorem not_same_of_contextual :
    ¬ ∀ (version : Version) (w z : String) (s s' : Source), Replaceable w z s.text →
      Respells w z s.text s'.text →
        (parse version s).diagnostics.map (·.code)
          = (parse version s').diagnostics.map (·.code) := by
  intro h
  have hsame := h .latest "partial" "zzzzzzzz" ⟨"@partial class A \x7b \x7d", 0⟩
    ⟨"zzzzzzzz class A \x7b \x7d", 0⟩ ⟨by decide +kernel, by decide +kernel, by decide +kernel,
      by decide +kernel, by decide +kernel⟩ (by decide +kernel)
  revert hsame
  decide +kernel

end SyntaxTree
end Outline
