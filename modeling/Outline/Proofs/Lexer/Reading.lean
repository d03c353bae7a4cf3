/-
# Reading a text that is put together

A text *reads* as lexemes if it is cut into pieces that stand for them, without faults,
whatever stands before it and whatever follows of what may follow.  Texts that read in
front of each other read together.

| text | may be followed by |
| --- | --- |
| a word, a name | what goes on no word |
| a dot | what is no digit |
| a separator, an angle | anything |
| any other text without faults | a separator |
-/

import Outline.Lexer.Tokens
import Outline.Proofs.Character
import Outline.Proofs.Lexer.Locality

namespace Outline

namespace Lexeme

/-- The lexeme of a punctuation. -/
def mark (text : String) : Lexeme := ⟨.punct, text⟩

/-- The lexeme of a name. -/
def name (text : String) : Lexeme := ⟨.identifier, text⟩

/-- The lexeme of a word, which may be reserved. -/
def word (text : String) : Lexeme :=
  ⟨if Name.isKeyword text then .keyword else .identifier, text⟩

end Lexeme

namespace Lexer

/-! ### Reading -/

/-- A text is read as lexemes in front of what starts with a character of `follow`. -/
def Reads (follow : Char → Bool) (s : String) (ls : List Lexeme) : Prop :=
  ∀ fresh after, Follows follow after → ∃ fresh' ps, Faultless ps ∧
    ps.filterMap (·.lexeme?) = ls ∧ pieces fresh (s.toList ++ after) = ps ++ pieces fresh' after

/-- What may stand after a word. -/
def endsWord (c : Char) : Bool := !Character.isWord c

/-- What may stand after a dot. -/
def startsNoNumber (c : Char) : Bool := !Character.isDigit c

theorem endsWord_of_isSeparator {c : Char} (h : isSeparator c = true) : endsWord c = true := by
  rw [endsWord, not_isWord_of_isSeparator h]
  rfl

theorem startsNoNumber_of_isSeparator {c : Char} (h : isSeparator c = true) :
    startsNoNumber c = true := by
  rw [startsNoNumber, not_isDigit_of_isSeparator h]
  rfl

theorem endsWord_of_separator {c : Char} (h : separators.contains c = true) :
    endsWord c = true := endsWord_of_isSeparator (Bool.or_eq_true_iff.2 (.inr h))

theorem Follows.mono {p q : Char → Bool} {after : List Char} (h : Follows p after)
    (hpq : ∀ c, p c = true → q c = true) : Follows q after := fun a ha => hpq a (h a ha)

theorem follows_cons {p : Char → Bool} {c : Char} {cs : List Char} :
    Follows p (c :: cs) ↔ p c = true := by
  constructor
  · exact fun h => h c rfl
  · exact fun h a ha => Option.some.inj ha ▸ h

theorem Follows.append {p : Char → Bool} {cs after : List Char} (h : Follows p cs)
    (ha : Follows p after) : Follows p (cs ++ after) := by
  cases cs with
  | nil => exact ha
  | cons c cs => exact follows_cons.2 (follows_cons.1 h)

namespace Reads

variable {p q : Char → Bool} {s t : String} {ls ms : List Lexeme}

theorem empty : Reads p "" [] := fun fresh _ _ => ⟨fresh, [], by simp [Faultless], rfl, rfl⟩

theorem mono (h : Reads p s ls) (hqp : ∀ c, q c = true → p c = true) : Reads q s ls :=
  fun fresh after ha => h fresh after (ha.mono hqp)

/-- Two texts read together if the first one reads in front of the second. -/
theorem append (h : Reads p s ls) (k : Reads q t ms)
    (hj : ∀ after, Follows q after → Follows p (t.toList ++ after)) :
    Reads q (s ++ t) (ls ++ ms) := by
  intro fresh after ha
  rcases h fresh (t.toList ++ after) (hj after ha) with ⟨fresh₁, ps, hps, hls, hs⟩
  rcases k fresh₁ after ha with ⟨fresh₂, qs, hqs, hms, ht⟩
  refine ⟨fresh₂, ps ++ qs, faultless_append.2 ⟨hps, hqs⟩, ?_, ?_⟩
  · rw [List.filterMap_append, hls, hms]
  · rw [String.toList_append, List.append_assoc, hs, ht, List.append_assoc]

/-- A text that reads in front of anything reads in front of any text. -/
theorem onward (h : Reads (fun _ => true) s ls) (k : Reads q t ms) : Reads q (s ++ t) (ls ++ ms) :=
  h.append k fun _ _ _ _ => rfl

/-- A text that reads in front of another one that starts with a given character. -/
theorem before (h : Reads p s ls) (k : Reads q t ms) {c : Char} (hc : t.toList.head? = some c)
    (hp : p c = true) : Reads q (s ++ t) (ls ++ ms) := by
  refine h.append k fun after _ => ?_
  obtain ⟨d, ds, hd⟩ : ∃ d ds, t.toList = d :: ds := by
    cases ht : t.toList with
    | nil => rw [ht] at hc; cases hc
    | cons d ds => exact ⟨d, ds, rfl⟩
  rw [hd] at hc ⊢
  rw [List.cons_append, follows_cons, Option.some.inj hc]
  exact hp

/-- A text that is read has no faults and is read as what it is cut into by itself. -/
theorem alone (h : Reads p s ls) : Faultless (pieces true s.toList) ∧ lexemes s = ls := by
  rcases h true [] (fun _ ha => by cases ha) with ⟨fresh, ps, hps, hls, hs⟩
  rw [List.append_nil, pieces_nil, List.append_nil] at hs
  exact ⟨hs ▸ hps, by rw [lexemes, hs, hls]⟩

end Reads

/-! ### Single pieces -/

/-- A text that is cut off as one piece. -/
theorem Reads.of_cut {p : Char → Bool} {s : String} {c : Char} {cs : List Char} {k : Cut}
    (hs : s.toList = c :: cs) (h : ∀ fresh after, Follows p after → cut fresh c (cs ++ after) = k)
    (hk : k.more = cs.length) (hf : k.fault = none) :
    Reads p s (Piece.mk k.shape (c :: cs) none).lexeme?.toList := by
  intro fresh after ha
  refine ⟨freshAfter fresh c k.shape, [⟨k.shape, c :: cs, none⟩], ?_, ?_, ?_⟩
  · exact fun p hp => List.mem_singleton.1 hp ▸ rfl
  · cases hl : (Piece.mk k.shape (c :: cs) none).lexeme? with
    | none => rw [List.filterMap_cons_none hl]; rfl
    | some l => rw [List.filterMap_cons_some hl]; rfl
  · rw [hs, List.cons_append, pieces_cons, h fresh after ha, hk, hf, List.take_left,
      List.drop_left]
    rfl

/-- A piece that starts with a letter or an underscore is a word. -/
theorem cut_of_isNameStart {c : Char} (h : Character.isNameStart c = true) (fresh : Bool)
    (cs : List Char) : cut fresh c cs = cutName c cs := by
  have ne : ∀ d, Character.isNameStart d = false → c ≠ d := by
    rintro d hd rfl
    rw [h] at hd
    cases hd
  unfold cut
  rw [if_neg (by rw [Character.not_isWhiteSpace_of_isNameStart h]; decide),
    if_neg (fun hc => ne '#' (by decide) hc.1), if_neg (fun hc => ne '/' (by decide) hc.1),
    if_neg (fun hc => ne '/' (by decide) hc.1), if_neg (ne '"' (by decide)),
    if_neg (ne '@' (by decide)), if_neg (ne '$' (by decide)), if_neg (ne '\'' (by decide)),
    if_neg, if_pos h]
  rintro (hd | hd)
  · rw [Character.not_isDigit_of_isNameStart h] at hd
    cases hd
  · exact ne '.' (by decide) hd.1

theorem takeWhile_isWord_append {cs after : List Char} (h : ∀ c ∈ cs, Character.isWord c = true)
    (ha : Follows endsWord after) : (cs ++ after).takeWhile Character.isWord = cs := by
  rw [List.takeWhile_append_of_pos h]
  cases after with
  | nil => simp
  | cons a as =>
    have hw : Character.isWord a = false := by simpa [endsWord] using ha a rfl
    rw [List.takeWhile_cons_of_neg (by simp [hw]), List.append_nil]

/-- The characters of a name. -/
theorem exists_of_isIdentifier {s : String} (h : Name.isIdentifier s = true) :
    ∃ c cs, s.toList = c :: cs ∧ Character.isNameStart c = true ∧
      ∀ d ∈ cs, Character.isWord d = true := by
  unfold Name.isIdentifier at h
  split at h
  · cases h
  · rename_i c cs hs
    rw [Bool.and_eq_true, List.all_eq_true] at h
    exact ⟨c, cs, hs, h.1, h.2⟩

/-- A word in front of what goes on no word. -/
theorem reads_word {s : String} (h : Name.isIdentifier s = true) :
    Reads endsWord s [.word s] := by
  rcases exists_of_isIdentifier h with ⟨c, cs, hs, hc, hcs⟩
  have hw : String.ofList (c :: cs) = s := by rw [← hs, String.ofList_toList]
  have hat : c ≠ '@' := by
    rintro rfl
    cases hc
  have hk : ∀ fresh after, Follows endsWord after →
      cut fresh c (cs ++ after) = ⟨.token (Lexeme.word s).kind, cs.length, none⟩ := by
    intro fresh after ha
    rw [cut_of_isNameStart hc, cutName, takeWhile_isWord_append hcs ha, hw]
    rfl
  have hr := Reads.of_cut hs hk rfl rfl
  have hl : (Piece.mk (.token (Lexeme.word s).kind) (c :: cs) none).lexeme?
      = some (Lexeme.word s) := by
    unfold Piece.lexeme? Lexeme.word
    cases Name.isKeyword s with
    | true => simp [hw]
    | false => simp [hw, hat]
  rwa [hl] at hr

/-- A reserved word in front of what goes on no word. -/
theorem reads_verbatim {s : String} (h : Name.isIdentifier s = true) :
    Reads endsWord ("@" ++ s) [⟨.identifier, s⟩] := by
  rcases exists_of_isIdentifier h with ⟨c, cs, hs, hc, hcs⟩
  have hs' : ("@" ++ s).toList = '@' :: c :: cs := by rw [String.toList_append, hs]; rfl
  have hk : ∀ fresh after, Follows endsWord after →
      cut fresh '@' (c :: cs ++ after) = ⟨.token .identifier, (c :: cs).length, none⟩ := by
    intro fresh after ha
    have hws : ∀ d ∈ c :: cs, Character.isWord d = true := by
      rintro d (_ | ⟨_, hd⟩)
      · exact Character.isWord_of_isNameStart hc
      · exact hcs d hd
    show cutAt (c :: cs ++ after) = _
    rw [List.cons_append, cutAt, if_pos hc, ← List.cons_append, takeWhile_isWord_append hws ha]
    · rintro rfl
      cases hc
    · rintro ds rfl -
      cases hc
  have hr := Reads.of_cut hs' hk rfl rfl
  have hl : (Piece.mk (.token .identifier) ('@' :: c :: cs) none).lexeme?
      = some ⟨.identifier, s⟩ := by
    simp [Piece.lexeme?, ← hs]
  rwa [hl] at hr

/-- A sign of one character in front of what it is cut off from. -/
theorem reads_mark {p : Char → Bool} {s : String} {c : Char} (hs : s.toList = [c])
    (h : ∀ fresh after, Follows p after → cut fresh c after = ⟨.token .punct, 0, none⟩) :
    Reads p s [.mark s] := by
  have hr := Reads.of_cut hs h rfl rfl
  have hl : (Piece.mk (.token .punct) [c] none).lexeme? = some (.mark s) := by
    rw [← hs]
    simp [Piece.lexeme?, Lexeme.mark]
  rwa [hl] at hr

/-- The signs that stay the same in front of anything. -/
theorem reads_sign {s : String} (h : s ∈ [";", ",", "(", ")", "[", "]", "\x7b", "\x7d", "<", ">"]) :
    Reads (fun _ => true) s [.mark s] := by
  simp only [List.mem_cons, List.not_mem_nil, or_false] at h
  obtain rfl | rfl | rfl | rfl | rfl | rfl | rfl | rfl | rfl | rfl := h <;>
    exact reads_mark rfl fun _ _ _ => rfl

theorem reads_space : Reads (fun _ => true) " " [] :=
  Reads.of_cut (c := ' ') (k := ⟨.blank, 0, none⟩) rfl (fun _ _ _ => rfl) rfl rfl

theorem reads_dot : Reads startsNoNumber "." [.mark "."] := by
  refine reads_mark rfl fun fresh after ha => ?_
  have hd : after.head?.any Character.isDigit = false := by
    cases hh : after.head? with
    | none => rfl
    | some a => simpa [startsNoNumber] using ha a hh
  unfold cut
  simp only [hd]
  rfl

/-! ### Texts without faults -/

/-- A text that can stand in a line: it has no faults, and what follows is not taken for
a comment or a directive. -/
def Inline (s : String) : Prop :=
  Faultless (pieces false s.toList) ∧ ∀ p ∈ (pieces false s.toList).getLast?, p.takesLine = false

instance (s : String) : Decidable (Inline s) :=
  inferInstanceAs (Decidable (_ ∧ ∀ p ∈ (pieces false s.toList).getLast?, p.takesLine = false))

/-- **A text without faults reads as its lexemes** in front of a separator. -/
theorem reads_inline {s : String} (h : Inline s) : Reads separators.contains s (lexemes s) := by
  intro fresh after ha
  have hp : ∀ fresh, pieces fresh s.toList = pieces false s.toList := fun fresh =>
    pieces_fresh h.1 (by simp)
  have hl : EndsLine (pieces fresh s.toList) after := by
    intro p hm ht
    rw [hp] at hm
    rw [h.2 p hm] at ht
    cases ht
  have hsep : Separated after := ha.mono fun _ h => isSeparator_of_mem (List.contains_iff_mem.1 h)
  rcases pieces_append (by rw [hp]; exact h.1) hsep hl with ⟨fresh', hf⟩
  exact ⟨fresh', _, by rw [hp]; exact h.1, by rw [lexemes, hp fresh, hp true], hf⟩

theorem reads_spaced {s : String} (h : Inline s) :
    Reads (fun _ => true) (s ++ " ") (lexemes s) := by
  have := (reads_inline h).before reads_space rfl (by decide)
  rwa [List.append_nil] at this

/-- The lexemes of a list with commas. -/
def commaSeparated (lss : List (List Lexeme)) : List Lexeme := [.mark ","].intercalate lss

/-- Texts with commas and spaces between them read one after the other. -/
theorem reads_commaSeparated {α : Type} {text : α → String} {spell : α → List Lexeme}
    {p : Char → Bool} (hp : p ',' = true) (as : List α) (h : ∀ a ∈ as, Reads p (text a) (spell a)) :
    Reads p (", ".intercalate (as.map text)) (commaSeparated (as.map spell)) := by
  have comma : Reads (fun _ => true) ("," ++ " ") ([.mark ","] ++ []) :=
    (reads_sign (by decide)).onward reads_space
  induction as with
  | nil => exact .empty
  | cons a as ih =>
    have ha := h a List.mem_cons_self
    cases as with
    | nil => simpa [commaSeparated] using ha
    | cons b bs =>
      have hb := ih fun c hc => h c (List.mem_cons_of_mem a hc)
      have hr := (ha.before comma rfl hp).onward hb
      rw [List.map_cons, List.map_cons, String.intercalate_cons_cons]
      simpa [commaSeparated] using hr

/-! ### Names -/

end Lexer

namespace Name

/-- A name without the prefix that it is written with if it is reserved. -/
def unescape (s : String) : String :=
  if s.toList.head? = some '@' then String.ofList s.toList.tail else s

/-- A name that is not reserved. -/
def IsPlain (s : String) : Prop := isIdentifier s = true ∧ isKeyword s = false

/-- A name as it is written: a reserved one has the prefix `@`. -/
def IsWritten (s : String) : Prop := isIdentifier (unescape s) = true ∧ isKeyword s = false

/-- Names joined by dots. -/
def IsDotted (s : String) : Prop :=
  ∃ names, names ≠ [] ∧ s = ".".intercalate names ∧ ∀ n ∈ names, IsPlain n

instance (s : String) : Decidable (IsPlain s) := inferInstanceAs (Decidable (_ ∧ _))

instance (s : String) : Decidable (IsWritten s) := inferInstanceAs (Decidable (_ ∧ _))

theorem head?_of_isIdentifier {s : String} (h : isIdentifier s = true) :
    s.toList.head? ≠ some '@' := by
  rcases Lexer.exists_of_isIdentifier h with ⟨c, cs, hs, hc, -⟩
  rw [hs]
  rintro ⟨⟩
  cases hc

theorem unescape_of_isIdentifier {s : String} (h : isIdentifier s = true) : unescape s = s :=
  if_neg (head?_of_isIdentifier h)

theorem unescape_at (s : String) : unescape ("@" ++ s) = s := by
  simp [unescape]

/-- **Escaping can be undone.** -/
theorem unescape_escape {s : String} (h : isIdentifier s = true) : unescape (escape s) = s := by
  unfold escape
  split
  · exact unescape_at s
  · exact unescape_of_isIdentifier h

theorem isWritten_escape {s : String} (h : isIdentifier s = true) : IsWritten (escape s) := by
  refine ⟨by rwa [unescape_escape h], ?_⟩
  unfold escape
  split
  · rw [Bool.eq_false_iff]
    intro hk
    exact head?_of_isIdentifier (isIdentifier_of_isKeyword hk) (by simp)
  · rename_i hk
    simpa using hk

end Name

namespace Lexer

theorem reads_plain {s : String} (h : Name.IsPlain s) : Reads endsWord s [.name s] := by
  have := reads_word h.1
  rwa [Lexeme.word, h.2] at this

theorem reads_written {s : String} (h : Name.IsWritten s) :
    Reads endsWord s [.name (Name.unescape s)] := by
  by_cases hs : s.toList.head? = some '@'
  · have hw : "@" ++ Name.unescape s = s := by
      obtain ⟨cs, hcs⟩ := List.head?_eq_some_iff.1 hs
      rw [← String.toList_inj, String.toList_append, Name.unescape, if_pos hs, hcs]
      simp
    have := reads_verbatim h.1
    rwa [hw] at this
  · have hu : Name.unescape s = s := if_neg hs
    rw [hu]
    exact reads_plain ⟨hu ▸ h.1, h.2⟩

/-- The lexemes of names joined by dots. -/
def dotted (names : List String) : List Lexeme := [.mark "."].intercalate (names.map ([.name ·]))

theorem reads_dotted {names : List String} (h : ∀ n ∈ names, Name.IsPlain n) :
    Reads endsWord (".".intercalate names) (dotted names) := by
  induction names with
  | nil => exact .empty
  | cons n ns ih =>
    have hn := reads_plain (h n List.mem_cons_self)
    cases ns with
    | nil => simpa [dotted] using hn
    | cons m ms =>
      have hm := h m (List.mem_cons_of_mem n List.mem_cons_self)
      rcases exists_of_isIdentifier hm.1 with ⟨c, cs, hs, hc, -⟩
      have hhead : (".".intercalate (m :: ms)).toList.head? = some c := by
        cases ms <;> simp [hs]
      have hr := (hn.before reads_dot rfl (by decide)).before
        (ih fun k hk => h k (List.mem_cons_of_mem n hk)) hhead (by
          simp [startsNoNumber, Character.not_isDigit_of_isNameStart hc])
      rw [String.intercalate_cons_cons]
      simpa [dotted] using hr

end Lexer
/-- A source without faults is read without diagnostics, and the other way round. -/
theorem lexicalDiagnostics_eq_nil_iff {s : Source} :
    lexicalDiagnostics s = [] ↔ Lexer.Faultless (Lexer.pieces true s.text.toList) := by
  rw [lexicalDiagnostics, List.map_eq_nil_iff]
  generalize Lexer.pieces true s.text.toList = ps
  generalize 0 = offset
  induction ps generalizing offset with
  | nil => simp [Lexer.faultsFrom, Lexer.Faultless]
  | cons p ps ih =>
    rw [Lexer.faultsFrom, Lexer.Faultless, List.forall_mem_cons]
    cases hf : p.fault with
    | none => simpa [Lexer.Faultless] using ih _
    | some f => simp

end Outline
