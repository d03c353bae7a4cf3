/-
# Strings of any content

A string is one token, without a fault, whatever it holds and wherever it stands, unless a quote
comes right after it.

| literal | what it holds |
| --- | --- |
| `"…"` | characters of one line, some of them after a backslash |
| `@"…"` | any characters, quotes doubled |
| `"""…"""` | any characters, without as many quotes in a row, and none at its ends |
| `$"…"` | what a string holds, braces doubled, and holes |
| `$"""…"""` | what a raw string holds |

A hole holds code: characters, strings, and groups in braces.  The reader counts the braces that
are open, so it is in the hole as long as there are some (`Hole.passed`).
-/

import Outline.Proofs.Lexer.Resemblance
import Outline.Proofs.Lexer.Tiling

namespace Outline
namespace Lexer

/-! ### What strings hold -/

/-- What stands for a character in a string: the character, or a backslash and one that it takes
with it. -/
inductive StringItem
  | plain (c : Char) (h : c ≠ '"' ∧ c ≠ '\\' ∧ c ≠ '\n')
  | escaped (c : Char) (h : c ≠ '\n')

def StringItem.chars : StringItem → List Char
  | plain c _ => [c]
  | escaped c _ => ['\\', c]

/-- A text between quotes. -/
def quoted (cs : List Char) : List Char := '"' :: (cs ++ ['"'])

/-- What stands in a hole, up to its end: characters, strings, and groups in braces. -/
inductive Hole (plain : Char → Prop)
  | nil
  | char (c : Char) (h : plain c) (rest : Hole plain)
  | string (items : List StringItem) (rest : Hole plain)
  | group (inside rest : Hole plain)

def Hole.chars {plain : Char → Prop} : Hole plain → List Char
  | nil => []
  | char c _ rest => c :: rest.chars
  | string items rest => quoted (items.flatMap (·.chars)) ++ rest.chars
  | group inside rest => '\x7b' :: (inside.chars ++ '\x7d' :: rest.chars)

/-- The characters that stand for themselves in a string with holes, and in its holes. -/
def IsText (c : Char) : Prop := c ≠ '"' ∧ c ≠ '\\' ∧ c ≠ '\n' ∧ c ≠ '\x7b' ∧ c ≠ '\x7d'

instance (c : Char) : Decidable (IsText c) :=
  inferInstanceAs (Decidable (c ≠ '"' ∧ c ≠ '\\' ∧ c ≠ '\n' ∧ c ≠ '\x7b' ∧ c ≠ '\x7d'))

/-- What stands in a string with holes. -/
inductive InterpolatedItem
  | plain (c : Char) (h : IsText c)
  | escaped (c : Char) (h : c ≠ '\n')
  /-- Two braces, which stand for one. -/
  | opening | closing
  /-- A hole does not start with a brace, which would double the one that opens it. -/
  | hole (inside : Hole IsText) (h : inside.chars.head? ≠ some '\x7b')

def InterpolatedItem.chars : InterpolatedItem → List Char
  | plain c _ => [c]
  | escaped c _ => ['\\', c]
  | opening => ['\x7b', '\x7b']
  | closing => ['\x7d', '\x7d']
  | hole inside _ => '\x7b' :: (inside.chars ++ ['\x7d'])

/-- What stands for a character in a verbatim string. -/
def verbatimChar (c : Char) : List Char := if c = '"' then ['"', '"'] else [c]

/-- What stands in a raw string between as many quotes on both sides. -/
structure RawContent where
  quotes : Nat
  text : List Char
  three : 3 ≤ quotes
  ne_nil : text ≠ []
  first : text.head? ≠ some '"'
  last : text.getLast? ≠ some '"'
  fewer : ¬List.replicate quotes '"' <:+: text

/-! ### Steps of the reader -/

theorem Extent.grow_grow (e : Extent) (m n : Nat) : (e.grow n).grow m = e.grow (m + n) := by
  rw [Extent.grow, Extent.grow, Extent.grow, Nat.add_assoc]

section Steps

variable {interpolated : Bool} {holes : Nat} {c : Char} {cs : List Char}

theorem stringExtent_plain (h : c ≠ '"' ∧ c ≠ '\\' ∧ c ≠ '\n')
    (hb : interpolated = true → c ≠ '\x7b' ∧ c ≠ '\x7d') :
    stringExtent interpolated holes .text (c :: cs)
      = (stringExtent interpolated holes .text cs).grow 1 := by
  obtain ⟨hquote, hback, hline⟩ := h
  rw [stringExtent, if_neg hline, if_neg hback, if_neg hquote, if_neg, if_neg]
  · simpa using fun h => (hb h).2
  · simpa using fun h => (hb h).1

theorem stringExtent_escaped (h : c ≠ '\n') :
    stringExtent interpolated holes .text ('\\' :: c :: cs)
      = (stringExtent interpolated holes .text cs).grow 2 := by
  have hnext : (c :: cs).head? ≠ some '\n' := fun hc => h (Option.some.inj hc)
  rw [stringExtent, if_neg (by decide), if_pos rfl, if_neg hnext, stringExtent, Extent.grow_grow]

/-- The quote that ends a string. -/
theorem stringExtent_quote :
    stringExtent interpolated 0 .text ('"' :: cs) = .close 1 := by
  rw [stringExtent, if_neg (by decide), if_neg (by decide), if_pos rfl, if_pos rfl]

/-- The quote that starts a string in a hole. -/
theorem stringExtent_quote_hole (h : holes ≠ 0) :
    stringExtent interpolated holes .text ('"' :: cs)
      = (stringExtent interpolated holes .nested cs).grow 1 := by
  rw [stringExtent, if_neg (by decide), if_neg (by decide), if_pos rfl, if_neg h]

/-- The quote that ends a string in a hole. -/
theorem stringExtent_quote_nested :
    stringExtent interpolated holes .nested ('"' :: cs)
      = (stringExtent interpolated holes .text cs).grow 1 := by
  rw [stringExtent, if_neg (by decide), if_neg (by decide), if_pos rfl]

theorem stringExtent_opening (h : holes = 0 → cs.head? ≠ some '\x7b') :
    stringExtent true holes .text ('\x7b' :: cs)
      = (stringExtent true (holes + 1) .text cs).grow 1 := by
  rw [stringExtent, if_neg (by decide), if_neg (by decide), if_neg (by decide), if_pos (by decide),
    if_neg fun hdouble => h hdouble.1 hdouble.2]

theorem stringExtent_closing :
    stringExtent true holes .text ('\x7d' :: cs)
      = (stringExtent true (holes - 1) .text cs).grow 1 := by
  rw [stringExtent, if_neg (by decide), if_neg (by decide), if_neg (by decide), if_neg (by decide),
    if_pos (by decide)]

/-- Two braces outside of holes open none. -/
theorem stringExtent_doubled :
    stringExtent true 0 .text ('\x7b' :: '\x7b' :: cs)
      = (stringExtent true 0 .text cs).grow 2 := by
  rw [stringExtent, if_neg (by decide), if_neg (by decide), if_neg (by decide), if_pos (by decide),
    if_pos ⟨rfl, rfl⟩, stringExtent, Extent.grow_grow]

end Steps

/-! ### Reading on -/

/-- A reader goes through some characters and stands as it did before them. -/
def Passed (e : List Char → Extent) (cs : List Char) : Prop :=
  ∀ rest, e (cs ++ rest) = (e rest).grow cs.length

namespace Passed

variable {e : List Char → Extent}

theorem nil : Passed e [] := fun rest => by
  rw [List.nil_append, List.length_nil, Extent.grow, Nat.zero_add]

theorem append {cs ds : List Char} (hc : Passed e cs) (hd : Passed e ds) : Passed e (cs ++ ds) :=
  fun rest => by rw [List.append_assoc, hc, hd, Extent.grow_grow, List.length_append]

theorem flatMap {α : Type} {f : α → List Char} (h : ∀ a, Passed e (f a)) (items : List α) :
    Passed e (items.flatMap f) := by
  induction items with
  | nil => exact nil
  | cons a items ih =>
    rw [List.flatMap_cons]
    exact (h a).append ih

/-- What is passed ends with the quote that is the end after it. -/
theorem close {cs after : List Char} (h : Passed e cs) (hquote : e ('"' :: after) = .close 1) :
    e (cs ++ '"' :: after) = .close (cs.length + 1) := by
  rw [h, hquote]
  rfl

end Passed

theorem StringItem.passed (i : StringItem) (holes : Nat) :
    Passed (stringExtent false holes .text) i.chars := fun rest => by
  cases i with
  | plain c h => exact stringExtent_plain h fun hfalse => absurd hfalse Bool.false_ne_true
  | escaped c h => exact stringExtent_escaped h

theorem StringItem.passed_nested (i : StringItem) (interpolated : Bool) (holes : Nat) :
    Passed (stringExtent interpolated holes .nested) i.chars := fun rest => by
  cases i with
  | plain c h =>
    show stringExtent interpolated holes .nested (c :: rest) = _
    rw [stringExtent, if_neg h.2.2, if_neg h.2.1, if_neg h.1]
    rfl
  | escaped c h =>
    show stringExtent interpolated holes .nested ('\\' :: c :: rest) = _
    rw [stringExtent, if_neg (by decide), if_pos rfl, stringExtent, Extent.grow_grow]
    rfl

/-- What a string holds does not start with a quote. -/
theorem head?_items_ne (items : List StringItem) {rest : List Char}
    (h : items = [] → rest.head? ≠ some '"') :
    (items.flatMap (·.chars) ++ rest).head? ≠ some '"' := by
  rcases items with _ | ⟨⟨c, hc⟩ | ⟨c, hc⟩, items⟩
  · exact h rfl
  · exact fun hquote => hc.1 (Option.some.inj hquote)
  · exact fun hquote => by cases hquote

/-- In a hole, the reader passes a string. -/
theorem passed_string {holes : Nat} (hpos : holes ≠ 0) (items : List StringItem) :
    Passed (stringExtent true holes .text) (quoted (items.flatMap (·.chars))) := fun rest => by
  have hitems : Passed (stringExtent true holes .nested) (items.flatMap (·.chars)) :=
    .flatMap (·.passed_nested true holes) items
  rw [quoted, List.cons_append, List.append_assoc, stringExtent_quote_hole hpos, hitems,
    List.singleton_append, stringExtent_quote_nested, Extent.grow_grow, Extent.grow_grow,
    List.length_cons, List.length_append, Nat.add_comm 1]
  rfl

/-- What the reader passes in one more hole, it passes between braces. -/
theorem passed_group {holes : Nat} {cs : List Char}
    (h : Passed (stringExtent true (holes + 1) .text) cs)
    (hdouble : holes = 0 → cs.head? ≠ some '\x7b') :
    Passed (stringExtent true holes .text) ('\x7b' :: (cs ++ ['\x7d'])) := fun rest => by
  -- outside of holes a second brace would make both stand for one
  have hopen : holes = 0 → (cs ++ '\x7d' :: rest).head? ≠ some '\x7b' := by
    intro hzero hhead
    cases cs with
    | nil => exact absurd (Option.some.inj hhead) (by decide)
    | cons c cs => exact hdouble hzero hhead
  rw [List.cons_append, List.append_assoc, List.singleton_append, stringExtent_opening hopen, h,
    stringExtent_closing, Nat.add_sub_cancel, Extent.grow_grow, Extent.grow_grow,
    List.length_cons, List.length_append, Nat.add_comm 1]
  rfl

/-- **The reader passes a hole**: it is as deep in braces after it as before. -/
theorem Hole.passed (h : Hole IsText) {holes : Nat} (hpos : holes ≠ 0) :
    Passed (stringExtent true holes .text) h.chars := by
  induction h generalizing holes with
  | nil => exact .nil
  | char c hc rest ih =>
    have hchar : Passed (stringExtent true holes .text) [c] := fun _ =>
      stringExtent_plain ⟨hc.1, hc.2.1, hc.2.2.1⟩ fun _ => hc.2.2.2
    exact hchar.append (ih hpos)
  | string items rest ih => exact (passed_string hpos items).append (ih hpos)
  | group inside rest ihinside ihrest =>
    have hgroup := passed_group (ihinside (Nat.succ_ne_zero holes)) fun hzero => absurd hzero hpos
    have happend := hgroup.append (ihrest hpos)
    rwa [List.cons_append, List.append_assoc] at happend

theorem InterpolatedItem.passed (i : InterpolatedItem) :
    Passed (stringExtent true 0 .text) i.chars := by
  cases i with
  | plain c h => exact fun _ => stringExtent_plain ⟨h.1, h.2.1, h.2.2.1⟩ fun _ => h.2.2.2
  | escaped c h => exact fun _ => stringExtent_escaped h
  | opening => exact fun _ => stringExtent_doubled
  | closing =>
    have hcloser : Passed (stringExtent true 0 .text) ['\x7d'] := fun _ => stringExtent_closing
    exact hcloser.append hcloser
  | hole inside h => exact passed_group (inside.passed (Nat.succ_ne_zero 0)) fun _ => h

/-- The reader of a verbatim string passes quotes that are doubled. -/
theorem verbatimChar_passed (c : Char) : Passed verbatimExtent (verbatimChar c) := fun rest => by
  by_cases hc : c = '"'
  · rw [verbatimChar, if_pos hc]
    rfl
  · rw [verbatimChar, if_neg hc]
    exact verbatimExtent_cons hc rest

/-- In a text that ends with no quote, a run of quotes that starts in it also ends in it. -/
theorem infix_of_take_eq_replicate {n : Nat} {cs after : List Char} (hne : cs ≠ [])
    (hlast : cs.getLast? ≠ some '"') (h : (cs ++ after).take n = List.replicate n '"') :
    List.replicate n '"' <:+: cs := by
  by_cases hle : n ≤ cs.length
  · rw [List.take_append_of_le_length hle] at h
    rw [← h]
    exact (List.take_prefix n cs).isInfix
  · refine absurd ?_ hlast
    rw [List.take_append, List.take_of_length_le (by omega)] at h
    rw [List.getLast?_eq_some_getLast hne]
    refine congrArg some (List.eq_of_mem_replicate (n := n) ?_)
    rw [← h]
    exact List.mem_append_left _ (List.getLast_mem hne)

/-- A raw string ends with the first run of as many quotes as it starts with. -/
theorem rawExtent_quoted {n : Nat} (hn : n ≠ 0) {cs : List Char}
    (hlast : cs.getLast? ≠ some '"') (hfewer : ¬List.replicate n '"' <:+: cs)
    (after : List Char) :
    rawExtent n (cs ++ (List.replicate n '"' ++ after)) = .close (cs.length + n) := by
  induction cs with
  | nil =>
    obtain ⟨m, rfl⟩ := Nat.exists_eq_succ_of_ne_zero hn
    rw [List.nil_append, List.replicate_succ, List.cons_append, rawExtent, if_pos]
    · rw [List.length_nil, Nat.zero_add]
    · rw [← List.cons_append, ← List.replicate_succ]
      exact List.take_left' List.length_replicate
  | cons c cs ih =>
    -- a run of quotes from here on would end before the content does, or take its last character
    have hrun : ¬(c :: (cs ++ (List.replicate n '"' ++ after))).take n = List.replicate n '"' :=
      fun h => hfewer (infix_of_take_eq_replicate (List.cons_ne_nil c cs) hlast h)
    rw [List.cons_append, rawExtent, if_neg hrun, ih]
    · rw [List.length_cons, Nat.add_right_comm, Nat.add_comm _ 1]
      rfl
    · cases cs with
      | nil => exact fun h => by cases h
      | cons d cs => rwa [List.getLast?_cons_cons] at hlast
    · exact fun h => hfewer (h.trans (List.infix_cons (List.infix_refl cs)))

/-! ### Tokens -/

/-- A text is one token without a fault, wherever it stands and whatever follows it but a quote. -/
def IsOneToken (kind : LexemeKind) (text : List Char) : Prop :=
  ∀ fresh after, after.head? ≠ some '"' →
    pieces fresh (text ++ after) = ⟨.token kind, text, none⟩ :: pieces false after

theorem IsOneToken.of_cut {kind : LexemeKind} {c : Char} {cs : List Char}
    (h : ∀ fresh after, after.head? ≠ some '"' →
      cut fresh c (cs ++ after) = ⟨.token kind, cs.length, none⟩) :
    IsOneToken kind (c :: cs) := fun fresh after ha => by
  rw [List.cons_append, pieces_cons, h fresh after ha, List.take_left, List.drop_left]
  rfl

theorem leading_replicate (n : Nat) {c : Char} {after : List Char} (h : after.head? ≠ some c) :
    leading c (List.replicate n c ++ after) = n := by
  rw [leading_append _ h, leading, List.takeWhile_replicate, if_pos (by simp),
    List.length_replicate]

theorem drop_leading_replicate (n : Nat) {c : Char} {after : List Char}
    (h : after.head? ≠ some c) :
    (List.replicate n c ++ after).drop (leading c (List.replicate n c ++ after)) = after := by
  rw [leading_replicate n h]
  exact List.drop_left' List.length_replicate

/-- Content that does not start with a quote has no run of quotes before it. -/
theorem leading_quoted_lt {cs after : List Char} (h : cs.head? ≠ some '"')
    (ha : after.head? ≠ some '"') : leading '"' (cs ++ '"' :: after) < 2 := by
  cases cs with
  | nil =>
    rw [List.nil_append]
    exact Nat.lt_succ_of_le (Nat.le_of_eq (leading_replicate 1 ha))
  | cons c cs => exact Nat.lt_of_le_of_lt (Nat.le_of_eq (leading_of_head? h)) Nat.two_pos

theorem literal_close (kind : LexemeKind) (lead n : Nat) (fault : Fault) :
    literal kind lead (.close n) fault = ⟨.token kind, lead + n, none⟩ := rfl

theorem isOneToken_string {cs : List Char} (h : Passed (stringExtent false 0 .text) cs)
    (hfirst : cs.head? ≠ some '"') : IsOneToken .string (quoted cs) :=
  .of_cut fun fresh after ha => by
    have hquotes := leading_quoted_lt hfirst ha
    show cutQuote (cs ++ ['"'] ++ after) = _
    rw [List.append_assoc, List.singleton_append, cutQuote,
      if_neg (Nat.not_le_of_lt hquotes), h.close stringExtent_quote, literal_close, Nat.zero_add,
      List.length_append]
    rfl

theorem isOneToken_interpolated {cs : List Char} (h : Passed (stringExtent true 0 .text) cs)
    (hfirst : cs.head? ≠ some '"') : IsOneToken .interpolated ('$' :: quoted cs) :=
  .of_cut fun fresh after ha => by
    have hquotes : leading '"' ('"' :: (cs ++ '"' :: after)) < 3 :=
      Nat.succ_lt_succ (leading_quoted_lt hfirst ha)
    have hdollar : leading '$' ('"' :: (cs ++ '"' :: after)) = 0 := leading_of_head? (by simp)
    show cutDollar ('"' :: (cs ++ ['"'] ++ after)) = _
    rw [List.append_assoc, List.singleton_append, cutDollar_eq, hdollar, List.drop_zero,
      afterDollars, if_neg (Nat.not_le_of_lt hquotes), if_neg (by simp), if_pos List.head?_cons,
      List.tail_cons, h.close stringExtent_quote, literal_close, quoted, List.length_cons,
      List.length_append]
    congr 1
    simp only [List.length_singleton]
    omega

theorem isOneToken_verbatim {cs : List Char} (h : Passed verbatimExtent cs) :
    IsOneToken .string ('@' :: quoted cs) :=
  .of_cut fun fresh after ha => by
    show cutAt ('"' :: (cs ++ ['"'] ++ after)) = _
    rw [List.append_assoc, List.singleton_append, cutAt, h.close (verbatimExtent_quote ha),
      literal_close, quoted, List.length_cons, List.length_append, Nat.add_comm 1]
    rfl

/-- A raw string with its quotes. -/
def RawContent.chars (r : RawContent) : List Char :=
  List.replicate r.quotes '"' ++ (r.text ++ List.replicate r.quotes '"')

theorem RawContent.cutRaw_text (r : RawContent) (interpolated : Bool) (lead : Nat)
    (after : List Char) :
    cutRaw interpolated lead r.quotes (r.text ++ (List.replicate r.quotes '"' ++ after))
      = ⟨.token (stringKind interpolated), lead + (r.text.length + r.quotes), none⟩ := by
  have hpos : r.quotes ≠ 0 := Nat.ne_of_gt (Nat.lt_of_lt_of_le (Nat.succ_pos 2) r.three)
  rw [cutRaw, rawExtent_quoted hpos r.last r.fewer, literal_close]

theorem RawContent.head?_text (r : RawContent) (after : List Char) :
    (r.text ++ after).head? ≠ some '"' := by
  rw [head?_append_of_ne_nil r.ne_nil]
  exact r.first

theorem RawContent.isOneToken_string (r : RawContent) : IsOneToken .string r.chars := by
  obtain ⟨n, hn⟩ := Nat.exists_eq_add_of_le' r.three
  have hone : r.quotes = n + 2 + 1 := hn
  rw [chars, hone, List.replicate_succ, List.cons_append, ← List.replicate_succ, ← hone]
  refine .of_cut fun fresh after ha => ?_
  have hfirst := r.head?_text (List.replicate r.quotes '"' ++ after)
  show cutQuote (List.replicate (n + 2) '"' ++ (r.text ++ List.replicate r.quotes '"') ++ after) = _
  rw [List.append_assoc, List.append_assoc, cutQuote, drop_leading_replicate (n + 2) hfirst,
    leading_replicate (n + 2) hfirst, if_pos (Nat.le_add_left 2 n), ← hone, r.cutRaw_text]
  simp only [List.length_append, List.length_replicate]
  rfl

theorem RawContent.isOneToken_interpolated (r : RawContent) (dollars : Nat) :
    IsOneToken .interpolated (List.replicate (dollars + 1) '$' ++ r.chars) := by
  rw [List.replicate_succ, List.cons_append]
  refine .of_cut fun fresh after ha => ?_
  have hfirst := r.head?_text (List.replicate r.quotes '"' ++ after)
  have hquote : (List.replicate r.quotes '"' ++ (r.text ++ (List.replicate r.quotes '"' ++
      after))).head? ≠ some '$' := by
    obtain ⟨n, hn⟩ := Nat.exists_eq_add_of_le' r.three
    rw [hn]
    exact fun h => by cases h
  show cutDollar (List.replicate dollars '$' ++ r.chars ++ after) = _
  rw [chars, List.append_assoc, List.append_assoc, List.append_assoc, cutDollar_eq,
    drop_leading_replicate dollars hquote, leading_replicate dollars hquote, afterDollars,
    drop_leading_replicate r.quotes hfirst, leading_replicate r.quotes hfirst, if_pos r.three,
    r.cutRaw_text]
  simp only [List.length_append, List.length_replicate, Nat.add_assoc]
  rfl

/-! ### Literals -/

/-- The literals of strings, but verbatim ones with holes. -/
inductive StringLiteral
  | regular (items : List StringItem)
  | verbatim (s : List Char)
  /-- A raw string, after some dollars. -/
  | raw (dollars : Nat) (content : RawContent)
  | interpolated (items : List InterpolatedItem)

namespace StringLiteral

def chars : StringLiteral → List Char
  | regular items => quoted (items.flatMap (·.chars))
  | verbatim s => '@' :: quoted (s.flatMap verbatimChar)
  | raw dollars content => List.replicate dollars '$' ++ content.chars
  | interpolated items => '$' :: quoted (items.flatMap (·.chars))

def kind : StringLiteral → LexemeKind
  | regular _ | verbatim _ | raw 0 _ => .string
  | raw (_ + 1) _ | interpolated _ => .interpolated

def text (l : StringLiteral) : String := String.ofList l.chars

theorem isOneToken (l : StringLiteral) : IsOneToken l.kind l.chars := by
  cases l with
  | regular items =>
    refine isOneToken_string (.flatMap (·.passed 0) items) ?_
    rw [← List.append_nil (items.flatMap _)]
    exact head?_items_ne items fun _ h => by cases h
  | verbatim s => exact isOneToken_verbatim (.flatMap verbatimChar_passed s)
  | raw dollars content =>
    cases dollars with
    | zero => exact content.isOneToken_string
    | succ dollars => exact content.isOneToken_interpolated dollars
  | interpolated items =>
    refine isOneToken_interpolated (.flatMap (·.passed) items) ?_
    rcases items with _ | ⟨i, items⟩
    · exact fun h => by cases h
    · cases i with
      | plain c h => exact fun hc => h.1 (Option.some.inj hc)
      | _ => exact fun h => by cases h

end StringLiteral

end Lexer

open Lexer

/-- A source starts with a token, and nothing is wrong up to the end of it. -/
structure LeadsWith (s : Source) (l : Lexeme) : Prop where
  first : (tokens s.text).head? = some ⟨l, ⟨0, l.text.utf8ByteSize⟩⟩
  faultless : ∀ d ∈ lexicalDiagnostics s, ∃ place, d.location = some place ∧
    l.text.utf8ByteSize ≤ place.offset

theorem Lexer.IsOneToken.leadsWith {kind : LexemeKind} {text : List Char}
    (h : IsOneToken kind text) (hkind : kind ≠ .identifier) {after : String}
    (ha : after.toList.head? ≠ some '"') (index : Nat) :
    LeadsWith ⟨String.ofList text ++ after, index⟩ ⟨kind, String.ofList text⟩ := by
  have hpieces : pieces true (String.ofList text ++ after).toList
      = ⟨.token kind, text, none⟩ :: pieces false after.toList := by
    rw [String.toList_append, String.toList_ofList]
    exact h true after.toList ha
  have hlexeme : (Piece.mk (.token kind) text none).lexeme? = some ⟨kind, String.ofList text⟩ := by
    cases kind with
    | identifier => exact absurd rfl hkind
    | _ => rfl
  refine ⟨?_, fun d hd => ?_⟩
  · rw [tokens, hpieces, tokensFrom, hlexeme]
    dsimp only [List.head?_cons]
    rw [Slice.utf8ByteSize_ofList, Nat.zero_add]
  · rw [lexicalDiagnostics, hpieces, faultsFrom, faultsFrom_eq] at hd
    obtain ⟨⟨f, span⟩, hf, rfl⟩ := List.mem_map.1 hd
    obtain ⟨x, hx, hfault⟩ := List.mem_filterMap.1 hf
    obtain ⟨_, -, hspan⟩ := Option.map_eq_some_iff.1 hfault
    have hstart := le_start_of_mem_placed hx
    rw [(Prod.mk.inj hspan).2, Nat.zero_add, ← Slice.utf8ByteSize_ofList] at hstart
    exact ⟨_, rfl, hstart⟩

/-- **A string literal is one token, whatever it holds.**  Before any text that does not start
with a quote, a source starts with the literal as its first token, of the kind of the literal, and
nothing is reported before the end of it. -/
theorem stringLiteral_leads (l : StringLiteral) (after : String)
    (h : after.toList.head? ≠ some '"') (index : Nat) :
    LeadsWith ⟨l.text ++ after, index⟩ ⟨l.kind, l.text⟩ := by
  refine l.isOneToken.leadsWith ?_ h index
  cases l with
  | raw dollars content => cases dollars <;> exact fun hk => by cases hk
  | _ => exact fun hk => by cases hk

/-- A hole holds a string with the brace that would end it. -/
theorem stringLiteral_leads_hole :
    let code : Hole IsText := .char 'f' (by decide) (.string [.plain '\x7d' (by decide)] .nil)
    let l := StringLiteral.interpolated [.opening, .hole code (by decide)]
    l.text = "$\"\x7b\x7b\x7bf\"\x7d\"\x7d\"" ∧ (";").toList.head? ≠ some '"' ∧
      LeadsWith ⟨l.text ++ ";", 0⟩ ⟨.interpolated, l.text⟩ := by
  intro code l
  exact ⟨rfl, by decide, stringLiteral_leads l ";" (by decide) 0⟩

end Outline
