/-
# Reading on one line

What is read of a string after its first quote, verbatim and raw strings apart, is characters, some
of them after a backslash, and nested strings.  It stops at a line feed, unless a backslash right
before it takes it along, and only in a nested string it does.  So the shape of what was read says
where its line feeds are (`LineContent.newline_mem_iff`).  In a character literal a backslash takes
any character along.

| what is read, with `⏎` for a line feed | its shape |
| --- | --- |
| `ab"` | two characters, closed |
| `a\⏎` | a character, cut after a backslash |
| `{"b\⏎"}"` | a character, a string with a line feed, a character, closed |
| `{"b⏎` | a character, cut in a string |
-/

import Mathlib.Data.List.TakeWhile
import Outline.Proofs.Lexer.Strings

namespace Outline
namespace Lexer

/-! ### Shapes of strings -/

/-- What stands for a character in a string that is nested in a literal.  A backslash takes any
character with it, also a line feed. -/
inductive NestedItem
  | item (i : StringItem)
  | lineBreak

def NestedItem.chars : NestedItem → List Char
  | item i => i.chars
  | lineBreak => ['\\', '\n']

/-- What stands in a string of one line: what stands for a character, or a string. -/
inductive LinePart
  | item (i : StringItem)
  | nested (items : List NestedItem)

def LinePart.chars : LinePart → List Char
  | item i => i.chars
  | nested items => quoted (items.flatMap (·.chars))

/-- The end of a string of one line. -/
inductive LineEnd
  | closed
  /-- The line ends first, maybe right after a backslash. -/
  | cut (backslash : Bool)
  /-- The line ends first, in a nested string. -/
  | cutNested (items : List NestedItem) (backslash : Bool)

/-- A backslash at the end of a line. -/
def lastBackslash (backslash : Bool) : List Char := if backslash then ['\\'] else []

def LineEnd.chars : LineEnd → List Char
  | closed => ['"']
  | cut backslash => lastBackslash backslash
  | cutNested items backslash => '"' :: (items.flatMap (·.chars) ++ lastBackslash backslash)

def LinePart.strings : LinePart → List (List NestedItem)
  | item _ => []
  | nested items => [items]

def LineEnd.strings : LineEnd → List (List NestedItem)
  | cutNested items _ => [items]
  | _ => []

/-- What stands after the first quote of a string of one line. -/
structure LineContent where
  parts : List LinePart
  ending : LineEnd

namespace LineContent

def chars (l : LineContent) : List Char := l.parts.flatMap (·.chars) ++ l.ending.chars

/-- The strings that are nested in a literal. -/
def strings (l : LineContent) : List (List NestedItem) :=
  l.parts.flatMap (·.strings) ++ l.ending.strings

/-- A string of one line with another part before it. -/
def cons (p : LinePart) (l : LineContent) : LineContent := ⟨p :: l.parts, l.ending⟩

theorem chars_cons (p : LinePart) (l : LineContent) : (l.cons p).chars = p.chars ++ l.chars := by
  rw [chars, cons, List.flatMap_cons, List.append_assoc]
  rfl

end LineContent

theorem StringItem.newline_not_mem (i : StringItem) : '\n' ∉ i.chars := by
  cases i with
  | plain c h => exact fun hmem => h.2.2 (List.mem_singleton.1 hmem).symm
  | escaped c h =>
    rw [chars, List.mem_cons, List.mem_singleton]
    rintro (hback | hc)
    · exact absurd hback (by decide)
    · exact h hc.symm

theorem newline_not_mem_lastBackslash (backslash : Bool) : '\n' ∉ lastBackslash backslash := by
  cases backslash <;> decide

theorem newline_mem_items_iff (items : List NestedItem) :
    '\n' ∈ items.flatMap (·.chars) ↔ NestedItem.lineBreak ∈ items := by
  rw [List.mem_flatMap]
  constructor
  · rintro ⟨i, hi, hmem⟩
    cases i with
    | item i => exact absurd hmem i.newline_not_mem
    | lineBreak => exact hi
  · exact fun h => ⟨_, h, by decide⟩

theorem LinePart.newline_mem_iff (p : LinePart) :
    '\n' ∈ p.chars ↔ ∃ items ∈ p.strings, NestedItem.lineBreak ∈ items := by
  cases p with
  | item i => exact iff_of_false i.newline_not_mem fun ⟨_, h, _⟩ => absurd h List.not_mem_nil
  | nested items => simp [chars, strings, quoted, ← newline_mem_items_iff]

theorem LineEnd.newline_mem_iff (e : LineEnd) :
    '\n' ∈ e.chars ↔ ∃ items ∈ e.strings, NestedItem.lineBreak ∈ items := by
  cases e with
  | closed => simp [chars, strings]
  | cut backslash => simp [chars, strings, newline_not_mem_lastBackslash]
  | cutNested items backslash =>
    simp [chars, strings, newline_not_mem_lastBackslash, ← newline_mem_items_iff]

/-- **The line feeds of a string of one line** are in the strings nested in it. -/
theorem LineContent.newline_mem_iff (l : LineContent) :
    '\n' ∈ l.chars ↔ ∃ items ∈ l.strings, NestedItem.lineBreak ∈ items := by
  simp only [chars, strings, List.mem_append, List.mem_flatMap, LinePart.newline_mem_iff,
    LineEnd.newline_mem_iff]
  constructor
  · rintro (⟨p, hp, items, hitems, hbreak⟩ | ⟨items, hitems, hbreak⟩)
    · exact ⟨items, .inl ⟨p, hp, hitems⟩, hbreak⟩
    · exact ⟨items, .inr hitems, hbreak⟩
  · rintro ⟨items, ⟨p, hp, hitems⟩ | hitems, hbreak⟩
    · exact .inl ⟨p, hp, items, hitems, hbreak⟩
    · exact .inr ⟨items, hitems, hbreak⟩

/-! ### Reading strings -/

/-- The line is over where a text goes on, if it does. -/
abbrev EndsLineAt (after : List Char) : Prop := Follows (· == '\n') after

/-- A string was read: what it took, whether its end was found, and what comes next. -/
def TakesLine (interpolated : Bool) (text : List Char) (closed : Bool) (after : List Char) : Prop :=
  ∃ l : LineContent, l.chars = text ∧ (closed = true ↔ l.ending = .closed) ∧
    (closed = false → EndsLineAt after) ∧ (interpolated = false → l.strings = [])

/-- The same from inside of a nested string on. -/
def TakesNested (interpolated : Bool) (text : List Char) (closed : Bool) (after : List Char) :
    Prop :=
  ∃ (items : List NestedItem) (rest : List Char), text = items.flatMap (·.chars) ++ rest ∧
    ((∃ backslash, rest = lastBackslash backslash ∧ closed = false ∧ EndsLineAt after) ∨
      ∃ behind, rest = '"' :: behind ∧ TakesLine interpolated behind closed after)

variable {interpolated : Bool} {text after : List Char} {closed : Bool}

theorem TakesLine.cut (backslash : Bool) (h : EndsLineAt after) :
    TakesLine interpolated (lastBackslash backslash) false after :=
  ⟨⟨[], .cut backslash⟩, rfl, iff_of_false Bool.false_ne_true (fun h => by cases h), fun _ => h,
    fun _ => rfl⟩

theorem TakesLine.close : TakesLine interpolated ['"'] true after :=
  ⟨⟨[], .closed⟩, rfl, iff_of_true rfl rfl, fun h => (by cases h), fun _ => rfl⟩

theorem TakesLine.item (i : StringItem) (h : TakesLine interpolated text closed after) :
    TakesLine interpolated (i.chars ++ text) closed after := by
  obtain ⟨l, hl, hclosed, hends, hstrings⟩ := h
  exact ⟨l.cons (.item i), by rw [LineContent.chars_cons, hl]; rfl, hclosed, hends, hstrings⟩

theorem TakesNested.cut (backslash : Bool) (h : EndsLineAt after) :
    TakesNested interpolated (lastBackslash backslash) false after :=
  ⟨[], _, rfl, .inl ⟨backslash, rfl, rfl, h⟩⟩

theorem TakesNested.item (i : NestedItem) (h : TakesNested interpolated text closed after) :
    TakesNested interpolated (i.chars ++ text) closed after := by
  obtain ⟨items, rest, rfl, hrest⟩ := h
  exact ⟨i :: items, rest, by rw [List.flatMap_cons, List.append_assoc], hrest⟩

theorem TakesNested.quote (h : TakesLine interpolated text closed after) :
    TakesNested interpolated ('"' :: text) closed after :=
  ⟨[], _, rfl, .inr ⟨text, rfl, h⟩⟩

/-- What is read from inside of a nested string on is read from before its first quote on. -/
theorem TakesLine.nested (h : TakesNested true text closed after) :
    TakesLine true ('"' :: text) closed after := by
  obtain ⟨items, rest, rfl, ⟨backslash, rfl, rfl, hends⟩ | ⟨behind, rfl, hline⟩⟩ := h
  · exact ⟨⟨[], .cutNested items backslash⟩, rfl,
      iff_of_false Bool.false_ne_true (fun h => by cases h), fun _ => hends, fun h => by cases h⟩
  · obtain ⟨l, rfl, hclosed, hends, -⟩ := hline
    refine ⟨l.cons (.nested items), ?_, hclosed, hends, fun h => by cases h⟩
    rw [LineContent.chars_cons]
    simp [LinePart.chars, quoted]

/-- What is said of an extent, said of the characters that it takes and those after them. -/
def Extent.Splits (e : Extent) (cs : List Char) (P : List Char → Bool → List Char → Prop) : Prop :=
  P (cs.take e.length) e.closed (cs.drop e.length)

theorem Extent.Splits.grow {e : Extent} {cs : List Char} {P : List Char → Bool → List Char → Prop}
    (front : List Char) (h : e.Splits cs fun text => P (front ++ text)) :
    (e.grow front.length).Splits (front ++ cs) P := by
  rw [Splits, grow_length, List.take_length_add_append, List.drop_length_add_append]
  exact h

/-- Reading a string of one line, from its text or from a nested string on. -/
structure Reading (interpolated : Bool) (cs : List Char) : Prop where
  text : ∀ holes, (interpolated = false → holes = 0) →
    (stringExtent interpolated holes .text cs).Splits cs (TakesLine interpolated)
  nested : ∀ holes, (interpolated = false → holes = 0) →
    (stringExtent interpolated holes .nested cs).Splits cs (TakesNested interpolated)

theorem endsLineAt_nil : EndsLineAt [] := fun _ h => by cases h

theorem endsLineAt_cons (cs : List Char) : EndsLineAt ('\n' :: cs) := follows_cons.2 rfl

theorem Reading.nil : Reading interpolated [] :=
  ⟨fun holes _ => by rw [stringExtent]; exact .cut false endsLineAt_nil,
    fun holes _ => by rw [stringExtent]; exact .cut false endsLineAt_nil⟩

variable {c : Char} {cs : List Char}

/-- A nested string goes on after a character, or after two if the first is a backslash. -/
theorem Reading.nested_cons (h : Reading interpolated cs)
    (hnext : ∀ d ds, cs = d :: ds → Reading interpolated ds) (holes : Nat)
    (hholes : interpolated = false → holes = 0) :
    (stringExtent interpolated holes .nested (c :: cs)).Splits (c :: cs)
      (TakesNested interpolated) := by
  rw [stringExtent]
  split_ifs with hline hback hquote
  · subst hline
    exact .cut false (endsLineAt_cons cs)
  · subst hback
    cases cs with
    | nil => exact .grow ['\\'] (TakesNested.cut true endsLineAt_nil)
    | cons d ds =>
      rw [stringExtent, Extent.grow_grow]
      refine .grow ['\\', d] ?_
      by_cases hd : d = '\n'
      · subst hd
        exact ((hnext _ ds rfl).nested holes hholes).item .lineBreak
      · exact ((hnext d ds rfl).nested holes hholes).item (.item (.escaped d hd))
  · subst hquote
    exact .grow ['"'] (.quote (h.text holes hholes))
  · exact .grow [c] ((h.nested holes hholes).item (.item (.plain c ⟨hquote, hback, hline⟩)))

/-- A string goes on after a character, or after two if the first is a backslash or a brace that
is doubled. -/
theorem Reading.text_cons (h : Reading interpolated cs)
    (hnext : ∀ d ds, cs = d :: ds → Reading interpolated ds) (holes : Nat)
    (hholes : interpolated = false → holes = 0) :
    (stringExtent interpolated holes .text (c :: cs)).Splits (c :: cs)
      (TakesLine interpolated) := by
  by_cases hline : c = '\n'
  · rw [stringExtent, if_pos hline, hline]
    exact .cut false (endsLineAt_cons cs)
  by_cases hback : c = '\\'
  · subst hback
    rcases cs with _ | ⟨d, ds⟩
    · exact .grow ['\\'] (TakesLine.cut true endsLineAt_nil)
    · by_cases hd : d = '\n'
      · subst hd
        exact .grow ['\\'] (TakesLine.cut true (endsLineAt_cons ds))
      · rw [stringExtent_escaped hd]
        exact .grow ['\\', d] (((hnext d ds rfl).text holes hholes).item (.escaped d hd))
  by_cases hquote : c = '"'
  · subst hquote
    by_cases hzero : holes = 0
    · subst hzero
      rw [stringExtent_quote]
      exact TakesLine.close
    · -- only a string with holes has one open
      have hone : interpolated = true := by
        cases interpolated with
        | false => exact absurd (hholes rfl) hzero
        | true => rfl
      subst hone
      rw [stringExtent_quote_hole hzero]
      exact .grow ['"'] (.nested (h.nested holes hholes))
  let i : StringItem := .plain c ⟨hquote, hback, hline⟩
  by_cases hbrace : interpolated = true ∧ (c = '\x7b' ∨ c = '\x7d')
  · obtain ⟨rfl, rfl | rfl⟩ := hbrace
    · by_cases hdouble : holes = 0 ∧ cs.head? = some '\x7b'
      · obtain ⟨rfl, hhead⟩ := hdouble
        obtain ⟨ds, rfl⟩ := List.head?_eq_some_iff.1 hhead
        rw [stringExtent_doubled]
        exact .grow ['\x7b', '\x7b'] ((((hnext _ ds rfl).text 0 hholes).item i).item i)
      · rw [stringExtent_opening fun hzero hhead => hdouble ⟨hzero, hhead⟩]
        exact .grow ['\x7b'] ((h.text (holes + 1) fun hi => by cases hi).item i)
    · rw [stringExtent_closing]
      exact .grow ['\x7d'] ((h.text (holes - 1) fun hi => by cases hi).item i)
  · rw [stringExtent_plain ⟨hquote, hback, hline⟩ fun hi =>
      ⟨fun hc => hbrace ⟨hi, .inl hc⟩, fun hc => hbrace ⟨hi, .inr hc⟩⟩]
    exact .grow [c] ((h.text holes hholes).item i)

/-- **A string that is neither verbatim nor raw ends on its line**, whatever comes after its first
quote. -/
theorem reading (interpolated : Bool) : ∀ cs, Reading interpolated cs
  | [] => .nil
  | [_] => by
    have hnext : ∀ d ds, [] = d :: ds → Reading interpolated ds := fun d ds h => by cases h
    exact ⟨Reading.nil.text_cons hnext, Reading.nil.nested_cons hnext⟩
  | _ :: d :: ds => by
    have hrest := reading interpolated (d :: ds)
    have hnext : ∀ e es, d :: ds = e :: es → Reading interpolated es := fun e es h => by
      rw [← (List.cons.inj h).2]
      exact reading interpolated ds
    exact ⟨hrest.text_cons hnext, hrest.nested_cons hnext⟩

/-! ### Reading characters -/

/-- Only a backslash takes a line feed into a character. -/
theorem newline_mem_charContent {cs : List Char} (h : '\n' ∈ cs.take (charContent cs)) :
    cs.take (charContent cs) = ['\\', '\n'] := by
  fun_cases charContent cs with
  | case1 => cases h
  | case2 => exact absurd h (by decide)
  | case3 d cs =>
    have hd : '\n' = d := by simpa [charContent] using h
    rw [← hd]
    rfl
  | case4 => cases h
  | case5 c cs h1 h2 h3 =>
    rw [charContent.eq_5 c cs h1 h2 h3] at h
    exact absurd (List.mem_singleton.1 h).symm h3

/-- What a character literal takes after its first quote, how it ends, and what comes next. -/
structure CharacterLine (text : List Char) (ending : CharEnd) (after : List Char) : Prop where
  newline : '\n' ∈ text → ∃ more, text = '\\' :: '\n' :: more ∧ '\n' ∉ more
  cut : ending = .cut → EndsLineAt after
  closed : ending ≠ .cut → ∃ inside, text = inside ++ ['\'']

theorem newline_mem_append {content more : List Char}
    (hcontent : '\n' ∈ content → content = ['\\', '\n']) (hmore : '\n' ∉ more)
    (h : '\n' ∈ content ++ more) :
    ∃ rest, content ++ more = '\\' :: '\n' :: rest ∧ '\n' ∉ rest := by
  rcases List.mem_append.1 h with h | h
  · exact ⟨more, by rw [hcontent h]; rfl, hmore⟩
  · exact absurd h hmore

/-- The rest of a line up to the next apostrophe. -/
theorem exists_stretch (cs : List Char) : ∃ more rest, cs = more ++ rest ∧
    (cs.takeWhile fun c => c ≠ '\n' && c ≠ '\'').length = more.length ∧ '\n' ∉ more ∧
      ∀ c ∈ rest.head?, c = '\n' ∨ c = '\'' := by
  refine ⟨_, _, List.takeWhile_append_dropWhile.symm, rfl, fun h => ?_, fun c hc => ?_⟩
  · simpa using List.mem_takeWhile_imp h
  · have hstop := List.head?_dropWhile_not (fun c => c ≠ '\n' && c ≠ '\'') cs
    rw [Option.mem_def.1 hc] at hstop
    by_cases hline : c = '\n'
    · exact .inl hline
    · exact .inr (by simpa [hline] using hstop)

/-- **A character literal ends on its line**, but for a line feed right after a backslash. -/
theorem characterLine (cs : List Char) :
    CharacterLine (cs.take (charExtent cs).1) (charExtent cs).2 (cs.drop (charExtent cs).1) := by
  obtain ⟨content, after, hcs, hlength, hcontent⟩ : ∃ content after, cs = content ++ after ∧
      charContent cs = content.length ∧ ('\n' ∈ content → content = ['\\', '\n']) :=
    ⟨_, _, (List.take_append_drop (charContent cs) cs).symm,
      by rw [List.length_take, Nat.min_eq_left (charContent_le cs)], newline_mem_charContent⟩
  obtain ⟨more, rest, hafter, hstretch, hmore, hrest⟩ := exists_stretch after
  have hquote : '\n' ∉ ['\''] := by decide
  unfold charExtent
  dsimp only
  rw [hlength, hcs, List.drop_left, hstretch]
  split
  · rename_i h
    obtain ⟨behind, rfl⟩ := List.head?_eq_some_iff.1 h
    rw [List.take_length_add_append, List.drop_length_add_append]
    exact ⟨newline_mem_append hcontent hquote, fun h => (by cases h), fun _ => ⟨content, rfl⟩⟩
  rw [hafter, List.drop_left, ← List.length_append, ← List.append_assoc]
  split
  · rename_i h
    obtain ⟨behind, rfl⟩ := List.head?_eq_some_iff.1 h
    rw [List.take_length_add_append, List.drop_length_add_append]
    refine ⟨?_, fun h => (by cases h), fun _ => ⟨content ++ more, rfl⟩⟩
    rw [List.append_assoc]
    exact newline_mem_append hcontent fun h => (List.mem_append.1 h).elim hmore hquote
  · rename_i h
    rw [List.take_left, List.drop_left]
    refine ⟨newline_mem_append hcontent hmore, fun _ c hc => ?_, fun h => absurd rfl h⟩
    rcases hrest c hc with rfl | rfl
    · rfl
    · exact absurd hc h

end Lexer
end Outline
