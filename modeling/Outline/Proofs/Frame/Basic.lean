/-
# Lexemes within more lexemes

A source is often a part of a longer one.  Its lexemes then stand in a *frame*: some stand
before, and some after.  A parser that finds no fault and stops where a closing brace or a
semicolon is still ahead does not see the frame: in it, the parser comes to the same, with
all edges moved by the number of lexemes before (`Frame.Carries`).

| parser | why it does not see what is after |
| --- | --- |
| a look at the next lexemes | the second is looked at after no brace and no semicolon |
| `skipOpened`, `skipExpression`, `skipToBody` | they stop at what they stopped at |
| `angleLength` | it gives up at braces and semicolons |
| `modifiers` | a brace and a semicolon are no modifiers |

Faults are left out because of the place of the token before the first one, which there is
in a frame only.
-/

import Outline.Proofs.Parser.Loops

namespace Outline
namespace Parser

/-- What stands around the lexemes of a source within a longer one. -/
structure Frame where
  /-- How many lexemes stand before. -/
  before : Nat
  /-- The lexemes after, which do not go on with what a closing brace ended. -/
  after : List Lexeme
  starts : after.head?.any (·.isPunct ";") = false

/-- What no lookahead goes beyond. -/
def closers : List String := ["\x7d", ";"]

namespace Frame

variable (f : Frame)

/-- An edge in the frame. -/
def edge : Edge → Edge
  | .start i => .start (f.before + i)
  | .stop i => .stop (f.before + i)

/-- A mark in the frame. -/
def mark (m : Mark) : Mark := ⟨f.edge m.first, f.edge m.last⟩

/-- A finding in the frame. -/
def finding (x : Finding) : Finding := ⟨x.cause, f.mark x.mark⟩

/-- A cursor in the frame. -/
def cursor (c : Cursor) : Cursor := ⟨f.before + c.index, c.ahead ++ f.after⟩

/-- A step in the frame. -/
def step {α β : Type} (g : α → β) (s : Step α) : Step β :=
  ⟨g s.value, f.cursor s.rest, s.found.map f.finding⟩

/-- The lexemes after are not seen from a cursor: there are none, or a closer stands before
them. -/
def Unseen (c : Cursor) : Prop := f.after = [] ∨ c.ahead.any (·.isOneOf closers) = true

variable {f}

/-- A closer that is ahead of a later cursor is ahead of an earlier one. -/
theorem Unseen.of_suffix {c d : Cursor} (h : f.Unseen d) (hs : d.ahead <:+ c.ahead) :
    f.Unseen c :=
  h.imp id fun hd => by
    obtain ⟨l, hl, hc⟩ := List.any_eq_true.1 hd
    exact List.any_eq_true.2 ⟨l, hs.subset hl, hc⟩

/-- Where nothing is ahead any more there is nothing after either. -/
theorem Unseen.ahead_ne_nil {c : Cursor} (h : f.Unseen c) : c.ahead ≠ [] ∨ f.after = [] :=
  h.symm.imp (fun hc hn => by rw [hn] at hc; cases hc) id

theorem Unseen.after_eq_nil {c : Cursor} (h : f.Unseen c) (hc : c.ahead = []) : f.after = [] :=
  h.ahead_ne_nil.resolve_left fun hne => hne hc

/-- The next lexeme is the same in the frame. -/
theorem Unseen.head? {c : Cursor} (h : f.Unseen c) : (f.cursor c).head? = c.head? := by
  obtain ⟨i, ls⟩ := c
  cases ls with
  | nil => simp [cursor, Cursor.head?, h.after_eq_nil rfl]
  | cons l ls => rfl

/-- A step over a lexeme leads to the same place in the frame. -/
theorem cursor_next {c : Cursor} (h : c.ahead ≠ [] ∨ f.after = []) :
    (f.cursor c).next = f.cursor c.next := by
  obtain ⟨i, ls⟩ := c
  cases ls with
  | nil =>
    have hn : f.after = [] := h.resolve_left fun hne => hne rfl
    simp [cursor, Cursor.next, hn]
  | cons l ls => rfl

/-- A closer that is not the first lexeme stands behind it. -/
theorem any_closers_of_cons {l : Lexeme} {ls : List Lexeme}
    (h : (l :: ls).any (·.isOneOf closers) = true) (hl : l.isOneOf closers = false) :
    ls.any (·.isOneOf closers) = true := by
  rwa [List.any_cons, hl, Bool.false_or] at h

/-- Past a lexeme that is no closer nothing more is seen. -/
theorem Unseen.next {c : Cursor} (h : f.Unseen c) (hc : c.atOneOf closers = false) :
    f.Unseen c.next := by
  obtain ⟨i, ls⟩ := c
  cases ls with
  | nil => exact h
  | cons l ls => exact h.imp id fun ha => any_closers_of_cons ha hc

/-! ### Looking -/

variable (f) in
/-- What is seen from a cursor is seen in the frame. -/
def Sees {γ : Type} (k : Cursor → γ) : Prop := ∀ c, f.Unseen c → k (f.cursor c) = k c

theorem sees_head? : f.Sees Cursor.head? := fun _ h => h.head?

/-- What is asked of the next lexeme alone does not depend on the frame. -/
theorem sees_any (p : Lexeme → Bool) : f.Sees fun c => c.head?.any p := fun _ h =>
  congrArg (Option.any p) h.head?

theorem sees_atPunct (p : String) : f.Sees (·.atPunct p) := sees_any _

theorem sees_atOneOf (ps : List String) : f.Sees (·.atOneOf ps) := sees_any _

theorem sees_atKeyword (k : String) : f.Sees (·.atKeyword k) := sees_any _

theorem sees_atWord (w : String) : f.Sees (·.atWord w) := sees_any _

theorem sees_atName : f.Sees Cursor.atName := sees_any _

theorem sees_text : f.Sees Cursor.text := fun _ h => by rw [Cursor.text, Cursor.text, h.head?]

theorem sees_atEnd : f.Sees Cursor.atEnd := by
  rintro ⟨i, _ | ⟨l, ls⟩⟩ h
  · simp [cursor, h.after_eq_nil rfl, Cursor.atEnd]
  · rfl

namespace Sees

variable {x y : Cursor → Bool}

theorem or (hx : f.Sees x) (hy : f.Sees y) : f.Sees fun c => x c || y c := fun c h => by
  simp only [hx c h, hy c h]

theorem and (hx : f.Sees x) (hy : f.Sees y) : f.Sees fun c => x c && y c := fun c h => by
  simp only [hx c h, hy c h]

theorem not (hx : f.Sees x) : f.Sees fun c => !x c := fun c h => congrArg Bool.not (hx c h)

/-- What is looked for at the second lexeme only after the first is no closer. -/
theorem andNext (hx : f.Sees x) (hc : ∀ c, x c = true → c.atOneOf closers = false)
    (hy : f.Sees y) : f.Sees fun c => x c && y c.next := by
  intro c h
  dsimp only
  rw [hx c h]
  cases hxc : x c with
  | false => rfl
  | true => rw [cursor_next h.ahead_ne_nil, hy _ (h.next (hc c hxc))]

end Sees

/-- A lexeme that is known to be something else is no closer, so the one after it may be looked
at. -/
theorem not_closer_of_any {p : Lexeme → Bool} (hp : ∀ l, p l = true → l.isOneOf closers = false)
    (c : Cursor) (h : c.head?.any p = true) : c.atOneOf closers = false := by
  obtain ⟨l, hl, hpl⟩ := Cursor.exists_head?_of_any h
  rw [Cursor.atOneOf, hl]
  exact hp l hpl

/-- Only punctuation is one of some marks. -/
theorem isOneOf_of_kind {l : Lexeme} {ps : List String} (h : l.kind ≠ .punct) :
    l.isOneOf ps = false := by
  simp [Lexeme.isOneOf, h]

/-- A mark is none of marks that it is not among. -/
theorem isOneOf_of_isPunct_not_mem {l : Lexeme} {p : String} {ps : List String}
    (h : l.isPunct p = true) (hp : p ∉ ps) : l.isOneOf ps = false := by
  simp only [Lexeme.isPunct, Bool.and_eq_true, beq_iff_eq] at h
  simp [Lexeme.isOneOf, h.1, h.2, hp]

theorem not_closer_of_atPunct {p : String} (hp : p ∉ closers) (c : Cursor)
    (h : c.atPunct p = true) : c.atOneOf closers = false :=
  not_closer_of_any (fun _ hl => isOneOf_of_isPunct_not_mem hl hp) c h

theorem not_closer_of_atOneOf {ps : List String} (hp : ∀ p ∈ ps, p ∉ closers) (c : Cursor)
    (h : c.atOneOf ps = true) : c.atOneOf closers = false :=
  not_closer_of_any (fun l hl => by
    simp only [Lexeme.isOneOf, Bool.and_eq_true, List.contains_iff_mem] at hl
    simp [Lexeme.isOneOf, hp _ hl.2]) c h

theorem not_closer_of_atKeyword {k : String} (c : Cursor) (h : c.atKeyword k = true) :
    c.atOneOf closers = false :=
  not_closer_of_any (fun l hl => isOneOf_of_kind (by simp_all [Lexeme.isKeyword])) c h

theorem not_closer_of_atWord {w : String} (c : Cursor) (h : c.atWord w = true) :
    c.atOneOf closers = false :=
  not_closer_of_any (fun l hl => isOneOf_of_kind (by simp_all [Lexeme.isWord])) c h

theorem not_closer_of_atName (c : Cursor) (h : c.atName = true) : c.atOneOf closers = false :=
  not_closer_of_any (fun l hl => isOneOf_of_kind (by simp_all [Lexeme.isName])) c h

/-- What is not next at a closer. -/
theorem eq_false_of_closer {k : Cursor → Bool} {c : Cursor} (h : c.atOneOf closers = true)
    (hk : ∀ d, k d = true → d.atOneOf closers = false) : k c = false :=
  Bool.eq_false_iff.2 fun hc => Bool.false_ne_true ((hk c hc).symm.trans h)

/-! ### Carrying over -/

variable {α β γ δ : Type}

/-- A parser leaves an end of what was ahead of it. -/
theorem suffix_of_passes {c d : Cursor} {ls : List Lexeme} (h : c.Passes ls d) :
    d.ahead <:+ c.ahead := ⟨ls, h.ahead.symm⟩

theorem step_before {g : α → β} (s : Step α) (found : List Finding) :
    f.step g (s.before found) = (f.step g s).before (found.map f.finding) := by
  simp [step, Step.before]

/-- Two parsers, one after the other, in the frame. -/
theorem bind_step {g : α → β} {h : γ → δ} {p : Parser α} {q : Parser β} {k : α → Parser γ}
    {k' : β → Parser δ} {c : Cursor} (hp : q (f.cursor c) = f.step g (p c))
    (hk : k' (g (p c).value) (f.cursor (p c).rest) = f.step h (k (p c).value (p c).rest)) :
    (q >>= k') (f.cursor c) = f.step h ((p >>= k) c) := by
  rw [bind_apply, hp, bind_apply, step_before, ← hk]
  rfl

variable (f) in
/-- From a cursor a parser `p` comes to the same as `q` does in the frame, where `g` puts
the value into the frame. -/
structure CarriesAt (g : α → β) (p : Parser α) (q : Parser β) (c : Cursor) : Prop where
  suffix : (p c).rest.ahead <:+ c.ahead
  eq : f.Unseen (p c).rest → hasFault (p c).found = false → q (f.cursor c) = f.step g (p c)

variable (f) in
/-- A parser `p` comes to the same as `q` does in the frame. -/
def Carries (g : α → β) (p : Parser α) (q : Parser β) : Prop := ∀ c, f.CarriesAt g p q c

/-- A report of a fault is a fault wherever it stands. -/
theorem hasFault_reportHere {cause : Cause} (h : cause.isFault = true) (c : Cursor) :
    hasFault (reportHere cause c).found = true := by
  simp [reportHere, bind_apply, look, report, Step.before, hasFault, h]

namespace CarriesAt

variable {g : α → β} {h : γ → δ} {p : Parser α} {q : Parser β} {c : Cursor}

/-- If the whole ends before a closer, its first part does too: what is left later is an end of
what was left before. -/
theorem bind {k : α → Parser γ} {k' : β → Parser δ} (hp : f.CarriesAt g p q c)
    (hk : f.CarriesAt h (k (p c).value) (k' (g (p c).value)) (p c).rest) :
    f.CarriesAt h (p >>= k) (q >>= k') c := by
  refine ⟨hk.suffix.trans hp.suffix, fun hu hf => ?_⟩
  obtain ⟨hfirst, hsecond⟩ := hasFault_append_eq_false.1 hf
  exact bind_step (hp.eq (hu.of_suffix hk.suffix) hfirst) (hk.eq hu hsecond)

theorem ite {b : Prop} [Decidable b] {p' : Parser α} {q' : Parser β}
    (ht : b → f.CarriesAt g p q c) (he : ¬b → f.CarriesAt g p' q' c) :
    f.CarriesAt g (if b then p else p') (if b then q else q') c := by
  split
  · exact ht ‹_›
  · exact he ‹_›

end CarriesAt

namespace Carries

variable {g : α → β} {h : γ → δ} {p : Parser α} {q : Parser β}

theorem pure (a : α) : f.Carries g (Pure.pure a : Parser α) (Pure.pure (g a)) := fun _ =>
  ⟨List.suffix_refl _, fun _ _ => rfl⟩

theorem bind {k : α → Parser γ} {k' : β → Parser δ} (hp : f.Carries g p q)
    (hk : ∀ a, f.Carries h (k a) (k' (g a))) : f.Carries h (p >>= k) (q >>= k') := fun c =>
  (hp c).bind (hk _ _)

theorem ite {b : Prop} [Decidable b] {p' : Parser α} {q' : Parser β} (ht : f.Carries g p q)
    (he : f.Carries g p' q') : f.Carries g (if b then p else p') (if b then q else q') := fun c =>
  .ite (fun _ => ht c) fun _ => he c

theorem map {k : α → γ} {k' : β → δ} (hp : f.Carries g p q) (hk : ∀ a, k' (g a) = h (k a)) :
    f.Carries h (p >>= fun a => Pure.pure (k a)) (q >>= fun b => Pure.pure (k' b)) :=
  hp.bind fun a => by rw [hk]; exact pure (k a)

theorem look {k : Cursor → γ} {k' : Cursor → δ}
    (hk : ∀ c, f.Unseen c → k' (f.cursor c) = h (k c)) :
    f.Carries h (Parser.look k) (Parser.look k') := fun c =>
  ⟨List.suffix_refl _, fun hu _ => by simp [Parser.look, step, hk c hu]⟩

theorem see {k : Cursor → γ} (hk : f.Sees k) : f.Carries id (Parser.look k) (Parser.look k) :=
  look hk

theorem index : f.Carries (f.before + ·) (Parser.look (·.index)) (Parser.look (·.index)) :=
  look fun _ _ => rfl

theorem advance : f.Carries id Parser.advance Parser.advance := fun c => by
  refine ⟨suffix_of_passes c.passes_next, fun hu _ => ?_⟩
  have hn : c.ahead ≠ [] ∨ f.after = [] := by
    obtain ⟨i, _ | ⟨l, ls⟩⟩ := c
    · exact hu.ahead_ne_nil
    · exact .inl (List.cons_ne_nil _ _)
  exact congrArg (Step.mk () · []) (cursor_next hn)

theorem report (cause : Cause) (m : Mark) :
    f.Carries id (Parser.report cause m) (Parser.report cause (f.mark m)) := fun _ =>
  ⟨List.suffix_refl _, fun _ _ => rfl⟩

/-- Of a report of a fault nothing is asked. -/
theorem of_fault (hs : ∀ c, (p c).rest.ahead <:+ c.ahead)
    (hf : ∀ c, hasFault (p c).found = true) : f.Carries g p q := fun c =>
  ⟨hs c, fun _ hn => by rw [hf c] at hn; cases hn⟩

theorem reportMissing (e : Expected) :
    f.Carries id (Parser.reportMissing e) (Parser.reportMissing e) :=
  of_fault (fun _ => List.suffix_refl _) fun _ => rfl

theorem reportHere {cause : Cause} (h : cause.isFault = true) :
    f.Carries id (Parser.reportHere cause) (Parser.reportHere cause) :=
  of_fault (fun _ => List.suffix_refl _) (hasFault_reportHere h)

theorem need (x : Language.Feature) (e : Edge) :
    f.Carries id (Parser.need x e) (Parser.need x (f.edge e)) := report _ _

/-- A branch on what is seen. -/
theorem lookIf {k : Cursor → Bool} {p' : Parser α} {q' : Parser β} (hk : f.Sees k)
    (ht : f.Carries g p q) (he : f.Carries g p' q') :
    f.Carries g (Parser.look k >>= fun b => if b = true then p else p')
      (Parser.look k >>= fun b => if b = true then q else q') :=
  (see hk).bind fun _ => ite ht he

end Carries

/-- One mark that is taken if it is next. -/
theorem carries_eat (p : String) : f.Carries id (eat p) (eat p) :=
  .lookIf (sees_atPunct p) (.bind .advance fun _ => .pure true) (.pure false)

/-- One mark that has to be next: without it there is a fault, and nothing is asked. -/
theorem carries_expect (p : String) (e : Expected) : f.Carries id (expect p e) (expect p e) :=
  .bind (carries_eat p) fun _ => .ite (.pure ()) (.reportMissing e)

/-- A name is told by its own lexeme. -/
theorem carries_name? : f.Carries id name? name? := by
  refine .bind (.see sees_head?) fun o => ?_
  cases o with
  | none => exact .pure none
  | some l => exact .ite (.bind .advance fun _ => .pure (some l.text)) (.pure none)

/-! ### Loops -/

/-- A parser that walks leaves an end of what was ahead of it. -/
theorem suffix_of_walks {α : Type} {p : Parser α} (h : Walks p) (c : Cursor) :
    (p c).rest.ahead <:+ c.ahead := by
  obtain ⟨ls, hp⟩ := (h true c).passed.passes
  exact suffix_of_passes hp

theorem suffix_of_passed {α : Type} {s : Step α} {c : Cursor} (h : s.Passed c) :
    s.rest.ahead <:+ c.ahead := by
  obtain ⟨ls, hp⟩ := h.passes
  exact suffix_of_passes hp

/-- A lexeme that is next is next in the frame, with more behind it. -/
theorem cursor_of_ahead {c : Cursor} {l : Lexeme} {ls : List Lexeme} (h : c.ahead = l :: ls) :
    f.cursor c = ⟨f.before + c.index, l :: (ls ++ f.after)⟩ := by
  simp [cursor, h]

/-- At the end nothing is next in the frame either, where the lexemes after are not seen. -/
theorem cursor_of_end {c : Cursor} (hu : f.Unseen c) (h : c.ahead = []) :
    f.cursor c = ⟨f.before + c.index, []⟩ := by
  simp [cursor, h, hu.after_eq_nil h]

/-- A parser that goes on with itself further on. -/
theorem Carries.loop {g : α → β} {p : Parser α} {q : Parser β}
    (h : ∀ c, (∀ d, d.remaining < c.remaining → f.CarriesAt g p q d) → f.CarriesAt g p q c) :
    f.Carries g p q := fun c => h c fun d _ => Carries.loop h d
termination_by c => c.remaining

/-- Parsers that come to the same carry over together. -/
theorem CarriesAt.of_eq {g : α → β} {p p' : Parser α} {q q' : Parser β} {c : Cursor}
    (hp : p c = p' c) (hq : q (f.cursor c) = q' (f.cursor c)) (h : f.CarriesAt g p' q' c) :
    f.CarriesAt g p q c :=
  ⟨by rw [hp]; exact h.suffix, by rw [hp, hq]; exact h.eq⟩

/-- A branch on what is seen. -/
theorem CarriesAt.lookIf {g : α → β} {k : Cursor → Bool} {p p' : Parser α} {q q' : Parser β}
    {c : Cursor} (hk : f.Sees k) (ht : k c = true → f.CarriesAt g p q c)
    (he : k c = false → f.CarriesAt g p' q' c) :
    f.CarriesAt g (Parser.look k >>= fun b => if b = true then p else p')
      (Parser.look k >>= fun b => if b = true then q else q') c :=
  (Carries.see hk c).bind (.ite ht fun h => he (Bool.eq_false_iff.2 h))

end Frame
end Parser
end Outline
