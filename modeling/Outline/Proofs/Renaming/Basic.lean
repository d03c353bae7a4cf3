/-
# Parsing under a renaming

Two sources are read alike if their lexemes are the same but for their names: where the
names of the first are the same, those of the second are, and a word with a meaning of its
own is the same word in both (`Renaming`).  The second may stand behind other lexemes.

The parser then comes to values that correspond, goes on at the same place, and finds the
same, with other texts quoted (`Renaming.Runs`).  That is proved for each parser from the
parsers that it calls, as all that a parser asks of a lexeme is kept by a renaming:

| asked | why it is kept |
| --- | --- |
| its kind | the kinds are the same |
| its text, if it is no name | it is the same lexeme |
| whether it is a contextual word | `Renaming.words` |
| whether it is the name of the type around it, or of a local | `Renaming.unique` |
| whether a text with holes mentions a local | `Renaming.mentions` |
-/

import Mathlib.Data.List.Forall2
import Outline.Proofs.Lexer.Reading
import Outline.Proofs.Parser.Loops

namespace Outline

/-- A diagnostic without its message and its location. -/
def Diagnostic.untold (d : Diagnostic) : Diagnostic := { d with message := "", location := none }

namespace Parser

/-- The names that have a meaning of their own somewhere. -/
def contextualWords : List String :=
  modifierWords ++ accessorWords
    ++ ["record", "where", "global", "alias", "when", "await", "yield", "nameof"]

/-- The cause without the texts that it quotes. -/
def Cause.unquoted : Cause → Cause
  | .invalidMember _ => .invalidMember ""
  | .invalidTerm _ => .invalidTerm ""
  | .unusedVariable _ => .unusedVariable ""
  | .unreadVariable _ => .unreadVariable ""
  | cause => cause

/-- What is reported of a cause is reported without its quotes, but for the message. -/
theorem Cause.untold_diagnostic? (version : Language.Version) (c : Cause) :
    (c.unquoted.diagnostic? version).map (·.untold) = (c.diagnostic? version).map (·.untold) := by
  cases c <;> rfl

/-- Two sources that are the same but for their names. -/
structure Renaming where
  /-- How many lexemes stand before those of the second source. -/
  before : Nat
  /-- What a lexeme of the first source is in the second. -/
  Same : Lexeme → Lexeme → Prop
  kind {l m : Lexeme} : Same l m → l.kind = m.kind
  text {l m : Lexeme} : Same l m → l.isName = false → l.text = m.text
  unique {l m l' m' : Lexeme} : Same l m → l.isName = true → Same l' m' → l'.isName = true →
    (l.text = l'.text ↔ m.text = m'.text)
  words {l m : Lexeme} : Same l m → l.isName = true →
    ∀ w ∈ "" :: contextualWords, l.text = w ↔ m.text = w
  mentions {l m l' m' : Lexeme} : Same l m → l.kind = .interpolated → Same l' m' →
    l'.isName = true → Parser.mentions l.text l'.text = Parser.mentions m.text m'.text
  dot : Same (.mark ".") (.mark ".")

namespace Renaming

variable (r : Renaming)

/-! ### Lexemes -/

section

variable {r} {l m l' m' : Lexeme}

/-- A name is renamed to a name, and nothing else is. -/
theorem isName_eq (h : r.Same l m) : l.isName = m.isName := by
  rw [Lexeme.isName, Lexeme.isName, r.kind h]

/-- What is no name is the same lexeme. -/
theorem eq_of_not_isName (h : r.Same l m) (hn : l.isName = false) : l = m := by
  obtain ⟨kind, text⟩ := l
  obtain ⟨kind', text'⟩ := m
  obtain rfl : kind = kind' := r.kind h
  obtain rfl : text = text' := r.text h hn
  rfl

/-- What is the same of all names is kept. -/
theorem congr {γ : Type} {p : Lexeme → γ} (h : r.Same l m)
    (hp : ∀ l m : Lexeme, l.isName = true → m.isName = true → p l = p m) : p l = p m := by
  cases hn : l.isName with
  | false => rw [eq_of_not_isName h hn]
  | true => exact hp l m hn (isName_eq h ▸ hn)

theorem kind_of_isName (h : l.isName = true) : l.kind = .identifier := beq_iff_eq.1 h

/-- A mark is no name, so it stands for itself. -/
theorem isPunct_eq (h : r.Same l m) (p : String) : l.isPunct p = m.isPunct p :=
  congr (p := (·.isPunct p)) h fun l m hl hm => by
    rw [Lexeme.isPunct, Lexeme.isPunct, kind_of_isName hl, kind_of_isName hm]
    rfl

theorem isOneOf_eq (h : r.Same l m) (ps : List String) : l.isOneOf ps = m.isOneOf ps :=
  congr (p := (·.isOneOf ps)) h fun l m hl hm => by
    rw [Lexeme.isOneOf, Lexeme.isOneOf, kind_of_isName hl, kind_of_isName hm]
    rfl

/-- A reserved word is no name; with the prefix it would be one. -/
theorem isKeyword_eq (h : r.Same l m) (k : String) : l.isKeyword k = m.isKeyword k :=
  congr (p := (·.isKeyword k)) h fun l m hl hm => by
    rw [Lexeme.isKeyword, Lexeme.isKeyword, kind_of_isName hl, kind_of_isName hm]
    rfl

theorem isKeywordOf_eq (h : r.Same l m) (ks : List String) : l.isKeywordOf ks = m.isKeywordOf ks :=
  congr (p := (·.isKeywordOf ks)) h fun l m hl hm => by
    rw [Lexeme.isKeywordOf, Lexeme.isKeywordOf, kind_of_isName hl, kind_of_isName hm]
    rfl

/-- Brackets are marks, so the nesting of the two sources is the same. -/
theorem delimiter?_eq (h : r.Same l m) : l.delimiter? = m.delimiter? :=
  congr h fun l m hl hm => by
    simp [Lexeme.delimiter?, kind_of_isName hl, kind_of_isName hm]

/-- A word with a meaning of its own is renamed to itself, and no other name is renamed to it. -/
theorem isWord_eq (h : r.Same l m) {w : String} (hw : w ∈ contextualWords) :
    l.isWord w = m.isWord w := by
  cases hn : l.isName with
  | false => rw [eq_of_not_isName h hn]
  | true =>
    have hkept := r.words h hn w (List.mem_cons_of_mem _ hw)
    rw [Bool.eq_iff_iff]
    simp only [Lexeme.isWord, kind_of_isName hn, kind_of_isName (isName_eq h ▸ hn),
      beq_self_eq_true, Bool.true_and, beq_iff_eq, hkept]

/-- The same of a list of such words. -/
theorem contains_eq (h : r.Same l m) {ws : List String} (hw : ∀ w ∈ ws, w ∈ contextualWords) :
    ws.contains l.text = ws.contains m.text := by
  cases hn : l.isName with
  | false => rw [eq_of_not_isName h hn]
  | true =>
    have kept : ∀ {l m : Lexeme}, (∀ w ∈ ws, l.text = w → m.text = w) → l.text ∈ ws → m.text ∈ ws :=
      fun hk hl => hk _ hl rfl ▸ hl
    rw [Bool.eq_iff_iff, List.contains_iff_mem, List.contains_iff_mem]
    constructor
    · exact kept fun w hm => (r.words h hn w (List.mem_cons_of_mem _ (hw w hm))).1
    · exact kept fun w hm => (r.words h hn w (List.mem_cons_of_mem _ (hw w hm))).2

theorem isWordOf_eq (h : r.Same l m) {ws : List String} (hw : ∀ w ∈ ws, w ∈ contextualWords) :
    l.isWordOf ws = m.isWordOf ws := by
  rw [Lexeme.isWordOf, Lexeme.isWordOf, r.kind h, contains_eq h hw]

/-- A text is missing in both sources or in neither. -/
theorem isEmpty_text_eq (h : r.Same l m) : l.text.isEmpty = m.text.isEmpty := by
  cases hn : l.isName with
  | false => rw [eq_of_not_isName h hn]
  | true =>
    have hkept := r.words h hn "" List.mem_cons_self
    rw [Bool.eq_iff_iff, String.isEmpty_iff, String.isEmpty_iff, hkept]

end

/-! ### Texts -/

/-- Texts that are written with lexemes that correspond. -/
def Spells (s t : String) : Prop :=
  ∃ ls ms, List.Forall₂ r.Same ls ms ∧ s = String.join (ls.map (·.text)) ∧
    t = String.join (ms.map (·.text))

/-- Names that correspond. -/
def Called (s t : String) : Prop :=
  ∃ l m, r.Same l m ∧ l.isName = true ∧ s = l.text ∧ t = m.text

/-- Names that correspond, or are both missing. -/
def Named (s t : String) : Prop := (s = "" ∧ t = "") ∨ r.Called s t

section

variable {r} {s t s' t' : String} {l m : Lexeme}

namespace Spells

theorem nil : r.Spells "" "" := ⟨[], [], .nil, rfl, rfl⟩

theorem text (h : r.Same l m) : r.Spells l.text m.text :=
  ⟨[l], [m], .cons h .nil, by simp [String.join], by simp [String.join]⟩

/-- Texts are put together lexeme by lexeme. -/
theorem append (h : r.Spells s t) (h' : r.Spells s' t') : r.Spells (s ++ s') (t ++ t') := by
  obtain ⟨ls, ms, hls, rfl, rfl⟩ := h
  obtain ⟨ls', ms', hls', rfl, rfl⟩ := h'
  refine ⟨ls ++ ls', ms ++ ms', List.rel_append hls hls', ?_, ?_⟩
  · rw [List.map_append, String.join_append]
  · rw [List.map_append, String.join_append]

theorem dot : r.Spells "." "." := text r.dot

/-- A text of lexemes is empty only if each of them is. -/
theorem isEmpty_eq (h : r.Spells s t) : s.isEmpty = t.isEmpty := by
  obtain ⟨ls, ms, hls, rfl, rfl⟩ := h
  induction hls with
  | nil => rfl
  | cons hl _ ih =>
    have hboth : ∀ a b : String, (a ++ b).isEmpty = (a.isEmpty && b.isEmpty) := fun a b => by
      rw [Bool.eq_iff_iff, Bool.and_eq_true]
      simp only [String.isEmpty_iff, String.append_eq_empty_iff]
    rw [List.map_cons, List.map_cons, String.join_cons, String.join_cons, hboth, hboth,
      isEmpty_text_eq hl, ih]

end Spells

/-- **A lexeme is the name of a type** in both sources or in neither: a name stands for one
name only. -/
theorem Named.isWord_eq (h : r.Named s t) (hl : r.Same l m) : l.isWord s = m.isWord t := by
  cases hn : l.isName with
  | false =>
    have hm : m.isName = false := isName_eq hl ▸ hn
    rw [Lexeme.isWord, Lexeme.isWord]
    rw [Lexeme.isName] at hn hm
    rw [hn, hm, Bool.false_and, Bool.false_and]
  | true =>
    have hsame : l.text = s ↔ m.text = t := by
      rcases h with ⟨rfl, rfl⟩ | ⟨l', m', hl', hn', rfl, rfl⟩
      · exact r.words hl hn "" List.mem_cons_self
      · exact r.unique hl hn hl' hn'
    rw [Bool.eq_iff_iff]
    simp only [Lexeme.isWord, kind_of_isName hn, kind_of_isName (isName_eq hl ▸ hn),
      beq_self_eq_true, Bool.true_and, beq_iff_eq, hsame]

/-- A name is a text of one lexeme. -/
theorem Called.spells (h : r.Called s t) : r.Spells s t := by
  obtain ⟨l, m, hl, -, rfl, rfl⟩ := h
  exact .text hl

end

/-! ### Cursors -/

/-- Cursors at one place in the two sources. -/
structure Beside (c d : Cursor) : Prop where
  index : d.index = r.before + c.index
  ahead : List.Forall₂ r.Same c.ahead d.ahead

variable {r} in
/-- What is seen from a cursor in the first source is seen in the second. -/
def Sees (r : Renaming) {γ : Type} (k : Cursor → γ) : Prop := ∀ c d, r.Beside c d → k c = k d

section

variable {r} {c d : Cursor}

namespace Beside

theorem cons {i : Nat} {l m : Lexeme} {ls ms : List Lexeme} (hl : r.Same l m)
    (hls : List.Forall₂ r.Same ls ms) : r.Beside ⟨i, l :: ls⟩ ⟨r.before + i, m :: ms⟩ :=
  ⟨rfl, .cons hl hls⟩

/-- As many lexemes are left in the one source as in the other. -/
theorem remaining (h : r.Beside c d) : c.remaining = d.remaining := h.ahead.length_eq

theorem next (h : r.Beside c d) : r.Beside c.next d.next := by
  obtain ⟨i, ls⟩ := c
  obtain ⟨j, ms⟩ := d
  obtain ⟨rfl, hls⟩ := h
  cases hls with
  | nil => exact ⟨rfl, .nil⟩
  | cons _ hls => exact ⟨rfl, hls⟩

theorem drop (h : r.Beside c d) (n : Nat) : r.Beside (c.drop n) (d.drop n) := by
  refine ⟨?_, List.forall₂_drop n h.ahead⟩
  rw [Cursor.drop, Cursor.drop, h.index, h.ahead.length_eq, Nat.add_assoc]

/-- The next lexemes correspond. -/
theorem head? (h : r.Beside c d) : Option.Rel r.Same c.head? d.head? := by
  obtain ⟨i, ls⟩ := c
  obtain ⟨j, ms⟩ := d
  cases h.ahead with
  | nil => exact .none
  | cons hl _ => exact .some hl

theorem second? (h : r.Beside c d) : Option.Rel r.Same c.second? d.second? := by
  obtain ⟨i, ls⟩ := c
  obtain ⟨j, ms⟩ := d
  cases h.ahead with
  | nil => exact .none
  | cons _ hls =>
    cases hls with
    | nil => exact .none
    | cons hl _ => exact .some hl

end Beside

/-- What is asked of a lexeme, if there is one. -/
theorem any_eq {o o' : Option Lexeme} (h : Option.Rel r.Same o o') {p q : Lexeme → Bool}
    (hp : ∀ l m, r.Same l m → p l = q m) : o.any p = o'.any q := by
  cases h with
  | none => rfl
  | some hl => exact hp _ _ hl

namespace Sees

variable {γ : Type} {k : Cursor → γ} {x y : Cursor → Bool}

/-- What a renaming keeps of one lexeme is seen of the next one. -/
theorem any {p : Lexeme → Bool} (hp : ∀ l m, r.Same l m → p l = p m) :
    r.Sees fun c => c.head?.any p := fun _ _ h => any_eq h.head? hp

theorem or (hx : r.Sees x) (hy : r.Sees y) : r.Sees fun c => x c || y c := fun c d h => by
  dsimp only
  rw [hx c d h, hy c d h]

theorem and (hx : r.Sees x) (hy : r.Sees y) : r.Sees fun c => x c && y c := fun c d h => by
  dsimp only
  rw [hx c d h, hy c d h]

theorem not (hx : r.Sees x) : r.Sees fun c => !x c := fun c d h => congrArg Bool.not (hx c d h)

theorem next (hk : r.Sees k) : r.Sees fun c => k c.next := fun _ _ h => hk _ _ h.next

end Sees

theorem sees_atPunct (p : String) : r.Sees (·.atPunct p) := .any fun _ _ h => isPunct_eq h p

theorem sees_atOneOf (ps : List String) : r.Sees (·.atOneOf ps) := .any fun _ _ h => isOneOf_eq h ps

theorem sees_atKeyword (k : String) : r.Sees (·.atKeyword k) := .any fun _ _ h => isKeyword_eq h k

theorem sees_atKeywordOf (ks : List String) : r.Sees fun c => c.head?.any (·.isKeywordOf ks) :=
  .any fun _ _ h => isKeywordOf_eq h ks

theorem sees_atName : r.Sees Cursor.atName := .any fun _ _ h => isName_eq h

theorem sees_atWord {w : String} (hw : w ∈ contextualWords) : r.Sees (·.atWord w) :=
  .any fun _ _ h => isWord_eq h hw

theorem sees_atEnd : r.Sees Cursor.atEnd := fun c d h => by
  obtain ⟨i, ls⟩ := c
  obtain ⟨j, ms⟩ := d
  cases h.ahead <;> rfl

/-- The texts of what is next. -/
theorem spells_text (h : r.Beside c d) : r.Spells c.text d.text := by
  have hhead := h.head?
  rw [Cursor.text, Cursor.text]
  generalize c.head? = o at hhead ⊢
  generalize d.head? = o' at hhead ⊢
  cases hhead with
  | none => exact .nil
  | some hl => exact .text hl

end

/-! ### Findings and steps -/

/-- Findings of one cause, but for what it quotes, at one place. -/
structure Matches (x y : Finding) : Prop where
  cause : x.cause.unquoted = y.cause.unquoted
  mark : r.before = 0 → x.mark = y.mark

/-- Steps with values that correspond, which go on at one place and find the same. -/
structure Agree {α β : Type} (V : α → β → Prop) (s : Step α) (t : Step β) : Prop where
  value : V s.value t.value
  rest : r.Beside s.rest t.rest
  found : List.Forall₂ r.Matches s.found t.found

/-- Parsers that agree from two cursors on. -/
def RunsAt {α β : Type} (V : α → β → Prop) (p : Parser α) (q : Parser β) (c d : Cursor) : Prop :=
  r.Agree V (p c) (q d)

/-- Parsers that agree wherever the two sources do. -/
def Runs {α β : Type} (V : α → β → Prop) (p : Parser α) (q : Parser β) : Prop :=
  ∀ c d, r.Beside c d → r.RunsAt V p q c d

section

variable {r} {α β γ δ : Type} {V : α → β → Prop} {W : γ → δ → Prop} {p p' : Parser α}
  {q q' : Parser β} {c d : Cursor}

/-- A finding at a place that is told from an index. -/
theorem Matches.at {cause cause' : Cause} (h : cause.unquoted = cause'.unquoted)
    (mark : Nat → Mark) (i : Nat) : r.Matches ⟨cause, mark i⟩ ⟨cause', mark (r.before + i)⟩ :=
  ⟨h, fun hr => by rw [hr, Nat.zero_add]⟩

namespace Agree

variable {s : Step α} {t : Step β}

/-- What was found earlier is found earlier in both. -/
theorem before {f g : List Finding} (h : r.Agree V s t) (hf : List.Forall₂ r.Matches f g) :
    r.Agree V (s.before f) (t.before g) := ⟨h.value, h.rest, List.rel_append hf h.found⟩

theorem map {f : α → γ} {g : β → δ} (h : r.Agree V s t) (hf : ∀ a b, V a b → W (f a) (g b)) :
    r.Agree W (s.map f) (t.map g) := ⟨hf _ _ h.value, h.rest, h.found⟩

end Agree

namespace RunsAt

/-- Parsers that come to the same are run alike together. -/
theorem of_eq (hp : p c = p' c) (hq : q d = q' d) (h : r.RunsAt V p' q' c d) :
    r.RunsAt V p q c d := by
  rwa [RunsAt, hp, hq]

theorem bind {f : α → Parser γ} {g : β → Parser δ} (hp : r.RunsAt V p q c d)
    (hf : V (p c).value (q d).value → r.Beside (p c).rest (q d).rest →
      r.RunsAt W (f (p c).value) (g (q d).value) (p c).rest (q d).rest) :
    r.RunsAt W (p >>= f) (q >>= g) c d := (hf hp.value hp.rest).before hp.found

/-- A branch that both sources take or neither. -/
theorem ite {b b' : Prop} [Decidable b] [Decidable b'] (hb : b ↔ b') (ht : b → r.RunsAt V p q c d)
    (he : ¬b → r.RunsAt V p' q' c d) :
    r.RunsAt V (if b then p else p') (if b' then q else q') c d := by
  by_cases h : b
  · rw [if_pos h, if_pos (hb.1 h)]
    exact ht h
  · rw [if_neg h, if_neg (mt hb.2 h)]
    exact he h

/-- A branch on what is the same. -/
theorem lookIfEq {k k' : Cursor → Bool} (hk : k c = k' d) (ht : k c = true → r.RunsAt V p q c d)
    (he : k c = false → r.RunsAt V p' q' c d) :
    r.RunsAt V (Parser.look k >>= fun b => if b = true then p else p')
      (Parser.look k' >>= fun b => if b = true then q else q') c d := by
  cases h : k c with
  | true => exact .of_eq (lookIf_of_true h) (lookIf_of_true (hk ▸ h)) (ht h)
  | false => exact .of_eq (lookIf_of_false h) (lookIf_of_false (hk ▸ h)) (he h)

/-- A branch on what is seen. -/
theorem lookIf {k : Cursor → Bool} (hk : r.Sees k) (hc : r.Beside c d)
    (ht : k c = true → r.RunsAt V p q c d) (he : k c = false → r.RunsAt V p' q' c d) :
    r.RunsAt V (Parser.look k >>= fun b => if b = true then p else p')
      (Parser.look k >>= fun b => if b = true then q else q') c d := lookIfEq (hk c d hc) ht he

end RunsAt

namespace Runs

theorem pure {a : α} {b : β} (h : V a b) : r.Runs V (Pure.pure a : Parser α) (Pure.pure b) :=
  fun _ _ hc => ⟨h, hc, .nil⟩

/-- The second parts are compared only for values that correspond, at places that do. -/
theorem bind {f : α → Parser γ} {g : β → Parser δ} (hp : r.Runs V p q)
    (hf : ∀ a b, V a b → r.Runs W (f a) (g b)) : r.Runs W (p >>= f) (q >>= g) := fun c d hc =>
  .bind (hp c d hc) fun hv hr => hf _ _ hv _ _ hr

/-- What goes on after a value that is the same. -/
theorem andThen {p q : Parser α} {f g : α → Parser γ} {W : γ → γ → Prop} (hp : r.Runs Eq p q)
    (hf : ∀ a, r.Runs W (f a) (g a)) : r.Runs W (p >>= f) (q >>= g) :=
  .bind hp fun a _ h => h ▸ hf a

theorem ite {b : Prop} [Decidable b] (ht : r.Runs V p q) (he : r.Runs V p' q') :
    r.Runs V (if b then p else p') (if b then q else q') := fun c d hc =>
  .ite Iff.rfl (fun _ => ht c d hc) fun _ => he c d hc

/-- What is read off a cursor corresponds if it is read off lexemes that do. -/
theorem look {k : Cursor → α} {k' : Cursor → β} (hk : ∀ c d, r.Beside c d → V (k c) (k' d)) :
    r.Runs V (Parser.look k) (Parser.look k') := fun c d hc => ⟨hk c d hc, hc, .nil⟩

/-- The index of the next lexeme. -/
theorem index : r.Runs (fun i j => j = r.before + i) (Parser.look (·.index))
    (Parser.look (·.index)) := look fun _ _ h => h.index

/-- The text of the next lexeme. -/
theorem text : r.Runs r.Spells (Parser.look Cursor.text) (Parser.look Cursor.text) :=
  look fun _ _ h => spells_text h

theorem advance : r.Runs Eq Parser.advance Parser.advance := fun _ _ hc => ⟨rfl, hc.next, .nil⟩

/-- A branch on what is seen. -/
theorem lookIf {k : Cursor → Bool} (hk : r.Sees k) (ht : r.Runs V p q) (he : r.Runs V p' q') :
    r.Runs V (Parser.look k >>= fun b => if b = true then p else p')
      (Parser.look k >>= fun b => if b = true then q else q') := fun c d hc =>
  .lookIf hk hc (fun _ => ht c d hc) fun _ => he c d hc

/-- A report corresponds to one that quotes another name. -/
theorem report {x y : Finding} (h : r.Matches x y) :
    r.Runs Eq (Parser.report x.cause x.mark) (Parser.report y.cause y.mark) := fun _ _ hc =>
  ⟨rfl, hc, .cons h .nil⟩

/-- A report at a place that is told from the index of the next lexeme. -/
theorem reportAt {cause cause' : Cause} (h : cause.unquoted = cause'.unquoted)
    (mark : Nat → Mark) :
    r.Runs Eq (Parser.look (·.index) >>= fun i => Parser.report cause (mark i))
      (Parser.look (·.index) >>= fun i => Parser.report cause' (mark i)) :=
  .bind index fun i _ hi => hi ▸ report (.at h mark i)

/-- A report on the next lexeme marks the lexeme that stands at its place. -/
theorem reportHere {cause cause' : Cause} (h : cause.unquoted = cause'.unquoted) :
    r.Runs Eq (Parser.reportHere cause) (Parser.reportHere cause') := reportAt h Mark.whole

theorem reportAfter (cause : Cause) :
    r.Runs Eq (Parser.reportAfter cause) (Parser.reportAfter cause) := reportAt rfl Mark.gap

theorem reportMissing (e : Expected) :
    r.Runs Eq (Parser.reportMissing e) (Parser.reportMissing e) := reportAfter _

/-- A parser that goes on with itself further on. -/
theorem loop (h : ∀ c d, r.Beside c d →
    (∀ c' d', c'.remaining < c.remaining → r.Beside c' d' → r.RunsAt V p q c' d') →
      r.RunsAt V p q c d) : r.Runs V p q := by
  intro c d hc
  induction hn : c.remaining using Nat.strongRecOn generalizing c d with
  | ind n ih => exact h c d hc fun c' d' hlt hc' => ih _ (hn ▸ hlt) c' d' hc' rfl

end Runs

end

section

variable {r}

/-- A mark is taken in both sources or in neither. -/
theorem runs_eat (p : String) : r.Runs Eq (eat p) (eat p) :=
  .lookIf (sees_atPunct p) (.andThen .advance fun _ => .pure rfl) (.pure rfl)

theorem runs_expect (p : String) (e : Expected) : r.Runs Eq (expect p e) (expect p e) :=
  .andThen (runs_eat p) fun _ => .ite (.pure rfl) (.reportMissing e)

/-- Names that are taken correspond. -/
theorem runs_name? : r.Runs (Option.Rel r.Called) name? name? := by
  refine .bind (.look fun _ _ h => h.head?) fun o o' ho => ?_
  cases ho with
  | none => exact .pure .none
  | @some l m hl =>
    show r.Runs _ (if l.isName = true then _ else _) (if m.isName = true then _ else _)
    rw [← isName_eq hl]
    cases hn : l.isName with
    | false => exact .pure .none
    | true => exact .andThen .advance fun _ => .pure (.some ⟨l, m, hl, hn, rfl, rfl⟩)

end

end Renaming
end Parser
end Outline
