/-
# What is accepted

A parser *accepts* lexemes if it goes on through all of them, whatever stands before,
and finds nothing but what is tolerated.  Steps that accept what stands one after the
other accept it together; what is accepted by each of the parsers below is given by its
grammar.

| tolerance | lets pass |
| --- | --- |
| `harmless` | all but faults |
| `features` | only the features that a version may lack |
-/

import Outline.Proofs.Parser.Groups
import Outline.Proofs.Parser.Loops

namespace Outline
namespace Parser

open Lexeme (mark)

theorem atPunct_mark (s : String) (i : Nat) (ls : List Lexeme) :
    Cursor.atPunct ⟨i, mark s :: ls⟩ s = true := by
  simp [Cursor.atPunct, Cursor.head?, Lexeme.isPunct, mark]

/-- The causes that may be found where something is accepted; features that a version
may lack always are. -/
structure Tolerance where
  allows : Cause → Bool
  allows_needs : ∀ feature, allows (.needs feature) = true

namespace Tolerance

/-- All but faults. -/
def harmless : Tolerance := ⟨fun cause => !cause.isFault, fun _ => rfl⟩

/-- Features that a version may lack, and nothing else. -/
def features : Tolerance :=
  ⟨fun | .needs _ => true | _ => false, fun _ => rfl⟩

/-- Whether findings are all of allowed causes. -/
def covers (t : Tolerance) (found : List Finding) : Bool := found.all (t.allows ·.cause)

@[simp] theorem covers_append (t : Tolerance) (f g : List Finding) :
    t.covers (f ++ g) = (t.covers f && t.covers g) := by simp [covers]

end Tolerance

/-- From the token `i` on, a parser goes on through `ls` up to `after`, finds only what is
tolerated, and comes to a value that is `good`. -/
structure Accepts (t : Tolerance) {α : Type} (p : Parser α) (i : Nat) (ls after : List Lexeme)
    (good : α → Prop) : Prop where
  value : good (p ⟨i, ls ++ after⟩).value
  rest : (p ⟨i, ls ++ after⟩).rest = ⟨i + ls.length, after⟩
  found : t.covers (p ⟨i, ls ++ after⟩).found = true

section

variable {t : Tolerance}

namespace Accepts

variable {α β γ : Type} {p q : Parser α} {i : Nat} {ls ms after : List Lexeme} {good : α → Prop}
  {good' : β → Prop}

/-- A parser that is known to come to a step. -/
theorem of_eq {a : α} {found : List Finding}
    (h : p ⟨i, ls ++ after⟩ = ⟨a, ⟨i + ls.length, after⟩, found⟩)
    (ha : good a) (hf : t.covers found = true) : Accepts t p i ls after good :=
  ⟨by rw [h]; exact ha, by rw [h], by rw [h]; exact hf⟩

theorem pure {a : α} (h : good a) : Accepts t (Pure.pure a : Parser α) i [] after good :=
  of_eq rfl h rfl

theorem mono (h : Accepts t p i ls after good) {good' : α → Prop} (hg : ∀ a, good a → good' a) :
    Accepts t p i ls after good' := ⟨hg _ h.value, h.rest, h.found⟩

theorem bind {f : α → Parser β} (h : Accepts t p i ls (ms ++ after) good)
    (k : ∀ a, good a → Accepts t (f a) (i + ls.length) ms after good') :
    Accepts t (p >>= f) i (ls ++ ms) after good' := by
  have hk := k _ h.value
  have hr : (p ⟨i, ls ++ ms ++ after⟩).rest = ⟨i + ls.length, ms ++ after⟩ := by
    rw [List.append_assoc]
    exact h.rest
  have ht := h.found
  rw [← List.append_assoc] at hk ht
  constructor
  · rw [bind_apply, hr]
    exact hk.value
  · rw [bind_apply, hr, List.length_append, ← Nat.add_assoc]
    exact hk.rest
  · rw [bind_apply, hr]
    show t.covers (_ ++ _) = true
    rw [t.covers_append, ht, hk.found]
    rfl

/-- A step that takes nothing, before one that goes on. -/
theorem after_nothing {f : α → Parser β} (h : Accepts t p i [] (ls ++ after) good)
    (k : ∀ a, good a → Accepts t (f a) i ls after good') : Accepts t (p >>= f) i ls after good' :=
  h.bind k

/-- A step that goes on, before one that takes nothing. -/
theorem before_nothing {f : α → Parser β} (h : Accepts t p i ls after good)
    (k : ∀ a, good a → Accepts t (f a) (i + ls.length) [] after good') :
    Accepts t (p >>= f) i ls after good' := by
  have := h.bind k
  rwa [List.append_nil] at this

theorem look {k : Cursor → γ} {f : γ → Parser β}
    (h : Accepts t (f (k ⟨i, ls ++ after⟩)) i ls after good') :
    Accepts t (Parser.look k >>= f) i ls after good' := ⟨h.value, h.rest, h.found⟩

/-- What is done if something is seen, and it is. -/
theorem lookThen {k : Cursor → Bool} (hk : k ⟨i, ls ++ after⟩ = true)
    (h : Accepts t p i ls after good) :
    Accepts t (Parser.look k >>= fun b => if b = true then p else q) i ls after good :=
  look (by rw [hk]; exact h)

/-- What is done if something is not seen, and it is not. -/
theorem lookElse {k : Cursor → Bool} (hk : k ⟨i, ls ++ after⟩ = false)
    (h : Accepts t q i ls after good) :
    Accepts t (Parser.look k >>= fun b => if b = true then p else q) i ls after good :=
  look (by rw [hk]; exact h)

/-- A finding that is tolerated. -/
theorem report {cause : Cause} {m : Mark} (h : t.allows cause = true) :
    Accepts t (Parser.report cause m) i [] after fun _ => True :=
  of_eq rfl trivial (by simp [Tolerance.covers, h])

/-- A parser that goes on as another one after one more lexeme. -/
theorem of_next {l : Lexeme} (h : p ⟨i, l :: (ls ++ after)⟩ = q ⟨i + 1, ls ++ after⟩)
    (hq : Accepts t q (i + 1) ls after good) : Accepts t p i (l :: ls) after good := by
  constructor
  · rw [List.cons_append, h]
    exact hq.value
  · rw [List.cons_append, h, hq.rest, List.length_cons, Nat.add_right_comm, Nat.add_assoc]
  · rw [List.cons_append, h]
    exact hq.found

/-- A parser that goes on as another one from where it is. -/
theorem of_here (h : p ⟨i, ls ++ after⟩ = q ⟨i, ls ++ after⟩) (hq : Accepts t q i ls after good) :
    Accepts t p i ls after good :=
  ⟨by rw [h]; exact hq.value, by rw [h, hq.rest], by rw [h]; exact hq.found⟩

theorem advance {l : Lexeme} {f : Unit → Parser β} (h : Accepts t (f ()) (i + 1) ls after good') :
    Accepts t (Parser.advance >>= f) i (l :: ls) after good' := of_next (advance_bind f _) h

/-- A punctuation that is next is taken. -/
theorem eat {s : String} {f : Bool → Parser β} (h : Accepts t (f true) (i + 1) ls after good') :
    Accepts t (Parser.eat s >>= f) i (mark s :: ls) after good' :=
  of_next (eat_bind_of_atPunct (atPunct_mark s i _) f) h

/-- A punctuation that is not next is not taken. -/
theorem eat_not {s : String} {f : Bool → Parser β}
    (hs : (ls ++ after).head?.any (·.isPunct s) = false)
    (h : Accepts t (f false) i ls after good') :
    Accepts t (Parser.eat s >>= f) i ls after good' :=
  of_here (eat_bind_of_not_atPunct (show Cursor.atPunct ⟨i, ls ++ after⟩ s = false from hs) f) h

theorem expect (s : String) (e : Expected) :
    Accepts t (Parser.expect s e) i [mark s] after fun _ => True :=
  of_eq (expect_of_atPunct (atPunct_mark s i _) e) trivial rfl

theorem name? (s : String) : Accepts t Parser.name? i [Lexeme.name s] after (· = some s) :=
  of_eq rfl rfl rfl

theorem map {f : α → β} (h : Accepts t p i ls after good) (hg : ∀ a, good a → good' (f a)) :
    Accepts t (fun c => (p c).map f) i ls after good' := ⟨hg _ h.value, h.rest, h.found⟩

/-- A parser that goes on as another one after some of the lexemes. -/
theorem of_before {found : List Finding}
    (h : p ⟨i, ls ++ (ms ++ after)⟩ = (q ⟨i + ls.length, ms ++ after⟩).before found)
    (hf : t.covers found = true) (hq : Accepts t q (i + ls.length) ms after good) :
    Accepts t p i (ls ++ ms) after good := by
  rw [← List.append_assoc] at h
  constructor
  · rw [h]
    exact hq.value
  · rw [h, List.length_append, ← Nat.add_assoc]
    exact hq.rest
  · rw [h]
    show t.covers (_ ++ _) = true
    rw [t.covers_append, hf, hq.found]
    rfl

/-- A loop goes on through what a turn goes on through and what is left. -/
theorem of_goesOn {loop next turn : Parser (List α)} {one more both : List α → Prop}
    (h : GoesOn loop next turn ⟨i, ls ++ (ms ++ after)⟩)
    (ht : Accepts t turn i ls (ms ++ after) one) (hn : Accepts t next (i + ls.length) ms after more)
    (hb : ∀ as bs, one as → more bs → both (as ++ bs)) :
    Accepts t loop i (ls ++ ms) after both := by
  have heq := h.eq
  have hgood := hb _ _ ht.value hn.value
  have hfound := ht.found
  rw [← List.append_assoc] at hgood hfound
  rw [ht.rest, ← List.append_assoc] at heq
  constructor
  · rw [heq]
    exact hgood
  · rw [heq, List.length_append, ← Nat.add_assoc]
    exact hn.rest
  · rw [heq]
    show t.covers (_ ++ _) = true
    rw [t.covers_append, hfound]
    exact hn.found

end Accepts

/-! ### Groups -/

theorem accepts_skipGroup (b : Bracket) {ms : List Lexeme} (h : WellNested ms) (i : Nat)
    (after : List Lexeme) : Accepts t skipGroup i (grouped b ms) after (· = true) :=
  .of_eq (skipGroup_of_wellNested b h i after) rfl rfl

/-! ### Expressions -/

theorem skipExpression_of_stop {stops : List String} {i : Nat} {ls : List Lexeme}
    (h : ls.head?.any (·.isOneOf stops) = true) :
    skipExpression stops ⟨i, ls⟩ = ⟨(), ⟨i, ls⟩, []⟩ := by
  cases ls with
  | nil => cases h
  | cons l ls =>
    rw [skipExpression]
    simp only [show l.isOneOf stops = true from h, if_true]

theorem isOneOf_mark {s : String} {ps : List String} : (mark s).isOneOf ps = ps.contains s := by
  simp [Lexeme.isOneOf, mark]

theorem skipExpression_of_group {stops : List String} {b : Bracket} {ms : List Lexeme}
    (hb : delimiterText (.opening b) ∉ stops) (h : WellNested ms) (i : Nat) (ls : List Lexeme) :
    skipExpression stops ⟨i, grouped b ms ++ ls⟩
      = (skipExpression stops ⟨i + (grouped b ms).length, ls⟩).before [] := by
  have hg := skipGroup_of_wellNested b h i ls
  rw [grouped, List.cons_append] at hg ⊢
  rw [skipExpression]
  simp only [isOneOf_mark, List.contains_eq_mem, hb, decide_false, Bool.false_eq_true, if_false,
    delimiter?_opener, hg, dif_pos]

/-- An expression is skipped up to its stop, and nothing is found. -/
theorem skipExpression_of_expression {stops : List String} {ls after : List Lexeme}
    (h : Expression stops ls) (hs : after.head?.any (·.isOneOf stops) = true) (i : Nat) :
    skipExpression stops ⟨i, ls ++ after⟩ = ⟨(), ⟨i + ls.length, after⟩, []⟩ := by
  induction h generalizing i with
  | nil => exact skipExpression_of_stop hs
  | plain hl hn _ ih =>
    rw [List.cons_append, skipExpression_of_plain rfl hl hn]
    show skipExpression stops ⟨i + 1, _⟩ = _
    rw [ih, List.length_cons, Nat.add_right_comm, Nat.add_assoc]
  | group hb hm _ ih =>
    rw [List.append_assoc, skipExpression_of_group hb hm, ih, List.length_append, ← Nat.add_assoc]
    rfl

/-- **An expression is skipped** up to its stop. -/
theorem accepts_skipExpression {stops : List String} {ls after : List Lexeme}
    (h : Expression stops ls) (hs : after.head?.any (·.isOneOf stops) = true) (i : Nat) :
    Accepts t (skipExpression stops) i ls after fun _ => True :=
  .of_eq (skipExpression_of_expression h hs i) trivial rfl

/-- The head of a type is skipped up to its body. -/
theorem accepts_skipToBody {ls after : List Lexeme} (h : Expression headStops ls)
    (hs : after.head?.any (·.isOneOf headStops) = true) (i : Nat) :
    Accepts t skipToBody i ls after fun _ => True := by
  induction h generalizing i with
  | nil =>
    have stop : skipToBody ⟨i, after⟩ = ⟨(), ⟨i, after⟩, []⟩ := by
      cases after with
      | nil => cases hs
      | cons l ls =>
        rw [skipToBody]
        simp only [show l.isOneOf ["\x7b", "\x7d", ";", "=>"] = true from hs, if_true]
    exact .of_eq stop trivial rfl
  | @plain l ls hl hn _ ih =>
    have hb : l.isOneOf ["(", "["] = false := isOneOf_of_plain hl (by decide)
    have next : skipToBody ⟨i, l :: (ls ++ after)⟩ = skipToBody ⟨i + 1, ls ++ after⟩ := by
      rw [skipToBody]
      simp only [show l.isOneOf ["\x7b", "\x7d", ";", "=>"] = false from hn, hb, Bool.false_eq_true,
        if_false]
      rfl
    exact .of_next next (ih (i + 1))
  | @group b ms ls hb hm _ ih =>
    have next : skipToBody ⟨i, grouped b ms ++ (ls ++ after)⟩
        = (skipToBody ⟨i + (grouped b ms).length, ls ++ after⟩).before [] := by
      have hg := skipGroup_of_wellNested b hm i (ls ++ after)
      have hopen : (mark (delimiterText (.opening b))).isOneOf ["(", "["] = true := by
        cases b with
        | paren => rfl
        | square => rfl
        | brace => exact absurd (by decide) hb
      have hgo : (mark (delimiterText (.opening b))).isOneOf ["\x7b", "\x7d", ";", "=>"] = false :=
        isOneOf_of_disjoint hopen (by decide)
      rw [grouped, List.cons_append] at hg ⊢
      rw [skipToBody]
      simp only [hgo, hopen, Bool.false_eq_true, if_false, if_true, hg, dif_pos]
    exact .of_before next rfl (ih _)

theorem accepts_expressionToEnd {ls : List Lexeme} (h : Expression [";"] ls) (i : Nat)
    (after : List Lexeme) : Accepts t expressionToEnd i (ls ++ [mark ";"]) after fun _ => True :=
  (accepts_skipExpression h rfl i).bind fun _ _ => .expect ";" .semicolon

/-! ### Attributes and modifiers -/

theorem attributes_of_group {ms : List Lexeme} (h : WellNested ms) (i : Nat) (ls : List Lexeme) :
    attributes ⟨i, grouped .square ms ++ ls⟩
      = (attributes ⟨i + (grouped .square ms).length, ls⟩).before [] := by
  have hg := skipGroup_of_wellNested .square h i ls
  rw [attributes]
  simp only [hg, dif_pos]
  exact if_pos (atPunct_mark "[" i _)

/-- **Attributes are skipped** if each is well nested. -/
theorem accepts_attributes {gs : List (List Lexeme)} {after : List Lexeme}
    (h : ∀ g ∈ gs, WellNested g) (ha : after.head?.any (·.isPunct "[") = false) (i : Nat) :
    Accepts t attributes i (gs.flatMap (grouped .square)) after fun _ => True := by
  induction gs generalizing i with
  | nil =>
    have none : attributes ⟨i, after⟩ = ⟨(), ⟨i, after⟩, []⟩ := by
      rw [attributes]
      exact if_neg (by rw [Cursor.atPunct, Cursor.head?, ha]; exact Bool.false_ne_true)
    exact .of_eq none trivial rfl
  | cons g gs ih =>
    rw [List.flatMap_cons]
    exact .of_before (attributes_of_group (h g List.mem_cons_self) i _) rfl
      (ih (fun k hk => h k (List.mem_cons_of_mem g hk)) _)

theorem isModifier_word {w : String} (h : w ∈ modifierKeywords ++ modifierWords)
    {next : Option Lexeme} (hn : Name.isKeyword w = false → next.any isWordy = true) :
    isModifier (Lexeme.word w) next = true := by
  have reserved : ∀ k ∈ modifierKeywords, Name.isKeyword k = true := by decide
  have free : ∀ k ∈ modifierWords, Name.isKeyword k = false := by decide
  rw [isModifier, Bool.or_eq_true, Bool.and_eq_true]
  obtain hw | hw := List.mem_append.1 h
  · left
    simp [Lexeme.isKeywordOf, Lexeme.word, reserved w hw, hw]
  · right
    refine ⟨?_, hn (free w hw)⟩
    simp [Lexeme.isWordOf, Lexeme.word, free w hw, hw]

/-- A modifier is taken, and what it needs is tolerated. -/
theorem modifiersFrom_cons {l : Lexeme} {ls : List Lexeme} (h : isModifier l ls.head? = true)
    (i : Nat) : ∃ needs, t.covers needs = true ∧
      modifiersFrom i (l :: ls) = ((modifiersFrom (i + 1) ls).map (l.text :: ·)).before needs := by
  refine ⟨_, ?_, by rw [modifiersFrom, if_pos h]⟩
  cases modifierFeature? l.text with
  | none => rfl
  | some feature => simp [Tolerance.covers, t.allows_needs]

/-- **Modifiers are taken** as far as they go. -/
theorem accepts_modifiers {ws : List String} {after : List Lexeme}
    (h : ∀ w ∈ ws, w ∈ modifierKeywords ++ modifierWords)
    (hlast : ∀ w ∈ ws.getLast?, Name.isKeyword w = false → after.head?.any isWordy = true)
    (hend : ∀ l ∈ after.head?, isModifier l after.tail.head? = false) (i : Nat) :
    Accepts t modifiers i (ws.map .word) after (· = ws) := by
  suffices hs : ∃ found, t.covers found = true ∧
      modifiersFrom i (ws.map .word ++ after) = ⟨ws, ⟨i + ws.length, after⟩, found⟩ by
    obtain ⟨found, hf, heq⟩ := hs
    exact .of_eq (by rw [modifiers, List.length_map]; exact heq) rfl hf
  induction ws generalizing i with
  | nil =>
    refine ⟨[], rfl, ?_⟩
    cases after with
    | nil => rfl
    | cons l ls =>
      rw [List.map_nil, List.nil_append, modifiersFrom, if_neg]
      · rfl
      · rw [show isModifier l ls.head? = false from hend l rfl]
        exact Bool.false_ne_true
  | cons w ws ih =>
    have hnext : Name.isKeyword w = false →
        (ws.map Lexeme.word ++ after).head?.any isWordy = true := by
      intro hw
      cases ws with
      | nil => exact hlast w rfl hw
      | cons v vs => exact isWordy_word v
    have hlast' : ∀ v ∈ ws.getLast?, Name.isKeyword v = false → after.head?.any isWordy = true := by
      intro v hv
      cases ws with
      | nil => cases hv
      | cons u us => exact hlast v (by rwa [List.getLast?_cons_cons])
    obtain ⟨found, hf, heq⟩ := ih (fun v hv => h v (List.mem_cons_of_mem w hv)) hlast' (i + 1)
    have hw := isModifier_word (h w List.mem_cons_self) hnext
    obtain ⟨needs, hn, hcons⟩ := modifiersFrom_cons hw i
    refine ⟨needs ++ found, by rw [t.covers_append, hn, hf]; rfl, ?_⟩
    rw [List.map_cons, List.cons_append, hcons, heq, List.length_cons, Nat.add_comm ws.length,
      ← Nat.add_assoc]
    rfl

/-! ### Types -/

theorem typeParametersFrom_open (arity depth i : Nat) (ls : List Lexeme) :
    typeParametersFrom arity depth i (mark "<" :: ls)
      = typeParametersFrom arity (depth + 1) (i + 1) ls := rfl

theorem typeParametersFrom_close (arity depth i : Nat) (ls : List Lexeme) :
    typeParametersFrom arity depth i (mark ">" :: ls)
      = if depth = 1 then ⟨arity, ⟨i + 1, ls⟩, []⟩
        else typeParametersFrom arity (depth - 1) (i + 1) ls := rfl

/-- What a type holds in angles is passed. -/
theorem typeParametersFrom_of_angled {ms : List Lexeme} (h : Angled ms) {depth : Nat}
    (hd : 1 ≤ depth) (arity i : Nat) (after : List Lexeme) : ∃ arity',
      typeParametersFrom arity depth i (ms ++ after)
        = typeParametersFrom arity' depth (i + ms.length) after := by
  induction h generalizing depth arity i after with
  | nil => exact ⟨arity, rfl⟩
  | @plain l ls hl _ ih =>
    have hi : i + (l :: ls).length = i + 1 + ls.length := by
      rw [List.length_cons]
      omega
    have hopen : l.isPunct "<" = false := isPunct_of_isOneOf hl (by decide)
    have hclose : l.isPunct ">" = false := isPunct_of_isOneOf hl (by decide)
    have hstop : l.isOneOf ["\x7b", "\x7d", ";", "(", "=>"] = false :=
      isOneOf_of_subset hl (by decide)
    rw [hi, List.cons_append, typeParametersFrom, hstop, hopen, hclose]
    simp only [Bool.false_eq_true, if_false]
    split
    · exact ih hd (arity + 1) (i + 1) after
    · exact ih hd arity (i + 1) after
  | @nested ms ls _ _ ihm ihl =>
    obtain ⟨a, ha⟩ := ihm (Nat.le_succ_of_le hd) arity (i + 1) (mark ">" :: (ls ++ after))
    obtain ⟨b, hb⟩ := ihl hd a (i + 1 + ms.length + 1) after
    have hi : i + (angles ms ++ ls).length = i + 1 + ms.length + 1 + ls.length := by
      simp only [angles, List.cons_append, List.append_assoc, List.length_cons, List.length_append,
        List.length_nil]
      omega
    refine ⟨b, ?_⟩
    rw [hi, ← hb, angles]
    simp only [List.cons_append, List.append_assoc, List.nil_append]
    rw [typeParametersFrom_open, ha, typeParametersFrom_close, if_neg (by omega)]
    rfl

theorem accepts_typeParameters {ms : List Lexeme} (h : Angled ms) (i : Nat) (after : List Lexeme) :
    Accepts t typeParameters i (angles ms) after fun _ => True := by
  obtain ⟨a, ha⟩ := typeParametersFrom_of_angled h (Nat.le_refl 1) 1 (i + 1) (mark ">" :: after)
  have hp : typeParameters ⟨i, angles ms ++ after⟩ = ⟨a, ⟨i + (angles ms).length, after⟩, []⟩ := by
    have hi : i + (angles ms).length = i + 1 + ms.length + 1 := by
      simp only [angles, List.length_cons, List.length_append, List.length_nil]
      omega
    rw [hi, typeParameters, angles, List.cons_append, List.append_assoc]
    exact ha.trans (typeParametersFrom_close a 1 _ after)
  exact .of_eq hp trivial rfl

theorem atOneOf_of_subset {i : Nat} {ls : List Lexeme} {ps qs : List String}
    (h : ls.head?.any (·.isOneOf ps) = false) (hq : ∀ q ∈ qs, q ∈ ps) :
    Cursor.atOneOf ⟨i, ls⟩ qs = false := by
  cases ls with
  | nil => rfl
  | cons l ls => exact isOneOf_of_subset h hq

theorem atPunct_of_isOneOf {i : Nat} {ls : List Lexeme} {ps : List String}
    (h : ls.head?.any (·.isOneOf ps) = false) {p : String} (hp : p ∈ ps) :
    Cursor.atPunct ⟨i, ls⟩ p = false := by
  cases ls with
  | nil => rfl
  | cons l ls => exact isPunct_of_isOneOf h hp

theorem head?_isPunct_of_not_mem {ls : List Lexeme} {ps : List String}
    (h : ls.head?.any (·.isOneOf ps) = true) {p : String} (hp : p ∉ ps) :
    ls.head?.any (·.isPunct p) = false := by
  cases ls with
  | nil => rfl
  | cons l ls => exact isPunct_of_not_mem h hp

theorem atOneOf_of_disjoint {i : Nat} {ls : List Lexeme} {ps qs : List String}
    (h : ls.head?.any (·.isOneOf ps) = true) (hq : ∀ p ∈ ps, p ∉ qs) :
    Cursor.atOneOf ⟨i, ls⟩ qs = false := by
  cases ls with
  | nil => rfl
  | cons l ls => exact isOneOf_of_disjoint h hq

theorem head?_append_isOneOf {ls : List Lexeme} {ps : List String}
    (h : ls.head?.any (·.isOneOf ps) = true) (after : List Lexeme) :
    (ls ++ after).head?.any (·.isOneOf ps) = true := by
  cases ls with
  | nil => cases h
  | cons l ls => exact h

theorem typeTail_qualified {sign name : Lexeme} (hs : sign.isOneOf [".", "::"] = true)
    (hn : name.isName = true) (i : Nat) (ls : List Lexeme) :
    typeTail ⟨i, sign :: name :: ls⟩ = typeTail ⟨i + 2, ls⟩ := by
  have hq : atQualifier ⟨i, sign :: name :: ls⟩ = true := by
    rw [atQualifier, Bool.and_eq_true]
    exact ⟨hs, hn⟩
  rw [typeTail, dif_pos hq]
  rfl

theorem typeTail_angle (i : Nat) (ls : List Lexeme) :
    typeTail ⟨i, mark "<" :: ls⟩ = (typeTail (typeParameters ⟨i, mark "<" :: ls⟩).rest).before
      (typeParameters ⟨i, mark "<" :: ls⟩).found := by
  have hq : ¬atQualifier ⟨i, mark "<" :: ls⟩ = true := Bool.false_ne_true
  rw [typeTail, dif_neg hq, dif_pos (atPunct_mark "<" i ls)]

theorem accepts_typeTail {ls after : List Lexeme} (h : TypeTail ls)
    (ha : after.head?.any (·.isOneOf [".", "::", "<"]) = false) (i : Nat) :
    Accepts t typeTail i ls after fun _ => True := by
  induction h generalizing i with
  | nil =>
    have hq : atQualifier ⟨i, after⟩ = false := by
      rw [atQualifier, atOneOf_of_subset ha (by decide), Bool.false_and]
    have stop : typeTail ⟨i, after⟩ = ⟨(), ⟨i, after⟩, []⟩ := by
      rw [typeTail, dif_neg (by simp [hq]), dif_neg]
      simp [atPunct_of_isOneOf ha (p := "<") (by decide)]
    exact .of_eq stop trivial rfl
  | @qualified sign name ls hs hn _ ih =>
    have next : typeTail ⟨i, [sign, name] ++ (ls ++ after)⟩
        = (typeTail ⟨i + 2, ls ++ after⟩).before [] := typeTail_qualified hs hn i _
    exact .of_before next rfl (ih (i + 2))
  | @arguments ms ls hm _ _ ih =>
    have hp := accepts_typeParameters (t := t) hm i (ls ++ after)
    have next : typeTail ⟨i, angles ms ++ (ls ++ after)⟩
        = (typeTail ⟨i + (angles ms).length, ls ++ after⟩).before
          (typeParameters ⟨i, angles ms ++ (ls ++ after)⟩).found := by
      rw [← hp.rest]
      exact typeTail_angle i _
    exact .of_before next hp.found (ih _)

theorem accepts_typeSuffixes {ls after : List Lexeme} (h : TypeSuffixes ls)
    (ha : after.head?.any (·.isOneOf ["?", "*", "["]) = false) (i : Nat) :
    Accepts t typeSuffixes i ls after fun _ => True := by
  induction h generalizing i with
  | nil =>
    have hn : Cursor.atOneOf ⟨i, after⟩ ["?", "*"] = false := atOneOf_of_subset ha (by decide)
    have hs : atArraySuffix ⟨i, after⟩ = false := by
      rw [atArraySuffix, atPunct_of_isOneOf ha (by decide), Bool.false_and]
    have stop : typeSuffixes ⟨i, after⟩ = ⟨(), ⟨i, after⟩, []⟩ := by
      rw [typeSuffixes, dif_neg, hs]
      · rfl
      · simp [hn]
    exact .of_eq stop trivial rfl
  | @sign l ls hl _ ih =>
    have next : typeSuffixes ⟨i, l :: (ls ++ after)⟩ = typeSuffixes ⟨i + 1, ls ++ after⟩ := by
      rw [typeSuffixes, dif_pos (show Cursor.atOneOf ⟨i, l :: _⟩ _ = true from hl)]
      rfl
    exact .of_next next (ih (i + 1))
  | @array ls commas _ ih =>
    have hw : WellNested (List.replicate commas (mark ",")) := .replicate rfl commas
    have ha : atArraySuffix
        ⟨i, grouped .square (List.replicate commas (mark ",")) ++ (ls ++ after)⟩ = true := by
      cases commas <;> rfl
    have next : typeSuffixes
          ⟨i, grouped .square (List.replicate commas (mark ",")) ++ (ls ++ after)⟩
        = (typeSuffixes ⟨i + (grouped .square (List.replicate commas (mark ","))).length,
            ls ++ after⟩).before [] := by
      have hs : ¬Cursor.atOneOf ⟨i, grouped .square (List.replicate commas (mark ","))
          ++ (ls ++ after)⟩ ["?", "*"] = true := Bool.false_ne_true
      rw [typeSuffixes, dif_neg hs, ha]
      simp only [if_true, skipGroup_of_wellNested .square hw, dif_pos]
    exact .of_before next rfl (ih _)

/-- **A type is skipped** in front of a word. -/
theorem accepts_typeReference {ls after : List Lexeme} (h : TypeForm ls)
    (ha : after.head?.any isWordy = true) (i : Nat) :
    Accepts t typeReference i ls after (· = true) := by
  have hp : ∀ ps, after.head?.any (·.isOneOf ps) = false := by
    intro ps
    cases after with
    | nil => rfl
    | cons l ls => exact isOneOf_of_isWordy ha ps
  unfold typeReference
  cases h with
  | @named l tail suffixes hl ht hs =>
    refine .lookElse ?_ <| .lookThen ?_ <| .advance <| .bind (accepts_typeTail ht ?_ _) fun _ _ =>
      .before_nothing (accepts_typeSuffixes hs (hp _) _) fun _ _ => .pure rfl
    · exact isPunct_of_isWordy (isWordy_of_startsType hl) "("
    · show (l.isName || l.isKeywordOf builtinTypes) = true
      rw [startsType, Bool.or_eq_true, Bool.and_eq_true] at hl
      exact Bool.or_eq_true_iff.2 (hl.symm.imp_left And.left)
    · cases hs with
      | nil => exact hp _
      | sign hs _ => exact isOneOf_of_disjoint hs (by decide)
      | array _ _ => rfl
  | @tuple ms suffixes hm hs =>
    refine .lookThen rfl <| .bind (accepts_skipGroup .paren hm i _) fun b hb => ?_
    rw [hb, if_pos rfl]
    exact .before_nothing (accepts_typeSuffixes hs (hp _) _) fun _ _ => .pure rfl

/-! ### Names of members -/

theorem angleLength_of_angled {ms : List Lexeme} (h : Angled ms) {depth : Nat} (hd : 1 ≤ depth)
    (after : List Lexeme) :
    angleLength depth (ms ++ after) = (angleLength depth after).map (· + ms.length) := by
  induction h generalizing depth after with
  | nil => simp
  | @plain l ls hl _ ih =>
    have hopen : l.isPunct "<" = false := isPunct_of_isOneOf hl (by decide)
    have hclose : l.isPunct ">" = false := isPunct_of_isOneOf hl (by decide)
    have hstop : l.isOneOf ["\x7b", "\x7d", ";", "("] = false := isOneOf_of_subset hl (by decide)
    rw [List.cons_append, angleLength, hstop, hopen, hclose]
    simp only [Bool.false_eq_true, if_false]
    rw [ih hd, Option.map_map]
    rfl
  | @nested ms ls _ _ ihm ihl =>
    have hclose : ∀ rest, angleLength (depth + 1) (mark ">" :: rest)
        = if depth + 1 ≤ 1 then some 1 else (angleLength depth rest).map (· + 1) := fun _ => rfl
    have hopen : ∀ rest, angleLength depth (mark "<" :: rest)
        = (angleLength (depth + 1) rest).map (· + 1) := fun _ => rfl
    simp only [angles, List.cons_append, List.append_assoc, List.nil_append]
    rw [hopen, ihm (Nat.le_succ_of_le hd), hclose, if_neg (by omega), ihl hd]
    simp only [Option.map_map, List.length_cons, List.length_append]
    congr 1
    funext n
    simp only [Function.comp_apply]
    omega

theorem qualifyingArguments_of_not_open {i : Nat} {ls : List Lexeme}
    (h : ls.head?.any (·.isPunct "<") = false) : qualifyingArguments ⟨i, ls⟩ = none :=
  if_neg (by rw [Cursor.atPunct, Cursor.head?, h]; exact Bool.false_ne_true)

/-- A name that no `.` follows is the name of a member, with type parameters or without. -/
theorem accepts_memberName? {s : String} {after : List Lexeme}
    (hd : after.head?.any (·.isPunct ".") = false)
    (hq : ∀ i, qualifyingArguments ⟨i, after⟩ = none) (i : Nat) :
    Accepts t memberName? i [.name s] after (· = some s) := by
  have tail : ∀ j, Accepts t (memberNameTail s) j [] after (· = s) := by
    intro j
    have hp : ¬(Cursor.atPunct ⟨j, after⟩ "." = true ∧
        Cursor.atName (Cursor.next ⟨j, after⟩) = true) :=
      fun h => by
        rw [show Cursor.atPunct ⟨j, after⟩ "." = false from hd] at h
        cases h.1
    have stop : memberNameTail s ⟨j, after⟩ = ⟨s, ⟨j, after⟩, []⟩ := by
      rw [memberNameTail, dif_neg hp]
      split
      · rename_i n hn
        rw [hq] at hn
        cases hn
      · rfl
    exact .of_eq stop rfl rfl
  unfold memberName?
  refine .before_nothing (.name? s) fun a ha => ?_
  subst ha
  refine .after_nothing (tail _) fun b hb => .pure ?_
  rw [hb]

end

end Parser
end Outline
