/-
# Accessors are accepted

The braces of a property hold accessors one after the other: attributes, modifiers, a word
such as `get`, and what it does.

| what it does | lexemes |
| --- | --- |
| a semicolon | `;` |
| a block | statements in braces |
| an expression | `=>`, code with no such word outside of brackets, and `;` |

The check of accessors looks at nothing in brackets but where a block starts and ends, and in
an expression at nothing but such words and the semicolon (`passes_nested`).  So it finds each
block as the one that is written, and these are checked as blocks of statements.
-/

import Outline.Proofs.Parser.Statements

namespace Outline
namespace Parser

open Lexeme (mark)

/-! ### Lexemes outside of brackets -/

/-- The lexemes outside of brackets, given how many are open. -/
def outside (depth : Nat) : List Lexeme → List Lexeme
  | [] => []
  | l :: ls =>
    match l.delimiter? with
    | some (.opening _) => outside (depth + 1) ls
    | some (.closing _) => outside (depth - 1) ls
    | none => if depth = 0 then l :: outside depth ls else outside depth ls

/-- Nothing is outside in brackets that stay open. -/
theorem outside_nested {opened last : List Bracket} {ls : List Lexeme}
    (h : nested opened ls = some last) (base : Nat) (ms : List Lexeme) :
    outside (opened.length + (base + 1)) (ls ++ ms) = outside (last.length + (base + 1)) ms := by
  induction ls generalizing opened with
  | nil =>
    rw [nested, Option.some.injEq] at h
    rw [h]
    rfl
  | cons l ls ih =>
    rw [nested] at h
    rw [List.cons_append, outside]
    cases hl : l.delimiter? with
    | none =>
      rw [hl] at h
      exact (if_neg (by omega)).trans (ih h)
    | some d =>
      rw [hl] at h
      cases d with
      | opening b =>
        rw [← ih h, List.length_cons, Nat.add_right_comm]
      | closing b =>
        cases opened with
        | nil => cases h
        | cons a opened =>
          dsimp only at h
          split at h
          · have hdepth : (a :: opened).length + (base + 1) - 1 = opened.length + (base + 1) := by
              rw [List.length_cons]
              omega
            dsimp only
            rw [hdepth, ih h]
          · cases h

theorem outside_grouped (b : Bracket) {ms : List Lexeme} (h : WellNested ms) (ls : List Lexeme) :
    outside 0 (grouped b ms ++ ls) = outside 0 ls := by
  have hopen : outside 0 (grouped b ms ++ ls) = outside 1 (ms ++ (mark b.closer :: ls)) := by
    rw [grouped, List.cons_append, List.append_assoc, outside, delimiter?_opener]
    rfl
  have hinner : outside 1 (ms ++ (mark b.closer :: ls)) = outside 1 (mark b.closer :: ls) :=
    outside_nested h 0 _
  rw [hopen, hinner, outside, delimiter?_closer]

/-! ### Steps of the check -/

namespace AccessorState

variable {s t u : AccessorState} {i : Nat} {l : Lexeme} {ls ms : List Lexeme}

/-- From the index `i` on, the check goes through the lexemes to another state; it finds
nothing, and no block ends. -/
def Passes (s : AccessorState) (i : Nat) (ls : List Lexeme) (t : AccessorState) : Prop :=
  ∀ after, checkAccessorsFrom s i (ls ++ after) = checkAccessorsFrom t (i + ls.length) after

theorem Passes.append (h : s.Passes i ls t) (k : t.Passes (i + ls.length) ms u) :
    s.Passes i (ls ++ ms) u := by
  intro after
  rw [List.append_assoc, h, k, List.length_append, Nat.add_assoc]

theorem passes_step (hs : s.startsAccessor l = false) (ht : s.step i l = (t, none)) :
    s.Passes i [l] t := by
  intro after
  rw [List.singleton_append, checkAccessorsFrom, ht, missing, hs]
  rfl

theorem startsAccessor_of_ne (h : l.isWordOf accessorWords = false) :
    s.startsAccessor l = false := by
  rw [startsAccessor, h, Bool.and_false, Bool.false_and]

/-- In brackets that stay open nothing is looked at. -/
theorem passes_nested {opened last : List Bracket} (h : nested opened ls = some last) {base : Nat}
    (hd : s.depth = opened.length + (base + 1)) (i : Nat) :
    ∃ p, s.Passes i ls { s with depth := last.length + (base + 1), previous := p } := by
  induction ls generalizing opened s i with
  | nil =>
    rw [nested, Option.some.injEq] at h
    refine ⟨s.previous, fun after => ?_⟩
    rw [← h, ← hd]
    rfl
  | cons l ls ih =>
    -- the bracket around all of them is open, so no lexeme is at the level of accessors
    have hdepth : s.depth ≠ 0 := by omega
    have hstarts : s.startsAccessor l = false := by simp [startsAccessor, hdepth]
    have hexpression : s.expressionAfter l = s.inExpression := if_pos hdepth
    rw [nested] at h
    cases hl : l.delimiter? with
    | none =>
      rw [hl] at h
      obtain ⟨p, hp⟩ := ih (s := { s with previous := some l }) h hd (i + 1)
      refine ⟨p, (passes_step hstarts ?_).append hp⟩
      rw [step, hl, hexpression]
    | some d =>
      rw [hl] at h
      cases d with
      | opening b =>
        obtain ⟨p, hp⟩ := ih (s := { s with depth := s.depth + 1, previous := some l }) h
          (by rw [hd, List.length_cons, Nat.add_right_comm]) (i + 1)
        refine ⟨p, (passes_step hstarts ?_).append hp⟩
        rw [step, hl, hexpression]
        simp [hdepth]
      | closing b =>
        cases opened with
        | nil => cases h
        | cons a opened =>
          dsimp only at h
          split at h
          · rw [List.length_cons] at hd
            obtain ⟨p, hp⟩ := ih (s := { s with depth := s.depth - 1, previous := some l }) h
              (by dsimp only; omega) (i + 1)
            refine ⟨p, (passes_step hstarts ?_).append hp⟩
            have hinner : ¬s.depth ≤ 1 := by omega
            rw [step, hl, hexpression]
            simp [hinner]
          · cases h

/-- What is well nested is passed inside of a bracket. -/
theorem passes_inside (hm : WellNested ms) (hd : s.depth = 1) (i : Nat) :
    ∃ q, s.Passes i ms { s with previous := q } := by
  have hinner : s.depth = ([] : List Bracket).length + (0 + 1) := hd
  obtain ⟨q, hq⟩ := passes_nested hm hinner i
  have hsame : ({ s with depth := 1, previous := q } : AccessorState)
      = { s with previous := q } := by
    rw [← hd]
  exact ⟨q, hsame ▸ hq⟩

/-- A group is passed, unless it is the block of an accessor. -/
theorem passes_group {b : Bracket} (hm : WellNested ms) {e : Bool} (hb : b = .brace → e = true)
    (p : Option Lexeme) (i : Nat) :
    ({ inExpression := e, previous := p } : AccessorState).Passes i (grouped b ms)
      { inExpression := e, previous := some (mark b.closer) } := by
  let opened : AccessorState :=
    { depth := 1, inExpression := e, previous := some (mark (delimiterText (.opening b))) }
  have hopen : ({ inExpression := e, previous := p } : AccessorState).Passes i
      [mark (delimiterText (.opening b))] opened := by
    refine passes_step (startsAccessor_of_ne (by cases b <;> rfl)) ?_
    cases b with
    | paren | square => cases e <;> rfl
    | brace =>
      obtain rfl : e = true := hb rfl
      rfl
  obtain ⟨q, hq⟩ := passes_inside (s := opened) hm rfl (i + 1)
  have hclose : ({ opened with previous := q } : AccessorState).Passes (i + 1 + ms.length)
      [mark b.closer] { inExpression := e, previous := some (mark b.closer) } := by
    refine passes_step (startsAccessor_of_ne (by cases b <;> rfl)) ?_
    cases b <;> rfl
  exact hopen.append (hq.append hclose)

/-- An expression is passed if no accessor word is outside of its brackets. -/
theorem passes_expression (h : Expression [";"] ls)
    (hw : ∀ l ∈ outside 0 ls, l.isWordOf accessorWords = false) (p : Option Lexeme) (i : Nat) :
    ∃ q, ({ inExpression := true, previous := p } : AccessorState).Passes i ls
      { inExpression := true, previous := q } := by
  induction h generalizing p i with
  | nil => exact ⟨p, fun _ => rfl⟩
  | @plain l ls hl hs _ ih =>
    rw [outside, hl] at hw
    obtain ⟨hword, hrest⟩ := List.forall_mem_cons.1 hw
    obtain ⟨q, hq⟩ := ih hrest (some l) (i + 1)
    refine ⟨q, (passes_step (startsAccessor_of_ne hword) ?_).append hq⟩
    have hs : l.isPunct ";" = false := isPunct_of_isOneOf hs (by decide)
    simp [step, hl, expressionAfter, startsAccessor_of_ne hword, hs]
  | @group b ms ls _ hm _ ih =>
    rw [outside_grouped b hm] at hw
    obtain ⟨q, hq⟩ := ih hw (some (mark b.closer)) (i + (grouped b ms).length)
    exact ⟨q, (passes_group hm (fun _ => rfl) p i).append hq⟩

end AccessorState

/-! ### Accessors -/

/-- What an accessor does, as lexemes after its word. -/
inductive AccessorBody : List Lexeme → Prop
  | absent : AccessorBody [mark ";"]
  | block {ms : List Lexeme} : Phrase .statements ms → AccessorBody (grouped .brace ms)
  | expression {ls : List Lexeme} (hw : ∀ l ∈ outside 0 ls, l.isWordOf accessorWords = false) :
      Phrase .code ls → AccessorBody (mark "=>" :: (ls ++ [mark ";"]))

/-- The lexemes of accessors, with their attributes and modifiers. -/
inductive AccessorList : List Lexeme → Prop
  | nil : AccessorList []
  | cons (as : List (List Lexeme)) (ws : List String) (w : String) {body ls : List Lexeme}
      (ha : ∀ a ∈ as, WellNested a) (hws : ∀ w ∈ ws, w ∈ modifierKeywords)
      (hw : w ∈ accessorWords) : AccessorBody body → AccessorList ls →
        AccessorList (as.flatMap (grouped .square) ++ (ws.map .word ++ .name w :: (body ++ ls)))

theorem AccessorBody.wellNested {ls : List Lexeme} (h : AccessorBody ls) : WellNested ls := by
  cases h with
  | absent => decide
  | block h => exact h.wellNested.bracket .brace
  | expression _ h => exact .plain rfl (h.wellNested.append (.plain rfl .nil))

theorem wellNested_words (ws : List String) : WellNested (ws.map .word) := by
  induction ws with
  | nil => exact .nil
  | cons w ws ih => exact ih.plain (delimiter?_of_isWordy (isWordy_word w))

theorem AccessorList.wellNested {ls : List Lexeme} (h : AccessorList ls) : WellNested ls := by
  induction h with
  | nil => exact .nil
  | cons _ ws w ha _ _ hbody _ ih =>
    have hattributes := WellNested.flatMap fun a h => (ha a h).bracket .square
    have hword : WellNested (.name w :: (_ ++ _)) := .plain rfl (hbody.wellNested.append ih)
    exact hattributes.append ((wellNested_words ws).append hword)

/-- What stands before the word of an accessor: attributes and modifiers. -/
def accessorLead (as : List (List Lexeme)) (ws : List String) : List Lexeme :=
  as.flatMap (grouped .square) ++ ws.map .word

/-- An accessor can start after such a lexeme, or at the start of the braces. -/
def precedesAccessor (p : Option Lexeme) : Bool :=
  p.all fun p => p.kind == .keyword || p.isOneOf [";", "\x7d", "]"]

/-- Lexemes, from the index `i` on, in which the block with these two braces is one of
statements. -/
def HasBlock (i : Nat) (ls : List Lexeme) (braces : Nat × Nat) : Prop :=
  ∃ before ms after, Phrase .statements ms ∧ ls = before ++ (grouped .brace ms ++ after) ∧
    braces = (i + before.length, i + before.length + ms.length + 1)

theorem HasBlock.after {i : Nat} {ls ms : List Lexeme} {braces : Nat × Nat}
    (h : HasBlock (i + ls.length) ms braces) : HasBlock i (ls ++ ms) braces := by
  obtain ⟨before, ks, rest, hk, rfl, rfl⟩ := h
  refine ⟨ls ++ before, ks, rest, hk, by simp, ?_⟩
  rw [List.length_append, Nat.add_assoc i]

/-- From a state, nothing is found in the lexemes, and the blocks are of statements. -/
structure Clean (s : AccessorState) (i : Nat) (ls : List Lexeme) : Prop where
  found : (checkAccessorsFrom s i ls).1 = []
  blocks : ∀ b ∈ (checkAccessorsFrom s i ls).2, HasBlock i ls b

namespace AccessorState

variable {s t : AccessorState} {i : Nat} {ls ms : List Lexeme}

theorem Passes.clean (h : s.Passes i ls t) (k : Clean t (i + ls.length) ms) :
    Clean s i (ls ++ ms) := by
  have heq := h ms
  constructor
  · rw [heq, k.found]
  · rw [heq]
    exact fun b hb => (k.blocks b hb).after

theorem startsAccessor_eq {p : Option Lexeme} (hp : precedesAccessor p = true) (l : Lexeme) :
    ({ previous := p } : AccessorState).startsAccessor l = l.isWordOf accessorWords := by
  cases p with
  | none => simp [startsAccessor]
  | some p =>
    rw [precedesAccessor, Option.all_some] at hp
    simp [startsAccessor, hp]

/-- Attributes are passed. -/
theorem passes_attributes {as : List (List Lexeme)} (h : ∀ a ∈ as, WellNested a) (e : Bool)
    (p : Option Lexeme) (i : Nat) : ({ inExpression := e, previous := p } : AccessorState).Passes i
      (as.flatMap (grouped .square))
      { inExpression := e, previous := (as.flatMap (grouped .square)).getLast?.or p } := by
  induction as generalizing p i with
  | nil => exact fun _ => rfl
  | cons a as ih =>
    obtain ⟨ha, has⟩ := List.forall_mem_cons.1 h
    have hlast : ((a :: as).flatMap (grouped .square)).getLast?.or p
        = (as.flatMap (grouped .square)).getLast?.or (some (mark "]")) := by
      rw [List.flatMap_cons, List.getLast?_append, grouped_square, ← List.cons_append,
        List.getLast?_concat]
      cases (as.flatMap (grouped .square)).getLast? <;> rfl
    rw [hlast, List.flatMap_cons]
    exact (passes_group ha (fun h => by cases h) p i).append (ih has (some (mark "]")) _)

/-- Reserved words are passed. -/
theorem passes_modifiers {ws : List String} (h : ∀ w ∈ ws, w ∈ modifierKeywords) (e : Bool)
    (p : Option Lexeme) (i : Nat) : ({ inExpression := e, previous := p } : AccessorState).Passes i
      (ws.map .word) { inExpression := e, previous := (ws.map Lexeme.word).getLast?.or p } := by
  have reserved : ∀ w ∈ modifierKeywords, Lexeme.word w = ⟨.keyword, w⟩ := by decide
  induction ws generalizing p i with
  | nil => exact fun _ => rfl
  | cons w ws ih =>
    obtain ⟨hw, hws⟩ := List.forall_mem_cons.1 h
    have hlast : ((w :: ws).map Lexeme.word).getLast?.or p
        = (ws.map Lexeme.word).getLast?.or (some (.word w)) := by
      rw [List.map_cons, List.getLast?_cons]
      cases (ws.map Lexeme.word).getLast? <;> rfl
    rw [hlast]
    have hstarts : ({ inExpression := e, previous := p } : AccessorState).startsAccessor (.word w)
        = false := startsAccessor_of_ne (by rw [reserved w hw]; rfl)
    refine (passes_step hstarts ?_).append (ih hws (some (.word w)) (i + 1))
    have hd : (Lexeme.word w).delimiter? = none := delimiter?_of_isWordy (isWordy_word w)
    rw [step, hd, expressionAfter, hstarts]
    simp [reserved w hw, Lexeme.isPunct]

/-- Attributes and reserved words are passed. -/
theorem passes_lead {as : List (List Lexeme)} {ws : List String} (ha : ∀ a ∈ as, WellNested a)
    (hws : ∀ w ∈ ws, w ∈ modifierKeywords) (e : Bool) (p : Option Lexeme) (i : Nat) :
    ({ inExpression := e, previous := p } : AccessorState).Passes i (accessorLead as ws)
      { inExpression := e, previous := (accessorLead as ws).getLast?.or p } := by
  have h := (passes_attributes ha e p i).append (passes_modifiers hws e _ (i + _))
  rwa [← Option.or_assoc, ← List.getLast?_append] at h

/-- An accessor can start after attributes and reserved words. -/
theorem precedesAccessor_lead {as : List (List Lexeme)} {ws : List String}
    (hws : ∀ w ∈ ws, w ∈ modifierKeywords) {p : Option Lexeme}
    (hp : accessorLead as ws = [] → precedesAccessor p = true) :
    precedesAccessor ((accessorLead as ws).getLast?.or p) = true := by
  have reserved : ∀ w ∈ modifierKeywords, Lexeme.word w = ⟨.keyword, w⟩ := by decide
  unfold accessorLead at hp ⊢
  -- a modifier is last or, without modifiers, the bracket of attributes
  induction ws using List.reverseRecOn with
  | nil =>
    induction as using List.reverseRecOn with
    | nil => exact hp rfl
    | append_singleton as a _ =>
      rw [List.map_nil, List.append_nil, List.flatMap_append, List.flatMap_singleton,
        List.getLast?_append, grouped_square, ← List.cons_append, List.getLast?_concat]
      rfl
  | append_singleton ws w _ =>
    rw [List.map_append, List.map_singleton, ← List.append_assoc, List.getLast?_concat,
      reserved w (hws w (by simp))]
    rfl

/-- The word of an accessor is passed if what it does follows. -/
theorem clean_word {w : String} (hw : w ∈ accessorWords) {p : Option Lexeme}
    (hp : precedesAccessor p = true)
    (hs : ls.head?.any (·.isOneOf [";", "\x7b", "=>"]) = true)
    (h : Clean { previous := some (.name w) } (i + 1) ls) :
    Clean { previous := p } i (.name w :: ls) := by
  have hword : (Lexeme.name w).isWordOf accessorWords = true := by
    simp [Lexeme.isWordOf, Lexeme.name, hw]
  have hstarts := (startsAccessor_eq hp (.name w)).trans hword
  have hstep : ({ previous := p } : AccessorState).step i (.name w)
      = ({ previous := some (.name w) }, none) := by
    have hd : (Lexeme.name w).delimiter? = none := rfl
    rw [step, hd, expressionAfter, hstarts]
    rfl
  have heq : checkAccessorsFrom { previous := p } i (.name w :: ls)
      = checkAccessorsFrom { previous := some (.name w) } (i + 1) ls := by
    rw [checkAccessorsFrom, hstep, missing, hstarts, hs]
    rfl
  constructor
  · rw [heq, h.found]
  · rw [heq]
    intro b hb
    have hblock : HasBlock (i + [Lexeme.name w].length) ls b := h.blocks b hb
    exact hblock.after

/-- The block of an accessor ends at the brace that closes it. -/
theorem checkAccessorsFrom_block (hm : WellNested ms) (p : Option Lexeme) (i : Nat)
    (ls : List Lexeme) :
    let after := checkAccessorsFrom { previous := some (mark "\x7d") }
      (i + (grouped .brace ms).length) ls
    checkAccessorsFrom { previous := p } i (grouped .brace ms ++ ls)
      = (after.1, (i, i + ms.length + 1) :: after.2) := by
  intro after
  let opened : AccessorState := { depth := 1, blockStart := some i, previous := some (mark "\x7b") }
  obtain ⟨q, hq⟩ := passes_inside (s := opened) hm rfl (i + 1)
  have hopen : checkAccessorsFrom { previous := p } i (grouped .brace ms ++ ls)
      = checkAccessorsFrom opened (i + 1) (ms ++ mark "\x7d" :: ls) := by
    rw [grouped_brace, List.cons_append, List.append_assoc, checkAccessorsFrom, missing,
      startsAccessor_of_ne rfl]
    rfl
  have hindex : i + (grouped .brace ms).length = i + 1 + ms.length + 1 := by
    rw [length_grouped]
    omega
  have hlast : i + 1 + ms.length = i + ms.length + 1 := Nat.add_right_comm i 1 ms.length
  -- the closing brace is the first at the level of the opening one, so it ends the block
  rw [hopen, hq, checkAccessorsFrom, missing, startsAccessor_of_ne rfl]
  show (_, (i, i + 1 + ms.length) :: _) = (after.1, _)
  simp only [after, hindex, hlast]
  rfl

/-- The block of an accessor is found with its braces. -/
theorem clean_block (hm : Phrase .statements ms) (p : Option Lexeme)
    (h : Clean { previous := some (mark "\x7d") } (i + (grouped .brace ms).length) ls) :
    Clean { previous := p } i (grouped .brace ms ++ ls) := by
  have heq := checkAccessorsFrom_block hm.wellNested p i ls
  constructor
  · rw [heq]
    exact h.found
  · rw [heq, List.forall_mem_cons]
    exact ⟨⟨[], ms, ls, hm, rfl, rfl⟩, fun b hb => (h.blocks b hb).after⟩

end AccessorState

open AccessorState

/-- What an accessor does is passed, and its block is found. -/
theorem AccessorBody.clean {body ls : List Lexeme} (h : AccessorBody body) (p : Option Lexeme)
    {i : Nat} (hls : ∀ q, precedesAccessor q = true → ∀ j, Clean { previous := q } j ls) :
    Clean { previous := p } i (body ++ ls) := by
  cases h with
  | absent =>
    have hpasses : ({ previous := p } : AccessorState).Passes i [mark ";"]
        { previous := some (mark ";") } := passes_step (startsAccessor_of_ne rfl) rfl
    exact hpasses.clean (hls _ rfl _)
  | block hm => exact clean_block hm p (hls _ rfl _)
  | @expression es hw he =>
    have harrow : ({ previous := p } : AccessorState).Passes i [mark "=>"]
        { inExpression := true, previous := some (mark "=>") } :=
      passes_step (startsAccessor_of_ne rfl) rfl
    obtain ⟨q, hq⟩ := passes_expression he.expression hw (some (mark "=>")) (i + 1)
    have hend : ({ inExpression := true, previous := q } : AccessorState).Passes
        (i + 1 + es.length) [mark ";"] { previous := some (mark ";") } :=
      passes_step (startsAccessor_of_ne rfl) rfl
    exact (harrow.append (hq.append hend)).clean (hls _ rfl _)

theorem AccessorBody.head? {body : List Lexeme} (h : AccessorBody body) (ls : List Lexeme) :
    (body ++ ls).head?.any (·.isOneOf [";", "\x7b", "=>"]) = true := by
  cases h <;> rfl

/-- **Accessors are in order** wherever one can start. -/
theorem AccessorList.clean {ls : List Lexeme} (h : AccessorList ls) {p : Option Lexeme}
    (hp : precedesAccessor p = true) (i : Nat) : Clean { previous := p } i ls := by
  -- An accessor ends in a semicolon or a brace, and after either the next one can start.
  induction h generalizing p i with
  | nil => exact ⟨rfl, fun _ h => absurd h List.not_mem_nil⟩
  | cons _ _ _ ha hws hw hbody _ ih =>
    have hlead := passes_lead ha hws false p i
    rw [← List.append_assoc]
    refine hlead.clean (clean_word hw (precedesAccessor_lead hws fun _ => hp) (hbody.head? _) ?_)
    exact hbody.clean _ fun q hq j => ih hq j

/-- The block of an accessor is cut out of the braces with its own. -/
theorem slice_of_hasBlock {i : Nat} {ls : List Lexeme} {braces : Nat × Nat}
    (h : HasBlock (i + 1) ls braces) : ∃ ms, Phrase .statements ms ∧
      (⟨i, grouped .brace ls⟩ : Block).slice braces.1 braces.2
        = ⟨braces.1, grouped .brace ms⟩ := by
  obtain ⟨before, ms, after, hm, rfl, rfl⟩ := h
  refine ⟨ms, hm, ?_⟩
  have hdrop : i + 1 + before.length - i = (mark "\x7b" :: before).length := by
    rw [List.length_cons]
    omega
  have htake : i + 1 + before.length + ms.length + 1 + 1 - (i + 1 + before.length)
      = (grouped .brace ms).length := by
    rw [length_grouped]
    omega
  have hsplit : grouped .brace (before ++ (grouped .brace ms ++ after))
      = (mark "\x7b" :: before) ++ (grouped .brace ms ++ (after ++ [mark "\x7d"])) := by
    rw [grouped_brace]
    simp
  rw [Block.slice, hdrop, htake, hsplit, List.drop_left, List.take_left]

/-- **The check of accessors** finds no faults, neither in them nor in their blocks. -/
theorem covers_checkAccessors {ls : List Lexeme} (h : AccessorList ls) (i : Nat) :
    Tolerance.harmless.covers (checkAccessors ⟨i, grouped .brace ls⟩) = true := by
  have hclean := h.clean (p := none) rfl (i + 1)
  have hinner : (⟨i, grouped .brace ls⟩ : Block).inner = ls := by simp [Block.inner, grouped_brace]
  have hblocks : ∀ b ∈ (checkAccessorsFrom {} (i + 1) ls).2,
      Tolerance.harmless.covers ((⟨i, grouped .brace ls⟩ : Block).slice b.1 b.2).check = true := by
    intro b hb
    obtain ⟨ms, hm, hslice⟩ := slice_of_hasBlock (hclean.blocks b hb)
    rw [hslice]
    exact covers_check (hm.checkStatements_eq_nil 0) b.1
  rw [checkAccessors, hinner]
  dsimp only
  rw [Tolerance.covers_append, hclean.found, Tolerance.covers, List.all_nil, Bool.true_and,
    Tolerance.covers, List.all_flatMap, List.all_eq_true]
  exact hblocks

/-- **Accessors are accepted**, if no `=` follows. -/
theorem accepts_accessorList {ls after : List Lexeme} (h : AccessorList ls)
    (ha : after.head?.any (·.isPunct "=") = false) (i : Nat) :
    Accepts .harmless accessors i (grouped .brace ls) after fun _ => True :=
  .lookThen rfl <| .before_nothing (accepts_checkedBlock h.wellNested i after
    (covers_checkAccessors h i)) fun _ _ => .eat_not ha <| .pure trivial

end Parser
end Outline
