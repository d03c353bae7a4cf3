/-
# Accessors without a semicolon

The check of accessors is told by what it knows between two lexemes outside of brackets: the
lexeme before, and whether an expression has not ended.  From there on it misses a semicolon
or it does not (`AccessorState.Misses`), wherever the accessors stand.

| next | goes on |
| --- | --- |
| the word of an accessor, where one can start | outside of expressions, if none is open |
| `=>` | in an expression |
| `;` | outside of expressions |
| the block of an accessor | outside of expressions, if its statements end |
| other lexemes and groups | as before |

A semicolon that is taken away after an expression leaves the expression open up to the next
accessor that is recognised, or up to the end.  It is not missed if the word of the next
accessor is taken for one of the expression, and what follows that word ends the expression
or starts one as well (`joins`).
-/

import Outline.Proofs.Parser.Accessors
import Outline.Proofs.Parser.Check

namespace Outline
namespace Parser

open Lexeme (mark)

/-! ### What the check misses -/

/-- The lexemes from one brace to another. -/
def cut (ls : List Lexeme) (braces : Nat × Nat) : List Lexeme :=
  (ls.drop braces.1).take (braces.2 + 1 - braces.1)

theorem cut_append (ls ms : List Lexeme) (braces : Nat × Nat) :
    cut (ls ++ ms) (Prod.map (ls.length + ·) (ls.length + ·) braces) = cut ms braces := by
  have hdrop : (ls ++ ms).drop (ls.length + braces.1) = ms.drop braces.1 := by
    rw [List.drop_append]
    simp
  rw [cut, Prod.map_fst, Prod.map_snd, hdrop, Nat.add_assoc, Nat.add_sub_add_left, cut]

namespace AccessorState

variable {s t : AccessorState} {e : Bool} {p : Option Lexeme} {l : Lexeme} {ls ms : List Lexeme}

/-- From the first of the lexemes on, a semicolon is missing at an accessor or in a block. -/
def Misses (s : AccessorState) (ls : List Lexeme) : Prop :=
  (checkAccessorsFrom s 0 ls).1 ≠ [] ∨
    ∃ b ∈ (checkAccessorsFrom s 0 ls).2, checkStatements 0 (cut ls b) ≠ []

/-- What is known between two lexemes outside of brackets. -/
def between (e : Bool) (p : Option Lexeme) : AccessorState := { inExpression := e, previous := p }

/-- What is missed in lexemes and after them is missed in the first of them, in a block that
ends there, or later. -/
theorem misses_append {found : List Finding} {blocks : List (Nat × Nat)}
    (ht : t.blockStart = none) (h : checkAccessorsFrom s 0 (ls ++ ms)
      = (found ++ (checkAccessorsFrom t ls.length ms).1,
          blocks ++ (checkAccessorsFrom t ls.length ms).2)) :
    s.Misses (ls ++ ms) ↔ (found ≠ [] ∨ ∃ b ∈ blocks, checkStatements 0 (cut (ls ++ ms) b) ≠ []) ∨
      t.Misses ms := by
  have hsame : t.moved ls.length = t := by
    rw [moved, ht]
    cases t
    cases ht
    rfl
  obtain ⟨hfound, hblocks⟩ := checkAccessorsFrom_moved ls.length t 0 ms
  rw [hsame, Nat.add_zero] at hfound hblocks
  rw [Misses, Misses, h]
  dsimp only
  rw [hblocks]
  simp only [Ne, List.append_eq_nil_iff, hfound, List.mem_append, or_and_right, exists_or,
    List.mem_map, exists_exists_and_eq_and, cut_append]
  rw [Classical.not_and_iff_not_or_not, or_or_or_comm]

/-- What is passed misses nothing. -/
theorem Passes.misses (h : s.Passes 0 ls t) (ht : t.blockStart = none) :
    s.Misses (ls ++ ms) ↔ t.Misses ms := by
  have heq : checkAccessorsFrom s 0 (ls ++ ms) = ([] ++ (checkAccessorsFrom t ls.length ms).1,
      [] ++ (checkAccessorsFrom t ls.length ms).2) := by
    rw [h ms, Nat.zero_add]
    rfl
  rw [misses_append ht heq]
  simp

/-- The block of an accessor misses what its statements miss. -/
theorem misses_block (hm : WellNested ms) : (between false p).Misses (grouped .brace ms ++ ls) ↔
    checkStatements 0 (grouped .brace ms) ≠ [] ∨
      (between false (some (mark "\x7d"))).Misses ls := by
  have hcut : cut (grouped .brace ms ++ ls) (0, 0 + ms.length + 1) = grouped .brace ms := by
    have hlength : 0 + ms.length + 1 + 1 - 0 = (grouped .brace ms).length := by
      rw [length_grouped]
      omega
    rw [cut, hlength, List.drop_zero, List.take_left]
  have heq : checkAccessorsFrom (between false p) 0 (grouped .brace ms ++ ls)
      = ([] ++ (checkAccessorsFrom (between false (some (mark "\x7d")))
            (grouped .brace ms).length ls).1,
          [(0, 0 + ms.length + 1)] ++ (checkAccessorsFrom (between false (some (mark "\x7d")))
            (grouped .brace ms).length ls).2) := by
    have h := checkAccessorsFrom_block hm p 0 ls
    rwa [Nat.zero_add (grouped .brace ms).length] at h
  rw [misses_append rfl heq]
  simp only [List.mem_singleton, exists_eq_left, hcut, Ne, not_true_eq_false, false_or]

/-! ### Lexemes outside of brackets -/

theorem startsAccessor_between (e : Bool) (p : Option Lexeme) (l : Lexeme) :
    (between e p).startsAccessor l = (l.isWordOf accessorWords && precedesAccessor p) := by
  cases p <;> simp [startsAccessor, between, precedesAccessor]

/-- A lexeme that starts no accessor tells whether an expression is open. -/
theorem misses_plain (hd : l.delimiter? = none)
    (hs : (l.isWordOf accessorWords && precedesAccessor p) = false) :
    (between e p).Misses (l :: ls) ↔
      (between (l.isPunct "=>" || (!l.isPunct ";" && e)) (some l)).Misses ls := by
  have hstarts : (between e p).startsAccessor l = false := by rw [startsAccessor_between, hs]
  have hstep : (between e p).step 0 l
      = (between (l.isPunct "=>" || (!l.isPunct ";" && e)) (some l), none) := by
    rw [step, hd, expressionAfter, hstarts]
    cases l.isPunct "=>" <;> cases l.isPunct ";" <;> rfl
  exact Passes.misses (passes_step hstarts hstep) rfl

/-- **An accessor that is recognised** closes the expression before it, which must have ended,
and what it does must follow. -/
theorem misses_word (hw : l.isWordOf accessorWords = true) (hp : precedesAccessor p = true) :
    (between e p).Misses (l :: ls) ↔
      (e = true ∨ ls.head?.any (·.isOneOf [";", "\x7b", "=>"]) = false) ∨
        (between false (some l)).Misses ls := by
  have hstarts : (between e p).startsAccessor l = true := by
    rw [startsAccessor_between, hw, hp]
    rfl
  have hd : l.delimiter? = none := by
    rw [Lexeme.isWordOf, Bool.and_eq_true, beq_iff_eq] at hw
    exact delimiter?_of_kind (by rw [hw.1]; decide)
  have hstep : (between e p).step 0 l = (between false (some l), none) := by
    rw [step, hd, expressionAfter, hstarts]
    rfl
  have heq : checkAccessorsFrom (between e p) 0 ([l] ++ ls)
      = ((between e p).missing 0 l ls.head?
            ++ (checkAccessorsFrom (between false (some l)) [l].length ls).1,
          [] ++ (checkAccessorsFrom (between false (some l)) [l].length ls).2) := by
    rw [List.singleton_append, checkAccessorsFrom, hstep]
    rfl
  have hmissing : (between e p).missing 0 l ls.head? = [] ↔
      ¬(e = true ∨ ls.head?.any (·.isOneOf [";", "\x7b", "=>"]) = false) := by
    rw [missing, hstarts]
    show (if true = true then (if e = true then _ else _) ++ _ else _) = [] ↔ _
    cases e <;> cases ls.head?.any (·.isOneOf [";", "\x7b", "=>"]) <;> simp
  rw [← List.singleton_append, misses_append rfl heq]
  simp only [Ne, hmissing, Classical.not_not, List.not_mem_nil, false_and, exists_const, or_false]

/-- An expression is open or closed at the end. -/
theorem misses_nil : (between e p).Misses [] ↔ e = true := by
  cases e <;> simp [Misses, checkAccessorsFrom, between]

/-- **An expression that is open** misses a semicolon in itself or is still open after itself,
whatever follows. -/
theorem misses_expression {es : List Lexeme} (h : Expression [";"] es) (p : Option Lexeme) :
    (∀ ls, (between true p).Misses (es ++ ls)) ∨
      ∀ ls, (between true p).Misses (es ++ ls) ↔ (between true (es.getLast?.or p)).Misses ls := by
  induction h generalizing p with
  | nil => exact .inr fun _ => Iff.rfl
  | @plain l es hd hs _ ih =>
    cases hstarts : l.isWordOf accessorWords && precedesAccessor p with
    | true =>
      rw [Bool.and_eq_true] at hstarts
      exact .inl fun ls => (misses_word hstarts.1 hstarts.2).2 (.inl (.inl rfl))
    | false =>
      have hsemicolon : l.isPunct ";" = false := isPunct_of_isOneOf hs (by decide)
      have hstep : ∀ ls, (between true p).Misses (l :: (es ++ ls)) ↔
          (between true (some l)).Misses (es ++ ls) := by
        intro ls
        rw [misses_plain hd hstarts, hsemicolon]
        simp
      have hlast : (l :: es).getLast?.or p = es.getLast?.or (some l) := by
        rw [List.getLast?_cons]
        cases es.getLast? <;> rfl
      rw [hlast]
      exact (ih (some l)).imp (fun h ls => (hstep ls).2 (h ls)) fun h ls => (hstep ls).trans (h ls)
  | @group b ms es _ hm _ ih =>
    have hstep : ∀ ls, (between true p).Misses (grouped b ms ++ es ++ ls) ↔
        (between true (some (mark b.closer))).Misses (es ++ ls) := by
      intro ls
      rw [List.append_assoc]
      exact (passes_group hm (fun _ => rfl) p 0).misses rfl
    have hlast : (grouped b ms ++ es).getLast?.or p = es.getLast?.or (some (mark b.closer)) := by
      rw [List.getLast?_append, grouped, ← List.cons_append, List.getLast?_concat]
      cases es.getLast? <;> rfl
    rw [hlast]
    exact (ih _).imp (fun h ls => (hstep ls).2 (h ls)) fun h ls => (hstep ls).trans (h ls)

end AccessorState

/-! ### Lists of accessors -/

/-- What an accessor does. -/
inductive Finish
  | semicolon
  | block (statements : List Lexeme)
  | expression (code : List Lexeme)

namespace Finish

def spelling : Finish → List Lexeme
  | semicolon => [mark ";"]
  | block statements => grouped .brace statements
  | expression code => mark "=>" :: (code ++ [mark ";"])

/-- The lexemes without the semicolon. -/
def unended : Finish → List Lexeme
  | semicolon => []
  | block statements => grouped .brace statements
  | expression code => mark "=>" :: code

/-- The code is an expression, and what stands in braces is well nested. -/
def WellFormed : Finish → Prop
  | semicolon => True
  | block statements => WellNested statements
  | expression code => Expression [";"] code ∧ code ≠ []

/-- Whether a semicolon is at the end. -/
def hasSemicolon : Finish → Bool
  | block _ => false
  | semicolon | expression _ => true

end Finish

/-- An accessor with its attributes and modifiers. -/
structure Accessor where
  attributes : List (List Lexeme)
  modifiers : List String
  word : String
  finish : Finish

namespace Accessor

/-- What stands before the word. -/
def lead (a : Accessor) : List Lexeme := accessorLead a.attributes a.modifiers

def spelling (a : Accessor) : List Lexeme := a.lead ++ .name a.word :: a.finish.spelling

/-- The lexemes without the semicolon at their end. -/
def unended (a : Accessor) : List Lexeme := a.lead ++ .name a.word :: a.finish.unended

structure WellFormed (a : Accessor) : Prop where
  attributes : ∀ ms ∈ a.attributes, WellNested ms
  modifiers : ∀ w ∈ a.modifiers, w ∈ modifierKeywords
  word : a.word ∈ accessorWords
  finish : a.finish.WellFormed

/-- Whether the expression of an accessor, without its semicolon, and the next accessor are
taken for one: its last lexeme is none after which an accessor can start, and the next one
starts with its word and has no block. -/
def joins (a : Accessor) : List Accessor → Bool
  | [] => false
  | b :: _ =>
    match a.finish with
    | .expression code =>
      !precedesAccessor code.getLast? && b.lead.isEmpty && b.finish.hasSemicolon
    | _ => false

end Accessor

theorem Finish.wellNested {f : Finish} (h : f.WellFormed) :
    WellNested f.spelling ∧ WellNested f.unended := by
  cases f with
  | semicolon => exact ⟨by decide, .nil⟩
  | block ms => exact ⟨h.bracket .brace, h.bracket .brace⟩
  | expression code =>
    have hcode := h.1.wellNested
    exact ⟨.plain rfl (hcode.append (.plain rfl .nil)), hcode.plain rfl⟩

/-- An accessor is well nested, with its semicolon and without. -/
theorem Accessor.WellFormed.wellNested {a : Accessor} (h : a.WellFormed) :
    WellNested a.spelling ∧ WellNested a.unended := by
  have hattributes := WellNested.flatMap fun ms hms => (h.attributes ms hms).bracket .square
  have hlead : WellNested a.lead := hattributes.append (wellNested_words a.modifiers)
  obtain ⟨hended, hunended⟩ := Finish.wellNested h.finish
  exact ⟨hlead.append (.plain rfl hended), hlead.append (.plain rfl hunended)⟩

open AccessorState

variable {a : Accessor} {as : List Accessor} {p : Option Lexeme} {e : Bool} {ls : List Lexeme}

theorem isWordOf_name {w : String} (h : w ∈ accessorWords) :
    (Lexeme.name w).isWordOf accessorWords = true := by
  simp [Lexeme.isWordOf, Lexeme.name, h]

/-- What stands before the word of an accessor is passed. -/
theorem Accessor.WellFormed.misses_lead (h : a.WellFormed) (ls : List Lexeme) :
    (between e p).Misses (a.lead ++ ls) ↔ (between e (a.lead.getLast?.or p)).Misses ls :=
  (passes_lead h.attributes h.modifiers e p 0).misses rfl

theorem Accessor.WellFormed.precedesAccessor_lead (h : a.WellFormed)
    (hp : a.lead = [] → precedesAccessor p = true) :
    precedesAccessor (a.lead.getLast?.or p) = true :=
  Parser.AccessorState.precedesAccessor_lead h.modifiers hp

/-- **An open expression is noticed** at the end and at an accessor that is recognised. -/
theorem misses_open (h : ∀ a ∈ as, a.WellFormed)
    (hp : ∀ a ∈ as.head?, a.lead = [] → precedesAccessor p = true) :
    (between true p).Misses (as.flatMap (·.spelling)) := by
  cases as with
  | nil => exact misses_nil.2 rfl
  | cons a as =>
    have ha := h a List.mem_cons_self
    have hprecedes := ha.precedesAccessor_lead (hp a rfl)
    rw [List.flatMap_cons, Accessor.spelling, List.append_assoc, ha.misses_lead,
      List.cons_append]
    exact (misses_word (isWordOf_name ha.word) hprecedes).2 (.inl (.inl rfl))

/-- The word of an accessor that is recognised, with what it does. -/
theorem misses_recognised {w : String} (hw : w ∈ accessorWords)
    (hp : precedesAccessor p = true) (hs : ls.head?.any (·.isOneOf [";", "\x7b", "=>"]) = true) :
    (between false p).Misses (.name w :: ls) ↔ (between false (some (.name w))).Misses ls := by
  rw [misses_word (isWordOf_name hw) hp, hs]
  simp

/-- `=>` opens an expression, and `;` closes it. -/
theorem misses_arrow : (between e p).Misses (mark "=>" :: ls) ↔
    (between true (some (mark "=>"))).Misses ls := misses_plain rfl rfl

theorem misses_semicolon : (between e p).Misses (mark ";" :: ls) ↔
    (between false (some (mark ";"))).Misses ls := misses_plain rfl rfl

theorem Finish.head?_spelling (f : Finish) (ls : List Lexeme) :
    (f.spelling ++ ls).head?.any (·.isOneOf [";", "\x7b", "=>"]) = true := by cases f <;> rfl

/-- What an accessor does misses a semicolon or not, and then the next accessor can start. -/
theorem Finish.exists_misses {f : Finish} (h : f.WellFormed) (p : Option Lexeme) :
    ∃ (q : Option Lexeme) (missed : Prop), precedesAccessor q = true ∧ ∀ ls,
      (between false p).Misses (f.spelling ++ ls) ↔ missed ∨ (between false q).Misses ls := by
  cases f with
  | semicolon =>
    refine ⟨some (mark ";"), False, rfl, fun ls => ?_⟩
    rw [false_or]
    exact misses_semicolon
  | block ms => exact ⟨some (mark "\x7d"), _, rfl, fun ls => misses_block h⟩
  | expression code =>
    have hsplit : ∀ ls, (Finish.expression code).spelling ++ ls
        = mark "=>" :: (code ++ mark ";" :: ls) := by simp [spelling]
    obtain hcode | hcode := misses_expression h.1 (some (mark "=>"))
    · refine ⟨some (mark ";"), True, rfl, fun ls => ?_⟩
      rw [hsplit, misses_arrow, true_or, iff_true]
      exact hcode _
    · refine ⟨some (mark ";"), False, rfl, fun ls => ?_⟩
      rw [hsplit, misses_arrow, hcode, misses_semicolon, false_or]

/-- Accessors miss a semicolon or not, and then the next one can start. -/
theorem exists_misses (h : ∀ a ∈ as, a.WellFormed) (hp : precedesAccessor p = true) :
    ∃ (q : Option Lexeme) (missed : Prop), precedesAccessor q = true ∧ ∀ ls,
      (between false p).Misses (as.flatMap (·.spelling) ++ ls) ↔
        missed ∨ (between false q).Misses ls := by
  induction as generalizing p with
  | nil => exact ⟨p, False, hp, fun ls => (false_or _).symm ▸ Iff.rfl⟩
  | cons a as ih =>
    obtain ⟨ha, has⟩ := List.forall_mem_cons.1 h
    have hprecedes := ha.precedesAccessor_lead fun _ => hp
    obtain ⟨q, missed, hq, hfinish⟩ := Finish.exists_misses ha.finish (some (.name a.word))
    obtain ⟨r, later, hr, hrest⟩ := ih has hq
    refine ⟨r, missed ∨ later, hr, fun ls => ?_⟩
    rw [List.flatMap_cons, Accessor.spelling, List.append_assoc, List.append_assoc,
      ha.misses_lead, List.cons_append,
      misses_recognised ha.word hprecedes (a.finish.head?_spelling _), hfinish, hrest, or_assoc]

/-! ### A semicolon that is taken away -/

/-- No accessor starts with what has to follow its word. -/
theorem head?_accessors (h : ∀ a ∈ as, a.WellFormed) :
    (as.flatMap (·.spelling)).head?.any (·.isOneOf [";", "\x7b", "=>"]) = false := by
  cases as with
  | nil => rfl
  | cons a as =>
    obtain ⟨attributes, modifiers, word, finish⟩ := a
    have hword : ∀ k, (Lexeme.word k).isOneOf [";", "\x7b", "=>"] = false :=
      fun k => isOneOf_of_isWordy (isWordy_word k) _
    cases attributes with
    | cons _ _ => rfl
    | nil =>
      cases modifiers with
      | cons k _ => exact hword k
      | nil => rfl

/-- Where the word of an accessor is one of an expression that is open, the accessor is checked
as one that is recognised, but for a block: it does not end the expression. -/
theorem misses_unrecognised {b : Accessor} {bs : List Accessor} {q : Option Lexeme}
    (hb : b.WellFormed) (hbs : ∀ a ∈ bs, a.WellFormed) (hlead : b.lead = [])
    (hq : precedesAccessor q = false) :
    (between true q).Misses (b.spelling ++ bs.flatMap (·.spelling)) ↔
      (between false (some (mark ";"))).Misses (b.spelling ++ bs.flatMap (·.spelling)) ∨
        b.finish.hasSemicolon = false := by
  have hopen : ∀ ls, (between true q).Misses (.name b.word :: ls) ↔
      (between true (some (.name b.word))).Misses ls := by
    intro ls
    rw [misses_plain rfl (by rw [hq, Bool.and_false])]
    rfl
  have hrecognised := misses_recognised (p := some (mark ";")) hb.word rfl
    (b.finish.head?_spelling (bs.flatMap (·.spelling)))
  rw [Accessor.spelling, hlead, List.nil_append, List.cons_append, hopen, hrecognised]
  cases hfinish : b.finish with
  | semicolon =>
    have hsame : ∀ e, (between e (some (.name b.word))).Misses
        (Finish.semicolon.spelling ++ bs.flatMap (·.spelling)) ↔ _ :=
      fun e => misses_semicolon
    rw [hsame, hsame]
    simp [Finish.hasSemicolon]
  | expression code =>
    have hsame : ∀ e, (between e (some (.name b.word))).Misses
        ((Finish.expression code).spelling ++ bs.flatMap (·.spelling)) ↔ _ :=
      fun e => misses_arrow
    rw [hsame, hsame]
    simp [Finish.hasSemicolon]
  | block ms =>
    have hms : WellNested ms := by
      have := hb.finish
      rwa [hfinish] at this
    refine iff_of_true ?_ (.inr rfl)
    have hblock : (between true (some (.name b.word))).Misses
        (grouped .brace ms ++ bs.flatMap (·.spelling)) ↔ _ :=
      (passes_group hms (fun _ => rfl) _ 0).misses rfl
    exact hblock.2 (misses_open hbs fun _ _ _ => rfl)

/-- **After an expression without its semicolon** one is missed that would not be missed after
the semicolon, unless the next accessor is taken for a part of the expression. -/
theorem misses_after_expression {code : List Lexeme} (hf : a.finish = .expression code)
    (h : ∀ b ∈ as, b.WellFormed) :
    (between true code.getLast?).Misses (as.flatMap (·.spelling)) ↔
      (between false (some (mark ";"))).Misses (as.flatMap (·.spelling)) ∨
        a.joins as = false := by
  cases as with
  | nil => exact iff_of_true (misses_nil.2 rfl) (.inr rfl)
  | cons b bs =>
    obtain ⟨hb, hbs⟩ := List.forall_mem_cons.1 h
    have hjoins : a.joins (b :: bs) = (!precedesAccessor code.getLast? && b.lead.isEmpty
        && b.finish.hasSemicolon) := by rw [Accessor.joins, hf]
    cases hseen : (!precedesAccessor code.getLast? && b.lead.isEmpty) with
    | false =>
      refine iff_of_true (misses_open h ?_) (.inr (by rw [hjoins, hseen, Bool.false_and]))
      rintro _ ⟨⟩ hlead
      rw [hlead, List.isEmpty_nil, Bool.and_true, Bool.not_eq_false'] at hseen
      exact hseen
    | true =>
      obtain ⟨hlast, hlead⟩ := Bool.and_eq_true_iff.1 hseen
      rw [Bool.not_eq_true'] at hlast
      rw [hjoins, hseen, Bool.true_and, List.flatMap_cons]
      exact misses_unrecognised hb hbs (List.isEmpty_iff.1 hlead) hlast

/-- **A semicolon that is taken away from an accessor is missed** unless the accessor and the
next one are taken for one. -/
theorem misses_unended (ha : a.WellFormed) (hs : a.finish.hasSemicolon = true)
    (h : ∀ b ∈ as, b.WellFormed) (hp : precedesAccessor p = true) :
    (between false p).Misses (a.unended ++ as.flatMap (·.spelling)) ↔
      (between false p).Misses (a.spelling ++ as.flatMap (·.spelling)) ∨ a.joins as = false := by
  have hprecedes := ha.precedesAccessor_lead fun _ => hp
  rw [Accessor.unended, Accessor.spelling, List.append_assoc, List.append_assoc, ha.misses_lead,
    ha.misses_lead, List.cons_append, List.cons_append]
  cases hf : a.finish with
  | block ms =>
    rw [hf] at hs
    cases hs
  | semicolon =>
    have hjoins : a.joins as = false := by cases as <;> simp [Accessor.joins, hf]
    refine iff_of_true ?_ (.inr hjoins)
    exact (misses_word (isWordOf_name ha.word) hprecedes).2 (.inl (.inr (head?_accessors h)))
  | expression code =>
    have hcode := ha.finish
    rw [hf] at hcode
    have hsplit : (Finish.expression code).spelling ++ as.flatMap (·.spelling)
        = mark "=>" :: (code ++ mark ";" :: as.flatMap (·.spelling)) := by simp [Finish.spelling]
    have hlast : code.getLast?.or (some (mark "=>")) = code.getLast? := by
      cases hl : code.getLast? with
      | none => exact absurd (List.getLast?_eq_none_iff.1 hl) hcode.2
      | some l => rfl
    rw [hsplit, Finish.unended, List.cons_append, misses_recognised ha.word hprecedes rfl,
      misses_recognised ha.word hprecedes rfl, misses_arrow, misses_arrow]
    obtain hmissed | hopen := misses_expression hcode.1 (some (mark "=>"))
    · exact iff_of_true (hmissed _) (.inl (hmissed _))
    · rw [hopen, hopen, hlast, misses_semicolon]
      exact misses_after_expression hf h

/-- A list of accessors with one that has no semicolon. -/
theorem misses_unended_between {before : List Accessor} (hb : ∀ b ∈ before, b.WellFormed)
    (ha : a.WellFormed) (hs : a.finish.hasSemicolon = true) (h : ∀ b ∈ as, b.WellFormed) :
    Misses {} (before.flatMap (·.spelling) ++ (a.unended ++ as.flatMap (·.spelling))) ↔
      Misses {} (before.flatMap (·.spelling) ++ (a.spelling ++ as.flatMap (·.spelling))) ∨
        a.joins as = false := by
  obtain ⟨q, missed, hq, hbefore⟩ := exists_misses (p := none) hb rfl
  have hsame : ({} : AccessorState) = between false none := rfl
  rw [hsame, hbefore, hbefore, misses_unended ha hs h hq, or_assoc]

/-! ### The check of accessors -/

/-- **The check of accessors misses a semicolon** wherever they stand. -/
theorem any_checkAccessors (ls : List Lexeme) (i : Nat) :
    (checkAccessors ⟨i, grouped .brace ls⟩).any (·.cause.isSemicolon) = true ↔ Misses {} ls := by
  have hinner : (⟨i, grouped .brace ls⟩ : Block).inner = ls := by simp [Block.inner, grouped_brace]
  obtain ⟨hfound, hblocks⟩ := checkAccessorsFrom_moved (i + 1) {} 0 ls
  have hsame : ({} : AccessorState).moved (i + 1) = {} := rfl
  rw [hsame, Nat.add_zero] at hfound hblocks
  have hslice : ∀ b ∈ (checkAccessorsFrom {} 0 ls).2,
      ((⟨i, grouped .brace ls⟩ : Block).slice (i + 1 + b.1) (i + 1 + b.2)).lexemes = cut ls b := by
    intro b hb
    obtain ⟨-, hb⟩ := checkAccessorsFrom_inside {} 0 0 ls (by rintro _ ⟨⟩) (Nat.le_refl 0)
    obtain ⟨-, hlt, hlast⟩ := hb b ‹_›
    rw [Nat.zero_add] at hlast
    have hdrop : i + 1 + b.1 - i = b.1 + 1 := by omega
    have htake : i + 1 + b.2 + 1 - (i + 1 + b.1) = b.2 + 1 - b.1 := by omega
    rw [Block.slice, hdrop, htake, grouped_brace, List.drop_succ_cons,
      List.drop_append_of_le_length (by omega), List.take_append_of_le_length, cut]
    rw [List.length_drop]
    omega
  rw [checkAccessors, hinner]
  dsimp only
  rw [List.any_append, (checkAccessorsFrom_semicolons {} (i + 1) ls).any_eq, hblocks,
    Bool.or_eq_true, List.any_flatMap, List.any_map, List.any_eq_true, Misses]
  refine or_congr ?_ (exists_congr fun b => and_congr_right fun hb => ?_)
  · rw [Bool.not_eq_true', Bool.eq_false_iff, Ne, List.isEmpty_iff, hfound]
  · show ((⟨i, grouped .brace ls⟩ : Block).slice (i + 1 + b.1) (i + 1 + b.2)).check.any _ = true ↔ _
    rw [any_check, hslice b hb, Bool.not_eq_true', Bool.eq_false_iff, Ne, List.isEmpty_iff]

end Parser
end Outline
