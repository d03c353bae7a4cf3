/-
# Using directives

A using directive is taken for what stands between its words and the next semicolon, if
neither a brace nor a reserved word other than a built-in type is in between.  Nothing asks
whether this is a name, or where its line ends.

| directive | imports |
| --- | --- |
| `using A.B;` | `A.B` |
| `using static A;`, `using X = A;` | `A` |
| `using A(;` | `A(` |
| `using A` and `record R(int x);` on the next line | `ArecordR(intx)` |

The usings of a file without faults are those of its directives, in the order in which
they stand, and each directive ends with its semicolon.
-/

import Outline.Proofs.Parser.Enclosure
import Outline.Proofs.Parser.Files
import Outline.Proofs.Parser.Places

namespace Outline
namespace Parser

open Lexeme (mark)

/-! ### Directives -/

/-- A using directive, as its parts. -/
structure Directive where
  isGlobal : Bool
  isStatic : Bool
  /-- The name that is given to what is imported. -/
  aliasName : Option String
  /-- What is imported. -/
  target : List Lexeme
  deriving DecidableEq, Repr

/-- The word before `using`, if there is one. -/
def globalWord (isGlobal : Bool) : List Lexeme := if isGlobal then [.name "global"] else []

namespace Directive

/-- The lexemes between `using` and the semicolon. -/
def inner (d : Directive) : List Lexeme :=
  (if d.isStatic then [.word "static"] else [])
    ++ ((d.aliasName.map fun a => [.name a, mark "="]).getD [] ++ d.target)

/-- The lexemes of a directive. -/
def spelling (d : Directive) : List Lexeme :=
  globalWord d.isGlobal ++ .word "using" :: (d.inner ++ [mark ";"])

/-- What a directive adds to the usings. -/
def entry (d : Directive) : String := String.join (d.target.map (·.text))

end Directive

/-- Whether lexemes start with a name and an equals sign. -/
def startsAlias : List Lexeme → Bool
  | a :: b :: _ => a.isName && b.isPunct "="
  | _ => false

/-- A directive that is read as it is: its target is not empty and goes on to the semicolon,
and starts with an alias only after one.  What starts with a parenthesis is a statement. -/
structure Directive.Readable (d : Directive) : Prop where
  goes : ∀ l ∈ d.target, endsUsing l = false
  entry : d.entry.isEmpty = false
  unnamed : d.aliasName = none → startsAlias d.target = false
  bare : d.isGlobal = false → d.inner.head?.any (·.isPunct "(") = false

instance (d : Directive) : Decidable d.Readable :=
  decidable_of_iff (_ ∧ _ ∧ _ ∧ _) ⟨fun ⟨hg, he, hu, hb⟩ => ⟨hg, he, hu, hb⟩,
    fun ⟨hg, he, hu, hb⟩ => ⟨hg, he, hu, hb⟩⟩

theorem startsAlias_append {ls : List Lexeme} (h : startsAlias ls = true) (ms : List Lexeme) :
    startsAlias (ls ++ ms) = true := by
  match ls with
  | [] | [a] => cases h
  | a :: b :: ls => exact h

/-! ### What a directive takes -/

theorem usingNameFrom_reads (i : Nat) (ls : List Lexeme) : ∃ target rest, ls = target ++ rest ∧
    (∀ l ∈ target, endsUsing l = false) ∧
      usingNameFrom i ls = ⟨String.join (target.map (·.text)), ⟨i + target.length, rest⟩, []⟩ := by
  induction ls generalizing i with
  | nil => exact ⟨[], [], rfl, nofun, rfl⟩
  | cons l ls ih =>
    rw [usingNameFrom]
    split
    · exact ⟨[], l :: ls, rfl, nofun, rfl⟩
    · rename_i hl
      obtain ⟨target, rest, rfl, hgoes, heq⟩ := ih (i + 1)
      refine ⟨l :: target, rest, rfl, List.forall_mem_cons.2 ⟨by simpa using hl, hgoes⟩, ?_⟩
      rw [heq, List.length_cons, Nat.add_comm target.length, ← Nat.add_assoc]
      simp [Step.map, String.join_cons]

theorem eq_word {l : Lexeme} {k : String} (hk : Name.isKeyword k = true)
    (h : l.isKeyword k = true) : l = .word k := by
  obtain ⟨kind, text⟩ := l
  rw [Lexeme.isKeyword, Bool.and_eq_true, beq_iff_eq, beq_iff_eq] at h
  obtain ⟨rfl, rfl⟩ := h
  rw [Lexeme.word, if_pos hk]

/-- What a using names after `static`. -/
def aliasedTarget : Parser String := do
  if ← look (fun c => c.atName && c.next.atPunct "=") then
    advance
    advance
  usingName

/-- What is next is an alias if it starts with one. -/
theorem atAliasName (i : Nat) (ls : List Lexeme) :
    (Cursor.atName ⟨i, ls⟩ && (Cursor.next ⟨i, ls⟩).atPunct "=") = startsAlias ls := by
  match ls with
  | [] => rfl
  | [a] => exact Bool.and_false _
  | _ :: _ :: _ => rfl

theorem aliasedTarget_reads (i : Nat) (ls : List Lexeme) : ∃ aliasName target rest,
    ls = ((aliasName.map fun a => [.name a, mark "="]).getD [] ++ target) ++ rest ∧
      (∀ l ∈ target, endsUsing l = false) ∧ (aliasName = none → startsAlias target = false) ∧
        aliasedTarget ⟨i, ls⟩ = ⟨String.join (target.map (·.text)), ⟨i
          + ((aliasName.map fun a => [Lexeme.name a, mark "="]).getD [] ++ target).length, rest⟩,
          []⟩ := by
  have hat := atAliasName i ls
  cases h : startsAlias ls with
  | false =>
    rw [h] at hat
    obtain ⟨target, rest, rfl, hgoes, heq⟩ := usingNameFrom_reads i ls
    refine ⟨none, target, rest, rfl, hgoes, fun _ => ?_, (lookIf_of_false hat).trans heq⟩
    exact Bool.eq_false_iff.2 fun ht => Bool.false_ne_true (h.symm.trans (startsAlias_append ht _))
  | true =>
    rw [h] at hat
    match ls with
    | [] | [a] => cases h
    | a :: b :: ls =>
      obtain ⟨ha, hb⟩ := Bool.and_eq_true_iff.1 h
      obtain ⟨target, rest, rfl, hgoes, heq⟩ := usingNameFrom_reads (i + 2) ls
      refine ⟨some a.text, target, rest, ?_, hgoes, nofun, (lookIf_of_true hat).trans ?_⟩
      · rw [eq_name ha, eq_mark_of_isPunct hb]
        rfl
      · refine heq.trans ?_
        simp only [Option.map_some, Option.getD_some, List.length_append, List.length_cons,
          List.length_nil]
        rw [Nat.add_assoc]

/-- **What a using names** is all that comes after `static` and the name of an alias. -/
theorem usingTarget_reads (i : Nat) (ls : List Lexeme) : ∃ (d : Directive) (rest : List Lexeme),
    ls = d.inner ++ rest ∧ (∀ l ∈ d.target, endsUsing l = false) ∧
      (d.aliasName = none → startsAlias d.target = false) ∧
        usingTarget ⟨i, ls⟩ = ⟨d.entry, ⟨i + d.inner.length, rest⟩, []⟩ := by
  cases h : Cursor.atKeyword ⟨i, ls⟩ "static" with
  | false =>
    obtain ⟨aliasName, target, rest, hls, hgoes, hnone, heq⟩ := aliasedTarget_reads i ls
    exact ⟨⟨false, false, aliasName, target⟩, rest, hls, hgoes, hnone,
      (lookIf_of_false h).trans heq⟩
  | true =>
    cases ls with
    | nil => cases h
    | cons l ls =>
      obtain ⟨aliasName, target, rest, hls, hgoes, hnone, heq⟩ := aliasedTarget_reads (i + 1) ls
      refine ⟨⟨false, true, aliasName, target⟩, rest, ?_, hgoes, hnone,
        (lookIf_of_true h).trans (heq.trans ?_)⟩
      · rw [eq_word (by decide) h, hls]
        rfl
      · rw [Nat.add_assoc, Nat.add_comm 1]
        rfl

/-- The rest of a directive, after what it names. -/
def closeUsing (name : String) : Parser (List Item) := do
  if name.isEmpty then
    reportMissing .identifier
    expect ";" .semicolon
    return []
  else
    expect ";" .semicolon
    return [.imported name]

/-- **A directive ends with its semicolon**, and names something. -/
theorem closeUsing_reads {name : String} {c : Cursor}
    (hf : hasFault (closeUsing name c).found = false) : name.isEmpty = false ∧
      ∃ rest, c.ahead = mark ";" :: rest ∧
        closeUsing name c = ⟨[.imported name], ⟨c.index + 1, rest⟩, []⟩ := by
  unfold closeUsing at hf ⊢
  cases hn : name.isEmpty with
  | true =>
    rw [hn, if_pos rfl, hasFault_bind rfl] at hf
    cases hf
  | false =>
    rw [hn, if_neg Bool.false_ne_true] at hf
    refine ⟨rfl, ?_⟩
    cases hc : c.atPunct ";" with
    | false =>
      rw [hasFault_bind (hasFault_expect hc .semicolon)] at hf
      cases hf
    | true =>
      obtain ⟨l, hl, hp⟩ := Cursor.exists_head?_of_any hc
      obtain ⟨rest, hrest⟩ := Cursor.ahead_of_head? hl
      obtain rfl := eq_mark_of_isPunct hp
      refine ⟨rest, hrest, ?_⟩
      rw [if_neg Bool.false_ne_true, bind_of_eq (expect_of_atPunct hc .semicolon)]
      obtain ⟨i, ls⟩ := c
      obtain rfl : ls = mark ";" :: rest := hrest
      rfl

theorem closeUsing_of_semicolon {name : String} (h : name.isEmpty = false) (i : Nat)
    (rest : List Lexeme) :
    closeUsing name ⟨i, mark ";" :: rest⟩ = ⟨[.imported name], ⟨i + 1, rest⟩, []⟩ := by
  unfold closeUsing
  rw [h, if_neg Bool.false_ne_true]
  exact bind_of_eq (expect_of_atPunct (atPunct_mark ";" i rest) .semicolon)

/-- What is found of the word before `using`. -/
def globalNeeds (isGlobal : Bool) (i : Nat) : List Finding :=
  if isGlobal then [⟨.needs .globalUsings, .point (.start i)⟩] else []

/-- The words of a directive are passed. -/
theorem usingDirective_words (isGlobal : Bool) (i : Nat) (ls : List Lexeme) :
    usingDirective ⟨i, globalWord isGlobal ++ .word "using" :: ls⟩
      = ((usingTarget >>= closeUsing) ⟨i + (globalWord isGlobal).length + 1, ls⟩).before
        (globalNeeds isGlobal i) := by
  cases isGlobal with
  | true => rfl
  | false => rfl

/-- What starts as a directive starts with its words. -/
theorem exists_words {i : Nat} {ls : List Lexeme} (h : atUsing ⟨i, ls⟩ = true) :
    ∃ isGlobal ms, ls = globalWord isGlobal ++ .word "using" :: ms := by
  match ls with
  | [] => cases h
  | [l] =>
    rcases Bool.or_eq_true_iff.1 h with h | h
    · obtain rfl := eq_word (by decide) (Bool.and_eq_true_iff.1 h).1
      exact ⟨false, [], rfl⟩
    · exact absurd (Bool.and_eq_true_iff.1 h).2 Bool.false_ne_true
  | l :: m :: ls =>
    rcases Bool.or_eq_true_iff.1 h with h | h
    · obtain rfl := eq_word (by decide) (Bool.and_eq_true_iff.1 h).1
      exact ⟨false, m :: ls, rfl⟩
    · obtain ⟨hl, hm⟩ := Bool.and_eq_true_iff.1 h
      obtain rfl := eq_word (by decide) hm
      have hname : l.isName = true ∧ l.text = "global" := by
        simpa [Cursor.atWord, Cursor.head?, Lexeme.isWord, Lexeme.isName] using hl
      refine ⟨true, ls, ?_⟩
      rw [eq_name hname.1, hname.2]
      rfl

/-- **A using directive without faults** imports what stands between its words and its
semicolon. -/
theorem usingDirective_reads {c : Cursor} (h : atUsing c = true)
    (hf : hasFault (usingDirective c).found = false) : ∃ d : Directive, d.Readable ∧
      c.Passes d.spelling (usingDirective c).rest ∧
        (usingDirective c).value = [.imported d.entry] := by
  obtain ⟨i, ls⟩ := c
  obtain ⟨isGlobal, ls, rfl⟩ := exists_words h
  rw [usingDirective_words] at hf ⊢
  obtain ⟨d, rest, rfl, hgoes, hnone, heq⟩ :=
    usingTarget_reads (i + (globalWord isGlobal).length + 1) ls
  rw [bind_of_eq heq] at hf ⊢
  obtain ⟨hentry, after, hrest, hclose⟩ := closeUsing_reads (hasFault_append_eq_false.1 hf).2
  obtain rfl : rest = mark ";" :: after := hrest
  rw [hclose]
  refine ⟨{ d with isGlobal := isGlobal }, ⟨hgoes, hentry, hnone, ?_⟩, ⟨?_, ?_⟩, rfl⟩
  · rintro rfl
    show d.inner.head?.any (·.isPunct "(") = false
    have hbare : (true && !Cursor.atPunct ⟨i + 1, d.inner ++ mark ";" :: after⟩ "(" || false)
        = true := h
    match hd : d.inner with
    | [] => rfl
    | l :: ls =>
      rw [hd] at hbare
      simpa [Cursor.atPunct, Cursor.head?] using hbare
  · simp [Step.before, Directive.spelling, Directive.inner]
  · simp only [Step.before, Directive.spelling, Directive.inner, List.length_append,
      List.length_cons, List.length_nil]
    omega

namespace Directive.Readable

variable {d : Directive} (h : d.Readable) (i : Nat) (after : List Lexeme)

include h

/-- A readable target starts with no alias that it is not given. -/
theorem startsAlias_eq (hn : d.aliasName = none) :
    startsAlias (d.target ++ mark ";" :: after) = false := by
  have ht := h.unnamed hn
  generalize d.target = target at ht
  match target with
  | [] => cases after <;> rfl
  | [a] => exact Bool.and_false _
  | _ :: _ :: _ => exact ht

/-- The word `static` would have ended the target. -/
theorem not_atStatic (hs : d.isStatic = false) :
    Cursor.atKeyword ⟨i, d.inner ++ mark ";" :: after⟩ "static" = false := by
  rw [Directive.inner, hs, if_neg Bool.false_ne_true]
  cases d.aliasName with
  | some a => rfl
  | none =>
    have hgoes := h.goes
    generalize d.target = target at hgoes
    match target with
    | [] => rfl
    | l :: ls =>
      have hl := hgoes l List.mem_cons_self
      refine Bool.eq_false_iff.2 fun hk => ?_
      obtain rfl := eq_word (by decide) (show l.isKeyword "static" = true from hk)
      cases hl

theorem aliasedTarget_eq : aliasedTarget ⟨i, (d.aliasName.map fun a => [Lexeme.name a,
      mark "="]).getD [] ++ d.target ++ mark ";" :: after⟩
    = ⟨d.entry, ⟨i + ((d.aliasName.map fun a => [Lexeme.name a, mark "="]).getD []
        ++ d.target).length, mark ";" :: after⟩, []⟩ := by
  cases hn : d.aliasName with
  | none =>
    have hat := (atAliasName i (d.target ++ mark ";" :: after)).trans (h.startsAlias_eq after hn)
    exact (lookIf_of_false hat).trans (usingNameFrom_of_goes h.goes i after)
  | some a =>
    refine (lookIf_of_true rfl).trans <| (usingNameFrom_of_goes h.goes (i + 2) after).trans ?_
    simp only [Option.map_some, Option.getD_some, List.length_append, List.length_cons,
      List.length_nil]
    rw [Nat.add_assoc]
    rfl

theorem usingTarget_eq : usingTarget ⟨i, d.inner ++ mark ";" :: after⟩
    = ⟨d.entry, ⟨i + d.inner.length, mark ";" :: after⟩, []⟩ := by
  cases hs : d.isStatic with
  | false =>
    refine (lookIf_of_false (h.not_atStatic i after hs)).trans ?_
    rw [Directive.inner, hs, if_neg Bool.false_ne_true, List.nil_append]
    exact h.aliasedTarget_eq i after
  | true =>
    rw [Directive.inner, hs, if_pos rfl]
    refine (lookIf_of_true rfl).trans <| (h.aliasedTarget_eq (i + 1) after).trans ?_
    rw [Nat.add_assoc, Nat.add_comm 1]
    rfl

/-- A readable directive is taken for one. -/
theorem atUsing_eq : atUsing ⟨i, d.spelling ++ after⟩ = true := by
  have hbare := h.bare
  rw [Directive.spelling]
  cases hg : d.isGlobal with
  | true => rfl
  | false =>
    have hnext : Cursor.atPunct ⟨i + 1, d.inner ++ [mark ";"] ++ after⟩ "(" = false := by
      have hbare := hbare hg
      match hd : d.inner with
      | [] => rfl
      | l :: ls =>
        rw [hd] at hbare
        exact hbare
    show (true && !Cursor.atPunct ⟨i + 1, d.inner ++ [mark ";"] ++ after⟩ "(" || false) = true
    rw [hnext]
    rfl

/-- **A readable directive** is accepted wherever it stands, and imports its target. -/
theorem usingDirective_eq : usingDirective ⟨i, d.spelling ++ after⟩
    = ⟨[.imported d.entry], ⟨i + d.spelling.length, after⟩, globalNeeds d.isGlobal i⟩ := by
  have hclose := closeUsing_of_semicolon h.entry
    (i + (globalWord d.isGlobal).length + 1 + d.inner.length) after
  have hspelled : d.spelling ++ after
      = globalWord d.isGlobal ++ .word "using" :: (d.inner ++ mark ";" :: after) := by
    simp [Directive.spelling]
  have hlength : i + d.spelling.length
      = i + (globalWord d.isGlobal).length + 1 + d.inner.length + 1 := by
    simp only [Directive.spelling, List.length_append, List.length_cons, List.length_nil]
    omega
  rw [hspelled, usingDirective_words, bind_of_eq (h.usingTarget_eq _ after), hclose, hlength]
  simp [Step.before]

end Directive.Readable

/-! ### Where directives stand -/

/-- Parts that stand in a list one after the other, with anything between them. -/
inductive Spread {α : Type} : List (List α) → List α → Prop
  | nil (ls : List α) : Spread [] ls
  | skip {parts : List (List α)} {ls : List α} (l : α) : Spread parts ls → Spread parts (l :: ls)
  | part {parts : List (List α)} {ls : List α} (p : List α) :
      Spread parts ls → Spread (p :: parts) (p ++ ls)

namespace Spread

variable {α : Type} {parts more : List (List α)} {ls ms : List α}

theorem behind (ls : List α) (h : Spread parts ms) : Spread parts (ls ++ ms) := by
  induction ls with
  | nil => exact h
  | cons l ls ih => exact .skip l ih

theorem append (h : Spread parts ls) (h' : Spread more ms) :
    Spread (parts ++ more) (ls ++ ms) := by
  induction h with
  | nil ls => exact h'.behind ls
  | skip l _ ih => exact .skip l ih
  | part p _ ih =>
    rw [List.cons_append, List.append_assoc]
    exact .part p ih

end Spread

/-- The usings among items are those of directives that stand in the lexemes. -/
def Imports (items : List Item) (ls : List Lexeme) : Prop :=
  ∃ ds : List Directive, (∀ d ∈ ds, d.Readable) ∧
    items.filterMap (·.imported?) = ds.map (·.entry) ∧ Spread (ds.map (·.spelling)) ls

namespace Imports

variable {items more : List Item} {ls ms : List Lexeme}

theorem none (h : items.filterMap (·.imported?) = []) (ls : List Lexeme) : Imports items ls :=
  ⟨[], nofun, h, .nil ls⟩

theorem behind (ls : List Lexeme) (h : Imports items ms) : Imports items (ls ++ ms) := by
  obtain ⟨ds, hds, hitems, hspread⟩ := h
  exact ⟨ds, hds, hitems, hspread.behind ls⟩

theorem append (h : Imports items ls) (h' : Imports more ms) :
    Imports (items ++ more) (ls ++ ms) := by
  obtain ⟨ds, hds, hitems, hspread⟩ := h
  obtain ⟨es, hes, hmore, hspread'⟩ := h'
  refine ⟨ds ++ es, List.forall_mem_append.2 ⟨hds, hes⟩, ?_, ?_⟩
  · rw [List.filterMap_append, hitems, hmore, List.map_append]
  · rw [List.map_append]
    exact hspread.append hspread'

/-- A directive by itself. -/
theorem directive {d : Directive} (h : d.Readable) : Imports [.imported d.entry] d.spelling := by
  have hone : Spread [d.spelling] (d.spelling ++ []) := .part d.spelling (.nil [])
  rw [List.append_nil] at hone
  exact ⟨[d], List.forall_mem_singleton.2 h, rfl, hone⟩

end Imports

/-- A parser that finds no fault passes lexemes with the directives that it imports. -/
def TakesImports (p : Parser (List Item)) (c : Cursor) : Prop :=
  hasFault (p c).found = false → ∃ ls, c.Passes ls (p c).rest ∧ Imports (p c).value ls

namespace TakesImports

variable {α : Type} {p q : Parser (List Item)} {c : Cursor}

theorem of_eq (h : p c = q c) (hq : TakesImports q c) : TakesImports p c := by
  rwa [TakesImports, h]

/-- What imports nothing. -/
theorem none (hp : ∃ ls, c.Passes ls (p c).rest)
    (h : Gives (fun items => items.filterMap (·.imported?) = []) p c) : TakesImports p c := by
  intro hf
  obtain ⟨ls, hls⟩ := hp
  exact ⟨ls, hls, .none (h.resolve_right fun hn => Bool.false_ne_true (hf.symm.trans hn)) ls⟩

theorem fault (h : hasFault (p c).found = true) : TakesImports p c :=
  fun hf => absurd (hf.symm.trans h) Bool.false_ne_true

/-- Items that are no usings. -/
theorem pure {items : List Item} (h : items.filterMap (·.imported?) = []) :
    TakesImports (Pure.pure items) c := none ⟨[], .refl c⟩ (.pure h)

/-- What imports after a step. -/
theorem bind {r : Parser α} {f : α → Parser (List Item)} (hr : ∃ ls, c.Passes ls (r c).rest)
    (h : TakesImports (f (r c).value) (r c).rest) : TakesImports (r >>= f) c := by
  intro hf
  obtain ⟨ls, hls⟩ := hr
  obtain ⟨ms, hms, himports⟩ := h (hasFault_append_eq_false.1 hf).2
  exact ⟨ls ++ ms, hls.trans hms, himports.behind ls⟩

theorem look {k : Cursor → α} {f : α → Parser (List Item)} (h : TakesImports (f (k c)) c) :
    TakesImports (Parser.look k >>= f) c := h

theorem ite {b : Prop} [Decidable b] (hp : b → TakesImports p c) (hq : ¬b → TakesImports q c) :
    TakesImports (if b then p else q) c := by
  split
  · exact hp ‹_›
  · exact hq ‹_›

/-- What a loop imports in a turn and after it. -/
theorem of_goesOn {loop next turn : Parser (List Item)} (h : GoesOn loop next turn c)
    (ht : TakesImports turn c) (hn : TakesImports next (turn c).rest) : TakesImports loop c := by
  intro hf
  have heq := h.eq
  rw [heq] at hf ⊢
  obtain ⟨hfirst, hmore⟩ := hasFault_append_eq_false.1 hf
  obtain ⟨ls, hls, hitems⟩ := ht hfirst
  obtain ⟨ms, hms, hnext⟩ := hn hmore
  exact ⟨ls ++ ms, hls.trans hms, hitems.append hnext⟩

end TakesImports

/-! ### The usings of a file -/

/-- A directive, wherever it stands. -/
theorem takesImports_placedUsing (late : Bool) {c : Cursor} (h : atUsing c = true) :
    TakesImports (placedUsing late) c := by
  have hdirective : TakesImports usingDirective c := by
    intro hf
    obtain ⟨d, hd, hpasses, hvalue⟩ := usingDirective_reads h hf
    rw [hvalue]
    exact ⟨d.spelling, hpasses, .directive hd⟩
  exact .ite (fun _ => .fault (hasFault_bind rfl)) fun _ => hdirective

/-- Types import nothing. -/
theorem takesImports_namespaceMember (namespaceName : Option String) {c : Cursor}
    (h : (c.atEnd || c.atPunct "\x7d" || c.atKeyword "namespace") = false) :
    TakesImports (namespaceMember namespaceName) c := by
  have hmoves : MovesAt true (namespaceMember namespaceName) c :=
    movesAt_namespaceMember namespaceName h
  refine .none hmoves.walks.passed.passes ?_
  refine (gives_namespaceMember namespaceName c).mono fun items hitems => ?_
  refine List.filterMap_eq_nil_iff.2 fun i hi => ?_
  obtain ⟨t, rfl, -⟩ := hitems i hi
  rfl

/-- A namespace imports what its block does. -/
theorem takesImports_namespaceDeclaration {items : ItemParser} (place : NamespacePlace)
    {c : Cursor} (hc : c.atEnd = false)
    (h : ∀ name d, d.remaining < c.remaining → TakesImports (items name) d) :
    TakesImports (namespaceDeclaration items place) c := by
  have hpath := walks_namespacePath true c.next
  have hlt := Nat.lt_of_le_of_lt (Walk.remaining_le hpath) (Cursor.remaining_next_lt hc)
  refine .look <| .bind ⟨_, c.passes_next⟩ <| .bind hpath.passed.passes <|
    .bind (eat_passed ";" _).passes ?_
  refine .ite (fun _ => ?_) fun _ => .bind (eat_passed "\x7b" _).passes ?_
  · refine .bind ⟨[], .refl _⟩ ?_
    cases place.cause? with
    | none => exact .pure rfl
    | some cause => exact .bind ⟨[], .refl _⟩ <| .pure rfl
  · refine .ite (fun _ => h _ _ ?_) fun _ => .fault rfl
    exact Nat.lt_of_le_of_lt (eat_remaining_le _ _) (Nat.lt_of_le_of_lt (eat_remaining_le _ _) hlt)

/-- **The directives in the block of a namespace.** -/
theorem takesImports_namespaceItems (full : String) (late : Bool) (c : Cursor) :
    TakesImports (namespaceItems full late) c := by
  induction hn : c.remaining using Nat.strongRecOn generalizing full late c with
  | ind n ih =>
    subst hn
    cases hb : c.atPunct "\x7d" with
    | true =>
      refine .of_eq ((namespaceItems_eq full late c).trans (lookIf_of_true hb)) ?_
      exact .bind ⟨_, c.passes_next⟩ <| .bind (eat_passed ";" _).passes <| .pure rfl
    | false =>
      cases he : c.atEnd with
      | true =>
        refine .of_eq ((namespaceItems_eq full late c).trans (lookIf_of_false hb)) ?_
        exact .of_eq (lookIf_of_true he) (.fault rfl)
      | false =>
        refine .of_goesOn (goesOn_namespaceItems full late (Bool.or_eq_false_iff.2 ⟨hb, he⟩)) ?_
          (ih _ (namespaceTurn_remaining_lt full late hb he) _ _ _ rfl)
        refine .of_eq (namespaceItem_eq _ full late c) <| .look <|
          .ite (fun hu => takesImports_placedUsing late hu) fun _ => .look <| .ite (fun _ => ?_)
            fun hk => ?_
        · exact takesImports_namespaceDeclaration _ he fun name d hd => ih _ hd name false d rfl
        · exact takesImports_namespaceMember _ (by simp [hb, he, hk])

/-- **The directives of a file.** -/
theorem takesImports_fileItems (fileNamespace : Option String) (late : Bool) (c : Cursor) :
    TakesImports (fileItems fileNamespace late) c := by
  induction hn : c.remaining using Nat.strongRecOn generalizing fileNamespace late c with
  | ind n ih =>
    subst hn
    cases he : c.atEnd with
    | true =>
      refine .of_eq (q := Pure.pure []) ?_ (.pure rfl)
      rw [fileItems, he, if_pos rfl]
      rfl
    | false =>
      have hgo := goesOn_fileItems fileNamespace late he
      have hlt := Walk.remaining_lt (movesAt_fileItem fileNamespace late he).walks hgo.advances
      refine .of_goesOn hgo ?_ (ih _ hlt _ _ _ rfl)
      by_cases hu : atUsing c = true
      · exact .of_eq (if_pos hu) (takesImports_placedUsing late hu)
      by_cases ha : atAlias c = true
      · have hmoves : MovesAt true skipMember c := movesAt_alias ha
        exact .of_eq (q := fun d => (skipMember d).map fun _ => [])
          ((if_neg hu).trans (if_pos ha)) (.none hmoves.walks.passed.passes (.inl rfl))
      by_cases hk : c.atKeyword "namespace" = true
      · exact .of_eq ((if_neg hu).trans ((if_neg ha).trans (if_pos hk))) <|
          takesImports_namespaceDeclaration _ he fun name d _ =>
            takesImports_namespaceItems name false d
      by_cases hb : c.atPunct "\x7d" = true
      · refine .fault ?_
        rw [fileItem, if_neg hu, if_neg ha, if_neg hk, if_pos hb]
        rfl
      · exact .of_eq ((if_neg hu).trans ((if_neg ha).trans ((if_neg hk).trans (if_neg hb)))) <|
          takesImports_namespaceMember _ (by simp [hb, he, hk])

end Parser
end Outline
