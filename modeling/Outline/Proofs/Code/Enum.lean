/-
# Enums

The braces of an enum hold names, each with a value after `=` or without one and with a
comma after it or without one.  The list is read more freely than it is written: a comma
may be missing wherever the next name is told by itself, and a value may be empty or go
on over any lexemes.

| in the braces | read as |
| --- | --- |
| `A, B = 1,` | `A` and `B` |
| `A B` | `A` and `B` |
| `A = , B` | `A` and `B` |
| `A = 1; B` | `A`, whose value is `1; B` |
| `, A` or `A 1` | an error |
-/

import Mathlib.Data.List.TakeWhile
import Outline.Proofs.Parser.Files
import Outline.Proofs.Parser.Level
import Outline.Proofs.SyntaxTree.Reports

namespace Outline
namespace Code

open Outline.Parser
open Lexeme (mark)

/-! ### Items -/

/-- What stands in the braces of an enum for one of its members. -/
structure EnumItem where
  name : String
  /-- What stands after the `=`, if there is one. -/
  value : Option (List Lexeme)
  /-- Whether a comma stands at the end. -/
  comma : Bool
  deriving DecidableEq, Repr

namespace EnumItem

/-- The lexemes of the value. -/
def valueSpelling (m : EnumItem) : List Lexeme := (m.value.map (mark "=" :: ·)).getD []

/-- The lexemes of the comma. -/
def commaSpelling (m : EnumItem) : List Lexeme := if m.comma then [mark ","] else []

/-- The lexemes of an item. -/
def spelling (m : EnumItem) : List Lexeme := .name m.name :: (m.valueSpelling ++ m.commaSpelling)

/-- The member that an item declares. -/
def symbol (m : EnumItem) : MemberSymbol := ⟨.enumMember, m.name, true⟩

/-- An item whose value holds no comma and that ends before these lexemes. -/
structure EndsBefore (m : EnumItem) (rest : List Lexeme) : Prop where
  value : ∀ v ∈ m.value, ∀ l ∈ v, l.isPunct "," = false
  /-- Without a comma a value goes on to the end. -/
  last : m.comma = false → m.value.isSome = true → rest = []
  /-- Without a comma and a value neither of them is next. -/
  next : m.comma = false → rest.head?.any (·.isOneOf ["=", ","]) = false

end EnumItem

/-- Items as they are read: no value holds a comma, and a comma follows each value that is
not the last one. -/
structure ReadableItems (items : List EnumItem) : Prop where
  values : ∀ m ∈ items, ∀ v ∈ m.value, ∀ l ∈ v, l.isPunct "," = false
  commas : ∀ m ∈ items.dropLast, m.value.isSome = true → m.comma = true

/-- Items as they are written: a value is one name or literal, and a comma follows each
item that is not the last one. -/
structure WellFormedItems (items : List EnumItem) : Prop where
  values : ∀ m ∈ items, ∀ v ∈ m.value, ∃ l, v = [l] ∧ (l.isName || isLiteral l) = true
  commas : ∀ m ∈ items.dropLast, m.comma = true

theorem WellFormedItems.readable {items : List EnumItem} (h : WellFormedItems items) :
    ReadableItems items := by
  refine ⟨fun m hm v hv l hl => ?_, fun m hm _ => h.commas m hm⟩
  obtain ⟨k, rfl, hk⟩ := h.values m hm v hv
  obtain rfl := List.mem_singleton.1 hl
  rw [Bool.eq_false_iff]
  intro hp
  rw [Lexeme.isPunct, Bool.and_eq_true, beq_iff_eq] at hp
  simp [Lexeme.isName, isLiteral, Lexeme.isKeywordOf, hp.1] at hk

/-! ### One item -/

/-- The lexemes have no brackets. -/
def Bracketless (ls : List Lexeme) : Prop := ∀ l ∈ ls, l.delimiter? = none

instance (ls : List Lexeme) : Decidable (Bracketless ls) :=
  inferInstanceAs (Decidable (∀ l ∈ ls, l.delimiter? = none))

/-- What is left in the braces of an enum, with the closing brace. -/
def closed (ls : List Lexeme) : List Lexeme := ls ++ [mark "\x7d"]

theorem skipExpression_closed {ls rest : List Lexeme} (hb : Bracketless ls)
    (hc : ∀ l ∈ ls, l.isPunct "," = false) (hr : ∀ l ∈ rest.head?, l.isPunct "," = true) (i : Nat) :
    skipExpression [","] ⟨i, ls ++ closed rest⟩ = ⟨(), ⟨i + ls.length, closed rest⟩, []⟩ := by
  induction ls generalizing i with
  | nil =>
    cases rest with
    | nil =>
      rw [List.nil_append, closed, skipExpression]
      rfl
    | cons l rest =>
      refine skipExpression_of_stop ?_
      exact isOneOf_of_isPunct (hr l rfl) List.mem_cons_self
  | cons l ls ih =>
    have hl : l.isOneOf [","] = false := by
      simpa [Lexeme.isOneOf, Lexeme.isPunct] using hc l List.mem_cons_self
    rw [List.cons_append, skipExpression_of_plain rfl (hb l List.mem_cons_self) hl]
    have := ih (fun k hk => hb k (List.mem_cons_of_mem l hk))
      (fun k hk => hc k (List.mem_cons_of_mem l hk)) (i + 1)
    rw [List.length_cons, Nat.add_comm ls.length, ← Nat.add_assoc]
    exact this

section

variable {m : EnumItem} {rest : List Lexeme}

/-- The comma of an item, if there is one, and whether the items go on after it. -/
theorem enumComma_closed (h : m.EndsBefore rest) (hb : Bracketless rest) {i j : Nat}
    (hj : i < j) : enumComma i ⟨j, m.commaSpelling ++ closed rest⟩
      = ⟨m.comma || !rest.isEmpty, ⟨j + m.commaSpelling.length, closed rest⟩, []⟩ := by
  unfold EnumItem.commaSpelling
  cases hc : m.comma with
  | true => exact enumComma_of_comma (atPunct_mark "," j _) i
  | false =>
    have hnone : Cursor.atPunct ⟨j, closed rest⟩ "," = false := by
      cases rest with
      | nil => rfl
      | cons l rest => exact isPunct_of_isOneOf (h.next hc) (by decide)
    have hgo : (!Cursor.atPunct ⟨j, closed rest⟩ "\x7d" && !Cursor.atEnd ⟨j, closed rest⟩)
        = !rest.isEmpty := by
      cases rest with
      | nil => rfl
      | cons l rest =>
        have hl : l.isPunct "\x7d" = false := by
          rw [Bool.eq_false_iff]
          intro hl
          have := (delimiter?_of_isPunct hl).symm.trans (hb l List.mem_cons_self)
          cases this
        show (!l.isPunct "\x7d" && true) = true
        rw [hl]
        rfl
    simp only [Bool.false_eq_true, if_false, List.nil_append, Bool.false_or]
    rw [enumComma_of_none hnone]
    dsimp only
    rw [if_neg (Nat.ne_of_gt hj), hgo]
    rfl

/-- What follows the name and the value of an item is no equals sign. -/
theorem EnumItem.EndsBefore.not_atEquals (h : m.EndsBefore rest) (j : Nat) :
    Cursor.atPunct ⟨j, m.commaSpelling ++ closed rest⟩ "=" = false := by
  unfold EnumItem.commaSpelling
  cases hm : m.comma with
  | true => rfl
  | false =>
    cases rest with
    | nil => rfl
    | cons l rest => exact isPunct_of_isOneOf (h.next hm) (by decide)

/-- The value of an item, if there is one, is skipped. -/
theorem enumValue_closed (h : m.EndsBefore rest) (hb : Bracketless (m.spelling ++ rest)) {α : Type}
    (f : Unit → Parser α) (j : Nat) :
    (eat "=" >>= fun ate => if ate = true then skipExpression [","] >>= f else f ())
        ⟨j, m.valueSpelling ++ (m.commaSpelling ++ closed rest)⟩
      = f () ⟨j + m.valueSpelling.length, m.commaSpelling ++ closed rest⟩ := by
  cases hv : m.value with
  | none =>
    have hnone : m.valueSpelling = [] := by rw [EnumItem.valueSpelling, hv]; rfl
    rw [hnone, List.nil_append, eat_bind_of_not_atPunct (h.not_atEquals j)]
    rfl
  | some v =>
    have hsome : m.valueSpelling = mark "=" :: v := by rw [EnumItem.valueSpelling, hv]; rfl
    have hplain : Bracketless v := fun l hl => hb l <| by
      rw [EnumItem.spelling, hsome]
      simp [hl]
    have hskip : skipExpression [","] ⟨j + 1, v ++ (m.commaSpelling ++ closed rest)⟩
        = ⟨(), ⟨j + 1 + v.length, m.commaSpelling ++ closed rest⟩, []⟩ := by
      have hvalue : ∀ l ∈ v, l.isPunct "," = false := h.value v hv
      cases hc : m.comma with
      | true =>
        have hstop : ∀ l ∈ (mark "," :: rest).head?, l.isPunct "," = true := by
          rintro _ ⟨⟩
          rfl
        have := skipExpression_closed hplain hvalue hstop (j + 1)
        simpa [EnumItem.commaSpelling, hc, closed] using this
      | false =>
        obtain rfl := h.last hc (by rw [hv]; rfl)
        have hend : ∀ l ∈ ([] : List Lexeme).head?, l.isPunct "," = true := nofun
        have := skipExpression_closed hplain hvalue hend (j + 1)
        simpa [EnumItem.commaSpelling, hc] using this
    rw [hsome, List.cons_append, eat_bind_of_atPunct (atPunct_mark "=" j _), if_pos rfl]
    refine (bind_of_eq hskip).trans ?_
    rw [List.length_cons, Nat.add_comm v.length, Nat.add_assoc]

/-- **An item is read** as its member. -/
theorem enumMember_closed (h : m.EndsBefore rest) (hb : Bracketless (m.spelling ++ rest))
    (i : Nat) : enumMember ⟨i, m.spelling ++ closed rest⟩
      = ⟨(some m.symbol, m.comma || !rest.isEmpty), ⟨i + m.spelling.length, closed rest⟩, []⟩ := by
  have hrest : Bracketless rest := fun l hl => hb l (List.mem_append_right _ hl)
  have hattributes : attributes ⟨i, m.spelling ++ closed rest⟩
      = ⟨(), ⟨i, m.spelling ++ closed rest⟩, []⟩ := by
    rw [attributes]
    rfl
  have hname : enumName ⟨i, m.spelling ++ closed rest⟩
      = ⟨some m.symbol, ⟨i + 1, m.valueSpelling ++ (m.commaSpelling ++ closed rest)⟩, []⟩ := by
    rw [EnumItem.spelling, List.cons_append, List.append_assoc]
    rfl
  have hcomma := enumComma_closed h hrest (i := i) (j := i + 1 + m.valueSpelling.length) (by omega)
  have hlength : i + m.spelling.length
      = i + 1 + m.valueSpelling.length + m.commaSpelling.length := by
    rw [EnumItem.spelling, List.length_cons, List.length_append]
    omega
  unfold enumMember
  refine (bind_of_eq rfl).trans <| (bind_of_eq hattributes).trans <| (bind_of_eq hname).trans ?_
  refine (enumValue_closed h hb _ _).trans <| (bind_of_eq hcomma).trans ?_
  rw [hlength]
  rfl

/-- Lexemes up to the first comma, and from there on. -/
theorem exists_comma (ls : List Lexeme) : ∃ before after, ls = before ++ after ∧
    (∀ l ∈ before, l.isPunct "," = false) ∧ ∀ l ∈ after.head?, l.isPunct "," = true := by
  refine ⟨ls.takeWhile (!·.isPunct ","), ls.dropWhile (!·.isPunct ","),
    List.takeWhile_append_dropWhile.symm, fun l hl => ?_, fun l hl => ?_⟩
  · simpa using List.mem_takeWhile_imp hl
  · have := List.head?_dropWhile_not (!·.isPunct ",") ls
    rw [show _ = some l from hl] at this
    simpa using this

/-- What is no name is reported, and skipped up to a comma. -/
theorem enumName_other {l : Lexeme} {ls before after : List Lexeme} (hl : l.isName = false)
    (hb : Bracketless (l :: ls)) (heq : l :: ls = before ++ after)
    (hbefore : ∀ l ∈ before, l.isPunct "," = false)
    (hafter : ∀ l ∈ after.head?, l.isPunct "," = true) (i : Nat) :
    enumName ⟨i, closed (l :: ls)⟩
      = ⟨none, ⟨i + before.length, closed after⟩, [⟨.expected .identifier, .whole i⟩]⟩ := by
  have hplain : Bracketless before := fun k hk => hb k (heq ▸ List.mem_append_left _ hk)
  have hskip := skipExpression_closed hplain hbefore hafter i
  have hname : name? ⟨i, closed (l :: ls)⟩ = ⟨none, ⟨i, closed (l :: ls)⟩, []⟩ := by
    show (if l.isName = true then _ else _ : Parser (Option String)) _ = _
    rw [hl]
    rfl
  have hclosed : closed (l :: ls) = before ++ closed after := by
    rw [closed, heq, List.append_assoc, closed]
  unfold enumName
  rw [bind_of_eq hname, hclosed]
  show Step.before _ (((skipExpression [","] : Parser Unit) >>= fun _ =>
    (pure none : Parser (Option MemberSymbol))) ⟨i, before ++ closed after⟩) = _
  exact congrArg (Step.before _) (bind_of_eq hskip)

/-- **What is no item is reported**, and passed up to and with a comma. -/
theorem enumMember_other {l : Lexeme} {ls : List Lexeme} (hl : l.isName = false)
    (hb : Bracketless (l :: ls)) (i : Nat) : ∃ more j after, Bracketless after ∧
      after.length ≤ ls.length ∧ (more = false → after = []) ∧ enumMember ⟨i, closed (l :: ls)⟩
        = ⟨(none, more), ⟨j, closed after⟩, [⟨.expected .identifier, .whole i⟩]⟩ := by
  obtain ⟨before, after, heq, hbefore, hafter⟩ := exists_comma (l :: ls)
  have hlength := congrArg List.length heq
  rw [List.length_cons, List.length_append] at hlength
  have hrest : Bracketless after := fun k hk => hb k (heq ▸ List.mem_append_right _ hk)
  have hattributes : attributes ⟨i, closed (l :: ls)⟩ = ⟨(), ⟨i, closed (l :: ls)⟩, []⟩ := by
    have hsquare : l.isPunct "[" = false := by
      rw [Bool.eq_false_iff]
      intro h
      cases (delimiter?_of_isPunct h).symm.trans (hb l List.mem_cons_self)
    rw [attributes, if_neg]
    rw [show Cursor.atPunct ⟨i, closed (l :: ls)⟩ "[" = false from hsquare]
    exact Bool.false_ne_true
  have hname := enumName_other hl hb heq hbefore hafter i
  have hequals : Cursor.atPunct ⟨i + before.length, closed after⟩ "=" = false := by
    cases after with
    | nil => rfl
    | cons k after =>
      have hk : k.isOneOf [","] = true := isOneOf_of_isPunct (hafter k rfl) List.mem_cons_self
      exact isPunct_of_not_mem hk (by decide)
  have hturn : enumMember ⟨i, closed (l :: ls)⟩
      = ((enumComma i ⟨i + before.length, closed after⟩).map (none, ·)).before
        [⟨.expected .identifier, .whole i⟩] := by
    unfold enumMember
    rw [bind_of_eq rfl, bind_of_eq hattributes, bind_apply, hname]
    refine congrArg (Step.before _) ((eat_bind_of_not_atPunct hequals _).trans ?_)
    exact bindPure_apply (enumComma i) (none, ·) _
  cases after with
  | nil =>
    have hcomma : enumComma i ⟨i + before.length, closed []⟩
        = ⟨false, ⟨i + before.length, closed []⟩, []⟩ := by
      rw [enumComma_of_none rfl]
      dsimp only
      rw [if_neg (by rw [List.length_nil] at hlength; omega)]
      rfl
    rw [hturn, hcomma]
    exact ⟨false, _, [], hrest, Nat.zero_le _, fun _ => rfl, rfl⟩
  | cons k after =>
    have hnext : Cursor.atPunct ⟨i + before.length, closed (k :: after)⟩ "," = true :=
      hafter k rfl
    have hcomma : enumComma i ⟨i + before.length, closed (k :: after)⟩
        = ⟨true, ⟨i + before.length + 1, closed after⟩, []⟩ := enumComma_of_comma hnext i
    rw [hturn, hcomma]
    refine ⟨true, _, after, fun m hm => hrest m (List.mem_cons_of_mem k hm), ?_,
      fun h => absurd h Bool.noConfusion, rfl⟩
    rw [List.length_cons] at hlength
    omega

end

/-! ### All items -/

theorem enumMembers_end (i : Nat) : enumMembers ⟨i, closed []⟩ = ⟨[], ⟨i, closed []⟩, []⟩ := by
  rw [enumMembers]
  rfl

/-- The members go on after one of them, also if it is the last one. -/
theorem enumMembers_turn {i j : Nat} {l : Lexeme} {ls rest : List Lexeme}
    {member : Option MemberSymbol} {more : Bool} {found : List Finding}
    (hl : l.delimiter? = none) (hmore : more = false → rest = [])
    (h : enumMember ⟨i, closed (l :: ls)⟩ = ⟨(member, more), ⟨j, closed rest⟩, found⟩) :
    enumMembers ⟨i, closed (l :: ls)⟩
      = ((enumMembers ⟨j, closed rest⟩).map (member.toList ++ ·)).before found := by
  have hgo : (Cursor.atPunct ⟨i, closed (l :: ls)⟩ "\x7d" || Cursor.atEnd ⟨i, closed (l :: ls)⟩)
      = false := by
    have hbrace : l.isPunct "\x7d" = false := by
      rw [Bool.eq_false_iff]
      intro hp
      cases (delimiter?_of_isPunct hp).symm.trans hl
    exact Bool.or_eq_false_iff.2 ⟨hbrace, rfl⟩
  cases hm : more with
  | true =>
    rw [hm] at h
    have hgoes := goesOn_enumMembers hgo (by rw [h])
    rw [hgoes.eq, enumTurn, h]
    rfl
  | false =>
    rw [hm] at h
    rw [hmore hm] at h ⊢
    rw [enumMembers_end, enumMembers, hgo, if_neg Bool.false_ne_true]
    simp only [h, Bool.false_eq_true, if_false, Step.map, Step.before, List.append_nil]

theorem readable_nil : ReadableItems [] := ⟨nofun, nofun⟩

/-- Items are readable if the first one ends before the others. -/
theorem readable_cons {m : EnumItem} {items : List EnumItem} : ReadableItems (m :: items)
    ↔ m.EndsBefore (items.flatMap (·.spelling)) ∧ ReadableItems items := by
  constructor
  · intro h
    refine ⟨⟨h.values m List.mem_cons_self, fun hc hv => ?_, fun _ => ?_⟩,
      ⟨fun n hn => h.values n (List.mem_cons_of_mem m hn), fun n hn => h.commas n ?_⟩⟩
    · cases items with
      | nil => rfl
      | cons n items => exact absurd (h.commas m List.mem_cons_self hv) (by simp [hc])
    · cases items with
      | nil => rfl
      | cons n items => rfl
    · cases items with
      | nil => cases hn
      | cons k items => exact List.mem_cons_of_mem m hn
  · rintro ⟨hm, hitems⟩
    refine ⟨List.forall_mem_cons.2 ⟨hm.value, hitems.values⟩, fun n hn hv => ?_⟩
    cases items with
    | nil => cases hn
    | cons k items =>
      rw [List.dropLast_cons_cons] at hn
      obtain rfl | hn := List.mem_cons.1 hn
      · rw [← Bool.not_eq_false]
        intro hc
        cases hm.last hc hv
      · exact hitems.commas n hn hv

theorem enumMembers_item {m : EnumItem} {rest : List Lexeme} (h : m.EndsBefore rest)
    (hb : Bracketless (m.spelling ++ rest)) (i : Nat) :
    enumMembers ⟨i, closed (m.spelling ++ rest)⟩
      = (enumMembers ⟨i + m.spelling.length, closed rest⟩).map (m.symbol :: ·) := by
  have hone := enumMember_closed h hb i
  rw [closed, ← List.append_assoc, ← closed] at hone
  refine (enumMembers_turn rfl (fun hm => ?_) hone).trans rfl
  simpa using (Bool.or_eq_false_iff.1 hm).2

/-- **Items are read** as their members. -/
theorem enumMembers_items {items : List EnumItem} (h : ReadableItems items)
    (hb : Bracketless (items.flatMap (·.spelling))) (i : Nat) :
    enumMembers ⟨i, closed (items.flatMap (·.spelling))⟩
      = ⟨items.map (·.symbol), ⟨i + (items.flatMap (·.spelling)).length, closed []⟩, []⟩ := by
  induction items generalizing i with
  | nil => exact enumMembers_end i
  | cons m items ih =>
    obtain ⟨hm, hitems⟩ := readable_cons.1 h
    rw [List.flatMap_cons] at hb ⊢
    rw [enumMembers_item hm hb, ih hitems fun l hl => hb l (List.mem_append_right _ hl),
      List.length_append, ← Nat.add_assoc]
    rfl

/-- What starts with a name starts with an item. -/
theorem exists_item (name : String) (ls : List Lexeme) : ∃ m : EnumItem, ∃ rest,
    .name name :: ls = m.spelling ++ rest ∧ m.EndsBefore rest := by
  cases ls with
  | nil => exact ⟨⟨name, none, false⟩, [], rfl, ⟨nofun, nofun, fun _ => rfl⟩⟩
  | cons l ls =>
    cases hequals : l.isPunct "=" with
    | true =>
      obtain ⟨before, after, rfl, hbefore, hafter⟩ := exists_comma ls
      have hvalue : ∀ v ∈ some before, ∀ l ∈ v, l.isPunct "," = false := by
        rintro _ ⟨⟩
        exact hbefore
      rw [eq_mark_of_isPunct hequals]
      cases after with
      | nil =>
        refine ⟨⟨name, some before, false⟩, [], ?_, ⟨hvalue, fun _ _ => rfl, fun _ => rfl⟩⟩
        simp [EnumItem.spelling, EnumItem.valueSpelling, EnumItem.commaSpelling]
      | cons c after =>
        refine ⟨⟨name, some before, true⟩, after, ?_, ⟨hvalue, nofun, nofun⟩⟩
        rw [eq_mark_of_isPunct (hafter c rfl)]
        simp [EnumItem.spelling, EnumItem.valueSpelling, EnumItem.commaSpelling]
    | false =>
      cases hcomma : l.isPunct "," with
      | true =>
        rw [eq_mark_of_isPunct hcomma]
        exact ⟨⟨name, none, true⟩, ls, rfl, ⟨nofun, nofun, nofun⟩⟩
      | false =>
        refine ⟨⟨name, none, false⟩, l :: ls, rfl, ⟨nofun, nofun, fun _ => ?_⟩⟩
        show l.isOneOf ["=", ","] = false
        simp only [Lexeme.isPunct, Lexeme.isOneOf, List.contains_cons, Bool.and_eq_false_imp,
          List.contains_nil, Bool.or_false, Bool.or_eq_false_iff] at hequals hcomma ⊢
        exact fun hk => ⟨hequals hk, hcomma hk⟩

/-- **What is no list of items is reported**, and the closing brace is reached. -/
theorem enumMembers_closed {ls : List Lexeme} (hb : Bracketless ls) (i : Nat) :
    ∃ members j found, enumMembers ⟨i, closed ls⟩ = ⟨members, ⟨j, closed []⟩, found⟩ ∧
      (hasFault found = false → ∃ items, ReadableItems items ∧
        ls = items.flatMap (·.spelling)) := by
  induction hn : ls.length using Nat.strongRecOn generalizing ls i with
  | ind n ih =>
    subst hn
    cases ls with
    | nil => exact ⟨[], i, [], enumMembers_end i, fun _ => ⟨[], readable_nil, rfl⟩⟩
    | cons l ls =>
      cases hl : l.isName with
      | true =>
        obtain ⟨m, rest, hls, hm⟩ := exists_item l.text ls
        rw [eq_name hl, hls] at hb ⊢
        have hlt : rest.length < (l :: ls).length := by
          have := congrArg List.length hls
          simp only [EnumItem.spelling, List.length_cons, List.length_append] at this ⊢
          omega
        obtain ⟨members, j, found, hrest, hitems⟩ := ih _ hlt
          (fun k hk => hb k (List.mem_append_right _ hk)) (i + m.spelling.length) rfl
        refine ⟨m.symbol :: members, j, found, ?_, fun hf => ?_⟩
        · rw [enumMembers_item hm hb, hrest]
          rfl
        · obtain ⟨items, hreadable, rfl⟩ := hitems hf
          exact ⟨m :: items, readable_cons.2 ⟨hm, hreadable⟩, rfl⟩
      | false =>
        obtain ⟨more, k, rest, hplain, hle, hmore, hone⟩ := enumMember_other hl hb i
        obtain ⟨members, j, found, hrest, -⟩ := ih _ (Nat.lt_succ_of_le hle) hplain k rfl
        refine ⟨members, j, ⟨.expected .identifier, .whole i⟩ :: found, ?_, nofun⟩
        rw [enumMembers_turn (hb l List.mem_cons_self) hmore hone, hrest]
        rfl

/-! ### Sources -/

/-- The lexemes of an enum with these in its braces. -/
def enumSpelling (name : String) (ls : List Lexeme) : List Lexeme :=
  .word "enum" :: .name name :: grouped .brace ls

section

variable (name : String) {ls : List Lexeme} {members : List MemberSymbol} {j : Nat}
  {found : List Finding}

/-- The body of an enum is what its braces hold. -/
theorem typeBody_enum (h : enumMembers ⟨3, closed ls⟩ = ⟨members, ⟨j, closed []⟩, found⟩)
    (place : Edge) : typeBody memberList .enum name place ⟨2, grouped .brace ls⟩
      = ⟨members.map .member, ⟨j + 1, []⟩, found⟩ := by
  have hinside : enumMembers (Cursor.next ⟨2, mark "\x7b" :: (ls ++ [mark "\x7d"])⟩)
      = ⟨members, ⟨j, closed []⟩, found⟩ := h
  unfold typeBody
  rw [grouped_brace, eat_bind_of_atPunct (atPunct_mark "\x7b" 2 _)]
  simp only [if_true]
  refine (bind_apply enumMembers _ _).trans ?_
  rw [hinside]
  exact congrArg (Step.mk _ _) (List.append_nil found)

/-- The type that an enum declares after no modifiers. -/
def declaredEnum (name : String) (members : List MemberSymbol) : Declared where
  namespaceName := none
  name := name
  arity := 0
  kind := .enum
  isPartial := false
  members := members
  nested := []
  place := .start 1

/-- An enum is what its name and its braces hold. -/
theorem typeDeclaration_enum
    (h : enumMembers ⟨3, closed ls⟩ = ⟨members, ⟨j, closed []⟩, found⟩) :
    typeDeclaration memberList none [] ⟨0, enumSpelling name ls⟩
      = ⟨declaredEnum name members, ⟨j + 1, []⟩, found⟩ := by
  have hkeyword : typeKeyword ⟨0, enumSpelling name ls⟩
      = ⟨.enum, ⟨1, .name name :: grouped .brace ls⟩, []⟩ := rfl
  have hname : typeName 0 ⟨1, .name name :: grouped .brace ls⟩
      = ⟨(name, .start 1), ⟨2, grouped .brace ls⟩, []⟩ := rfl
  have harity : typeParameters? ⟨2, grouped .brace ls⟩ = ⟨0, ⟨2, grouped .brace ls⟩, []⟩ := rfl
  have hprimary : primaryParameters .enum (.start 1) ⟨2, grouped .brace ls⟩
      = ⟨(), ⟨2, grouped .brace ls⟩, []⟩ := rfl
  have hbases : bases ⟨2, grouped .brace ls⟩ = ⟨(), ⟨2, grouped .brace ls⟩, []⟩ := rfl
  have hmembers := (Holds.map members).members
  have hnested := List.map_eq_nil_iff.1 (Holds.map members).nested
  refine (bind_of_eq rfl).trans <| (bind_of_eq hkeyword).trans <| (bind_of_eq hname).trans <|
    (bind_of_eq harity).trans <| (bind_of_eq hprimary).trans <| (bind_of_eq hbases).trans ?_
  refine (bindPure_apply _ _ _).trans ?_
  rw [typeBody_enum name h]
  simp only [Step.map, hmembers, hnested]
  rfl

/-- **A file with an enum is parsed as the enum**, and found is what its braces hold. -/
theorem parseFile_enum (h : enumMembers ⟨3, closed ls⟩ = ⟨members, ⟨j, closed []⟩, found⟩) :
    parseFile (enumSpelling name ls)
      = ⟨[.type (declaredEnum name members)], ⟨j + 1, []⟩, found⟩ := by
  have hattributes : attributes ⟨0, enumSpelling name ls⟩
      = ⟨(), ⟨0, enumSpelling name ls⟩, []⟩ := by
    rw [attributes]
    rfl
  have hmodifiers : modifiers ⟨0, enumSpelling name ls⟩ = ⟨[], ⟨0, enumSpelling name ls⟩, []⟩ := rfl
  have htype : modifiedType none [] ⟨0, enumSpelling name ls⟩
      = ⟨[.type (declaredEnum name members)], ⟨j + 1, []⟩, found⟩ := by
    refine (lookIf_of_true rfl).trans <| (bindPure_apply _ (fun t => [Item.type t]) _).trans ?_
    rw [typeDeclaration_enum name h]
    rfl
  have hmember : namespaceMember none ⟨0, enumSpelling name ls⟩
      = ⟨[.type (declaredEnum name members)], ⟨j + 1, []⟩, found⟩ :=
    (bind_of_eq hattributes).trans <| (lookIf_of_false rfl).trans <|
      (bind_of_eq hmodifiers).trans htype
  have hitem : fileItem none false ⟨0, enumSpelling name ls⟩
      = ⟨[.type (declaredEnum name members)], ⟨j + 1, []⟩, found⟩ := hmember
  have hend : ∀ late, fileItems none late ⟨j + 1, []⟩ = ⟨[], ⟨j + 1, []⟩, []⟩ := by
    intro late
    rw [fileItems]
    rfl
  have hgo := goesOn_fileItems none false (c := ⟨0, enumSpelling name ls⟩) rfl
  rw [parseFile, hgo.eq, hitem]
  refine (congrArg (fun s => Step.before found (Step.map _ s)) (hend _)).trans ?_
  exact congrArg (Step.mk _ _) (List.append_nil found)

end

/-- **An enum is accepted if its braces are read as items.**  A source with an enum without
brackets in its braces has errors if and only if what is in the braces is no list of items
as they are read; all items as they are written are among these.  Without errors, nothing
is reported and the enum has the names of the items as its members, in order. -/
theorem parse_enum (version : Language.Version) (s : Source) (name : String) (ls : List Lexeme)
    (hb : Bracketless ls) (hs : lexicalDiagnostics s = [])
    (hl : lexemes s.text = enumSpelling name ls) :
    let tree := SyntaxTree.parse version s
    (tree.hasErrors = false ↔ ∃ items, ReadableItems items ∧ ls = items.flatMap (·.spelling)) ∧
      (∀ items, WellFormedItems items → ReadableItems items) ∧
      ∀ items, ReadableItems items → ls = items.flatMap (·.spelling) → tree.diagnostics = [] ∧
        tree.types.map (·.unplaced)
          = [⟨none, name, 0, .enum, false, items.map (·.symbol), [], ()⟩] := by
  intro tree
  have hlexemes : (tokens s.text).map (·.lexeme) = enumSpelling name ls := by
    rw [map_lexeme_tokens, hl]
  have haccepted : ∀ items, ReadableItems items → ls = items.flatMap (·.spelling) →
      tree.diagnostics = [] ∧ tree.types.map (·.unplaced)
        = [⟨none, name, 0, .enum, false, items.map (·.symbol), [], ()⟩] := by
    rintro items hitems rfl
    have hfile := parseFile_enum name (enumMembers_items hitems hb 3)
    have hreported : SyntaxTree.reported version s = [] := by
      rw [SyntaxTree.reported, SyntaxTree.findings, hlexemes, hfile, List.filterMap_nil]
    have hperm := SyntaxTree.diagnostics_perm version s
    rw [hs, hreported] at hperm
    refine ⟨hperm.eq_nil, ?_⟩
    rw [SyntaxTree.map_unplaced_types, hlexemes, hfile]
    rfl
  refine ⟨⟨fun hn => ?_, ?_⟩, fun _ h => h.readable, haccepted⟩
  · obtain ⟨members, j, found, hmembers, hitems⟩ := enumMembers_closed hb 3
    have hfault := SyntaxTree.hasFault_of_hasErrors hn
    rw [hlexemes, parseFile_enum name hmembers] at hfault
    exact hitems hfault
  · rintro ⟨items, hitems, hspelled⟩
    rw [SyntaxTree.hasErrors, (haccepted items hitems hspelled).1]
    rfl

/-- A comma is missing after a name, a value goes on over a semicolon, and another value is
empty. -/
theorem parse_enum_loose :
    let s : Source := ⟨"enum E \x7b A, B = 1; x, C D = , @class /* last */ = -1, \x7d", 0⟩
    let items : List EnumItem := [⟨"A", none, true⟩, ⟨"B", some (lexemes "1; x"), true⟩,
      ⟨"C", none, false⟩, ⟨"D", some [], true⟩, ⟨"class", some (lexemes "-1"), true⟩]
    let tree := SyntaxTree.parse .v7_3 s
    ReadableItems items ∧ tree.hasErrors = false ∧ tree.types.map (·.unplaced)
      = [⟨none, "E", 0, .enum, false, items.map (·.symbol), [], ()⟩] := by
  intro s items tree
  have hitems : ReadableItems items := ⟨by decide +kernel, by decide +kernel⟩
  obtain ⟨hiff, -, haccepted⟩ := parse_enum .v7_3 s "E" (items.flatMap (·.spelling))
    (by decide +kernel) (by decide +kernel) (by decide +kernel)
  exact ⟨hitems, hiff.2 ⟨items, hitems, rfl⟩, (haccepted items hitems rfl).2⟩

/-- The words, signs and literals that the items of an enum are written with. -/
def isEnumLexeme (l : Lexeme) : Bool := l.isName || l.isOneOf ["=", ",", ";"] || isLiteral l

/-- Two names without a comma between them are accepted. -/
theorem not_wellFormed_of_accepted :
    ¬∀ (version : Language.Version) (s : Source) (name : String) (ls : List Lexeme),
      (∀ l ∈ ls, isEnumLexeme l = true) → lexicalDiagnostics s = [] →
        lexemes s.text = enumSpelling name ls →
          ((SyntaxTree.parse version s).hasErrors = false ↔
            ∃ items, WellFormedItems items ∧ ls = items.flatMap (·.spelling)) := by
  intro h
  let s : Source := ⟨"enum E \x7b A B \x7d", 0⟩
  obtain ⟨items, hitems, hls⟩ := (h .v12 s "E" [.name "A", .name "B"] (by decide)
    (by decide +kernel) (by decide +kernel)).1 (by decide +kernel)
  -- One item does not spell a second name, and more than one have a comma between them.
  cases items with
  | nil => cases hls
  | cons m items =>
    cases items with
    | nil =>
      rw [List.flatMap_singleton] at hls
      obtain ⟨name, value, comma⟩ := m
      cases value <;> cases comma <;>
        simp [EnumItem.spelling, EnumItem.valueSpelling, EnumItem.commaSpelling, Lexeme.name,
          mark] at hls
    | cons n items =>
      have hcomma : mark "," ∈ [Lexeme.name "A", .name "B"] := by
        rw [hls]
        simp [EnumItem.spelling, EnumItem.commaSpelling, hitems.commas m List.mem_cons_self]
      revert hcomma
      decide

end Code
end Outline
