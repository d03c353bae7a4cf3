/-
# What declared types look like

Whatever the lexemes are, with or without faults, the parser declares well-formed types only
(`WellFormed`): their members have names, an enum has nothing but its constants, what is nested in a
type has no namespace, and a name is missing only where the word that declares the type is
followed by no name.

| declared | made of |
| --- | --- |
| a type, at any depth | the words that declare it, and the entries of its braces |
| an entry of a type | a member with a name, or a type without a namespace |
| an entry of an enum | a static constant with a name |
| an item of a file | a type |
-/

import Outline.Proofs.Parser.Sites

namespace Outline
namespace Parser

/-! ### Parsers on the way through lexemes -/

/-- A cursor that is reached on the way through lexemes. -/
def Cursor.Reached (all : List Lexeme) (c : Cursor) : Prop :=
  ∃ ls, (⟨0, all⟩ : Cursor).Passes ls c

namespace Cursor.Reached

variable {all : List Lexeme} {c d : Cursor}

theorem start (all : List Lexeme) : Cursor.Reached all ⟨0, all⟩ := ⟨[], .refl _⟩

/-- What is reached from a cursor on the way is on the way. -/
theorem passes {ls : List Lexeme} (h : c.Reached all) (hp : c.Passes ls d) : d.Reached all := by
  obtain ⟨ms, hm⟩ := h
  exact ⟨ms ++ ls, hm.trans hp⟩

/-- What is ahead of a cursor is among the lexemes, at its index. -/
theorem getElem? (h : c.Reached all) (i : Nat) : all[c.index + i]? = c.ahead[i]? := by
  obtain ⟨ls, hp⟩ := h
  have hi : c.index = ls.length := by simpa using hp.index
  have hall : all = ls ++ c.ahead := hp.ahead
  rw [hall, hi, List.getElem?_append_right (Nat.le_add_right _ _), Nat.add_sub_cancel_left]

/-- The next lexeme is one of all lexemes. -/
theorem mem_of_head? (h : c.Reached all) {l : Lexeme} {ls : List Lexeme}
    (ha : c.ahead = l :: ls) : l ∈ all := by
  have := h.getElem? 0
  rw [ha] at this
  exact List.mem_of_getElem? this

end Cursor.Reached

/-- Wherever it is reached, a parser comes to something good. -/
def ComesTo {α : Type} (all : List Lexeme) (good : α → Prop) (p : Parser α) (c : Cursor) : Prop :=
  c.Reached all → good (p c).value

namespace ComesTo

variable {α β γ : Type} {all : List Lexeme} {good : α → Prop} {p q : Parser α} {c : Cursor}

theorem pure {a : α} (h : good a) : ComesTo all good (Pure.pure a : Parser α) c := fun _ => h

/-- The second parser starts on the way, as the first one passes lexemes. -/
theorem bind {r : Parser β} {f : β → Parser α} (hr : (r c).Passed c)
    (h : ComesTo all good (f (r c).value) (r c).rest) : ComesTo all good (r >>= f) c := fun hc => by
  obtain ⟨ls, hp⟩ := hr.passes
  exact h (hc.passes hp)

/-- What is made of what a parser comes to. -/
theorem andThen {good' : β → Prop} {r : Parser β} {f : β → Parser α} (hr : (r c).Passed c)
    (hv : ComesTo all good' r c)
    (h : good' (r c).value → ComesTo all good (f (r c).value) (r c).rest) :
    ComesTo all good (r >>= f) c := fun hc => bind hr (h (hv hc)) hc

theorem map {good' : β → Prop} {r : Parser β} {k : β → α} (hv : ComesTo all good' r c)
    (h : ∀ b, good' b → good (k b)) : ComesTo all good (r >>= fun b => Pure.pure (k b)) c :=
  fun hc => h _ (hv hc)

/-- Whatever a parser comes to, it is something else in the end. -/
theorem last {r : Parser β} {k : β → α} (h : ∀ b, good (k b)) :
    ComesTo all good (r >>= fun b => Pure.pure (k b)) c := fun _ => h _

theorem look {k : Cursor → γ} {f : γ → Parser α} (h : ComesTo all good (f (k c)) c) :
    ComesTo all good (Parser.look k >>= f) c := h

theorem ite {b : Prop} [Decidable b] (hp : b → ComesTo all good p c)
    (hq : ¬b → ComesTo all good q c) : ComesTo all good (if b then p else q) c := by
  split
  · exact hp ‹_›
  · exact hq ‹_›

theorem of_eq (h : p c = q c) (hq : ComesTo all good q c) : ComesTo all good p c := by
  rwa [ComesTo, h]

/-- What one parser comes to, and what the next one does. -/
theorem append {good : γ → Prop} {p q : Parser (List γ)} {c : Cursor}
    (hpasses : ∃ ls, c.Passes ls (p c).rest) (hp : ComesTo all (fun as => ∀ a ∈ as, good a) p c)
    (hq : ComesTo all (fun as => ∀ a ∈ as, good a) q (p c).rest) :
    ComesTo all (fun as => ∀ a ∈ as, good a)
      (p >>= fun as => q >>= fun bs => Pure.pure (as ++ bs)) c := fun hc => by
  obtain ⟨ls, hl⟩ := hpasses
  exact List.forall_mem_append.2 ⟨hp hc, hq (hc.passes hl)⟩

end ComesTo

/-! ### Names -/

/-- No name among lexemes is empty. -/
def NamesAll (all : List Lexeme) : Prop := ∀ l ∈ all, l.isName = true → l.text ≠ ""

variable {all : List Lexeme}

/-- A name that is read is not empty, as no name among the lexemes is. -/
theorem comesTo_name? (hall : NamesAll all) (c : Cursor) :
    ComesTo all (fun o => ∀ n ∈ o, n ≠ "") name? c := by
  intro hc
  obtain ⟨hn, l, ls, ha, hname⟩ | ⟨-, hname⟩ := name?_cases c
  · rw [hname]
    rintro n ⟨⟩
    rw [Cursor.atName, Cursor.head?, ha] at hn
    exact hall l (hc.mem_of_head? ha) hn
  · rw [hname]
    rintro n ⟨⟩

/-- A name that goes on is not empty. -/
theorem memberNameTail_ne_empty {name : String} (h : name ≠ "") (c : Cursor) :
    (memberNameTail name c).value ≠ "" := by
  fun_induction memberNameTail name c with
  | case1 name c _ ih => exact ih (by simp [h])
  | case2 name c _ n _ ih => exact ih (by simp [h])
  | case3 => exact h

theorem comesTo_memberName? (hall : NamesAll all) (c : Cursor) :
    ComesTo all (fun o => ∀ n ∈ o, n ≠ "") memberName? c := by
  refine .andThen (walks_name? true c).passed (comesTo_name? hall c) fun h => ?_
  split
  · rename_i first hfirst
    have htail : ComesTo all (· ≠ "") (memberNameTail first) (name? c).rest := fun _ =>
      memberNameTail_ne_empty (h first hfirst) _
    exact htail.map fun n hn m hm => Option.some.inj hm ▸ hn
  · exact .pure fun n hn => by cases hn

theorem comesTo_nextName (hall : NamesAll all) (c : Cursor) :
    ComesTo all (fun o => ∀ n ∈ o, n ≠ "") (name? >>= fun name => match name with
      | some name => pure (some name)
      | none => do
        reportMissing .identifier
        pure none) c := by
  refine .andThen (walks_name? true c).passed (comesTo_name? hall c) fun h => ?_
  split
  · rename_i name hname
    exact .pure fun n hn => h n (hname.trans hn)
  · exact .last fun _ n hn => by cases hn

theorem comesTo_nextField (hall : NamesAll all) (c : Cursor) :
    ComesTo all (fun o => ∀ n ∈ o, n ≠ "") nextField c := by
  have tail (d : Cursor) : ComesTo all (fun o => ∀ n ∈ o, n ≠ "")
      (eat "," >>= fun ate => if ate = true then (name? >>= fun name => match name with
        | some name => pure (some name)
        | none => do
          reportMissing .identifier
          pure none) else pure none) d :=
    .bind (eat_passed "," d) <| .ite (fun _ => comesTo_nextName hall _) fun _ =>
      .pure fun n hn => by cases hn
  refine .bind (eat_passed "=" c) <| .ite (fun _ => ?_) fun _ => tail _
  exact .bind (walks_skipExpression _ true _).passed (tail _)

/-- The names of all fields in a list are there. -/
theorem comesTo_moreFields (hall : NamesAll all) (c : Cursor) :
    ComesTo all (fun ns => ∀ n ∈ ns, n ≠ "") moreFields c := by
  unfold ComesTo
  fun_induction moreFields c with
  | case1 c s name hs h ih =>
    intro hc
    obtain ⟨ls, hp⟩ := (walks_nextField true c).passed.passes
    exact List.forall_mem_cons.2 ⟨comesTo_nextField hall c hc name hs, ih (hc.passes hp)⟩
  | case2 c s name hs h =>
    exact fun hc => List.forall_mem_singleton.2 (comesTo_nextField hall c hc name hs)
  | case3 c s hs => exact fun _ n hn => absurd hn List.not_mem_nil

/-! ### Types -/

/-- Where a type may stand: at the start of a name, or at the end of a word that no name follows. -/
def StandsAt (all : List Lexeme) : Edge → Prop
  | .start i => ∃ l, all[i]? = some l ∧ l.isName = true
  | .stop i => i < all.length ∧ ∀ l, all[i + 1]? = some l → l.isName = false

/-- An edge stands at one of the tokens. -/
theorem StandsAt.token_lt {all : List Lexeme} {e : Edge} (h : StandsAt all e) :
    e.token < all.length := by
  cases e with
  | start i =>
    obtain ⟨l, hl, -⟩ := h
    exact (List.getElem?_eq_some_iff.1 hl).1
  | stop i => exact h.1

/-- A static constant of an enum. -/
def MemberSymbol.IsConstant (m : MemberSymbol) : Prop := m.kind = .enumMember ∧ m.isStatic = true

/-- A declared type that is well-formed, with those nested in it. -/
inductive WellFormed (all : List Lexeme) : Declared → Prop
  | intro {t : Declared} (place : StandsAt all t.place)
      (members : ∀ m ∈ t.members, m.name ≠ "")
      (enum : t.kind = .enum → t.nested = [] ∧ ∀ m ∈ t.members, MemberSymbol.IsConstant m)
      (global : ∀ u ∈ t.nested, u.namespaceName = none)
      (nested : ∀ u ∈ t.nested, WellFormed all u) : WellFormed all t

/-- What an entry of a type may be. -/
def Entry.WellFormed (all : List Lexeme) : Entry → Prop
  | .member m => m.name ≠ ""
  | .nested t => t.namespaceName = none ∧ Parser.WellFormed all t

/-- What an entry of an enum is. -/
def Entry.IsConstant : Entry → Prop
  | .member m => MemberSymbol.IsConstant m
  | .nested _ => False

/-- A member of an enum has a name, and is a constant. -/
theorem comesTo_enumName (hall : NamesAll all) (c : Cursor) :
    ComesTo all (fun o => ∀ m ∈ o, m.name ≠ "" ∧ MemberSymbol.IsConstant m) enumName c := by
  refine .andThen (walks_name? true c).passed (comesTo_name? hall c) fun h => ?_
  split
  · rename_i name hname
    refine .pure fun m hm => ?_
    obtain rfl := Option.some.inj hm
    exact ⟨h name hname, rfl, rfl⟩
  · exact .bind (walks_reportHere _ true _).passed <| .last fun _ m hm => by cases hm

theorem comesTo_enumMember (hall : NamesAll all) (c : Cursor) :
    ComesTo all (fun x => ∀ m ∈ x.1, m.name ≠ "" ∧ MemberSymbol.IsConstant m) enumMember c := by
  refine .look <| .bind (walks_attributes true c).passed <|
    .andThen (walks_enumName true _).passed (comesTo_enumName hall _) fun h =>
    .bind (eat_passed "=" _) <| .ite (fun _ => ?_) fun _ => .last fun _ => h
  exact .bind (walks_skipExpression _ true _).passed <| .last fun _ => h

theorem comesTo_enumMembers (hall : NamesAll all) (c : Cursor) :
    ComesTo all (fun ms => ∀ m ∈ ms, m.name ≠ "" ∧ MemberSymbol.IsConstant m) enumMembers c := by
  have one (d : Cursor) (hd : d.Reached all) : ∀ m ∈ (enumMember d).value.1.toList,
      m.name ≠ "" ∧ MemberSymbol.IsConstant m := fun m hm =>
    comesTo_enumMember hall d hd m (Option.mem_toList.1 hm)
  unfold ComesTo
  fun_induction enumMembers c with
  | case1 c => exact fun _ n hn => absurd hn List.not_mem_nil
  | case2 c hc s hs h ih =>
    intro hr
    have hw : WalksAt true enumMember c := walksAt_enumMember (by simp_all)
    obtain ⟨ls, hp⟩ := hw.passed.passes
    exact List.forall_mem_append.2 ⟨one c hr, ih (hr.passes hp)⟩
  | case3 c hc s hs h => exact one c
  | case4 c hc s hs => exact one c

/-- What is in the braces of a type, which is nothing but constants in those of an enum. -/
def IsInside (all : List Lexeme) (kind : TypeKind) (es : List Entry) : Prop :=
  (∀ e ∈ es, e.WellFormed all) ∧ (kind = .enum → ∀ e ∈ es, e.IsConstant)

theorem isInside_nil (kind : TypeKind) : IsInside all kind [] :=
  ⟨fun _ he => absurd he List.not_mem_nil, fun _ _ he => absurd he List.not_mem_nil⟩

/-- **What stands in the braces of a type** is as the kind of the type asks, enums included. -/
theorem comesTo_typeBody (hall : NamesAll all) {entries : EntryParser} (hw : entries.Walks)
    (he : ∀ name d, ComesTo all (fun es => ∀ e ∈ es, e.WellFormed all) (entries name) d)
    (kind : TypeKind) (name : String) (place : Edge) (c : Cursor) :
    ComesTo all (IsInside all kind) (typeBody entries kind name place) c := by
  have close {es : List Entry} (h : IsInside all kind es) (d : Cursor) : ComesTo all
      (IsInside all kind) (expect "\x7d" .closeBrace >>= fun _ => eat ";" >>= fun _ => pure es) d :=
    fun _ => h
  refine .bind (eat_passed "\x7b" c) <| .ite (fun _ => ?_) fun _ => .bind ?_ <|
    .ite (fun _ => ?_) fun _ => .last fun _ => isInside_nil kind
  · split
    · refine .andThen (walks_enumMembers true _).passed (comesTo_enumMembers hall _) fun h =>
        close ⟨fun e hmem => ?_, fun _ e hmem => ?_⟩ _
      all_goals
        obtain ⟨m, hm, rfl⟩ := List.mem_map.1 hmem
      · exact (h m hm).1
      · exact (h m hm).2
    · rename_i hk
      exact .andThen (hw name true _).passed (he name _) fun h =>
        close ⟨h, fun hkind => absurd hkind hk⟩ _
  · split
    · exact .stay _ _
    · exact eat_passed ";" _
  · split
    · exact .last fun _ => isInside_nil kind
    · exact .pure (isInside_nil kind)

/-- A reserved word is no name. -/
theorem Cursor.atName_of_atKeyword {c : Cursor} {k : String} (h : c.atKeyword k = true) :
    c.atName = false := by
  obtain ⟨l, hl, hk⟩ := Cursor.exists_head?_of_any h
  simp only [Lexeme.isKeyword, Bool.and_eq_true, beq_iff_eq] at hk
  simp [Cursor.atName, hl, Lexeme.isName, hk.1]

/-- Where a parser ends. -/
def EndsWhere {α : Type} (good : Cursor → Prop) (p : Parser α) (c : Cursor) : Prop :=
  good (p c).rest

namespace EndsWhere

variable {α β γ : Type} {good : Cursor → Prop} {p q : Parser α} {c : Cursor}

theorem bind {r : Parser β} {f : β → Parser α} (h : EndsWhere good (f (r c).value) (r c).rest) :
    EndsWhere good (r >>= f) c := h

theorem look {k : Cursor → γ} {f : γ → Parser α} (h : EndsWhere good (f (k c)) c) :
    EndsWhere good (Parser.look k >>= f) c := h

theorem ite {b : Prop} [Decidable b] (hp : b → EndsWhere good p c)
    (hq : ¬b → EndsWhere good q c) : EndsWhere good (if b then p else q) c := by
  split
  · exact hp ‹_›
  · exact hq ‹_›

end EndsWhere

/-- No name follows the words that declare a type if none follows the first of them. -/
theorem endsWhere_typeKeyword (c : Cursor) :
    EndsWhere (fun d => d.atName = false → c.next.atName = false) typeKeyword c := by
  refine .look <| .look <| .bind <| .ite (fun _ => id) fun _ => .ite (fun _ => id) fun _ =>
    .ite (fun _ => id) fun _ => .ite (fun _ => id) fun _ => .look <| .ite (fun h => ?_) fun _ =>
    .look <| .ite (fun h => ?_) fun _ => .bind id
  · exact .bind <| .bind fun _ => Cursor.atName_of_atKeyword h
  · exact .bind <| .bind fun _ => Cursor.atName_of_atKeyword h

/-- A name that is next stands at one of the tokens. -/
theorem standsAt_start {c : Cursor} (hr : c.Reached all) {l : Lexeme} {ls : List Lexeme}
    (ha : c.ahead = l :: ls) (hn : c.atName = true) : StandsAt all (.start c.index) := by
  have hl := hr.getElem? 0
  rw [ha] at hl
  rw [Cursor.atName, Cursor.head?, ha] at hn
  exact ⟨l, hl, hn⟩

/-- A name is missing only where none follows the word that declares the type. -/
theorem standsAt_declaredName {c : Cursor} (hr : c.Reached all) (hc : atTypeKeyword c = true) :
    StandsAt all (declaredName c).value.2 := by
  obtain ⟨hn, l, ls, ha, hname⟩ | ⟨hn, hname⟩ := name?_cases (typeKeyword c).rest
  · rw [declaredName, typeName_of_some hname]
    have hk : MovesAt true typeKeyword c := movesAt_typeKeyword hc
    obtain ⟨ms, hp⟩ := hk.walks.passed.passes
    exact standsAt_start (hr.passes hp) ha hn
  · rw [declaredName, typeName_of_none hname]
    have hnext := endsWhere_typeKeyword c hn
    have he : c.atEnd = false := atEnd_of_atTypeKeyword hc
    obtain ⟨j, ls⟩ := c
    cases ls with
    | nil => cases he
    | cons l ls =>
      refine ⟨(List.getElem?_eq_some_iff.1 (hr.getElem? 0)).1, fun m hm => ?_⟩
      have hsecond : ls.head? = some m := by
        rw [List.head?_eq_getElem?]
        exact (hr.getElem? 1).symm.trans hm
      simpa [Cursor.atName, Cursor.next, Cursor.head?, hsecond] using hnext

namespace Entry

theorem WellFormed.member {e : Entry} {m : MemberSymbol} (h : e.WellFormed all)
    (hm : e.member? = some m) : m.name ≠ "" := by
  cases e with
  | member => exact Option.some.inj hm ▸ h
  | nested => cases hm

theorem WellFormed.nested {e : Entry} {t : Declared} (h : e.WellFormed all)
    (ht : e.nested? = some t) : t.namespaceName = none ∧ Parser.WellFormed all t := by
  cases e with
  | member => cases ht
  | nested => exact Option.some.inj ht ▸ h

theorem IsConstant.member {e : Entry} {m : MemberSymbol} (h : e.IsConstant)
    (hm : e.member? = some m) : MemberSymbol.IsConstant m := by
  cases e with
  | member => exact Option.some.inj hm ▸ h
  | nested => cases hm

theorem IsConstant.nested?_eq {e : Entry} (h : e.IsConstant) : e.nested? = none := by
  cases e with
  | member => rfl
  | nested => exact h.elim

end Entry

/-- **A type that is declared is well-formed**, if the entries of its braces are. -/
theorem comesTo_typeDeclaration (hall : NamesAll all) {entries : EntryParser} (hw : entries.Walks)
    (he : ∀ name d, ComesTo all (fun es => ∀ e ∈ es, e.WellFormed all) (entries name) d)
    (namespaceName : Option String) (mods : List String) {c : Cursor}
    (hc : atTypeKeyword c = true) : ComesTo all (fun t => t.namespaceName = namespaceName ∧
      WellFormed all t) (typeDeclaration entries namespaceName mods) c := by
  intro hr
  have hk : MovesAt true typeKeyword c := movesAt_typeKeyword hc
  have hhead : Walk true c _ (bodyStart c) :=
    .append hk.walks <| .append (walks_typeName _ true _) <|
      .append (walks_typeParameters? true _) <|
        .append (walksAt_declaredParameters true hc) (walks_bases true _)
  obtain ⟨ls, hp⟩ := hhead.passed.passes
  obtain ⟨hinside, hconstants⟩ := comesTo_typeBody hall hw he (typeKeyword c).value
    (declaredName c).value.1 (declaredName c).value.2 (bodyStart c) (hr.passes hp)
  refine ⟨rfl, .intro (standsAt_declaredName hr hc) (fun m hm => ?_)
    (fun hkind => ⟨?_, fun m hm => ?_⟩) (fun u hu => ?_) fun u hu => ?_⟩
  · obtain ⟨e, hmem, hm⟩ := List.mem_filterMap.1 hm
    exact (hinside e hmem).member hm
  · exact List.filterMap_eq_nil_iff.2 fun e hmem => (hconstants hkind e hmem).nested?_eq
  · obtain ⟨e, hmem, hm⟩ := List.mem_filterMap.1 hm
    exact (hconstants hkind e hmem).member hm
  · obtain ⟨e, hmem, hu⟩ := List.mem_filterMap.1 hu
    exact ((hinside e hmem).nested hu).1
  · obtain ⟨e, hmem, hu⟩ := List.mem_filterMap.1 hu
    exact ((hinside e hmem).nested hu).2

theorem passed_advance {c : Cursor} {k : String} (h : c.atKeyword k = true) :
    (advance c).Passed c :=
  have hm : MovesAt true advance c := movesAt_advance_of_atKeyword h
  hm.walks.passed

/-- **A delegate that is declared is well-formed.** -/
theorem comesTo_delegateDeclaration (namespaceName : Option String) {c : Cursor}
    (hc : c.atKeyword "delegate" = true) :
    ComesTo all (fun o => ∀ t ∈ o, t.namespaceName = namespaceName ∧ WellFormed all t)
      (delegateDeclaration namespaceName) c := by
  refine .bind (passed_advance hc) <|
    .bind (walks_typeReference true _).passed <|
    .ite (fun _ => .look fun hr => ?_) fun _ _ t ht => by cases ht
  generalize (typeReference (advance c).rest).rest = d at hr ⊢
  obtain ⟨hn, l, ls, ha, hname⟩ | ⟨-, hname⟩ := name?_cases d
  · rw [bind_apply, hname]
    intro t ht
    obtain rfl := Option.some.inj ht
    refine ⟨rfl, .intro (standsAt_start hr ha hn) ?_ nofun ?_ ?_⟩ <;>
      exact fun _ h => absurd h List.not_mem_nil
  · rw [bind_apply, hname]
    exact fun t ht => by cases ht

/-! ### Members -/

/-- An event has a name that is not empty, if it has one. -/
theorem comesTo_event (hall : NamesAll all) {c : Cursor} (hc : c.atKeyword "event" = true) :
    ComesTo all (fun o => ∀ n ∈ o, n ≠ "") event c := by
  refine .bind (passed_advance hc) <|
    .bind (walks_typeReference true _).passed <|
    .andThen (walks_memberName? true _).passed (comesTo_memberName? hall _) fun h => .look <|
    .ite (fun _ => .last fun _ => h) fun _ => .last fun _ => h

/-- A conversion is named for its word. -/
theorem comesTo_conversion {c : Cursor}
    (hc : (c.atKeyword "implicit" || c.atKeyword "explicit") = true) :
    ComesTo all (· ≠ "") conversion c := by
  have name : (if c.text = "implicit" then "op_Implicit" else "op_Explicit") ≠ "" := by
    split <;> decide
  refine .look <| .bind ((Bool.or_eq_true_iff.1 hc).elim passed_advance passed_advance) <| .look <|
    .ite (fun h => .bind (passed_advance h) fun _ => name) fun _ _ => name

/-- A member that starts with a type has a name. -/
theorem comesTo_typedMember (hall : NamesAll all) {symbol : MemberKind → String → Entry}
    (hs : ∀ k n, n ≠ "" → (symbol k n).WellFormed all) (c : Cursor) :
    ComesTo all (fun es => ∀ e ∈ es, e.WellFormed all) (typedMember symbol) c := by
  have one {k : MemberKind} {n : String} (hn : n ≠ "") : ∀ e ∈ [symbol k n], e.WellFormed all :=
    List.forall_mem_singleton.2 (hs k n hn)
  have none : ∀ e ∈ ([] : List Entry), e.WellFormed all := fun _ h => absurd h List.not_mem_nil
  refine .look <| .ite (fun _ => .last fun _ => one (by decide)) fun _ => ?_
  refine .look <| .ite (fun _ => .last fun _ => one (by decide)) fun _ => ?_
  refine .look <| .ite (fun _ _ => none) fun _ =>
    .andThen (walks_memberName? true _).passed (comesTo_memberName? hall _) fun h => ?_
  split
  · exact fun _ => none
  · rename_i name hname
    have hn : name ≠ "" := h name hname
    refine .look <| .ite (fun _ => .last fun _ => one hn) fun _ => .look <|
      .ite (fun _ => .last fun _ => one hn) fun _ =>
      .andThen (walks_moreFields true _).passed (comesTo_moreFields hall _) fun hmore =>
      .last fun _ e he => ?_
    obtain ⟨n, hmem, rfl⟩ := List.mem_map.1 he
    rcases List.mem_cons.1 hmem with rfl | hmem
    · exact hs _ _ hn
    · exact hs _ n (hmore n hmem)

/-- **A member is well-formed**, if the entries of types are. -/
theorem comesTo_member (hall : NamesAll all) {entries : EntryParser} (hw : entries.Walks)
    (he : ∀ name d, ComesTo all (fun es => ∀ e ∈ es, e.WellFormed all) (entries name) d)
    (owner : String) (c : Cursor) :
    ComesTo all (fun es => ∀ e ∈ es, e.WellFormed all) (member entries owner) c := by
  have one {k : MemberKind} {n : String} {isStatic : Bool} (hn : n ≠ "") :
      ∀ e ∈ [Entry.member ⟨k, n, isStatic⟩], e.WellFormed all := List.forall_mem_singleton.2 hn
  refine .bind (walks_attributes true c).passed <| .bind (walks_modifiers true _).passed <|
    .look <| .ite (fun _ => .pure fun _ h => absurd h List.not_mem_nil) fun _ => ?_
  refine .look <| .ite (fun hc => .map (comesTo_typeDeclaration hall hw he _ _ hc) fun t ht =>
    List.forall_mem_singleton.2 ht) fun _ => ?_
  refine .look <| .ite (fun hc => .map (comesTo_delegateDeclaration _ hc) fun o ho e hmem => ?_)
    fun _ => ?_
  · obtain ⟨t, ht, rfl⟩ := Option.map_eq_some_iff.1 (Option.mem_toList.1 hmem)
    exact ho t ht
  refine .look <| .ite (fun _ => .last fun _ => one (by decide)) fun _ => ?_
  refine .look <| .ite (fun hc => .map (comesTo_event hall hc) fun o ho e hmem => ?_) fun _ => ?_
  · obtain ⟨n, hn, rfl⟩ := Option.map_eq_some_iff.1 (Option.mem_toList.1 hmem)
    exact ho n hn
  refine .look <| .ite (fun _ => .last fun _ => one (by decide)) fun _ => ?_
  refine .look <| .ite (fun hc => .map (comesTo_conversion hc) fun n hn => one hn) fun _ => ?_
  refine .look <| .bind (walks_typeReference true _).passed <| .ite (fun _ => ?_) fun _ _ => ?_
  · refine comesTo_typedMember hall (fun k n hn => ?_) _
    exact hn
  · exact fun _ h => absurd h List.not_mem_nil

/-- **A turn of the members** declares well formed entries, if shorter lists do. -/
theorem comesTo_memberTurn (hall : NamesAll all) {c : Cursor} (owner : String)
    (h : ∀ name d, d.remaining < c.remaining →
      ComesTo all (fun es => ∀ e ∈ es, e.WellFormed all) (memberList name) d) :
    ComesTo all (fun es => ∀ e ∈ es, e.WellFormed all) (memberTurn owner) c := by
  have hwalks : EntryParser.Walks fun name => below c.remaining (memberList name) :=
    .guard fun name d _ top => walks_memberList name top d
  have hentries (name : String) (d : Cursor) : ComesTo all (fun es => ∀ e ∈ es, e.WellFormed all)
      (below c.remaining (memberList name)) d := by
    by_cases hd : d.remaining < c.remaining
    · exact .of_eq (dif_pos hd) (h name d hd)
    · exact .of_eq (q := pure []) (dif_neg hd) (.pure fun _ he => absurd he List.not_mem_nil)
  have hmember : ComesTo all (fun es => ∀ e ∈ es, e.WellFormed all) (member memberList owner) c :=
    .of_eq (member_congr (agreeBelow_below memberList c.remaining) (Nat.le_refl _) owner).symm
      (comesTo_member hall hwalks hentries owner c)
  have hvalue : (memberTurn owner c).value = (member memberList owner c).value := by
    unfold memberTurn
    dsimp only
    split <;> rfl
  intro hr
  rw [hvalue]
  exact hmember hr

/-- **The entries of a type are well-formed.** -/
theorem comesTo_memberList (hall : NamesAll all) (owner : String) (c : Cursor) :
    ComesTo all (fun es => ∀ e ∈ es, e.WellFormed all) (memberList owner) c := by
  induction hn : c.remaining using Nat.strongRecOn generalizing owner c with
  | ind n ih =>
    subst hn
    refine .of_eq (memberList_eq owner c) (.look <| .ite (fun _ => ?_) fun hc => ?_)
    · exact .pure fun _ h => absurd h List.not_mem_nil
    · have he : c.atEnd = false := by simp_all
      exact .append (passes_memberTurn owner c)
        (comesTo_memberTurn hall owner fun name d hd => ih _ hd name d rfl)
        (ih _ (memberTurn_remaining_lt owner he) _ _ rfl)

/-! ### Files -/

/-- What an item of a file may be. -/
def Item.WellFormed (all : List Lexeme) : Item → Prop
  | .type t => Parser.WellFormed all t
  | .imported _ | .fileNamespace _ => True

/-- Items without types are well-formed. -/
theorem DeclaresNone.comesTo {p : Parser (List Item)} {c : Cursor}
    (h : DeclaresNone itemTypes p c) : ComesTo all (fun is => ∀ i ∈ is, i.WellFormed all) p c := by
  intro _ i hi
  cases i with
  | imported | fileNamespace => trivial
  | type t => exact absurd (h ▸ List.mem_filterMap.2 ⟨_, hi, rfl⟩ : t ∈ []) List.not_mem_nil

theorem comesTo_namespaceMember (hall : NamesAll all) (namespaceName : Option String) (c : Cursor) :
    ComesTo all (fun is => ∀ i ∈ is, i.WellFormed all) (namespaceMember namespaceName) c := by
  have none : ∀ i ∈ ([] : List Item), i.WellFormed all := fun _ h => absurd h List.not_mem_nil
  refine .bind (walks_attributes true c).passed <| .look <| .ite (fun _ => .pure none) fun _ =>
    .bind (walks_modifiers true _).passed <| .look <| .ite (fun hc => ?_) fun _ => .look <|
    .ite (fun hc => .map (comesTo_delegateDeclaration _ hc) fun o ho i hi => ?_) fun _ _ => none
  · exact .map (comesTo_typeDeclaration hall walks_memberList (comesTo_memberList hall) _ _ hc)
      fun t ht => List.forall_mem_singleton.2 ht.2
  · obtain ⟨t, ht, rfl⟩ := Option.map_eq_some_iff.1 (Option.mem_toList.1 hi)
    exact (ho t ht).2

theorem comesTo_namespaceDeclaration {items : ItemParser} {c : Cursor}
    (place : NamespacePlace) (h : ∀ name d, d.remaining < c.remaining →
      ComesTo all (fun is => ∀ i ∈ is, i.WellFormed all) (items name) d)
    (hc : c.atKeyword "namespace" = true) :
    ComesTo all (fun is => ∀ i ∈ is, i.WellFormed all) (namespaceDeclaration items place) c := by
  have hm : MovesAt true advance c := movesAt_advance_of_atKeyword hc
  refine .look <| .bind hm.walks.passed <|
    .bind (walks_namespacePath true _).passed <| .bind (eat_passed ";" _) <|
    .ite (fun _ => DeclaresNone.comesTo <| .bind ?_) fun _ => .bind (eat_passed "\x7b" _) <|
    .ite (fun _ => ?_) fun _ => DeclaresNone.comesTo <| .bind <| .pure rfl
  · dsimp only
    split
    · exact .bind <| .pure rfl
    · exact .pure rfl
  · refine h _ _ (Nat.lt_of_le_of_lt ?_ (Cursor.remaining_next_lt (Cursor.atEnd_of_any hc)))
    exact Nat.le_trans (eat_remaining_le _ _) <| Nat.le_trans (eat_remaining_le _ _) <|
      Walk.remaining_le (walks_namespacePath true c.next)

theorem comesTo_namespaceTurn (hall : NamesAll all) {c : Cursor} (full : String) (late : Bool)
    (h : ∀ name d, d.remaining < c.remaining →
      ComesTo all (fun is => ∀ i ∈ is, i.WellFormed all) (namespaceItems name false) d) :
    ComesTo all (fun is => ∀ i ∈ is, i.WellFormed all) (namespaceTurn full late) c :=
  .of_eq (namespaceItem_eq _ full late c) <| .look <|
    .ite (fun _ => (declaresNone_placedUsing late c).comesTo) fun _ => .look <|
    .ite (fun hk => comesTo_namespaceDeclaration _ h hk) fun _ => comesTo_namespaceMember hall _ _

/-- **The items of a namespace** are well formed, by induction on the lexemes that are left. -/
theorem comesTo_namespaceItems (hall : NamesAll all) (full : String) (late : Bool) (c : Cursor) :
    ComesTo all (fun is => ∀ i ∈ is, i.WellFormed all) (namespaceItems full late) c := by
  induction hn : c.remaining using Nat.strongRecOn generalizing full late c with
  | ind n ih =>
    subst hn
    have none : ∀ i ∈ ([] : List Item), i.WellFormed all := fun _ h => absurd h List.not_mem_nil
    refine .of_eq (namespaceItems_eq full late c) (.look <|
      .ite (fun _ _ => none) fun hb => .look <| .ite (fun _ _ => none) fun he => .look ?_)
    have hm := movesAt_namespaceItem full late (walksIn_namespaceItems c.remaining)
      (Bool.eq_false_iff.2 hb) (Bool.eq_false_iff.2 he)
    exact .append hm.walks.passed.passes
      (comesTo_namespaceTurn hall full late fun name d hd => ih _ hd _ _ d rfl)
      (ih _ (Walk.remaining_lt hm.walks hm.index_lt) _ _ _ rfl)

/-- An item of a file is well formed. -/
theorem comesTo_fileItem (hall : NamesAll all) (fileNamespace : Option String) (late : Bool)
    (c : Cursor) :
    ComesTo all (fun is => ∀ i ∈ is, i.WellFormed all) (fileItem fileNamespace late) c := by
  have none : ∀ i ∈ ([] : List Item), i.WellFormed all := fun _ h => absurd h List.not_mem_nil
  unfold ComesTo fileItem
  split
  · exact (declaresNone_placedUsing late c).comesTo
  split
  · exact fun _ => none
  split
  · exact comesTo_namespaceDeclaration _ (fun name d _ => comesTo_namespaceItems hall name false d)
      ‹_›
  split
  · exact fun _ => none
  · exact comesTo_namespaceMember hall _ _

/-- **The items of a file are well-formed.** -/
theorem comesTo_fileItems (hall : NamesAll all) (fileNamespace : Option String) (late : Bool)
    (c : Cursor) :
    ComesTo all (fun is => ∀ i ∈ is, i.WellFormed all) (fileItems fileNamespace late) c := by
  induction hn : c.remaining using Nat.strongRecOn generalizing fileNamespace late c with
  | ind n ih =>
    subst hn
    cases he : c.atEnd with
    | true =>
      have hnone : fileItems fileNamespace late c = (pure [] : Parser (List Item)) c := by
        rw [fileItems, he, if_pos rfl]
        rfl
      exact .of_eq hnone (.pure fun _ h => absurd h List.not_mem_nil)
    | false =>
      have hm := movesAt_fileItem fileNamespace late he
      refine .of_eq (eq_bind_of_goesOn (goesOn_fileItems fileNamespace late he)) ?_
      exact .append hm.walks.passed.passes (comesTo_fileItem hall _ _ c)
        (ih _ (Walk.remaining_lt hm.walks hm.index_lt) _ _ _ rfl)

/-- **The types of a file are well-formed.** -/
theorem wellFormed_parseFile {ls : List Lexeme} (h : NamesAll ls) :
    ∀ t ∈ itemTypes (parseFile ls).value, WellFormed ls t := by
  intro t ht
  obtain ⟨i, hi, hit⟩ := List.mem_filterMap.1 ht
  have hwell := comesTo_fileItems h none false ⟨0, ls⟩ (.start ls) i hi
  cases i with
  | imported | fileNamespace => cases hit
  | type u => exact Option.some.inj hit ▸ hwell

end Parser
end Outline
